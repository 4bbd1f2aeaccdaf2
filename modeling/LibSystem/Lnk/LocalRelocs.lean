import LibSystem.Additions
import LibSystem.Lnk.ClassicBind

/-!
# Scattered and plain local relocations

A plain entry is relocated behind the start of the first segment, and a scattered one behind a word
that nobody sets.
-/

namespace LibSystem.Lnk

open Outcome Mem

/-! ## Entries -/

/-- The two words of an entry of the table. -/
structure LocalReloc where
  address : Word
  info : Word

namespace LocalReloc

def read (mem : Mem) (reloc : Addr) : LocalReloc := ⟨mem.load reloc, mem.load (reloc + 4)⟩

def Scattered (e : LocalReloc) : Prop := e.address &&& rScattered ≠ 0

instance (e : LocalReloc) : Decidable e.Scattered := by
  unfold Scattered
  infer_instance

/-- `r_address`, which a scattered entry shares with its other fields. -/
def rAddress (e : LocalReloc) : Word := if e.Scattered then e.address &&& 0x00ffffff else e.address

/-- `r_length` is `RELOC_SIZE` and `r_type` is `GENERIC_RELOC_VANILLA`. -/
def WordVanilla (e : LocalReloc) : Prop :=
  if e.Scattered then
    (e.address >>> 28) &&& 3 = relocSize ∧ (e.address >>> 24) &&& 0xf = genericRelocVanilla
  else (e.info >>> 25) &&& 3 = relocSize ∧ e.info >>> 28 = genericRelocVanilla

instance (e : LocalReloc) : Decidable e.WordVanilla := by
  unfold WordVanilla
  infer_instance

/-- The word of an entry, if those of scattered entries lie behind `scatteredBase`. -/
def site (relocBase scatteredBase : Addr) (e : LocalReloc) : Addr :=
  e.rAddress + if e.Scattered then scatteredBase else relocBase

end LocalReloc

/-- The entries that a run reads. -/
def classicRebaseLoopEntries (slide relocBase segmentSlide : Word) :
    Nat → Mem → Addr → List LocalReloc
  | 0, _, _ => []
  | count + 1, mem, reloc =>
    .read mem reloc ::
      match classicRebaseOne slide relocBase segmentSlide mem reloc with
      | .done mem => classicRebaseLoopEntries slide relocBase segmentSlide count mem (reloc + 8)
      | _ => []

def localRelocStart (obj : MachObject) : Addr :=
  obj.fLinkEditBase + obj.dysymtab.locreloff

def localRelocCount (obj : MachObject) : Nat :=
  ((localRelocStart obj + 8 * obj.dysymtab.nlocrel).toNat -
    (localRelocStart obj).toNat) / 8

def classicRebaseEntries (segmentSlides : MachObject → Word) (mem : Mem) (obj : MachObject) :
    List LocalReloc :=
  match segActualLoadAddr obj 0 with
  | .done relocBase =>
    classicRebaseLoopEntries obj.fSlide relocBase (segmentSlides obj)
      (localRelocCount obj) mem (localRelocStart obj)
  | _ => []

/-- The entries that stand in memory before the run. -/
def localRelocTable (mem : Mem) (start : Addr) (count : Nat) : List LocalReloc :=
  (List.range count).map fun i => .read mem (start + 8 * BitVec.ofNat 32 i)

/-- The words that entries relocate. -/
def relocSites (relocBase scatteredBase : Addr) (entries : List LocalReloc) : List Addr :=
  (entries.filter fun e => decide e.WordVanilla).map (LocalReloc.site relocBase scatteredBase)

/-- The word of each vanilla entry, scattered or not, has grown by the slide, and nothing else has
changed. -/
structure RelocatedAlike (slide relocBase : Word) (entries : List LocalReloc) (mem mem' : Mem) :
    Prop where
  grown : ∀ e ∈ entries, e.WordVanilla →
    mem'.load (relocBase + e.rAddress) = mem.load (relocBase + e.rAddress) + slide
  kept : ∀ x, (∀ e ∈ entries, e.WordVanilla → ¬ InWord (relocBase + e.rAddress) x) →
    mem' x = mem x

/-! ## The loop -/

variable {slide relocBase segmentSlide : Word} {mem mem' : Mem} {reloc : Addr}

theorem relocSites_of_vanilla {e : LocalReloc} (h : e.WordVanilla) (base b : Addr) :
    relocSites base b [e] = [e.site base b] := by
  simp [relocSites, h]

theorem relocSites_of_not_vanilla {e : LocalReloc} (h : ¬ e.WordVanilla) (base b : Addr) :
    relocSites base b [e] = [] := by
  simp [relocSites, h]

theorem classicRebaseOne_eq :
    (classicRebaseOne slide relocBase segmentSlide mem reloc).Ensures fun mem' =>
      mem' = mem.addAll slide (relocSites relocBase segmentSlide [.read mem reloc]) := by
  unfold classicRebaseOne
  refine .ite (fun hplain => .ite (fun _ => .halt _) fun _ => .ite (fun hlength =>
      .ite (fun htype => .done ?plain) fun _ => .halt _) fun _ => .halt _) fun hscattered =>
    .ite (fun hlength => .ite (fun htype => .done ?scattered) fun htype =>
      .ite (fun _ => .done ?pbLaPtr) fun _ => .halt _) fun _ => .halt _
  case plain =>
    have hsc : ¬ (LocalReloc.read mem reloc).Scattered := fun hs => hs hplain
    have hvanilla : (LocalReloc.read mem reloc).WordVanilla := by
      unfold LocalReloc.WordVanilla
      rw [if_neg hsc]
      exact ⟨hlength, htype⟩
    rw [relocSites_of_vanilla hvanilla]
    simp only [LocalReloc.site, LocalReloc.rAddress, if_neg hsc]
    rfl
  case scattered =>
    have hsc : (LocalReloc.read mem reloc).Scattered := hscattered
    have hvanilla : (LocalReloc.read mem reloc).WordVanilla := by
      unfold LocalReloc.WordVanilla
      rw [if_pos hsc]
      exact ⟨hlength, htype⟩
    rw [relocSites_of_vanilla hvanilla]
    simp only [LocalReloc.site, LocalReloc.rAddress, if_pos hsc]
    rfl
  case pbLaPtr =>
    have hsc : (LocalReloc.read mem reloc).Scattered := hscattered
    have hother : ¬ (LocalReloc.read mem reloc).WordVanilla := by
      unfold LocalReloc.WordVanilla
      rw [if_pos hsc]
      exact fun hv => htype hv.2
    rw [relocSites_of_not_vanilla hother]
    rfl

theorem relocSites_cons (relocBase scatteredBase : Addr) (e : LocalReloc)
    (entries : List LocalReloc) :
    relocSites relocBase scatteredBase (e :: entries) =
      relocSites relocBase scatteredBase [e] ++ relocSites relocBase scatteredBase entries := by
  unfold relocSites
  rw [← List.map_append, ← List.filter_append]
  rfl

theorem classicRebaseLoop_eq {count : Nat}
    (h : classicRebaseLoop slide relocBase segmentSlide count mem reloc = done mem') :
    mem' = mem.addAll slide (relocSites relocBase segmentSlide
      (classicRebaseLoopEntries slide relocBase segmentSlide count mem reloc)) := by
  induction count generalizing mem reloc with
  | zero => exact (done.inj h).symm
  | succ count ih =>
    obtain ⟨mem1, hone, h⟩ := bind_eq_done.mp h
    rw [classicRebaseLoopEntries, hone, relocSites_cons, addAll_append,
      ← classicRebaseOne_eq _ hone]
    exact ih h

theorem classicRebase_eq {segmentSlides : MachObject → Word} {obj : MachObject}
    (hbase : segActualLoadAddr obj 0 = done relocBase)
    (h : classicRebase segmentSlides mem obj = done mem') :
    mem' = mem.addAll obj.fSlide (relocSites relocBase (segmentSlides obj)
      (classicRebaseEntries segmentSlides mem obj)) := by
  unfold classicRebase at h
  rw [hbase, done_bind] at h
  split at h
  · simp at h
  · unfold classicRebaseEntries
    rw [hbase]
    exact classicRebaseLoop_eq h

/-! ## Scattered entries behind another base -/

theorem LocalReloc.rAddress_lt {e : LocalReloc} (h : e.Scattered) : e.rAddress.toNat < 2 ^ 24 := by
  unfold rAddress
  rw [if_pos h, BitVec.toNat_and]
  exact Nat.lt_of_le_of_lt Nat.and_le_right (by decide)

theorem LocalReloc.site_scattered {e : LocalReloc} (h : e.Scattered) (base b : Addr) :
    e.site base b = e.rAddress + b := by
  unfold site
  rw [if_pos h]

theorem LocalReloc.site_plain {e : LocalReloc} (h : ¬ e.Scattered) (base b : Addr) :
    e.site base b = e.rAddress + base := by
  unfold site
  rw [if_neg h]

theorem exists_first_scattered {entries : List LocalReloc} (h : ∃ e ∈ entries, e.Scattered) :
    ∃ e0 ∈ entries, e0.Scattered ∧
      ∀ e ∈ entries, e.Scattered → e0.rAddress.toNat ≤ e.rAddress.toNat := by
  classical
  have hex : ∃ n, ∃ e ∈ entries, e.Scattered ∧ e.rAddress.toNat = n := by
    obtain ⟨e, he, hs⟩ := h
    exact ⟨_, e, he, hs, rfl⟩
  obtain ⟨e0, he0, hs0, hn⟩ := Nat.find_spec hex
  refine ⟨e0, he0, hs0, fun e he hs => ?_⟩
  rw [hn]
  exact Nat.find_min' hex ⟨e, he, hs, rfl⟩

theorem LocalReloc.site_behind {e e0 : LocalReloc} (hs : e.Scattered) (hs0 : e0.Scattered)
    (base : Addr) {b b' : Addr} (hfirst : e0.rAddress.toNat ≤ e.rAddress.toNat)
    (hle : (b - b').toNat ≤ 2 ^ 31) (hne : b ≠ b' ∨ e0.rAddress ≠ e.rAddress) :
    0 < (e.site base b - e0.site base b').toNat ∧
      (e.site base b - e0.site base b').toNat ≤ 2 ^ 31 + 2 ^ 24 := by
  have hlow := LocalReloc.rAddress_lt hs
  have hlow0 := LocalReloc.rAddress_lt hs0
  rw [e.site_scattered hs, e0.site_scattered hs0]
  constructor
  · rcases hne with hne | hne
    · bv_omega
    · bv_omega
  · bv_omega

/-- Entries whose words have no byte in common leave another memory if the scattered ones are
moved. -/
theorem moved_ne {entries : List LocalReloc} {base b b' : Addr} (hslide : slide ≠ 0)
    (hapart : (entries.map (LocalReloc.site base base)).Pairwise Apart)
    (hsc : ∃ e ∈ entries, e.Scattered) (hne : b ≠ b') (hle : (b - b').toNat ≤ 2 ^ 31) :
    mem.addAll slide (entries.map (LocalReloc.site base b)) ≠
      mem.addAll slide (entries.map (LocalReloc.site base b')) := by
  obtain ⟨k, hk⟩ := exists_lowestDigit hslide
  obtain ⟨e0, he0, hs0, hfirst⟩ := exists_first_scattered hsc
  obtain ⟨l1, l2, rfl⟩ := List.append_of_mem he0
  rw [List.pairwise_map, List.pairwise_middle Apart.symm, List.pairwise_cons] at hapart
  obtain ⟨hother, hrest⟩ := hapart
  -- The byte that only `e0` behind `b'` changes, and the word of another entry over it.
  generalize hy : e0.site base b' + BitVec.ofNat 32 k = y
  obtain ⟨w, hw, hwindow⟩ := exists_window (List.pairwise_map.mpr hrest) k y
  have hbehind : ∀ {e : LocalReloc} {c : Addr}, e.Scattered →
      e0.rAddress.toNat ≤ e.rAddress.toNat → (c - b').toNat ≤ 2 ^ 31 →
      (c ≠ b' ∨ e0.rAddress ≠ e.rAddress) → Misses k w y (e.site base c) := by
    intro e c hs hge hle hne
    obtain ⟨hpos, hfar⟩ := e.site_behind hs hs0 base hge hle hne
    exact misses_behind hk.lt hw hy.symm hpos hfar
  have hstep : ∀ e ∈ l1 ++ l2, InStep k w y (e.site base b, e.site base b') := by
    intro e he
    by_cases hs : e.Scattered
    · have hge : e0.rAddress.toNat ≤ e.rAddress.toNat := by
        refine hfirst e ?_ hs
        simp only [List.mem_append, List.mem_cons] at he ⊢
        exact he.imp_right Or.inr
      have hdiff : e0.rAddress ≠ e.rAddress := by
        intro heq
        have hself := hother e he
        rw [e0.site_scattered hs0, e.site_scattered hs, heq] at hself
        exact not_apart_self _ hself
      exact Or.inr ⟨hbehind hs hge hle (Or.inr hdiff), hbehind hs hge (by simp) (Or.inr hdiff)⟩
    · have hword := hwindow _ (List.mem_map_of_mem he)
      unfold InStep
      rw [e.site_plain hs] at hword ⊢
      rw [e.site_plain hs, and_self, and_self]
      exact hword
  have hpairs : ∀ l : List LocalReloc, (∀ e ∈ l, e ∈ l1 ++ l2) →
      ∀ p ∈ l.map (fun e => (e.site base b, e.site base b')), InStep k w y p := by
    intro l hl p hp
    obtain ⟨e, he, rfl⟩ := List.mem_map.mp hp
    exact hstep e (hl e he)
  have hdiffer := addAll_ne mem hk hw
    (hpairs l1 fun e he => List.mem_append.mpr (Or.inl he))
    (hpairs l2 fun e he => List.mem_append.mpr (Or.inr he))
    (hbehind hs0 (Nat.le_refl _) hle (Or.inl hne)) hy.symm
    (not_touches_below hk.lt hw hy.symm)
  intro heq
  apply hdiffer
  simp only [List.map_append, List.map_cons, List.map_map] at heq ⊢
  exact congrFun heq y

/-! ## The table -/

theorem localRelocTable_succ (mem : Mem) (start : Addr) (count : Nat) :
    localRelocTable mem start (count + 1) =
      .read mem start :: localRelocTable mem (start + 8) count := by
  unfold localRelocTable
  rw [List.range_succ_eq_map, List.map_cons, List.map_map]
  congr 1
  · simp
  · refine List.map_congr_left fun i _ => ?_
    rw [Function.comp_apply, Nat.succ_eq_add_one, stride_succ]

theorem read_congr (h : ∀ x, (x - reloc).toNat < 8 → mem' x = mem x) :
    LocalReloc.read mem' reloc = .read mem reloc := by
  unfold LocalReloc.read
  congr 1
  · exact load_congr fun x hx => h x (by unfold InWord at hx; omega)
  · exact load_congr fun x hx => h x (by unfold InWord at hx; bv_omega)

theorem localRelocTable_congr {start : Addr} {count : Nat} (hcount : 8 * count ≤ 2 ^ 32)
    (h : ∀ x, (x - start).toNat < 8 * count → mem' x = mem x) :
    localRelocTable mem' start count = localRelocTable mem start count := by
  unfold localRelocTable
  refine List.map_congr_left fun i hi => read_congr fun x hx => h x ?_
  have hi := List.mem_range.mp hi
  have hoff : (8 * BitVec.ofNat 32 i : Word).toNat = 8 * i := by
    rw [BitVec.toNat_mul, BitVec.toNat_ofNat]
    show 8 * (i % 2 ^ 32) % 2 ^ 32 = 8 * i
    omega
  generalize (8 * BitVec.ofNat 32 i : Word) = off at hx hoff
  bv_omega

theorem classicRebaseLoopEntries_eq {count : Nat} (hcount : 8 * count ≤ 2 ^ 32)
    (hrun : classicRebaseLoop slide relocBase segmentSlide count mem reloc = done mem')
    (hclear : ∀ a ∈ relocSites relocBase segmentSlide (localRelocTable mem reloc count),
      ∀ x, (x - reloc).toNat < 8 * count → ¬ InWord a x) :
    classicRebaseLoopEntries slide relocBase segmentSlide count mem reloc =
      localRelocTable mem reloc count := by
  induction count generalizing mem reloc with
  | zero => rfl
  | succ count ih =>
    obtain ⟨mem1, hone, hrun⟩ := bind_eq_done.mp hrun
    rw [localRelocTable_succ, relocSites_cons] at hclear
    have hsame : ∀ x, (x - reloc).toNat < 8 * (count + 1) → mem1 x = mem x := by
      intro x hx
      rw [classicRebaseOne_eq _ hone]
      exact addAll_outside fun a ha => hclear a (List.mem_append_left _ ha) x hx
    have htable : localRelocTable mem1 (reloc + 8) count = localRelocTable mem (reloc + 8) count :=
      localRelocTable_congr (by omega) fun x hx => hsame x (by bv_omega)
    rw [localRelocTable_succ, classicRebaseLoopEntries, hone]
    dsimp only
    rw [ih (by omega) hrun, htable]
    intro a ha x hx
    rw [htable] at ha
    exact hclear a (List.mem_append_right _ ha) x (by bv_omega)

/-! ## When they relocate alike -/

theorem relocatedAlike_iff {entries : List LocalReloc}
    (hapart : (relocSites relocBase relocBase entries).Pairwise Apart) :
    RelocatedAlike slide relocBase entries mem mem' ↔
      mem' = mem.addAll slide (relocSites relocBase relocBase entries) := by
  have hsite : ∀ e : LocalReloc, e.site relocBase relocBase = relocBase + e.rAddress := by
    intro e
    unfold LocalReloc.site
    rw [ite_self, BitVec.add_comm]
  have hmem : ∀ P : Addr → Prop, (∀ a ∈ relocSites relocBase relocBase entries, P a) ↔
      ∀ e ∈ entries, e.WordVanilla → P (relocBase + e.rAddress) := by
    intro P
    simp only [relocSites, List.forall_mem_map, List.mem_filter, decide_eq_true_eq, hsite, and_imp]
  rw [← grown_iff hapart, hmem]
  constructor
  · intro h
    exact ⟨h.grown, fun x hx => h.kept x ((hmem _).mp hx)⟩
  · rintro ⟨hgrown, hkept⟩
    exact ⟨hgrown, fun x hx => hkept x ((hmem _).mpr hx)⟩

theorem addAll_sites_iff {entries : List LocalReloc}
    (hapart : (relocSites relocBase relocBase entries).Pairwise Apart) :
    mem.addAll slide (relocSites relocBase segmentSlide entries) =
        mem.addAll slide (relocSites relocBase relocBase entries) ↔
      slide = 0 ∨ segmentSlide = relocBase ∨ ∀ e ∈ entries, e.WordVanilla → ¬ e.Scattered := by
  constructor
  · intro heq
    by_contra hnot
    simp only [not_or, not_forall, not_not] at hnot
    obtain ⟨hslide, hbase, e, he, hvanilla, hs⟩ := hnot
    have hsc : ∃ e ∈ entries.filter fun e => decide e.WordVanilla, e.Scattered :=
      ⟨e, List.mem_filter.mpr ⟨he, decide_eq_true hvanilla⟩, hs⟩
    unfold relocSites at heq hapart
    by_cases hle : (relocBase - segmentSlide).toNat ≤ 2 ^ 31
    · exact moved_ne hslide hapart hsc (fun h => hbase h.symm) hle heq.symm
    · exact moved_ne hslide hapart hsc hbase (by bv_omega) heq
  · rintro (rfl | rfl | hplain)
    · exact (addAll_zero _ _).trans (addAll_zero _ _).symm
    · rfl
    · congr 1
      refine List.map_congr_left fun e he => ?_
      obtain ⟨he, hvanilla⟩ := List.mem_filter.mp he
      have hs := hplain e he (of_decide_eq_true hvanilla)
      rw [e.site_plain hs, e.site_plain hs]

/-- **Local relocations.** Where the words of the entries have no byte in common, they are relocated
alike exactly if the slide is 0, or no vanilla entry is scattered, or the word that nobody sets is
the base. The entries are those of the table if no word of it is relocated. -/
theorem classicRebase_alike_iff (segmentSlides : MachObject → Word) (cmds : BindCommands)
    (mem mem' : Mem) (obj : MachObject) (relocBase : Addr) (hsplit : obj.fIsSplitSeg = false)
    (hbase : getClassicRelocBase cmds obj = done relocBase)
    (hrun : classicRebase segmentSlides mem obj = done mem')
    (hapart : (relocSites relocBase relocBase
      (classicRebaseEntries segmentSlides mem obj)).Pairwise Apart) :
    (RelocatedAlike obj.fSlide relocBase (classicRebaseEntries segmentSlides mem obj) mem mem' ↔
      obj.fSlide = 0 ∨ segmentSlides obj = relocBase ∨
        ∀ e ∈ classicRebaseEntries segmentSlides mem obj, e.WordVanilla → ¬ e.Scattered) ∧
    ((∀ a ∈ relocSites relocBase (segmentSlides obj)
        (localRelocTable mem (localRelocStart obj) (localRelocCount obj)),
      ∀ x, (x - localRelocStart obj).toNat < 8 * localRelocCount obj →
        ¬ InWord a x) →
      classicRebaseEntries segmentSlides mem obj =
        localRelocTable mem (localRelocStart obj) (localRelocCount obj)) := by
  have hload : segActualLoadAddr obj 0 = done relocBase := by
    unfold getClassicRelocBase at hbase
    rwa [hsplit] at hbase
  constructor
  · rw [relocatedAlike_iff hapart, classicRebase_eq hload hrun]
    exact addAll_sites_iff hapart
  · intro hclear
    unfold classicRebase at hrun
    rw [hload, done_bind] at hrun
    unfold classicRebaseEntries
    rw [hload]
    split at hrun
    · simp at hrun
    · refine classicRebaseLoopEntries_eq ?_ hrun hclear
      unfold localRelocCount
      have := (localRelocStart obj + 8 * obj.dysymtab.nlocrel).isLt
      omega

/-! A plain and a scattered entry of an image at slide 0x40, whose object was zeroed. -/

def localRelocBytes : List Byte :=
  [0x10, 0, 0, 0, 1, 0, 0, 4] ++ [0x20, 0, 0, 0xa0, 0x20, 0x10, 0, 0]

def localRelocMem : Mem := fun a => localRelocBytes.getD (a - 0x2000).toNat 0

def localRelocObject : MachObject :=
  { MachObject.new with
    fIsClassic := true
    fLinkEditBase := 0x2000
    fSlide := 0x40
    fDynamicInfo := some (.dysymtab { (default : DysymtabCommand) with nlocrel := 2 })
    fSegmentLoadCommands := [⟨"__DATA", 0x1000, 0x100, 0, []⟩] }

def noSlides (_ : MachObject) : Word := 0

def localRelocCommands : BindCommands := ⟨0, 0, 0, 0, 0, 0, fun _ => 0, fun _ _ => 0⟩

theorem localReloc_entries : classicRebaseEntries noSlides localRelocMem localRelocObject =
    [⟨0x10, 0x04000001⟩, ⟨0xa0000020, 0x1020⟩] := rfl

theorem localReloc_apart : (relocSites 0x1040 0x1040
    (classicRebaseEntries noSlides localRelocMem localRelocObject)).Pairwise Apart := by
  rw [localReloc_entries]
  decide

theorem localReloc_run : ∃ mem',
    classicRebase noSlides localRelocMem localRelocObject = done mem' ∧
      mem'.load 0x1060 = localRelocMem.load 0x1060 := by
  have hrun : (classicRebase noSlides localRelocMem localRelocObject >>= fun mem' =>
      done (mem'.load 0x1060)) = done (localRelocMem.load 0x1060) := by decide
  obtain ⟨mem', hmem', hload⟩ := bind_eq_done.mp hrun
  exact ⟨mem', hmem', done.inj hload⟩

theorem classicRebase_alike_sample : ∃ mem',
    classicRebase noSlides localRelocMem localRelocObject = done mem' ∧
      ¬ RelocatedAlike 0x40 0x1040 [⟨0x10, 0x04000001⟩, ⟨0xa0000020, 0x1020⟩] localRelocMem
      mem' := by
  obtain ⟨mem', hrun, -⟩ := localReloc_run
  refine ⟨mem', hrun, fun halike => ?_⟩
  have h := (classicRebase_alike_iff noSlides localRelocCommands localRelocMem mem'
    localRelocObject 0x1040 rfl rfl hrun localReloc_apart).1
  rw [localReloc_entries] at h
  revert h
  simp only [show localRelocObject.fSlide = 0x40 from rfl, halike, true_iff]
  decide

theorem not_relocated_alike :
    ¬ ∀ (segmentSlides : MachObject → Word) (cmds : BindCommands) (mem mem' : Mem)
      (obj : MachObject) (relocBase : Addr), obj.fIsSplitSeg = false →
      getClassicRelocBase cmds obj = done relocBase →
      classicRebase segmentSlides mem obj = done mem' →
      (relocSites relocBase relocBase
        (classicRebaseEntries segmentSlides mem obj)).Pairwise Apart →
      RelocatedAlike obj.fSlide relocBase (classicRebaseEntries segmentSlides mem obj) mem
        mem' := by
  intro h
  obtain ⟨mem', hrun, hload⟩ := localReloc_run
  have halike := h noSlides localRelocCommands localRelocMem mem' localRelocObject 0x1040 rfl
    rfl hrun localReloc_apart
  rw [localReloc_entries] at halike
  have hgrown := halike.grown ⟨0xa0000020, 0x1020⟩ (by simp) (by decide)
  rw [show (0x1040 : Addr) + LocalReloc.rAddress ⟨0xa0000020, 0x1020⟩ = 0x1060 from rfl,
    hload] at hgrown
  exact absurd hgrown (by decide)

end LibSystem.Lnk
