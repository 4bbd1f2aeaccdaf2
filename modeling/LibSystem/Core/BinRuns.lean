import LibSystem.Core.SmallBins
import LibSystem.Run
import Mathlib.Data.Set.Insert

/-!
# The bins over a run

`insert_chunk` and `unlink_chunk` of `dlmalloc.c`, one after the other, with
writes to chunks that are in no bin between them.
-/

namespace LibSystem.Core

open Function MallocState

variable {m m' : MallocState} {l : Word → List Addr} {g : Forest} {B : Set Addr} {a P : Addr}
  {S : Word} {fuel : Nat}

/-- The small bins hold the chunks of `l`, and the trees those of `g`. -/
structure Bins (m : MallocState) (l : Word → List Addr) (g : Forest) : Prop where
  small : SmallBins m l
  trees : TreeBins m g
  not_header {i s : Word} : i.toNat < 32 → ¬ g.Has (m.smallbinAt i) s

/-- The chunks in the bins are those of `B`. -/
def BinsHold (m : MallocState) (B : Set Addr) : Prop :=
  ∃ l g, Bins m l g ∧ ∀ a, a ∈ B ↔ (∃ i, a ∈ l i) ∨ ∃ s, g.Has a s

/-- A free chunk that is in no bin. -/
structure Insertable (m : MallocState) (B : Set Addr) (P : Addr) : Prop where
  least : 16#32 ≤ m.chunksize P
  ne_zero : P ≠ 0#32
  ok : m.OkAddress P
  fits : P.toNat + (m.chunksize P).toNat ≤ 2 ^ 32
  not_mem : P ∉ B
  not_header {i : Word} : i.toNat < 32 → P ≠ m.smallbinAt i

/-! ## Small or large -/

theorem isSmall_iff {S : Word} : IsSmall S ↔ S.toNat < 256 := by
  rw [IsSmall, smallIndex, BitVec.lt_def, BitVec.toNat_ushiftRight, Nat.shiftRight_eq_div_pow]
  simp only [BitVec.toNat_ofNat]
  omega

namespace Bins

theorem size_of_has (hb : Bins m l g) (h : g.Has a S) : m.chunksize a = S ∧ ¬ IsSmall S := by
  obtain ⟨⟨i, p⟩, c, hP, ha, rfl⟩ := h
  have hc := hb.trees.chain hP
  have hlarge := hc.large
  rw [isSmall_iff]
  exact ⟨hc.chunksize ha, by omega⟩

theorem isSmall_of_mem {i : Word} (hb : Bins m l g) (h : a ∈ l i) : IsSmall (m.chunksize a) := by
  have hi : i.toNat < 32 := hb.small.small h
  rw [IsSmall, hb.small.index h]
  exact hi

theorem not_has {i : Word} (hb : Bins m l g) (h : a ∈ l i) (s : Word) : ¬ g.Has a s := by
  intro hs
  obtain ⟨hsize, hlarge⟩ := hb.size_of_has hs
  exact hlarge (hsize ▸ hb.isSmall_of_mem h)

end Bins

/-! ## One operation -/

theorem exists_mem_update (l : Word → List Addr) (I : Word) (as : List Addr) (a : Addr) :
    (∃ i, a ∈ update l I as i) ↔ a ∈ as ∨ ∃ i, i ≠ I ∧ a ∈ l i := by
  constructor
  · rintro ⟨i, h⟩
    by_cases hi : i = I
    · rw [hi, update_self] at h
      exact Or.inl h
    · rw [update_of_ne hi] at h
      exact Or.inr ⟨i, hi, h⟩
  · rintro (h | ⟨i, hi, h⟩)
    · exact ⟨I, by rwa [update_self]⟩
    · exact ⟨i, by rwa [update_of_ne hi]⟩

theorem exists_mem_iff (l : Word → List Addr) (I : Word) (a : Addr) :
    (∃ i, a ∈ l i) ↔ a ∈ l I ∨ ∃ i, i ≠ I ∧ a ∈ l i := by
  rw [← exists_mem_update, update_eq_self]

/-- The words of the chunks of `A` may be written, and those of the headers. -/
abbrev AndHeaders (m : MallocState) (A : Addr → Prop) (a : Addr) : Prop :=
  A a ∨ ∃ i, i.toNat < 32 ∧ a = m.smallbinAt i

theorem insertChunk_spec (hB : BinsHold m B) (hP : Insertable m B P) (hfuel : 32 < fuel) :
    ∃ m', insertChunk fuel m P (m.chunksize P) = .done m' ∧ BinsHold m' (insert P B) ∧
      Touches (AndHeaders m (· ∈ insert P B)) m m' := by
  obtain ⟨l, g, hb, hmem⟩ := hB
  have hPl : ∀ i, P ∉ l i := fun i h => hP.not_mem ((hmem P).mpr (Or.inl ⟨i, h⟩))
  have hPg : ∀ s, ¬ g.Has P s := fun s h => hP.not_mem ((hmem P).mpr (Or.inr ⟨s, h⟩))
  rw [insertChunk]
  by_cases hsmall : IsSmall (m.chunksize P)
  · have hi : (smallIndex (m.chunksize P)).toNat < 32 := hsmall
    obtain ⟨m', hrun, hs', htouch, htreemap, htreebins⟩ :=
      hb.small.insertSmallChunk_spec (P := P)
        ⟨hsmall, hP.least, rfl, hP.ok, hPl, hP.not_header⟩
    rw [if_pos hsmall]
    refine ⟨m', congrArg _ hrun, ⟨_, g, ⟨hs', ?_, ?_⟩, fun a => ?_⟩, htouch.mono fun a ha => ?_⟩
    · refine hb.trees.congr_of_touches htouch htreebins htreemap fun a s ha hs => ?_
      rcases ha with rfl | ha
      · exact hPg s hs
      · rcases List.mem_cons.mp ha with rfl | ha
        · exact hb.not_header hi hs
        · exact hb.not_has ha s hs
    · intro i s hi'
      rw [smallbinAt, htouch.smallbins]
      exact hb.not_header hi'
    · rw [Set.mem_insert_iff, hmem, exists_mem_update, List.mem_cons,
        exists_mem_iff l (smallIndex (m.chunksize P))]
      simp only [or_assoc]
    · rcases ha with rfl | ha
      · exact Or.inl (Set.mem_insert _ _)
      · rcases List.mem_cons.mp ha with rfl | ha
        · exact Or.inr ⟨_, hi, rfl⟩
        · exact Or.inl (Set.mem_insert_of_mem _ ((hmem a).mpr (Or.inl ⟨_, ha⟩)))
  · rw [if_neg hsmall]
    have hlarge : 256 ≤ (m.chunksize P).toNat := by
      rw [isSmall_iff] at hsmall
      omega
    obtain ⟨m', g', hrun, hg', hhas, htouch, hsmallmap⟩ :=
      hb.trees.insertLargeChunk_spec ⟨hlarge, rfl, hP.ne_zero, hP.ok, hP.fits, hPg⟩ hfuel
    refine ⟨m', hrun, ⟨l, g', ⟨?_, hg', ?_⟩, fun a => ?_⟩, htouch.mono fun a ha => ?_⟩
    · refine hb.small.congr_of_touches htouch hsmallmap ?_ ?_
      · rintro i a ha (rfl | ⟨s, hs⟩)
        · exact hPl i ha
        · exact hb.not_has ha s hs
      · rintro i hi (rfl | ⟨s, hs⟩)
        · exact hP.not_header hi rfl
        · exact hb.not_header hi hs
    · intro i s hi hs
      rw [smallbinAt, htouch.smallbins] at hs
      rcases (hhas _ _).mp hs with hs | ⟨rfl, -⟩
      · exact hb.not_header hi hs
      · exact hP.not_header hi rfl
    · rw [Set.mem_insert_iff, hmem]
      simp only [hhas]
      grind
    · rcases ha with rfl | ha
      · exact Or.inl (Set.mem_insert _ _)
      · exact Or.inl (Set.mem_insert_of_mem _ ((hmem a).mpr (Or.inr ha)))

theorem unlinkChunk_spec (hB : BinsHold m B) (hP : P ∈ B) (hfuel : 32 < fuel) :
    ∃ m', unlinkChunk fuel m P (m.chunksize P) = .done m' ∧ BinsHold m' (B \ {P}) ∧
      Touches (AndHeaders m (· ∈ B)) m m' := by
  obtain ⟨l, g, hb, hmem⟩ := hB
  rw [unlinkChunk]
  rcases (hmem P).mp hP with ⟨i, hPi⟩ | ⟨s, hPs⟩
  · have hi := hb.small.small hPi
    obtain ⟨m', hrun, hs', htouch, htreemap, htreebins⟩ := hb.small.unlinkSmallChunk_spec hPi
    rw [if_pos (hb.isSmall_of_mem hPi)]
    refine ⟨m', congrArg _ hrun, ⟨_, g, ⟨hs', ?_, ?_⟩, fun a => ?_⟩, htouch.mono fun a ha => ?_⟩
    · refine hb.trees.congr_of_touches htouch htreebins htreemap fun a s ha hs => ?_
      rcases List.mem_cons.mp ha with rfl | ha
      · exact hb.not_header hi hs
      · exact hb.not_has ha s hs
    · intro i s hi'
      rw [smallbinAt, htouch.smallbins]
      exact hb.not_header hi'
    · have hgP : a = P → ¬ ∃ s, g.Has a s := by
        rintro rfl ⟨s, hs⟩
        exact hb.not_has hPi s hs
      have hlP : ∀ j, a = P → a ∈ l j → j = i := by
        rintro j rfl ha
        exact hb.small.index_unique ha hPi
      rw [Set.mem_sdiff, Set.mem_singleton_iff, hmem, exists_mem_update, exists_mem_iff l i,
        (hb.small.nodup i).mem_erase_iff]
      grind
    · rcases List.mem_cons.mp ha with rfl | ha
      · exact Or.inr ⟨_, hi, rfl⟩
      · exact Or.inl ((hmem a).mpr (Or.inl ⟨_, ha⟩))
  · obtain ⟨m', g', hrun, hg', hhas, htouch, hsmallmap⟩ :=
      hb.trees.unlinkLargeChunk_spec hPs hfuel
    have hPl : ∀ i, P ∉ l i := fun i h => hb.not_has h s hPs
    obtain ⟨hsize, hlarge⟩ := hb.size_of_has hPs
    rw [if_neg (hsize ▸ hlarge)]
    refine ⟨m', hrun, ⟨l, g', ⟨?_, hg', ?_⟩, fun a => ?_⟩, htouch.mono fun a ha => ?_⟩
    · refine hb.small.congr_of_touches htouch hsmallmap ?_ ?_
      · rintro i a ha ⟨s, hs⟩
        exact hb.not_has ha s hs
      · rintro i hi ⟨s, hs⟩
        exact hb.not_header hi hs
    · intro i s hi hs
      rw [smallbinAt, htouch.smallbins] at hs
      exact hb.not_header hi ((hhas _ _).mp hs).1
    · rw [Set.mem_sdiff, Set.mem_singleton_iff, hmem]
      simp only [hhas]
      grind
    · exact Or.inl ((hmem a).mpr (Or.inr ha))

/-! ## Runs -/

/-- Memory is written that the bins do not look at. -/
structure WritesElsewhere (B : Set Addr) (m m' : MallocState) : Prop where
  smallmap : m'.smallmap = m.smallmap
  treemap : m'.treemap = m.treemap
  treebins : m'.treebins = m.treebins
  leastAddr : m'.leastAddr = m.leastAddr
  smallbins : m'.smallbins = m.smallbins
  treebinsAddr : m'.treebinsAddr = m.treebinsAddr
  aborts : m'.aborts = m.aborts
  chunksize {a : Addr} : a ∈ B → m'.chunksize a = m.chunksize a
  fd {a : Addr} : AndHeaders m (· ∈ B) a → m'.fd a = m.fd a
  bk {a : Addr} : AndHeaders m (· ∈ B) a → m'.bk a = m.bk a
  child {a : Addr} {b : Bool} :
    a ∈ B → ¬ IsSmall (m.chunksize a) → m'.child (a, b) = m.child (a, b)
  parent {a : Addr} : a ∈ B → ¬ IsSmall (m.chunksize a) → m'.parent a = m.parent a
  index {a : Addr} : a ∈ B → ¬ IsSmall (m.chunksize a) → m'.index a = m.index a

theorem WritesElsewhere.binsHold (h : WritesElsewhere B m m') (hB : BinsHold m B) :
    BinsHold m' B := by
  obtain ⟨l, g, hb, hmem⟩ := hB
  have hsmall : ∀ {i a}, a ∈ l i → a ∈ B := fun ha => (hmem _).mpr (Or.inl ⟨_, ha⟩)
  have hlarge : ∀ {Q d a}, g Q = some d → a ∈ d.chunks → a ∈ B := fun hQ ha =>
    (hmem _).mpr (Or.inr ⟨_, _, _, hQ, ha, rfl⟩)
  have hsize : ∀ {Q d a}, g Q = some d → a ∈ d.chunks → ¬ IsSmall (m.chunksize a) := fun hQ ha => by
    obtain ⟨heq, hlarge⟩ := hb.size_of_has ⟨_, _, hQ, ha, rfl⟩
    rwa [heq]
  have hnode : ∀ {P}, g.node P ≠ 0#32 → g.node P ∈ B ∧ ¬ IsSmall (m.chunksize (g.node P)) := by
    intro P hne
    obtain ⟨s, hs⟩ := hb.trees.has_of_node ⟨_, hne, rfl⟩
    obtain ⟨heq, hlarge⟩ := hb.size_of_has hs
    exact ⟨(hmem _).mpr (Or.inr ⟨s, hs⟩), by rwa [heq]⟩
  refine ⟨l, g, ⟨?_, ?_, ?_⟩, hmem⟩
  · refine hb.small.congr h.smallmap h.smallbins h.leastAddr (fun i a ha => h.chunksize (hsmall ha))
      fun i a hi ha => ?_
    have hin : AndHeaders m (· ∈ B) a := by
      rcases List.mem_cons.mp ha with rfl | ha
      · exact Or.inr ⟨i, hi, rfl⟩
      · exact Or.inl (hsmall ha)
    exact ⟨h.fd hin, h.bk hin⟩
  · refine hb.trees.congr (hb.trees.linked.congr h.treebins h.treemap h.treebinsAddr h.leastAddr
      (fun P b hne => h.child (hnode hne).1 (hnode hne).2)
      fun P hne => h.parent (hnode hne).1 (hnode hne).2) h.leastAddr
      fun Q d hQ => ?_
    exact
    { chunksize := fun ha => h.chunksize (hlarge hQ ha)
      fd := fun ha => h.fd (Or.inl (hlarge hQ ha))
      bk := fun ha => h.bk (Or.inl (hlarge hQ ha))
      index := fun ha => h.index (hlarge hQ ha) (hsize hQ ha)
      parent := fun ha =>
        h.parent (hlarge hQ (TreeBins.other_mem ha)) (hsize hQ (TreeBins.other_mem ha))
      child := fun ha =>
        h.child (hlarge hQ (TreeBins.other_mem ha)) (hsize hQ (TreeBins.other_mem ha)) }
  · intro i s hi
    rw [smallbinAt, h.smallbins]
    exact hb.not_header hi

inductive BinOp where
  | insert (P : Addr)
  | unlink (P : Addr)
  | write

/-- The state and the set of the chunks that were put into a bin, and not taken out since. -/
inductive BinStep (fuel : Nat) : MallocState × Set Addr → BinOp → MallocState × Set Addr → Prop
  | insert {m m' : MallocState} {B : Set Addr} {P : Addr} (hP : Insertable m B P)
      (hrun : insertChunk fuel m P (m.chunksize P) = .done m') :
      BinStep fuel (m, B) (.insert P) (m', insert P B)
  | unlink {m m' : MallocState} {B : Set Addr} {P : Addr} (hP : P ∈ B)
      (hrun : unlinkChunk fuel m P (m.chunksize P) = .done m') :
      BinStep fuel (m, B) (.unlink P) (m', B \ {P})
  | write {m m' : MallocState} {B : Set Addr} (h : WritesElsewhere B m m') :
      BinStep fuel (m, B) .write (m', B)

/-- The bins of a `malloc_state` that is new. -/
structure EmptyBins (m : MallocState) : Prop where
  smallmap : m.smallmap = 0#32
  treemap : m.treemap = 0#32
  treebins {i : Word} : i.toNat < 32 → m.treebins i = 0#32
  treebinAt_ne {i : Word} : i.toNat < 32 → m.treebinAt i ≠ 0#32

theorem EmptyBins.binsHold (h : EmptyBins m) : BinsHold m ∅ := by
  refine ⟨fun _ => [], fun _ => none, ⟨?_, ?_, ?_⟩, by simp [Forest.Has]⟩
  · exact
    { marked := fun {i} _ => by simp [SmallmapIsMarked, h.smallmap]
      ring := by simp
      nodup := by simp
      index := by simp
      small := by simp
      ok := by simp
      not_header := by simp }
  · have hnode : ∀ P, Forest.node (fun _ => none) P = 0#32 := fun P => rfl
    refine ⟨?_, fun _ => .empty, fun hP => absurd hP (by simp)⟩
    exact
    { closed := fun _ => rfl
      index_lt := fun hne => absurd rfl hne
      inj := fun _ hne => absurd rfl hne
      root := fun hi => h.treebins hi
      marked := fun hi => by simp [TreemapIsMarked, h.treemap, hnode]
      child := fun hne => absurd rfl hne
      parent := fun hne => absurd rfl hne
      parent_root := fun hne => absurd rfl hne
      treebinAt_ne := h.treebinAt_ne
      ok := fun hne => absurd rfl hne
      fits := fun hne => absurd rfl hne }
  · rintro i s - ⟨P, c, hP, -⟩
    simp at hP

theorem binStep_keeps {x y : MallocState × Set Addr} {op : BinOp} (hfuel : 32 < fuel)
    (hx : BinsHold x.1 x.2) (h : BinStep fuel x op y) :
    BinsHold y.1 y.2 ∧ y.1.aborts = x.1.aborts := by
  cases h with
  | insert hP hrun =>
    obtain ⟨m', hrun', hB, htouch⟩ := insertChunk_spec hx hP hfuel
    obtain rfl := Outcome.done.inj (hrun'.symm.trans hrun)
    exact ⟨hB, htouch.aborts⟩
  | unlink hP hrun =>
    obtain ⟨m', hrun', hB, htouch⟩ := unlinkChunk_spec hx hP hfuel
    obtain rfl := Outcome.done.inj (hrun'.symm.trans hrun)
    exact ⟨hB, htouch.aborts⟩
  | write h => exact ⟨h.binsHold hx, h.aborts⟩

theorem reaches_binsHold {m0 : MallocState} (hfuel : 32 < fuel) (h0 : EmptyBins m0)
    (h : Reaches (BinStep fuel) (m0, ∅) (m, B)) : BinsHold m B ∧ m.aborts = m0.aborts := by
  refine Run.invariant (I := fun x => BinsHold x.1 x.2 ∧ x.1.aborts = m0.aborts) h
    ⟨h0.binsHold, rfl⟩ fun x op y hx _ hstep => ?_
  obtain ⟨hB, haborts⟩ := binStep_keeps hfuel hx.1 hstep
  exact ⟨hB, haborts.trans hx.2⟩

/-- In every run the bins hold what was put into them and not taken out. No check of the code
fails, and every operation that is due ends. -/
theorem bins_never_corrupt {m0 : MallocState} (hfuel : 32 < fuel) (h0 : EmptyBins m0)
    (h : Reaches (BinStep fuel) (m0, ∅) (m, B)) :
    BinsHold m B ∧ m.aborts = m0.aborts ∧
      (∀ P, Insertable m B P → ∃ m', BinStep fuel (m, B) (.insert P) (m', insert P B)) ∧
      ∀ P ∈ B, ∃ m', BinStep fuel (m, B) (.unlink P) (m', B \ {P}) := by
  obtain ⟨hB, haborts⟩ := reaches_binsHold hfuel h0 h
  refine ⟨hB, haborts, fun P hP => ?_, fun P hP => ?_⟩
  · obtain ⟨m', hrun, -⟩ := insertChunk_spec hB hP hfuel
    exact ⟨m', .insert hP hrun⟩
  · obtain ⟨m', hrun, -⟩ := unlinkChunk_spec hB hP hfuel
    exact ⟨m', .unlink hP hrun⟩

/-- Two free chunks of 512 bytes, and bins that are empty. -/
def freshBins : MallocState where
  smallmap := 0#32
  treemap := 0#32
  dvsize := 0#32
  leastAddr := 0x1000#32
  dv := 0#32
  topsize := 0#32
  top := 0#32
  smallbins := 0x2000#32
  treebinsAddr := 0x2200#32
  treebins := fun _ => 0#32
  prevFoot := fun _ => 0#32
  head := fun _ => 0x201#32
  fd := fun _ => 0#32
  bk := fun _ => 0#32
  child := fun _ => 0#32
  parent := fun _ => 0#32
  index := fun _ => 0#32
  segments := []
  aborts := 0

def binnedOnce : MallocState :=
  (insertChunk 33 freshBins 0x3000#32 0x200#32).getD freshBins

/-- Both chunks are in their bin. -/
def binnedTwice : MallocState :=
  (insertChunk 33 binnedOnce 0x4000#32 0x200#32).getD freshBins

theorem bins_never_corrupt_twice :
    binnedTwice.aborts = 0 ∧ ∃ m, unlinkChunk 33 binnedTwice 0x3000#32 0x200#32 = .done m := by
  have hempty : EmptyBins freshBins :=
    { smallmap := rfl
      treemap := rfl
      treebins := fun _ => rfl
      treebinAt_ne := fun {i} hi => by
        simp only [treebinAt, freshBins]
        bv_omega }
  have hheader : ∀ {i P : Word}, i.toNat < 32 → P = 0x3000#32 ∨ P = 0x4000#32 →
      P ≠ 0x2000#32 + 8#32 * i := by
    rintro i P hi (rfl | rfl) <;> bv_omega
  have h1 : BinStep 33 (freshBins, ∅) (.insert 0x3000#32) (binnedOnce, insert 0x3000#32 ∅) :=
    .insert ⟨by decide, by decide, by decide, by decide, by simp,
      fun hi => hheader hi (Or.inl rfl)⟩ rfl
  have h2 : BinStep 33 (binnedOnce, insert 0x3000#32 ∅) (.insert 0x4000#32)
      (binnedTwice, insert 0x4000#32 (insert 0x3000#32 ∅)) :=
    .insert ⟨by decide, by decide, by decide, by decide, by simp,
      fun hi => hheader hi (Or.inr rfl)⟩ rfl
  have hrun := (Reaches.single h1).trans (Reaches.single h2)
  obtain ⟨-, haborts, -, hunlink⟩ := bins_never_corrupt (by decide) hempty hrun
  obtain ⟨m, hstep⟩ := hunlink 0x3000#32 (by simp)
  have hsize : binnedTwice.chunksize 0x3000#32 = 0x200#32 := by decide
  cases hstep with
  | unlink hP hrun => exact ⟨haborts, m, hsize ▸ hrun⟩

end LibSystem.Core
