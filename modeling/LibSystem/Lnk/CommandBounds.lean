import LibSystem.Lnk.CommandWalks

/-!
# Where the walks leave the load commands

`instantiateFromFile` and `parseLoadCommands` return or halt, without a read outside of the load
commands or a write behind a table, exactly if each command that they come to is as it should be.
-/

namespace LibSystem.Lnk

open Outcome Access

/-! ## Reads of a region -/

namespace Region

variable {T : Region} {α β : Type} {a p : Addr} {fuel : Nat}

/-- The `n` bytes at `a` are in the region. -/
def Covers (T : Region) (a : Addr) (n : Nat) : Prop := ∀ i < n, T.Inside (a + BitVec.ofNat 32 i)

instance (T : Region) (a : Addr) (n : Nat) : Decidable (T.Covers a n) :=
  inferInstanceAs (Decidable (∀ i < n, _))

theorem covers_add {n k : Nat} :
    T.Covers a (n + k) ↔ T.Covers a n ∧ T.Covers (a + BitVec.ofNat 32 n) k := by
  constructor
  · intro h
    refine ⟨fun i hi => h i (by omega), fun i hi => ?_⟩
    rw [BitVec.add_assoc, ← BitVec.ofNat_add]
    exact h (n + i) (by omega)
  · rintro ⟨hfirst, hrest⟩ i hi
    by_cases hn : i < n
    · exact hfirst i hn
    · have := hrest (i - n) (by omega)
      rwa [BitVec.add_assoc, ← BitVec.ofNat_add, Nat.add_sub_cancel' (by omega)] at this

/-- So are those bytes that tell a string at `p` from `key`, or show that it is `key`. -/
def Compares (T : Region) (key : List Byte) (p : Addr) : Prop :=
  ∀ i ≤ key.length, T.mem.Holds p (key.take i) → T.Inside (p + BitVec.ofNat 32 i)

theorem covers_word :
    T.Covers a 4 ↔ T.Inside a ∧ T.Inside (a + 1) ∧ T.Inside (a + 2) ∧ T.Inside (a + 3) := by
  constructor
  · intro h
    exact ⟨by simpa using h 0 (by decide), h 1 (by decide), h 2 (by decide), h 3 (by decide)⟩
  · rintro ⟨h0, h1, h2, h3⟩ i hi
    obtain rfl | rfl | rfl | rfl : i = 0 ∨ i = 1 ∨ i = 2 ∨ i = 3 := by omega
    · simpa using h0
    · exact h1
    · exact h2
    · exact h3

theorem get_pure (x : α) : T.get (pure x) = done x := rfl

theorem get_map (p : Program α) (f : α → β) :
    T.get (p >>= fun r => pure (f r)) = T.get p >>= fun r => done (f r) := by
  unfold get
  rw [go_bind, bind_bind, bind_bind]
  rfl

theorem get_byte (a : Addr) (next : Byte → Program α) :
    T.get (Program.byte a >>= next) = if T.Inside a then T.get (next (T.mem a)) else .fault := by
  unfold get
  rw [go_byte]
  split
  · rfl
  · rfl

theorem get_load (a : Addr) :
    T.get (Program.load a) = if T.Covers a 4 then .done (T.mem.load a) else .fault := by
  simp only [covers_word, ite_and]
  unfold Program.load Program.loadWith
  rw [get_byte, get_byte, get_byte, get_byte]
  rfl

theorem settles_byte_iff {next : Byte → Program α} {f : α → Outcome β} :
    (T.get (Program.byte a >>= next) >>= f).Settles ↔
      T.Inside a ∧ (T.get (next (T.mem a)) >>= f).Settles := by
  rw [get_byte]
  split
  · rename_i h
    exact (and_iff_right h).symm
  · rename_i h
    simp [h]

theorem settles_load_iff {f : Word → Outcome β} :
    (T.get (Program.load a) >>= f).Settles ↔ T.Covers a 4 ∧ (f (T.mem.load a)).Settles := by
  rw [get_load]
  split
  · rename_i h
    exact (and_iff_right h).symm
  · rename_i h
    simp [h]

theorem compares_nil : T.Compares [] p ↔ T.Inside p := by
  simp [Compares, Mem.Holds]

theorem compares_cons {b : Byte} {key : List Byte} :
    T.Compares (b :: key) p ↔ T.Inside p ∧ (T.mem p = b → T.Compares key (p + 1)) := by
  constructor
  · intro h
    refine ⟨by simpa [Mem.Holds] using h 0 (by simp), fun hb i hi hholds => ?_⟩
    have := h (i + 1) (by simpa using hi) (Mem.holds_cons.mpr ⟨hb, hholds⟩)
    rwa [Mem.ofNat_succ, ← BitVec.add_assoc] at this
  · rintro ⟨hin, hrest⟩ i hi hholds
    cases i with
    | zero => simpa using hin
    | succ i =>
      obtain ⟨hb, hholds⟩ := Mem.holds_cons.mp hholds
      rw [Mem.ofNat_succ, ← BitVec.add_assoc]
      exact hrest hb i (by simpa using hi) hholds

theorem compare_eq_iff {b c : Byte} : compare b.toNat c.toNat = .eq ↔ b = c := by
  rw [Nat.compare_eq_eq]
  exact ⟨BitVec.eq_of_toNat_eq, congrArg _⟩

theorem settles_named_iff {key : List Byte} (hkey : ∀ b ∈ key, b ≠ 0) (hfuel : key.length < fuel)
    {x y : Outcome β} :
    (T.get (Program.strcmp fuel key p) >>= fun cmp => if cmp = .eq then x else y).Settles ↔
      T.Compares key p ∧ (T.mem.Holds p (key ++ [0]) → x.Settles) ∧
        (¬ T.mem.Holds p (key ++ [0]) → y.Settles) := by
  induction key generalizing p fuel with
  | nil =>
    obtain ⟨fuel, rfl⟩ : ∃ k, fuel = k + 1 := ⟨fuel - 1, by simp at hfuel; omega⟩
    have hholds : T.mem.Holds p [0] ↔ T.mem p = 0 := by simp [Mem.Holds]
    rw [Program.strcmp, settles_byte_iff, compares_nil, List.nil_append, hholds]
    refine and_congr_right fun _ => ?_
    by_cases hzero : T.mem p = 0
    · rw [if_neg (by simp [charAt, hzero]), if_pos hzero]
      simp [get_pure, hzero]
    · have hne : charAt [] ≠ T.mem p := fun h => hzero h.symm
      rw [if_pos hne, get_pure, done_bind, if_neg (mt compare_eq_iff.mp hne)]
      exact ⟨fun h => ⟨fun h0 => absurd h0 hzero, fun _ => h⟩, fun h => h.2 hzero⟩
  | cons b key ih =>
    obtain ⟨fuel, rfl⟩ : ∃ k, fuel = k + 1 := ⟨fuel - 1, by simp at hfuel; omega⟩
    obtain ⟨hb, hkey⟩ := List.forall_mem_cons.mp hkey
    rw [Program.strcmp, settles_byte_iff, compares_cons, and_assoc, List.cons_append,
      Mem.holds_cons]
    refine and_congr_right fun _ => ?_
    by_cases hsame : T.mem p = b
    · rw [if_neg (by simp [charAt, hsame]), if_neg (by rwa [hsame]), List.tail_cons,
        ih hkey (by simpa using hfuel)]
      simp [hsame]
    · have hne : charAt (b :: key) ≠ T.mem p := fun h => hsame h.symm
      rw [if_pos hne, get_pure, done_bind, if_neg (mt compare_eq_iff.mp hne)]
      simp [hsame]

theorem settles_string_iff (hfuel : T.stop.toNat - a.toNat < fuel) {f : CString → Outcome β} :
    (T.get (Program.cstringAt fuel a) >>= f).Settles ↔
      ∃ str : CString, T.Shows a (str.bytes ++ [0]) ∧ (f str).Settles := by
  induction fuel generalizing a f with
  | zero => omega
  | succ fuel ih =>
    rw [Program.cstringAt, settles_byte_iff]
    constructor
    · rintro ⟨hin, hrest⟩
      by_cases hzero : T.mem a = 0
      · rw [dif_pos hzero, get_pure, done_bind] at hrest
        exact ⟨Program.emptyString, shows_cons.mpr ⟨hzero, hin, shows_nil _⟩, hrest⟩
      · have hnext := hin.toNat_next
        rw [dif_neg hzero, get_map, bind_bind] at hrest
        obtain ⟨str, hshows, hstr⟩ := (ih (by omega)).mp hrest
        exact ⟨Program.consString (T.mem a) hzero str, shows_cons.mpr ⟨rfl, hin, hshows⟩, hstr⟩
    · rintro ⟨⟨bytes, hnul⟩, hshows, hstr⟩
      cases bytes with
      | nil =>
        obtain ⟨hzero, hin, -⟩ := shows_cons.mp hshows
        refine ⟨hin, ?_⟩
        rw [dif_pos hzero, get_pure, done_bind]
        exact hstr
      | cons b bytes =>
        obtain ⟨rfl, hin, hrest⟩ := shows_cons.mp hshows
        have hnext := hin.toNat_next
        have hzero : T.mem a ≠ 0 := (List.forall_mem_cons.mp hnul).1
        refine ⟨hin, ?_⟩
        rw [dif_neg hzero, get_map, bind_bind]
        exact (ih (by omega)).mpr ⟨⟨bytes, (List.forall_mem_cons.mp hnul).2⟩, hrest, hstr⟩

end Region

namespace Walks

open Region

theorem settles_entry_iff {α : Type} {size count : Nat} {x : Outcome α} :
    (if size ≤ count then .fault else x).Settles ↔ count < size ∧ x.Settles := by
  split
  · rename_i h
    exact iff_of_false not_settles_fault fun hok => absurd hok.1 (Nat.not_lt.mpr h)
  · rename_i h
    exact (and_iff_right (Nat.lt_of_not_le h)).symm

/-! ## `instantiateFromFile` -/

/-- What the scan needs of a command: its header, and of a segment a place in the table and the
fields `vmaddr`, `vmsize`, `fileoff` and `filesize`. -/
structure ScanOk (T : Region) (w : Scan) : Prop where
  header : T.Covers (T.start + w.offset) 8
  segment : T.mem.load (T.start + w.offset) = lcSegment →
    w.segments.length < 64 ∧ T.Covers (T.start + w.offset + 24) 16

section Scan

variable {T : Region} {w : Scan} {α : Type}

theorem covers_fields {a : Addr} : T.Covers (a + 24) 16 ↔ T.Covers (a + 24) 4 ∧
    T.Covers (a + 28) 4 ∧ T.Covers (a + 32) 4 ∧ T.Covers (a + 36) 4 := by
  rw [show 16 = 4 + (4 + (4 + 4)) from rfl, covers_add, covers_add, covers_add]
  simp [BitVec.add_assoc]

theorem covers_header {a : Addr} : T.Covers a 8 ↔ T.Covers (a + 4) 4 ∧ T.Covers a 4 := by
  rw [show 8 = 4 + 4 from rfl, covers_add, and_comm]
  rfl

theorem settles_scanCommand_iff : (scanCommand T w).Settles ∧
    (T.mem.load (T.start + w.offset) = lcSegment → T.Covers (T.start + w.offset + 24) 16) ↔
      ScanOk T w := by
  unfold scanCommand
  rw [settles_load_iff, settles_load_iff, ← and_assoc, ← covers_header, settles_ite,
    settles_entry_iff, settles_load_iff, and_iff_left fun _ => settles_done _]
  constructor
  · rintro ⟨⟨hheader, hsegment⟩, hfields⟩
    exact ⟨hheader, fun hcmd => ⟨(hsegment hcmd).1, hfields hcmd⟩⟩
  · rintro ⟨hheader, hsegment⟩
    refine ⟨⟨hheader, fun hcmd => ?_⟩, fun hcmd => (hsegment hcmd).2⟩
    obtain ⟨hlength, hfields⟩ := hsegment hcmd
    exact ⟨hlength, (covers_fields.mp hfields).2.1, settles_done _⟩

theorem scanCommand_eq (h : (scanCommand T w).Settles) :
    ∃ w', scanCommand T w = done (false, w') ∧ w'.ncmds = w.ncmds - 1 ∧
      w'.segments = if T.mem.load (T.start + w.offset) = lcSegment
        then w.segments ++ [T.start + w.offset] else w.segments := by
  unfold scanCommand at h ⊢
  dsimp only
  obtain ⟨hcmdsize, h⟩ := settles_load_iff.mp h
  obtain ⟨hcmd, h⟩ := settles_load_iff.mp h
  rw [get_load, if_pos hcmdsize, done_bind, get_load, if_pos hcmd, done_bind]
  split
  · rename_i hsegment
    rw [if_pos hsegment] at h
    obtain ⟨hlength, h⟩ := settles_entry_iff.mp h
    rw [if_neg (Nat.not_le.mpr hlength), get_load, if_pos (settles_load_iff.mp h).1]
    exact ⟨_, rfl, rfl, rfl⟩
  · exact ⟨_, rfl, rfl, rfl⟩

theorem toNat_pred {n : Word} (h : n ≠ 0) : (n - 1).toNat < n.toNat := by
  bv_omega

theorem scanCommand_kept (hgoing : w.Going) (hok : ScanOk T w) :
    (scanCommand T w).Ensures fun v => True ∧ v.2.ncmds.toNat < w.ncmds.toNat := by
  intro v hv
  obtain ⟨w', hdone, hncmds, -⟩ := scanCommand_eq (settles_scanCommand_iff.mpr hok).1
  obtain rfl := done.inj (hdone.symm.trans hv)
  refine ⟨trivial, ?_⟩
  show w'.ncmds.toNat < w.ncmds.toNat
  rw [hncmds]
  exact toNat_pred hgoing

theorem scanCommand_segments {K : Addr → Prop} {v : Bool × Scan} (hv : scanCommand T w = done v) :
    (∀ seg ∈ v.2.segments, K seg) ↔ (∀ seg ∈ w.segments, K seg) ∧
      (T.mem.load (T.start + w.offset) = lcSegment → K (T.start + w.offset)) := by
  obtain ⟨w', hw', -, hnext⟩ := scanCommand_eq (hv ▸ settles_done v)
  obtain rfl := done.inj (hw'.symm.trans hv)
  dsimp only
  rw [hnext]
  split
  · rename_i hcmd
    rw [List.forall_mem_append, List.forall_mem_singleton, forall_prop_of_true hcmd]
  · rename_i hcmd
    rw [forall_prop_of_false hcmd, and_true]

theorem scanCommand_ne_halt (w : Scan) (msg : String) : scanCommand T w ≠ .halt msg := by
  intro hhalt
  obtain ⟨w', hdone, -⟩ := scanCommand_eq (hhalt ▸ settles_halt msg)
  simp [hhalt] at hdone

/-- The states in which the scan comes to a command. -/
def scanTurns (T : Region) (header : MachHeader) : List Scan :=
  turns Scan.Going (scanCommand T) (header.ncmds.toNat + 1) (.start header)

theorem settles_scan_iff {header : MachHeader} {rest : Scan → Outcome α}
    (hrest : ∀ w, (rest w).Settles ↔ ∀ seg ∈ w.segments, T.Covers (seg + 24) 16) :
    (loop Scan.Going (scanCommand T) (header.ncmds.toNat + 1) (.start header) >>= rest).Settles ↔
      ∀ w ∈ scanTurns T header, ScanOk T w := by
  have hturn : ∀ w, True → w.Going → ((scanCommand T w).Settles ∧
      (T.mem.load (T.start + w.offset) = lcSegment → T.Covers (T.start + w.offset + 24) 16) ↔
        ScanOk T w) := fun _ _ _ => settles_scanCommand_iff
  have hfuel : (Scan.start header).ncmds.toNat < header.ncmds.toNat + 1 := Nat.lt_add_one _
  unfold scanTurns
  rw [← loop_settles_iff (fun _ => True) (fun w => w.ncmds.toNat) hturn
    (fun w _ => scanCommand_kept) trivial hfuel, settles_bind]
  refine and_congr_right fun hsettles => ?_
  obtain ⟨w', hw'⟩ | ⟨msg, hhalt⟩ := hsettles
  · have hsegments := loop_done_iff (K := fun w => ∀ seg ∈ w.segments, T.Covers (seg + 24) 16)
      (fun w v _ hv => scanCommand_segments hv) hw'
    rw [hw']
    simpa [hrest, Scan.start] using hsegments
  · exact absurd hhalt (loop_ne_halt fun w => scanCommand_ne_halt w msg)

theorem settles_mapSegments_iff {mm : Mapper} {start stop : Addr} {loaderBias : Word}
    (segments : List Addr) (mem : Mem) :
    (mapSegments mm start stop loaderBias segments mem).Settles ↔
      ∀ seg ∈ segments, Covers ⟨mem, start, stop⟩ (seg + 24) 16 := by
  induction segments generalizing mem with
  | nil => simp [mapSegments]
  | cons seg rest ih =>
    -- What is covered does not depend on the memory.
    have hrest : ∀ mem', (mapSegments mm start stop loaderBias rest mem').Settles ↔
        ∀ seg ∈ rest, Covers ⟨mem, start, stop⟩ (seg + 24) 16 := ih
    unfold mapSegments
    dsimp only
    rw [settles_load_iff, settles_load_iff, settles_load_iff, settles_load_iff, settles_ite,
      settles_load_iff, hrest, hrest, List.forall_mem_cons, covers_fields]
    constructor
    · rintro ⟨hfilesize, hvmsize, hvmaddr, hfileoff, hzero, hwhole⟩
      refine ⟨⟨hvmaddr, hvmsize, hfileoff, hfilesize⟩, ?_⟩
      exact (em _).elim (fun h => (hzero h).2) hwhole
    · rintro ⟨⟨hvmaddr, hvmsize, hfileoff, hfilesize⟩, hall⟩
      exact ⟨hfilesize, hvmsize, hvmaddr, hfileoff, fun _ => ⟨hvmaddr, hall⟩, fun _ => hall⟩

theorem instantiateFromFile_settles_iff (mm : Mapper) (header : MachHeader) (cmdBase : Addr)
    (mem : Mem) : (instantiateFromFile mm header cmdBase mem).Settles ↔
      (header.magic = mhMagic →
        ∀ w ∈ scanTurns ⟨mem, cmdBase, cmdBase + header.sizeofcmds⟩ header,
          ScanOk ⟨mem, cmdBase, cmdBase + header.sizeofcmds⟩ w) := by
  unfold instantiateFromFile
  dsimp only
  rw [settles_ite, and_iff_right fun _ => settles_halt _, not_ne_iff]
  refine imp_congr_right fun _ => settles_scan_iff fun w => ?_
  cases w.segments with
  | nil => simp
  | cons first rest =>
    dsimp only
    rw [settles_load_iff, settles_bind, settles_mapSegments_iff]
    constructor
    · rintro ⟨-, hall, -⟩
      exact hall
    · intro hall
      have hfields := covers_fields.mp (hall first List.mem_cons_self)
      refine ⟨hfields.1, hall, fun mem' _ => ?_⟩
      rw [settles_load_iff, settles_load_iff]
      exact ⟨hfields.1, hfields.2.1, settles_done _⟩

end Scan

/-! ## `processSections` -/

section Image

variable {m : Mapped} {mem : Mem} {seg sect : Addr} {α : Type}

/-- The linker may touch the `n` bytes at `a` of the image's data. -/
def Mapped.Owns (m : Mapped) (a : Addr) (n : Nat) : Prop :=
  ∀ i < n, m.ownData (a + BitVec.ofNat 32 i)

theorem settles_touch_iff {a : Addr} {n : Nat} {f : Unit → Outcome α} :
    (m.touch a n >>= f).Settles ↔ m.Owns a n ∧ (f ()).Settles := by
  unfold Mapped.touch
  split
  · rename_i h
    exact (and_iff_right h).symm
  · rename_i h
    exact iff_of_false not_settles_fault fun hok => h hok.1

/-- What a section header needs: its flags, as much of its name as is compared, and the address
of a section that has one of the two names. What stands there is the image's own. -/
structure SectionOk (m : Mapped) (mem : Mem) (sect : Addr) : Prop where
  flags : (m.commands mem).Covers (sect + 56) 4
  name : (m.commands mem).Compares programVars.bytes sect
  vars : mem.Holds sect (programVars.bytes ++ [0]) → (m.commands mem).Covers (sect + 32) 4 ∧
    m.Owns (mem.load (sect + 32) + m.fSlide) 16 ∧
    m.Owns (mem.load (mem.load (sect + 32) + m.fSlide + 12)) 4
  otherName : ¬ mem.Holds sect (programVars.bytes ++ [0]) →
    (m.commands mem).Compares bridge.bytes sect
  entry : ¬ mem.Holds sect (programVars.bytes ++ [0]) → mem.Holds sect (bridge.bytes ++ [0]) →
    (m.commands mem).Covers (sect + 32) 4 ∧ m.Owns (mem.load (sect + 32) + m.fSlide) 4

theorem settles_processSection_iff :
    (processSection m mem sect).Settles ↔ SectionOk m mem sect := by
  unfold processSection
  dsimp only
  rw [settles_load_iff, settles_named_iff programVars.nul_free (by decide),
    settles_named_iff bridge.nul_free (by decide), settles_load_iff, settles_load_iff,
    settles_touch_iff, settles_touch_iff, settles_touch_iff,
    and_iff_left (settles_done _), and_iff_left (settles_done _)]
  constructor
  · rintro ⟨hflags, hname, hvars, hother⟩
    exact ⟨hflags, hname, hvars, fun h => (hother h).1, fun h => (hother h).2.1⟩
  · intro h
    refine ⟨h.flags, h.name, h.vars, fun hvars => ⟨h.otherName hvars, h.entry hvars, ?_⟩⟩
    exact fun _ => settles_done _

/-- The states in which the loop comes to a section of the segment. -/
def sectionTurns (m : Mapped) (mem : Mem) (seg : Addr) : List SectionWalk :=
  let nsects := mem.load (seg + 48)
  turns (SectionWalk.Going seg nsects) (sectionTurn m seg) (nsects.toNat + 1) ⟨mem, 0⟩

structure SegmentOk (m : Mapped) (mem : Mem) (seg : Addr) : Prop where
  nsects : (m.commands mem).Covers (seg + 48) 4
  sections : ∀ w ∈ sectionTurns m mem seg, SectionOk m w.mem (sectionAt seg w.index)

theorem settles_sections_iff {nsects : Word} :
    (loop (SectionWalk.Going seg nsects) (sectionTurn m seg) (nsects.toNat + 1) ⟨mem, 0⟩).Settles ↔
      ∀ w ∈ turns (SectionWalk.Going seg nsects) (sectionTurn m seg) (nsects.toNat + 1) ⟨mem, 0⟩,
        SectionOk m w.mem (sectionAt seg w.index) := by
  have hturn : ∀ w : SectionWalk, w.index ≤ nsects.toNat → w.Going seg nsects →
      ((sectionTurn m seg w).Settles ↔ SectionOk m w.mem (sectionAt seg w.index)) := by
    intro w _ _
    unfold sectionTurn
    rw [settles_bind, and_iff_left fun _ _ => settles_done _, settles_processSection_iff]
  have hkeep : ∀ w : SectionWalk, w.index ≤ nsects.toNat → w.Going seg nsects →
      SectionOk m w.mem (sectionAt seg w.index) → (sectionTurn m seg w).Ensures fun v =>
        v.2.index ≤ nsects.toNat ∧ nsects.toNat - v.2.index < nsects.toNat - w.index := by
    intro w hle hgoing _
    have hne : w.index ≠ nsects.toNat := by
      intro heq
      unfold SectionWalk.Going at hgoing
      rw [heq] at hgoing
      exact BitVec.lt_irrefl _ hgoing
    refine .bind fun mem' _ => .done ?_
    dsimp only
    omega
  have hfuel : nsects.toNat - (⟨mem, 0⟩ : SectionWalk).index < nsects.toNat + 1 :=
    Nat.lt_add_one _
  exact loop_settles_iff_turns _ (fun w => nsects.toNat - w.index) hturn hkeep (Nat.zero_le _) hfuel

theorem settles_processSegment_iff :
    (processSegment m mem seg).Settles ↔ SegmentOk m mem seg := by
  unfold processSegment
  rw [settles_load_iff, settles_bind, and_iff_left fun _ _ => settles_done _, settles_sections_iff]
  exact ⟨fun h => ⟨h.1, h.2⟩, fun h => ⟨h.nsects, h.sections⟩⟩

/-- One segment is looked at after the other, each in the memory that the one before left. -/
def SegmentsOk (m : Mapped) : List Addr → Mem → Prop
  | [], _ => True
  | seg :: rest, mem => SegmentOk m mem seg ∧
    ∀ mem', processSegment m mem seg = .done mem' → SegmentsOk m rest mem'

theorem settles_processSections_iff (segments : List Addr) (mem : Mem) :
    (processSections m segments mem).Settles ↔ SegmentsOk m segments mem := by
  induction segments generalizing mem with
  | nil => simp [processSections, SegmentsOk]
  | cons seg rest ih =>
    rw [processSections, settles_bind, settles_processSegment_iff, SegmentsOk]
    exact and_congr_right fun _ => forall₂_congr fun mem' _ => ih mem'

/-! ## `parseLoadCommands` -/

/-- What a command needs, by its number: its header; a segment, a place in the table, the bytes of
its name that are compared, and the place of `__LINKEDIT`; a thread, its `pc`; a library, a name
with its terminator, and if it is loaded, a place in the table; `LC_SYMTAB`, if the place of
`__LINKEDIT` is known, its two offsets. -/
structure CommandOk (m : Mapped) (w : Parsing) : Prop where
  header : (m.commands w.linker.mem).Covers (w.lcp m) 8
  segment : w.linker.mem.load (w.lcp m) = lcSegment → w.fSegmentLoadCommands.length < 64 ∧
    (m.commands w.linker.mem).Compares segLinkedit.bytes (w.lcp m + 8) ∧
    (w.linker.mem.Holds (w.lcp m + 8) (segLinkedit.bytes ++ [0]) →
      (m.commands w.linker.mem).Covers (w.lcp m + 24) 4 ∧
        (m.commands w.linker.mem).Covers (w.lcp m + 32) 4)
  thread : w.linker.mem.load (w.lcp m) = lcUnixthread →
    (m.commands w.linker.mem).Covers (w.lcp m + 76) 4
  dylib : IsDylib (w.linker.mem.load (w.lcp m)) →
    (m.commands w.linker.mem).Covers (w.lcp m + 8) 4 ∧ ∃ nn : CString,
      (m.commands w.linker.mem).Shows (w.lcp m + w.linker.mem.load (w.lcp m + 8))
        (nn.bytes ++ [0]) ∧
      ∀ dep linker, m.load nn w.linker = .ok (some dep, linker) → w.fDependencies.length < 128
  symtab : w.linker.mem.load (w.lcp m) = lcSymtab → w.fLinkEditBase ≠ 0 →
    (m.commands w.linker.mem).Covers (w.lcp m + 16) 4 ∧
      (m.commands w.linker.mem).Covers (w.lcp m + 8) 4

section Commands

variable {lcp : Addr} {w : Parsing}

theorem settles_parseSegment_iff : (parseSegment m lcp w).Settles ↔
    w.fSegmentLoadCommands.length < 64 ∧
    (m.commands w.linker.mem).Compares segLinkedit.bytes (lcp + 8) ∧
    (w.linker.mem.Holds (lcp + 8) (segLinkedit.bytes ++ [0]) →
      (m.commands w.linker.mem).Covers (lcp + 24) 4 ∧
        (m.commands w.linker.mem).Covers (lcp + 32) 4) := by
  unfold parseSegment
  dsimp only
  rw [settles_entry_iff, settles_named_iff segLinkedit.nul_free (by decide), settles_load_iff,
    settles_load_iff, and_iff_left (settles_done _), and_iff_left fun _ => settles_done _]
  rfl

theorem settles_parseSymtab_iff : (parseSymtab m lcp w).Settles ↔
    (w.fLinkEditBase ≠ 0 → (m.commands w.linker.mem).Covers (lcp + 16) 4 ∧
      (m.commands w.linker.mem).Covers (lcp + 8) 4) := by
  unfold parseSymtab
  dsimp only
  rw [settles_ite, settles_load_iff, settles_load_iff, and_iff_left (settles_done _),
    and_iff_right fun _ => settles_halt _]

theorem covers_commands {mem mem' : Mem} {a : Addr} {n : Nat} :
    (m.commands mem).Covers a n ↔ (m.commands mem').Covers a n := by
  unfold Covers Region.Inside Mapped.commands
  rfl

theorem settles_addDependency_iff (dep : ImageId)
    (hcovers : (m.commands w.linker.mem).Covers lcp 4)
    (hle : w.fReExports.length ≤ w.fDependencies.length) :
    (addDependency m lcp dep w).Settles ↔ w.fDependencies.length < 128 := by
  unfold addDependency
  dsimp only
  rw [settles_entry_iff, settles_load_iff, settles_ite, settles_entry_iff]
  refine and_iff_left_of_imp fun hlt => ⟨hcovers, ?_⟩
  exact ⟨fun _ => ⟨by omega, settles_done _⟩, fun _ => settles_done _⟩

theorem settles_parseDylib_iff (hcovers : (m.commands w.linker.mem).Covers lcp 4)
    (hle : w.fReExports.length ≤ w.fDependencies.length) : (parseDylib m lcp w).Settles ↔
      (m.commands w.linker.mem).Covers (lcp + 8) 4 ∧ ∃ nn : CString,
        (m.commands w.linker.mem).Shows (lcp + w.linker.mem.load (lcp + 8)) (nn.bytes ++ [0]) ∧
        ∀ dep linker, m.load nn w.linker = .ok (some dep, linker) →
          w.fDependencies.length < 128 := by
  unfold parseDylib
  dsimp only
  rw [settles_load_iff, settles_string_iff (by omega)]
  refine and_congr_right fun _ => exists_congr fun nn => and_congr_right fun _ => ?_
  cases hload : m.load nn w.linker with
  | error msg => simp
  | ok r =>
    obtain ⟨dep, linker⟩ := r
    cases dep with
    | none => simp
    | some dep =>
      have hentry := settles_addDependency_iff (w := { w with linker := linker }) dep
        (covers_commands.mp hcovers) hle
      rw [hentry]
      simp

/-! ### The loop -/

/-- An image that is exported again is a dependency. -/
def Parsing.TablesOk (w : Parsing) : Prop := w.fReExports.length ≤ w.fDependencies.length

theorem settles_parseCommand_iff {cmd : Word} : (parseCommand m cmd lcp w).Settles ↔
    (cmd = lcSegment → (parseSegment m lcp w).Settles) ∧
    (cmd = lcUnixthread → (m.commands w.linker.mem).Covers (lcp + 76) 4) ∧
    (IsDylib cmd → (parseDylib m lcp w).Settles) ∧
    (cmd = lcSymtab → (parseSymtab m lcp w).Settles) := by
  unfold parseCommand
  simp only [settles_ite, settles_load_iff, settles_done, implies_true, and_true, true_and]
  constructor
  · rintro ⟨hsegment, hrest⟩
    refine ⟨hsegment, ?_, ?_, ?_⟩
    · rintro rfl
      exact (hrest (by decide)).1 rfl
    · intro hdylib
      have hne : ∀ other, ¬ IsDylib other → cmd ≠ other :=
        fun _ hother heq => hother (heq ▸ hdylib)
      have hrest := (hrest (hne lcSegment (by decide))).2 (hne lcUnixthread (by decide))
      exact (hrest (hne lcRoutines (by decide))).1 hdylib
    · rintro rfl
      exact (((hrest (by decide)).2 (by decide)) (by decide)).2 (by decide) rfl
  · rintro ⟨hsegment, hthread, hdylib, hsymtab⟩
    exact ⟨hsegment, fun _ => ⟨hthread, fun _ _ => ⟨hdylib, fun _ => hsymtab⟩⟩⟩

/-- What a command leaves as it is: the count of the others, and that the tables fit together. -/
def Kept (w w' : Parsing) : Prop := w'.ncmds = w.ncmds ∧ (w.TablesOk → w'.TablesOk)

theorem parseSegment_kept : (parseSegment m lcp w).Ensures (Kept w) := by
  unfold parseSegment
  refine .ite (fun _ => .fault) fun _ => .bind fun _ _ => ?_
  refine .ite (fun _ => .bind fun _ _ => .bind fun _ _ => ?_) fun _ => ?_
  · exact .done ⟨rfl, id⟩
  · exact .done ⟨rfl, id⟩

theorem addDependency_kept {dep : ImageId} : (addDependency m lcp dep w).Ensures (Kept w) := by
  unfold addDependency
  refine .ite (fun _ => .fault) fun _ => .bind fun _ _ => ?_
  refine .ite (fun _ => .ite (fun _ => .fault) fun _ => ?_) fun _ => ?_
  · refine .done ⟨rfl, fun hw => ?_⟩
    simpa [Parsing.TablesOk] using hw
  · refine .done ⟨rfl, fun hw => ?_⟩
    simp only [Parsing.TablesOk, List.length_append, List.length_singleton] at hw ⊢
    omega

theorem parseDylib_kept : (parseDylib m lcp w).Ensures (Kept w) := by
  unfold parseDylib
  refine .bind fun _ _ => .bind fun nn _ => ?_
  cases m.load nn w.linker with
  | error msg => exact .halt _
  | ok r =>
    obtain ⟨dep, linker⟩ := r
    cases dep with
    | none => exact .halt _
    | some dep => exact addDependency_kept

theorem parseSymtab_kept : (parseSymtab m lcp w).Ensures (Kept w) := by
  unfold parseSymtab
  exact .ite (fun _ => .halt _) fun _ => .bind fun _ _ => .bind fun _ _ => .done ⟨rfl, id⟩

theorem parseCommand_kept {cmd : Word} : (parseCommand m cmd lcp w).Ensures (Kept w) := by
  unfold parseCommand
  refine .ite (fun _ => parseSegment_kept) fun _ => ?_
  refine .ite (fun _ => .bind fun _ _ => .done ⟨rfl, id⟩) fun _ => ?_
  refine .ite (fun _ => .done ⟨rfl, id⟩) fun _ => ?_
  refine .ite (fun _ => parseDylib_kept) fun _ => ?_
  refine .ite (fun _ => parseSymtab_kept) fun _ => ?_
  refine .ite (fun _ => .done ⟨rfl, id⟩) fun _ => ?_
  exact .ite (fun _ => .done ⟨rfl, id⟩) fun _ => .done ⟨rfl, id⟩

theorem settles_parseTurn_iff (hw : w.TablesOk) : (parseTurn m w).Settles ↔ CommandOk m w := by
  unfold parseTurn
  dsimp only
  rw [settles_load_iff, settles_load_iff, settles_bind, and_iff_left fun _ _ => settles_done _,
    ← and_assoc, ← covers_header, settles_parseCommand_iff, settles_parseSegment_iff,
    settles_parseSymtab_iff]
  have hdylib : (m.commands w.linker.mem).Covers (w.lcp m) 8 → ∀ cmdsize,
      ((parseDylib m (w.lcp m) (w.next cmdsize)).Settles ↔ _) := fun hheader _ =>
    settles_parseDylib_iff (covers_header.mp hheader).2 hw
  simp only [Parsing.next_linker, Parsing.next_fSegmentLoadCommands, Parsing.next_fLinkEditBase,
    Parsing.next_fDependencies] at hdylib ⊢
  constructor
  · rintro ⟨hheader, hsegment, hthread, hdylib', hsymtab⟩
    exact ⟨hheader, hsegment, hthread, fun hcmd => (hdylib hheader _).mp (hdylib' hcmd), hsymtab⟩
  · intro h
    refine ⟨h.header, h.segment, h.thread, fun hcmd => ?_, h.symtab⟩
    exact (hdylib h.header _).mpr (h.dylib hcmd)

/-- The states in which the walk comes to a command. -/
def parseTurns (m : Mapped) (linker : Linker) : List Parsing :=
  turns Parsing.Going (parseTurn m) (m.header.ncmds.toNat + 1) (.start m linker)

theorem settles_parseLoop_iff (m : Mapped) (linker : Linker) :
    (parseLoop m linker).Settles ↔ ∀ w ∈ parseTurns m linker, CommandOk m w := by
  have hturn : ∀ w : Parsing, w.TablesOk → w.Going → ((parseTurn m w).Settles ↔ CommandOk m w) :=
    fun w hw _ => settles_parseTurn_iff hw
  have hkeep : ∀ w : Parsing, w.TablesOk → w.Going → CommandOk m w →
      (parseTurn m w).Ensures fun v => v.2.TablesOk ∧ v.2.ncmds.toNat < w.ncmds.toNat := by
    intro w hw hgoing _
    refine .bind fun cmdsize _ => .bind fun cmd _ => .bind fun w' hw' => .done ?_
    obtain ⟨hncmds, htables⟩ := parseCommand_kept w' hw'
    refine ⟨htables hw, ?_⟩
    rw [hncmds, Parsing.next_ncmds]
    exact toNat_pred hgoing
  have hfuel : (Parsing.start m linker).ncmds.toNat < m.header.ncmds.toNat + 1 := Nat.lt_add_one _
  have hstart : (Parsing.start m linker).TablesOk := Nat.le_refl 0
  exact loop_settles_iff_turns _ (fun w => w.ncmds.toNat) hturn hkeep hstart hfuel

end Commands

theorem parseLoadCommands_settles_iff (m : Mapped) (linker : Linker) :
    (parseLoadCommands m linker).Settles ↔ (∀ w ∈ parseTurns m linker, CommandOk m w) ∧
      ∀ w, parseLoop m linker = .done w → SegmentsOk m w.fSegmentLoadCommands w.linker.mem := by
  unfold parseLoadCommands
  by_cases hncmds : m.header.ncmds = 0
  · rw [if_pos hncmds]
    have hstopped : ¬ (Parsing.start m linker).Going := not_not.mpr hncmds
    refine iff_of_true (settles_halt _) ⟨?_, fun w hw => ?_⟩
    · unfold parseTurns
      simp [turns_of_stopped hstopped]
    · unfold parseLoop loop at hw
      rw [if_neg hstopped] at hw
      obtain rfl := done.inj hw
      trivial
  · rw [if_neg hncmds, settles_bind, settles_parseLoop_iff]
    refine and_congr_right fun _ => forall₂_congr fun w _ => ?_
    rw [settles_bind, settles_processSections_iff, and_iff_left fun _ _ => settles_done _]

end Image

/-! ## Both walks -/

/-- **What keeps the walks inside.** For every header, every commands, whatever `mmap` and the
loads of other libraries do, and whatever of the image's own data may be touched. -/
theorem walks_inside_iff (mm : Mapper) (header : MachHeader) (cmdBase : Addr) (mem : Mem)
    (m : Mapped) (linker : Linker) :
    ((instantiateFromFile mm header cmdBase mem).Settles ↔ (header.magic = mhMagic →
      ∀ w ∈ scanTurns ⟨mem, cmdBase, cmdBase + header.sizeofcmds⟩ header,
        ScanOk ⟨mem, cmdBase, cmdBase + header.sizeofcmds⟩ w)) ∧
    ((parseLoadCommands m linker).Settles ↔ (∀ w ∈ parseTurns m linker, CommandOk m w) ∧
      ∀ w, parseLoop m linker = .done w → SegmentsOk m w.fSegmentLoadCommands w.linker.mem) :=
  ⟨instantiateFromFile_settles_iff mm header cmdBase mem, parseLoadCommands_settles_iff m linker⟩

/-! An image at 0x1000 that has one command in 56 bytes, an `LC_SEGMENT` whose `cmdsize` is 0. The
header may count it more than once. -/

def segmentMem : Mem := fun a => if a = 0x101c then 1 else 0

def segmentImage (ncmds sizeofcmds : Word) : Mapped where
  header := ⟨mhMagic, ncmds, sizeofcmds⟩
  fHeader := 0x1000
  fSlide := 0
  load _ s := .ok (none, s)
  gEnvironPtr := 0
  ownData _ := false
  compressedSlot := false

def segmentMapper : Mapper := ⟨fun _ => 0x40000000, fun _ mem => mem, fun _ mem => mem⟩

def segmentLinker : Linker := Linker.initial segmentMem

set_option maxRecDepth 20000 in
/-- Without the bytes of the command, both read behind the buffer. With 65 commands, both write
behind the table of segments. -/
theorem not_walks_inside :
    ¬ (instantiateFromFile segmentMapper ⟨mhMagic, 1, 0⟩ 0x101c segmentMem).Settles ∧
    ¬ (parseLoadCommands (segmentImage 1 0) segmentLinker).Settles ∧
    ¬ (instantiateFromFile segmentMapper ⟨mhMagic, 65, 56⟩ 0x101c segmentMem).Settles ∧
    ¬ (parseLoadCommands (segmentImage 65 56) segmentLinker).Settles :=
  ⟨not_settles_fault, not_settles_fault, not_settles_fault, not_settles_fault⟩

set_option maxRecDepth 20000 in
/-- With 64 they stay inside. -/
example : (instantiateFromFile segmentMapper ⟨mhMagic, 64, 56⟩ 0x101c segmentMem).Settles ∧
    (parseLoadCommands (segmentImage 64 56) segmentLinker).Settles :=
  ⟨settles_done _, settles_done _⟩

end Walks

end LibSystem.Lnk
