import LibSystem.Lnk.LookupProgram
import LibSystem.Lnk.ExportTrie

/-!
# Regions of memory

What stands in the bytes between two addresses, and runs in which a look outside of them is a
fault.
-/

namespace LibSystem.Lnk

open Outcome Access

/-- The bytes `[start, stop)` of a memory. -/
structure Region where
  mem : Mem
  start : Addr
  stop : Addr

namespace Region

variable (T : Region)

def Inside (a : Addr) : Prop := T.start ≤ a ∧ a < T.stop

instance : DecidablePred T.Inside := fun a => inferInstanceAs (Decidable (T.start ≤ a ∧ a < T.stop))

/-- `bytes` stand at `a`, all of them in the region. -/
structure Shows (a : Addr) (bytes : List Byte) : Prop where
  holds : T.mem.Holds a bytes
  inside : ∀ i < bytes.length, T.Inside (a + BitVec.ofNat 32 i)

variable {T}

/-! ## Bytes of a region -/

theorem shows_cons {a : Addr} {b : Byte} {bytes : List Byte} :
    T.Shows a (b :: bytes) ↔ T.mem a = b ∧ T.Inside a ∧ T.Shows (a + 1) bytes := by
  constructor
  · rintro ⟨hholds, hinside⟩
    obtain ⟨hb, hrest⟩ := Mem.holds_cons.mp hholds
    refine ⟨hb, by simpa using hinside 0 (by simp), hrest, fun i hi => ?_⟩
    have := hinside (i + 1) (by simpa using hi)
    rwa [Mem.ofNat_succ, ← BitVec.add_assoc] at this
  · rintro ⟨hb, ha, hrest, hinside⟩
    refine ⟨Mem.holds_cons.mpr ⟨hb, hrest⟩, fun i hi => ?_⟩
    cases i with
    | zero => simpa using ha
    | succ i =>
      rw [Mem.ofNat_succ, ← BitVec.add_assoc]
      exact hinside i (by simpa using hi)

theorem shows_nil (a : Addr) : T.Shows a [] := ⟨nofun, nofun⟩

theorem Inside.toNat_next {a : Addr} (h : T.Inside a) :
    (a + 1).toNat = a.toNat + 1 ∧ a.toNat + 1 ≤ T.stop.toNat := by
  obtain ⟨-, hlt⟩ := h
  bv_omega

theorem Shows.length_le {a : Addr} {bytes : List Byte} (h : T.Shows a bytes) (hne : bytes ≠ []) :
    a.toNat + bytes.length ≤ T.stop.toNat := by
  induction bytes generalizing a with
  | nil => exact absurd rfl hne
  | cons b bytes ih =>
    obtain ⟨-, ha, hrest⟩ := shows_cons.mp h
    obtain ⟨hnext, hle⟩ := ha.toNat_next
    cases bytes with
    | nil => simpa using hle
    | cons c bytes =>
      have := ih hrest (by simp)
      rw [List.length_cons]
      omega

/-! ## Reads inside of the region -/

/-- The run over the table, where reads outside of it are faults. -/
abbrev go (T : Region) {α : Type} (p : Program α) : Outcome (α × Mem) :=
  p.runIn T.Inside T.mem

theorem go_byte {α : Type} (a : Addr) (next : Byte → Program α) :
    T.go (Program.byte a >>= next) = if T.Inside a then T.go (next (T.mem a)) else .fault := rfl

section Bind

variable {α β : Type} {p : Program α}

theorem go_bind_done {a : α} (h : T.go p = done (a, T.mem)) (f : α → Program β) :
    T.go (p >>= f) = T.go (f a) := by
  unfold go at h ⊢
  rw [runIn_bind, h]
  rfl

theorem go_bind_congr {q : Program α} (h : T.go p = T.go q) (f : α → Program β) :
    T.go (p >>= f) = T.go (q >>= f) := by
  unfold go at h ⊢
  rw [runIn_bind, runIn_bind, h]

theorem go_bind_halt {msg : String} (h : T.go p = .halt msg) (f : α → Program β) :
    T.go (p >>= f) = .halt msg := by
  unfold go at h ⊢
  rw [runIn_bind, h]
  rfl

theorem go_bind_fault (h : T.go p = .fault) (f : α → Program β) : T.go (p >>= f) = .fault := by
  unfold go at h ⊢
  rw [runIn_bind, h]
  rfl

end Bind

/-- The cursor is at a byte of the region or at its end. -/
def Cursor (T : Region) (a : Addr) : Prop := T.start ≤ a ∧ a ≤ T.stop

theorem Inside.cursor {a : Addr} (h : T.Inside a) : T.Cursor a := ⟨h.1, BitVec.le_of_lt h.2⟩

theorem Inside.next {a : Addr} (h : T.Inside a) : T.Cursor (a + 1) := by
  obtain ⟨hle, hlt⟩ := h
  constructor <;> bv_omega

theorem Cursor.inside {a : Addr} (h : T.Cursor a) (hne : a ≠ T.stop) : T.Inside a := by
  obtain ⟨hge, hle⟩ := h
  exact ⟨hge, by bv_omega⟩

theorem go_readUleb128Loop (fuel : Nat) (k : Nat) (hfuel : fuel + k = 11) (hk : k ≤ 10) (a : Addr)
    (ha : T.Cursor a) (result : BitVec 64) :
    (∃ bytes v, Uleb bytes v ∧ T.Shows a bytes ∧ bytes.length + k ≤ 10) ∨
      ∃ msg, T.go (Program.readUleb128Loop T.stop fuel a result (7 * k)) = .halt msg := by
  induction fuel generalizing k a result with
  | zero => omega
  | succ fuel ih =>
    unfold Program.readUleb128Loop
    by_cases hstop : a = T.stop
    · exact Or.inr ⟨_, by rw [if_pos hstop]; rfl⟩
    · have hin := ha.inside hstop
      rw [if_neg hstop, go_byte, if_pos hin]
      by_cases hbit : 63 < 7 * k
      · exact Or.inr ⟨_, by rw [if_pos hbit]; rfl⟩
      · rw [if_neg hbit]
        dsimp only
        by_cases hmore : T.mem a &&& 0x80 ≠ 0
        · rw [if_pos hmore, show 7 * k + 7 = 7 * (k + 1) by omega]
          refine (ih (k + 1) (by omega) (by omega) (a + 1) hin.next _).imp_left ?_
          rintro ⟨bytes, v, hv, hshows, hlength⟩
          refine ⟨_, _, .more (T.mem a) bytes v ((high_bit_iff _).mp hmore) hv,
            shows_cons.mpr ⟨rfl, hin, hshows⟩, ?_⟩
          rw [List.length_cons]
          omega
        · have hlast := mt (high_bit_iff (T.mem a)).mpr hmore
          refine Or.inl ⟨_, _, .last (T.mem a) (by omega),
            shows_cons.mpr ⟨rfl, hin, shows_nil _⟩, ?_⟩
          simp only [List.length_singleton]
          omega

theorem go_readUleb128Loop_ne_fault (fuel : Nat) (a : Addr) (ha : T.Cursor a) (result : BitVec 64)
    (bit : Nat) : T.go (Program.readUleb128Loop T.stop fuel a result bit) ≠ .fault := by
  have hends : ∀ {x : Outcome (Word × Addr)}, x ≠ .fault → T.go (.ends x) ≠ .fault := by
    intro x hx
    cases x with
    | done v => simp [runIn]
    | halt msg => simp [runIn]
    | fault => exact absurd rfl hx
    | timeout => simp [runIn]
  induction fuel generalizing a result bit with
  | zero => exact hends (by simp)
  | succ fuel ih =>
    unfold Program.readUleb128Loop
    by_cases hstop : a = T.stop
    · rw [if_pos hstop]
      exact hends (by simp)
    · have hin := ha.inside hstop
      rw [if_neg hstop, go_byte, if_pos hin]
      split
      · exact hends (by simp)
      dsimp only
      split
      · exact ih (a + 1) hin.next _ _
      · exact hends (settles_iff.mp (settles_done _)).2

theorem go_of_ne_fault {α : Type} {p : Program α} {x : Outcome α} (h : T.go p ≠ .fault)
    (hx : Reads T.mem p x) : T.go p = x >>= fun r => done (r, T.mem) :=
  (runIn_of_looks (looks_of_runIn h)).trans hx

theorem Shows.ne_stop {a : Addr} {bytes : List Byte} (h : T.Shows a bytes) :
    ∀ i < bytes.length, a + BitVec.ofNat 32 i ≠ T.stop := by
  intro i hi heq
  obtain ⟨-, hlt⟩ := h.inside i hi
  rw [heq] at hlt
  exact BitVec.lt_irrefl _ hlt

theorem go_readUleb128 {a : Addr} {bytes : List Byte} {v : Nat} (ha : T.Cursor a)
    (hv : Uleb64 bytes v) (h : T.Shows a bytes) :
    T.go (Program.readUleb128 a T.stop) =
      done ((BitVec.ofNat 32 v, a + BitVec.ofNat 32 bytes.length), T.mem) := by
  have hinside : T.go (Program.readUleb128 a T.stop) ≠ .fault :=
    go_readUleb128Loop_ne_fault 11 a ha 0 0
  rw [go_of_ne_fault hinside (Program.runs_readUleb128 _ _ _),
    readUleb128_spec hv h.holds h.ne_stop]
  rfl

theorem go_readUleb128_total {a : Addr} (ha : T.Cursor a) :
    (∃ bytes v, Uleb64 bytes v ∧ T.Shows a bytes) ∨
      ∃ msg, T.go (Program.readUleb128 a T.stop) = .halt msg :=
  (go_readUleb128Loop 11 0 rfl (by omega) a ha 0).imp_left
    fun ⟨bytes, v, hv, hshows, hlength⟩ => ⟨bytes, v, ⟨hv, hlength⟩, hshows⟩

end Region

end LibSystem.Lnk
