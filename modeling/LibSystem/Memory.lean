import Mathlib.Algebra.Group.Nat.Defs
import Mathlib.Data.List.Infix

/-!
# Byte memory of a 32 bit machine

Every address holds a byte. Words are little endian, need no alignment, and
wrap at the top of the address space.
-/

namespace LibSystem

abbrev Byte := BitVec 8
abbrev Word := BitVec 32
abbrev Addr := BitVec 32
abbrev Mem := Addr → Byte

namespace Mem

/-- The word at `a`. -/
def load (mem : Mem) (a : Addr) : Word :=
  BitVec.ofNat 32 ((mem a).toNat + 256 * (mem (a + 1)).toNat + 65536 * (mem (a + 2)).toNat +
    16777216 * (mem (a + 3)).toNat)

def load16 (mem : Mem) (a : Addr) : BitVec 16 :=
  BitVec.ofNat 16 ((mem a).toNat + 256 * (mem (a + 1)).toNat)

/-- Memory after the word `v` is stored at `a`. -/
def store (mem : Mem) (a : Addr) (v : Word) : Mem := fun x =>
  if (x - a).toNat < 4 then BitVec.ofNat 8 (v.toNat / 256 ^ (x - a).toNat) else mem x

/-- `x` is one of the four bytes of the word at `a`. -/
def InWord (a x : Addr) : Prop := (x - a).toNat < 4

theorem store_outside (mem : Mem) (a : Addr) (v : Word) (x : Addr) (h : ¬ InWord a x) :
    store mem a v x = mem x := if_neg h

theorem store_at (mem : Mem) (a : Addr) (v : Word) (i : Nat) (hi : i < 4) :
    store mem a v (a + BitVec.ofNat 32 i) = BitVec.ofNat 8 (v.toNat / 256 ^ i) := by
  have hsub : (a + BitVec.ofNat 32 i - a).toNat = i := by
    rw [BitVec.add_comm, BitVec.add_sub_cancel, BitVec.toNat_ofNat]
    omega
  simp only [store, hsub, if_pos hi]

theorem eq_add_of_inWord {a x : Addr} (h : InWord a x) :
    x = a ∨ x = a + 1 ∨ x = a + 2 ∨ x = a + 3 := by
  unfold InWord at h
  bv_omega

theorem store_load (mem : Mem) (a : Addr) : store mem a (load mem a) = mem := by
  funext x
  by_cases hx : InWord a x
  · have e0 := (mem a).isLt
    have e1 := (mem (a + 1)).isLt
    have e2 := (mem (a + 2)).isLt
    have e3 := (mem (a + 3)).isLt
    apply BitVec.eq_of_toNat_eq
    rcases eq_add_of_inWord hx with rfl | rfl | rfl | rfl
    · simp [store, load]; omega
    · rw [show (a + 1 : Addr) = a + BitVec.ofNat 32 1 from rfl, store_at _ _ _ _ (by omega)]
      simp [load]; omega
    · rw [show (a + 2 : Addr) = a + BitVec.ofNat 32 2 from rfl, store_at _ _ _ _ (by omega)]
      simp [load]; omega
    · rw [show (a + 3 : Addr) = a + BitVec.ofNat 32 3 from rfl, store_at _ _ _ _ (by omega)]
      simp [load]; omega
  · exact store_outside _ _ _ _ hx

/-! ## A list of bytes in memory -/

/-- `bytes` stand in memory from `start` on. -/
def Holds (mem : Mem) (start : Addr) (bytes : List Byte) : Prop :=
  ∀ i (h : i < bytes.length), mem (start + BitVec.ofNat 32 i) = bytes[i]

theorem ofNat_succ (i : Nat) : BitVec.ofNat 32 (i + 1) = 1 + BitVec.ofNat 32 i := by
  rw [BitVec.ofNat_add, BitVec.add_comm]
  rfl

theorem holds_cons {mem : Mem} {start : Addr} {b : Byte} {bytes : List Byte} :
    mem.Holds start (b :: bytes) ↔ mem start = b ∧ mem.Holds (start + 1) bytes := by
  constructor
  · intro h
    have h0 := h 0 (by simp)
    rw [BitVec.add_zero] at h0
    refine ⟨h0, fun i hi => ?_⟩
    have := h (i + 1) (by simpa using hi)
    rwa [ofNat_succ, ← BitVec.add_assoc] at this
  · rintro ⟨h0, h⟩ i hi
    cases i with
    | zero => simpa using h0
    | succ i =>
      rw [ofNat_succ, ← BitVec.add_assoc]
      exact h i (by simpa using hi)

theorem holds_append {mem : Mem} {start : Addr} {l1 l2 : List Byte} :
    mem.Holds start (l1 ++ l2) ↔
      mem.Holds start l1 ∧ mem.Holds (start + BitVec.ofNat 32 l1.length) l2 := by
  induction l1 generalizing start with
  | nil => simp [Holds]
  | cons b l1 ih =>
    rw [List.cons_append, holds_cons, holds_cons, ih, List.length_cons, ofNat_succ,
      ← BitVec.add_assoc, and_assoc]

theorem Holds.piece {mem : Mem} {start : Addr} {buf piece : List Byte} {off : Nat}
    (h : mem.Holds start buf) (hp : piece <+: buf.drop off) :
    mem.Holds (start + BitVec.ofNat 32 off) piece := by
  obtain ⟨rest, hrest⟩ := hp
  by_cases hoff : off ≤ buf.length
  · rw [← List.take_append_drop off buf, ← hrest, holds_append, holds_append,
      List.length_take_of_le hoff] at h
    exact h.2.1
  · rw [List.drop_eq_nil_of_le (by omega), List.append_eq_nil_iff] at hrest
    intro i hi
    simp [hrest.1] at hi

end Mem

end LibSystem
