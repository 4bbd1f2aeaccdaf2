import LibSystem.Core.Malloc

/-!
# Heads of chunks

The head of a chunk as a number: its size, which is a multiple of 8, and its
bits.
-/

namespace LibSystem.Core

open Function MallocState

variable {m m' : MallocState} {w s f mask : Word} {p a : Addr} {k : Nat}

/-! ## Masks -/

theorem toNat_and_mask (hmask : mask.toNat = 2 ^ k - 1) :
    (w &&& mask).toNat = w.toNat % 2 ^ k := by
  rw [BitVec.toNat_and, hmask, Nat.and_two_pow_sub_one_eq_mod]

theorem toNat_and_not (hmask : ∀ j < 32, mask.getLsbD j = decide (j < k)) :
    (w &&& ~~~mask).toNat = w.toNat / 2 ^ k * 2 ^ k := by
  have heq : w &&& ~~~mask = (w >>> k) <<< k := by
    refine BitVec.eq_of_getLsbD_eq fun j hj => ?_
    rw [BitVec.getLsbD_shiftLeft, BitVec.getLsbD_ushiftRight, BitVec.getLsbD_and,
      BitVec.getLsbD_not, hmask j hj]
    by_cases hjk : j < k
    · simp [hjk]
    · simp [hjk, hj, show k + (j - k) = j by omega]
  have hle : w.toNat / 2 ^ k * 2 ^ k ≤ w.toNat := Nat.div_mul_le_self _ _
  have := w.isLt
  rw [heq, BitVec.toNat_shiftLeft, BitVec.toNat_ushiftRight, Nat.shiftRight_eq_div_pow,
    Nat.shiftLeft_eq, Nat.mod_eq_of_lt (by omega)]

theorem toNat_or (k : Nat) (hs : s.toNat % 2 ^ k = 0) (hf : f.toNat < 2 ^ k) :
    (s ||| f).toNat = s.toNat + f.toNat := by
  have h := Nat.two_pow_add_eq_or_of_lt hf (s.toNat / 2 ^ k)
  rw [Nat.mul_div_cancel' (Nat.dvd_of_mod_eq_zero hs)] at h
  rw [BitVec.toNat_or, h]

theorem toNat_and_one (w : Word) : (w &&& 1#32).toNat = w.toNat % 2 := toNat_and_mask (k := 1) rfl

theorem toNat_and_three (w : Word) : (w &&& 3#32).toNat = w.toNat % 4 :=
  toNat_and_mask (k := 2) rfl

theorem toNat_and_seven (w : Word) : (w &&& 7#32).toNat = w.toNat % 8 :=
  toNat_and_mask (k := 3) rfl

theorem toNat_and_not_one (w : Word) : (w &&& ~~~1#32).toNat = w.toNat / 2 * 2 :=
  toNat_and_not (k := 1) (by decide)

theorem toNat_and_not_three (w : Word) : (w &&& ~~~3#32).toNat = w.toNat / 4 * 4 :=
  toNat_and_not (k := 2) (by decide)

theorem toNat_and_not_seven (w : Word) : (w &&& ~~~7#32).toNat = w.toNat / 8 * 8 :=
  toNat_and_not (k := 3) (by decide)

theorem toNat_or_one (w : Word) : (w ||| 1#32).toNat = w.toNat / 2 * 2 + 1 := by
  have heq : w ||| 1#32 = (w &&& ~~~1#32) ||| 1#32 := by
    refine BitVec.eq_of_getLsbD_eq fun j hj => ?_
    simp only [BitVec.getLsbD_or, BitVec.getLsbD_and, BitVec.getLsbD_not, hj, decide_true,
      Bool.true_and]
    cases (1#32).getLsbD j <;> simp
  rw [heq, toNat_or 1 (by rw [toNat_and_not_one]; omega) (by decide), toNat_and_not_one]
  rfl

theorem toNat_inuse_head (hs : s.toNat % 8 = 0) : (s ||| 1#32 ||| 2#32).toNat = s.toNat + 3 := by
  have h1 : (s ||| 1#32).toNat = s.toNat + 1 := toNat_or 3 hs (by decide)
  rw [show s ||| 1#32 ||| 2#32 = s ||| 3#32 by rw [BitVec.or_assoc]; rfl]
  exact toNat_or 3 hs (by decide)

theorem toNat_free_head (hs : s.toNat % 8 = 0) : (s ||| 1#32).toNat = s.toNat + 1 :=
  toNat_or 3 hs (by decide)

/-! ## What the bits say -/

namespace MallocState

theorem toNat_chunksize (m : MallocState) (p : Addr) :
    (m.chunksize p).toNat = (m.head p).toNat / 8 * 8 := toNat_and_not_seven _

theorem pinuse_iff : m.Pinuse p ↔ (m.head p).toNat % 2 = 1 := by
  rw [Pinuse, ne_eq, ← BitVec.toNat_inj, toNat_and_one]
  simp only [BitVec.toNat_ofNat]
  omega

theorem cinuse_iff : m.Cinuse p ↔ (m.head p).toNat / 2 % 2 = 1 := by
  have h : (m.head p &&& 2#32).toNat = (m.head p).toNat % 4 - (m.head p).toNat % 2 := by
    have heq : m.head p &&& 2#32 = (m.head p &&& ~~~1#32) &&& 3#32 := by
      rw [BitVec.and_assoc]
      rfl
    rw [heq, toNat_and_three, toNat_and_not_one]
    omega
  rw [Cinuse, ne_eq, ← BitVec.toNat_inj, h]
  simp only [BitVec.toNat_ofNat]
  omega

theorem isInuse_iff : m.IsInuse p ↔ (m.head p).toNat % 4 ≠ 1 := by
  rw [IsInuse, ne_eq, ← BitVec.toNat_inj, toNat_and_three]
  rfl

theorem isMmapped_iff : m.IsMmapped p ↔ (m.head p).toNat % 4 = 0 := by
  rw [IsMmapped, ← BitVec.toNat_inj, toNat_and_three]
  rfl

/-! ## Writes -/

theorem head_setInuseAndPinuse (hs : s ≠ 0#32) : (m.setInuseAndPinuse p s).head a =
    if a = p + s then m.head a ||| 1#32 else if a = p then s ||| 1#32 ||| 2#32 else m.head a := by
  have hne : p + s ≠ p := by bv_omega
  simp only [setInuseAndPinuse, setHead, update_apply, hne, if_false]
  split
  · rename_i h
    rw [h]
  · rfl

theorem head_setSizeAndPinuseOfInuseChunk : (m.setSizeAndPinuseOfInuseChunk p s).head a =
    if a = p then s ||| 1#32 ||| 2#32 else m.head a := update_apply _ _ _ _

theorem head_setSizeAndPinuseOfFreeChunk : (m.setSizeAndPinuseOfFreeChunk p s).head a =
    if a = p then s ||| 1#32 else m.head a := update_apply _ _ _ _

theorem prevFoot_setSizeAndPinuseOfFreeChunk : (m.setSizeAndPinuseOfFreeChunk p s).prevFoot a =
    if a = p + s then s else m.prevFoot a := update_apply _ _ _ _

theorem head_setFreeWithPinuse {n : Addr} : (m.setFreeWithPinuse p s n).head a =
    if a = p then s ||| 1#32 else if a = n then m.head a &&& ~~~1#32 else m.head a := by
  rw [setFreeWithPinuse, head_setSizeAndPinuseOfFreeChunk]
  simp only [clearPinuse, setHead, update_apply]
  split
  · rfl
  · split
    · rename_i h
      rw [h]
    · rfl

theorem prevFoot_setFreeWithPinuse {n : Addr} : (m.setFreeWithPinuse p s n).prevFoot a =
    if a = p + s then s else m.prevFoot a := update_apply _ _ _ _

end MallocState

end LibSystem.Core
