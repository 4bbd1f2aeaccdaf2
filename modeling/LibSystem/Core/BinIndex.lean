import LibSystem.Words
import Mathlib.Data.Nat.Bitwise
import Mathlib.Tactic.NormNum

/-!
# The indices of the bins

The macros of `dlmalloc.c` that turn the size of a chunk into the index of its
bin, in the variant without assembler, and the operations on the bin maps.
-/

namespace LibSystem.Core

/-- `small_index`. -/
def smallIndex (s : Word) : Word := s >>> 3

/-- `is_small`. -/
def IsSmall (s : Word) : Prop := smallIndex s < 32#32

instance (s : Word) : Decidable (IsSmall s) := inferInstanceAs (Decidable (_ < _))

/-- `compute_tree_index`, the variant for other processors than those of Intel. -/
def computeTreeIndex (S : Word) : Word :=
  let X := S >>> 8
  if X = 0#32 then 0#32
  else if 0xFFFF#32 < X then 31#32
  else
    let Y := X
    let N := ((Y - 0x100#32) >>> 16) &&& 8#32
    let Y := Y <<< N
    let K := ((Y - 0x1000#32) >>> 16) &&& 4#32
    let N := N + K
    let Y := Y <<< K
    let K := ((Y - 0x4000#32) >>> 16) &&& 2#32
    let N := N + K
    let Y := Y <<< K
    let K := 14#32 - N + (Y >>> 15)
    (K <<< 1) + ((S >>> (K + 7#32)) &&& 1#32)

/-- `leftshift_for_tree_index`. -/
def leftshiftForTreeIndex (i : Word) : Word :=
  if i = 31#32 then 0#32 else 31#32 - ((i >>> 1) + 8#32 - 2#32)

def idx2bit (i : Word) : Word := 1#32 <<< i

def leastBit (x : Word) : Word := x &&& -x

def leftBits (x : Word) : Word := (x <<< 1) ||| -(x <<< 1)

/-- `compute_bit2idx`, the variant for other processors than those of Intel. -/
def computeBit2idx (X : Word) : Word :=
  let Y := X - 1#32
  let K := (Y >>> 12) &&& 16#32
  let N := K
  let Y := Y >>> K
  let K := (Y >>> 5) &&& 8#32
  let N := N + K
  let Y := Y >>> K
  let K := (Y >>> 2) &&& 4#32
  let N := N + K
  let Y := Y >>> K
  let K := (Y >>> 1) &&& 2#32
  let N := N + K
  let Y := Y >>> K
  let K := Y &&& 1#32
  let N := N + K
  let Y := Y >>> K
  N + Y

/-! ## The search for the upper bit -/

theorem borrow (y c b : Word) (hb : 0xFFFF#32 &&& b = b) (hc : c.toNat ≤ 65536)
    (hy : y.toNat < 65536) :
    ((y - c) >>> 16) &&& b = if y.toNat < c.toNat then b else 0#32 := by
  have hshift : ((y - c) >>> 16).toNat = if y.toNat < c.toNat then 65535 else 0 := by
    rw [BitVec.toNat_ushiftRight, BitVec.toNat_sub, Nat.shiftRight_eq_div_pow]
    split <;> omega
  split
  · rename_i h
    have hsub : (y - c) >>> 16 = 0xFFFF#32 := BitVec.eq_of_toNat_eq (by simp [hshift, h])
    rw [hsub, hb]
  · rename_i h
    have hsub : (y - c) >>> 16 = 0#32 := BitVec.eq_of_toNat_eq (by simp [hshift, h])
    rw [hsub, BitVec.zero_and]

theorem shift_step {y c : Word} {s : Nat} (hs : s = 8 ∨ s = 4 ∨ s = 2)
    (hc : c = BitVec.ofNat 32 (2 ^ (16 - s))) (hlow : 2 ^ (16 - 2 * s) ≤ y.toNat)
    (hy : y.toNat < 65536) :
    ∃ k, ((y - c) >>> 16) &&& BitVec.ofNat 32 s = BitVec.ofNat 32 k ∧ k ≤ s ∧
      (y <<< BitVec.ofNat 32 k).toNat = y.toNat * 2 ^ k ∧ 2 ^ (16 - s) ≤ y.toNat * 2 ^ k ∧
      y.toNat * 2 ^ k < 65536 := by
  have hc' : c.toNat = 2 ^ (16 - s) := by
    rcases hs with rfl | rfl | rfl <;> simp [hc]
  have hborrow := borrow y c (BitVec.ofNat 32 s) (by rcases hs with rfl | rfl | rfl <;> decide)
    (by rcases hs with rfl | rfl | rfl <;> simp [hc']) hy
  rw [hborrow, hc']
  by_cases h : y.toNat < 2 ^ (16 - s)
  · rw [if_pos h]
    have hmul : y.toNat * 2 ^ s < 65536 ∧ 2 ^ (16 - s) ≤ y.toNat * 2 ^ s := by
      rcases hs with rfl | rfl | rfl <;> norm_num at h hlow ⊢ <;> omega
    refine ⟨s, rfl, Nat.le_refl s, ?_, hmul.2, hmul.1⟩
    rw [BitVec.shiftLeft_eq', BitVec.toNat_shiftLeft, Nat.shiftLeft_eq, BitVec.toNat_ofNat,
      Nat.mod_eq_of_lt (a := s) (by omega), Nat.mod_eq_of_lt (by omega)]
  · rw [if_neg h]
    exact ⟨0, rfl, Nat.zero_le s, by simp, by omega, by omega⟩

theorem upper_bit {x N : Nat} (hN : N ≤ 14) (hlow : 2 ^ 14 ≤ x * 2 ^ N)
    (hhigh : x * 2 ^ N < 65536) :
    2 ^ (14 - N + x * 2 ^ N / 2 ^ 15) ≤ x ∧ x < 2 ^ (14 - N + x * 2 ^ N / 2 ^ 15 + 1) := by
  have hb : x * 2 ^ N / 2 ^ 15 = 0 ∨ x * 2 ^ N / 2 ^ 15 = 1 := by omega
  have hpow : ∀ b, 2 ^ (14 - N + b) * 2 ^ N = 2 ^ (14 + b) := fun b => by
    rw [← Nat.pow_add]
    congr 1
    omega
  have hpos := Nat.two_pow_pos N
  constructor
  · refine Nat.le_of_mul_le_mul_right ?_ hpos
    rw [hpow]
    rcases hb with hb | hb <;> rw [hb] <;> omega
  · refine Nat.lt_of_mul_lt_mul_right (a := 2 ^ N) ?_
    rw [Nat.add_assoc, hpow]
    rcases hb with hb | hb <;> rw [hb] <;> omega

/-- Half a power of two of sizes: `k` is the upper bit of `S >> 8`. -/
theorem computeTreeIndex_eq (S : Word) (hlow : 256 ≤ S.toNat) (hhigh : S.toNat < 2 ^ 24) :
    ∃ k, k ≤ 15 ∧ 2 ^ (k + 8) ≤ S.toNat ∧ S.toNat < 2 ^ (k + 9) ∧
      computeTreeIndex S = BitVec.ofNat 32 (2 * k + S.toNat / 2 ^ (k + 7) % 2) := by
  have hX : (S >>> 8).toNat = S.toNat / 256 := by
    rw [BitVec.toNat_ushiftRight, Nat.shiftRight_eq_div_pow]
  set X := S >>> 8 with hXdef
  obtain ⟨k1, hk1, hle1, hy1, hlow1, hhigh1⟩ := shift_step (y := X) (c := 0x100#32) (s := 8)
    (by simp) (by decide) (by norm_num; omega) (by omega)
  obtain ⟨k2, hk2, hle2, hy2, hlow2, hhigh2⟩ := shift_step (y := X <<< BitVec.ofNat 32 k1)
    (c := 0x1000#32) (s := 4) (by simp) (by decide) (by rw [hy1]; exact hlow1)
    (by rw [hy1]; exact hhigh1)
  obtain ⟨k3, hk3, hle3, hy3, hlow3, hhigh3⟩ :=
    shift_step (y := X <<< BitVec.ofNat 32 k1 <<< BitVec.ofNat 32 k2) (c := 0x4000#32) (s := 2)
    (by simp) (by decide) (by rw [hy2]; exact hlow2) (by rw [hy2]; exact hhigh2)
  rw [hy2, hy1, Nat.mul_assoc, Nat.mul_assoc, ← Nat.pow_add, ← Nat.pow_add] at hy3 hlow3 hhigh3
  set N := k1 + (k2 + k3) with hN
  obtain ⟨hle, hlt⟩ := upper_bit (x := X.toNat) (N := N) (by omega)
    hlow3 hhigh3
  set k := 14 - N + X.toNat * 2 ^ N / 2 ^ 15 with hk
  have hk15 : k ≤ 15 := by omega
  have hK : 14#32 - (BitVec.ofNat 32 k1 + BitVec.ofNat 32 k2 + BitVec.ofNat 32 k3) +
      (X <<< BitVec.ofNat 32 k1 <<< BitVec.ofNat 32 k2 <<< BitVec.ofNat 32 k3) >>> 15 =
      BitVec.ofNat 32 k := by
    have h14 : (14#32 -
        (BitVec.ofNat 32 k1 + BitVec.ofNat 32 k2 + BitVec.ofNat 32 k3)).toNat = 14 - N := by
      simp only [BitVec.toNat_sub, BitVec.toNat_add, BitVec.toNat_ofNat]
      omega
    apply BitVec.eq_of_toNat_eq
    rw [BitVec.toNat_add, h14, BitVec.toNat_ushiftRight, hy3, Nat.shiftRight_eq_div_pow,
      BitVec.toNat_ofNat]
  have hbit : (S >>> (BitVec.ofNat 32 k + 7#32) &&& 1#32) =
      BitVec.ofNat 32 (S.toNat / 2 ^ (k + 7) % 2) := by
    have hk7 : (BitVec.ofNat 32 k + 7#32).toNat = k + 7 := by
      rw [BitVec.toNat_add]
      simp only [BitVec.toNat_ofNat]
      omega
    apply BitVec.eq_of_toNat_eq
    rw [BitVec.toNat_and, BitVec.ushiftRight_eq', hk7, BitVec.toNat_ushiftRight,
      Nat.shiftRight_eq_div_pow, BitVec.toNat_ofNat]
    simp only [BitVec.toNat_ofNat, Nat.reducePow, Nat.reduceMod, Nat.and_one_is_mod]
    omega
  have hne : ¬ X = 0#32 := by
    intro h
    rw [h] at hX
    simp at hX
    omega
  have hnot : ¬ 0xFFFF#32 < X := by
    rw [BitVec.lt_def, hX]
    simp only [BitVec.toNat_ofNat]
    omega
  refine ⟨k, hk15, ?_, ?_, ?_⟩
  · rw [Nat.pow_add]
    omega
  · rw [show k + 9 = k + 1 + 8 by rfl, Nat.pow_add]
    omega
  · simp only [computeTreeIndex, ← hXdef, if_neg hne, if_neg hnot]
    rw [hk1, hk2, hk3, hK, hbit]
    apply BitVec.eq_of_toNat_eq
    rw [BitVec.toNat_add, BitVec.toNat_shiftLeft]
    simp only [BitVec.toNat_ofNat, Nat.shiftLeft_eq]
    omega

/-! ## The tree of a size -/

theorem computeTreeIndex_of_le {S : Word} (h : 2 ^ 24 ≤ S.toNat) :
    computeTreeIndex S = 31#32 := by
  have hlt : 0xFFFF#32 < S >>> 8 := by
    rw [BitVec.lt_def, BitVec.toNat_ushiftRight, Nat.shiftRight_eq_div_pow]
    simp only [BitVec.toNat_ofNat]
    omega
  have hne : S >>> 8 ≠ 0#32 := by
    intro h
    rw [h] at hlt
    exact absurd hlt (by decide)
  rw [computeTreeIndex, if_neg hne, if_pos hlt]

theorem computeTreeIndex_lt (S : Word) : (computeTreeIndex S).toNat < 32 := by
  by_cases hlow : 256 ≤ S.toNat
  · by_cases hhigh : S.toNat < 2 ^ 24
    · obtain ⟨k, hk, -, -, heq⟩ := computeTreeIndex_eq S hlow hhigh
      rw [heq, BitVec.toNat_ofNat]
      omega
    · rw [computeTreeIndex_of_le (by omega)]
      decide
  · have hX : S >>> 8 = 0#32 := by
      apply BitVec.eq_of_toNat_eq
      rw [BitVec.toNat_ushiftRight, Nat.shiftRight_eq_div_pow]
      simp only [BitVec.toNat_ofNat]
      omega
    rw [computeTreeIndex, if_pos hX]
    decide

/-- The least size of the tree `i`, as a number. -/
def leastSize (i : Nat) : Nat := (2 + i % 2) * 2 ^ (i / 2 + 7)

theorem leastSize_succ (i : Nat) : leastSize (i + 1) = (3 + i % 2) * 2 ^ (i / 2 + 7) := by
  rcases Nat.mod_two_eq_zero_or_one i with h | h
  · rw [leastSize, h, show (i + 1) / 2 = i / 2 by omega, show (i + 1) % 2 = 1 by omega]
  · rw [leastSize, h, show (i + 1) / 2 + 7 = i / 2 + 7 + 1 by omega,
      show (i + 1) % 2 = 0 by omega, Nat.pow_succ]
    generalize 2 ^ (i / 2 + 7) = n
    omega

theorem leastSize_mono {i j : Nat} (hij : i ≤ j) : leastSize i ≤ leastSize j := by
  induction j, hij using Nat.le_induction with
  | base => exact Nat.le_refl _
  | succ j _ ih =>
    rw [leastSize_succ]
    exact ih.trans (Nat.mul_le_mul_right _ (by omega))

theorem computeTreeIndex_spec {S : Word} (hlow : 256 ≤ S.toNat) :
    leastSize (computeTreeIndex S).toNat ≤ S.toNat ∧
      ((computeTreeIndex S).toNat ≠ 31 →
        S.toNat < leastSize ((computeTreeIndex S).toNat + 1)) := by
  by_cases hhigh : S.toNat < 2 ^ 24
  · obtain ⟨k, hk, hle, hlt, heq⟩ := computeTreeIndex_eq S hlow hhigh
    have hdiv : S.toNat / 2 ^ (k + 7) = 2 + S.toNat / 2 ^ (k + 7) % 2 := by
      have h2 : 2 ≤ S.toNat / 2 ^ (k + 7) := by
        rw [Nat.le_div_iff_mul_le (Nat.two_pow_pos _), ← Nat.pow_succ']
        exact hle
      have h4 : S.toNat / 2 ^ (k + 7) < 4 := by
        rw [Nat.div_lt_iff_lt_mul (Nat.two_pow_pos _), show 4 = 2 ^ 2 by rfl, ← Nat.pow_add,
          Nat.add_comm]
        exact hlt
      omega
    generalize hb : S.toNat / 2 ^ (k + 7) % 2 = b at heq hdiv
    have hb2 : b < 2 := by omega
    have hi : (computeTreeIndex S).toNat = 2 * k + b := by
      rw [heq, BitVec.toNat_ofNat]
      omega
    rw [hi, leastSize_succ, leastSize, show (2 * k + b) / 2 = k by omega,
      show (2 * k + b) % 2 = b by omega, ← hdiv]
    refine ⟨Nat.div_mul_le_self _ _, fun _ => ?_⟩
    rw [← Nat.div_lt_iff_lt_mul (Nat.two_pow_pos _)]
    omega
  · rw [computeTreeIndex_of_le (by omega)]
    have h31 : leastSize 31 = 12582912 := by decide
    refine ⟨?_, fun h => absurd rfl h⟩
    rw [show (31#32).toNat = 31 by rfl, h31]
    omega

theorem lt_of_computeTreeIndex_lt {S S' : Word} (hlow : 256 ≤ S.toNat) (hlow' : 256 ≤ S'.toNat)
    (h : (computeTreeIndex S).toNat < (computeTreeIndex S').toNat) : S.toNat < S'.toNat := by
  have hi := computeTreeIndex_lt S'
  have hle := leastSize_mono (i := (computeTreeIndex S).toNat + 1) h
  exact ((computeTreeIndex_spec hlow).2 (by omega)).trans_le
    (hle.trans (computeTreeIndex_spec hlow').1)

/-- The number of bits of a size that its index leaves open. -/
def treeWidth (i : Word) : Nat := if i = 31#32 then 32 else i.toNat / 2 + 7

/-- The other bits, as a number. -/
def treeUpper (i : Word) : Nat := if i = 31#32 then 0 else 2 + i.toNat % 2

theorem treeWidth_le {i : Word} (hi : i.toNat < 32) : treeWidth i ≤ 32 := by
  unfold treeWidth
  split <;> omega

theorem size_div_treeWidth {S : Word} (hlow : 256 ≤ S.toNat) :
    S.toNat / 2 ^ treeWidth (computeTreeIndex S) = treeUpper (computeTreeIndex S) := by
  obtain ⟨hle, hlt⟩ := computeTreeIndex_spec hlow
  unfold treeWidth treeUpper
  split
  · have := S.isLt
    omega
  · rename_i hne
    have hne : (computeTreeIndex S).toNat ≠ 31 := fun h => hne (BitVec.eq_of_toNat_eq h)
    have hlt := hlt hne
    rw [leastSize_succ] at hlt
    refine Nat.div_eq_of_lt_le hle ?_
    rw [show ∀ n, 2 + n + 1 = 3 + n by omega]
    exact hlt

theorem leftshiftForTreeIndex_toNat {i : Word} (hi : i.toNat < 32) :
    (leftshiftForTreeIndex i).toNat = 32 - treeWidth i := by
  have hall : ∀ j < 32, (leftshiftForTreeIndex (BitVec.ofNat 32 j)).toNat =
      32 - treeWidth (BitVec.ofNat 32 j) := by decide
  simpa using hall i.toNat hi

theorem sign_bit {i S : Word} {n : Nat} (hi : i.toNat < 32) (hn : n < treeWidth i) :
    (S <<< (32 - treeWidth i + n)).getLsbD 31 = S.toNat.testBit (treeWidth i - (n + 1)) := by
  have hw := treeWidth_le hi
  rw [BitVec.getLsbD_shiftLeft, BitVec.testBit_toNat,
    show 31 - (32 - treeWidth i + n) = treeWidth i - (n + 1) by omega]
  simp only [show ¬ 31 < 32 - treeWidth i + n by omega, decide_false, Bool.not_false,
    Bool.and_true, show (31 : Nat) < 32 by omega, decide_true, Bool.true_and]

/-! ## The bin maps -/

theorem getLsbD_idx2bit (i : Word) (j : Nat) :
    (idx2bit i).getLsbD j = (decide (j < 32) && decide (j = i.toNat)) := by
  rw [idx2bit, BitVec.shiftLeft_eq', BitVec.getLsbD_shiftLeft, BitVec.getLsbD_one]
  rw [Bool.eq_iff_iff]
  simp
  omega

theorem marked_iff {x i : Word} (hi : i.toNat < 32) :
    x &&& idx2bit i ≠ 0#32 ↔ x.getLsbD i.toNat = true := by
  constructor
  · intro h
    by_contra hx
    refine h (BitVec.eq_of_getLsbD_eq fun j hj => ?_)
    rw [BitVec.getLsbD_and, getLsbD_idx2bit, BitVec.getLsbD_zero]
    by_cases hji : j = i.toNat
    · rw [hji, Bool.eq_false_iff.mpr hx, Bool.false_and]
    · simp [hji]
  · intro hx h
    have hbit := congrArg (fun y => y.getLsbD i.toNat) h
    simp only [BitVec.getLsbD_and, hx, getLsbD_idx2bit, hi, BitVec.getLsbD_zero] at hbit
    simp at hbit

theorem marked_mark_iff {x i j : Word} (hj : j.toNat < 32) :
    (x ||| idx2bit i) &&& idx2bit j ≠ 0#32 ↔ j = i ∨ x &&& idx2bit j ≠ 0#32 := by
  rw [marked_iff hj, marked_iff hj, BitVec.getLsbD_or, getLsbD_idx2bit, ← BitVec.toNat_inj]
  simp only [hj, decide_true, Bool.true_and, Bool.or_eq_true, decide_eq_true_eq]
  exact or_comm

theorem marked_clear_iff {x i j : Word} (hj : j.toNat < 32) :
    (x &&& ~~~idx2bit i) &&& idx2bit j ≠ 0#32 ↔ j ≠ i ∧ x &&& idx2bit j ≠ 0#32 := by
  rw [marked_iff hj, marked_iff hj, BitVec.getLsbD_and, BitVec.getLsbD_not, getLsbD_idx2bit,
    ne_eq, ← BitVec.toNat_inj]
  simp only [hj, decide_true, Bool.true_and, Bool.and_eq_true, Bool.not_eq_true',
    decide_eq_false_iff_not]
  exact and_comm

theorem getLsbD_leastBit (x : Word) (j : Nat) :
    (leastBit x).getLsbD j = true ↔ x.getLsbD j = true ∧ ∀ k < j, x.getLsbD k = false := by
  rw [leastBit, BitVec.getLsbD_and, BitVec.getLsbD_neg]
  by_cases hx : x.getLsbD j = true
  · have hj : j < 32 := BitVec.lt_of_getLsbD hx
    rw [hx, decide_eq_true hj, Bool.true_and, Bool.true_and, Bool.true_xor, Bool.not_eq_true',
      decide_eq_false_iff_not]
    simp
  · simp only [hx, Bool.false_eq_true, false_and, iff_false, Bool.not_eq_true]
    exact Bool.false_and _

theorem computeBit2idx_leastBit {x : Word} (hx : x ≠ 0#32) :
    (computeBit2idx (leastBit x)).toNat < 32 ∧
      x.getLsbD (computeBit2idx (leastBit x)).toNat = true ∧
      ∀ j < (computeBit2idx (leastBit x)).toNat, x.getLsbD j = false := by
  have hall : ∀ i < 32, (computeBit2idx (idx2bit (BitVec.ofNat 32 i))).toNat = i := by decide
  have hbit : ∃ i, x.getLsbD i = true := by
    by_contra hno
    push Not at hno
    exact hx (BitVec.eq_of_getLsbD_eq fun j _ => by simpa using hno j)
  classical
  have hi := Nat.find_spec hbit
  have hmin : ∀ j < Nat.find hbit, x.getLsbD j = false := fun j hj => by
    simpa using Nat.find_min hbit hj
  have hlt : Nat.find hbit < 32 := BitVec.lt_of_getLsbD hi
  generalize Nat.find hbit = i at hi hmin hlt
  have hleast : leastBit x = idx2bit (BitVec.ofNat 32 i) := by
    refine BitVec.eq_of_getLsbD_eq fun j hj => ?_
    rw [Bool.eq_iff_iff, getLsbD_leastBit, getLsbD_idx2bit, BitVec.toNat_ofNat,
      Nat.mod_eq_of_lt (by omega)]
    simp only [hj, decide_true, Bool.true_and, decide_eq_true_eq]
    constructor
    · rintro ⟨hxj, hno⟩
      by_contra hne
      rcases Nat.lt_or_gt_of_ne hne with hji | hij
      · simp [hmin j hji] at hxj
      · simp [hno i hij] at hi
    · rintro rfl
      exact ⟨hi, hmin⟩
  rw [hleast, hall i hlt]
  exact ⟨hlt, hi, hmin⟩

theorem getLsbD_leftBits {i : Word} (hi : i.toNat < 32) (j : Nat) :
    (leftBits (idx2bit i)).getLsbD j = (decide (j < 32) && decide (i.toNat < j)) := by
  have hall : ∀ k < 32, leftBits (idx2bit (BitVec.ofNat 32 k)) =
      BitVec.allOnes 32 <<< (k + 1) := by decide
  have heq := hall i.toNat hi
  rw [BitVec.ofNat_toNat, BitVec.setWidth_eq] at heq
  rw [heq, BitVec.getLsbD_shiftLeft, BitVec.getLsbD_allOnes, Bool.eq_iff_iff]
  simp only [Bool.and_eq_true, Bool.not_eq_true', decide_eq_true_eq, decide_eq_false_iff_not]
  omega

end LibSystem.Core
