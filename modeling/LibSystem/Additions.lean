import LibSystem.Words
import Mathlib.Data.List.Nodup
import Mathlib.Data.List.Pairwise

/-!
# Additions that meet

What one addition does to each byte, when words may overlap. A list of sites that have no byte in
common is told apart from any other by the memory it leaves.
-/

namespace LibSystem.Mem

variable {mem mem' : Mem} {v : Word} {a : Addr}

/-! ## One byte -/

/-- What byte `i` of the word at `a` gets: a digit of `v`, and the carry from below. -/
def gain (mem : Mem) (v : Word) (a : Addr) (i : Nat) : Byte :=
  BitVec.ofNat 8 ((v.toNat + (mem.load a).toNat % 256 ^ i) / 256 ^ i)

theorem load_div (mem : Mem) (a : Addr) {i : Nat} (hi : i < 4) :
    (mem.load a).toNat / 256 ^ i % 256 = (mem (a + BitVec.ofNat 32 i)).toNat := by
  have h0 := (mem a).isLt
  have h1 := (mem (a + 1)).isLt
  have h2 := (mem (a + 2)).isLt
  have h3 := (mem (a + 3)).isLt
  unfold load
  rw [BitVec.toNat_ofNat]
  obtain rfl | rfl | rfl | rfl : i = 0 ∨ i = 1 ∨ i = 2 ∨ i = 3 := by omega
  · rw [BitVec.add_zero]; omega
  · show _ = (mem (a + 1)).toNat; omega
  · show _ = (mem (a + 2)).toNat; omega
  · show _ = (mem (a + 3)).toNat; omega

theorem add_at (mem : Mem) (v : Word) (a : Addr) {i : Nat} (hi : i < 4) :
    mem.add v a (a + BitVec.ofNat 32 i) = mem (a + BitVec.ofNat 32 i) + mem.gain v a i := by
  have hdiv := load_div mem a hi
  have hw := (mem.load a).isLt
  have hv := v.isLt
  unfold add gain
  rw [store_at _ _ _ _ hi]
  apply BitVec.eq_of_toNat_eq
  rw [BitVec.toNat_ofNat, BitVec.toNat_add, BitVec.toNat_add, BitVec.toNat_ofNat, ← hdiv]
  obtain rfl | rfl | rfl | rfl : i = 0 ∨ i = 1 ∨ i = 2 ∨ i = 3 := by omega
  all_goals omega

theorem add_outside (mem : Mem) (v : Word) {a x : Addr} (h : ¬ InWord a x) :
    mem.add v a x = mem x := store_outside _ _ _ _ h

theorem gain_congr {i : Nat} (hi : i < 4)
    (h : ∀ j < i, mem' (a + BitVec.ofNat 32 j) = mem (a + BitVec.ofNat 32 j)) :
    mem'.gain v a i = mem.gain v a i := by
  have hdigit : ∀ j < i,
      (mem'.load a).toNat / 256 ^ j % 256 = (mem.load a).toNat / 256 ^ j % 256 := by
    intro j hj
    rw [load_div _ _ (by omega), load_div _ _ (by omega), h j hj]
  have hlow : (mem'.load a).toNat % 256 ^ i = (mem.load a).toNat % 256 ^ i := by
    obtain rfl | rfl | rfl | rfl : i = 0 ∨ i = 1 ∨ i = 2 ∨ i = 3 := by omega
    · simp [Nat.mod_one]
    · have := hdigit 0 (by omega); omega
    · have := hdigit 0 (by omega)
      have := hdigit 1 (by omega)
      omega
    · have := hdigit 0 (by omega)
      have := hdigit 1 (by omega)
      have := hdigit 2 (by omega)
      omega
  unfold gain
  rw [hlow]

/-! ## The lowest digit -/

/-- Digit `k` of `v` is the lowest that is not 0. -/
structure LowestDigit (v : Word) (k : Nat) : Prop where
  lt : k < 4
  below : v.toNat % 256 ^ k = 0
  ne : v.toNat / 256 ^ k % 256 ≠ 0

theorem exists_lowestDigit (hv : v ≠ 0) : ∃ k, LowestDigit v k := by
  have hlt := v.isLt
  have hne : v.toNat ≠ 0 := fun h => hv (BitVec.eq_of_toNat_eq h)
  by_cases h0 : v.toNat % 256 = 0
  · by_cases h1 : v.toNat % 65536 = 0
    · by_cases h2 : v.toNat % 16777216 = 0
      · exact ⟨3, by omega, by omega, by omega⟩
      · exact ⟨2, by omega, by omega, by omega⟩
    · exact ⟨1, by omega, by omega, by omega⟩
  · exact ⟨0, by omega, by omega, by omega⟩

variable {k : Nat} {x y w : Addr}

/-- An addition at `a` may change the byte at `x`. -/
def Touches (k : Nat) (a x : Addr) : Prop := k ≤ (x - a).toNat ∧ (x - a).toNat < 4

theorem add_untouched (hk : LowestDigit v k) (h : ¬ Touches k a x) : mem.add v a x = mem x := by
  by_cases hin : InWord a x
  · unfold InWord at hin
    have hlow : (x - a).toNat < k := by
      unfold Touches at h
      omega
    have hx : x = a + BitVec.ofNat 32 (x - a).toNat := by bv_omega
    have hbelow := hk.below
    have hgain : mem.gain v a (x - a).toNat = 0#8 := by
      generalize (x - a).toNat = i at hlow
      have hlt := hk.lt
      unfold gain
      apply BitVec.eq_of_toNat_eq
      rw [BitVec.toNat_ofNat]
      obtain ⟨rfl, rfl⟩ | ⟨rfl, rfl⟩ | ⟨rfl, rfl⟩ | ⟨rfl, rfl⟩ | ⟨rfl, rfl⟩ | ⟨rfl, rfl⟩ :
        (i = 0 ∧ k = 1) ∨ (i = 0 ∧ k = 2) ∨ (i = 0 ∧ k = 3) ∨ (i = 1 ∧ k = 2) ∨ (i = 1 ∧ k = 3) ∨
          (i = 2 ∧ k = 3) := by omega
      all_goals simp; omega
    rw [hx, add_at _ _ _ hin, ← hx, hgain, BitVec.add_zero]
  · exact add_outside _ _ hin

theorem add_lowest (hk : LowestDigit v k) (mem : Mem) (a : Addr) :
    mem.add v a (a + BitVec.ofNat 32 k) =
      mem (a + BitVec.ofNat 32 k) + BitVec.ofNat 8 (v.toNat / 256 ^ k) := by
  have hlt := hk.lt
  have hbelow := hk.below
  rw [add_at _ _ _ hlt]
  congr 1
  unfold gain
  congr 1
  obtain rfl | rfl | rfl | rfl : k = 0 ∨ k = 1 ∨ k = 2 ∨ k = 3 := by omega
  all_goals omega

/-! ## Two lists of sites -/

/-- Memories that agree from `w` up to `y`, where the second is ahead by `c`. -/
structure AheadAt (w y : Addr) (c : Byte) (mem mem' : Mem) : Prop where
  below : ∀ x, (x - w).toNat < (y - w).toNat → mem' x = mem x
  at_y : mem' y = mem y + c

/-- No addition at `a` may change a byte from `w` up to `y`. -/
def Misses (k : Nat) (w y a : Addr) : Prop :=
  ∀ x, (x - w).toNat ≤ (y - w).toNat → ¬ Touches k a x

theorem AheadAt.add_both {c : Byte} (hw : InWord w y) (h : AheadAt w y c mem mem') :
    AheadAt w y c (mem.add v w) (mem'.add v w) := by
  have hsame : ∀ i : Nat, i < (y - w).toNat →
      mem' (w + BitVec.ofNat 32 i) = mem (w + BitVec.ofNat 32 i) := by
    intro i hi
    exact h.below _ (by bv_omega)
  unfold InWord at hw
  constructor
  · intro x hx
    have hi : (x - w).toNat < 4 := by omega
    have heq : x = w + BitVec.ofNat 32 (x - w).toNat := by bv_omega
    rw [heq, add_at _ _ _ hi, add_at _ _ _ hi, gain_congr hi fun j hj => hsame j (by omega), ← heq,
      h.below x hx]
  · have heq : y = w + BitVec.ofNat 32 (y - w).toNat := by bv_omega
    have hadd : ∀ m : Mem, m.add v w y = m y + m.gain v w (y - w).toNat := by
      intro m
      have hat := add_at m v w hw
      rwa [← heq] at hat
    rw [hadd, hadd, gain_congr hw hsame, h.at_y, BitVec.add_assoc, BitVec.add_assoc,
      BitVec.add_comm c]

theorem AheadAt.add_missed {c : Byte} {a' : Addr} (hk : LowestDigit v k)
    (h : AheadAt w y c mem mem') (ha : Misses k w y a) (ha' : Misses k w y a') :
    AheadAt w y c (mem.add v a) (mem'.add v a') := by
  constructor
  · intro x hx
    rw [add_untouched hk (ha x (by omega)), add_untouched hk (ha' x (by omega)), h.below x hx]
  · rw [add_untouched hk (ha y (Nat.le_refl _)), add_untouched hk (ha' y (Nat.le_refl _)), h.at_y]

/-- Sites side by side: the same word `w` in both, or two that miss. -/
def InStep (k : Nat) (w y : Addr) (p : Addr × Addr) : Prop :=
  (p.1 = w ∧ p.2 = w) ∨ (Misses k w y p.1 ∧ Misses k w y p.2)

theorem AheadAt.addAll {c : Byte} (hk : LowestDigit v k) (hw : InWord w y)
    {pairs : List (Addr × Addr)} (hpairs : ∀ p ∈ pairs, InStep k w y p)
    (h : AheadAt w y c mem mem') :
    AheadAt w y c (mem.addAll v (pairs.map Prod.fst)) (mem'.addAll v (pairs.map Prod.snd)) := by
  induction pairs generalizing mem mem' with
  | nil => exact h
  | cons p pairs ih =>
    refine ih (fun q hq => hpairs q (by simp [hq])) ?_
    rcases hpairs p (by simp) with ⟨h1, h2⟩ | ⟨h1, h2⟩
    · rw [h1, h2]
      exact h.add_both hw
    · exact h.add_missed hk h1 h2

theorem addAll_ne (mem : Mem) (hk : LowestDigit v k) (hw : InWord w y)
    {l1 l2 : List (Addr × Addr)} {b : Addr}
    (h1 : ∀ p ∈ l1, InStep k w y p) (h2 : ∀ p ∈ l2, InStep k w y p) (ha : Misses k w y a)
    (hy : y = b + BitVec.ofNat 32 k)
    (hb : ∀ x, (x - w).toNat < (y - w).toNat → ¬ Touches k b x) :
    mem.addAll v ((l1 ++ (a, b) :: l2).map Prod.fst) y ≠
      mem.addAll v ((l1 ++ (a, b) :: l2).map Prod.snd) y := by
  have hstart : AheadAt w y 0#8 mem mem := ⟨fun x _ => rfl, (BitVec.add_zero _).symm⟩
  have hbefore := hstart.addAll hk hw h1
  have hone : ∀ {m m' : Mem}, AheadAt w y 0#8 m m' →
      AheadAt w y (BitVec.ofNat 8 (v.toNat / 256 ^ k)) (m.add v a) (m'.add v b) := by
    intro m m' h
    constructor
    · intro x hx
      rw [add_untouched hk (ha x (by omega)), add_untouched hk (hb x hx), h.below x hx]
    · have hlow := add_lowest hk m' b
      rw [← hy] at hlow
      rw [add_untouched hk (ha y (Nat.le_refl _)), hlow, h.at_y, BitVec.add_zero]
  have hafter := (hone hbefore).addAll hk hw h2
  rw [List.map_append, List.map_append, List.map_cons, List.map_cons, addAll_append, addAll_append,
    addAll_cons, addAll_cons, hafter.at_y]
  have hne := hk.ne
  intro heq
  have hzero : BitVec.ofNat 8 (v.toNat / 256 ^ k) = 0#8 := by
    generalize BitVec.ofNat 8 (v.toNat / 256 ^ k) = c at heq
    bv_omega
  exact hne (congrArg BitVec.toNat hzero)

/-! ## Words near one byte -/

instance : Std.Symm Apart := ⟨fun _ _ h => h.symm⟩

theorem sameOrApart {sites : List Addr} (hapart : sites.Pairwise Apart) {b : Addr}
    (ha : a ∈ sites) (hb : b ∈ sites) : SameOrApart a b := by
  by_cases heq : a = b
  · exact Or.inl heq
  · exact Or.inr (hapart.forall ha hb heq)

section Window

variable {b : Addr} (hk : k < 4) (hw : InWord w y) (hy : y = b + BitVec.ofNat 32 k)
include hk hw hy

theorem misses_behind (ha : 0 < (a - b).toNat) (ha' : (a - b).toNat ≤ 2 ^ 31 + 2 ^ 24) :
    Misses k w y a := by
  intro x hx htouch
  unfold InWord at hw
  unfold Touches at htouch
  have hj : (y - x).toNat < 4 := by bv_omega
  have hxa : x - a = BitVec.ofNat 32 k - (y - x) - (a - b) := by
    rw [hy]
    bv_omega
  rw [hxa] at htouch
  generalize a - b = d at *
  generalize y - x = j at *
  bv_omega

theorem not_touches_below (x : Addr) (hx : (x - w).toNat < (y - w).toNat) : ¬ Touches k b x := by
  unfold InWord at hw
  unfold Touches
  bv_omega

end Window

theorem misses_of_apart (hw : InWord w y) (h : Apart a w) :
    Misses k w y a := by
  intro x hx htouch
  unfold InWord at hw
  exact h x htouch.2 (Nat.lt_of_le_of_lt hx hw)

theorem misses_self (h : ¬ InWord a y) : Misses k y y a := by
  intro x hx htouch
  obtain rfl : x = y := by bv_omega
  exact h htouch.2

theorem exists_window {sites : List Addr} (hapart : sites.Pairwise Apart) (k : Nat) (y : Addr) :
    ∃ w, InWord w y ∧ ∀ a ∈ sites, a = w ∨ Misses k w y a := by
  by_cases hcover : ∃ w ∈ sites, InWord w y
  · obtain ⟨w, hw, hin⟩ := hcover
    exact ⟨w, hin, fun a ha => (sameOrApart hapart ha hw).imp_right (misses_of_apart hin)⟩
  · refine ⟨y, by unfold InWord; bv_omega, fun a ha => Or.inr (misses_self fun hin => ?_)⟩
    exact hcover ⟨a, ha, hin⟩

/-! ## Sites that have no byte in common -/

theorem eq_of_load_eq (h : mem.load a = mem'.load a) (hx : InWord a x) : mem x = mem' x := by
  unfold InWord at hx
  have heq : x = a + BitVec.ofNat 32 (x - a).toNat := by bv_omega
  apply BitVec.eq_of_toNat_eq
  rw [heq, ← load_div mem a hx, ← load_div mem' a hx, h]

theorem grown_iff {sites : List Addr} (hapart : sites.Pairwise Apart) :
    ((∀ a ∈ sites, mem'.load a = mem.load a + v) ∧
      ∀ x, (∀ a ∈ sites, ¬ InWord a x) → mem' x = mem x) ↔ mem' = mem.addAll v sites := by
  have hgrown : ∀ a ∈ sites, (mem.addAll v sites).load a = mem.load a + v := by
    intro a ha
    have hnodup : sites.Nodup := hapart.imp fun h => by
      rintro rfl
      exact not_apart_self _ h
    rw [load_addAll fun b hb => sameOrApart hapart hb ha, List.count_eq_one_of_mem hnodup ha,
      BitVec.one_mul]
  constructor
  · rintro ⟨hload, houtside⟩
    funext x
    by_cases hx : ∃ a ∈ sites, InWord a x
    · obtain ⟨a, ha, hin⟩ := hx
      exact eq_of_load_eq ((hload a ha).trans (hgrown a ha).symm) hin
    · have hx : ∀ a ∈ sites, ¬ InWord a x := fun a ha hin => hx ⟨a, ha, hin⟩
      rw [houtside x hx, addAll_outside hx]
  · rintro rfl
    exact ⟨hgrown, fun x hx => addAll_outside hx⟩

end LibSystem.Mem
