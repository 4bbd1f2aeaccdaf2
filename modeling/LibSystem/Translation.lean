import Mathlib.Data.List.Nodup
import Mathlib.Logic.Function.Basic

/-!
# Translation by pairs

Two vocabularies with a list of pairs between them. A word of flags is translated mask by mask,
a table entry by entry. Without overlaps, the way back undoes it.
-/

namespace LibSystem

namespace Flags

variable {v w : Nat}

/-- Starting from `y`, what each mask that `x` meets stands for is set. -/
def translate (pairs : List (BitVec v × BitVec w)) (x : BitVec v) (y : BitVec w) : BitVec w :=
  pairs.foldl (fun y p => if x &&& p.1 ≠ 0 then y ||| p.2 else y) y

/-- The masks have a bit, and none has one in common with another. -/
structure Apart (masks : List (BitVec w)) : Prop where
  nonzero : ∀ m ∈ masks, m ≠ 0
  disjoint : masks.Pairwise fun a b => a &&& b = 0

/-- All bits of the masks. -/
def union (masks : List (BitVec w)) : BitVec w := masks.foldr (· ||| ·) 0

section

variable {pairs : List (BitVec v × BitVec w)} {x x' : BitVec v} {y m : BitVec w}

@[simp] theorem translate_nil : translate ([] : List (BitVec v × BitVec w)) x y = y := rfl

@[simp] theorem translate_cons (p : BitVec v × BitVec w) :
    translate (p :: pairs) x y = translate pairs x (if x &&& p.1 ≠ 0 then y ||| p.2 else y) := rfl

@[simp] theorem union_cons (m : BitVec w) (masks : List (BitVec w)) :
    union (m :: masks) = m ||| union masks := rfl

theorem translate_congr (h : ∀ p ∈ pairs, x &&& p.1 = x' &&& p.1) :
    translate pairs x y = translate pairs x' y := by
  induction pairs generalizing y with
  | nil => rfl
  | cons p pairs ih =>
    obtain ⟨hp, hrest⟩ := List.forall_mem_cons.mp h
    rw [translate_cons, translate_cons, hp, ih hrest]

theorem or_and_of_disjoint {a b m : BitVec w} (h : b &&& m = 0) : (a ||| b) &&& m = a &&& m := by
  rw [BitVec.and_or_distrib_right, h]
  exact BitVec.or_zero

theorem translate_and_congr {y' : BitVec w} (h : y &&& m = y' &&& m) :
    translate pairs x y &&& m = translate pairs x y' &&& m := by
  induction pairs generalizing y y' with
  | nil => exact h
  | cons p pairs ih =>
    rw [translate_cons, translate_cons]
    refine ih ?_
    split
    · rw [BitVec.and_or_distrib_right, BitVec.and_or_distrib_right, h]
    · exact h

theorem translate_and_filter :
    translate pairs x y &&& m =
      translate (pairs.filter fun p => p.2 &&& m ≠ 0) x y &&& m := by
  induction pairs generalizing y with
  | nil => rfl
  | cons p pairs ih =>
    by_cases htouch : p.2 &&& m = 0
    · have hsame : (if x &&& p.1 ≠ 0 then y ||| p.2 else y) &&& m = y &&& m := by
        split
        · exact or_and_of_disjoint htouch
        · rfl
      rw [List.filter_cons_of_neg (by simpa using htouch), translate_cons,
        translate_and_congr hsame, ih]
    · rw [List.filter_cons_of_pos (by simpa using htouch), translate_cons, translate_cons, ih]

theorem translate_and_of_disjoint (h : ∀ p ∈ pairs, p.2 &&& m = 0) :
    translate pairs x y &&& m = y &&& m := by
  have hnone : (pairs.filter fun p => p.2 &&& m ≠ 0) = [] := by simpa using h
  rw [translate_and_filter, hnone, translate_nil]

/-- A mask that starts clear is set exactly when its source is met. -/
theorem translate_meets (apart : Apart (pairs.map Prod.snd)) {p : BitVec v × BitVec w}
    (hp : p ∈ pairs) (clear : y &&& p.2 = 0) :
    translate pairs x y &&& p.2 ≠ 0 ↔ x &&& p.1 ≠ 0 := by
  induction pairs generalizing y with
  | nil => simp at hp
  | cons q pairs ih =>
    have hdisjoint : ∀ q' ∈ pairs, q.2 &&& q'.2 = 0 := by
      intro q' hq'
      exact (List.pairwise_cons.mp apart.disjoint).1 _ (List.mem_map_of_mem hq')
    have hrest : Apart (pairs.map Prod.snd) :=
      ⟨fun m hm => apart.nonzero m (List.mem_cons_of_mem _ hm),
        (List.pairwise_cons.mp apart.disjoint).2⟩
    rw [translate_cons]
    rcases List.mem_cons.mp hp with rfl | hmem
    · -- No later pair touches the bits of this one.
      rw [translate_and_of_disjoint fun q' hq' => by
        rw [BitVec.and_comm]
        exact hdisjoint q' hq']
      split
      · rename_i hmet
        have hbit : (y ||| p.2) &&& p.2 ≠ 0 := by
          rw [BitVec.and_or_distrib_right, clear, BitVec.and_self]
          simpa using apart.nonzero p.2 (by simp)
        exact iff_of_true hbit hmet
      · rename_i hmet
        exact iff_of_false (fun hne => hne clear) hmet
    · refine ih hrest hmem ?_
      split
      · rw [or_and_of_disjoint (hdisjoint p hmem), clear]
      · exact clear

theorem and_union_cons (m : BitVec w) (masks : List (BitVec w)) (z : BitVec w) :
    z &&& union (m :: masks) = (z &&& m) ||| (z &&& union masks) := by
  rw [union_cons, BitVec.and_or_distrib_left]

theorem translate_swap {z : BitVec v} {y : BitVec w}
    (meets : ∀ p ∈ pairs, (y &&& p.2 ≠ 0 ↔ x &&& p.1 ≠ 0))
    (whole : ∀ p ∈ pairs, x &&& p.1 = 0 ∨ x &&& p.1 = p.1) :
    translate (pairs.map Prod.swap) y z = z ||| (x &&& union (pairs.map Prod.fst)) := by
  induction pairs generalizing z with
  | nil => simp [union]
  | cons p pairs ih =>
    obtain ⟨hp, hmeets⟩ := List.forall_mem_cons.mp meets
    obtain ⟨hw, hwhole⟩ := List.forall_mem_cons.mp whole
    rw [List.map_cons, translate_cons, ih hmeets hwhole, List.map_cons, and_union_cons,
      ← BitVec.or_assoc]
    congr 1
    by_cases hmet : x &&& p.1 = 0
    · have hy : y &&& p.2 = 0 := by
        by_contra hne
        exact hp.mp hne hmet
      simp [hy, hmet]
    · have hone : x &&& p.1 = p.1 := hw.resolve_left hmet
      rw [if_pos (show y &&& p.swap.1 ≠ 0 from hp.mpr hmet), hone, Prod.snd_swap]

theorem translate_back (apart : Apart (pairs.map Prod.snd)) {z : BitVec v} {y : BitVec w}
    (clear : ∀ p ∈ pairs, y &&& p.2 = 0)
    (whole : ∀ p ∈ pairs, x &&& p.1 = 0 ∨ x &&& p.1 = p.1) :
    translate (pairs.map Prod.swap) (translate pairs x y) z =
      z ||| (x &&& union (pairs.map Prod.fst)) :=
  translate_swap (fun _ hp => translate_meets apart hp (clear _ hp)) whole

theorem whole_of_twoPow (i : Nat) :
    x &&& BitVec.twoPow v i = 0 ∨ x &&& BitVec.twoPow v i = BitVec.twoPow v i := by
  rw [BitVec.and_twoPow]
  split
  · exact .inr rfl
  · exact .inl rfl

end

end Flags

namespace Entries

variable {κ ι α : Type} [DecidableEq ι]

/-- The entries of `src` the pairs name, put where they say. -/
def copy (pairs : List (κ × ι)) (src : κ → α) (dst : ι → α) : ι → α :=
  pairs.foldl (fun dst p => Function.update dst p.2 (src p.1)) dst

section

variable {pairs : List (κ × ι)} {src : κ → α} {dst : ι → α}

@[simp] theorem copy_nil : copy ([] : List (κ × ι)) src dst = dst := rfl

@[simp] theorem copy_cons (p : κ × ι) :
    copy (p :: pairs) src dst = copy pairs src (Function.update dst p.2 (src p.1)) := rfl

theorem copy_of_notMem {i : ι} (h : i ∉ pairs.map Prod.snd) : copy pairs src dst i = dst i := by
  induction pairs generalizing dst with
  | nil => rfl
  | cons p pairs ih =>
    rw [List.map_cons, List.mem_cons, not_or] at h
    rw [copy_cons, ih h.2, Function.update_of_ne h.1]

theorem copy_of_mem (nodup : (pairs.map Prod.snd).Nodup) {p : κ × ι} (hp : p ∈ pairs) :
    copy pairs src dst p.2 = src p.1 := by
  induction pairs generalizing dst with
  | nil => simp at hp
  | cons q pairs ih =>
    rw [List.map_cons, List.nodup_cons] at nodup
    rw [copy_cons]
    rcases List.mem_cons.mp hp with rfl | hmem
    · rw [copy_of_notMem nodup.1, Function.update_self]
    · exact ih nodup.2 hmem

end

end Entries

end LibSystem
