import Mathlib.Data.List.Pairwise
import Mathlib.Order.Basic

/-!
# Where a key can stand in a sorted list

A binary search keeps a window: if the key is in the list at all, it stands there. A probe
inside moves one end of the window to the probe.
-/

namespace LibSystem

variable {κ : Type} {keys : List κ} {key : κ} {lo hi mid : Nat}

/-- Where `key` stands in the list, that is in `[lo, hi)`. -/
def Window (keys : List κ) (key : κ) (lo hi : Nat) : Prop :=
  ∀ i (h : i < keys.length), keys[i] = key → lo ≤ i ∧ i < hi

namespace Window

theorem whole (keys : List κ) (key : κ) : Window keys key 0 keys.length :=
  fun i h _ => ⟨Nat.zero_le i, h⟩

theorem not_mem (h : Window keys key lo hi) (hempty : hi ≤ lo) : key ∉ keys := by
  intro hmem
  obtain ⟨i, hi, heq⟩ := List.mem_iff_getElem.mp hmem
  have := h i hi heq
  omega

variable [Preorder κ]

theorem above (h : Window keys key lo hi) (hsorted : keys.Pairwise (· < ·))
    (hmid : mid < keys.length) (hlt : keys[mid] < key) : Window keys key (mid + 1) hi := by
  intro i hi heq
  refine ⟨?_, (h i hi heq).2⟩
  by_contra hle
  rcases Nat.lt_or_eq_of_le (show i ≤ mid by omega) with hi' | rfl
  · exact lt_asymm hlt (heq ▸ List.pairwise_iff_getElem.mp hsorted i mid hi hmid hi')
  · exact (ne_of_lt hlt) heq

theorem below (h : Window keys key lo hi) (hsorted : keys.Pairwise (· < ·))
    (hmid : mid < keys.length) (hlt : key < keys[mid]) : Window keys key lo mid := by
  intro i hi heq
  refine ⟨(h i hi heq).1, ?_⟩
  by_contra hle
  rcases Nat.lt_or_eq_of_le (show mid ≤ i by omega) with hi' | rfl
  · exact lt_asymm hlt (heq ▸ List.pairwise_iff_getElem.mp hsorted mid i hmid hi hi')
  · exact (ne_of_lt hlt) heq.symm

end Window

theorem getElem_inj_of_sorted [Preorder κ] (hsorted : keys.Pairwise (· < ·)) {i j : Nat}
    (hi : i < keys.length) (hj : j < keys.length) (heq : keys[i] = keys[j]) : i = j := by
  rcases Nat.lt_trichotomy i j with hlt | rfl | hlt
  · exact absurd heq (ne_of_lt (List.pairwise_iff_getElem.mp hsorted i j hi hj hlt))
  · rfl
  · exact absurd heq.symm (ne_of_lt (List.pairwise_iff_getElem.mp hsorted j i hj hi hlt))

end LibSystem
