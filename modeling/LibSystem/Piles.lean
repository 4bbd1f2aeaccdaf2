import Mathlib.Order.CompletePartialOrder
import Mathlib.Order.Interval.Set.Disjoint

/-!
# Ranges on a pile

Half-open ranges that are handed out one on top of the other.
-/

namespace LibSystem

variable {α : Type} [Preorder α] {ranges : List (α × α)} {top top' a b : α}

/-- Ranges below `top`, no two of which have a point in common. -/
structure Piled (ranges : List (α × α)) (top : α) : Prop where
  below : ∀ r ∈ ranges, r.2 ≤ top
  disjoint : ranges.Pairwise fun r r' => Disjoint (Set.Ico r.1 r.2) (Set.Ico r'.1 r'.2)

theorem piled_nil (top : α) : Piled [] top := ⟨by simp, .nil⟩

theorem Piled.mono (h : Piled ranges top) (htop : top ≤ top') : Piled ranges top' where
  below r hr := (h.below r hr).trans htop
  disjoint := h.disjoint

theorem Piled.cons (h : Piled ranges top) (hlow : top ≤ a) (hrange : a ≤ b) (hhigh : b ≤ top') :
    Piled ((a, b) :: ranges) top' where
  below := by
    rw [List.forall_mem_cons]
    exact ⟨hhigh, fun r hr => (h.below r hr).trans (hlow.trans (hrange.trans hhigh))⟩
  disjoint := by
    refine List.pairwise_cons.mpr ⟨fun r hr => Set.disjoint_left.mpr fun x hx hx' => ?_,
      h.disjoint⟩
    exact absurd (hx'.2.trans_le ((h.below r hr).trans (hlow.trans hx.1))) (lt_irrefl x)

end LibSystem
