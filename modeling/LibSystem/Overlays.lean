import Mathlib.Logic.Basic

/-!
# Overlays

Each entry of a list changes a function in a region of its own. Where no two regions meet, the
order of the entries does not matter.
-/

namespace LibSystem

variable {α X Y : Type}

/-- Each entry changes nothing outside of its region, and what it does at a point depends on the
value there only. -/
structure Overlay (step : (X → Y) → α → X → Y) (region : α → X → Prop) (l : List α) : Prop where
  outside : ∀ a ∈ l, ∀ f x, ¬ region a x → step f a x = f x
  pointwise : ∀ a ∈ l, ∀ f g x, f x = g x → step f a x = step g a x

namespace Overlay

variable {step : (X → Y) → α → X → Y} {region : α → X → Prop} {f : X → Y} {l : List α} {a : α}
variable {x : X}

theorem tail (h : Overlay step region (a :: l)) : Overlay step region l where
  outside := (List.forall_mem_cons.mp h.outside).2
  pointwise := (List.forall_mem_cons.mp h.pointwise).2

theorem foldl_outside (h : Overlay step region l) (hl : ∀ a ∈ l, ¬ region a x) :
    l.foldl step f x = f x := by
  induction l generalizing f with
  | nil => rfl
  | cons a l ih =>
    obtain ⟨ha, hrest⟩ := List.forall_mem_cons.mp hl
    rw [List.foldl_cons, ih h.tail hrest]
    exact h.outside a List.mem_cons_self f x ha

theorem foldl_of_mem (h : Overlay step region l)
    (hl : l.Pairwise fun a b => ∀ x, ¬ (region a x ∧ region b x)) (ha : a ∈ l)
    (hx : region a x) : l.foldl step f x = step f a x := by
  induction l generalizing f with
  | nil => simp at ha
  | cons b l ih =>
    obtain ⟨hb, hrest⟩ := List.pairwise_cons.mp hl
    rw [List.foldl_cons]
    rcases List.mem_cons.mp ha with rfl | ha
    · exact h.tail.foldl_outside fun c hc hregion => hb c hc x ⟨hx, hregion⟩
    · rw [ih h.tail hrest ha]
      refine h.pointwise a (List.mem_cons_of_mem b ha) _ _ x ?_
      exact h.outside b List.mem_cons_self f x fun hregion => hb a ha x ⟨hregion, hx⟩

end Overlay

end LibSystem
