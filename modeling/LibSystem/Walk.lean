import LibSystem.Graph
import LibSystem.Outcome

/-!
# Walks

A program that goes from place to place along the edges of a graph, until it stops. It ends
exactly if there is no infinite path, and then it has stopped at a place that it can reach.
-/

namespace LibSystem

open Relation Outcome

variable {ι β : Type} {run : Nat → ι → Outcome β} {leads : ι → ι → Prop}

/-- With fuel for one step more than the rest of the way, `run` goes along an edge. Where it does
not, it stops. -/
structure Walks (run : Nat → ι → Outcome β) (leads : ι → ι → Prop) : Prop where
  zero : ∀ i, run 0 i = .timeout
  step : ∀ i j, leads i j → ∀ fuel, run (fuel + 1) i = run fuel j
  stops : ∀ i, (∃ j, leads i j) ∨ run 1 i ≠ .timeout ∧ ∀ fuel, run (fuel + 1) i = run 1 i

namespace Walks

theorem timeout_of_leads (h : Walks run leads) {i j : ι} (hij : leads i j) : run 1 i = .timeout :=
  (h.step i j hij 0).trans (h.zero j)

theorem end_of_reach (h : Walks run leads) {R : Outcome β → Prop} (hR : ¬ R .timeout) {i : ι}
    {fuel : Nat} (hend : R (run fuel i)) :
    Acc (fun j i => leads i j) i ∧
      ∀ j, ReflTransGen leads i j → (∃ k, leads j k) ∨ R (run 1 j) := by
  induction fuel generalizing i with
  | zero => exact absurd (h.zero i ▸ hend) hR
  | succ fuel ih =>
    have hnext : ∀ j, leads i j → R (run fuel j) := fun j hij => h.step i j hij fuel ▸ hend
    refine ⟨⟨i, fun j hij => (ih (hnext j hij)).1⟩, fun j hij => ?_⟩
    rcases ReflTransGen.cases_head hij with rfl | ⟨k, hik, hkj⟩
    · rcases h.stops i with hleads | ⟨-, hstop⟩
      · exact Or.inl hleads
      · exact Or.inr (hstop fuel ▸ hend)
    · exact (ih (hnext k hik)).2 j hkj

/-- **When a walk ends as it should.** -/
theorem ends_iff (h : Walks run leads) {R : Outcome β → Prop} (hR : ¬ R .timeout) (i : ι) :
    (∃ n, ∀ fuel ≥ n, R (run fuel i)) ↔
      Acc (fun j i => leads i j) i ∧
        ∀ j, ReflTransGen leads i j → (∃ k, leads j k) ∨ R (run 1 j) := by
  constructor
  · rintro ⟨n, hn⟩
    exact h.end_of_reach hR (hn n (Nat.le_refl n))
  · rintro ⟨hacc, hend⟩
    induction hacc with
    | intro i _ ih =>
      rcases h.stops i with ⟨j, hij⟩ | ⟨hstop, hsame⟩
      · obtain ⟨n, hn⟩ := ih j hij fun k hjk => hend k (.head hij hjk)
        refine ⟨n + 1, fun fuel hfuel => ?_⟩
        obtain ⟨fuel, rfl⟩ : ∃ k, fuel = k + 1 := ⟨fuel - 1, by omega⟩
        rw [h.step i j hij]
        exact hn fuel (by omega)
      · refine ⟨1, fun fuel hfuel => ?_⟩
        obtain ⟨fuel, rfl⟩ : ∃ k, fuel = k + 1 := ⟨fuel - 1, by omega⟩
        rw [hsame]
        refine (hend i .refl).resolve_left fun ⟨j, hij⟩ => ?_
        exact hstop (h.timeout_of_leads hij)

end Walks

end LibSystem
