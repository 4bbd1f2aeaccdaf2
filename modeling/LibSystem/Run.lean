import Mathlib.Data.Nat.Init

/-!
# Runs of a labelled step relation
-/

namespace LibSystem

variable {σ τ : Type} {step : σ → τ → σ → Prop} {guard : σ → τ → Prop} {s s' s'' : σ}

/-- From `s` to `s'` by steps that all meet the guard in the state before them. -/
inductive Run (step : σ → τ → σ → Prop) (guard : σ → τ → Prop) (s : σ) : σ → Prop where
  | refl : Run step guard s s
  | tail {s' s'' : σ} (t : τ) (hrun : Run step guard s s') (hguard : guard s' t)
      (hstep : step s' t s'') : Run step guard s s''

/-- All runs. -/
abbrev Reaches (step : σ → τ → σ → Prop) : σ → σ → Prop := Run step fun _ _ => True

theorem Reaches.single {t : τ} (h : step s t s') : Reaches step s s' := .tail t .refl trivial h

theorem Run.trans (h : Run step guard s s') (h' : Run step guard s' s'') :
    Run step guard s s'' := by
  induction h' with
  | refl => exact h
  | tail t _ hguard hstep ih => exact .tail t ih hguard hstep

theorem Run.invariant {I : σ → Prop} (h : Run step guard s s') (hinit : I s)
    (hstep : ∀ a t b, I a → guard a t → step a t b → I b) : I s' := by
  induction h with
  | refl => exact hinit
  | tail t _ hguard hs ih => exact hstep _ t _ ih hguard hs

end LibSystem
