import Mathlib.Logic.Relation

/-!
# What can be seen of a run

A step that can be seen carries an event, and the other steps are silent.
-/

namespace LibSystem

variable {σ ε : Type} {step : σ → Option ε → σ → Prop} {p : ε → Prop} {s s' : σ} {e a : ε}
  {l : List ε}

/-- Some run from the state shows these events first. -/
inductive Observes (step : σ → Option ε → σ → Prop) : σ → List ε → Prop where
  | nil {s : σ} : Observes step s []
  | silent {s s' : σ} {l : List ε} (hstep : step s none s') (h : Observes step s' l) :
      Observes step s l
  | event {s s' : σ} {e : ε} {l : List ε} (hstep : step s (some e) s')
      (h : Observes step s' l) : Observes step s (e :: l)

theorem Observes.start {l' : List ε} (h : Observes step s (l ++ l')) : Observes step s l := by
  generalize hl : l ++ l' = k at h
  induction h generalizing l with
  | nil =>
    obtain rfl := (List.append_eq_nil_iff.mp hl).1
    exact .nil
  | silent hstep _ ih => exact .silent hstep (ih hl)
  | event hstep _ ih =>
    cases l with
    | nil => exact .nil
    | cons a l =>
      obtain ⟨rfl, hrest⟩ := List.cons_eq_cons.mp hl
      exact .event hstep (ih hrest)

/-- Any number of silent steps. -/
abbrev Silent (step : σ → Option ε → σ → Prop) : σ → σ → Prop :=
  Relation.ReflTransGen fun s s' => step s none s'

theorem Silent.observes (h : Silent step s s') (hl : Observes step s' l) : Observes step s l := by
  induction h using Relation.ReflTransGen.head_induction_on with
  | refl => exact hl
  | head hstep _ ih => exact .silent hstep ih

/-! ## Simulations -/

/-- The step, behind silent ones. In place of a silent step there may be none at all. -/
def Weak (step : σ → Option ε → σ → Prop) (s : σ) (o : Option ε) (s' : σ) : Prop :=
  o = none ∧ s' = s ∨ ∃ s1, Silent step s s1 ∧ step s1 o s'

def Simulates (step : σ → Option ε → σ → Prop) (R : σ → σ → Prop) : Prop :=
  ∀ s t o s', R s t → step s o s' → ∃ t', Weak step t o t' ∧ R s' t'

theorem Simulates.observes {R : σ → σ → Prop} (h : Simulates step R) {t : σ} (hr : R s t)
    (hl : Observes step s l) : Observes step t l := by
  induction hl generalizing t with
  | nil => exact .nil
  | silent hstep _ ih =>
    obtain ⟨t', hweak, hr'⟩ := h _ _ _ _ hr hstep
    rcases hweak with ⟨-, rfl⟩ | ⟨t1, hsilent, hstep'⟩
    · exact ih hr'
    · exact hsilent.observes (.silent hstep' (ih hr'))
  | event hstep _ ih =>
    obtain ⟨t', hweak, hr'⟩ := h _ _ _ _ hr hstep
    rcases hweak with ⟨hnone, -⟩ | ⟨t1, hsilent, hstep'⟩
    · simp at hnone
    · exact hsilent.observes (.event hstep' (ih hr'))

theorem Simulates.observes_iff {R : σ → σ → Prop} (h : Simulates step R)
    (hsymm : ∀ s t, R s t → R t s) {t : σ} (hr : R s t) :
    Observes step s l ↔ Observes step t l :=
  ⟨h.observes hr, h.observes (hsymm s t hr)⟩

/-- Every step of the first system has its answer in the second one. -/
def Refines {σ' : Type} (step : σ → Option ε → σ → Prop) (step' : σ' → Option ε → σ' → Prop)
    (R : σ → σ' → Prop) : Prop :=
  ∀ s t o s', R s t → step s o s' → ∃ t', Weak step' t o t' ∧ R s' t'

theorem Refines.observes {σ' : Type} {step' : σ' → Option ε → σ' → Prop} {R : σ → σ' → Prop}
    (h : Refines step step' R) {t : σ'} (hr : R s t) (hl : Observes step s l) :
    Observes step' t l := by
  induction hl generalizing t with
  | nil => exact .nil
  | silent hstep _ ih =>
    obtain ⟨t', hweak, hr'⟩ := h _ _ _ _ hr hstep
    rcases hweak with ⟨-, rfl⟩ | ⟨t1, hsilent, hstep'⟩
    · exact ih hr'
    · exact hsilent.observes (.silent hstep' (ih hr'))
  | event hstep _ ih =>
    obtain ⟨t', hweak, hr'⟩ := h _ _ _ _ hr hstep
    rcases hweak with ⟨hnone, -⟩ | ⟨t1, hsilent, hstep'⟩
    · simp at hnone
    · exact hsilent.observes (.event hstep' (ih hr'))

/-! ## Steps without a choice -/

/-- There is no other step, if the next event is to be one of `p`. -/
structure Only (step : σ → Option ε → σ → Prop) (p : ε → Prop) (s : σ) (o : Option ε) (s' : σ) :
    Prop where
  taken : step s o s'
  unique : ∀ o' s'', step s o' s'' → (∀ e ∈ o', p e) → o' = o ∧ s'' = s'

theorem Only.observes_silent (h : Only step p s none s') (he : p e) :
    Observes step s (e :: l) ↔ Observes step s' (e :: l) := by
  constructor
  · intro hl
    cases hl with
    | silent hstep hl =>
      obtain ⟨-, rfl⟩ := h.unique _ _ hstep (by simp)
      exact hl
    | event hstep hl =>
      have hother := (h.unique _ _ hstep (by simpa using he)).1
      simp at hother
  · exact .silent h.taken

theorem Only.observes_event (h : Only step p s (some a) s') (he : p e) :
    Observes step s (e :: l) ↔ e = a ∧ Observes step s' l := by
  constructor
  · intro hl
    cases hl with
    | silent hstep hl =>
      have hother := (h.unique _ _ hstep (by simp)).1
      simp at hother
    | event hstep hl =>
      obtain ⟨hsame, rfl⟩ := h.unique _ _ hstep (by simpa using he)
      exact ⟨Option.some.inj hsame, hl⟩
  · rintro ⟨rfl, hl⟩
    exact .event h.taken hl

/-- Silent steps, none of which leaves a choice. -/
abbrev Leads (step : σ → Option ε → σ → Prop) (p : ε → Prop) : σ → σ → Prop :=
  Relation.ReflTransGen fun s s' => Only step p s none s'

theorem Leads.observes_iff (h : Leads step p s s') (he : p e) :
    Observes step s (e :: l) ↔ Observes step s' (e :: l) := by
  induction h with
  | refl => rfl
  | tail _ hstep ih => rw [ih, hstep.observes_silent he]

end LibSystem
