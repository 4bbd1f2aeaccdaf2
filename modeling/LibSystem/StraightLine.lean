import LibSystem.Outcome
import Mathlib.Logic.Relation

/-!
# Straight-line programs

A program is a list of instructions. Each one ends the program, goes on, or stops the process, and
each one can be observed. Programs may be rewritten where two pieces run and look alike.
-/

namespace LibSystem

open Outcome

/-- What an instruction does to a state, with the flag that ends the program, and what can be
seen of it. -/
structure Semantics (ι σ τ : Type) where
  exec : ι → σ → Outcome (Bool × σ)
  seen : ι → σ → List τ

namespace Semantics

variable {ι σ τ : Type} (M : Semantics ι σ τ)

def run : List ι → σ → Outcome (Bool × σ)
  | [], s => .done (false, s)
  | i :: l, s => do
    let v ← M.exec i s
    if v.1 then .done v else run l v.2

def observe : List ι → σ → List τ
  | [], _ => []
  | i :: l, s => M.seen i s ++
    match M.exec i s with
    | .done (false, s') => observe l s'
    | _ => []

theorem observe_cons_of_ended {i : ι} {l : List ι} {s : σ}
    (h : ∀ s', M.exec i s ≠ .done (false, s')) : M.observe (i :: l) s = M.seen i s := by
  unfold observe
  split
  · rename_i s' hexec
    exact absurd hexec (h s')
  · exact List.append_nil _

theorem observe_cons_of_done {i : ι} {l : List ι} {s s' : σ} (h : M.exec i s = .done (false, s')) :
    M.observe (i :: l) s = M.seen i s ++ M.observe l s' := by
  rw [observe, h]

theorem run_cons_of_done {i : ι} {l : List ι} {s s' : σ} (h : M.exec i s = .done (false, s')) :
    M.run (i :: l) s = M.run l s' := by
  rw [run, h]
  rfl

theorem run_cons_of_ended {i : ι} {l : List ι} {s : σ} (h : ∀ s', M.exec i s ≠ .done (false, s')) :
    M.run (i :: l) s = M.exec i s := by
  unfold run
  obtain ⟨s', hexec⟩ | ⟨msg, hexec⟩ | hexec | hexec := eq_of_ended h
  all_goals
    rw [hexec]
    rfl

theorem run_singleton (i : ι) (s : σ) : M.run [i] s = M.exec i s := by
  unfold run
  cases M.exec i s with
  | done v =>
    obtain ⟨finished, s'⟩ := v
    cases finished <;> rfl
  | halt msg => rfl
  | fault => rfl
  | timeout => rfl

theorem observe_singleton (i : ι) (s : σ) : M.observe [i] s = M.seen i s := by
  unfold observe
  split <;> simp [observe]

/-! ## One piece after another -/

theorem run_append (l1 l2 : List ι) (s : σ) :
    M.run (l1 ++ l2) s = (M.run l1 s >>= fun v => if v.1 then .done v else M.run l2 v.2) := by
  induction l1 generalizing s with
  | nil => rfl
  | cons i l1 ih =>
    rw [List.cons_append, run, run, bind_bind]
    refine bind_congr fun v => ?_
    split
    · rename_i hended
      rw [done_bind, if_pos hended]
    · exact ih v.2

theorem observe_append (l1 l2 : List ι) (s : σ) :
    M.observe (l1 ++ l2) s = M.observe l1 s ++
      match M.run l1 s with
      | .done (false, s') => M.observe l2 s'
      | _ => [] := by
  induction l1 generalizing s with
  | nil => rfl
  | cons i l1 ih =>
    rw [List.cons_append, observe, observe, run, List.append_assoc]
    congr 1
    cases M.exec i s with
    | done v =>
      obtain ⟨ended, s'⟩ := v
      cases ended with
      | true => rfl
      | false => exact ih s'
    | halt msg => rfl
    | fault => rfl
    | timeout => rfl

/-! ## Copies of one instruction -/

section Copies

variable {M} {i : ι} {one : σ → Outcome σ}
  (hexec : ∀ s, M.exec i s = (one s >>= fun s' => .done (false, s')))
include hexec

theorem run_copies {loop : Nat → σ → Outcome σ} (hzero : ∀ s, loop 0 s = .done s)
    (hsucc : ∀ count s, loop (count + 1) s = (one s >>= loop count)) (count : Nat) (s : σ) :
    M.run (List.replicate count i) s = (loop count s >>= fun s' => .done (false, s')) := by
  induction count generalizing s with
  | zero =>
    rw [hzero]
    rfl
  | succ count ih =>
    rw [List.replicate_succ, run, hexec, hsucc, bind_bind, bind_bind]
    exact bind_congr fun s' => ih s'

theorem observe_copies {looked : Nat → σ → List τ} (hzero : ∀ s, looked 0 s = [])
    (hdone : ∀ count s s', one s = .done s' →
      looked (count + 1) s = M.seen i s ++ looked count s')
    (hended : ∀ count s, (∀ s', one s ≠ .done s') → looked (count + 1) s = M.seen i s)
    (count : Nat) (s : σ) : M.observe (List.replicate count i) s = looked count s := by
  induction count generalizing s with
  | zero => exact (hzero s).symm
  | succ count ih =>
    rw [List.replicate_succ]
    by_cases h : ∃ s', one s = .done s'
    · obtain ⟨s', h⟩ := h
      have hgoes : M.exec i s = .done (false, s') := by rw [hexec, h, done_bind]
      rw [observe_cons_of_done M hgoes, hdone count s s' h, ih]
    · have hstays := not_exists.mp h
      rw [hended count s hstays]
      refine observe_cons_of_ended M fun s' hgoes => ?_
      rw [hexec] at hgoes
      obtain ⟨s1, hone, -⟩ := bind_eq_done.mp hgoes
      exact hstays s1 hone

end Copies

/-! ## Steps that never end a program -/

/-- Each step is seen with the state before it. -/
def ofSteps (step : σ → ι → Outcome σ) : Semantics ι σ (σ × ι) where
  exec i s := step s i >>= fun s' => .done (false, s')
  seen i s := [(s, i)]

variable {step : σ → ι → Outcome σ}

theorem observe_ofSteps_cons {i : ι} {l : List ι} {s s' : σ} (h : step s i = .done s') :
    (ofSteps step).observe (i :: l) s = (s, i) :: (ofSteps step).observe l s' := by
  have hexec : (ofSteps step).exec i s = .done (false, s') := by
    show (step s i >>= fun s' => .done (false, s')) = _
    rw [h, done_bind]
  exact observe_cons_of_done _ hexec

theorem map_snd_observe_ofSteps {l : List ι} {s s' : σ} (h : l.foldlM step s = .done s') :
    ((ofSteps step).observe l s).map Prod.snd = l := by
  induction l generalizing s with
  | nil => rfl
  | cons i l ih =>
    rw [List.foldlM_cons] at h
    obtain ⟨s1, hstep, h⟩ := bind_eq_done.mp h
    rw [observe_ofSteps_cons hstep, List.map_cons, ih h]

theorem forall_observe_ofSteps {I : σ → Prop} (hkeep : ∀ s i s', I s → step s i = .done s' → I s')
    {l : List ι} {s : σ} (hs : I s) : ∀ p ∈ (ofSteps step).observe l s, I p.1 := by
  induction l generalizing s with
  | nil => simp [observe]
  | cons i l ih =>
    intro p hp
    rcases List.mem_cons.mp hp with rfl | hp
    · exact hs
    · cases hstep : step s i with
      | done s' =>
        simp only [ofSteps, hstep, done_bind] at hp
        exact ih (hkeep s i s' hs hstep) p hp
      | halt msg => simp [ofSteps, hstep] at hp
      | fault => simp [ofSteps, hstep] at hp
      | timeout => simp [ofSteps, hstep] at hp

theorem foldlM_flatMap {κ : Type} (f : κ → List ι) (l : List κ) (s : σ) :
    (l.flatMap f).foldlM step s = l.foldlM (fun s k => (f k).foldlM step s) s := by
  induction l generalizing s with
  | nil => rfl
  | cons k l ih =>
    rw [List.flatMap_cons, List.foldlM_append, List.foldlM_cons]
    exact bind_congr fun s' => ih s'

/-! ## Programs that run and look alike -/

def Alike (l l' : List ι) : Prop := ∀ s, M.run l s = M.run l' s ∧ M.observe l s = M.observe l' s

variable {M}

theorem Alike.refl (l : List ι) : M.Alike l l := fun _ => ⟨rfl, rfl⟩

theorem Alike.symm {l l' : List ι} (h : M.Alike l l') : M.Alike l' l :=
  fun s => ⟨(h s).1.symm, (h s).2.symm⟩

theorem Alike.trans {l l' l'' : List ι} (h : M.Alike l l') (h' : M.Alike l' l'') : M.Alike l l'' :=
  fun s => ⟨(h s).1.trans (h' s).1, (h s).2.trans (h' s).2⟩

theorem Alike.append {l1 l1' l2 l2' : List ι} (h1 : M.Alike l1 l1') (h2 : M.Alike l2 l2') :
    M.Alike (l1 ++ l2) (l1' ++ l2') := by
  intro s
  constructor
  · rw [run_append, run_append, (h1 s).1]
    refine bind_congr fun v => ?_
    rw [(h2 v.2).1]
  · rw [observe_append, observe_append, (h1 s).1, (h1 s).2]
    congr 1
    split
    · exact (h2 _).2
    · rfl

/-- One use of a rule, somewhere in a program. -/
inductive RewriteStep (R : List ι → List ι → Prop) : List ι → List ι → Prop
  | intro (l1 : List ι) {l l' : List ι} (h : R l l') (l2 : List ι) :
      RewriteStep R (l1 ++ l ++ l2) (l1 ++ l' ++ l2)

/-- Any number of uses of the rules, from left to right or back. -/
def Rewrites (R : List ι → List ι → Prop) : List ι → List ι → Prop :=
  Relation.EqvGen (RewriteStep R)

/-- **Rewriting is sound.** Rules between pieces that are alike lead from a program to programs
that are alike. -/
theorem Rewrites.alike {R : List ι → List ι → Prop} (hrules : ∀ l l', R l l' → M.Alike l l')
    {l l' : List ι} (h : Rewrites R l l') : M.Alike l l' := by
  induction h with
  | rel l l' hstep =>
    obtain ⟨l1, hrule, l2⟩ := hstep
    exact ((Alike.refl l1).append (hrules _ _ hrule)).append (Alike.refl l2)
  | refl l => exact .refl l
  | symm l l' _ ih => exact ih.symm
  | trans l l' l'' _ _ ih ih' => exact ih.trans ih'

end Semantics

end LibSystem
