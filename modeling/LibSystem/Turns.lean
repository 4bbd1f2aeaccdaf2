import LibSystem.Outcome

/-!
# Loops in turns

A loop takes one turn after another, until it has nowhere to go on or a turn ends it. What is
said of every turn is shown of one turn, under an invariant.
-/

namespace LibSystem

open Outcome

section Turns

variable {σ : Type} (going : σ → Prop) [DecidablePred going] (op : σ → Outcome (Bool × σ))

/-- The loop. The flag of a turn ends it. -/
def loop : Nat → σ → Outcome σ
  | 0, _ => .timeout
  | fuel + 1, s =>
    if going s then do
      let (finished, s) ← op s
      if finished then .done s else loop fuel s
    else .done s

/-- The states in which it begins a turn. -/
def turns : Nat → σ → List σ
  | 0, _ => []
  | fuel + 1, s =>
    if going s then
      s :: match op s with
      | .done (false, s) => turns fuel s
      | _ => []
    else []

variable {going op} {fuel : Nat} {s : σ} {I P C : σ → Prop}

theorem turns_of_stopped (h : ¬ going s) : turns going op fuel s = [] := by
  cases fuel with
  | zero => rfl
  | succ fuel => rw [turns, if_neg h]

theorem turns_of_done {s' : σ} (h : going s) (hop : op s = .done (false, s')) :
    turns going op (fuel + 1) s = s :: turns going op fuel s' := by
  rw [turns, if_pos h, hop]

theorem turns_of_ended (h : going s) (hop : ∀ s', op s ≠ .done (false, s')) :
    turns going op (fuel + 1) s = [s] := by
  rw [turns, if_pos h]
  obtain ⟨s', hs'⟩ | ⟨msg, hs'⟩ | hs' | hs' := eq_of_ended hop
  all_goals rw [hs']

theorem forall_turns_succ (h : going s) :
    (∀ t ∈ turns going op (fuel + 1) s, P t) ↔
      P s ∧ ∀ s', op s = .done (false, s') → ∀ t ∈ turns going op fuel s', P t := by
  rw [turns, if_pos h, List.forall_mem_cons]
  refine and_congr_right fun _ => ?_
  cases hop : op s with
  | done v =>
    obtain ⟨finished, s'⟩ := v
    cases finished <;> simp
  | halt msg => simp
  | fault => simp
  | timeout => simp

theorem turns_forall (hkeep : ∀ s, I s → going s → (op s).Ensures fun v => I v.2) (hs : I s) :
    ∀ t ∈ turns going op fuel s, I t ∧ going t := by
  induction fuel generalizing s with
  | zero => simp [turns]
  | succ fuel ih =>
    by_cases h : going s
    · exact (forall_turns_succ h).mpr ⟨⟨hs, h⟩, fun s' hop => ih (hkeep s hs h _ hop)⟩
    · simp [turns_of_stopped h]

/-- **When a loop ends well.** Each turn that meets its condition `C` brings the measure down. So
the loop returns or halts, and `Q` holds of every turn, exactly if all turns meet it. -/
theorem loop_settles_iff (I : σ → Prop) (μ : σ → Nat) {Q : σ → Prop}
    (hturn : ∀ s, I s → going s → ((op s).Settles ∧ Q s ↔ C s))
    (hkeep : ∀ s, I s → going s → C s → (op s).Ensures fun v => I v.2 ∧ μ v.2 < μ s)
    (hs : I s) (hfuel : μ s < fuel) :
    ((loop going op fuel s).Settles ∧ ∀ t ∈ turns going op fuel s, Q t) ↔
      ∀ t ∈ turns going op fuel s, C t := by
  induction fuel generalizing s with
  | zero => omega
  | succ fuel ih =>
    by_cases h : going s
    · rw [forall_turns_succ h, forall_turns_succ h, loop, if_pos h, settles_bind, ← hturn s hs h]
      constructor
      · rintro ⟨⟨hop, hnext⟩, hQ, hrest⟩
        refine ⟨⟨hop, hQ⟩, fun s' hs' => ?_⟩
        obtain ⟨hI, hμ⟩ : I s' ∧ μ s' < μ s :=
          hkeep s hs h ((hturn s hs h).mp ⟨hop, hQ⟩) _ hs'
        exact (ih hI (by omega)).mp ⟨hnext _ hs', hrest s' hs'⟩
      · rintro ⟨⟨hop, hQ⟩, hrest⟩
        have hkept := hkeep s hs h ((hturn s hs h).mp ⟨hop, hQ⟩)
        have hnext : ∀ s', op s = .done (false, s') →
            (loop going op fuel s').Settles ∧ ∀ t ∈ turns going op fuel s', Q t := by
          intro s' hs'
          obtain ⟨hI, hμ⟩ : I s' ∧ μ s' < μ s := hkept _ hs'
          exact (ih hI (by omega)).mpr (hrest s' hs')
        refine ⟨⟨hop, fun v hv => ?_⟩, hQ, fun s' hs' => (hnext s' hs').2⟩
        obtain ⟨finished, s'⟩ := v
        cases finished with
        | true => exact settles_done s'
        | false => exact (hnext s' hv).1
    · simp [loop, turns_of_stopped h, h]

theorem loop_settles_iff_turns (I : σ → Prop) (μ : σ → Nat)
    (hturn : ∀ s, I s → going s → ((op s).Settles ↔ C s))
    (hkeep : ∀ s, I s → going s → C s → (op s).Ensures fun v => I v.2 ∧ μ v.2 < μ s)
    (hs : I s) (hfuel : μ s < fuel) :
    (loop going op fuel s).Settles ↔ ∀ t ∈ turns going op fuel s, C t := by
  have hturn' : ∀ s, I s → going s → ((op s).Settles ∧ True ↔ C s) :=
    fun s hI hgo => (and_iff_left trivial).trans (hturn s hI hgo)
  rw [← loop_settles_iff I μ hturn' hkeep hs hfuel]
  exact (and_iff_left fun _ _ => trivial).symm

theorem loop_done_iff {K Q : σ → Prop}
    (hturn : ∀ s v, going s → op s = .done v → (K v.2 ↔ K s ∧ Q s)) {s' : σ}
    (h : loop going op fuel s = .done s') :
    K s' ↔ K s ∧ ∀ t ∈ turns going op fuel s, Q t := by
  induction fuel generalizing s with
  | zero => simp [loop] at h
  | succ fuel ih =>
    unfold loop at h
    by_cases hgo : going s
    · rw [if_pos hgo] at h
      obtain ⟨⟨finished, s1⟩, hop, h⟩ := bind_eq_done.mp h
      have hstep : K s1 ↔ K s ∧ Q s := hturn s _ hgo hop
      cases finished with
      | true =>
        obtain rfl := done.inj h
        rw [turns_of_ended hgo (by simp [hop]), List.forall_mem_singleton, hstep]
      | false => rw [turns_of_done hgo hop, List.forall_mem_cons, ih h, hstep, and_assoc]
    · rw [if_neg hgo] at h
      obtain rfl := done.inj h
      simp [turns_of_stopped hgo]

theorem loop_ne_halt {msg : String} (h : ∀ s, op s ≠ .halt msg) :
    loop going op fuel s ≠ .halt msg := by
  induction fuel generalizing s with
  | zero => simp [loop]
  | succ fuel ih =>
    unfold loop
    split
    · cases hop : op s with
      | done v =>
        obtain ⟨finished, s1⟩ := v
        cases finished with
        | true => simp
        | false => exact ih
      | halt msg' => exact fun heq => h s (hop.trans (congrArg halt (halt.inj heq)))
      | fault => simp
      | timeout => simp
    · simp

end Turns

end LibSystem
