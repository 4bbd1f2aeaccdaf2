import LibSystem.Run
import Mathlib.Logic.Function.Basic
import Mathlib.Data.Fin.Basic

/-!
# The low level lock

`lll_lock` and `lll_unlock` of `LowLevelLock.c` on one lock, with
`OSAtomicExchange` of `OSUAtomic.h`, for any number of threads.
-/

namespace LibSystem.LowLevelLock

/-- `OSCompareAndExchangeInt(mem, newval, oldval)`: the value seen, and the word afterwards. -/
def compareAndExchange (word newval oldval : Int) : Int × Int :=
  if word = oldval then (word, newval) else (word, word)

/-- The next thing that a thread does. -/
inductive Pc where
  /-- Outside of both functions. -/
  | idle
  /-- The compare and exchange of `lll_lock`. -/
  | lockCas
  /-- `lll_lock_wait` up to its `if`. -/
  | waitCas21
  | futexWait
  | asleep
  /-- The condition of the loop in `lll_lock_wait`. -/
  | waitCas20
  /-- Between the return of `lll_lock` and the start of `lll_unlock`. -/
  | holds
  /-- The load in `OSAtomicExchange`. -/
  | exchangeLoad
  /-- The compare and exchange in `OSAtomicExchange`, after the load of `old`. -/
  | exchangeCas (old : Int)
  | futexWake
  deriving DecidableEq

/-- An atomic step of one thread on the lock word. Sleeping and waking take the kernel. -/
def advance (word : Int) : Pc → Option (Pc × Int)
  | .idle => some (.lockCas, word)
  | .lockCas =>
    let (old, word) := compareAndExchange word 1 0
    some (if old ≠ 0 then .waitCas21 else .holds, word)
  | .waitCas21 =>
    let (old, word) := compareAndExchange word 2 1
    some (if old ≠ 0 then .futexWait else .waitCas20, word)
  | .futexWait => some (if word = 2 then .asleep else .waitCas20, word)
  | .asleep => none
  | .waitCas20 =>
    let (old, word) := compareAndExchange word 2 0
    some (if old ≠ 0 then .waitCas21 else .holds, word)
  | .holds => some (.exchangeLoad, word)
  | .exchangeLoad => some (.exchangeCas word, word)
  | .exchangeCas v =>
    let (old, word) := compareAndExchange word 0 v
    some (if old ≠ 0 then .exchangeLoad else if v > 1 then .futexWake else .idle, word)
  | .futexWake => none

structure State (T : Type) where
  word : Int
  pc : T → Pc

def init (T : Type) : State T := ⟨0, fun _ => .idle⟩

variable {T : Type} [DecidableEq T]

def State.goto (s : State T) (t : T) (pc : Pc) : State T :=
  { s with pc := Function.update s.pc t pc }

/-- `FUTEX_WAKE` lets one sleeping thread go on, if there is one. -/
inductive Step (s : State T) (t : T) : State T → Prop where
  | advance {pc : Pc} {word : Int} (h : advance s.word (s.pc t) = some (pc, word)) :
      Step s t { s.goto t pc with word := word }
  | wakeOne {u : T} (ht : s.pc t = .futexWake) (hu : s.pc u = .asleep) :
      Step s t ((s.goto u .waitCas20).goto t .idle)
  | wakeNone (ht : s.pc t = .futexWake) (hnone : ∀ u, s.pc u ≠ .asleep) :
      Step s t (s.goto t .idle)

@[simp] theorem goto_pc_same (s : State T) (t : T) (pc : Pc) : (s.goto t pc).pc t = pc :=
  Function.update_self _ _ _

@[simp] theorem goto_pc_other (s : State T) {t u : T} (pc : Pc) (h : u ≠ t) :
    (s.goto t pc).pc u = s.pc u :=
  Function.update_of_ne h _ _

/-! ## One step -/

theorem advance_holds {word word' : Int} {pc : Pc} (h : advance word pc = some (.holds, word')) :
    word = 0 ∧ word' ≠ 0 := by
  cases pc <;> simp [advance, compareAndExchange] at h <;> grind

theorem advance_word {word word' : Int} {pc pc' : Pc} (h : advance word pc = some (pc', word'))
    (hword : word ≠ 0) (hword' : word' = 0) : pc = .exchangeCas word := by
  cases pc <;> simp [advance, compareAndExchange] at h <;> grind

/-- The threads take steps of their own in the given order. -/
def schedule (s : State T) : List T → Option (State T)
  | [] => some s
  | t :: l => do
    let (pc, word) ← advance s.word (s.pc t)
    schedule { s.goto t pc with word := word } l

theorem schedule_reaches {s s' : State T} {l : List T} (h : schedule s l = some s') :
    Reaches Step s s' := by
  induction l generalizing s with
  | nil =>
    obtain rfl : s = s' := by simpa [schedule] using h
    exact .refl
  | cons t l ih =>
    obtain ⟨⟨pc, word⟩, hadv, hrest⟩ := Option.bind_eq_some_iff.mp h
    exact (Reaches.single (.advance hadv)).trans (ih hrest)

/-- The same, and none that the guard forbids. -/
def guardedSchedule (guard : State T → T → Prop) [∀ s t, Decidable (guard s t)] (s : State T) :
    List T → Option (State T)
  | [] => some s
  | t :: l =>
    if guard s t then do
      let (pc, word) ← advance s.word (s.pc t)
      guardedSchedule guard { s.goto t pc with word := word } l
    else none

theorem guardedSchedule_run {guard : State T → T → Prop} [∀ s t, Decidable (guard s t)]
    {s s' : State T} {l : List T} (h : guardedSchedule guard s l = some s') :
    Run Step guard s s' := by
  induction l generalizing s with
  | nil =>
    obtain rfl : s = s' := by simpa [guardedSchedule] using h
    exact .refl
  | cons t l ih =>
    rw [guardedSchedule, Option.ite_none_right_eq_some] at h
    obtain ⟨hguard, h⟩ := h
    obtain ⟨⟨pc, word⟩, hadv, hrest⟩ := Option.bind_eq_some_iff.mp h
    exact (Run.tail t .refl hguard (.advance hadv)).trans (ih hrest)

/-! ## Mutual exclusion -/

/-- The guard of a step: an exchange does not clear the word of a lock that some thread holds. -/
def LeavesHolder (s : State T) (t : T) : Prop :=
  s.word ≠ 0 → s.pc t = .exchangeCas s.word → ∀ u, s.pc u ≠ .holds

instance {n : Nat} (s : State (Fin n)) (t : Fin n) : Decidable (LeavesHolder s t) :=
  inferInstanceAs (Decidable (_ → _ → ∀ _, _))

structure Exclusive (s : State T) : Prop where
  unique : ∀ t u, s.pc t = .holds → s.pc u = .holds → t = u
  locked : ∀ t, s.pc t = .holds → s.word ≠ 0

omit [DecidableEq T] in
theorem exclusive_init : Exclusive (init T) := ⟨by simp [init], by simp [init]⟩

omit [DecidableEq T] in
theorem Exclusive.mono {s s' : State T} (h : Exclusive s) (hword : s'.word = s.word)
    (hpc : ∀ u, s'.pc u = .holds → s.pc u = .holds) : Exclusive s' where
  unique t u ht hu := h.unique t u (hpc t ht) (hpc u hu)
  locked t ht := by
    rw [hword]
    exact h.locked t (hpc t ht)

theorem Exclusive.step {s s' : State T} {t : T} (h : Exclusive s) (hguard : LeavesHolder s t)
    (hstep : Step s t s') : Exclusive s' := by
  cases hstep with
  | @advance pc word hadv =>
    have hother : ∀ u, u ≠ t → ({ s.goto t pc with word := word } : State T).pc u = .holds →
        s.pc u = .holds := by
      intro u hu hpc
      rwa [← goto_pc_other s pc hu]
    have hself : ({ s.goto t pc with word := word } : State T).pc t = .holds →
        s.word = 0 ∧ word ≠ 0 := by
      intro hpc
      obtain rfl : pc = .holds := (goto_pc_same s t pc).symm.trans hpc
      exact advance_holds hadv
    constructor
    · intro u v hu hv
      by_cases hut : u = t <;> by_cases hvt : v = t
      · rw [hut, hvt]
      · subst hut
        exact absurd (hself hu).1 (h.locked v (hother v hvt hv))
      · subst hvt
        exact absurd (hself hv).1 (h.locked u (hother u hut hu))
      · exact h.unique u v (hother u hut hu) (hother v hvt hv)
    · intro u hu
      by_cases hut : u = t
      · subst hut
        exact (hself hu).2
      · intro hzero
        have hword := h.locked u (hother u hut hu)
        exact hguard hword (advance_word hadv hword hzero) u (hother u hut hu)
  | @wakeOne u ht hu =>
    refine h.mono rfl fun v hv => ?_
    by_cases hvt : v = t
    · subst hvt
      simp at hv
    rw [goto_pc_other _ _ hvt] at hv
    by_cases hvu : v = u
    · subst hvu
      simp at hv
    · rwa [goto_pc_other _ _ hvu] at hv
  | wakeNone ht hnone =>
    refine h.mono rfl fun v hv => ?_
    by_cases hvt : v = t
    · subst hvt
      simp at hv
    · rwa [goto_pc_other _ _ hvt] at hv

theorem clear_leaves {s : State T} {t : T} (hword : s.word ≠ 0)
    (hpc : s.pc t = .exchangeCas s.word) :
    ∃ s', Reaches Step s s' ∧ s'.word = 0 ∧ s'.pc t = .idle ∧ ∀ u ≠ t, s'.pc u = s.pc u := by
  have hrun : schedule s [t, t, t] =
      some { ((s.goto t .exchangeLoad).goto t (.exchangeCas 0)).goto t .idle with word := 0 } := by
    simp [schedule, advance, compareAndExchange, hpc, hword, State.goto]
  refine ⟨_, schedule_reaches hrun, rfl, by simp [State.goto], fun u hu => ?_⟩
  simp [State.goto, hu]

theorem idle_locks {s : State T} {t : T} (hword : s.word = 0) (hpc : s.pc t = .idle) :
    ∃ s', Reaches Step s s' ∧ s'.pc t = .holds ∧ ∀ u ≠ t, s'.pc u = s.pc u := by
  have hrun : schedule s [t, t] = some { (s.goto t .lockCas).goto t .holds with word := 1 } := by
    simp [schedule, advance, compareAndExchange, hpc, hword, State.goto]
  refine ⟨_, schedule_reaches hrun, by simp [State.goto], fun u hu => ?_⟩
  simp [State.goto, hu]

/-- **Mutual exclusion.** The lock is exclusive in all runs in which no exchange clears the word
of a lock that some thread holds. Where one does, two threads may come to hold the lock. -/
theorem holds_unique :
    (∀ s, Run Step LeavesHolder (init T) s → ∀ t u, s.pc t = .holds → s.pc u = .holds → t = u) ∧
    ∀ (s : State T) t, ¬ LeavesHolder s t → ∃ s' u, Reaches Step s s' ∧ t ≠ u ∧
      s'.pc t = .holds ∧ s'.pc u = .holds := by
  constructor
  · intro s hrun
    exact (hrun.invariant exclusive_init fun a t b ha hguard hstep => ha.step hguard hstep).unique
  · intro s t hbreak
    simp only [LeavesHolder, ne_eq, not_forall, not_not] at hbreak
    obtain ⟨hword, hpc, u, hu⟩ := hbreak
    have hut : u ≠ t := by
      rintro rfl
      rw [hpc] at hu
      exact absurd hu (by simp)
    obtain ⟨s1, hrun1, hword1, hpc1, hsame1⟩ := clear_leaves hword hpc
    obtain ⟨s2, hrun2, hpc2, hsame2⟩ := idle_locks hword1 hpc1
    exact ⟨s2, u, hrun1.trans hrun2, hut.symm, hpc2, by rw [hsame2 u hut, hsame1 u hut, hu]⟩

/-- The first thread locks and unlocks, and then the second one locks. -/
theorem holds_unique_sample :
    ∃ s : State (Fin 2), Run Step LeavesHolder (init (Fin 2)) s ∧ s.pc 0 = .idle ∧
      s.pc 1 = .holds ∧ ∀ t u, s.pc t = .holds → s.pc u = .holds → t = u := by
  have hrun : ((guardedSchedule LeavesHolder (init (Fin 2)) [0, 0, 0, 0, 0, 0, 0, 1, 1]).map
      fun s => (s.pc 0, s.pc 1)) = some (.idle, .holds) := by decide
  obtain ⟨s, hs, hpc⟩ := Option.map_eq_some_iff.mp hrun
  obtain ⟨h0, h1⟩ := Prod.mk.inj hpc
  have hguarded := guardedSchedule_run hs
  exact ⟨s, hguarded, h0, h1, holds_unique.1 s hguarded⟩

/-- The first thread unlocks, and the second one locks, before the first one's exchange has come
to its end. -/
theorem holds_not_unique :
    ∃ s : State (Fin 2), Reaches Step (init (Fin 2)) s ∧ s.pc 0 = .holds ∧ s.pc 1 = .holds := by
  have hrun : ((schedule (init (Fin 2)) [0, 0, 0, 0, 0, 1, 1, 0, 0, 0, 0, 0, 0]).map
      fun s => (s.pc 0, s.pc 1)) = some (.holds, .holds) := by decide
  obtain ⟨s, hs, hpc⟩ := Option.map_eq_some_iff.mp hrun
  obtain ⟨h0, h1⟩ := Prod.mk.inj hpc
  exact ⟨s, schedule_reaches hs, h0, h1⟩

/-! ## Lost wake-ups -/

/-- Inside `lll_lock` and not asleep. -/
def Pc.Waiting : Pc → Prop
  | .lockCas | .waitCas21 | .futexWait | .waitCas20 => True
  | _ => False

/-- Between the return of `lll_lock` and the return of `lll_unlock`. -/
def Pc.Owning : Pc → Prop
  | .holds | .exchangeLoad | .exchangeCas _ | .futexWake => True
  | _ => False

/-- Somebody sleeps, and nobody is left to wake it. -/
def Lost (s : State T) : Prop :=
  s.word = 0 ∧ (∀ t, ¬ (s.pc t).Owning) ∧ (∀ t, ¬ (s.pc t).Waiting) ∧ ∃ t, s.pc t = .asleep

/-- The guard of a step: an exchange clears the word only when nobody sleeps, or somebody in
`lll_lock` is awake, or about to be woken. -/
def LeavesSleeper (s : State T) (t : T) : Prop :=
  s.word ≠ 0 → s.pc t = .exchangeCas s.word → ∀ u, s.pc u = .asleep →
    ∃ v, (s.pc v).Waiting ∨ s.pc v = .futexWake

instance : DecidablePred Pc.Waiting
  | .lockCas | .waitCas21 | .futexWait | .waitCas20 => .isTrue trivial
  | .idle | .asleep | .holds | .exchangeLoad | .exchangeCas _ | .futexWake => .isFalse id

instance {n : Nat} (s : State (Fin n)) (t : Fin n) : Decidable (LeavesSleeper s t) :=
  inferInstanceAs (Decidable (_ → _ → ∀ _, _ → ∃ _, _))

/-- A sleeping thread has a word to be released, or somebody awake who will look at it. -/
def Attended (s : State T) : Prop :=
  ∀ u, s.pc u = .asleep → s.word ≠ 0 ∨ ∃ v, (s.pc v).Waiting ∨ s.pc v = .futexWake

theorem advance_asleep {word word' : Int} {pc : Pc}
    (h : advance word pc = some (.asleep, word')) : word' ≠ 0 := by
  cases pc <;> simp [advance, compareAndExchange] at h <;> grind

theorem advance_waiting {word word' : Int} {pc pc' : Pc}
    (h : advance word pc = some (pc', word')) (hpc : pc.Waiting) : pc'.Waiting ∨ word' ≠ 0 := by
  cases pc <;> simp [Pc.Waiting] at hpc <;>
    simp [advance, compareAndExchange] at h <;> grind [Pc.Waiting]

theorem Attended.step {s s' : State T} {t : T} (h : Attended s) (hguard : LeavesSleeper s t)
    (hstep : Step s t s') : Attended s' := by
  cases hstep with
  | @advance pc word hadv =>
    intro u hu
    by_cases hword : word = 0
    swap
    · exact Or.inl hword
    have hut : u ≠ t := by
      rintro rfl
      obtain rfl : pc = .asleep := (goto_pc_same s u pc).symm.trans hu
      exact advance_asleep hadv hword
    have hu' : s.pc u = .asleep := (goto_pc_other s pc hut).symm.trans hu
    -- Somebody was awake before the step: if the word was not 0, then the guard says so.
    have hawake : ∃ v, (s.pc v).Waiting ∨ s.pc v = .futexWake := by
      by_cases hzero : s.word = 0
      · exact (h u hu').resolve_left (not_not.mpr hzero)
      · exact hguard hzero (advance_word hadv hzero hword) u hu'
    obtain ⟨v, hv⟩ := hawake
    refine Or.inr ⟨v, ?_⟩
    by_cases hvt : v = t
    · subst hvt
      rcases hv with hv | hv
      · left
        have := (advance_waiting hadv hv).resolve_right (not_not.mpr hword)
        simpa using this
      · rw [hv] at hadv
        exact absurd hadv (by simp [advance])
    · show (Pc.Waiting ((s.goto t pc).pc v)) ∨ (s.goto t pc).pc v = .futexWake
      rwa [goto_pc_other s pc hvt]
  | @wakeOne u ht hu =>
    have hut : u ≠ t := by
      rintro rfl
      rw [ht] at hu
      exact absurd hu (by simp)
    intro v _
    exact Or.inr ⟨u, Or.inl (by simp [hut, Pc.Waiting])⟩
  | wakeNone ht hnone =>
    intro v hv
    by_cases hvt : v = t
    · subst hvt
      simp at hv
    · rw [goto_pc_other _ _ hvt] at hv
      exact absurd hv (hnone v)

/-- **No lost wake-up.** Nobody is left asleep in all runs in which an exchange clears the word
only when nobody sleeps or somebody is awake. Where the last thread awake clears it over a
sleeping one, that one is lost. -/
theorem not_lost :
    (∀ s : State T, Run Step LeavesSleeper (init T) s → ¬ Lost s) ∧
    ∀ (s : State T) t, ¬ LeavesSleeper s t →
      (∀ u, u ≠ t → s.pc u = .idle ∨ s.pc u = .asleep) → ∃ s', Reaches Step s s' ∧ Lost s' := by
  constructor
  · intro s hrun
    have hinit : Attended (init T) := by simp [Attended, init]
    have hatt := hrun.invariant hinit fun a t b ha hguard hstep => ha.step hguard hstep
    rintro ⟨hword, hown, hwait, u, hu⟩
    rcases hatt u hu with hne | ⟨v, hv | hv⟩
    · exact hne hword
    · exact hwait v hv
    · exact hown v (by simp [hv, Pc.Owning])
  · intro s t hbreak hquiet
    simp only [LeavesSleeper, ne_eq, not_forall] at hbreak
    obtain ⟨hword, hpc, u, hu, -⟩ := hbreak
    obtain ⟨s', hrun, hword', hpc', hsame⟩ := clear_leaves hword hpc
    have hut : u ≠ t := by
      rintro rfl
      rw [hpc] at hu
      exact absurd hu (by simp)
    have hidle : ∀ v, s'.pc v = .idle ∨ s'.pc v = .asleep := by
      intro v
      by_cases hvt : v = t
      · exact Or.inl (hvt ▸ hpc')
      · rw [hsame v hvt]
        exact hquiet v hvt
    refine ⟨s', hrun, hword', fun v => ?_, fun v => ?_, u, by rw [hsame u hut, hu]⟩
    · rcases hidle v with hv | hv <;> simp [hv, Pc.Owning]
    · rcases hidle v with hv | hv <;> simp [hv, Pc.Waiting]

/-- The second thread sleeps, and the third one calls `lll_lock`, before the first one unlocks. -/
theorem not_lost_sample :
    ∃ s : State (Fin 3), Run Step LeavesSleeper (init (Fin 3)) s ∧ s.pc 0 = .idle ∧
      s.pc 1 = .asleep ∧ s.word = 0 ∧ ¬ Lost s := by
  have hrun : ((guardedSchedule LeavesSleeper (init (Fin 3))
      [0, 0, 1, 1, 1, 1, 2, 0, 0, 0, 0, 0]).map
      fun s => (s.pc 0, s.pc 1, s.word)) = some (.idle, .asleep, 0) := by decide
  obtain ⟨s, hs, heq⟩ := Option.map_eq_some_iff.mp hrun
  simp only [Prod.mk.injEq] at heq
  obtain ⟨h0, h1, hword⟩ := heq
  have hguarded := guardedSchedule_run hs
  exact ⟨s, hguarded, h0, h1, hword, not_lost.1 s hguarded⟩

/-- The second thread sets the word to 2 and sleeps. The first one's exchange replaces the 2, and
reports the 0 that it finds afterwards. -/
theorem lost_reached : ∃ s : State (Fin 2), Reaches Step (init (Fin 2)) s ∧ Lost s := by
  have hrun : ((schedule (init (Fin 2)) [0, 0, 1, 1, 1, 1, 0, 0, 0, 0, 0]).map
      fun s => (s.word, s.pc 0, s.pc 1)) = some (0, .idle, .asleep) := by decide
  obtain ⟨s, hs, heq⟩ := Option.map_eq_some_iff.mp hrun
  simp only [Prod.mk.injEq] at heq
  obtain ⟨hword, h0, h1⟩ := heq
  have hpc : ∀ t, s.pc t = .idle ∨ s.pc t = .asleep :=
    Fin.forall_fin_two.mpr ⟨Or.inl h0, Or.inr h1⟩
  refine ⟨s, schedule_reaches hs, hword, fun t => ?_, fun t => ?_, 1, h1⟩
  · rcases hpc t with ht | ht <;> simp [ht, Pc.Owning]
  · rcases hpc t with ht | ht <;> simp [ht, Pc.Waiting]

/-! ## The exchange alone -/

/-- The loop of `OSAtomicExchange` with no other thread at the word: the value that it yields, and
the word afterwards. -/
def atomicExchange (newvalue : Int) : Nat → Int → Option (Int × Int)
  | 0, _ => none
  | fuel + 1, word =>
    let old := word
    let (found, word) := compareAndExchange word newvalue old
    if found ≠ 0 then atomicExchange newvalue fuel word else some (old, word)

/-- The loop ends, the new value is there, and the one from before comes back. -/
def Exchanges (word newvalue : Int) : Prop :=
  ∃ fuel, atomicExchange newvalue fuel word = some (word, newvalue)

theorem atomicExchange_zero (newvalue : Int) (fuel : Nat) :
    atomicExchange newvalue (fuel + 1) 0 = some (0, newvalue) := by
  simp [atomicExchange, compareAndExchange]

theorem atomicExchange_again {word : Int} (newvalue : Int) (fuel : Nat) (h : word ≠ 0) :
    atomicExchange newvalue (fuel + 1) word = atomicExchange newvalue fuel newvalue := by
  simp [atomicExchange, compareAndExchange, h]

theorem atomicExchange_spins {word newvalue : Int} (hword : word ≠ 0) (hnew : newvalue ≠ 0)
    (fuel : Nat) : atomicExchange newvalue fuel word = none := by
  induction fuel generalizing word with
  | zero => rfl
  | succ fuel ih =>
    rw [atomicExchange_again newvalue fuel hword]
    exact ih hnew

theorem atomicExchange_clears {word : Int} (h : word ≠ 0) (fuel : Nat) :
    atomicExchange 0 (fuel + 2) word = some (0, 0) := by
  rw [atomicExchange_again 0 _ h, atomicExchange_zero]

/-- **`OSAtomicExchange` is an exchange exactly on a word that is 0.** -/
theorem exchanges_iff (word newvalue : Int) : Exchanges word newvalue ↔ word = 0 := by
  constructor
  · rintro ⟨fuel, hends⟩
    by_contra hword
    rcases Decidable.em (newvalue = 0) with rfl | hnew
    · cases fuel with
      | zero => simp [atomicExchange] at hends
      | succ fuel =>
        rw [atomicExchange_again 0 fuel hword] at hends
        cases fuel with
        | zero => simp [atomicExchange] at hends
        | succ fuel =>
          rw [atomicExchange_zero] at hends
          exact hword (by simpa using hends.symm)
    · rw [atomicExchange_spins hword hnew] at hends
      simp at hends
  · rintro rfl
    exact ⟨1, atomicExchange_zero newvalue 0⟩

/-- The word of a lock with waiters, when `lll_unlock` clears it. -/
theorem not_exchanges : ¬ Exchanges 2 0 := by
  rintro ⟨fuel, hends⟩
  cases fuel with
  | zero => simp [atomicExchange] at hends
  | succ fuel =>
    cases fuel with
    | zero => simp [atomicExchange, compareAndExchange] at hends
    | succ fuel => simp [atomicExchange_clears (show (2 : Int) ≠ 0 by decide)] at hends

theorem schedule_exchange {s : State T} {t : T} {fuel : Nat} {old word : Int}
    (hpc : s.pc t = .exchangeLoad) (h : atomicExchange 0 fuel s.word = some (old, word)) :
    ∃ s', Reaches Step s s' ∧ s'.word = word ∧
      s'.pc t = (if old > 1 then .futexWake else .idle) ∧ ∀ u ≠ t, s'.pc u = s.pc u := by
  induction fuel generalizing s with
  | zero => simp [atomicExchange] at h
  | succ fuel ih =>
    rcases Decidable.em (s.word = 0) with hzero | hword
    · rw [hzero, atomicExchange_zero] at h
      obtain ⟨rfl, rfl⟩ := Prod.mk.inj (Option.some.inj h)
      have hrun : schedule s [t, t] =
          some { (s.goto t (.exchangeCas 0)).goto t .idle with word := 0 } := by
        simp [schedule, advance, compareAndExchange, hpc, hzero, State.goto]
      refine ⟨_, schedule_reaches hrun, rfl, by simp [State.goto], fun u hu => ?_⟩
      simp [State.goto, hu]
    · rw [atomicExchange_again 0 fuel hword] at h
      have hrun : schedule s [t, t] =
          some { (s.goto t (.exchangeCas s.word)).goto t .exchangeLoad with word := 0 } := by
        simp [schedule, advance, compareAndExchange, hpc, hword, State.goto]
      obtain ⟨s', hs', heq⟩ : ∃ s', schedule s [t, t] = some s' ∧
          s' = { (s.goto t (.exchangeCas s.word)).goto t .exchangeLoad with word := 0 } :=
        ⟨_, hrun, rfl⟩
      have hword' : s'.word = 0 := by rw [heq]
      have hpc' : s'.pc t = .exchangeLoad := by simp [heq, State.goto]
      obtain ⟨s'', hreach, hword'', hpc'', hsame⟩ := ih hpc' (by rw [hword']; exact h)
      refine ⟨s'', (schedule_reaches hs').trans hreach, hword'', hpc'', fun u hu => ?_⟩
      rw [hsame u hu, heq]
      simp [State.goto, hu]

end LibSystem.LowLevelLock
