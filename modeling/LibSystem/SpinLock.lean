import LibSystem.LowLevelLock

/-!
# The spin lock

`OSSpinLockTry`, `OSSpinLockLock` and `OSSpinLockUnlock` of `OSSpinLock.c` on one lock, for any
number of threads. Locking and unlocking is what `lll_lock` and `lll_unlock` do.
-/

namespace LibSystem.SpinLock

open LowLevelLock (LeavesHolder Exclusive schedule compareAndExchange)

/-- The next thing that a thread does. -/
inductive Pc where
  /-- Outside, or in a function that the low level lock has. -/
  | lll (pc : LowLevelLock.Pc)
  /-- The compare and exchange of `lll_trylock`. -/
  | tryCas
  /-- `OSSpinLockTry` has returned false, its compare and exchange having seen `old`. -/
  | refused (old : Int)
  deriving DecidableEq

/-- `lll_trylock`: the value seen is the result, and not 0 is true. -/
def trylock (word : Int) : Pc × Int :=
  let (old, word) := compareAndExchange word 1 0
  (if old ≠ 0 then .lll .holds else .refused old, word)

structure State (T : Type) where
  word : Int
  pc : T → Pc

def init (T : Type) : State T := ⟨0, fun _ => .lll .idle⟩

/-! ## The low level lock below -/

/-- A thread that tries is idle for the low level lock. -/
def Pc.lower : Pc → LowLevelLock.Pc
  | .lll pc => pc
  | .tryCas => .idle
  | .refused _ => .idle

def Pc.lift : Pc → LowLevelLock.Pc → Pc
  | .lll _, pc => .lll pc
  | .tryCas, _ => .tryCas
  | .refused old, _ => .refused old

variable {T : Type}

def State.lower (s : State T) : LowLevelLock.State T := ⟨s.word, fun t => (s.pc t).lower⟩

/-- `s` after the low level lock has come to `l`. -/
def State.lift (s : State T) (l : LowLevelLock.State T) : State T :=
  ⟨l.word, fun t => (s.pc t).lift (l.pc t)⟩

variable [DecidableEq T]

def State.goto (s : State T) (t : T) (pc : Pc) : State T :=
  { s with pc := Function.update s.pc t pc }

/-- A thread that holds the lock, by `OSSpinLockLock` or by `OSSpinLockTry`, may unlock it. -/
inductive Step (s : State T) (t : T) : State T → Prop where
  | lll {pc : LowLevelLock.Pc} {l : LowLevelLock.State T} (ht : s.pc t = .lll pc)
      (h : LowLevelLock.Step s.lower t l) : Step s t (s.lift l)
  | call (ht : s.pc t = .lll .idle) : Step s t (s.goto t .tryCas)
  | trylock (ht : s.pc t = .tryCas) :
      Step s t { s.goto t (trylock s.word).1 with word := (trylock s.word).2 }
  | back {old : Int} (ht : s.pc t = .refused old) : Step s t (s.goto t (.lll .idle))

@[simp] theorem goto_pc_same (s : State T) (t : T) (pc : Pc) : (s.goto t pc).pc t = pc :=
  Function.update_self _ _ _

@[simp] theorem goto_pc_other (s : State T) {t u : T} (pc : Pc) (h : u ≠ t) :
    (s.goto t pc).pc u = s.pc u :=
  Function.update_of_ne h _ _

omit [DecidableEq T] in
@[simp] theorem lift_lower (s : State T) : s.lift s.lower = s := by
  have hpc : ∀ pc : Pc, pc.lift pc.lower = pc := by rintro (pc | - | old) <;> rfl
  simp only [State.lift, State.lower, hpc]

omit [DecidableEq T] in
@[simp] theorem lift_lift (s : State T) (l l' : LowLevelLock.State T) :
    (s.lift l).lift l' = s.lift l' := by
  have hpc : ∀ (pc : Pc) q r, (pc.lift q).lift r = pc.lift r := by
    rintro (pc | - | old) q r <;> rfl
  simp only [State.lift, hpc]

theorem lift_lll {pc : Pc} {q r : LowLevelLock.Pc} (h : pc = .lll q) : pc.lift r = .lll r := by
  rw [h, Pc.lift]

theorem lower_eq_holds {pc : Pc} : pc.lower = .holds ↔ pc = .lll .holds := by
  rcases pc with pc | - | old <;> simp [Pc.lower]

theorem lower_lift_holds {pc : Pc} {q : LowLevelLock.Pc} (h : (pc.lift q).lower = .holds) :
    q = .holds := by
  rcases pc with pc | - | old <;> simp_all [Pc.lower, Pc.lift]

theorem lift_eq_refused {pc : Pc} {q : LowLevelLock.Pc} {old : Int}
    (h : pc.lift q = .refused old) : pc = .refused old := by
  rcases pc with pc | - | old <;> simp_all [Pc.lift]

/-! ## Exclusion -/

/-- What the lock is for. -/
structure Safe (s : State T) : Prop where
  unique : ∀ t u, s.pc t = .lll .holds → s.pc u = .lll .holds → t = u
  refused : ∀ t old, s.pc t = .refused old → old ≠ 0

/-- The guard of a step: it clears no word of a lock that some thread holds, and it tries no lock
that is free or that some thread holds. -/
structure Orderly (s : State T) (t : T) : Prop where
  exchange : LeavesHolder s.lower t
  trylock : s.pc t = .tryCas → s.word ≠ 0 ∧ ∀ u, s.pc u ≠ .lll .holds

/-- The invariant. -/
structure Sound (s : State T) : Prop where
  exclusive : Exclusive s.lower
  refused : ∀ t old, s.pc t = .refused old → old ≠ 0

omit [DecidableEq T] in
theorem Sound.safe {s : State T} (h : Sound s) : Safe s where
  unique t u ht hu := h.exclusive.unique t u (lower_eq_holds.mpr ht) (lower_eq_holds.mpr hu)
  refused := h.refused

omit [DecidableEq T] in
theorem sound_init : Sound (init T) where
  exclusive := LowLevelLock.exclusive_init
  refused := by simp [init]

theorem Sound.goto {s : State T} (h : Sound s) (t : T) {pc : Pc} (hholds : pc.lower ≠ .holds)
    (hrefused : ∀ old, pc ≠ .refused old) : Sound (s.goto t pc) where
  exclusive := by
    refine h.exclusive.mono rfl fun u hu => ?_
    by_cases hut : u = t
    · subst hut
      simp only [State.lower, goto_pc_same] at hu
      exact absurd hu hholds
    · simpa only [State.lower, goto_pc_other s pc hut] using hu
  refused u old hu := by
    by_cases hut : u = t
    · subst hut
      rw [goto_pc_same] at hu
      exact absurd hu (hrefused old)
    · rw [goto_pc_other s pc hut] at hu
      exact h.refused u old hu

theorem trylock_of_ne {word : Int} (h : word ≠ 0) : trylock word = (.lll .holds, word) := by
  simp [trylock, compareAndExchange, h]

theorem trylock_zero : trylock 0 = (.refused 0, 1) := rfl

theorem Sound.step {s s' : State T} {t : T} (h : Sound s) (hguard : Orderly s t)
    (hstep : Step s t s') : Sound s' := by
  cases hstep with
  | @lll pc l ht hl =>
    constructor
    · have hbelow := h.exclusive.step hguard.exchange hl
      exact hbelow.mono rfl fun u hu => lower_lift_holds hu
    · intro u old hu
      exact h.refused u old (lift_eq_refused hu)
  | call ht => exact h.goto t (by simp [Pc.lower]) (by simp)
  | trylock ht =>
    obtain ⟨hword, hnone⟩ := hguard.trylock ht
    rw [trylock_of_ne hword]
    have hself : ∀ u, ((s.goto t (.lll .holds)).pc u).lower = .holds → u = t := by
      intro u hu
      by_contra hut
      rw [goto_pc_other s _ hut, lower_eq_holds] at hu
      exact hnone u hu
    constructor
    · exact ⟨fun u v hu hv => (hself u hu).trans (hself v hv).symm, fun _ _ => hword⟩
    · intro u old hu
      by_cases hut : u = t
      · subst hut
        simp at hu
      · exact h.refused u old ((goto_pc_other s _ hut).symm.trans hu)
  | back ht => exact h.goto t (by simp [Pc.lower]) (by simp)

/-! ## Where the guard fails -/

omit [DecidableEq T] in
theorem lower_lift {s : State T} {l : LowLevelLock.State T}
    (h : ∀ u, (∀ pc, s.pc u ≠ .lll pc) → l.pc u = .idle) : (s.lift l).lower = l := by
  have hpc : ∀ u, ((s.pc u).lift (l.pc u)).lower = l.pc u := by
    intro u
    have hu := h u
    revert hu
    rcases s.pc u with pc | - | old <;> simp [Pc.lift, Pc.lower] <;> exact Eq.symm
  simp only [State.lower, State.lift, hpc]

theorem lift_reaches {s : State T} {l : LowLevelLock.State T} {threads : List T}
    (hthreads : ∀ t ∈ threads, ∃ pc, s.pc t = .lll pc)
    (h : schedule s.lower threads = some l) : Reaches Step s (s.lift l) := by
  induction threads generalizing s with
  | nil =>
    obtain rfl : s.lower = l := by simpa [schedule] using h
    rw [lift_lower]
    exact .refl
  | cons t threads ih =>
    obtain ⟨⟨pc, ht⟩, hrest⟩ := List.forall_mem_cons.mp hthreads
    obtain ⟨⟨pc', word⟩, hadv, hsched⟩ := Option.bind_eq_some_iff.mp h
    have hstep := Step.lll ht (.advance hadv)
    have hlower : (s.lift { s.lower.goto t pc' with word := word }).lower =
        { s.lower.goto t pc' with word := word } := by
      refine lower_lift fun u hu => ?_
      have hut : u ≠ t := by
        rintro rfl
        exact hu pc ht
      change (s.lower.goto t pc').pc u = .idle
      rw [LowLevelLock.goto_pc_other _ _ hut]
      have hidle := hu
      simp only [State.lower]
      revert hidle
      rcases s.pc u with q | - | old <;> simp [Pc.lower]
    have hsched' : schedule (s.lift { s.lower.goto t pc' with word := word }).lower threads =
        some l := by
      rw [hlower]
      exact hsched
    have hlll : ∀ v ∈ threads, ∃ q,
        (s.lift { s.lower.goto t pc' with word := word }).pc v = .lll q := by
      intro v hv
      obtain ⟨q, hq⟩ := hrest v hv
      exact ⟨_, lift_lll hq⟩
    have hreach := ih hlll hsched'
    rw [lift_lift] at hreach
    exact (Reaches.single hstep).trans hreach

theorem clear_locks {l : LowLevelLock.State T} {t : T} (hword : l.word ≠ 0)
    (ht : l.pc t = .exchangeCas l.word) :
    ∃ l', schedule l [t, t, t, t, t] = some l' ∧ l'.pc t = .holds ∧
      ∀ u ≠ t, l'.pc u = l.pc u := by
  refine ⟨⟨1, Function.update l.pc t .holds⟩, ?_, Function.update_self _ _ _, fun u hu =>
    Function.update_of_ne hu _ _⟩
  simp [schedule, LowLevelLock.advance, compareAndExchange, ht, hword, LowLevelLock.State.goto]

omit [DecidableEq T] in
theorem not_safe {s : State T} {t u : T} (hut : u ≠ t) (ht : s.pc t = .lll .holds)
    (hu : s.pc u = .lll .holds) : ¬Safe s :=
  fun h => hut (h.unique u t hu ht)

theorem exchange_breaks {s : State T} {t : T} (h : ¬LeavesHolder s.lower t) :
    ∃ s', Reaches Step s s' ∧ ¬Safe s' := by
  simp only [LeavesHolder, ne_eq, not_forall, not_not] at h
  obtain ⟨hword, ht, u, hu⟩ := h
  have hut : u ≠ t := by
    rintro rfl
    rw [ht] at hu
    cases hu
  obtain ⟨pc, hpc⟩ : ∃ pc, s.pc t = .lll pc := by
    simp only [State.lower] at ht
    revert ht
    rcases s.pc t with pc | - | old <;> simp [Pc.lower]
  obtain ⟨l, hsched, hself, hothers⟩ := clear_locks hword ht
  refine ⟨s.lift l, lift_reaches (by simp [hpc]) hsched, not_safe hut ?_ ?_⟩
  · change (s.pc t).lift (l.pc t) = _
    rw [hself, lift_lll hpc]
  · change (s.pc u).lift (l.pc u) = _
    rw [hothers u hut, hu, lift_lll (lower_eq_holds.mp hu)]

theorem trylock_breaks {s : State T} {t : T} (ht : s.pc t = .tryCas)
    (h : ¬(s.word ≠ 0 ∧ ∀ u, s.pc u ≠ .lll .holds)) : ∃ s', Reaches Step s s' ∧ ¬Safe s' := by
  refine ⟨_, .single (.trylock ht), ?_⟩
  by_cases hword : s.word = 0
  · intro hsafe
    refine hsafe.refused t 0 ?_ rfl
    simp [hword, trylock_zero]
  · simp only [not_and, not_forall, not_not] at h
    obtain ⟨u, hu⟩ := h hword
    have hut : u ≠ t := by
      rintro rfl
      rw [ht] at hu
      cases hu
    rw [trylock_of_ne hword]
    exact not_safe hut (goto_pc_same s t _) ((goto_pc_other s _ hut).trans hu)

/-- The lock excludes, and refuses only what is taken, in all runs in which a lock is tried only
while its word is not 0 and yet nobody holds it, and no exchange clears the word of a lock that
some thread holds. From where a step is not like that, two threads come to hold the lock, or a
free one is refused. -/
theorem try_excludes :
    (∀ s : State T, Run Step Orderly (init T) s → Safe s) ∧
    ∀ (s : State T) t, ¬Orderly s t → ∃ s', Reaches Step s s' ∧ ¬Safe s' := by
  constructor
  · intro s hrun
    exact (hrun.invariant sound_init fun a t b ha hguard hstep => ha.step hguard hstep).safe
  · intro s t hbreak
    by_cases hexchange : LeavesHolder s.lower t
    · have htry : ¬(s.pc t = .tryCas → s.word ≠ 0 ∧ ∀ u, s.pc u ≠ .lll .holds) :=
        fun htry => hbreak ⟨hexchange, htry⟩
      rw [Classical.not_imp] at htry
      exact trylock_breaks htry.1 htry.2
    · exact exchange_breaks hexchange

/-- A thread tries while another one is about to unlock. -/
theorem try_excludes_sample :
    ∃ s : State (Fin 2), Run Step Orderly (init (Fin 2)) s ∧ s.pc 1 = .lll .holds ∧ Safe s := by
  have hrun : ∃ s : State (Fin 2), Run Step Orderly (init (Fin 2)) s ∧ s.pc 1 = .lll .holds := by
    refine ⟨_, .tail 1 (.tail 1 (.tail 0 (.tail 0 (.tail 0 .refl ?_ (.lll rfl (.advance rfl)))
      ?_ (.lll rfl (.advance rfl))) ?_ (.lll rfl (.advance rfl))) ?_ (.call rfl))
      ?_ (.trylock rfl), rfl⟩
    all_goals
      constructor
      · unfold LeavesHolder
        decide
      · decide
  obtain ⟨s, hrun, hpc⟩ := hrun
  exact ⟨s, hrun, hpc, try_excludes.1 s hrun⟩

/-- A taken lock is taken once more, and a free one is refused. -/
theorem try_not_exclusive :
    (∃ s : State (Fin 2), Reaches Step (init (Fin 2)) s ∧ s.pc 0 = .lll .holds ∧
      s.pc 1 = .lll .holds) ∧
    ∃ s : State (Fin 2), Reaches Step (init (Fin 2)) s ∧ s.pc 0 = .refused 0 := by
  constructor
  · exact ⟨_, .tail 1 (.tail 1 (.tail 0 (.tail 0 .refl trivial (.lll rfl (.advance rfl))) trivial
      (.lll rfl (.advance rfl))) trivial (.call rfl)) trivial (.trylock rfl), rfl, rfl⟩
  · exact ⟨_, .tail 0 (.tail 0 .refl trivial (.call rfl)) trivial (.trylock rfl), rfl⟩

end LibSystem.SpinLock
