import LibSystem.Core.Mutex

/-!
# Where locking kills the process

The mutexes of `OSThread.c`, set up in any of the ways there are, with any low level lock.
-/

namespace LibSystem.Core.Mutex

variable {T : Type} {w : Platform T}

/-- By `pthread_mutex_init`, which leaves `sig` and sometimes `count` as they were, or by a static
initializer. -/
inductive SetUp (w : Platform T) : OSMutex → Prop where
  | init (memory : OSMutex) (t : T) (attr : Option Word)
      (h : ∀ type ∈ attr, Supported type) : SetUp w (pthreadMutexInit memory (w.pid t) attr)
  | static (sig : Word)
      (h : sig = mutexSigInit ∨ sig = w.recursiveSigInit ∨ sig = w.errorcheckSigInit) :
      SetUp w ⟨sig, 0, 0, 0, 0⟩

/-- `pthread_mutex_lock` has halted, or `pthread_mutex_unlock` for a thread that had locked. -/
def Pc.Killed : Pc → Prop
  | .halted .lock _ => True
  | .halted (.unlock locked) _ => locked
  | _ => False

def Pc.pending : Pc → Option Word
  | .setSig type => some type
  | .setOwner type => some type
  | .setType type => some type
  | _ => none

/-- The guard of a thread: at the three conditions that can lead to a halt it finds what does
not. -/
structure Spares (w : Platform T) (t : T) (m : OSMutex) (pc : Pc) : Prop where
  sig : pc = .sigErrorcheck → m.sig ≠ w.errorcheckSigInit
  lock : pc = .lockOwner → m.owner = w.pid t
  unlock : pc = .unlockOwner true → m.owner = w.pid t

def Spared (w : Platform T) (s : State T) (a : T × Move) : Prop :=
  Spares w a.1 s.mutex (s.pc a.1)

def Lives (s : State T) : Prop := ∀ t, ¬ (s.pc t).Killed

/-- The type of the mutex is one that can be locked, and stays it. -/
structure Typed (s : State T) : Prop where
  type : Supported s.mutex.type
  pending : ∀ t, ∀ type ∈ (s.pc t).pending, Supported type

theorem SetUp.supported {m : OSMutex} (h : SetUp w m) : Supported m.type := by
  cases h with
  | init memory t attr hattr =>
    cases attr with
    | none => exact .inl rfl
    | some type => exact hattr type rfl
  | static sig hsig => exact .inl rfl

/-! ## One step -/

section

variable {t : T} {m m' : OSMutex} {pc pc' : Pc}

theorem act_typed (h : w.act t m pc = some (.go m' pc')) (htype : Supported m.type)
    (hpending : ∀ type ∈ pc.pending, Supported type) :
    Supported m'.type ∧ ∀ type ∈ pc'.pending, Supported type := by
  cases pc <;> simp only [Platform.act, Option.some.injEq, Act.go.injEq, reduceCtorEq] at h
  all_goals
    obtain ⟨rfl, rfl⟩ := h
    grind [Pc.pending, Supported]

theorem act_killed_iff (h : w.act t m pc = some (.go m' pc')) (htype : Supported m.type) :
    pc'.Killed ↔ ¬ Spares w t m pc := by
  cases pc <;> simp only [Platform.act, Option.some.injEq, Act.go.injEq, reduceCtorEq] at h
  all_goals
    obtain ⟨rfl, rfl⟩ := h
    grind [Pc.Killed, Spares, Supported]

theorem act_calls {a : Act} (h : w.act t m pc = some a) (hgo : ∀ m' pc', a ≠ .go m' pc') :
    Spares w t m pc := by
  constructor <;> rintro rfl <;> simp [Platform.act] at h <;> exact absurd h.symm (hgo _ _)

theorem act_outside (h : w.act t m pc = none) : Spares w t m pc := by
  constructor <;> rintro rfl <;> simp [Platform.act] at h

theorem act_lock {which : Lock} (h : w.act t m pc = some (.lock which pc')) :
    pc'.pending = none ∧ ¬ pc'.Killed := by
  cases pc <;> simp [Platform.act] at h
  all_goals
    obtain ⟨-, rfl⟩ := h
    simp [Pc.pending, Pc.Killed]

theorem act_trylock {f : Word → Pc} (h : w.act t m pc = some (.trylock f)) (result : Word) :
    (f result).pending = none ∧ ¬ (f result).Killed := by
  cases pc <;> simp [Platform.act] at h
  subst h
  simp [Pc.pending, Pc.Killed]

theorem act_unlock {which : Lock} (h : w.act t m pc = some (.unlock which pc')) :
    pc'.pending = none ∧ ¬ pc'.Killed := by
  cases pc <;> simp [Platform.act] at h
  all_goals
    obtain ⟨-, rfl⟩ := h
    simp [Pc.pending, Pc.Killed]

end

variable [DecidableEq T] {s s' : State T} {t : T} {pc : Pc}

theorem Typed.next (h : Typed s) (htype : Supported s'.mutex.type)
    (hpc : s'.pc = Function.update s.pc t pc) (hpending : ∀ type ∈ pc.pending, Supported type) :
    Typed s' := by
  refine ⟨htype, fun u => ?_⟩
  rw [hpc]
  rcases Decidable.em (u = t) with rfl | hu
  · rwa [Function.update_self]
  · rw [Function.update_of_ne hu]
    exact h.pending u

theorem Typed.calls (h : Typed s) (htype : s'.mutex.type = s.mutex.type)
    (hpc : s'.pc = Function.update s.pc t pc) (hpending : pc.pending = none) : Typed s' := by
  refine h.next (by rw [htype]; exact h.type) hpc ?_
  simp [hpending]

theorem lives_next (h : Lives s) (hpc : s'.pc = Function.update s.pc t pc) :
    Lives s' ↔ ¬ pc.Killed := by
  unfold Lives
  rw [hpc]
  constructor
  · intro hlives
    have hself := hlives t
    rwa [Function.update_self] at hself
  · intro hpc u
    rcases Decidable.em (u = t) with rfl | hu
    · rwa [Function.update_self]
    · rw [Function.update_of_ne hu]
      exact h u

theorem Typed.step {a : T × Move} (h : Typed s) (hlives : Lives s) (hstep : Step w s a s') :
    Typed s' ∧ (Lives s' ↔ Spared w s a) := by
  cases hstep with
  | @callLock t ht =>
    refine ⟨h.calls rfl rfl rfl, iff_of_true ((lives_next hlives rfl).mpr id) (act_outside ?_)⟩
    rw [ht]
    rfl
  | @callUnlock t ht =>
    refine ⟨h.calls rfl rfl rfl, iff_of_true ((lives_next hlives rfl).mpr id) (act_outside ?_)⟩
    rw [ht]
    rfl
  | @go t m pc hact =>
    obtain ⟨htype, hpending⟩ := act_typed hact h.type (h.pending t)
    refine ⟨h.next htype rfl hpending, ?_⟩
    rw [lives_next hlives rfl, act_killed_iff hact h.type, not_not]
    rfl
  | @lock t which pc word hact hlock =>
    obtain ⟨hpending, hkilled⟩ := act_lock hact
    exact ⟨h.calls (by simp) setWord_goto_pc hpending,
      iff_of_true ((lives_next hlives setWord_goto_pc).mpr hkilled) (act_calls hact (by simp))⟩
  | @trylock t f result word hact hlock =>
    obtain ⟨hpending, hkilled⟩ := act_trylock hact result
    exact ⟨h.calls rfl rfl hpending,
      iff_of_true ((lives_next hlives rfl).mpr hkilled) (act_calls hact (by simp))⟩
  | @unlock t which pc word hact hlock =>
    obtain ⟨hpending, hkilled⟩ := act_unlock hact
    exact ⟨h.calls (by simp) setWord_goto_pc hpending,
      iff_of_true ((lives_next hlives setWord_goto_pc).mpr hkilled) (act_calls hact (by simp))⟩
  | @lockReturns t result ht =>
    refine ⟨h.calls rfl rfl rfl, iff_of_true ((lives_next hlives rfl).mpr id) (act_outside ?_)⟩
    rw [ht]
    rfl
  | @unlockReturns t result ht =>
    refine ⟨h.calls rfl rfl rfl, iff_of_true ((lives_next hlives rfl).mpr id) (act_outside ?_)⟩
    rw [ht]
    rfl

/-- **Locking kills nobody exactly as long as no thread finds what leads to a halt.** The first
thread that does is killed. -/
theorem lives_iff_spared {m : OSMutex} (h : SetUp w m) :
    (∀ s, Run (Step w) (Spared w) (start m) s → Lives s) ∧
    ∀ s a s', Run (Step w) (Spared w) (start m) s → Step w s a s' → ¬ Spared w s a →
      ¬ Lives s' := by
  have hrun : ∀ s, Run (Step w) (Spared w) (start m) s → Typed s ∧ Lives s := by
    intro s hrun
    have hinit : Typed (start m : State T) ∧ Lives (start m : State T) :=
      ⟨⟨h.supported, by simp [start, Pc.pending]⟩, fun t => id⟩
    have hkeep : ∀ b a c, Typed b ∧ Lives b → Spared w b a → Step w b a c →
        Typed c ∧ Lives c := by
      rintro b a c ⟨htyped, hlives⟩ hspared hstep
      obtain ⟨htyped', hiff⟩ := htyped.step hlives hstep
      exact ⟨htyped', hiff.mpr hspared⟩
    exact hrun.invariant hinit hkeep
  refine ⟨fun s hs => (hrun s hs).2, fun s a s' hs hstep hbreak hlives => ?_⟩
  obtain ⟨htyped, hlives'⟩ := hrun s hs
  exact hbreak ((htyped.step hlives' hstep).2.mp hlives)

/-- A recursive mutex that the first thread has set up. -/
def recursiveMutex : OSMutex := pthreadMutexInit ⟨0, 0, 0, 0, 0⟩ 1 (some 2)

theorem recursiveMutex_setUp : SetUp twoThreads recursiveMutex :=
  .init _ 0 (some 2) (by simp [Supported, mutexRecursive])

/-- The second thread locks it. -/
theorem lock_kills :
    ∃ s, Reaches (Step twoThreads) (start recursiveMutex) s ∧ ¬ Lives s := by
  have hrun : ((twoThreads.execAll (fun _ _ => True) (start recursiveMutex)
      ((1, .callLock) :: List.replicate 5 (1, .go))).map fun s => s.pc 1) =
      some (.halted .lock
        "pthread_mutex_lock: PTHREAD_MUTEX_RECURSIVE locking nonowned mutex") := by decide
  obtain ⟨s, hs, hpc⟩ := Option.map_eq_some_iff.mp hrun
  refine ⟨s, run_of_execAll rfl hs, fun hlives => hlives 1 ?_⟩
  rw [hpc]
  trivial

instance (t : T) (m : OSMutex) (pc : Pc) : Decidable (Spares w t m pc) :=
  decidable_of_iff ((pc = .sigErrorcheck → m.sig ≠ w.errorcheckSigInit) ∧
    (pc = .lockOwner → m.owner = w.pid t) ∧ (pc = .unlockOwner true → m.owner = w.pid t))
    ⟨fun h => ⟨h.1, h.2.1, h.2.2⟩, fun h => ⟨h.sig, h.lock, h.unlock⟩⟩

instance (s : State T) (a : T × Move) : Decidable (Spared w s a) :=
  inferInstanceAs (Decidable (Spares _ _ _ _))

/-- The first thread locks it. -/
theorem lives_sample :
    ∃ s, Run (Step twoThreads) (Spared twoThreads) (start recursiveMutex) s ∧
      s.surplus 0 = 1 ∧ Lives s := by
  have hrun : ((twoThreads.execAll (Spared twoThreads) (start recursiveMutex)
      ((0, .callLock) :: List.replicate 12 (0, .go))).map fun s => s.surplus 0) = some 1 := by
    decide
  obtain ⟨s, hs, hsurplus⟩ := Option.map_eq_some_iff.mp hrun
  have hguarded := run_of_execAll rfl hs
  exact ⟨s, hguarded, hsurplus, (lives_iff_spared recursiveMutex_setUp).1 s hguarded⟩

end LibSystem.Core.Mutex
