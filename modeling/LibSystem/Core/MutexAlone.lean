import LibSystem.Core.MutexCalls

/-!
# Calls that nobody comes between

What one thread sees of `pthread_mutex_lock` and `pthread_mutex_unlock` while the others are outside
of them.
-/

namespace LibSystem.Core.Mutex

open LowLevelLock (compareAndExchange)

variable {T : Type} [DecidableEq T]

/-- All other threads are outside of the two functions. -/
def alone (t : T) (m : Shared) (p : Place) : Process T :=
  ⟨m, Function.update (fun _ => .body .idle) t p⟩

variable {w : Platform T} {t u : T} {m m' m1 : Shared} {p p' p1 : Place} {e a : Event}
  {l : List (T × Event)} {which : Lock} {next pc : Pc}

@[simp] theorem alone_self : (alone t m p).place t = p := by simp [alone]

theorem alone_other (h : u ≠ t) : (alone t m p).place u = .body .idle := by simp [alone, h]

@[simp] theorem alone_shared : (alone t m p).shared = m := rfl

@[simp] theorem alone_put : (alone t m p).put t p' = alone t m p' := by
  simp [alone, Process.put]

theorem boot_eq (t : T) (mutex : OSMutex) :
    (boot mutex : Process T) = alone t ⟨mutex, 0, false⟩ (.body .idle) := by
  simp [boot, alone]

theorem alone_idle (t u : T) : alone t m (.body .idle) = alone u m (.body .idle) := by
  simp [alone]

theorem only_turn {o : Option Event} (hlive : m.halted = false)
    (h : w.turn t m p = some (o, m', p')) :
    Only (Moves w) (fun e => e.1 = t) (alone t m p) (o.map (Prod.mk t)) (alone t m' p') := by
  have hidle : p ≠ .body .idle := by
    rintro rfl
    simp [Platform.turn, Platform.act] at h
  have hwake : ∀ which next, p ≠ .low which .futexWake next := by
    rintro which next rfl
    simp [Platform.turn, LowLevelLock.advance] at h
  have hself : ∀ u q, (alone t m p).place u = q → q ≠ .body .idle → u = t := by
    intro u q hu hq
    by_contra hne
    exact hq (hu.symm.trans (alone_other hne))
  constructor
  · have hmove := Moves.turn (s := alone t m p) (w := w) (t := t) hlive (by simpa using h)
    simpa [alone] using hmove
  · intro o' s' hmove hseen
    cases hmove with
    | @call u e pc _ hu =>
      obtain rfl : u = t := hseen _ rfl
      exact absurd (by simpa using hu) hidle
    | @turn u o' m1 p1 _ hturn =>
      rcases Decidable.em (u = t) with rfl | hne
      · simp only [alone_self, alone_shared, h, Option.some.injEq, Prod.mk.injEq] at hturn
        obtain ⟨rfl, rfl, rfl⟩ := hturn
        simp [alone]
      · simp [alone_other hne, Platform.turn, Platform.act] at hturn
    | @wakeOne u v which next next' _ hu hv =>
      obtain rfl := hself u _ hu (by simp)
      exact absurd (by simpa using hu) (hwake which next)
    | @wakeNone u which next _ hu hnone =>
      obtain rfl := hself u _ hu (by simp)
      exact absurd (by simpa using hu) (hwake which next)

theorem only_call (hlive : m.halted = false) (he : e.entry = some pc) :
    Only (Moves w) (· = (t, e)) (alone t m (.body .idle)) (some (t, e)) (alone t m (.body pc)) := by
  have hidle : ∀ u, (alone t m (.body .idle)).place u = .body .idle := by
    intro u
    rw [alone_idle t u, alone_self]
  constructor
  · have hmove := Moves.call (s := alone t m (.body .idle)) (w := w) hlive (hidle t) he
    simpa using hmove
  · intro o s' hmove hseen
    cases hmove with
    | @call u e' pc' _ hu he' =>
      obtain ⟨rfl, rfl⟩ := Prod.mk.inj (hseen _ rfl)
      obtain rfl := Option.some.inj (he.symm.trans he')
      simp
    | @turn u o' m1 p1 _ hturn =>
      rw [hidle u] at hturn
      simp [Platform.turn, Platform.act] at hturn
    | @wakeOne u v which next next' _ hu hv =>
      rw [hidle u] at hu
      simp at hu
    | @wakeNone u which next _ hu hnone =>
      rw [hidle u] at hu
      simp at hu

theorem observes_call (hlive : m.halted = false) (he : e.entry = some pc) :
    Observes (Moves w) (alone t m (.body .idle)) ((t, e) :: l) ↔
      Observes (Moves w) (alone t m (.body pc)) l := by
  rw [(only_call hlive he).observes_event rfl]
  exact and_iff_right rfl

/-- The thread comes from one place to the other, alone and unseen. -/
abbrev Platform.Goes (w : Platform T) (t : T) (m : Shared) (p : Place) (m' : Shared) (p' : Place) :
    Prop :=
  Leads (Moves w) (fun e => e.1 = t) (alone t m p) (alone t m' p')

theorem goes_turn (hlive : m.halted = false) (h : w.turn t m p = some (none, m', p')) :
    w.Goes t m p m' p' := .single (only_turn hlive h)

theorem goes_observes (h : w.Goes t m p m' p') :
    Observes (Moves w) (alone t m p) ((t, e) :: l) ↔
      Observes (Moves w) (alone t m' p') ((t, e) :: l) := h.observes_iff rfl

theorem observes_seen (hgoes : w.Goes t m p m1 p1) (hlive : m1.halted = false)
    (h : w.turn t m1 p1 = some (some a, m', p')) :
    Observes (Moves w) (alone t m p) ((t, e) :: l) ↔
      e = a ∧ Observes (Moves w) (alone t m' p') l := by
  have hturn := only_turn hlive h
  rw [hgoes.observes_iff rfl, hturn.observes_event rfl, Prod.mk.injEq, and_iff_right rfl]

/-! ## The low level lock -/

section

variable {word : Word}

@[simp] theorem setWord_halted : (m.setWord which word).halted = m.halted := by cases which <;> rfl

@[simp] theorem setWord_word : (m.setWord which word).word which = word := by cases which <;> rfl

@[simp] theorem setWord_word_self : m.setWord which (m.word which) = m := by cases which <;> rfl

@[simp] theorem setWord_setWord {word' : Word} :
    (m.setWord which word).setWord which word' = m.setWord which word' := by cases which <;> rfl

end

theorem goes_free (hlive : m.halted = false) (h : m.word which = 0) :
    w.Goes t m (.low which .lockCas next) (m.setWord which 1) (.body next) := by
  refine goes_turn hlive ?_
  simp [Platform.turn, LowLevelLock.advance, compareAndExchange, h, seen, Place.after]

theorem goes_exchange (hlive : m.halted = false) :
    w.Goes t m (.low which .exchangeLoad next) (m.setWord which 0) (.body next) := by
  have hload : ∀ m : Shared, m.halted = false → w.Goes t m (.low which .exchangeLoad next) m
      (.low which (.exchangeCas (m.word which).toInt) next) := by
    intro m hlive
    refine goes_turn hlive ?_
    simp [Platform.turn, LowLevelLock.advance, seen, Place.after]
  have hzero : ∀ m : Shared, m.halted = false → m.word which = 0 →
      w.Goes t m (.low which .exchangeLoad next) (m.setWord which 0) (.body next) := by
    intro m hlive h
    refine (hload m hlive).trans (goes_turn hlive ?_)
    simp [Platform.turn, LowLevelLock.advance, compareAndExchange, h, seen, Place.after]
  rcases Decidable.em (m.word which = 0) with h | h
  · exact hzero m hlive h
  have hne : (m.word which).toInt ≠ 0 := fun h0 => h (BitVec.toInt_inj.mp (by simpa using h0))
  have hclear : w.Goes t m (.low which (.exchangeCas (m.word which).toInt) next)
      (m.setWord which 0) (.low which .exchangeLoad next) := by
    refine goes_turn hlive ?_
    simp [Platform.turn, LowLevelLock.advance, compareAndExchange, hne, seen, Place.after]
  have hagain := hzero (m.setWord which 0) (by simpa using hlive) (by simp)
  rw [setWord_setWord] at hagain
  exact ((hload m hlive).trans hclear).trans hagain

theorem observes_held (hlive : m.halted = false) (h : m.word which = 1) :
    Observes (Moves w) (alone t m (.low which .lockCas next)) [(t, e)] ↔ e = .waits := by
  have hcas : w.Goes t m (.low which .lockCas next) m (.low which .waitCas21 next) := by
    refine goes_turn hlive ?_
    have hself : m.setWord which (m.word which) = m := setWord_word_self
    rw [h] at hself
    simpa [Platform.turn, LowLevelLock.advance, compareAndExchange, h, seen, Place.after]
      using hself
  have hmark : w.Goes t m (.low which .waitCas21 next) (m.setWord which 2)
      (.low which .futexWait next) := by
    refine goes_turn hlive ?_
    simp [Platform.turn, LowLevelLock.advance, compareAndExchange, h, seen, Place.after]
  have hsleep : w.turn t (m.setWord which 2) (.low which .futexWait next) =
      some (some .waits, m.setWord which 2, .low which .asleep next) := by
    simp [Platform.turn, LowLevelLock.advance, seen, Place.after]
  rw [observes_seen (hcas.trans hmark) (by simpa using hlive) hsleep]
  exact and_iff_left .nil

/-! ## Whole calls -/

section

omit [DecidableEq T]

/-- Where the branch goes on. -/
def signalled : Option Initializer → Pc
  | none => .lockType
  | some .normal => .setSig mutexNormal
  | some .recursive => .setSig mutexRecursive
  | some .errorcheck => .halted .lock "osprocessmutexsingal errorchceck"

/-- A recursive mutex after a lock by its owner. -/
def OSMutex.locked (mutex : OSMutex) : OSMutex :=
  { mutex with
    count := mutex.count + 1
    lll := if mutex.count + 1 = 1 then 1 else mutex.lll }

/-- It is unlocked by its owner, and the count was not 0. -/
def OSMutex.unlocked (mutex : OSMutex) : OSMutex :=
  { mutex with
    count := mutex.count - 1
    lll := if mutex.count = 1 then 0 else mutex.lll }

/-- What `_OSProcessMutexSignal` makes of a mutex if nobody comes between, unless it halts. -/
def Platform.processed (w : Platform T) (t : T) (mutex : OSMutex) : Option OSMutex :=
  match w.initializer mutex.sig with
  | none => some mutex
  | some .normal => some { mutex with sig := 0, owner := w.pid t, type := mutexNormal }
  | some .recursive => some { mutex with sig := 0, owner := w.pid t, type := mutexRecursive }
  | some .errorcheck => none

end

variable {mutex mutex' : OSMutex} {result : Word}

theorem goes_stores (type : Word) :
    w.Goes t ⟨mutex, 0, false⟩ (.body (.setSig type))
      ⟨{ mutex with sig := 0, owner := w.pid t, type := type }, 0, false⟩ (.body .lockType) := by
  have hsig : w.Goes t ⟨mutex, 0, false⟩ (.body (.setSig type))
      ⟨{ mutex with sig := 0 }, 0, false⟩ (.body (.setOwner type)) := goes_turn rfl rfl
  have howner : w.Goes t ⟨{ mutex with sig := 0 }, 0, false⟩ (.body (.setOwner type))
      ⟨{ mutex with sig := 0, owner := w.pid t }, 0, false⟩ (.body (.setType type)) :=
    goes_turn rfl rfl
  exact (hsig.trans howner).trans (goes_turn rfl rfl)

theorem goes_signal :
    w.Goes t ⟨mutex, 0, false⟩ (.body .sigNormal) ⟨mutex, 0, false⟩
      (.body (signalled (w.initializer mutex.sig))) := by
  have hnormal : w.Goes t ⟨mutex, 0, false⟩ (.body .sigNormal) ⟨mutex, 0, false⟩
      (.body (if mutex.sig = mutexSigInit then .setSig mutexNormal else .sigRecursive)) :=
    goes_turn rfl rfl
  have hrecursive : w.Goes t ⟨mutex, 0, false⟩ (.body .sigRecursive) ⟨mutex, 0, false⟩
      (.body (if mutex.sig = w.recursiveSigInit then .setSig mutexRecursive else .sigErrorcheck)) :=
    goes_turn rfl rfl
  have herrorcheck : w.Goes t ⟨mutex, 0, false⟩ (.body .sigErrorcheck) ⟨mutex, 0, false⟩
      (.body (if mutex.sig = w.errorcheckSigInit then
        .halted .lock "osprocessmutexsingal errorchceck" else .lockType)) := goes_turn rfl rfl
  split at hnormal
  · rename_i hsig
    rwa [initializer_normal hsig]
  rename_i hne
  split at hrecursive
  · rename_i hsig
    rw [initializer_recursive hne hsig]
    exact hnormal.trans hrecursive
  rename_i hne'
  split at herrorcheck
  · rename_i hsig
    rw [initializer_errorcheck hne hne' hsig]
    exact (hnormal.trans hrecursive).trans herrorcheck
  · rename_i hother
    rw [initializer_none hne hne' hother]
    exact (hnormal.trans hrecursive).trans herrorcheck

theorem goes_processed (h : w.processed t mutex = some mutex') :
    w.Goes t ⟨mutex, 0, false⟩ (.body .sigNormal) ⟨mutex', 0, false⟩ (.body .lockType) := by
  have hsignal : w.Goes t ⟨mutex, 0, false⟩ (.body .sigNormal) ⟨mutex, 0, false⟩ _ := goes_signal
  unfold Platform.processed at h
  split at h
  · rename_i hsig
    obtain rfl := Option.some.inj h
    rwa [hsig] at hsignal
  · rename_i hsig
    obtain rfl := Option.some.inj h
    rw [hsig] at hsignal
    exact hsignal.trans (goes_stores _)
  · rename_i hsig
    obtain rfl := Option.some.inj h
    rw [hsig] at hsignal
    exact hsignal.trans (goes_stores _)
  · simp at h

theorem goes_lockOpDone :
    w.Goes t ⟨mutex, 1, false⟩ (.body .lockOpDone) ⟨mutex, 0, false⟩ (.body (.lockReturn 0)) := by
  have hunlock : w.Goes t ⟨mutex, 1, false⟩ (.body .lockOpDone) ⟨mutex, 1, false⟩
      (.low .recursiveOp .exchangeLoad (.lockReturn 0)) := goes_turn rfl rfl
  exact hunlock.trans (goes_exchange rfl)

theorem goes_unlockOpDone :
    w.Goes t ⟨mutex, 1, false⟩ (.body (.unlockOpDone result)) ⟨mutex, 0, false⟩
      (.body (.unlockReturn result)) := by
  have hunlock : w.Goes t ⟨mutex, 1, false⟩ (.body (.unlockOpDone result)) ⟨mutex, 1, false⟩
      (.low .recursiveOp .exchangeLoad (.unlockReturn result)) := goes_turn rfl rfl
  exact hunlock.trans (goes_exchange rfl)

theorem observes_lock :
    Observes (Moves w) (boot mutex) ((t, .lock) :: l) ↔
      Observes (Moves w) (alone t ⟨mutex, 0, false⟩ (.body .sigNormal)) l := by
  rw [boot_eq t, observes_call rfl rfl]

theorem lock_errorcheck_initializer (h : w.initializer mutex.sig = some .errorcheck) :
    Observes (Moves w) (alone t ⟨mutex, 0, false⟩ (.body .sigNormal)) [(t, e)] ↔
      e = .halts "osprocessmutexsingal errorchceck" := by
  have hsignal : w.Goes t ⟨mutex, 0, false⟩ (.body .sigNormal) ⟨mutex, 0, false⟩ _ := goes_signal
  rw [h] at hsignal
  rw [observes_seen hsignal rfl rfl]
  exact and_iff_left .nil

section

variable (htype : mutex.type = mutexNormal)

include htype

theorem goes_lockNormal :
    w.Goes t ⟨mutex, 0, false⟩ (.body .lockType) ⟨mutex, 0, false⟩
      (.low .own .lockCas (.lockReturn 0)) := by
  have hswitch : w.Goes t ⟨mutex, 0, false⟩ (.body .lockType) ⟨mutex, 0, false⟩
      (.body .lockNormal) := by
    refine goes_turn rfl ?_
    simp [Platform.turn, Platform.act, Shared.act, htype]
  exact hswitch.trans (goes_turn rfl rfl)

theorem lockNormal_free (h : mutex.lll = 0) :
    Observes (Moves w) (alone t ⟨mutex, 0, false⟩ (.body .lockType)) ((t, e) :: l) ↔
      e = .returns 0 ∧ Observes (Moves w) (boot { mutex with lll := 1 }) l := by
  rw [observes_seen ((goes_lockNormal htype).trans (goes_free rfl h)) rfl rfl, boot_eq t]
  rfl

theorem lockNormal_held (h : mutex.lll = 1) :
    Observes (Moves w) (alone t ⟨mutex, 0, false⟩ (.body .lockType)) [(t, e)] ↔ e = .waits :=
  (goes_observes (goes_lockNormal htype)).trans (observes_held rfl h)

end

section

variable (htype : mutex.type = mutexRecursive)

include htype

theorem goes_lockRecursive :
    w.Goes t ⟨mutex, 0, false⟩ (.body .lockType) ⟨mutex, 0, false⟩ (.body .lockOwner) := by
  refine goes_turn rfl ?_
  simp [Platform.turn, Platform.act, Shared.act, htype, mutexRecursive, mutexNormal]

theorem lockRecursive_nonowned (h : mutex.owner ≠ w.pid t) :
    Observes (Moves w) (alone t ⟨mutex, 0, false⟩ (.body .lockType)) [(t, e)] ↔
      e = .halts "pthread_mutex_lock: PTHREAD_MUTEX_RECURSIVE locking nonowned mutex" := by
  have howner : w.Goes t ⟨mutex, 0, false⟩ (.body .lockOwner) ⟨mutex, 0, false⟩ _ :=
    goes_turn rfl rfl
  rw [if_neg h] at howner
  rw [observes_seen ((goes_lockRecursive htype).trans howner) rfl rfl]
  exact and_iff_left .nil

variable (howner : mutex.owner = w.pid t)

include howner

theorem lockRecursive_owned (h : mutex.count + 1 = 1 → mutex.lll = 0) :
    Observes (Moves w) (alone t ⟨mutex, 0, false⟩ (.body .lockType)) ((t, e) :: l) ↔
      e = .returns 0 ∧ Observes (Moves w) (boot mutex.locked) l := by
  have hop : w.Goes t ⟨mutex, 0, false⟩ (.body .lockType) ⟨mutex, 0, false⟩
      (.low .recursiveOp .lockCas .lockLoad) := by
    have hcheck : w.Goes t ⟨mutex, 0, false⟩ (.body .lockOwner) ⟨mutex, 0, false⟩ _ :=
      goes_turn rfl rfl
    rw [if_pos howner] at hcheck
    exact ((goes_lockRecursive htype).trans hcheck).trans (goes_turn rfl rfl)
  have hcount : w.Goes t ⟨mutex, 1, false⟩ (.body .lockLoad)
      ⟨{ mutex with count := mutex.count + 1 }, 1, false⟩ (.body .lockFirst) :=
    (goes_turn rfl rfl).trans (goes_turn rfl rfl)
  have hinner : w.Goes t ⟨{ mutex with count := mutex.count + 1 }, 1, false⟩ (.body .lockFirst)
      ⟨mutex.locked, 1, false⟩ (.body .lockOpDone) := by
    unfold OSMutex.locked
    have hfirst : w.Goes t ⟨{ mutex with count := mutex.count + 1 }, 1, false⟩ (.body .lockFirst)
        ⟨{ mutex with count := mutex.count + 1 }, 1, false⟩ _ := goes_turn rfl rfl
    split
    · rename_i hone
      rw [if_pos hone] at hfirst
      exact (hfirst.trans (goes_turn rfl rfl)).trans (goes_free rfl (h hone))
    · rename_i hone
      rwa [if_neg hone] at hfirst
  have hgoes := (((hop.trans (goes_free rfl rfl)).trans hcount).trans hinner).trans goes_lockOpDone
  rw [observes_seen hgoes rfl rfl, boot_eq t]

theorem goes_unlockZero :
    w.Goes t ⟨mutex, 0, false⟩ (.body (.unlockType false)) ⟨mutex, 1, false⟩
      (.body (if mutex.count = 0 then .unlockOpDone (-eperm) else .unlockOne)) := by
  have hswitch : w.Goes t ⟨mutex, 0, false⟩ (.body (.unlockType false)) ⟨mutex, 0, false⟩
      (.body (.unlockOwner false)) := by
    refine goes_turn rfl ?_
    simp [Platform.turn, Platform.act, Shared.act, htype, mutexRecursive, mutexNormal]
  have hop : w.Goes t ⟨mutex, 0, false⟩ (.body (.unlockOwner false)) ⟨mutex, 0, false⟩
      (.low .recursiveOp .lockCas .unlockZero) := by
    have hcheck : w.Goes t ⟨mutex, 0, false⟩ (.body (.unlockOwner false)) ⟨mutex, 0, false⟩ _ :=
      goes_turn rfl rfl
    rw [if_pos howner] at hcheck
    exact hcheck.trans (goes_turn rfl rfl)
  exact ((hswitch.trans hop).trans (goes_free rfl rfl)).trans (goes_turn rfl rfl)

theorem unlockRecursive_zero (h : mutex.count = 0) :
    Observes (Moves w) (boot mutex) ((t, .unlock) :: (t, e) :: l) ↔
      e = .returns (-eperm) ∧ Observes (Moves w) (boot mutex) l := by
  have hzero := goes_unlockZero htype howner
  rw [if_pos h] at hzero
  rw [boot_eq t, observes_call rfl rfl, observes_seen (hzero.trans goes_unlockOpDone) rfl rfl]

theorem unlockRecursive_pos (h : mutex.count ≠ 0) :
    Observes (Moves w) (boot mutex) ((t, .unlock) :: (t, e) :: l) ↔
      e = .returns 0 ∧ Observes (Moves w) (boot mutex.unlocked) l := by
  have hzero := goes_unlockZero htype howner
  rw [if_neg h] at hzero
  have hinner : w.Goes t ⟨mutex, 1, false⟩ (.body .unlockOne)
      ⟨{ mutex with lll := if mutex.count = 1 then 0 else mutex.lll }, 1, false⟩
      (.body .unlockLoad) := by
    have hone : w.Goes t ⟨mutex, 1, false⟩ (.body .unlockOne) ⟨mutex, 1, false⟩ _ :=
      goes_turn rfl rfl
    split
    · rename_i hcount
      rw [if_pos hcount] at hone
      exact (hone.trans (goes_turn rfl rfl)).trans (goes_exchange rfl)
    · rename_i hcount
      rwa [if_neg hcount] at hone
  have hcount : w.Goes t
      ⟨{ mutex with lll := if mutex.count = 1 then 0 else mutex.lll }, 1, false⟩ (.body .unlockLoad)
      ⟨mutex.unlocked, 1, false⟩ (.body (.unlockOpDone 0)) :=
    (goes_turn rfl rfl).trans (goes_turn rfl rfl)
  rw [boot_eq t, observes_call rfl rfl,
    observes_seen (((hzero.trans hinner).trans hcount).trans goes_unlockOpDone) rfl rfl, boot_eq t]

end

section

variable (htype : mutex.type = mutexErrorcheck)

include htype

theorem goes_lockTry (old word : Word) (hold : old = mutex.lll)
    (hword : word = if mutex.lll = 0 then 1 else mutex.lll) :
    w.Goes t ⟨mutex, 0, false⟩ (.body .lockType) ⟨{ mutex with lll := word }, 0, false⟩
      (.body (.lockReturn (if old ≠ 0 ∧ mutex.owner = w.pid t then -edeadlk else 0))) := by
  have hswitch : w.Goes t ⟨mutex, 0, false⟩ (.body .lockType) ⟨mutex, 0, false⟩
      (.body .lockTry) := by
    refine goes_turn rfl ?_
    simp [Platform.turn, Platform.act, Shared.act, htype, mutexRecursive, mutexNormal,
      mutexErrorcheck]
  have htry : w.Goes t ⟨mutex, 0, false⟩ (.body .lockTry) ⟨{ mutex with lll := word }, 0, false⟩
      (.body (.lockTried old)) := by
    refine goes_turn rfl ?_
    subst hold hword
    by_cases h : mutex.lll = 0
    · simp [Platform.turn, Platform.act, Shared.act, compareAndExchange, Shared.setWord, h]
    · have hne : mutex.lll.toInt ≠ 0 := fun h0 => h (BitVec.toInt_inj.mp (by simpa using h0))
      rw [if_neg h]
      simp [Platform.turn, Platform.act, Shared.act, compareAndExchange, Shared.setWord, hne]
  exact (hswitch.trans htry).trans (goes_turn rfl rfl)

theorem lockErrorcheck_free (h : mutex.lll = 0) :
    Observes (Moves w) (alone t ⟨mutex, 0, false⟩ (.body .lockType)) ((t, e) :: l) ↔
      e = .returns 0 ∧ Observes (Moves w) (boot { mutex with lll := 1 }) l := by
  have htry := goes_lockTry (w := w) (t := t) htype 0 1 h.symm (if_pos h).symm
  rw [observes_seen htry rfl rfl, boot_eq t]
  simp

theorem lockErrorcheck_held (h : mutex.lll = 1) (howner : mutex.owner = w.pid t) :
    Observes (Moves w) (alone t ⟨mutex, 0, false⟩ (.body .lockType)) [(t, e)] ↔
      e = .returns (-edeadlk) := by
  have htry := goes_lockTry (w := w) (t := t) htype 1 1 h.symm (by rw [h]; rfl)
  rw [observes_seen htry rfl rfl, if_pos ⟨by decide, howner⟩]
  exact and_iff_left .nil

end

theorem lock_unsupported (h : ¬ Supported mutex.type) :
    Observes (Moves w) (alone t ⟨mutex, 0, false⟩ (.body .lockType)) [(t, e)] ↔
      e = .halts "pthread_mutex_lock: Lock type %d not implemented" := by
  simp only [Supported, not_or] at h
  obtain ⟨hnormal, herrorcheck, hrecursive⟩ := h
  have hswitch : w.Goes t ⟨mutex, 0, false⟩ (.body .lockType) ⟨mutex, 0, false⟩ _ :=
    goes_turn rfl rfl
  rw [if_neg hnormal, if_neg hrecursive, if_neg herrorcheck] at hswitch
  rw [observes_seen hswitch rfl rfl]
  exact and_iff_left .nil

end LibSystem.Core.Mutex
