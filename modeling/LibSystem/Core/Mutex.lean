import LibSystem.Memory
import LibSystem.Run
import Mathlib.Logic.Function.Basic

/-!
# The mutexes

`pthread_mutex_init`, `pthread_mutex_lock` and `pthread_mutex_unlock` of `OSThread.c` on one mutex,
for any number of threads. A thread takes one step at each access to the mutex, and one for each
call of the low level lock.
-/

namespace LibSystem.Core.Mutex

/-- `_PTHREAD_MUTEX_SIG_init`. -/
def mutexSigInit : Word := 0x32AAABA7

def mutexNormal : Word := 0

def mutexErrorcheck : Word := 1

def mutexRecursive : Word := 2

def eperm : Word := 1

def edeadlk : Word := 11

structure OSMutex where
  sig : Word
  type : Word
  count : Word
  owner : Word
  lll : Word

/-- `tid` is the calling thread's, and `attr` the type in the attributes, if there are any. -/
def pthreadMutexInit (mutex : OSMutex) (tid : Word) (attr : Option Word) : OSMutex :=
  match attr with
  | none => { mutex with type := mutexNormal, count := 0, lll := 0, owner := tid }
  | some type => { mutex with type := type, lll := 0, owner := tid }

/-- What is halted. A thread that unlocks may have locked before. -/
inductive Function where
  | lock
  | unlock (locked : Bool)
  deriving DecidableEq

inductive Pc where
  | idle
  /-- The conditions in `_OSProcessMutexSignal`. -/
  | sigNormal
  | sigRecursive
  | sigErrorcheck
  /-- The stores behind them. -/
  | setSig (type : Word)
  | setOwner (type : Word)
  | setType (type : Word)
  /-- `pthread_mutex_lock`. -/
  | lockType
  | lockNormal
  | lockOwner
  | lockOp
  | lockLoad
  | lockStore (count : Word)
  | lockFirst
  | lockInner
  | lockOpDone
  | lockTry
  | lockTried (mtr : Word)
  | lockReturn (result : Word)
  /-- `pthread_mutex_unlock`. -/
  | unlockType (locked : Bool)
  | unlockLll
  | unlockOwner (locked : Bool)
  | unlockOp
  | unlockZero
  | unlockOne
  | unlockInner
  | unlockLoad
  | unlockStore (count : Word)
  | unlockOpDone (result : Word)
  | unlockReturn (result : Word)
  | halted (function : Function) (message : String)
  deriving DecidableEq

/-- `mutex->lll` or `recursive_op_lock`. -/
inductive Lock where
  | own
  | recursiveOp
  deriving DecidableEq

/-- A step: on the mutex, or a call of the low level lock. -/
inductive Act where
  | go (mutex : OSMutex) (pc : Pc)
  | lock (which : Lock) (pc : Pc)
  | trylock (pc : Word → Pc)
  | unlock (which : Lock) (pc : Pc)

/-- `lll_lock`, `lll_trylock` with its result, and `lll_unlock`, on a lock word. -/
structure LowLock where
  lock : Word → Word → Prop
  trylock : Word → Word → Word → Prop
  unlock : Word → Word → Prop

/-- A lock that is free at 0. -/
def idealLock : LowLock where
  lock word word' := word = 0 ∧ word' = 1
  trylock word result word' :=
    word = 0 ∧ result = 0 ∧ word' = 1 ∨ word ≠ 0 ∧ result ≠ 0 ∧ word' = word
  unlock _ word' := word' = 0

/-- The threads' pids, the signatures that the system's headers give the other two static
initializers, and the low level lock. -/
structure Platform (T : Type) where
  pid : T → Word
  recursiveSigInit : Word
  errorcheckSigInit : Word
  recursive_ne_zero : recursiveSigInit ≠ 0
  errorcheck_ne_zero : errorcheckSigInit ≠ 0
  lll : LowLock

variable {T : Type}

@[simp] def Platform.act (w : Platform T) (t : T) (m : OSMutex) : Pc → Option Act
  | .sigNormal =>
    some (.go m (if m.sig = mutexSigInit then .setSig mutexNormal else .sigRecursive))
  | .sigRecursive =>
    some (.go m (if m.sig = w.recursiveSigInit then .setSig mutexRecursive else .sigErrorcheck))
  | .sigErrorcheck =>
    some (.go m (if m.sig = w.errorcheckSigInit then
      .halted .lock "osprocessmutexsingal errorchceck" else .lockType))
  | .setSig type => some (.go { m with sig := 0 } (.setOwner type))
  | .setOwner type => some (.go { m with owner := w.pid t } (.setType type))
  | .setType type => some (.go { m with type := type } .lockType)
  | .lockType =>
    some (.go m (if m.type = mutexNormal then .lockNormal
      else if m.type = mutexRecursive then .lockOwner
      else if m.type = mutexErrorcheck then .lockTry
      else .halted .lock "pthread_mutex_lock: Lock type %d not implemented"))
  | .lockNormal => some (.lock .own (.lockReturn 0))
  | .lockOwner =>
    some (.go m (if m.owner = w.pid t then .lockOp
      else .halted .lock "pthread_mutex_lock: PTHREAD_MUTEX_RECURSIVE locking nonowned mutex"))
  | .lockOp => some (.lock .recursiveOp .lockLoad)
  | .lockLoad => some (.go m (.lockStore (m.count + 1)))
  | .lockStore count => some (.go { m with count := count } .lockFirst)
  | .lockFirst => some (.go m (if m.count = 1 then .lockInner else .lockOpDone))
  | .lockInner => some (.lock .own .lockOpDone)
  | .lockOpDone => some (.unlock .recursiveOp (.lockReturn 0))
  | .lockTry => some (.trylock .lockTried)
  | .lockTried mtr =>
    some (.go m (.lockReturn (if mtr ≠ 0 ∧ m.owner = w.pid t then -edeadlk else 0)))
  | .unlockType locked =>
    some (.go m (if m.type = mutexNormal then .unlockLll
      else if m.type = mutexRecursive then .unlockOwner locked
      else if m.type = mutexErrorcheck then .unlockLll
      else .halted (.unlock locked) "pthread_mutex_unlock: Lock type %d not implemented"))
  | .unlockLll => some (.unlock .own (.unlockReturn 0))
  | .unlockOwner locked =>
    some (.go m (if m.owner = w.pid t then .unlockOp
      else .halted (.unlock locked)
        "pthread_mutex_unlock: PTHREAD_MUTEX_RECURSIVE unlocking nonowned mutex"))
  | .unlockOp => some (.lock .recursiveOp .unlockZero)
  | .unlockZero => some (.go m (if m.count = 0 then .unlockOpDone (-eperm) else .unlockOne))
  | .unlockOne => some (.go m (if m.count = 1 then .unlockInner else .unlockLoad))
  | .unlockInner => some (.unlock .own .unlockLoad)
  | .unlockLoad => some (.go m (.unlockStore (m.count - 1)))
  | .unlockStore count => some (.go { m with count := count } (.unlockOpDone 0))
  | .unlockOpDone result => some (.unlock .recursiveOp (.unlockReturn result))
  | .idle | .lockReturn _ | .unlockReturn _ | .halted _ _ => none

/-- `surplus` is how many successful locks a thread has had more than unlocks. A lock counts when
it returns, an unlock when it is called. -/
structure State (T : Type) where
  mutex : OSMutex
  recursiveOpLock : Word
  pc : T → Pc
  surplus : T → Nat

def start (mutex : OSMutex) : State T := ⟨mutex, 0, fun _ => .idle, fun _ => 0⟩

def State.word (s : State T) : Lock → Word
  | .own => s.mutex.lll
  | .recursiveOp => s.recursiveOpLock

def State.setWord (s : State T) (which : Lock) (word : Word) : State T :=
  match which with
  | .own => { s with mutex := { s.mutex with lll := word } }
  | .recursiveOp => { s with recursiveOpLock := word }

variable [DecidableEq T]

def State.goto (s : State T) (t : T) (pc : Pc) : State T :=
  { s with pc := Function.update s.pc t pc }

def State.count (s : State T) (t : T) (surplus : Nat) : State T :=
  { s with surplus := Function.update s.surplus t surplus }

inductive Move where
  | callLock
  | callUnlock
  | go
  deriving DecidableEq

inductive Step (w : Platform T) (s : State T) : T × Move → State T → Prop where
  | callLock {t : T} (ht : s.pc t = .idle) : Step w s (t, .callLock) (s.goto t .sigNormal)
  | callUnlock {t : T} (ht : s.pc t = .idle) :
      Step w s (t, .callUnlock)
        ((s.count t (s.surplus t - 1)).goto t (.unlockType (0 < s.surplus t)))
  | go {t : T} {m : OSMutex} {pc : Pc} (h : w.act t s.mutex (s.pc t) = some (.go m pc)) :
      Step w s (t, .go) { s.goto t pc with mutex := m }
  | lock {t : T} {which : Lock} {pc : Pc} {word : Word}
      (h : w.act t s.mutex (s.pc t) = some (.lock which pc))
      (hlock : w.lll.lock (s.word which) word) :
      Step w s (t, .go) ((s.setWord which word).goto t pc)
  | trylock {t : T} {pc : Word → Pc} {result word : Word}
      (h : w.act t s.mutex (s.pc t) = some (.trylock pc))
      (hlock : w.lll.trylock s.mutex.lll result word) :
      Step w s (t, .go) ((s.setWord .own word).goto t (pc result))
  | unlock {t : T} {which : Lock} {pc : Pc} {word : Word}
      (h : w.act t s.mutex (s.pc t) = some (.unlock which pc))
      (hlock : w.lll.unlock (s.word which) word) :
      Step w s (t, .go) ((s.setWord which word).goto t pc)
  | lockReturns {t : T} {result : Word} (ht : s.pc t = .lockReturn result) :
      Step w s (t, .go)
        ((s.count t (if result = 0 then s.surplus t + 1 else s.surplus t)).goto t .idle)
  | unlockReturns {t : T} {result : Word} (ht : s.pc t = .unlockReturn result) :
      Step w s (t, .go) (s.goto t .idle)

/-! ## Running with the ideal lock -/

def Platform.execAct (s : State T) (t : T) : Act → Option (State T)
  | .go m pc => some { s.goto t pc with mutex := m }
  | .lock which pc => if s.word which = 0 then some ((s.setWord which 1).goto t pc) else none
  | .trylock pc =>
    if s.mutex.lll = 0 then some ((s.setWord .own 1).goto t (pc 0))
    else some ((s.setWord .own s.mutex.lll).goto t (pc 1))
  | .unlock which pc => some ((s.setWord which 0).goto t pc)

def Platform.exec (w : Platform T) (s : State T) : T × Move → Option (State T)
  | (t, .callLock) => if s.pc t = .idle then some (s.goto t .sigNormal) else none
  | (t, .callUnlock) =>
    if s.pc t = .idle then
      some ((s.count t (s.surplus t - 1)).goto t (.unlockType (0 < s.surplus t)))
    else none
  | (t, .go) =>
    match s.pc t with
    | .lockReturn result =>
      some ((s.count t (if result = 0 then s.surplus t + 1 else s.surplus t)).goto t .idle)
    | .unlockReturn _ => some (s.goto t .idle)
    | pc => (w.act t s.mutex pc).bind (execAct s t)

/-- The threads take steps in the given order, as long as they meet a guard. -/
def Platform.execAll (w : Platform T) (guard : State T → T × Move → Prop)
    [∀ s a, Decidable (guard s a)] (s : State T) : List (T × Move) → Option (State T)
  | [] => some s
  | a :: l => if guard s a then (w.exec s a).bind fun s' => execAll w guard s' l else none

theorem step_of_execAct {w : Platform T} (hw : w.lll = idealLock) {s s' : State T} {t : T} {a : Act}
    (hact : w.act t s.mutex (s.pc t) = some a) (h : Platform.execAct s t a = some s') :
    Step w s (t, .go) s' := by
  cases a with
  | go m pc =>
    obtain rfl := Option.some.inj h
    exact .go hact
  | lock which pc =>
    obtain ⟨hfree, h⟩ := Option.ite_none_right_eq_some.mp h
    obtain rfl := Option.some.inj h
    refine .lock hact ?_
    rw [hw]
    exact ⟨hfree, rfl⟩
  | trylock pc =>
    simp only [Platform.execAct] at h
    split at h
    · rename_i hfree
      obtain rfl := Option.some.inj h
      refine .trylock hact ?_
      rw [hw]
      exact .inl ⟨hfree, rfl, rfl⟩
    · rename_i hheld
      obtain rfl := Option.some.inj h
      refine .trylock hact ?_
      rw [hw]
      exact .inr ⟨hheld, by decide, rfl⟩
  | unlock which pc =>
    obtain rfl := Option.some.inj h
    refine .unlock hact ?_
    rw [hw]
    rfl

theorem step_of_exec {w : Platform T} (hw : w.lll = idealLock) {s s' : State T} {a : T × Move}
    (h : w.exec s a = some s') : Step w s a s' := by
  obtain ⟨t, mv⟩ := a
  cases mv with
  | callLock =>
    obtain ⟨hidle, h⟩ := Option.ite_none_right_eq_some.mp h
    obtain rfl := Option.some.inj h
    exact .callLock hidle
  | callUnlock =>
    obtain ⟨hidle, h⟩ := Option.ite_none_right_eq_some.mp h
    obtain rfl := Option.some.inj h
    exact .callUnlock hidle
  | go =>
    unfold Platform.exec at h
    dsimp only at h
    split at h
    · rename_i result hpc
      obtain rfl := Option.some.inj h
      exact .lockReturns hpc
    · rename_i result hpc
      obtain rfl := Option.some.inj h
      exact .unlockReturns hpc
    · obtain ⟨a, hact, h⟩ := Option.bind_eq_some_iff.mp h
      exact step_of_execAct hw hact h

theorem run_of_execAll {w : Platform T} (hw : w.lll = idealLock)
    {guard : State T → T × Move → Prop} [∀ s a, Decidable (guard s a)] {s s' : State T}
    {l : List (T × Move)} (h : w.execAll guard s l = some s') : Run (Step w) guard s s' := by
  induction l generalizing s with
  | nil =>
    obtain rfl := Option.some.inj h
    exact .refl
  | cons a l ih =>
    obtain ⟨hguard, h⟩ := Option.ite_none_right_eq_some.mp h
    obtain ⟨s1, hexec, h⟩ := Option.bind_eq_some_iff.mp h
    exact (Run.tail a .refl hguard (step_of_exec hw hexec)).trans (ih h)

/-! ## What a step changes -/

section

variable {s : State T} {t u : T} {which : Lock} {word : Word} {pc : Pc} {n : Nat}

@[simp] theorem goto_mutex : (s.goto t pc).mutex = s.mutex := rfl

@[simp] theorem goto_surplus : (s.goto t pc).surplus = s.surplus := rfl

@[simp] theorem goto_pc_same : (s.goto t pc).pc t = pc := Function.update_self _ _ _

@[simp] theorem goto_pc_other (h : u ≠ t) : (s.goto t pc).pc u = s.pc u :=
  Function.update_of_ne h _ _

@[simp] theorem count_mutex : (s.count t n).mutex = s.mutex := rfl

@[simp] theorem count_pc : (s.count t n).pc = s.pc := rfl

@[simp] theorem count_surplus_same : (s.count t n).surplus t = n := Function.update_self _ _ _

@[simp] theorem count_surplus_other (h : u ≠ t) : (s.count t n).surplus u = s.surplus u :=
  Function.update_of_ne h _ _

theorem setWord_goto_pc :
    ((s.setWord which word).goto t pc).pc = Function.update s.pc t pc := by
  cases which <;> rfl

omit [DecidableEq T]

@[simp] theorem setWord_pc : (s.setWord which word).pc = s.pc := by cases which <;> rfl

@[simp] theorem setWord_surplus : (s.setWord which word).surplus = s.surplus := by
  cases which <;> rfl

@[simp] theorem setWord_sig : (s.setWord which word).mutex.sig = s.mutex.sig := by
  cases which <;> rfl

@[simp] theorem setWord_type : (s.setWord which word).mutex.type = s.mutex.type := by
  cases which <;> rfl

@[simp] theorem setWord_owner : (s.setWord which word).mutex.owner = s.mutex.owner := by
  cases which <;> rfl

@[simp] theorem setWord_own : (s.setWord .own word).mutex.lll = word := rfl

@[simp] theorem setWord_recursiveOp : (s.setWord .recursiveOp word).mutex = s.mutex := rfl

end

def Supported (type : Word) : Prop :=
  type = mutexNormal ∨ type = mutexErrorcheck ∨ type = mutexRecursive

/-- Two threads over the ideal lock. -/
def twoThreads : Platform (Fin 2) where
  pid t := BitVec.ofNat 32 (t + 1)
  recursiveSigInit := 0x32AAABA2
  errorcheckSigInit := 0x32AAABA1
  recursive_ne_zero := by decide
  errorcheck_ne_zero := by decide
  lll := idealLock

end LibSystem.Core.Mutex
