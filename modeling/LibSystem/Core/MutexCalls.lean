import LibSystem.Core.Mutex
import LibSystem.LowLevelLock
import LibSystem.Observe

/-!
# What a program sees of a mutex

The calls of `pthread_mutex_lock` and `pthread_mutex_unlock` on one mutex, by any number of threads,
with the low level lock of `LowLevelLock.c` below them.
-/

namespace LibSystem.Core.Mutex

open LowLevelLock (compareAndExchange)

/-- In a function of `OSThread.c`, or in one of the low level lock and where the call comes back
to. -/
inductive Place where
  | body (pc : Pc)
  | low (which : Lock) (pc : LowLevelLock.Pc) (next : Pc)
  deriving DecidableEq

inductive Event where
  | lock
  | unlock
  | returns (result : Word)
  /-- The kernel puts the thread to sleep. -/
  | waits
  | halts (message : String)
  deriving DecidableEq

/-- Where a call begins. -/
def Event.entry : Event → Option Pc
  | .lock => some .sigNormal
  | .unlock => some (.unlockType false)
  | _ => none

structure Shared where
  mutex : OSMutex
  recursiveOpLock : Word
  halted : Bool

def Shared.word (m : Shared) : Lock → Word
  | .own => m.mutex.lll
  | .recursiveOp => m.recursiveOpLock

def Shared.setWord (m : Shared) (which : Lock) (word : Word) : Shared :=
  match which with
  | .own => { m with mutex := { m.mutex with lll := word } }
  | .recursiveOp => { m with recursiveOpLock := word }

/-- `lll_trylock` is one compare and exchange. -/
def Shared.act (m : Shared) : Act → Shared × Place
  | .go mutex pc => ({ m with mutex := mutex }, .body pc)
  | .lock which pc => (m, .low which .lockCas pc)
  | .trylock pc =>
    let (old, word) := compareAndExchange m.mutex.lll.toInt 1 0
    (m.setWord .own (BitVec.ofInt 32 word), .body (pc (BitVec.ofInt 32 old)))
  | .unlock which pc => (m, .low which .exchangeLoad pc)

/-- The place after a step of the low level lock, which may be its last one. -/
def Place.after (which : Lock) (next : Pc) (pc : LowLevelLock.Pc) : Place :=
  if pc = .holds ∨ pc = .idle then .body next else .low which pc next

def seen (pc : LowLevelLock.Pc) : Option Event := if pc = .asleep then some .waits else none

variable {T : Type}

/-- A step of a thread that is in a call. A sleeping one takes none, and waking takes two. -/
def Platform.turn (w : Platform T) (t : T) (m : Shared) :
    Place → Option (Option Event × Shared × Place)
  | .body (.lockReturn result) => some (some (.returns result), m, .body .idle)
  | .body (.unlockReturn result) => some (some (.returns result), m, .body .idle)
  | .body (.halted _ message) =>
    some (some (.halts message), { m with halted := true }, .body .idle)
  | .body pc => (w.act t m.mutex pc).map fun a => (none, m.act a)
  | .low which pc next =>
    (LowLevelLock.advance (m.word which).toInt pc).map fun r =>
      (seen r.1, m.setWord which (BitVec.ofInt 32 r.2), .after which next r.1)

structure Process (T : Type) where
  shared : Shared
  place : T → Place

def boot (mutex : OSMutex) : Process T := ⟨⟨mutex, 0, false⟩, fun _ => .body .idle⟩

variable [DecidableEq T]

def Process.put (s : Process T) (t : T) (p : Place) : Process T :=
  { s with place := Function.update s.place t p }

/-- The low level lock is the one of the source, whatever the platform has. -/
inductive Moves (w : Platform T) (s : Process T) : Option (T × Event) → Process T → Prop where
  | call {t : T} {e : Event} {pc : Pc} (hlive : s.shared.halted = false)
      (ht : s.place t = .body .idle) (he : e.entry = some pc) :
      Moves w s (some (t, e)) (s.put t (.body pc))
  | turn {t : T} {o : Option Event} {m : Shared} {p : Place} (hlive : s.shared.halted = false)
      (h : w.turn t s.shared (s.place t) = some (o, m, p)) :
      Moves w s (o.map (Prod.mk t)) ⟨m, Function.update s.place t p⟩
  | wakeOne {t u : T} {which : Lock} {next next' : Pc} (hlive : s.shared.halted = false)
      (ht : s.place t = .low which .futexWake next)
      (hu : s.place u = .low which .asleep next') :
      Moves w s none ((s.put u (.low which .waitCas20 next')).put t (.body next))
  | wakeNone {t : T} {which : Lock} {next : Pc} (hlive : s.shared.halted = false)
      (ht : s.place t = .low which .futexWake next)
      (hnone : ∀ u next', s.place u ≠ .low which .asleep next') :
      Moves w s none (s.put t (.body next))

/-! ## Invariants of the places -/

section

variable {w : Platform T} {s s' : Process T} {t u : T} {m m' : Shared} {p p' : Place}
  {o : Option Event} {o' : Option (T × Event)} {I : OSMutex → Pc → Prop}

/-- The place in the functions of `OSThread.c` that a call of the low level lock comes back to. -/
def Place.pc : Place → Pc
  | .body pc => pc
  | .low _ _ next => next

/-- The places that a step may lead to. -/
def Act.To : Act → Pc → Prop
  | .go _ pc', pc => pc = pc'
  | .lock _ pc', pc => pc = pc'
  | .trylock f, pc => ∃ result, pc = f result
  | .unlock _ pc', pc => pc = pc'

def Act.mutex (m : OSMutex) : Act → OSMutex
  | .go m' _ => m'
  | _ => m

/-- What is kept by the steps of a thread, of the mutex and of all places. -/
structure Kept (w : Platform T) (I : OSMutex → Pc → Prop) : Prop where
  act : ∀ {t m pc a}, I m pc → w.act t m pc = some a →
    (∀ pc', a.To pc' → I (a.mutex m) pc') ∧ ∀ pc', I m pc' → I (a.mutex m) pc'
  lll : ∀ {m pc} word, I m pc → I { m with lll := word } pc
  idle : ∀ {m pc}, I m pc → I m .idle
  entry : ∀ {m e pc}, I m .idle → Event.entry e = some pc → I m pc

def Process.Meets (s : Process T) (I : OSMutex → Pc → Prop) : Prop :=
  ∀ t, I s.shared.mutex (s.place t).pc

omit [DecidableEq T] in
theorem turn_go {pc pc' : Pc} {mutex : OSMutex} (h : w.act t m.mutex pc = some (.go mutex pc')) :
    w.turn t m (.body pc) = some (none, { m with mutex := mutex }, .body pc') := by
  cases pc
  case lockReturn => simp [Platform.act] at h
  case unlockReturn => simp [Platform.act] at h
  case halted => simp [Platform.act] at h
  all_goals exact congrArg (Option.map fun a => (none, m.act a)) h

omit [DecidableEq T] in
theorem Kept.setWord (h : Kept w I) (which : Lock) (word : Word) {pc : Pc} (hpc : I m.mutex pc) :
    I (m.setWord which word).mutex pc := by
  cases which with
  | own => exact h.lll word hpc
  | recursiveOp => exact hpc

omit [DecidableEq T] in
theorem Kept.doAct (h : Kept w I) {pc : Pc} {a : Act} (hpc : I m.mutex pc)
    (hact : w.act t m.mutex pc = some a) :
    I (m.act a).1.mutex (m.act a).2.pc ∧
      ∀ pc', I m.mutex pc' → I (m.act a).1.mutex pc' := by
  obtain ⟨hto, hother⟩ := h.act hpc hact
  cases a with
  | go mutex pc1 => exact ⟨hto pc1 rfl, hother⟩
  | lock which pc1 => exact ⟨hto pc1 rfl, hother⟩
  | trylock f => exact ⟨h.setWord .own _ (hto _ ⟨_, rfl⟩), fun pc' hpc' => h.setWord .own _ hpc'⟩
  | unlock which pc1 => exact ⟨hto pc1 rfl, hother⟩

theorem after_pc (which : Lock) (next : Pc) (pc : LowLevelLock.Pc) :
    (Place.after which next pc).pc = next := by
  unfold Place.after
  split <;> rfl

omit [DecidableEq T] in
theorem Kept.turn (h : Kept w I) (hp : I m.mutex p.pc) (hturn : w.turn t m p = some (o, m', p')) :
    I m'.mutex p'.pc ∧ ∀ pc, I m.mutex pc → I m'.mutex pc := by
  unfold Platform.turn at hturn
  split at hturn
  case h_1 | h_2 | h_3 =>
    -- The call is over.
    obtain ⟨-, rfl, rfl⟩ := by simpa using hturn
    exact ⟨h.idle hp, fun pc hpc => hpc⟩
  · obtain ⟨a, hact, heq⟩ := Option.map_eq_some_iff.mp hturn
    have hafter := h.doAct hp hact
    rwa [(Prod.mk.inj heq).2] at hafter
  · obtain ⟨r, -, heq⟩ := Option.map_eq_some_iff.mp hturn
    obtain ⟨-, rfl, rfl⟩ := by simpa using heq
    rw [after_pc]
    exact ⟨h.setWord _ _ hp, fun pc hpc => h.setWord _ _ hpc⟩

theorem Process.Meets.put (h : s.Meets I) (hp : I s.shared.mutex p.pc) : (s.put t p).Meets I := by
  intro u
  show I s.shared.mutex (Function.update s.place t p u).pc
  rcases Decidable.em (u = t) with rfl | hne
  · rwa [Function.update_self]
  · rw [Function.update_of_ne hne]
    exact h u

theorem Process.Meets.step (h : s.Meets I) (hkept : Kept w I) (hmove : Moves w s o' s') :
    s'.Meets I := by
  cases hmove with
  | @call t e pc hlive ht he =>
    refine h.put (hkept.entry ?_ he)
    have hidle := h t
    rwa [ht] at hidle
  | @turn t o m p hlive hturn =>
    obtain ⟨hp, hother⟩ := hkept.turn (h t) hturn
    intro u
    show I m.mutex (Function.update s.place t p u).pc
    rcases Decidable.em (u = t) with rfl | hne
    · rwa [Function.update_self]
    · rw [Function.update_of_ne hne]
      exact hother _ (h u)
  | @wakeOne t u which next next' hlive ht hu =>
    have htp := h t
    have hup := h u
    rw [ht] at htp
    rw [hu] at hup
    exact Process.Meets.put (h.put hup) htp
  | @wakeNone t which next hlive ht hnone =>
    have htp := h t
    rw [ht] at htp
    exact h.put htp

omit [DecidableEq T] in
theorem meets_boot (mutex : OSMutex) (h : I mutex .idle) : (boot mutex : Process T).Meets I :=
  fun _ => h

end

/-! ## Mutexes that differ in what is not looked at -/

section

variable {w : Platform T} {s s' : Process T} {t : T} {m : Shared} {p : Place} {pc : Pc}
  {f : OSMutex → OSMutex} {o : Option (T × Event)} {I : OSMutex → Pc → Prop}

def Act.map (f : OSMutex → OSMutex) : Act → Act
  | .go m pc => .go (f m) pc
  | a => a

def Shared.map (f : OSMutex → OSMutex) (m : Shared) : Shared := { m with mutex := f m.mutex }

def Process.map (f : OSMutex → OSMutex) (s : Process T) : Process T :=
  { s with shared := s.shared.map f }

/-- Other fields are changed than the word of the low level lock. -/
structure Beside (f : OSMutex → OSMutex) : Prop where
  lll : ∀ m, (f m).lll = m.lll
  setLll : ∀ m word, f { m with lll := word } = { f m with lll := word }

theorem Beside.setWord (h : Beside f) (which : Lock) (word : Word) :
    (m.map f).setWord which word = (m.setWord which word).map f := by
  cases which with
  | own =>
    have hset := (h.setLll m.mutex word).symm
    exact congrArg (fun mutex => Shared.mk mutex m.recursiveOpLock m.halted) hset
  | recursiveOp => rfl

theorem Beside.word (h : Beside f) (which : Lock) : (m.map f).word which = m.word which := by
  cases which with
  | own => exact h.lll _
  | recursiveOp => rfl

theorem Beside.doAct (h : Beside f) (a : Act) :
    (m.map f).act (a.map f) = ((m.act a).1.map f, (m.act a).2) := by
  cases a with
  | trylock g =>
    have hlll : (m.map f).mutex.lll = m.mutex.lll := h.lll _
    simp only [Act.map, Shared.act, hlll, h.setWord]
  | _ => rfl

omit [DecidableEq T] in
theorem Beside.turn (h : Beside f)
    (hact : ∀ pc, p = .body pc → w.act t (f m.mutex) pc = (w.act t m.mutex pc).map (Act.map f)) :
    w.turn t (m.map f) p = (w.turn t m p).map fun r => (r.1, r.2.1.map f, r.2.2) := by
  unfold Platform.turn
  split
  · rfl
  · rfl
  · rfl
  · rename_i pc _ _ _
    have hpc : w.act t (m.map f).mutex pc = (w.act t m.mutex pc).map (Act.map f) := hact pc rfl
    rw [hpc, Option.map_map, Option.map_map]
    refine congrArg (Option.map · _) (funext fun a => ?_)
    simp only [Function.comp_apply, h.doAct]
  · rw [h.word, Option.map_map]
    refine congrArg (Option.map · _) (funext fun r => ?_)
    simp only [Function.comp_apply, h.setWord]

theorem Beside.move (h : Beside f)
    (hact : ∀ t m pc, I m pc → w.act t (f m) pc = (w.act t m pc).map (Act.map f))
    (hs : s.Meets I) (hmove : Moves w s o s') : Moves w (s.map f) o (s'.map f) := by
  cases hmove with
  | @call t e pc hlive ht he => exact .call hlive ht he
  | @turn t o m p hlive hturn =>
    have hsame := h.turn (w := w) (t := t) (m := s.shared) (p := s.place t) fun pc hpc => by
      have hmeets := hs t
      rw [hpc] at hmeets
      exact hact t _ pc hmeets
    rw [hturn] at hsame
    exact .turn (s := s.map f) hlive hsame
  | @wakeOne t u which next next' hlive ht hu => exact .wakeOne (s := s.map f) hlive ht hu
  | @wakeNone t which next hlive ht hnone => exact .wakeNone (s := s.map f) hlive ht hnone

/-- **What a change of the mutex shows.** Nothing, if the steps do not look at what is changed. -/
theorem Beside.observes (h : Beside f) (hkept : Kept w I)
    (hact : ∀ t m pc, I m pc → w.act t (f m) pc = (w.act t m pc).map (Act.map f))
    {mutex : OSMutex} (hmutex : I mutex .idle) {l : List (T × Event)}
    (hl : Observes (Moves w) (boot mutex) l) : Observes (Moves w) (boot (f mutex)) l := by
  have hsim : Simulates (Moves w) fun s t => s.Meets I ∧ t = s.map f := by
    rintro s _ o s' ⟨hs, rfl⟩ hmove
    exact ⟨s'.map f, .inr ⟨s.map f, .refl, h.move hact hs hmove⟩, hs.step hkept hmove, rfl⟩
  exact hsim.observes ⟨meets_boot mutex hmutex, rfl⟩ hl

end

/-! ## The signature -/

section

variable {w : Platform T}

omit [DecidableEq T]

/-- The static initializers that `_OSProcessMutexSignal` looks for. -/
inductive Initializer where
  | normal
  | recursive
  | errorcheck
  deriving DecidableEq

/-- The branch that `_OSProcessMutexSignal` takes. -/
def Platform.initializer (w : Platform T) (sig : Word) : Option Initializer :=
  if sig = mutexSigInit then some .normal
  else if sig = w.recursiveSigInit then some .recursive
  else if sig = w.errorcheckSigInit then some .errorcheck
  else none

section

variable {sig : Word}

theorem initializer_normal (h : sig = mutexSigInit) : w.initializer sig = some .normal := if_pos h

theorem initializer_recursive (hnormal : sig ≠ mutexSigInit) (h : sig = w.recursiveSigInit) :
    w.initializer sig = some .recursive := by
  unfold Platform.initializer
  rw [if_neg hnormal, if_pos h]

theorem initializer_errorcheck (hnormal : sig ≠ mutexSigInit)
    (hrecursive : sig ≠ w.recursiveSigInit) (h : sig = w.errorcheckSigInit) :
    w.initializer sig = some .errorcheck := by
  unfold Platform.initializer
  rw [if_neg hnormal, if_neg hrecursive, if_pos h]

theorem initializer_none (hnormal : sig ≠ mutexSigInit) (hrecursive : sig ≠ w.recursiveSigInit)
    (herrorcheck : sig ≠ w.errorcheckSigInit) : w.initializer sig = none := by
  unfold Platform.initializer
  rw [if_neg hnormal, if_neg hrecursive, if_neg herrorcheck]

end

theorem initializer_zero : w.initializer 0 = none := by
  have hnormal : (0 : Word) ≠ mutexSigInit := by decide
  exact initializer_none hnormal w.recursive_ne_zero.symm w.errorcheck_ne_zero.symm

def Platform.signature (w : Platform T) : Initializer → Word
  | .normal => mutexSigInit
  | .recursive => w.recursiveSigInit
  | .errorcheck => w.errorcheckSigInit

theorem eq_signature {sig : Word} {initializer : Initializer}
    (h : w.initializer sig = some initializer) : sig = w.signature initializer := by
  unfold Platform.initializer at h
  split at h
  · obtain rfl := Option.some.inj h
    assumption
  split at h
  · obtain rfl := Option.some.inj h
    assumption
  split at h
  · obtain rfl := Option.some.inj h
    assumption
  · simp at h

theorem initializer_inj {sig sig' : Word} {initializer : Initializer}
    (h : w.initializer sig = some initializer) (h' : w.initializer sig' = some initializer) :
    sig = sig' := (eq_signature h).trans (eq_signature h').symm

end

end LibSystem.Core.Mutex
