import LibSystem.Core.MutexAlone
import LibSystem.Core.MutexStale

/-!
# What a fresh mutex remembers

`pthread_mutex_init` leaves `sig` as it was, and with attributes `count` as well.
-/

namespace LibSystem.Core.Mutex

variable {T : Type} [DecidableEq T] {w : Platform T} {i u : T} {m m' : OSMutex} {e : Event}
  {l : List (T × Event)}

/-- No sequence of calls tells them apart. -/
def Alike (w : Platform T) (m m' : OSMutex) : Prop :=
  ∀ l, Observes (Moves w) (boot m) l ↔ Observes (Moves w) (boot m') l

/-! ## Locking twice -/

/-- The last event of two calls of `pthread_mutex_lock` by the owner, or of the one that halts. -/
def lockAgain (type : Word) : Event :=
  if type = mutexNormal then .waits
  else if type = mutexRecursive then .returns 0
  else if type = mutexErrorcheck then .returns (-edeadlk)
  else .halts "pthread_mutex_lock: Lock type %d not implemented"

def Initializer.lockTwice : Initializer → Event
  | .normal => lockAgain mutexNormal
  | .recursive => lockAgain mutexRecursive
  | .errorcheck => .halts "osprocessmutexsingal errorchceck"

def Platform.lockTwice (w : Platform T) (type sig : Word) : Event :=
  match w.initializer sig with
  | none => lockAgain type
  | some initializer => initializer.lockTwice

/-- What the two calls show, from the first answer on. -/
def answers (i : T) : Event → List (T × Event)
  | .halts message => [(i, .halts message)]
  | e => [(i, .returns 0), (i, .lock), (i, e)]

omit [DecidableEq T] in
theorem processed_of_none (h : w.initializer m.sig = none) : w.processed i m = some m := by
  unfold Platform.processed
  rw [h]

theorem observes_halted {s : Process T} {message : String}
    (h : ∀ e, Observes (Moves w) s [(i, e)] ↔ e = .halts message) :
    Observes (Moves w) s (answers i e) ↔ e = .halts message := by
  have hother : ∀ e, (∀ message, e ≠ .halts message) →
      ¬ Observes (Moves w) s [(i, .returns 0), (i, .lock), (i, e)] := by
    intro e he hl
    have hfirst := (h _).mp (Observes.start (l := [(i, .returns 0)]) hl)
    simp at hfirst
  cases e with
  | halts message' => exact h _
  | _ => exact iff_of_false (hother _ (by simp)) (by simp)

theorem observes_returned {s : Process T} {a : Event}
    (hfirst : ∀ e l, Observes (Moves w) s ((i, e) :: l) ↔
      e = .returns 0 ∧ Observes (Moves w) (boot m) l)
    (hsecond : ∀ e, Observes (Moves w) (boot m) [(i, .lock), (i, e)] ↔ e = a)
    (ha : ∀ message, a ≠ .halts message) :
    Observes (Moves w) s (answers i e) ↔ e = a := by
  cases e with
  | halts message =>
    refine iff_of_false (fun hl => ?_) fun h => ha message h.symm
    have hreturns := ((hfirst _ _).mp hl).1
    simp at hreturns
  | _ =>
    rw [← hsecond]
    exact (hfirst _ _).trans (and_iff_right rfl)

theorem observes_again (hsig : w.initializer m.sig = none) (howner : m.owner = w.pid i)
    (hlll : m.lll = 0) :
    Observes (Moves w) (alone i ⟨m, 0, false⟩ (.body .lockType)) (answers i e) ↔
      e = lockAgain m.type := by
  have hlock : ∀ m' e, m'.sig = m.sig →
      (Observes (Moves w) (boot m') [(i, .lock), (i, e)] ↔
        Observes (Moves w) (alone i ⟨m', 0, false⟩ (.body .lockType)) [(i, e)]) := by
    intro m' e hsame
    rw [← hsame] at hsig
    exact observes_lock.trans (goes_observes (goes_processed (processed_of_none hsig)))
  unfold lockAgain
  split
  · rename_i htype
    refine observes_returned (fun e l => lockNormal_free htype hlll) (fun e => ?_) (by simp)
    exact (hlock { m with lll := 1 } e rfl).trans (lockNormal_held htype rfl)
  split
  · rename_i htype
    refine observes_returned (fun e l => lockRecursive_owned htype howner fun _ => hlll)
      (fun e => ?_) (by simp)
    have hfree : m.locked.count + 1 = 1 → m.locked.lll = 0 := by
      intro hcount
      have hzero : m.count + 1 = 0 := by simpa [OSMutex.locked] using hcount
      have hne : m.count + 1 ≠ 1 := by
        rw [hzero]
        decide
      exact (if_neg hne).trans hlll
    refine (hlock m.locked e rfl).trans ((lockRecursive_owned ?_ ?_ hfree).trans ?_)
    · exact htype
    · exact howner
    · exact and_iff_left .nil
  split
  · rename_i htype
    refine observes_returned (fun e l => lockErrorcheck_free htype hlll) (fun e => ?_) (by simp)
    exact (hlock { m with lll := 1 } e rfl).trans (lockErrorcheck_held htype rfl howner)
  · rename_i hnormal hrecursive herrorcheck
    refine observes_halted fun e => lock_unsupported ?_
    simp [Supported, hnormal, hrecursive, herrorcheck]

/-! ## Counting unlocks -/

/-- `n` unlocks that return 0, and one more. -/
def drain (i : T) : Nat → List (T × Event)
  | 0 => [(i, .unlock), (i, .returns (-eperm))]
  | n + 1 => (i, .unlock) :: (i, .returns 0) :: drain i n

theorem observes_drain (htype : m.type = mutexRecursive) (howner : m.owner = w.pid i) (n : Nat) :
    Observes (Moves w) (boot m) (drain i n) ↔ m.count.toNat = n := by
  have hne : (Event.returns (-eperm)) ≠ .returns 0 := by decide
  induction n generalizing m with
  | zero =>
    unfold drain
    rcases Decidable.em (m.count = 0) with hzero | hpos
    · rw [unlockRecursive_zero htype howner hzero, hzero]
      simp [Observes.nil]
    · rw [unlockRecursive_pos htype howner hpos]
      refine iff_of_false (fun h => hne h.1) fun h => hpos ?_
      exact BitVec.eq_of_toNat_eq h
  | succ n ih =>
    unfold drain
    rcases Decidable.em (m.count = 0) with hzero | hpos
    · rw [unlockRecursive_zero htype howner hzero, hzero]
      refine iff_of_false (fun h => hne h.1.symm) (by simp)
    · have hrest : Observes (Moves w) (boot m.unlocked) (drain i n) ↔
          (m.count - 1).toNat = n := ih htype howner
      rw [unlockRecursive_pos htype howner hpos, hrest, and_iff_right rfl]
      have hcount : m.count.toNat ≠ 0 := fun h => hpos (BitVec.eq_of_toNat_eq h)
      have hone : (m.count - 1).toNat = m.count.toNat - 1 := by
        bv_omega
      omega

/-! ## What an initialized mutex remembers -/

/-- The thread `i` has initialized it. -/
structure Fresh (w : Platform T) (i : T) (type : Word) (m : OSMutex) : Prop where
  type : m.type = type
  owner : m.owner = w.pid i
  lll : m.lll = 0

theorem Fresh.observes_lockTwice {type : Word} (h : Fresh w i type m) :
    Observes (Moves w) (boot m) ((i, .lock) :: answers i e) ↔ e = w.lockTwice type m.sig := by
  rw [observes_lock]
  have hgoes : ∀ {m'}, w.processed i m = some m' →
      (Observes (Moves w) (alone i ⟨m, 0, false⟩ (.body .sigNormal)) (answers i e) ↔
        Observes (Moves w) (alone i ⟨m', 0, false⟩ (.body .lockType)) (answers i e)) := by
    intro m' hm'
    cases e <;> exact goes_observes (goes_processed hm')
  unfold Platform.lockTwice
  unfold Platform.processed at hgoes
  cases hsig : w.initializer m.sig with
  | none =>
    rw [hsig] at hgoes
    rw [hgoes rfl, observes_again hsig h.owner h.lll, h.type]
  | some initializer =>
    rw [hsig] at hgoes
    cases initializer with
    | normal =>
      rw [hgoes rfl]
      exact observes_again initializer_zero rfl h.lll
    | recursive =>
      rw [hgoes rfl]
      exact observes_again initializer_zero rfl h.lll
    | errorcheck => exact observes_halted fun e => lock_errorcheck_initializer hsig

omit [DecidableEq T] in
theorem processed_recursive (h : w.initializer m.sig = some .recursive) :
    w.processed u m =
      some { m with sig := 0, owner := w.pid u, type := mutexRecursive } := by
  unfold Platform.processed
  rw [h]

theorem Fresh.observes_recursive {type : Word} (h : Fresh w i type m)
    (hsig : w.initializer m.sig = some .recursive) :
    Observes (Moves w) (boot m) ((u, .lock) :: (u, e) :: l) ↔ e = .returns 0 ∧
      Observes (Moves w)
        (boot { m with sig := 0, owner := w.pid u, type := mutexRecursive : OSMutex }.locked)
        l := by
  rw [observes_lock, goes_observes (goes_processed (processed_recursive hsig))]
  exact lockRecursive_owned rfl rfl fun _ => h.lll

theorem Fresh.observes_drain {type : Word} (h : Fresh w i type m)
    (hsig : w.initializer m.sig = some .recursive) (n : Nat) :
    Observes (Moves w) (boot m) ((i, .lock) :: (i, .returns 0) :: drain i n) ↔
      (m.count + 1).toNat = n := by
  rw [h.observes_recursive hsig, and_iff_right rfl]
  exact Mutex.observes_drain rfl rfl n

theorem Fresh.observes_nonowned (h : Fresh w i mutexRecursive m)
    (hsig : w.initializer m.sig = none) (hu : w.pid u ≠ w.pid i) :
    Observes (Moves w) (boot m) [(u, .lock), (u, e)] ↔
      e = .halts "pthread_mutex_lock: PTHREAD_MUTEX_RECURSIVE locking nonowned mutex" := by
  rw [observes_lock, goes_observes (goes_processed (processed_of_none hsig))]
  exact lockRecursive_nonowned h.type fun howner => hu (howner.symm.trans h.owner)

theorem lockAgain_eq_waits {type : Word} : lockAgain type = .waits ↔ type = mutexNormal := by
  unfold lockAgain
  (repeat' split) <;> simp_all

theorem lockAgain_eq_returns {type : Word} :
    lockAgain type = .returns 0 ↔ type = mutexRecursive := by
  have hedeadlk : -edeadlk ≠ 0 := by decide
  have hother : mutexNormal ≠ mutexRecursive := by decide
  unfold lockAgain
  (repeat' split) <;> simp_all

theorem lockAgain_ne {type : Word} :
    lockAgain type ≠ .halts "osprocessmutexsingal errorchceck" := by
  unfold lockAgain
  (repeat' split) <;> simp

section

variable {type : Word} (hm : Fresh w i type m) (hm' : Fresh w i type m') (h : Alike w m m')

include hm hm' h

theorem Alike.lockTwice_eq : w.lockTwice type m.sig = w.lockTwice type m'.sig :=
  hm'.observes_lockTwice.mp ((h _).mp (hm.observes_lockTwice.mpr rfl))

theorem Alike.harmless (hsig : w.initializer m.sig = none) : w.Harmless i type m'.sig := by
  have hsame := h.lockTwice_eq hm hm'
  unfold Platform.lockTwice at hsame
  rw [hsig] at hsame
  unfold Platform.Harmless
  cases hsig' : w.initializer m'.sig with
  | none => trivial
  | some initializer =>
    rw [hsig'] at hsame
    cases initializer with
    | normal => exact lockAgain_eq_waits.mp (hsame.trans (lockAgain_eq_waits.mpr rfl))
    | recursive =>
      obtain rfl : type = mutexRecursive :=
        lockAgain_eq_returns.mp (hsame.trans (lockAgain_eq_returns.mpr rfl))
      refine ⟨rfl, fun u => by_contra fun hu => ?_⟩
      have hhalts := (h _).mp ((hm.observes_nonowned hsig hu).mpr rfl)
      have hreturns := ((hm'.observes_recursive hsig').mp hhalts).1
      simp at hreturns
    | errorcheck => exact lockAgain_ne hsame

theorem Alike.count_eq (hcount : type = mutexRecursive ∨ w.initializer m.sig = some .recursive)
    (hsig : m.sig = m'.sig ∨ type = mutexRecursive) : m.count = m'.count := by
  rcases Decidable.em (type = mutexRecursive) with rfl | hne
  · have hdrain := (h _).mp ((observes_drain hm.type hm.owner m.count.toNat).mpr rfl)
    exact (BitVec.eq_of_toNat_eq ((observes_drain hm'.type hm'.owner _).mp hdrain)).symm
  · have hrecursive := hcount.resolve_left hne
    have hrecursive' := hrecursive
    rw [hsig.resolve_right hne] at hrecursive'
    have hdrain := (h _).mp ((hm.observes_drain hrecursive _).mpr rfl)
    have hsame := BitVec.eq_of_toNat_eq ((hm'.observes_drain hrecursive' _).mp hdrain)
    exact ((BitVec.add_left_inj _).mp hsame).symm

end

omit [DecidableEq T] in
theorem lockTwice_inj {type sig sig' : Word} {initializer initializer' : Initializer}
    (h : w.initializer sig = some initializer) (h' : w.initializer sig' = some initializer')
    (hsame : w.lockTwice type sig = w.lockTwice type sig') : initializer = initializer' := by
  unfold Platform.lockTwice at hsame
  rw [h, h'] at hsame
  have hevents : initializer.lockTwice = initializer'.lockTwice := hsame
  cases initializer <;> cases initializer' <;> first | rfl | exact absurd hevents (by decide)

/-- What two mutexes have in common that nobody can tell apart. -/
theorem alike_iff {type : Word} (hm : Fresh w i type m) (hm' : Fresh w i type m') :
    Alike w m m' ↔
      (m.sig = m'.sig ∨ w.Harmless i type m.sig ∧ w.Harmless i type m'.sig) ∧
      (type = mutexRecursive ∨ w.initializer m.sig = some .recursive → m.count = m'.count) := by
  constructor
  · intro h
    have hsig : m.sig = m'.sig ∨ w.Harmless i type m.sig ∧ w.Harmless i type m'.sig := by
      cases hsig : w.initializer m.sig with
      | none => exact .inr ⟨harmless_of_none hsig, h.harmless hm hm' hsig⟩
      | some initializer =>
        cases hsig' : w.initializer m'.sig with
        | none => exact .inr ⟨Alike.harmless hm' hm (fun l => (h l).symm) hsig',
            harmless_of_none hsig'⟩
        | some initializer' =>
          obtain rfl := lockTwice_inj hsig hsig' (h.lockTwice_eq hm hm')
          exact .inl (initializer_inj hsig hsig')
    refine ⟨hsig, fun hcount => h.count_eq hm hm' hcount ?_⟩
    rcases hsig with hsame | ⟨hharmless, -⟩
    · exact .inl hsame
    · exact .inr (hcount.elim id fun hrecursive => (hharmless.recursive hrecursive).1)
  · rintro ⟨hsig, hcount⟩ l
    have hrecount : m' = sign m'.sig m'.owner (recount m'.count m) := by
      have htype := hm'.type.trans hm.type.symm
      have hlll := hm'.lll.trans hm.lll.symm
      cases m'
      subst htype hlll
      rfl
    have hfresh : Fresh w i type (recount m'.count m) := ⟨hm.type, hm.owner, hm.lll⟩
    have hfirst : Observes (Moves w) (boot m) l ↔
        Observes (Moves w) (boot (recount m'.count m)) l := by
      by_cases hread : type = mutexRecursive ∨ w.initializer m.sig = some .recursive
      · rw [← hcount hread]
        rfl
      · obtain ⟨htype, hrecursive⟩ := not_or.mp hread
        exact observes_recount _ (hm.type.trans_ne htype) hrecursive
    rw [hfirst]
    rcases hsig with hsame | ⟨hharmless, hharmless'⟩
    · have howner := hm'.owner.trans hm.owner.symm
      rw [hrecount, ← hsame, howner]
      rfl
    · exact observes_harmless ⟨hfresh.type, fun _ => hfresh.owner, hharmless, trivial⟩
        ⟨hm'.type, fun _ => hm'.owner, hharmless', trivial⟩ hrecount

/-! ## `pthread_mutex_init` -/

omit [DecidableEq T] in
theorem fresh_init (memory : OSMutex) (attr : Option Word) :
    Fresh w i (attr.getD mutexNormal) (pthreadMutexInit memory (w.pid i) attr) := by
  cases attr <;> exact ⟨rfl, rfl, rfl⟩

/-- What two pieces of memory have to have in common. The signatures are the same or both harmless,
and the counts are the same if they are kept and the mutex is recursive, or gets to be. -/
structure Forgotten (w : Platform T) (i : T) (attr : Option Word) (memory memory' : OSMutex) :
    Prop where
  sig : memory.sig = memory'.sig ∨ w.Harmless i (attr.getD mutexNormal) memory.sig ∧
    w.Harmless i (attr.getD mutexNormal) memory'.sig
  count : ∀ type ∈ attr, type = mutexRecursive ∨ w.initializer memory.sig = some .recursive →
    memory.count = memory'.count

/-- **A fresh mutex remembers old memory** exactly if the signatures or the counts that stood there
make a difference. -/
theorem init_alike_iff (w : Platform T) (i : T) (attr : Option Word) (memory memory' : OSMutex) :
    Alike w (pthreadMutexInit memory (w.pid i) attr) (pthreadMutexInit memory' (w.pid i) attr) ↔
      Forgotten w i attr memory memory' := by
  rw [alike_iff (fresh_init memory attr) (fresh_init memory' attr)]
  cases attr with
  | none =>
    constructor
    · rintro ⟨hsig, -⟩
      exact ⟨hsig, by simp⟩
    · intro h
      exact ⟨h.sig, fun _ => rfl⟩
  | some type =>
    constructor
    · rintro ⟨hsig, hcount⟩
      refine ⟨hsig, fun type' htype => ?_⟩
      obtain rfl := Option.mem_some.mp htype
      exact hcount
    · intro h
      exact ⟨h.sig, h.count type rfl⟩

/-- A recursive mutex over a count of 1 is unlocked without having been locked. A normal one over
the signature of a static initializer is recursive. -/
theorem init_not_alike :
    ¬ Alike twoThreads
      (pthreadMutexInit ⟨0, 0, 0, 0, 0⟩ (twoThreads.pid 0) (some mutexRecursive))
      (pthreadMutexInit ⟨0, 0, 1, 0, 0⟩ (twoThreads.pid 0) (some mutexRecursive)) ∧
    ¬ Alike twoThreads
      (pthreadMutexInit ⟨0, 0, 0, 0, 0⟩ (twoThreads.pid 0) none)
      (pthreadMutexInit ⟨twoThreads.recursiveSigInit, 0, 0, 0, 0⟩ (twoThreads.pid 0) none) := by
  constructor
  · intro h
    have hcount := h.count_eq (fresh_init _ _) (fresh_init _ _) (.inl rfl) (.inr rfl)
    exact absurd hcount (by decide)
  · intro h
    have htwice := h.lockTwice_eq (fresh_init _ _) (fresh_init _ _)
    exact absurd htwice (by decide)

end LibSystem.Core.Mutex
