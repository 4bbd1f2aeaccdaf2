import LibSystem.Core.MutexCalls

/-!
# What nobody looks at

Two mutexes that differ in the count, which only recursive mutexes have a use for, or in a signature
that changes nothing.
-/

namespace LibSystem.Core.Mutex

variable {T : Type} {w : Platform T}

/-- The signature asks for nothing, or for what the mutex is already: the mutex of the thread `i`,
of the given type. -/
def Platform.Harmless (w : Platform T) (i : T) (type sig : Word) : Prop :=
  match w.initializer sig with
  | none => True
  | some .normal => type = mutexNormal
  | some .recursive => type = mutexRecursive ∧ ∀ t, w.pid t = w.pid i
  | some .errorcheck => False

/-! ## The count of a mutex that is not recursive -/

/-- The steps behind the test for a recursive mutex, and the stores that make it one. -/
def Pc.Counts (recursiveSigInit sig : Word) : Pc → Prop
  | .sigRecursive => sig = recursiveSigInit
  | .setSig type | .setOwner type | .setType type => type = mutexRecursive
  | .lockOwner | .lockOp | .lockLoad | .lockStore _ | .lockFirst | .lockInner | .lockOpDone
  | .unlockOwner _ | .unlockOp | .unlockZero | .unlockOne | .unlockInner | .unlockLoad
  | .unlockStore _ | .unlockOpDone _ => True
  | _ => False

theorem act_sig {t : T} {m : OSMutex} {pc : Pc} {a : Act} (h : w.act t m pc = some a) :
    (a.mutex m).sig = m.sig ∨ (a.mutex m).sig = 0 := by
  cases pc <;> simp only [Platform.act, Option.some.injEq, reduceCtorEq] at h
  all_goals
    subst h
    first | exact .inl rfl | exact .inr rfl

theorem act_type {t : T} {m : OSMutex} {pc : Pc} {a : Act} (h : w.act t m pc = some a) :
    (a.mutex m).type = m.type ∨ pc = .setType (a.mutex m).type := by
  cases pc <;> simp only [Platform.act, Option.some.injEq, reduceCtorEq] at h
  all_goals
    subst h
    first | exact .inl rfl | exact .inr rfl

structure Uncounted (w : Platform T) (m : OSMutex) (pc : Pc) : Prop where
  type : m.type ≠ mutexRecursive
  sig : w.initializer m.sig ≠ some .recursive
  place : ¬ pc.Counts w.recursiveSigInit m.sig

def recount (count : Word) (m : OSMutex) : OSMutex := { m with count := count }

theorem beside_recount (count : Word) : Beside (recount count) := ⟨fun _ => rfl, fun _ _ => rfl⟩

theorem act_recount (count : Word) {t : T} {m : OSMutex} {pc : Pc} (h : Uncounted w m pc) :
    w.act t (recount count m) pc = (w.act t m pc).map (Act.map (recount count)) := by
  have hplace := h.place
  cases pc <;> first | rfl | exact absurd trivial hplace

theorem act_uncounted {t : T} {m : OSMutex} {pc pc' : Pc} {a : Act} (h : Uncounted w m pc)
    (hact : w.act t m pc = some a) (hto : a.To pc') :
    ¬ pc'.Counts w.recursiveSigInit (a.mutex m).sig := by
  have hplace := h.place
  cases pc <;> simp only [Platform.act, Option.some.injEq, reduceCtorEq] at hact
  all_goals subst hact
  case sigNormal =>
    obtain rfl := hto
    split
    · exact (by decide : ¬ mutexNormal = mutexRecursive)
    · rename_i hne
      intro hcounts
      exact h.sig (initializer_recursive hne hcounts)
  case sigRecursive =>
    obtain rfl := hto
    have hne : m.sig ≠ w.recursiveSigInit := hplace
    rw [if_neg hne]
    exact id
  case lockType =>
    obtain rfl := hto
    rw [if_neg h.type]
    (repeat' split) <;> exact id
  case unlockType =>
    obtain rfl := hto
    rw [if_neg h.type]
    (repeat' split) <;> exact id
  case lockTry =>
    obtain ⟨result, rfl⟩ := hto
    exact id
  all_goals
    obtain rfl := hto
    first | exact absurd trivial hplace | exact hplace | (repeat' split) <;> exact id

theorem uncounted_kept : Kept w (Uncounted w) where
  act := by
    intro t m pc a h hact
    have htype : (a.mutex m).type ≠ mutexRecursive := by
      rcases act_type hact with hsame | rfl
      · rw [hsame]
        exact h.type
      · exact h.place
    have hsig : w.initializer (a.mutex m).sig ≠ some .recursive := by
      rcases act_sig hact with hsame | hzero
      · rw [hsame]
        exact h.sig
      · rw [hzero, initializer_zero]
        simp
    refine ⟨fun pc' hto => ⟨htype, hsig, ?_⟩, fun pc' h' => ⟨htype, hsig, ?_⟩⟩
    · exact act_uncounted h hact hto
    · rcases act_sig hact with hsame | hzero
      · rw [hsame]
        exact h'.place
      · rw [hzero]
        intro hcounts
        have hplace := h'.place
        cases pc' <;> first | exact hplace hcounts | exact w.recursive_ne_zero hcounts.symm
  lll word h := ⟨h.type, h.sig, h.place⟩
  idle h := ⟨h.type, h.sig, id⟩
  entry := by
    intro m e pc h he
    refine ⟨h.type, h.sig, ?_⟩
    cases e <;> simp [Event.entry] at he
    all_goals
      subst he
      exact id

section

variable [DecidableEq T] {l : List (T × Event)}

theorem observes_recount {m : OSMutex} (count : Word) (htype : m.type ≠ mutexRecursive)
    (hsig : w.initializer m.sig ≠ some .recursive) :
    Observes (Moves w) (boot m) l ↔ Observes (Moves w) (boot (recount count m)) l := by
  have hidle : ∀ count', Uncounted w (recount count' m) .idle := fun _ => ⟨htype, hsig, id⟩
  constructor
  · exact (beside_recount count).observes uncounted_kept (fun _ _ _ => act_recount count)
      (hidle m.count)
  · exact (beside_recount m.count).observes uncounted_kept (fun _ _ _ => act_recount m.count)
      (hidle count)

end

/-! ## A signature that changes nothing -/

/-- Before the switch of `pthread_mutex_lock`. -/
def Pc.Signals : Pc → Prop
  | .sigNormal | .sigRecursive | .sigErrorcheck | .setSig _ | .setOwner _ | .setType _
  | .lockType => True
  | _ => False

/-- The steps that are left up to the switch. -/
def Pc.ahead : Pc → Nat
  | .sigNormal => 6
  | .sigRecursive => 5
  | .sigErrorcheck => 4
  | .setSig _ => 3
  | .setOwner _ => 2
  | .setType _ => 1
  | _ => 0

/-- The stores change nothing, and the owner of a normal mutex is not looked at. -/
def Pc.Fits (w : Platform T) (i : T) (type sig : Word) : Pc → Prop
  | .sigRecursive => sig ≠ mutexSigInit
  | .sigErrorcheck => sig ≠ mutexSigInit ∧ sig ≠ w.recursiveSigInit
  | .setSig type' | .setOwner type' | .setType type' =>
    type' = type ∧ (type ≠ mutexNormal → ∀ t, w.pid t = w.pid i)
  | .lockOwner | .lockTry | .lockTried _ | .unlockOwner _ => type ≠ mutexNormal
  | _ => True

structure Calm (w : Platform T) (i : T) (type : Word) (m : OSMutex) (pc : Pc) : Prop where
  same : m.type = type
  owned : type ≠ mutexNormal → m.owner = w.pid i
  harmless : w.Harmless i type m.sig
  fits : pc.Fits w i type m.sig

def sign (sig owner : Word) (m : OSMutex) : OSMutex := { m with sig := sig, owner := owner }

theorem beside_sign (sig owner : Word) : Beside (sign sig owner) :=
  ⟨fun _ => rfl, fun _ _ => rfl⟩

section

variable {i t : T} {type : Word} {m m' : OSMutex} {pc pc' : Pc} {a : Act}

theorem Platform.Harmless.normal {sig : Word} (h : w.Harmless i type sig)
    (hsig : w.initializer sig = some .normal) : type = mutexNormal := by
  unfold Platform.Harmless at h
  rwa [hsig] at h

theorem Platform.Harmless.recursive {sig : Word} (h : w.Harmless i type sig)
    (hsig : w.initializer sig = some .recursive) :
    type = mutexRecursive ∧ ∀ t, w.pid t = w.pid i := by
  unfold Platform.Harmless at h
  rwa [hsig] at h

theorem Platform.Harmless.ne_errorcheck {sig : Word} (h : w.Harmless i type sig) :
    w.initializer sig ≠ some .errorcheck := by
  intro hsig
  unfold Platform.Harmless at h
  rwa [hsig] at h

theorem harmless_of_none {sig : Word} (h : w.initializer sig = none) : w.Harmless i type sig := by
  unfold Platform.Harmless
  rw [h]
  trivial

theorem harmless_zero : w.Harmless i type 0 := harmless_of_none initializer_zero

theorem act_owner (h : w.act t m pc = some a) :
    (a.mutex m).owner = m.owner ∨ (∃ type, pc = .setOwner type) ∧ (a.mutex m).owner = w.pid t := by
  cases pc <;> simp only [Platform.act, Option.some.injEq, reduceCtorEq] at h
  all_goals
    subst h
    first | exact .inl rfl | exact .inr ⟨⟨_, rfl⟩, rfl⟩

theorem Calm.act_type (h : Calm w i type m pc) (hact : w.act t m pc = some a) :
    (a.mutex m).type = type := by
  rcases Mutex.act_type hact with hsame | rfl
  · exact hsame.trans h.same
  · exact h.fits.1

theorem Calm.act_owner (h : Calm w i type m pc) (hact : w.act t m pc = some a)
    (htype : type ≠ mutexNormal) : (a.mutex m).owner = w.pid i := by
  rcases Mutex.act_owner hact with hsame | ⟨⟨type', rfl⟩, howner⟩
  · exact hsame.trans (h.owned htype)
  · exact howner.trans (h.fits.2 htype t)

theorem Calm.act_sig (h : Calm w i type m pc) (hact : w.act t m pc = some a) :
    w.Harmless i type (a.mutex m).sig := by
  rcases Mutex.act_sig hact with hsame | hzero
  · rw [hsame]
    exact h.harmless
  · rw [hzero]
    exact harmless_zero

theorem fits_zero {sig : Word} (h : pc.Fits w i type sig) : pc.Fits w i type 0 := by
  have hnormal : (0 : Word) ≠ mutexSigInit := by decide
  cases pc
  case sigRecursive => exact hnormal
  case sigErrorcheck => exact ⟨hnormal, w.recursive_ne_zero.symm⟩
  all_goals exact h

theorem Calm.act_fits (h : Calm w i type m pc) (hact : w.act t m pc = some a) (hto : a.To pc') :
    pc'.Fits w i type (a.mutex m).sig := by
  have hplace := h.fits
  have hsig := h.harmless
  have hrecursive : mutexRecursive ≠ mutexNormal := by decide
  have herrorcheck : mutexErrorcheck ≠ mutexNormal := by decide
  cases pc <;> simp only [Platform.act, Option.some.injEq, reduceCtorEq] at hact
  all_goals subst hact
  case sigNormal =>
    obtain rfl := hto
    split
    · rename_i hnormal
      have htype := hsig.normal (initializer_normal hnormal)
      exact ⟨htype.symm, fun hne => absurd htype hne⟩
    · rename_i hne
      exact hne
  case sigRecursive =>
    obtain rfl := hto
    split
    · rename_i hrec
      obtain ⟨htype, hpid⟩ := hsig.recursive (initializer_recursive hplace hrec)
      exact ⟨htype.symm, fun _ => hpid⟩
    · rename_i hne
      exact ⟨hplace, hne⟩
  case sigErrorcheck =>
    obtain rfl := hto
    split
    · rename_i hcheck
      exact absurd (initializer_errorcheck hplace.1 hplace.2 hcheck) hsig.ne_errorcheck
    · trivial
  case lockTry =>
    obtain ⟨result, rfl⟩ := hto
    exact hplace
  all_goals obtain rfl := hto
  case lockType =>
    split
    · trivial
    split
    · rename_i htype
      exact h.same.symm.trans_ne (htype.trans_ne hrecursive)
    split
    · rename_i htype
      exact h.same.symm.trans_ne (htype.trans_ne herrorcheck)
    · trivial
  case unlockType =>
    split
    · trivial
    split
    · rename_i htype
      exact h.same.symm.trans_ne (htype.trans_ne hrecursive)
    (repeat' split) <;> trivial
  all_goals first | exact hplace | (repeat' split) <;> trivial

theorem calm_kept : Kept w (Calm w i type) where
  act h hact := by
    refine ⟨fun pc' hto => ⟨h.act_type hact, h.act_owner hact, h.act_sig hact, h.act_fits hact hto⟩,
      fun pc' h' => ⟨h.act_type hact, h.act_owner hact, h.act_sig hact, ?_⟩⟩
    rcases Mutex.act_sig hact with hsame | hzero
    · rw [hsame]
      exact h'.fits
    · rw [hzero]
      exact fits_zero h'.fits
  lll word h := ⟨h.same, h.owned, h.harmless, h.fits⟩
  idle h := ⟨h.same, h.owned, h.harmless, trivial⟩
  entry := by
    intro m e pc h he
    refine ⟨h.same, h.owned, h.harmless, ?_⟩
    cases e <;> simp [Event.entry] at he
    all_goals
      subst he
      trivial

theorem Calm.act_sign {sig owner : Word} (h : Calm w i type m pc)
    (howner : type ≠ mutexNormal → owner = m.owner) (hpc : pc.Signals → pc = .lockType) :
    w.act t (sign sig owner m) pc = (w.act t m pc).map (Act.map (sign sig owner)) := by
  have hfits := h.fits
  cases pc
  case sigNormal => exact absurd (hpc trivial) (by simp)
  case sigRecursive => exact absurd (hpc trivial) (by simp)
  case sigErrorcheck => exact absurd (hpc trivial) (by simp)
  case setSig => exact absurd (hpc trivial) (by simp)
  case setOwner => exact absurd (hpc trivial) (by simp)
  case setType => exact absurd (hpc trivial) (by simp)
  case lockOwner =>
    obtain rfl := howner hfits
    rfl
  case lockTried =>
    obtain rfl := howner hfits
    rfl
  case unlockOwner =>
    obtain rfl := howner hfits
    rfl
  all_goals rfl

theorem Calm.act_signal (h : Calm w i type m pc) (hpc : pc.Signals) (hne : pc ≠ .lockType) :
    ∃ m' pc', w.act t m pc = some (.go m' pc') ∧ m' = sign m'.sig m'.owner m ∧ pc'.Signals ∧
      pc'.ahead < pc.ahead := by
  have hfits := h.fits
  cases pc
  case sigNormal =>
    refine ⟨m, _, rfl, rfl, ?_⟩
    split <;> exact ⟨trivial, by decide⟩
  case sigRecursive =>
    refine ⟨m, _, rfl, rfl, ?_⟩
    split <;> exact ⟨trivial, by decide⟩
  case sigErrorcheck =>
    have hcheck : m.sig ≠ w.errorcheckSigInit := fun hcheck =>
      h.harmless.ne_errorcheck (initializer_errorcheck hfits.1 hfits.2 hcheck)
    exact ⟨m, _, rfl, rfl, by rw [if_neg hcheck]; exact ⟨trivial, by decide⟩⟩
  case setSig => exact ⟨{ m with sig := 0 }, _, rfl, rfl, trivial, Nat.lt_succ_self 2⟩
  case setOwner => exact ⟨{ m with owner := w.pid t }, _, rfl, rfl, trivial, Nat.lt_succ_self 1⟩
  case setType type' =>
    obtain rfl : type' = m.type := hfits.1.trans h.same.symm
    exact ⟨m, _, rfl, rfl, trivial, Nat.lt_succ_self 0⟩
  case lockType => exact absurd rfl hne
  all_goals exact hpc.elim

end

/-! ### Two processes side by side -/

/-- At the same place, or both before the switch. -/
def Together (p p' : Place) : Prop :=
  p = p' ∨ ∃ pc pc', p = .body pc ∧ p' = .body pc' ∧ pc.Signals ∧ pc'.Signals

theorem Together.symm {p p' : Place} (h : Together p p') : Together p' p := by
  rcases h with rfl | ⟨pc, pc', rfl, rfl, hpc, hpc'⟩
  · exact .inl rfl
  · exact .inr ⟨pc', pc, rfl, rfl, hpc', hpc⟩

theorem Together.eq {p p' : Place} (h : Together p p') (hp : ∀ pc, p = .body pc → ¬ pc.Signals) :
    p' = p := by
  rcases h with rfl | ⟨pc, pc', rfl, rfl, hpc, hpc'⟩
  · rfl
  · exact absurd hpc (hp pc rfl)

structure Near (w : Platform T) (i : T) (type : Word) (s s' : Process T) : Prop where
  calm : s.Meets (Calm w i type)
  calm' : s'.Meets (Calm w i type)
  shared : s'.shared = s.shared.map (sign s'.shared.mutex.sig s'.shared.mutex.owner)
  place : ∀ t, Together (s.place t) (s'.place t)

section

variable {i t : T} {type : Word} {s s' : Process T}

theorem Near.symm (h : Near w i type s s') : Near w i type s' s := by
  refine ⟨h.calm', h.calm, ?_, fun t => (h.place t).symm⟩
  have hshared := h.shared
  generalize s'.shared.mutex.sig = sig, s'.shared.mutex.owner = owner at hshared
  rw [hshared]
  rfl

theorem Near.owner (h : Near w i type s s') (t : T) (htype : type ≠ mutexNormal) :
    s'.shared.mutex.owner = s.shared.mutex.owner :=
  ((h.calm' t).owned htype).trans ((h.calm t).owned htype).symm

theorem Near.halted (h : Near w i type s s') : s'.shared.halted = s.shared.halted := by
  rw [h.shared]
  rfl

variable [DecidableEq T]

theorem update_together {f g : T → Place} {p p' : Place} (h : ∀ u, Together (f u) (g u))
    (hp : Together p p') (u : T) :
    Together (Function.update f t p u) (Function.update g t p' u) := by
  rcases Decidable.em (u = t) with rfl | hne
  · rwa [Function.update_self, Function.update_self]
  · rw [Function.update_of_ne hne, Function.update_of_ne hne]
    exact h u

theorem Near.signal (h : Near w i type s s') (hlive : s.shared.halted = false) {pc : Pc}
    (ht : s.place t = .body pc) (hpc : pc.Signals) (hne : pc ≠ .lockType) :
    ∃ m pc', w.turn t s.shared (s.place t) = some (none, m, .body pc') ∧ pc'.Signals ∧
      pc'.ahead < pc.ahead ∧ Moves w s none ⟨m, Function.update s.place t (.body pc')⟩ ∧
      Near w i type ⟨m, Function.update s.place t (.body pc')⟩ s' := by
  have hcalm := h.calm t
  rw [ht] at hcalm
  obtain ⟨m, pc', hact, hm, hpc', hahead⟩ := hcalm.act_signal (t := t) hpc hne
  have hturn : w.turn t s.shared (s.place t) =
      some (none, { s.shared with mutex := m }, .body pc') := by
    rw [ht]
    exact turn_go hact
  have hmove : Moves w s none ⟨{ s.shared with mutex := m },
      Function.update s.place t (.body pc')⟩ := .turn hlive hturn
  refine ⟨_, pc', hturn, hpc', hahead, hmove, h.calm.step calm_kept hmove, h.calm', ?_, fun u => ?_⟩
  · have hshared := h.shared
    generalize s'.shared.mutex.sig = sig, s'.shared.mutex.owner = owner at hshared ⊢
    rw [hshared]
    show _ = Shared.map (sign sig owner) { s.shared with mutex := m }
    rw [hm]
    rfl
  · have hplace := h.place u
    rcases Decidable.em (u = t) with rfl | hother
    · show Together (Function.update s.place u (.body pc') u) _
      rw [Function.update_self]
      rw [ht] at hplace
      rcases hplace with hsame | ⟨_, pc2, -, hpc2, -, hsignals⟩
      · exact .inr ⟨pc', pc, rfl, hsame.symm, hpc', hpc⟩
      · exact .inr ⟨pc', pc2, rfl, hpc2, hpc', hsignals⟩
    · show Together (Function.update s.place t (.body pc') u) _
      rwa [Function.update_of_ne hother]

theorem Near.reach (h : Near w i type s s') (hlive : s'.shared.halted = false) {pc : Pc}
    (ht : s'.place t = .body pc) (hpc : pc.Signals) :
    ∃ s1, Silent (Moves w) s' s1 ∧ Near w i type s s1 ∧ s1.place t = .body .lockType := by
  induction hn : pc.ahead using Nat.strong_induction_on generalizing s' pc with
  | _ n ih =>
    rcases Decidable.em (pc = .lockType) with rfl | hne
    · exact ⟨s', .refl, h, ht⟩
    obtain ⟨m, pc', -, hpc', hahead, hmove, hnear⟩ := h.symm.signal hlive ht hpc hne
    have hlive' : m.halted = false := hnear.halted.symm.trans (h.halted.symm.trans hlive)
    obtain ⟨s1, hsilent, hnear', ht'⟩ := ih _ (hn ▸ hahead) hnear.symm hlive'
      (Function.update_self _ _ _) hpc' rfl
    exact ⟨s1, .head hmove hsilent, hnear', ht'⟩

theorem Near.same (h : Near w i type s s') {o : Option Event} {m : Shared} {p : Place}
    (hlive : s.shared.halted = false) (ht : s'.place t = s.place t)
    (hswitch : ∀ pc, s.place t = .body pc → pc.Signals → pc = .lockType)
    (hturn : w.turn t s.shared (s.place t) = some (o, m, p)) :
    ∃ s1, Moves w s' (o.map (Prod.mk t)) s1 ∧
      Near w i type ⟨m, Function.update s.place t p⟩ s1 := by
  have hsame := (beside_sign s'.shared.mutex.sig s'.shared.mutex.owner).turn (w := w) (t := t)
    (m := s.shared) (p := s.place t) fun pc hpc => by
      have hcalm := h.calm t
      rw [hpc] at hcalm
      exact hcalm.act_sign (h.owner t) (hswitch pc hpc)
  rw [hturn, ← h.shared, ← ht] at hsame
  have hmove : Moves w s (o.map (Prod.mk t)) ⟨m, Function.update s.place t p⟩ := .turn hlive hturn
  have hmove' : Moves w s' _ _ := .turn (h.halted.trans hlive) hsame
  refine ⟨_, hmove', h.calm.step calm_kept hmove, h.calm'.step calm_kept hmove', rfl,
    update_together h.place (.inl rfl)⟩

theorem Near.turn (h : Near w i type s s') {o : Option Event} {m : Shared} {p : Place}
    (hlive : s.shared.halted = false) (hturn : w.turn t s.shared (s.place t) = some (o, m, p)) :
    ∃ s1, Weak (Moves w) s' (o.map (Prod.mk t)) s1 ∧
      Near w i type ⟨m, Function.update s.place t p⟩ s1 := by
  by_cases hsignals : ∃ pc, s.place t = .body pc ∧ pc.Signals
  · obtain ⟨pc, ht, hpc⟩ := hsignals
    rcases Decidable.em (pc = .lockType) with rfl | hne
    · -- The other process may be behind.
      obtain ⟨pc', ht', hpc'⟩ : ∃ pc', s'.place t = .body pc' ∧ pc'.Signals := by
        rcases h.place t with hsame | ⟨_, pc', -, ht', -, hpc'⟩
        · exact ⟨_, hsame.symm.trans ht, hpc⟩
        · exact ⟨pc', ht', hpc'⟩
      obtain ⟨s1, hsilent, hnear, ht1⟩ := h.reach (h.halted.trans hlive) ht' hpc'
      obtain ⟨s2, hmove, hnear'⟩ := hnear.same hlive (ht1.trans ht.symm)
        (fun pc hpc _ => Place.body.inj (hpc.symm.trans ht)) hturn
      exact ⟨s2, .inr ⟨s1, hsilent, hmove⟩, hnear'⟩
    · -- The other process waits.
      obtain ⟨m', pc', hturn', -, -, -, hnear⟩ := h.signal hlive ht hpc hne
      obtain ⟨rfl, rfl, rfl⟩ := by simpa using hturn.symm.trans hturn'
      exact ⟨s', .inl ⟨rfl, rfl⟩, hnear⟩
  · simp only [not_exists, not_and] at hsignals
    obtain ⟨s1, hmove, hnear⟩ := h.same hlive ((h.place t).eq hsignals)
      (fun pc hpc hin => absurd hin (hsignals pc hpc)) hturn
    exact ⟨s1, .inr ⟨s', .refl, hmove⟩, hnear⟩

omit [DecidableEq T] in
theorem Near.low (h : Near w i type s s') {which : Lock} {pc : LowLevelLock.Pc} {next : Pc} :
    s.place t = .low which pc next ↔ s'.place t = .low which pc next := by
  rcases h.place t with hsame | ⟨pc, pc', ht, ht', -, -⟩
  · rw [hsame]
  · rw [ht, ht']
    simp

theorem Near.both (h : Near w i type s s') {o : Option (T × Event)} {s1 s1' : Process T}
    (hmove : Moves w s o s1) (hmove' : Moves w s' o s1')
    (hshared : s1'.shared = s1.shared.map (sign s1'.shared.mutex.sig s1'.shared.mutex.owner))
    (hplace : ∀ t, Together (s1.place t) (s1'.place t)) :
    ∃ s2, Weak (Moves w) s' o s2 ∧ Near w i type s1 s2 :=
  ⟨s1', .inr ⟨s', .refl, hmove'⟩, h.calm.step calm_kept hmove, h.calm'.step calm_kept hmove',
    hshared, hplace⟩

theorem near_simulates : Simulates (Moves w) (Near w i type) := by
  intro s s' o s1 h hmove
  cases hmove with
  | @call t e pc hlive ht he =>
    have ht' : s'.place t = .body .idle := by
      have hplace := (h.place t).eq fun pc hpc hsignals => by
        obtain rfl := Place.body.inj (ht.symm.trans hpc)
        exact hsignals
      exact hplace.trans ht
    exact h.both (.call hlive ht he) (.call (h.halted.trans hlive) ht' he) h.shared
      (update_together h.place (.inl rfl))
  | @turn t o m p hlive hturn => exact h.turn hlive hturn
  | @wakeOne t u which next next' hlive ht hu =>
    exact h.both (.wakeOne hlive ht hu)
      (.wakeOne (h.halted.trans hlive) (h.low.mp ht) (h.low.mp hu)) h.shared
      (update_together (update_together h.place (.inl rfl)) (.inl rfl))
  | @wakeNone t which next hlive ht hnone =>
    have hnone' : ∀ u next', s'.place u ≠ .low which .asleep next' :=
      fun u next' hu => hnone u next' (h.low.mpr hu)
    exact h.both (.wakeNone hlive ht hnone)
      (.wakeNone (h.halted.trans hlive) (h.low.mp ht) hnone') h.shared
      (update_together h.place (.inl rfl))

theorem observes_harmless {m m' : OSMutex} {l : List (T × Event)} (hm : Calm w i type m .idle)
    (hm' : Calm w i type m' .idle) (hsame : m' = sign m'.sig m'.owner m) :
    Observes (Moves w) (boot m) l ↔ Observes (Moves w) (boot m') l := by
  have hnear : Near w i type (boot m) (boot m') :=
    ⟨meets_boot m hm, meets_boot m' hm', congrArg (Shared.mk · 0 false) hsame, fun _ => .inl rfl⟩
  exact near_simulates.observes_iff (fun _ _ => Near.symm) hnear

end

end LibSystem.Core.Mutex
