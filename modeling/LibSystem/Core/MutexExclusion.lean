import LibSystem.Core.Mutex

/-!
# Mutual exclusion

The mutexes of `OSThread.c` after `pthread_mutex_init` on zeroed memory, over an ideal low level
lock.
-/

namespace LibSystem.Core.Mutex

variable {T : Type} {w : Platform T}

def Exclusive (s : State T) : Prop := ∀ t u, 0 < s.surplus t → 0 < s.surplus u → t = u

/-- A thread unlocks only what it has locked. -/
def Disciplined (s : State T) (a : T × Move) : Prop := a.2 = .callUnlock → 0 < s.surplus a.1

/-- The guard of a step: on an error checking mutex, a thread that did not set it up finds the word
free. -/
def FindsFree (w : Platform T) (s : State T) (a : T × Move) : Prop :=
  s.pc a.1 = .lockTry → s.mutex.owner ≠ w.pid a.1 → s.mutex.lll = 0

def Orderly (w : Platform T) (s : State T) (a : T × Move) : Prop :=
  Disciplined s a ∧ FindsFree w s a

/-! ## Places -/

/-- Behind a condition of `_OSProcessMutexSignal` that holds. -/
def Pc.Writes : Pc → Prop
  | .setSig _ | .setOwner _ | .setType _ => True
  | _ => False

/-- In `pthread_mutex_lock`, past the conditions. -/
def Pc.Inside : Pc → Prop
  | .lockNormal | .lockTry | .lockTried _ | .lockOp | .lockLoad | .lockStore _ | .lockFirst
  | .lockInner | .lockOpDone | .lockReturn _ => True
  | _ => False

def Pc.Recursive : Pc → Prop
  | .lockOwner | .lockOp | .lockLoad | .lockStore _ | .lockFirst | .lockInner | .lockOpDone
  | .unlockOwner _ | .unlockOp | .unlockZero | .unlockOne | .unlockInner | .unlockLoad
  | .unlockStore _ | .unlockOpDone _ => True
  | _ => False

/-- A thread between `lll_lock` and its return, or between its call and `lll_unlock`, holds the word
as well. -/
def Pc.token : Pc → Nat
  | .lockReturn result => if result = 0 then 1 else 0
  | .lockTried mtr => if mtr = 0 then 1 else 0
  | .unlockType _ => 1
  | .unlockLll => 1
  | _ => 0

def State.tokens (s : State T) (t : T) : Nat := s.surplus t + (s.pc t).token

/-! ## The invariants -/

structure Fixed (m : OSMutex) (s : State T) : Prop where
  sig : s.mutex.sig = 0
  type : s.mutex.type = m.type
  owner : s.mutex.owner = m.owner
  reads : ∀ t, ¬ (s.pc t).Writes

/-- Nobody but the owner gets past the conditions. -/
structure Owned (w : Platform T) (m : OSMutex) (s : State T) : Prop where
  surplus : ∀ t, 0 < s.surplus t → w.pid t = m.owner
  inside : ∀ t, (s.pc t).Inside → w.pid t = m.owner

/-- The word is held for one thread at most. -/
structure Sole (s : State T) : Prop where
  one : ∀ t, s.tokens t ≤ 1
  unique : ∀ t u, 0 < s.tokens t → 0 < s.tokens u → t = u
  held : ∀ t, 0 < s.tokens t → s.mutex.lll ≠ 0

/-- On the path of the other mutexes, and a thread that has failed to lock goes on to say so. -/
structure Plain (w : Platform T) (m : OSMutex) (s : State T) : Prop where
  outside : ∀ t, ¬ (s.pc t).Recursive
  failed : ∀ t mtr, s.pc t = .lockTried mtr → mtr ≠ 0 → m.owner = w.pid t

/-! ## One step of a thread -/

section

variable {t : T} {m m' : OSMutex} {pc pc' : Pc} {which : Lock} {f : Word → Pc}

theorem act_fixed (h : w.act t m pc = some (.go m' pc')) (hsig : m.sig = 0) (hpc : ¬ pc.Writes) :
    (m'.sig = m.sig ∧ m'.type = m.type ∧ m'.owner = m.owner ∧ m'.lll = m.lll) ∧ ¬ pc'.Writes := by
  cases pc <;> simp only [Platform.act, Option.some.injEq, Act.go.injEq, reduceCtorEq] at h
  case setSig => exact absurd trivial hpc
  case setOwner => exact absurd trivial hpc
  case setType => exact absurd trivial hpc
  all_goals obtain ⟨rfl, rfl⟩ := h
  all_goals refine ⟨⟨rfl, rfl, rfl, rfl⟩, ?_⟩
  case sigNormal =>
    rw [if_neg (by rw [hsig]; decide)]
    exact id
  case sigRecursive =>
    rw [if_neg (by rw [hsig]; exact w.recursive_ne_zero.symm)]
    exact id
  all_goals (repeat' split) <;> exact id

theorem act_inside (h : w.act t m pc = some (.go m' pc')) (htype : m.type = mutexRecursive)
    (hpc : pc.Inside → w.pid t = m.owner) : pc'.Inside → w.pid t = m.owner := by
  cases pc <;> simp only [Platform.act, Option.some.injEq, Act.go.injEq, reduceCtorEq] at h
  all_goals obtain ⟨rfl, rfl⟩ := h
  case lockType =>
    rw [if_neg (by rw [htype]; decide), if_pos htype]
    exact False.elim
  case lockOwner =>
    split
    · rename_i howner
      exact fun _ => howner.symm
    · exact False.elim
  all_goals first | exact fun _ => hpc trivial | (repeat' split) <;> exact False.elim

theorem act_plain (h : w.act t m pc = some (.go m' pc')) (htype : m.type ≠ mutexRecursive)
    (hpc : ¬ pc.Recursive) (hfailed : ∀ mtr, pc = .lockTried mtr → mtr ≠ 0 → m.owner = w.pid t) :
    ¬ pc'.Recursive ∧ (∀ mtr, pc' ≠ .lockTried mtr) ∧ pc'.token ≤ pc.token := by
  cases pc <;> simp only [Platform.act, Option.some.injEq, Act.go.injEq, reduceCtorEq] at h
  all_goals first | exact absurd trivial hpc | obtain ⟨rfl, rfl⟩ := h
  case lockType =>
    rw [if_neg htype]
    (repeat' split) <;> exact ⟨id, by simp, Nat.zero_le _⟩
  case unlockType =>
    rw [if_neg htype]
    split
    · exact ⟨id, by simp, Nat.le_refl _⟩
    split
    · exact ⟨id, by simp, Nat.le_refl _⟩
    · exact ⟨id, by simp, Nat.zero_le _⟩
  case lockTried mtr =>
    refine ⟨id, by simp, ?_⟩
    split
    · exact Nat.zero_le _
    · rename_i hresult
      have hzero : mtr = 0 := by
        by_contra hne
        exact hresult ⟨hne, hfailed mtr rfl hne⟩
      rw [hzero]
      exact Nat.le_refl _
  all_goals (repeat' split) <;> exact ⟨id, by simp, Nat.zero_le _⟩

theorem act_lock_plain (h : w.act t m pc = some (.lock which pc')) (hpc : ¬ pc.Recursive) :
    pc = .lockNormal ∧ which = .own ∧ pc' = .lockReturn 0 := by
  cases pc <;> simp only [Platform.act, Option.some.injEq, Act.lock.injEq, reduceCtorEq] at h
  case lockNormal => exact ⟨rfl, h.1.symm, h.2.symm⟩
  all_goals exact absurd trivial hpc

theorem act_trylock_eq (h : w.act t m pc = some (.trylock f)) : pc = .lockTry ∧ f = .lockTried := by
  cases pc <;> simp only [Platform.act, Option.some.injEq, Act.trylock.injEq, reduceCtorEq] at h
  exact ⟨rfl, h.symm⟩

theorem act_unlock_plain (h : w.act t m pc = some (.unlock which pc')) (hpc : ¬ pc.Recursive) :
    pc = .unlockLll ∧ which = .own ∧ pc' = .unlockReturn 0 := by
  cases pc <;> simp only [Platform.act, Option.some.injEq, Act.unlock.injEq, reduceCtorEq] at h
  case unlockLll => exact ⟨rfl, h.1.symm, h.2.symm⟩
  all_goals exact absurd trivial hpc

theorem act_lock_inside (h : w.act t m pc = some (.lock which pc')) :
    ¬ pc'.Writes ∧ (pc'.Inside → pc.Inside) := by
  cases pc <;> simp only [Platform.act, Option.some.injEq, Act.lock.injEq, reduceCtorEq] at h
  all_goals
    obtain ⟨-, rfl⟩ := h
    exact ⟨id, fun hin => by trivial⟩

theorem act_unlock_inside (h : w.act t m pc = some (.unlock which pc')) :
    ¬ pc'.Writes ∧ (pc'.Inside → pc.Inside) := by
  cases pc <;> simp only [Platform.act, Option.some.injEq, Act.unlock.injEq, reduceCtorEq] at h
  all_goals
    obtain ⟨-, rfl⟩ := h
    exact ⟨id, fun hin => by trivial⟩

end

/-! ## The three invariants -/

variable [DecidableEq T] {m : OSMutex} {s s' : State T} {t : T} {pc : Pc}

theorem Fixed.next (h : Fixed m s) (hsig : s'.mutex.sig = s.mutex.sig)
    (htype : s'.mutex.type = s.mutex.type) (howner : s'.mutex.owner = s.mutex.owner)
    (hpc : s'.pc = Function.update s.pc t pc) (hreads : ¬ pc.Writes) : Fixed m s' := by
  refine ⟨hsig.trans h.sig, htype.trans h.type, howner.trans h.owner, fun u => ?_⟩
  rw [hpc]
  rcases Decidable.em (u = t) with rfl | hu
  · rwa [Function.update_self]
  · rw [Function.update_of_ne hu]
    exact h.reads u

theorem Fixed.step {a : T × Move} (h : Fixed m s) (hstep : Step w s a s') : Fixed m s' := by
  cases hstep with
  | @callLock t ht => exact h.next rfl rfl rfl rfl id
  | @callUnlock t ht => exact h.next rfl rfl rfl rfl id
  | @go t m pc hact =>
    obtain ⟨⟨hsig, htype, howner, -⟩, hreads⟩ := act_fixed hact h.sig (h.reads t)
    exact h.next hsig htype howner rfl hreads
  | @lock t which pc word hact hlock =>
    exact h.next (by simp) (by simp) (by simp) setWord_goto_pc (act_lock_inside hact).1
  | @trylock t f result word hact hlock =>
    obtain ⟨-, rfl⟩ := act_trylock_eq hact
    exact h.next rfl rfl rfl rfl id
  | @unlock t which pc word hact hlock =>
    exact h.next (by simp) (by simp) (by simp) setWord_goto_pc (act_unlock_inside hact).1
  | @lockReturns t result ht => exact h.next rfl rfl rfl rfl id
  | @unlockReturns t result ht => exact h.next rfl rfl rfl rfl id

theorem Owned.next (h : Owned w m s) (hpc : s'.pc = Function.update s.pc t pc)
    (hsurplus : ∀ u, s'.surplus u ≤ s.surplus u ∨ w.pid u = m.owner)
    (hinside : pc.Inside → w.pid t = m.owner) : Owned w m s' := by
  refine ⟨fun u hu => ?_, fun u => ?_⟩
  · rcases hsurplus u with hle | howner
    · exact h.surplus u (lt_of_lt_of_le hu hle)
    · exact howner
  · rw [hpc]
    rcases Decidable.em (u = t) with rfl | hne
    · rwa [Function.update_self]
    · rw [Function.update_of_ne hne]
      exact h.inside u

theorem count_le {n : Nat} (hn : n ≤ s.surplus t) (u : T) :
    (s.count t n).surplus u ≤ s.surplus u := by
  rcases Decidable.em (u = t) with rfl | hne
  · rwa [count_surplus_same]
  · rw [count_surplus_other hne]

theorem Owned.step {a : T × Move} (h : Owned w m s) (hfixed : Fixed m s)
    (htype : m.type = mutexRecursive) (hstep : Step w s a s') : Owned w m s' := by
  cases hstep with
  | @callLock t ht => exact h.next rfl (fun u => .inl (Nat.le_refl _)) False.elim
  | @callUnlock t ht =>
    exact h.next rfl (fun u => .inl (count_le (Nat.sub_le _ _) u)) False.elim
  | @go t m' pc hact =>
    refine h.next rfl (fun u => .inl (Nat.le_refl _)) fun hin => ?_
    have hinside := act_inside hact (hfixed.type.trans htype) fun hin => by
      rw [hfixed.owner]
      exact h.inside t hin
    exact (hinside hin).trans hfixed.owner
  | @lock t which pc word hact hlock =>
    exact h.next setWord_goto_pc (fun u => .inl (by simp))
      fun hin => h.inside t ((act_lock_inside hact).2 hin)
  | @trylock t f result word hact hlock =>
    obtain ⟨htry, rfl⟩ := act_trylock_eq hact
    refine h.next setWord_goto_pc (fun u => .inl (by simp)) fun _ => h.inside t ?_
    rw [htry]
    trivial
  | @unlock t which pc word hact hlock =>
    exact h.next setWord_goto_pc (fun u => .inl (by simp))
      fun hin => h.inside t ((act_unlock_inside hact).2 hin)
  | @lockReturns t result ht =>
    refine h.next rfl (fun u => ?_) False.elim
    rcases Decidable.em (u = t) with rfl | hne
    · refine .inr (h.inside u ?_)
      rw [ht]
      trivial
    · exact .inl (by simp [hne])
  | @unlockReturns t result ht => exact h.next rfl (fun u => .inl (Nat.le_refl _)) False.elim

/-! ### The other mutexes -/

theorem tokens_other {u : T} (hpc : s'.pc = Function.update s.pc t pc) (hu : u ≠ t)
    (hsurplus : s'.surplus u = s.surplus u) : s'.tokens u = s.tokens u := by
  rw [State.tokens, hpc, Function.update_of_ne hu, hsurplus]
  rfl

theorem tokens_self (hpc : s'.pc = Function.update s.pc t pc) :
    s'.tokens t = s'.surplus t + pc.token := by
  rw [State.tokens, hpc, Function.update_self]

omit [DecidableEq T] in
theorem Sole.shrink (h : Sole s) (hlll : s'.mutex.lll = s.mutex.lll)
    (hle : ∀ u, s'.tokens u ≤ s.tokens u) : Sole s' := by
  refine ⟨fun u => (hle u).trans (h.one u), fun u v hu hv => ?_, fun u hu => ?_⟩
  · exact h.unique u v (lt_of_lt_of_le hu (hle u)) (lt_of_lt_of_le hv (hle v))
  · rw [hlll]
    exact h.held u (lt_of_lt_of_le hu (hle u))

theorem Sole.acquire (h : Sole s) (hfree : s.mutex.lll = 0) (hheld : s'.mutex.lll ≠ 0)
    (hself : s'.tokens t ≤ s.tokens t + 1) (hother : ∀ u, u ≠ t → s'.tokens u = s.tokens u) :
    Sole s' := by
  have hnobody : ∀ u, s.tokens u = 0 := by
    intro u
    by_contra hu
    exact h.held u (Nat.pos_of_ne_zero hu) hfree
  have honly : ∀ u, 0 < s'.tokens u → u = t := by
    intro u hu
    by_contra hne
    rw [hother u hne, hnobody u] at hu
    omega
  refine ⟨fun u => ?_, fun u v hu hv => (honly u hu).trans (honly v hv).symm, fun u _ => hheld⟩
  rcases Decidable.em (u = t) with rfl | hne
  · rw [hnobody u] at hself
    exact hself
  · rw [hother u hne]
    exact h.one u

theorem Sole.release (h : Sole s) (hself : s'.tokens t + 1 = s.tokens t)
    (hother : ∀ u, u ≠ t → s'.tokens u = s.tokens u) : Sole s' := by
  have hone := h.one t
  have hnobody : ∀ u, s'.tokens u = 0 := by
    intro u
    rcases Decidable.em (u = t) with rfl | hne
    · omega
    · rw [hother u hne]
      by_contra hu
      exact hne (h.unique u t (Nat.pos_of_ne_zero hu) (by omega))
  refine ⟨fun u => ?_, fun u v hu => ?_, fun u hu => ?_⟩
  all_goals
    have hu := hnobody u
    omega

theorem tokens_le (hpc : s'.pc = Function.update s.pc t pc)
    (hsurplus : ∀ u, u ≠ t → s'.surplus u = s.surplus u)
    (hself : s'.surplus t + pc.token ≤ s.tokens t) (u : T) : s'.tokens u ≤ s.tokens u := by
  rcases Decidable.em (u = t) with rfl | hne
  · rwa [tokens_self hpc]
  · rw [tokens_other hpc hne (hsurplus u hne)]

theorem Plain.next (h : Plain w m s) (hpc : s'.pc = Function.update s.pc t pc)
    (hout : ¬ pc.Recursive)
    (hfailed : ∀ mtr, pc = .lockTried mtr → mtr ≠ 0 → m.owner = w.pid t) : Plain w m s' := by
  constructor
  all_goals
    intro u
    rw [hpc]
    rcases Decidable.em (u = t) with rfl | hne
  · rwa [Function.update_self]
  · rw [Function.update_of_ne hne]
    exact h.outside u
  · rwa [Function.update_self]
  · rw [Function.update_of_ne hne]
    exact h.failed u

omit [DecidableEq T] in
theorem tokens_at (hpc : s.pc t = pc) : s.tokens t = s.surplus t + pc.token := by
  rw [State.tokens, hpc]

theorem Sole.step {a : T × Move} (h : Sole s) (hplain : Plain w m s) (hfixed : Fixed m s)
    (htype : m.type ≠ mutexRecursive) (hlll : w.lll = idealLock) (hguard : Orderly w s a)
    (hstep : Step w s a s') : Sole s' ∧ Plain w m s' := by
  cases hstep with
  | @callLock t ht =>
    refine ⟨h.shrink rfl (tokens_le rfl (fun _ _ => rfl) ?_), hplain.next rfl id (by simp)⟩
    rw [tokens_at ht]
    exact Nat.le_refl _
  | @callUnlock t ht =>
    have hpos : 0 < s.surplus t := hguard.1 rfl
    refine ⟨h.shrink rfl (tokens_le rfl (fun u hu => by simp [hu]) ?_),
      hplain.next rfl id (by simp)⟩
    rw [tokens_at ht, goto_surplus, count_surplus_same]
    show s.surplus t - 1 + 1 ≤ s.surplus t + 0
    omega
  | @go t m' pc hact =>
    have hfailed : ∀ mtr, s.pc t = .lockTried mtr → mtr ≠ 0 → s.mutex.owner = w.pid t := by
      rw [hfixed.owner]
      exact hplain.failed t
    obtain ⟨hout, htried, htoken⟩ :=
      act_plain hact (by rwa [hfixed.type]) (hplain.outside t) hfailed
    obtain ⟨⟨-, -, -, hsame⟩, -⟩ := act_fixed hact hfixed.sig (hfixed.reads t)
    refine ⟨h.shrink hsame (tokens_le rfl (fun _ _ => rfl) ?_),
      hplain.next rfl hout fun mtr hmtr => absurd hmtr (htried mtr)⟩
    exact Nat.add_le_add_left htoken _
  | @lock t which pc word hact hlock =>
    obtain ⟨ht, rfl, rfl⟩ := act_lock_plain hact (hplain.outside t)
    rw [hlll] at hlock
    obtain ⟨hfree, rfl⟩ := hlock
    refine ⟨h.acquire hfree (by simp) ?_ fun u hu => tokens_other setWord_goto_pc hu rfl,
      hplain.next setWord_goto_pc id (by simp)⟩
    rw [tokens_self setWord_goto_pc, tokens_at ht]
    exact Nat.le_refl _
  | @trylock t f result word hact hlock =>
    obtain ⟨ht, rfl⟩ := act_trylock_eq hact
    rw [hlll] at hlock
    rcases hlock with ⟨hfree, rfl, rfl⟩ | ⟨hheld, hresult, rfl⟩
    · refine ⟨h.acquire hfree (by simp) ?_ fun u hu => tokens_other setWord_goto_pc hu rfl,
        hplain.next setWord_goto_pc id fun mtr hmtr hne => ?_⟩
      · rw [tokens_self setWord_goto_pc, tokens_at ht]
        exact Nat.le_refl _
      · obtain rfl := Pc.lockTried.inj hmtr
        exact absurd rfl hne
    · refine ⟨h.shrink rfl (tokens_le setWord_goto_pc (fun _ _ => rfl) ?_),
        hplain.next setWord_goto_pc id fun mtr hmtr hne => ?_⟩
      · rw [tokens_at ht]
        show s.surplus t + (if result = 0 then 1 else 0) ≤ s.surplus t + 0
        rw [if_neg hresult]
      · rw [← hfixed.owner]
        by_contra howner
        exact hheld (hguard.2 ht howner)
  | @unlock t which pc word hact hlock =>
    obtain ⟨ht, rfl, rfl⟩ := act_unlock_plain hact (hplain.outside t)
    refine ⟨h.release ?_ fun u hu => tokens_other setWord_goto_pc hu rfl,
      hplain.next setWord_goto_pc id (by simp)⟩
    rw [tokens_self setWord_goto_pc, tokens_at ht]
    rfl
  | @lockReturns t result ht =>
    refine ⟨h.shrink rfl (tokens_le rfl (fun u hu => by simp [hu]) ?_),
      hplain.next rfl id (by simp)⟩
    rw [tokens_at ht, goto_surplus, count_surplus_same]
    show _ + 0 ≤ _ + if result = 0 then 1 else 0
    split <;> omega
  | @unlockReturns t result ht =>
    refine ⟨h.shrink rfl (tokens_le rfl (fun _ _ => rfl) ?_), hplain.next rfl id (by simp)⟩
    rw [tokens_at ht]
    exact Nat.le_refl _

theorem locks_held (hlll : w.lll = idealLock) (ht : s.pc t = .lockTry)
    (howner : s.mutex.owner ≠ w.pid t) (hheld : s.mutex.lll ≠ 0) :
    ∃ s', Run (Step w) Disciplined s s' ∧ 0 < s'.surplus t ∧
      ∀ u, u ≠ t → s'.surplus u = s.surplus u := by
  have hgo : ∀ b : State T, Disciplined b (t, .go) := fun b h => by simp at h
  have hact : w.act t s.mutex (s.pc t) = some (.trylock .lockTried) := by rw [ht]; rfl
  have hfails : w.lll.trylock s.mutex.lll 1 s.mutex.lll := by
    rw [hlll]
    exact .inr ⟨hheld, by decide, rfl⟩
  have htry := Step.trylock hact hfails
  generalize hs1 : (s.setWord .own s.mutex.lll).goto t (.lockTried 1) = s1 at htry
  have hact1 : w.act t s1.mutex (s1.pc t) = some (.go s1.mutex (.lockReturn 0)) := by
    subst hs1
    simp [Platform.act, howner]
  have hreturn := Step.go hact1
  generalize hs2 : ({ s1.goto t (.lockReturn 0) with mutex := s1.mutex } : State T) = s2 at hreturn
  have hpc2 : s2.pc t = .lockReturn 0 := by
    subst hs2
    simp
  have hrun := ((Run.tail _ .refl (hgo s) htry).tail _ (hgo s1) hreturn).tail _ (hgo s2)
    (Step.lockReturns hpc2)
  refine ⟨_, hrun, by simp, fun u hu => ?_⟩
  subst hs2 hs1
  simp [hu]

/-- **Mutexes exclude in all runs in which no thread finds an error checking mutex of somebody
else held.** Where one does while another thread is between a lock and an unlock, both come to
hold it. -/
theorem exclusive_of_orderly (w : Platform T) (hlll : w.lll = idealLock)
    (hpid : Function.Injective w.pid) (i : T) (attr : Option Word) :
    (∀ s, Run (Step w) (Orderly w) (start (pthreadMutexInit ⟨0, 0, 0, 0, 0⟩ (w.pid i) attr)) s →
      Exclusive s) ∧
    ∀ (s : State T) t u, ¬ FindsFree w s (t, .go) → u ≠ t → 0 < s.surplus u →
      ∃ s', Run (Step w) Disciplined s s' ∧ ¬ Exclusive s' := by
  constructor
  · intro s hrun
    generalize hm : pthreadMutexInit ⟨0, 0, 0, 0, 0⟩ (w.pid i) attr = m at hrun
    have hsig : m.sig = 0 := by
      subst hm
      cases attr <;> rfl
    have hfixed : Fixed m (start m : State T) := ⟨hsig, rfl, rfl, fun t => id⟩
    rcases Decidable.em (m.type = mutexRecursive) with htype | htype
    · have howned : Owned w m (start m) :=
        ⟨fun t ht => absurd ht (Nat.lt_irrefl 0), fun t => False.elim⟩
      have hkeep : ∀ b a c, Fixed m b ∧ Owned w m b → Orderly w b a → Step w b a c →
          Fixed m c ∧ Owned w m c := fun b a c h _ hstep =>
        ⟨h.1.step hstep, h.2.step h.1 htype hstep⟩
      have hend := hrun.invariant ⟨hfixed, howned⟩ hkeep
      exact fun t u ht hu => hpid ((hend.2.surplus t ht).trans (hend.2.surplus u hu).symm)
    · have hsole : Sole (start m : State T) := by
        refine ⟨fun t => Nat.zero_le 1, fun t u ht => absurd ht (Nat.lt_irrefl 0),
          fun t ht => absurd ht (Nat.lt_irrefl 0)⟩
      have hplain : Plain w m (start m) := ⟨fun t => id, fun t mtr hmtr => by simp [start] at hmtr⟩
      have hkeep : ∀ b a c, Fixed m b ∧ Sole b ∧ Plain w m b → Orderly w b a → Step w b a c →
          Fixed m c ∧ Sole c ∧ Plain w m c := fun b a c h hguard hstep =>
        ⟨h.1.step hstep, h.2.1.step h.2.2 h.1 htype hlll hguard hstep⟩
      have hend := hrun.invariant ⟨hfixed, hsole, hplain⟩ hkeep
      exact fun t u ht hu => hend.2.1.unique t u (Nat.lt_of_lt_of_le ht (Nat.le_add_right _ _))
        (Nat.lt_of_lt_of_le hu (Nat.le_add_right _ _))
  · intro s t u hbreak hne hu
    simp only [FindsFree, not_forall] at hbreak
    obtain ⟨ht, howner, hheld⟩ := hbreak
    obtain ⟨s', hrun, ht', hother⟩ := locks_held hlll ht howner hheld
    rw [← hother u hne] at hu
    exact ⟨s', hrun, fun hexclusive => hne (hexclusive u t hu ht')⟩

instance (s : State T) (a : T × Move) : Decidable (Disciplined s a) :=
  inferInstanceAs (Decidable (_ → _))

instance (s : State T) (a : T × Move) : Decidable (FindsFree w s a) :=
  inferInstanceAs (Decidable (_ → _ → _))

instance (s : State T) (a : T × Move) : Decidable (Orderly w s a) :=
  inferInstanceAs (Decidable (_ ∧ _))

/-- An error checking mutex that the first of two threads has set up. -/
def checkedMutex : OSMutex :=
  pthreadMutexInit ⟨0, 0, 0, 0, 0⟩ (twoThreads.pid 0) (some mutexErrorcheck)

/-- Both lock it. -/
theorem not_exclusive :
    ∃ s, Run (Step twoThreads) Disciplined (start checkedMutex) s ∧ ¬ Exclusive s := by
  have hrun : ((twoThreads.execAll Disciplined (start checkedMutex)
      ((0, .callLock) :: List.replicate 7 (0, .go) ++
        (1, .callLock) :: List.replicate 7 (1, .go))).map fun s => (s.surplus 0, s.surplus 1)) =
      some (1, 1) := by decide
  obtain ⟨s, hs, hsurplus⟩ := Option.map_eq_some_iff.mp hrun
  obtain ⟨h0, h1⟩ := Prod.mk.inj hsurplus
  refine ⟨s, run_of_execAll rfl hs, fun hexclusive => ?_⟩
  exact absurd (hexclusive 0 1 (by omega) (by omega)) (by decide)

/-- The second thread locks it while it is free. -/
theorem exclusive_sample : ∃ s, Run (Step twoThreads) (Orderly twoThreads) (start checkedMutex) s ∧
    s.surplus 1 = 1 ∧ Exclusive s := by
  have hrun : ((twoThreads.execAll (Orderly twoThreads) (start checkedMutex)
      ((1, .callLock) :: List.replicate 7 (1, .go))).map fun s => s.surplus 1) = some 1 := by
    decide
  obtain ⟨s, hs, hsurplus⟩ := Option.map_eq_some_iff.mp hrun
  have hguarded := run_of_execAll rfl hs
  have hpid : ∀ t u, twoThreads.pid t = twoThreads.pid u → t = u := by decide
  exact ⟨s, hguarded, hsurplus,
    (exclusive_of_orderly twoThreads rfl (fun t u => hpid t u) 0 (some mutexErrorcheck)).1 s
      hguarded⟩

end LibSystem.Core.Mutex
