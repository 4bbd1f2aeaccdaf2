import LibSystem.LowLevelLock
import LibSystem.Memory

/-!
# Calling a routine once

`pthread_once` of `OSThread.c` on one control, for any number of threads that call it as often as
they like, over the low level lock.
-/

namespace LibSystem.Core.ThreadOnce

open LowLevelLock (LeavesHolder)

/-- `_PTHREAD_ONCE_SIG_init`. -/
def onceSigInit : Word := 0x30B1BCBA

/-- The next thing that a thread does. -/
inductive Pc where
  /-- Outside of `pthread_once`. -/
  | out
  | readSig
  /-- In `lll_lock`. -/
  | lock
  | recheck
  /-- In the routine. -/
  | routine
  | clearSig
  /-- In `lll_unlock`. -/
  | unlock
  deriving DecidableEq

inductive Event (T : Type) where
  | start (t : T)
  | finish (t : T)
  | ret (t : T)
  deriving DecidableEq

/-- `OSThreadOnce`, and its threads. `trace` is what has happened so far. -/
structure State (T : Type) where
  sig : Word
  control : LowLevelLock.State T
  pc : T → Pc
  trace : List (Event T)

/-- `PTHREAD_ONCE_INIT`. -/
def init (T : Type) : State T := ⟨onceSigInit, LowLevelLock.init T, fun _ => .out, []⟩

variable {T : Type} [DecidableEq T]

def State.goto (s : State T) (t : T) (pc : Pc) : State T :=
  { s with pc := Function.update s.pc t pc }

def State.record (s : State T) (e : Event T) : State T := { s with trace := s.trace ++ [e] }

inductive Step (s : State T) (t : T) : State T → Prop where
  | call (h : s.pc t = .out) : Step s t (s.goto t .readSig)
  | slow (h : s.pc t = .readSig) (hsig : s.sig = onceSigInit) : Step s t (s.goto t .lock)
  | fast (h : s.pc t = .readSig) (hsig : s.sig ≠ onceSigInit) :
      Step s t ((s.goto t .out).record (.ret t))
  | lock {control : LowLevelLock.State T} (h : s.pc t = .lock) (hpc : s.control.pc t ≠ .holds)
      (hstep : LowLevelLock.Step s.control t control) : Step s t { s with control := control }
  | locked (h : s.pc t = .lock) (hpc : s.control.pc t = .holds) : Step s t (s.goto t .recheck)
  | first (h : s.pc t = .recheck) (hsig : s.sig = onceSigInit) :
      Step s t ((s.goto t .routine).record (.start t))
  | later (h : s.pc t = .recheck) (hsig : s.sig ≠ onceSigInit) : Step s t (s.goto t .unlock)
  | finish (h : s.pc t = .routine) : Step s t ((s.goto t .clearSig).record (.finish t))
  | clear (h : s.pc t = .clearSig) : Step s t { s.goto t .unlock with sig := 0 }
  | unlock {control : LowLevelLock.State T} (h : s.pc t = .unlock) (hpc : s.control.pc t ≠ .idle)
      (hstep : LowLevelLock.Step s.control t control) : Step s t { s with control := control }
  | leave (h : s.pc t = .unlock) (hpc : s.control.pc t = .idle) :
      Step s t ((s.goto t .out).record (.ret t))

/-- No exchange clears the word of the control while a thread holds it. -/
def ControlKept (s : State T) (t : T) : Prop := LeavesHolder s.control t

@[simp] theorem goto_pc_same (s : State T) (t : T) (pc : Pc) : (s.goto t pc).pc t = pc :=
  Function.update_self _ _ _

@[simp] theorem goto_pc_other (s : State T) {t u : T} (pc : Pc) (h : u ≠ t) :
    (s.goto t pc).pc u = s.pc u :=
  Function.update_of_ne h _ _

@[simp] theorem goto_sig (s : State T) (t : T) (pc : Pc) : (s.goto t pc).sig = s.sig := rfl

@[simp] theorem goto_control (s : State T) (t : T) (pc : Pc) :
    (s.goto t pc).control = s.control := rfl

@[simp] theorem goto_trace (s : State T) (t : T) (pc : Pc) : (s.goto t pc).trace = s.trace := rfl

omit [DecidableEq T] in
@[simp] theorem record_pc (s : State T) (e : Event T) : (s.record e).pc = s.pc := rfl

omit [DecidableEq T] in
@[simp] theorem record_sig (s : State T) (e : Event T) : (s.record e).sig = s.sig := rfl

omit [DecidableEq T] in
@[simp] theorem record_control (s : State T) (e : Event T) :
    (s.record e).control = s.control := rfl

omit [DecidableEq T] in
@[simp] theorem record_trace (s : State T) (e : Event T) :
    (s.record e).trace = s.trace ++ [e] := rfl

/-! ## What a thread may be doing with the control -/

/-- The places of the lock for each place of `pthread_once`. -/
def Pc.Fits : Pc → LowLevelLock.Pc → Prop
  | .out, low | .readSig, low => low = .idle
  | .lock, low => low = .idle ∨ low.Waiting ∨ low = .asleep ∨ low = .holds
  | .recheck, low | .routine, low | .clearSig, low => low = .holds
  | .unlock, low => low = .idle ∨ low.Owning

def Placed (s : State T) : Prop := ∀ t, (s.pc t).Fits (s.control.pc t)

theorem low_other {control control' : LowLevelLock.State T} {t u : T}
    (hstep : LowLevelLock.Step control t control') (hut : u ≠ t) :
    control'.pc u = control.pc u ∨ (control.pc u = .asleep ∧ control'.pc u = .waitCas20) := by
  cases hstep with
  | advance h => exact .inl (by simp [hut])
  | @wakeOne v ht hv =>
    by_cases huv : u = v
    · subst huv
      exact .inr ⟨hv, by simp [hut]⟩
    · exact .inl (by simp [hut, huv])
  | wakeNone ht hnone => exact .inl (by simp [hut])

theorem low_lock {control control' : LowLevelLock.State T} {t : T}
    (hstep : LowLevelLock.Step control t control') (hfits : Pc.lock.Fits (control.pc t))
    (hpc : control.pc t ≠ .holds) : Pc.lock.Fits (control'.pc t) := by
  cases hstep with
  | @advance pc word h =>
    have hpc' : ({ control.goto t pc with word := word } : LowLevelLock.State T).pc t = pc := by
      simp
    rw [hpc']
    generalize control.pc t = low at hfits hpc h
    cases low <;> simp_all [Pc.Fits, LowLevelLock.Pc.Waiting, LowLevelLock.advance,
      LowLevelLock.compareAndExchange] <;> grind [LowLevelLock.Pc.Waiting]
  | wakeOne ht hu => simp [ht, Pc.Fits, LowLevelLock.Pc.Waiting] at hfits
  | wakeNone ht hnone => simp [ht, Pc.Fits, LowLevelLock.Pc.Waiting] at hfits

theorem low_unlock {control control' : LowLevelLock.State T} {t : T}
    (hstep : LowLevelLock.Step control t control') (hfits : Pc.unlock.Fits (control.pc t))
    (hpc : control.pc t ≠ .idle) : Pc.unlock.Fits (control'.pc t) := by
  cases hstep with
  | @advance pc word h =>
    have hpc' : ({ control.goto t pc with word := word } : LowLevelLock.State T).pc t = pc := by
      simp
    rw [hpc']
    generalize control.pc t = low at hfits hpc h
    cases low <;> simp_all [Pc.Fits, LowLevelLock.Pc.Owning, LowLevelLock.advance,
      LowLevelLock.compareAndExchange] <;> grind [LowLevelLock.Pc.Owning]
  | wakeOne ht hu => exact .inl (by simp)
  | wakeNone ht hnone => exact .inl (by simp)

theorem Pc.Fits.waken {pc : Pc} (h : pc.Fits .asleep) : pc.Fits .waitCas20 := by
  cases pc <;> simp_all [Pc.Fits, LowLevelLock.Pc.Owning, LowLevelLock.Pc.Waiting]

variable {s s' : State T} {t : T}

theorem Placed.goto (h : Placed s) (pc : Pc) (hfits : pc.Fits (s.control.pc t)) :
    Placed (s.goto t pc) := by
  intro u
  by_cases hut : u = t
  · subst hut
    rwa [goto_pc_same]
  · rw [goto_pc_other s pc hut]
    exact h u

theorem Placed.low (h : Placed s) {control : LowLevelLock.State T}
    (hstep : LowLevelLock.Step s.control t control) (hfits : (s.pc t).Fits (control.pc t)) :
    Placed { s with control := control } := by
  intro u
  by_cases hut : u = t
  · subst hut
    exact hfits
  · obtain heq | ⟨hasleep, hwoken⟩ := low_other hstep hut
    · exact heq ▸ h u
    · have hu := h u
      rw [hasleep] at hu
      exact hwoken ▸ hu.waken

omit [DecidableEq T] in
theorem placed_init : Placed (init T) := fun _ => rfl

theorem Placed.step (h : Placed s) (hstep : Step s t s') : Placed s' := by
  have ht := h t
  cases hstep with
  | call hpc =>
    rw [hpc] at ht
    exact h.goto _ ht
  | slow hpc hsig =>
    rw [hpc] at ht
    exact h.goto _ (.inl ht)
  | fast hpc hsig =>
    rw [hpc] at ht
    exact h.goto .out ht
  | lock hpc hlow hlock =>
    rw [hpc] at ht
    exact h.low hlock (hpc ▸ low_lock hlock ht hlow)
  | locked hpc hlow => exact h.goto _ hlow
  | first hpc hsig =>
    rw [hpc] at ht
    exact h.goto .routine ht
  | later hpc hsig =>
    rw [hpc] at ht
    exact h.goto _ (.inr (ht ▸ trivial))
  | finish hpc =>
    rw [hpc] at ht
    exact h.goto .clearSig ht
  | clear hpc =>
    rw [hpc] at ht
    exact h.goto .unlock (.inr (ht ▸ trivial))
  | unlock hpc hlow hlock =>
    rw [hpc] at ht
    exact h.low hlock (hpc ▸ low_unlock hlock ht hlow)
  | leave hpc hlow => exact h.goto .out hlow

theorem control_runs (h : Run Step ControlKept (init T) s) :
    Run LowLevelLock.Step LeavesHolder (LowLevelLock.init T) s.control := by
  refine h.invariant (I := fun s => Run LowLevelLock.Step LeavesHolder (LowLevelLock.init T)
    s.control) .refl fun a t b ha hguard hstep => ?_
  cases hstep with
  | lock hpc hlow hlock => exact ha.tail t hguard hlock
  | unlock hpc hlow hlock => exact ha.tail t hguard hlock
  | _ => exact ha

/-! ## The routine -/

/-- Between the start of the routine and the clearing of the signature. -/
def Pc.Busy : Pc → Prop
  | .routine | .clearSig => True
  | _ => False

def Event.isStart : Event T → Bool
  | .start _ => true
  | _ => false

def Event.isFinish : Event T → Bool
  | .finish _ => true
  | _ => false

def starts (trace : List (Event T)) : Nat := trace.countP Event.isStart

def finishes (trace : List (Event T)) : Nat := trace.countP Event.isFinish

/-- The one call of the routine is yet to come, goes on in a thread, has returned to it, or is
over. -/
inductive Stage (s : State T) : Prop where
  | fresh (hsig : s.sig = onceSigInit) (hidle : ∀ t, ¬ (s.pc t).Busy)
      (hstarts : starts s.trace = 0) (hfinishes : finishes s.trace = 0)
  | running (t : T) (hpc : s.pc t = .routine) (hothers : ∀ u, u ≠ t → ¬ (s.pc u).Busy)
      (hsig : s.sig = onceSigInit) (hstarts : starts s.trace = 1)
      (hfinishes : finishes s.trace = 0)
  | finished (t : T) (hpc : s.pc t = .clearSig) (hothers : ∀ u, u ≠ t → ¬ (s.pc u).Busy)
      (hsig : s.sig = onceSigInit) (hstarts : starts s.trace = 1)
      (hfinishes : finishes s.trace = 1)
  | cleared (hsig : s.sig ≠ onceSigInit) (hidle : ∀ t, ¬ (s.pc t).Busy)
      (hstarts : starts s.trace = 1) (hfinishes : finishes s.trace = 1)

omit [DecidableEq T] in
theorem starts_snoc (trace : List (Event T)) (e : Event T) :
    starts (trace ++ [e]) = starts trace + if e.isStart then 1 else 0 := by
  simp [starts, List.countP_append, List.countP_singleton]

omit [DecidableEq T] in
theorem finishes_snoc (trace : List (Event T)) (e : Event T) :
    finishes (trace ++ [e]) = finishes trace + if e.isFinish then 1 else 0 := by
  simp [finishes, List.countP_append, List.countP_singleton]

omit [DecidableEq T] in
theorem Stage.starts_le (h : Stage s) : starts s.trace ≤ 1 := by
  cases h <;> omega

omit [DecidableEq T] in
theorem Stage.over (h : Stage s) (hsig : s.sig ≠ onceSigInit) :
    starts s.trace = 1 ∧ finishes s.trace = 1 := by
  cases h with
  | cleared _ _ hstarts hfinishes => exact ⟨hstarts, hfinishes⟩
  | fresh hinit | running _ _ _ hinit | finished _ _ _ hinit => exact absurd hinit hsig

omit [DecidableEq T] in
theorem Stage.same (h : Stage s) (hsig : s'.sig = s.sig)
    (hbusy : ∀ u, s'.pc u = s.pc u ∨ ¬ (s'.pc u).Busy ∧ ¬ (s.pc u).Busy)
    (hstarts : starts s'.trace = starts s.trace)
    (hfinishes : finishes s'.trace = finishes s.trace) : Stage s' := by
  have hidle : ∀ u, ¬ (s.pc u).Busy → ¬ (s'.pc u).Busy := fun u hu => by
    obtain heq | hnot := hbusy u
    · rwa [heq]
    · exact hnot.1
  have hkept : ∀ u, (s.pc u).Busy → s'.pc u = s.pc u := fun u hu =>
    (hbusy u).resolve_right fun hnot => hnot.2 hu
  cases h with
  | fresh hinit hall h1 h2 =>
    exact .fresh (hsig.trans hinit) (fun u => hidle u (hall u)) (hstarts.trans h1)
      (hfinishes.trans h2)
  | running t hpc hothers hinit h1 h2 =>
    exact .running t ((hkept t (hpc ▸ trivial)).trans hpc) (fun u hu => hidle u (hothers u hu))
      (hsig.trans hinit) (hstarts.trans h1) (hfinishes.trans h2)
  | finished t hpc hothers hinit h1 h2 =>
    exact .finished t ((hkept t (hpc ▸ trivial)).trans hpc) (fun u hu => hidle u (hothers u hu))
      (hsig.trans hinit) (hstarts.trans h1) (hfinishes.trans h2)
  | cleared hinit hall h1 h2 =>
    exact .cleared (hsig ▸ hinit) (fun u => hidle u (hall u)) (hstarts.trans h1)
      (hfinishes.trans h2)

theorem goto_busy (s : State T) (pc : Pc) (hold : ¬ (s.pc t).Busy) (hnew : ¬ pc.Busy) (u : T) :
    (s.goto t pc).pc u = s.pc u ∨ ¬ ((s.goto t pc).pc u).Busy ∧ ¬ (s.pc u).Busy := by
  by_cases hut : u = t
  · subst hut
    exact .inr ⟨by rwa [goto_pc_same], hold⟩
  · exact .inl (goto_pc_other s pc hut)

omit [DecidableEq T] in
theorem Placed.others (h : Placed s)
    (hunique : ∀ t u, s.control.pc t = .holds → s.control.pc u = .holds → t = u)
    (ht : s.control.pc t = .holds) : ∀ u, u ≠ t → ¬ (s.pc u).Busy := by
  intro u hut hbusy
  have hu := h u
  refine hut (hunique u t ?_ ht)
  cases hpc : s.pc u <;> simp_all [Pc.Busy, Pc.Fits]

theorem Stage.step (h : Stage s) (hplaced : Placed s)
    (hunique : ∀ t u, s.control.pc t = .holds → s.control.pc u = .holds → t = u)
    (hstep : Step s t s') : Stage s' := by
  have ht := hplaced t
  cases hstep with
  | call hpc =>
    exact h.same rfl (goto_busy s _ (by simp [hpc, Pc.Busy]) (by simp [Pc.Busy])) rfl rfl
  | slow hpc hsig =>
    exact h.same rfl (goto_busy s _ (by simp [hpc, Pc.Busy]) (by simp [Pc.Busy])) rfl rfl
  | fast hpc hsig =>
    refine h.same rfl (goto_busy s .out (by simp [hpc, Pc.Busy]) (by simp [Pc.Busy])) ?_ ?_
    · simp [starts_snoc, Event.isStart]
    · simp [finishes_snoc, Event.isFinish]
  | lock hpc hlow hlock => exact h.same rfl (fun u => .inl rfl) rfl rfl
  | locked hpc hlow =>
    exact h.same rfl (goto_busy s _ (by simp [hpc, Pc.Busy]) (by simp [Pc.Busy])) rfl rfl
  | first hpc hsig =>
    rw [hpc] at ht
    have hothers := hplaced.others hunique ht
    -- Nobody is busy, and the signature says that nobody was.
    obtain ⟨hstarts, hfinishes⟩ : starts s.trace = 0 ∧ finishes s.trace = 0 := by
      cases h with
      | fresh _ _ h1 h2 => exact ⟨h1, h2⟩
      | running u hu | finished u hu =>
        have hut : u ≠ t := by
          rintro rfl
          rw [hpc] at hu
          exact absurd hu (by simp)
        exact absurd (hu ▸ trivial) (hothers u hut)
      | cleared hnot => exact absurd hsig hnot
    refine .running t (by simp) (fun u hu => ?_) hsig ?_ ?_
    · rw [record_pc, goto_pc_other s _ hu]
      exact hothers u hu
    · simp [starts_snoc, Event.isStart, hstarts]
    · simp [finishes_snoc, Event.isFinish, hfinishes]
  | later hpc hsig =>
    exact h.same rfl (goto_busy s _ (by simp [hpc, Pc.Busy]) (by simp [Pc.Busy])) rfl rfl
  | finish hpc =>
    rw [hpc] at ht
    have hothers := hplaced.others hunique ht
    obtain ⟨hsig, hstarts, hfinishes⟩ :
        s.sig = onceSigInit ∧ starts s.trace = 1 ∧ finishes s.trace = 0 := by
      cases h with
      | fresh _ hidle | cleared _ hidle => exact absurd (hpc ▸ trivial) (hidle t)
      | running _ _ _ hsig h1 h2 => exact ⟨hsig, h1, h2⟩
      | finished u hu hall =>
        have hut : t ≠ u := by
          rintro rfl
          rw [hpc] at hu
          exact absurd hu (by simp)
        exact absurd (hpc ▸ trivial) (hall t hut)
    refine .finished t (by simp) (fun u hu => ?_) hsig ?_ ?_
    · rw [record_pc, goto_pc_other s _ hu]
      exact hothers u hu
    · simp [starts_snoc, Event.isStart, hstarts]
    · simp [finishes_snoc, Event.isFinish, hfinishes]
  | clear hpc =>
    rw [hpc] at ht
    have hothers := hplaced.others hunique ht
    obtain ⟨hstarts, hfinishes⟩ : starts s.trace = 1 ∧ finishes s.trace = 1 := by
      cases h with
      | fresh _ hidle | cleared _ hidle => exact absurd (hpc ▸ trivial) (hidle t)
      | finished _ _ _ _ h1 h2 => exact ⟨h1, h2⟩
      | running u hu hall =>
        have hut : t ≠ u := by
          rintro rfl
          rw [hpc] at hu
          exact absurd hu (by simp)
        exact absurd (hpc ▸ trivial) (hall t hut)
    refine .cleared (by decide : (0 : Word) ≠ onceSigInit) (fun u => ?_) hstarts hfinishes
    by_cases hut : u = t
    · subst hut
      simp [State.goto, Pc.Busy]
    · have hu := hothers u hut
      rwa [← goto_pc_other s .unlock hut] at hu
  | unlock hpc hlow hlock => exact h.same rfl (fun u => .inl rfl) rfl rfl
  | leave hpc hlow =>
    refine h.same rfl (goto_busy s .out (by simp [hpc, Pc.Busy]) (by simp [Pc.Busy])) ?_ ?_
    · simp [starts_snoc, Event.isStart]
    · simp [finishes_snoc, Event.isFinish]

/-! ## The returns -/

/-- A thread that unlocks has found the signature cleared, or has cleared it. -/
def Cleared (s : State T) : Prop := ∀ t, s.pc t = .unlock → s.sig ≠ onceSigInit

/-- At each return the routine had been called once, and had returned. -/
def ReturnsLate (trace : List (Event T)) : Prop :=
  ∀ before t later, trace = before ++ .ret t :: later → starts before = 1 ∧ finishes before = 1

theorem Cleared.step (h : Cleared s) (hstep : Step s t s') : Cleared s' := by
  have hgoto : ∀ {s' : State T} {pc : Pc}, s'.pc = (s.goto t pc).pc → s'.sig = s.sig →
      (pc = .unlock → s.sig ≠ onceSigInit) → Cleared s' := by
    intro s' pc hpc hsig hunlock u hu
    rw [hpc] at hu
    rw [hsig]
    by_cases hut : u = t
    · subst hut
      rw [goto_pc_same] at hu
      exact hunlock hu
    · rw [goto_pc_other s pc hut] at hu
      exact h u hu
  cases hstep with
  | later hpc hsig => exact hgoto rfl rfl fun _ => hsig
  | clear hpc => exact fun _ _ => (by decide : (0 : Word) ≠ onceSigInit)
  | lock | unlock => exact h
  | _ => exact hgoto rfl rfl (by simp)

omit [DecidableEq T] in
theorem ReturnsLate.snoc {trace : List (Event T)} (h : ReturnsLate trace) {e : Event T}
    (he : (∃ t, e = .ret t) → starts trace = 1 ∧ finishes trace = 1) :
    ReturnsLate (trace ++ [e]) := by
  intro before t later heq
  rcases List.eq_nil_or_concat later with rfl | ⟨later, last, rfl⟩
  · obtain ⟨rfl, hlast⟩ := List.append_inj' heq rfl
    exact he ⟨t, by simpa using hlast⟩
  · rw [List.concat_eq_append, ← List.cons_append, ← List.append_assoc] at heq
    exact h before t later (List.append_inj' heq rfl).1

theorem ReturnsLate.step (h : ReturnsLate s.trace) (hcleared : Cleared s) (hstage : Stage s)
    (hstep : Step s t s') : ReturnsLate s'.trace := by
  cases hstep with
  | fast hpc hsig => exact h.snoc fun _ => hstage.over hsig
  | leave hpc hlow => exact h.snoc fun _ => hstage.over (hcleared t hpc)
  | first hpc hsig | finish hpc => exact h.snoc (by simp)
  | _ => exact h

/-! ## The runs -/

structure Invariant (s : State T) : Prop where
  placed : Placed s
  stage : Stage s
  cleared : Cleared s
  returns : ReturnsLate s.trace

theorem invariant_reaches (h : Run Step ControlKept (init T) s) : Invariant s := by
  induction h with
  | refl =>
    exact ⟨placed_init, .fresh rfl (by simp [init, Pc.Busy]) rfl rfl, by simp [Cleared, init],
      by simp [ReturnsLate, init]⟩
  | tail t hrun hguard hstep ih =>
    have hunique := LowLevelLock.holds_unique.1 _ (control_runs hrun)
    exact ⟨ih.placed.step hstep, ih.stage.step ih.placed hunique hstep, ih.cleared.step hstep,
      ih.returns.step ih.cleared ih.stage hstep⟩

/-- **The routine is called once.** In all runs in which the lock of the control is not cleared
under a thread that holds it, the routine is not called twice, and whenever a call of
`pthread_once` returns, the routine has been called and has returned. -/
theorem routine_once (h : Run Step ControlKept (init T) s) :
    starts s.trace ≤ 1 ∧ ∀ before t later, s.trace = before ++ .ret t :: later →
      starts before = 1 ∧ finishes before = 1 :=
  ⟨(invariant_reaches h).stage.starts_le, (invariant_reaches h).returns⟩

/-! ## Two threads -/

/-- The next step of a thread that neither sleeps nor wakes another one. -/
def next (s : State T) (t : T) : Option (State T) :=
  let low := (LowLevelLock.advance s.control.word (s.control.pc t)).map fun r =>
    { s with control := { s.control.goto t r.1 with word := r.2 } }
  match s.pc t with
  | .out => some (s.goto t .readSig)
  | .readSig =>
    some (if s.sig = onceSigInit then s.goto t .lock else (s.goto t .out).record (.ret t))
  | .lock => if s.control.pc t = .holds then some (s.goto t .recheck) else low
  | .recheck =>
    some (if s.sig = onceSigInit then (s.goto t .routine).record (.start t)
      else s.goto t .unlock)
  | .routine => some ((s.goto t .clearSig).record (.finish t))
  | .clearSig => some { s.goto t .unlock with sig := 0 }
  | .unlock =>
    if s.control.pc t = .idle then some ((s.goto t .out).record (.ret t)) else low

theorem next_step (h : next s t = some s') : Step s t s' := by
  unfold next at h
  dsimp only at h
  split at h <;> rename_i hpc
  · obtain rfl := Option.some.inj h
    exact .call hpc
  · obtain rfl := Option.some.inj h
    split
    · exact .slow hpc ‹_›
    · exact .fast hpc ‹_›
  · split at h
    · obtain rfl := Option.some.inj h
      exact .locked hpc ‹_›
    · obtain ⟨⟨pc, word⟩, hadv, rfl⟩ := Option.map_eq_some_iff.mp h
      exact .lock hpc ‹_› (.advance hadv)
  · obtain rfl := Option.some.inj h
    split
    · exact .first hpc ‹_›
    · exact .later hpc ‹_›
  · obtain rfl := Option.some.inj h
    exact .finish hpc
  · obtain rfl := Option.some.inj h
    exact .clear hpc
  · split at h
    · obtain rfl := Option.some.inj h
      exact .leave hpc ‹_›
    · obtain ⟨⟨pc, word⟩, hadv, rfl⟩ := Option.map_eq_some_iff.mp h
      exact .unlock hpc ‹_› (.advance hadv)

instance (s : State Bool) (t : Bool) : Decidable (ControlKept s t) :=
  inferInstanceAs (Decidable (s.control.word ≠ 0 → s.control.pc t = .exchangeCas s.control.word →
    ∀ u, s.control.pc u ≠ .holds))

/-- The threads take steps in the given order, as long as the control is kept. -/
def schedule (s : State Bool) : List Bool → Option (State Bool)
  | [] => some s
  | t :: l => if ControlKept s t then (next s t).bind fun s => schedule s l else none

theorem schedule_runs {s s' : State Bool} {l : List Bool} (h : schedule s l = some s') :
    Run Step ControlKept s s' := by
  induction l generalizing s with
  | nil =>
    obtain rfl := Option.some.inj h
    exact .refl
  | cons t l ih =>
    unfold schedule at h
    split at h
    · rename_i hguard
      obtain ⟨s1, hnext, hrest⟩ := Option.bind_eq_some_iff.mp h
      exact (Run.tail t .refl hguard (next_step hnext)).trans (ih hrest)
    · simp at h

/-- Both threads find the routine not called, and the second one waits for the lock until the
first one has been through it. -/
def twoCalls : List Bool :=
  [false, false, true, true] ++ List.replicate 12 false ++ List.replicate 10 true

def calledTwice : State Bool := (schedule (init Bool) twoCalls).getD (init Bool)

theorem routine_once_calledTwice :
    starts calledTwice.trace ≤ 1 ∧ ∀ before t later,
      calledTwice.trace = before ++ .ret t :: later →
        starts before = 1 ∧ finishes before = 1 :=
  routine_once (schedule_runs
    (rfl : schedule (init Bool) twoCalls = some calledTwice))

example : calledTwice.trace = [.start false, .finish false, .ret false, .ret true] := by decide

end LibSystem.Core.ThreadOnce
