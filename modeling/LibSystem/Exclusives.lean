import LibSystem.Observe
import Mathlib.Logic.Function.Basic

/-!
# Load-exclusive and store-exclusive

A load-exclusive leaves a tag on the location for its thread. A store takes away the tags that it
touches, and a tag may get lost at any time. A store-exclusive stores under a tag only. So a thread
that loads, computes and stores in this way, until the store succeeds, does it all at once.
-/

namespace LibSystem.Exclusives

/-- A memory of type `M`, with locations `L` that may overlap, and values that depend on the
location. -/
structure Layout (M L : Type) (V : L → Type) where
  get : (l : L) → M → V l
  put : (l : L) → V l → M → M
  Apart : L → L → Prop
  get_put : ∀ l l' v m, Apart l l' → get l' (put l v m) = get l' m

/-- What a thread does next, and where it is afterwards. -/
inductive Act (C L : Type) (V : L → Type) (R : Type) where
  | go (c : C)
  | loadEx (l : L) (k : V l → C)
  /-- `k` is told if the store has failed. -/
  | storeEx (l : L) (v : V l) (k : Bool → C)
  | ret (r : R)

variable {T M L Q R C : Type} {V : L → Type}

inductive Event (T Q R L : Type) (V : L → Type) where
  | call (t : T) (q : Q)
  | ret (t : T) (r : R)
  /-- A plain store, by anybody. -/
  | write (l : L) (v : V l)

structure State (T M L C : Type) where
  mem : M
  tag : T → Option L
  place : T → Option C

/-- Only tags that have nothing to do with `l` are left. -/
def Left (mem : Layout M L V) (l : L) (tag tag' : T → Option L) : Prop :=
  ∀ u l', tag' u = some l' → tag u = some l' ∧ mem.Apart l l'

section Step

variable [DecidableEq T]

def State.goto (s : State T M L C) (t : T) (c : Option C) : State T M L C :=
  { s with place := Function.update s.place t c }

/-- A thread calls, runs and returns. A store-exclusive may fail under its tag, too. -/
inductive Step (mem : Layout M L V) (act : C → Act C L V R) (entry : Q → C) (s : State T M L C) :
    Option (Event T Q R L V) → State T M L C → Prop where
  | call {t : T} {q : Q} (hplace : s.place t = none) :
      Step mem act entry s (some (.call t q)) (s.goto t (some (entry q)))
  | go {t : T} {c c' : C} (hplace : s.place t = some c) (hact : act c = .go c') :
      Step mem act entry s none (s.goto t (some c'))
  | loadEx {t : T} {c : C} {l : L} {k : V l → C} (hplace : s.place t = some c)
      (hact : act c = .loadEx l k) :
      Step mem act entry s none
        { s.goto t (some (k (mem.get l s.mem))) with tag := Function.update s.tag t (some l) }
  | stored {t : T} {c : C} {l : L} {v : V l} {k : Bool → C} {tag : T → Option L}
      (hplace : s.place t = some c) (hact : act c = .storeEx l v k) (htag : s.tag t = some l)
      (hleft : Left mem l s.tag tag) :
      Step mem act entry s none
        { s.goto t (some (k false)) with mem := mem.put l v s.mem, tag := tag }
  | failed {t : T} {c : C} {l : L} {v : V l} {k : Bool → C} (hplace : s.place t = some c)
      (hact : act c = .storeEx l v k) :
      Step mem act entry s none
        { s.goto t (some (k true)) with tag := Function.update s.tag t none }
  | ret {t : T} {c : C} {r : R} (hplace : s.place t = some c) (hact : act c = .ret r) :
      Step mem act entry s (some (.ret t r)) (s.goto t none)
  | write {l : L} {v : V l} {tag : T → Option L} (hleft : Left mem l s.tag tag) :
      Step mem act entry s (some (.write l v)) { s with mem := mem.put l v s.mem, tag := tag }
  | lose {tag : T → Option L} (hless : ∀ u l, tag u = some l → s.tag u = some l) :
      Step mem act entry s none { s with tag := tag }

end Step

def init (T L C : Type) (m : M) : State T M L C := ⟨m, fun _ => none, fun _ => none⟩

/-! ## Atomic operations -/

/-- The location of an operation, what it stores there, if anything, and its result. -/
structure Atomic (Q L R : Type) (V : L → Type) where
  loc : Q → L
  op : (q : Q) → V (loc q) → Option (V (loc q)) × R

inductive Status (Q R : Type) where
  | idle
  | called (q : Q)
  | ended (r : R)

structure AtomicState (T M Q R : Type) where
  mem : M
  status : T → Status Q R

/-- The memory after the operation. -/
def Atomic.perform (spec : Atomic Q L R V) (mem : Layout M L V) (q : Q) (m : M) : M :=
  (spec.op q (mem.get (spec.loc q) m)).1.elim m fun v => mem.put (spec.loc q) v m

section AtomicStep

variable [DecidableEq T]

def AtomicState.goto (s : AtomicState T M Q R) (t : T) (x : Status Q R) : AtomicState T M Q R :=
  { s with status := Function.update s.status t x }

/-- The operation is one step, some time between the call and the return. -/
inductive AtomicStep (mem : Layout M L V) (spec : Atomic Q L R V) (s : AtomicState T M Q R) :
    Option (Event T Q R L V) → AtomicState T M Q R → Prop where
  | call {t : T} {q : Q} (ht : s.status t = .idle) :
      AtomicStep mem spec s (some (.call t q)) (s.goto t (.called q))
  | perform {t : T} {q : Q} (ht : s.status t = .called q) :
      AtomicStep mem spec s none
        { s.goto t (.ended (spec.op q (mem.get (spec.loc q) s.mem)).2) with
          mem := spec.perform mem q s.mem }
  | ret {t : T} {r : R} (ht : s.status t = .ended r) :
      AtomicStep mem spec s (some (.ret t r)) (s.goto t .idle)
  | write {l : L} {v : V l} :
      AtomicStep mem spec s (some (.write l v)) { s with mem := mem.put l v s.mem }

end AtomicStep

def atomicInit (T Q R : Type) (m : M) : AtomicState T M Q R := ⟨m, fun _ => .idle⟩

/-! ## Loops -/

/-- What a loop knows at each of its places: before the operation, with the value that it has
loaded last, and after it, with the result. -/
structure Outline (act : C → Act C L V R) (entry : Q → C) (spec : Atomic Q L R V) where
  Before : (q : Q) → C → Option (V (spec.loc q)) → Prop
  After : R → C → Prop
  start : ∀ q, Before q (entry q) none
  /-- A load-exclusive may be all there is to do, and a store-exclusive is, unless it fails. -/
  before : ∀ q c o, Before q c o →
    (∃ c', act c = .go c' ∧ Before q c' o) ∨
    (∃ k, act c = .loadEx (spec.loc q) k ∧ ∀ v, Before q (k v) (some v) ∨
      (spec.op q v).1 = none ∧ After (spec.op q v).2 (k v)) ∨
    ∃ v w k, o = some v ∧ act c = .storeEx (spec.loc q) w k ∧ (spec.op q v).1 = some w ∧
      After (spec.op q v).2 (k false) ∧ Before q (k true) none
  after : ∀ r c, After r c → (∃ c', act c = .go c' ∧ After r c') ∨ act c = .ret r

variable {mem : Layout M L V} {act : C → Act C L V R} {entry : Q → C} {spec : Atomic Q L R V}

/-- Where the thread is in its loop, when the operation is so far. A value that is still tagged is
still there. -/
inductive Outline.Fits (outline : Outline act entry spec) (mem : Layout M L V)
    (s : State T M L C) (t : T) : Status Q R → Prop where
  | idle (hplace : s.place t = none) : Fits outline mem s t .idle
  | called {q : Q} {c : C} {o : Option (V (spec.loc q))} (hplace : s.place t = some c)
      (hbefore : outline.Before q c o)
      (htag : ∀ v ∈ o, s.tag t = some (spec.loc q) → mem.get (spec.loc q) s.mem = v) :
      Fits outline mem s t (.called q)
  | ended {r : R} {c : C} (hplace : s.place t = some c) (hafter : outline.After r c) :
      Fits outline mem s t (.ended r)

structure Outline.Related (outline : Outline act entry spec) (mem : Layout M L V)
    (s : State T M L C) (a : AtomicState T M Q R) : Prop where
  same : a.mem = s.mem
  fits : ∀ t, outline.Fits mem s t (a.status t)

theorem Outline.Fits.other {outline : Outline act entry spec} {s s' : State T M L C} {t : T}
    {x : Status Q R} (h : outline.Fits mem s t x) (hplace : s'.place t = s.place t)
    (htag : ∀ l, s'.tag t = some l → s.tag t = some l ∧ mem.get l s'.mem = mem.get l s.mem) :
    outline.Fits mem s' t x := by
  cases h with
  | idle hidle => exact .idle (hplace.trans hidle)
  | called hat hbefore hvalue =>
    refine .called (hplace.trans hat) hbefore fun v hv htagged => ?_
    obtain ⟨htagged, hsame⟩ := htag _ htagged
    exact hsame.trans (hvalue v hv htagged)
  | ended hat hafter => exact .ended (hplace.trans hat) hafter

variable [DecidableEq T]

@[simp] theorem goto_place_same (s : State T M L C) (t : T) (c : Option C) :
    (s.goto t c).place t = c :=
  Function.update_self _ _ _

@[simp] theorem goto_place_other (s : State T M L C) {t u : T} (c : Option C) (h : u ≠ t) :
    (s.goto t c).place u = s.place u :=
  Function.update_of_ne h _ _

@[simp] theorem goto_status_same (s : AtomicState T M Q R) (t : T) (x : Status Q R) :
    (s.goto t x).status t = x :=
  Function.update_self _ _ _

@[simp] theorem goto_status_other (s : AtomicState T M Q R) {t u : T} (x : Status Q R)
    (h : u ≠ t) : (s.goto t x).status u = s.status u :=
  Function.update_of_ne h _ _

variable {outline : Outline act entry spec} {s s' : State T M L C} {a : AtomicState T M Q R} {t : T}

theorem Outline.Related.move (h : outline.Related mem s a) {a' : AtomicState T M Q R}
    (hmem : a'.mem = s'.mem) (hself : outline.Fits mem s' t (a'.status t))
    (hstatus : ∀ u, u ≠ t → a'.status u = a.status u)
    (hplace : ∀ u, u ≠ t → s'.place u = s.place u)
    (htag : ∀ u, u ≠ t → ∀ l, s'.tag u = some l →
      s.tag u = some l ∧ mem.get l s'.mem = mem.get l s.mem) : outline.Related mem s' a' := by
  refine ⟨hmem, fun u => ?_⟩
  by_cases hut : u = t
  · rwa [hut]
  · rw [hstatus u hut]
    exact (h.fits u).other (hplace u hut) (htag u hut)

omit [DecidableEq T] in
theorem Outline.Fits.status_idle {x : Status Q R} (h : outline.Fits mem s t x)
    (hplace : s.place t = none) : x = .idle := by
  cases h with
  | idle _ => rfl
  | called hat _ _ | ended hat _ => simp [hplace] at hat

omit [DecidableEq T] in
theorem Outline.Fits.of_place {x : Status Q R} {c : C} (h : outline.Fits mem s t x)
    (hplace : s.place t = some c) :
    (∃ q o, x = .called q ∧ outline.Before q c o ∧
      ∀ v ∈ o, s.tag t = some (spec.loc q) → mem.get (spec.loc q) s.mem = v) ∨
    ∃ r, x = .ended r ∧ outline.After r c := by
  cases h with
  | idle hat => simp [hplace] at hat
  | @called q c' o hat hbefore htag =>
    obtain rfl : c = c' := by simpa [hplace] using hat
    exact .inl ⟨q, o, rfl, hbefore, htag⟩
  | @ended r c' hat hafter =>
    obtain rfl : c = c' := by simpa [hplace] using hat
    exact .inr ⟨r, rfl, hafter⟩

omit [DecidableEq T] in
theorem tags_kept (hmem : s'.mem = s.mem) (htag : s'.tag = s.tag) (u : T) (l : L)
    (h : s'.tag u = some l) : s.tag u = some l ∧ mem.get l s'.mem = mem.get l s.mem :=
  ⟨htag ▸ h, by rw [hmem]⟩

theorem tags_other {tag : Option L} {u : T} (hut : u ≠ t) (l : L)
    (h : Function.update s.tag t tag u = some l) :
    s.tag u = some l ∧ mem.get l s.mem = mem.get l s.mem := by
  rw [Function.update_of_ne hut] at h
  exact ⟨h, rfl⟩

omit [DecidableEq T] in
theorem Left.kept {l : L} {v : V l} {tag : T → Option L} (h : Left mem l s.tag tag) (u : T)
    (l' : L) (htag : tag u = some l') :
    s.tag u = some l' ∧ mem.get l' (mem.put l v s.mem) = mem.get l' s.mem :=
  ⟨(h u l' htag).1, mem.get_put l l' v s.mem (h u l' htag).2⟩

theorem Outline.Related.go (h : outline.Related mem s a) {c c' : C} (hplace : s.place t = some c)
    (hact : act c = .go c') : outline.Related mem (s.goto t (some c')) a := by
  refine h.move (t := t) h.same ?_ (fun _ _ => rfl) (fun u hut => by simp [hut])
    fun u _ => tags_kept rfl rfl u
  obtain ⟨q, o, hx, hbefore, htag⟩ | ⟨r, hx, hafter⟩ := (h.fits t).of_place hplace
  · rw [hx]
    obtain ⟨c1, hact', hbefore⟩ | ⟨k, hact', -⟩ | ⟨v, w, k, -, hact', -⟩ :=
      outline.before q c o hbefore <;> rw [hact] at hact'
    · obtain rfl := Act.go.inj hact'
      exact .called (by simp) hbefore htag
    · simp at hact'
    · simp at hact'
  · rw [hx]
    obtain ⟨c1, hact', hafter⟩ | hact' := outline.after r c hafter <;> rw [hact] at hact'
    · obtain rfl := Act.go.inj hact'
      exact .ended (by simp) hafter
    · simp at hact'

theorem Outline.Related.loadEx (h : outline.Related mem s a) {c : C} {l : L} {k : V l → C}
    (hplace : s.place t = some c) (hact : act c = .loadEx l k) :
    ∃ a', Weak (AtomicStep mem spec) a none a' ∧ outline.Related mem
      { s.goto t (some (k (mem.get l s.mem))) with
        tag := Function.update s.tag t (some l) } a' := by
  obtain ⟨q, o, hx, hbefore, -⟩ | ⟨r, hx, hafter⟩ := (h.fits t).of_place hplace
  rotate_left
  · obtain ⟨c1, hact', -⟩ | hact' := outline.after r c hafter <;> simp [hact] at hact'
  obtain ⟨c1, hact', -⟩ | ⟨k', hact', hk⟩ | ⟨v, w, k', -, hact', -⟩ :=
    outline.before q c o hbefore <;> rw [hact] at hact'
  · simp at hact'
  · cases hact'
    obtain hbefore | ⟨hnone, hafter⟩ := hk (mem.get (spec.loc q) s.mem)
    · refine ⟨a, .inl ⟨rfl, rfl⟩, h.move (t := t) h.same ?_ (fun _ _ => rfl)
        (fun u hut => by simp [hut]) fun u hut => tags_other hut⟩
      rw [hx]
      exact .called (by simp) hbefore fun v hv _ => by simpa [State.goto] using hv
    · refine ⟨_, .inr ⟨a, .refl, .perform hx⟩, h.move (t := t) ?_ ?_ (fun u hut => by simp [hut])
        (fun u hut => by simp [hut]) fun u hut => tags_other hut⟩
      · rw [Atomic.perform, h.same, hnone]
        rfl
      · rw [goto_status_same, h.same]
        exact .ended (by simp) hafter
  · simp at hact'

theorem Outline.Related.stored (h : outline.Related mem s a) {c : C} {l : L} {v : V l}
    {k : Bool → C} {tag : T → Option L} (hplace : s.place t = some c)
    (hact : act c = .storeEx l v k) (htagged : s.tag t = some l) (hleft : Left mem l s.tag tag) :
    ∃ a', Weak (AtomicStep mem spec) a none a' ∧ outline.Related mem
      { s.goto t (some (k false)) with mem := mem.put l v s.mem, tag := tag } a' := by
  obtain ⟨q, o, hx, hbefore, hvalue⟩ | ⟨r, hx, hafter⟩ := (h.fits t).of_place hplace
  rotate_left
  · obtain ⟨c1, hact', -⟩ | hact' := outline.after r c hafter <;> simp [hact] at hact'
  obtain ⟨c1, hact', -⟩ | ⟨k', hact', -⟩ | ⟨x, w, k', rfl, hact', hop, hafter, -⟩ :=
    outline.before q c o hbefore <;> rw [hact] at hact'
  · simp at hact'
  · simp at hact'
  · cases hact'
    have hx' := hvalue x rfl htagged
    refine ⟨_, .inr ⟨a, .refl, .perform hx⟩, h.move (t := t) ?_ ?_ (fun u hut => by simp [hut])
      (fun u hut => by simp [hut]) fun u _ => hleft.kept u⟩
    · rw [Atomic.perform, h.same, hx', hop]
      rfl
    · rw [goto_status_same, h.same, hx']
      exact .ended (by simp) hafter

theorem Outline.Related.failed (h : outline.Related mem s a) {c : C} {l : L} {v : V l}
    {k : Bool → C} (hplace : s.place t = some c) (hact : act c = .storeEx l v k) :
    outline.Related mem
      { s.goto t (some (k true)) with tag := Function.update s.tag t none } a := by
  refine h.move (t := t) h.same ?_ (fun _ _ => rfl) (fun u hut => by simp [hut])
    fun u hut => tags_other hut
  obtain ⟨q, o, hx, hbefore, -⟩ | ⟨r, hx, hafter⟩ := (h.fits t).of_place hplace
  · rw [hx]
    obtain ⟨c1, hact', -⟩ | ⟨k', hact', -⟩ | ⟨x, w, k', -, hact', -, -, hbefore⟩ :=
      outline.before q c o hbefore <;> rw [hact] at hact'
    · simp at hact'
    · simp at hact'
    · cases hact'
      exact .called (by simp) hbefore (by simp)
  · obtain ⟨c1, hact', -⟩ | hact' := outline.after r c hafter <;> simp [hact] at hact'

theorem Outline.Related.ret (h : outline.Related mem s a) {c : C} {r : R}
    (hplace : s.place t = some c) (hact : act c = .ret r) :
    ∃ a', Weak (AtomicStep mem spec) a (some (.ret t r)) a' ∧
      outline.Related mem (s.goto t none) a' := by
  obtain ⟨q, o, hx, hbefore, -⟩ | ⟨r', hx, hafter⟩ := (h.fits t).of_place hplace
  · obtain ⟨c1, hact', -⟩ | ⟨k, hact', -⟩ | ⟨v, w, k, -, hact', -⟩ :=
      outline.before q c o hbefore <;> simp [hact] at hact'
  · obtain ⟨c1, hact', -⟩ | hact' := outline.after r' c hafter <;> rw [hact] at hact'
    · simp at hact'
    · obtain rfl := Act.ret.inj hact'
      refine ⟨_, .inr ⟨a, .refl, .ret hx⟩, h.move (t := t) h.same ?_ (fun u hut => by simp [hut])
        (fun u hut => by simp [hut]) fun u _ => tags_kept rfl rfl u⟩
      rw [goto_status_same]
      exact .idle (by simp)

/-- **Every step of the loops is a step of the operations, or none.** -/
theorem Outline.refines (outline : Outline act entry spec) (mem : Layout M L V) :
    Refines (Step (T := T) mem act entry) (AtomicStep mem spec) (outline.Related mem) := by
  intro s a e s' h hstep
  cases hstep with
  | @call t q hplace =>
    have hx := (h.fits t).status_idle hplace
    refine ⟨_, .inr ⟨a, .refl, .call hx⟩, h.move (t := t) h.same ?_ (fun u hut => by simp [hut])
      (fun u hut => by simp [hut]) fun u _ => tags_kept rfl rfl u⟩
    rw [goto_status_same]
    exact .called (by simp) (outline.start q) (by simp)
  | go hplace hact => exact ⟨a, .inl ⟨rfl, rfl⟩, h.go hplace hact⟩
  | loadEx hplace hact => exact h.loadEx hplace hact
  | stored hplace hact htag hleft => exact h.stored hplace hact htag hleft
  | failed hplace hact => exact ⟨a, .inl ⟨rfl, rfl⟩, h.failed hplace hact⟩
  | ret hplace hact => exact h.ret hplace hact
  | @write l v tag hleft =>
    refine ⟨_, .inr ⟨a, .refl, .write⟩, by rw [h.same], fun u => ?_⟩
    exact (h.fits u).other rfl (hleft.kept u)
  | lose hless =>
    exact ⟨a, .inl ⟨rfl, rfl⟩, h.same,
      fun u => (h.fits u).other rfl fun l hl => ⟨hless u l hl, rfl⟩⟩

theorem Outline.observes (outline : Outline act entry spec) (mem : Layout M L V) {m : M}
    {l : List (Event T Q R L V)} (h : Observes (Step mem act entry) (init T L C m) l) :
    Observes (AtomicStep mem spec) (atomicInit T Q R m) l :=
  (outline.refines mem).observes ⟨rfl, fun _ => .idle rfl⟩ h

/-! ## Schedules -/

inductive Turn (T Q : Type) where
  | call (t : T) (q : Q)
  | run (t : T)

section Turns

variable [DecidableEq L]

/-- A store takes all tags away, and succeeds if there is one. -/
def turn (mem : Layout M L V) (act : C → Act C L V R) (entry : Q → C) (s : State T M L C) :
    Turn T Q → Option (Option (Event T Q R L V) × State T M L C)
  | .call t q =>
    match s.place t with
    | none => some (some (.call t q), s.goto t (some (entry q)))
    | some _ => none
  | .run t =>
    match s.place t with
    | none => none
    | some c =>
      match act c with
      | .go c' => some (none, s.goto t (some c'))
      | .loadEx l k =>
        some (none,
          { s.goto t (some (k (mem.get l s.mem))) with tag := Function.update s.tag t (some l) })
      | .storeEx l v k =>
        if s.tag t = some l then
          some (none,
            { s.goto t (some (k false)) with mem := mem.put l v s.mem, tag := fun _ => none })
        else
          some (none, { s.goto t (some (k true)) with tag := Function.update s.tag t none })
      | .ret r => some (some (.ret t r), s.goto t none)

/-- What is seen of the turns. -/
def turnEvents (mem : Layout M L V) (act : C → Act C L V R) (entry : Q → C) (s : State T M L C) :
    List (Turn T Q) → Option (List (Event T Q R L V))
  | [] => some []
  | x :: l => do
    let (e, s) ← turn mem act entry s x
    let rest ← turnEvents mem act entry s l
    some (e.toList ++ rest)

theorem turn_step {x : Turn T Q} {e : Option (Event T Q R L V)}
    (h : turn mem act entry s x = some (e, s')) : Step mem act entry s e s' := by
  cases x with
  | call t q =>
    simp only [turn] at h
    split at h
    · rename_i hplace
      obtain ⟨rfl, rfl⟩ := Prod.mk.inj (Option.some.inj h)
      exact .call hplace
    · simp at h
  | run t =>
    simp only [turn] at h
    split at h
    · simp at h
    rename_i c hplace
    split at h <;> rename_i hact
    · obtain ⟨rfl, rfl⟩ := Prod.mk.inj (Option.some.inj h)
      exact .go hplace hact
    · obtain ⟨rfl, rfl⟩ := Prod.mk.inj (Option.some.inj h)
      exact .loadEx hplace hact
    · split at h
      · rename_i htag
        obtain ⟨rfl, rfl⟩ := Prod.mk.inj (Option.some.inj h)
        exact .stored hplace hact htag (by simp [Left])
      · obtain ⟨rfl, rfl⟩ := Prod.mk.inj (Option.some.inj h)
        exact .failed hplace hact
    · obtain ⟨rfl, rfl⟩ := Prod.mk.inj (Option.some.inj h)
      exact .ret hplace hact

theorem turnEvents_observes {l : List (Turn T Q)} {events : List (Event T Q R L V)}
    (h : turnEvents mem act entry s l = some events) : Observes (Step mem act entry) s events := by
  induction l generalizing s events with
  | nil =>
    obtain rfl := Option.some.inj h
    exact .nil
  | cons x l ih =>
    obtain ⟨⟨e, s1⟩, hturn, h⟩ := Option.bind_eq_some_iff.mp h
    obtain ⟨rest, hrest, h⟩ := Option.bind_eq_some_iff.mp h
    obtain rfl := Option.some.inj h
    cases e with
    | none => exact .silent (turn_step hturn) (ih hrest)
    | some e => exact .event (turn_step hturn) (ih hrest)

/-- A thread that nobody interferes with, and whose tag stays. -/
def alone (mem : Layout M L V) (act : C → Act C L V R) : Nat → M → Option L → C → Option (R × M)
  | 0, _, _, _ => none
  | fuel + 1, m, tag, c =>
    match act c with
    | .go c' => alone mem act fuel m tag c'
    | .loadEx l k => alone mem act fuel m (some l) (k (mem.get l m))
    | .storeEx l v k =>
      if tag = some l then alone mem act fuel (mem.put l v m) none (k false)
      else alone mem act fuel m none (k true)
    | .ret r => some (r, m)

theorem alone_more {fuel : Nat} {m : M} {tag : Option L} {c : C} {x : R × M}
    (h : alone mem act fuel m tag c = some x) (k : Nat) :
    alone mem act (fuel + k) m tag c = some x := by
  induction fuel generalizing m tag c with
  | zero => simp [alone] at h
  | succ fuel ih =>
    rw [show fuel + 1 + k = fuel + k + 1 by omega]
    unfold alone at h ⊢
    split at h
    · exact ih h
    · exact ih h
    · split at h
      · rename_i htag
        rw [if_pos htag]
        exact ih h
      · rename_i htag
        rw [if_neg htag]
        exact ih h
    · exact h

end Turns

end LibSystem.Exclusives
