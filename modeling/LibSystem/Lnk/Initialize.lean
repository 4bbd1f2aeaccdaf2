import LibSystem.Lnk.Image
import LibSystem.Rounds

/-!
# Initialization

`MachObject::doInitialize` and `lnk::initializeChain`.
-/

namespace LibSystem.Lnk

open Outcome

def sectionType : Word := 0x000000ff
def sModInitFuncPointers : Word := 0x9

/-! ## One image -/

/-- Tells if all of the given dependencies have been initialized. -/
def dependenciesInitialized (s : Linker) : List ImageId → Outcome Bool
  | [] => .done true
  | dep :: rest => do
    let obj ← s.object dep
    if obj.fHasInitialized = false then .done false else dependenciesInitialized s rest

def MachObject.setInitialized (obj : MachObject) (value : Bool) : MachObject :=
  { obj with fHasInitialized := value }

def dependsOn (obj : MachObject) (image : ImageId) : Bool := image ∈ obj.fDependencies

def callInitializer (s : Linker) (image : ImageId) (fn : Word) : Linker :=
  s.record (.callInitializer image fn)

/-- The functions that `doInitialize` calls. -/
def initializers (mem : Mem) (obj : MachObject) : List Word :=
  (obj.fRoutines.map fun initAddress => initAddress + obj.fSlide).toList ++
    obj.fSegmentLoadCommands.flatMap fun seg => seg.sections.flatMap fun sect =>
      if sect.flags &&& sectionType = sModInitFuncPointers then
        (List.range (sect.size.toNat / 4)).map fun i =>
          mem.load (sect.addr + obj.fSlide + BitVec.ofNat 32 (4 * i))
      else []

/-- What the functions do is not modelled. -/
def doInitialize (s : Linker) (this : ImageId) : Outcome Linker := do
  let obj ← s.object this
  if obj.fHasInitialized then .done s
  else
    let s := s.record (.enterInit this)
    let s := (initializers s.mem obj).foldl (fun s fn => callInitializer s this fn) s
    let s := s.modify this fun obj => obj.setInitialized true
    .done (s.record (.leaveInit this))

/-! ## The chain -/

/-- The local variables of `initializeChain`. -/
structure InitLocals where
  hasUnitializedDependencies : Bool
  runCircularInitializer : Bool
  ccount : Word
  icount : Word

/-- The loop over the dependencies of `im`. The flag is `isCirc`. -/
def countCircular (s : Linker) (im : ImageId) :
    List ImageId → InitLocals → Bool → Outcome (InitLocals × Bool)
  | [], l, isCirc => .done (l, isCirc)
  | dep :: rest, l, isCirc => do
    let obj ← s.object dep
    if dependsOn obj im then
      countCircular s im rest
        { l with runCircularInitializer := true, ccount := l.ccount + 1 } true
    else countCircular s im rest l isCirc

/-- One pass over the chain. The flag tells if it ended in `goto circ_init`. -/
def runInit : List ImageId → Linker → InitLocals → Outcome (Bool × Linker × InitLocals)
  | [], s, l => .done (false, s, l)
  | im :: rest, s, l => do
    let obj ← s.object im
    let ready ← dependenciesInitialized s obj.fDependencies
    if ready then
      if obj.fHasInitialized = false then do
        let s ← doInitialize s im
        runInit rest s { l with icount := l.icount - 1 }
      else runInit rest s l
    else if l.ccount = l.icount then .done (true, s, l)
    else do
      let (l, isCirc) ← countCircular s im obj.fDependencies l false
      runInit rest s
        (if isCirc = false then { l with hasUnitializedDependencies := true } else l)

/-- From the label `run_init` to the label `circ_init`. -/
def runInitLoop : Nat → Linker → InitLocals → Outcome (Linker × InitLocals)
  | 0, _, _ => .timeout
  | fuel + 1, s, l => do
    let chain ← s.imageChain
    let (circ, s, l) ← runInit chain s { l with hasUnitializedDependencies := false }
    if circ = false ∧ l.hasUnitializedDependencies = true then runInitLoop fuel s l
    else .done (s, l)

/-- The loop after the label `circ_init`. -/
def circInit : List ImageId → Linker → Outcome Linker
  | [], s => .done s
  | im :: rest, s => do
    let obj ← s.object im
    if obj.fHasInitialized = false then do
      let s ← doInitialize s im
      circInit rest s
    else circInit rest s

/-- `garbage` is what `runCircularInitializer` holds before it is assigned. -/
def initializeChain (fuel : Nat) (garbage : Bool) (s : Linker) : Outcome Linker := do
  let (s, l) ← runInitLoop fuel s ⟨false, garbage, 0, s.sImageCount⟩
  if l.runCircularInitializer then do
    let chain ← s.imageChain
    circInit chain s
  else .done s

/-! ## What an initialization does -/

def dependencies (s : Linker) (im : ImageId) : List ImageId :=
  match s.images[im]? with
  | some obj => obj.fDependencies
  | none => []

/-- What the initialization of `im` adds to the trace. -/
def initEvents (s : Linker) (im : ImageId) : List Event :=
  match s.images[im]? with
  | some obj =>
    .enterInit im :: (initializers s.mem obj).map (.callInitializer im) ++ [.leaveInit im]
  | none => []

theorem image_of_mem_initEvents {s : Linker} {im : ImageId} {e : Event} (h : e ∈ initEvents s im) :
    e.image = im := by
  unfold initEvents at h
  split at h
  · simp only [List.cons_append, List.mem_cons, List.mem_append, List.mem_map,
      List.not_mem_nil, or_false] at h
    rcases h with rfl | ⟨fn, -, rfl⟩ | rfl <;> rfl
  · simp at h

@[simp] theorem setInitialized_same (obj : MachObject) :
    obj.setInitialized obj.fHasInitialized = obj := rfl

@[simp] theorem setInitialized_setInitialized (obj : MachObject) (a b : Bool) :
    (obj.setInitialized a).setInitialized b = obj.setInitialized b := rfl

/-- The images of `order` have been initialized, in this order. -/
def Linker.initialized (s : Linker) (order : List ImageId) : Linker :=
  { s with
    images := s.images.mapIdx fun im obj => obj.setInitialized (obj.fHasInitialized || im ∈ order)
    trace := s.trace ++ order.flatMap (initEvents s) }

theorem initialized_images (s : Linker) (order : List ImageId) (im : ImageId) :
    (s.initialized order).images[im]? = s.images[im]?.map fun obj =>
      obj.setInitialized (obj.fHasInitialized || im ∈ order) := by
  simp [Linker.initialized]

theorem initialized_nil (s : Linker) : s.initialized [] = s := by
  have himages : (s.initialized []).images = s.images := by
    apply List.ext_getElem?
    intro im
    rw [initialized_images]
    simp
  have htrace : (s.initialized []).trace = s.trace := List.append_nil _
  calc s.initialized [] =
      { s with images := (s.initialized []).images, trace := (s.initialized []).trace } := rfl
    _ = s := by rw [himages, htrace]

theorem foldl_callInitializer (s : Linker) (im : ImageId) (fns : List Word) :
    fns.foldl (fun s fn => callInitializer s im fn) s =
      { s with trace := s.trace ++ fns.map (.callInitializer im) } := by
  induction fns generalizing s with
  | nil => simp
  | cons fn fns ih =>
    rw [List.foldl_cons, ih]
    simp [callInitializer, Linker.record]

theorem doInitialize_eq_done {s s' : Linker} {im : ImageId} (h : doInitialize s im = done s') :
    ∃ obj, s.images[im]? = some obj ∧ ((obj.fHasInitialized = true ∧ s' = s) ∨
      (obj.fHasInitialized = false ∧ s' = { s with
        images := s.images.modify im fun obj => obj.setInitialized true
        trace := s.trace ++ initEvents s im })) := by
  obtain ⟨obj, hobj, h⟩ := bind_eq_done.mp h
  rw [Linker.object, ofOption_eq_done] at hobj
  refine ⟨obj, hobj, ?_⟩
  split at h
  · rename_i hflag
    exact .inl ⟨hflag, (done.inj h).symm⟩
  · rename_i hflag
    refine .inr ⟨by simpa using hflag, ?_⟩
    rw [← done.inj h, foldl_callInitializer]
    simp [Linker.record, Linker.modify, initEvents, hobj]

/-! ## What every initialization keeps -/

section Preserved

variable {P : Linker → Prop} (hinit : ∀ s im s', P s → doInitialize s im = done s' → P s')

include hinit

theorem runInit_preserves {chain : List ImageId} {s s' : Linker} {l l' : InitLocals} {circ : Bool}
    (hs : P s) (h : runInit chain s l = done (circ, s', l')) : P s' := by
  induction chain generalizing s l with
  | nil =>
    obtain ⟨-, rfl, -⟩ := by simpa [runInit] using h
    exact hs
  | cons im rest ih =>
    obtain ⟨obj, -, h⟩ := bind_eq_done.mp h
    obtain ⟨ready, -, h⟩ := bind_eq_done.mp h
    split at h
    · split at h
      · obtain ⟨s1, hdo, h⟩ := bind_eq_done.mp h
        exact ih (hinit s im s1 hs hdo) h
      · exact ih hs h
    · split at h
      · obtain ⟨-, rfl, -⟩ := by simpa using h
        exact hs
      · obtain ⟨⟨l1, isCirc⟩, -, h⟩ := bind_eq_done.mp h
        exact ih hs h

theorem runInitLoop_preserves {fuel : Nat} {s s' : Linker} {l l' : InitLocals} (hs : P s)
    (h : runInitLoop fuel s l = done (s', l')) : P s' := by
  induction fuel generalizing s l with
  | zero => simp [runInitLoop] at h
  | succ fuel ih =>
    obtain ⟨chain, -, h⟩ := bind_eq_done.mp h
    obtain ⟨⟨circ, s1, l1⟩, hpass, h⟩ := bind_eq_done.mp h
    have hs1 := runInit_preserves hinit hs hpass
    dsimp only at h
    split at h
    · exact ih hs1 h
    · obtain ⟨rfl, -⟩ := by simpa using h
      exact hs1

theorem circInit_preserves {chain : List ImageId} {s s' : Linker} (hs : P s)
    (h : circInit chain s = done s') : P s' := by
  induction chain generalizing s with
  | nil =>
    obtain rfl := by simpa [circInit] using h
    exact hs
  | cons im rest ih =>
    obtain ⟨obj, -, h⟩ := bind_eq_done.mp h
    split at h
    · obtain ⟨s1, hdo, h⟩ := bind_eq_done.mp h
      exact ih (hinit s im s1 hs hdo) h
    · exact ih hs h

theorem initializeChain_preserves {fuel : Nat} {garbage : Bool} {s s' : Linker} (hs : P s)
    (h : initializeChain fuel garbage s = done s') : P s' := by
  obtain ⟨⟨s1, l1⟩, hloop, h⟩ := bind_eq_done.mp h
  have hs1 := runInitLoop_preserves hinit hs hloop
  dsimp only at h
  split at h
  · obtain ⟨chain, -, h⟩ := bind_eq_done.mp h
    exact circInit_preserves hinit hs1 h
  · obtain rfl := done.inj h
    exact hs1

end Preserved

/-! ## The state after an initialization -/

theorem doInitialize_initialized {s : Linker} {order : List ImageId} {im : ImageId}
    {obj : MachObject} (hobj : s.images[im]? = some obj) (hfresh : obj.fHasInitialized = false)
    (hnew : im ∉ order) :
    doInitialize (s.initialized order) im = done (s.initialized (order ++ [im])) := by
  have hobj' : (s.initialized order).images[im]? = some (obj.setInitialized false) := by
    rw [initialized_images, hobj, Option.map_some, hfresh, decide_eq_false hnew]
    rfl
  have himages : (s.initialized order).images.modify im (fun obj => obj.setInitialized true) =
      (s.initialized (order ++ [im])).images := by
    apply List.ext_getElem?
    intro j
    rw [List.getElem?_modify, initialized_images, initialized_images]
    cases s.images[j]? with
    | none => rfl
    | some o =>
      by_cases hj : im = j
      · simp [hj]
      · simp [hj, Ne.symm hj]
  have htrace : (s.initialized (order ++ [im])).trace = (s.initialized order).trace ++
      (.enterInit im :: (initializers s.mem obj).map (.callInitializer im) ++ [.leaveInit im]) := by
    simp [Linker.initialized, initEvents, hobj]
  unfold doInitialize Linker.object
  rw [hobj', ofOption_some, done_bind, if_neg (by simp [MachObject.setInitialized])]
  dsimp only
  rw [foldl_callInitializer]
  congr 1
  calc _ = { s.initialized order with
        images := (s.initialized order).images.modify im fun obj => obj.setInitialized true
        trace := (s.initialized order).trace ++ (.enterInit im ::
          (initializers s.mem obj).map (.callInitializer im) ++ [.leaveInit im]) } := by
        simp [Linker.record, Linker.modify, Linker.initialized, initializers,
          MachObject.setInitialized]
    _ = s.initialized (order ++ [im]) := by
        rw [himages, ← htrace]
        rfl

/-! ## The passes -/

/-- The chain before anything has been initialized. -/
structure Uninitialized (s : Linker) (chain : List ImageId) : Prop where
  chain_eq : s.imageChain = done chain
  closed : ∀ im ∈ chain, ∀ dep ∈ dependencies s im, dep ∈ chain
  fresh : ∀ im ∈ chain, ∀ obj, s.images[im]? = some obj → obj.fHasInitialized = false
  count : s.sImageCount.toNat = chain.length

/-- The local variables and the images initialized so far, as the state of the abstract passes. -/
def locals (st : Rounds.State ImageId) : InitLocals :=
  ⟨st.waiting, st.circular, st.ccount, st.icount⟩

variable {s : Linker} {chain : List ImageId}

theorem Uninitialized.isChain (h : Uninitialized s chain) :
    IsChain s.images s.sFirstImage chain :=
  Linker.imageChain_eq_done.mp h.chain_eq

theorem Uninitialized.nodup (h : Uninitialized s chain) : chain.Nodup := h.isChain.nodup

theorem Uninitialized.length_lt (h : Uninitialized s chain) : chain.length < 2 ^ 32 := by
  rw [← h.count]
  exact s.sImageCount.isLt

theorem Uninitialized.exists_object (h : Uninitialized s chain) {im : ImageId} (him : im ∈ chain) :
    ∃ obj, s.images[im]? = some obj ∧ dependencies s im = obj.fDependencies ∧
      ∀ order, (s.initialized order).object im =
        done (obj.setInitialized (decide (im ∈ order))) := by
  have hlt := h.isChain.lt_length im him
  obtain ⟨obj, hobj⟩ : ∃ obj, s.images[im]? = some obj := ⟨_, List.getElem?_eq_getElem hlt⟩
  refine ⟨obj, hobj, by simp [dependencies, hobj], fun order => ?_⟩
  rw [Linker.object, initialized_images, hobj, Option.map_some, h.fresh im him obj hobj,
    Bool.false_or]
  rfl

theorem Uninitialized.imageChain (h : Uninitialized s chain) (order : List ImageId) :
    (s.initialized order).imageChain = done chain := by
  refine Linker.imageChain_eq_done.mpr (h.isChain.congr fun im _ => ?_)
  rw [initialized_images, Option.map_map]
  rfl

theorem Uninitialized.dependenciesInitialized (h : Uninitialized s chain) (order : List ImageId)
    {deps : List ImageId} (hdeps : ∀ dep ∈ deps, dep ∈ chain) :
    Lnk.dependenciesInitialized (s.initialized order) deps =
      done (decide (∀ dep ∈ deps, dep ∈ order)) := by
  induction deps with
  | nil => simp [Lnk.dependenciesInitialized]
  | cons dep deps ih =>
    obtain ⟨obj, -, -, hobj⟩ := h.exists_object (hdeps dep (by simp))
    rw [Lnk.dependenciesInitialized, hobj order, done_bind]
    by_cases hmem : dep ∈ order
    · simp only [MachObject.setInitialized, hmem, decide_true, Bool.true_eq_false, if_false]
      rw [ih fun d hd => hdeps d (by simp [hd])]
      simp [hmem]
    · simp [MachObject.setInitialized, hmem]

theorem Uninitialized.countCircular (h : Uninitialized s chain) (order : List ImageId)
    (im : ImageId) {deps : List ImageId} (hdeps : ∀ dep ∈ deps, dep ∈ chain) (l : InitLocals)
    (isCirc : Bool) :
    let k := deps.countP fun dep => im ∈ dependencies s dep
    Lnk.countCircular (s.initialized order) im deps l isCirc =
      done ({ l with
        runCircularInitializer := l.runCircularInitializer || k ≠ 0
        ccount := l.ccount + BitVec.ofNat 32 k }, isCirc || k ≠ 0) := by
  induction deps generalizing l isCirc with
  | nil => simp [Lnk.countCircular]
  | cons dep deps ih =>
    obtain ⟨obj, -, hobjdeps, hobj⟩ := h.exists_object (hdeps dep (by simp))
    have ih := ih fun d hd => hdeps d (by simp [hd])
    have hdep : dependsOn (obj.setInitialized (decide (dep ∈ order))) im =
        decide (im ∈ dependencies s dep) := by
      rw [hobjdeps]
      rfl
    intro k
    rw [Lnk.countCircular, hobj order, done_bind, hdep]
    by_cases hmem : im ∈ dependencies s dep
    · have hk : k = deps.countP (fun dep => im ∈ dependencies s dep) + 1 :=
        List.countP_cons_of_pos (by simpa using hmem)
      rw [if_pos (by simpa using hmem), ih, hk]
      simp [BitVec.ofNat_add, BitVec.add_comm, BitVec.add_assoc]
    · have hk : k = deps.countP fun dep => im ∈ dependencies s dep :=
        List.countP_cons_of_neg (by simpa using hmem)
      rw [if_neg (by simpa using hmem), ih, hk]

/-- **One pass** of `initializeChain` is a pass of the abstract model. -/
theorem Uninitialized.runInit (h : Uninitialized s chain) {l : List ImageId}
    (hl : ∀ im ∈ l, im ∈ chain) (st : Rounds.State ImageId) :
    Lnk.runInit l (s.initialized st.order) (locals st) =
      let r := Rounds.pass (dependencies s) l st
      done (r.1, s.initialized r.2.order, locals r.2) := by
  induction l generalizing st with
  | nil => rfl
  | cons im l ih =>
    have him := hl im (by simp)
    have ih := ih fun j hj => hl j (by simp [hj])
    obtain ⟨obj, hobj, hdeps, hobject⟩ := h.exists_object him
    have hclosed : ∀ dep ∈ obj.fDependencies, dep ∈ chain := by
      rw [← hdeps]
      exact h.closed im him
    have hready : Rounds.Ready (dependencies s) st.order im ↔
        ∀ dep ∈ obj.fDependencies, dep ∈ st.order := by
      rw [← hdeps]
      rfl
    rw [Lnk.runInit, hobject, done_bind, Rounds.pass]
    show (Lnk.dependenciesInitialized (s.initialized st.order) obj.fDependencies >>= _) = _
    rw [h.dependenciesInitialized st.order hclosed, done_bind]
    by_cases hr : Rounds.Ready (dependencies s) st.order im
    · rw [if_pos hr, if_pos (decide_eq_true (hready.mp hr))]
      by_cases hmem : im ∈ st.order
      · rw [Rounds.State.start, if_pos hmem, if_neg (by simp [MachObject.setInitialized, hmem])]
        exact ih st
      · rw [Rounds.State.start, if_neg hmem, if_pos (by simp [MachObject.setInitialized, hmem]),
          doInitialize_initialized hobj (h.fresh im him obj hobj) hmem, done_bind]
        exact ih { st with order := st.order ++ [im], icount := st.icount - 1 }
    · rw [if_neg hr, if_neg (by simpa using fun hd => hr (hready.mpr hd))]
      by_cases hcount : st.ccount = st.icount
      · rw [if_pos hcount]
        exact if_pos hcount
      · rw [if_neg hcount]
        refine (if_neg hcount).trans ?_
        show (Lnk.countCircular (s.initialized st.order) im obj.fDependencies (locals st) false >>=
          _) = _
        rw [h.countCircular st.order im hclosed, done_bind]
        have hk : obj.fDependencies.countP (fun dep => im ∈ dependencies s dep) =
            Rounds.mutualCount (dependencies s) im := by
          rw [← hdeps]
          rfl
        rw [hk, ← ih (st.postpone (dependencies s) im)]
        unfold Rounds.State.postpone locals
        by_cases hzero : Rounds.mutualCount (dependencies s) im = 0
        · simp [hzero]
        · simp [hzero]

theorem Uninitialized.circInit (h : Uninitialized s chain) {l : List ImageId}
    (hl : ∀ im ∈ l, im ∈ chain) (hnodup : l.Nodup) (order : List ImageId) :
    Lnk.circInit l (s.initialized order) =
      done (s.initialized (order ++ l.filter (· ∉ order))) := by
  induction l generalizing order with
  | nil => simp [Lnk.circInit]
  | cons im l ih =>
    have him := hl im (by simp)
    obtain ⟨hnot, hnodup⟩ := List.nodup_cons.mp hnodup
    have ih := ih (fun j hj => hl j (by simp [hj])) hnodup
    obtain ⟨obj, hobj, -, hobject⟩ := h.exists_object him
    rw [Lnk.circInit, hobject, done_bind]
    by_cases hmem : im ∈ order
    · rw [if_neg (by simp [MachObject.setInitialized, hmem]), ih,
        List.filter_cons_of_neg (by simpa using hmem)]
    · rw [if_pos (by simp [MachObject.setInitialized, hmem]),
        doInitialize_initialized hobj (h.fresh im him obj hobj) hmem, done_bind, ih,
        List.filter_cons_of_pos (by simpa using hmem), List.append_assoc]
      have hsame : l.filter (· ∉ order ++ [im]) = l.filter (· ∉ order) := by
        refine List.filter_congr fun j hj => ?_
        have hne : j ≠ im := fun heq => hnot (heq ▸ hj)
        simp [hne]
      rw [hsame]
      rfl

theorem Uninitialized.runInitLoop (h : Uninitialized s chain) (fuel : Nat)
    (st : Rounds.State ImageId) :
    Lnk.runInitLoop fuel (s.initialized st.order) (locals st) =
      Rounds.rounds (dependencies s) chain fuel st >>= fun st =>
        done (s.initialized st.order, locals st) := by
  induction fuel generalizing st with
  | zero => rfl
  | succ fuel ih =>
    have hpass := h.runInit (fun _ him => him) { st with waiting := false }
    unfold Lnk.runInitLoop Rounds.rounds
    rw [h.imageChain, done_bind]
    show (Lnk.runInit chain (s.initialized st.order) (locals { st with waiting := false }) >>=
      _) = _
    rw [hpass]
    rcases Rounds.pass (dependencies s) chain { st with waiting := false } with ⟨met, st'⟩
    rw [done_bind]
    dsimp only
    by_cases hgo : met = false ∧ st'.waiting = true
    · rw [if_pos hgo, ← ih st']
      exact if_pos hgo
    · rw [if_neg hgo]
      exact if_neg hgo

/-- **The initialization of a chain** is the one of the abstract model. -/
theorem Uninitialized.initializeChain (h : Uninitialized s chain) (fuel : Nat) (garbage : Bool) :
    Lnk.initializeChain fuel garbage s =
      Rounds.rounds (dependencies s) chain fuel (.init chain.length garbage) >>= fun st =>
        done (s.initialized (Rounds.finish chain st)) := by
  have hcount : s.sImageCount = BitVec.ofNat 32 chain.length := by
    simp [← h.count]
  have hloop := h.runInitLoop fuel (.init chain.length garbage)
  rw [show (Rounds.State.init chain.length garbage : Rounds.State ImageId).order = [] from rfl,
    initialized_nil] at hloop
  unfold Lnk.initializeChain
  rw [hcount]
  show (Lnk.runInitLoop fuel s (locals (.init chain.length garbage)) >>= _) = _
  rw [hloop]
  cases Rounds.rounds (dependencies s) chain fuel (.init chain.length garbage) with
  | done st =>
    simp only [done_bind]
    unfold Rounds.finish
    by_cases hcirc : st.circular = true
    · rw [if_pos hcirc]
      refine (if_pos hcirc).trans ?_
      rw [h.imageChain, done_bind, h.circInit (fun _ him => him) h.nodup st.order]
    · rw [if_neg hcirc]
      exact if_neg hcirc
  | halt msg => rfl
  | fault => rfl
  | timeout => rfl

end LibSystem.Lnk
