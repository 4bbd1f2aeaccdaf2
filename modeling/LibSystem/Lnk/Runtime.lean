import LibSystem.Run
import LibSystem.Lnk.Content

/-!
# The running process

The linker calls functions of the images: their initializers, and the handlers of
`_dyld_register_func_for_add_image`. Such a function calls `dlopen` or registers handlers as
it likes, and returns at some point. The loops of the linker then go on from where they were, and
see what has become of the chain.
-/

namespace LibSystem.Lnk

open Outcome

/-! ## The initializers of an image -/

/-- A function that `doInitialize` calls: the one of the command, or one from an array. -/
inductive Slot where
  | routines
  | entry (segment sect index : Nat)
  deriving DecidableEq

/-- `LC_ROUTINES` first, and then by segment, section and array. -/
def Slot.Before : Slot → Slot → Prop
  | .routines, .entry _ _ _ => True
  | .entry i j k, .entry i' j' k' => i < i' ∨ (i = i' ∧ (j < j' ∨ (j = j' ∧ k < k')))
  | _, .routines => False

def sectionSlots (segment : Nat) (sect : Section × Nat) : List Slot :=
  if sect.1.flags &&& sectionType = sModInitFuncPointers then
    (List.range (sect.1.size.toNat / 4)).map (.entry segment sect.2)
  else []

def segmentSlots (seg : SegmentCommand × Nat) : List Slot :=
  seg.1.sections.zipIdx.flatMap (sectionSlots seg.2)

/-- What the loops of `doInitialize` go through. -/
def slots (obj : MachObject) : List Slot :=
  (obj.fRoutines.map fun _ => Slot.routines).toList ++
    obj.fSegmentLoadCommands.zipIdx.flatMap segmentSlots

/-- An array entry is read when its turn comes. -/
def slotFunction (mem : Mem) (obj : MachObject) : Slot → Outcome Word
  | .routines => do
    let initAddress ← Outcome.ofOption obj.fRoutines
    .done (initAddress + obj.fSlide)
  | .entry segment sect index => do
    let seg ← Outcome.ofOption obj.fSegmentLoadCommands[segment]?
    let sect ← Outcome.ofOption seg.sections[sect]?
    .done (mem.load (sect.addr + obj.fSlide + BitVec.ofNat 32 (4 * index)))

/-! ## The state -/

/-- A function of the linker that is waiting for one that it has called. -/
inductive Frame where
  /-- `doInitialize`, with the slots still to come. The flag tells if an initializer is running. -/
  | init (im : ImageId) (todo : List Slot) (running : Bool)
  /-- `runAddImageHandler`. The handler has been called for the image. -/
  | handler (fn : Word) (im : ImageId)
  deriving DecidableEq

/-- Where `_main` is: in the loops of `initializeChain`, on which the variable `im` points to the
image, in the main executable's initialization, or past it. -/
inductive Phase where
  | runInit (im : Option ImageId) (l : InitLocals)
  | runInitNext (im : ImageId) (l : InitLocals)
  | circInit (im : Option ImageId)
  | circInitNext (im : ImageId)
  | mainInit
  | program

structure HandlerCall where
  fn : Word
  im : ImageId
  mh : Addr
  vmaddrSlide : Word
  deriving DecidableEq

/-- `started` and `handled` say which functions have been called so far. -/
structure Runtime where
  linker : Linker
  phase : Phase
  /-- The innermost comes first. -/
  frames : List Frame
  /-- The first `sAddCount` entries. -/
  sAddHandlers : List Word
  started : List (ImageId × Slot)
  handled : List HandlerCall

def Phase.isProgram : Phase → Bool
  | .program => true
  | _ => false

/-- A function of an image, or the program, is running. -/
def Runtime.inUserCode (r : Runtime) : Bool :=
  match r.frames with
  | [] => r.phase.isProgram
  | .init _ _ running :: _ => running
  | .handler _ _ :: _ => true

/-! ## The linker's own code -/

/-- `doInitialize`, up to its first call. -/
def Runtime.doInitialize (r : Runtime) (im : ImageId) : Outcome Runtime := do
  let obj ← r.linker.object im
  if obj.fHasInitialized then .done r
  else .done { r with
    linker := r.linker.record (.enterInit im)
    frames := .init im (slots obj) false :: r.frames }

/-- From the label `circ_init`. -/
def circInitPhase (s : Linker) (l : InitLocals) : Phase :=
  if l.runCircularInitializer then .circInit s.sFirstImage else .mainInit

/-- The next step of `_main`, and the image to initialize in it. -/
def Phase.next (s : Linker) : Phase → Outcome (Phase × Option ImageId)
  | .runInit none l =>
    if l.hasUnitializedDependencies then
      .done (.runInit s.sFirstImage { l with hasUnitializedDependencies := false }, none)
    else .done (circInitPhase s l, none)
  | .runInit (some im) l => do
    let obj ← s.object im
    let ready ← dependenciesInitialized s obj.fDependencies
    if ready then
      if obj.fHasInitialized = false then
        .done (.runInitNext im { l with icount := l.icount - 1 }, some im)
      else .done (.runInitNext im l, none)
    else if l.ccount = l.icount then .done (circInitPhase s l, none)
    else do
      let (l, isCirc) ← countCircular s im obj.fDependencies l false
      .done (.runInitNext im
        (if isCirc = false then { l with hasUnitializedDependencies := true } else l), none)
  | .runInitNext im l => do
    let obj ← s.object im
    .done (.runInit obj.fNextImage l, none)
  | .circInit none => .done (.mainInit, none)
  | .circInit (some im) => do
    let obj ← s.object im
    .done (.circInitNext im, if obj.fHasInitialized = false then some im else none)
  | .circInitNext im => do
    let obj ← s.object im
    .done (.circInit obj.fNextImage, none)
  | .mainInit => do
    let main ← Outcome.ofOption s.sMainExecutable
    .done (.program, some main)
  | .program => .done (.program, none)

/-- The call of the handler for an image, unless the chain has ended. -/
def Runtime.callHandler (r : Runtime) (fn : Word) : Option ImageId → Outcome Runtime
  | none => .done r
  | some im => do
    let obj ← r.linker.object im
    .done { r with
      frames := .handler fn im :: r.frames
      handled := r.handled ++ [⟨fn, im, obj.fHeader, obj.fSlide⟩] }

/-- The linker's code goes on. -/
def Runtime.goOn (r : Runtime) : Outcome Runtime :=
  match r.frames with
  | [] => do
    let (phase, im) ← r.phase.next r.linker
    match im with
    | none => .done { r with phase := phase }
    | some im => Runtime.doInitialize { r with phase := phase } im
  | .init im [] _ :: rest =>
    .done { r with
      linker := (r.linker.modify im fun obj => obj.setInitialized true).record (.leaveInit im)
      frames := rest }
  | .init im (slot :: todo) _ :: rest => do
    let obj ← r.linker.object im
    let fn ← slotFunction r.linker.mem obj slot
    .done { r with
      linker := callInitializer r.linker im fn
      frames := .init im todo true :: rest
      started := r.started ++ [(im, slot)] }
  | .handler _ _ :: _ => .done r

/-! ## What a called function does -/

/-- It returns. -/
def Runtime.leave (r : Runtime) : Outcome Runtime :=
  match r.frames with
  | [] => .done r
  | .init im todo _ :: rest => .done { r with frames := .init im todo false :: rest }
  | .handler fn im :: rest => do
    let obj ← r.linker.object im
    Runtime.callHandler { r with frames := rest } fn obj.fNextImage

def Runtime.dlopen (sys : System) (fuel : Nat) (path : String) (r : Runtime) : Outcome Runtime := do
  let (dlib, alreadyLoaded, s) ← loadLibraryEx sys fuel path r.linker
  if dlib = s.sFirstImage ∨ alreadyLoaded = some true then .done { r with linker := s }
  else do
    let im ← Outcome.ofOption dlib
    let s ← doBindSymbols sys s im
    Runtime.doInitialize { r with linker := s } im

/-- `_dyld_register_func_for_add_image`. The array has room for 1024 handlers. -/
def Runtime.register (fn : Word) (r : Runtime) : Outcome Runtime :=
  if 1024 ≤ r.sAddHandlers.length then .fault
  else Runtime.callHandler { r with sAddHandlers := r.sAddHandlers ++ [fn] } fn r.linker.sFirstImage

inductive Action where
  | goOn
  | leave
  | dlopen (fuel : Nat) (path : String)
  | register (fn : Word)

def Runtime.act (sys : System) (r : Runtime) : Action → Outcome Runtime
  | .goOn => r.goOn
  | .leave => r.leave
  | .dlopen fuel path => r.dlopen sys fuel path
  | .register fn => r.register fn

/-- Only the linker goes on by itself, and the rest is up to the others. -/
def Action.inUserCode : Action → Bool
  | .goOn => false
  | _ => true

structure Runtime.Step (sys : System) (r : Runtime) (a : Action) (r' : Runtime) : Prop where
  turn : r.inUserCode = a.inUserCode
  act : r.act sys a = .done r'

/-! ## The start -/

/-- The call of `initializeChain`. `garbage` is what `runCircularInitializer` holds. -/
def Runtime.start (garbage : Bool) (s : Linker) : Runtime where
  linker := s
  phase := .runInit s.sFirstImage ⟨false, garbage, 0, s.sImageCount⟩
  frames := []
  sAddHandlers := []
  started := []
  handled := []

/-- A run with the given actions. -/
def runActions (sys : System) : List Action → Runtime → Outcome Runtime
  | [], r => .done r
  | a :: rest, r =>
    if r.inUserCode = a.inUserCode then do
      let r ← r.act sys a
      runActions sys rest r
    else .fault

theorem runActions_reaches {sys : System} {actions : List Action} {r r' : Runtime}
    (h : runActions sys actions r = done r') : Reaches (Runtime.Step sys) r r' := by
  induction actions generalizing r with
  | nil =>
    obtain rfl := done.inj h
    exact .refl
  | cons a rest ih =>
    unfold runActions at h
    split at h
    · rename_i hturn
      obtain ⟨r1, hact, h⟩ := bind_eq_done.mp h
      exact (Reaches.single ⟨hturn, hact⟩).trans (ih h)
    · simp at h

/-! ## What the functions do -/

variable {sys : System} {r r' : Runtime} {im : ImageId}

theorem Runtime.doInitialize_eq_done (h : r.doInitialize im = done r') :
    ∃ obj, r.linker.images[im]? = some obj ∧ ((obj.fHasInitialized = true ∧ r' = r) ∨
      (obj.fHasInitialized = false ∧ r' = { r with
        linker := r.linker.record (.enterInit im)
        frames := .init im (slots obj) false :: r.frames })) := by
  obtain ⟨obj, hobj, h⟩ := bind_eq_done.mp h
  rw [Linker.object, ofOption_eq_done] at hobj
  refine ⟨obj, hobj, ?_⟩
  split at h
  · rename_i hflag
    exact .inl ⟨hflag, (done.inj h).symm⟩
  · rename_i hflag
    exact .inr ⟨by simpa using hflag, (done.inj h).symm⟩

theorem Runtime.callHandler_eq_done {fn : Word} {next : Option ImageId}
    (h : r.callHandler fn next = done r') : (next = none ∧ r' = r) ∨
      ∃ im obj, next = some im ∧ r.linker.images[im]? = some obj ∧ r' = { r with
        frames := .handler fn im :: r.frames
        handled := r.handled ++ [⟨fn, im, obj.fHeader, obj.fSlide⟩] } := by
  cases next with
  | none => exact .inl ⟨rfl, (done.inj h).symm⟩
  | some im =>
    obtain ⟨obj, hobj, h⟩ := bind_eq_done.mp h
    rw [Linker.object, ofOption_eq_done] at hobj
    exact .inr ⟨im, obj, rfl, hobj, (done.inj h).symm⟩

theorem Runtime.dlopen_eq_done {fuel : Nat} {path : String}
    (h : r.dlopen sys fuel path = done r') :
    ∃ dlib al s, loadLibraryEx sys fuel path r.linker = done (dlib, al, s) ∧
      ((r' = { r with linker := s }) ∨ ∃ im bound, dlib = some im ∧ dlib ≠ s.sFirstImage ∧
        al ≠ some true ∧ doBindSymbols sys s im = done bound ∧
          Runtime.doInitialize { r with linker := bound } im = done r') := by
  obtain ⟨⟨dlib, al, s⟩, hload, h⟩ := bind_eq_done.mp h
  refine ⟨dlib, al, s, hload, ?_⟩
  dsimp only at h
  split at h
  · exact .inl (done.inj h).symm
  · rename_i hnot
    obtain ⟨im, him, h⟩ := bind_eq_done.mp h
    obtain ⟨bound, hbound, h⟩ := bind_eq_done.mp h
    rw [not_or] at hnot
    exact .inr ⟨im, bound, ofOption_eq_done.mp him, hnot.1, hnot.2, hbound, h⟩

/-! ## Without interruption

As long as no initializer calls `dlopen`, the process does what `initializeChain` and
`doInitialize` do.
-/

theorem map_flatMap_zipIdx {α β γ : Type} {l : List α} {f : α × Nat → List β} {g : β → γ}
    {h : α → List γ} (heq : ∀ x i, l[i]? = some x → (f (x, i)).map g = h x) :
    (l.zipIdx.flatMap f).map g = l.flatMap h := by
  have hsame : l.zipIdx.flatMap (fun p => (f p).map g) = l.zipIdx.flatMap fun p => h p.1 :=
    List.flatMap_congr fun p hp => heq p.1 p.2 (List.mk_mem_zipIdx_iff_getElem?.mp hp)
  rw [List.map_flatMap, hsame, ← List.flatMap_map, List.zipIdx_map_fst]

theorem slots_initializers (mem : Mem) (obj : MachObject) :
    (slots obj).map (slotFunction mem obj) = (initializers mem obj).map done := by
  unfold slots initializers
  rw [List.map_append, List.map_append]
  congr 1
  · cases hroutines : obj.fRoutines with
    | none => rfl
    | some initAddress => simp [slotFunction, hroutines]
  · conv_rhs => rw [List.map_flatMap]
    refine map_flatMap_zipIdx fun seg i hseg => ?_
    conv_rhs => rw [List.map_flatMap]
    refine map_flatMap_zipIdx fun sect j hsect => ?_
    unfold sectionSlots
    split
    · simp [slotFunction, hseg, hsect]
    · rfl

variable (sys) in
theorem init_reaches {obj : MachObject} {todo : List Slot} {fns : List Word} {rest : List Frame}
    (hframes : r.frames = .init im todo false :: rest) (hobj : r.linker.images[im]? = some obj)
    (hfns : todo.map (slotFunction r.linker.mem obj) = fns.map done) :
    ∃ r', Reaches (Runtime.Step sys) r r' ∧ r'.phase = r.phase ∧
      r'.frames = .init im [] false :: rest ∧
      r'.linker = { r.linker with
        trace := r.linker.trace ++ fns.map (.callInitializer im) } := by
  induction todo generalizing r fns with
  | nil =>
    obtain rfl : fns = [] := by simpa using hfns.symm
    exact ⟨r, .refl, rfl, hframes, by simp⟩
  | cons slot todo ih =>
    obtain ⟨fn, fns, rfl⟩ := List.exists_cons_of_ne_nil (l := fns) (by rintro rfl; simp at hfns)
    obtain ⟨hfn, hfns⟩ := List.cons_eq_cons.mp hfns
    -- The call, and the return.
    have hcall : r.goOn = done { r with
        linker := callInitializer r.linker im fn
        frames := .init im todo true :: rest
        started := r.started ++ [(im, slot)] } := by
      unfold Runtime.goOn Linker.object
      simp only [hframes, hobj, ofOption_some, done_bind, hfn]
    have hstart : r.inUserCode = false := by simp [Runtime.inUserCode, hframes]
    obtain ⟨r', hreach, hphase, hframes', hlinker⟩ := ih (r := { r with
      linker := callInitializer r.linker im fn
      frames := .init im todo false :: rest
      started := r.started ++ [(im, slot)] }) rfl hobj hfns
    refine ⟨r', ?_, hphase, hframes', ?_⟩
    · have hleave : Reaches (Runtime.Step sys) { r with
          linker := callInitializer r.linker im fn
          frames := .init im todo true :: rest
          started := r.started ++ [(im, slot)] } _ := Reaches.single (t := .leave) ⟨rfl, rfl⟩
      exact ((Reaches.single (t := .goOn) ⟨hstart, hcall⟩).trans hleave).trans hreach
    · rw [hlinker]
      simp [callInitializer, Linker.record]

variable (sys) in
theorem doInitialize_reaches {s' : Linker} (h : doInitialize r.linker im = done s') :
    ∃ r1 r', r.doInitialize im = done r1 ∧ Reaches (Runtime.Step sys) r1 r' ∧
      r'.phase = r.phase ∧ r'.frames = r.frames ∧ r'.linker = s' := by
  obtain ⟨obj, hobj, ⟨hflag, rfl⟩ | ⟨hflag, rfl⟩⟩ := doInitialize_eq_done h
  · refine ⟨r, r, ?_, .refl, rfl, rfl, rfl⟩
    unfold Runtime.doInitialize Linker.object
    rw [hobj, ofOption_some, done_bind, if_pos hflag]
  · obtain ⟨r2, hreach, hphase, hframes, hlinker⟩ := init_reaches sys (r := { r with
      linker := r.linker.record (.enterInit im)
      frames := .init im (slots obj) false :: r.frames }) rfl hobj (slots_initializers _ obj)
    have huser : r2.inUserCode = false := by simp [Runtime.inUserCode, hframes]
    have hend : r2.goOn = done { r2 with
        linker := (r2.linker.modify im fun obj => obj.setInitialized true).record (.leaveInit im)
        frames := r.frames } := by
      unfold Runtime.goOn
      simp only [hframes]
    refine ⟨_, _, ?_, hreach.trans (Reaches.single (t := .goOn) ⟨huser, hend⟩), hphase, rfl, ?_⟩
    · unfold Runtime.doInitialize Linker.object
      rw [hobj, ofOption_some, done_bind, if_neg (by simp [hflag])]
    · rw [hlinker]
      simp [Linker.record, Linker.modify, initEvents, hobj]

/-- `_main` gets from one state and place to another. -/
def Gets (sys : System) (s : Linker) (phase : Phase) (s' : Linker) (phase' : Phase) : Prop :=
  ∀ r : Runtime, r.linker = s → r.phase = phase → r.frames = [] →
    ∃ r', Reaches (Runtime.Step sys) r r' ∧ r'.linker = s' ∧ r'.phase = phase' ∧ r'.frames = []

section Gets

variable {s s' s'' : Linker} {phase phase' phase'' : Phase}

theorem Gets.refl (s : Linker) (phase : Phase) : Gets sys s phase s phase :=
  fun r hlinker hphase hframes => ⟨r, .refl, hlinker, hphase, hframes⟩

theorem Gets.trans (h : Gets sys s phase s' phase') (h' : Gets sys s' phase' s'' phase'') :
    Gets sys s phase s'' phase'' := by
  intro r hlinker hphase hframes
  obtain ⟨r1, hreach, hlinker, hphase, hframes⟩ := h r hlinker hphase hframes
  obtain ⟨r2, hreach', hr2⟩ := h' r1 hlinker hphase hframes
  exact ⟨r2, hreach.trans hreach', hr2⟩

theorem Gets.next (hphase : phase.isProgram = false) (h : phase.next s = done (phase', none)) :
    Gets sys s phase s phase' := by
  rintro r rfl rfl hframes
  have huser : r.inUserCode = false := by simpa [Runtime.inUserCode, hframes] using hphase
  refine ⟨{ r with phase := phase' }, Reaches.single (t := .goOn) ⟨huser, ?_⟩, rfl, rfl, hframes⟩
  show r.goOn = _
  unfold Runtime.goOn
  simp only [hframes, h, done_bind]

theorem Gets.init (hphase : phase.isProgram = false) (h : phase.next s = done (phase', some im))
    (hinit : doInitialize s im = done s') : Gets sys s phase s' phase' := by
  rintro r rfl rfl hframes
  have huser : r.inUserCode = false := by simpa [Runtime.inUserCode, hframes] using hphase
  obtain ⟨r1, r2, hr1, hreach, hphase2, hframes2, hlinker2⟩ :=
    doInitialize_reaches sys (r := { r with phase := phase' }) hinit
  refine ⟨r2, (Reaches.single (t := .goOn) ⟨huser, ?_⟩).trans hreach, hlinker2, hphase2,
    hframes2.trans hframes⟩
  show r.goOn = _
  rw [← hr1]
  unfold Runtime.goOn
  simp only [hframes, h, done_bind]

variable (sys) in
theorem Gets.link {rest : List ImageId} {obj : MachObject} {l : InitLocals}
    (hobj : s.images[im]? = some obj) (hrest : IsChain s.images obj.fNextImage rest)
    (hlinks : ∀ j, nextLink s' j = nextLink s j) :
    ∃ p, IsChain s'.images p rest ∧ Gets sys s' (.runInitNext im l) s' (.runInit p l) ∧
      Gets sys s' (.circInitNext im) s' (.circInit p) := by
  have hlink : nextLink s' im = some obj.fNextImage := by
    rw [hlinks, nextLink, hobj]
    rfl
  obtain ⟨obj', hobj', hnext⟩ := Option.map_eq_some_iff.mp hlink
  refine ⟨obj.fNextImage, hrest.congr fun j _ => hlinks j, .next rfl ?_, .next rfl ?_⟩
  · simp [Phase.next, Linker.object, hobj', hnext]
  · simp [Phase.next, Linker.object, hobj', hnext]

variable (sys) in
theorem runInit_gets {chain : List ImageId} {p : Option ImageId} {l l' : InitLocals} {circ : Bool}
    (hchain : IsChain s.images p chain) (h : runInit chain s l = done (circ, s', l')) :
    Gets sys s (.runInit p l) s' (if circ then circInitPhase s' l' else .runInit none l') := by
  induction chain generalizing s p l with
  | nil =>
    obtain rfl : p = none := hchain
    obtain ⟨rfl, rfl, rfl⟩ := by simpa [runInit] using h
    exact .refl _ _
  | cons im rest ih =>
    obtain ⟨rfl, obj, hobj, hrest⟩ := hchain
    have hobject : s.object im = done obj := by rw [Linker.object, hobj, ofOption_some]
    rw [runInit, hobject, done_bind] at h
    obtain ⟨ready, hready, h⟩ := bind_eq_done.mp h
    split at h
    · rename_i hr
      split at h
      · rename_i hflag
        obtain ⟨s1, hinit, h⟩ := bind_eq_done.mp h
        obtain ⟨-, -, events, hwork, -⟩ := doInitialize_works hinit
        obtain ⟨q, hq, hlink, -⟩ := Gets.link sys hobj hrest hwork.links
        refine (Gets.init rfl ?_ hinit).trans (hlink.trans (ih hq h))
        simp [Phase.next, hobject, hready, hr, hflag]
      · rename_i hflag
        obtain ⟨q, hq, hlink, -⟩ := Gets.link sys hobj hrest fun _ => rfl
        refine (Gets.next rfl ?_).trans (hlink.trans (ih hq h))
        simp [Phase.next, hobject, hready, hr, hflag]
    · rename_i hr
      split at h
      · rename_i hcount
        obtain ⟨rfl, rfl, rfl⟩ := by simpa using h
        refine .next rfl ?_
        simp [Phase.next, hobject, hready, hr, hcount]
      · rename_i hcount
        obtain ⟨⟨l1, isCirc⟩, hcirc, h⟩ := bind_eq_done.mp h
        obtain ⟨q, hq, hlink, -⟩ := Gets.link sys hobj hrest fun _ => rfl
        refine (Gets.next rfl ?_).trans (hlink.trans (ih hq h))
        simp [Phase.next, hobject, hready, hr, hcount, hcirc]

variable (sys) in
theorem runInitLoop_gets {fuel : Nat} {l l' : InitLocals}
    (h : runInitLoop fuel s l = done (s', l')) :
    Gets sys s (.runInit s.sFirstImage { l with hasUnitializedDependencies := false }) s'
      (circInitPhase s' l') := by
  induction fuel generalizing s l with
  | zero => simp [runInitLoop] at h
  | succ fuel ih =>
    obtain ⟨chain, hchain, h⟩ := bind_eq_done.mp h
    obtain ⟨⟨circ, s1, l1⟩, hpass, h⟩ := bind_eq_done.mp h
    have hgets := runInit_gets sys (Linker.imageChain_eq_done.mp hchain) hpass
    dsimp only at h
    split at h
    · rename_i hagain
      obtain ⟨rfl, hwaiting⟩ := hagain
      refine hgets.trans (Gets.trans (.next rfl ?_) (ih h))
      simp [Phase.next, hwaiting]
    · rename_i hstop
      obtain ⟨rfl, rfl⟩ := by simpa using h
      cases circ with
      | true => exact hgets
      | false =>
        have hwaiting : l1.hasUnitializedDependencies = false := by simpa using hstop
        refine hgets.trans (.next rfl ?_)
        simp [Phase.next, hwaiting]

theorem circInit_gets {chain : List ImageId} {p : Option ImageId}
    (hchain : IsChain s.images p chain) (h : circInit chain s = done s') :
    Gets sys s (.circInit p) s' .mainInit := by
  induction chain generalizing s p with
  | nil =>
    obtain rfl : p = none := hchain
    obtain rfl := by simpa [circInit] using h
    exact .next rfl rfl
  | cons im rest ih =>
    obtain ⟨rfl, obj, hobj, hrest⟩ := hchain
    have hobject : s.object im = done obj := by rw [Linker.object, hobj, ofOption_some]
    rw [circInit, hobject, done_bind] at h
    split at h
    · rename_i hflag
      obtain ⟨s1, hinit, h⟩ := bind_eq_done.mp h
      obtain ⟨-, -, events, hwork, -⟩ := doInitialize_works hinit
      obtain ⟨q, hq, -, hlink⟩ := Gets.link sys (l := ⟨false, false, 0, 0⟩) hobj hrest
        hwork.links
      refine (Gets.init rfl ?_ hinit).trans (hlink.trans (ih hq h))
      simp [Phase.next, hobject, hflag]
    · rename_i hflag
      obtain ⟨q, hq, -, hlink⟩ := Gets.link sys (l := ⟨false, false, 0, 0⟩) hobj hrest
        fun _ => rfl
      refine (Gets.next rfl ?_).trans (hlink.trans (ih hq h))
      simp [Phase.next, hobject, hflag]

theorem initializeChain_gets {fuel : Nat} {garbage : Bool}
    (h : initializeChain fuel garbage s = done s') :
    Gets sys s (.runInit s.sFirstImage ⟨false, garbage, 0, s.sImageCount⟩) s' .mainInit := by
  obtain ⟨⟨s1, l1⟩, hloop, h⟩ := bind_eq_done.mp h
  have hgets := runInitLoop_gets sys hloop
  dsimp only at h
  split at h
  · rename_i hcirc
    obtain ⟨chain, hchain, h⟩ := bind_eq_done.mp h
    rw [circInitPhase, if_pos hcirc] at hgets
    exact hgets.trans (circInit_gets (Linker.imageChain_eq_done.mp hchain) h)
  · rename_i hcirc
    obtain rfl := done.inj h
    rw [circInitPhase, if_neg hcirc] at hgets
    exact hgets

end Gets

/-! ## The state after the loads of the startup -/

/-- No image has been initialized. -/
def AllFresh (s : Linker) : Prop := ∀ im, initializedFlag s im ≠ some true

theorem AllFresh.loads {s s' : Linker} (h : AllFresh s) (hload : Loads s s') : AllFresh s' := by
  intro im
  rcases Nat.lt_or_ge im s.images.length with him | him
  · rw [hload.flags im him]
    exact h im
  rcases Nat.lt_or_ge im s'.images.length with him' | him'
  · rw [hload.fresh im (mem_newImages.mpr ⟨him, him'⟩)]
    simp
  · simp [initializedFlag, List.getElem?_eq_none him']

theorem AllFresh.append {s : Linker} (h : AllFresh s) {obj : MachObject}
    (hobj : obj.fHasInitialized = false) (main : Option ImageId) :
    AllFresh { s with images := s.images ++ [obj], sMainExecutable := main } := by
  intro im
  rcases Nat.lt_trichotomy im s.images.length with him | rfl | him
  · have := h im
    rwa [initializedFlag, List.getElem?_append_left him]
  · simp [initializedFlag, hobj]
  · rw [initializedFlag, List.getElem?_eq_none (by simp; omega)]
    simp

theorem AllFresh.of_images {s s' : Linker} (h : AllFresh s) (himages : s'.images = s.images) :
    AllFresh s' := by
  intro im
  unfold initializedFlag
  rw [himages]
  exact h im

theorem AllFresh.aux {s s' : Linker} (h : AllFresh s) {fuel : Nat} {paths : List String}
    (hload : loadAuxiliarySystemLibraries sys fuel paths s = done s') : AllFresh s' :=
  loadAuxiliarySystemLibraries_preserves
    (fun _ _ _ _ _ ht hpath => (ht.loads (loadLibrary_loads hpath).1).of_images rfl) h hload

theorem doBindSymbols_images {s s' : Linker} (h : doBindSymbols sys s im = done s') :
    s'.images = s.images ∧ s'.sFirstImage = s.sFirstImage ∧
      s'.sMainExecutable = s.sMainExecutable := by
  obtain ⟨⟨mem, count⟩, -, h⟩ := bind_eq_done.mp h
  obtain rfl := done.inj h
  exact ⟨rfl, rfl, rfl⟩

theorem bindAll_images {s s' : Linker} {chain : List ImageId} (h : bindAll sys chain s = done s') :
    s'.images = s.images ∧ s'.sMainExecutable = s.sMainExecutable := by
  refine bindAll_preserves
    (P := fun t => t.images = s.images ∧ t.sMainExecutable = s.sMainExecutable)
    (fun im _ t t' ht him => ?_) ⟨rfl, rfl⟩ h
  obtain ⟨himages, -, hmain⟩ := doBindSymbols_images him
  exact ⟨himages.trans ht.1, hmain.trans ht.2⟩

theorem startupLoads_fresh {fuel : Nat} {mem : Mem} {main : ImageId} {s : Linker}
    (h : startupLoads sys fuel mem = done (main, s)) :
    AllFresh s ∧ s.sMainExecutable = some main := by
  have hload : ∀ name s r s', loadLibrary sys fuel name s = done (r, s') → LoadsRebased s s' :=
    fun _ _ _ _ hload => loadLibrary_loads hload
  have hsame : ∀ name s r s', 0 ≤ s.images.length → loadLibrary sys fuel name s = done (r, s') →
      s.images.length ≤ s'.images.length ∧ SameBelow 0 s s' := by
    intro name s r s' hlen h
    obtain ⟨al, h'⟩ := loadLibrary_eq_done.mp h
    exact ⟨(loadLibrary_loads h).1.length, loadLibraryEx_sameBelow hlen h'⟩
  obtain ⟨s1, s2, s3, cas, s4, chain, s5, hdylinker, haux, hmain, hcas, -, hbind, hbindmain, rfl⟩ :=
    startupLoads_eq_done h
  have h0 : AllFresh { Linker.initial mem with
      images := [] ++ [{ MachObject.new with
        fHeader := sys.linkerHeader, fSlide := sys.linkerSlide }]
      sDylinker := some 0 } :=
    AllFresh.append (s := { Linker.initial mem with sDylinker := some 0 })
      (fun im => by simp [initializedFlag, Linker.initial]) rfl none
  have h1 : AllFresh { s1 with sImageCount := s1.sImageCount + 1, sFirstImage := some 0 } :=
    (h0.loads (parseLoadCommands_loads hload hdylinker).1).of_images rfl
  have hobj : ({ MachObject.new with fHeader := sys.mainHeader, fSlide := 0 } :
    MachObject).fHasInitialized = false := rfl
  have h3 := ((h1.aux haux).append hobj (some s2.images.length)).loads
    (parseLoadCommands_loads hload hmain).1
  have h4 := h3.loads (loadLibrary_loads hcas).1
  obtain ⟨himages5, hmain5⟩ := bindAll_images hbind
  obtain ⟨himages6, -, hmain6⟩ := doBindSymbols_images hbindmain
  have hmain3 := (parseLoadCommands_sameBelow hsame (Nat.zero_le _) (Nat.zero_le _) hmain).main
  have hmain4 := (hsame _ _ _ _ (Nat.zero_le _) hcas).2.main
  refine ⟨(h4.of_images himages5).of_images himages6, ?_⟩
  rw [hmain6, hmain5, hmain4, hmain3]

/-- **The startup is a run** in which no initializer calls `dlopen`. -/
theorem startup_reaches {fuel : Nat} {garbage : Bool} {mem : Mem} {main : ImageId} {s s' : Linker}
    (hloads : startupLoads sys fuel mem = done (main, s))
    (h : startup sys fuel garbage mem = done s') :
    ∃ r, Reaches (Runtime.Step sys) (.start garbage s) r ∧ r.linker = s' ∧ r.phase = .program ∧
      r.frames = [] := by
  rw [startup_eq, hloads, done_bind] at h
  obtain ⟨s1, hchain, hmain⟩ := bind_eq_done.mp h
  have hexec : s1.sMainExecutable = some main := initializeChain_preserves
    (P := fun t => t.sMainExecutable = some main) (fun t im t' ht hinit => by
      obtain ⟨obj, -, ⟨-, rfl⟩ | ⟨-, rfl⟩⟩ := doInitialize_eq_done hinit <;> exact ht)
    (startupLoads_fresh hloads).2 hchain
  have hprogram : Phase.next s1 .mainInit = done (.program, some main) := by
    simp [Phase.next, hexec]
  exact ((initializeChain_gets hchain).trans (.init rfl hprogram hmain)) (.start garbage s) rfl rfl
    rfl

end LibSystem.Lnk
