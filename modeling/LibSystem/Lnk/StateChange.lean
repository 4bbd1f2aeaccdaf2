import LibSystem.Lnk.ImageList

/-!
# The image-state handlers

A handler is called while it is registered, with the headers of the chain and the one of the main
executable, and never again: nothing calls `lnk::runBoundNotifications`.
-/

namespace LibSystem.Lnk

open Outcome

inductive DyldImageState where
  | mapped
  | dependentsMapped
  | rebased
  | bound
  | dependentsInitialized
  | initialized
  | terminated
  deriving DecidableEq

structure DyldImageInfo where
  imageLoadAddress : Addr
  imageFilePath : String
  deriving DecidableEq

structure ChangeHandler where
  fn : Word
  state : DyldImageState
  batch : Bool
  deriving DecidableEq

/-- A call of a handler. -/
structure Notification where
  fn : Word
  state : DyldImageState
  infos : List DyldImageInfo
  deriving DecidableEq

/-- The next entry of `infos[1024]`. -/
def addInfo (infos : List DyldImageInfo) (obj : MachObject) : Outcome (List DyldImageInfo) :=
  if 1024 ≤ infos.length then .fault else .done (infos ++ [⟨obj.fHeader, ""⟩])

def batchInfosLoop (images : List MachObject) :
    Nat → Option ImageId → List DyldImageInfo → Outcome (List DyldImageInfo)
  | _, none, infos => .done infos
  | 0, some _, _ => .timeout
  | fuel + 1, some im, infos => do
    let obj ← Outcome.ofOption images[im]?
    let infos ← addInfo infos obj
    batchInfosLoop images fuel obj.fNextImage infos

/-- The call that `runBatchNotificationsWithHandler` makes. -/
def runBatchNotificationsWithHandler (hn : ChangeHandler) (s : Linker) : Outcome Notification := do
  let infos ← batchInfosLoop s.images s.images.length s.sFirstImage []
  let main ← Outcome.ofOption s.sMainExecutable
  let obj ← s.object main
  let infos ← addInfo infos obj
  .done ⟨hn.fn, .bound, infos⟩

/-- The process with the handlers. The handler that is called is a function of the program like
the one that has registered it, and returns to it. -/
structure Watch where
  runtime : Runtime
  /-- The first `sChangeCount` entries. -/
  sChangeHandlers : List ChangeHandler
  /-- The calls so far. -/
  notified : List Notification

/-- `dyld_register_image_state_change_handler`. The array has room for 1024 handlers. -/
def Watch.register (state : DyldImageState) (batch : Bool) (handler : Word) (w : Watch) :
    Outcome Watch :=
  if 1024 ≤ w.sChangeHandlers.length then .fault
  else do
    let call ← runBatchNotificationsWithHandler ⟨handler, state, batch⟩ w.runtime.linker
    .done { w with
      sChangeHandlers := w.sChangeHandlers ++ [⟨handler, state, batch⟩]
      notified := w.notified ++ [call] }

inductive WatchAction where
  | run (a : Action)
  | register (state : DyldImageState) (batch : Bool) (handler : Word)

inductive Watch.Step (sys : System) (w : Watch) : WatchAction → Watch → Prop where
  | run {a : Action} {r : Runtime} (hstep : Runtime.Step sys w.runtime a r) :
      Watch.Step sys w (.run a) { w with runtime := r }
  | register {state : DyldImageState} {batch : Bool} {handler : Word} {w' : Watch}
      (hturn : w.runtime.inUserCode = true) (hact : w.register state batch handler = .done w') :
      Watch.Step sys w (.register state batch handler) w'

def Watch.start (garbage : Bool) (s : Linker) : Watch where
  runtime := .start garbage s
  sChangeHandlers := []
  notified := []

/-! ## The table of a call -/

def dyldImageInfo (s : Linker) (im : ImageId) : Option DyldImageInfo :=
  s.images[im]?.map fun obj => ⟨obj.fHeader, ""⟩

theorem dyldImageInfo_eq_listed (s : Linker) (im : ImageId) :
    dyldImageInfo s im = (listed s im).map fun v => ⟨v.1, ""⟩ := by
  unfold dyldImageInfo listed
  rw [Option.map_map]
  rfl

theorem map_some_infos {s : Linker} {l : List ImageId} (h : ∀ im ∈ l, im < s.images.length) :
    (l.filterMap (dyldImageInfo s)).map some = l.map (dyldImageInfo s) := by
  rw [List.map_filterMap_some_eq_filter_map_isSome, List.filter_eq_self]
  intro info hinfo
  obtain ⟨im, him, rfl⟩ := List.mem_map.mp hinfo
  simp [dyldImageInfo, List.getElem?_eq_getElem (h im him)]

theorem infos_length {s : Linker} {l : List ImageId} (h : ∀ im ∈ l, im < s.images.length) :
    (l.filterMap (dyldImageInfo s)).length = l.length := by
  have := congrArg List.length (map_some_infos h)
  rwa [List.length_map, List.length_map] at this

theorem batchInfosLoop_eq {s : Linker} {p : Option ImageId} {chain : List ImageId}
    (h : IsChain s.images p chain) {fuel : Nat} (hfuel : chain.length ≤ fuel)
    {infos : List DyldImageInfo} (hroom : infos.length ≤ 1024) :
    batchInfosLoop s.images fuel p infos =
      if infos.length + chain.length ≤ 1024 then done (infos ++ chain.filterMap (dyldImageInfo s))
      else fault := by
  induction chain generalizing fuel p infos with
  | nil =>
    obtain rfl : p = none := h
    cases fuel <;> simp [batchInfosLoop, hroom]
  | cons im rest ih =>
    obtain ⟨rfl, obj, hobj, hrest⟩ := h
    obtain ⟨fuel, rfl⟩ : ∃ k, fuel = k + 1 := ⟨fuel - 1, by simp at hfuel; omega⟩
    have hinfo : dyldImageInfo s im = some ⟨obj.fHeader, ""⟩ := by
      rw [dyldImageInfo, hobj, Option.map_some]
    rw [batchInfosLoop, hobj, ofOption_some, done_bind, addInfo, List.filterMap_cons_some hinfo,
      List.length_cons]
    split
    · rw [if_neg (by omega)]
      rfl
    · rw [done_bind, ih hrest (by simpa using hfuel) (by simp; omega)]
      simp [Nat.add_comm, Nat.add_left_comm]

theorem runBatchNotifications_eq {s : Linker} {chain : List ImageId} {main : ImageId}
    (hchain : IsChain s.images s.sFirstImage chain) (hmain : s.sMainExecutable = some main)
    (hlt : main < s.images.length) (hn : ChangeHandler) :
    runBatchNotificationsWithHandler hn s =
      if chain.length < 1024 then
        done ⟨hn.fn, .bound, (chain ++ [main]).filterMap (dyldImageInfo s)⟩
      else fault := by
  have hobj := List.getElem?_eq_getElem hlt
  have hinfo : dyldImageInfo s main = some ⟨s.images[main].fHeader, ""⟩ := by
    rw [dyldImageInfo, hobj, Option.map_some]
  have hlen := (infos_length hchain.lt_length)
  unfold runBatchNotificationsWithHandler Linker.object
  rw [batchInfosLoop_eq hchain hchain.length_le (by simp)]
  simp only [List.length_nil, Nat.zero_add, List.nil_append, hmain, ofOption_some]
  rcases Nat.lt_trichotomy chain.length 1024 with hroom | heq | hfull
  · rw [if_pos hroom.le, if_pos hroom, done_bind, done_bind, hobj, ofOption_some, done_bind,
      addInfo, if_neg (by omega), done_bind, List.filterMap_append,
      List.filterMap_cons_some hinfo, List.filterMap_nil]
  · rw [if_pos heq.le, if_neg (by omega), done_bind, done_bind, hobj, ofOption_some, done_bind,
      addInfo, if_pos (by omega)]
    rfl
  · rw [if_neg (by omega), if_neg (by omega)]
    rfl

/-! ## The runs -/

variable {sys : System} {r r' : Runtime} {w w' : Watch} {main : ImageId}

theorem startupLoads_main {fuel : Nat} {mem : Mem} {s : Linker}
    (h : startupLoads sys fuel mem = done (main, s)) : main < s.images.length := by
  have hload : ∀ name s r s', loadLibrary sys fuel name s = done (r, s') → LoadsRebased s s' :=
    fun _ _ _ _ hload => loadLibrary_loads hload
  obtain ⟨s1, s2, s3, cas, s4, chain, s5, -, -, hmain, hcas, -, hbind, hbindmain, rfl⟩ :=
    startupLoads_eq_done h
  have hparse := (parseLoadCommands_loads hload hmain).1.length
  have hlen := (loadLibrary_loads hcas).1.length
  rw [(doBindSymbols_images hbindmain).1, (bindAll_images hbind).1]
  refine Nat.lt_of_lt_of_le ?_ (hparse.trans hlen)
  simp

theorem goOn_main (h : r.goOn = done r') :
    r'.linker.sMainExecutable = r.linker.sMainExecutable := by
  unfold Runtime.goOn at h
  split at h
  · obtain ⟨⟨phase, next⟩, -, h⟩ := bind_eq_done.mp h
    cases next with
    | none =>
      obtain rfl := done.inj h
      rfl
    | some im =>
      obtain ⟨obj, -, ⟨-, rfl⟩ | ⟨-, rfl⟩⟩ := Runtime.doInitialize_eq_done h <;> rfl
  · obtain rfl := done.inj h
    rfl
  · obtain ⟨obj, -, h⟩ := bind_eq_done.mp h
    obtain ⟨fn, -, h⟩ := bind_eq_done.mp h
    obtain rfl := done.inj h
    rfl
  · obtain rfl := done.inj h
    rfl

theorem step_main {a : Action} (hstep : Runtime.Step sys r a r') :
    r'.linker.sMainExecutable = r.linker.sMainExecutable := by
  obtain ⟨-, hact⟩ := hstep
  cases a with
  | goOn => exact goOn_main hact
  | leave =>
    obtain ⟨hlinker, -⟩ | ⟨fn, im, rest, obj, -, -, hcall⟩ := leave_cases hact
    · rw [hlinker]
    · rw [callHandler_linker hcall]
  | dlopen fuel path =>
    obtain ⟨dlib, al, s, hload, rfl | ⟨im, bound, -, -, -, hbound, hinit⟩⟩ :=
      Runtime.dlopen_eq_done hact
    · exact (loadLibraryEx_sameBelow (Nat.zero_le _) hload).main
    · refine Eq.trans ?_ (loadLibraryEx_sameBelow (Nat.zero_le _) hload).main
      rw [← (doBindSymbols_images hbound).2.2]
      obtain ⟨obj, -, ⟨-, rfl⟩ | ⟨-, rfl⟩⟩ := Runtime.doInitialize_eq_done hinit <;> rfl
  | register fn => rw [callHandler_linker (register_eq_done hact)]

/-- The state, when the chain is `first :: rest` and the handlers have been called so far. -/
structure Notified (w : Watch) (first : ImageId) (rest : List ImageId) (main : ImageId) : Prop where
  chain : IsChain w.runtime.linker.images w.runtime.linker.sFirstImage (first :: rest)
  executable : w.runtime.linker.sMainExecutable = some main
  inside : main < w.runtime.linker.images.length
  once : w.notified.map Notification.fn = w.sChangeHandlers.map ChangeHandler.fn
  /-- What a handler has been told holds of the older part of the chain. -/
  told : ∀ call ∈ w.notified, call.state = .bound ∧ ∃ news old, rest = news ++ old ∧
    call.infos.map some = (first :: (old ++ [main])).map (dyldImageInfo w.runtime.linker)

theorem Notified.lt_length {first : ImageId} {rest news old : List ImageId}
    (h : Notified w first rest main) (hrest : rest = news ++ old) :
    ∀ im ∈ first :: (old ++ [main]), im < w.runtime.linker.images.length := by
  intro im him
  rw [← List.cons_append, List.mem_append, List.mem_singleton] at him
  rcases him with him | rfl
  · refine h.chain.lt_length im (List.cons_subset_cons first ?_ him)
    exact hrest ▸ List.subset_append_right news old
  · exact h.inside

theorem Notified.run {first : ImageId} {rest : List ImageId} (h : Notified w first rest main)
    {a : Action} (hstep : Runtime.Step sys w.runtime a r') :
    ∃ rest', Notified { w with runtime := r' } first rest' main := by
  have hgrows := step_chainGrows hstep
  refine ⟨_, hgrows.chain first rest h.chain, (step_main hstep).trans h.executable,
    h.inside.trans_le hgrows.length, h.once, fun call hcall => ?_⟩
  obtain ⟨hstate, news, old, rfl, hinfos⟩ := h.told call hcall
  refine ⟨hstate, _, old, (List.append_assoc _ news old).symm, hinfos.trans ?_⟩
  refine List.map_congr_left fun im him => ?_
  rw [dyldImageInfo_eq_listed, dyldImageInfo_eq_listed, hgrows.listed im (h.lt_length rfl im him)]

theorem Notified.register_eq {first : ImageId} {rest : List ImageId}
    (h : Notified w first rest main) (state : DyldImageState) (batch : Bool) (handler : Word) :
    w.register state batch handler =
      if w.sChangeHandlers.length < 1024 ∧ (first :: rest).length < 1024 then
        done { w with
          sChangeHandlers := w.sChangeHandlers ++ [⟨handler, state, batch⟩]
          notified := w.notified ++ [⟨handler, .bound,
            ((first :: rest) ++ [main]).filterMap (dyldImageInfo w.runtime.linker)⟩] }
      else fault := by
  unfold Watch.register
  rw [runBatchNotifications_eq h.chain h.executable h.inside]
  by_cases hfree : w.sChangeHandlers.length < 1024
  · rw [if_neg (by omega)]
    by_cases hroom : (first :: rest).length < 1024
    · rw [if_pos hroom, if_pos ⟨hfree, hroom⟩, done_bind]
    · rw [if_neg hroom, if_neg fun hboth => hroom hboth.2]
      rfl
  · rw [if_pos (by omega), if_neg fun hboth => hfree hboth.1]

theorem Notified.register {first : ImageId} {rest : List ImageId}
    (h : Notified w first rest main) {state : DyldImageState} {batch : Bool} {handler : Word}
    (hact : w.register state batch handler = done w') : Notified w' first rest main := by
  rw [h.register_eq] at hact
  split at hact
  · obtain rfl := done.inj hact
    refine ⟨h.chain, h.executable, h.inside, by simp [h.once], fun call hcall => ?_⟩
    rcases List.mem_append.mp hcall with hcall | hcall
    · exact h.told call hcall
    · rw [List.mem_singleton.mp hcall]
      exact ⟨rfl, [], rest, rfl, map_some_infos (h.lt_length (List.nil_append rest).symm)⟩
  · simp at hact

theorem Notified.step {first : ImageId} {rest : List ImageId} (h : Notified w first rest main)
    {a : WatchAction} (hstep : Watch.Step sys w a w') :
    ∃ rest', Notified w' first rest' main := by
  cases hstep with
  | run hstep => exact h.run hstep
  | register _ hact => exact ⟨rest, h.register hact⟩

theorem notified_reaches {fuel : Nat} {mem : Mem} {s : Linker} {garbage : Bool}
    (hloads : startupLoads sys fuel mem = done (main, s))
    (hrun : Reaches (Watch.Step sys) (.start garbage s) w) :
    ∃ first rest, Notified w first rest main := by
  obtain ⟨first, rest, hchain⟩ := (startupLoads_valid hloads).chain
  refine hrun.invariant (I := fun w => ∃ first rest, Notified w first rest main)
    ⟨first, rest, hchain, (startupLoads_fresh hloads).2, startupLoads_main hloads, rfl, by
      simp [Watch.start]⟩ ?_
  rintro _ _ _ ⟨first, rest, h⟩ - hstep
  exact ⟨first, h.step hstep⟩

/-- **A handler hears of the chain once.** In every state of a run, each handler has been called
once, in the order of the registrations, with the state `dyld_image_state_bound` whatever it has
asked for; what it was told is the older part of the chain with the main executable behind it, so
it does not hear of what is loaded later. And a registration writes out of bounds if and only if
1024 handlers are registered or the chain has 1024 images. -/
theorem handlers_notified {fuel : Nat} {mem : Mem} {s : Linker} {garbage : Bool}
    (hloads : startupLoads sys fuel mem = done (main, s))
    (hrun : Reaches (Watch.Step sys) (.start garbage s) w) :
    ∃ first rest, w.runtime.linker.imageChain = done (first :: rest) ∧
      w.notified.map Notification.fn = w.sChangeHandlers.map ChangeHandler.fn ∧
      (∀ call ∈ w.notified, call.state = .bound ∧ ∃ news old, rest = news ++ old ∧
        call.infos.map some = (first :: (old ++ [main])).map (dyldImageInfo w.runtime.linker)) ∧
      ∀ state batch handler, w.register state batch handler = fault ↔
        1024 ≤ w.sChangeHandlers.length ∨ 1024 ≤ (first :: rest).length := by
  obtain ⟨first, rest, h⟩ := notified_reaches hloads hrun
  refine ⟨first, rest, Linker.imageChain_eq_done.mpr h.chain, h.once, h.told,
    fun state batch handler => ?_⟩
  rw [h.register_eq]
  split
  · rename_i hroom
    simp only [reduceCtorEq, false_iff]
    omega
  · rename_i hfull
    simp only [true_iff]
    omega

/-! ## A program with a handler -/

/-- A run with the given actions. -/
def watchActions (sys : System) : List WatchAction → Watch → Outcome Watch
  | [], w => .done w
  | .run a :: rest, w =>
    if w.runtime.inUserCode = a.inUserCode then do
      let r ← w.runtime.act sys a
      watchActions sys rest { w with runtime := r }
    else .fault
  | .register state batch handler :: rest, w =>
    if w.runtime.inUserCode = true then do
      let w ← w.register state batch handler
      watchActions sys rest w
    else .fault

theorem watchActions_reaches {actions : List WatchAction}
    (h : watchActions sys actions w = done w') : Reaches (Watch.Step sys) w w' := by
  induction actions generalizing w with
  | nil =>
    obtain rfl := done.inj h
    exact .refl
  | cons a rest ih =>
    cases a with
    | run a =>
      unfold watchActions at h
      split at h
      · rename_i hturn
        obtain ⟨r1, hact, h⟩ := bind_eq_done.mp h
        exact (Reaches.single (.run ⟨hturn, hact⟩)).trans (ih h)
      · simp at h
    | register state batch handler =>
      unfold watchActions at h
      split at h
      · rename_i hturn
        obtain ⟨w1, hact, h⟩ := bind_eq_done.mp h
        exact (Reaches.single (.register hturn hact)).trans (ih h)
      · simp at h

/-- The program opens `/A`, registers a handler for the initialized images, and opens `/B`. -/
def watchedActions : List WatchAction :=
  List.replicate 6 (.run .goOn) ++ [.run (.dlopen 3 "/A"), .run .goOn,
    .register .initialized true 7, .run (.dlopen 3 "/B"), .run .goOn]

def watched : Watch :=
  match watchActions placedSystem watchedActions (.start false (loaded placedSystem)) with
  | .done w => w
  | _ => .start false (loaded placedSystem)

theorem handlers_notified_watched :
    ∃ first rest, watched.runtime.linker.imageChain = done (first :: rest) ∧
      watched.notified.map Notification.fn = watched.sChangeHandlers.map ChangeHandler.fn ∧
      (∀ call ∈ watched.notified, call.state = .bound ∧ ∃ news old, rest = news ++ old ∧
        call.infos.map some = (first :: (old ++ [1])).map (dyldImageInfo watched.runtime.linker)) ∧
      ∀ state batch handler, watched.register state batch handler = fault ↔
        1024 ≤ watched.sChangeHandlers.length ∨ 1024 ≤ (first :: rest).length :=
  handlers_notified (rfl : startupLoads placedSystem 1 (fun _ => 0) = done (1, loaded placedSystem))
    (watchActions_reaches (rfl : watchActions placedSystem watchedActions
      (.start false (loaded placedSystem)) = done watched))

/-- The call has the linker, `/A` and the main executable. -/
example : watched.notified = [⟨7, .bound, [⟨0x8000, ""⟩, ⟨0x100000, ""⟩, ⟨0x1000, ""⟩]⟩] ∧
    watched.runtime.linker.imageChain = done [0, 3, 2] := by decide

end LibSystem.Lnk
