import LibSystem.Lnk.Runtime

/-!
# Each initializer runs once

An image whose `doInitialize` has not returned is initialized by nobody else: the loops of
`initializeChain` stand still until it has, and `dlopen` initializes nothing but the image that it
has just made.
-/

namespace LibSystem.Lnk

open Outcome

/-! ## The order of the slots -/

theorem zipIdx_ascending {α : Type} (l : List α) : l.zipIdx.Pairwise fun p q => p.2 < q.2 := by
  have h : ((l.zipIdx).map Prod.snd).Pairwise (· < ·) := by
    rw [List.zipIdx_map_snd]
    exact List.pairwise_lt_range'
  exact List.pairwise_map.mp h

theorem mem_sectionSlots {segment : Nat} {sect : Section × Nat} {slot : Slot}
    (h : slot ∈ sectionSlots segment sect) : ∃ index, slot = .entry segment sect.2 index := by
  unfold sectionSlots at h
  split at h
  · obtain ⟨index, -, rfl⟩ := List.mem_map.mp h
    exact ⟨index, rfl⟩
  · simp at h

theorem mem_segmentSlots {seg : SegmentCommand × Nat} {slot : Slot} (h : slot ∈ segmentSlots seg) :
    ∃ sect index, slot = .entry seg.2 sect index := by
  obtain ⟨sect, -, h⟩ := List.mem_flatMap.mp h
  obtain ⟨index, rfl⟩ := mem_sectionSlots h
  exact ⟨_, _, rfl⟩

theorem slots_ascending (obj : MachObject) : (slots obj).Pairwise Slot.Before := by
  unfold slots
  refine List.pairwise_append.mpr ⟨?_, ?_, ?_⟩
  · cases obj.fRoutines <;> simp
  · refine List.pairwise_flatMap.mpr ⟨fun seg _ => ?_, (zipIdx_ascending _).imp ?_⟩
    · refine List.pairwise_flatMap.mpr ⟨fun sect _ => ?_, (zipIdx_ascending _).imp ?_⟩
      · unfold sectionSlots
        split
        · refine List.pairwise_map.mpr (List.pairwise_lt_range.imp fun hlt => ?_)
          exact .inr ⟨rfl, .inr ⟨rfl, hlt⟩⟩
        · exact .nil
      · intro p q hlt a ha b hb
        obtain ⟨index, rfl⟩ := mem_sectionSlots ha
        obtain ⟨index', rfl⟩ := mem_sectionSlots hb
        exact .inr ⟨rfl, .inl hlt⟩
    · intro p q hlt a ha b hb
      obtain ⟨sect, index, rfl⟩ := mem_segmentSlots ha
      obtain ⟨sect', index', rfl⟩ := mem_segmentSlots hb
      exact .inl hlt
  · intro a ha b hb
    obtain ⟨seg, -, hb⟩ := List.mem_flatMap.mp hb
    obtain ⟨sect, index, rfl⟩ := mem_segmentSlots hb
    obtain rfl : a = .routines := by
      cases hroutines : obj.fRoutines <;> simp [hroutines] at ha
      exact ha
    trivial

theorem Slot.Before.ne {a b : Slot} (h : a.Before b) : a ≠ b := by
  rintro rfl
  cases a with
  | routines => exact h
  | entry i j k =>
    simp only [Slot.Before] at h
    omega

/-! ## The invariant -/

def slotsOf (s : Linker) (im : ImageId) : List Slot :=
  match s.images[im]? with
  | some obj => slots obj
  | none => []

/-- The slots of the image whose functions have been started. -/
def startedOf (started : List (ImageId × Slot)) (im : ImageId) : List Slot :=
  started.filterMap fun p => if p.1 = im then some p.2 else none

def Frame.init? : Frame → Option ImageId
  | .init im _ _ => some im
  | .handler _ _ => none

/-- The images whose `doInitialize` has been entered and has not returned. -/
def inProgress (frames : List Frame) : List ImageId := frames.filterMap Frame.init?

structure InitsOnce (r : Runtime) : Prop where
  dylinker : r.linker.sDylinker = r.linker.sFirstImage
  distinct : (inProgress r.frames).Nodup
  running : ∀ im todo b, .init im todo b ∈ r.frames →
    initializedFlag r.linker im = some false ∧ startedOf r.started im ++ todo = slotsOf r.linker im
  waiting : ∀ im ∉ inProgress r.frames, initializedFlag r.linker im ≠ some true →
    startedOf r.started im = []
  ended : ∀ im, initializedFlag r.linker im = some true →
    startedOf r.started im = slotsOf r.linker im

variable {sys : System} {r r' : Runtime} {im : ImageId}

theorem mem_inProgress {frames : List Frame} :
    im ∈ inProgress frames ↔ ∃ todo b, .init im todo b ∈ frames := by
  unfold inProgress
  rw [List.mem_filterMap]
  constructor
  · rintro ⟨f, hf, him⟩
    cases f with
    | init im' todo b =>
      obtain rfl := Option.some.inj him
      exact ⟨todo, b, hf⟩
    | handler fn im' => simp [Frame.init?] at him
  · rintro ⟨todo, b, hf⟩
    exact ⟨_, hf, rfl⟩

theorem startedOf_append (started : List (ImageId × Slot)) (im j : ImageId) (slot : Slot) :
    startedOf (started ++ [(im, slot)]) j =
      startedOf started j ++ if im = j then [slot] else [] := by
  unfold startedOf
  rw [List.filterMap_append]
  by_cases h : im = j <;> simp [h]

/-- The images that were there keep their flags and slots, and the others have not been
initialized. -/
structure KeepsInits (s s' : Linker) : Prop where
  dylinker : s'.sDylinker = s.sDylinker
  first : s'.sFirstImage = s.sFirstImage
  flags : ∀ im < s.images.length, initializedFlag s' im = initializedFlag s im
  slots : ∀ im < s.images.length, slotsOf s' im = slotsOf s im
  fresh : ∀ im, s.images.length ≤ im → initializedFlag s' im ≠ some true

theorem KeepsInits.of_images {s s' : Linker} (himages : s'.images = s.images)
    (hfirst : s'.sFirstImage = s.sFirstImage) (hdylinker : s'.sDylinker = s.sDylinker) :
    KeepsInits s s' := by
  refine ⟨hdylinker, hfirst, ?_, ?_, ?_⟩
  · exact fun im _ => by rw [initializedFlag, himages, initializedFlag]
  · exact fun im _ => by rw [slotsOf, himages, slotsOf]
  · exact fun im him => by simp [initializedFlag, himages, List.getElem?_eq_none him]

theorem slotsOf_of_content {s s' : Linker} (h : content s' im = content s im) :
    slotsOf s' im = slotsOf s im := by
  unfold content at h
  unfold slotsOf
  cases hs : s.images[im]? with
  | none =>
    rw [hs, Option.map_none, Option.map_eq_none_iff] at h
    rw [h]
  | some obj =>
    rw [hs, Option.map_some, Option.map_eq_some_iff] at h
    obtain ⟨obj', hobj', heq⟩ := h
    rw [hobj']
    show slots (obj'.setNextImage none) = slots (obj.setNextImage none)
    rw [heq]

theorem loadLibraryEx_keepsInits {s s' : Linker} {fuel : Nat} {path : String}
    {dlib : Option ImageId} {al : Option Bool}
    (h : loadLibraryEx sys fuel path s = done (dlib, al, s')) : KeepsInits s s' := by
  have hloads := (loadLibraryEx_loads h).1
  have hsame := loadLibraryEx_sameBelow (Nat.le_refl _) h
  refine ⟨hloads.dylinker, hloads.first, hloads.flags,
    fun im him => slotsOf_of_content (hsame.content im him), fun im him => ?_⟩
  rcases Nat.lt_or_ge im s'.images.length with him' | him'
  · rw [hloads.fresh im (mem_newImages.mpr ⟨him, him'⟩)]
    simp
  · simp [initializedFlag, List.getElem?_eq_none him']

theorem lt_of_flag {s : Linker} {b : Bool} (h : initializedFlag s im = some b) :
    im < s.images.length := by
  obtain ⟨obj, hobj, -⟩ := Option.map_eq_some_iff.mp h
  exact (List.getElem?_eq_some_iff.mp hobj).1

/-! ## The steps -/

theorem InitsOnce.keeps (h : InitsOnce r) (hkeeps : KeepsInits r.linker r'.linker)
    (hframes : inProgress r'.frames = inProgress r.frames)
    (hsame : ∀ im todo b, .init im todo b ∈ r'.frames → ∃ b', .init im todo b' ∈ r.frames)
    (hstarted : r'.started = r.started) : InitsOnce r' where
  dylinker := by rw [hkeeps.dylinker, hkeeps.first, h.dylinker]
  distinct := hframes ▸ h.distinct
  running im todo b hin := by
    obtain ⟨b', hin⟩ := hsame im todo b hin
    obtain ⟨hflag, hslots⟩ := h.running im todo b' hin
    have him := lt_of_flag hflag
    rw [hkeeps.flags im him, hkeeps.slots im him, hstarted]
    exact ⟨hflag, hslots⟩
  waiting im hin hflag := by
    rw [hstarted]
    rw [hframes] at hin
    rcases Nat.lt_or_ge im r.linker.images.length with him | him
    · exact h.waiting im hin (hkeeps.flags im him ▸ hflag)
    · refine h.waiting im hin ?_
      simp [initializedFlag, List.getElem?_eq_none him]
  ended im hflag := by
    have him : im < r.linker.images.length :=
      Nat.lt_of_not_le fun hle => hkeeps.fresh im hle hflag
    rw [hstarted, hkeeps.slots im him]
    exact h.ended im (hkeeps.flags im him ▸ hflag)

theorem InitsOnce.doInitialize (h : InitsOnce r) (hnot : im ∉ inProgress r.frames)
    (hinit : r.doInitialize im = done r') : InitsOnce r' := by
  obtain ⟨obj, hobj, ⟨-, rfl⟩ | ⟨hflag, rfl⟩⟩ := Runtime.doInitialize_eq_done hinit
  · exact h
  have hfalse : initializedFlag r.linker im = some false := by
    rw [initializedFlag, hobj, Option.map_some, hflag]
  have hnone : startedOf r.started im = [] := h.waiting im hnot (by simp [hfalse])
  refine ⟨h.dylinker, ?_, ?_, ?_, h.ended⟩
  · exact List.nodup_cons.mpr ⟨hnot, h.distinct⟩
  · intro j todo b hin
    rcases List.mem_cons.mp hin with heq | hin
    · obtain ⟨rfl, rfl, -⟩ := Frame.init.inj heq
      refine ⟨hfalse, ?_⟩
      rw [hnone, List.nil_append]
      show slots obj = slotsOf r.linker j
      rw [slotsOf, hobj]
    · exact h.running j todo b hin
  · intro j hin
    exact h.waiting j fun hmem => hin (List.mem_cons_of_mem _ hmem)

theorem InitsOnce.start (h : InitsOnce r) {slot : Slot} {todo : List Slot} {b : Bool}
    {rest : List Frame} (hframes : r.frames = .init im (slot :: todo) b :: rest) (fn : Word) :
    InitsOnce { r with
      linker := callInitializer r.linker im fn
      frames := .init im todo true :: rest
      started := r.started ++ [(im, slot)] } := by
  obtain ⟨hflag, hslots⟩ := h.running im (slot :: todo) b (by simp [hframes])
  have hprogress : inProgress r.frames = im :: inProgress rest := by rw [hframes]; rfl
  have hnot : im ∉ inProgress rest := (List.nodup_cons.mp (hprogress ▸ h.distinct)).1
  have hother : ∀ j, j ≠ im → startedOf (r.started ++ [(im, slot)]) j = startedOf r.started j := by
    intro j hj
    rw [startedOf_append, if_neg hj.symm, List.append_nil]
  refine ⟨h.dylinker, ?_, ?_, ?_, ?_⟩
  · show (im :: inProgress rest).Nodup
    rw [← hprogress]
    exact h.distinct
  · intro j todo' b' hin
    rcases List.mem_cons.mp hin with heq | hrest
    · obtain ⟨rfl, rfl, -⟩ := Frame.init.inj heq
      refine ⟨hflag, ?_⟩
      rw [startedOf_append, if_pos rfl, List.append_assoc]
      exact hslots
    · have hj : j ≠ im := by
        rintro rfl
        exact hnot (mem_inProgress.mpr ⟨todo', b', hrest⟩)
      rw [hother j hj]
      exact h.running j todo' b' (by rw [hframes]; exact List.mem_cons_of_mem _ hrest)
  · intro j hin hj
    have hne : j ≠ im := by
      rintro rfl
      exact hin List.mem_cons_self
    rw [hother j hne]
    exact h.waiting j (hprogress ▸ hin) hj
  · intro j hj
    have hne : j ≠ im := by
      rintro rfl
      rw [show initializedFlag r.linker j = some true from hj] at hflag
      simp at hflag
    rw [hother j hne]
    exact h.ended j hj

theorem InitsOnce.finish (h : InitsOnce r) {b : Bool} {rest : List Frame}
    (hframes : r.frames = .init im [] b :: rest) :
    InitsOnce { r with
      linker := (r.linker.modify im fun obj => obj.setInitialized true).record (.leaveInit im)
      frames := rest } := by
  obtain ⟨hflag, hslots⟩ := h.running im [] b (by simp [hframes])
  rw [List.append_nil] at hslots
  have hprogress : inProgress r.frames = im :: inProgress rest := by rw [hframes]; rfl
  have hnodup := List.nodup_cons.mp (hprogress ▸ h.distinct)
  set s' := (r.linker.modify im fun obj => obj.setInitialized true).record (.leaveInit im) with hs'
  have hget : ∀ j, s'.images[j]? =
      r.linker.images[j]?.map fun obj => if im = j then obj.setInitialized true else obj :=
    getElem?_modify r.linker im _
  have hflags : ∀ j, j ≠ im → initializedFlag s' j = initializedFlag r.linker j := by
    intro j hj
    rw [initializedFlag, hget]
    simp [hj.symm, initializedFlag]
  have hsame : ∀ j, slotsOf s' j = slotsOf r.linker j := by
    intro j
    rw [slotsOf, hget, slotsOf]
    cases r.linker.images[j]? with
    | none => rfl
    | some obj => by_cases hj : im = j <;> simp [hj, slots, MachObject.setInitialized]
  refine ⟨h.dylinker, hnodup.2, ?_, ?_, ?_⟩
  · intro j todo b' hin
    have hj : j ≠ im := by
      rintro rfl
      exact hnodup.1 (mem_inProgress.mpr ⟨todo, b', hin⟩)
    rw [hflags j hj, hsame]
    exact h.running j todo b' (by rw [hframes]; exact List.mem_cons_of_mem _ hin)
  · intro j hin hj
    have hne : j ≠ im := by
      rintro rfl
      obtain ⟨obj, hobj, -⟩ := Option.map_eq_some_iff.mp hflag
      exact hj (by simp [initializedFlag, hget, hobj, MachObject.setInitialized])
    refine h.waiting j ?_ (hflags j hne ▸ hj)
    rw [hprogress, List.mem_cons, not_or]
    exact ⟨hne, hin⟩
  · intro j hj
    rw [hsame]
    by_cases hne : j = im
    · rw [hne]
      exact hslots
    · exact h.ended j (hflags j hne ▸ hj)

theorem InitsOnce.callHandler (h : InitsOnce r) {fn : Word} {next : Option ImageId}
    (hcall : r.callHandler fn next = done r') : InitsOnce r' := by
  obtain ⟨-, rfl⟩ | ⟨im, obj, -, -, rfl⟩ := Runtime.callHandler_eq_done hcall
  · exact h
  · refine h.keeps (.of_images rfl rfl rfl) rfl (fun j todo b hin => ⟨b, ?_⟩) rfl
    simpa using hin

theorem loadLibraryEx_new {s s' : Linker} {fuel : Nat} {path : String} {dlib : Option ImageId}
    {al : Option Bool} (h : loadLibraryEx sys fuel path s = done (dlib, al, s'))
    (hdylinker : s.sDylinker = s.sFirstImage) (hfirst : dlib ≠ s'.sFirstImage)
    (hal : al ≠ some true) : dlib = some s.images.length := by
  have hsame := (loadLibraryEx_loads h).1.first
  cases fuel with
  | zero => simp [loadLibraryEx] at h
  | succ fuel =>
    obtain ⟨-, rfl, rfl⟩ | ⟨-, ⟨im, -, -, rfl, -⟩ | ⟨-, ⟨-, rfl, rfl⟩ | ⟨rfl, -, -⟩⟩⟩ :=
      loadLibraryEx_cases h
    · exact absurd rfl hfirst
    · exact absurd rfl hal
    · exact absurd hdylinker hfirst
    · rfl

theorem InitsOnce.goOn (h : InitsOnce r) (hgo : r.goOn = done r') : InitsOnce r' := by
  unfold Runtime.goOn at hgo
  split at hgo
  · rename_i hframes
    obtain ⟨⟨phase, next⟩, -, hgo⟩ := bind_eq_done.mp hgo
    have hphase : InitsOnce { r with phase := phase } :=
      h.keeps (.of_images rfl rfl rfl) rfl (fun im todo b hin => ⟨b, hin⟩) rfl
    cases next with
    | none =>
      obtain rfl := done.inj hgo
      exact hphase
    | some im =>
      -- Nothing is in progress while `_main` goes on.
      exact hphase.doInitialize (by simp [hframes, inProgress]) hgo
  · rename_i hframes
    obtain rfl := done.inj hgo
    exact h.finish hframes
  · rename_i hframes
    obtain ⟨obj, -, hgo⟩ := bind_eq_done.mp hgo
    obtain ⟨fn, -, hgo⟩ := bind_eq_done.mp hgo
    obtain rfl := done.inj hgo
    exact h.start hframes fn
  · obtain rfl := done.inj hgo
    exact h

theorem InitsOnce.leave (h : InitsOnce r) (hleave : r.leave = done r') : InitsOnce r' := by
  unfold Runtime.leave at hleave
  split at hleave
  · obtain rfl := done.inj hleave
    exact h
  · rename_i im todo b rest hframes
    obtain rfl := done.inj hleave
    refine h.keeps (.of_images rfl rfl rfl) (by rw [hframes]; rfl) (fun j todo' b' hin => ?_) rfl
    rw [hframes]
    rcases List.mem_cons.mp hin with heq | hin
    · obtain ⟨rfl, rfl, -⟩ := Frame.init.inj heq
      exact ⟨b, List.mem_cons_self⟩
    · exact ⟨b', List.mem_cons_of_mem _ hin⟩
  · rename_i fn im rest hframes
    obtain ⟨obj, -, hleave⟩ := bind_eq_done.mp hleave
    have hpop : InitsOnce { r with frames := rest } := by
      refine h.keeps (.of_images rfl rfl rfl) (by rw [hframes]; rfl) (fun j todo b hin => ?_) rfl
      exact ⟨b, by rw [hframes]; exact List.mem_cons_of_mem _ hin⟩
    exact hpop.callHandler hleave

theorem InitsOnce.dlopen (h : InitsOnce r) {fuel : Nat} {path : String}
    (hopen : r.dlopen sys fuel path = done r') : InitsOnce r' := by
  obtain ⟨dlib, al, s, hload, rfl | ⟨im, bound, hdlib, hfirst, hal, hbound, hinit⟩⟩ :=
    Runtime.dlopen_eq_done hopen
  · exact h.keeps (loadLibraryEx_keepsInits hload) rfl (fun im todo b hin => ⟨b, hin⟩) rfl
  · have hload' : InitsOnce { r with linker := s } :=
      h.keeps (loadLibraryEx_keepsInits hload) rfl (fun im todo b hin => ⟨b, hin⟩) rfl
    have hbound' : InitsOnce { r with linker := bound } := by
      obtain ⟨⟨mem, count⟩, -, heq⟩ := bind_eq_done.mp hbound
      obtain rfl := done.inj heq
      exact hload'.keeps (.of_images rfl rfl rfl) rfl (fun im todo b hin => ⟨b, hin⟩) rfl
    refine hbound'.doInitialize (fun hin => ?_) hinit
    -- The image is new, and what is in progress is older.
    obtain rfl : im = r.linker.images.length :=
      Option.some.inj (hdlib.symm.trans (loadLibraryEx_new hload h.dylinker hfirst hal))
    obtain ⟨todo, b, hin⟩ := mem_inProgress.mp hin
    exact (lt_of_flag (h.running _ todo b hin).1).ne rfl

theorem InitsOnce.register (h : InitsOnce r) {fn : Word} (hregister : r.register fn = done r') :
    InitsOnce r' := by
  unfold Runtime.register at hregister
  split at hregister
  · simp at hregister
  · have hstored : InitsOnce { r with sAddHandlers := r.sAddHandlers ++ [fn] } :=
      h.keeps (.of_images rfl rfl rfl) rfl (fun im todo b hin => ⟨b, hin⟩) rfl
    exact hstored.callHandler hregister

theorem InitsOnce.step (h : InitsOnce r) {a : Action} (hstep : Runtime.Step sys r a r') :
    InitsOnce r' := by
  cases a with
  | goOn => exact h.goOn hstep.2
  | leave => exact h.leave hstep.2
  | dlopen fuel path => exact h.dlopen hstep.2
  | register fn => exact h.register hstep.2

theorem InitsOnce.startedOf_prefix (h : InitsOnce r) (im : ImageId) :
    startedOf r.started im <+: slotsOf r.linker im := by
  by_cases hin : im ∈ inProgress r.frames
  · obtain ⟨todo, b, hin⟩ := mem_inProgress.mp hin
    exact ⟨todo, (h.running im todo b hin).2⟩
  · by_cases hflag : initializedFlag r.linker im = some true
    · rw [h.ended im hflag]
    · rw [h.waiting im hin hflag]
      exact List.nil_prefix

theorem nodup_of_startedOf {started : List (ImageId × Slot)}
    (h : ∀ im, (startedOf started im).Nodup) : started.Nodup := by
  induction started with
  | nil => exact List.nodup_nil
  | cons p l ih =>
    refine List.nodup_cons.mpr ⟨fun hmem => ?_, ih fun im => ?_⟩
    · have hp := h p.1
      rw [show startedOf (p :: l) p.1 = p.2 :: startedOf l p.1 by simp [startedOf]] at hp
      exact (List.nodup_cons.mp hp).1 (List.mem_filterMap.mpr ⟨p, hmem, if_pos rfl⟩)
    · exact (h im).sublist ((List.sublist_cons_self p l).filterMap _)

theorem slotsOf_ascending (s : Linker) (im : ImageId) : (slotsOf s im).Pairwise Slot.Before := by
  unfold slotsOf
  split
  · exact slots_ascending _
  · exact .nil

/-! ## The runs -/

theorem initsOnce_start {fuel : Nat} {mem : Mem} {main : ImageId} {s : Linker}
    (h : startupLoads sys fuel mem = done (main, s)) (garbage : Bool) :
    InitsOnce (.start garbage s) where
  dylinker := (startupLoads_valid h).dylinker
  distinct := List.nodup_nil
  running := by simp [Runtime.start]
  waiting _ _ _ := rfl
  ended im hflag := absurd hflag ((startupLoads_fresh h).1 im)

/-- **No initializer runs twice.** In a run with any calls of `dlopen`, nested or not, each function
is started once at most, and those of an image in the order of the loops; no image is in progress
twice. -/
theorem initializers_once {fuel : Nat} {mem : Mem} {main : ImageId} {s : Linker}
    (hloads : startupLoads sys fuel mem = done (main, s)) {garbage : Bool} {r : Runtime}
    (hrun : Reaches (Runtime.Step sys) (.start garbage s) r) :
    r.started.Nodup ∧ (inProgress r.frames).Nodup ∧ ∀ im,
      startedOf r.started im <+: slotsOf r.linker im ∧
        (startedOf r.started im).Pairwise Slot.Before := by
  have h : InitsOnce r := hrun.invariant (initsOnce_start hloads garbage)
    fun r a r' hr _ hstep => hr.step hstep
  have hascending : ∀ im, (startedOf r.started im).Pairwise Slot.Before := fun im =>
    (slotsOf_ascending r.linker im).sublist (h.startedOf_prefix im).sublist
  refine ⟨nodup_of_startedOf fun im => (hascending im).imp fun hab => hab.ne, h.distinct,
    fun im => ⟨h.startedOf_prefix im, hascending im⟩⟩

/-- A library with an `LC_ROUTINES` command. -/
def routinesLibrary (dylibs : List (DylibKind × String)) : File :=
  { plainLibrary dylibs with commands := plainCommands dylibs ++ [.routines 0x100] }

/-- `/A` needs `/B`. -/
def nestedSystem : System :=
  plainSystem [("/A", routinesLibrary [(.load, "/B")]), ("/B", routinesLibrary []),
    ("/C", routinesLibrary [])]

/-- The state before `initializeChain`. -/
def loaded (sys : System) : Linker :=
  match startupLoads sys 1 fun _ => 0 with
  | .done (_, s) => s
  | _ => .initial fun _ => 0

/-- The program opens `/A`, whose initializer opens `/C` and then `/A` and `/B`. -/
def nestedActions : List Action :=
  List.replicate 6 .goOn ++ [.dlopen 3 "/A", .goOn, .dlopen 3 "/C", .goOn, .leave, .goOn,
    .dlopen 3 "/A", .dlopen 3 "/B", .leave, .goOn]

def nested : Runtime :=
  match runActions nestedSystem nestedActions (.start false (loaded nestedSystem)) with
  | .done r => r
  | _ => .start false (loaded nestedSystem)

theorem initializers_once_nested :
    nested.started.Nodup ∧ (inProgress nested.frames).Nodup ∧ ∀ im,
      startedOf nested.started im <+: slotsOf nested.linker im ∧
        (startedOf nested.started im).Pairwise Slot.Before :=
  initializers_once (rfl : startupLoads nestedSystem 1 (fun _ => 0) = done (1, loaded nestedSystem))
    (runActions_reaches (rfl : runActions nestedSystem nestedActions
      (.start false (loaded nestedSystem)) = done nested))

/-- `/B` is not initialized at all. -/
example : nested.started = [(2, .routines), (4, .routines)] ∧
    nested.linker.imageChain = done [0, 4, 3, 2] := by decide

end LibSystem.Lnk
