import LibSystem.Lnk.RunOnce

/-!
# The add-image handlers

A handler is called for the images that the registration finds in the chain. A later load calls
nobody.
-/

namespace LibSystem.Lnk

open Outcome

/-! ## Who has been told -/

def Frame.handler? : Frame → Option (Word × ImageId)
  | .init _ _ _ => none
  | .handler fn im => some (fn, im)

/-- The registrations that have not returned, each with the image its handler is called for. -/
def registering (frames : List Frame) : List (Word × ImageId) := frames.filterMap Frame.handler?

def HandlerCall.pair (call : HandlerCall) : Word × ImageId := (call.fn, call.im)

/-- The pairs of handler and image of the calls so far. -/
def calledPairs (r : Runtime) : List (Word × ImageId) := r.handled.map HandlerCall.pair

/-- The call of the handler with the header and the slide of the image. -/
def handlerCall (s : Linker) (fn : Word) (im : ImageId) : Option HandlerCall :=
  s.images[im]?.map fun obj => ⟨fn, im, obj.fHeader, obj.fSlide⟩

/-- Every handler has been called once for every image of the chain, and nothing else has been
called. -/
def SeenAll (r : Runtime) : Prop :=
  ∃ chain, r.linker.imageChain = done chain ∧ (calledPairs r).Nodup ∧
    ∀ call, call ∈ r.handled ↔
      ∃ fn ∈ r.sAddHandlers, ∃ im ∈ chain, handlerCall r.linker fn im = some call

/-- A handler is registered once, and a file is loaded only while each handler that is registered is
still being called for the first image. -/
def InTime (sys : System) (r : Runtime) : Action → Prop
  | .goOn | .leave => True
  | .dlopen _ path => Available sys r.linker path ∨ ∀ fn ∈ r.sAddHandlers,
      ∃ first, r.linker.sFirstImage = some first ∧ (fn, first) ∈ registering r.frames
  | .register fn => fn ∉ r.sAddHandlers

/-- The handlers' part of the state, when the chain is `chain`. -/
structure Told (r : Runtime) (chain : List ImageId) : Prop where
  linked : IsChain r.linker.images r.linker.sFirstImage chain
  once : (calledPairs r).Nodup
  single : ((registering r.frames).map Prod.fst).Nodup
  calls : ∀ call ∈ r.handled, call.fn ∈ r.sAddHandlers ∧
    handlerCall r.linker call.fn call.im = some call
  /-- A registration that has returned has gone through the chain. -/
  through : ∀ fn ∈ r.sAddHandlers, fn ∉ (registering r.frames).map Prod.fst →
    ∀ im, (fn, im) ∈ calledPairs r ↔ im ∈ chain
  /-- Another one has come up to its image. -/
  upTo : ∀ fn im, (fn, im) ∈ registering r.frames → fn ∈ r.sAddHandlers ∧
    ∃ a b, chain = a ++ im :: b ∧ ∀ j, (fn, j) ∈ calledPairs r ↔ j ∈ a ++ [im]

/-- A handler has been called twice for an image, or has gone past one without a call. -/
def Spoiled (r : Runtime) : Prop :=
  ¬ (calledPairs r).Nodup ∨ ∃ first passed later,
    IsChain r.linker.images r.linker.sFirstImage (first :: (passed ++ later)) ∧
    ∃ fn ∈ r.sAddHandlers, (fn, first) ∈ calledPairs r ∧
      (∃ im ∈ passed, (fn, im) ∉ calledPairs r) ∧
      ∀ im, (fn, im) ∈ registering r.frames → im ∈ later

variable {sys : System} {r r' : Runtime} {chain : List ImageId}

theorem Told.seenAll (h : Told r chain) (hnone : registering r.frames = []) : SeenAll r := by
  refine ⟨chain, Linker.imageChain_eq_done.mpr h.linked, h.once, fun call => ⟨fun hcall => ?_, ?_⟩⟩
  · obtain ⟨hfn, hvalue⟩ := h.calls call hcall
    refine ⟨call.fn, hfn, call.im, ?_, hvalue⟩
    exact (h.through call.fn hfn (by simp [hnone]) call.im).mp
      (List.mem_map.mpr ⟨call, hcall, rfl⟩)
  · rintro ⟨fn, hfn, im, him, hvalue⟩
    obtain ⟨call', hcall', hpair⟩ :=
      List.mem_map.mp ((h.through fn hfn (by simp [hnone]) im).mpr him)
    obtain ⟨hfn', him'⟩ : call'.fn = fn ∧ call'.im = im := by
      simpa [HandlerCall.pair] using hpair
    have hvalue' := (h.calls call' hcall').2
    rw [hfn', him', hvalue] at hvalue'
    rwa [Option.some.inj hvalue']

theorem Spoiled.not_seenAll (h : Spoiled r) : ¬ SeenAll r := by
  rintro ⟨chain, hchain, hnodup, hall⟩
  obtain hdup | ⟨first, passed, later, hlinked, fn, hfn, -, ⟨im, him, hnot⟩, -⟩ := h
  · exact hdup hnodup
  obtain rfl := hlinked.unique (Linker.imageChain_eq_done.mp hchain)
  have hmem : im ∈ first :: (passed ++ later) := by simp [him]
  have hlt := hlinked.lt_length im hmem
  refine hnot (List.mem_map.mpr
    ⟨⟨fn, im, r.linker.images[im].fHeader, r.linker.images[im].fSlide⟩, ?_, rfl⟩)
  exact (hall _).mpr ⟨fn, hfn, im, hmem, by simp [handlerCall, List.getElem?_eq_getElem hlt]⟩

/-! ## Changes of the rest of the state -/

/-- The images that were there keep their header and their slide. -/
def KeepsCalls (s s' : Linker) : Prop :=
  ∀ fn, ∀ im < s.images.length, handlerCall s' fn im = handlerCall s fn im

theorem KeepsCalls.of_images {s s' : Linker} (himages : s'.images = s.images) : KeepsCalls s s' :=
  fun fn im _ => by rw [handlerCall, himages, handlerCall]

theorem lt_of_handlerCall {s : Linker} {fn : Word} {im : ImageId} {call : HandlerCall}
    (h : handlerCall s fn im = some call) : im < s.images.length := by
  obtain ⟨obj, hobj, -⟩ := Option.map_eq_some_iff.mp h
  exact (List.getElem?_eq_some_iff.mp hobj).1

/-- The chain stays as it is. -/
structure KeepsChain (s s' : Linker) : Prop where
  chain : ∀ chain, IsChain s.images s.sFirstImage chain → IsChain s'.images s'.sFirstImage chain
  calls : KeepsCalls s s'

/-- No handler is called, and none returns. -/
structure SameHandlers (r r' : Runtime) : Prop where
  frames : registering r'.frames = registering r.frames
  handlers : r'.sAddHandlers = r.sAddHandlers
  handled : r'.handled = r.handled

theorem SameHandlers.pairs (h : SameHandlers r r') : calledPairs r' = calledPairs r := by
  unfold calledPairs
  rw [h.handled]

theorem SameHandlers.trans {r'' : Runtime} (h : SameHandlers r r') (h' : SameHandlers r' r'') :
    SameHandlers r r'' :=
  ⟨h'.frames.trans h.frames, h'.handlers.trans h.handlers, h'.handled.trans h.handled⟩

theorem KeepsChain.of_images {s s' : Linker} (himages : s'.images = s.images)
    (hfirst : s'.sFirstImage = s.sFirstImage) : KeepsChain s s' :=
  ⟨fun chain h => by rwa [himages, hfirst], .of_images himages⟩

theorem KeepsChain.setInitialized (s : Linker) (im : ImageId) (b : Bool) :
    KeepsChain s (s.modify im fun obj => obj.setInitialized b) := by
  refine ⟨fun chain h => h.congr fun j _ => ?_, fun fn j _ => ?_⟩
  · rw [getElem?_modify, Option.map_map]
    congr 1
    funext obj
    by_cases hj : im = j <;> simp [hj, MachObject.setInitialized]
  · unfold handlerCall
    rw [getElem?_modify, Option.map_map]
    congr 1
    funext obj
    by_cases hj : im = j <;> simp [hj, MachObject.setInitialized]

theorem Told.keeps (h : Told r chain) (hkeeps : KeepsChain r.linker r'.linker)
    (hrest : SameHandlers r r') : Told r' chain := by
  refine ⟨hkeeps.chain _ h.linked, hrest.pairs ▸ h.once, hrest.frames ▸ h.single, ?_, ?_, ?_⟩
  · intro call hcall
    rw [hrest.handled] at hcall
    obtain ⟨hfn, hvalue⟩ := h.calls call hcall
    rw [hrest.handlers, hkeeps.calls call.fn call.im (lt_of_handlerCall hvalue)]
    exact ⟨hfn, hvalue⟩
  · rw [hrest.frames, hrest.handlers, hrest.pairs]
    exact h.through
  · rw [hrest.frames, hrest.handlers, hrest.pairs]
    exact h.upTo

theorem Spoiled.keeps (h : Spoiled r) (hkeeps : KeepsChain r.linker r'.linker)
    (hrest : SameHandlers r r') : Spoiled r' := by
  obtain hdup | ⟨first, passed, later, hlinked, hmissed⟩ := h
  · exact .inl (hrest.pairs ▸ hdup)
  · refine .inr ⟨first, passed, later, hkeeps.chain _ hlinked, ?_⟩
    rw [hrest.pairs, hrest.frames, hrest.handlers]
    exact hmissed

/-! ## One more call -/

/-- The handler `fn`, whose registration goes on behind `a`. -/
structure ToldUpTo (r : Runtime) (chain : List ImageId) (fn : Word) (a b : List ImageId) :
    Prop where
  linked : IsChain r.linker.images r.linker.sFirstImage chain
  once : (calledPairs r).Nodup
  single : ((registering r.frames).map Prod.fst).Nodup
  calls : ∀ call ∈ r.handled, call.fn ∈ r.sAddHandlers ∧
    handlerCall r.linker call.fn call.im = some call
  through : ∀ fn' ∈ r.sAddHandlers, fn' ≠ fn → fn' ∉ (registering r.frames).map Prod.fst →
    ∀ im, (fn', im) ∈ calledPairs r ↔ im ∈ chain
  upTo : ∀ fn' im, (fn', im) ∈ registering r.frames → fn' ∈ r.sAddHandlers ∧
    ∃ a b, chain = a ++ im :: b ∧ ∀ j, (fn', j) ∈ calledPairs r ↔ j ∈ a ++ [im]
  registered : fn ∈ r.sAddHandlers
  off : fn ∉ (registering r.frames).map Prod.fst
  split : chain = a ++ b
  here : ∀ im, (fn, im) ∈ calledPairs r ↔ im ∈ a

/-- The call of the handler for the image. -/
structure Calls (r : Runtime) (fn : Word) (im : ImageId) (r' : Runtime) : Prop where
  linker : r'.linker = r.linker
  handlers : r'.sAddHandlers = r.sAddHandlers
  frames : registering r'.frames = (fn, im) :: registering r.frames
  handled : ∃ call, handlerCall r.linker fn im = some call ∧ r'.handled = r.handled ++ [call]

theorem callHandler_calls {fn : Word} {next : Option ImageId}
    (h : r.callHandler fn next = done r') :
    (next = none ∧ r' = r) ∨ ∃ im, next = some im ∧ Calls r fn im r' := by
  obtain h | ⟨im, obj, hnext, hobj, rfl⟩ := Runtime.callHandler_eq_done h
  · exact .inl h
  · exact .inr ⟨im, hnext, rfl, rfl, rfl, _, by simp [handlerCall, hobj], rfl⟩

theorem Calls.pairs {fn : Word} {im : ImageId} (h : Calls r fn im r') :
    calledPairs r' = calledPairs r ++ [(fn, im)] := by
  obtain ⟨call, hcall, hhandled⟩ := h.handled
  obtain ⟨obj, -, rfl⟩ := Option.map_eq_some_iff.mp hcall
  unfold calledPairs
  rw [hhandled, List.map_append]
  rfl

theorem ToldUpTo.callHandler {fn : Word} {a b : List ImageId} (h : ToldUpTo r chain fn a b)
    {next : Option ImageId} (hnext : IsChain r.linker.images next b)
    (hcall : r.callHandler fn next = done r') : Told r' chain := by
  obtain ⟨rfl, rfl⟩ | ⟨im, rfl, hcalls⟩ := callHandler_calls hcall
  · obtain rfl : b = [] := by
      cases b with
      | nil => rfl
      | cons im b => exact absurd hnext.1 (by simp)
    refine ⟨h.linked, h.once, h.single, h.calls, fun fn' hfn' hoff => ?_, h.upTo⟩
    by_cases heq : fn' = fn
    · rw [heq, h.split, List.append_nil]
      exact h.here
    · exact h.through fn' hfn' heq hoff
  obtain ⟨b, rfl⟩ : ∃ b', b = im :: b' := by
    cases b with
    | nil => exact absurd hnext (by simp [IsChain])
    | cons j b =>
      obtain rfl : im = j := by simpa using hnext.1
      exact ⟨b, rfl⟩
  have hnew : im ∉ a := by
    have hnodup := h.linked.nodup
    rw [h.split] at hnodup
    exact fun hmem => (List.disjoint_of_nodup_append hnodup) hmem List.mem_cons_self
  have hother : ∀ fn' j, fn' ≠ fn → ((fn', j) ∈ calledPairs r' ↔ (fn', j) ∈ calledPairs r) := by
    intro fn' j hne
    simp [hcalls.pairs, hne]
  refine ⟨hcalls.linker ▸ h.linked, ?_, ?_, ?_, ?_, ?_⟩
  · rw [hcalls.pairs]
    refine List.nodup_append.mpr ⟨h.once, by simp, ?_⟩
    rintro p hp q hq rfl
    obtain rfl : p = (fn, im) := List.mem_singleton.mp hq
    exact hnew ((h.here im).mp hp)
  · rw [hcalls.frames]
    exact List.nodup_cons.mpr ⟨h.off, h.single⟩
  · obtain ⟨call, hcall, hhandled⟩ := hcalls.handled
    intro call' hin
    rw [hcalls.handlers, hcalls.linker]
    rw [hhandled, List.mem_append, List.mem_singleton] at hin
    rcases hin with hin | rfl
    · exact h.calls call' hin
    · obtain ⟨obj, -, rfl⟩ := Option.map_eq_some_iff.mp hcall
      exact ⟨h.registered, hcall⟩
  · intro fn' hfn' hoff j
    rw [hcalls.frames, List.map_cons, List.mem_cons, not_or] at hoff
    rw [hother fn' j hoff.1]
    exact h.through fn' (hcalls.handlers ▸ hfn') hoff.1 hoff.2 j
  · intro fn' j hin
    rw [hcalls.frames] at hin
    rw [hcalls.handlers]
    rcases List.mem_cons.mp hin with heq | hin
    · obtain ⟨rfl, rfl⟩ := Prod.mk.inj heq
      refine ⟨h.registered, a, b, h.split, fun k => ?_⟩
      simp [hcalls.pairs, h.here]
    · obtain ⟨hfn', a', b', hsplit, hup⟩ := h.upTo fn' j hin
      have hne : fn' ≠ fn := fun heq => h.off (heq ▸ List.mem_map.mpr ⟨(fn', j), hin, rfl⟩)
      exact ⟨hfn', a', b', hsplit, fun k => (hother fn' k hne).trans (hup k)⟩

theorem IsChain.next_mem {images : List MachObject} {p : Option ImageId} {l later : List ImageId}
    (h : IsChain images p (l ++ later)) {im next : ImageId} {obj : MachObject} (him : im ∈ later)
    (hobj : images[im]? = some obj) (hnext : obj.fNextImage = some next) : next ∈ later := by
  obtain ⟨a, b, rfl⟩ := List.append_of_mem him
  have hsplit : IsChain images p ((l ++ a) ++ im :: b) := by simpa using h
  obtain ⟨q, -, obj', hobj', hb⟩ := hsplit.suffix
  obtain rfl : obj = obj' := by simpa [hobj] using hobj'
  rw [hnext] at hb
  cases b with
  | nil => simp [IsChain] at hb
  | cons j b =>
    obtain rfl : next = j := by simpa using hb.1
    simp

theorem Spoiled.callHandler (h : Spoiled r) (before : Runtime) {fn : Word} {next : Option ImageId}
    (hlinker : before.linker = r.linker) (hhandled : before.handled = r.handled)
    (hhandlers : r.sAddHandlers ⊆ before.sAddHandlers)
    (hframes : registering before.frames ⊆ registering r.frames)
    (hnext : next = r.linker.sFirstImage ∨ ∃ im obj, (fn, im) ∈ registering r.frames ∧
      r.linker.images[im]? = some obj ∧ next = obj.fNextImage)
    (hcall : before.callHandler fn next = done r') : Spoiled r' := by
  have hpairs : calledPairs before = calledPairs r := by rw [calledPairs, hhandled, calledPairs]
  obtain hdup | ⟨first, passed, later, hlinked, fn', hfn', hfirst, ⟨im', him', hnot⟩, hlater⟩ := h
  · left
    obtain ⟨-, rfl⟩ | ⟨im, -, hcalls⟩ := callHandler_calls hcall
    · rwa [hpairs]
    · rw [hcalls.pairs, hpairs]
      exact fun hnodup => hdup (List.nodup_append.mp hnodup).1
  obtain ⟨-, rfl⟩ | ⟨im, rfl, hcalls⟩ := callHandler_calls hcall
  · refine .inr ⟨first, passed, later, hlinker ▸ hlinked, fn', hhandlers hfn', ?_⟩
    rw [hpairs]
    exact ⟨hfirst, ⟨im', him', hnot⟩, fun im him => hlater im (hframes him)⟩
  have hpairs' := hcalls.pairs
  rw [hpairs] at hpairs'
  -- The same handler is called for the first image again, or for one of the last part.
  have him : fn' = fn → (fn, im) ∈ calledPairs r ∨ im ∈ later := by
    rintro rfl
    obtain hsome | ⟨cur, obj, hcur, hobj, hsome⟩ := hnext
    · left
      rw [hlinked.1] at hsome
      rwa [Option.some.inj hsome]
    · right
      exact IsChain.next_mem (l := first :: passed) hlinked (hlater cur hcur) hobj hsome.symm
  by_cases hpair : (fn, im) ∈ calledPairs r
  · left
    rw [hpairs']
    exact fun hnodup => (List.nodup_append.mp hnodup).2.2 _ hpair _ (List.mem_singleton.mpr rfl) rfl
  · right
    refine ⟨first, passed, later, ?_, fn', ?_, ?_, ⟨im', him', ?_⟩, ?_⟩
    · rw [hcalls.linker, hlinker]
      exact hlinked
    · exact hcalls.handlers ▸ hhandlers hfn'
    · rw [hpairs']
      exact List.mem_append_left _ hfirst
    · rw [hpairs', List.mem_append, List.mem_singleton, Prod.mk.injEq, not_or]
      refine ⟨hnot, ?_⟩
      rintro ⟨rfl, rfl⟩
      have hnodup := hlinked.nodup
      exact (List.disjoint_of_nodup_append (List.nodup_cons.mp hnodup).2) him'
        ((him rfl).resolve_left hpair)
    · intro j hj
      rw [hcalls.frames] at hj
      rcases List.mem_cons.mp hj with heq | hj
      · obtain ⟨rfl, rfl⟩ := Prod.mk.inj heq
        exact (him rfl).resolve_left hpair
      · exact hlater j (hframes hj)

/-! ## The steps -/

theorem dlopen_loads {fuel : Nat} {path : String} (h : r.dlopen sys fuel path = done r') :
    SameHandlers r r' ∧ ∃ dlib al s, loadLibraryEx sys fuel path r.linker = done (dlib, al, s) ∧
      r'.linker.images = s.images ∧ r'.linker.sFirstImage = s.sFirstImage := by
  obtain ⟨dlib, al, s, hload, rfl | ⟨im, bound, -, -, -, hbound, hinit⟩⟩ :=
    Runtime.dlopen_eq_done h
  · exact ⟨⟨rfl, rfl, rfl⟩, dlib, al, s, hload, rfl, rfl⟩
  · obtain ⟨himages, hfirst, -⟩ := doBindSymbols_images hbound
    obtain ⟨obj, -, ⟨-, rfl⟩ | ⟨-, rfl⟩⟩ := Runtime.doInitialize_eq_done hinit <;>
      exact ⟨⟨rfl, rfl, rfl⟩, dlib, al, s, hload, himages, hfirst⟩

theorem goOn_keeps (h : r.goOn = done r') : KeepsChain r.linker r'.linker ∧ SameHandlers r r' := by
  unfold Runtime.goOn at h
  split at h
  · obtain ⟨⟨phase, next⟩, -, h⟩ := bind_eq_done.mp h
    cases next with
    | none =>
      obtain rfl := done.inj h
      exact ⟨.of_images rfl rfl, rfl, rfl, rfl⟩
    | some im =>
      obtain ⟨obj, -, ⟨-, rfl⟩ | ⟨-, rfl⟩⟩ := Runtime.doInitialize_eq_done h <;>
        exact ⟨.of_images rfl rfl, rfl, rfl, rfl⟩
  · rename_i im b rest hframes
    obtain rfl := done.inj h
    have hkeeps := KeepsChain.setInitialized r.linker im true
    exact ⟨⟨hkeeps.chain, hkeeps.calls⟩, by rw [hframes]; rfl, rfl, rfl⟩
  · rename_i hframes
    obtain ⟨obj, -, h⟩ := bind_eq_done.mp h
    obtain ⟨fn, -, h⟩ := bind_eq_done.mp h
    obtain rfl := done.inj h
    exact ⟨.of_images rfl rfl, by rw [hframes]; rfl, rfl, rfl⟩
  · obtain rfl := done.inj h
    exact ⟨.of_images rfl rfl, rfl, rfl, rfl⟩

theorem leave_cases (h : r.leave = done r') :
    (r'.linker = r.linker ∧ SameHandlers r r') ∨ ∃ fn im rest obj,
      r.frames = .handler fn im :: rest ∧ r.linker.images[im]? = some obj ∧
        Runtime.callHandler { r with frames := rest } fn obj.fNextImage = done r' := by
  unfold Runtime.leave at h
  split at h
  · obtain rfl := done.inj h
    exact .inl ⟨rfl, rfl, rfl, rfl⟩
  · rename_i hframes
    obtain rfl := done.inj h
    exact .inl ⟨rfl, by rw [hframes]; rfl, rfl, rfl⟩
  · rename_i fn im rest hframes
    obtain ⟨obj, hobj, h⟩ := bind_eq_done.mp h
    rw [Linker.object, ofOption_eq_done] at hobj
    exact .inr ⟨fn, im, rest, obj, hframes, hobj, h⟩

theorem register_eq_done {fn : Word} (h : r.register fn = done r') :
    Runtime.callHandler { r with sAddHandlers := r.sAddHandlers ++ [fn] } fn
      r.linker.sFirstImage = done r' := by
  unfold Runtime.register at h
  split at h
  · simp at h
  · exact h

theorem KeepsCalls.load {s s' : Linker} {fuel : Nat} {path : String} {dlib : Option ImageId}
    {al : Option Bool} (h : loadLibraryEx sys fuel path s = done (dlib, al, s')) :
    KeepsCalls s s' := by
  intro fn im him
  have hcontent := (loadLibraryEx_sameBelow (Nat.le_refl _) h).content im him
  have hcall : ∀ t, handlerCall t fn im =
      (content t im).map fun obj => ⟨fn, im, obj.fHeader, obj.fSlide⟩ := by
    intro t
    unfold handlerCall content
    rw [Option.map_map]
    rfl
  rw [hcall, hcontent, hcall]

theorem Spoiled.step (h : Spoiled r) {a : Action} (hstep : Runtime.Step sys r a r') :
    Spoiled r' := by
  obtain ⟨-, hact⟩ := hstep
  cases a with
  | goOn =>
    obtain ⟨hkeeps, hsame⟩ := goOn_keeps hact
    exact h.keeps hkeeps hsame
  | leave =>
    obtain ⟨hlinker, hsame⟩ | ⟨fn, im, rest, obj, hframes, hobj, hcall⟩ := leave_cases hact
    · exact h.keeps (hlinker ▸ .of_images rfl rfl) hsame
    · refine h.callHandler { r with frames := rest } rfl rfl (List.Subset.refl _) ?_
        (.inr ⟨im, obj, ?_, hobj, rfl⟩) hcall
      · simp [hframes, registering, Frame.handler?]
      · simp [hframes, registering, Frame.handler?]
  | dlopen fuel path =>
    obtain ⟨hsame, dlib, al, s, hload, himages, hfirst⟩ := dlopen_loads hact
    obtain hdup | ⟨first, passed, later, hlinked, hmissed⟩ := h
    · exact .inl (hsame.pairs ▸ hdup)
    · have hchain := (loadLibraryEx_loads hload).1.chain first _ hlinked
      rw [← List.append_assoc] at hchain
      refine .inr ⟨first, _, later, by rwa [himages, hfirst], ?_⟩
      rw [hsame.pairs, hsame.frames, hsame.handlers]
      obtain ⟨fn, hfn, hcalled, ⟨im, him, hnot⟩, hlater⟩ := hmissed
      exact ⟨fn, hfn, hcalled, ⟨im, List.mem_append_right _ him, hnot⟩, hlater⟩
  | register fn =>
    have hcall := register_eq_done hact
    exact h.callHandler { r with sAddHandlers := r.sAddHandlers ++ [fn] } rfl rfl
      (List.subset_append_left _ _) (List.Subset.refl _) (.inl rfl) hcall

theorem Told.first {first : ImageId} {rest : List ImageId} (h : Told r (first :: rest)) {fn : Word}
    (hfn : fn ∈ r.sAddHandlers) : (fn, first) ∈ calledPairs r := by
  by_cases hin : fn ∈ (registering r.frames).map Prod.fst
  · obtain ⟨⟨fn', im⟩, hin', rfl⟩ := List.mem_map.mp hin
    obtain ⟨-, a, b, hsplit, hup⟩ := h.upTo _ im hin'
    refine (hup first).mpr ?_
    cases a with
    | nil => simp [(List.cons.inj hsplit).1]
    | cons j a => simp [(List.cons.inj hsplit).1]
  · exact (h.through fn hfn hin first).mpr List.mem_cons_self

theorem Told.leave (h : Told r chain) {fn : Word} {im : ImageId} {rest : List Frame}
    {obj : MachObject} (hframes : r.frames = .handler fn im :: rest)
    (hobj : r.linker.images[im]? = some obj)
    (hcall : Runtime.callHandler { r with frames := rest } fn obj.fNextImage = done r') :
    Told r' chain := by
  have hregistering : registering r.frames = (fn, im) :: registering rest := by rw [hframes]; rfl
  obtain ⟨hfn, a, b, hsplit, hup⟩ := h.upTo fn im (by simp [hregistering])
  have hsingle := h.single
  rw [hregistering, List.map_cons] at hsingle
  obtain ⟨hoff, hsingle⟩ := List.nodup_cons.mp hsingle
  have hmore : ToldUpTo { r with frames := rest } chain fn (a ++ [im]) b := by
    refine ⟨h.linked, h.once, hsingle, h.calls, fun fn' hfn' hne hoff' => ?_, fun fn' j hin => ?_,
      hfn, hoff, by simp [hsplit], hup⟩
    · refine h.through fn' hfn' ?_
      rw [hregistering, List.map_cons, List.mem_cons, not_or]
      exact ⟨hne, hoff'⟩
    · exact h.upTo fn' j (by rw [hregistering]; exact List.mem_cons_of_mem _ hin)
  refine hmore.callHandler ?_ hcall
  obtain ⟨q, -, obj', hobj', hb⟩ := IsChain.suffix (hsplit ▸ h.linked)
  obtain rfl : obj = obj' := by simpa [hobj] using hobj'
  exact hb

theorem Told.register (h : Told r chain) {fn : Word} (hfn : fn ∉ r.sAddHandlers)
    (hcall : r.register fn = done r') : Told r' chain := by
  have hnone : ∀ im, (fn, im) ∉ calledPairs r := by
    rintro im hpair
    obtain ⟨call, hin, hpair⟩ := List.mem_map.mp hpair
    obtain ⟨rfl, -⟩ := Prod.mk.inj hpair
    exact hfn (h.calls call hin).1
  have hmore : ToldUpTo { r with sAddHandlers := r.sAddHandlers ++ [fn] } chain fn [] chain := by
    refine ⟨h.linked, h.once, h.single, fun call hcall => ?_, fun fn' hfn' hne hoff => ?_,
      fun fn' im hin => ?_, by simp, fun hin => ?_, rfl, fun im => ?_⟩
    · exact ⟨List.mem_append_left _ (h.calls call hcall).1, (h.calls call hcall).2⟩
    · refine h.through fn' ?_ hoff
      simpa [hne] using hfn'
    · exact ⟨List.mem_append_left _ (h.upTo fn' im hin).1, (h.upTo fn' im hin).2⟩
    · obtain ⟨⟨fn', im⟩, hin', rfl⟩ := List.mem_map.mp hin
      exact hfn (h.upTo _ im hin').1
    · exact iff_of_false (hnone im) List.not_mem_nil
  exact hmore.callHandler h.linked (register_eq_done hcall)

theorem Told.loads {first : ImageId} {rest news : List ImageId} (h : Told r (first :: rest))
    (hat : ∀ fn ∈ r.sAddHandlers, (fn, first) ∈ registering r.frames)
    (hcalls : KeepsCalls r.linker r'.linker)
    (hlinked : IsChain r'.linker.images r'.linker.sFirstImage (first :: news))
    (hsame : SameHandlers r r') : Told r' (first :: news) := by
  refine ⟨hlinked, hsame.pairs ▸ h.once, hsame.frames ▸ h.single, fun call hin => ?_,
    fun fn hfn hoff => ?_, fun fn im hin => ?_⟩
  · rw [hsame.handled] at hin
    obtain ⟨hfn, hvalue⟩ := h.calls call hin
    rw [hsame.handlers, hcalls call.fn call.im (lt_of_handlerCall hvalue)]
    exact ⟨hfn, hvalue⟩
  · rw [hsame.frames] at hoff
    rw [hsame.handlers] at hfn
    exact absurd (List.mem_map.mpr ⟨_, hat fn hfn, rfl⟩) hoff
  · rw [hsame.frames] at hin
    obtain ⟨hfn, a, b, hsplit, hup⟩ := h.upTo fn im hin
    obtain rfl : im = first := by
      have := List.inj_on_of_nodup_map h.single hin (hat fn hfn) rfl
      exact (Prod.mk.inj this).2
    rw [hsame.handlers, hsame.pairs]
    refine ⟨hfn, [], news, rfl, ?_⟩
    cases a with
    | nil => exact hup
    | cons j a =>
      obtain ⟨rfl, rfl⟩ := List.cons.inj hsplit
      exact absurd (List.nodup_cons.mp h.linked.nodup).1 (by simp)

theorem Told.step {first : ImageId} {rest : List ImageId} (h : Told r (first :: rest)) {a : Action}
    (hguard : InTime sys r a) (hstep : Runtime.Step sys r a r') :
    ∃ rest', Told r' (first :: rest') := by
  obtain ⟨-, hact⟩ := hstep
  cases a with
  | goOn =>
    obtain ⟨hkeeps, hsame⟩ := goOn_keeps hact
    exact ⟨rest, h.keeps hkeeps hsame⟩
  | leave =>
    obtain ⟨hlinker, hsame⟩ | ⟨fn, im, frames, obj, hframes, hobj, hcall⟩ := leave_cases hact
    · exact ⟨rest, h.keeps (hlinker ▸ .of_images rfl rfl) hsame⟩
    · exact ⟨rest, h.leave hframes hobj hcall⟩
  | dlopen fuel path =>
    obtain ⟨hsame, dlib, al, s, hload, himages, hfirst⟩ := dlopen_loads hact
    have hchain := (loadLibraryEx_loads hload).1.chain first rest h.linked
    rw [← himages, ← hfirst] at hchain
    have hcalls : KeepsCalls r.linker r'.linker := fun fn im him =>
      (KeepsCalls.of_images himages fn im
        (him.trans_le (loadLibraryEx_loads hload).1.length)).trans (KeepsCalls.load hload fn im him)
    rcases hguard with havailable | hat
    · have hnone : newImages r.linker s = [] :=
        newImages_eq_nil ((loadLibraryEx_idle_iff hload).mpr havailable)
      rw [hnone] at hchain
      exact ⟨rest, h.keeps ⟨fun chain hc => hc.unique h.linked ▸ hchain, hcalls⟩ hsame⟩
    · refine ⟨_, h.loads (fun fn hfn => ?_) hcalls hchain hsame⟩
      obtain ⟨first', hfirst', hin⟩ := hat fn hfn
      rw [h.linked.1] at hfirst'
      rwa [Option.some.inj hfirst']
  | register fn => exact ⟨rest, h.register hguard hact⟩

theorem Told.spoils {first : ImageId} {rest : List ImageId} (h : Told r (first :: rest))
    {a : Action} (hguard : ¬ InTime sys r a) (hstep : Runtime.Step sys r a r') : Spoiled r' := by
  obtain ⟨-, hact⟩ := hstep
  cases a with
  | goOn => exact absurd trivial hguard
  | leave => exact absurd trivial hguard
  | dlopen fuel path =>
    obtain ⟨hsame, dlib, al, s, hload, himages, hfirst⟩ := dlopen_loads hact
    have hchain := (loadLibraryEx_loads hload).1.chain first rest h.linked
    rw [← himages, ← hfirst] at hchain
    obtain ⟨hnew, hnot⟩ := not_or.mp hguard
    rw [← loadLibraryEx_idle_iff hload] at hnew
    push Not at hnot
    obtain ⟨fn, hfn, hnot⟩ := hnot
    refine .inr ⟨first, _, rest, hchain, ?_⟩
    rw [hsame.pairs, hsame.frames, hsame.handlers]
    refine ⟨fn, hfn, h.first hfn, ⟨r.linker.images.length, ?_, ?_⟩, ?_⟩
    · have := (loadLibraryEx_loads hload).1.length
      exact List.mem_reverse.mpr (mem_newImages.mpr ⟨Nat.le_refl _, by omega⟩)
    · -- Nobody has been called for an image that was not there.
      intro hpair
      obtain ⟨call, hin, hpair⟩ := List.mem_map.mp hpair
      have hlt := lt_of_handlerCall (h.calls call hin).2
      rw [(Prod.mk.inj hpair).2] at hlt
      exact absurd hlt (Nat.lt_irrefl _)
    · intro im hin
      obtain ⟨-, a, b, hsplit, -⟩ := h.upTo fn im hin
      have him : im ∈ first :: rest := by simp [hsplit]
      refine (List.mem_cons.mp him).resolve_left ?_
      rintro rfl
      exact hnot im h.linked.1 hin
  | register fn =>
    have hfn : fn ∈ r.sAddHandlers := not_not.mp hguard
    obtain ⟨hnone, -⟩ | ⟨im, hsome, hcalls⟩ := callHandler_calls (register_eq_done hact)
    · simp [h.linked.1] at hnone
    · left
      obtain rfl : first = im := by simpa [h.linked.1] using hsome
      rw [hcalls.pairs]
      exact fun hnodup => (List.nodup_append.mp hnodup).2.2 _ (h.first hfn) _
        (List.mem_singleton.mpr rfl) rfl

/-! ## The runs -/

theorem told_start {fuel : Nat} {mem : Mem} {main : ImageId} {s : Linker}
    (h : startupLoads sys fuel mem = done (main, s)) (garbage : Bool) :
    ∃ first rest, Told (.start garbage s) (first :: rest) := by
  obtain ⟨first, rest, hchain⟩ := (startupLoads_valid h).chain
  refine ⟨first, rest, hchain, List.nodup_nil, List.nodup_nil, ?_, ?_, ?_⟩ <;>
    simp [Runtime.start, registering]

/-- **Handlers and images.** When no registration is in progress, each handler has been called once
for each image if and only if no handler has been registered twice, and no file has been loaded
while a handler was past the first image. -/
theorem seenAll_iff {fuel : Nat} {mem : Mem} {main : ImageId} {s : Linker}
    (hloads : startupLoads sys fuel mem = done (main, s)) {garbage : Bool} {r : Runtime}
    (hrun : Reaches (Runtime.Step sys) (.start garbage s) r) (hnone : registering r.frames = []) :
    SeenAll r ↔ Run (Runtime.Step sys) (InTime sys) (.start garbage s) r := by
  constructor
  · intro hseen
    have h : Spoiled r ∨ (∃ first rest, Told r (first :: rest)) ∧
        Run (Runtime.Step sys) (InTime sys) (.start garbage s) r := by
      clear hseen hnone
      induction hrun with
      | refl => exact .inr ⟨told_start hloads garbage, .refl⟩
      | @tail r _ a _ _ hstep ih =>
        obtain hspoiled | ⟨⟨first, rest, htold⟩, hin⟩ := ih
        · exact .inl (hspoiled.step hstep)
        · by_cases hguard : InTime sys r a
          · obtain ⟨rest', htold'⟩ := htold.step hguard hstep
            exact .inr ⟨⟨first, rest', htold'⟩, hin.tail a hguard hstep⟩
          · exact .inl (htold.spoils hguard hstep)
    exact (h.resolve_left fun hspoiled => hspoiled.not_seenAll hseen).2
  · intro hin
    obtain ⟨first, rest, htold⟩ :=
      hin.invariant (I := fun r => ∃ first rest, Told r (first :: rest))
        (told_start hloads garbage) fun _ _ _ ⟨first, _, htold⟩ hguard hstep =>
          ⟨first, htold.step hguard hstep⟩
    exact htold.seenAll hnone

/-- The program opens `/A`, and then registers a handler. -/
def toldActions : List Action :=
  List.replicate 6 .goOn ++ [.dlopen 3 "/A", .goOn, .leave, .goOn, .register 7, .leave, .leave,
    .leave]

def told : Runtime :=
  match runActions nestedSystem toldActions (.start false (loaded nestedSystem)) with
  | .done r => r
  | _ => .start false (loaded nestedSystem)

theorem seenAll_iff_told :
    SeenAll told ↔
      Run (Runtime.Step nestedSystem) (InTime nestedSystem) (.start false (loaded nestedSystem))
        told :=
  seenAll_iff (rfl : startupLoads nestedSystem 1 (fun _ => 0) = done (1, loaded nestedSystem))
    (runActions_reaches (rfl : runActions nestedSystem toldActions
      (.start false (loaded nestedSystem)) = done told)) (by decide)

example : told.handled.map HandlerCall.pair = [(7, 0), (7, 3), (7, 2)] ∧
    told.linker.imageChain = done [0, 3, 2] := by decide

/-- It registers the handler first. -/
def lateActions : List Action :=
  List.replicate 6 .goOn ++ [.register 7, .leave, .dlopen 3 "/B", .goOn, .leave, .goOn]

def late : Runtime :=
  match runActions nestedSystem lateActions (.start false (loaded nestedSystem)) with
  | .done r => r
  | _ => .start false (loaded nestedSystem)

/-- Nobody calls the handler for `/B`. -/
theorem not_seenAll_late :
    startupLoads nestedSystem 1 (fun _ => 0) = done (1, loaded nestedSystem) ∧
      Reaches (Runtime.Step nestedSystem) (.start false (loaded nestedSystem)) late ∧
      late.frames = [] ∧ ¬ SeenAll late := by
  refine ⟨rfl, runActions_reaches (rfl : runActions nestedSystem lateActions
    (.start false (loaded nestedSystem)) = done late), by decide, ?_⟩
  rintro ⟨chain, hchain, -, hall⟩
  obtain rfl : [0, 2] = chain :=
    done.inj ((by decide : late.linker.imageChain = done [0, 2]).symm.trans hchain)
  have hcall := (hall _).mpr ⟨7, by decide, 2, by decide, rfl⟩
  exact absurd hcall (by decide)

end LibSystem.Lnk
