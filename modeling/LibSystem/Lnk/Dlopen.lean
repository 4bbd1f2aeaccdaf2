import LibSystem.Lnk.Loads

/-!
# The closure of a dlopen

`dlopen` binds and initializes the library it returns. Libraries that are loaded along
with it are rebased, and nothing more.
-/

namespace LibSystem.Lnk

open Outcome

variable {sys : System} {fuel : Nat} {s s' s'' : Linker}

/-! ## Loads that open no file -/

/-- The chain has an image that was asked for under this name. -/
def IsLoaded (s : Linker) (name : String) : Prop :=
  ∃ chain, s.imageChain = done chain ∧ ∃ im ∈ chain, origPath s im = some name

/-- A load of this name opens no file. -/
def Available (sys : System) (s : Linker) (name : String) : Prop :=
  (name = libsystemPath ∨ name = libgccPath) ∨ IsLoaded s name ∨ openLibrary sys name = none

def dylibNames (commands : List LoadCommand) : List String :=
  (commands.filterMap LoadCommand.dylib?).map Prod.snd

theorem isLoaded_iff_findLoaded {path : String} {r : Option ImageId}
    (h : findLoaded s path = done r) : IsLoaded s path ↔ r ≠ none := by
  obtain ⟨chain, hchain, rfl⟩ := findLoaded_eq_done h
  rw [Ne, List.find?_eq_none]
  constructor
  · rintro ⟨chain', hchain', im, him, hpath⟩ hnone
    obtain rfl : chain = chain' := by simpa [hchain] using hchain'
    exact hnone im him (decide_eq_true hpath)
  · intro hsome
    push Not at hsome
    obtain ⟨im, him, hpath⟩ := hsome
    exact ⟨chain, hchain, im, him, of_decide_eq_true hpath⟩

theorem isLoaded_iff {chain : List ImageId} (hc : IsChain s.images s.sFirstImage chain)
    {name : String} : IsLoaded s name ↔ ∃ im ∈ chain, origPath s im = some name := by
  constructor
  · rintro ⟨chain', hchain', him⟩
    rwa [hc.unique (Linker.imageChain_eq_done.mp hchain')]
  · exact fun him => ⟨chain, Linker.imageChain_eq_done.mpr hc, him⟩

theorem Opens.length_lt {path : String} {file : File} {before after : Linker}
    (h : Opens sys fuel path s s' file before after) (hparse : LoadsRebased before after) :
    s.images.length < s'.images.length := by
  have hmem : s.images.length ∈ newImages s s' := by rw [(h.loadsRebased hparse).1]; simp
  exact (mem_newImages.mp hmem).2

theorem Opens.parse_loads {path : String} {file : File} {before after : Linker}
    (h : Opens sys fuel path s s' file before after) : LoadsRebased before after :=
  parseLoadCommands_loads (fun _ _ _ _ hload => loadLibrary_loads hload) h.parsed

theorem loadLibraryEx_idle_iff {path : String} {r : Option ImageId} {al : Option Bool}
    (h : loadLibraryEx sys fuel path s = done (r, al, s')) :
    s'.images.length = s.images.length ↔ Available sys s path := by
  cases fuel with
  | zero => simp [loadLibraryEx] at h
  | succ fuel =>
    obtain ⟨hspecial, -, rfl⟩ | ⟨hspecial, ⟨im, hfound, -, -, rfl⟩ | ⟨hfound, hopen⟩⟩ :=
      loadLibraryEx_cases h
    · exact iff_of_true rfl (.inl hspecial)
    · exact iff_of_true rfl (.inr (.inl ((isLoaded_iff_findLoaded hfound).mpr (by simp))))
    · obtain ⟨hmissing, -, rfl⟩ | ⟨-, -, file, before, after, hopens⟩ := hopen
      · exact iff_of_true rfl (.inr (.inr hmissing))
      · refine iff_of_false (hopens.length_lt hopens.parse_loads).ne' ?_
        rintro (h | h | h)
        · exact hspecial h
        · exact (isLoaded_iff_findLoaded hfound).mp h rfl
        · obtain ⟨nn, hfile⟩ := hopens.opened
          simp [hfile] at h

theorem Loads.available_iff {first : ImageId} {rest : List ImageId} (h : Loads s s')
    (hlen : s'.images.length = s.images.length)
    (hc : IsChain s.images s.sFirstImage (first :: rest)) (name : String) :
    Available sys s' name ↔ Available sys s name := by
  have hc' := h.chain first rest hc
  rw [newImages_eq_nil hlen, List.reverse_nil, List.nil_append] at hc'
  have hloaded : IsLoaded s' name ↔ IsLoaded s name := by
    rw [isLoaded_iff hc', isLoaded_iff hc]
    refine exists_congr fun im => and_congr_right fun him => ?_
    rw [h.paths im (hc.lt_length im him)]
  unfold Available
  rw [hloaded]

theorem parseLoadCommand_idle_iff {this : ImageId} {l l' : ParseLocals} {cmd : LoadCommand}
    (h : parseLoadCommand (loadLibrary sys fuel) this s l cmd = done (s', l')) :
    s'.images.length = s.images.length ↔
      ∀ kind name, cmd.dylib? = some (kind, name) → Available sys s name := by
  obtain ⟨hcmd, f, -, -, rfl⟩ | ⟨kind, name, dep, s1, hcmd, hdep, rfl⟩ := parseLoadCommand_cases h
  · simp [length_modify, hcmd]
  · obtain ⟨al, hload⟩ := loadLibrary_eq_done.mp hdep
    rw [length_modify, loadLibraryEx_idle_iff hload, hcmd]
    simp

theorem mem_dylibNames_cons {cmd : LoadCommand} {commands : List LoadCommand} {name : String} :
    name ∈ dylibNames (cmd :: commands) ↔
      (∃ kind, cmd.dylib? = some (kind, name)) ∨ name ∈ dylibNames commands := by
  unfold dylibNames
  rw [List.filterMap_cons]
  cases cmd.dylib? with
  | none => simp
  | some dylib =>
    simp only [List.map_cons, List.mem_cons, Option.some.injEq]
    refine or_congr_left ⟨?_, ?_⟩
    · rintro rfl
      exact ⟨dylib.1, rfl⟩
    · rintro ⟨kind, rfl⟩
      rfl

theorem parseLoop_idle_iff {this : ImageId} {commands : List LoadCommand} {l l' : ParseLocals}
    {first : ImageId} {rest : List ImageId}
    (hc : IsChain s.images s.sFirstImage (first :: rest))
    (h : parseLoop (loadLibrary sys fuel) this commands s l = done (s', l')) :
    s'.images.length = s.images.length ↔ ∀ name ∈ dylibNames commands, Available sys s name := by
  induction commands generalizing s l with
  | nil =>
    obtain ⟨rfl, -⟩ := by simpa [parseLoop] using h
    simp [dylibNames]
  | cons cmd commands ih =>
    obtain ⟨⟨s1, l1⟩, hcmd, h⟩ := bind_eq_done.mp h
    have hload : ∀ name s r s', loadLibrary sys fuel name s = done (r, s') → LoadsRebased s s' :=
      fun _ _ _ _ hload => loadLibrary_loads hload
    have hstep := (parseLoadCommand_loads hload hcmd).1
    have hrest := (parseLoop_loads hload h).1.length
    simp only [mem_dylibNames_cons, or_imp, forall_and, forall_exists_index]
    rw [forall_comm, ← parseLoadCommand_idle_iff hcmd]
    by_cases hlen : s1.images.length = s.images.length
    · have hc1 := hstep.chain first rest hc
      rw [newImages_eq_nil hlen] at hc1
      rw [← hlen, ih hc1 h]
      simp only [hstep.available_iff hlen hc, true_and]
    · have := hstep.length
      exact iff_of_false (by omega) fun hall => hlen hall.1

theorem Inserted.available_iff {path : String} (h : Inserted s s' path) {first : ImageId}
    {rest : List ImageId} (hc : IsChain s.images s.sFirstImage (first :: rest)) (name : String) :
    Available sys s' name ↔ name = path ∨ Available sys s name := by
  have hc' := h.loads.chain first rest hc
  have hids : newImages s s' = [s.images.length] := by simp [newImages, h.length]
  rw [hids] at hc'
  have hloaded : IsLoaded s' name ↔ name = path ∨ IsLoaded s name := by
    rw [isLoaded_iff hc', isLoaded_iff hc]
    have hmem : ∀ im, im ∈ first :: ([s.images.length].reverse ++ rest) ↔
        im = s.images.length ∨ im ∈ first :: rest := by
      intro im
      simp only [List.reverse_singleton, List.singleton_append, List.mem_cons]
      tauto
    constructor
    · rintro ⟨im, him, hpath⟩
      rcases (hmem im).mp him with rfl | him
      · rw [h.path] at hpath
        exact .inl (Option.some.inj hpath).symm
      · rw [h.loads.paths im (hc.lt_length im him)] at hpath
        exact .inr ⟨im, him, hpath⟩
    · rintro (rfl | ⟨im, him, hpath⟩)
      · exact ⟨s.images.length, (hmem _).mpr (.inl rfl), h.path⟩
      · refine ⟨im, (hmem im).mpr (.inr him), ?_⟩
        rw [h.loads.paths im (hc.lt_length im him), hpath]
  unfold Available
  rw [hloaded]
  tauto

/-- **A load that opens a file makes one image** if and only if all its libraries are there. -/
theorem Opens.alone_iff {path : String} {file : File} {before after : Linker}
    (h : Opens sys fuel path s s' file before after) {first : ImageId} {rest : List ImageId}
    (hc : IsChain s.images s.sFirstImage (first :: rest)) :
    newImages s s' = [s.images.length] ↔
      ∀ name ∈ dylibNames file.commands, name = path ∨ Available sys s name := by
  obtain ⟨s1, l1, hloop, hlen, -, -⟩ := parseLoadCommands_eq_done h.parsed
  rw [(h.loadsRebased h.parse_loads).1]
  simp only [← h.inserted.available_iff hc]
  rw [← parseLoop_idle_iff (h.inserted.loads.chain first rest hc) hloop, hlen]
  have hgrow := h.parse_loads.1.length
  unfold newImages
  simp
  omega

/-! ## What holds between two calls -/

/-- The chain begins with the linker and ends, and only images have been worked on. -/
structure Valid (s : Linker) : Prop where
  chain : ∃ first rest, IsChain s.images s.sFirstImage (first :: rest)
  dylinker : s.sDylinker = s.sFirstImage
  events : ∀ e ∈ s.trace, e.image < s.images.length

theorem Rebased.events {ids : List ImageId} (h : Rebased s s' ids)
    (hs : ∀ e ∈ s.trace, e.image < s'.images.length) (hids : ∀ im ∈ ids, im < s'.images.length) :
    ∀ e ∈ s'.trace, e.image < s'.images.length := by
  obtain ⟨events, htrace, hperm⟩ := h
  intro e he
  rw [htrace, List.mem_append] at he
  rcases he with he | he
  · exact hs e he
  · obtain ⟨im, him, rfl⟩ := List.mem_map.mp (hperm.mem_iff.mp he)
    exact hids im him

theorem Valid.loads (h : Valid s) (hload : LoadsRebased s s') : Valid s' := by
  obtain ⟨first, rest, hc⟩ := h.chain
  refine ⟨⟨first, _, hload.1.chain first rest hc⟩, ?_, ?_⟩
  · rw [hload.1.dylinker, hload.1.first, h.dylinker]
  · exact hload.2.events (fun e he => (h.events e he).trans_le hload.1.length)
      fun im him => (mem_newImages.mp him).2

/-- Between `s` and `s'` there has been work on `im` that leaves the links alone. -/
structure Works (s s' : Linker) (im : ImageId) (events : List Event) : Prop where
  length : s'.images.length = s.images.length
  first : s'.sFirstImage = s.sFirstImage
  dylinker : s'.sDylinker = s.sDylinker
  links : ∀ j, nextLink s' j = nextLink s j
  paths : ∀ j, origPath s' j = origPath s j
  reExports : ∀ j, reExports s' j = reExports s j
  trace : s'.trace = s.trace ++ events
  image : ∀ e ∈ events, e.image = im

theorem Works.trans {im : ImageId} {events events' : List Event} (h : Works s s' im events)
    (h' : Works s' s'' im events') : Works s s'' im (events ++ events') where
  length := h'.length.trans h.length
  first := h'.first.trans h.first
  dylinker := h'.dylinker.trans h.dylinker
  links j := (h'.links j).trans (h.links j)
  paths j := (h'.paths j).trans (h.paths j)
  reExports j := (h'.reExports j).trans (h.reExports j)
  trace := by rw [h'.trace, h.trace, List.append_assoc]
  image e he := (List.mem_append.mp he).elim (h.image e) (h'.image e)

theorem doBindSymbols_works {im : ImageId} (h : doBindSymbols sys s im = done s') :
    Works s s' im [.bind im] := by
  obtain ⟨⟨mem, count⟩, -, h⟩ := bind_eq_done.mp h
  obtain rfl := done.inj h
  exact ⟨rfl, rfl, rfl, fun _ => rfl, fun _ => rfl, fun _ => rfl, rfl, by simp [Event.image]⟩

theorem doInitialize_works {im : ImageId} (h : doInitialize s im = done s') :
    im < s.images.length ∧ initializedFlag s' im = some true ∧
      ∃ events, Works s s' im events ∧ ∀ e ∈ events, e ≠ .bind im ∧ e ≠ .rebase im := by
  obtain ⟨obj, hobj, ⟨hflag, rfl⟩ | ⟨-, rfl⟩⟩ := doInitialize_eq_done h
  · refine ⟨(List.getElem?_eq_some_iff.mp hobj).1, ?_, [], ?_, by simp⟩
    · rw [initializedFlag, hobj, Option.map_some, hflag]
    · exact ⟨rfl, rfl, rfl, fun _ => rfl, fun _ => rfl, fun _ => rfl, by simp, by simp⟩
  · refine ⟨(List.getElem?_eq_some_iff.mp hobj).1, ?_, initEvents s im, ?_, ?_⟩
    · simp [initializedFlag, hobj, MachObject.setInitialized]
    · exact ⟨length_modify _ _ _, rfl, rfl, fun j => nextLink_modify s im j fun _ => rfl,
        fun j => origPath_modify s im j fun _ => rfl, fun j => reExports_modify s im j fun _ => rfl,
        rfl, fun e he => image_of_mem_initEvents he⟩
    · intro e he
      simp only [initEvents, hobj, List.cons_append, List.mem_cons, List.mem_append, List.mem_map,
        List.not_mem_nil, or_false] at he
      rcases he with rfl | ⟨fn, -, rfl⟩ | rfl <;> simp

theorem Valid.work (h : Valid s) {im : ImageId} (him : im < s.images.length) {events : List Event}
    (hwork : Works s s' im events) : Valid s' := by
  obtain ⟨first, rest, hc⟩ := h.chain
  refine ⟨⟨first, rest, ?_⟩, by rw [hwork.dylinker, hwork.first, h.dylinker], fun e he => ?_⟩
  · rw [hwork.first]
    exact hc.congr fun j _ => hwork.links j
  · rw [hwork.trace, List.mem_append] at he
    rw [hwork.length]
    rcases he with he | he
    · exact h.events e he
    · rwa [hwork.image e he]

theorem Valid.initializes (h : Valid s) {im : ImageId} (hinit : doInitialize s im = done s') :
    Valid s' := by
  obtain ⟨him, -, events, hwork, -⟩ := doInitialize_works hinit
  exact h.work him hwork

theorem Valid.bindAll (h : Valid s) {chain : List ImageId}
    (hchain : ∀ im ∈ chain, im < s.images.length) (hbind : Lnk.bindAll sys chain s = done s') :
    Valid s' ∧ s'.images.length = s.images.length := by
  refine bindAll_preserves (P := fun t => Valid t ∧ t.images.length = s.images.length)
    (fun im him t t' ht hstep => ?_) ⟨h, rfl⟩ hbind
  have hwork := doBindSymbols_works hstep
  exact ⟨ht.1.work (ht.2 ▸ hchain im him) hwork, hwork.length.trans ht.2⟩

/-- A call that opens its file, up to its end. -/
structure Completes (sys : System) (path : String) (s s' : Linker) (file : File)
    (loaded : Linker) : Prop where
  opens : ∃ fuel before after, Opens sys fuel path s loaded file before after
  ends : ∃ bound, doBindSymbols sys loaded s.images.length = done bound ∧
    doInitialize bound s.images.length = done s'

theorem dlopen_cases (h : Valid s) {path : String} {handle : Option ImageId}
    (hopen : dlopen sys fuel path s = done (handle, s')) :
    (s' = s ∧ (handle ≠ none → IsLoaded s path)) ∨
      (handle = some s.images.length ∧ ¬ IsLoaded s path ∧
        ∃ file loaded, Completes sys path s s' file loaded) := by
  obtain ⟨⟨dlib, al, s1⟩, hload, hrest⟩ := bind_eq_done.mp hopen
  dsimp only at hrest
  cases fuel with
  | zero => simp [loadLibraryEx] at hload
  | succ fuel =>
    obtain ⟨-, rfl, rfl⟩ | ⟨hspecial, ⟨im, hfound, rfl, rfl, rfl⟩ | ⟨hfound,
      ⟨-, rfl, rfl⟩ | ⟨rfl, rfl, file, before, after, hopens⟩⟩⟩ := loadLibraryEx_cases hload
    · rw [if_pos rfl] at hrest
      obtain ⟨rfl, rfl⟩ := by simpa using hrest
      exact .inl ⟨rfl, by simp⟩
    · have hloaded := (isLoaded_iff_findLoaded hfound).mpr (by simp)
      split at hrest
      · obtain ⟨rfl, rfl⟩ := by simpa using hrest
        exact .inl ⟨rfl, by simp⟩
      · rw [if_pos rfl] at hrest
        obtain ⟨rfl, rfl⟩ := by simpa using hrest
        exact .inl ⟨rfl, fun _ => hloaded⟩
    · rw [if_pos h.dylinker] at hrest
      obtain ⟨rfl, rfl⟩ := by simpa using hrest
      exact .inl ⟨rfl, by simp⟩
    · have hnotfirst : some s.images.length ≠ s1.sFirstImage := by
        obtain ⟨first, rest, hc⟩ := h.chain
        rw [(loadLibraryEx_loads hload).1.first, hc.1]
        exact fun heq => (hc.lt_length first (by simp)).ne' (Option.some.inj heq)
      rw [if_neg hnotfirst, if_neg (by simp), ofOption_some, done_bind] at hrest
      obtain ⟨bound, hbind, hrest⟩ := bind_eq_done.mp hrest
      obtain ⟨s2, hinit, hrest⟩ := bind_eq_done.mp hrest
      obtain ⟨rfl, rfl⟩ := by simpa using hrest
      have hnot : ¬ IsLoaded s path :=
        fun hloaded => (isLoaded_iff_findLoaded hfound).mp hloaded rfl
      refine .inr ⟨rfl, hnot, file, s1, ?_⟩
      exact ⟨⟨fuel, before, after, hopens⟩, bound, hbind, hinit⟩

theorem Valid.dlopen (h : Valid s) {path : String} {handle : Option ImageId}
    (hopen : dlopen sys fuel path s = done (handle, s')) : Valid s' := by
  obtain ⟨rfl, -⟩ | ⟨-, -, file, loaded, ⟨fuel, before, after, hopens⟩, bound, hbind, hinit⟩ :=
    dlopen_cases h hopen
  · exact h
  · have h1 := h.loads (hopens.loadsRebased hopens.parse_loads).2
    have h2 := h1.work (hopens.length_lt hopens.parse_loads) (doBindSymbols_works hbind)
    exact h2.initializes hinit

theorem Valid.first (hload : LoadsRebased s s') (hs : nextLink s 0 = some none)
    (hlen : 0 < s.images.length) (hfirst : s.sFirstImage = none) (hdylinker : s.sDylinker = some 0)
    (htrace : s.trace = []) (count : Word) :
    Valid { s' with sImageCount := count, sFirstImage := some 0 } := by
  have hlink : nextLink s' 0 = some none := by
    rw [hload.1.links 0 hlen (by simp [hfirst]), hs]
  obtain ⟨obj, hobj, hnext⟩ := Option.map_eq_some_iff.mp hlink
  refine ⟨⟨0, [], rfl, obj, hobj, hnext⟩, hload.1.dylinker.trans hdylinker, ?_⟩
  exact hload.2.events (by simp [htrace]) fun im him => (mem_newImages.mp him).2

theorem Valid.aux (h : Valid s) {paths : List String}
    (hload : loadAuxiliarySystemLibraries sys fuel paths s = done s') : Valid s' := by
  refine loadAuxiliarySystemLibraries_preserves (fun path _ t r t' ht hpath => ?_) h hload
  have h1 := ht.loads (loadLibrary_loads hpath)
  exact ⟨h1.chain, h1.dylinker, h1.events⟩

theorem Valid.main (h : Valid s) (obj : MachObject) (main : Option ImageId) :
    Valid { s with images := s.images ++ [obj], sMainExecutable := main } := by
  obtain ⟨first, rest, hc⟩ := h.chain
  refine ⟨⟨first, rest, hc.congr fun im him => ?_⟩, h.dylinker, fun e he => ?_⟩
  · show Option.map _ (s.images ++ [obj])[im]? = _
    rw [List.getElem?_append_left (hc.lt_length im him)]
  · show e.image < (s.images ++ [obj]).length
    rw [List.length_append]
    exact (h.events e he).trans_le (Nat.le_add_right _ _)

theorem startupLoads_valid {mem : Mem} {main : ImageId}
    (h : startupLoads sys fuel mem = done (main, s)) : Valid s := by
  have hload : ∀ name s r s', loadLibrary sys fuel name s = done (r, s') → LoadsRebased s s' :=
    fun _ _ _ _ hload => loadLibrary_loads hload
  obtain ⟨s1, s2, s3, cas, s4, chain, s5, hdylinker, haux, hmain, hcas, hc, hbind, hbindmain,
    rfl⟩ := startupLoads_eq_done h
  have h1 := Valid.first (parseLoadCommands_loads hload hdylinker) rfl Nat.one_pos rfl rfl rfl
    (s1.sImageCount + 1)
  have h2 := h1.aux haux
  have hparse := parseLoadCommands_loads hload hmain
  have h3 := (h2.main _ _).loads hparse
  have hcas := loadLibrary_loads hcas
  have h4 := h3.loads hcas
  have hlt : s2.images.length < s4.images.length := by
    refine Nat.lt_of_lt_of_le ?_ (hparse.1.length.trans hcas.1.length)
    simp
  obtain ⟨h5, hlen⟩ := h4.bindAll (Linker.imageChain_eq_done.mp hc).lt_length hbind
  exact h5.work (hlen ▸ hlt) (doBindSymbols_works hbindmain)

theorem startup_valid {garbage : Bool} {mem : Mem} (h : startup sys fuel garbage mem = done s) :
    Valid s :=
  startup_preserves (fun _ _ _ hs hinit => hs.initializes hinit)
    (fun _ _ hloads => startupLoads_valid hloads) h

theorem Session.valid (h : Session sys s) : Valid s := by
  induction h with
  | startup h => exact startup_valid h
  | dlopen _ h ih => exact ih.dlopen h

/-! ## The closure -/

/-- The images have been rebased, bound and initialized, and were all bound before any of their
initializers ran. -/
structure Completed (s : Linker) (added : ImageId → Prop) : Prop where
  rebased : ∀ im, added im → s.trace.count (.rebase im) = 1
  bound : ∀ im, added im → s.trace.count (.bind im) = 1
  initialized : ∀ im, added im → initializedFlag s im = some true
  bound_first : ∀ im fn before after, added im →
    s.trace = before ++ .callInitializer im fn :: after → ∀ j, added j → .bind j ∈ before

theorem Completed.of_none {added : ImageId → Prop} (h : ∀ im, ¬ added im) : Completed s added where
  rebased im him := absurd him (h im)
  bound im him := absurd him (h im)
  initialized im him := absurd him (h im)
  bound_first im _ _ _ him := absurd him (h im)

theorem mem_before_of_not_mem {α : Type} {a b before after : List α} {e x : α}
    (h : a ++ b = before ++ e :: after) (he : e ∉ a) (hx : x ∈ a) : x ∈ before := by
  rcases List.append_eq_append_iff.mp h with ⟨c, rfl, -⟩ | ⟨c, rfl, hc⟩
  · simp [hx]
  · cases c with
    | nil => simpa using hx
    | cons d c =>
      obtain ⟨rfl, -⟩ := List.cons_eq_cons.mp hc
      simp at he

/-- What a call that opens its file leaves behind. -/
structure Outcomes (s s' : Linker) (ids : List ImageId) : Prop where
  chain : ∀ first rest, IsChain s.images s.sFirstImage (first :: rest) →
    IsChain s'.images s'.sFirstImage (first :: (ids.reverse ++ rest))
  fresh : ∀ im ∈ ids, s.images.length ≤ im
  flag : initializedFlag s' s.images.length = some true
  trace : ∃ rebases inits, s'.trace = (s.trace ++ rebases ++ [.bind s.images.length]) ++ inits ∧
    rebases.Perm (ids.map .rebase) ∧ ∀ e ∈ inits, e.image = s.images.length ∧
      e ≠ .bind s.images.length ∧ e ≠ .rebase s.images.length

theorem Completes.outcomes {path : String} {file : File} {loaded : Linker}
    (h : Completes sys path s s' file loaded) : Outcomes s s' (newImages s loaded) := by
  obtain ⟨⟨fuel, before, after, hopens⟩, bound, hbind, hinit⟩ := h
  have hload := (hopens.loadsRebased hopens.parse_loads).2
  have hwork := doBindSymbols_works hbind
  obtain ⟨-, hflag, inits, hwork', hinits⟩ := doInitialize_works hinit
  have hall := hwork.trans hwork'
  refine ⟨fun first rest hc => ?_, fun im him => (mem_newImages.mp him).1, hflag, ?_⟩
  · rw [hall.first]
    exact (hload.1.chain first rest hc).congr fun j _ => hall.links j
  · obtain ⟨rebases, htrace, hperm⟩ := hload.2
    refine ⟨rebases, inits, ?_, hperm, fun e he => ⟨hwork'.image e he, hinits e he⟩⟩
    rw [hall.trace, htrace, ← List.append_assoc]

theorem Outcomes.completed_iff {others : List ImageId}
    (h : Outcomes s s' (s.images.length :: others)) (hs : Valid s)
    (hnodup : (s.images.length :: others).Nodup) :
    Completed s' (· ∈ s.images.length :: others) ↔ others = [] := by
  obtain ⟨rebases, inits, htrace, hperm, hinits⟩ := h.trace
  have hold : ∀ e : Event, s.images.length ≤ e.image → e ∉ s.trace :=
    fun e hle he => absurd (hs.events e he) (Nat.not_lt.mpr hle)
  have hrebases : ∀ e ∈ rebases, ∃ im, e = .rebase im := by
    intro e he
    obtain ⟨im, -, heq⟩ := List.mem_map.mp (hperm.mem_iff.mp he)
    exact ⟨im, heq.symm⟩
  constructor
  · intro hcompleted
    refine List.eq_nil_iff_forall_not_mem.mpr fun im him => ?_
    have hne : im ≠ s.images.length := fun heq => (List.nodup_cons.mp hnodup).1 (heq ▸ him)
    have hmem : Event.bind im ∈ s'.trace :=
      List.count_pos_iff.mp (by rw [hcompleted.bound im (by simp [him])]; exact Nat.one_pos)
    rw [htrace] at hmem
    simp only [List.mem_append, List.mem_singleton] at hmem
    rcases hmem with ((hmem | hmem) | hmem) | hmem
    · exact hold (.bind im) (h.fresh im (by simp [him])) hmem
    · obtain ⟨j, hj⟩ := hrebases _ hmem
      simp at hj
    · exact hne (by simpa using hmem)
    · exact hne (hinits _ hmem).1
  · rintro rfl
    have hnone : ∀ l : List Event, (∀ e ∈ l, e ≠ .bind s.images.length ∧
        e ≠ .rebase s.images.length) → l.count (.bind s.images.length) = 0 ∧
          l.count (.rebase s.images.length) = 0 := fun l hl =>
      ⟨List.count_eq_zero.mpr fun he => (hl _ he).1 rfl,
        List.count_eq_zero.mpr fun he => (hl _ he).2 rfl⟩
    obtain rfl : rebases = [.rebase s.images.length] := List.perm_singleton.mp hperm
    have htraced := hnone s.trace fun e he =>
      ⟨fun heq => hold e (by simp [heq, Event.image]) he,
        fun heq => hold e (by simp [heq, Event.image]) he⟩
    have hinited := hnone inits fun e he => (hinits e he).2
    constructor
    · intro im him
      obtain rfl := List.mem_singleton.mp him
      simp [htrace, List.count_append, htraced.2, hinited.2]
    · intro im him
      obtain rfl := List.mem_singleton.mp him
      simp [htrace, List.count_append, htraced.1, hinited.1]
    · intro im him
      obtain rfl := List.mem_singleton.mp him
      exact h.flag
    · intro im fn before after him hsplit j hj
      obtain rfl := List.mem_singleton.mp him
      obtain rfl := List.mem_singleton.mp hj
      rw [htrace] at hsplit
      refine mem_before_of_not_mem hsplit ?_ (by simp)
      have := hold (.callInitializer s.images.length fn) (Nat.le_refl _)
      simpa using this

/-- **When `dlopen` completes what it loads.** The library has been loaded before, or each library
that it names is there already, is the library itself, or cannot be opened. -/
theorem dlopen_completes_iff (hs : Session sys s) {path : String} {im : ImageId}
    (h : dlopen sys fuel path s = done (some im, s')) :
    ∃ chain chain', s.imageChain = done chain ∧ s'.imageChain = done chain' ∧
      (Completed s' (fun im => im ∈ chain' ∧ im ∉ chain) ↔
        IsLoaded s path ∨ ∀ nn file, openLibrary sys path = some (nn, file) →
          ∀ name ∈ dylibNames file.commands, name = path ∨ Available sys s name) := by
  have hvalid := hs.valid
  obtain ⟨first, rest, hc⟩ := hvalid.chain
  rcases dlopen_cases hvalid h with ⟨rfl, hloaded⟩ | ⟨-, hnot, file, loaded, hcompletes⟩
  · have hchain := Linker.imageChain_eq_done.mpr hc
    refine ⟨_, _, hchain, hchain, iff_of_true ?_ (.inl (hloaded (by simp)))⟩
    exact .of_none fun im him => him.2 him.1
  · have hout := hcompletes.outcomes
    obtain ⟨⟨fuel, before, after, hopens⟩, -⟩ := hcompletes
    have hc' := hout.chain first rest hc
    refine ⟨_, _, Linker.imageChain_eq_done.mpr hc, Linker.imageChain_eq_done.mpr hc', ?_⟩
    have hids := (hopens.loadsRebased hopens.parse_loads).1
    have hadded : ∀ im, (im ∈ first :: ((newImages s loaded).reverse ++ rest) ∧
        im ∉ first :: rest) ↔ im ∈ s.images.length :: newImages before after := by
      intro im
      rw [← hids]
      constructor
      · rintro ⟨him, hnew⟩
        simp only [List.mem_cons, List.mem_append, List.mem_reverse] at him hnew
        tauto
      · intro him
        refine ⟨by simp [him], fun hmem => ?_⟩
        exact absurd (hc.lt_length im hmem) (Nat.not_lt.mpr (hout.fresh im him))
    rw [show (fun im => im ∈ first :: ((newImages s loaded).reverse ++ rest) ∧ im ∉ first :: rest) =
      (· ∈ s.images.length :: newImages before after) from funext fun im => propext (hadded im)]
    have hnodup : (newImages s loaded).Nodup := List.nodup_range'
    have halone := hopens.alone_iff hc
    rw [hids] at hout hnodup halone
    rw [hout.completed_iff hvalid hnodup]
    obtain ⟨nn, hfile⟩ := hopens.opened
    constructor
    · intro hnil
      refine .inr fun nn' file' hfile' => ?_
      obtain ⟨rfl, rfl⟩ : nn = nn' ∧ file = file' := by simpa [hfile] using hfile'
      exact halone.mp (by rw [hnil])
    · rintro (hloaded | hall)
      · exact absurd hloaded hnot
      · simpa using halone.mpr (hall nn file hfile)

/-- `/A` needs `/B`. -/
def pairSystem : System :=
  plainSystem [("/A", plainLibrary [(.load, "/B")]), ("/B", plainLibrary [])]

theorem pairSystem_started : Session pairSystem (started pairSystem) :=
  .startup (rfl : startup pairSystem 1 false (fun _ => 0) = done (started pairSystem))

theorem dlopen_completes_pair :
    ∃ chain chain', (started pairSystem).imageChain = done chain ∧
      (opened pairSystem "/B").imageChain = done chain' ∧
      (Completed (opened pairSystem "/B") (fun im => im ∈ chain' ∧ im ∉ chain) ↔
        IsLoaded (started pairSystem) "/B" ∨
          ∀ nn file, openLibrary pairSystem "/B" = some (nn, file) →
            ∀ name ∈ dylibNames file.commands,
              name = "/B" ∨ Available pairSystem (started pairSystem) name) :=
  dlopen_completes_iff pairSystem_started
    (rfl : dlopen pairSystem 3 "/B" (started pairSystem) = done (some 2, opened pairSystem "/B"))

/-- After `dlopen("/A")` the chain holds `/B`, which has not been bound. -/
theorem dlopen_not_complete :
    Session pairSystem (started pairSystem) ∧
      dlopen pairSystem 3 "/A" (started pairSystem) = done (some 2, opened pairSystem "/A") ∧
      (started pairSystem).imageChain = done [0] ∧
      (opened pairSystem "/A").imageChain = done [0, 3, 2] ∧
      ¬ Completed (opened pairSystem "/A") fun im => im ∈ [0, 3, 2] ∧ im ∉ [0] := by
  refine ⟨pairSystem_started, rfl, by decide, by decide, fun h => ?_⟩
  exact absurd (h.bound 3 (by decide)) (by decide)

end LibSystem.Lnk
