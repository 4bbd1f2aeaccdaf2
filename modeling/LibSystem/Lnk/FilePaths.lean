import LibSystem.Lnk.Chain

/-!
# Names and files

`loadLibraryEx` tells libraries apart by the name that is asked for, and finds the file of a
name by trying three prefixes.
-/

namespace LibSystem.Lnk

open Outcome

/-- The names that a run asks for: the given ones, and those in the files that it opens. -/
inductive Asked (sys : System) (roots : List String) : String → Prop where
  | root {name : String} (h : name ∈ roots) : Asked sys roots name
  | needed {path nn name : String} {file : File} (h : Asked sys roots path)
      (hspecial : ¬ (path = libsystemPath ∨ path = libgccPath))
      (hopen : openLibrary sys path = some (nn, file)) (hname : name ∈ dylibNames file.commands) :
      Asked sys roots name

/-- No two images of the chain come from the same file. -/
def FilesDistinct (s : Linker) : Prop :=
  ∃ chain, s.imageChain = done chain ∧ ∀ im ∈ chain, ∀ im' ∈ chain, ∀ nn,
    filePath s im = some nn → filePath s im' = some nn → im = im'

/-- No two names that are asked for are completed to the same path. -/
def NamesDistinct (sys : System) (roots : List String) : Prop :=
  ∀ a b nn file, Asked sys roots a → Asked sys roots b →
    ¬ (a = libsystemPath ∨ a = libgccPath) → ¬ (b = libsystemPath ∨ b = libgccPath) →
    openLibrary sys a = some (nn, file) → openLibrary sys b = some (nn, file) → a = b

variable {sys : System} {roots : List String} {fuel : Nat} {s s' : Linker}

theorem asked_closed (sys : System) (roots : List String) : DepsClosed sys (Asked sys roots) :=
  fun _ _ _ hpath hspecial hopen _ hname => .needed hpath hspecial hopen hname

theorem openLibrary_files {path nn : String} {file : File}
    (h : openLibrary sys path = some (nn, file)) : sys.files nn = some file := by
  obtain ⟨pre, -, hpre⟩ := List.exists_of_findSome?_eq_some h
  obtain ⟨found, hfound, heq⟩ := Option.map_eq_some_iff.mp hpre
  obtain ⟨rfl, rfl⟩ := Prod.mk.inj heq
  exact hfound

theorem Chained.filesDistinct {first : ImageId} {rest : List ImageId}
    (h : Chained sys (Asked sys roots) s first rest) (hnames : NamesDistinct sys roots) :
    FilesDistinct s := by
  refine ⟨_, Linker.imageChain_eq_done.mpr h.chain, fun im him im' him' nn hfile hfile' => ?_⟩
  have hrest : ∀ j ∈ first :: rest, filePath s j = some nn → j ∈ rest := by
    intro j hj hnn
    rcases List.mem_cons.mp hj with rfl | hj
    · simp [h.linker.2] at hnn
    · exact hj
  have hnodup := h.distinct
  replace him := hrest im him hfile
  replace him' := hrest im' him' hfile'
  obtain ⟨a, nn1, file, ha, hnn1, hopen, hasked, hspecial⟩ := h.names im him
  obtain ⟨b, nn2, file', hb, hnn2, hopen', hasked', hspecial'⟩ := h.names im' him'
  obtain rfl : nn1 = nn := Option.some.inj (hnn1.symm.trans hfile)
  obtain rfl : nn2 = nn1 := Option.some.inj (hnn2.symm.trans hfile')
  obtain rfl : file = file' :=
    Option.some.inj ((openLibrary_files hopen).symm.trans (openLibrary_files hopen'))
  obtain rfl := hnames a b nn2 file hasked hasked' hspecial hspecial' hopen hopen'
  exact List.inj_on_of_nodup_map hnodup him him' (ha.trans hb.symm)

/-! ## What a finished load leaves -/

/-- The libraries that an image names need not be loaded any more. -/
def NeedsMet (sys : System) (s : Linker) (im : ImageId) : Prop :=
  ∀ path nn file, origPath s im = some path → openLibrary sys path = some (nn, file) →
    ∀ name ∈ dylibNames file.commands, Available sys s name

theorem Available.mono {chain chain' : List ImageId} {name : String} (h : Available sys s name)
    (hc : IsChain s.images s.sFirstImage chain) (hc' : IsChain s'.images s'.sFirstImage chain')
    (hsub : chain ⊆ chain') (hpath : ∀ im ∈ chain, origPath s' im = origPath s im) :
    Available sys s' name := by
  rcases h with h | h | h
  · exact .inl h
  · exact .inr (.inl (h.mono hc hc' hsub hpath))
  · exact .inr (.inr h)

/-- Nothing that is needed for the given names is missing in the chain. -/
structure Complete (sys : System) (names : List String) (s : Linker) (l : List ImageId) :
    Prop where
  chain : IsChain s.images s.sFirstImage l
  available : ∀ name ∈ names, Available sys s name
  met : ∀ im ∈ l, NeedsMet sys s im

/-- What a load leaves in the chain that was `first :: rest`. -/
structure Fetches (sys : System) (names : List String) (s s' : Linker) : Prop where
  loads : Loads s s'
  available : ∀ name ∈ names, Available sys s' name
  met : ∀ im ∈ newImages s s', NeedsMet sys s' im

section Growing

variable {first : ImageId} {rest : List ImageId}
  (hc : IsChain s.images s.sFirstImage (first :: rest))

include hc

theorem Loads.available (h : Loads s s') {name : String} (hname : Available sys s name) :
    Available sys s' name := by
  rcases hname with hname | hname | hname
  · exact .inl hname
  · exact .inr (.inl (h.isLoaded hc hname))
  · exact .inr (.inr hname)

theorem Loads.needsMet (h : Loads s s') {im : ImageId} (him : im < s.images.length)
    (hmet : NeedsMet sys s im) : NeedsMet sys s' im := by
  intro path nn file hpath hopen name hname
  rw [h.paths im him] at hpath
  exact h.available hc (hmet path nn file hpath hopen name hname)

theorem Fetches.append {s'' : Linker} {names names' : List String} (h : Fetches sys names s s')
    (h' : Fetches sys names' s' s'') : Fetches sys (names ++ names') s s'' := by
  have hc' := h.loads.chain first rest hc
  refine ⟨h.loads.trans h'.loads, fun name hname => ?_, fun im him => ?_⟩
  · rcases List.mem_append.mp hname with hname | hname
    · exact h'.loads.available hc' (h.available name hname)
    · exact h'.available name hname
  · rw [newImages_append h.loads.length h'.loads.length, List.mem_append] at him
    rcases him with him | him
    · exact h'.loads.needsMet hc' (mem_newImages.mp him).2 (h.met im him)
    · exact h'.met im him

omit hc in
theorem Loads.fetches (h : Loads s s') (hlen : s'.images.length = s.images.length) :
    Fetches sys [] s s' :=
  ⟨h, by simp, by simp [newImages_eq_nil hlen]⟩

omit hc in
theorem dylibNames_cons (cmd : LoadCommand) (commands : List LoadCommand) :
    dylibNames (cmd :: commands) =
      (cmd.dylib?.map fun dylib => dylib.2).toList ++ dylibNames commands := by
  unfold dylibNames
  rw [List.filterMap_cons]
  cases cmd.dylib? <;> rfl

end Growing

section Parsing

variable {load : String → Linker → Outcome (Option ImageId × Linker)}
  (hload : ∀ name s r s' first rest, IsChain s.images s.sFirstImage (first :: rest) →
    load name s = done (r, s') → Fetches sys [name] s s')

include hload

theorem parseLoop_fetches {this first : ImageId} {rest : List ImageId} {commands : List LoadCommand}
    {l l' : ParseLocals} (hc : IsChain s.images s.sFirstImage (first :: rest))
    (h : parseLoop load this commands s l = done (s', l')) :
    Fetches sys (dylibNames commands) s s' := by
  induction commands generalizing s l rest with
  | nil =>
    obtain ⟨rfl, -⟩ := by simpa [parseLoop] using h
    exact (Loads.refl s).fetches rfl
  | cons cmd commands ih =>
    obtain ⟨⟨s1, l1⟩, hcmd, h⟩ := bind_eq_done.mp h
    have hfirst : Fetches sys (cmd.dylib?.map fun dylib => dylib.2).toList s s1 := by
      obtain ⟨hnone, f, hkeeps, -, rfl⟩ | ⟨kind, name, dep, s2, hdylib, hdep, rfl⟩ :=
        parseLoadCommand_cases hcmd
      · rw [hnone]
        exact (hkeeps.loadsRebased s this).1.fetches (length_modify _ _ _)
      · rw [hdylib]
        have hlast := ((addDependency_keeps kind dep).loadsRebased s2 this).1
        exact (hload name s _ s2 first rest hc hdep).append hc
          (hlast.fetches (length_modify _ _ _))
    rw [dylibNames_cons]
    exact hfirst.append hc (ih (hfirst.loads.chain first rest hc) h)

theorem parseLoadCommands_fetches {this first : ImageId} {rest : List ImageId}
    {commands : List LoadCommand} (hc : IsChain s.images s.sFirstImage (first :: rest))
    (h : parseLoadCommands sys load this commands s = done s') :
    Fetches sys (dylibNames commands) s s' := by
  obtain ⟨s1, l1, hloop, hlen, hrest, -⟩ := parseLoadCommands_eq_done h
  have hparts := (parseLoop_fetches hload hc hloop).append hc (hrest.1.fetches hlen.symm)
  rwa [List.append_nil] at hparts

end Parsing

theorem loadLibraryEx_fetches {path : String} {r : Option ImageId} {al : Option Bool}
    {first : ImageId} {rest : List ImageId} (hc : IsChain s.images s.sFirstImage (first :: rest))
    (h : loadLibraryEx sys fuel path s = done (r, al, s')) : Fetches sys [path] s s' := by
  induction fuel generalizing path s s' r al first rest with
  | zero => simp [loadLibraryEx] at h
  | succ fuel ih =>
    have hidle := loadLibraryEx_idle_iff h
    have hloads := (loadLibraryEx_loads h).1
    obtain ⟨hspecial, -, rfl⟩ | ⟨-, ⟨im, -, -, -, rfl⟩ | ⟨-,
      ⟨-, -, rfl⟩ | ⟨-, -, file, before, after, hopens⟩⟩⟩ := loadLibraryEx_cases h
    · exact ⟨hloads, by simpa using hidle.mp rfl, by simp [newImages_eq_nil rfl]⟩
    · exact ⟨hloads, by simpa using hidle.mp rfl, by simp [newImages_eq_nil rfl]⟩
    · exact ⟨hloads, by simpa using hidle.mp rfl, by simp [newImages_eq_nil rfl]⟩
    · have hload : ∀ name s r s' first rest, IsChain s.images s.sFirstImage (first :: rest) →
          loadLibrary sys fuel name s = done (r, s') → Fetches sys [name] s s' := by
        intro name s r s' first rest hc hload
        obtain ⟨al, hload⟩ := loadLibrary_eq_done.mp hload
        exact ih hc hload
      have hbefore := hopens.inserted.loads.chain first rest hc
      have hparse := parseLoadCommands_fetches hload hbefore hopens.parsed
      obtain ⟨mem, rfl⟩ := doRebase_eq_done hopens.rebased
      have hlast : Loads after ({ after with mem := mem }.record (.rebase s.images.length)) :=
        .of_images rfl rfl rfl
      have hinner := hparse.append hbefore (hlast.fetches rfl)
      rw [List.append_nil] at hinner
      have hnew : origPath before s.images.length = some path := hopens.inserted.path
      have hpath := hinner.loads.paths s.images.length (by rw [hopens.inserted.length]; omega)
      refine ⟨hloads, ?_, ?_⟩
      · -- The image itself is in the chain under this name.
        rw [List.forall_mem_singleton]
        refine .inr (.inl
          ((isLoaded_iff (hloads.chain first rest hc)).mpr ⟨s.images.length, ?_, ?_⟩))
        · rw [(hopens.loadsRebased hopens.parse_loads).1]
          simp
        · exact hpath.trans hnew
      · rw [(hopens.loadsRebased hopens.parse_loads).1]
        intro im him
        rcases List.mem_cons.mp him with rfl | him
        · intro p nn' file' hp hopen' name hname
          obtain ⟨nn, hopen⟩ := hopens.opened
          obtain rfl : path = p := Option.some.inj ((hpath.trans hnew).symm.trans hp)
          obtain ⟨rfl, rfl⟩ : nn = nn' ∧ file = file' := by simpa [hopen] using hopen'
          exact hinner.available name hname
        · exact hinner.met im him

/-! ## Runs -/

variable {names names' : List String} {first : ImageId} {rest l : List ImageId}

theorem Complete.fetches (h : Complete sys names s (first :: rest))
    (h' : Fetches sys names' s s') :
    ∃ rest', Complete sys (names ++ names') s' (first :: rest') := by
  have hc := h.chain
  refine ⟨_, h'.loads.chain first rest hc, fun name hname => ?_, fun im him => ?_⟩
  · rcases List.mem_append.mp hname with hname | hname
    · exact h'.loads.available hc (h.available name hname)
    · exact h'.available name hname
  · have hold : ∀ j ∈ first :: rest, NeedsMet sys s' j :=
      fun j hj => h'.loads.needsMet hc (hc.lt_length j hj) (h.met j hj)
    simp only [List.mem_cons, List.mem_append, List.mem_reverse] at him
    rcases him with rfl | him | him
    · exact hold im (by simp)
    · exact h'.met im him
    · exact hold im (by simp [him])

theorem Complete.of_views (h : Complete sys names s l) (hfirst : s'.sFirstImage = s.sFirstImage)
    (hviews : ∀ im ∈ l, nextLink s' im = nextLink s im ∧ origPath s' im = origPath s im) :
    Complete sys names s' l := by
  have hc' : IsChain s'.images s'.sFirstImage l := by
    rw [hfirst]
    exact h.chain.congr fun im him => (hviews im him).1
  have hmono : ∀ name, Available sys s name → Available sys s' name :=
    fun name hname => hname.mono h.chain hc' (List.Subset.refl l) fun im him => (hviews im him).2
  refine ⟨hc', fun name hname => hmono name (h.available name hname), ?_⟩
  intro im him path nn file hpath hopen name hname
  rw [(hviews im him).2] at hpath
  exact hmono name (h.met im him path nn file hpath hopen name hname)

theorem Complete.work {im : ImageId} {events : List Event} (h : Complete sys names s l)
    (hwork : Works s s' im events) : Complete sys names s' l :=
  h.of_views hwork.first fun j _ => ⟨hwork.links j, hwork.paths j⟩

theorem Complete.initializes {im : ImageId} (h : Complete sys names s l)
    (hinit : doInitialize s im = done s') : Complete sys names s' l := by
  obtain ⟨-, -, events, hwork, -⟩ := doInitialize_works hinit
  exact h.work hwork

theorem Complete.bindAll {chain : List ImageId} (h : Complete sys names s l)
    (hbind : Lnk.bindAll sys chain s = done s') : Complete sys names s' l :=
  bindAll_preserves (P := fun t => Complete sys names t l)
    (fun _ _ _ _ ht him => ht.work (doBindSymbols_works him)) h hbind

theorem loadLibrary_fetches {path : String} {r : Option ImageId}
    (hc : IsChain s.images s.sFirstImage (first :: rest))
    (h : loadLibrary sys fuel path s = done (r, s')) : Fetches sys [path] s s' := by
  obtain ⟨al, h⟩ := loadLibrary_eq_done.mp h
  exact loadLibraryEx_fetches hc h

theorem loadAuxiliarySystemLibraries_fetches {paths : List String}
    (hc : IsChain s.images s.sFirstImage (first :: rest))
    (h : loadAuxiliarySystemLibraries sys fuel paths s = done s') : Fetches sys paths s s' := by
  induction paths generalizing s rest with
  | nil =>
    obtain rfl := done.inj h
    exact (Loads.refl s).fetches rfl
  | cons path paths ih =>
    obtain ⟨⟨im, s1⟩, hpath, hrest⟩ := bind_eq_done.mp h
    have haux : Loads s1 { s1 with sAuxLibs := s1.sAuxLibs ++ [im] } := .of_images rfl rfl rfl
    have hfirst := (loadLibrary_fetches hc hpath).append hc (haux.fetches rfl)
    exact hfirst.append hc (ih (hfirst.loads.chain first rest hc) hrest)

theorem Chained.complete {asked : String → Prop} (h : Chained sys asked s first []) :
    Complete sys [] s [first] := by
  refine ⟨h.chain, by simp, fun im him path nn file hpath => ?_⟩
  obtain rfl := List.mem_singleton.mp him
  simp [h.linker.1] at hpath

theorem Complete.append_image (h : Complete sys names s l) (obj : MachObject)
    (main : Option ImageId) :
    Complete sys names { s with images := s.images ++ [obj], sMainExecutable := main } l :=
  h.of_views rfl fun im him => by
    unfold nextLink origPath
    rw [List.getElem?_append_left (h.chain.lt_length im him)]
    exact ⟨rfl, rfl⟩

theorem startupLoads_complete {mem : Mem} {main : ImageId}
    (h : startupLoads sys fuel mem = done (main, s)) :
    ∃ first rest, Complete sys (startupNames sys) s (first :: rest) := by
  obtain ⟨s1, s2, s3, cas, s4, chain, s5, hdylinker, haux, hmain, hcas, -, hbind, hbindmain, rfl⟩ :=
    startupLoads_eq_done h
  have hfirst : Chained sys (fun _ => True) _ 0 [] := .first hdylinker rfl rfl rfl rfl rfl rfl rfl
  have h1 := hfirst.complete
  obtain ⟨rest2, h2⟩ := h1.fetches (loadAuxiliarySystemLibraries_fetches h1.chain haux)
  have hmainImage := h2.append_image { MachObject.new with fHeader := sys.mainHeader }
    (some s2.images.length)
  obtain ⟨rest3, h3⟩ := hmainImage.fetches (parseLoadCommands_fetches
    (fun name s r s' first rest hc hload => loadLibrary_fetches hc hload) hmainImage.chain hmain)
  obtain ⟨rest4, h4⟩ := h3.fetches (loadLibrary_fetches h3.chain hcas)
  exact ⟨0, rest4, (h4.bindAll hbind).work (doBindSymbols_works hbindmain)⟩

theorem startup_complete {garbage : Bool} {mem : Mem} (h : startup sys fuel garbage mem = done s) :
    ∃ first rest, Complete sys (startupNames sys) s (first :: rest) :=
  startup_preserves (fun _ _ _ ⟨first, rest, hs⟩ hinit => ⟨first, rest, hs.initializes hinit⟩)
    (fun _ _ hloads => startupLoads_complete hloads) h

theorem Complete.call {call : Call} (h : Complete sys names s (first :: rest))
    (hrun : call.run sys fuel s = done s') :
    ∃ rest', Complete sys (names ++ [call.path]) s' (first :: rest') := by
  cases call with
  | loadLibraryEx path =>
    obtain ⟨⟨r, al, s1⟩, hload, hrun⟩ := bind_eq_done.mp hrun
    obtain rfl := done.inj hrun
    exact h.fetches (loadLibraryEx_fetches h.chain hload)
  | dlopen path =>
    obtain ⟨⟨handle, s1⟩, hdlopen, hrun⟩ := bind_eq_done.mp hrun
    obtain rfl := done.inj hrun
    obtain ⟨dlib, al, s2, hload, hrest⟩ := dlopen_eq_done hdlopen
    obtain ⟨rest', h'⟩ := h.fetches (loadLibraryEx_fetches h.chain hload)
    refine ⟨rest', ?_⟩
    obtain ⟨-, -, rfl⟩ | ⟨-, -, rfl⟩ | ⟨im, s3, -, -, hbind, hinit⟩ := hrest
    · exact h'
    · exact h'
    · exact (h'.work (doBindSymbols_works hbind)).initializes hinit

theorem Complete.calls {calls : List Call} (h : Complete sys names s (first :: rest))
    (hrun : runCalls sys fuel calls s = done s') :
    ∃ rest', Complete sys (names ++ calls.map Call.path) s' (first :: rest') := by
  induction calls generalizing s names rest with
  | nil =>
    obtain rfl := done.inj hrun
    exact ⟨rest, by simpa using h⟩
  | cons call calls ih =>
    obtain ⟨s1, hcall, hrun⟩ := bind_eq_done.mp hrun
    obtain ⟨rest1, h1⟩ := h.call hcall
    obtain ⟨rest', h'⟩ := ih h1 hrun
    exact ⟨rest', by simpa using h'⟩

theorem Complete.available_of_asked (h : Complete sys roots s l) {name : String}
    (hname : Asked sys roots name) : Available sys s name := by
  induction hname with
  | root h' => exact h.available _ h'
  | @needed path nn name file _ hspecial hopen hmem ih =>
    rcases ih with ih | ih | ih
    · exact absurd ih hspecial
    · obtain ⟨im, him, hpath⟩ := (isLoaded_iff h.chain).mp ih
      exact h.met im him path nn file hpath hopen name hmem
    · simp [hopen] at ih

theorem Complete.namesDistinct (h : Complete sys roots s (first :: rest))
    (hchained : Chained sys (Asked sys roots) s first rest) (hfiles : FilesDistinct s) :
    NamesDistinct sys roots := by
  obtain ⟨chain, hchain, hfiles⟩ := hfiles
  obtain rfl := h.chain.unique (Linker.imageChain_eq_done.mp hchain)
  -- A name that is asked for belongs to an image, made from the file that the name leads to.
  have himage : ∀ a nn file, Asked sys roots a → ¬ (a = libsystemPath ∨ a = libgccPath) →
      openLibrary sys a = some (nn, file) →
      ∃ im ∈ first :: rest, origPath s im = some a ∧ filePath s im = some nn := by
    intro a nn file hasked hspecial hopen
    rcases h.available_of_asked hasked with hav | hav | hav
    · exact absurd hav hspecial
    · obtain ⟨im, him, hpath⟩ := (isLoaded_iff h.chain).mp hav
      refine ⟨im, him, hpath, ?_⟩
      rcases List.mem_cons.mp him with rfl | him
      · simp [hchained.linker.1] at hpath
      · obtain ⟨p, nn', file', hp, hnn', hopen', -⟩ := hchained.names im him
        obtain rfl : a = p := Option.some.inj (hpath.symm.trans hp)
        obtain ⟨rfl, -⟩ : nn = nn' ∧ file = file' := by simpa [hopen] using hopen'
        exact hnn'
    · simp [hopen] at hav
  intro a b nn file ha hb hspecial hspecial' hopen hopen'
  obtain ⟨im, him, hpath, hfile⟩ := himage a nn file ha hspecial hopen
  obtain ⟨im', him', hpath', hfile'⟩ := himage b nn file hb hspecial' hopen'
  obtain rfl := hfiles im him im' him' nn hfile hfile'
  exact Option.some.inj (hpath.symm.trans hpath')

/-- **When no file is loaded twice.** As long as no two names that are asked for are completed to
the same path, at every moment of the run; and a run that comes to its end with each file loaded
once has asked for no two such names. -/
theorem callMoments_files_iff {n : Nat} {garbage : Bool} {mem : Mem} {s0 : Linker}
    (h : startup sys n garbage mem = done s0) (fuel : Nat) (calls : List Call) :
    (NamesDistinct sys (startupNames sys ++ calls.map Call.path) →
      ∀ t ∈ s0 :: callMoments sys fuel calls s0, FilesDistinct t) ∧
    ∀ s, runCalls sys fuel calls s0 = done s →
      (FilesDistinct s ↔ NamesDistinct sys (startupNames sys ++ calls.map Call.path)) := by
  set roots := startupNames sys ++ calls.map Call.path with hroots
  have hclosed := asked_closed sys roots
  have hstart : ∀ name ∈ startupNames sys, Asked sys roots name :=
    fun name hname => .root (List.mem_append_left _ hname)
  have hcalls : ∀ call ∈ calls, Asked sys roots call.path :=
    fun call hcall => .root (List.mem_append_right _ (List.mem_map_of_mem hcall))
  obtain ⟨first, rest, hs0⟩ := startup_chained hclosed hstart h
  obtain ⟨hspans, hends⟩ : Spans sys _ s0 (callMoments sys fuel calls s0) ∧ _ :=
    callMoments_spans hclosed hcalls s0
  have hchained : ∀ t, Later sys (Asked sys roots) s0 t →
      ∃ rest, Chained sys (Asked sys roots) t first rest := by
    intro t ht
    obtain ⟨new, hchained, -⟩ := ht.chained first rest hs0
    exact ⟨_, hchained⟩
  refine ⟨fun hnames t ht => ?_, fun s hs => ⟨fun hfiles => ?_, fun hnames => ?_⟩⟩
  · have hlater := ((Part.single s0).spans_append hspans).later t ht
    obtain ⟨rest', ht⟩ := hchained t hlater
    exact ht.filesDistinct hnames
  · obtain ⟨first', rest', hcomplete⟩ := startup_complete h
    obtain ⟨rest1, hcomplete⟩ := hcomplete.calls hs
    obtain ⟨rest2, hs⟩ := hchained s (hends s hs).whole
    obtain ⟨rfl, rfl⟩ : first' = first ∧ rest1 = rest2 := by
      simpa using hcomplete.chain.unique hs.chain
    exact hcomplete.namesDistinct hs hfiles
  · obtain ⟨rest', hs⟩ := hchained s (hends s hs).whole
    exact hs.filesDistinct hnames

/-- `/usr/lib/libX`, which `libX` is completed to. -/
def aliasSystem : System := plainSystem [("/usr/lib/libX", plainLibrary [])]

theorem callMoments_files_alias :
    (NamesDistinct aliasSystem
        (startupNames aliasSystem ++ [Call.dlopen "libX"].map Call.path) →
      ∀ t ∈ started aliasSystem :: callMoments aliasSystem 1 [.dlopen "libX"]
        (started aliasSystem), FilesDistinct t) ∧
    ∀ s, runCalls aliasSystem 1 [.dlopen "libX"] (started aliasSystem) = done s →
      (FilesDistinct s ↔ NamesDistinct aliasSystem
        (startupNames aliasSystem ++ [Call.dlopen "libX"].map Call.path)) :=
  callMoments_files_iff
    (rfl : startup aliasSystem 1 false (fun _ => 0) = done (started aliasSystem)) 1 _

/-- The state after `dlopen("libX")` and `dlopen("/usr/lib/libX")`. -/
def loadedTwice : Linker :=
  match runCalls aliasSystem 1 [.dlopen "libX", .dlopen "/usr/lib/libX"] (started aliasSystem) with
  | .done s => s
  | _ => started aliasSystem

/-- Two images of one file, and both have been rebased and initialized. -/
theorem loadedTwice_not_distinct :
    startup aliasSystem 1 false (fun _ => 0) = done (started aliasSystem) ∧
      runCalls aliasSystem 1 [.dlopen "libX", .dlopen "/usr/lib/libX"] (started aliasSystem) =
        done loadedTwice ∧
      loadedTwice.imageChain = done [0, 3, 2] ∧
      filePath loadedTwice 2 = some "/usr/lib/libX" ∧
      filePath loadedTwice 3 = some "/usr/lib/libX" ∧
      loadedTwice.trace.count (.rebase 2) = 1 ∧ loadedTwice.trace.count (.rebase 3) = 1 ∧
      loadedTwice.trace.count (.enterInit 2) = 1 ∧ loadedTwice.trace.count (.enterInit 3) = 1 ∧
      ¬ FilesDistinct loadedTwice := by
  refine ⟨rfl, rfl, by decide, by decide, by decide, by decide, by decide, by decide, by decide, ?_⟩
  rintro ⟨chain, hchain, hfiles⟩
  obtain rfl : [0, 3, 2] = chain := by
    simpa using (show loadedTwice.imageChain = done [0, 3, 2] by decide).symm.trans hchain
  exact absurd (hfiles 3 (by simp) 2 (by simp) "/usr/lib/libX" (by decide) (by decide)) (by simp)

end LibSystem.Lnk
