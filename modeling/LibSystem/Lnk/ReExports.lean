import LibSystem.Lnk.Dlopen
import LibSystem.Lnk.SegmentIndices
import LibSystem.Lnk.TrieWalk

/-!
# Cycles of re-exports

`findExportedSymbol` keeps no set of the images that it has asked. The loader takes a
library that is under way for loaded, and so it can close a cycle.
-/

namespace LibSystem.Lnk

open Outcome Relation LibSystem.Graph

variable {sys : System} {fuel : Nat} {s s' : Linker}

/-- A lookup of the name in `i` goes on to the re-export `j`. -/
def Asks (s : Linker) (name : CString) : ImageId → ImageId → Prop :=
  Descends (findOwn s name) (reExports s)

theorem asks_finite (s : Linker) (name : CString) : Set.Finite {i | ∃ j, Asks s name i j} :=
  (reExports_finite s).subset fun _ ⟨_, hij⟩ => List.ne_nil_of_mem hij.mem

/-- **When a lookup returns.** It never comes back to an image that it has come from, and the
lookup in the own table of each image that it comes to returns. -/
theorem findExportedSymbol_returns_iff (s : Linker) (name : CString) (im : ImageId) :
    (∃ fuel r, findExportedSymbol fuel s name im = done r) ↔
      (∀ j, ReflTransGen (Asks s name) im j → ¬ TransGen (Asks s name) j j) ∧
        ∀ j, ReflTransGen (Asks s name) im j → ∃ fuel r, findOwn s name fuel j = done r := by
  simp only [findExportedSymbol_eq_dfs]
  rw [dfs_ends_iff (findOwn_grows s name) isEnd_done im]
  exact and_congr_left' (acc_iff_no_cycle (asks_finite s name) im)

/-! ## Two libraries that re-export each other -/

def ringSystem : System :=
  plainSystem [("/A", plainLibrary [(.reexport, "/B")]), ("/B", plainLibrary [(.reexport, "/A")])]

theorem findExportedSymbol_timeout {s : Linker} {name : CString} {im next : ImageId} {fuel : Nat}
    (hown : findOwn s name fuel im = done none) (hnext : reExports s im = [next])
    (h : findExportedSymbol fuel s name next = timeout) :
    findExportedSymbol (fuel + 1) s name im = timeout := by
  rw [findExportedSymbol_eq_dfs] at h ⊢
  rw [dfs_of_misses hown, hnext, search, h, timeout_bind]

/-- The lookup goes from `/A` to `/B` and back, for ever. -/
theorem findExportedSymbol_not_returns :
    Session ringSystem (opened ringSystem "/A") ∧
      (opened ringSystem "/A").imageChain = done [0, 3, 2] ∧
      ∀ name fuel, findExportedSymbol fuel (opened ringSystem "/A") name 2 = timeout := by
  have hstart : Session ringSystem (started ringSystem) :=
    .startup (rfl : startup ringSystem 1 false (fun _ => 0) = done (started ringSystem))
  have hopen : dlopen ringSystem 3 "/A" (started ringSystem) =
      done (some 2, opened ringSystem "/A") := rfl
  refine ⟨.dlopen hstart hopen, by decide, fun name fuel => ?_⟩
  have hboth : ∀ fuel, findExportedSymbol fuel (opened ringSystem "/A") name 2 = timeout ∧
      findExportedSymbol fuel (opened ringSystem "/A") name 3 = timeout := by
    intro fuel
    induction fuel with
    | zero => exact ⟨rfl, rfl⟩
    | succ fuel ih =>
      exact ⟨findExportedSymbol_timeout rfl rfl ih.2, findExportedSymbol_timeout rfl rfl ih.1⟩
  exact (hboth fuel).1

/-! ## Re-exports and files -/

def reexportNames (commands : List LoadCommand) : List String :=
  (commands.filterMap LoadCommand.dylib?).filterMap fun dylib =>
    if dylib.1 = .reexport then some dylib.2 else none

/-- The library that `path` asks for re-exports `name`. -/
def FileReExports (sys : System) (path name : String) : Prop :=
  ∃ nn file, openLibrary sys path = some (nn, file) ∧ name ∈ reexportNames file.commands

/-- The image may re-export what `name` asks for: it is not the linker, and if it comes from a
file, the file says so. -/
def MayReExport (sys : System) (s : Linker) (im : ImageId) (name : String) : Prop :=
  s.sDylinker ≠ some im ∧ ∀ path, origPath s im = some path → FileReExports sys path name

/-- `dep` is what `name` stands for. -/
def StandsFor (s : Linker) (name : String) (dep : ImageId) : Prop :=
  s.sDylinker = some dep ∨ origPath s dep = some name

/-- The images re-export what their files say. -/
structure Follows (sys : System) (s : Linker) : Prop where
  first : s.sFirstImage = none ∨ s.sFirstImage = s.sDylinker
  dylinker_lt : ∀ im, s.sDylinker = some im → im < s.images.length
  edges : ∀ im, ∀ dep ∈ reExports s im, ∃ name, MayReExport sys s im name ∧ StandsFor s name dep

theorem lt_of_mem_reExports {im dep : ImageId} (h : dep ∈ reExports s im) :
    im < s.images.length := by
  by_contra hle
  simp [reExports, List.getElem?_eq_none (Nat.le_of_not_lt hle)] at h

theorem MayReExport.loads {im : ImageId} {name : String} (h : MayReExport sys s im name)
    (him : im < s.images.length) (hload : Loads s s') : MayReExport sys s' im name := by
  unfold MayReExport
  rwa [hload.dylinker, hload.paths im him]

theorem StandsFor.loads {name : String} {dep : ImageId} (h : StandsFor s name dep)
    (hload : Loads s s') : StandsFor s' name dep := by
  rcases h with h | h
  · exact .inl (by rw [hload.dylinker, h])
  · exact .inr (by rw [hload.paths dep (lt_of_origPath h), h])

theorem Follows.loads (h : Follows sys s) (hload : Loads s s')
    (hsame : ∀ im, reExports s' im = reExports s im) : Follows sys s' where
  first := by rw [hload.first, hload.dylinker]; exact h.first
  dylinker_lt im him := (h.dylinker_lt im (by rw [← hload.dylinker, him])).trans_le hload.length
  edges im dep hdep := by
    rw [hsame] at hdep
    obtain ⟨name, hmay, hstands⟩ := h.edges im dep hdep
    exact ⟨name, hmay.loads (lt_of_mem_reExports hdep) hload, hstands.loads hload⟩

theorem Follows.addDependency (h : Follows sys s) {this dep : ImageId} {kind : DylibKind}
    {name : String} (hmay : kind = .reexport → MayReExport sys s this name)
    (hstands : StandsFor s name dep) : Follows sys (s.modify this (addDependency kind dep)) := by
  have hload := ((addDependency_keeps kind dep).loadsRebased s this).1
  by_cases hkind : kind = .reexport
  · refine ⟨h.first, fun im him => length_modify s this _ ▸ h.dylinker_lt im him, ?_⟩
    intro im d hd
    have hold : d ∈ reExports s im ∨ (this = im ∧ d = dep) := by
      unfold reExports at hd ⊢
      rw [getElem?_modify] at hd
      cases hobj : s.images[im]? with
      | none => simp [hobj] at hd
      | some obj =>
        by_cases him : this = im
        · simpa [hobj, him, hkind, Lnk.addDependency] using hd
        · exact .inl (by simpa [hobj, him] using hd)
    rcases hold with hold | ⟨rfl, rfl⟩
    · obtain ⟨n, hn, hs⟩ := h.edges im d hold
      exact ⟨n, hn.loads (lt_of_mem_reExports hold) hload, hs.loads hload⟩
    · refine ⟨name, ?_, hstands.loads hload⟩
      unfold MayReExport
      rw [hload.dylinker, origPath_modify s this this (addDependency_keeps kind d).path]
      exact hmay hkind
  · exact h.loads hload fun im => reExports_modify s this im fun obj => if_neg hkind

theorem mem_reexportNames_cons {cmd : LoadCommand} {commands : List LoadCommand} {name : String} :
    name ∈ reexportNames (cmd :: commands) ↔
      cmd.dylib? = some (.reexport, name) ∨ name ∈ reexportNames commands := by
  unfold reexportNames
  rw [List.filterMap_cons]
  cases cmd.dylib? with
  | none => simp
  | some dylib =>
    obtain ⟨kind, n⟩ := dylib
    by_cases hkind : kind = .reexport <;> simp [hkind, eq_comm]

/-- What a load has to do for the parsing of the commands that call it. -/
def LoadFollows (sys : System)
    (load : String → Linker → Outcome (Option ImageId × Linker)) : Prop :=
  ∀ name s r s', Follows sys s → load name s = done (r, s') →
    Loads s s' ∧ Follows sys s' ∧ ∀ dep, r = some dep → StandsFor s' name dep

theorem parseLoop_follows {load : String → Linker → Outcome (Option ImageId × Linker)}
    (hload : LoadFollows sys load) {this : ImageId} {commands : List LoadCommand}
    {l l' : ParseLocals} (hs : Follows sys s) (hthis : this < s.images.length)
    (hmay : ∀ name ∈ reexportNames commands, MayReExport sys s this name)
    (h : parseLoop load this commands s l = done (s', l')) : Loads s s' ∧ Follows sys s' := by
  induction commands generalizing s l with
  | nil =>
    obtain ⟨rfl, -⟩ := by simpa [parseLoop] using h
    exact ⟨.refl s, hs⟩
  | cons cmd commands ih =>
    obtain ⟨⟨s1, l1⟩, hcmd, h⟩ := bind_eq_done.mp h
    have hstep : Loads s s1 ∧ Follows sys s1 := by
      obtain ⟨-, f, hkeeps, hsame, rfl⟩ | ⟨kind, name, dep, s0, hdylib, hdep, rfl⟩ :=
        parseLoadCommand_cases hcmd
      · have hl := (hkeeps.loadsRebased s this).1
        exact ⟨hl, hs.loads hl fun im => reExports_modify s this im hsame⟩
      · obtain ⟨hl, hs0, hstands⟩ := hload name s _ s0 hs hdep
        refine ⟨hl.trans ((addDependency_keeps kind dep).loadsRebased s0 this).1,
          hs0.addDependency (fun hkind => ?_) (hstands dep rfl)⟩
        refine (hmay name ?_).loads hthis hl
        exact mem_reexportNames_cons.mpr (.inl (by rw [hdylib, hkind]))
    have hmay' : ∀ name ∈ reexportNames commands, MayReExport sys s1 this name :=
      fun name hname => (hmay name (mem_reexportNames_cons.mpr (.inr hname))).loads hthis hstep.1
    obtain ⟨hl', hs'⟩ := ih hstep.2 (hthis.trans_le hstep.1.length) hmay' h
    exact ⟨hstep.1.trans hl', hs'⟩

theorem parseLoadCommands_follows {load : String → Linker → Outcome (Option ImageId × Linker)}
    (hload : LoadFollows sys load) {this : ImageId} {commands : List LoadCommand}
    (hs : Follows sys s) (hthis : this < s.images.length)
    (hmay : ∀ name ∈ reexportNames commands, MayReExport sys s this name)
    (h : parseLoadCommands sys load this commands s = done s') : Follows sys s' := by
  obtain ⟨s1, l1, hloop, -, hrest, hsame⟩ := parseLoadCommands_eq_done h
  exact (parseLoop_follows hload hs hthis hmay hloop).2.loads hrest.1 hsame

/-- **A load follows the files.** -/
theorem loadLibrary_follows (sys : System) (fuel : Nat) :
    LoadFollows sys (loadLibrary sys fuel) := by
  induction fuel with
  | zero =>
    intro name s r s' _ h
    simp [loadLibrary, loadLibraryEx] at h
  | succ fuel ih =>
    intro name s r s' hs h
    refine ⟨(loadLibrary_loads h).1, ?_⟩
    obtain ⟨al, h⟩ := loadLibrary_eq_done.mp h
    obtain ⟨-, rfl, rfl⟩ | ⟨-, ⟨im, hfound, rfl, -, rfl⟩ |
      ⟨-, ⟨-, rfl, rfl⟩ | ⟨rfl, -, file, before, after, hopens⟩⟩⟩ := loadLibraryEx_cases h
    · refine ⟨hs, fun dep hdep => .inl ?_⟩
      rcases hs.first with hnone | hfirst
      · simp [hnone] at hdep
      · rw [← hfirst, hdep]
    · obtain ⟨chain, -, hfind⟩ := findLoaded_eq_done hfound
      refine ⟨hs, fun dep hdep => .inr ?_⟩
      have := List.find?_some (hfind.symm.trans hdep)
      simpa using this
    · exact ⟨hs, fun dep hdep => .inl hdep⟩
    · have hbefore := hs.loads hopens.inserted.loads hopens.inserted.reExports
      have hlib : s.images.length < before.images.length := by
        rw [hopens.inserted.length]
        exact Nat.lt_succ_self _
      have hmay : ∀ name' ∈ reexportNames file.commands,
          MayReExport sys before s.images.length name' := by
        intro name' hname'
        refine ⟨fun heq => ?_, fun path hpath => ?_⟩
        · rw [hopens.inserted.loads.dylinker] at heq
          exact Nat.lt_irrefl _ (hs.dylinker_lt _ heq)
        · rw [hopens.inserted.path] at hpath
          obtain rfl := Option.some.inj hpath
          obtain ⟨nn, hfile⟩ := hopens.opened
          exact ⟨nn, file, hfile, hname'⟩
      have hafter := parseLoadCommands_follows ih hbefore hlib hmay hopens.parsed
      obtain ⟨mem, rfl⟩ := doRebase_eq_done hopens.rebased
      refine ⟨hafter.loads (.of_images rfl rfl rfl) fun _ => rfl, fun dep hdep => .inr ?_⟩
      obtain rfl := Option.some.inj hdep
      show origPath after s.images.length = some name
      rw [hopens.parse_loads.1.paths _ hlib, hopens.inserted.path]

theorem Follows.work {im : ImageId} {events : List Event} (h : Follows sys s)
    (hwork : Works s s' im events) : Follows sys s' := by
  refine ⟨?_, fun j hj => ?_, fun j dep hdep => ?_⟩
  · rw [hwork.first, hwork.dylinker]
    exact h.first
  · rw [hwork.length]
    exact h.dylinker_lt j (by rw [← hwork.dylinker, hj])
  · rw [hwork.reExports] at hdep
    unfold MayReExport StandsFor
    rw [hwork.dylinker, hwork.paths, hwork.paths]
    exact h.edges j dep hdep

theorem Follows.aux (h : Follows sys s) {paths : List String}
    (hload : loadAuxiliarySystemLibraries sys fuel paths s = done s') : Follows sys s' := by
  refine loadAuxiliarySystemLibraries_preserves (fun path _ t r t' ht hpath => ?_) h hload
  have h1 := (loadLibrary_follows sys fuel path t r t' ht hpath).2.1
  exact h1.loads (.of_images rfl rfl rfl) fun _ => rfl

theorem Follows.main (h : Follows sys s) {obj : MachObject} (hobj : obj.fReExports = [])
    (main : Option ImageId) :
    Follows sys { s with images := s.images ++ [obj], sMainExecutable := main } := by
  have hget : ∀ j < s.images.length, (s.images ++ [obj])[j]? = s.images[j]? :=
    fun j hj => List.getElem?_append_left hj
  refine ⟨h.first, fun im him => ?_, fun im dep hdep => ?_⟩
  · show im < (s.images ++ [obj]).length
    rw [List.length_append]
    exact (h.dylinker_lt im him).trans_le (Nat.le_add_right _ _)
  · have hold : dep ∈ reExports s im := by
      rcases Nat.lt_trichotomy im s.images.length with him | rfl | him
      · rwa [reExports, hget im him] at hdep
      · simp [reExports, hobj] at hdep
      · have hnone : (s.images ++ [obj])[im]? = none := List.getElem?_eq_none (by simp; omega)
        simp [reExports, hnone] at hdep
    obtain ⟨name, hmay, hstands⟩ := h.edges im dep hold
    refine ⟨name, ⟨hmay.1, fun path hpath => hmay.2 path ?_⟩, hstands.imp_right fun hpath => ?_⟩
    · rwa [origPath, hget im (lt_of_mem_reExports hold)] at hpath
    · rwa [origPath, hget dep (lt_of_origPath hpath)]

theorem Follows.bindAll (h : Follows sys s) {chain : List ImageId}
    (hbind : Lnk.bindAll sys chain s = done s') : Follows sys s' :=
  bindAll_preserves (fun _ _ _ _ ht him => ht.work (doBindSymbols_works him)) h hbind

theorem Follows.initializes {im : ImageId} (h : Follows sys s)
    (hinit : doInitialize s im = done s') : Follows sys s' := by
  obtain ⟨-, -, events, hwork, -⟩ := doInitialize_works hinit
  exact h.work hwork

theorem startupLoads_follows (hlinker : reexportNames sys.linkerCommands = []) {mem : Mem}
    {main : ImageId} (h : startupLoads sys fuel mem = done (main, s)) : Follows sys s := by
  obtain ⟨s1, s2, s3, cas, s4, chain, s5, hdylinker, haux, hmain, hcas, -, hbind, hbindmain, rfl⟩ :=
    startupLoads_eq_done h
  have hload := loadLibrary_follows sys fuel
  have h1 : Follows sys s1 := by
    refine parseLoadCommands_follows hload ⟨.inl rfl, ?_, ?_⟩ Nat.one_pos (by simp [hlinker])
      hdylinker
    · rintro im ⟨⟩
      exact Nat.one_pos
    · intro im dep hdep
      have him : im = 0 := Nat.lt_one_iff.mp (lt_of_mem_reExports hdep)
      subst him
      simp [reExports, MachObject.new] at hdep
  have hself : s1.sDylinker = some 0 :=
    (parseLoadCommands_loads (fun _ _ _ _ h => loadLibrary_loads h) hdylinker).1.dylinker
  have h2 := Follows.aux (s := { s1 with sImageCount := s1.sImageCount + 1, sFirstImage := some 0 })
    ⟨.inr hself.symm, h1.dylinker_lt, h1.edges⟩ haux
  have h3 : Follows sys s3 := by
    refine parseLoadCommands_follows hload (h2.main rfl _) (by simp) ?_ hmain
    intro name _
    refine ⟨fun heq => Nat.lt_irrefl _ (h2.dylinker_lt _ heq), fun path hpath => ?_⟩
    simp [origPath, MachObject.new] at hpath
  have h4 := (hload casPath s3 cas s4 h3 hcas).2.1
  exact (h4.bindAll hbind).work (doBindSymbols_works hbindmain)

theorem startup_follows (hlinker : reexportNames sys.linkerCommands = []) {garbage : Bool}
    {mem : Mem} (h : startup sys fuel garbage mem = done s) : Follows sys s :=
  startup_preserves (fun _ _ _ hs hinit => hs.initializes hinit)
    (fun _ _ hloads => startupLoads_follows hlinker hloads) h

theorem Follows.dlopen (h : Follows sys s) {path : String} {handle : Option ImageId}
    (hopen : dlopen sys fuel path s = done (handle, s')) : Follows sys s' := by
  obtain ⟨dlib, al, s1, hload, hrest⟩ := dlopen_eq_done hopen
  have hload := loadLibrary_eq_done.mpr ⟨al, hload⟩
  have h1 := (loadLibrary_follows sys fuel path s dlib s1 h hload).2.1
  obtain ⟨-, -, rfl⟩ | ⟨-, -, rfl⟩ | ⟨im, bound, -, -, hbind, hinit⟩ := hrest
  · exact h1
  · exact h1
  · exact (h1.work (doBindSymbols_works hbind)).initializes hinit

theorem Session.follows (hlinker : reexportNames sys.linkerCommands = []) (hs : Session sys s) :
    Follows sys s := by
  induction hs with
  | startup h => exact startup_follows hlinker h
  | dlopen hs h ih => exact ih.dlopen h

theorem Follows.fileReExports {im dep : ImageId} {path : String} (h : Follows sys s)
    (hpath : origPath s im = some path)
    (hpath' : TransGen (fun i j => j ∈ reExports s i) im dep) :
    s.sDylinker = some dep ∨
      ∃ name, origPath s dep = some name ∧ TransGen (FileReExports sys) path name := by
  induction hpath' with
  | single hdep =>
    obtain ⟨name, hmay, hstands⟩ := h.edges _ _ hdep
    exact hstands.imp_right fun hname => ⟨name, hname, .single (hmay.2 path hpath)⟩
  | tail _ hdep ih =>
    obtain ⟨name, hmay, hstands⟩ := h.edges _ _ hdep
    refine hstands.imp_right fun hname => ⟨name, hname, ?_⟩
    rcases ih with hself | ⟨n, hn, hpath'⟩
    · exact absurd hself hmay.1
    · exact hpath'.tail (hmay.2 n hn)

/-- **Where the files re-export each other in no cycle, the images do not either.** -/
theorem Session.acyclic (hs : Session sys s) (hlinker : reexportNames sys.linkerCommands = [])
    (hfiles : ∀ path, ¬ TransGen (FileReExports sys) path path) : Acyclic (reExports s) := by
  intro im hcycle
  have h := hs.follows hlinker
  obtain ⟨pre, -, hlast⟩ := TransGen.tail'_iff.mp hcycle
  obtain ⟨next, hfirst, -⟩ := TransGen.head'_iff.mp hcycle
  obtain ⟨name, -, hstands⟩ := h.edges pre im hlast
  obtain ⟨-, ⟨hother, -⟩, -⟩ := h.edges im next hfirst
  rcases hstands with hself | hpath
  · exact hother hself
  · rcases h.fileReExports hpath hcycle with hself | ⟨name', hname', hcycle⟩
    · exact hother hself
    · obtain rfl : name = name' := by simpa [hpath] using hname'
      exact hfiles name hcycle

/-- **Lookups return** in every run over files that re-export each other in no cycle, as far as the
images' own tables do. -/
theorem Session.findExportedSymbol_returns (hs : Session sys s)
    (hlinker : reexportNames sys.linkerCommands = [])
    (hfiles : ∀ path, ¬ TransGen (FileReExports sys) path path) (name : CString) (im : ImageId)
    (hown : ∀ j, Reach (reExports s) im j → ∃ fuel r, findOwn s name fuel j = done r) :
    ∃ fuel r, findExportedSymbol fuel s name im = done r := by
  have hwf := reExports_wellFounded (hs.acyclic hlinker hfiles)
  simp only [findExportedSymbol_eq_dfs]
  exact dfs_ends_of_wellFounded (findOwn_grows s name) isEnd_done hwf hown

/-! ## Tables that end a lookup -/

def exportTrie (mem : Mem) (obj : MachObject) (info : DyldInfoCommand) : TrieTable where
  mem := mem
  start := exportStart obj info
  stop := exportEnd obj info

/-- The image exports nothing, or its trie covers the name's way, on which no empty labels lead in
a circle. -/
def TrieEnds (s : Linker) (name : CString) (im : ImageId) : Prop :=
  ∃ obj info, s.object im = done obj ∧ obj.fIsClassic = false ∧ obj.fDyldInfo = some info ∧
    (info.exportSize = 0 ∨ ∀ c,
      ReflTransGen (exportTrie s.mem obj info).Leads (exportStart obj info, name) c →
        (exportTrie s.mem obj info).Covers c ∧
          ¬ TransGen (exportTrie s.mem obj info).EmptyEdge c c)

theorem TrieEnds.findOwn_settles {name : CString} {im : ImageId} (h : TrieEnds s name im) :
    ∃ fuel, (findOwn s name fuel im).Settles := by
  obtain ⟨obj, info, hobj, hcompressed, hinfo, hempty | hway⟩ := h
  · refine ⟨0, ?_⟩
    unfold findOwn findOwnSymbol findExportedSymbolCompressed
    simp [hobj, hcompressed, hinfo, hempty]
  · obtain ⟨n, hn⟩ := TrieTable.go_trieWalk_settles hway
    have hwalk := ((TrieTable.go_settles_iff (Program.runs_trieWalk _ _ _ _ _)).mp
      (hn n (Nat.le_refl _))).1
    refine ⟨n, ?_⟩
    unfold findOwn findOwnSymbol findExportedSymbolCompressed
    rw [hobj, done_bind, if_neg (by simp [hcompressed]), hinfo, ofOption_some, done_bind]
    refine settles_ite.mpr ⟨fun _ => settles_done _, fun _ =>
      settles_bind.mpr ⟨hwalk, fun node _ => ?_⟩⟩
    refine settles_ite.mpr ⟨fun _ => settles_done _, fun _ =>
      settles_bind.mpr ⟨readUleb128_settles, fun flags _ => ?_⟩⟩
    exact settles_ite.mpr ⟨fun _ => settles_halt _, fun _ => settles_done _⟩

/-- **Lookups end** in every run over files that re-export each other in no cycle, if the tables
of the images do. -/
theorem Session.findExportedSymbol_settles (hs : Session sys s)
    (hlinker : reexportNames sys.linkerCommands = [])
    (hfiles : ∀ path, ¬ TransGen (FileReExports sys) path path) (name : CString) (im : ImageId)
    (hown : ∀ j, Reach (reExports s) im j →
      TrieEnds s name j ∨ ∃ fuel, (findOwn s name fuel j).Settles) :
    ∃ fuel, (findExportedSymbol fuel s name im).Settles := by
  have hwf := reExports_wellFounded (hs.acyclic hlinker hfiles)
  simp only [findExportedSymbol_eq_dfs]
  refine dfs_ends_of_wellFounded (findOwn_grows s name) ⟨settles_done, not_settles_timeout⟩ hwf ?_
  exact fun j hj => (hown j hj).elim TrieEnds.findOwn_settles id

end LibSystem.Lnk
