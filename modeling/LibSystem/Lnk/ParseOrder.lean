import LibSystem.Lnk.Parsed

/-!
# The order of the load commands

The loads of an image's libraries do not look at what has been read of the image so far, so that the
order of the commands matters only where two commands write one field.
-/

namespace LibSystem.Lnk

open Outcome

/-! ## What a load looks at -/

/-- The image before any command has been read. -/
def unparsed (obj : MachObject) : MachObject :=
  { MachObject.new with
    fNextImage := obj.fNextImage
    fFilePath := obj.fFilePath
    fOrigFilePath := obj.fOrigFilePath
    fHasInitialized := obj.fHasInitialized
    fIsSplitSeg := obj.fIsSplitSeg
    fSlide := obj.fSlide
    fHeader := obj.fHeader }

/-- The state without what has been read of one image. -/
def hide (this : ImageId) (s : Linker) : Linker := s.modify this unparsed

variable {sys : System} {fuel : Nat} {s s' : Linker} {this im : Nat}

theorem getElem?_hide (j : ImageId) :
    (hide this s).images[j]? = s.images[j]?.map fun o => if this = j then unparsed o else o :=
  getElem?_modify s this unparsed j

theorem object_hide (hne : this ≠ im) : (hide this s).object im = s.object im := by
  unfold Linker.object
  rw [getElem?_hide]
  cases s.images[im]? <;> simp [hne]

theorem hide_modify (f : MachObject → MachObject)
    (hf : this ≠ im ∨ ∀ o, unparsed (f o) = f (unparsed o)) :
    hide this (s.modify im f) = (hide this s).modify im f := by
  have himages : (hide this (s.modify im f)).images = ((hide this s).modify im f).images := by
    refine List.ext_getElem? fun j => ?_
    rw [getElem?_hide, getElem?_modify, getElem?_modify, getElem?_hide, Option.map_map,
      Option.map_map]
    congr 1
    funext o
    by_cases hthis : this = j <;> by_cases him : im = j <;> simp [hthis, him]
    rcases hf with hne | hf
    · exact absurd (hthis.trans him.symm) hne
    · exact hf o
  exact congrArg (fun l => { s with images := l }) himages

theorem hide_modify_this {f : MachObject → MachObject} (hf : ∀ o, unparsed (f o) = unparsed o) :
    hide this (s.modify this f) = hide this s := by
  have himages : (hide this (s.modify this f)).images = (hide this s).images := by
    refine List.ext_getElem? fun j => ?_
    rw [getElem?_hide, getElem?_modify, getElem?_hide, Option.map_map]
    congr 1
    funext o
    by_cases hthis : this = j <;> simp [hthis, hf]
  exact congrArg (fun l => { s with images := l }) himages

theorem length_hide : (hide this s).images.length = s.images.length := length_modify s this unparsed

theorem chainFrom_hide (fuel : Nat) (p : Option ImageId) :
    chainFrom (hide this s).images fuel p = chainFrom s.images fuel p := by
  induction fuel generalizing p with
  | zero => cases p <;> rfl
  | succ fuel ih =>
    cases p with
    | none => rfl
    | some im =>
      unfold chainFrom
      rw [getElem?_hide]
      cases s.images[im]? with
      | none => rfl
      | some o =>
        simp only [Option.map_some, ofOption_some, done_bind, ih]
        by_cases hthis : this = im <;> simp [hthis, unparsed]

theorem findLoaded_hide (path : String) : findLoaded (hide this s) path = findLoaded s path := by
  have hpath : ∀ im, origPath (hide this s) im = origPath s im :=
    fun im => origPath_modify s this im fun _ => rfl
  unfold origPath at hpath
  unfold findLoaded Linker.imageChain
  rw [length_hide, chainFrom_hide]
  simp only [hpath]
  rfl

theorem instantiateFromFile_hide (hthis : this < s.images.length) (nn path : String) (file : File) :
    instantiateFromFile nn path file (hide this s) =
      instantiateFromFile nn path file s >>= fun r => done (r.1, hide this r.2) := by
  have happend : ∀ obj, (hide this s).images ++ [obj] =
      (s.images ++ [obj]).modify this unparsed := by
    intro obj
    refine List.ext_getElem? fun j => ?_
    rw [List.getElem?_modify]
    rcases Nat.lt_or_ge j s.images.length with hj | hj
    · rw [List.getElem?_append_left (by rwa [length_hide]), List.getElem?_append_left hj,
        getElem?_hide]
      rfl
    · have hne : this ≠ j := by omega
      rw [List.getElem?_append_right (by rwa [length_hide]), List.getElem?_append_right hj,
        length_hide]
      simp [hne]
  unfold instantiateFromFile
  split
  · rfl
  dsimp only
  split
  · rfl
  split
  · rfl
  · rw [happend, length_hide]
    rfl

theorem insertImage_hide (lib : ImageId) : insertImage lib (hide this s) =
    insertImage lib s >>= fun s => done (hide this s) := by
  unfold insertImage
  show (Outcome.ofOption s.sFirstImage >>= _) = _
  cases s.sFirstImage with
  | none => rfl
  | some first =>
    simp only [ofOption_some, done_bind, Linker.object]
    rw [getElem?_hide]
    cases s.images[first]? with
    | none => rfl
    | some obj =>
      have hnext : (if this = first then unparsed obj else obj).fNextImage = obj.fNextImage := by
        split <;> rfl
      simp only [Option.map_some, ofOption_some, done_bind, hnext]
      rw [← hide_modify (fun lib => lib.setNextImage obj.fNextImage) (.inr fun _ => rfl),
        ← hide_modify (fun first => first.setNextImage (some lib)) (.inr fun _ => rfl)]
      rfl

theorem doRebase_hide (hne : this ≠ im) : doRebase sys (hide this s) im =
    doRebase sys s im >>= fun s => done (hide this s) := by
  unfold doRebase
  rw [object_hide hne, bind_bind]
  refine bind_congr fun obj => ?_
  dsimp only
  split
  · split
    · rfl
    · rw [bind_bind]
      rfl
  · simp only [bind_bind]
    rfl

section Parsing

variable {load : String → Linker → Outcome (Option ImageId × Linker)}
  (hload : ∀ name s, this < s.images.length →
    load name (hide this s) = load name s >>= fun r => done (r.1, hide this r.2))

include hload

theorem parseLoadCommand_hide (hne : this ≠ im) (hthis : this < s.images.length)
    (cmd : LoadCommand) (l : ParseLocals) :
    parseLoadCommand load im (hide this s) l cmd =
      parseLoadCommand load im s l cmd >>= fun r => done (hide this r.1, r.2) := by
  cases cmd with
  | segment seg =>
    simp only [parseLoadCommand]
    rw [object_hide hne, bind_bind]
    refine bind_congr fun obj => ?_
    split
    · rfl
    · rw [← hide_modify _ (.inl hne)]
      rfl
  | routines initAddress =>
    simp only [parseLoadCommand]
    rw [← hide_modify _ (.inl hne)]
    rfl
  | dylib kind name =>
    simp only [parseLoadCommand]
    rw [hload name s hthis, bind_bind, bind_bind]
    refine bind_congr fun r => ?_
    rw [done_bind]
    obtain ⟨dep, s1⟩ := r
    cases dep with
    | none => rfl
    | some dep =>
      dsimp only
      rw [object_hide hne, bind_bind]
      refine bind_congr fun obj => ?_
      split
      · rfl
      · rw [← hide_modify _ (.inl hne)]
        rfl
  | symtab stroff symoff asDysymtab =>
    simp only [parseLoadCommand]
    rw [object_hide hne, bind_bind]
    refine bind_congr fun obj => ?_
    split
    · rfl
    · rw [← hide_modify _ (.inl hne)]
      rfl
  | dysymtab cmd =>
    simp only [parseLoadCommand]
    rw [← hide_modify _ (.inl hne)]
    rfl
  | dyldInfo cmd =>
    simp only [parseLoadCommand]
    rw [← hide_modify _ (.inl hne)]
    rfl
  | other => rfl

variable (hlength : ∀ name s r s', load name s = done (r, s') → s.images.length ≤ s'.images.length)

include hlength

theorem parseLoop_hide (hne : this ≠ im) (hthis : this < s.images.length)
    (commands : List LoadCommand) (l : ParseLocals) :
    parseLoop load im commands (hide this s) l =
      parseLoop load im commands s l >>= fun r => done (hide this r.1, r.2) := by
  induction commands generalizing s l with
  | nil => rfl
  | cons cmd commands ih =>
    unfold parseLoop
    rw [parseLoadCommand_hide hload hne hthis]
    cases hcmd : parseLoadCommand load im s l cmd with
    | done r =>
      have hlen : s.images.length ≤ r.1.images.length := by
        obtain ⟨-, f, -, -, hr⟩ | ⟨kind, name, dep, s1, -, hdep, hr⟩ := parseLoadCommand_cases hcmd
        · rw [hr, length_modify]
        · rw [hr, length_modify]
          exact hlength name s _ s1 hdep
      exact ih (hthis.trans_le hlen) r.2
    | halt | fault | timeout => rfl

theorem parseLoadCommands_hide (hne : this ≠ im) (hthis : this < s.images.length)
    (commands : List LoadCommand) :
    parseLoadCommands sys load im commands (hide this s) =
      parseLoadCommands sys load im commands s >>= fun s => done (hide this s) := by
  unfold parseLoadCommands
  split
  · rfl
  · rw [parseLoop_hide hload hlength hne hthis, bind_bind, bind_bind]
    refine bind_congr fun r => ?_
    rw [done_bind]
    dsimp only
    rw [← hide_modify _ (.inl hne), object_hide hne, bind_bind]
    rfl

end Parsing

/-- **Loads look at links and paths only.** A load does with a half parsed image what it does with
one that has not been parsed. -/
theorem loadLibraryEx_hide (hthis : this < s.images.length) (path : String) :
    loadLibraryEx sys fuel path (hide this s) =
      loadLibraryEx sys fuel path s >>= fun r => done (r.1, r.2.1, hide this r.2.2) := by
  induction fuel generalizing path s with
  | zero => rfl
  | succ fuel ih =>
    unfold loadLibraryEx
    split
    · rfl
    rw [findLoaded_hide, bind_bind]
    refine bind_congr fun found => ?_
    cases found with
    | some im => rfl
    | none =>
      dsimp only
      cases openLibrary sys path with
      | none => rfl
      | some opened =>
        obtain ⟨nn, file⟩ := opened
        dsimp only
        rw [instantiateFromFile_hide hthis, bind_bind]
        cases hnew : instantiateFromFile nn path file s with
        | done r =>
          obtain ⟨hlib, -, -, -, obj, himages, -⟩ := instantiateFromFile_eq_done hnew
          have hne : this ≠ r.1 := by
            rw [hlib]
            exact hthis.ne
          have hthis1 : this < r.2.images.length := by
            rw [himages, List.length_append]
            omega
          simp only [done_bind]
          rw [insertImage_hide, bind_bind, bind_bind]
          cases hins : insertImage r.1 r.2 with
          | done before =>
            have hbefore : r.2.images.length = before.images.length := by
              obtain ⟨-, -, -, first, o, -, -, himages⟩ := insertImage_eq_done hins
              rw [himages, List.length_modify, List.length_modify]
            simp only [done_bind]
            have hload : ∀ name s, this < s.images.length →
                loadLibrary sys fuel name (hide this s) =
                  loadLibrary sys fuel name s >>= fun r => done (r.1, hide this r.2) := by
              intro name s hs
              unfold loadLibrary
              rw [ih hs, bind_bind, bind_bind]
              rfl
            have hparse := @parseLoadCommands_hide sys _ _ _ _ hload
              (fun name s r s' h => (loadLibrary_loads h).1.length) hne (hbefore ▸ hthis1)
              file.commands
            show (parseLoadCommands sys (loadLibrary sys fuel) r.1 file.commands (hide this before)
              >>= _) = (parseLoadCommands sys (loadLibrary sys fuel) r.1 file.commands before
              >>= _) >>= _
            rw [hparse, bind_bind, bind_bind]
            refine bind_congr fun after => ?_
            rw [done_bind, doRebase_hide hne, bind_bind, bind_bind]
            rfl
          | halt | fault | timeout => rfl
        | halt | fault | timeout => rfl

theorem loadLibrary_hide (hthis : this < s.images.length) (name : String) :
    loadLibrary sys fuel name (hide this s) =
      loadLibrary sys fuel name s >>= fun r => done (r.1, hide this r.2) := by
  unfold loadLibrary
  rw [loadLibraryEx_hide hthis, bind_bind, bind_bind]
  rfl

/-! ## The libraries of an image -/

/-- The libraries of a list of names, loaded one after the other. -/
def loadNames (load : String → Linker → Outcome (Option ImageId × Linker)) :
    List String → Linker → Outcome (List ImageId × Linker)
  | [], s => .done ([], s)
  | name :: rest, s => do
    let r ← load name s
    let dep ← Outcome.ofOption r.1
    let r' ← loadNames load rest r.2
    .done (dep :: r'.1, r'.2)

theorem unparsed_read (cmd : LoadCommand) (l : ParseLocals) (o : MachObject) :
    unparsed (cmd.read 0 (o, l)).1 = unparsed o := by
  cases cmd <;> rfl

theorem parseLoop_loadNames {commands : List LoadCommand} {l l' : ParseLocals}
    (hthis : this < s.images.length)
    (h : parseLoop (loadLibrary sys fuel) this commands s l = done (s', l')) :
    loadNames (loadLibrary sys fuel) ((commands.filterMap LoadCommand.dylib?).map Prod.snd)
      (hide this s) =
        done ((loadCalls (loadLibrary sys fuel) this commands s l).map LoadCall.dep,
          hide this s') := by
  induction commands generalizing s l with
  | nil =>
    obtain ⟨rfl, -⟩ := by simpa [parseLoop] using h
    rfl
  | cons cmd commands ih =>
    obtain ⟨⟨s1, l1⟩, hcmd, h⟩ := bind_eq_done.mp h
    unfold loadCalls
    rw [hcmd]
    cases hdylib : cmd.dylib? with
    | none =>
      have hcall : loadCall (loadLibrary sys fuel) s cmd = none := by
        cases cmd <;> first | rfl | simp [LoadCommand.dylib?] at hdylib
      obtain ⟨rfl, -⟩ := parseLoadCommand_modify hdylib hcmd
      rw [List.filterMap_cons, hdylib, hcall, ← hide_modify_this (unparsed_read cmd l)]
      exact ih (by rwa [length_modify]) h
    | some dylib =>
      obtain ⟨kind, name, rfl⟩ : ∃ kind name, cmd = .dylib kind name := by
        cases cmd <;> first | exact ⟨_, _, rfl⟩ | simp [LoadCommand.dylib?] at hdylib
      obtain ⟨dep, s2, hdep, rfl, rfl⟩ := parseLoadCommand_dylib hcmd
      have hcall : loadCall (loadLibrary sys fuel) s (.dylib kind name) =
          some ⟨kind, name, s, dep, s2⟩ := by
        rw [loadCall, hdep]
      have hlen := (loadLibrary_loads hdep).1.length
      have hrest := ih (by rw [length_modify]; exact hthis.trans_le hlen) h
      rw [hide_modify_this (f := addDependency kind dep) fun _ => rfl] at hrest
      rw [List.filterMap_cons, hdylib, hcall]
      obtain rfl : (kind, name) = dylib := Option.some.inj hdylib
      simp only [List.map_cons, loadNames, loadLibrary_hide hthis, hdep, done_bind, ofOption_some,
        hrest]
      rfl

/-! ## The fields -/

def LoadCommand.linkedit? : LoadCommand → Option SegmentCommand
  | .segment seg => if seg.segname = "__LINKEDIT" then some seg else none
  | _ => none

structure SymtabCommand where
  stroff : Word
  symoff : Word
  asDysymtab : DysymtabCommand
  deriving DecidableEq

def LoadCommand.symtab? : LoadCommand → Option SymtabCommand
  | .symtab stroff symoff asDysymtab => some ⟨stroff, symoff, asDysymtab⟩
  | _ => none

def LoadCommand.dysymtab? : LoadCommand → Option DysymtabCommand
  | .dysymtab cmd => some cmd
  | _ => none

/-- What the command writes to `fDynamicInfo`. -/
def LoadCommand.dynamicInfo? (cmd : LoadCommand) : Option DynamicInfo :=
  cmd.dysymtab?.map .dysymtab <|> cmd.symtab?.map fun symtab => .symtab symtab.asDysymtab

/-- The commands that an image has once. -/
structure OneEach (commands : List LoadCommand) (linkedit : SegmentCommand)
    (symtab : SymtabCommand) (dysymtab : DysymtabCommand) : Prop where
  linkedit : commands.filterMap LoadCommand.linkedit? = [linkedit]
  symtab : commands.filterMap LoadCommand.symtab? = [symtab]
  dysymtab : commands.filterMap LoadCommand.dysymtab? = [dysymtab]

/-- `LC_SYMTAB` comes before `LC_DYSYMTAB`. -/
def symtabFirst (commands : List LoadCommand) : Bool :=
  commands.findIdx (fun cmd => cmd.symtab?.isSome) <
    commands.findIdx fun cmd => cmd.dysymtab?.isSome

/-- The `__LINKEDIT` segment comes before `LC_SYMTAB`. -/
def linkeditFirst (commands : List LoadCommand) : Bool :=
  commands.findIdx (fun cmd => cmd.linkedit?.isSome) <
    commands.findIdx fun cmd => cmd.symtab?.isSome

section Fields

variable {commands : List LoadCommand} {deps : List ImageId} {r : Reading}
  {linkedit : SegmentCommand} {symtab : SymtabCommand} {dysymtab : DysymtabCommand}

theorem readAll_dynamicInfo : (readAll commands deps r).1.fDynamicInfo =
    ((commands.filterMap LoadCommand.dynamicInfo?).getLast? <|> r.1.fDynamicInfo) := by
  induction commands generalizing deps r with
  | nil => simp [readAll]
  | cons cmd commands ih =>
    unfold readAll
    rw [ih, List.filterMap_cons]
    cases cmd <;> simp [LoadCommand.read, LoadCommand.dynamicInfo?, LoadCommand.symtab?,
      LoadCommand.dysymtab?, addSegment, addDependency, List.getLast?_cons]

theorem filterMap_dynamicInfo_of_no_symtab (h : commands.filterMap LoadCommand.symtab? = []) :
    commands.filterMap LoadCommand.dynamicInfo? =
      (commands.filterMap LoadCommand.dysymtab?).map .dysymtab := by
  rw [List.map_filterMap]
  refine List.filterMap_congr fun cmd hcmd => ?_
  simp [LoadCommand.dynamicInfo?, List.filterMap_eq_nil_iff.mp h cmd hcmd]

theorem filterMap_dynamicInfo_of_no_dysymtab (h : commands.filterMap LoadCommand.dysymtab? = []) :
    commands.filterMap LoadCommand.dynamicInfo? =
      (commands.filterMap LoadCommand.symtab?).map fun symtab => .symtab symtab.asDysymtab := by
  rw [List.map_filterMap]
  refine List.filterMap_congr fun cmd hcmd => ?_
  simp [LoadCommand.dynamicInfo?, List.filterMap_eq_nil_iff.mp h cmd hcmd]

theorem readAll_symtab : (readAll commands deps r).1.fSymtab = r.1.fSymtab ∧
    (readAll commands deps r).1.fStrings = r.1.fStrings := by
  induction commands generalizing deps r with
  | nil => exact ⟨rfl, rfl⟩
  | cons cmd commands ih =>
    unfold readAll
    rw [ih.1, ih.2]
    cases cmd <;> exact ⟨rfl, rfl⟩

theorem filterMap_dynamicInfo (hsymtab : commands.filterMap LoadCommand.symtab? = [symtab])
    (hdysymtab : commands.filterMap LoadCommand.dysymtab? = [dysymtab]) :
    commands.filterMap LoadCommand.dynamicInfo? =
      if symtabFirst commands then [.symtab symtab.asDysymtab, .dysymtab dysymtab]
      else [.dysymtab dysymtab, .symtab symtab.asDysymtab] := by
  induction commands with
  | nil => simp at hsymtab
  | cons cmd commands ih =>
    unfold symtabFirst at ih ⊢
    rw [List.filterMap_cons] at hsymtab hdysymtab ⊢
    rw [List.findIdx_cons, List.findIdx_cons]
    -- Behind the first of the two commands only the other one writes.
    cases cmd with
    | symtab stroff symoff asDysymtab =>
      obtain ⟨rfl, hnone⟩ := List.cons.inj hsymtab
      have hrest := filterMap_dynamicInfo_of_no_symtab hnone
      rw [show commands.filterMap LoadCommand.dysymtab? = [dysymtab] from hdysymtab] at hrest
      simp [LoadCommand.dynamicInfo?, LoadCommand.symtab?, LoadCommand.dysymtab?, hrest]
    | dysymtab cmd =>
      obtain ⟨rfl, hnone⟩ := List.cons.inj hdysymtab
      have hrest := filterMap_dynamicInfo_of_no_dysymtab hnone
      rw [show commands.filterMap LoadCommand.symtab? = [symtab] from hsymtab] at hrest
      simp [LoadCommand.dynamicInfo?, LoadCommand.symtab?, LoadCommand.dysymtab?, hrest]
    | segment | routines | dylib | dyldInfo | other =>
      have hrest := ih hsymtab hdysymtab
      simpa [LoadCommand.dynamicInfo?, LoadCommand.symtab?, LoadCommand.dysymtab?] using hrest

theorem readAll_symbolTable_of_no_symtab (h : commands.filterMap LoadCommand.symtab? = []) :
    (readAll commands deps r).2.symbolTable = r.2.symbolTable ∧
      (readAll commands deps r).2.symbolTableStrings = r.2.symbolTableStrings := by
  induction commands generalizing deps r with
  | nil => exact ⟨rfl, rfl⟩
  | cons cmd commands ih =>
    rw [List.filterMap_cons] at h
    unfold readAll
    cases cmd with
    | symtab => simp [LoadCommand.symtab?] at h
    | segment | routines | dylib | dysymtab | dyldInfo | other => exact ih h

theorem readAll_symbolTable_of_no_linkedit
    (hlinkedit : commands.filterMap LoadCommand.linkedit? = [])
    (hsymtab : commands.filterMap LoadCommand.symtab? = [symtab]) :
    (readAll commands deps r).2.symbolTable = r.1.fLinkEditBase + symtab.symoff ∧
      (readAll commands deps r).2.symbolTableStrings = r.1.fLinkEditBase + symtab.stroff := by
  induction commands generalizing deps r with
  | nil => simp at hsymtab
  | cons cmd commands ih =>
    rw [List.filterMap_cons] at hlinkedit hsymtab
    unfold readAll
    cases cmd with
    | symtab stroff symoff asDysymtab =>
      obtain ⟨rfl, hnone⟩ := List.cons.inj hsymtab
      exact readAll_symbolTable_of_no_symtab hnone
    | segment seg =>
      by_cases hname : seg.segname = "__LINKEDIT"
      · simp [LoadCommand.linkedit?, hname] at hlinkedit
      · have hnone : commands.filterMap LoadCommand.linkedit? = [] := by
          simpa [LoadCommand.linkedit?, hname] using hlinkedit
        have hbase : (addSegment seg r.1).fLinkEditBase = r.1.fLinkEditBase := if_neg hname
        rw [← hbase]
        exact ih hnone hsymtab
    | routines | dylib | dysymtab | dyldInfo | other => exact ih hlinkedit hsymtab

theorem readAll_symbolTable (hlinkedit : commands.filterMap LoadCommand.linkedit? = [linkedit])
    (hsymtab : commands.filterMap LoadCommand.symtab? = [symtab])
    (hfirst : linkeditFirst commands = true) :
    (readAll commands deps r).2.symbolTable =
        linkedit.vmaddr + r.1.fSlide - linkedit.fileoff + symtab.symoff ∧
      (readAll commands deps r).2.symbolTableStrings =
        linkedit.vmaddr + r.1.fSlide - linkedit.fileoff + symtab.stroff := by
  induction commands generalizing deps r with
  | nil => simp at hsymtab
  | cons cmd commands ih =>
    unfold linkeditFirst at ih hfirst
    rw [List.filterMap_cons] at hlinkedit hsymtab
    rw [List.findIdx_cons, List.findIdx_cons] at hfirst
    unfold readAll
    cases cmd with
    | symtab => simp [LoadCommand.symtab?] at hfirst
    | segment seg =>
      by_cases hname : seg.segname = "__LINKEDIT"
      · simp only [LoadCommand.linkedit?, hname, if_true] at hlinkedit
        obtain ⟨rfl, hnone⟩ := List.cons.inj hlinkedit
        have hbase : (addSegment seg r.1).fLinkEditBase = seg.vmaddr + r.1.fSlide - seg.fileoff :=
          if_pos hname
        rw [← hbase]
        exact readAll_symbolTable_of_no_linkedit hnone hsymtab
      · have hnone : (LoadCommand.segment seg).linkedit? = none := if_neg hname
        have hnone' : (LoadCommand.segment seg).symtab? = none := rfl
        rw [hnone] at hlinkedit hfirst
        exact ih hlinkedit hsymtab (by simpa [hnone'] using hfirst)
    | routines | dylib | dysymtab | dyldInfo | other =>
      exact ih hlinkedit hsymtab
        (by simpa [LoadCommand.linkedit?, LoadCommand.symtab?] using hfirst)

end Fields

/-! ## Two orders -/

/-- What an order of the commands could change. -/
structure ParsedFields where
  fSegmentLoadCommands : List SegmentCommand
  fDependencies : List ImageId
  fSymtab : Addr
  fStrings : Addr
  fDynamicInfo : Option DynamicInfo
  deriving DecidableEq

def MachObject.parsedFields (obj : MachObject) : ParsedFields where
  fSegmentLoadCommands := obj.fSegmentLoadCommands
  fDependencies := obj.fDependencies
  fSymtab := obj.fSymtab
  fStrings := obj.fStrings
  fDynamicInfo := obj.fDynamicInfo

def parsedFields (s : Linker) (im : ImageId) : Option ParsedFields :=
  s.images[im]?.map MachObject.parsedFields

/-- The commands in another order. Segments stay in their order, and so do dylibs. -/
structure Reordered (commands commands' : List LoadCommand) : Prop where
  perm : commands.Perm commands'
  segments : commands'.filterMap LoadCommand.segment? = commands.filterMap LoadCommand.segment?
  dylibs : commands'.filterMap LoadCommand.dylib? = commands.filterMap LoadCommand.dylib?
  linkeditFirst : linkeditFirst commands = true ∧ linkeditFirst commands' = true

theorem parsedFields_of_content {obj : MachObject} (h : content s this = some obj) :
    parsedFields s this = some obj.parsedFields := by
  obtain ⟨o, ho, rfl⟩ := content_eq_some.mp h
  rw [parsedFields, ho]
  rfl

section Orders

variable {commands commands' : List LoadCommand} {linkedit : SegmentCommand}
  {symtab : SymtabCommand} {dysymtab : DysymtabCommand} {s1 s2 : Linker}

theorem OneEach.reordered (h : OneEach commands linkedit symtab dysymtab)
    (hperm : commands.Perm commands') : OneEach commands' linkedit symtab dysymtab := by
  have hone : ∀ {α : Type} {f : LoadCommand → Option α} {x : α},
      commands.filterMap f = [x] → commands'.filterMap f = [x] := by
    intro α f x hx
    have hp := hperm.filterMap f
    rw [hx] at hp
    exact List.perm_singleton.mp hp.symm
  exact ⟨hone h.linkedit, hone h.symtab, hone h.dysymtab⟩

theorem parsedFields_parsed {obj : MachObject} (hobj : content s this = some obj)
    (hone : OneEach commands linkedit symtab dysymtab) (hfirst : linkeditFirst commands = true)
    (h : parseLoadCommands sys (loadLibrary sys fuel) this commands s = done s') :
    parsedFields s' this = some
      { fSegmentLoadCommands :=
          obj.fSegmentLoadCommands ++ commands.filterMap LoadCommand.segment?
        fDependencies := obj.fDependencies ++
          (parseCalls sys (loadLibrary sys fuel) this commands s).map LoadCall.dep
        fSymtab :=
          if sys.compressedSlot this || commands.any LoadCommand.isDyldInfo then obj.fSymtab
          else linkedit.vmaddr + obj.fSlide - linkedit.fileoff + symtab.symoff
        fStrings :=
          if sys.compressedSlot this || commands.any LoadCommand.isDyldInfo then obj.fStrings
          else linkedit.vmaddr + obj.fSlide - linkedit.fileoff + symtab.stroff
        fDynamicInfo :=
          some (if symtabFirst commands then .dysymtab dysymtab
            else .symtab symtab.asDysymtab) } := by
  obtain ⟨hnames, -, hread⟩ :=
    parseLoadCommands_read (loadLibrary_leavesAlone sys fuel this) hobj h
  rw [parsedFields_of_content hread]
  set deps := (parseCalls sys (loadLibrary sys fuel) this commands s).map LoadCall.dep with hdeps
  have hsegments := readAll_segments commands deps (obj, ⟨sys.compressedSlot this, 0, 0⟩)
  have htables := (readAll_tables (obj, ⟨sys.compressedSlot this, 0, 0⟩) hnames).1
  have hcompressed := (readAll_isClassic commands deps (obj, ⟨sys.compressedSlot this, 0, 0⟩)).2
  rw [← hdeps] at htables
  obtain ⟨hsymtab, hstrings⟩ := @readAll_symtab commands deps (obj, ⟨sys.compressedSlot this, 0, 0⟩)
  obtain ⟨htable, hstringTable⟩ := @readAll_symbolTable commands deps
    (obj, ⟨sys.compressedSlot this, 0, 0⟩) _ _ hone.linkedit hone.symtab hfirst
  have hdynamic : (readAll commands deps (obj, ⟨sys.compressedSlot this, 0, 0⟩)).1.fDynamicInfo =
      some (if symtabFirst commands then .dysymtab dysymtab else .symtab symtab.asDysymtab) := by
    rw [readAll_dynamicInfo, filterMap_dynamicInfo hone.symtab hone.dysymtab]
    split <;> rfl
  unfold readImage finishParse MachObject.parsedFields
  rw [hcompressed]
  split
  · rw [hsegments, htables, hsymtab, hstrings, hdynamic]
  · simp only [hsegments, htables, htable, hstringTable, hdynamic]

theorem parseCalls_deps (hthis : this < s.images.length)
    (hdylibs : commands'.filterMap LoadCommand.dylib? = commands.filterMap LoadCommand.dylib?)
    (h1 : parseLoadCommands sys (loadLibrary sys fuel) this commands s = done s1)
    (h2 : parseLoadCommands sys (loadLibrary sys fuel) this commands' s = done s2) :
    (parseCalls sys (loadLibrary sys fuel) this commands s).map LoadCall.dep =
      (parseCalls sys (loadLibrary sys fuel) this commands' s).map LoadCall.dep := by
  obtain ⟨t1, l1, -, hloop1, -⟩ := parseLoadCommands_loop h1
  obtain ⟨t2, l2, -, hloop2, -⟩ := parseLoadCommands_loop h2
  have hnames1 := parseLoop_loadNames hthis hloop1
  have hnames2 := parseLoop_loadNames hthis hloop2
  rw [hdylibs, hnames1] at hnames2
  exact congrArg Prod.fst (done.inj hnames2)

/-- **The order of the load commands.** Two orders of the same commands give the same tables, with
`fDynamicInfo` at the `LC_DYSYMTAB` command, if and only if `LC_SYMTAB` comes before it in both. -/
theorem parse_order_iff (hone : OneEach commands linkedit symtab dysymtab)
    (horder : Reordered commands commands') (hthis : this < s.images.length)
    (h1 : parseLoadCommands sys (loadLibrary sys fuel) this commands s = done s1)
    (h2 : parseLoadCommands sys (loadLibrary sys fuel) this commands' s = done s2) :
    ((parsedFields s1 this).map ParsedFields.fDynamicInfo = some (some (.dysymtab dysymtab)) ∧
      parsedFields s1 this = parsedFields s2 this) ↔
    (symtabFirst commands = true ∧ symtabFirst commands' = true) := by
  obtain ⟨o, ho⟩ : ∃ o, s.images[this]? = some o := ⟨_, List.getElem?_eq_getElem hthis⟩
  have hobj : content s this = some (o.setNextImage none) := content_eq_some.mpr ⟨o, ho, rfl⟩
  have hfields1 := parsedFields_parsed hobj hone horder.linkeditFirst.1 h1
  have hfields2 := parsedFields_parsed hobj (hone.reordered horder.perm) horder.linkeditFirst.2 h2
  rw [horder.segments, ← parseCalls_deps hthis horder.dylibs h1 h2,
    ← horder.perm.any_eq] at hfields2
  rw [hfields1, hfields2]
  cases symtabFirst commands <;> cases symtabFirst commands' <;> simp

end Orders

def linkeditSegment : SegmentCommand := ⟨"__LINKEDIT", 0x3000, 0x1000, 0x1000, []⟩

/-- The string table is at 0x100, and so is `iextdefsym` in the wrong command. -/
def symtabWords : DysymtabCommand :=
  { (default : DysymtabCommand) with iextdefsym := 0x100, nextdefsym := 0x20 }

def symtabCommand : SymtabCommand := ⟨0x100, 0x40, symtabWords⟩

def dysymtabCommand : DysymtabCommand := { (default : DysymtabCommand) with nextdefsym := 1 }

/-- The four commands, in the usual order. -/
def usualCommands : List LoadCommand :=
  [.segment linkeditSegment, .symtab 0x100 0x40 symtabWords, .dysymtab dysymtabCommand,
    .dyldInfo ⟨0, 0, 0, 0⟩]

def dyldInfoFirst : List LoadCommand :=
  [.segment linkeditSegment, .dyldInfo ⟨0, 0, 0, 0⟩, .symtab 0x100 0x40 symtabWords,
    .dysymtab dysymtabCommand]

def dysymtabFirst : List LoadCommand :=
  [.segment linkeditSegment, .dysymtab dysymtabCommand, .symtab 0x100 0x40 symtabWords,
    .dyldInfo ⟨0, 0, 0, 0⟩]

theorem parse_order_iff_dyldInfoFirst :
    ((parsedFields (parsedImage (plainSystem []) usualCommands) 0).map ParsedFields.fDynamicInfo =
        some (some (.dysymtab dysymtabCommand)) ∧
      parsedFields (parsedImage (plainSystem []) usualCommands) 0 =
        parsedFields (parsedImage (plainSystem []) dyldInfoFirst) 0) ↔
    (symtabFirst usualCommands = true ∧ symtabFirst dyldInfoFirst = true) :=
  parse_order_iff (s := oneImage)
    (⟨rfl, rfl, rfl⟩ : OneEach _ linkeditSegment symtabCommand dysymtabCommand)
    ⟨.cons _ (List.perm_append_singleton _ [_, _]), rfl, rfl, rfl, rfl⟩ (by decide)
    (rfl : parseLoadCommands (plainSystem []) (loadLibrary (plainSystem []) 0) 0 _ _ = done _) rfl

/-- With `LC_DYSYMTAB` first, `fDynamicInfo` points at the `LC_SYMTAB` command. -/
theorem not_parse_order :
    ¬ ∀ (sys : System) (fuel : Nat) (this : ImageId) (commands commands' : List LoadCommand)
        (linkedit : SegmentCommand) (symtab : SymtabCommand) (dysymtab : DysymtabCommand)
        (s s1 s2 : Linker),
      OneEach commands linkedit symtab dysymtab → Reordered commands commands' →
      this < s.images.length →
      parseLoadCommands sys (loadLibrary sys fuel) this commands s = done s1 →
      parseLoadCommands sys (loadLibrary sys fuel) this commands' s = done s2 →
      (parsedFields s1 this).map ParsedFields.fDynamicInfo = some (some (.dysymtab dysymtab)) ∧
        parsedFields s1 this = parsedFields s2 this := by
  intro h
  have hfields := (h (plainSystem []) 0 0 dysymtabFirst usualCommands linkeditSegment symtabCommand
    dysymtabCommand oneImage (parsedImage (plainSystem []) dysymtabFirst)
    (parsedImage (plainSystem []) usualCommands) ⟨rfl, rfl, rfl⟩
    ⟨.cons _ (.swap _ _ _), rfl, rfl, rfl, rfl⟩ (by decide) rfl rfl).1
  have hwrong : (parsedFields (parsedImage (plainSystem []) dysymtabFirst) 0).map
      ParsedFields.fDynamicInfo = some (some (.symtab symtabWords)) := rfl
  rw [hwrong] at hfields
  exact absurd hfields (by decide)

end LibSystem.Lnk
