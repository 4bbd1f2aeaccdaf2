import LibSystem.Lnk.Content

/-!
# What is read from the load commands

The fields that `parseLoadCommands` fills in depend on the commands and on the images that
`loadLibrary` returns, and not on what the loads do besides.
-/

namespace LibSystem.Lnk

open Outcome

/-- A call of `loadLibrary` for a dylib command, which has returned an image. -/
structure LoadCall where
  kind : DylibKind
  name : String
  before : Linker
  dep : ImageId
  after : Linker

/-- The call that the command makes. -/
def loadCall (load : String → Linker → Outcome (Option ImageId × Linker)) (s : Linker) :
    LoadCommand → Option LoadCall
  | .dylib kind name =>
    match load name s with
    | .done (some dep, s') => some ⟨kind, name, s, dep, s'⟩
    | _ => none
  | _ => none

/-- The calls that the loop makes, in order. -/
def loadCalls (load : String → Linker → Outcome (Option ImageId × Linker)) (this : ImageId) :
    List LoadCommand → Linker → ParseLocals → List LoadCall
  | [], _, _ => []
  | cmd :: rest, s, l =>
    (loadCall load s cmd).toList ++
      match parseLoadCommand load this s l cmd with
      | .done (s, l) => loadCalls load this rest s l
      | _ => []

/-! ## Reading without the linker -/

/-- What is known of an image while its commands are read. -/
abbrev Reading := MachObject × ParseLocals

/-- One command. `dep` is the library, if the command names one. -/
def LoadCommand.read (dep : ImageId) (r : Reading) : LoadCommand → Reading
  | .segment seg => (addSegment seg r.1, r.2)
  | .routines initAddress => ({ r.1 with fRoutines := some initAddress }, r.2)
  | .dylib kind _ => (addDependency kind dep r.1, r.2)
  | .symtab stroff symoff asDysymtab =>
    ({ r.1 with fDynamicInfo := some (.symtab asDysymtab) },
      { r.2 with
        symbolTableStrings := r.1.fLinkEditBase + stroff
        symbolTable := r.1.fLinkEditBase + symoff })
  | .dysymtab cmd => ({ r.1 with fDynamicInfo := some (.dysymtab cmd) }, r.2)
  | .dyldInfo cmd => ({ r.1 with fDyldInfo := some cmd }, { r.2 with compressed := true })
  | .other => r

/-- All the commands. Each dylib command takes the next library. -/
def readAll : List LoadCommand → List ImageId → Reading → Reading
  | [], _, r => r
  | cmd :: rest, deps, r =>
    readAll rest (if cmd.dylib?.isSome then deps.tail else deps) (cmd.read (deps.headD 0) r)

/-- What the parse makes of the image. `slot` is what `compressed` holds at first. -/
def readImage (commands : List LoadCommand) (deps : List ImageId) (slot : Bool)
    (obj : MachObject) : MachObject :=
  finishParse (readAll commands deps (obj, ⟨slot, 0, 0⟩)).2
    (readAll commands deps (obj, ⟨slot, 0, 0⟩)).1

/-- The calls of `loadLibrary` that the parse makes. -/
def parseCalls (sys : System) (load : String → Linker → Outcome (Option ImageId × Linker))
    (this : ImageId) (commands : List LoadCommand) (s : Linker) : List LoadCall :=
  loadCalls load this commands s ⟨sys.compressedSlot this, 0, 0⟩

variable {sys : System} {fuel : Nat} {s s' : Linker} {this : ImageId} {cmd : LoadCommand}
  {commands : List LoadCommand} {l l' : ParseLocals} {obj : MachObject}

theorem readAll_cons_of_none (hcmd : cmd.dylib? = none) (deps : List ImageId) (r : Reading) :
    readAll (cmd :: commands) deps r = readAll commands deps (cmd.read 0 r) := by
  cases cmd <;> first | rfl | simp [LoadCommand.dylib?] at hcmd

theorem readAll_cons_dylib (kind : DylibKind) (name : String) (dep : ImageId) (deps : List ImageId)
    (r : Reading) : readAll (.dylib kind name :: commands) (dep :: deps) r =
      readAll commands deps (addDependency kind dep r.1, r.2) := rfl

theorem content_eq_some : content s this = some obj ↔
    ∃ o, s.images[this]? = some o ∧ o.setNextImage none = obj := by
  rw [content, Option.map_eq_some_iff]

theorem content_modify {f : MachObject → MachObject}
    (hf : ∀ o : MachObject, (f o).setNextImage none = f (o.setNextImage none)) :
    content (s.modify this f) this = (content s this).map f := by
  unfold content
  rw [getElem?_modify]
  cases s.images[this]? with
  | none => rfl
  | some o => simp [hf]

theorem finishParse_setNextImage (l : ParseLocals) (o : MachObject) :
    (finishParse l o).setNextImage none = finishParse l (o.setNextImage none) := by
  unfold finishParse
  split <;> rfl

/-- A load leaves the image that is being parsed as it is, except for the link. -/
def LeavesAlone (load : String → Linker → Outcome (Option ImageId × Linker)) (this : Nat) : Prop :=
  ∀ name s r s', this < s.images.length → load name s = done (r, s') →
    s.images.length ≤ s'.images.length ∧ content s' this = content s this

theorem loadLibrary_leavesAlone (sys : System) (fuel : Nat) (this : ImageId) :
    LeavesAlone (loadLibrary sys fuel) this := by
  intro name s r s' hthis hload
  obtain ⟨al, hload'⟩ := loadLibrary_eq_done.mp hload
  exact ⟨(loadLibrary_loads hload).1.length,
    (loadLibraryEx_sameBelow (Nat.le_refl _) hload').content this hthis⟩

section Reading

variable {load : String → Linker → Outcome (Option ImageId × Linker)}
  (hload : LeavesAlone load this)

theorem lt_of_content (h : content s this = some obj) : this < s.images.length := by
  obtain ⟨o, ho, -⟩ := content_eq_some.mp h
  exact (List.getElem?_eq_some_iff.mp ho).1

theorem parseLoadCommand_modify (hcmd : cmd.dylib? = none)
    (h : parseLoadCommand load this s l cmd = done (s', l')) :
    s' = s.modify this (fun o => (cmd.read 0 (o, l)).1) ∧
      ∀ o, s.images[this]? = some o → l' = (cmd.read 0 (o, l)).2 := by
  cases cmd with
  | segment seg =>
    obtain ⟨o, -, h⟩ := bind_eq_done.mp h
    split at h
    · simp at h
    · obtain ⟨rfl, rfl⟩ := by simpa using h
      exact ⟨rfl, fun _ _ => rfl⟩
  | routines initAddress =>
    obtain ⟨rfl, rfl⟩ := by simpa [parseLoadCommand] using h
    exact ⟨rfl, fun _ _ => rfl⟩
  | dylib kind name => simp [LoadCommand.dylib?] at hcmd
  | symtab stroff symoff asDysymtab =>
    obtain ⟨o, ho, h⟩ := bind_eq_done.mp h
    split at h
    · simp at h
    · obtain ⟨rfl, rfl⟩ := by simpa using h
      refine ⟨rfl, fun o' ho' => ?_⟩
      rw [Option.some.inj ((ofOption_eq_done.mp ho).symm.trans ho')]
      rfl
  | dysymtab cmd =>
    obtain ⟨rfl, rfl⟩ := by simpa [parseLoadCommand] using h
    exact ⟨rfl, fun _ _ => rfl⟩
  | dyldInfo cmd =>
    obtain ⟨rfl, rfl⟩ := by simpa [parseLoadCommand] using h
    exact ⟨rfl, fun _ _ => rfl⟩
  | other =>
    obtain ⟨rfl, rfl⟩ := by simpa [parseLoadCommand] using h
    exact ⟨(show s.modify this id = s by simp [Linker.modify]).symm, fun _ _ => rfl⟩

theorem read_setNextImage (cmd : LoadCommand) (o : MachObject) (l : ParseLocals) :
    cmd.read 0 (o.setNextImage none, l) =
      ((cmd.read 0 (o, l)).1.setNextImage none, (cmd.read 0 (o, l)).2) := by
  cases cmd <;> rfl

theorem parseLoadCommand_read (hcmd : cmd.dylib? = none) (hobj : content s this = some obj)
    (h : parseLoadCommand load this s l cmd = done (s', l')) :
    content s' this = some (cmd.read 0 (obj, l)).1 ∧ l' = (cmd.read 0 (obj, l)).2 := by
  obtain ⟨rfl, hlocals⟩ := parseLoadCommand_modify hcmd h
  refine ⟨?_, ?_⟩
  · rw [content_modify fun o => by rw [read_setNextImage], hobj, Option.map_some]
  · obtain ⟨o, ho, rfl⟩ := content_eq_some.mp hobj
    rw [read_setNextImage, hlocals o ho]

theorem parseLoadCommand_dylib {kind : DylibKind} {name : String}
    (h : parseLoadCommand load this s l (.dylib kind name) = done (s', l')) :
    ∃ dep s1, load name s = done (some dep, s1) ∧ l' = l ∧
      s' = s1.modify this (addDependency kind dep) := by
  obtain ⟨⟨dep, s1⟩, hdep, h⟩ := bind_eq_done.mp h
  cases dep with
  | none => simp at h
  | some dep =>
    obtain ⟨o, -, h⟩ := bind_eq_done.mp h
    split at h
    · simp at h
    · obtain ⟨rfl, rfl⟩ := by simpa using h
      exact ⟨dep, s1, hdep, rfl, rfl⟩

include hload

theorem parseLoop_read (hobj : content s this = some obj)
    (h : parseLoop load this commands s l = done (s', l')) :
    (loadCalls load this commands s l).map (fun c => (c.kind, c.name)) =
      commands.filterMap LoadCommand.dylib? ∧
    (∀ c ∈ loadCalls load this commands s l, load c.name c.before = done (some c.dep, c.after)) ∧
    content s' this =
      some (readAll commands ((loadCalls load this commands s l).map LoadCall.dep) (obj, l)).1 ∧
    l' = (readAll commands ((loadCalls load this commands s l).map LoadCall.dep) (obj, l)).2 := by
  induction commands generalizing s l obj with
  | nil =>
    obtain ⟨rfl, rfl⟩ := by simpa [parseLoop] using h
    exact ⟨rfl, by simp [loadCalls], hobj, rfl⟩
  | cons cmd commands ih =>
    obtain ⟨⟨s1, l1⟩, hcmd, h⟩ := bind_eq_done.mp h
    unfold loadCalls
    rw [hcmd]
    cases hdylib : cmd.dylib? with
    | none =>
      have hcall : loadCall load s cmd = none := by
        cases cmd <;> first | rfl | simp [LoadCommand.dylib?] at hdylib
      obtain ⟨hcontent1, rfl⟩ := parseLoadCommand_read hdylib hobj hcmd
      rw [readAll_cons_of_none hdylib, hcall, List.filterMap_cons, hdylib]
      exact ih hcontent1 h
    | some dylib =>
      obtain ⟨kind, name, rfl⟩ : ∃ kind name, cmd = .dylib kind name := by
        cases cmd <;> first | exact ⟨_, _, rfl⟩ | simp [LoadCommand.dylib?] at hdylib
      obtain ⟨dep, s2, hdep, rfl, rfl⟩ := parseLoadCommand_dylib hcmd
      have hobj1 : content (s2.modify this (addDependency kind dep)) this =
          some (addDependency kind dep obj) := by
        rw [content_modify fun _ => rfl, (hload name s _ s2 (lt_of_content hobj) hdep).2, hobj]
        rfl
      obtain ⟨hnames, hcalls, hcontent, hlocals⟩ := ih hobj1 h
      have hcall : loadCall load s (.dylib kind name) = some ⟨kind, name, s, dep, s2⟩ := by
        rw [loadCall, hdep]
      rw [hcall, List.filterMap_cons, hdylib]
      obtain rfl : (kind, name) = dylib := Option.some.inj hdylib
      refine ⟨by simp [hnames], fun c hc => ?_, hcontent, hlocals⟩
      rcases List.mem_cons.mp hc with rfl | hc
      · exact hdep
      · exact hcalls c hc

theorem parseLoadCommands_read (hobj : content s this = some obj)
    (h : parseLoadCommands sys load this commands s = done s') :
    (parseCalls sys load this commands s).map (fun c => (c.kind, c.name)) =
      commands.filterMap LoadCommand.dylib? ∧
    (∀ c ∈ parseCalls sys load this commands s,
      load c.name c.before = done (some c.dep, c.after)) ∧
    content s' this = some (readImage commands
      ((parseCalls sys load this commands s).map LoadCall.dep) (sys.compressedSlot this) obj) := by
  obtain ⟨s1, l1, obj, hloop, -, rfl⟩ := parseLoadCommands_loop h
  obtain ⟨hnames, hcalls, hcontent, rfl⟩ := parseLoop_read hload hobj hloop
  refine ⟨hnames, hcalls, ?_⟩
  show content (s1.modify this (finishParse _)) this = _
  rw [content_modify (finishParse_setNextImage _), hcontent]
  rfl

end Reading

/-! ## The fields -/

theorem readAll_tables {calls : List LoadCall} (r : Reading)
    (hcalls : calls.map (fun c => (c.kind, c.name)) = commands.filterMap LoadCommand.dylib?) :
    (readAll commands (calls.map LoadCall.dep) r).1.fDependencies =
        r.1.fDependencies ++ calls.map LoadCall.dep ∧
      (readAll commands (calls.map LoadCall.dep) r).1.fReExports =
        r.1.fReExports ++ (calls.filter fun c => c.kind = .reexport).map LoadCall.dep := by
  induction commands generalizing calls r with
  | nil =>
    obtain rfl : calls = [] := by simpa using hcalls
    simp [readAll]
  | cons cmd commands ih =>
    cases hdylib : cmd.dylib? with
    | none =>
      rw [List.filterMap_cons, hdylib] at hcalls
      rw [readAll_cons_of_none hdylib, (ih _ hcalls).1, (ih _ hcalls).2]
      cases cmd <;> first | exact ⟨rfl, rfl⟩ | simp [LoadCommand.dylib?] at hdylib
    | some dylib =>
      obtain ⟨kind, name, rfl⟩ : ∃ kind name, cmd = .dylib kind name := by
        cases cmd <;> first | exact ⟨_, _, rfl⟩ | simp [LoadCommand.dylib?] at hdylib
      rw [List.filterMap_cons, hdylib] at hcalls
      obtain rfl : (kind, name) = dylib := Option.some.inj hdylib
      obtain ⟨c, rest, rfl, hc, hrest⟩ := List.map_eq_cons_iff.mp hcalls
      obtain ⟨rfl, rfl⟩ := Prod.mk.inj hc
      rw [List.map_cons, readAll_cons_dylib, (ih _ hrest).1, (ih _ hrest).2]
      by_cases hkind : c.kind = .reexport <;> simp [addDependency, hkind]

theorem readAll_segments (commands : List LoadCommand) (deps : List ImageId) (r : Reading) :
    (readAll commands deps r).1.fSegmentLoadCommands =
      r.1.fSegmentLoadCommands ++ commands.filterMap LoadCommand.segment? := by
  induction commands generalizing deps r with
  | nil => simp [readAll]
  | cons cmd commands ih =>
    unfold readAll
    rw [ih, List.filterMap_cons]
    cases cmd <;> simp [LoadCommand.read, LoadCommand.segment?, addSegment, addDependency]

/-! ## Classic or compressed -/

def LoadCommand.isDyldInfo : LoadCommand → Bool
  | .dyldInfo _ => true
  | _ => false

def isClassic (s : Linker) (im : ImageId) : Option Bool :=
  s.images[im]?.map fun obj => obj.fIsClassic

theorem readAll_isClassic (commands : List LoadCommand) (deps : List ImageId) (r : Reading) :
    (readAll commands deps r).1.fIsClassic = r.1.fIsClassic ∧
      (readAll commands deps r).2.compressed =
        (r.2.compressed || commands.any LoadCommand.isDyldInfo) := by
  induction commands generalizing deps r with
  | nil => simp [readAll]
  | cons cmd commands ih =>
    obtain ⟨hclassic, hcompressed⟩ := ih (if cmd.dylib?.isSome then deps.tail else deps)
      (cmd.read (deps.headD 0) r)
    unfold readAll
    rw [hclassic, hcompressed, List.any_cons, ← Bool.or_assoc]
    cases cmd <;> simp [LoadCommand.read, LoadCommand.isDyldInfo, addSegment, addDependency]

theorem isClassic_of_content (h : content s this = some obj) :
    isClassic s this = some obj.fIsClassic := by
  obtain ⟨o, ho, rfl⟩ := content_eq_some.mp h
  rw [isClassic, ho]
  rfl

theorem content_of_isClassic {b : Bool} (h : isClassic s this = some b) :
    ∃ obj, content s this = some obj ∧ obj.fIsClassic = b := by
  obtain ⟨o, ho, rfl⟩ := Option.map_eq_some_iff.mp h
  exact ⟨o.setNextImage none, content_eq_some.mpr ⟨o, ho, rfl⟩, rfl⟩

theorem isClassic_parsed (hfresh : isClassic s this = some false)
    (h : parseLoadCommands sys (loadLibrary sys fuel) this commands s = done s') :
    isClassic s' this =
      some (!(sys.compressedSlot this || commands.any LoadCommand.isDyldInfo)) := by
  obtain ⟨obj, hobj, hfalse⟩ := content_of_isClassic hfresh
  have hread := (parseLoadCommands_read (loadLibrary_leavesAlone sys fuel this) hobj h).2.2
  obtain ⟨hclassic, hcompressed⟩ := readAll_isClassic commands
    ((parseCalls sys (loadLibrary sys fuel) this commands s).map LoadCall.dep)
    (obj, ⟨sys.compressedSlot this, 0, 0⟩)
  rw [isClassic_of_content hread, readImage, finishParse, hcompressed]
  split
  · rename_i hslot
    rw [hslot, hclassic, hfalse]
    rfl
  · rename_i hslot
    rw [Bool.eq_false_of_not_eq_true hslot]
    rfl

/-- **Classic or compressed.** Two parses of the same commands choose what the commands say if and
only if `compressed` starts out as false or there is a command that assigns it. -/
theorem isClassic_by_file_iff {sys' : System} {fuel' : Nat} {t t' : Linker} {this' : ImageId}
    (hs : isClassic s this = some false) (ht : isClassic t this' = some false)
    (hs' : parseLoadCommands sys (loadLibrary sys fuel) this commands s = done s')
    (ht' : parseLoadCommands sys' (loadLibrary sys' fuel') this' commands t = done t') :
    (isClassic s' this = some (!commands.any LoadCommand.isDyldInfo) ∧
      isClassic t' this' = some (!commands.any LoadCommand.isDyldInfo) ∧
      isClassic s' this = isClassic t' this') ↔
    (commands.any LoadCommand.isDyldInfo = true ∨
      sys.compressedSlot this = false ∧ sys'.compressedSlot this' = false) := by
  rw [isClassic_parsed hs hs', isClassic_parsed ht ht']
  cases commands.any LoadCommand.isDyldInfo <;> cases sys.compressedSlot this <;>
    cases sys'.compressedSlot this' <;> decide

/-- One new object, and nothing else. -/
def oneImage : Linker :=
  { Linker.initial (fun _ => 0) with images := [MachObject.new] }

/-- The local variable is made where a nonzero byte has been left. -/
def usedStackSystem : System :=
  { plainSystem [] with compressedSlot := fun _ => true }

/-- A file that was made before the compressed format. -/
def classicCommands : List LoadCommand :=
  [.segment ⟨"__TEXT", 0x1000, 0x1000, 0, []⟩]

/-- The state after the commands have been parsed. -/
def parsedImage (sys : System) (commands : List LoadCommand) : Linker :=
  match parseLoadCommands sys (loadLibrary sys 0) 0 commands oneImage with
  | .done s => s
  | _ => oneImage

theorem isClassic_by_file_iff_compressed :
    (isClassic (parsedImage usedStackSystem (plainCommands [])) 0 =
        some (!(plainCommands []).any LoadCommand.isDyldInfo) ∧
      isClassic (parsedImage (plainSystem []) (plainCommands [])) 0 =
        some (!(plainCommands []).any LoadCommand.isDyldInfo) ∧
      isClassic (parsedImage usedStackSystem (plainCommands [])) 0 =
        isClassic (parsedImage (plainSystem []) (plainCommands [])) 0) ↔
    ((plainCommands []).any LoadCommand.isDyldInfo = true ∨
      usedStackSystem.compressedSlot 0 = false ∧ (plainSystem []).compressedSlot 0 = false) :=
  isClassic_by_file_iff (s := oneImage) (t := oneImage) rfl rfl
    (rfl : parseLoadCommands usedStackSystem (loadLibrary usedStackSystem 0) 0 _ _ = done _)
    (rfl : parseLoadCommands (plainSystem []) (loadLibrary (plainSystem []) 0) 0 _ _ = done _)

/-- On a used stack a classic file is taken for a compressed one. -/
theorem not_isClassic_by_file :
    ¬ ∀ (sys : System) (fuel : Nat) (this : ImageId) (commands : List LoadCommand) (s s' : Linker),
      isClassic s this = some false →
      parseLoadCommands sys (loadLibrary sys fuel) this commands s = done s' →
      isClassic s' this = some (!commands.any LoadCommand.isDyldInfo) := by
  intro h
  have hclassic := h usedStackSystem 0 0 classicCommands oneImage
    (parsedImage usedStackSystem classicCommands) rfl rfl
  have hflag : isClassic (parsedImage usedStackSystem classicCommands) 0 = some false := rfl
  rw [hflag] at hclassic
  exact absurd hclassic (by decide)

end LibSystem.Lnk
