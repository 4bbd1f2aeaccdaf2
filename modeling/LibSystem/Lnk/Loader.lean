import LibSystem.Lnk.Initialize
import LibSystem.Lnk.Rebase

/-!
# Loading

`lnk::loadLibraryEx` with the parsing of load commands that it recurses through,
`dlopen`, and the startup in `lnk::_main`.
-/

namespace LibSystem.Lnk

open Outcome

def libsystemPath : String := "/usr/lib/libSystem.B.dylib"
def libgccPath : String := "/usr/lib/libgcc_s.1.dylib"

inductive DylibKind where
  | load
  | loadWeak
  | reexport
  | loadUpward
  deriving DecidableEq

/-- The commands that `parseLoadCommands` looks at. -/
inductive LoadCommand where
  | segment (seg : SegmentCommand)
  | routines (initAddress : Word)
  | dylib (kind : DylibKind) (name : String)
  /-- `asDysymtab` is what a `dysymtab_command` at the place of the command would be. -/
  | symtab (stroff symoff : Word) (asDysymtab : DysymtabCommand)
  | dysymtab (cmd : DysymtabCommand)
  | dyldInfo (cmd : DyldInfoCommand)
  | other

/-- A file, and what the kernel makes of it: the range that `mm::reserve` finds for it, and the
memory after the segments have been wired. -/
structure File where
  isMachO : Bool
  commands : List LoadCommand
  reserved : Word
  wire : Mem → Mem

/-- What surrounds the loader. The classic relocations and the binding are taken as functions
that only write to memory, and that may halt. -/
structure System where
  files : String → Option File
  linkerCommands : List LoadCommand
  linkerHeader : Addr
  linkerSlide : Word
  mainCommands : List LoadCommand
  mainHeader : Addr
  /-- What the local variable `compressed` holds before it is assigned. -/
  compressedSlot : ImageId → Bool
  gEnvironPtr : Word
  classicRebase : Mem → MachObject → Outcome Mem
  /-- The memory afterwards, and `sUnresolvedCount`. -/
  bindSymbols : Linker → ImageId → Outcome (Mem × Word)

/-! ## Parsing -/

/-- The local variables of `parseLoadCommands`. -/
structure ParseLocals where
  compressed : Bool
  symbolTable : Addr
  symbolTableStrings : Addr

def addDependency (kind : DylibKind) (dep : ImageId) (obj : MachObject) : MachObject :=
  { obj with
    fDependencies := obj.fDependencies ++ [dep]
    fReExports := if kind = .reexport then obj.fReExports ++ [dep] else obj.fReExports }

def addSegment (seg : SegmentCommand) (obj : MachObject) : MachObject :=
  { obj with
    fSegmentLoadCommands := obj.fSegmentLoadCommands ++ [seg]
    fLinkEditBase :=
      if seg.segname = "__LINKEDIT" then seg.vmaddr + obj.fSlide - seg.fileoff
      else obj.fLinkEditBase }

/-- One command. `load` is `lnk::loadLibrary`. -/
def parseLoadCommand (load : String → Linker → Outcome (Option ImageId × Linker)) (this : ImageId)
    (s : Linker) (l : ParseLocals) : LoadCommand → Outcome (Linker × ParseLocals)
  | .segment seg => do
    let obj ← s.object this
    if 64 ≤ obj.fSegmentLoadCommands.length then .fault
    else .done (s.modify this (addSegment seg), l)
  | .routines initAddress =>
    .done (s.modify this fun obj => { obj with fRoutines := some initAddress }, l)
  | .dylib kind name => do
    let (dep, s) ← load name s
    match dep with
    | none => .halt "DEP_INIT: %s failed to load"
    | some dep => do
      let obj ← s.object this
      if 128 ≤ obj.fDependencies.length then .fault
      else .done (s.modify this (addDependency kind dep), l)
  | .symtab stroff symoff asDysymtab => do
    let obj ← s.object this
    if obj.fLinkEditBase = 0 then .halt "LC_SYMTAB before linkedit segment!"
    else
      -- There is no `break`: the command is taken for the next case too.
      .done (s.modify this fun obj => { obj with fDynamicInfo := some (.symtab asDysymtab) },
        { l with
          symbolTableStrings := obj.fLinkEditBase + stroff
          symbolTable := obj.fLinkEditBase + symoff })
  | .dysymtab cmd =>
    .done (s.modify this fun obj => { obj with fDynamicInfo := some (.dysymtab cmd) }, l)
  | .dyldInfo cmd =>
    .done (s.modify this fun obj => { obj with fDyldInfo := some cmd },
      { l with compressed := true })
  | .other => .done (s, l)

def parseLoop (load : String → Linker → Outcome (Option ImageId × Linker)) (this : ImageId) :
    List LoadCommand → Linker → ParseLocals → Outcome (Linker × ParseLocals)
  | [], s, l => .done (s, l)
  | cmd :: rest, s, l => do
    let (s, l) ← parseLoadCommand load this s l cmd
    parseLoop load this rest s l

/-- `environPtr` is the fourth word of `struct ProgramVars`. -/
def processSections (gEnvironPtr : Word) (mem : Mem) (obj : MachObject) : Mem :=
  (obj.fSegmentLoadCommands.flatMap fun seg => seg.sections).foldl
    (fun mem sect =>
      if sect.sectname = "__program_vars" then
        mem.store (mem.load (sect.addr + obj.fSlide + 12)) gEnvironPtr
      else mem) mem

def finishParse (l : ParseLocals) (obj : MachObject) : MachObject :=
  if l.compressed then obj
  else { obj with fIsClassic := true, fStrings := l.symbolTableStrings, fSymtab := l.symbolTable }

def parseLoadCommands (sys : System) (load : String → Linker → Outcome (Option ImageId × Linker))
    (this : ImageId) (commands : List LoadCommand) (s : Linker) : Outcome Linker :=
  if commands.isEmpty then .halt "segmentless macho file, probably a memory goof"
  else do
    let (s, l) ← parseLoop load this commands s ⟨sys.compressedSlot this, 0, 0⟩
    let s := s.modify this (finishParse l)
    let obj ← s.object this
    .done { s with mem := processSections sys.gEnvironPtr s.mem obj }

/-! ## Loading -/

/-- The path that could be opened, and the file. -/
def openLibrary (sys : System) (path : String) : Option (String × File) :=
  ["", "/System/", "/usr/lib/"].findSome? fun pre =>
    (sys.files (pre ++ path)).map fun file => (pre ++ path, file)

def LoadCommand.segment? : LoadCommand → Option SegmentCommand
  | .segment seg => some seg
  | _ => none

def instantiateFromFile (path origPath : String) (file : File) (s : Linker) :
    Outcome (ImageId × Linker) :=
  if file.isMachO = false then .halt "instantiateFromFile(%s): invalid magic (%p instead of %p)"
  else
    let segments := file.commands.filterMap LoadCommand.segment?
    if 64 < segments.length then .fault
    else
      match segments with
      | [] => .halt "instantiateFromFile(%s): no segments"
      | seg :: _ =>
        let loaderBias := if seg.vmaddr ≠ 0 then 0 else file.reserved
        let obj := { MachObject.new with
          fSlide := loaderBias
          fHeader := seg.vmaddr + loaderBias
          fFilePath := some path
          fOrigFilePath := some origPath
          fIsSplitSeg := loaderBias = 0 }
        .done (s.images.length, { s with images := s.images ++ [obj], mem := file.wire s.mem })

/-- The first image of the chain that was asked for under this path. -/
def findLoaded (s : Linker) (path : String) : Outcome (Option ImageId) := do
  let chain ← s.imageChain
  .done (chain.find? fun im => (s.images[im]?.bind fun obj => obj.fOrigFilePath) = some path)

/-- Puts the new image behind the first one of the chain. -/
def insertImage (lib : ImageId) (s : Linker) : Outcome Linker := do
  let first ← Outcome.ofOption s.sFirstImage
  let obj ← s.object first
  let s := s.modify lib fun lib => lib.setNextImage obj.fNextImage
  let s := s.modify first fun first => first.setNextImage (some lib)
  .done { s with sImageCount := s.sImageCount + 1 }

def doRebase (sys : System) (s : Linker) (this : ImageId) : Outcome Linker := do
  let obj ← s.object this
  let mem ←
    if obj.fIsClassic then if obj.fIsSplitSeg then .done s.mem else sys.classicRebase s.mem obj
    else do
      let info ← Outcome.ofOption obj.fDyldInfo
      readRebase s.mem obj (obj.fLinkEditBase + info.rebaseOff)
        (obj.fLinkEditBase + info.rebaseOff + info.rebaseSize)
  .done ({ s with mem := mem }.record (.rebase this))

/-- The image, and `*already_loaded` if it has been written. The fuel bounds the recursion. -/
def loadLibraryEx (sys : System) :
    Nat → String → Linker → Outcome (Option ImageId × Option Bool × Linker)
  | 0, _, _ => .timeout
  | fuel + 1, path, s =>
    if path = libsystemPath ∨ path = libgccPath then .done (s.sFirstImage, none, s)
    else do
      match ← findLoaded s path with
      | some im => .done (some im, some true, s)
      | none =>
        match openLibrary sys path with
        | none => .done (s.sDylinker, some false, s)
        | some (nn, file) => do
          let (lib, s) ← instantiateFromFile nn path file s
          let s ← insertImage lib s
          let loadLibrary := fun name s => do
            let (im, _, s) ← loadLibraryEx sys fuel name s
            .done (im, s)
          let s ← parseLoadCommands sys loadLibrary lib file.commands s
          let s ← doRebase sys s lib
          .done (some lib, some false, s)

def loadLibrary (sys : System) (fuel : Nat) (name : String) (s : Linker) :
    Outcome (Option ImageId × Linker) := do
  let (im, _, s) ← loadLibraryEx sys fuel name s
  .done (im, s)

/-! ## The two life cycles -/

def doBindSymbols (sys : System) (s : Linker) (this : ImageId) : Outcome Linker := do
  let (mem, count) ← sys.bindSymbols s this
  .done ({ s with mem := mem, sUnresolvedCount := count }.record (.bind this))

/-- The handle, which is null if nothing was loaded. -/
def dlopen (sys : System) (fuel : Nat) (path : String) (s : Linker) :
    Outcome (Option ImageId × Linker) := do
  let (dlib, alreadyLoaded, s) ← loadLibraryEx sys fuel path s
  if dlib = s.sFirstImage then .done (none, s)
  else if alreadyLoaded = some true then .done (dlib, s)
  else do
    let im ← Outcome.ofOption dlib
    let s ← doBindSymbols sys s im
    let s ← doInitialize s im
    .done (dlib, s)

def bindAll (sys : System) : List ImageId → Linker → Outcome Linker
  | [], s => .done s
  | im :: rest, s => do
    let s ← doBindSymbols sys s im
    bindAll sys rest s

def bindChain (sys : System) (s : Linker) : Outcome Linker := do
  let chain ← s.imageChain
  bindAll sys chain s

def instantiateFromMemory (header : Addr) (slide : Word) (s : Linker) : ImageId × Linker :=
  (s.images.length, { s with
    images := s.images ++ [{ MachObject.new with fHeader := header, fSlide := slide }] })

def auxiliaryLibraries : List String :=
  ["/usr/lib/system/libsystem_math.dylib", "/usr/lib/system/libsystem_blocks.dylib",
    "/usr/lib/system/libunwind.dylib", "/usr/lib/system/launch.dylib",
    "/usr/lib/system/libkeymgr.dylib", "/usr/lib/system/libcommonCrypto.dylib"]

def loadAuxiliarySystemLibraries (sys : System) (fuel : Nat) :
    List String → Linker → Outcome Linker
  | [], s => .done s
  | path :: rest, s => do
    let (im, s) ← loadLibrary sys fuel path s
    loadAuxiliarySystemLibraries sys fuel rest { s with sAuxLibs := s.sAuxLibs ++ [im] }

def casPath : String := "/usr/lib/bunny.dylib"

/-- The globals of `lnk.cpp` when the program starts. -/
def Linker.initial (mem : Mem) : Linker where
  mem := mem
  images := []
  sMainExecutable := none
  sDylinker := none
  sFirstImage := none
  sImageCount := 0
  sUnresolvedCount := 0
  sAuxLibs := []
  trace := []

/-- `_main` up to the call of the main executable's entry point. -/
def startup (sys : System) (fuel : Nat) (garbage : Bool) (mem : Mem) : Outcome Linker := do
  let (dylinker, s) := instantiateFromMemory sys.linkerHeader sys.linkerSlide (.initial mem)
  let s := { s with sDylinker := some dylinker }
  let s ← parseLoadCommands sys (loadLibrary sys fuel) dylinker sys.linkerCommands s
  let s := { s with sImageCount := s.sImageCount + 1, sFirstImage := some dylinker }
  let s ← loadAuxiliarySystemLibraries sys fuel auxiliaryLibraries s
  let (main, s) := instantiateFromMemory sys.mainHeader 0 s
  let s := { s with sMainExecutable := some main }
  let s ← parseLoadCommands sys (loadLibrary sys fuel) main sys.mainCommands s
  let (_, s) ← loadLibrary sys fuel casPath s
  let s ← bindChain sys s
  let s ← doBindSymbols sys s main
  let s ← initializeChain fuel garbage s
  doInitialize s main

/-- `_main` up to the call of `initializeChain`, with the main executable. -/
def startupLoads (sys : System) (fuel : Nat) (mem : Mem) : Outcome (ImageId × Linker) := do
  let (dylinker, s) := instantiateFromMemory sys.linkerHeader sys.linkerSlide (.initial mem)
  let s := { s with sDylinker := some dylinker }
  let s ← parseLoadCommands sys (loadLibrary sys fuel) dylinker sys.linkerCommands s
  let s := { s with sImageCount := s.sImageCount + 1, sFirstImage := some dylinker }
  let s ← loadAuxiliarySystemLibraries sys fuel auxiliaryLibraries s
  let (main, s) := instantiateFromMemory sys.mainHeader 0 s
  let s := { s with sMainExecutable := some main }
  let s ← parseLoadCommands sys (loadLibrary sys fuel) main sys.mainCommands s
  let (_, s) ← loadLibrary sys fuel casPath s
  let s ← bindChain sys s
  let s ← doBindSymbols sys s main
  .done (main, s)

theorem startup_eq (sys : System) (fuel : Nat) (garbage : Bool) (mem : Mem) :
    startup sys fuel garbage mem = startupLoads sys fuel mem >>= fun v =>
      initializeChain fuel garbage v.2 >>= fun s => doInitialize s v.1 := by
  unfold startup startupLoads
  simp only [bind_bind, done_bind]

/-! ## What the loops keep -/

section Preserved

variable {P : Linker → Prop} {sys : System} {fuel : Nat} {s s' : Linker}

theorem loadAuxiliarySystemLibraries_preserves {paths : List String}
    (hload : ∀ path ∈ paths, ∀ s r s', P s → loadLibrary sys fuel path s = done (r, s') →
      P { s' with sAuxLibs := s'.sAuxLibs ++ [r] })
    (hs : P s) (h : loadAuxiliarySystemLibraries sys fuel paths s = done s') : P s' := by
  induction paths generalizing s with
  | nil =>
    obtain rfl := done.inj h
    exact hs
  | cons path paths ih =>
    obtain ⟨⟨im, s1⟩, hpath, hrest⟩ := bind_eq_done.mp h
    have hs1 := hload path List.mem_cons_self s im s1 hs hpath
    exact ih (fun name hname => hload name (List.mem_cons_of_mem _ hname)) hs1 hrest

theorem bindAll_preserves {chain : List ImageId}
    (hbind : ∀ im ∈ chain, ∀ s s', P s → doBindSymbols sys s im = done s' → P s')
    (hs : P s) (h : bindAll sys chain s = done s') : P s' := by
  induction chain generalizing s with
  | nil =>
    obtain rfl := done.inj h
    exact hs
  | cons im rest ih =>
    obtain ⟨s1, him, hrest⟩ := bind_eq_done.mp h
    have hs1 := hbind im List.mem_cons_self s s1 hs him
    exact ih (fun j hj => hbind j (List.mem_cons_of_mem _ hj)) hs1 hrest

theorem startup_preserves {garbage : Bool} {mem : Mem}
    (hinit : ∀ s im s', P s → doInitialize s im = done s' → P s')
    (hloads : ∀ main s, startupLoads sys fuel mem = done (main, s) → P s)
    (h : startup sys fuel garbage mem = done s) : P s := by
  rw [startup_eq] at h
  obtain ⟨⟨main, s1⟩, hs1, h⟩ := bind_eq_done.mp h
  obtain ⟨s2, hchain, hmain⟩ := bind_eq_done.mp h
  exact hinit s2 main s (initializeChain_preserves hinit (hloads main s1 hs1) hchain) hmain

end Preserved

theorem parseLoadCommands_loop {sys : System}
    {load : String → Linker → Outcome (Option ImageId × Linker)} {this : ImageId}
    {commands : List LoadCommand} {s s' : Linker}
    (h : parseLoadCommands sys load this commands s = .done s') :
    ∃ s1 l1 obj, parseLoop load this commands s ⟨sys.compressedSlot this, 0, 0⟩ = .done (s1, l1) ∧
      (s1.modify this (finishParse l1)).object this = .done obj ∧
      s' = { s1.modify this (finishParse l1) with
        mem := processSections sys.gEnvironPtr s1.mem obj } := by
  unfold parseLoadCommands at h
  split at h
  · simp at h
  obtain ⟨⟨s1, l1⟩, hloop, h⟩ := bind_eq_done.mp h
  obtain ⟨obj, hobj, h⟩ := bind_eq_done.mp h
  exact ⟨s1, l1, obj, hloop, hobj, (Outcome.done.inj h).symm⟩

theorem startupLoads_eq_done {sys : System} {fuel : Nat} {mem : Mem} {main : ImageId} {s : Linker}
    (h : startupLoads sys fuel mem = done (main, s)) :
    ∃ s1 s2 s3 cas s4 chain s5,
      parseLoadCommands sys (loadLibrary sys fuel) 0 sys.linkerCommands
        { Linker.initial mem with
          images := [{ MachObject.new with fHeader := sys.linkerHeader, fSlide := sys.linkerSlide }]
          sDylinker := some 0 } = done s1 ∧
      loadAuxiliarySystemLibraries sys fuel auxiliaryLibraries
        { s1 with sImageCount := s1.sImageCount + 1, sFirstImage := some 0 } = done s2 ∧
      parseLoadCommands sys (loadLibrary sys fuel) main sys.mainCommands
        { s2 with
          images := s2.images ++ [{ MachObject.new with fHeader := sys.mainHeader, fSlide := 0 }]
          sMainExecutable := some main } = done s3 ∧
      loadLibrary sys fuel casPath s3 = done (cas, s4) ∧ s4.imageChain = done chain ∧
      bindAll sys chain s4 = done s5 ∧ doBindSymbols sys s5 main = done s ∧
      main = s2.images.length := by
  obtain ⟨s1, hdylinker, h⟩ := bind_eq_done.mp h
  obtain ⟨s2, haux, h⟩ := bind_eq_done.mp h
  obtain ⟨s3, hmain, h⟩ := bind_eq_done.mp h
  obtain ⟨⟨cas, s4⟩, hcas, h⟩ := bind_eq_done.mp h
  obtain ⟨s5, hbind, h⟩ := bind_eq_done.mp h
  obtain ⟨s6, hbindmain, h⟩ := bind_eq_done.mp h
  obtain ⟨chain, hchain, hbind⟩ := bind_eq_done.mp hbind
  obtain ⟨rfl, rfl⟩ := Prod.mk.inj (done.inj h)
  exact ⟨s1, s2, s3, cas, s4, chain, s5, hdylinker, haux, hmain, hcas, hchain, hbind, hbindmain,
    rfl⟩

theorem dlopen_eq_done {sys : System} {fuel : Nat} {path : String} {handle : Option ImageId}
    {s s' : Linker} (h : dlopen sys fuel path s = done (handle, s')) :
    ∃ dlib al s1, loadLibraryEx sys fuel path s = done (dlib, al, s1) ∧
      ((dlib = s1.sFirstImage ∧ handle = none ∧ s' = s1) ∨
        (al = some true ∧ handle = dlib ∧ s' = s1) ∨
        ∃ im s2, dlib = some im ∧ handle = dlib ∧ doBindSymbols sys s1 im = done s2 ∧
          doInitialize s2 im = done s') := by
  obtain ⟨⟨dlib, al, s1⟩, hload, h⟩ := bind_eq_done.mp h
  refine ⟨dlib, al, s1, hload, ?_⟩
  dsimp only at h
  split at h
  · rename_i hfirst
    obtain ⟨rfl, rfl⟩ := Prod.mk.inj (done.inj h)
    exact .inl ⟨hfirst, rfl, rfl⟩
  split at h
  · rename_i hloaded
    obtain ⟨rfl, rfl⟩ := Prod.mk.inj (done.inj h)
    exact .inr (.inl ⟨hloaded, rfl, rfl⟩)
  · obtain ⟨im, him, h⟩ := bind_eq_done.mp h
    obtain ⟨s2, hbind, h⟩ := bind_eq_done.mp h
    obtain ⟨s3, hinit, h⟩ := bind_eq_done.mp h
    obtain ⟨rfl, rfl⟩ := Prod.mk.inj (done.inj h)
    exact .inr (.inr ⟨im, s2, Outcome.ofOption_eq_done.mp him, rfl, hbind, hinit⟩)

/-- The states between the `dlopen` calls of a run. -/
inductive Session (sys : System) : Linker → Prop where
  | startup {fuel : Nat} {garbage : Bool} {mem : Mem} {s : Linker}
      (h : startup sys fuel garbage mem = done s) : Session sys s
  | dlopen {fuel : Nat} {path : String} {s s' : Linker} {handle : Option ImageId}
      (hs : Session sys s) (h : dlopen sys fuel path s = done (handle, s')) : Session sys s'

/-! ## Small systems -/

def plainCommands (dylibs : List (DylibKind × String)) : List LoadCommand :=
  .segment ⟨"__TEXT", 0x1000, 0x1000, 0, []⟩ :: .dyldInfo ⟨0, 0, 0, 0⟩ ::
    dylibs.map fun dylib => .dylib dylib.1 dylib.2

/-- A library with an empty symbol table, and nothing to rebase. -/
def plainLibrary (dylibs : List (DylibKind × String)) : File where
  isMachO := true
  commands := plainCommands dylibs
  reserved := 0
  wire := id

def plainSystem (files : List (String × File)) : System where
  files := fun path => files.lookup path
  linkerCommands := plainCommands []
  linkerHeader := 0x8000
  linkerSlide := 0
  mainCommands := plainCommands []
  mainHeader := 0x1000
  compressedSlot := fun _ => false
  gEnvironPtr := 0
  classicRebase := fun mem _ => .done mem
  bindSymbols := fun s _ => .done (s.mem, s.sUnresolvedCount)

/-- The state after the startup. -/
def started (sys : System) : Linker :=
  match startup sys 1 false fun _ => 0 with
  | .done s => s
  | _ => .initial fun _ => 0

def opened (sys : System) (path : String) : Linker :=
  match dlopen sys 3 path (started sys) with
  | .done (_, s) => s
  | _ => started sys

end LibSystem.Lnk
