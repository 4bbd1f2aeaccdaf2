import LibSystem.Lnk.Mapping
import LibSystem.Lnk.StreamReads
import LibSystem.Turns

/-!
# The walks over the load commands

`instantiateFromFile` and `parseLoadCommands` on the bytes of the commands. A read outside of
them is a fault, and so is a write behind the end of a table.
-/

namespace LibSystem.Lnk

open Outcome Access

/-- What a program reads, if it stays in the region. -/
def Region.get {α : Type} (T : Region) (p : Program α) : Outcome α := T.go p >>= fun r => .done r.1

namespace Walks

/-! ## The format -/

def mhMagic : Word := 0xfeedface

def lcSegment : Word := 0x1
def lcSymtab : Word := 0x2
def lcUnixthread : Word := 0x5
def lcDysymtab : Word := 0xb
def lcLoadDylib : Word := 0xc
def lcRoutines : Word := 0x11
def lcLoadWeakDylib : Word := 0x80000018
def lcReexportDylib : Word := 0x8000001f
def lcDyldInfo : Word := 0x22
def lcDyldInfoOnly : Word := 0x80000022
def lcLoadUpwardDylib : Word := 0x80000023

def IsDylib (cmd : Word) : Prop :=
  cmd = lcLoadDylib ∨ cmd = lcLoadWeakDylib ∨ cmd = lcReexportDylib ∨ cmd = lcLoadUpwardDylib

instance : DecidablePred IsDylib := fun _ => inferInstanceAs (Decidable (_ ∨ _ ∨ _ ∨ _))

/-- `SEG_LINKEDIT`: `__LINKEDIT`. -/
def segLinkedit : CString :=
  ⟨[0x5f, 0x5f, 0x4c, 0x49, 0x4e, 0x4b, 0x45, 0x44, 0x49, 0x54], by decide⟩

/-- `__program_vars` -/
def programVars : CString :=
  ⟨[0x5f, 0x5f, 0x70, 0x72, 0x6f, 0x67, 0x72, 0x61, 0x6d, 0x5f, 0x76, 0x61, 0x72, 0x73],
    by decide⟩

/-- `__bridge` -/
def bridge : CString := ⟨[0x5f, 0x5f, 0x62, 0x72, 0x69, 0x64, 0x67, 0x65], by decide⟩

/-- What the walks use of a `macho_header`, which is 28 bytes long. -/
structure MachHeader where
  magic : Word
  ncmds : Word
  sizeofcmds : Word

/-! ## `instantiateFromFile` -/

/-- What `mmap` does: the range that it finds for `mm::reserve`, and what the memory is after
`mm::wire` and `mm::wire_anon`. -/
structure Mapper where
  reserve : Word → Addr
  wire : Mmap → Mem → Mem
  wireAnon : Mmap → Mem → Mem

/-- The local variables of the scan. `ncmds` counts the commands that are left. -/
structure Scan where
  ncmds : Word
  offset : Word
  segments : List Addr
  mapSize : Word

def Scan.start (header : MachHeader) : Scan := ⟨header.ncmds, 0, [], 0⟩

def Scan.Going (w : Scan) : Prop := w.ncmds ≠ 0

instance : DecidablePred Scan.Going := fun w => inferInstanceAs (Decidable (w.ncmds ≠ 0))

/-- One command. `T` is the buffer that the commands have been read into. -/
def scanCommand (T : Region) (w : Scan) : Outcome (Bool × Scan) := do
  let lcp := T.start + w.offset
  let cmdsize ← T.get (Program.load (lcp + 4))
  let w' := { w with ncmds := w.ncmds - 1, offset := w.offset + cmdsize }
  let cmd ← T.get (Program.load lcp)
  if cmd = lcSegment then
    if 64 ≤ w.segments.length then .fault
    else
      let vmsize ← T.get (Program.load (lcp + 28))
      .done (false, { w' with segments := w.segments ++ [lcp], mapSize := w.mapSize + vmsize })
  else .done (false, w')

/-- Maps the segments. The memory changes, and the buffer may be in it. -/
def mapSegments (mm : Mapper) (start stop : Addr) (loaderBias : Word) :
    List Addr → Mem → Outcome Mem
  | [], mem => .done mem
  | seg :: rest, mem => do
    let T : Region := ⟨mem, start, stop⟩
    let filesize ← T.get (Program.load (seg + 36))
    let vmsize ← T.get (Program.load (seg + 28))
    let vmaddr ← T.get (Program.load (seg + 24))
    let fileoff ← T.get (Program.load (seg + 32))
    let mmFilesize := roundPage filesize
    let delta := roundPage vmsize - mmFilesize
    let mem := mm.wire ⟨pageAlignPtr (vmaddr + loaderBias), mmFilesize, fileoff⟩ mem
    if delta ≠ 0 ∧ loaderBias = 0 then
      let vmaddr ← Region.get ⟨mem, start, stop⟩ (Program.load (seg + 24))
      let mem := mm.wireAnon ⟨pageAlignPtr (vmaddr + loaderBias + mmFilesize), delta, 0⟩ mem
      mapSegments mm start stop loaderBias rest mem
    else mapSegments mm start stop loaderBias rest mem

/-- The new object, the entry of the linker's image table, and the memory. -/
structure Instance where
  fSlide : Word
  fHeader : Addr
  fIsSplitSeg : Bool
  tableEntry : Addr × Word
  mem : Mem

/-- The commands are at `cmdBase`, a buffer of `sizeofcmds` bytes. -/
def instantiateFromFile (mm : Mapper) (header : MachHeader) (cmdBase : Addr) (mem : Mem) :
    Outcome Instance :=
  if header.magic ≠ mhMagic then
    .halt "instantiateFromFile(%s): invalid magic (%p instead of %p)"
  else do
    let stop := cmdBase + header.sizeofcmds
    let T : Region := ⟨mem, cmdBase, stop⟩
    let scan ← loop Scan.Going (scanCommand T) (header.ncmds.toNat + 1) (.start header)
    match scan.segments with
    | [] => .halt "instantiateFromFile(%s): no segments"
    | first :: rest => do
      let vmaddr ← T.get (Program.load (first + 24))
      let loaderBias := if vmaddr ≠ 0 then 0 else mm.reserve scan.mapSize
      let mem ← mapSegments mm cmdBase stop loaderBias (first :: rest) mem
      let T : Region := ⟨mem, cmdBase, stop⟩
      let vmaddr ← T.get (Program.load (first + 24))
      let vmsize ← T.get (Program.load (first + 28))
      let fHeader := vmaddr + loaderBias
      .done ⟨loaderBias, fHeader, loaderBias = 0, (fHeader, vmsize), mem⟩

/-! ## `processSections` -/

/-- An image that is mapped, with the commands behind its header. `load` is `lnk::loadLibrary`,
which halts with a message or returns. `ownData` is what the linker may touch of the image's
own data, where `__program_vars` and `__bridge` lead. -/
structure Mapped where
  header : MachHeader
  fHeader : Addr
  fSlide : Word
  load : CString → Linker → Except String (Option ImageId × Linker)
  gEnvironPtr : Word
  ownData : Addr → Bool
  /-- What the local variable `compressed` holds before it is assigned. -/
  compressedSlot : Bool

namespace Mapped

variable (m : Mapped)

/-- The `sizeofcmds` bytes of the commands. -/
def commands (mem : Mem) : Region :=
  ⟨mem, m.fHeader + 28, m.fHeader + 28 + m.header.sizeofcmds⟩

/-- An access to `n` bytes of the image's data. -/
def touch (a : Addr) (n : Nat) : Outcome Unit :=
  if ∀ i < n, m.ownData (a + BitVec.ofNat 32 i) then .done () else .fault

end Mapped

section Image

variable (m : Mapped)

def processSection (mem : Mem) (sect : Addr) : Outcome Mem := do
  let T := m.commands mem
  let _flags ← T.get (Program.load (sect + 56))
  if (← T.get (Program.strcmp 16 programVars.bytes sect)) = .eq then
    let addr ← T.get (Program.load (sect + 32))
    let pv := addr + m.fSlide
    -- The message shows all four pointers.
    m.touch pv 16
    let environPtr := mem.load (pv + 12)
    m.touch environPtr 4
    .done (mem.store environPtr m.gEnvironPtr)
  else if (← T.get (Program.strcmp 16 bridge.bytes sect)) = .eq then
    let addr ← T.get (Program.load (sect + 32))
    m.touch (addr + m.fSlide) 4
    .done mem
  else .done mem

/-- The loop over the sections of a segment, at `sectionsStart[index]`. -/
structure SectionWalk where
  mem : Mem
  index : Nat

def sectionAt (seg : Addr) (index : Nat) : Addr := seg + 56 + 68 * BitVec.ofNat 32 index

def SectionWalk.Going (seg : Addr) (nsects : Word) (w : SectionWalk) : Prop :=
  sectionAt seg w.index < sectionAt seg nsects.toNat

instance (seg : Addr) (nsects : Word) : DecidablePred (SectionWalk.Going seg nsects) :=
  fun _ => inferInstanceAs (Decidable (_ < _))

def sectionTurn (seg : Addr) (w : SectionWalk) : Outcome (Bool × SectionWalk) := do
  let mem ← processSection m w.mem (sectionAt seg w.index)
  .done (false, ⟨mem, w.index + 1⟩)

def processSegment (mem : Mem) (seg : Addr) : Outcome Mem := do
  let nsects ← (m.commands mem).get (Program.load (seg + 48))
  let w ← loop (SectionWalk.Going seg nsects) (sectionTurn m seg) (nsects.toNat + 1) ⟨mem, 0⟩
  .done w.mem

def processSections : List Addr → Mem → Outcome Mem
  | [], mem => .done mem
  | seg :: rest, mem => do
    let mem ← processSegment m mem seg
    processSections rest mem

/-! ## `parseLoadCommands` -/

/-- The object and the local variables. The tables hold the entries that have been written. -/
structure Parsing where
  linker : Linker
  ncmds : Word
  offset : Word
  fSegmentLoadCommands : List Addr
  fLinkEditBase : Addr
  fEntryPoint : Addr
  fRoutines : Addr
  fDependencies : List ImageId
  fReExports : List ImageId
  fDynamicInfo : Addr
  fDyldInfo : Addr
  fIsClassic : Bool
  fStrings : Addr
  fSymtab : Addr
  symbolTable : Addr
  symbolTableStrings : Addr
  compressed : Bool

def Parsing.start (linker : Linker) : Parsing where
  linker := linker
  ncmds := m.header.ncmds
  offset := 28
  fSegmentLoadCommands := []
  fLinkEditBase := 0
  fEntryPoint := 0
  fRoutines := 0
  fDependencies := []
  fReExports := []
  fDynamicInfo := 0
  fDyldInfo := 0
  fIsClassic := false
  fStrings := 0
  fSymtab := 0
  symbolTable := 0
  symbolTableStrings := 0
  compressed := m.compressedSlot

def Parsing.Going (w : Parsing) : Prop := w.ncmds ≠ 0

instance : DecidablePred Parsing.Going := fun w => inferInstanceAs (Decidable (w.ncmds ≠ 0))

def parseSegment (lcp : Addr) (w : Parsing) : Outcome Parsing :=
  if 64 ≤ w.fSegmentLoadCommands.length then .fault
  else do
    let T := m.commands w.linker.mem
    let w := { w with fSegmentLoadCommands := w.fSegmentLoadCommands ++ [lcp] }
    if (← T.get (Program.strcmp 16 segLinkedit.bytes (lcp + 8))) = .eq then
      let vmaddr ← T.get (Program.load (lcp + 24))
      let fileoff ← T.get (Program.load (lcp + 32))
      .done { w with fLinkEditBase := vmaddr + m.fSlide - fileoff }
    else .done w

/-- `dep` has been loaded. The command is read once more. -/
def addDependency (lcp : Addr) (dep : ImageId) (w : Parsing) : Outcome Parsing :=
  if 128 ≤ w.fDependencies.length then .fault
  else do
    let w := { w with fDependencies := w.fDependencies ++ [dep] }
    let cmd ← (m.commands w.linker.mem).get (Program.load lcp)
    if cmd = lcReexportDylib then
      if 128 ≤ w.fReExports.length then .fault
      else .done { w with fReExports := w.fReExports ++ [dep] }
    else .done w

def parseDylib (lcp : Addr) (w : Parsing) : Outcome Parsing := do
  let T := m.commands w.linker.mem
  let offset ← T.get (Program.load (lcp + 8))
  let nn ← T.get (Program.cstringAt (T.stop.toNat + 1) (lcp + offset))
  match m.load nn w.linker with
  | .error msg => .halt msg
  | .ok (none, _) => .halt "DEP_INIT: %s failed to load"
  | .ok (some dep, linker) => addDependency m lcp dep { w with linker := linker }

def parseSymtab (lcp : Addr) (w : Parsing) : Outcome Parsing :=
  if w.fLinkEditBase = 0 then .halt "LC_SYMTAB before linkedit segment!"
  else do
    let T := m.commands w.linker.mem
    let stroff ← T.get (Program.load (lcp + 16))
    let symoff ← T.get (Program.load (lcp + 8))
    .done { w with
      symbolTableStrings := w.fLinkEditBase + stroff
      symbolTable := w.fLinkEditBase + symoff
      -- There is no `break`: the command is taken for the next case too.
      fDynamicInfo := lcp }

def parseCommand (cmd : Word) (lcp : Addr) (w : Parsing) : Outcome Parsing :=
  if cmd = lcSegment then parseSegment m lcp w
  else if cmd = lcUnixthread then do
    let r15 ← (m.commands w.linker.mem).get (Program.load (lcp + 76))
    .done { w with fEntryPoint := m.fSlide + r15 }
  else if cmd = lcRoutines then .done { w with fRoutines := lcp }
  else if IsDylib cmd then parseDylib m lcp w
  else if cmd = lcSymtab then parseSymtab m lcp w
  else if cmd = lcDysymtab then .done { w with fDynamicInfo := lcp }
  else if cmd = lcDyldInfo ∨ cmd = lcDyldInfoOnly then
    .done { w with compressed := true, fDyldInfo := lcp }
  else .done w

namespace Parsing

def lcp (w : Parsing) : Addr := m.fHeader + w.offset

/-- The walk goes on behind the command. -/
def next (w : Parsing) (cmdsize : Word) : Parsing :=
  { w with ncmds := w.ncmds - 1, offset := w.offset + cmdsize }

variable (w : Parsing) (cmdsize : Word)

@[simp] theorem next_linker : (w.next cmdsize).linker = w.linker := rfl
@[simp] theorem next_ncmds : (w.next cmdsize).ncmds = w.ncmds - 1 := rfl
@[simp] theorem next_fLinkEditBase : (w.next cmdsize).fLinkEditBase = w.fLinkEditBase := rfl
@[simp] theorem next_fDependencies : (w.next cmdsize).fDependencies = w.fDependencies := rfl
@[simp] theorem next_fReExports : (w.next cmdsize).fReExports = w.fReExports := rfl
@[simp] theorem next_fSegmentLoadCommands :
    (w.next cmdsize).fSegmentLoadCommands = w.fSegmentLoadCommands := rfl

end Parsing

def parseTurn (w : Parsing) : Outcome (Bool × Parsing) := do
  let T := m.commands w.linker.mem
  let lcp := w.lcp m
  let cmdsize ← T.get (Program.load (lcp + 4))
  let cmd ← T.get (Program.load lcp)
  let w ← parseCommand m cmd lcp (w.next cmdsize)
  .done (false, w)

def parseLoop (linker : Linker) : Outcome Parsing :=
  loop Parsing.Going (parseTurn m) (m.header.ncmds.toNat + 1) (.start m linker)

def Parsing.finish (w : Parsing) : Parsing :=
  if w.compressed then w
  else { w with fIsClassic := true, fStrings := w.symbolTableStrings, fSymtab := w.symbolTable }

def parseLoadCommands (linker : Linker) : Outcome Parsing :=
  if m.header.ncmds = 0 then .halt "segmentless macho file, probably a memory goof"
  else do
    let w ← parseLoop m linker
    let mem ← processSections m w.fSegmentLoadCommands w.linker.mem
    .done { w.finish with linker := { w.linker with mem := mem } }

end Image

end Walks

end LibSystem.Lnk
