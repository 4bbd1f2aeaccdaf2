import LibSystem.Lnk.Binding
import LibSystem.Lnk.Initialize

/-!
# Binding an image

`MachObject::doBindSymbols`, with the indirect symbols and the external relocations of
the classic images.
-/

namespace LibSystem.Lnk

open Outcome

def sNonLazySymbolPointers : Word := 0x6
def sLazySymbolPointers : Word := 0x7
def indirectSymbolLocal : Word := 0x80000000
def indirectSymbolAbs : Word := 0x40000000
def vmProtWrite : Word := 0x2
def nType : Byte := 0x0e
def nSect : Byte := 0x0e

/-- The fields of an image's load commands at which nothing but the binding looks. -/
structure BindCommands where
  bindOff : Word
  bindSize : Word
  weakBindOff : Word
  weakBindSize : Word
  lazyBindOff : Word
  lazyBindSize : Word
  /-- By segment. -/
  initprot : Nat → Word
  /-- By segment and section. -/
  reserved1 : Nat → Nat → Word

/-! ## Segments -/

def segWriteable (cmds : BindCommands) (segIndex : Nat) : Bool :=
  cmds.initprot segIndex &&& vmProtWrite ≠ 0

def getFirstWritableSegmentAddress (cmds : BindCommands) (obj : MachObject) : Outcome Addr :=
  match (List.range obj.fSegmentLoadCommands.length).find? (segWriteable cmds) with
  | some i => segActualLoadAddr obj i
  | none => .halt "getFirstWritableSegmentAddress: no writable segment"

def getClassicRelocBase (cmds : BindCommands) (obj : MachObject) : Outcome Addr :=
  if obj.fIsSplitSeg then getFirstWritableSegmentAddress cmds obj else segActualLoadAddr obj 0

/-! ## Indirect symbols -/

/-- `GET_LIBRARY_ORDINAL`. -/
def getLibraryOrdinal (desc : BitVec 16) : Word := (desc >>> 8).setWidth 32

/-- One pointer, whose entry of the indirect table is at `entry`. -/
def bindIndirect (fuel : Nat) (this : ImageId) (obj : MachObject) (ptrToBind entry : Addr)
    (s : Linker) : Outcome Linker :=
  let symbolIndex := s.mem.load entry
  if symbolIndex = indirectSymbolLocal then
    .done { s with mem := s.mem.store ptrToBind (s.mem.load ptrToBind + obj.fSlide) }
  else if symbolIndex = indirectSymbolAbs then .halt "ABS!"
  else if symbolIndex = 0 then .halt "malformed classic image!"
  else do
    let sym := obj.fSymtab + 12 * symbolIndex
    let symbolName ← cstringAt s.mem fuel (obj.fStrings + s.mem.load sym)
    bind fuel s this ptrToBind bindTypePointer symbolName 0
      (getLibraryOrdinal (s.mem.load16 (sym + 6)))

/-- The pointers of a section from `ptrToBind` on. -/
def bindIndirects (fuel : Nat) (this : ImageId) (obj : MachObject) :
    Nat → Addr → Addr → Linker → Outcome Linker
  | 0, _, _, s => .done s
  | count + 1, ptrToBind, entry, s => do
    let s ← bindIndirect fuel this obj ptrToBind entry s
    bindIndirects fuel this obj count (ptrToBind + 4) (entry + 4) s

def bindIndirectSection (fuel : Nat) (cmds : BindCommands) (this : ImageId) (obj : MachObject)
    (segment : Nat) (s : Linker) (sect : Section × Nat) : Outcome Linker :=
  let type := sect.1.flags &&& sectionType
  if type = sNonLazySymbolPointers ∨ type = sLazySymbolPointers then
    bindIndirects fuel this obj (sect.1.size.toNat / 4) (sect.1.addr + obj.fSlide)
      (obj.fLinkEditBase + obj.dysymtab.indirectsymoff + 4 * cmds.reserved1 segment sect.2) s
  else .done s

def classicBindIndirect (fuel : Nat) (cmds : BindCommands) (this : ImageId) (obj : MachObject)
    (s : Linker) : Outcome Linker := do
  let _ ← Outcome.ofOption obj.fDynamicInfo
  obj.fSegmentLoadCommands.zipIdx.foldlM (fun s seg =>
    seg.1.sections.zipIdx.foldlM (bindIndirectSection fuel cmds this obj seg.2) s) s

/-! ## External relocations -/

/-- The addend is what the relocation finds, less the value of the symbol. -/
def classicBindExtern (fuel : Nat) (this : ImageId) (obj : MachObject) (relocBase reloc : Addr)
    (s : Linker) : Outcome Linker :=
  let address := s.mem.load reloc
  let info := s.mem.load (reloc + 4)
  if (info >>> 25) &&& 3 = relocSize then
    if info >>> 28 = genericRelocVanilla then
      let undefinedSymbol := obj.fSymtab + 12 * (info &&& 0x00ffffff)
      let location := address + relocBase
      let value := s.mem.load location
      let type := s.mem (undefinedSymbol + 4)
      let desc := s.mem.load16 (undefinedSymbol + 6)
      if type &&& nType = nSect ∧ desc &&& nArmThumbDef ≠ 0 then
        .halt "weird arm thumb thing detected!"
      else do
        let value := value - s.mem.load (undefinedSymbol + 8)
        let symbolName ← cstringAt s.mem fuel (obj.fStrings + s.mem.load undefinedSymbol)
        bind fuel s this location bindTypePointer symbolName value (getLibraryOrdinal desc)
    else .halt "unknown reloc type!"
  else .halt "bad reloc size!"

def classicBindExternsLoop (fuel : Nat) (this : ImageId) (obj : MachObject) (relocBase : Addr) :
    Nat → Addr → Linker → Outcome Linker
  | 0, _, s => .done s
  | count + 1, reloc, s => do
    let s ← classicBindExtern fuel this obj relocBase reloc s
    classicBindExternsLoop fuel this obj relocBase count (reloc + 8) s

def classicBindExterns (fuel : Nat) (cmds : BindCommands) (this : ImageId) (obj : MachObject)
    (s : Linker) : Outcome Linker := do
  let relocBase ← getClassicRelocBase cmds obj
  let _ ← Outcome.ofOption obj.fDynamicInfo
  let relocsStart := obj.fLinkEditBase + obj.dysymtab.extreloff
  let relocsEnd := relocsStart + 8 * obj.dysymtab.nextrel
  -- The distance of the two pointers is a multiple of 8.
  classicBindExternsLoop fuel this obj relocBase ((relocsEnd.toNat - relocsStart.toNat) / 8)
    relocsStart s

/-! ## The whole image -/

/-- `MachObject::doBindSymbols`: the memory afterwards, and `sUnresolvedCount`. -/
def bindSymbols (fuel : Nat) (cmds : ImageId → BindCommands) (s : Linker) (this : ImageId) :
    Outcome (Mem × Word) := do
  let obj ← s.object this
  let cmds := cmds this
  if obj.fIsClassic then do
    let s ← classicBindIndirect fuel cmds this obj s
    let s ← classicBindExterns fuel cmds this obj s
    .done (s.mem, s.sUnresolvedCount)
  else if obj.fDyldInfo = none then .halt "no dyld info section"
  else do
    let base := obj.fLinkEditBase
    let s ← readBind fuel s this obj (base + cmds.bindOff) (base + cmds.bindOff + cmds.bindSize)
    let s ← readWeakBind fuel s obj (base + cmds.weakBindOff)
      (base + cmds.weakBindOff + cmds.weakBindSize)
    let s ← readLazyBind fuel s this obj (base + cmds.lazyBindOff)
      (base + cmds.lazyBindOff + cmds.lazyBindSize)
    .done (s.mem, s.sUnresolvedCount)

end LibSystem.Lnk
