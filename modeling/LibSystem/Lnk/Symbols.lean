import LibSystem.Lnk.Image

/-!
# Symbol lookup and binding

The export tables of `lnk_macho.cpp`, `lnk::resolve` and `MachObject::bind`.
Constants that come from the Mach-O headers have the values these publish.
-/

namespace LibSystem.Lnk

structure Symbol where
  addr : Addr
  inImage : ImageId
  deriving DecidableEq

def exportSymbolFlagsKindMask : Word := 0x03
def exportSymbolFlagsKindRegular : Word := 0x00
def exportSymbolFlagsKindThreadLocal : Word := 0x01
def exportSymbolFlagsReexport : Word := 0x08
def exportSymbolFlagsStubAndResolver : Word := 0x10
def nArmThumbDef : BitVec 16 := 0x0008
def bindSpecialDylibFlatLookup : Word := -2
def bindTypePointer : Byte := 1
def bindTypeTextAbsolute32 : Byte := 2
def bindTypeTextPcrel32 : Byte := 3

/-! ## Compressed images -/

def exportStart (obj : MachObject) (info : DyldInfoCommand) : Addr :=
  obj.fLinkEditBase + info.exportOff

def exportEnd (obj : MachObject) (info : DyldInfoCommand) : Addr :=
  obj.fLinkEditBase + info.exportOff + info.exportSize

/-- `false` is `none`; `true` comes with the symbol that it fills in. -/
def findExportedSymbolCompressed (fuel : Nat) (mem : Mem) (this : ImageId) (obj : MachObject)
    (symbol : CString) : Outcome (Option Symbol) := do
  let info ← Outcome.ofOption obj.fDyldInfo
  if info.exportSize = 0 then .done none
  else
    let foundNodeStart ← trieWalk fuel mem (exportStart obj info) (exportEnd obj info) symbol.bytes
    if foundNodeStart = 0 then .done none
    else
      let (flags, _) ← readUleb128 mem foundNodeStart (exportEnd obj info)
      if flags &&& exportSymbolFlagsReexport ≠ 0 then .halt "no fucking idea, honestly"
      else .done (some ⟨foundNodeStart, this⟩)

def exportedSymbolAddressCompressed (mem : Mem) (obj : MachObject) (sym : Symbol) :
    Outcome Word := do
  let info ← Outcome.ofOption obj.fDyldInfo
  let start := exportStart obj info
  let stop := exportEnd obj info
  if sym.addr < start ∨ stop < sym.addr then .halt "symbol not in a trie"
  else
    let (flags, exportNode) ← readUleb128 mem sym.addr stop
    if flags &&& exportSymbolFlagsKindMask = exportSymbolFlagsKindRegular then
      if flags &&& exportSymbolFlagsStubAndResolver ≠ 0 then
        .halt "XXX: resolvers not implemented, fix macho loader on line %d"
      else
        let (offset, _) ← readUleb128 mem exportNode stop
        .done (offset + obj.fHeader)
    else if flags &&& exportSymbolFlagsKindMask = exportSymbolFlagsKindThreadLocal then
      if flags &&& exportSymbolFlagsStubAndResolver ≠ 0 then
        .halt "unsupported local exported symbol kind. flags=%d at node=%p"
      else
        let (offset, _) ← readUleb128 mem exportNode stop
        .done (offset + obj.fHeader)
    else .halt "unsupported exported symbol kind. flags=%d at node=%p"

/-! ## Classic images

A `struct nlist` has 12 bytes: the name's offset at 0, `n_desc` at 6, `n_value` at 8.
-/

/-- `strcmp(key, pivotStr)`, with the key's rest in `key`. -/
def strcmp (mem : Mem) : Nat → List Byte → Addr → Outcome Ordering
  | 0, _, _ => .timeout
  | fuel + 1, key, p =>
    if charAt key ≠ mem p then .done (compare (charAt key).toNat (mem p).toNat)
    else if mem p = 0 then .done .eq
    else strcmp mem fuel key.tail (p + 1)

def binarySearchLoop (mem : Mem) (scan : Nat) (key : List Byte) (stringPool : Addr) :
    Nat → Addr → Word → Outcome Addr
  | 0, _, _ => .timeout
  | fuel + 1, base, n =>
    if n = 0 then .done 0
    else do
      let pivot := base + 12 * (n / 2)
      let cmp ← strcmp mem scan key (stringPool + mem.load pivot)
      if cmp = .eq then .done pivot
      else if cmp = .gt then
        binarySearchLoop mem scan key stringPool fuel (pivot + 12) ((n - 1) / 2)
      else binarySearchLoop mem scan key stringPool fuel base (n / 2)

/-- The symbol named `key` in a table sorted by name, or null. -/
def binarySearch (fuel : Nat) (mem : Mem) (key : List Byte) (stringPool symbols : Addr)
    (symbolCount : Word) : Outcome Addr :=
  binarySearchLoop mem fuel key stringPool fuel symbols symbolCount

/-- The indices are `int32_t`. Halving them rounds towards 0. -/
def binarySearchTocLoop (mem : Mem) (scan : Nat) (key : List Byte) (stringPool symbols toc : Addr) :
    Nat → Word → Word → Word → Outcome Addr
  | 0, _, _, _ => .timeout
  | fuel + 1, low, high, mid =>
    if high.slt low then .done 0
    else do
      let index := mem.load (toc + 8 * mid)
      let pivot := symbols + 12 * index
      let cmp ← strcmp mem scan key (stringPool + mem.load pivot)
      if cmp = .eq then .done pivot
      else
        let low := if cmp = .gt then mid + 1 else low
        let high := if cmp = .gt then high else mid - 1
        binarySearchTocLoop mem scan key stringPool symbols toc fuel low high ((low + high).sdiv 2)

def binarySearchToc (fuel : Nat) (mem : Mem) (key : List Byte) (stringPool symbols toc : Addr)
    (symbolCount hintIndex : Word) : Outcome Addr :=
  binarySearchTocLoop mem fuel key stringPool symbols toc fuel 0 (symbolCount - 1)
    (if symbolCount.sle hintIndex then symbolCount / 2 else hintIndex)

def findExportedSymbolClassic (fuel : Nat) (mem : Mem) (this : ImageId) (obj : MachObject)
    (name : CString) : Outcome (Option Symbol) := do
  let _ ← Outcome.ofOption obj.fDynamicInfo
  let info := obj.dysymtab
  let sym ←
    if info.tocoff = 0 then
      binarySearch fuel mem name.bytes obj.fStrings (obj.fSymtab + 12 * info.iextdefsym)
        info.nextdefsym
    else
      binarySearchToc fuel mem name.bytes obj.fStrings obj.fSymtab
        (obj.fLinkEditBase + info.tocoff) info.ntoc info.nextdefsym
  if sym = 0 then .done none else .done (some ⟨sym, this⟩)

def exportedSymbolAddressClassic (mem : Mem) (obj : MachObject) (sym : Symbol) : Word :=
  let result := mem.load (sym.addr + 8) + obj.fSlide
  if mem.load16 (sym.addr + 6) &&& nArmThumbDef ≠ 0 then result ||| 1 else result

/-! ## Images -/

/-- The lookup in the image's own table. -/
def findOwnSymbol (fuel : Nat) (s : Linker) (this : ImageId) (obj : MachObject) (symbol : CString) :
    Outcome (Option Symbol) :=
  if obj.fIsClassic then findExportedSymbolClassic fuel s.mem this obj symbol
  else findExportedSymbolCompressed fuel s.mem this obj symbol

/-- The fuel bounds the depth of the recursion through `fReExports`. -/
def findExportedSymbol : Nat → Linker → CString → ImageId → Outcome (Option Symbol)
  | 0, _, _, _ => .timeout
  | fuel + 1, s, symbol, this => do
    let obj ← s.object this
    match ← findOwnSymbol fuel s this obj symbol with
    | some sym => .done (some sym)
    | none => Outcome.search (findExportedSymbol fuel s symbol) obj.fReExports

def exportedSymbolAddress (s : Linker) (this : ImageId) (sym : Symbol) : Outcome Word := do
  let obj ← s.object this
  if obj.fIsClassic then .done (exportedSymbolAddressClassic s.mem obj sym)
  else exportedSymbolAddressCompressed s.mem obj sym

/-- An image's search, with the image that was asked. -/
def findIn (fuel : Nat) (s : Linker) (symbolName : CString) (im : ImageId) :
    Outcome (Option (ImageId × Symbol)) := do
  let found ← findExportedSymbol fuel s symbolName im
  .done (found.map fun sym => (im, sym))

/-- The address that `resolve` returns, with the final `*foundImage` and state. The flags and
the requesting image only go into the warning. -/
def resolve (fuel : Nat) (s : Linker) (symbolName : CString) (libraryOrdinal : Word)
    (foundImage : Option ImageId) : Outcome (Word × Option ImageId × Linker) := do
  let found ←
    if libraryOrdinal = bindSpecialDylibFlatLookup ∨ True then do
      let chain ← s.imageChain
      Outcome.search (findIn fuel s symbolName) chain
    else do
      -- The two-level lookup. It leaves `*foundImage` as it is.
      let im ← Outcome.ofOption foundImage
      match ← findExportedSymbol fuel s symbolName im with
      | some sym => .done (some (im, sym))
      | none =>
        if some im = s.sDylinker then do
          let aux ← Outcome.search (fun aux => do
            findIn fuel s symbolName (← Outcome.ofOption aux)) s.sAuxLibs
          .done (aux.map fun (_, sym) => (im, sym))
        else .done none
  match found with
  | some (im, sym) => do
    let addr ← exportedSymbolAddress s sym.inImage sym
    .done (addr, some im, s)
  | none =>
    let s' := { s with sUnresolvedCount := s.sUnresolvedCount + 1 }
    .done (s'.sUnresolvedCount, foundImage, s')

/-- `fDependencies[reqOrdinal]`. Entries that nothing was written to are null. -/
def dependencyAt (obj : MachObject) (reqOrdinal : Word) : Option ImageId :=
  obj.fDependencies[reqOrdinal.toInt.toNat]?

/-- Stores a word only if it is not there yet. -/
def fixLocation (mem : Mem) (location : Addr) (value : Word) : Mem :=
  if mem.load location ≠ value then mem.store location value else mem

def bind (fuel : Nat) (s : Linker) (this : ImageId) (address : Addr) (type : Byte) (name : CString)
    (addend ordinal : Word) : Outcome Linker := do
  let obj ← s.object this
  let reqOrdinal := ordinal - 1
  if reqOrdinal.toInt > obj.fDependencies.length then
    .halt "%s: ordinal for symbol '%s' out of range"
  else
    let targetImage := if ordinal.toInt > 0 then dependencyAt obj reqOrdinal else none
    let (value, _, s) ← resolve fuel s name ordinal targetImage
    let newValue := value + addend
    if type = bindTypePointer then
      .done { s with mem := fixLocation s.mem address newValue }
    else if type = bindTypeTextAbsolute32 then
      .done { s with mem := fixLocation s.mem address newValue }
    else if type = bindTypeTextPcrel32 then
      .done { s with mem := fixLocation s.mem address (newValue - (address + 4)) }
    else .halt "bad bind type %d"

theorem fixLocation_eq (mem : Mem) (location : Addr) (value : Word) :
    fixLocation mem location value = mem.store location value := by
  unfold fixLocation
  split
  · rfl
  · rename_i h
    rw [← not_not.mp h, Mem.store_load]

end LibSystem.Lnk
