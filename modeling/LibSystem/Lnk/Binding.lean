import LibSystem.Lnk.Symbols
import LibSystem.Lnk.Rebase

/-!
# The bind opcodes

`MachObject::readBind`, `readWeakBind` and `readLazyBind`. The opcodes are read from
the memory that is being bound.
-/

namespace LibSystem.Lnk

open Outcome

def bindOpcodeMask : Byte := 0xf0
def bindImmediateMask : Byte := 0x0f
def bindOpcodeDone : Byte := 0x00
def bindOpcodeSetDylibOrdinalImm : Byte := 0x10
def bindOpcodeSetDylibOrdinalUleb : Byte := 0x20
def bindOpcodeSetDylibSpecialImm : Byte := 0x30
def bindOpcodeSetSymbolTrailingFlagsImm : Byte := 0x40
def bindOpcodeSetTypeImm : Byte := 0x50
def bindOpcodeSetAddendSleb : Byte := 0x60
def bindOpcodeSetSegmentAndOffsetUleb : Byte := 0x70
def bindOpcodeAddAddrUleb : Byte := 0x80
def bindOpcodeDoBind : Byte := 0x90
def bindOpcodeDoBindAddAddrUleb : Byte := 0xa0
def bindOpcodeDoBindAddAddrImmScaled : Byte := 0xb0
def bindOpcodeDoBindUlebTimesSkippingUleb : Byte := 0xc0

/-- The variables of the loop. The symbol flags are read by nobody. -/
structure Binding where
  s : Linker
  pos : Addr
  libraryOrdinal : Word
  segmentIndex : Nat
  symbolName : Addr
  addend : Word
  type : Byte
  segmentEndAddress : Addr
  address : Addr

/-! ## Numbers and strings -/

/-- The loop of `read_sleb128`. Only the low 32 bits of the result are used. -/
def readSleb128Loop (mem : Mem) (stop : Addr) : Nat → Addr → Word → Nat → Outcome (Word × Addr)
  | 0, _, _, _ => .timeout
  | fuel + 1, p, result, bit =>
    if p = stop then .halt "malformed sleb128"
    else
      let byte := mem p
      let result := result ||| (byte &&& 0x7f).setWidth 32 <<< bit
      let bit := bit + 7
      if byte &&& 0x80 ≠ 0 then readSleb128Loop mem stop fuel (p + 1) result bit
      else if byte &&& 0x40 ≠ 0 then .done (result ||| BitVec.allOnes 32 <<< bit, p + 1)
      else .done (result, p + 1)

def readSleb128 (fuel : Nat) (mem : Mem) (p stop : Addr) : Outcome (Word × Addr) :=
  readSleb128Loop mem stop fuel p 0 0

/-- The string at `p`. -/
def cstringAt (mem : Mem) : Nat → Addr → Outcome CString
  | 0, _ => .timeout
  | fuel + 1, p =>
    if h : mem p = 0 then .done ⟨[], by simp⟩
    else do
      let rest ← cstringAt mem fuel (p + 1)
      .done ⟨mem p :: rest.bytes, List.forall_mem_cons.mpr ⟨h, rest.nul_free⟩⟩

/-- `while (*pos != '\0') ++pos;` -/
def skipString (mem : Mem) : Nat → Addr → Outcome Addr
  | 0, _ => .timeout
  | fuel + 1, p => if mem p ≠ 0 then skipString mem fuel (p + 1) else .done p

/-! ## The opcodes -/

/-- The comparison before each bind. The message needs the start of the segment. -/
def checkAddress (obj : MachObject) (b : Binding) : Outcome Unit :=
  if b.segmentEndAddress ≤ b.address then do
    let _ ← segActualLoadAddr obj b.segmentIndex
    .halt "malformed binding opcodes (%ld/%ld): address 0x%08lX is beyond end of segment %d (0x%08lX -> 0x%08lX)"
  else .done ()

/-- `bind` on the variables. A null name is looked at unless the ordinal is out of range. -/
def bindHere (fuel : Nat) (this : ImageId) (obj : MachObject) (b : Binding) : Outcome Binding := do
  if b.symbolName = 0 ∧ (b.libraryOrdinal - 1).toInt ≤ obj.fDependencies.length then .fault
  else
    let name ← cstringAt b.s.mem fuel b.symbolName
    let s ← bind fuel b.s this b.address b.type name b.addend b.libraryOrdinal
    .done { b with s := s }

/-- A check and a `bind`, and then `address += step`. -/
def bindOne (fuel : Nat) (this : ImageId) (obj : MachObject) (step : Word) (b : Binding) :
    Outcome Binding := do
  checkAddress obj b
  let b ← bindHere fuel this obj b
  .done { b with address := b.address + step }

/-- `readWeakBind` checks the address, and its `bind` is commented out. -/
def weakBindOne (obj : MachObject) (step : Word) (b : Binding) : Outcome Binding := do
  checkAddress obj b
  .done { b with address := b.address + step }

def bindTimes (one : Binding → Outcome Binding) : Nat → Binding → Outcome Binding
  | 0, b => .done b
  | count + 1, b => do
    let b ← one b
    bindTimes one count b

def specialOrdinal (immediate : Byte) : Word :=
  if immediate = 0 then 0 else (bindOpcodeMask ||| immediate).signExtend 32

/-- The opcodes that only set variables, which all three interpreters share; `other` is what the
interpreter makes of the rest. The cursor is behind the opcode. -/
def setOpcode (fuel : Nat) (obj : MachObject) (stop : Addr) (opcode immediate : Byte) (b : Binding)
    (other : Outcome (Bool × Binding)) : Outcome (Bool × Binding) :=
  if opcode = bindOpcodeSetDylibOrdinalImm then
    .done (false, { b with libraryOrdinal := immediate.setWidth 32 })
  else if opcode = bindOpcodeSetDylibOrdinalUleb then do
    let (n, pos) ← readUleb128 b.s.mem b.pos stop
    .done (false, { b with pos := pos, libraryOrdinal := n })
  else if opcode = bindOpcodeSetTypeImm then .done (false, { b with type := immediate })
  else if opcode = bindOpcodeSetAddendSleb then do
    let (n, pos) ← readSleb128 fuel b.s.mem b.pos stop
    .done (false, { b with pos := pos, addend := n })
  else if opcode = bindOpcodeAddAddrUleb then do
    let (n, pos) ← readUleb128 b.s.mem b.pos stop
    .done (false, { b with pos := pos, address := b.address + n })
  else if opcode = bindOpcodeSetSegmentAndOffsetUleb then do
    let start ← segActualLoadAddr obj immediate.toNat
    let (offset, pos) ← readUleb128 b.s.mem b.pos stop
    let segEnd ← segActualEndAddr obj immediate.toNat
    .done (false, { b with
      pos := pos
      segmentIndex := immediate.toNat
      address := start + offset
      segmentEndAddress := segEnd })
  else if opcode = bindOpcodeSetSymbolTrailingFlagsImm then do
    let pos ← skipString b.s.mem fuel b.pos
    .done (false, { b with symbolName := b.pos, pos := pos + 1 })
  else other

/-- The four ways to bind; `one` is the bind with the step after it. -/
def doBindOpcode (stop : Addr) (opcode immediate : Byte) (b : Binding)
    (one : Word → Binding → Outcome Binding) (other : Outcome (Bool × Binding)) :
    Outcome (Bool × Binding) :=
  if opcode = bindOpcodeDoBind then do
    let b ← one 4 b
    .done (false, b)
  else if opcode = bindOpcodeDoBindAddAddrUleb then do
    let b ← one 0 b
    let (n, pos) ← readUleb128 b.s.mem b.pos stop
    .done (false, { b with pos := pos, address := b.address + (n + 4) })
  else if opcode = bindOpcodeDoBindAddAddrImmScaled then do
    let b ← one (immediate.setWidth 32 * 4 + 4) b
    .done (false, b)
  else if opcode = bindOpcodeDoBindUlebTimesSkippingUleb then do
    let (count, pos) ← readUleb128 b.s.mem b.pos stop
    let (skip, pos) ← readUleb128 b.s.mem pos stop
    let b ← bindTimes (one (skip + 4)) count.toNat { b with pos := pos }
    .done (false, b)
  else other

/-! ## The interpreters

The flag of one opcode is `done`.
-/

def readBindOp (fuel : Nat) (this : ImageId) (obj : MachObject) (stop : Addr) (b : Binding) :
    Outcome (Bool × Binding) :=
  let opcode := b.s.mem b.pos &&& bindOpcodeMask
  let immediate := b.s.mem b.pos &&& bindImmediateMask
  let b := { b with pos := b.pos + 1 }
  if opcode = bindOpcodeDone then .done (true, b)
  else if opcode = bindOpcodeSetDylibSpecialImm then
    .done (false, { b with libraryOrdinal := specialOrdinal immediate })
  else
    setOpcode fuel obj stop opcode immediate b
      (doBindOpcode stop opcode immediate b (bindOne fuel this obj)
        (.halt "invalid opcode %d for bind nl"))

/-- It goes on after `BIND_OPCODE_DONE`. -/
def readWeakBindOp (fuel : Nat) (obj : MachObject) (stop : Addr) (b : Binding) :
    Outcome (Bool × Binding) :=
  let opcode := b.s.mem b.pos &&& bindOpcodeMask
  let immediate := b.s.mem b.pos &&& bindImmediateMask
  let b := { b with pos := b.pos + 1 }
  if opcode = bindOpcodeDone then .done (false, b)
  else
    setOpcode fuel obj stop opcode immediate b
      (doBindOpcode stop opcode immediate b (weakBindOne obj)
        (.halt "invalid opcode %d for bind nl"))

/-- Of the ways to bind it knows only the first, and it goes on after `BIND_OPCODE_DONE`. -/
def readLazyBindOp (fuel : Nat) (this : ImageId) (obj : MachObject) (stop : Addr) (b : Binding) :
    Outcome (Bool × Binding) :=
  let opcode := b.s.mem b.pos &&& bindOpcodeMask
  let immediate := b.s.mem b.pos &&& bindImmediateMask
  let b := { b with pos := b.pos + 1 }
  if opcode = bindOpcodeDone then .done (false, b)
  else if opcode = bindOpcodeSetDylibSpecialImm then
    .done (false, { b with libraryOrdinal := specialOrdinal immediate })
  else
    setOpcode fuel obj stop opcode immediate b
      (if opcode = bindOpcodeDoBind then do
        let b ← bindOne fuel this obj 4 b
        .done (false, b)
      else .halt "invalid opcode %d for bind lazy")

def bindLoop (op : Binding → Outcome (Bool × Binding)) (stop : Addr) :
    Nat → Binding → Outcome Binding
  | 0, _ => .timeout
  | fuel + 1, b =>
    if b.pos < stop then do
      let (finished, b) ← op b
      if finished then .done b else bindLoop op stop fuel b
    else .done b

/-- The variables before the loop. -/
def Binding.start (s : Linker) (start : Addr) (type : Byte) : Binding where
  s := s
  pos := start
  libraryOrdinal := 0
  segmentIndex := 0
  symbolName := 0
  addend := 0
  type := type
  segmentEndAddress := 0
  address := 0

def readBind (fuel : Nat) (s : Linker) (this : ImageId) (obj : MachObject) (start stop : Addr) :
    Outcome Linker := do
  let b ← bindLoop (readBindOp fuel this obj stop) stop fuel (.start s start 0)
  .done b.s

def readWeakBind (fuel : Nat) (s : Linker) (obj : MachObject) (start stop : Addr) :
    Outcome Linker := do
  let b ← bindLoop (readWeakBindOp fuel obj stop) stop fuel (.start s start 0)
  .done b.s

def readLazyBind (fuel : Nat) (s : Linker) (this : ImageId) (obj : MachObject) (start stop : Addr) :
    Outcome Linker := do
  let b ← bindLoop (readLazyBindOp fuel this obj stop) stop fuel (.start s start bindTypePointer)
  .done b.s

end LibSystem.Lnk
