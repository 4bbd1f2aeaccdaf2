import LibSystem.Lnk.Fixups

/-!
# The calls of `bind`

What an interpreter passes to `bind`, in order. The symbol flags, which only the calls see, are
carried beside the variables of the loop.
-/

namespace LibSystem.Lnk

open Outcome

/-- The arguments of a call. The name is read when it is made; a null name cannot be. -/
structure BindCall where
  address : Addr
  type : Byte
  name : Outcome CString
  flags : Byte
  addend : Word
  ordinal : Word

/-- The state in which an interpreter is about to compare an address, and to call `bind`. -/
structure BindAttempt where
  s : Linker
  segmentEndAddress : Addr
  call : BindCall

/-- The comparison lets it through. -/
def BindAttempt.Called (a : BindAttempt) : Prop := a.call.address < a.segmentEndAddress

instance (a : BindAttempt) : Decidable a.Called := by
  unfold BindAttempt.Called
  infer_instance

def Binding.attempt (fuel : Nat) (flags : Byte) (b : Binding) : BindAttempt where
  s := b.s
  segmentEndAddress := b.segmentEndAddress
  call := {
    address := b.address
    type := b.type
    name := if b.symbolName = 0 then .fault else cstringAt b.s.mem fuel b.symbolName
    flags := flags
    addend := b.addend
    ordinal := b.libraryOrdinal }

/-- `symbolFlags` after the opcode. -/
def nextSymbolFlags (flags : Byte) (b : Binding) : Byte :=
  if b.s.mem b.pos &&& bindOpcodeMask = bindOpcodeSetSymbolTrailingFlagsImm then
    b.s.mem b.pos &&& bindImmediateMask
  else flags

def bindLoopAttempts (fuel : Nat) (op : Binding → Outcome (Bool × Binding))
    (fixups : Binding → List Binding) (stop : Addr) : Nat → Byte → Binding → List BindAttempt
  | 0, _, _ => []
  | n + 1, flags, b =>
    if b.pos < stop then
      (fixups b).map (Binding.attempt fuel flags) ++
        match op b with
        | .done (false, b') =>
          bindLoopAttempts fuel op fixups stop n (nextSymbolFlags flags b) b'
        | _ => []
    else []

def readBindAttempts (fuel : Nat) (s : Linker) (this : ImageId) (obj : MachObject)
    (start stop : Addr) : List BindAttempt :=
  bindLoopAttempts fuel (readBindOp fuel this obj stop) (readBindOpFixups fuel this obj stop) stop
    fuel 0 (.start s start 0)

def readLazyBindAttempts (fuel : Nat) (s : Linker) (this : ImageId) (obj : MachObject)
    (start stop : Addr) : List BindAttempt :=
  bindLoopAttempts fuel (readLazyBindOp fuel this obj stop) readLazyBindOpFixups stop
    fuel 0 (.start s start bindTypePointer)

/-- The calls among the attempts: all of them, or all but the last. -/
def bindCalls (attempts : List BindAttempt) : List BindCall :=
  (attempts.filter fun a => decide a.Called).map BindAttempt.call

end LibSystem.Lnk
