import LibSystem.Lnk.LookupProgram
import LibSystem.Lnk.ClassicBind

/-!
# The binding as a program

`bind` and the functions that call it, with each access to memory made explicit.
-/

namespace LibSystem.Lnk

open Outcome

def Linker.view (s : Linker) : Linker × Mem := (s.forget, s.mem)

def Binding.forget (b : Binding) : Binding := { b with s := b.s.forget }

def Binding.view (b : Binding) : Binding × Mem := (b.forget, b.s.mem)

/-- The view of the result of an opcode. -/
def opView (r : Bool × Binding) : (Bool × Binding) × Mem := ((r.1, r.2.forget), r.2.s.mem)

namespace Program

/-! ## One bind -/

/-- The search goes through the chain, whatever the ordinal. -/
def resolve (fuel : Nat) (s : Linker) (symbolName : CString) (foundImage : Option ImageId) :
    Program (Word × Option ImageId × Linker) := do
  let chain ← .ends s.imageChain
  match ← Access.search (findIn fuel s symbolName) chain with
  | some (im, sym) => do
    let addr ← exportedSymbolAddress s sym.inImage sym
    pure (addr, some im, s)
  | none =>
    let s' := { s with sUnresolvedCount := s.sUnresolvedCount + 1 }
    pure (s'.sUnresolvedCount, foundImage, s')

theorem runs_resolve (fuel : Nat) (s : Linker) (symbolName : CString) (libraryOrdinal : Word)
    (foundImage : Option ImageId) :
    Runs (fun r => ((r.1, r.2.1, r.2.2.forget), r.2.2.mem)) s.mem
      (resolve fuel s.forget symbolName foundImage)
      (Lnk.resolve fuel s symbolName libraryOrdinal foundImage) := by
  unfold resolve Lnk.resolve
  rw [if_pos (Or.inr trivial)]
  refine (Runs.lift s.imageChain).bind fun chain => ?_
  refine (Runs.search fun im _ => runs_findIn fuel s symbolName im).bind fun found => ?_
  rcases found with _ | ⟨im, sym⟩
  · exact .pure rfl
  · exact (runs_exportedSymbolAddress s sym.inImage sym).bind fun addr => .pure rfl

def fixLocation (location : Addr) (value : Word) : Program Unit := do
  let old ← loadOwn location
  if old ≠ value then store location value else pure ()

theorem run_fixLocation (mem : Mem) (location : Addr) (value : Word) :
    (fixLocation location value).run mem = done ((), Lnk.fixLocation mem location value) := by
  show (if mem.load location ≠ value then store location value else pure ()).run mem = _
  unfold Lnk.fixLocation
  split
  · exact run_store location value mem
  · rfl

theorem runs_fixLocation {τ τ' : Type} {view : τ → τ' × Mem} {mem : Mem} {location : Addr}
    {value : Word} {next : Unit → Program τ'} {x : Outcome τ}
    (h : Runs view (Lnk.fixLocation mem location value) (next ()) x) :
    Runs view mem (fixLocation location value >>= next) x := by
  unfold Runs at h ⊢
  rw [Access.run_bind, run_fixLocation, done_bind]
  exact h

def bind (fuel : Nat) (s : Linker) (this : ImageId) (address : Addr) (type : Byte) (name : CString)
    (addend ordinal : Word) : Program Linker := do
  let obj ← .ends (s.object this)
  let reqOrdinal := ordinal - 1
  if reqOrdinal.toInt > obj.fDependencies.length then
    .ends (.halt "%s: ordinal for symbol '%s' out of range")
  else
    let targetImage := if ordinal.toInt > 0 then dependencyAt obj reqOrdinal else none
    let (value, _, s) ← resolve fuel s name targetImage
    let newValue := value + addend
    if type = bindTypePointer then do
      fixLocation address newValue
      pure s
    else if type = bindTypeTextAbsolute32 then do
      fixLocation address newValue
      pure s
    else if type = bindTypeTextPcrel32 then do
      fixLocation address (newValue - (address + 4))
      pure s
    else .ends (.halt "bad bind type %d")

theorem runs_bind (fuel : Nat) (s : Linker) (this : ImageId) (address : Addr) (type : Byte)
    (name : CString) (addend ordinal : Word) :
    Runs Linker.view s.mem (bind fuel s.forget this address type name addend ordinal)
      (Lnk.bind fuel s this address type name addend ordinal) := by
  refine (Runs.lift (s.object this)).bind fun obj => .ite (fun _ => .halt _) fun _ => ?_
  refine (runs_resolve fuel s name ordinal _).bind fun ⟨value, found, s'⟩ => ?_
  refine .ite (fun _ => ?_) fun _ => .ite (fun _ => ?_) fun _ => .ite (fun _ => ?_) fun _ => .halt _
  all_goals exact runs_fixLocation (.pure rfl)

/-! ## Numbers and strings -/

def readSleb128Loop (stop : Addr) : Nat → Addr → Word → Nat → Program (Word × Addr)
  | 0, _, _, _ => .ends .timeout
  | fuel + 1, p, result, bit =>
    if p = stop then .ends (.halt "malformed sleb128")
    else do
      let byte ← byte p
      let result := result ||| (byte &&& 0x7f).setWidth 32 <<< bit
      let bit := bit + 7
      if byte &&& 0x80 ≠ 0 then readSleb128Loop stop fuel (p + 1) result bit
      else if byte &&& 0x40 ≠ 0 then pure (result ||| BitVec.allOnes 32 <<< bit, p + 1)
      else pure (result, p + 1)

theorem runs_readSleb128Loop (mem : Mem) (stop : Addr) (fuel : Nat) (p : Addr) (result : Word)
    (bit : Nat) : Reads mem (readSleb128Loop stop fuel p result bit)
      (Lnk.readSleb128Loop mem stop fuel p result bit) := by
  induction fuel generalizing p result bit with
  | zero => exact .timeout
  | succ fuel ih =>
    unfold readSleb128Loop Lnk.readSleb128Loop
    refine .ite (fun _ => .halt _) fun _ => .byte (.ite (fun _ => ih _ _ _) fun _ => ?_)
    exact .ite (fun _ => .pure rfl) fun _ => .pure rfl

def emptyString : CString := ⟨[], List.forall_mem_nil _⟩

def consString (b : Byte) (h : b ≠ 0) (rest : CString) : CString :=
  ⟨b :: rest.bytes, List.forall_mem_cons.mpr ⟨h, rest.nul_free⟩⟩

def cstringAt : Nat → Addr → Program CString
  | 0, _ => .ends .timeout
  | fuel + 1, p => do
    let b ← byte p
    if h : b = 0 then pure emptyString
    else do
      let rest ← cstringAt fuel (p + 1)
      pure (consString b h rest)

theorem runs_cstringAt (mem : Mem) (fuel : Nat) (p : Addr) :
    Reads mem (cstringAt fuel p) (Lnk.cstringAt mem fuel p) := by
  induction fuel generalizing p with
  | zero => exact .timeout
  | succ fuel ih =>
    unfold cstringAt Lnk.cstringAt
    exact .byte (.dite (fun _ => .pure rfl) fun _ => (ih (p + 1)).bind fun _ => .pure rfl)

def skipString : Nat → Addr → Program Addr
  | 0, _ => .ends .timeout
  | fuel + 1, p => do
    let b ← byte p
    if b ≠ 0 then skipString fuel (p + 1) else pure p

theorem runs_skipString (mem : Mem) (fuel : Nat) (p : Addr) :
    Reads mem (skipString fuel p) (Lnk.skipString mem fuel p) := by
  induction fuel generalizing p with
  | zero => exact .timeout
  | succ fuel ih =>
    unfold skipString Lnk.skipString
    exact .byte (.ite (fun _ => ih _) fun _ => .pure rfl)

/-! ## The opcodes -/

def bindHere (fuel : Nat) (this : ImageId) (obj : MachObject) (b : Binding) : Program Binding := do
  if b.symbolName = 0 ∧ (b.libraryOrdinal - 1).toInt ≤ obj.fDependencies.length then .ends .fault
  else
    let name ← cstringAt fuel b.symbolName
    let s ← bind fuel b.s this b.address b.type name b.addend b.libraryOrdinal
    pure { b with s := s }

theorem runs_bindHere (fuel : Nat) (this : ImageId) (obj : MachObject) (b : Binding) :
    Runs Binding.view b.s.mem (bindHere fuel this obj b.forget) (Lnk.bindHere fuel this obj b) := by
  refine .ite (fun _ => .fault) fun _ => ?_
  refine (runs_cstringAt b.s.mem fuel b.symbolName).bind fun name => ?_
  exact (runs_bind fuel b.s this b.address b.type name b.addend b.libraryOrdinal).bind
    fun s => .pure rfl

def bindOne (fuel : Nat) (this : ImageId) (obj : MachObject) (step : Word) (b : Binding) :
    Program Binding := do
  .ends (checkAddress obj b)
  let b ← bindHere fuel this obj b
  pure { b with address := b.address + step }

theorem runs_bindOne (fuel : Nat) (this : ImageId) (obj : MachObject) (step : Word) (b : Binding) :
    Runs Binding.view b.s.mem (bindOne fuel this obj step b.forget)
      (Lnk.bindOne fuel this obj step b) := by
  refine (Runs.lift (checkAddress obj b)).bind fun _ => ?_
  exact (runs_bindHere fuel this obj b).bind fun b => .pure rfl

def weakBindOne (obj : MachObject) (step : Word) (b : Binding) : Program Binding := do
  .ends (checkAddress obj b)
  pure { b with address := b.address + step }

theorem runs_weakBindOne (obj : MachObject) (step : Word) (b : Binding) :
    Runs Binding.view b.s.mem (weakBindOne obj step b.forget) (Lnk.weakBindOne obj step b) :=
  (Runs.lift (checkAddress obj b)).bind fun _ => .pure rfl

def bindTimes (one : Binding → Program Binding) : Nat → Binding → Program Binding
  | 0, b => pure b
  | count + 1, b => do
    let b ← one b
    bindTimes one count b

theorem runs_bindTimes {one : Binding → Program Binding} {one' : Binding → Outcome Binding}
    (hone : ∀ b, Runs Binding.view b.s.mem (one b.forget) (one' b)) (count : Nat) (b : Binding) :
    Runs Binding.view b.s.mem (bindTimes one count b.forget) (Lnk.bindTimes one' count b) := by
  induction count generalizing b with
  | zero => exact .pure rfl
  | succ count ih => exact (hone b).bind fun b => ih b

def setOpcode (fuel : Nat) (obj : MachObject) (stop : Addr) (opcode immediate : Byte) (b : Binding)
    (other : Program (Bool × Binding)) : Program (Bool × Binding) :=
  if opcode = bindOpcodeSetDylibOrdinalImm then
    pure (false, { b with libraryOrdinal := immediate.setWidth 32 })
  else if opcode = bindOpcodeSetDylibOrdinalUleb then do
    let (n, pos) ← readUleb128 b.pos stop
    pure (false, { b with pos := pos, libraryOrdinal := n })
  else if opcode = bindOpcodeSetTypeImm then pure (false, { b with type := immediate })
  else if opcode = bindOpcodeSetAddendSleb then do
    let (n, pos) ← readSleb128Loop stop fuel b.pos 0 0
    pure (false, { b with pos := pos, addend := n })
  else if opcode = bindOpcodeAddAddrUleb then do
    let (n, pos) ← readUleb128 b.pos stop
    pure (false, { b with pos := pos, address := b.address + n })
  else if opcode = bindOpcodeSetSegmentAndOffsetUleb then do
    let start ← .ends (segActualLoadAddr obj immediate.toNat)
    let (offset, pos) ← readUleb128 b.pos stop
    let segEnd ← .ends (segActualEndAddr obj immediate.toNat)
    pure (false, { b with
      pos := pos
      segmentIndex := immediate.toNat
      address := start + offset
      segmentEndAddress := segEnd })
  else if opcode = bindOpcodeSetSymbolTrailingFlagsImm then do
    let pos ← skipString fuel b.pos
    pure (false, { b with symbolName := b.pos, pos := pos + 1 })
  else other

theorem runs_setOpcode (fuel : Nat) (obj : MachObject) (stop : Addr) (opcode immediate : Byte)
    (b : Binding) {other : Program (Bool × Binding)} {other' : Outcome (Bool × Binding)}
    (hother : Runs opView b.s.mem other other') :
    Runs opView b.s.mem (setOpcode fuel obj stop opcode immediate b.forget other)
      (Lnk.setOpcode fuel obj stop opcode immediate b other') := by
  have hread := runs_readUleb128 b.s.mem b.pos stop
  refine .ite (fun _ => .pure rfl) fun _ => .ite (fun _ => ?_) fun _ =>
    .ite (fun _ => .pure rfl) fun _ => .ite (fun _ => ?_) fun _ => .ite (fun _ => ?_) fun _ =>
    .ite (fun _ => ?_) fun _ => .ite (fun _ => ?_) fun _ => hother
  · exact hread.bind fun _ => .pure rfl
  · exact (runs_readSleb128Loop b.s.mem stop fuel b.pos 0 0).bind fun _ => .pure rfl
  · exact hread.bind fun _ => .pure rfl
  · refine (Runs.lift _).bind fun start => hread.bind fun _ => ?_
    exact (Runs.lift _).bind fun segEnd => .pure rfl
  · exact (runs_skipString b.s.mem fuel b.pos).bind fun _ => .pure rfl

def doBindOpcode (stop : Addr) (opcode immediate : Byte) (b : Binding)
    (one : Word → Binding → Program Binding) (other : Program (Bool × Binding)) :
    Program (Bool × Binding) :=
  if opcode = bindOpcodeDoBind then do
    let b ← one 4 b
    pure (false, b)
  else if opcode = bindOpcodeDoBindAddAddrUleb then do
    let b ← one 0 b
    let (n, pos) ← readUleb128 b.pos stop
    pure (false, { b with pos := pos, address := b.address + (n + 4) })
  else if opcode = bindOpcodeDoBindAddAddrImmScaled then do
    let b ← one (immediate.setWidth 32 * 4 + 4) b
    pure (false, b)
  else if opcode = bindOpcodeDoBindUlebTimesSkippingUleb then do
    let (count, pos) ← readUleb128 b.pos stop
    let (skip, pos) ← readUleb128 pos stop
    let b ← bindTimes (one (skip + 4)) count.toNat { b with pos := pos }
    pure (false, b)
  else other

theorem runs_doBindOpcode (stop : Addr) (opcode immediate : Byte) (b : Binding)
    {one : Word → Binding → Program Binding} {one' : Word → Binding → Outcome Binding}
    (hone : ∀ step b, Runs Binding.view b.s.mem (one step b.forget) (one' step b))
    {other : Program (Bool × Binding)} {other' : Outcome (Bool × Binding)}
    (hother : Runs opView b.s.mem other other') :
    Runs opView b.s.mem (doBindOpcode stop opcode immediate b.forget one other)
      (Lnk.doBindOpcode stop opcode immediate b one' other') := by
  refine .ite (fun _ => ?_) fun _ => .ite (fun _ => ?_) fun _ => .ite (fun _ => ?_) fun _ =>
    .ite (fun _ => ?_) fun _ => hother
  · exact (hone 4 b).bind fun b => .pure rfl
  · refine (hone 0 b).bind fun b => ?_
    exact (runs_readUleb128 b.s.mem b.pos stop).bind fun _ => .pure rfl
  · exact (hone _ b).bind fun b => .pure rfl
  · refine (runs_readUleb128 b.s.mem b.pos stop).bind fun ⟨count, pos⟩ => ?_
    refine (runs_readUleb128 b.s.mem pos stop).bind fun ⟨skip, pos⟩ => ?_
    exact (runs_bindTimes (hone (skip + 4)) count.toNat { b with pos := pos }).bind
      fun b => .pure rfl

/-! ## The interpreters -/

def readBindOp (fuel : Nat) (this : ImageId) (obj : MachObject) (stop : Addr) (b : Binding) :
    Program (Bool × Binding) := do
  let op ← byte b.pos
  let opcode := op &&& bindOpcodeMask
  let immediate := op &&& bindImmediateMask
  let b := { b with pos := b.pos + 1 }
  if opcode = bindOpcodeDone then pure (true, b)
  else if opcode = bindOpcodeSetDylibSpecialImm then
    pure (false, { b with libraryOrdinal := specialOrdinal immediate })
  else
    setOpcode fuel obj stop opcode immediate b
      (doBindOpcode stop opcode immediate b (bindOne fuel this obj)
        (.ends (.halt "invalid opcode %d for bind nl")))

theorem runs_readBindOp (fuel : Nat) (this : ImageId) (obj : MachObject) (stop : Addr)
    (b : Binding) :
    Runs opView b.s.mem (readBindOp fuel this obj stop b.forget)
      (Lnk.readBindOp fuel this obj stop b) := by
  refine .byte (.ite (fun _ => .pure rfl) fun _ => .ite (fun _ => .pure rfl) fun _ => ?_)
  refine runs_setOpcode fuel obj stop _ _ { b with pos := b.pos + 1 } ?_
  exact runs_doBindOpcode stop _ _ { b with pos := b.pos + 1 }
    (fun step b => runs_bindOne fuel this obj step b) (.halt _)

def readWeakBindOp (fuel : Nat) (obj : MachObject) (stop : Addr) (b : Binding) :
    Program (Bool × Binding) := do
  let op ← byte b.pos
  let opcode := op &&& bindOpcodeMask
  let immediate := op &&& bindImmediateMask
  let b := { b with pos := b.pos + 1 }
  if opcode = bindOpcodeDone then pure (false, b)
  else
    setOpcode fuel obj stop opcode immediate b
      (doBindOpcode stop opcode immediate b (weakBindOne obj)
        (.ends (.halt "invalid opcode %d for bind nl")))

theorem runs_readWeakBindOp (fuel : Nat) (obj : MachObject) (stop : Addr) (b : Binding) :
    Runs opView b.s.mem (readWeakBindOp fuel obj stop b.forget)
      (Lnk.readWeakBindOp fuel obj stop b) := by
  refine .byte (.ite (fun _ => .pure rfl) fun _ => ?_)
  refine runs_setOpcode fuel obj stop _ _ { b with pos := b.pos + 1 } ?_
  exact runs_doBindOpcode stop _ _ { b with pos := b.pos + 1 }
    (fun step b => runs_weakBindOne obj step b) (.halt _)

def readLazyBindOp (fuel : Nat) (this : ImageId) (obj : MachObject) (stop : Addr) (b : Binding) :
    Program (Bool × Binding) := do
  let op ← byte b.pos
  let opcode := op &&& bindOpcodeMask
  let immediate := op &&& bindImmediateMask
  let b := { b with pos := b.pos + 1 }
  if opcode = bindOpcodeDone then pure (false, b)
  else if opcode = bindOpcodeSetDylibSpecialImm then
    pure (false, { b with libraryOrdinal := specialOrdinal immediate })
  else
    setOpcode fuel obj stop opcode immediate b
      (if opcode = bindOpcodeDoBind then do
        let b ← bindOne fuel this obj 4 b
        pure (false, b)
      else .ends (.halt "invalid opcode %d for bind lazy"))

theorem runs_readLazyBindOp (fuel : Nat) (this : ImageId) (obj : MachObject) (stop : Addr)
    (b : Binding) :
    Runs opView b.s.mem (readLazyBindOp fuel this obj stop b.forget)
      (Lnk.readLazyBindOp fuel this obj stop b) := by
  refine .byte (.ite (fun _ => .pure rfl) fun _ => .ite (fun _ => .pure rfl) fun _ => ?_)
  refine runs_setOpcode fuel obj stop _ _ { b with pos := b.pos + 1 } ?_
  refine .ite (fun _ => ?_) fun _ => .halt _
  exact (runs_bindOne fuel this obj 4 { b with pos := b.pos + 1 }).bind fun b => .pure rfl

def bindLoop (op : Binding → Program (Bool × Binding)) (stop : Addr) :
    Nat → Binding → Program Binding
  | 0, _ => .ends .timeout
  | fuel + 1, b =>
    if b.pos < stop then do
      let (finished, b) ← op b
      if finished then pure b else bindLoop op stop fuel b
    else pure b

theorem runs_bindLoop {op : Binding → Program (Bool × Binding)}
    {op' : Binding → Outcome (Bool × Binding)}
    (hop : ∀ b, Runs opView b.s.mem (op b.forget) (op' b)) (stop : Addr) (fuel : Nat)
    (b : Binding) :
    Runs Binding.view b.s.mem (bindLoop op stop fuel b.forget) (Lnk.bindLoop op' stop fuel b) := by
  induction fuel generalizing b with
  | zero => exact .timeout
  | succ fuel ih =>
    unfold bindLoop Lnk.bindLoop
    refine .ite (fun _ => ?_) fun _ => .pure rfl
    exact (hop b).bind fun ⟨_, b⟩ => .ite (fun _ => .pure rfl) fun _ => ih b

def readBind (fuel : Nat) (s : Linker) (this : ImageId) (obj : MachObject) (start stop : Addr) :
    Program Linker := do
  let b ← bindLoop (readBindOp fuel this obj stop) stop fuel (.start s start 0)
  pure b.s

theorem runs_readBind (fuel : Nat) (s : Linker) (this : ImageId) (obj : MachObject)
    (start stop : Addr) :
    Runs Linker.view s.mem (readBind fuel s.forget this obj start stop)
      (Lnk.readBind fuel s this obj start stop) :=
  (runs_bindLoop (fun b => runs_readBindOp fuel this obj stop b) stop fuel (.start s start 0)).bind
    fun _ => .pure rfl

def readWeakBind (fuel : Nat) (s : Linker) (obj : MachObject) (start stop : Addr) :
    Program Linker := do
  let b ← bindLoop (readWeakBindOp fuel obj stop) stop fuel (.start s start 0)
  pure b.s

theorem runs_readWeakBind (fuel : Nat) (s : Linker) (obj : MachObject) (start stop : Addr) :
    Runs Linker.view s.mem (readWeakBind fuel s.forget obj start stop)
      (Lnk.readWeakBind fuel s obj start stop) :=
  (runs_bindLoop (fun b => runs_readWeakBindOp fuel obj stop b) stop fuel (.start s start 0)).bind
    fun _ => .pure rfl

def readLazyBind (fuel : Nat) (s : Linker) (this : ImageId) (obj : MachObject) (start stop : Addr) :
    Program Linker := do
  let b ← bindLoop (readLazyBindOp fuel this obj stop) stop fuel (.start s start bindTypePointer)
  pure b.s

theorem runs_readLazyBind (fuel : Nat) (s : Linker) (this : ImageId) (obj : MachObject)
    (start stop : Addr) :
    Runs Linker.view s.mem (readLazyBind fuel s.forget this obj start stop)
      (Lnk.readLazyBind fuel s this obj start stop) :=
  (runs_bindLoop (fun b => runs_readLazyBindOp fuel this obj stop b) stop fuel
    (.start s start bindTypePointer)).bind fun _ => .pure rfl

/-! ## Classic images -/

def bindIndirect (fuel : Nat) (this : ImageId) (obj : MachObject) (ptrToBind entry : Addr)
    (s : Linker) : Program Linker := do
  let symbolIndex ← load entry
  if symbolIndex = indirectSymbolLocal then do
    let old ← loadOwn ptrToBind
    store ptrToBind (old + obj.fSlide)
    pure s
  else if symbolIndex = indirectSymbolAbs then .ends (.halt "ABS!")
  else if symbolIndex = 0 then .ends (.halt "malformed classic image!")
  else do
    let sym := obj.fSymtab + 12 * symbolIndex
    let strx ← load sym
    let symbolName ← cstringAt fuel (obj.fStrings + strx)
    let desc ← load16 (sym + 6)
    bind fuel s this ptrToBind bindTypePointer symbolName 0 (getLibraryOrdinal desc)

theorem runs_bindIndirect (fuel : Nat) (this : ImageId) (obj : MachObject)
    (ptrToBind entry : Addr) (s : Linker) :
    Runs Linker.view s.mem (bindIndirect fuel this obj ptrToBind entry s.forget)
      (Lnk.bindIndirect fuel this obj ptrToBind entry s) := by
  refine .load (.ite (fun _ => .loadOwn (.store (.pure rfl))) fun _ => ?_)
  refine .ite (fun _ => .halt _) fun _ => .ite (fun _ => .halt _) fun _ => .load ?_
  refine (runs_cstringAt s.mem fuel _).bind fun symbolName => .load16 ?_
  exact runs_bind fuel s this ptrToBind bindTypePointer symbolName 0 _

def bindIndirects (fuel : Nat) (this : ImageId) (obj : MachObject) :
    Nat → Addr → Addr → Linker → Program Linker
  | 0, _, _, s => pure s
  | count + 1, ptrToBind, entry, s => do
    let s ← bindIndirect fuel this obj ptrToBind entry s
    bindIndirects fuel this obj count (ptrToBind + 4) (entry + 4) s

theorem runs_bindIndirects (fuel : Nat) (this : ImageId) (obj : MachObject) (count : Nat)
    (ptrToBind entry : Addr) (s : Linker) :
    Runs Linker.view s.mem (bindIndirects fuel this obj count ptrToBind entry s.forget)
      (Lnk.bindIndirects fuel this obj count ptrToBind entry s) := by
  induction count generalizing ptrToBind entry s with
  | zero => exact .pure rfl
  | succ count ih =>
    exact (runs_bindIndirect fuel this obj ptrToBind entry s).bind fun s => ih _ _ s

def bindIndirectSection (fuel : Nat) (cmds : BindCommands) (this : ImageId) (obj : MachObject)
    (segment : Nat) (s : Linker) (sect : Section × Nat) : Program Linker :=
  let type := sect.1.flags &&& sectionType
  if type = sNonLazySymbolPointers ∨ type = sLazySymbolPointers then
    bindIndirects fuel this obj (sect.1.size.toNat / 4) (sect.1.addr + obj.fSlide)
      (obj.fLinkEditBase + obj.dysymtab.indirectsymoff + 4 * cmds.reserved1 segment sect.2) s
  else pure s

theorem runs_bindIndirectSection (fuel : Nat) (cmds : BindCommands) (this : ImageId)
    (obj : MachObject) (segment : Nat) (s : Linker) (sect : Section × Nat) :
    Runs Linker.view s.mem (bindIndirectSection fuel cmds this obj segment s.forget sect)
      (Lnk.bindIndirectSection fuel cmds this obj segment s sect) :=
  .ite (fun _ => runs_bindIndirects fuel this obj _ _ _ s) fun _ => .pure rfl

def classicBindIndirect (fuel : Nat) (cmds : BindCommands) (this : ImageId) (obj : MachObject)
    (s : Linker) : Program Linker := do
  let _ ← .ends (Outcome.ofOption obj.fDynamicInfo)
  obj.fSegmentLoadCommands.zipIdx.foldlM (fun s seg =>
    seg.1.sections.zipIdx.foldlM (bindIndirectSection fuel cmds this obj seg.2) s) s

theorem runs_classicBindIndirect (fuel : Nat) (cmds : BindCommands) (this : ImageId)
    (obj : MachObject) (s : Linker) :
    Runs Linker.view s.mem (classicBindIndirect fuel cmds this obj s.forget)
      (Lnk.classicBindIndirect fuel cmds this obj s) := by
  refine (Runs.lift _).bind fun _ => Runs.foldlM (fun s seg => ?_) _ s
  exact Runs.foldlM (fun s sect => runs_bindIndirectSection fuel cmds this obj seg.2 s sect) _ s

def classicBindExtern (fuel : Nat) (this : ImageId) (obj : MachObject) (relocBase reloc : Addr)
    (s : Linker) : Program Linker := do
  let address ← load reloc
  let info ← load (reloc + 4)
  if (info >>> 25) &&& 3 = relocSize then
    if info >>> 28 = genericRelocVanilla then do
      let undefinedSymbol := obj.fSymtab + 12 * (info &&& 0x00ffffff)
      let location := address + relocBase
      let value ← loadOwn location
      let type ← byte (undefinedSymbol + 4)
      let desc ← load16 (undefinedSymbol + 6)
      if type &&& nType = nSect ∧ desc &&& nArmThumbDef ≠ 0 then
        .ends (.halt "weird arm thumb thing detected!")
      else do
        let nValue ← load (undefinedSymbol + 8)
        let strx ← load undefinedSymbol
        let symbolName ← cstringAt fuel (obj.fStrings + strx)
        bind fuel s this location bindTypePointer symbolName (value - nValue)
          (getLibraryOrdinal desc)
    else .ends (.halt "unknown reloc type!")
  else .ends (.halt "bad reloc size!")

theorem runs_classicBindExtern (fuel : Nat) (this : ImageId) (obj : MachObject)
    (relocBase reloc : Addr) (s : Linker) :
    Runs Linker.view s.mem (classicBindExtern fuel this obj relocBase reloc s.forget)
      (Lnk.classicBindExtern fuel this obj relocBase reloc s) := by
  refine .load (.load (.ite (fun _ => .ite (fun _ => ?_) fun _ => .halt _) fun _ => .halt _))
  refine .loadOwn (.byte (.load16 (.ite (fun _ => .halt _) fun _ => .load (.load ?_))))
  refine (runs_cstringAt s.mem fuel _).bind fun symbolName => ?_
  exact runs_bind fuel s this _ bindTypePointer symbolName _ _

def classicBindExternsLoop (fuel : Nat) (this : ImageId) (obj : MachObject) (relocBase : Addr) :
    Nat → Addr → Linker → Program Linker
  | 0, _, s => pure s
  | count + 1, reloc, s => do
    let s ← classicBindExtern fuel this obj relocBase reloc s
    classicBindExternsLoop fuel this obj relocBase count (reloc + 8) s

theorem runs_classicBindExternsLoop (fuel : Nat) (this : ImageId) (obj : MachObject)
    (relocBase : Addr) (count : Nat) (reloc : Addr) (s : Linker) :
    Runs Linker.view s.mem (classicBindExternsLoop fuel this obj relocBase count reloc s.forget)
      (Lnk.classicBindExternsLoop fuel this obj relocBase count reloc s) := by
  induction count generalizing reloc s with
  | zero => exact .pure rfl
  | succ count ih =>
    exact (runs_classicBindExtern fuel this obj relocBase reloc s).bind fun s => ih _ s

def classicBindExterns (fuel : Nat) (cmds : BindCommands) (this : ImageId) (obj : MachObject)
    (s : Linker) : Program Linker := do
  let relocBase ← .ends (getClassicRelocBase cmds obj)
  let _ ← .ends (Outcome.ofOption obj.fDynamicInfo)
  let relocsStart := obj.fLinkEditBase + obj.dysymtab.extreloff
  let relocsEnd := relocsStart + 8 * obj.dysymtab.nextrel
  classicBindExternsLoop fuel this obj relocBase ((relocsEnd.toNat - relocsStart.toNat) / 8)
    relocsStart s

theorem runs_classicBindExterns (fuel : Nat) (cmds : BindCommands) (this : ImageId)
    (obj : MachObject) (s : Linker) :
    Runs Linker.view s.mem (classicBindExterns fuel cmds this obj s.forget)
      (Lnk.classicBindExterns fuel cmds this obj s) := by
  refine (Runs.lift _).bind fun relocBase => (Runs.lift _).bind fun _ => ?_
  exact runs_classicBindExternsLoop fuel this obj relocBase _ _ s

/-! ## The whole image -/

/-- The result is `sUnresolvedCount`. -/
def bindSymbols (fuel : Nat) (cmds : ImageId → BindCommands) (s : Linker) (this : ImageId) :
    Program Word := do
  let obj ← .ends (s.object this)
  let cmds := cmds this
  if obj.fIsClassic then do
    let s ← classicBindIndirect fuel cmds this obj s
    let s ← classicBindExterns fuel cmds this obj s
    pure s.sUnresolvedCount
  else if obj.fDyldInfo = none then .ends (.halt "no dyld info section")
  else do
    let base := obj.fLinkEditBase
    let s ← readBind fuel s this obj (base + cmds.bindOff) (base + cmds.bindOff + cmds.bindSize)
    let s ← readWeakBind fuel s obj (base + cmds.weakBindOff)
      (base + cmds.weakBindOff + cmds.weakBindSize)
    let s ← readLazyBind fuel s this obj (base + cmds.lazyBindOff)
      (base + cmds.lazyBindOff + cmds.lazyBindSize)
    pure s.sUnresolvedCount

/-- **The program is `doBindSymbols`.** -/
theorem runs_bindSymbols (fuel : Nat) (cmds : ImageId → BindCommands) (s : Linker)
    (this : ImageId) :
    Runs (fun r => (r.2, r.1)) s.mem (bindSymbols fuel cmds s.forget this)
      (Lnk.bindSymbols fuel cmds s this) := by
  refine (Runs.lift (s.object this)).bind fun obj => .ite (fun _ => ?_) fun _ =>
    .ite (fun _ => .halt _) fun _ => ?_
  · refine (runs_classicBindIndirect fuel (cmds this) this obj s).bind fun s => ?_
    exact (runs_classicBindExterns fuel (cmds this) this obj s).bind fun s => .pure rfl
  · refine (runs_readBind fuel s this obj _ _).bind fun s => ?_
    refine (runs_readWeakBind fuel s obj _ _).bind fun s => ?_
    exact (runs_readLazyBind fuel s this obj _ _).bind fun s => .pure rfl

end Program

end LibSystem.Lnk
