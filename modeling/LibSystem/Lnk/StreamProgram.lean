import LibSystem.Lnk.BindProgram

/-!
# The interpreters over their stream

The opcodes once more as programs, in which the bytes of the stream are looked up: the opcode, its
operands, a name, and the byte that the message about an invalid opcode shows. All else that they
read, the words that are fixed up and the tables in which a symbol is found, is their own.
-/

namespace LibSystem.Lnk

open Outcome Access

def Rebasing.forget (r : Rebasing) : Rebasing := { r with mem := fun _ => 0 }

def Rebasing.view (r : Rebasing) : Rebasing × Mem := (r.forget, r.mem)

def rebaseView (r : Bool × Rebasing) : (Bool × Rebasing) × Mem := ((r.1, r.2.forget), r.2.mem)

namespace Stream

open Program (byte loadOwn store)

/-! ## Rebasing -/

def rebaseAt (addr : Addr) (slide : Word) (type : Byte) : Program Unit :=
  if type = rebaseTypePointer then do
    let old ← loadOwn addr
    store addr (old + slide)
  else if type = rebaseTypeTextAbsolute32 then do
    let old ← loadOwn addr
    store addr (old + slide)
  else .ends (.halt "macho baaaad rebase type\n")

def rebaseOne (obj : MachObject) (step : Word) (r : Rebasing) : Program Rebasing :=
  if r.segmentEndAddress ≤ r.address then
    .ends (.halt "malformed binding opcodes (%ld/%ld): address 0x%08lX is beyond end of segment %d (0x%08lX -> 0x%08lX)")
  else do
    rebaseAt r.address obj.fSlide r.type
    pure { r with address := r.address + step }

theorem runs_rebaseOne (obj : MachObject) (step : Word) (r : Rebasing) :
    Runs Rebasing.view r.mem (rebaseOne obj step r.forget) (Lnk.rebaseOne obj step r) := by
  have hstore : Runs (fun mem => ((), mem)) r.mem
      (loadOwn r.address >>= fun old => store r.address (old + obj.fSlide))
      (.done (r.mem.store r.address (r.mem.load r.address + obj.fSlide))) :=
    .loadOwn (run_store _ _ _)
  refine .ite (fun _ => .halt _) fun _ => ?_
  have hat : Runs (fun mem => ((), mem)) r.mem (rebaseAt r.address obj.fSlide r.type) _ :=
    .ite (fun _ => hstore) fun _ => .ite (fun _ => hstore) fun _ => .halt _
  exact hat.bind fun mem => .pure rfl

def rebaseTimes (obj : MachObject) (step : Word) : Nat → Rebasing → Program Rebasing
  | 0, r => pure r
  | count + 1, r => do
    let r ← rebaseOne obj step r
    rebaseTimes obj step count r

theorem runs_rebaseTimes (obj : MachObject) (step : Word) (count : Nat) (r : Rebasing) :
    Runs Rebasing.view r.mem (rebaseTimes obj step count r.forget)
      (Lnk.rebaseTimes obj step count r) := by
  induction count generalizing r with
  | zero => exact .pure rfl
  | succ count ih => exact (runs_rebaseOne obj step r).bind fun r => ih r

def readRebaseOp (obj : MachObject) (stop : Addr) (r : Rebasing) : Program (Bool × Rebasing) := do
  let op ← byte r.p
  let immediate := op &&& rebaseImmediateMask
  let opcode := op &&& rebaseOpcodeMask
  let r := { r with p := r.p + 1 }
  if opcode = rebaseOpcodeDone then pure (true, r)
  else if opcode = rebaseOpcodeSetTypeImm then pure (false, { r with type := immediate })
  else if opcode = rebaseOpcodeSetSegmentAndOffsetUleb then
    if obj.fSegmentLoadCommands.length < immediate.toNat then
      .ends (.halt "baaaad seg count for rebase!")
    else do
      let base ← .ends (segActualLoadAddr obj immediate.toNat)
      let (offset, p) ← Program.readUleb128 r.p stop
      let segEnd ← .ends (segActualEndAddr obj immediate.toNat)
      pure (false, { r with p := p, address := base + offset, segmentEndAddress := segEnd })
  else if opcode = rebaseOpcodeAddAddrUleb then do
    let (n, p) ← Program.readUleb128 r.p stop
    pure (false, { r with p := p, address := r.address + n })
  else if opcode = rebaseOpcodeAddAddrImmScaled then
    pure (false, { r with address := r.address + immediate.setWidth 32 * 4 })
  else if opcode = rebaseOpcodeDoRebaseImmTimes then do
    let r ← rebaseTimes obj 4 immediate.toNat r
    pure (false, r)
  else if opcode = rebaseOpcodeDoRebaseUlebTimes then do
    let (count, p) ← Program.readUleb128 r.p stop
    let r ← rebaseTimes obj 4 count.toNat { r with p := p }
    pure (false, r)
  else if opcode = rebaseOpcodeDoRebaseAddAddrUleb then do
    let r ← rebaseOne obj 0 r
    let (n, p) ← Program.readUleb128 r.p stop
    pure (false, { r with p := p, address := r.address + (n + 4) })
  else if opcode = rebaseOpcodeDoRebaseUlebTimesSkippingUleb then do
    let (count, p) ← Program.readUleb128 r.p stop
    let (skip, p) ← Program.readUleb128 p stop
    let r ← rebaseTimes obj (skip + 4) count.toNat { r with p := p }
    pure (false, r)
  else do
    let _ ← byte r.p
    .ends (.halt "invalid opcode %d for rebase")

theorem runs_readRebaseOp (obj : MachObject) (stop : Addr) (r : Rebasing) :
    Runs rebaseView r.mem (readRebaseOp obj stop r.forget) (Lnk.readRebaseOp obj stop r) := by
  have hread := Program.runs_readUleb128 r.mem (r.p + 1) stop
  have htimes : ∀ step count (r : Rebasing), Runs rebaseView r.mem
      (rebaseTimes obj step count r.forget >>= fun r => pure (false, r))
      (Lnk.rebaseTimes obj step count r >>= fun r => .done (false, r)) :=
    fun step count r => (runs_rebaseTimes obj step count r).bind fun r => .pure rfl
  refine .byte (.ite (fun _ => .pure rfl) fun _ => .ite (fun _ => .pure rfl) fun _ =>
    .ite (fun _ => .ite (fun _ => .halt _) fun _ => ?_) fun _ => .ite (fun _ => ?_) fun _ =>
    .ite (fun _ => .pure rfl) fun _ => .ite (fun _ => ?_) fun _ => .ite (fun _ => ?_) fun _ =>
    .ite (fun _ => ?_) fun _ => .ite (fun _ => ?_) fun _ => .byte (.halt _))
  · refine (Runs.lift _).bind fun base => hread.bind fun _ => ?_
    exact (Runs.lift _).bind fun segEnd => .pure rfl
  · exact hread.bind fun _ => .pure rfl
  · exact htimes 4 _ { r with p := r.p + 1 }
  · exact hread.bind fun ⟨count, p⟩ => htimes 4 count.toNat { r with p := p }
  · refine (runs_rebaseOne obj 0 { r with p := r.p + 1 }).bind fun r => ?_
    exact (Program.runs_readUleb128 r.mem r.p stop).bind fun _ => .pure rfl
  · refine hread.bind fun ⟨count, p⟩ => ?_
    refine (Program.runs_readUleb128 r.mem p stop).bind fun ⟨skip, p⟩ => ?_
    exact htimes (skip + 4) count.toNat { r with p := p }

/-! ## Binding

A name is looked up, unless it is null.
-/

def bindHere (fuel : Nat) (this : ImageId) (obj : MachObject) (b : Binding) : Program Binding :=
  if b.symbolName = 0 then (Program.bindHere fuel this obj b).hide
  else do
    let name ← Program.cstringAt fuel b.symbolName
    let s ← (Program.bind fuel b.s this b.address b.type name b.addend b.libraryOrdinal).hide
    pure { b with s := s }

theorem runs_hide {τ τ' : Type} {view : τ → τ' × Mem} {mem : Mem} {p : Program τ'} {x : Outcome τ}
    (h : Runs view mem p x) : Runs view mem p.hide x :=
  (run_hide p mem).trans h

theorem runs_bindHere (fuel : Nat) (this : ImageId) (obj : MachObject) (b : Binding) :
    Runs Binding.view b.s.mem (bindHere fuel this obj b.forget) (Lnk.bindHere fuel this obj b) := by
  unfold bindHere
  by_cases hnull : b.symbolName = 0
  · rw [if_pos (by exact hnull)]
    exact runs_hide (Program.runs_bindHere fuel this obj b)
  · rw [if_neg (by exact hnull)]
    unfold Lnk.bindHere
    rw [if_neg fun h => hnull h.1]
    refine (Program.runs_cstringAt b.s.mem fuel b.symbolName).bind fun name => ?_
    exact (runs_hide (Program.runs_bind fuel b.s this b.address b.type name b.addend
      b.libraryOrdinal)).bind fun s => .pure rfl

def bindOne (fuel : Nat) (this : ImageId) (obj : MachObject) (step : Word) (b : Binding) :
    Program Binding := do
  .ends (checkAddress obj b)
  let b ← bindHere fuel this obj b
  pure { b with address := b.address + step }

theorem runs_bindOne (fuel : Nat) (this : ImageId) (obj : MachObject) (step : Word) (b : Binding) :
    Runs Binding.view b.s.mem (bindOne fuel this obj step b.forget)
      (Lnk.bindOne fuel this obj step b) := by
  refine (Runs.lift (checkAddress obj b)).bind fun _ => ?_
  exact (runs_bindHere fuel this obj b).bind fun b => .pure rfl

/-- The message shows the byte behind the opcode. -/
def invalidOpcode (b : Binding) (msg : String) : Program (Bool × Binding) := do
  let _ ← byte b.pos
  .ends (.halt msg)

def readBindOp (fuel : Nat) (this : ImageId) (obj : MachObject) (stop : Addr) (b : Binding) :
    Program (Bool × Binding) := do
  let op ← byte b.pos
  let opcode := op &&& bindOpcodeMask
  let immediate := op &&& bindImmediateMask
  let b := { b with pos := b.pos + 1 }
  if opcode = bindOpcodeDone then pure (true, b)
  else if opcode = bindOpcodeSetDylibSpecialImm then
    pure (false, { b with libraryOrdinal := specialOrdinal immediate })
  else
    Program.setOpcode fuel obj stop opcode immediate b
      (Program.doBindOpcode stop opcode immediate b (bindOne fuel this obj)
        (invalidOpcode b "invalid opcode %d for bind nl"))

theorem runs_readBindOp (fuel : Nat) (this : ImageId) (obj : MachObject) (stop : Addr)
    (b : Binding) :
    Runs opView b.s.mem (readBindOp fuel this obj stop b.forget)
      (Lnk.readBindOp fuel this obj stop b) := by
  refine .byte (.ite (fun _ => .pure rfl) fun _ => .ite (fun _ => .pure rfl) fun _ => ?_)
  refine Program.runs_setOpcode fuel obj stop _ _ { b with pos := b.pos + 1 } ?_
  exact Program.runs_doBindOpcode stop _ _ { b with pos := b.pos + 1 }
    (fun step b => runs_bindOne fuel this obj step b) (.byte (.halt _))

def readWeakBindOp (fuel : Nat) (obj : MachObject) (stop : Addr) (b : Binding) :
    Program (Bool × Binding) := do
  let op ← byte b.pos
  let opcode := op &&& bindOpcodeMask
  let immediate := op &&& bindImmediateMask
  let b := { b with pos := b.pos + 1 }
  if opcode = bindOpcodeDone then pure (false, b)
  else
    Program.setOpcode fuel obj stop opcode immediate b
      (Program.doBindOpcode stop opcode immediate b (Program.weakBindOne obj)
        (invalidOpcode b "invalid opcode %d for bind nl"))

theorem runs_readWeakBindOp (fuel : Nat) (obj : MachObject) (stop : Addr) (b : Binding) :
    Runs opView b.s.mem (readWeakBindOp fuel obj stop b.forget)
      (Lnk.readWeakBindOp fuel obj stop b) := by
  refine .byte (.ite (fun _ => .pure rfl) fun _ => ?_)
  refine Program.runs_setOpcode fuel obj stop _ _ { b with pos := b.pos + 1 } ?_
  exact Program.runs_doBindOpcode stop _ _ { b with pos := b.pos + 1 }
    (fun step b => Program.runs_weakBindOne obj step b) (.byte (.halt _))

def readLazyBindOp (fuel : Nat) (this : ImageId) (obj : MachObject) (stop : Addr) (b : Binding) :
    Program (Bool × Binding) := do
  let op ← byte b.pos
  let opcode := op &&& bindOpcodeMask
  let immediate := op &&& bindImmediateMask
  let b := { b with pos := b.pos + 1 }
  if opcode = bindOpcodeDone then pure (false, b)
  else if opcode = bindOpcodeSetDylibSpecialImm then
    pure (false, { b with libraryOrdinal := specialOrdinal immediate })
  else
    Program.setOpcode fuel obj stop opcode immediate b
      (if opcode = bindOpcodeDoBind then do
        let b ← bindOne fuel this obj 4 b
        pure (false, b)
      else invalidOpcode b "invalid opcode %d for bind lazy")

theorem runs_readLazyBindOp (fuel : Nat) (this : ImageId) (obj : MachObject) (stop : Addr)
    (b : Binding) :
    Runs opView b.s.mem (readLazyBindOp fuel this obj stop b.forget)
      (Lnk.readLazyBindOp fuel this obj stop b) := by
  refine .byte (.ite (fun _ => .pure rfl) fun _ => .ite (fun _ => .pure rfl) fun _ => ?_)
  refine Program.runs_setOpcode fuel obj stop _ _ { b with pos := b.pos + 1 } ?_
  refine .ite (fun _ => ?_) fun _ => .byte (.halt _)
  exact (runs_bindOne fuel this obj 4 { b with pos := b.pos + 1 }).bind fun b => .pure rfl

end Stream

end LibSystem.Lnk
