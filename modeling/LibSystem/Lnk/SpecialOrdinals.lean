import LibSystem.Lnk.BindOrder
import LibSystem.Lnk.Fixups

/-!
# Special library ordinals

`n_desc` has an unsigned byte for the ordinal, `BIND_OPCODE_SET_DYLIB_SPECIAL_IMM` a nibble that
is sign extended. `MachObject::bind` gets both.
-/

namespace LibSystem.Lnk

open Outcome

/-- `DYNAMIC_LOOKUP_ORDINAL`. -/
def dynamicLookupOrdinal : Word := 0xfe

/-- `EXECUTABLE_ORDINAL`. -/
def executableOrdinal : Word := 0xff

/-- The length of the array `fDependencies`. -/
def maxDependencies : Nat := 128

/-- The opcode byte sets the special ordinal for which the classic format has `ordinal`. -/
def SpecialPair (ordinal : Word) (opcode : Byte) : Prop :=
  opcode &&& bindOpcodeMask = bindOpcodeSetDylibSpecialImm ∧
    (ordinal = dynamicLookupOrdinal ∧ specialOrdinal (opcode &&& bindImmediateMask) = -2 ∨
      ordinal = executableOrdinal ∧ specialOrdinal (opcode &&& bindImmediateMask) = -1)

/-! ## The classic path -/

/-- What the classic path binds: a pointer by its entry of the indirect table, or a relocation. -/
inductive ClassicUse where
  | indirect (ptrToBind entry : Addr)
  | externReloc (relocBase reloc : Addr)

namespace ClassicUse

variable (mem : Mem) (obj : MachObject)

def symbolIndex : ClassicUse → Word
  | indirect _ entry => mem.load entry
  | externReloc _ reloc => mem.load (reloc + 4) &&& 0x00ffffff

/-- The address of the `nlist`. -/
def symbol (use : ClassicUse) : Addr := obj.fSymtab + 12 * use.symbolIndex mem

def location : ClassicUse → Addr
  | indirect ptrToBind _ => ptrToBind
  | externReloc relocBase reloc => mem.load reloc + relocBase

def addend : ClassicUse → Word
  | indirect _ _ => 0
  | externReloc relocBase reloc =>
    mem.load (location mem (externReloc relocBase reloc)) -
      mem.load (symbol mem obj (externReloc relocBase reloc) + 8)

/-- The entry names a symbol, or the relocation is a word-sized vanilla one. -/
def NamesSymbol : ClassicUse → Prop
  | indirect _ entry =>
    mem.load entry ≠ indirectSymbolLocal ∧ mem.load entry ≠ indirectSymbolAbs ∧ mem.load entry ≠ 0
  | externReloc _ reloc =>
    (mem.load (reloc + 4) >>> 25) &&& 3 = relocSize ∧
      mem.load (reloc + 4) >>> 28 = genericRelocVanilla

/-- The call of `bind` is reached: there is a symbol, and a relocation is not against a Thumb
definition. -/
def Calls : ClassicUse → Prop
  | indirect ptrToBind entry => NamesSymbol mem (indirect ptrToBind entry)
  | externReloc relocBase reloc =>
    NamesSymbol mem (externReloc relocBase reloc) ∧
      ¬ (mem (symbol mem obj (externReloc relocBase reloc) + 4) &&& nType = nSect ∧
        mem.load16 (symbol mem obj (externReloc relocBase reloc) + 6) &&& nArmThumbDef ≠ 0)

def ordinal (use : ClassicUse) : Word := getLibraryOrdinal (mem.load16 (use.symbol mem obj + 6))

def bind (fuel : Nat) (this : ImageId) (s : Linker) : ClassicUse → Outcome Linker
  | indirect ptrToBind entry => bindIndirect fuel this obj ptrToBind entry s
  | externReloc relocBase reloc => classicBindExtern fuel this obj relocBase reloc s

end ClassicUse

/-- `N_UNDF`. -/
def Undefined (mem : Mem) (symbol : Addr) : Prop := mem (symbol + 4) &&& nType = 0

variable {fuel : Nat} {this : ImageId} {obj : MachObject} {s : Linker} {use : ClassicUse}

theorem ClassicUse.bind_of_calls (h : use.Calls s.mem obj) :
    use.bind obj fuel this s =
      (cstringAt s.mem fuel (obj.fStrings + s.mem.load (use.symbol s.mem obj)) >>= fun name =>
        Lnk.bind fuel s this (use.location s.mem) bindTypePointer name (use.addend s.mem obj)
          (use.ordinal s.mem obj)) := by
  cases use with
  | indirect ptrToBind entry =>
    obtain ⟨hlocal, habs, hzero⟩ := h
    simp only [ClassicUse.bind, bindIndirect]
    rw [if_neg hlocal, if_neg habs, if_neg hzero]
    rfl
  | externReloc relocBase reloc =>
    obtain ⟨⟨hsize, hvanilla⟩, hthumb⟩ := h
    simp only [ClassicUse.bind, classicBindExtern]
    rw [if_pos hsize, if_pos hvanilla]
    exact if_neg hthumb

theorem ClassicUse.bind_eq (huse : use.NamesSymbol s.mem)
    (hundef : Undefined s.mem (use.symbol s.mem obj)) :
    use.bind obj fuel this s =
      (cstringAt s.mem fuel (obj.fStrings + s.mem.load (use.symbol s.mem obj)) >>= fun name =>
        Lnk.bind fuel s this (use.location s.mem) bindTypePointer name (use.addend s.mem obj)
          (getLibraryOrdinal (s.mem.load16 (use.symbol s.mem obj + 6)))) := by
  refine ClassicUse.bind_of_calls ?_
  cases use with
  | indirect ptrToBind entry => exact huse
  | externReloc relocBase reloc =>
    exact ⟨huse, fun h => absurd (hundef.symm.trans h.1) (by decide)⟩

/-! ## The two paths -/

/-- `readBind` on the two opcodes at the cursor. -/
def bindSpecial (fuel : Nat) (this : ImageId) (obj : MachObject) (b : Binding) : Outcome Binding :=
  bindLoop (readBindOp fuel this obj (b.pos + 2)) (b.pos + 2) 3 b

/-- The interpreter is about to bind what the classic path binds: it has the same memory and
variables, and at the cursor a special ordinal and `BIND_OPCODE_DO_BIND`. -/
structure BindsSame (s : Linker) (obj : MachObject) (use : ClassicUse) (b : Binding) : Prop where
  state : b.s = s
  type : b.type = bindTypePointer
  addend : b.addend = use.addend s.mem obj
  address : b.address = use.location s.mem
  inSegment : b.address < b.segmentEndAddress
  named : b.symbolName ≠ 0
  room : b.pos.toNat + 2 < 2 ^ 32
  special : SpecialPair (getLibraryOrdinal (s.mem.load16 (use.symbol s.mem obj + 6))) (s.mem b.pos)
  bind : s.mem (b.pos + 1) = bindOpcodeDoBind

/-- Both paths bind, and leave the same memory. -/
def SpecialAlike (this : ImageId) (obj : MachObject) (s : Linker) (use : ClassicUse) (b : Binding) :
    Prop :=
  ∃ fuel s' b', use.bind obj fuel this s = done s' ∧ bindSpecial fuel this obj b = done b' ∧
    s'.mem = b'.s.mem

theorem bind_out_of_range (hobj : s.object this = done obj) {address : Addr} {type : Byte}
    {name : CString} {addend ordinal : Word}
    (hordinal : (ordinal - 1).toInt > obj.fDependencies.length) :
    bind fuel s this address type name addend ordinal =
      halt "%s: ordinal for symbol '%s' out of range" := by
  unfold bind
  rw [hobj, done_bind]
  exact if_pos hordinal

theorem bind_special (hobj : s.object this = done obj) (address : Addr) (addend : Word)
    {name : CString} {value ordinal : Word} {found : Option ImageId} {s' : Linker}
    (hordinal : ordinal = -2 ∨ ordinal = -1)
    (hresolve : resolve fuel s name ordinal none = done (value, found, s')) :
    bind fuel s this address bindTypePointer name addend ordinal =
      done { s' with mem := s'.mem.store address (value + addend) } := by
  have hnegative : (ordinal - 1).toInt < 0 ∧ ordinal.toInt < 0 := by
    rcases hordinal with rfl | rfl
    · decide
    · decide
  have hrange : ¬ (ordinal - 1).toInt > obj.fDependencies.length := by omega
  have hindex : ¬ ordinal.toInt > 0 := by omega
  unfold bind
  simp only [hobj, done_bind, if_neg hrange, if_neg hindex, hresolve]
  rw [if_pos trivial, fixLocation_eq]

/-! ## The two opcodes -/

variable {b : Binding} {stop : Addr}

theorem readBindOp_special
    (hopcode : b.s.mem b.pos &&& bindOpcodeMask = bindOpcodeSetDylibSpecialImm) :
    readBindOp fuel this obj stop b = done (false, { b with
      pos := b.pos + 1
      libraryOrdinal := specialOrdinal (b.s.mem b.pos &&& bindImmediateMask) }) := by
  have hdone : bindOpcodeSetDylibSpecialImm ≠ bindOpcodeDone := by decide
  unfold readBindOp
  simp only [hopcode, if_neg hdone, if_true]

theorem readBindOp_doBind (stop : Addr) {b' : Binding} (hopcode : b.s.mem b.pos = bindOpcodeDoBind)
    (hone : bindOne fuel this obj 4 { b with pos := b.pos + 1 } = done b') :
    readBindOp fuel this obj stop b = done (false, b') := by
  have hop : readBindOp fuel this obj stop b =
      (bindOne fuel this obj 4 { b with pos := b.pos + 1 } >>= fun b' => done (false, b')) := by
    unfold readBindOp
    rw [hopcode]
    rfl
  rw [hop, hone, done_bind]

theorem bindLoop_step {op : Binding → Outcome (Bool × Binding)} {b' : Binding}
    (hpos : b.pos < stop) (hop : op b = done (false, b')) (fuel : Nat) :
    bindLoop op stop (fuel + 1) b = bindLoop op stop fuel b' := by
  rw [bindLoop, if_pos hpos, hop]
  rfl

theorem bindOne_of_bind (obj : MachObject) (step : Word) {name : CString} {s' : Linker}
    (haddress : b.address < b.segmentEndAddress) (hnamed : b.symbolName ≠ 0)
    (hname : cstringAt b.s.mem fuel b.symbolName = done name)
    (hbind : bind fuel b.s this b.address b.type name b.addend b.libraryOrdinal = done s') :
    bindOne fuel this obj step b = done { b with s := s', address := b.address + step } := by
  have hcheck : checkAddress obj b = done () := if_neg (BitVec.not_le.mpr haddress)
  have hnull : ¬ (b.symbolName = 0 ∧ (b.libraryOrdinal - 1).toInt ≤ obj.fDependencies.length) :=
    fun h => hnamed h.1
  unfold bindOne bindHere
  rw [hcheck, done_bind, if_neg hnull, hname, done_bind, hbind]
  rfl

theorem bindSpecial_eq_done (hobj : s.object this = done obj) (hb : BindsSame s obj use b)
    {name : CString} {value : Word} {found : Option ImageId} {s' : Linker}
    (hname : cstringAt s.mem fuel b.symbolName = done name)
    (hresolve : resolve fuel s name (specialOrdinal (s.mem b.pos &&& bindImmediateMask)) none =
      done (value, found, s')) :
    ∃ b', bindSpecial fuel this obj b = done b' ∧
      b'.s = { s' with
        mem := s'.mem.store (use.location s.mem) (value + use.addend s.mem obj) } := by
  obtain ⟨rfl, htype, haddend, haddress, hinSegment, hnamed, hroom, hspecial, hbind⟩ := hb
  have hnegative : specialOrdinal (b.s.mem b.pos &&& bindImmediateMask) = -2 ∨
      specialOrdinal (b.s.mem b.pos &&& bindImmediateMask) = -1 :=
    hspecial.2.imp And.right And.right
  have hlt : b.pos < b.pos + 2 := by bv_omega
  have hlt1 : b.pos + 1 < b.pos + 2 := by bv_omega
  have hend : ¬ b.pos + 1 + 1 < b.pos + 2 := by bv_omega
  have hvalue :=
    bind_special hobj (use.location b.s.mem) (use.addend b.s.mem obj) hnegative hresolve
  rw [← haddress, ← haddend, ← htype] at hvalue
  have hone := bindOne_of_bind obj 4
    (b := { b with
      pos := b.pos + 1 + 1
      libraryOrdinal := specialOrdinal (b.s.mem b.pos &&& bindImmediateMask) })
    hinSegment hnamed hname hvalue
  have hop := readBindOp_doBind (b.pos + 2)
    (b := { b with
      pos := b.pos + 1
      libraryOrdinal := specialOrdinal (b.s.mem b.pos &&& bindImmediateMask) })
    hbind hone
  refine ⟨{ b with
    s := { s' with mem := s'.mem.store b.address (value + b.addend) }
    pos := b.pos + 1 + 1
    libraryOrdinal := specialOrdinal (b.s.mem b.pos &&& bindImmediateMask)
    address := b.address + 4 }, ?_, ?_⟩
  · unfold bindSpecial
    rw [bindLoop_step hlt (readBindOp_special hspecial.1), bindLoop_step hlt1 hop, bindLoop]
    exact if_neg hend
  · rw [← haddress, ← haddend]

/-! ## The answer -/

theorem classic_special_halts (hobj : s.object this = done obj)
    (hdeps : obj.fDependencies.length ≤ maxDependencies) (huse : use.NamesSymbol s.mem)
    (hundef : Undefined s.mem (use.symbol s.mem obj)) {opcode : Byte}
    (hspecial : SpecialPair (getLibraryOrdinal (s.mem.load16 (use.symbol s.mem obj + 6))) opcode)
    {name : CString}
    (hname : cstringAt s.mem fuel (obj.fStrings + s.mem.load (use.symbol s.mem obj)) = done name) :
    use.bind obj fuel this s = halt "%s: ordinal for symbol '%s' out of range" := by
  have hrange : (getLibraryOrdinal (s.mem.load16 (use.symbol s.mem obj + 6)) - 1).toInt >
      obj.fDependencies.length := by
    unfold maxDependencies at hdeps
    rcases hspecial.2 with h | h
    · have hindex : (dynamicLookupOrdinal - 1).toInt = 253 := rfl
      rw [h.1, hindex]
      omega
    · have hindex : (executableOrdinal - 1).toInt = 254 := rfl
      rw [h.1, hindex]
      omega
  rw [ClassicUse.bind_eq huse hundef, hname, done_bind, bind_out_of_range hobj hrange]

theorem not_specialAlike (hobj : s.object this = done obj)
    (hdeps : obj.fDependencies.length ≤ maxDependencies) (huse : use.NamesSymbol s.mem)
    (hundef : Undefined s.mem (use.symbol s.mem obj)) (hb : BindsSame s obj use b) :
    ¬ SpecialAlike this obj s use b := by
  rintro ⟨fuel, s', b', hclassic, -, -⟩
  have hbind := hclassic
  rw [ClassicUse.bind_eq huse hundef] at hbind
  obtain ⟨name, hname, -⟩ := bind_eq_done.mp hbind
  rw [classic_special_halts hobj hdeps huse hundef hb.special hname] at hclassic
  exact absurd hclassic (by simp)

/-- **Special ordinals are not special in the classic format.** No image binds such a symbol like
the opcodes do: the classic path stops the process, and the opcodes store what `resolve` finds. -/
theorem special_ordinals_never_alike (this : ImageId) (obj : MachObject) (s : Linker)
    (use : ClassicUse) (b : Binding) (hobj : s.object this = done obj)
    (hdeps : obj.fDependencies.length ≤ maxDependencies) (huse : use.NamesSymbol s.mem)
    (hundef : Undefined s.mem (use.symbol s.mem obj)) (hb : BindsSame s obj use b) :
    ¬ SpecialAlike this obj s use b ∧
      (∀ fuel name,
        cstringAt s.mem fuel (obj.fStrings + s.mem.load (use.symbol s.mem obj)) = done name →
        use.bind obj fuel this s = halt "%s: ordinal for symbol '%s' out of range") ∧
      ∀ fuel name value found s', cstringAt s.mem fuel b.symbolName = done name →
        resolve fuel s name (specialOrdinal (s.mem b.pos &&& bindImmediateMask)) none =
          done (value, found, s') →
        ∃ b', bindSpecial fuel this obj b = done b' ∧
          b'.s = { s' with
            mem := s'.mem.store (use.location s.mem) (value + use.addend s.mem obj) } := by
  refine ⟨not_specialAlike hobj hdeps huse hundef hb, ?_, ?_⟩
  · intro fuel name hname
    exact classic_special_halts hobj hdeps huse hundef hb.special hname
  · intro fuel name value found s' hname hresolve
    exact bindSpecial_eq_done hobj hb hname hresolve

/-! ## A relocation with ordinal 0xfe -/

/-- The symbol of the relocation gets the ordinal, and two opcodes stand behind. -/
def specialMem : Mem := fun a =>
  if a = 0x111b then 0xfe
  else if a = 0x1200 then 0x3e
  else if a = 0x1201 then 0x90
  else mixedMem a

def specialLinker : Linker := { mixedLinker with mem := specialMem }

def specialObject : MachObject :=
  { MachObject.new with
    fIsClassic := true
    fLinkEditBase := 0x1000
    fSymtab := 0x1114
    fStrings := 0x1120
    fDynamicInfo := some (.dysymtab mixedDysymtab)
    fSegmentLoadCommands := [⟨"__DATA", 0x6000, 0x100, 0, []⟩] }

def specialUse : ClassicUse := .externReloc 0x6000 0x110c

def specialBinding : Binding where
  s := specialLinker
  pos := 0x1200
  libraryOrdinal := 0
  segmentIndex := 0
  symbolName := 0x1120
  addend := 4
  type := bindTypePointer
  segmentEndAddress := 0x6100
  address := 0x6010

theorem specialBinding_bindsSame :
    BindsSame specialLinker specialObject specialUse specialBinding where
  state := rfl
  type := rfl
  addend := by decide
  address := by decide
  inSegment := by decide
  named := by decide
  room := by decide
  special := by
    refine ⟨by decide, .inl ⟨by decide, by decide⟩⟩
  bind := by decide

theorem special_ordinals_never_alike_dynamicLookup :
    ¬ SpecialAlike 1 specialObject specialLinker specialUse specialBinding ∧
      specialUse.bind specialObject 20 1 specialLinker =
        halt "%s: ordinal for symbol '%s' out of range" := by
  have h := special_ordinals_never_alike 1 specialObject specialLinker specialUse specialBinding rfl
    (by decide) (by unfold specialUse ClassicUse.NamesSymbol; decide) (by unfold Undefined; decide)
    specialBinding_bindsSame
  have hstring : specialObject.fStrings +
      specialLinker.mem.load (specialUse.symbol specialLinker.mem specialObject) = 0x1120 := by
    decide
  have hname : cstringAt specialLinker.mem 20 0x1120 = done ⟨[0x5f, 0x61, 0x62], by decide⟩ := rfl
  rw [hstring] at h
  exact ⟨h.1, h.2.1 20 _ hname⟩

theorem not_special_alike :
    ¬ ∀ (this : ImageId) (obj : MachObject) (s : Linker) (use : ClassicUse) (b : Binding),
      s.object this = done obj → obj.fDependencies.length ≤ maxDependencies →
      use.NamesSymbol s.mem → Undefined s.mem (use.symbol s.mem obj) → BindsSame s obj use b →
      SpecialAlike this obj s use b := by
  intro h
  have huse : specialUse.NamesSymbol specialLinker.mem := by
    unfold specialUse ClassicUse.NamesSymbol
    decide
  have hundef : Undefined specialLinker.mem
      (specialUse.symbol specialLinker.mem specialObject) := by
    unfold Undefined
    decide
  have halike := h 1 specialObject specialLinker specialUse specialBinding rfl (by decide) huse
    hundef specialBinding_bindsSame
  exact not_specialAlike rfl (by decide) huse hundef specialBinding_bindsSame halike

end LibSystem.Lnk
