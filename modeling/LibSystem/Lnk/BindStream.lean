import LibSystem.Lnk.BindCalls
import LibSystem.Lnk.Opcodes
import LibSystem.StraightLine

/-!
# The bind opcodes as a program

A stream is decoded to instructions, with the names that stand in it, before it runs. While the
words that are bound stay clear of the stream, `readBind` does what its instructions do.
-/

namespace LibSystem.Lnk

open Outcome Mem

/-- An opcode with its operands. -/
inductive BindInstr where
  | done
  | setDylibOrdinalImm (immediate : Byte)
  | setDylibOrdinalUleb (n : Outcome Word)
  | setDylibSpecialImm (immediate : Byte)
  | setSymbolTrailingFlagsImm (flags : Byte) (name : CString)
  | setTypeImm (immediate : Byte)
  | setAddendSleb (n : Outcome Word)
  | setSegmentAndOffsetUleb (immediate : Byte) (offset : Outcome Word)
  | addAddrUleb (n : Outcome Word)
  | doBind
  | doBindAddAddrUleb (n : Outcome Word)
  | doBindAddAddrImmScaled (immediate : Byte)
  | doBindUlebTimesSkippingUleb (count skip : Outcome Word)
  /-- A name without an end. -/
  | unterminated
  | invalid

/-- The instruction at the byte `b`, and what is left behind it. -/
def decodeBindOp (b : Byte) (rest : List Byte) : BindInstr × List Byte :=
  let immediate := b &&& bindImmediateMask
  let opcode := b &&& bindOpcodeMask
  if opcode = bindOpcodeDone then (.done, rest)
  else if opcode = bindOpcodeSetDylibSpecialImm then (.setDylibSpecialImm immediate, rest)
  else if opcode = bindOpcodeSetDylibOrdinalImm then (.setDylibOrdinalImm immediate, rest)
  else if opcode = bindOpcodeSetDylibOrdinalUleb then
    (.setDylibOrdinalUleb (operand rest), afterOperand rest)
  else if opcode = bindOpcodeSetTypeImm then (.setTypeImm immediate, rest)
  else if opcode = bindOpcodeSetAddendSleb then
    (.setAddendSleb (signedOperand rest), afterSigned rest)
  else if opcode = bindOpcodeAddAddrUleb then (.addAddrUleb (operand rest), afterOperand rest)
  else if opcode = bindOpcodeSetSegmentAndOffsetUleb then
    (.setSegmentAndOffsetUleb immediate (operand rest), afterOperand rest)
  else if opcode = bindOpcodeSetSymbolTrailingFlagsImm then
    match takeName rest with
    | some (name, rest) => (.setSymbolTrailingFlagsImm immediate name, rest)
    | none => (.unterminated, [])
  else if opcode = bindOpcodeDoBind then (.doBind, rest)
  else if opcode = bindOpcodeDoBindAddAddrUleb then
    (.doBindAddAddrUleb (operand rest), afterOperand rest)
  else if opcode = bindOpcodeDoBindAddAddrImmScaled then (.doBindAddAddrImmScaled immediate, rest)
  else if opcode = bindOpcodeDoBindUlebTimesSkippingUleb then
    (.doBindUlebTimesSkippingUleb (operand rest) (operand (afterOperand rest)),
      afterOperand (afterOperand rest))
  else (.invalid, rest)

def decodeBind : List Byte → List BindInstr := decodeStream decodeBindOp

/-! ## What the instructions do -/

/-- The variables of the loop, with the name in place of the pointer to it. -/
structure BindState where
  s : Linker
  libraryOrdinal : Word
  segmentIndex : Nat
  symbolName : Option CString
  symbolFlags : Byte
  addend : Word
  type : Byte
  segmentEndAddress : Addr
  address : Addr

/-- The variables with the two pointers. -/
def BindState.at (t : BindState) (pos symbolName : Addr) : Binding where
  s := t.s
  pos := pos
  libraryOrdinal := t.libraryOrdinal
  segmentIndex := t.segmentIndex
  symbolName := symbolName
  addend := t.addend
  type := t.type
  segmentEndAddress := t.segmentEndAddress
  address := t.address

/-- A check and a `bind`, and then `address += step`. Without a name it is `bindOne` of a null
pointer. -/
def bindNamed (fuel : Nat) (this : ImageId) (obj : MachObject) (step : Word) (t : BindState) :
    Outcome BindState :=
  match t.symbolName with
  | none => do
    let b ← bindOne fuel this obj step (t.at 0 0)
    .done { t with s := b.s, address := b.address }
  | some name => do
    checkAddress obj (t.at 0 0)
    let s ← bind fuel t.s this t.address t.type name t.addend t.libraryOrdinal
    .done { t with s := s, address := t.address + step }

def bindNamedTimes (one : BindState → Outcome BindState) : Nat → BindState → Outcome BindState
  | 0, t => .done t
  | count + 1, t => do
    let t ← one t
    bindNamedTimes one count t

/-- The states before each of them. -/
def bindNamedTimesFixups (one : BindState → Outcome BindState) : Nat → BindState → List BindState
  | 0, _ => []
  | count + 1, t => t ::
    match one t with
    | .done t => bindNamedTimesFixups one count t
    | _ => []

namespace BindInstr

def exec (fuel : Nat) (this : ImageId) (obj : MachObject) :
    BindInstr → BindState → Outcome (Bool × BindState)
  | done, t => .done (true, t)
  | setDylibOrdinalImm immediate, t =>
    .done (false, { t with libraryOrdinal := immediate.setWidth 32 })
  | setDylibOrdinalUleb n, t => do
    let n ← n
    .done (false, { t with libraryOrdinal := n })
  | setDylibSpecialImm immediate, t =>
    .done (false, { t with libraryOrdinal := specialOrdinal immediate })
  | setSymbolTrailingFlagsImm flags name, t =>
    .done (false, { t with symbolName := some name, symbolFlags := flags })
  | setTypeImm immediate, t => .done (false, { t with type := immediate })
  | setAddendSleb n, t => do
    let n ← n
    .done (false, { t with addend := n })
  | setSegmentAndOffsetUleb immediate offset, t => do
    let start ← segActualLoadAddr obj immediate.toNat
    let offset ← offset
    let segEnd ← segActualEndAddr obj immediate.toNat
    .done (false, { t with
      segmentIndex := immediate.toNat
      address := start + offset
      segmentEndAddress := segEnd })
  | addAddrUleb n, t => do
    let n ← n
    .done (false, { t with address := t.address + n })
  | doBind, t => do
    let t ← bindNamed fuel this obj 4 t
    .done (false, t)
  | doBindAddAddrUleb n, t => do
    let t ← bindNamed fuel this obj 0 t
    let n ← n
    .done (false, { t with address := t.address + (n + 4) })
  | doBindAddAddrImmScaled immediate, t => do
    let t ← bindNamed fuel this obj (immediate.setWidth 32 * 4 + 4) t
    .done (false, t)
  | doBindUlebTimesSkippingUleb count skip, t => do
    let count ← count
    let skip ← skip
    let t ← bindNamedTimes (bindNamed fuel this obj (skip + 4)) count.toNat t
    .done (false, t)
  | unterminated, t => .done (true, t)
  | invalid, _ => .halt "invalid opcode %d for bind nl"

/-- The states in which a word is about to be bound. -/
def fixups (fuel : Nat) (this : ImageId) (obj : MachObject) : BindInstr → BindState → List BindState
  | doBind, t => [t]
  | doBindAddAddrUleb _, t => [t]
  | doBindAddAddrImmScaled _, t => [t]
  | doBindUlebTimesSkippingUleb (.done count) (.done skip), t =>
    bindNamedTimesFixups (bindNamed fuel this obj (skip + 4)) count.toNat t
  | _, _ => []

end BindInstr

def bindSemantics (fuel : Nat) (this : ImageId) (obj : MachObject) :
    Semantics BindInstr BindState BindState where
  exec := BindInstr.exec fuel this obj
  seen := BindInstr.fixups fuel this obj

/-- What is about to be bound. -/
def BindState.attempt (t : BindState) : BindAttempt where
  s := t.s
  segmentEndAddress := t.segmentEndAddress
  call := {
    address := t.address
    type := t.type
    name := .ofOption t.symbolName
    flags := t.symbolFlags
    addend := t.addend
    ordinal := t.libraryOrdinal }

/-! ## Names in the stream -/

/-- The bytes between the addresses are the same. -/
def SameStretch (start stop : Addr) (mem mem' : Mem) : Prop :=
  ∀ x, start ≤ x → x < stop → mem' x = mem x

/-- The pointer is null, or the name stands there in the stream. -/
def NamedBy (start stop : Addr) (mem : Mem) (symbolName : Addr) : Option CString → Prop
  | none => symbolName = 0
  | some name => start ≤ symbolName ∧ symbolName ≠ 0 ∧
      ∃ rest, takeName (mem.slice symbolName stop) = some (name, rest)

variable {fuel : Nat} {this : ImageId} {obj : MachObject} {start stop : Addr} {t t' : BindState}
  {mem mem' : Mem} {pos symbolName : Addr}

theorem SameStretch.slice {p : Addr} (h : SameStretch start stop mem mem') (hp : start ≤ p) :
    mem'.slice p stop = mem.slice p stop :=
  slice_congr fun x hlow hhigh => h x (BitVec.le_trans hp hlow) hhigh

theorem NamedBy.read {name : CString} (h : NamedBy start stop mem symbolName (some name))
    (hfuel : stop.toNat - start.toNat ≤ fuel) : cstringAt mem fuel symbolName = done name := by
  obtain ⟨hstart, -, rest, htake⟩ := h
  refine (cstringAt_of_takeName rfl htake ?_).1
  rw [length_slice]
  bv_omega

theorem NamedBy.of_same {name : Option CString} (h : NamedBy start stop mem symbolName name)
    (hsame : SameStretch start stop mem mem') : NamedBy start stop mem' symbolName name := by
  cases name with
  | none => exact h
  | some name =>
    obtain ⟨hstart, hnull, rest, htake⟩ := h
    refine ⟨hstart, hnull, rest, ?_⟩
    rwa [hsame.slice hstart]

theorem attempt_at (h : NamedBy start stop t.s.mem symbolName t.symbolName)
    (hfuel : stop.toNat - start.toNat ≤ fuel) :
    (t.at pos symbolName).attempt fuel t.symbolFlags = t.attempt := by
  unfold Binding.attempt BindState.attempt
  congr 2
  cases hname : t.symbolName with
  | none =>
    rw [hname] at h
    exact if_pos h
  | some name =>
    rw [hname] at h
    rw [show (t.at pos symbolName).symbolName = symbolName from rfl, if_neg h.2.1]
    exact h.read hfuel

/-! ## One bind -/

theorem bindOne_pos (step : Word) (b : Binding) (pos : Addr) :
    bindOne fuel this obj step { b with pos := pos } =
      (bindOne fuel this obj step b >>= fun b' => done { b' with pos := pos }) := by
  unfold bindOne bindHere checkAddress
  dsimp only
  rw [bind_bind]
  refine bind_congr fun _ => ?_
  split
  · rfl
  · simp only [bind_bind, done_bind]

theorem bindOne_fields {step : Word} {b b' : Binding} (h : bindOne fuel this obj step b = done b') :
    b' = { b with s := b'.s, address := b.address + step } := by
  obtain ⟨-, value, count, rfl⟩ := bindOne_eq_done h
  rfl

theorem bindOne_at (step : Word) (h : NamedBy start stop t.s.mem symbolName t.symbolName)
    (hfuel : stop.toNat - start.toNat ≤ fuel) :
    bindOne fuel this obj step (t.at pos symbolName) =
      (bindNamed fuel this obj step t >>= fun t' => done (t'.at pos symbolName)) := by
  unfold bindNamed
  cases hname : t.symbolName with
  | none =>
    rw [hname] at h
    obtain rfl : symbolName = 0 := h
    rw [show t.at pos 0 = { t.at 0 0 with pos := pos } from rfl, bindOne_pos, bind_bind]
    refine bind_congr_of_done fun b hone => ?_
    rw [done_bind, bindOne_fields hone]
    rfl
  | some name =>
    rw [hname] at h
    have hnull : ¬ (symbolName = 0 ∧ (t.libraryOrdinal - 1).toInt ≤ obj.fDependencies.length) :=
      fun hnull => h.2.1 hnull.1
    have hread := h.read hfuel
    unfold bindOne bindHere
    rw [show checkAddress obj (t.at pos symbolName) = checkAddress obj (t.at 0 0) from rfl,
      show (t.at pos symbolName).symbolName = symbolName from rfl,
      show (t.at pos symbolName).libraryOrdinal = t.libraryOrdinal from rfl, if_neg hnull,
      show (t.at pos symbolName).s.mem = t.s.mem from rfl, hread]
    simp only [bind_bind, done_bind]
    rfl

theorem bindNamed_fields {step : Word} (h : bindNamed fuel this obj step t = done t') :
    t' = { t with s := t'.s, address := t.address + step } := by
  unfold bindNamed at h
  split at h
  · obtain ⟨b, hone, h⟩ := bind_eq_done.mp h
    obtain rfl := done.inj h
    rw [bindOne_fields hone]
    rfl
  · obtain ⟨-, -, h⟩ := bind_eq_done.mp h
    obtain ⟨s, -, h⟩ := bind_eq_done.mp h
    obtain rfl := done.inj h
    rfl

/-! ## Binds that stay clear of the stream -/

/-- The bytes between the addresses are no part of the word, if it is changed at all. -/
def Binding.ClearOf (fuel : Nat) (this : ImageId) (obj : MachObject) (start stop : Addr)
    (b : Binding) : Prop :=
  BindStores fuel this obj b → ∀ x, InWord b.address x → ¬ (start ≤ x ∧ x < stop)

theorem sameStretch_of_onlyAt {l : List Binding} (h : OnlyAt (BindWords fuel this obj l) mem mem')
    (hclear : ∀ b ∈ l, b.ClearOf fuel this obj start stop) : SameStretch start stop mem mem' := by
  intro x hlow hhigh
  by_contra hne
  obtain ⟨a, ⟨b, hb, hstores, rfl⟩, hin⟩ := h x hne
  exact hclear b hb hstores x hin ⟨hlow, hhigh⟩

theorem Binding.ClearOf.sameStretch {b b' : Binding} {step : Word}
    (hclear : b.ClearOf fuel this obj start stop) (h : bindOne fuel this obj step b = done b') :
    SameStretch start stop b.s.mem b'.s.mem :=
  sameStretch_of_onlyAt (bindOne_changes (List.mem_singleton.mpr rfl) _ h)
    (List.forall_mem_singleton.mpr hclear)

theorem bindTimes_at (step : Word) (count : Nat)
    (h : NamedBy start stop t.s.mem symbolName t.symbolName)
    (hfuel : stop.toNat - start.toNat ≤ fuel)
    (hclear : ∀ b ∈ bindTimesFixups (bindOne fuel this obj step) count (t.at pos symbolName),
      b.ClearOf fuel this obj start stop) :
    (bindTimesFixups (bindOne fuel this obj step) count (t.at pos symbolName)).map
        (Binding.attempt fuel t.symbolFlags) =
          (bindNamedTimesFixups (bindNamed fuel this obj step) count t).map BindState.attempt ∧
      bindTimes (bindOne fuel this obj step) count (t.at pos symbolName) =
        (bindNamedTimes (bindNamed fuel this obj step) count t >>= fun t' =>
          done (t'.at pos symbolName)) := by
  induction count generalizing t with
  | zero => exact ⟨rfl, rfl⟩
  | succ count ih =>
    have hone : bindOne fuel this obj step (t.at pos symbolName) =
        (bindNamed fuel this obj step t >>= fun t' => done (t'.at pos symbolName)) :=
      bindOne_at step h hfuel
    rw [bindTimesFixups] at hclear ⊢
    rw [bindNamedTimesFixups, bindTimes, bindNamedTimes, List.map_cons, List.map_cons,
      attempt_at h hfuel]
    cases hnamed : bindNamed fuel this obj step t with
    | done t1 =>
      rw [hnamed, done_bind] at hone
      have hfields := bindNamed_fields hnamed
      have hsame : SameStretch start stop t.s.mem t1.s.mem :=
        (hclear _ List.mem_cons_self).sameStretch hone
      rw [hone] at hclear ⊢
      have hname1 : t1.symbolName = t.symbolName := by rw [hfields]
      have hflags1 : t1.symbolFlags = t.symbolFlags := by rw [hfields]
      have hrest := ih (t := t1) (by rw [hname1]; exact h.of_same hsame)
        fun b hb => hclear b (List.mem_cons_of_mem _ hb)
      rw [hflags1] at hrest
      exact ⟨congrArg _ hrest.1, hrest.2⟩
    | halt msg =>
      rw [hnamed, halt_bind] at hone
      rw [hone]
      exact ⟨rfl, rfl⟩
    | fault =>
      rw [hnamed, fault_bind] at hone
      rw [hone]
      exact ⟨rfl, rfl⟩
    | timeout =>
      rw [hnamed, timeout_bind] at hone
      rw [hone]
      exact ⟨rfl, rfl⟩

/-! ## One opcode -/

theorem ite_suffix {c : Prop} [Decidable c] {rest : List Byte} {x y : BindInstr × List Byte}
    (hx : x.2 <:+ rest) (hy : y.2 <:+ rest) : (if c then x else y).2 <:+ rest := by
  split
  · exact hx
  · exact hy

theorem decodeBindOp_suffix (b : Byte) (rest : List Byte) : (decodeBindOp b rest).2 <:+ rest := by
  have hname : (match takeName rest with
      | some (name, rest) =>
        (BindInstr.setSymbolTrailingFlagsImm (b &&& bindImmediateMask) name, rest)
      | none => (.unterminated, [])).2 <:+ rest := by
    split
    · rename_i hname
      exact takeName_suffix hname
    · exact List.nil_suffix
  unfold decodeBindOp
  exact ite_suffix List.suffix_rfl <| ite_suffix List.suffix_rfl <| ite_suffix List.suffix_rfl <|
    ite_suffix (afterOperand_suffix _) <| ite_suffix List.suffix_rfl <|
    ite_suffix (afterSigned_suffix _) <| ite_suffix (afterOperand_suffix _) <|
    ite_suffix (afterOperand_suffix _) <| ite_suffix hname <| ite_suffix List.suffix_rfl <|
    ite_suffix (afterOperand_suffix _) <| ite_suffix List.suffix_rfl <|
    ite_suffix ((afterOperand_suffix _).trans (afterOperand_suffix _)) List.suffix_rfl

/-- Where the name of the instruction at `p` stands. -/
def BindInstr.namePointer (p symbolName : Addr) : BindInstr → Addr
  | setSymbolTrailingFlagsImm _ _ => p + 1
  | _ => symbolName

theorem readBindOpFixups_eq {b : Byte} {rest : List Byte} {p : Addr}
    (hbytes : t.s.mem.slice p stop = b :: rest)
    (h : NamedBy start stop t.s.mem symbolName t.symbolName)
    (hfuel : stop.toNat - start.toNat ≤ fuel)
    (hclear : ∀ f ∈ readBindOpFixups fuel this obj stop (t.at p symbolName),
      f.ClearOf fuel this obj start stop) :
    (readBindOpFixups fuel this obj stop (t.at p symbolName)).map
        (Binding.attempt fuel t.symbolFlags) =
      ((decodeBindOp b rest).1.fixups fuel this obj t).map BindState.attempt := by
  obtain ⟨hlt, rfl, hrest⟩ := cons_of_slice hbytes
  have hle : p + 1 ≤ stop := by bv_omega
  have hattempt : [t.at (p + 1) symbolName].map (Binding.attempt fuel t.symbolFlags) =
      [t].map BindState.attempt := congrArg (fun a => [a]) (attempt_at h hfuel)
  revert hclear
  unfold readBindOpFixups doBindOpcodeFixups
  rw [show ({ t.at p symbolName with pos := (t.at p symbolName).pos + 1 } : Binding) =
    t.at (p + 1) symbolName from rfl]
  rw [show (t.at p symbolName).s.mem (t.at p symbolName).pos = t.s.mem p from rfl]
  unfold decodeBindOp
  generalize t.s.mem p &&& bindOpcodeMask = opcode
  generalize t.s.mem p &&& bindImmediateMask = immediate
  dsimp only
  by_cases h9 : opcode = bindOpcodeDoBind
  · subst h9
    exact fun _ => hattempt
  by_cases h10 : opcode = bindOpcodeDoBindAddAddrUleb
  · subst h10
    exact fun _ => hattempt
  by_cases h11 : opcode = bindOpcodeDoBindAddAddrImmScaled
  · subst h11
    exact fun _ => hattempt
  by_cases h12 : opcode = bindOpcodeDoBindUlebTimesSkippingUleb
  · subst h12
    have hread : readUleb128 (t.at (p + 1) symbolName).s.mem (t.at (p + 1) symbolName).pos stop =
        (operand rest >>= fun n => done (n, cursor stop (afterOperand rest))) :=
      readUleb128_eq hle hrest
    have hread2 : readUleb128 (t.at (p + 1) symbolName).s.mem
        (cursor stop (afterOperand rest)) stop = _ := readUleb128_next hle hrest
    simp only [hread, bind_bind, done_bind, hread2]
    cases operand rest with
    | done count =>
      cases operand (afterOperand rest) with
      | done skip => exact fun hclear => (bindTimes_at (skip + 4) count.toNat h hfuel hclear).1
      | halt msg => exact fun _ => rfl
      | fault => exact fun _ => rfl
      | timeout => exact fun _ => rfl
    | halt msg => exact fun _ => rfl
    | fault => exact fun _ => rfl
    | timeout => exact fun _ => rfl
  simp only [if_neg h9, if_neg h10, if_neg h11, if_neg h12]
  intro _
  by_cases h8 : opcode = bindOpcodeSetSymbolTrailingFlagsImm
  · subst h8
    cases takeName rest <;> rfl
  simp only [if_neg h8]
  repeat' split
  all_goals rfl

theorem readBindOp_eq {b : Byte} {rest : List Byte} {p : Addr}
    (hbytes : t.s.mem.slice p stop = b :: rest) (hstart : start ≤ p)
    (h : NamedBy start stop t.s.mem symbolName t.symbolName)
    (hfuel : stop.toNat - start.toNat ≤ fuel) (hended : (decodeBindOp b rest).1 ≠ .unterminated)
    (hclear : ∀ f ∈ readBindOpFixups fuel this obj stop (t.at p symbolName),
      f.ClearOf fuel this obj start stop) :
    readBindOp fuel this obj stop (t.at p symbolName) =
      ((decodeBindOp b rest).1.exec fuel this obj t >>= fun v =>
        done (v.1, v.2.at (cursor stop (decodeBindOp b rest).2)
          ((decodeBindOp b rest).1.namePointer p symbolName))) := by
  obtain ⟨hlt, rfl, hrest⟩ := cons_of_slice hbytes
  have hle : p + 1 ≤ stop := by bv_omega
  have hnext : cursor stop rest = p + 1 := by rw [← hrest, cursor_slice _ hle]
  have hlen : rest.length < fuel := by
    rw [← hrest, length_slice]
    bv_omega
  have hone : ∀ step q, bindOne fuel this obj step (t.at q symbolName) =
      (bindNamed fuel this obj step t >>= fun t' => done (t'.at q symbolName)) :=
    fun step q => bindOne_at step h hfuel
  have hread : readUleb128 (t.at (p + 1) symbolName).s.mem (t.at (p + 1) symbolName).pos stop =
      (operand rest >>= fun n => done (n, cursor stop (afterOperand rest))) :=
    readUleb128_eq hle hrest
  unfold readBindOp
  revert hclear hended
  unfold readBindOpFixups decodeBindOp setOpcode doBindOpcode doBindOpcodeFixups
  rw [show (t.at p symbolName).s.mem (t.at p symbolName).pos = t.s.mem p from rfl]
  rw [show ({ t.at p symbolName with pos := (t.at p symbolName).pos + 1 } : Binding) =
    t.at (p + 1) symbolName from rfl]
  generalize t.s.mem p &&& bindOpcodeMask = opcode
  generalize t.s.mem p &&& bindImmediateMask = immediate
  dsimp only
  by_cases h0 : opcode = bindOpcodeDone
  · simp only [if_pos h0, hnext]
    exact fun _ _ => rfl
  simp only [if_neg h0]
  by_cases h1 : opcode = bindOpcodeSetDylibSpecialImm
  · simp only [if_pos h1, hnext]
    exact fun _ _ => rfl
  simp only [if_neg h1]
  by_cases h2 : opcode = bindOpcodeSetDylibOrdinalImm
  · simp only [if_pos h2, hnext]
    exact fun _ _ => rfl
  simp only [if_neg h2]
  by_cases h3 : opcode = bindOpcodeSetDylibOrdinalUleb
  · simp only [if_pos h3, hread, BindInstr.exec, bind_bind, done_bind]
    exact fun _ _ => rfl
  simp only [if_neg h3]
  by_cases h4 : opcode = bindOpcodeSetTypeImm
  · simp only [if_pos h4, hnext]
    exact fun _ _ => rfl
  simp only [if_neg h4]
  by_cases h5 : opcode = bindOpcodeSetAddendSleb
  · have hsigned : readSleb128 fuel (t.at (p + 1) symbolName).s.mem (t.at (p + 1) symbolName).pos
        stop = (signedOperand rest >>= fun n => done (n, cursor stop (afterSigned rest))) :=
      readSleb128_eq hle hrest hlen
    simp only [if_pos h5, hsigned, BindInstr.exec, bind_bind, done_bind]
    exact fun _ _ => rfl
  simp only [if_neg h5]
  by_cases h6 : opcode = bindOpcodeAddAddrUleb
  · simp only [if_pos h6, hread, BindInstr.exec, bind_bind, done_bind]
    exact fun _ _ => rfl
  simp only [if_neg h6]
  by_cases h7 : opcode = bindOpcodeSetSegmentAndOffsetUleb
  · simp only [if_pos h7, hread, BindInstr.exec, bind_bind, done_bind]
    exact fun _ _ => rfl
  simp only [if_neg h7]
  by_cases h8 : opcode = bindOpcodeSetSymbolTrailingFlagsImm
  · simp only [if_pos h8]
    intro _ hended
    cases hname : takeName rest with
    | none => exact absurd (by rw [hname]) hended
    | some v =>
      obtain ⟨-, hskip⟩ := cstringAt_of_takeName hrest hname (Nat.le_of_lt hlen)
      obtain ⟨q, hq, hend⟩ := bind_eq_done.mp hskip
      show (skipString t.s.mem fuel (p + 1) >>= _) = _
      rw [hq, done_bind, done.inj hend]
      rfl
  simp only [if_neg h8]
  by_cases h9 : opcode = bindOpcodeDoBind
  · simp only [if_pos h9, hone, hnext, BindInstr.exec, bind_bind, done_bind]
    exact fun _ _ => rfl
  simp only [if_neg h9]
  by_cases h10 : opcode = bindOpcodeDoBindAddAddrUleb
  · simp only [if_pos h10]
    intro hclear _
    have hstep := hone 0 (p + 1)
    simp only [hstep, BindInstr.exec, bind_bind, done_bind]
    refine bind_congr_of_done fun t1 hnamed => ?_
    rw [hnamed, done_bind] at hstep
    have hsame : SameStretch start stop t.s.mem t1.s.mem :=
      (hclear _ List.mem_cons_self).sameStretch hstep
    have hrest1 : t1.s.mem.slice (p + 1) stop = rest := (hsame.slice (by bv_omega)).trans hrest
    show (readUleb128 t1.s.mem (p + 1) stop >>= _) = _
    rw [readUleb128_eq hle hrest1, bind_bind]
    rfl
  simp only [if_neg h10]
  by_cases h11 : opcode = bindOpcodeDoBindAddAddrImmScaled
  · simp only [if_pos h11, hone, hnext, BindInstr.exec, bind_bind, done_bind]
    exact fun _ _ => rfl
  simp only [if_neg h11]
  by_cases h12 : opcode = bindOpcodeDoBindUlebTimesSkippingUleb
  · have hread2 : readUleb128 (t.at (p + 1) symbolName).s.mem
        (cursor stop (afterOperand rest)) stop = _ := readUleb128_next hle hrest
    simp only [if_pos h12, hread, hread2, BindInstr.exec, bind_bind, done_bind]
    intro hclear _
    refine bind_congr_of_done fun count hcount => bind_congr_of_done fun skip hskip => ?_
    rw [hcount, hskip] at hclear
    have htimes := (bindTimes_at (skip + 4) count.toNat h hfuel hclear).2
    exact (congrArg (· >>= fun b => done (false, b)) htimes).trans (bind_bind _ _ _)
  simp only [if_neg h12]
  exact fun _ _ => rfl

/-! ## The whole stream -/

theorem decodeBind_cons (b : Byte) (rest : List Byte) :
    decodeBind (b :: rest) = (decodeBindOp b rest).1 :: decodeBind (decodeBindOp b rest).2 :=
  decodeStream_cons decodeBindOp_suffix b rest

theorem decodeBindOp_name {b : Byte} {rest : List Byte}
    (hended : (decodeBindOp b rest).1 ≠ .unterminated) :
    (b &&& bindOpcodeMask = bindOpcodeSetSymbolTrailingFlagsImm ∧
        ∃ name, (decodeBindOp b rest).1 =
            .setSymbolTrailingFlagsImm (b &&& bindImmediateMask) name ∧
          takeName rest = some (name, (decodeBindOp b rest).2)) ∨
      (b &&& bindOpcodeMask ≠ bindOpcodeSetSymbolTrailingFlagsImm ∧
        ∀ flags name, (decodeBindOp b rest).1 ≠ .setSymbolTrailingFlagsImm flags name) := by
  unfold decodeBindOp at *
  generalize b &&& bindOpcodeMask = opcode at *
  generalize b &&& bindImmediateMask = immediate at *
  by_cases h8 : opcode = bindOpcodeSetSymbolTrailingFlagsImm
  · subst h8
    left
    cases hname : takeName rest with
    | none =>
      rw [hname] at hended
      exact absurd rfl hended
    | some v => exact ⟨rfl, v.1, rfl, rfl⟩
  · right
    refine ⟨h8, ?_⟩
    intro flags name
    simp only [if_neg h8]
    have hite : ∀ {c : Prop} [Decidable c] {x y : BindInstr × List Byte},
        x.1 ≠ .setSymbolTrailingFlagsImm flags name → y.1 ≠ .setSymbolTrailingFlagsImm flags name →
        (if c then x else y).1 ≠ .setSymbolTrailingFlagsImm flags name := by
      intro c _ x y hx hy
      split
      · exact hx
      · exact hy
    exact hite nofun <| hite nofun <| hite nofun <| hite nofun <| hite nofun <| hite nofun <|
      hite nofun <| hite nofun <| hite nofun <| hite nofun <| hite nofun <| hite nofun nofun

theorem bindNamedTimes_symbol {step : Word} {count : Nat} :
    (bindNamedTimes (bindNamed fuel this obj step) count t).Ensures fun t' =>
      t'.symbolName = t.symbolName ∧ t'.symbolFlags = t.symbolFlags := by
  induction count generalizing t with
  | zero => exact .done ⟨rfl, rfl⟩
  | succ count ih =>
    refine .bind fun t1 hone t' h => ?_
    have hfields := bindNamed_fields hone
    obtain ⟨hname, hflags⟩ := ih t' h
    rw [hname, hflags, hfields]
    exact ⟨rfl, rfl⟩

theorem BindInstr.exec_symbol (i : BindInstr) : (i.exec fuel this obj t).Ensures fun v =>
    (∃ flags name, i = .setSymbolTrailingFlagsImm flags name ∧ v.2.symbolName = some name ∧
        v.2.symbolFlags = flags) ∨
      (∀ flags name, i ≠ .setSymbolTrailingFlagsImm flags name) ∧
        v.2.symbolName = t.symbolName ∧ v.2.symbolFlags = t.symbolFlags := by
  have hone : ∀ step t1, bindNamed fuel this obj step t = .done t1 →
      t1.symbolName = t.symbolName ∧ t1.symbolFlags = t.symbolFlags := by
    intro step t1 h
    rw [bindNamed_fields h]
    exact ⟨rfl, rfl⟩
  cases i with
  | setSymbolTrailingFlagsImm flags name => exact .done (.inl ⟨flags, name, rfl, rfl, rfl⟩)
  | done => exact .done (.inr ⟨by simp, rfl, rfl⟩)
  | setDylibOrdinalImm immediate => exact .done (.inr ⟨by simp, rfl, rfl⟩)
  | setDylibOrdinalUleb n => exact .bind fun n _ => .done (.inr ⟨by simp, rfl, rfl⟩)
  | setDylibSpecialImm immediate => exact .done (.inr ⟨by simp, rfl, rfl⟩)
  | setTypeImm immediate => exact .done (.inr ⟨by simp, rfl, rfl⟩)
  | setAddendSleb n => exact .bind fun n _ => .done (.inr ⟨by simp, rfl, rfl⟩)
  | setSegmentAndOffsetUleb immediate offset =>
    exact .bind fun start _ => .bind fun offset _ => .bind fun segEnd _ =>
      .done (.inr ⟨by simp, rfl, rfl⟩)
  | addAddrUleb n => exact .bind fun n _ => .done (.inr ⟨by simp, rfl, rfl⟩)
  | doBind => exact .bind fun t1 h => .done (.inr ⟨by simp, hone _ t1 h⟩)
  | doBindAddAddrUleb n =>
    exact .bind fun t1 h => .bind fun n _ => .done (.inr ⟨by simp, hone _ t1 h⟩)
  | doBindAddAddrImmScaled immediate => exact .bind fun t1 h => .done (.inr ⟨by simp, hone _ t1 h⟩)
  | doBindUlebTimesSkippingUleb count skip =>
    exact .bind fun count _ => .bind fun skip _ => .bind fun t1 h =>
      .done (.inr ⟨by simp, bindNamedTimes_symbol t1 h⟩)
  | unterminated => exact .done (.inr ⟨by simp, rfl, rfl⟩)
  | invalid => exact .halt _

theorem BindInstr.namePointer_of_ne {i : BindInstr} {p : Addr}
    (h : ∀ flags name, i ≠ .setSymbolTrailingFlagsImm flags name) :
    i.namePointer p symbolName = symbolName := by
  unfold namePointer
  split
  · exact absurd rfl (h _ _)
  · rfl

theorem symbol_next {b : Byte} {rest : List Byte} {p : Addr} {finished : Bool}
    (hb : t.s.mem p = b) (hlt : p < stop) (hrest : t.s.mem.slice (p + 1) stop = rest)
    (hstart : start ≤ p) (h : NamedBy start stop t.s.mem symbolName t.symbolName)
    (hended : (decodeBindOp b rest).1 ≠ .unterminated)
    (hsame : SameStretch start stop t.s.mem t'.s.mem)
    (hexec : (decodeBindOp b rest).1.exec fuel this obj t = done (finished, t')) :
    nextSymbolFlags t.symbolFlags (t.at p symbolName) = t'.symbolFlags ∧
      NamedBy start stop t'.s.mem ((decodeBindOp b rest).1.namePointer p symbolName)
        t'.symbolName := by
  have hbyte : (t.at p symbolName).s.mem (t.at p symbolName).pos = b := hb
  unfold nextSymbolFlags
  rw [hbyte]
  rcases decodeBindOp_name hended with ⟨hop, name, hinstr, htake⟩ | ⟨hop, hother⟩
  · rw [if_pos hop]
    rw [hinstr] at hexec ⊢
    obtain ⟨-, rfl⟩ := Prod.mk.inj (done.inj hexec)
    have hafter : start ≤ p + 1 ∧ p + 1 ≠ 0 := by bv_omega
    refine ⟨rfl, hafter.1, hafter.2, (decodeBindOp b rest).2, ?_⟩
    show takeName (t.s.mem.slice (p + 1) stop) = _
    rw [hrest, htake]
  · rw [if_neg hop, BindInstr.namePointer_of_ne hother]
    rcases BindInstr.exec_symbol _ _ hexec with ⟨flags, name, heq, -⟩ | ⟨-, hname, hflags⟩
    · exact absurd heq (hother flags name)
    · rw [hname, hflags]
      exact ⟨rfl, h.of_same hsame⟩

/-- While the words that are bound stay clear of the stream, the loop runs its instructions. -/
theorem bindLoop_eq {bytes : List Byte} {n : Nat} {p : Addr}
    (hbytes : t.s.mem.slice p stop = bytes) (hstart : start ≤ p) (hn : bytes.length < n)
    (h : NamedBy start stop t.s.mem symbolName t.symbolName)
    (hfuel : stop.toNat - start.toNat ≤ fuel) (hended : .unterminated ∉ decodeBind bytes)
    (hclear : ∀ f ∈ bindLoopFixups (readBindOp fuel this obj stop)
        (readBindOpFixups fuel this obj stop) stop n (t.at p symbolName),
      f.ClearOf fuel this obj start stop) :
    bindLoopAttempts fuel (readBindOp fuel this obj stop) (readBindOpFixups fuel this obj stop)
        stop n t.symbolFlags (t.at p symbolName) =
        ((bindSemantics fuel this obj).observe (decodeBind bytes) t).map BindState.attempt ∧
      (bindLoop (readBindOp fuel this obj stop) stop n (t.at p symbolName) >>= fun b => done b.s) =
        ((bindSemantics fuel this obj).run (decodeBind bytes) t >>= fun v => done v.2.s) := by
  induction n generalizing t bytes p symbolName with
  | zero => omega
  | succ n ih =>
    cases bytes with
    | nil =>
      have hend : ¬ (t.at p symbolName).pos < stop := not_lt_of_slice hbytes
      rw [bindLoopAttempts, bindLoop, if_neg hend, if_neg hend]
      exact ⟨rfl, rfl⟩
    | cons b rest =>
      obtain ⟨hlt, hb, hrest⟩ := cons_of_slice hbytes
      have hgo : (t.at p symbolName).pos < stop := hlt
      rw [decodeBind_cons, List.mem_cons] at hended
      have hname : (decodeBindOp b rest).1 ≠ .unterminated := fun h => hended (.inl h.symm)
      rw [bindLoopFixups, if_pos hgo] at hclear
      have hopClear : ∀ f ∈ readBindOpFixups fuel this obj stop (t.at p symbolName),
          f.ClearOf fuel this obj start stop := fun f hf => hclear f (List.mem_append_left _ hf)
      have hfixups := readBindOpFixups_eq hbytes h hfuel hopClear
      have hop : readBindOp fuel this obj stop (t.at p symbolName) =
          ((bindSemantics fuel this obj).exec (decodeBindOp b rest).1 t >>= fun v =>
            done (v.1, v.2.at (cursor stop (decodeBindOp b rest).2)
              ((decodeBindOp b rest).1.namePointer p symbolName))) :=
        readBindOp_eq hbytes hstart h hfuel hname hopClear
      rw [bindLoopAttempts, bindLoop, if_pos hgo, if_pos hgo, decodeBind_cons, hfixups]
      by_cases hgoes : ∃ t1,
          (bindSemantics fuel this obj).exec (decodeBindOp b rest).1 t = done (false, t1)
      · obtain ⟨t1, hexec⟩ := hgoes
        rw [hexec, done_bind] at hop
        rw [hop] at hclear ⊢
        rw [Semantics.observe_cons_of_done _ hexec, Semantics.run_cons_of_done _ hexec,
          List.map_append]
        have hsame : SameStretch start stop t.s.mem t1.s.mem :=
          sameStretch_of_onlyAt (readBindOp_changes _ hop) hopClear
        obtain ⟨hlow, hslice⟩ := slice_behind hbytes (decodeBindOp_suffix b rest)
        have hbehind : start ≤ cursor stop (decodeBindOp b rest).2 := by bv_omega
        have hlen := (decodeBindOp_suffix b rest).length_le
        rw [List.length_cons] at hn
        obtain ⟨hflags, hnamed⟩ := symbol_next hb hlt hrest hstart h hname hsame hexec
        have hnext := ih ((hsame.slice hbehind).trans hslice) hbehind (by omega) hnamed
          (fun h => hended (.inr h)) fun f hf => hclear f (List.mem_append_right _ hf)
        rw [← hflags] at hnext
        exact ⟨congrArg _ hnext.1, hnext.2⟩
      · have hended := not_exists.mp hgoes
        rw [Semantics.observe_cons_of_ended _ hended, Semantics.run_cons_of_ended _ hended, hop]
        obtain ⟨t1, hexec⟩ | ⟨msg, hexec⟩ | hexec | hexec := eq_of_ended hended
        all_goals
          rw [hexec]
          exact ⟨List.append_nil _, rfl⟩

/-- The variables before the first opcode. -/
def BindState.initial (s : Linker) (type : Byte) : BindState where
  s := s
  libraryOrdinal := 0
  segmentIndex := 0
  symbolName := none
  symbolFlags := 0
  addend := 0
  type := type
  segmentEndAddress := 0
  address := 0

/-- The words that are bound stay clear of the stream. -/
def BindsClear (fuel : Nat) (s : Linker) (this : ImageId) (obj : MachObject) (start stop : Addr) :
    Prop :=
  ∀ f ∈ readBindFixups fuel s this obj start stop, f.ClearOf fuel this obj start stop

/-- **A stream that is not bound itself runs as its instructions.** -/
theorem readBind_eq {s : Linker} (hfuel : stop.toNat - start.toNat < fuel)
    (hended : .unterminated ∉ decodeBind (s.mem.slice start stop))
    (hclear : BindsClear fuel s this obj start stop) :
    readBindAttempts fuel s this obj start stop =
        ((bindSemantics fuel this obj).observe (decodeBind (s.mem.slice start stop))
          (.initial s 0)).map BindState.attempt ∧
      readBind fuel s this obj start stop =
        ((bindSemantics fuel this obj).run (decodeBind (s.mem.slice start stop)) (.initial s 0) >>=
          fun v => done v.2.s) :=
  bindLoop_eq (t := .initial s 0) (p := start) rfl (BitVec.le_refl start)
    (by rw [length_slice]; exact hfuel) rfl (Nat.le_of_lt hfuel) hended hclear

end LibSystem.Lnk
