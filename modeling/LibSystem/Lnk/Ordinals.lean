import LibSystem.Lnk.ClassicWords

/-!
# Library ordinals

`MachObject::bind` lets an ordinal pass whose entry of `fDependencies` is one behind the last that
`parseLoadCommands` has filled in.
-/

namespace LibSystem.Lnk

open Outcome

/-! ## Where `bind` looks -/

/-- The index into `fDependencies`. A special ordinal has none. -/
def dependencyIndex (obj : MachObject) (ordinal : Word) : Outcome (Option Nat) :=
  let reqOrdinal := ordinal - 1
  if reqOrdinal.toInt > obj.fDependencies.length then
    .halt "%s: ordinal for symbol '%s' out of range"
  else if ordinal.toInt > 0 then .done (some reqOrdinal.toInt.toNat)
  else .done none

/-- The end of `bind`, with what `resolve` has found. -/
def bindUpdate (address : Addr) (type : Byte) (addend : Word)
    (found : Word × Option ImageId × Linker) : Outcome Linker :=
  let newValue := found.1 + addend
  let s := found.2.2
  if type = bindTypePointer then .done { s with mem := fixLocation s.mem address newValue }
  else if type = bindTypeTextAbsolute32 then
    .done { s with mem := fixLocation s.mem address newValue }
  else if type = bindTypeTextPcrel32 then
    .done { s with mem := fixLocation s.mem address (newValue - (address + 4)) }
  else .halt "bad bind type %d"

theorem bind_eq_index (fuel : Nat) (s : Linker) (this : ImageId) (address : Addr) (type : Byte)
    (name : CString) (addend ordinal : Word) :
    bind fuel s this address type name addend ordinal =
      (s.object this >>= fun obj => dependencyIndex obj ordinal >>= fun index =>
        resolve fuel s name ordinal (index.bind (obj.fDependencies[·]?)) >>=
          bindUpdate address type addend) := by
  unfold bind dependencyIndex
  refine bind_congr fun obj => ?_
  dsimp only
  split
  · rfl
  split
  · rfl
  · rfl

variable {this : ImageId} {obj : MachObject}

/-- If `bind` goes on and looks at the array, it looks at an entry that has been filled in. -/
def LooksAtFilled (t : Linker) (this : ImageId) (ordinal : Word) : Prop :=
  ∀ obj index, t.object this = done obj → dependencyIndex obj ordinal = done (some index) →
    index < obj.fDependencies.length

/-- The subtraction wraps at `INT_MIN` only. -/
theorem toInt_reqOrdinal {ordinal : Word} (h : ordinal.toInt > 0) :
    (ordinal - 1).toInt = ordinal.toInt - 1 := by
  have hle : ordinal.toInt ≤ 2 ^ 31 - 1 := BitVec.toInt_le
  have hone : (1 : Word).toInt = 1 := rfl
  rw [BitVec.toInt_sub, hone, Int.bmod_eq_of_le (by omega) (by omega)]

/-- There it wraps to an index that is out of range. -/
theorem dependencyIndex_intMin (hdeps : obj.fDependencies.length < 2 ^ 31 - 1) :
    dependencyIndex obj (BitVec.intMin 32) =
      halt "%s: ordinal for symbol '%s' out of range" := by
  have hwraps : (BitVec.intMin 32 - 1).toInt = 2 ^ 31 - 1 := rfl
  unfold dependencyIndex
  dsimp only
  rw [hwraps]
  exact if_pos (by omega)

theorem dependencyIndex_eq_some {ordinal : Word} {index : Nat} :
    dependencyIndex obj ordinal = done (some index) ↔
      ordinal.toInt = index + 1 ∧ index ≤ obj.fDependencies.length := by
  unfold dependencyIndex
  dsimp only
  -- The subtraction wraps for no ordinal that is positive, and for the others nothing is read.
  by_cases hpos : ordinal.toInt > 0
  · rw [toInt_reqOrdinal hpos, if_pos hpos]
    split
    · simp only [reduceCtorEq, false_iff]
      omega
    · simp only [done.injEq, Option.some.injEq]
      omega
  · rw [if_neg hpos]
    split
    · simp only [reduceCtorEq, false_iff]
      omega
    · simp only [done.injEq, reduceCtorEq, false_iff]
      omega

theorem looksAtFilled_iff {t : Linker} {ordinal : Word} (hobj : t.object this = done obj) :
    LooksAtFilled t this ordinal ↔ ordinal.toInt ≠ obj.fDependencies.length + 1 := by
  constructor
  · intro h hordinal
    have hindex : dependencyIndex obj ordinal = done (some obj.fDependencies.length) :=
      dependencyIndex_eq_some.mpr ⟨hordinal, Nat.le_refl _⟩
    exact Nat.lt_irrefl _ (h obj _ hobj hindex)
  · intro hne obj' index hobj' hindex
    obtain rfl := done.inj (hobj.symm.trans hobj')
    obtain ⟨hordinal, hle⟩ := dependencyIndex_eq_some.mp hindex
    omega

/-! ## The calls -/

/-- `bind` is called with this ordinal in the state `t`: by `readBind` or `readLazyBind` on the
opcodes of `[start, stop)`, or for a symbol of a classic image. -/
inductive CallsBind (fuel : Nat) (cmds : BindCommands) (s : Linker) (this : ImageId)
    (obj : MachObject) (start stop relocBase : Addr) : Linker → Word → Prop
  | read (b : Binding) (h : b ∈ readBindFixups fuel s this obj start stop)
      (hinside : b.address < b.segmentEndAddress) :
      CallsBind fuel cmds s this obj start stop relocBase b.s b.libraryOrdinal
  | readLazy (b : Binding) (h : b ∈ readLazyBindFixups fuel s this obj start stop)
      (hinside : b.address < b.segmentEndAddress) :
      CallsBind fuel cmds s this obj start stop relocBase b.s b.libraryOrdinal
  | classic (p : Linker × ClassicUse) (h : p ∈ classicSteps fuel cmds s this obj relocBase)
      (hcalls : p.2.Calls p.1.mem obj) :
      CallsBind fuel cmds s this obj start stop relocBase p.1 (p.2.ordinal p.1.mem obj)

variable {fuel : Nat} {cmds : BindCommands} {s t : Linker}
variable {start stop relocBase : Addr} {ordinal : Word}

theorem object_invariant :
    BindInvariant fuel this obj fun b => b.s.object this = done obj where
  sets := by
    intro b b' h hs _ _
    rw [hs, h]
  selects := by
    intro b b' h hs _
    rw [hs, h]
  binds := by
    intro step b b' h hone
    obtain ⟨-, value, count, rfl⟩ := bindOne_eq_done hone
    exact h

theorem CallsBind.object (h : CallsBind fuel cmds s this obj start stop relocBase t ordinal)
    (hobj : s.object this = done obj) : t.object this = done obj := by
  cases h with
  | read b hb _ => exact object_invariant.readBindFixups hobj b hb
  | readLazy b hb _ => exact object_invariant.readLazyBindFixups hobj b hb
  | classic p hp _ =>
    exact Semantics.forall_observe_ofSteps
      (fun t use t' ht hstep => (classicStep_leaves ht hstep).1) hobj p hp

/-- **Ordinals and dependencies.** In every run of the interpreters over any opcodes, and of the
classic path over any symbols, `bind` stops or looks at an entry that has been filled in, exactly
if no call comes with the ordinal behind the last one. -/
theorem ordinals_filled_iff (fuel : Nat) (cmds : BindCommands) (s : Linker) (this : ImageId)
    (obj : MachObject) (start stop relocBase : Addr) (hobj : s.object this = done obj) :
    (∀ t ordinal, CallsBind fuel cmds s this obj start stop relocBase t ordinal →
        LooksAtFilled t this ordinal) ↔
      ∀ t ordinal, CallsBind fuel cmds s this obj start stop relocBase t ordinal →
        ordinal.toInt ≠ obj.fDependencies.length + 1 :=
  forall₃_congr fun _ _ hcall => looksAtFilled_iff (hcall.object hobj)

/-! ## Two opcode streams

The image has no dependencies. The first stream binds `_ab` with ordinal 1, the second with the
special ordinal 0. -/

def ordinalMem (opcode : Byte) : Mem := fun a =>
  [0x70, 0x00, opcode, 0x51, 0x40, 0x5f, 0x61, 0x62, 0x00, 0x90].getD (a - 0x1900).toNat
    (mixedMem a)

def ordinalLinker (opcode : Byte) : Linker := { mixedLinker with mem := ordinalMem opcode }

def ordinalObject : MachObject :=
  { sampleObject 0x4000 with
    fNextImage := some 1
    fSegmentLoadCommands := [⟨"__DATA", 0x5000, 0x100, 0, []⟩] }

theorem ordinals_filled_special :
    ∃ b ∈ readBindFixups 20 (ordinalLinker 0x10) 0 ordinalObject 0x1900 0x190a,
      CallsBind 20 (mixedCommands 0) (ordinalLinker 0x10) 0 ordinalObject 0x1900 0x190a 0x5000
        b.s b.libraryOrdinal ∧
      LooksAtFilled b.s 0 b.libraryOrdinal := by
  have hlist : (readBindFixups 20 (ordinalLinker 0x10) 0 ordinalObject 0x1900 0x190a).map
      (fun b => (b.address, b.segmentEndAddress)) = [(0x5000, 0x5100)] := rfl
  obtain ⟨b, hb, heq⟩ : ∃ b ∈ readBindFixups 20 (ordinalLinker 0x10) 0 ordinalObject 0x1900 0x190a,
      (b.address, b.segmentEndAddress) = (0x5000, 0x5100) :=
    List.mem_map.mp (by rw [hlist]; exact List.mem_singleton_self _)
  obtain ⟨haddress, hend⟩ : b.address = 0x5000 ∧ b.segmentEndAddress = 0x5100 := by simpa using heq
  have hcall : CallsBind 20 (mixedCommands 0) (ordinalLinker 0x10) 0 ordinalObject 0x1900 0x190a
      0x5000 b.s b.libraryOrdinal := .read b hb (by rw [haddress, hend]; decide)
  refine ⟨b, hb, hcall, ?_⟩
  refine (ordinals_filled_iff 20 (mixedCommands 0) (ordinalLinker 0x10) 0 ordinalObject 0x1900
    0x190a 0x5000 rfl).mpr ?_ b.s b.libraryOrdinal hcall
  intro t ordinal hcall
  cases hcall with
  | read b hb _ =>
    have hall : (readBindFixups 20 (ordinalLinker 0x10) 0 ordinalObject 0x1900 0x190a).all
        (fun b => b.libraryOrdinal.toInt ≠ 1) = true := rfl
    exact of_decide_eq_true (List.all_eq_true.mp hall b hb)
  | readLazy b hb _ =>
    have hall : (readLazyBindFixups 20 (ordinalLinker 0x10) 0 ordinalObject 0x1900 0x190a).all
        (fun b => b.libraryOrdinal.toInt ≠ 1) = true := rfl
    exact of_decide_eq_true (List.all_eq_true.mp hall b hb)
  | classic p hp _ =>
    have hnone : classicSteps 20 (mixedCommands 0) (ordinalLinker 0x10) 0 ordinalObject 0x5000 =
        [] := rfl
    rw [hnone] at hp
    simp at hp

theorem ordinals_not_filled :
    ¬ ∀ (fuel : Nat) (cmds : BindCommands) (s : Linker) (this : ImageId) (obj : MachObject)
      (start stop relocBase : Addr), s.object this = done obj →
      ∀ t ordinal, CallsBind fuel cmds s this obj start stop relocBase t ordinal →
        LooksAtFilled t this ordinal := by
  intro h
  have hlist : (readBindFixups 20 (ordinalLinker 0x11) 0 ordinalObject 0x1900 0x190a).map
      (fun b => (b.libraryOrdinal, b.address, b.segmentEndAddress)) = [(1, 0x5000, 0x5100)] := rfl
  obtain ⟨b, hb, heq⟩ : ∃ b ∈ readBindFixups 20 (ordinalLinker 0x11) 0 ordinalObject 0x1900 0x190a,
      (b.libraryOrdinal, b.address, b.segmentEndAddress) = (1, 0x5000, 0x5100) :=
    List.mem_map.mp (by rw [hlist]; exact List.mem_singleton_self _)
  obtain ⟨hordinal, haddress, hend⟩ : b.libraryOrdinal = 1 ∧ b.address = 0x5000 ∧
      b.segmentEndAddress = 0x5100 := by simpa using heq
  have hcall : CallsBind 20 (mixedCommands 0) (ordinalLinker 0x11) 0 ordinalObject 0x1900 0x190a
      0x5000 b.s b.libraryOrdinal := .read b hb (by rw [haddress, hend]; decide)
  have hfilled := h 20 _ _ 0 ordinalObject 0x1900 0x190a 0x5000 rfl _ _ hcall
  refine (looksAtFilled_iff (hcall.object rfl)).mp hfilled ?_
  rw [hordinal]
  rfl

end LibSystem.Lnk
