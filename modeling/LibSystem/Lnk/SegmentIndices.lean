import LibSystem.Lnk.Fixups

/-!
# Segment indices

Four interpreters take the index of a segment from the immediate of an opcode. `readRebase` tests
it and halts, but lets one index too many through; `rebaseCompressed` makes the same test and only
prints; `readBind` and `readLazyBind` do not test it.
-/

namespace LibSystem.Lnk

open Outcome

/-- What an opcode with the index `index` does, where there are `n` segments: it does not look up
a segment that is not there, and it goes on only with one that is. -/
structure Selects {σ : Type} (n index : Nat) (x : Outcome (Bool × σ)) : Prop where
  safe : x ≠ fault
  selected : ∀ v, x = done v → index < n

/-! ## One opcode -/

section Selects

variable {σ α : Type} {n index : Nat} {obj : MachObject} {stop : Addr}

theorem Selects.halt (msg : String) : Selects n index (.halt msg : Outcome (Bool × σ)) :=
  ⟨by simp, by simp⟩

theorem selects_bind_iff {x : Outcome α} {f : α → Outcome (Bool × σ)}
    (hthere : index < n → ∃ a, x = done a) (hnone : n ≤ index → x = fault)
    (hf : index < n → ∀ a, f a ≠ fault) : Selects n index (x >>= f) ↔ index < n := by
  constructor
  · intro h
    by_contra hlt
    rw [hnone (by omega)] at h
    exact h.safe rfl
  · intro hlt
    obtain ⟨a, rfl⟩ := hthere hlt
    exact ⟨hf hlt a, fun _ _ => hlt⟩

theorem ofOption_of_lt {l : List α} (h : index < l.length) : ∃ a, ofOption l[index]? = done a :=
  ⟨l[index], by rw [List.getElem?_eq_getElem h, ofOption_some]⟩

theorem ofOption_of_le {l : List α} (h : l.length ≤ index) : ofOption l[index]? = fault := by
  rw [List.getElem?_eq_none h, ofOption_none]

theorem segActualLoadAddr_of_lt (h : index < obj.fSegmentLoadCommands.length) :
    ∃ a, segActualLoadAddr obj index = done a := by
  obtain ⟨seg, hseg⟩ := ofOption_of_lt h
  exact ⟨_, by rw [segActualLoadAddr, hseg, done_bind]⟩

theorem segActualLoadAddr_of_le (h : obj.fSegmentLoadCommands.length ≤ index) :
    segActualLoadAddr obj index = fault := by
  rw [segActualLoadAddr, ofOption_of_le h, fault_bind]

theorem segActualEndAddr_of_lt (h : index < obj.fSegmentLoadCommands.length) :
    ∃ a, segActualEndAddr obj index = done a := by
  obtain ⟨start, hstart⟩ := segActualLoadAddr_of_lt h
  obtain ⟨seg, hseg⟩ := ofOption_of_lt h
  exact ⟨_, by rw [segActualEndAddr, hstart, done_bind, hseg, done_bind]⟩

theorem lt_of_segActualEndAddr {a : Addr} (h : segActualEndAddr obj index = done a) :
    index < obj.fSegmentLoadCommands.length := by
  by_contra hlt
  rw [segActualEndAddr, segActualLoadAddr_of_le (by omega)] at h
  simp at h

theorem readUleb128Loop_ne_fault {mem : Mem} {p : Addr} {fuel bit : Nat} {result : BitVec 64} :
    readUleb128Loop mem stop fuel p result bit ≠ fault := by
  induction fuel generalizing p result bit with
  | zero => simp [readUleb128Loop]
  | succ fuel ih =>
    unfold readUleb128Loop
    split
    · simp
    split
    · simp
    dsimp only
    split
    · exact ih
    · simp

theorem readUleb128_settles {mem : Mem} {p stop : Addr} : (readUleb128 mem p stop).Settles :=
  settles_iff.mpr ⟨readUleb128Loop_ne_timeout (by omega), readUleb128Loop_ne_fault⟩

theorem bind_ne_fault {β : Type} {x : Outcome α} {f : α → Outcome β} :
    (x >>= f) ≠ fault ↔ x ≠ fault ∧ ∀ a, x = done a → f a ≠ fault := by
  cases x <;> simp

theorem selects_segment_iff {mem : Mem} {p : Addr} {f : Addr → Word × Addr → Addr → Bool × σ} :
    Selects obj.fSegmentLoadCommands.length index
      (segActualLoadAddr obj index >>= fun start => readUleb128 mem p stop >>= fun v =>
        segActualEndAddr obj index >>= fun segEnd => .done (f start v segEnd)) ↔
      index < obj.fSegmentLoadCommands.length := by
  refine selects_bind_iff segActualLoadAddr_of_lt segActualLoadAddr_of_le fun hlt start => ?_
  obtain ⟨segEnd, hsegEnd⟩ := segActualEndAddr_of_lt hlt
  refine bind_ne_fault.mpr ⟨readUleb128Loop_ne_fault, fun v _ => ?_⟩
  rw [hsegEnd, done_bind]
  simp

end Selects

namespace Rebasing

def opcode (r : Rebasing) : Byte := r.mem r.p &&& rebaseOpcodeMask
def immediate (r : Rebasing) : Byte := r.mem r.p &&& rebaseImmediateMask

end Rebasing

namespace Binding

def opcode (b : Binding) : Byte := b.s.mem b.pos &&& bindOpcodeMask
def immediate (b : Binding) : Byte := b.s.mem b.pos &&& bindImmediateMask

end Binding

variable {fuel : Nat} {this : ImageId} {obj : MachObject} {stop : Addr}

theorem readRebaseOp_selects_iff {r : Rebasing}
    (h : r.opcode = rebaseOpcodeSetSegmentAndOffsetUleb) :
    Selects obj.fSegmentLoadCommands.length r.immediate.toNat (readRebaseOp obj stop r) ↔
      r.immediate.toNat ≠ obj.fSegmentLoadCommands.length := by
  have hdone : rebaseOpcodeSetSegmentAndOffsetUleb ≠ rebaseOpcodeDone := by decide
  have htype : rebaseOpcodeSetSegmentAndOffsetUleb ≠ rebaseOpcodeSetTypeImm := by decide
  unfold Rebasing.opcode at h
  unfold readRebaseOp
  simp only [h, if_neg hdone, if_neg htype, if_true]
  change Selects _ r.immediate.toNat (if _ < r.immediate.toNat then _ else _) ↔ _
  split
  · rename_i hlt
    exact iff_of_true (.halt _) (by omega)
  · rename_i hle
    refine selects_segment_iff.trans ?_
    omega

theorem setOpcode_selects_iff {immediate : Byte} {b : Binding} {other : Outcome (Bool × Binding)} :
    Selects obj.fSegmentLoadCommands.length immediate.toNat
      (setOpcode fuel obj stop bindOpcodeSetSegmentAndOffsetUleb immediate b other) ↔
      immediate.toNat < obj.fSegmentLoadCommands.length := by
  unfold setOpcode
  rw [if_neg (by decide), if_neg (by decide), if_neg (by decide), if_neg (by decide),
    if_neg (by decide), if_pos rfl]
  exact selects_segment_iff

theorem readBindOp_selects_iff {b : Binding} (h : b.opcode = bindOpcodeSetSegmentAndOffsetUleb) :
    Selects obj.fSegmentLoadCommands.length b.immediate.toNat (readBindOp fuel this obj stop b) ↔
      b.immediate.toNat < obj.fSegmentLoadCommands.length := by
  unfold Binding.opcode at h
  unfold readBindOp
  simp only [h]
  rw [if_neg (by decide), if_neg (by decide)]
  exact setOpcode_selects_iff

theorem readLazyBindOp_selects_iff {b : Binding}
    (h : b.opcode = bindOpcodeSetSegmentAndOffsetUleb) :
    Selects obj.fSegmentLoadCommands.length b.immediate.toNat
        (readLazyBindOp fuel this obj stop b) ↔
      b.immediate.toNat < obj.fSegmentLoadCommands.length := by
  unfold Binding.opcode at h
  unfold readLazyBindOp
  simp only [h]
  rw [if_neg (by decide), if_neg (by decide)]
  exact setOpcode_selects_iff

theorem Bootstrap.rebaseOp_selects_iff {segments : List SegmentCommand} {slide : Word} {s : State}
    (h : s.opcode = rebaseOpcodeSetSegmentAndOffsetUleb) :
    Selects segments.length s.immediate.toNat (rebaseOp segments slide stop s) ↔
      s.immediate.toNat < segments.length := by
  have hdone : rebaseOpcodeSetSegmentAndOffsetUleb ≠ rebaseOpcodeDone := by decide
  have htype : rebaseOpcodeSetSegmentAndOffsetUleb ≠ rebaseOpcodeSetTypeImm := by decide
  unfold Rebasing.opcode at h
  unfold rebaseOp
  simp only [h, if_neg hdone, if_neg htype, if_true]
  refine selects_bind_iff ofOption_of_lt ofOption_of_le fun _ seg => ?_
  exact bind_ne_fault.mpr ⟨readUleb128Loop_ne_fault, by simp⟩

/-! ## The runs -/

/-- The states in which `readRebase` begins an opcode. -/
def readRebaseTurns (mem : Mem) (obj : MachObject) (start stop : Addr) : List Rebasing :=
  match segActualLoadAddr obj 0, segActualEndAddr obj 0 with
  | .done address, .done segEnd =>
    turns (fun r : Rebasing => r.p < stop) (readRebaseOp obj stop) (stop.toNat - start.toNat + 1)
      ⟨mem, start, 0, address, segEnd⟩
  | _, _ => []

def readBindTurns (fuel : Nat) (s : Linker) (this : ImageId) (obj : MachObject)
    (start stop : Addr) : List Binding :=
  turns (fun b : Binding => b.pos < stop) (readBindOp fuel this obj stop) fuel (.start s start 0)

def readLazyBindTurns (fuel : Nat) (s : Linker) (this : ImageId) (obj : MachObject)
    (start stop : Addr) : List Binding :=
  turns (fun b : Binding => b.pos < stop) (readLazyBindOp fuel this obj stop) fuel
    (.start s start bindTypePointer)

def Bootstrap.rebaseTurns (mem : Mem) (segments : List SegmentCommand) (slide : Word)
    (start stop : Addr) : List State :=
  match segments[0]? with
  | some seg =>
    turns (fun s : State => s.p < stop) (rebaseOp segments slide stop)
      (stop.toNat - start.toNat + 1)
      ⟨⟨mem, start, 0, seg.vmaddr + slide, seg.vmaddr + slide + seg.vmsize⟩, []⟩
  | none => []

/-- Nothing has been selected yet, or a segment that is there. -/
def SegmentThere (obj : MachObject) (b : Binding) : Prop :=
  b.segmentIndex = 0 ∧ b.segmentEndAddress = 0 ∨ b.segmentIndex < obj.fSegmentLoadCommands.length

theorem segmentThere_invariant : BindInvariant fuel this obj (SegmentThere obj) where
  sets := by
    intro b b' h _ hindex hend
    unfold SegmentThere
    rw [hindex, hend]
    exact h
  selects := fun b b' _ _ hend => .inr (lt_of_segActualEndAddr hend)
  binds := by
    intro step b b' h hone
    obtain ⟨-, value, count, rfl⟩ := bindOne_eq_done hone
    exact h

/-- **Segment indices.** In every run each selection is of a segment that is there, or stops
before a segment is looked up, exactly if no index is too large: for `readRebase`, which tests
them, none equals the number of segments. The index is then also good at each fix-up. -/
theorem segments_selected_iff (mem : Mem) (fuel : Nat) (s : Linker) (this : ImageId)
    (obj : MachObject) (segments : List SegmentCommand) (slide : Word) (start stop : Addr) :
    ((∀ r ∈ readRebaseTurns mem obj start stop, r.opcode = rebaseOpcodeSetSegmentAndOffsetUleb →
        Selects obj.fSegmentLoadCommands.length r.immediate.toNat (readRebaseOp obj stop r)) ∧
        (∀ a ∈ readRebaseFixups mem obj start stop, a.1 < obj.fSegmentLoadCommands.length) ↔
      ∀ r ∈ readRebaseTurns mem obj start stop, r.opcode = rebaseOpcodeSetSegmentAndOffsetUleb →
        r.immediate.toNat ≠ obj.fSegmentLoadCommands.length) ∧
    ((∀ b ∈ readBindTurns fuel s this obj start stop,
        b.opcode = bindOpcodeSetSegmentAndOffsetUleb →
        Selects obj.fSegmentLoadCommands.length b.immediate.toNat
          (readBindOp fuel this obj stop b)) ∧
        (∀ b ∈ readBindFixups fuel s this obj start stop, SegmentThere obj b) ↔
      ∀ b ∈ readBindTurns fuel s this obj start stop,
        b.opcode = bindOpcodeSetSegmentAndOffsetUleb →
        b.immediate.toNat < obj.fSegmentLoadCommands.length) ∧
    ((∀ b ∈ readLazyBindTurns fuel s this obj start stop,
        b.opcode = bindOpcodeSetSegmentAndOffsetUleb →
        Selects obj.fSegmentLoadCommands.length b.immediate.toNat
          (readLazyBindOp fuel this obj stop b)) ∧
        (∀ b ∈ readLazyBindFixups fuel s this obj start stop, SegmentThere obj b) ↔
      ∀ b ∈ readLazyBindTurns fuel s this obj start stop,
        b.opcode = bindOpcodeSetSegmentAndOffsetUleb →
        b.immediate.toNat < obj.fSegmentLoadCommands.length) ∧
    ((∀ b ∈ Bootstrap.rebaseTurns mem segments slide start stop,
        b.opcode = rebaseOpcodeSetSegmentAndOffsetUleb →
        Selects segments.length b.immediate.toNat (Bootstrap.rebaseOp segments slide stop b)) ↔
      ∀ b ∈ Bootstrap.rebaseTurns mem segments slide start stop,
        b.opcode = rebaseOpcodeSetSegmentAndOffsetUleb → b.immediate.toNat < segments.length) := by
  refine ⟨?_, ?_, ?_, ?_⟩
  · rw [and_iff_left fun a ha => lt_of_segActualEndAddr (readRebaseFixups_end a ha)]
    exact forall₃_congr fun r _ h => readRebaseOp_selects_iff h
  · rw [and_iff_left (segmentThere_invariant.readBindFixups (.inl ⟨rfl, rfl⟩))]
    exact forall₃_congr fun b _ h => readBindOp_selects_iff h
  · rw [and_iff_left (segmentThere_invariant.readLazyBindFixups (.inl ⟨rfl, rfl⟩))]
    exact forall₃_congr fun b _ h => readLazyBindOp_selects_iff h
  · exact forall₃_congr fun b _ h => Bootstrap.rebaseOp_selects_iff h

/-! One segment, and the index 1. -/

def indexMem : Mem := fun a => if a = 0x3000 then 0x21 else if a = 0x4000 then 0x71 else 0

def indexObject : MachObject :=
  { MachObject.new with fSegmentLoadCommands := [⟨"__DATA", 0x1000, 0x1000, 0, []⟩] }

def indexLinker : Linker :=
  { mem := indexMem
    images := [indexObject]
    sMainExecutable := none
    sDylinker := none
    sFirstImage := some 0
    sImageCount := 1
    sUnresolvedCount := 0
    sAuxLibs := []
    trace := [] }

/-- All four look up a segment that is not there. -/
theorem segments_not_selected :
    (∃ r ∈ readRebaseTurns indexMem indexObject 0x3000 0x3002,
      r.opcode = rebaseOpcodeSetSegmentAndOffsetUleb ∧
        ¬ Selects 1 r.immediate.toNat (readRebaseOp indexObject 0x3002 r)) ∧
    (∃ b ∈ readBindTurns 9 indexLinker 0 indexObject 0x4000 0x4002,
      b.opcode = bindOpcodeSetSegmentAndOffsetUleb ∧
        ¬ Selects 1 b.immediate.toNat (readBindOp 9 0 indexObject 0x4002 b)) ∧
    (∃ b ∈ readLazyBindTurns 9 indexLinker 0 indexObject 0x4000 0x4002,
      b.opcode = bindOpcodeSetSegmentAndOffsetUleb ∧
        ¬ Selects 1 b.immediate.toNat (readLazyBindOp 9 0 indexObject 0x4002 b)) ∧
    ∃ b ∈ Bootstrap.rebaseTurns indexMem indexObject.fSegmentLoadCommands 0 0x3000 0x3002,
      b.opcode = rebaseOpcodeSetSegmentAndOffsetUleb ∧
        ¬ Selects 1 b.immediate.toNat
          (Bootstrap.rebaseOp indexObject.fSegmentLoadCommands 0 0x3002 b) := by
  refine ⟨⟨⟨indexMem, 0x3000, 0, 0x1000, 0x2000⟩, List.mem_cons_self, rfl, fun h => h.safe rfl⟩,
    ⟨.start indexLinker 0x4000 0, List.mem_cons_self, rfl, fun h => h.safe rfl⟩,
    ⟨.start indexLinker 0x4000 bindTypePointer, List.mem_cons_self, rfl, fun h => h.safe rfl⟩,
    ⟨⟨⟨indexMem, 0x3000, 0, 0x1000, 0x2000⟩, []⟩, List.mem_cons_self, rfl, fun h => h.safe rfl⟩⟩

end LibSystem.Lnk
