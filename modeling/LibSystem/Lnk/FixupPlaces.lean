import LibSystem.Lnk.Fixups

/-!
# The places of the fix-ups

Where a fix-up goes is said by the operands of the opcodes before it: a segment, and how far behind
its start. Their sum may be too large for the segment, and it may wrap.
-/

namespace LibSystem.Lnk

open Outcome

/-! ## Operands -/

/-- Where the operands put a fix-up. Their sum is not reduced. Before the first selection of a
segment `readBind` has none. -/
structure FixupPlace where
  segment : Option Nat
  offset : Nat
  type : Byte

def FixupPlace.advance (n : Nat) (pl : FixupPlace) : FixupPlace :=
  { pl with offset := pl.offset + n }

/-- `count` places, one `step` behind the other. -/
def FixupPlace.row (step : Nat) : Nat → FixupPlace → List FixupPlace
  | 0, _ => []
  | count + 1, pl => pl :: row step count (pl.advance step)

/-- What an opcode and its operands say of the place. `fix` is for `count` fix-ups with `step`
behind each, and then `after`. -/
inductive PlaceOp where
  | select (segment offset : Nat)
  | advance (n : Nat)
  | setType (type : Byte)
  | fix (count step after : Nat)
  | nothing

namespace PlaceOp

def places : PlaceOp → FixupPlace → List FixupPlace
  | fix count step _, pl => pl.row step count
  | _, _ => []

def next : PlaceOp → FixupPlace → FixupPlace
  | select segment offset, pl => { pl with segment := some segment, offset := offset }
  | advance n, pl => pl.advance n
  | setType type, pl => { pl with type := type }
  | fix count step after, pl => pl.advance (count * step + after)
  | nothing, pl => pl

end PlaceOp

/-- The places of all fix-ups of the opcodes. -/
def placesFrom : FixupPlace → List PlaceOp → List FixupPlace
  | _, [] => []
  | pl, op :: ops => op.places pl ++ placesFrom (op.next pl) ops

/-- The operand at `p`. An opcode whose operand cannot be read stops the process. -/
def operandAt (mem : Mem) (p stop : Addr) : Nat :=
  match readUleb128 mem p stop with
  | .done (n, _) => n.toNat
  | _ => 0

/-- The two operands at `p`, a count and what is skipped. -/
def skippingAt (mem : Mem) (p stop : Addr) : PlaceOp :=
  match (do
    let (count, p) ← readUleb128 mem p stop
    let (skip, p) ← readUleb128 mem p stop
    .done (count, skip, p)) with
  | .done (count, skip, _) => .fix count.toNat (skip.toNat + 4) 0
  | _ => .nothing

/-- The rebase opcode at the cursor. -/
def rebasePlaceOp (obj : MachObject) (stop : Addr) (r : Rebasing) : PlaceOp :=
  let immediate := r.mem r.p &&& rebaseImmediateMask
  let opcode := r.mem r.p &&& rebaseOpcodeMask
  let p := r.p + 1
  if opcode = rebaseOpcodeSetTypeImm then .setType immediate
  else if opcode = rebaseOpcodeSetSegmentAndOffsetUleb then
    .select immediate.toNat (operandAt r.mem p stop)
  else if opcode = rebaseOpcodeAddAddrUleb then .advance (operandAt r.mem p stop)
  else if opcode = rebaseOpcodeAddAddrImmScaled then .advance (4 * immediate.toNat)
  else if opcode = rebaseOpcodeDoRebaseImmTimes then .fix immediate.toNat 4 0
  else if opcode = rebaseOpcodeDoRebaseUlebTimes then .fix (operandAt r.mem p stop) 4 0
  else if opcode = rebaseOpcodeDoRebaseAddAddrUleb then
    -- The operand is read after the fix-up.
    .fix 1 4 (operandAt ((rebaseOne obj 0 { r with p := p }).getD r).mem p stop)
  else if opcode = rebaseOpcodeDoRebaseUlebTimesSkippingUleb then skippingAt r.mem p stop
  else .nothing

/-- The opcodes that `readBind` and `readLazyBind` share. -/
def bindPlaceOp (stop : Addr) (b : Binding) (other : PlaceOp) : PlaceOp :=
  let immediate := b.s.mem b.pos &&& bindImmediateMask
  let opcode := b.s.mem b.pos &&& bindOpcodeMask
  if opcode = bindOpcodeAddAddrUleb then .advance (operandAt b.s.mem (b.pos + 1) stop)
  else if opcode = bindOpcodeSetSegmentAndOffsetUleb then
    .select immediate.toNat (operandAt b.s.mem (b.pos + 1) stop)
  else if opcode = bindOpcodeDoBind then .fix 1 4 0
  else other

def readBindPlaceOp (fuel : Nat) (this : ImageId) (obj : MachObject) (stop : Addr) (b : Binding) :
    PlaceOp :=
  let immediate := b.s.mem b.pos &&& bindImmediateMask
  let opcode := b.s.mem b.pos &&& bindOpcodeMask
  let pos := b.pos + 1
  bindPlaceOp stop b
    (if opcode = bindOpcodeDoBindAddAddrUleb then
      .fix 1 4 (operandAt ((bindOne fuel this obj 0 { b with pos := pos }).getD b).s.mem pos stop)
    else if opcode = bindOpcodeDoBindAddAddrImmScaled then .fix 1 (4 * immediate.toNat + 4) 0
    else if opcode = bindOpcodeDoBindUlebTimesSkippingUleb then skippingAt b.s.mem pos stop
    else .nothing)

/-! ## The places of a run -/

def rebaseOps (obj : MachObject) (stop : Addr) (fuel : Nat) (r : Rebasing) : List PlaceOp :=
  (turns (fun r : Rebasing => r.p < stop) (readRebaseOp obj stop) fuel r).map
    (rebasePlaceOp obj stop)

/-- The places of all the fix-ups that the opcodes of `readRebase` ask for, those behind one that
halts too. -/
def rebasePlaces (mem : Mem) (obj : MachObject) (start stop : Addr) : List FixupPlace :=
  match segActualLoadAddr obj 0, segActualEndAddr obj 0 with
  | .done address, .done segEnd =>
    placesFrom ⟨some 0, 0, 0⟩
      (rebaseOps obj stop (stop.toNat - start.toNat + 1) ⟨mem, start, 0, address, segEnd⟩)
  | _, _ => []

def bindOps (op : Binding → Outcome (Bool × Binding)) (placeOp : Binding → PlaceOp) (stop : Addr)
    (fuel : Nat) (b : Binding) : List PlaceOp :=
  (turns (fun b : Binding => b.pos < stop) op fuel b).map placeOp

def readBindPlaces (fuel : Nat) (s : Linker) (this : ImageId) (obj : MachObject)
    (start stop : Addr) : List FixupPlace :=
  placesFrom ⟨none, 0, 0⟩ (bindOps (readBindOp fuel this obj stop)
    (readBindPlaceOp fuel this obj stop) stop fuel (.start s start 0))

def readLazyBindPlaces (fuel : Nat) (s : Linker) (this : ImageId) (obj : MachObject)
    (start stop : Addr) : List FixupPlace :=
  placesFrom ⟨none, 0, 0⟩ (bindOps (readLazyBindOp fuel this obj stop)
    (fun b => bindPlaceOp stop b .nothing) stop fuel (.start s start bindTypePointer))

/-! ## Where they may go -/

/-- `[address, address + 4)` lies in the segment. -/
def WithinSegment (obj : MachObject) (segmentIndex : Nat) (address : Addr) : Prop :=
  ∃ start stop, segActualLoadAddr obj segmentIndex = done start ∧
    segActualEndAddr obj segmentIndex = done stop ∧
    start.toNat ≤ address.toNat ∧ address.toNat + 4 ≤ stop.toNat

/-- A word at this place fits into the segment, which does not wrap. -/
def FixupPlace.Fits (obj : MachObject) (pl : FixupPlace) : Prop :=
  ∃ index seg, pl.segment = some index ∧ obj.fSegmentLoadCommands[index]? = some seg ∧
    (seg.vmaddr + obj.fSlide).toNat + seg.vmsize.toNat < 2 ^ 32 ∧
    pl.offset % 2 ^ 32 + 4 ≤ seg.vmsize.toNat

/-- The guard lets the place pass, and the type is one of those that store. -/
def FixupPlace.stored (obj : MachObject) (pl : FixupPlace) : Bool :=
  match pl.segment.bind fun index => obj.fSegmentLoadCommands[index]? with
  | some seg =>
    seg.vmaddr + obj.fSlide + BitVec.ofNat 32 pl.offset < seg.vmaddr + obj.fSlide + seg.vmsize ∧
      (pl.type = rebaseTypePointer ∨ pl.type = rebaseTypeTextAbsolute32)
  | none => false

/-- The variables of an interpreter are what the operands say. -/
def FixupPlace.Holds (obj : MachObject) (pl : FixupPlace) (segmentIndex : Nat)
    (address segEnd : Addr) : Prop :=
  match pl.segment with
  | some index => segmentIndex = index ∧ ∃ seg, obj.fSegmentLoadCommands[index]? = some seg ∧
      address = seg.vmaddr + obj.fSlide + BitVec.ofNat 32 pl.offset ∧
      segEnd = seg.vmaddr + obj.fSlide + seg.vmsize
  | none => segEnd = 0

variable {obj : MachObject} {stop address segEnd : Addr} {segmentIndex step count : Nat}
  {pl : FixupPlace}

theorem segActual_of_getElem? {index : Nat} {seg : SegmentCommand}
    (h : obj.fSegmentLoadCommands[index]? = some seg) :
    segActualLoadAddr obj index = done (seg.vmaddr + obj.fSlide) ∧
      segActualEndAddr obj index = done (seg.vmaddr + obj.fSlide + seg.vmsize) := by
  unfold segActualEndAddr segActualLoadAddr
  rw [h]
  exact ⟨rfl, rfl⟩

theorem getElem?_of_segActual {index : Nat} {start : Addr}
    (h : segActualLoadAddr obj index = done start) :
    ∃ seg, obj.fSegmentLoadCommands[index]? = some seg ∧ start = seg.vmaddr + obj.fSlide := by
  unfold segActualLoadAddr at h
  cases hseg : obj.fSegmentLoadCommands[index]? with
  | none => simp [hseg] at h
  | some seg =>
    rw [hseg] at h
    exact ⟨seg, rfl, (done.inj h).symm⟩

theorem FixupPlace.Holds.within_iff (h : pl.Holds obj segmentIndex address segEnd)
    (hend : address < segEnd) : WithinSegment obj segmentIndex address ↔ pl.Fits obj := by
  unfold Holds at h
  cases hsegment : pl.segment with
  | none =>
    rw [hsegment] at h
    obtain rfl : segEnd = 0 := h
    bv_omega
  | some index =>
    rw [hsegment] at h
    obtain ⟨rfl, seg, hseg, rfl, -⟩ := h
    obtain ⟨hstart, hstop⟩ := segActual_of_getElem? hseg
    unfold WithinSegment Fits
    simp only [hstart, hstop, hsegment, hseg, done.injEq, Option.some.injEq, exists_eq_left',
      exists_and_left, BitVec.toNat_add, BitVec.toNat_ofNat]
    omega

theorem FixupPlace.Holds.advance (h : pl.Holds obj segmentIndex address segEnd) (n : Nat) :
    (pl.advance n).Holds obj segmentIndex (address + BitVec.ofNat 32 n) segEnd := by
  unfold Holds at h ⊢
  show match pl.segment with
    | some index => _
    | none => _
  cases hsegment : pl.segment with
  | none =>
    rw [hsegment] at h
    exact h
  | some index =>
    rw [hsegment] at h
    obtain ⟨rfl, seg, hseg, rfl, rfl⟩ := h
    refine ⟨rfl, seg, hseg, ?_, rfl⟩
    rw [show (pl.advance n).offset = pl.offset + n from rfl, BitVec.ofNat_add, BitVec.add_assoc]

/-! ## The rebase opcodes -/

section UpTo

variable {α β : Type} {p : α → Bool} {l l' : List α}

/-- The list up to its first element that fails, and that one. -/
def upTo (p : α → Bool) : List α → List α
  | [] => []
  | a :: l => a :: if p a then upTo p l else []

theorem upTo_append : upTo p (l ++ l') = upTo p l ++ if l.all p then upTo p l' else [] := by
  induction l with
  | nil => simp [upTo]
  | cons a l ih => by_cases h : p a = true <;> simp [upTo, h, ih]

theorem forall_takeWhile_iff {Q : α → Prop} :
    (∀ a ∈ l.takeWhile p, Q a) ↔ ∀ a ∈ upTo p l, p a → Q a := by
  induction l with
  | nil => simp [upTo]
  | cons a l ih =>
    by_cases h : p a = true
    · simp [upTo, h, ih]
    · simp [upTo, h]

end UpTo

variable {r r' : Rebasing}

/-- The variables of `readRebase` are what the operands say. -/
def RebaseAt (obj : MachObject) (segmentIndex : Nat) (r : Rebasing) (pl : FixupPlace) : Prop :=
  pl.Holds obj segmentIndex r.address r.segmentEndAddress ∧ pl.segment ≠ none ∧ pl.type = r.type

theorem RebaseAt.stored_iff (h : RebaseAt obj segmentIndex r pl) :
    pl.stored obj = true ↔ RebaseStores r := by
  obtain ⟨hholds, hsegment, htype⟩ := h
  obtain ⟨index, hindex⟩ := Option.ne_none_iff_exists'.mp hsegment
  unfold FixupPlace.Holds at hholds
  rw [hindex] at hholds
  obtain ⟨-, seg, hseg, haddress, hend⟩ := hholds
  unfold FixupPlace.stored RebaseStores
  simp only [hindex, Option.bind_some, hseg, decide_eq_true_eq, haddress, hend, htype]

theorem RebaseAt.advance (h : RebaseAt obj segmentIndex r pl) (n : Nat) :
    RebaseAt obj segmentIndex { r with address := r.address + BitVec.ofNat 32 n }
      (pl.advance n) :=
  ⟨h.1.advance n, h.2⟩

theorem rebaseOne_eq (h : RebaseStores r) (step : Word) :
    rebaseOne obj step r = done { r with
      mem := r.mem.store r.address (r.mem.load r.address + obj.fSlide)
      address := r.address + step } := by
  unfold rebaseOne rebaseAt
  rw [if_neg (by have := h.1; bv_omega)]
  rcases h.2 with htype | htype
  · rw [if_pos htype, done_bind]
  · rw [htype]
    rfl

theorem rebaseTimesFixups_places (h : RebaseAt obj segmentIndex r pl) :
    List.Forall₂ (RebaseAt obj segmentIndex) (rebaseTimesFixups obj (BitVec.ofNat 32 step) count r)
      (upTo (FixupPlace.stored obj) (pl.row step count)) := by
  induction count generalizing r pl with
  | zero => exact .nil
  | succ count ih =>
    refine .cons h ?_
    by_cases hstores : RebaseStores r
    · rw [rebaseOne_eq hstores, if_pos (h.stored_iff.mpr hstores)]
      exact ih (h.advance step)
    · rw [if_neg (mt h.stored_iff.mp hstores)]
      split
      · rename_i hone
        exact absurd (rebaseOne_eq_done hone).1 hstores
      · exact .nil

theorem FixupPlace.advance_add (pl : FixupPlace) (m n : Nat) :
    (pl.advance m).advance n = pl.advance (m + n) := by
  simp [FixupPlace.advance, Nat.add_assoc]

theorem rebaseTimes_places (h : RebaseAt obj segmentIndex r pl)
    (hrun : rebaseTimes obj (BitVec.ofNat 32 step) count r = done r') :
    RebaseAt obj segmentIndex r' (pl.advance (count * step)) ∧
      ∀ q ∈ pl.row step count, q.stored obj := by
  induction count generalizing r pl with
  | zero =>
    obtain rfl := done.inj hrun
    rw [Nat.zero_mul]
    exact ⟨h, by simp [FixupPlace.row]⟩
  | succ count ih =>
    obtain ⟨r1, hone, hrun⟩ := bind_eq_done.mp hrun
    have hstores := (rebaseOne_eq_done hone).1
    have hnext : RebaseAt obj segmentIndex r1 (pl.advance step) := by
      rw [← done.inj ((rebaseOne_eq hstores _).symm.trans hone)]
      exact h.advance step
    obtain ⟨hat, hall⟩ := ih hnext hrun
    rw [FixupPlace.advance_add, Nat.add_comm step, ← Nat.succ_mul] at hat
    exact ⟨hat, List.forall_mem_cons.mpr ⟨h.stored_iff.mpr hstores, hall⟩⟩

/-! ### One opcode -/

theorem operandAt_of_done {mem : Mem} {p : Addr} {n : Word × Addr}
    (h : readUleb128 mem p stop = done n) : operandAt mem p stop = n.1.toNat := by
  rw [operandAt, h]

theorem skippingAt_of_done {mem : Mem} {p : Addr} {count skip : Word × Addr}
    (h : readUleb128 mem p stop = done count) (h' : readUleb128 mem count.2 stop = done skip) :
    skippingAt mem p stop = .fix count.1.toNat (skip.1.toNat + 4) 0 := by
  unfold skippingAt
  simp only [h, h', done_bind]

theorem ofNat_toNat (n : Word) : BitVec.ofNat 32 n.toNat = n := by
  rw [BitVec.ofNat_toNat, BitVec.setWidth_eq]

theorem ofNat_toNat_add (n : Word) : BitVec.ofNat 32 (n.toNat + 4) = n + 4 := by
  rw [BitVec.ofNat_add, ofNat_toNat]
  rfl

theorem readRebaseOpFixups_places (h : RebaseAt obj segmentIndex r pl) :
    List.Forall₂ (RebaseAt obj segmentIndex) (readRebaseOpFixups obj stop r)
      (upTo (FixupPlace.stored obj) ((rebasePlaceOp obj stop r).places pl)) := by
  unfold readRebaseOpFixups
  dsimp only
  split
  · rename_i hop
    rw [show rebasePlaceOp obj stop r = .fix (r.mem r.p &&& rebaseImmediateMask).toNat 4 0 by
      rw [rebasePlaceOp, hop]; rfl]
    exact rebaseTimesFixups_places h
  rename_i himm
  split
  · rename_i hop
    rw [show rebasePlaceOp obj stop r = .fix (operandAt r.mem (r.p + 1) stop) 4 0 by
      rw [rebasePlaceOp, hop]; rfl]
    cases hcount : readUleb128 r.mem (r.p + 1) stop with
    | done n =>
      rw [operandAt_of_done hcount]
      exact rebaseTimesFixups_places h
    | halt | fault | timeout =>
      rw [operandAt, hcount]
      exact .nil
  rename_i huleb
  split
  · rename_i hop
    rw [show rebasePlaceOp obj stop r = .fix 1 4 (operandAt ((rebaseOne obj 0 { r with
      p := r.p + 1 }).getD r).mem (r.p + 1) stop) by rw [rebasePlaceOp, hop]; rfl]
    exact rebaseTimesFixups_places h
  rename_i haddr
  split
  · rename_i hop
    rw [show rebasePlaceOp obj stop r = skippingAt r.mem (r.p + 1) stop by
      rw [rebasePlaceOp, hop]; rfl]
    split
    · rename_i count skip p hcount
      have hplace : skippingAt r.mem (r.p + 1) stop = .fix count.toNat (skip.toNat + 4) 0 := by
        unfold skippingAt
        rw [hcount]
      rw [hplace]
      exact rebaseTimesFixups_places h
    · rename_i hnone
      have hplace : skippingAt r.mem (r.p + 1) stop = .nothing := by
        unfold skippingAt
        split
        · rename_i hcount
          exact (hnone _ _ _ hcount).elim
        · rfl
      rw [hplace]
      exact .nil
  · rename_i hskipping
    have hnone : (rebasePlaceOp obj stop r).places pl = [] := by
      unfold rebasePlaceOp
      simp only [himm, huleb, haddr, hskipping, if_false]
      repeat' split
      all_goals rfl
    rw [hnone]
    exact .nil

theorem RebaseAt.moved (h : RebaseAt obj segmentIndex r pl) (p : Addr) :
    RebaseAt obj segmentIndex { r with p := p } pl := h

theorem RebaseAt.advance_of_eq (h : RebaseAt obj segmentIndex r pl) {n : Nat} {w : Word}
    (hn : BitVec.ofNat 32 n = w) (mem : Mem) (p : Addr) :
    RebaseAt obj segmentIndex { r with mem := mem, p := p, address := r.address + w }
      (pl.advance n) :=
  hn ▸ h.advance n

/-- What an opcode that ends leaves, and that all its fix-ups are carried out. -/
theorem readRebaseOp_next (h : RebaseAt obj segmentIndex r pl) :
    (readRebaseOp obj stop r).Ensures fun v =>
      RebaseAt obj (nextSegmentIndex segmentIndex r) v.2 ((rebasePlaceOp obj stop r).next pl) ∧
        ∀ q ∈ (rebasePlaceOp obj stop r).places pl, q.stored obj := by
  have hsame : ∀ {op}, r.mem r.p &&& rebaseOpcodeMask = op →
      op ≠ rebaseOpcodeSetSegmentAndOffsetUleb → nextSegmentIndex segmentIndex r = segmentIndex :=
    fun hop hne => if_neg (hop ▸ hne)
  have hall : ∀ q ∈ ([] : List FixupPlace), q.stored obj := by simp
  unfold readRebaseOp
  refine .ite (fun hop => .done ?done) fun _ => .ite (fun hop => .done ?setType) fun _ =>
    .ite (fun hop => .ite (fun _ => .halt _) fun _ => .bind fun base hbase => .bind fun n hn =>
      .bind fun segEnd hsegEnd => .done ?select) fun _ =>
    .ite (fun hop => .bind fun n hn => .done ?addAddr) fun _ =>
    .ite (fun hop => .done ?addImm) fun _ =>
    .ite (fun hop => .bind fun r1 hrun => .done ?immTimes) fun _ =>
    .ite (fun hop => .bind fun n hn => .bind fun r1 hrun => .done ?ulebTimes) fun _ =>
    .ite (fun hop => .bind fun r1 hone => .bind fun n hn => .done ?rebaseAdd) fun _ =>
    .ite (fun hop => .bind fun n hn => .bind fun m hm => .bind fun r1 hrun => .done ?skipping)
      fun _ => .halt _
  case done =>
    rw [hsame hop (by decide), rebasePlaceOp, hop]
    exact ⟨h, hall⟩
  case setType =>
    rw [hsame hop (by decide), rebasePlaceOp, hop]
    exact ⟨⟨h.1, h.2.1, rfl⟩, hall⟩
  case select =>
    have hplace : rebasePlaceOp obj stop r = .select (r.mem r.p &&& rebaseImmediateMask).toNat
        (operandAt r.mem (r.p + 1) stop) := by rw [rebasePlaceOp, hop]; rfl
    obtain ⟨seg, hseg, rfl⟩ := getElem?_of_segActual hbase
    obtain rfl := done.inj (hsegEnd.symm.trans (segActual_of_getElem? hseg).2)
    rw [nextSegmentIndex, if_pos hop, hplace, operandAt_of_done hn]
    refine ⟨⟨⟨rfl, seg, hseg, ?_, rfl⟩, Option.some_ne_none _, h.2.2⟩, hall⟩
    show _ = _ + BitVec.ofNat 32 n.1.toNat
    rw [ofNat_toNat]
  case addAddr =>
    have hplace : rebasePlaceOp obj stop r = .advance (operandAt r.mem (r.p + 1) stop) := by
      rw [rebasePlaceOp, hop]; rfl
    rw [hsame hop (by decide), hplace, operandAt_of_done hn]
    exact ⟨h.advance_of_eq (ofNat_toNat n.1) _ _, hall⟩
  case addImm =>
    have hplace : rebasePlaceOp obj stop r =
        .advance (4 * (r.mem r.p &&& rebaseImmediateMask).toNat) := by rw [rebasePlaceOp, hop]; rfl
    rw [hsame hop (by decide), hplace]
    refine ⟨h.advance_of_eq ?_ _ _, hall⟩
    bv_omega
  case immTimes =>
    have hplace : rebasePlaceOp obj stop r =
        .fix (r.mem r.p &&& rebaseImmediateMask).toNat 4 0 := by rw [rebasePlaceOp, hop]; rfl
    rw [hsame hop (by decide), hplace]
    exact rebaseTimes_places (h.moved _) hrun
  case ulebTimes =>
    have hplace : rebasePlaceOp obj stop r = .fix (operandAt r.mem (r.p + 1) stop) 4 0 := by
      rw [rebasePlaceOp, hop]; rfl
    rw [hsame hop (by decide), hplace, operandAt_of_done hn]
    exact rebaseTimes_places (h.moved _) hrun
  case rebaseAdd =>
    -- The operand comes behind the fix-up, which may have changed it.
    have hplace : rebasePlaceOp obj stop r = .fix 1 4 (operandAt r1.mem (r.p + 1) stop) := by
      rw [rebasePlaceOp, hop]
      show PlaceOp.fix 1 4 (operandAt ((rebaseOne obj 0 _).getD r).mem (r.p + 1) stop) = _
      rw [hone]
      rfl
    have hstores := (rebaseOne_eq_done hone).1
    obtain rfl := done.inj ((rebaseOne_eq hstores _).symm.trans hone)
    rw [hsame hop (by decide), hplace, operandAt_of_done hn]
    refine ⟨?_, List.forall_mem_singleton.mpr (h.stored_iff.mpr hstores)⟩
    have hsum : BitVec.ofNat 32 (1 * 4 + n.1.toNat) = 0 + (n.1 + 4) := by
      rw [Nat.one_mul, Nat.add_comm, ofNat_toNat_add]
      exact (BitVec.zero_add _).symm
    have hnext := h.advance_of_eq hsum
      (r.mem.store r.address (r.mem.load r.address + obj.fSlide)) n.2
    rwa [← BitVec.add_assoc] at hnext
  case skipping =>
    have hplace : rebasePlaceOp obj stop r = .fix n.1.toNat (m.1.toNat + 4) 0 := by
      rw [← skippingAt_of_done hn hm, rebasePlaceOp, hop]; rfl
    rw [hsame hop (by decide), hplace]
    exact rebaseTimes_places (h.moved m.2) ((ofNat_toNat_add m.1).symm ▸ hrun)

/-! ### A run -/

theorem readRebaseLoopFixups_places {fuel : Nat} (h : RebaseAt obj segmentIndex r pl) :
    List.Forall₂ (fun a q => RebaseAt obj a.1 a.2 q)
      (readRebaseLoopFixups obj stop fuel segmentIndex r)
      (upTo (FixupPlace.stored obj) (placesFrom pl (rebaseOps obj stop fuel r))) := by
  induction fuel generalizing segmentIndex r pl with
  | zero => exact .nil
  | succ fuel ih =>
    unfold readRebaseLoopFixups rebaseOps turns
    split
    · have hfixups : List.Forall₂ (fun a q => RebaseAt obj a.1 a.2 q)
          ((readRebaseOpFixups obj stop r).map fun r => (segmentIndex, r))
          (upTo (FixupPlace.stored obj) ((rebasePlaceOp obj stop r).places pl)) :=
        List.forall₂_map_left_iff.mpr (readRebaseOpFixups_places h)
      rw [List.map_cons, placesFrom, upTo_append]
      by_cases hgo : ∃ r1, readRebaseOp obj stop r = done (false, r1)
      · obtain ⟨r1, hop⟩ := hgo
        obtain ⟨hnext, hall⟩ := readRebaseOp_next h _ hop
        -- All fix-ups of this opcode are carried out, so those of the rest are counted too.
        rw [hop, if_pos (List.all_eq_true.mpr hall)]
        exact List.rel_append hfixups (ih hnext)
      · have hends : ∀ r1, readRebaseOp obj stop r ≠ done (false, r1) := fun r1 hop => hgo ⟨r1, hop⟩
        obtain ⟨r1, hop⟩ | ⟨msg, hop⟩ | hop | hop := eq_of_ended hends
        all_goals
          rw [hop]
          simpa [placesFrom, upTo] using hfixups
    · exact .nil

theorem readRebaseFixups_places (mem : Mem) (obj : MachObject) (start stop : Addr) :
    List.Forall₂ (fun a q => RebaseAt obj a.1 a.2 q) (readRebaseFixups mem obj start stop)
      (upTo (FixupPlace.stored obj) (rebasePlaces mem obj start stop)) := by
  unfold readRebaseFixups rebasePlaces
  cases haddress : segActualLoadAddr obj 0 with
  | done address =>
    obtain ⟨seg, hseg, rfl⟩ := getElem?_of_segActual haddress
    rw [(segActual_of_getElem? hseg).2]
    have hfirst : RebaseAt obj 0 ⟨mem, start, 0, seg.vmaddr + obj.fSlide,
        seg.vmaddr + obj.fSlide + seg.vmsize⟩ ⟨some 0, 0, 0⟩ :=
      ⟨⟨rfl, seg, hseg, (BitVec.add_zero _).symm, rfl⟩, Option.some_ne_none _, rfl⟩
    exact readRebaseLoopFixups_places hfirst
  | halt | fault | timeout => exact .nil

theorem readRebase_within_iff (mem : Mem) (obj : MachObject) (start stop : Addr) :
    (∀ a ∈ readRebaseFixups mem obj start stop, RebaseStores a.2 →
        WithinSegment obj a.1 a.2.address) ↔
      ∀ pl ∈ (rebasePlaces mem obj start stop).takeWhile (FixupPlace.stored obj), pl.Fits obj := by
  have hplaces := readRebaseFixups_places mem obj start stop
  rw [forall_takeWhile_iff]
  generalize readRebaseFixups mem obj start stop = fixups at hplaces ⊢
  generalize upTo _ _ = places at hplaces ⊢
  induction hplaces with
  | nil => simp
  | @cons a q _ _ hat _ ih =>
    rw [List.forall_mem_cons, List.forall_mem_cons, hat.stored_iff]
    exact and_congr (forall_congr' fun hstores => hat.1.within_iff hstores.1) ih

/-! ## The bind opcodes -/

section Begins

variable {α β : Type} {R : α → β → Prop} {l l' : List α} {m m' : List β}

/-- The list is related to the first part of the other one. -/
def Begins (R : α → β → Prop) (l : List α) (m : List β) : Prop :=
  ∃ t, t <+: m ∧ List.Forall₂ R l t

theorem Begins.nil (m : List β) : Begins R [] m := ⟨[], List.nil_prefix, .nil⟩

theorem Begins.cons {a : α} {b : β} (h : R a b) (h' : Begins R l m) :
    Begins R (a :: l) (b :: m) := by
  obtain ⟨t, ht, hR⟩ := h'
  exact ⟨b :: t, List.cons_prefix_cons.mpr ⟨rfl, ht⟩, .cons h hR⟩

theorem Begins.singleton {a : α} {b : β} (h : R a b) : Begins R [a] [b] := .cons h (.nil _)

theorem Begins.of_forall₂ (h : List.Forall₂ R l m) : Begins R l m := ⟨m, List.prefix_rfl, h⟩

theorem Begins.append (h : List.Forall₂ R l m) (h' : Begins R l' m') :
    Begins R (l ++ l') (m ++ m') := by
  obtain ⟨t, ht, hR⟩ := h'
  exact ⟨m ++ t, List.prefix_append_right_inj m |>.mpr ht, List.rel_append h hR⟩

theorem Begins.forall_iff (h : Begins R l m) {P : α → Prop} {Q : α → β → Prop}
    (hiff : ∀ a b, R a b → (P a ↔ Q a b)) :
    (∀ a ∈ l, P a) ↔ ∀ q ∈ l.zip m, Q q.1 q.2 := by
  obtain ⟨t, ⟨rest, rfl⟩, hR⟩ := h
  induction hR with
  | nil => simp
  | cons hab _ ih =>
    rw [List.forall_mem_cons, List.cons_append, List.zip_cons_cons, List.forall_mem_cons]
    exact and_congr (hiff _ _ hab) ih

theorem Begins.length_le (h : Begins R l m) : l.length ≤ m.length := by
  obtain ⟨t, ht, hR⟩ := h
  exact hR.length_eq ▸ ht.length_le

end Begins

variable {fuel : Nat} {this : ImageId} {b b' : Binding}

/-- The variables of a bind interpreter are what the operands say. -/
def BindAt (obj : MachObject) (b : Binding) (pl : FixupPlace) : Prop :=
  pl.Holds obj b.segmentIndex b.address b.segmentEndAddress

theorem BindAt.moved (h : BindAt obj b pl) (pos : Addr) : BindAt obj { b with pos := pos } pl := h

theorem BindAt.advance_of_eq (h : BindAt obj b pl) {n : Nat} {w : Word}
    (hn : BitVec.ofNat 32 n = w) (s : Linker) (pos : Addr) :
    BindAt obj { b with s := s, pos := pos, address := b.address + w } (pl.advance n) :=
  hn ▸ FixupPlace.Holds.advance h n

theorem BindAt.bindOne {w : Word} (h : BindAt obj b pl) (hw : BitVec.ofNat 32 step = w)
    (hone : bindOne fuel this obj w b = done b') : BindAt obj b' (pl.advance step) := by
  obtain ⟨-, value, count, rfl⟩ := bindOne_eq_done hone
  exact h.advance_of_eq hw _ b.pos

theorem bindTimesFixups_places {w : Word} (h : BindAt obj b pl) (hw : BitVec.ofNat 32 step = w) :
    Begins (BindAt obj) (bindTimesFixups (bindOne fuel this obj w) count b)
      (pl.row step count) := by
  induction count generalizing b pl with
  | zero => exact .nil _
  | succ count ih =>
    refine .cons h ?_
    split
    · rename_i b1 hone
      exact ih (h.bindOne hw hone)
    · exact .nil _

theorem bindTimes_places {w : Word} (h : BindAt obj b pl) (hw : BitVec.ofNat 32 step = w)
    (hrun : bindTimes (bindOne fuel this obj w) count b = done b') :
    BindAt obj b' (pl.advance (count * step)) ∧
      List.Forall₂ (BindAt obj) (bindTimesFixups (bindOne fuel this obj w) count b)
        (pl.row step count) := by
  induction count generalizing b pl with
  | zero =>
    obtain rfl := done.inj hrun
    rw [Nat.zero_mul]
    exact ⟨h, .nil⟩
  | succ count ih =>
    obtain ⟨b1, hone, hrun⟩ := bind_eq_done.mp hrun
    obtain ⟨hat, hall⟩ := ih (h.bindOne hw hone) hrun
    rw [FixupPlace.advance_add, Nat.add_comm step, ← Nat.succ_mul] at hat
    unfold bindTimesFixups
    rw [hone]
    exact ⟨hat, .cons h hall⟩

/-! ### One opcode -/

/-- The opcodes that say something of the place. -/
def placeOpcodes : List Byte :=
  [bindOpcodeAddAddrUleb, bindOpcodeSetSegmentAndOffsetUleb, bindOpcodeDoBind,
    bindOpcodeDoBindAddAddrUleb, bindOpcodeDoBindAddAddrImmScaled,
    bindOpcodeDoBindUlebTimesSkippingUleb]

theorem readBind_neutral (hop : b.s.mem b.pos &&& bindOpcodeMask ∉ placeOpcodes) :
    readBindPlaceOp fuel this obj stop b = .nothing ∧
      readBindOpFixups fuel this obj stop b = [] := by
  simp only [placeOpcodes, List.mem_cons, List.not_mem_nil, or_false, not_or] at hop
  unfold readBindPlaceOp bindPlaceOp readBindOpFixups doBindOpcodeFixups
  simp only [hop, if_false, and_self]

theorem readLazyBind_neutral (hop : b.s.mem b.pos &&& bindOpcodeMask ∉ placeOpcodes) :
    bindPlaceOp stop b .nothing = .nothing := by
  simp only [placeOpcodes, List.mem_cons, List.not_mem_nil, or_false, not_or] at hop
  unfold bindPlaceOp
  simp only [hop, if_false]

theorem setOpcode_ensures {opcode immediate : Byte} {other : Outcome (Bool × Binding)}
    {Q : Binding → Prop}
    (hsame : opcode ∉ placeOpcodes → ∀ b' : Binding, b'.segmentIndex = b.segmentIndex →
      b'.address = b.address → b'.segmentEndAddress = b.segmentEndAddress → Q b')
    (hadd : opcode = bindOpcodeAddAddrUleb → ∀ n, readUleb128 b.s.mem b.pos stop = done n →
      Q { b with pos := n.2, address := b.address + n.1 })
    (hselect : opcode = bindOpcodeSetSegmentAndOffsetUleb → ∀ start n segEnd,
      segActualLoadAddr obj immediate.toNat = done start →
      readUleb128 b.s.mem b.pos stop = done n →
      segActualEndAddr obj immediate.toNat = done segEnd →
      Q { b with
        pos := n.2
        segmentIndex := immediate.toNat
        address := start + n.1
        segmentEndAddress := segEnd })
    (hother : other.Ensures fun v => Q v.2) :
    (setOpcode fuel obj stop opcode immediate b other).Ensures fun v => Q v.2 := by
  unfold setOpcode
  refine .ite (fun hop => .done ?_) fun _ => .ite (fun hop => .bind fun n _ => .done ?_) fun _ =>
    .ite (fun hop => .done ?_) fun _ => .ite (fun hop => .bind fun n _ => .done ?_) fun _ =>
    .ite (fun hop => .bind fun n hn => .done (hadd hop n hn)) fun _ =>
    .ite (fun hop => .bind fun start hstart => .bind fun n hn => .bind fun segEnd hsegEnd =>
      .done (hselect hop start n segEnd hstart hn hsegEnd)) fun _ =>
    .ite (fun hop => .bind fun pos _ => .done ?_) fun _ => hother
  all_goals exact hsame (by rw [hop]; decide) _ rfl rfl rfl

theorem BindAt.select (h : segActualLoadAddr obj segmentIndex = done address)
    (hend : segActualEndAddr obj segmentIndex = done segEnd) (b : Binding) (pl : FixupPlace)
    {mem : Mem} {p : Addr} {n : Word × Addr} (hn : readUleb128 mem p stop = done n) :
    BindAt obj { b with
        pos := n.2
        segmentIndex := segmentIndex
        address := address + n.1
        segmentEndAddress := segEnd }
      ((PlaceOp.select segmentIndex (operandAt mem p stop)).next pl) := by
  obtain ⟨seg, hseg, rfl⟩ := getElem?_of_segActual h
  obtain rfl := done.inj (hend.symm.trans (segActual_of_getElem? hseg).2)
  refine ⟨rfl, seg, hseg, ?_, rfl⟩
  show _ = _ + BitVec.ofNat 32 (operandAt mem p stop)
  rw [operandAt_of_done hn, ofNat_toNat]

theorem readBindOpFixups_places (h : BindAt obj b pl) :
    Begins (BindAt obj) (readBindOpFixups fuel this obj stop b)
      ((readBindPlaceOp fuel this obj stop b).places pl) := by
  unfold readBindOpFixups doBindOpcodeFixups
  split
  · rename_i hop
    rw [readBindPlaceOp, bindPlaceOp, hop]
    exact .singleton h
  split
  · rename_i hop
    rw [readBindPlaceOp, bindPlaceOp, hop]
    exact .singleton h
  split
  · rename_i hop
    rw [readBindPlaceOp, bindPlaceOp, hop]
    exact .singleton h
  split
  · rename_i hop
    split
    · rename_i count skip p hcount
      have hplace : readBindPlaceOp fuel this obj stop b =
          .fix count.toNat (skip.toNat + 4) 0 := by
        rw [readBindPlaceOp, bindPlaceOp, hop]
        show skippingAt b.s.mem (b.pos + 1) stop = _
        unfold skippingAt
        rw [hcount]
      rw [hplace]
      exact bindTimesFixups_places (h.moved p) (ofNat_toNat_add skip)
    · exact .nil _
  · exact .nil _

/-- What an opcode that ends leaves, and that it has come to all its fix-ups. -/
theorem readBindOp_next (h : BindAt obj b pl) :
    (readBindOp fuel this obj stop b).Ensures fun v =>
      BindAt obj v.2 ((readBindPlaceOp fuel this obj stop b).next pl) ∧
        List.Forall₂ (BindAt obj) (readBindOpFixups fuel this obj stop b)
          ((readBindPlaceOp fuel this obj stop b).places pl) := by
  have hsame : b.s.mem b.pos &&& bindOpcodeMask ∉ placeOpcodes → ∀ b' : Binding,
      b'.segmentIndex = b.segmentIndex → b'.address = b.address →
      b'.segmentEndAddress = b.segmentEndAddress →
      BindAt obj b' ((readBindPlaceOp fuel this obj stop b).next pl) ∧
        List.Forall₂ (BindAt obj) (readBindOpFixups fuel this obj stop b)
          ((readBindPlaceOp fuel this obj stop b).places pl) := by
    intro hop b' hindex haddress hend
    have hneutral : readBindPlaceOp fuel this obj stop b = .nothing ∧
        readBindOpFixups fuel this obj stop b = [] := readBind_neutral hop
    rw [hneutral.1, hneutral.2]
    refine ⟨?_, .nil⟩
    show pl.Holds obj b'.segmentIndex b'.address b'.segmentEndAddress
    rw [hindex, haddress, hend]
    exact h
  unfold readBindOp
  refine .ite (fun hop => .done (hsame (by rw [hop]; decide) _ rfl rfl rfl)) fun _ =>
    .ite (fun hop => .done (hsame (by rw [hop]; decide) _ rfl rfl rfl)) fun _ =>
    setOpcode_ensures (b := { b with pos := b.pos + 1 }) hsame (fun hop n hn => ?add)
      (fun hop start n segEnd hstart hn hsegEnd => ?sel) ?binds
  case add =>
    rw [readBindPlaceOp, bindPlaceOp, readBindOpFixups, hop]
    refine ⟨?_, .nil⟩
    show BindAt obj _ (pl.advance (operandAt b.s.mem (b.pos + 1) stop))
    rw [operandAt_of_done hn]
    exact h.advance_of_eq (ofNat_toNat n.1) b.s n.2
  case sel =>
    rw [readBindPlaceOp, bindPlaceOp, readBindOpFixups, hop]
    exact ⟨.select hstart hsegEnd _ pl hn, .nil⟩
  unfold doBindOpcode
  refine .ite (fun hop => .bind fun b1 hone => .done ?_) fun _ =>
    .ite (fun hop => .bind fun b1 hone => .bind fun n hn => .done ?_) fun _ =>
    .ite (fun hop => .bind fun b1 hone => .done ?_) fun _ =>
    .ite (fun hop => .bind fun n hn => .bind fun m hm => .bind fun b1 hrun => .done ?_)
      fun _ => .halt _
  · rw [readBindPlaceOp, bindPlaceOp, readBindOpFixups, hop]
    exact ⟨(h.moved _).bindOne rfl hone, .cons h .nil⟩
  · have hplace : readBindPlaceOp fuel this obj stop b =
        .fix 1 4 (operandAt b1.s.mem (b.pos + 1) stop) := by
      rw [readBindPlaceOp, bindPlaceOp, hop]
      show PlaceOp.fix 1 4 (operandAt ((bindOne fuel this obj 0 _).getD b).s.mem (b.pos + 1) stop) =
        _
      rw [hone]
      rfl
    have hpos : b1.pos = b.pos + 1 := by
      obtain ⟨-, value, count, rfl⟩ := bindOne_eq_done hone
      rfl
    have hn1 : readUleb128 b1.s.mem (b.pos + 1) stop = done n := hpos ▸ hn
    have hsum : BitVec.ofNat 32 (1 * 4 + n.1.toNat) = n.1 + 4 := by
      rw [Nat.one_mul, Nat.add_comm, ofNat_toNat_add]
    rw [hplace, operandAt_of_done hn1, readBindOpFixups, hop]
    exact ⟨((h.moved _).bindOne rfl hone).advance_of_eq hsum b1.s n.2, .cons h .nil⟩
  · have hplace : readBindPlaceOp fuel this obj stop b =
        .fix 1 (4 * (b.s.mem b.pos &&& bindImmediateMask).toNat + 4) 0 := by
      rw [readBindPlaceOp, bindPlaceOp, hop]; rfl
    have hstep : BitVec.ofNat 32 (1 * (4 * (b.s.mem b.pos &&& bindImmediateMask).toNat + 4) + 0) =
        (b.s.mem b.pos &&& bindImmediateMask).setWidth 32 * 4 + 4 := by
      bv_omega
    rw [hplace, readBindOpFixups, hop]
    exact ⟨(h.moved _).bindOne hstep hone, .cons h .nil⟩
  · have hplace : readBindPlaceOp fuel this obj stop b = .fix n.1.toNat (m.1.toNat + 4) 0 := by
      rw [← skippingAt_of_done hn hm, readBindPlaceOp, bindPlaceOp, hop]; rfl
    have hfixups : readBindOpFixups fuel this obj stop b =
        bindTimesFixups (bindOne fuel this obj (m.1 + 4)) n.1.toNat { b with pos := m.2 } := by
      unfold readBindOpFixups doBindOpcodeFixups
      rw [hop]
      simp only [hn, hm, done_bind]
      rfl
    rw [hplace, hfixups]
    exact bindTimes_places (h.moved m.2) (ofNat_toNat_add m.1) hrun

theorem readLazyBindOpFixups_places (h : BindAt obj b pl) :
    List.Forall₂ (BindAt obj) (readLazyBindOpFixups b)
      ((bindPlaceOp stop b .nothing).places pl) := by
  by_cases hop : b.s.mem b.pos &&& bindOpcodeMask = bindOpcodeDoBind
  · rw [readLazyBindOpFixups, bindPlaceOp, if_pos hop, hop]
    exact .cons h .nil
  · have hnone : (bindPlaceOp stop b .nothing).places pl = [] := by
      unfold bindPlaceOp
      dsimp only
      split
      · rfl
      split
      · rfl
      · rfl
    rw [readLazyBindOpFixups, if_neg hop, hnone]
    exact .nil

theorem readLazyBindOp_next (h : BindAt obj b pl) :
    (readLazyBindOp fuel this obj stop b).Ensures fun v =>
      BindAt obj v.2 ((bindPlaceOp stop b .nothing).next pl) := by
  have hsame : b.s.mem b.pos &&& bindOpcodeMask ∉ placeOpcodes → ∀ b' : Binding,
      b'.segmentIndex = b.segmentIndex → b'.address = b.address →
      b'.segmentEndAddress = b.segmentEndAddress →
      BindAt obj b' ((bindPlaceOp stop b .nothing).next pl) := by
    intro hop b' hindex haddress hend
    rw [readLazyBind_neutral hop]
    show pl.Holds obj b'.segmentIndex b'.address b'.segmentEndAddress
    rw [hindex, haddress, hend]
    exact h
  unfold readLazyBindOp
  refine .ite (fun hop => .done (hsame (by rw [hop]; decide) _ rfl rfl rfl)) fun _ =>
    .ite (fun hop => .done (hsame (by rw [hop]; decide) _ rfl rfl rfl)) fun _ =>
    setOpcode_ensures (b := { b with pos := b.pos + 1 }) hsame (fun hop n hn => ?add)
      (fun hop start n segEnd hstart hn hsegEnd => ?sel)
      (.ite (fun hop => .bind fun b1 hone => .done ?bind) fun _ => .halt _)
  case add =>
    rw [bindPlaceOp, hop]
    show BindAt obj _ (pl.advance (operandAt b.s.mem (b.pos + 1) stop))
    rw [operandAt_of_done hn]
    exact h.advance_of_eq (ofNat_toNat n.1) b.s n.2
  case sel =>
    rw [bindPlaceOp, hop]
    exact .select hstart hsegEnd _ pl hn
  case bind =>
    rw [bindPlaceOp, hop]
    exact (h.moved _).bindOne rfl hone

/-! ### A run -/

theorem bindLoopFixups_places {op : Binding → Outcome (Bool × Binding)}
    {fixups : Binding → List Binding} {placeOp : Binding → PlaceOp} {n : Nat}
    (hfixups : ∀ b pl, BindAt obj b pl → Begins (BindAt obj) (fixups b) ((placeOp b).places pl))
    (hnext : ∀ b pl, BindAt obj b pl → (op b).Ensures fun v =>
      BindAt obj v.2 ((placeOp b).next pl) ∧
        List.Forall₂ (BindAt obj) (fixups b) ((placeOp b).places pl))
    (h : BindAt obj b pl) :
    Begins (BindAt obj) (bindLoopFixups op fixups stop n b)
      (placesFrom pl (bindOps op placeOp stop n b)) := by
  induction n generalizing b pl with
  | zero => exact .nil _
  | succ n ih =>
    unfold bindLoopFixups bindOps turns
    split
    · rw [List.map_cons, placesFrom]
      by_cases hgo : ∃ b1, op b = done (false, b1)
      · obtain ⟨b1, hop⟩ := hgo
        obtain ⟨hat, hall⟩ := hnext b pl h _ hop
        rw [hop]
        exact .append hall (ih hat)
      · have hends : ∀ b1, op b ≠ done (false, b1) := fun b1 hop => hgo ⟨b1, hop⟩
        obtain ⟨b1, hop⟩ | ⟨msg, hop⟩ | hop | hop := eq_of_ended hends
        all_goals
          rw [hop]
          simpa [placesFrom] using hfixups b pl h
    · exact .nil _

theorem readBindFixups_places (fuel : Nat) (s : Linker) (this : ImageId) (obj : MachObject)
    (start stop : Addr) :
    Begins (BindAt obj) (readBindFixups fuel s this obj start stop)
      (readBindPlaces fuel s this obj start stop) :=
  bindLoopFixups_places (fun _ _ => readBindOpFixups_places) (fun _ _ => readBindOp_next) rfl

theorem readLazyBindFixups_places (fuel : Nat) (s : Linker) (this : ImageId) (obj : MachObject)
    (start stop : Addr) :
    Begins (BindAt obj) (readLazyBindFixups fuel s this obj start stop)
      (readLazyBindPlaces fuel s this obj start stop) :=
  bindLoopFixups_places (fun _ _ h => .of_forall₂ (readLazyBindOpFixups_places h))
    (fun _ _ h _ hop => ⟨readLazyBindOp_next h _ hop, readLazyBindOpFixups_places h⟩) rfl

theorem Begins.binds_within_iff {fixups : List Binding} {places : List FixupPlace}
    (h : Begins (BindAt obj) fixups places) :
    (∀ b ∈ fixups, BindStores fuel this obj b → WithinSegment obj b.segmentIndex b.address) ↔
      ∀ q ∈ fixups.zip places, BindStores fuel this obj q.1 → q.2.Fits obj := by
  have hiff : ∀ b pl, BindAt obj b pl →
      ((BindStores fuel this obj b → WithinSegment obj b.segmentIndex b.address) ↔
        (BindStores fuel this obj b → pl.Fits obj)) := by
    refine fun b pl hat => forall_congr' fun hstores => ?_
    obtain ⟨b', hone, -⟩ := hstores
    exact hat.within_iff (bindOne_eq_done hone).1
  exact h.forall_iff (Q := fun b pl => BindStores fuel this obj b → pl.Fits obj) hiff

/-! ## The main result -/

/-- **Where the fix-ups go.** The interpreters store nothing but their fix-ups. All that
`readRebase` stores lies in the selected segment just when the operands put each fix-up, up to the
first that is not carried out, at a place where a word fits into the segment; and so for the
fix-ups that `readBind` and `readLazyBind` carry out. -/
theorem fixups_within_iff (mem : Mem) (fuel : Nat) (s : Linker) (this : ImageId) (obj : MachObject)
    (start stop : Addr) :
    ((readRebase mem obj start stop).Ensures fun mem' =>
      OnlyAt (RebaseWords ((readRebaseFixups mem obj start stop).map Prod.snd)) mem mem') ∧
    ((∀ a ∈ readRebaseFixups mem obj start stop, RebaseStores a.2 →
        WithinSegment obj a.1 a.2.address) ↔
      ∀ pl ∈ (rebasePlaces mem obj start stop).takeWhile (FixupPlace.stored obj), pl.Fits obj) ∧
    ((readBind fuel s this obj start stop).Ensures fun s' =>
      OnlyAt (BindWords fuel this obj (readBindFixups fuel s this obj start stop)) s.mem s'.mem) ∧
    ((∀ b ∈ readBindFixups fuel s this obj start stop, BindStores fuel this obj b →
        WithinSegment obj b.segmentIndex b.address) ↔
      ∀ q ∈ (readBindFixups fuel s this obj start stop).zip
        (readBindPlaces fuel s this obj start stop), BindStores fuel this obj q.1 → q.2.Fits obj) ∧
    (readBindFixups fuel s this obj start stop).length ≤
      (readBindPlaces fuel s this obj start stop).length ∧
    ((readLazyBind fuel s this obj start stop).Ensures fun s' =>
      OnlyAt (BindWords fuel this obj (readLazyBindFixups fuel s this obj start stop))
        s.mem s'.mem) ∧
    ((∀ b ∈ readLazyBindFixups fuel s this obj start stop, BindStores fuel this obj b →
        WithinSegment obj b.segmentIndex b.address) ↔
      ∀ q ∈ (readLazyBindFixups fuel s this obj start stop).zip
        (readLazyBindPlaces fuel s this obj start stop),
        BindStores fuel this obj q.1 → q.2.Fits obj) ∧
    (readLazyBindFixups fuel s this obj start stop).length ≤
      (readLazyBindPlaces fuel s this obj start stop).length := by
  have hbind := readBindFixups_places fuel s this obj start stop
  have hlazy := readLazyBindFixups_places fuel s this obj start stop
  exact ⟨readRebase_changes, readRebase_within_iff mem obj start stop, readBind_changes.1,
    hbind.binds_within_iff, hbind.length_le, readBind_changes.2, hlazy.binds_within_iff,
    hlazy.length_le⟩

/-! The opcodes are at 0x3020, and the segment goes from 0x1020 to 0x2020. -/

def strayMem (opcodes : List Byte) : Mem := fun a =>
  opcodes.getD (a - 0x3020).toNat (if a = 0x201e then 0xf0 else if a = 0x201f then 0xff else 0)

/-- One rebase at the offset 0xffe. -/
def lateOpcodes : List Byte := [0x11, 0x20, 0xfe, 0x1f, 0x51, 0x00]

/-- One rebase at the offset 0, after the address has wrapped to four bytes before it. -/
def earlyOpcodes : List Byte := [0x11, 0x20, 0x00, 0x30, 0xfc, 0xff, 0xff, 0xff, 0x0f, 0x51]

/-- A fix-up of the stream that stores outside the segment, and the stream does not halt. -/
def Strays (opcodes : List Byte) (stop address : Addr) : Prop :=
  (∃ mem', readRebase (strayMem opcodes) rebaseSampleObject 0x3020 stop = done mem') ∧
  ∃ a ∈ readRebaseFixups (strayMem opcodes) rebaseSampleObject 0x3020 stop,
    RebaseStores a.2 ∧ a.2.address = address ∧ ¬ WithinSegment rebaseSampleObject a.1 a.2.address

theorem strays_of_sample {opcodes : List Byte} {stop address : Addr}
    (hout : address.toNat < 0x1020 ∨ 0x2020 < address.toNat + 4)
    (hrun : (readRebase (strayMem opcodes) rebaseSampleObject 0x3020 stop >>= fun _ => done ()) =
      done ())
    (hlist : (readRebaseFixups (strayMem opcodes) rebaseSampleObject 0x3020 stop).map
      (fun a => (a.1, a.2.type, a.2.address, a.2.segmentEndAddress)) =
        [(0, rebaseTypePointer, address, 0x2020)])
    (hbefore : address < 0x2020) : Strays opcodes stop address := by
  obtain ⟨mem', hmem, -⟩ := bind_eq_done.mp hrun
  refine ⟨⟨mem', hmem⟩, ?_⟩
  have hmem : (0, rebaseTypePointer, address, (0x2020 : Addr)) ∈
      (readRebaseFixups (strayMem opcodes) rebaseSampleObject 0x3020 stop).map
        fun a => (a.1, a.2.type, a.2.address, a.2.segmentEndAddress) := by
    rw [hlist]
    exact List.mem_singleton.mpr rfl
  obtain ⟨a, ha, heq⟩ := List.mem_map.mp hmem
  obtain ⟨hindex, htype, haddress, hend⟩ : a.1 = 0 ∧ a.2.type = rebaseTypePointer ∧
      a.2.address = address ∧ a.2.segmentEndAddress = 0x2020 := by simpa using heq
  refine ⟨a, ha, ⟨by rwa [haddress, hend], .inl htype⟩, haddress, ?_⟩
  rintro ⟨first, last, hfirst, hlast, hlow, hhigh⟩
  rw [hindex] at hfirst hlast
  obtain rfl : (0x1020 : Addr) = first := done.inj hfirst
  obtain rfl : (0x2020 : Addr) = last := done.inj hlast
  rw [haddress] at hlow hhigh
  have h1 : (0x1020 : Addr).toNat = 0x1020 := rfl
  have h2 : (0x2020 : Addr).toNat = 0x2020 := rfl
  omega

/-- One stream changes two bytes behind the segment, another the word before it. -/
theorem fixups_stray : Strays lateOpcodes 0x3026 0x201e ∧ Strays earlyOpcodes 0x302a 0x101c := by
  constructor
  · exact strays_of_sample (.inr (by decide)) (by decide) (by decide) (by decide)
  · exact strays_of_sample (.inl (by decide)) (by decide) (by decide) (by decide)

end LibSystem.Lnk
