import LibSystem.Lnk.Image

/-!
# Rebasing

The two interpreters of the rebase opcodes: `MachObject::readRebase`, and
`rebaseCompressed` of `lnk_bootstrap.cpp`, by which the linker rebases itself.
The opcodes are read from the memory that is being rebased.
-/

namespace LibSystem.Lnk

open Outcome

def rebaseTypePointer : Byte := 1
def rebaseTypeTextAbsolute32 : Byte := 2

def rebaseOpcodeMask : Byte := 0xf0
def rebaseImmediateMask : Byte := 0x0f
def rebaseOpcodeDone : Byte := 0x00
def rebaseOpcodeSetTypeImm : Byte := 0x10
def rebaseOpcodeSetSegmentAndOffsetUleb : Byte := 0x20
def rebaseOpcodeAddAddrUleb : Byte := 0x30
def rebaseOpcodeAddAddrImmScaled : Byte := 0x40
def rebaseOpcodeDoRebaseImmTimes : Byte := 0x50
def rebaseOpcodeDoRebaseUlebTimes : Byte := 0x60
def rebaseOpcodeDoRebaseAddAddrUleb : Byte := 0x70
def rebaseOpcodeDoRebaseUlebTimesSkippingUleb : Byte := 0x80

/-- Memory, the cursor, and the variables of the loop. -/
structure Rebasing where
  mem : Mem
  p : Addr
  type : Byte
  address : Addr
  segmentEndAddress : Addr

/-! ## The images -/

def segActualLoadAddr (obj : MachObject) (index : Nat) : Outcome Addr := do
  let seg ← Outcome.ofOption obj.fSegmentLoadCommands[index]?
  .done (seg.vmaddr + obj.fSlide)

def segActualEndAddr (obj : MachObject) (index : Nat) : Outcome Addr := do
  let start ← segActualLoadAddr obj index
  let seg ← Outcome.ofOption obj.fSegmentLoadCommands[index]?
  .done (start + seg.vmsize)

def rebaseAt (mem : Mem) (addr : Addr) (slide : Word) (type : Byte) : Outcome Mem :=
  if type = rebaseTypePointer then .done (mem.store addr (mem.load addr + slide))
  else if type = rebaseTypeTextAbsolute32 then .done (mem.store addr (mem.load addr + slide))
  else .halt "macho baaaad rebase type\n"

/-- A check and a `rebaseAt`, and then `address += step`. -/
def rebaseOne (obj : MachObject) (step : Word) (r : Rebasing) : Outcome Rebasing :=
  if r.segmentEndAddress ≤ r.address then
    .halt "malformed binding opcodes (%ld/%ld): address 0x%08lX is beyond end of segment %d (0x%08lX -> 0x%08lX)"
  else do
    let mem ← rebaseAt r.mem r.address obj.fSlide r.type
    .done { r with mem := mem, address := r.address + step }

/-- The `for` loops of the interpreter. -/
def rebaseTimes (obj : MachObject) (step : Word) : Nat → Rebasing → Outcome Rebasing
  | 0, r => .done r
  | count + 1, r => do
    let r ← rebaseOne obj step r
    rebaseTimes obj step count r

/-- One opcode. The flag is `done`. -/
def readRebaseOp (obj : MachObject) (stop : Addr) (r : Rebasing) : Outcome (Bool × Rebasing) := do
  let immediate := r.mem r.p &&& rebaseImmediateMask
  let opcode := r.mem r.p &&& rebaseOpcodeMask
  let r := { r with p := r.p + 1 }
  if opcode = rebaseOpcodeDone then .done (true, r)
  else if opcode = rebaseOpcodeSetTypeImm then .done (false, { r with type := immediate })
  else if opcode = rebaseOpcodeSetSegmentAndOffsetUleb then
    if obj.fSegmentLoadCommands.length < immediate.toNat then
      .halt "baaaad seg count for rebase!"
    else do
      let base ← segActualLoadAddr obj immediate.toNat
      let (offset, p) ← readUleb128 r.mem r.p stop
      let segEnd ← segActualEndAddr obj immediate.toNat
      .done (false, { r with p := p, address := base + offset, segmentEndAddress := segEnd })
  else if opcode = rebaseOpcodeAddAddrUleb then do
    let (n, p) ← readUleb128 r.mem r.p stop
    .done (false, { r with p := p, address := r.address + n })
  else if opcode = rebaseOpcodeAddAddrImmScaled then
    .done (false, { r with address := r.address + immediate.setWidth 32 * 4 })
  else if opcode = rebaseOpcodeDoRebaseImmTimes then do
    let r ← rebaseTimes obj 4 immediate.toNat r
    .done (false, r)
  else if opcode = rebaseOpcodeDoRebaseUlebTimes then do
    let (count, p) ← readUleb128 r.mem r.p stop
    let r ← rebaseTimes obj 4 count.toNat { r with p := p }
    .done (false, r)
  else if opcode = rebaseOpcodeDoRebaseAddAddrUleb then do
    let r ← rebaseOne obj 0 r
    let (n, p) ← readUleb128 r.mem r.p stop
    .done (false, { r with p := p, address := r.address + (n + 4) })
  else if opcode = rebaseOpcodeDoRebaseUlebTimesSkippingUleb then do
    let (count, p) ← readUleb128 r.mem r.p stop
    let (skip, p) ← readUleb128 r.mem p stop
    let r ← rebaseTimes obj (skip + 4) count.toNat { r with p := p }
    .done (false, r)
  else .halt "invalid opcode %d for rebase"

def readRebaseLoop (obj : MachObject) (stop : Addr) : Nat → Rebasing → Outcome Rebasing
  | 0, _ => .timeout
  | fuel + 1, r =>
    if r.p < stop then do
      let (finished, r) ← readRebaseOp obj stop r
      if finished then .done r else readRebaseLoop obj stop fuel r
    else .done r

/-- Each opcode moves the cursor, so that there are no more of them than bytes. -/
def readRebase (mem : Mem) (obj : MachObject) (start stop : Addr) : Outcome Mem := do
  let address ← segActualLoadAddr obj 0
  let segEnd ← segActualEndAddr obj 0
  let r ← readRebaseLoop obj stop (stop.toNat - start.toNat + 1) ⟨mem, start, 0, address, segEnd⟩
  .done r.mem

/-! ## The linker itself

It prints what is wrong, and goes on.
-/

namespace Bootstrap

def rebaseAt (mem : Mem) (addr : Addr) (slide : Word) (type : Byte) : Mem × List String :=
  if type = rebaseTypePointer then (mem.store addr (mem.load addr + slide), [])
  else if type = rebaseTypeTextAbsolute32 then (mem.store addr (mem.load addr + slide), [])
  else (mem, ["LNK_RELOC_ERROR: baaaad rebase type\n"])

structure State extends Rebasing where
  reports : List String

def State.report (s : State) (text : String) : State := { s with reports := s.reports ++ [text] }

/-- A check, whose report is `text`, and a `rebaseAt`, and then `address += step`. -/
def rebaseOne (slide : Word) (text : String) (step : Word) (s : State) : State :=
  let s := if s.segmentEndAddress ≤ s.address then s.report text else s
  let (mem, texts) := rebaseAt s.mem s.address slide s.type
  { s with mem := mem, address := s.address + step, reports := s.reports ++ texts }

def rebaseTimes (slide : Word) (text : String) (step : Word) : Nat → State → State
  | 0, s => s
  | count + 1, s => rebaseTimes slide text step count (rebaseOne slide text step s)

def rebaseOp (segments : List SegmentCommand) (slide : Word) (stop : Addr) (s : State) :
    Outcome (Bool × State) := do
  let immediate := s.mem s.p &&& rebaseImmediateMask
  let opcode := s.mem s.p &&& rebaseOpcodeMask
  let s := { s with p := s.p + 1 }
  if opcode = rebaseOpcodeDone then .done (true, s)
  else if opcode = rebaseOpcodeSetTypeImm then .done (false, { s with type := immediate })
  else if opcode = rebaseOpcodeSetSegmentAndOffsetUleb then do
    let s :=
      if segments.length < immediate.toNat then s.report "LNK_RELOC_ERROR: baaaad whatever \n"
      else s
    let seg ← Outcome.ofOption segments[immediate.toNat]?
    let (offset, p) ← readUleb128 s.mem s.p stop
    .done (false, { s with
      p := p
      address := seg.vmaddr + slide + offset
      segmentEndAddress := seg.vmaddr + seg.vmsize + slide })
  else if opcode = rebaseOpcodeAddAddrUleb then do
    let (n, p) ← readUleb128 s.mem s.p stop
    .done (false, { s with p := p, address := s.address + n })
  else if opcode = rebaseOpcodeAddAddrImmScaled then
    .done (false, { s with address := s.address + immediate.setWidth 32 * 4 })
  else if opcode = rebaseOpcodeDoRebaseImmTimes then
    .done (false, rebaseTimes slide "LNK_RELOC_ERROR: baaaad REBASE_OPCODE_DO_REBASE_IMM_TIMES \n"
      4 immediate.toNat s)
  else if opcode = rebaseOpcodeDoRebaseUlebTimes then do
    let (count, p) ← readUleb128 s.mem s.p stop
    .done (false, rebaseTimes slide "LNK_RELOC_ERROR: baaaad REBASE_OPCODE_DO_REBASE_ULEB_TIMES \n"
      4 count.toNat { s with p := p })
  else if opcode = rebaseOpcodeDoRebaseAddAddrUleb then do
    let s := rebaseOne slide "LNK_RELOC_ERROR: baaaad REBASE_OPCODE_DO_REBASE_ADD_ADDR_ULEB \n" 0 s
    let (n, p) ← readUleb128 s.mem s.p stop
    .done (false, { s with p := p, address := s.address + (n + 4) })
  else if opcode = rebaseOpcodeDoRebaseUlebTimesSkippingUleb then do
    let (count, p) ← readUleb128 s.mem s.p stop
    let (skip, p) ← readUleb128 s.mem p stop
    .done (false, rebaseTimes slide
      "LNK_RELOC_ERROR: baaaad REBASE_OPCODE_DO_REBASE_ULEB_TIMES_SKIPPING_ULEB \n"
      (skip + 4) count.toNat { s with p := p })
  else .done (false, s.report "ABRT\n")

def rebaseLoop (segments : List SegmentCommand) (slide : Word) (stop : Addr) :
    Nat → State → Outcome State
  | 0, _ => .timeout
  | fuel + 1, s =>
    if s.p < stop then do
      let (finished, s) ← rebaseOp segments slide stop s
      if finished then .done s else rebaseLoop segments slide stop fuel s
    else .done s

def linkEditBase (linkEdit : SegmentCommand) (slide : Word) : Addr :=
  linkEdit.vmaddr + slide - linkEdit.fileoff

/-- The memory afterwards, and what has been printed. -/
def rebaseCompressed (mem : Mem) (dyldInfo : DyldInfoCommand) (linkEdit : SegmentCommand)
    (slide : Word) (segments : List SegmentCommand) : Outcome (Mem × List String) := do
  let base := linkEditBase linkEdit slide
  let start := dyldInfo.rebaseOff + base
  let stop := dyldInfo.rebaseSize + dyldInfo.rebaseOff + base
  let seg ← Outcome.ofOption segments[0]?
  let s ← rebaseLoop segments slide stop (stop.toNat - start.toNat + 1)
    ⟨⟨mem, start, 0, seg.vmaddr + slide, seg.vmaddr + slide + seg.vmsize⟩, []⟩
  .done (s.mem, s.reports)

/-! ## The interpreters agree -/

variable {obj : MachObject} {r r' : Rebasing}

theorem rebaseAt_of_image {mem mem' : Mem} {addr : Addr} {slide : Word} {type : Byte}
    (h : Lnk.rebaseAt mem addr slide type = done mem') :
    rebaseAt mem addr slide type = (mem', []) := by
  unfold Lnk.rebaseAt at h
  unfold rebaseAt
  split at h
  · rename_i htype
    rw [if_pos htype, ← done.inj h]
  · rename_i htype
    rw [if_neg htype]
    split at h
    · rename_i htype
      rw [if_pos htype, ← done.inj h]
    · simp at h

theorem rebaseOne_of_image {step : Word} (h : Lnk.rebaseOne obj step r = done r') (text : String)
    (reports : List String) : rebaseOne obj.fSlide text step ⟨r, reports⟩ = ⟨r', reports⟩ := by
  unfold Lnk.rebaseOne at h
  split at h
  · simp at h
  · rename_i hinside
    obtain ⟨mem, hmem, hr⟩ := bind_eq_done.mp h
    unfold rebaseOne
    dsimp only
    rw [if_neg hinside, rebaseAt_of_image hmem, ← done.inj hr]
    simp

theorem rebaseTimes_of_image {step : Word} {count : Nat}
    (h : Lnk.rebaseTimes obj step count r = done r') (text : String) (reports : List String) :
    rebaseTimes obj.fSlide text step count ⟨r, reports⟩ = ⟨r', reports⟩ := by
  induction count generalizing r with
  | zero => rw [← done.inj h]; rfl
  | succ count ih =>
    obtain ⟨r1, hr1, h⟩ := bind_eq_done.mp h
    rw [rebaseTimes, rebaseOne_of_image hr1]
    exact ih h

/-- Where the image's interpreter goes on, the linker's goes on in the same way, and reports
nothing. -/
def Agrees (reports : List String) (x : Outcome (Bool × Rebasing)) (y : Outcome (Bool × State)) :
    Prop :=
  ∀ finished r', x = done (finished, r') → y = done (finished, ⟨r', reports⟩)

section Agrees

variable {reports : List String}

theorem Agrees.done (finished : Bool) (r : Rebasing) :
    Agrees reports (.done (finished, r)) (.done (finished, ⟨r, reports⟩)) := by
  intro finished' r' h
  obtain ⟨rfl, rfl⟩ := Prod.mk.inj (Outcome.done.inj h)
  rfl

theorem Agrees.halt (msg : String) (y : Outcome (Bool × State)) : Agrees reports (.halt msg) y :=
  nofun

theorem Agrees.ite {c : Prop} [Decidable c] {x x' : Outcome (Bool × Rebasing)}
    {y y' : Outcome (Bool × State)} (h : Agrees reports x y) (h' : Agrees reports x' y') :
    Agrees reports (if c then x else x') (if c then y else y') := by
  split
  · exact h
  · exact h'

theorem Agrees.of_check {c : Prop} [Decidable c] {msg : String} {x : Outcome (Bool × Rebasing)}
    {y : Outcome (Bool × State)} (h : ¬ c → Agrees reports x y) :
    Agrees reports (if c then .halt msg else x) y := by
  split
  · exact .halt _ _
  · rename_i hc
    exact h hc

theorem Agrees.bind {α : Type} (z : Outcome α) {f : α → Outcome (Bool × Rebasing)}
    {g : α → Outcome (Bool × State)} (h : ∀ a, Agrees reports (f a) (g a)) :
    Agrees reports (z >>= f) (z >>= g) := by
  intro finished r' hrun
  obtain ⟨a, rfl, hf⟩ := bind_eq_done.mp hrun
  exact h a finished r' hf

theorem Agrees.rebaseTimes (step : Word) (count : Nat) (text : String) (r : Rebasing) :
    Agrees reports (Lnk.rebaseTimes obj step count r >>= fun r => .done (false, r))
      (.done (false, rebaseTimes obj.fSlide text step count ⟨r, reports⟩)) := by
  intro finished r' h
  obtain ⟨r1, hr1, h⟩ := bind_eq_done.mp h
  obtain ⟨rfl, rfl⟩ := Prod.mk.inj (Outcome.done.inj h)
  rw [rebaseTimes_of_image hr1]

theorem rebaseOp_agrees (obj : MachObject) (stop : Addr) (r : Rebasing) :
    Agrees reports (readRebaseOp obj stop r)
      (rebaseOp obj.fSegmentLoadCommands obj.fSlide stop ⟨r, reports⟩) := by
  unfold readRebaseOp rebaseOp
  dsimp only
  refine .ite ?_ (.ite ?_ (.ite ?_ (.ite ?_ (.ite ?_ (.ite ?_ (.ite ?_ (.ite ?_
    (.ite ?_ (.halt _ _)))))))))
  · exact .done _ _
  · exact .done _ _
  · refine .of_check fun hcount => ?_
    rw [if_neg hcount]
    unfold segActualEndAddr segActualLoadAddr
    cases obj.fSegmentLoadCommands[(r.mem r.p &&& rebaseImmediateMask).toNat]? with
    | none => exact nofun
    | some seg =>
      simp only [ofOption_some, done_bind]
      apply Agrees.bind
      intro (offset, p)
      have hend : seg.vmaddr + seg.vmsize + obj.fSlide = seg.vmaddr + obj.fSlide + seg.vmsize := by
        ac_rfl
      rw [hend]
      exact .done _ _
  · apply Agrees.bind
    exact fun (n, p) => .done _ _
  · exact .done _ _
  · exact .rebaseTimes _ _ _ _
  · apply Agrees.bind
    exact fun (count, p) => .rebaseTimes _ _ _ _
  · intro finished r' h
    obtain ⟨r1, hr1, h⟩ := bind_eq_done.mp h
    rw [rebaseOne_of_image hr1]
    exact Agrees.bind _ (fun (n, p) => .done _ _) finished r' h
  · apply Agrees.bind
    intro (count, p)
    apply Agrees.bind
    exact fun (skip, p) => .rebaseTimes _ _ _ _

end Agrees

theorem rebaseLoop_of_image {stop : Addr} {fuel : Nat}
    (h : readRebaseLoop obj stop fuel r = done r') (reports : List String) :
    rebaseLoop obj.fSegmentLoadCommands obj.fSlide stop fuel ⟨r, reports⟩ = done ⟨r', reports⟩ := by
  induction fuel generalizing r with
  | zero => simp [readRebaseLoop] at h
  | succ fuel ih =>
    unfold readRebaseLoop at h
    unfold rebaseLoop
    dsimp only
    split at h
    · rename_i hlt
      obtain ⟨⟨finished, r1⟩, hop, h⟩ := bind_eq_done.mp h
      rw [if_pos hlt, rebaseOp_agrees obj stop r finished r1 hop, done_bind]
      dsimp only at h ⊢
      split at h
      · rename_i hfin
        rw [if_pos hfin, ← done.inj h]
      · rename_i hfin
        rw [if_neg hfin]
        exact ih h
    · rename_i hlt
      rw [if_neg hlt, ← done.inj h]

end Bootstrap

/-- **The two interpreters agree.** Where the image's interpreter ends without an error, the
linker's ends too, prints nothing, and leaves the same memory. -/
theorem rebaseCompressed_of_readRebase (obj : MachObject) (dyldInfo : DyldInfoCommand)
    (linkEdit : SegmentCommand) (mem mem' : Mem)
    (h : readRebase mem obj
      (Bootstrap.linkEditBase linkEdit obj.fSlide + dyldInfo.rebaseOff)
      (Bootstrap.linkEditBase linkEdit obj.fSlide + dyldInfo.rebaseOff + dyldInfo.rebaseSize) =
        done mem') :
    Bootstrap.rebaseCompressed mem dyldInfo linkEdit obj.fSlide obj.fSegmentLoadCommands =
      done (mem', []) := by
  unfold readRebase segActualEndAddr segActualLoadAddr at h
  unfold Bootstrap.rebaseCompressed
  have hstart : dyldInfo.rebaseOff + Bootstrap.linkEditBase linkEdit obj.fSlide =
      Bootstrap.linkEditBase linkEdit obj.fSlide + dyldInfo.rebaseOff := by ac_rfl
  have hstop : dyldInfo.rebaseSize + dyldInfo.rebaseOff +
      Bootstrap.linkEditBase linkEdit obj.fSlide =
      Bootstrap.linkEditBase linkEdit obj.fSlide + dyldInfo.rebaseOff + dyldInfo.rebaseSize := by
    ac_rfl
  dsimp only
  rw [hstart, hstop]
  cases hseg : obj.fSegmentLoadCommands[0]? with
  | none => simp [hseg] at h
  | some seg =>
    simp only [hseg, ofOption_some, done_bind] at h
    obtain ⟨r, hloop, hr⟩ := bind_eq_done.mp h
    rw [ofOption_some, done_bind, Bootstrap.rebaseLoop_of_image hloop, done_bind, ← done.inj hr]

/-! A segment whose two words are rebased by 0x20. The opcodes are at 0x2020. -/

def rebaseSampleMem : Mem := fun a =>
  [0x11, 0x20, 0x00, 0x52, 0x00].getD (a - 0x2020).toNat (if a = 0x1020 then 0x10 else 0)

def rebaseSampleObject : MachObject :=
  { MachObject.new with
    fSegmentLoadCommands := [⟨"__DATA", 0x1000, 0x1000, 0, []⟩]
    fSlide := 0x20 }

theorem rebaseCompressed_sample :
    ∃ mem', readRebase rebaseSampleMem rebaseSampleObject (0x2020 + 0) (0x2020 + 0 + 5) =
        done mem' ∧ mem'.load 0x1020 = 0x30 ∧
      Bootstrap.rebaseCompressed rebaseSampleMem ⟨0, 5, 0, 0⟩
        ⟨"__LINKEDIT", 0x3000, 0x1000, 0x1000, []⟩ 0x20
        [⟨"__DATA", 0x1000, 0x1000, 0, []⟩] = done (mem', []) := by
  have hrun : (readRebase rebaseSampleMem rebaseSampleObject (0x2020 + 0) (0x2020 + 0 + 5) >>=
      fun mem' => done (mem'.load 0x1020)) = done 0x30 := by decide
  obtain ⟨mem', hmem, hload⟩ := bind_eq_done.mp hrun
  exact ⟨mem', hmem, done.inj hload, rebaseCompressed_of_readRebase rebaseSampleObject
    ⟨0, 5, 0, 0⟩ ⟨"__LINKEDIT", 0x3000, 0x1000, 0x1000, []⟩ rebaseSampleMem mem' hmem⟩

/-! ## The end of the opcodes

The fuel of `readRebase` is enough: each opcode moves the cursor on, and never past the end.
-/

theorem readUleb128Loop_cursor {mem : Mem} {stop p p' : Addr} {fuel bit : Nat}
    {result : BitVec 64} {v : Word} (hp : p ≤ stop)
    (h : readUleb128Loop mem stop fuel p result bit = done (v, p')) : p < p' ∧ p' ≤ stop := by
  induction fuel generalizing p result bit with
  | zero => simp [readUleb128Loop] at h
  | succ fuel ih =>
    unfold readUleb128Loop at h
    split at h
    · simp at h
    rename_i hne
    split at h
    · simp at h
    have hsucc : p < p + 1 ∧ p + 1 ≤ stop := by bv_omega
    dsimp only at h
    split at h
    · obtain ⟨hlt, hle⟩ := ih hsucc.2 h
      exact ⟨BitVec.lt_trans hsucc.1 hlt, hle⟩
    · obtain ⟨-, rfl⟩ := Prod.mk.inj (done.inj h)
      exact hsucc

theorem readUleb128Loop_ne_timeout {mem : Mem} {stop p : Addr} {fuel bit : Nat}
    {result : BitVec 64} (h : 63 < bit + 7 * fuel) :
    readUleb128Loop mem stop (fuel + 1) p result bit ≠ timeout := by
  induction fuel generalizing p result bit with
  | zero =>
    unfold readUleb128Loop
    split
    · simp
    · rw [if_pos (by omega)]
      simp
  | succ fuel ih =>
    unfold readUleb128Loop
    split
    · simp
    split
    · simp
    dsimp only
    split
    · exact ih (by omega)
    · simp

/-- The opcode does not run for ever, and moves the cursor from `p` on, up to `stop`. -/
def Moves (stop p : Addr) (x : Outcome (Bool × Rebasing)) : Prop :=
  x ≠ timeout ∧ ∀ finished r', x = done (finished, r') → p < r'.p ∧ r'.p ≤ stop

section Moves

variable {stop p : Addr}

theorem Moves.done {finished : Bool} {r : Rebasing} (h : p < r.p ∧ r.p ≤ stop) :
    Moves stop p (.done (finished, r)) := by
  refine ⟨by simp, fun finished' r' heq => ?_⟩
  obtain ⟨-, rfl⟩ := Prod.mk.inj (Outcome.done.inj heq)
  exact h

theorem Moves.halt (msg : String) : Moves stop p (.halt msg) := ⟨by simp, nofun⟩

theorem Moves.fault : Moves stop p .fault := ⟨by simp, nofun⟩

theorem Moves.ite {c : Prop} [Decidable c] {x y : Outcome (Bool × Rebasing)}
    (hx : Moves stop p x) (hy : Moves stop p y) : Moves stop p (if c then x else y) := by
  split
  · exact hx
  · exact hy

theorem Moves.read {mem : Mem} {q : Addr} {f : Word × Addr → Outcome (Bool × Rebasing)}
    (hq : p < q ∧ q ≤ stop) (h : ∀ v q', p < q' ∧ q' ≤ stop → Moves stop p (f (v, q'))) :
    Moves stop p (readUleb128 mem q stop >>= f) := by
  have hnext : ∀ v q', readUleb128 mem q stop = .done (v, q') → p < q' ∧ q' ≤ stop := by
    intro v q' hread
    obtain ⟨hlt, hle⟩ := readUleb128Loop_cursor hq.2 hread
    exact ⟨BitVec.lt_trans hq.1 hlt, hle⟩
  constructor
  · refine bind_ne_timeout.mpr ⟨readUleb128Loop_ne_timeout (by omega), ?_⟩
    rintro ⟨v, q'⟩ hread
    exact (h v q' (hnext v q' hread)).1
  · intro finished r' hrun
    obtain ⟨⟨v, q'⟩, hread, hf⟩ := bind_eq_done.mp hrun
    exact (h v q' (hnext v q' hread)).2 finished r' hf

theorem rebaseOne_p {obj : MachObject} {step : Word} {r r' : Rebasing}
    (h : rebaseOne obj step r = done r') : r'.p = r.p := by
  unfold rebaseOne at h
  split at h
  · simp at h
  · obtain ⟨mem, -, hr⟩ := bind_eq_done.mp h
    rw [← done.inj hr]

theorem rebaseOne_ne_timeout {obj : MachObject} {step : Word} {r : Rebasing} :
    rebaseOne obj step r ≠ timeout := by
  unfold rebaseOne
  split
  · simp
  · refine bind_ne_timeout.mpr ⟨?_, by simp⟩
    unfold rebaseAt
    split
    · simp
    split <;> simp

theorem Moves.times {obj : MachObject} {step : Word} {count : Nat} {r : Rebasing}
    (h : p < r.p ∧ r.p ≤ stop) :
    Moves stop p (rebaseTimes obj step count r >>= fun r => .done (false, r)) := by
  induction count generalizing r with
  | zero => exact .done h
  | succ count ih =>
    unfold rebaseTimes
    cases hone : rebaseOne obj step r with
    | done r1 => exact ih (by rwa [rebaseOne_p hone])
    | halt msg => exact .halt msg
    | fault => exact .fault
    | timeout => exact absurd hone rebaseOne_ne_timeout

theorem readRebaseOp_moves (obj : MachObject) {r : Rebasing} (hp : r.p < stop) :
    Moves stop r.p (readRebaseOp obj stop r) := by
  have hsucc : r.p < r.p + 1 ∧ r.p + 1 ≤ stop := by bv_omega
  unfold readRebaseOp
  dsimp only
  refine .ite ?_ (.ite ?_ (.ite ?_ (.ite ?_ (.ite ?_ (.ite ?_ (.ite ?_ (.ite ?_
    (.ite ?_ (.halt _)))))))))
  · exact .done hsucc
  · exact .done hsucc
  · refine .ite (.halt _) ?_
    unfold segActualEndAddr segActualLoadAddr
    cases obj.fSegmentLoadCommands[(r.mem r.p &&& rebaseImmediateMask).toNat]? with
    | none => exact .fault
    | some seg =>
      simp only [ofOption_some, done_bind]
      exact .read hsucc fun offset q hq => .done hq
  · exact .read hsucc fun n q hq => .done hq
  · exact .done hsucc
  · exact .times hsucc
  · exact .read hsucc fun count q hq => .times hq
  · cases hone : rebaseOne obj 0 { r with p := r.p + 1 } with
    | done r1 =>
      rw [done_bind]
      exact .read (by rwa [rebaseOne_p hone]) fun n q hq => .done hq
    | halt msg => exact .halt msg
    | fault => exact .fault
    | timeout => exact absurd hone rebaseOne_ne_timeout
  · exact .read hsucc fun count q hq => .read hq fun skip q' hq' => .times hq'

end Moves

theorem readRebaseLoop_ne_timeout (obj : MachObject) {stop : Addr} {fuel : Nat} {r : Rebasing}
    (h : stop.toNat - r.p.toNat < fuel) : readRebaseLoop obj stop fuel r ≠ timeout := by
  induction fuel generalizing r with
  | zero => omega
  | succ fuel ih =>
    unfold readRebaseLoop
    split
    · rename_i hlt
      obtain ⟨hne, hmoves⟩ := readRebaseOp_moves obj hlt
      refine bind_ne_timeout.mpr ⟨hne, fun ⟨finished, r1⟩ hop => ?_⟩
      dsimp only
      split
      · simp
      · obtain ⟨hcursor, hle⟩ := hmoves finished r1 hop
        exact ih (by bv_omega)
    · simp

/-- **The interpreter ends**, on every stream. -/
theorem readRebase_ne_timeout (mem : Mem) (obj : MachObject) (start stop : Addr) :
    readRebase mem obj start stop ≠ timeout := by
  unfold readRebase segActualEndAddr segActualLoadAddr
  cases obj.fSegmentLoadCommands[0]? with
  | none => simp
  | some seg =>
    simp only [ofOption_some, done_bind]
    refine bind_ne_timeout.mpr ⟨readRebaseLoop_ne_timeout obj ?_, by simp⟩
    exact Nat.lt_succ_self _

/-! ## Classic images -/

def rScattered : Word := 0x80000000
def rAbs : Word := 0
def relocSize : Word := 2
def genericRelocVanilla : Word := 0
def armRelocPbLaPtr : Word := 4

/-- One `struct relocation_info`, or `scattered_relocation_info`, at `reloc`. -/
def classicRebaseOne (slide relocBase segmentSlide : Word) (mem : Mem) (reloc : Addr) :
    Outcome Mem :=
  let address := mem.load reloc
  let info := mem.load (reloc + 4)
  if address &&& rScattered = 0 then
    if info &&& 0x00ffffff = rAbs then .halt "abs"
    else if (info >>> 25) &&& 3 = relocSize then
      if info >>> 28 = genericRelocVanilla then
        let pp := address + relocBase
        .done (mem.store pp (mem.load pp + slide))
      else .halt "unknown local relocation type"
    else .halt "bad local relocation length"
  else if (address >>> 28) &&& 3 = relocSize then
    let locationToFix := (address &&& 0x00ffffff) + segmentSlide
    let type := (address >>> 24) &&& 0xf
    if type = genericRelocVanilla then
      .done (mem.store locationToFix (mem.load locationToFix + slide))
    else if type = armRelocPbLaPtr then .done mem
    else .halt "unknown local scattered relocation type (%d)"
  else .halt "bad local scattered relocation length"

def classicRebaseLoop (slide relocBase segmentSlide : Word) : Nat → Mem → Addr → Outcome Mem
  | 0, mem, _ => .done mem
  | count + 1, mem, reloc => do
    let mem ← classicRebaseOne slide relocBase segmentSlide mem reloc
    classicRebaseLoop slide relocBase segmentSlide count mem (reloc + 8)

/-- It is not called for split segment images, so that `getClassicRelocBase` is the start of the
first segment. `segmentSlides` is `fSegmentSlides[1]`, which is never assigned. -/
def classicRebase (segmentSlides : MachObject → Word) (mem : Mem) (obj : MachObject) :
    Outcome Mem := do
  let relocBase ← segActualLoadAddr obj 0
  if obj.fDynamicInfo = none then .halt "no dsymtab section"
  else
    let info := obj.dysymtab
    let relocsStart := obj.fLinkEditBase + info.locreloff
    let relocsEnd := relocsStart + 8 * info.nlocrel
    -- The distance of the two pointers is a multiple of 8.
    classicRebaseLoop obj.fSlide relocBase (segmentSlides obj)
      ((relocsEnd.toNat - relocsStart.toNat) / 8) mem relocsStart

theorem classicRebaseOne_ne_timeout (slide relocBase segmentSlide : Word) (mem : Mem)
    (reloc : Addr) : classicRebaseOne slide relocBase segmentSlide mem reloc ≠ timeout := by
  unfold classicRebaseOne
  dsimp only
  repeat' split
  all_goals simp

theorem classicRebaseLoop_ne_timeout (slide relocBase segmentSlide : Word) (count : Nat)
    (mem : Mem) (reloc : Addr) :
    classicRebaseLoop slide relocBase segmentSlide count mem reloc ≠ timeout := by
  induction count generalizing mem reloc with
  | zero => simp [classicRebaseLoop]
  | succ count ih =>
    exact bind_ne_timeout.mpr ⟨classicRebaseOne_ne_timeout _ _ _ _ _, fun mem _ => ih mem _⟩

theorem classicRebase_ne_timeout (segmentSlides : MachObject → Word) (mem : Mem)
    (obj : MachObject) : classicRebase segmentSlides mem obj ≠ timeout := by
  unfold classicRebase segActualLoadAddr
  cases obj.fSegmentLoadCommands[0]? with
  | none => simp
  | some seg =>
    simp only [ofOption_some, done_bind]
    split
    · simp
    · exact classicRebaseLoop_ne_timeout _ _ _ _ _ _

end LibSystem.Lnk
