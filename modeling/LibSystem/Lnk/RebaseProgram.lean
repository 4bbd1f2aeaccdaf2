import LibSystem.Lnk.Fixups
import LibSystem.Lnk.Opcodes
import LibSystem.StraightLine

/-!
# The rebase opcodes as a program

A stream is decoded to instructions before it runs. While the words that are rebased stay clear of
the stream, `readRebase` does what its instructions do.
-/

namespace LibSystem.Lnk

open Outcome Mem

/-- An opcode with its operands. -/
inductive RebaseInstr where
  | done
  | setTypeImm (immediate : Byte)
  | setSegmentAndOffsetUleb (immediate : Byte) (offset : Outcome Word)
  | addAddrUleb (n : Outcome Word)
  | addAddrImmScaled (immediate : Byte)
  | doRebaseImmTimes (immediate : Byte)
  | doRebaseUlebTimes (count : Outcome Word)
  | doRebaseAddAddrUleb (n : Outcome Word)
  | doRebaseUlebTimesSkippingUleb (count skip : Outcome Word)
  | invalid

/-- The instruction at the byte `b`, and what is left behind it. -/
def decodeRebaseOp (b : Byte) (rest : List Byte) : RebaseInstr × List Byte :=
  let immediate := b &&& rebaseImmediateMask
  let opcode := b &&& rebaseOpcodeMask
  if opcode = rebaseOpcodeDone then (.done, rest)
  else if opcode = rebaseOpcodeSetTypeImm then (.setTypeImm immediate, rest)
  else if opcode = rebaseOpcodeSetSegmentAndOffsetUleb then
    (.setSegmentAndOffsetUleb immediate (operand rest), afterOperand rest)
  else if opcode = rebaseOpcodeAddAddrUleb then (.addAddrUleb (operand rest), afterOperand rest)
  else if opcode = rebaseOpcodeAddAddrImmScaled then (.addAddrImmScaled immediate, rest)
  else if opcode = rebaseOpcodeDoRebaseImmTimes then (.doRebaseImmTimes immediate, rest)
  else if opcode = rebaseOpcodeDoRebaseUlebTimes then
    (.doRebaseUlebTimes (operand rest), afterOperand rest)
  else if opcode = rebaseOpcodeDoRebaseAddAddrUleb then
    (.doRebaseAddAddrUleb (operand rest), afterOperand rest)
  else if opcode = rebaseOpcodeDoRebaseUlebTimesSkippingUleb then
    (.doRebaseUlebTimesSkippingUleb (operand rest) (operand (afterOperand rest)),
      afterOperand (afterOperand rest))
  else (.invalid, rest)

def decodeRebase : List Byte → List RebaseInstr := decodeStream decodeRebaseOp

/-! ## What the instructions do -/

namespace RebaseInstr

/-- The cursor stays where it is. -/
def exec (obj : MachObject) : RebaseInstr → Rebasing → Outcome (Bool × Rebasing)
  | done, r => .done (true, r)
  | setTypeImm immediate, r => .done (false, { r with type := immediate })
  | setSegmentAndOffsetUleb immediate offset, r =>
    if obj.fSegmentLoadCommands.length < immediate.toNat then .halt "baaaad seg count for rebase!"
    else do
      let base ← segActualLoadAddr obj immediate.toNat
      let offset ← offset
      let segEnd ← segActualEndAddr obj immediate.toNat
      .done (false, { r with address := base + offset, segmentEndAddress := segEnd })
  | addAddrUleb n, r => do
    let n ← n
    .done (false, { r with address := r.address + n })
  | addAddrImmScaled immediate, r =>
    .done (false, { r with address := r.address + immediate.setWidth 32 * 4 })
  | doRebaseImmTimes immediate, r => do
    let r ← rebaseTimes obj 4 immediate.toNat r
    .done (false, r)
  | doRebaseUlebTimes count, r => do
    let count ← count
    let r ← rebaseTimes obj 4 count.toNat r
    .done (false, r)
  | doRebaseAddAddrUleb n, r => do
    let r ← rebaseOne obj 0 r
    let n ← n
    .done (false, { r with address := r.address + (n + 4) })
  | doRebaseUlebTimesSkippingUleb count skip, r => do
    let count ← count
    let skip ← skip
    let r ← rebaseTimes obj (skip + 4) count.toNat r
    .done (false, r)
  | invalid, _ => .halt "invalid opcode %d for rebase"

/-- The states in which a word is about to be rebased. -/
def fixups (obj : MachObject) : RebaseInstr → Rebasing → List Rebasing
  | doRebaseImmTimes immediate, r => rebaseTimesFixups obj 4 immediate.toNat r
  | doRebaseUlebTimes (.done count), r => rebaseTimesFixups obj 4 count.toNat r
  | doRebaseAddAddrUleb _, r => rebaseTimesFixups obj 0 1 r
  | doRebaseUlebTimesSkippingUleb (.done count) (.done skip), r =>
    rebaseTimesFixups obj (skip + 4) count.toNat r
  | _, _ => []

end RebaseInstr

def rebaseSemantics (obj : MachObject) : Semantics RebaseInstr Rebasing Rebasing where
  exec := RebaseInstr.exec obj
  seen := RebaseInstr.fixups obj

/-! ## The cursor -/

def Rebasing.at (p : Addr) (r : Rebasing) : Rebasing := { r with p := p }

variable {obj : MachObject} {stop : Addr} {r r' : Rebasing}

theorem rebaseOne_at (step : Word) (p : Addr) (r : Rebasing) :
    rebaseOne obj step (r.at p) = (rebaseOne obj step r >>= fun r' => done (r'.at p)) := by
  unfold rebaseOne Rebasing.at
  by_cases hbeyond : r.segmentEndAddress ≤ r.address
  · simp only [if_pos hbeyond]
    rfl
  · simp only [if_neg hbeyond, bind_bind]
    rfl

theorem rebaseTimes_at (step : Word) (count : Nat) (p : Addr) (r : Rebasing) :
    rebaseTimes obj step count (r.at p) =
      (rebaseTimes obj step count r >>= fun r' => done (r'.at p)) := by
  induction count generalizing r with
  | zero => rfl
  | succ count ih =>
    rw [rebaseTimes, rebaseTimes, rebaseOne_at, bind_bind, bind_bind]
    refine bind_congr fun r1 => ?_
    rw [done_bind, ih]

theorem rebaseTimesFixups_at (step : Word) (count : Nat) (p : Addr) (r : Rebasing) :
    rebaseTimesFixups obj step count (r.at p) =
      (rebaseTimesFixups obj step count r).map (Rebasing.at p) := by
  induction count generalizing r with
  | zero => rfl
  | succ count ih =>
    rw [rebaseTimesFixups, rebaseTimesFixups, rebaseOne_at, List.map_cons]
    cases rebaseOne obj step r with
    | done r1 => exact congrArg _ (ih r1)
    | halt msg => rfl
    | fault => rfl
    | timeout => rfl

/-! ## One opcode -/

theorem decodeRebaseOp_suffix (b : Byte) (rest : List Byte) :
    (decodeRebaseOp b rest).2 <:+ rest := by
  unfold decodeRebaseOp
  dsimp only
  repeat' split
  all_goals first
    | exact List.suffix_rfl
    | exact afterOperand_suffix _
    | exact (afterOperand_suffix _).trans (afterOperand_suffix _)

theorem readRebaseOpFixups_eq {b : Byte} {rest : List Byte}
    (hbytes : r.mem.slice r.p stop = b :: rest) :
    (readRebaseOpFixups obj stop r).map (Rebasing.at 0) =
      (decodeRebaseOp b rest).1.fixups obj (r.at 0) := by
  obtain ⟨hlt, rfl, hrest⟩ := cons_of_slice hbytes
  have hle : r.p + 1 ≤ stop := by bv_omega
  have htimes : ∀ step count q, (rebaseTimesFixups obj step count { r with p := q }).map (.at 0) =
      rebaseTimesFixups obj step count (r.at 0) :=
    fun step count q => (rebaseTimesFixups_at step count 0 { r with p := q }).symm
  unfold readRebaseOpFixups decodeRebaseOp
  generalize r.mem r.p &&& rebaseOpcodeMask = opcode
  generalize r.mem r.p &&& rebaseImmediateMask = immediate
  dsimp only
  by_cases h5 : opcode = rebaseOpcodeDoRebaseImmTimes
  · subst h5
    exact htimes _ _ _
  by_cases h6 : opcode = rebaseOpcodeDoRebaseUlebTimes
  · subst h6
    rw [readUleb128_eq hle hrest]
    cases operand rest with
    | done count => exact htimes _ _ _
    | halt msg => rfl
    | fault => rfl
    | timeout => rfl
  by_cases h7 : opcode = rebaseOpcodeDoRebaseAddAddrUleb
  · subst h7
    exact htimes _ _ _
  by_cases h8 : opcode = rebaseOpcodeDoRebaseUlebTimesSkippingUleb
  · subst h8
    rw [readUleb128_eq hle hrest]
    cases operand rest with
    | done count =>
      simp only [done_bind]
      rw [readUleb128_next hle hrest]
      cases operand (afterOperand rest) with
      | done skip => exact htimes _ _ _
      | halt msg => rfl
      | fault => rfl
      | timeout => rfl
    | halt msg => rfl
    | fault => rfl
    | timeout => rfl
  simp only [if_neg h5, if_neg h6, if_neg h7, if_neg h8]
  repeat' split
  all_goals rfl

/-- The bytes between the addresses are no part of the word, if it is rebased at all. -/
def Rebasing.ClearOf (start stop : Addr) (r : Rebasing) : Prop :=
  RebaseStores r → ∀ x, InWord r.address x → ¬ (start ≤ x ∧ x < stop)

theorem Rebasing.ClearOf.mono {start start' : Addr} (h : r.ClearOf start stop)
    (hle : start ≤ start') : r.ClearOf start' stop :=
  fun hstores x hin hx => h hstores x hin ⟨BitVec.le_trans hle hx.1, hx.2⟩

theorem slice_of_rebaseOne {step : Word} {p : Addr} (h : rebaseOne obj step r = done r')
    (hclear : r.ClearOf p stop) : r'.mem.slice p stop = r.mem.slice p stop := by
  obtain ⟨hstores, hmem, -⟩ := rebaseOne_eq_done h
  rw [hmem]
  refine slice_congr fun x hlow hhigh => store_outside _ _ _ _ fun hin => ?_
  exact hclear hstores x hin ⟨hlow, hhigh⟩

theorem readRebaseOp_eq {b : Byte} {rest : List Byte} (hbytes : r.mem.slice r.p stop = b :: rest)
    (hclear : ∀ f ∈ (decodeRebaseOp b rest).1.fixups obj (r.at 0), f.ClearOf r.p stop) :
    readRebaseOp obj stop r =
      ((decodeRebaseOp b rest).1.exec obj (r.at 0) >>= fun v =>
        done (v.1, v.2.at (cursor stop (decodeRebaseOp b rest).2))) := by
  obtain ⟨hlt, rfl, hrest⟩ := cons_of_slice hbytes
  have hle : r.p + 1 ≤ stop := by bv_omega
  have hnext : cursor stop rest = r.p + 1 := by rw [← hrest, cursor_slice r.mem hle]
  have htimes : ∀ step count q, rebaseTimes obj step count { r with p := q } =
      (rebaseTimes obj step count (r.at 0) >>= fun r' => done (r'.at q)) :=
    fun step count q => rebaseTimes_at step count q (r.at 0)
  have hone : rebaseOne obj 0 { r with p := r.p + 1 } =
      (rebaseOne obj 0 (r.at 0) >>= fun r' => done (r'.at (r.p + 1))) :=
    rebaseOne_at 0 (r.p + 1) (r.at 0)
  unfold readRebaseOp
  revert hclear
  unfold decodeRebaseOp
  generalize r.mem r.p &&& rebaseOpcodeMask = opcode
  generalize r.mem r.p &&& rebaseImmediateMask = immediate
  dsimp only
  by_cases h0 : opcode = rebaseOpcodeDone
  · simp only [if_pos h0, hnext]
    exact fun _ => rfl
  simp only [if_neg h0]
  by_cases h1 : opcode = rebaseOpcodeSetTypeImm
  · simp only [if_pos h1, hnext]
    exact fun _ => rfl
  simp only [if_neg h1]
  by_cases h2 : opcode = rebaseOpcodeSetSegmentAndOffsetUleb
  · simp only [if_pos h2, RebaseInstr.exec]
    intro _
    by_cases hseg : obj.fSegmentLoadCommands.length < immediate.toNat
    · simp only [if_pos hseg]
      rfl
    · simp only [if_neg hseg, bind_bind, readUleb128_eq hle hrest]
      rfl
  simp only [if_neg h2]
  by_cases h3 : opcode = rebaseOpcodeAddAddrUleb
  · simp only [if_pos h3, readUleb128_eq hle hrest, RebaseInstr.exec, bind_bind]
    exact fun _ => rfl
  simp only [if_neg h3]
  by_cases h4 : opcode = rebaseOpcodeAddAddrImmScaled
  · simp only [if_pos h4, hnext]
    exact fun _ => rfl
  simp only [if_neg h4]
  by_cases h5 : opcode = rebaseOpcodeDoRebaseImmTimes
  · simp only [if_pos h5, hnext, RebaseInstr.exec, bind_bind, htimes]
    exact fun _ => rfl
  simp only [if_neg h5]
  by_cases h6 : opcode = rebaseOpcodeDoRebaseUlebTimes
  · simp only [if_pos h6, readUleb128_eq hle hrest, RebaseInstr.exec, bind_bind, done_bind, htimes]
    exact fun _ => trivial
  simp only [if_neg h6]
  by_cases h7 : opcode = rebaseOpcodeDoRebaseAddAddrUleb
  · simp only [if_pos h7, RebaseInstr.exec, RebaseInstr.fixups, hone]
    intro hclear
    rw [bind_bind, bind_bind]
    refine bind_congr_of_done fun r1 hrun => ?_
    have hfirst : (r.at 0).ClearOf (r.p + 1) stop :=
      (hclear _ List.mem_cons_self).mono (by bv_omega)
    have hrest1 : r1.mem.slice (r.p + 1) stop = rest :=
      (slice_of_rebaseOne hrun hfirst).trans hrest
    show (readUleb128 r1.mem (r.p + 1) stop >>= _) = _
    rw [readUleb128_eq hle hrest1]
    simp only [bind_bind]
    rfl
  simp only [if_neg h7]
  by_cases h8 : opcode = rebaseOpcodeDoRebaseUlebTimesSkippingUleb
  · simp only [if_pos h8, readUleb128_eq hle hrest, RebaseInstr.exec, bind_bind, done_bind, htimes,
      readUleb128_next hle hrest]
    exact fun _ => trivial
  simp only [if_neg h8]
  exact fun _ => rfl

/-! ## The whole stream -/

theorem decodeRebase_cons (b : Byte) (rest : List Byte) :
    decodeRebase (b :: rest) =
      (decodeRebaseOp b rest).1 :: decodeRebase (decodeRebaseOp b rest).2 :=
  decodeStream_cons decodeRebaseOp_suffix b rest

theorem rebaseTimes_p {step : Word} {count : Nat} :
    (rebaseTimes obj step count r).Ensures fun r' => r'.p = r.p := by
  induction count generalizing r with
  | zero => exact .done rfl
  | succ count ih => exact .bind fun r1 hone r' h => (ih r' h).trans (rebaseOne_p hone)

theorem RebaseInstr.exec_p (i : RebaseInstr) : (i.exec obj r).Ensures fun v => v.2.p = r.p := by
  cases i with
  | done => exact .done rfl
  | setTypeImm immediate => exact .done rfl
  | setSegmentAndOffsetUleb immediate offset =>
    exact .ite (fun _ => .halt _) fun _ => .bind fun base _ => .bind fun offset _ =>
      .bind fun segEnd _ => .done rfl
  | addAddrUleb n => exact .bind fun n _ => .done rfl
  | addAddrImmScaled immediate => exact .done rfl
  | doRebaseImmTimes immediate => exact .bind fun r1 h => .done (rebaseTimes_p r1 h)
  | doRebaseUlebTimes count =>
    exact .bind fun count _ => .bind fun r1 h => .done (rebaseTimes_p r1 h)
  | doRebaseAddAddrUleb n =>
    refine .bind fun r1 h => .bind fun n _ => .done ?_
    exact (rebaseOne_p h : r1.p = r.p)
  | doRebaseUlebTimesSkippingUleb count skip =>
    exact .bind fun count _ => .bind fun skip _ => .bind fun r1 h => .done (rebaseTimes_p r1 h)
  | invalid => exact .halt _

theorem slice_of_onlyAt {P : Addr → Prop} {mem mem' : Mem} {p : Addr} (h : OnlyAt P mem mem')
    (hP : ∀ a, P a → ∀ x, InWord a x → ¬ (p ≤ x ∧ x < stop)) :
    mem'.slice p stop = mem.slice p stop := by
  refine slice_congr fun x hlow hhigh => ?_
  by_contra hne
  obtain ⟨a, ha, hin⟩ := h x hne
  exact hP a ha x hin ⟨hlow, hhigh⟩

section Loop

variable {b : Byte} {rest : List Byte}

theorem clear_of_loop {fuel segmentIndex : Nat} (hbytes : r.mem.slice r.p stop = b :: rest)
    (hclear : (∀ f ∈ readRebaseLoopFixups obj stop (fuel + 1) segmentIndex r,
        f.2.ClearOf r.p stop) ∨
      ∀ f ∈ (rebaseSemantics obj).observe (decodeRebase (b :: rest)) (r.at 0),
        f.ClearOf r.p stop) :
    ∀ f ∈ (decodeRebaseOp b rest).1.fixups obj (r.at 0), f.ClearOf r.p stop := by
  obtain ⟨hlt, -, -⟩ := cons_of_slice hbytes
  intro f hf
  rcases hclear with h | h
  · rw [← readRebaseOpFixups_eq hbytes] at hf
    obtain ⟨g, hg, rfl⟩ := List.mem_map.mp hf
    refine h (segmentIndex, g) ?_
    rw [readRebaseLoopFixups, if_pos hlt]
    exact List.mem_append_left _ (List.mem_map_of_mem hg)
  · refine h f ?_
    rw [decodeRebase_cons]
    exact List.mem_append_left _ hf

theorem slice_of_readRebaseOp {finished : Bool} (hbytes : r.mem.slice r.p stop = b :: rest)
    (hclear : ∀ f ∈ (decodeRebaseOp b rest).1.fixups obj (r.at 0), f.ClearOf r.p stop)
    (hop : readRebaseOp obj stop r = done (finished, r')) :
    r.p ≤ cursor stop (decodeRebaseOp b rest).2 ∧
      r'.mem.slice (cursor stop (decodeRebaseOp b rest).2) stop = (decodeRebaseOp b rest).2 := by
  obtain ⟨hlow, hslice⟩ := slice_behind hbytes (decodeRebaseOp_suffix b rest)
  have hle : r.p ≤ cursor stop (decodeRebaseOp b rest).2 := by bv_omega
  have hchanges : OnlyAt (RebaseWords (readRebaseOpFixups obj stop r)) r.mem r'.mem :=
    readRebaseOp_changes _ hop
  refine ⟨hle, (slice_of_onlyAt hchanges ?_).trans hslice⟩
  rintro a ⟨f, hf, hstores, rfl⟩ x hin hx
  refine hclear (f.at 0) ?_ hstores x hin ⟨BitVec.le_trans hle hx.1, hx.2⟩
  rw [← readRebaseOpFixups_eq hbytes]
  exact List.mem_map_of_mem hf

end Loop

/-- While the fix-ups stay clear of the stream, the loop runs its instructions. It does not matter
which of the two lists of fix-ups is known to be clear: they are the same. -/
theorem readRebaseLoop_eq {bytes : List Byte} {fuel segmentIndex : Nat}
    (hbytes : r.mem.slice r.p stop = bytes) (hfuel : bytes.length < fuel)
    (hclear : (∀ f ∈ readRebaseLoopFixups obj stop fuel segmentIndex r, f.2.ClearOf r.p stop) ∨
      ∀ f ∈ (rebaseSemantics obj).observe (decodeRebase bytes) (r.at 0), f.ClearOf r.p stop) :
    (readRebaseLoopFixups obj stop fuel segmentIndex r).map (fun f => f.2.at 0) =
        (rebaseSemantics obj).observe (decodeRebase bytes) (r.at 0) ∧
      (readRebaseLoop obj stop fuel r >>= fun r' => done (r'.at 0)) =
        ((rebaseSemantics obj).run (decodeRebase bytes) (r.at 0) >>= fun v => done v.2) := by
  induction fuel generalizing r bytes segmentIndex with
  | zero => omega
  | succ fuel ih =>
    cases bytes with
    | nil =>
      have hend : ¬ r.p < stop := not_lt_of_slice hbytes
      rw [readRebaseLoopFixups, readRebaseLoop, if_neg hend, if_neg hend]
      exact ⟨rfl, rfl⟩
    | cons b rest =>
      obtain ⟨hlt, -, -⟩ := cons_of_slice hbytes
      have hopClear := clear_of_loop hbytes hclear
      have hop : readRebaseOp obj stop r =
          ((rebaseSemantics obj).exec (decodeRebaseOp b rest).1 (r.at 0) >>= fun v =>
            done (v.1, v.2.at (cursor stop (decodeRebaseOp b rest).2))) :=
        readRebaseOp_eq hbytes hopClear
      have hhead : (readRebaseOpFixups obj stop r).map
          ((fun f => f.2.at 0) ∘ fun r => (segmentIndex, r)) =
            (rebaseSemantics obj).seen (decodeRebaseOp b rest).1 (r.at 0) :=
        readRebaseOpFixups_eq hbytes
      have hcursor : ∀ finished r1, (rebaseSemantics obj).exec (decodeRebaseOp b rest).1 (r.at 0) =
          done (finished, r1) → r1.at 0 = r1 := by
        intro finished r1 hexec
        have hp0 : r1.p = 0 := RebaseInstr.exec_p _ _ hexec
        rw [Rebasing.at, ← hp0]
      rw [decodeRebase_cons] at hclear ⊢
      rw [readRebaseLoopFixups, if_pos hlt] at hclear ⊢
      rw [readRebaseLoop, if_pos hlt, List.map_append, List.map_map, hhead]
      by_cases hgoes : ∃ r1,
          (rebaseSemantics obj).exec (decodeRebaseOp b rest).1 (r.at 0) = done (false, r1)
      · obtain ⟨r1, hexec⟩ := hgoes
        have hat := hcursor false r1 hexec
        rw [hexec, done_bind] at hop
        rw [hop] at hclear ⊢
        rw [Semantics.observe_cons_of_done _ hexec] at hclear ⊢
        rw [Semantics.run_cons_of_done _ hexec]
        obtain ⟨hle, hmem⟩ := slice_of_readRebaseOp hbytes hopClear hop
        have hlen := (decodeRebaseOp_suffix b rest).length_le
        rw [List.length_cons] at hfuel
        have hnext := @ih (r1.at (cursor stop (decodeRebaseOp b rest).2)) _
          (nextSegmentIndex segmentIndex r) hmem (by omega) ?_
        · rw [show (r1.at (cursor stop (decodeRebaseOp b rest).2)).at 0 = r1 from hat] at hnext
          exact ⟨congrArg _ hnext.1, hnext.2⟩
        · refine hclear.imp (fun h f hf => ?_) fun h f hf => ?_
          · exact (h f (List.mem_append_right _ hf)).mono hle
          · rw [show (r1.at (cursor stop (decodeRebaseOp b rest).2)).at 0 = r1 from hat] at hf
            exact (h f (List.mem_append_right _ hf)).mono hle
      · have hended := not_exists.mp hgoes
        rw [Semantics.observe_cons_of_ended _ hended, Semantics.run_cons_of_ended _ hended, hop]
        obtain ⟨r1, hexec⟩ | ⟨msg, hexec⟩ | hexec | hexec := eq_of_ended hended
        · rw [hexec]
          exact ⟨List.append_nil _, congrArg done (hcursor true r1 hexec)⟩
        all_goals
          rw [hexec]
          exact ⟨List.append_nil _, rfl⟩

/-- The variables before the first opcode, but for the cursor. -/
def rebaseStart (mem : Mem) (address segEnd : Addr) : Rebasing := ⟨mem, 0, 0, address, segEnd⟩

/-- The words that are rebased stay clear of the stream. -/
def RebasesClear (mem : Mem) (obj : MachObject) (start stop : Addr) : Prop :=
  ∀ f ∈ readRebaseFixups mem obj start stop, f.2.ClearOf start stop

/-- **A stream that is not rebased itself runs as its instructions.** -/
theorem readRebase_eq {mem : Mem} {start address segEnd : Addr}
    (haddress : segActualLoadAddr obj 0 = done address)
    (hsegEnd : segActualEndAddr obj 0 = done segEnd)
    (hclear : RebasesClear mem obj start stop ∨
      ∀ f ∈ (rebaseSemantics obj).observe (decodeRebase (mem.slice start stop))
        (rebaseStart mem address segEnd), f.ClearOf start stop) :
    (readRebaseFixups mem obj start stop).map (fun f => f.2.at 0) =
        (rebaseSemantics obj).observe (decodeRebase (mem.slice start stop))
          (rebaseStart mem address segEnd) ∧
      readRebase mem obj start stop =
        ((rebaseSemantics obj).run (decodeRebase (mem.slice start stop))
          (rebaseStart mem address segEnd) >>= fun v => done v.2.mem) := by
  have hfuel : (mem.slice start stop).length < stop.toNat - start.toNat + 1 := by
    rw [length_slice]
    exact Nat.lt_succ_self _
  unfold RebasesClear at hclear
  unfold readRebaseFixups readRebase at *
  rw [haddress, hsegEnd] at *
  obtain ⟨hfixups, hrun⟩ :=
    readRebaseLoop_eq (r := ⟨mem, start, 0, address, segEnd⟩) rfl hfuel hclear
  refine ⟨hfixups, ?_⟩
  have hmem := congrArg (fun x => x >>= fun r => done r.mem) hrun
  simp only [bind_bind, done_bind] at hmem
  exact hmem

end LibSystem.Lnk
