import LibSystem.Lnk.StreamReads

/-!
# Where the interpreters leave their stream

`readRebase`, `readBind`, `readLazyBind` and `readWeakBind` return or halt and read only what is
in their stream, exactly if each opcode that they come to finds what it needs there.
-/

namespace LibSystem.Lnk

open Outcome Access Region

/-! ## What an opcode needs -/

/-- What an opcode of a bind stream needs, where the interpreter knows the opcodes of the list
`known` and makes the binds `fixups`: a segment that is there, a name that ends in the stream, for
the message about an unknown opcode a byte behind it, and what its binds need. -/
structure TurnOk (obj : MachObject) (known : List Byte) (fixups : List Binding)
    (ok : Binding → Prop) (start stop : Addr) (b : Binding) : Prop where
  segment : b.opcode = bindOpcodeSetSegmentAndOffsetUleb →
    b.immediate.toNat < obj.fSegmentLoadCommands.length
  name : b.opcode = bindOpcodeSetSymbolTrailingFlagsImm →
    Terminated ⟨b.s.mem, start, stop⟩ (b.pos + 1)
  unknown : b.opcode ∉ known → b.pos + 1 < stop
  binds : ∀ f ∈ fixups, ok f

def knownBindOpcodes : List Byte :=
  bindOpcodeDone :: bindOpcodeSetDylibSpecialImm :: (setOpcodes ++ doBindOpcodes)

def knownWeakBindOpcodes : List Byte := bindOpcodeDone :: (setOpcodes ++ doBindOpcodes)

def knownLazyBindOpcodes : List Byte :=
  bindOpcodeDone :: bindOpcodeSetDylibSpecialImm :: bindOpcodeDoBind :: setOpcodes

def readWeakBindOpFixups (obj : MachObject) (stop : Addr) (b : Binding) : List Binding :=
  doBindOpcodeFixups stop b.opcode { b with pos := b.pos + 1 } (weakBindOne obj)

section TurnOk

variable {fuel : Nat} {this : ImageId} {obj : MachObject} {start stop : Addr} {b : Binding}
variable {known ways : List Byte} {fixups : List Binding} {ok : Binding → Prop}

theorem TurnOk.of_known (hknown : b.opcode ∈ known) (hset : b.opcode ∉ setOpcodes)
    (hfixups : fixups = []) : TurnOk obj known fixups ok start stop b where
  segment h := absurd (by rw [h]; decide) hset
  name h := absurd (by rw [h]; decide) hset
  unknown h := absurd hknown h
  binds := by simp [hfixups]

theorem turnOk_iff (hb : start ≤ b.pos ∧ b.pos < stop)
    (hknown : b.opcode ∈ known ↔ b.opcode ∈ setOpcodes ∨ b.opcode ∈ ways)
    (hfixups : b.opcode ∈ setOpcodes → fixups = []) :
    ((b.opcode = bindOpcodeSetSegmentAndOffsetUleb →
        b.immediate.toNat < obj.fSegmentLoadCommands.length) ∧
      (b.opcode = bindOpcodeSetSymbolTrailingFlagsImm →
        Terminated ⟨b.s.mem, start, stop⟩ (b.pos + 1)) ∧
      (b.opcode ∉ setOpcodes → (∀ f ∈ fixups, ok f) ∧
        (b.opcode ∉ ways → Inside ⟨b.s.mem, start, stop⟩ (b.pos + 1)))) ↔
      TurnOk obj known fixups ok start stop b := by
  have hinside : Inside ⟨b.s.mem, start, stop⟩ (b.pos + 1) ↔ b.pos + 1 < stop :=
    and_iff_right_of_imp fun _ => by bv_omega
  constructor
  · rintro ⟨hsegment, hname, hrest⟩
    refine ⟨hsegment, hname, fun hunknown => ?_, fun f hf => ?_⟩
    · obtain ⟨hset, hways⟩ := not_or.mp (mt hknown.mpr hunknown)
      exact hinside.mp ((hrest hset).2 hways)
    · by_cases hset : b.opcode ∈ setOpcodes
      · simp [hfixups hset] at hf
      · exact (hrest hset).1 f hf
  · rintro ⟨hsegment, hname, hunknown, hbinds⟩
    refine ⟨hsegment, hname, fun hset => ⟨hbinds, fun hways => ?_⟩⟩
    exact hinside.mpr (hunknown (mt hknown.mp (not_or.mpr ⟨hset, hways⟩)))

theorem doBindOpcodeFixups_eq_nil {opcode : Byte} {one : Word → Binding → Outcome Binding}
    (h : opcode ∉ doBindOpcodes) : doBindOpcodeFixups stop opcode b one = [] := by
  simp only [doBindOpcodes, List.mem_cons, List.not_mem_nil, or_false, not_or] at h
  obtain ⟨h1, h2, h3, h4⟩ := h
  rw [doBindOpcodeFixups, if_neg h1, if_neg h2, if_neg h3, if_neg h4]

theorem not_mem_doBindOpcodes {opcode : Byte} (h : opcode ∈ setOpcodes) :
    opcode ∉ doBindOpcodes := by
  revert opcode
  decide

/-! ## One opcode -/

theorem bindOne_keeps_pos {step : Word} {b' : Binding}
    (h : bindOne fuel this obj step b = done b') : b'.pos = b.pos := by
  obtain ⟨-, value, count, rfl⟩ := bindOne_eq_done h
  rfl

theorem weakBindOne_eq_done {step : Word} {b' : Binding} (h : weakBindOne obj step b = done b') :
    b' = { b with address := b.address + step } := by
  obtain ⟨u, -, h⟩ := bind_eq_done.mp h
  exact (done.inj h).symm

theorem settles_invalidOpcode_iff {T : Region} {msg : String} :
    (T.go (Stream.invalidOpcode b msg)).Settles ↔ T.Inside b.pos :=
  settles_go_byte.trans (and_iff_left (settles_halt msg))

theorem settles_readBindOp_iff (hb : start ≤ b.pos ∧ b.pos < stop) (hfuel : stop.toNat < fuel) :
    (Region.go ⟨b.s.mem, start, stop⟩ (Stream.readBindOp fuel this obj stop b.forget)).Settles ↔
      TurnOk obj knownBindOpcodes (readBindOpFixups fuel this obj stop b)
        (BindOk fuel this obj start stop) start stop b := by
  have hin : Inside ⟨b.s.mem, start, stop⟩ b.pos := hb
  have hcursor : Cursor ⟨b.s.mem, start, stop⟩ (b.pos + 1) := hin.next
  rw [Stream.readBindOp, settles_go_byte]
  refine (and_iff_right hin).trans ?_
  change (Region.go _ (if b.opcode = _ then _ else if b.opcode = _ then _ else _)).Settles ↔ _
  split
  · rename_i h
    refine iff_of_true (settles_go_pure _) (.of_known (by rw [h]; decide) (by rw [h]; decide) ?_)
    exact doBindOpcodeFixups_eq_nil (by change b.opcode ∉ _; rw [h]; decide)
  split
  · rename_i h
    refine iff_of_true (settles_go_pure _) (.of_known (by rw [h]; decide) (by rw [h]; decide) ?_)
    exact doBindOpcodeFixups_eq_nil (by change b.opcode ∉ _; rw [h]; decide)
  · rename_i hdone hspecial
    have hknown : b.opcode ∈ knownBindOpcodes ↔
        b.opcode ∈ setOpcodes ∨ b.opcode ∈ doBindOpcodes := by
      simp [knownBindOpcodes, hdone, hspecial]
    refine Iff.trans ?_ (turnOk_iff hb hknown fun h =>
      doBindOpcodeFixups_eq_nil (not_mem_doBindOpcodes h))
    refine (settles_setOpcode_iff hcursor (by dsimp only; omega)).trans ?_
    refine and_congr_right fun _ => and_congr_right fun _ => forall_congr' fun _ => ?_
    refine (settles_doBindOpcode_iff (b := { b with pos := b.pos + 1 }) hcursor
      (fun step b => Stream.runs_bindOne fuel this obj step b)
      (fun step b => settles_bindOne_iff hfuel) (fun step b b' h => bindOne_keeps_pos h)).trans ?_
    exact and_congr_right fun _ => forall_congr' fun _ => settles_invalidOpcode_iff

theorem settles_readWeakBindOp_iff (hb : start ≤ b.pos ∧ b.pos < stop)
    (hfuel : stop.toNat < fuel) :
    (Region.go ⟨b.s.mem, start, stop⟩ (Stream.readWeakBindOp fuel obj stop b.forget)).Settles ↔
      TurnOk obj knownWeakBindOpcodes (readWeakBindOpFixups obj stop b)
        (fun f => (checkAddress obj f).Settles) start stop b := by
  have hin : Inside ⟨b.s.mem, start, stop⟩ b.pos := hb
  have hcursor : Cursor ⟨b.s.mem, start, stop⟩ (b.pos + 1) := hin.next
  rw [Stream.readWeakBindOp, settles_go_byte]
  refine (and_iff_right hin).trans ?_
  change (Region.go _ (if b.opcode = _ then _ else _)).Settles ↔ _
  split
  · rename_i h
    refine iff_of_true (settles_go_pure _) (.of_known (by rw [h]; decide) (by rw [h]; decide) ?_)
    exact doBindOpcodeFixups_eq_nil (by rw [h]; decide)
  · rename_i hdone
    have hknown : b.opcode ∈ knownWeakBindOpcodes ↔
        b.opcode ∈ setOpcodes ∨ b.opcode ∈ doBindOpcodes := by
      simp [knownWeakBindOpcodes, hdone]
    refine Iff.trans ?_ (turnOk_iff hb hknown fun h =>
      doBindOpcodeFixups_eq_nil (not_mem_doBindOpcodes h))
    refine (settles_setOpcode_iff hcursor (by dsimp only; omega)).trans ?_
    refine and_congr_right fun _ => and_congr_right fun _ => forall_congr' fun _ => ?_
    refine (settles_doBindOpcode_iff (b := { b with pos := b.pos + 1 }) hcursor
      (fun step b => Program.runs_weakBindOne obj step b) (fun step b => settles_weakBindOne_iff)
      (fun step b b' h => by rw [weakBindOne_eq_done h])).trans ?_
    exact and_congr_right fun _ => forall_congr' fun _ => settles_invalidOpcode_iff

theorem settles_readLazyBindOp_iff (hb : start ≤ b.pos ∧ b.pos < stop)
    (hfuel : stop.toNat < fuel) :
    (Region.go ⟨b.s.mem, start, stop⟩
        (Stream.readLazyBindOp fuel this obj stop b.forget)).Settles ↔
      TurnOk obj knownLazyBindOpcodes (readLazyBindOpFixups b)
        (BindOk fuel this obj start stop) start stop b := by
  have hin : Inside ⟨b.s.mem, start, stop⟩ b.pos := hb
  have hcursor : Cursor ⟨b.s.mem, start, stop⟩ (b.pos + 1) := hin.next
  have hnone : b.opcode ≠ bindOpcodeDoBind → readLazyBindOpFixups b = [] := fun h => if_neg h
  rw [Stream.readLazyBindOp, settles_go_byte]
  refine (and_iff_right hin).trans ?_
  change (Region.go _ (if b.opcode = _ then _ else if b.opcode = _ then _ else _)).Settles ↔ _
  split
  · rename_i h
    refine iff_of_true (settles_go_pure _) (.of_known (by rw [h]; decide) (by rw [h]; decide) ?_)
    exact hnone (by rw [h]; decide)
  split
  · rename_i h
    refine iff_of_true (settles_go_pure _) (.of_known (by rw [h]; decide) (by rw [h]; decide) ?_)
    exact hnone (by rw [h]; decide)
  · rename_i hdone hspecial
    have hknown : b.opcode ∈ knownLazyBindOpcodes ↔
        b.opcode ∈ setOpcodes ∨ b.opcode ∈ [bindOpcodeDoBind] := by
      simp [knownLazyBindOpcodes, hdone, hspecial, or_comm]
    have hset : b.opcode ∈ setOpcodes → b.opcode ≠ bindOpcodeDoBind := by
      rintro hmem h
      rw [h] at hmem
      exact absurd hmem (by decide)
    refine Iff.trans ?_ (turnOk_iff hb hknown fun h => hnone (hset h))
    refine (settles_setOpcode_iff hcursor (by dsimp only; omega)).trans ?_
    refine and_congr_right fun _ => and_congr_right fun _ => forall_congr' fun _ => ?_
    change (Region.go _ (if b.opcode = _ then _ else _)).Settles ↔ _
    split
    · rename_i h
      have hfixups : readLazyBindOpFixups b = [{ b with pos := b.pos + 1 }] := if_pos h
      rw [go_bind, settles_bind, and_iff_left fun _ _ => settles_go_pure _, hfixups,
        List.forall_mem_singleton]
      refine (settles_bindOne_iff (b := { b with pos := b.pos + 1 }) hfuel).trans ?_
      exact (and_iff_left fun hne => absurd (List.mem_singleton.mpr h) hne).symm
    · rename_i h
      refine settles_invalidOpcode_iff.trans ?_
      simp [hnone h, h]
      rfl

/-! ## The cursor -/

/-- The cursor does not go back, and not beyond the end. -/
def Advances (stop pos : Addr) (v : Bool × Binding) : Prop := pos ≤ v.2.pos ∧ v.2.pos ≤ stop

theorem setOpcode_advances {opcode immediate : Byte} {other : Outcome (Bool × Binding)}
    (hb : start ≤ b.pos ∧ b.pos ≤ stop)
    (hname : opcode = bindOpcodeSetSymbolTrailingFlagsImm →
      Terminated ⟨b.s.mem, start, stop⟩ b.pos)
    (hother : other.Ensures (Advances stop b.pos)) :
    (setOpcode fuel obj stop opcode immediate b other).Ensures (Advances stop b.pos) := by
  have hcursor : Cursor ⟨b.s.mem, start, stop⟩ b.pos := hb
  have hstay : b.pos ≤ b.pos ∧ b.pos ≤ stop := ⟨BitVec.le_refl _, hb.2⟩
  have huleb : ∀ n, readUleb128 b.s.mem b.pos stop = done n → b.pos ≤ n.2 ∧ n.2 ≤ stop := by
    intro n hn
    obtain ⟨hlt, -, hle⟩ := hcursor.readUleb128 hn
    exact ⟨BitVec.le_of_lt hlt, hle⟩
  unfold setOpcode
  refine .ite (fun _ => .done hstay) fun _ => .ite (fun _ => ?_) fun _ =>
    .ite (fun _ => .done hstay) fun _ => .ite (fun _ => ?_) fun _ =>
    .ite (fun _ => ?_) fun _ => .ite (fun _ => ?_) fun _ => .ite (fun hsym => ?_) fun _ => hother
  · exact .bind fun n hn => .done (huleb n hn)
  · refine .bind fun n hn => .done ?_
    obtain ⟨hlt, -, hle⟩ := readSleb128Loop_cursor hcursor hn
    exact ⟨BitVec.le_of_lt hlt, hle⟩
  · exact .bind fun n hn => .done (huleb n hn)
  · exact .bind fun _ _ => .bind fun n hn => .bind fun _ _ => .done (huleb n hn)
  · refine .bind fun pos hpos => .done ?_
    obtain ⟨hle, hin⟩ := (hname hsym).skipString hpos
    have hnext : (pos + 1).toNat = pos.toNat + 1 ∧ pos.toNat + 1 ≤ stop.toNat := hin.toNat_next
    constructor
    · change b.pos ≤ pos + 1
      bv_omega
    · change pos + 1 ≤ stop
      bv_omega

theorem bindTimes_keeps_pos {one : Binding → Outcome Binding}
    (hone : ∀ b b', one b = done b' → b'.pos = b.pos) (count : Nat) :
    (bindTimes one count b).Ensures fun b' => b'.pos = b.pos := by
  induction count generalizing b with
  | zero => exact .done rfl
  | succ count ih => exact .bind fun b1 h b' h' => (ih b' h').trans (hone b b1 h)

theorem doBindOpcode_advances {opcode immediate : Byte} {msg : String}
    {one : Word → Binding → Outcome Binding} (hb : b.pos ≤ stop)
    (hone : ∀ step b b', one step b = done b' → b'.pos = b.pos) :
    (doBindOpcode stop opcode immediate b one (.halt msg)).Ensures (Advances stop b.pos) := by
  have hstay : ∀ step b1, one step b = done b1 → Advances stop b.pos (false, b1) := by
    intro step b1 h
    unfold Advances
    rw [hone step b b1 h]
    exact ⟨BitVec.le_refl _, hb⟩
  unfold doBindOpcode
  refine .ite (fun _ => ?_) fun _ => .ite (fun _ => ?_) fun _ => .ite (fun _ => ?_) fun _ =>
    .ite (fun _ => ?_) fun _ => .halt _
  · exact .bind fun b1 h => .done (hstay _ b1 h)
  · refine .bind fun b1 h => .bind fun n hn => .done ?_
    obtain ⟨hlt, hle⟩ := readUleb128Loop_cursor (by rw [hone _ b b1 h]; exact hb) hn
    rw [hone _ b b1 h] at hlt
    exact ⟨BitVec.le_of_lt hlt, hle⟩
  · exact .bind fun b1 h => .done (hstay _ b1 h)
  · refine .bind fun count hcount => .bind fun skip hskip => .bind fun b1 h => .done ?_
    obtain ⟨hlt, hle⟩ := readUleb128Loop_cursor hb hcount
    obtain ⟨hlt', hle'⟩ := readUleb128Loop_cursor hle hskip
    have hpos : b1.pos = skip.2 := bindTimes_keeps_pos (hone (skip.1 + 4)) _ b1 h
    unfold Advances
    rw [hpos]
    exact ⟨BitVec.le_of_lt (BitVec.lt_trans hlt hlt'), hle'⟩

theorem readBindOp_advances (hb : start ≤ b.pos ∧ b.pos < stop)
    (h : TurnOk obj known fixups ok start stop b) :
    (readBindOp fuel this obj stop b).Ensures (Advances stop (b.pos + 1)) := by
  have hnext : Cursor ⟨b.s.mem, start, stop⟩ (b.pos + 1) := Inside.next hb
  have hstay : b.pos + 1 ≤ b.pos + 1 ∧ b.pos + 1 ≤ stop := ⟨BitVec.le_refl _, hnext.2⟩
  exact .ite (fun _ => .done hstay) fun _ => .ite (fun _ => .done hstay) fun _ =>
    setOpcode_advances (b := { b with pos := b.pos + 1 }) hnext h.name
      (doBindOpcode_advances hnext.2 fun step b b' h => bindOne_keeps_pos h)

theorem readWeakBindOp_advances (hb : start ≤ b.pos ∧ b.pos < stop)
    (h : TurnOk obj known fixups ok start stop b) :
    (readWeakBindOp fuel obj stop b).Ensures (Advances stop (b.pos + 1)) := by
  have hnext : Cursor ⟨b.s.mem, start, stop⟩ (b.pos + 1) := Inside.next hb
  exact .ite (fun _ => .done ⟨BitVec.le_refl _, hnext.2⟩) fun _ =>
    setOpcode_advances (b := { b with pos := b.pos + 1 }) hnext h.name
      (doBindOpcode_advances hnext.2 fun step b b' h => by rw [weakBindOne_eq_done h])

theorem readLazyBindOp_advances (hb : start ≤ b.pos ∧ b.pos < stop)
    (h : TurnOk obj known fixups ok start stop b) :
    (readLazyBindOp fuel this obj stop b).Ensures (Advances stop (b.pos + 1)) := by
  have hnext : Cursor ⟨b.s.mem, start, stop⟩ (b.pos + 1) := Inside.next hb
  have hstay : b.pos + 1 ≤ b.pos + 1 ∧ b.pos + 1 ≤ stop := ⟨BitVec.le_refl _, hnext.2⟩
  refine .ite (fun _ => .done hstay) fun _ => .ite (fun _ => .done hstay) fun _ =>
    setOpcode_advances (b := { b with pos := b.pos + 1 }) hnext h.name ?_
  refine .ite (fun _ => .bind fun b1 hone => .done ?_) fun _ => .halt _
  unfold Advances
  rw [bindOne_keeps_pos hone]
  exact hstay

end TurnOk

section Rebase

variable {obj : MachObject} {start stop : Addr} {r : Rebasing}

def knownRebaseOpcodes : List Byte :=
  [rebaseOpcodeDone, rebaseOpcodeSetTypeImm, rebaseOpcodeSetSegmentAndOffsetUleb,
    rebaseOpcodeAddAddrUleb, rebaseOpcodeAddAddrImmScaled, rebaseOpcodeDoRebaseImmTimes,
    rebaseOpcodeDoRebaseUlebTimes, rebaseOpcodeDoRebaseAddAddrUleb,
    rebaseOpcodeDoRebaseUlebTimesSkippingUleb]

/-- What an opcode of a rebase stream needs. -/
structure RebaseTurnOk (obj : MachObject) (stop : Addr) (r : Rebasing) : Prop where
  segment : r.opcode = rebaseOpcodeSetSegmentAndOffsetUleb →
    r.immediate.toNat ≠ obj.fSegmentLoadCommands.length
  unknown : r.opcode ∉ knownRebaseOpcodes → r.p + 1 < stop

theorem RebaseTurnOk.of_known (hknown : r.opcode ∈ knownRebaseOpcodes)
    (hsegment : r.opcode ≠ rebaseOpcodeSetSegmentAndOffsetUleb) : RebaseTurnOk obj stop r where
  segment h := absurd h hsegment
  unknown h := absurd hknown h

theorem settles_rebaseOne (T : Region) (step : Word) (r : Rebasing) :
    (T.go (Stream.rebaseOne obj step r)).Settles := by
  unfold Stream.rebaseOne
  split
  · exact settles_halt _
  rw [go_bind, settles_bind, and_iff_left fun _ _ => settles_go_pure _]
  unfold Stream.rebaseAt
  split
  · exact settles_done _
  split
  · exact settles_done _
  · exact settles_halt _

theorem settles_rebaseTimes (T : Region) (step : Word) (count : Nat) (r : Rebasing) :
    (T.go (Stream.rebaseTimes obj step count r)).Settles := by
  induction count generalizing T r with
  | zero => exact settles_go_pure _
  | succ count ih =>
    rw [Stream.rebaseTimes, go_bind, settles_bind]
    exact ⟨settles_rebaseOne T step r, fun r1 _ => ih _ _⟩

theorem settles_rebaseOne_uleb (hcursor : Cursor ⟨r.mem, start, stop⟩ r.p) {step : Word}
    (f : Rebasing → Word × Addr → Bool × Rebasing) :
    (Region.go ⟨r.mem, start, stop⟩ (Stream.rebaseOne obj step r.forget >>= fun r =>
      Program.readUleb128 r.p stop >>= fun v => pure (f r v))).Settles := by
  rw [go_bind, settles_bind]
  refine ⟨settles_rebaseOne _ _ _, fun v hv => ?_⟩
  have hruns := Stream.runs_rebaseOne obj step r
  obtain ⟨r1, hone, hv⟩ := bind_eq_done.mp
    ((go_of_settles hruns (settles_rebaseOne ⟨r.mem, start, stop⟩ step _)).symm.trans hv)
  obtain rfl := done.inj hv
  have hcursor1 : Cursor ⟨r1.mem, start, stop⟩ r1.p := by
    rw [rebaseOne_p hone]
    exact hcursor
  exact (settles_uleb_iff hcursor1).mpr fun _ _ _ => settles_go_pure _

theorem settles_readRebaseOp_iff (hr : start ≤ r.p ∧ r.p < stop) :
    (Region.go ⟨r.mem, start, stop⟩ (Stream.readRebaseOp obj stop r.forget)).Settles ↔
      RebaseTurnOk obj stop r := by
  have hin : Inside ⟨r.mem, start, stop⟩ r.p := hr
  have hcursor : Cursor ⟨r.mem, start, stop⟩ (r.p + 1) := hin.next
  have htimes : ∀ (T : Region) (step : Word) (count : Nat) (r : Rebasing),
      (T.go (Stream.rebaseTimes obj step count r >>= fun r => pure (false, r))).Settles := by
    intro T step count r
    rw [go_bind, settles_bind]
    exact ⟨settles_rebaseTimes T step count r, fun _ _ => settles_go_pure _⟩
  rw [Stream.readRebaseOp, settles_go_byte]
  refine (and_iff_right hin).trans ?_
  change (Region.go _ (if r.opcode = _ then _ else if r.opcode = _ then _ else
    if r.opcode = _ then _ else if r.opcode = _ then _ else if r.opcode = _ then _ else
    if r.opcode = _ then _ else if r.opcode = _ then _ else if r.opcode = _ then _ else
    if r.opcode = _ then _ else _)).Settles ↔ _
  split
  · rename_i h
    exact iff_of_true (settles_go_pure _) (.of_known (by rw [h]; decide) (by rw [h]; decide))
  split
  · rename_i h
    exact iff_of_true (settles_go_pure _) (.of_known (by rw [h]; decide) (by rw [h]; decide))
  split
  · rename_i h
    have hok : RebaseTurnOk obj stop r ↔
        r.immediate.toNat ≠ obj.fSegmentLoadCommands.length :=
      ⟨fun hturn => hturn.segment h, fun hne =>
        ⟨fun _ => hne, fun hunknown => absurd (by rw [h]; decide) hunknown⟩⟩
    rw [hok]
    change (Region.go _ (if _ < r.immediate.toNat then _ else _)).Settles ↔ _
    split
    · exact iff_of_true (settles_halt _) (by omega)
    · refine (settles_segment_iff hcursor).trans ?_
      change r.immediate.toNat < _ ↔ _
      omega
  split
  · rename_i h
    refine iff_of_true ?_ (.of_known (by rw [h]; decide) (by rw [h]; decide))
    exact (settles_uleb_iff hcursor).mpr fun _ _ _ => settles_go_pure _
  split
  · rename_i h
    exact iff_of_true (settles_go_pure _) (.of_known (by rw [h]; decide) (by rw [h]; decide))
  split
  · rename_i h
    refine iff_of_true ?_ (.of_known (by rw [h]; decide) (by rw [h]; decide))
    exact htimes _ _ _ _
  split
  · rename_i h
    refine iff_of_true ?_ (.of_known (by rw [h]; decide) (by rw [h]; decide))
    exact (settles_uleb_iff hcursor).mpr fun _ _ _ => htimes _ _ _ _
  split
  · rename_i h
    refine iff_of_true ?_ (.of_known (by rw [h]; decide) (by rw [h]; decide))
    have hmoved : Cursor ⟨({ r with p := r.p + 1 } : Rebasing).mem, start, stop⟩ (r.p + 1) :=
      hcursor
    exact settles_rebaseOne_uleb hmoved _
  split
  · rename_i h
    refine iff_of_true ?_ (.of_known (by rw [h]; decide) (by rw [h]; decide))
    refine (settles_uleb_iff hcursor).mpr fun count p hcount => ?_
    exact (settles_uleb_iff (hcursor.readUleb128 hcount).2).mpr fun _ _ _ => htimes _ _ _ _
  · rename_i h1 h2 h3 h4 h5 h6 h7 h8 h9
    have hunknown : r.opcode ∉ knownRebaseOpcodes := by
      simp [knownRebaseOpcodes, h1, h2, h3, h4, h5, h6, h7, h8, h9]
    refine settles_go_byte.trans ((and_iff_left (settles_halt _)).trans ?_)
    exact ⟨fun hnext => ⟨fun h => absurd h h3, fun _ => hnext.2⟩,
      fun hturn => ⟨hcursor.1, hturn.unknown hunknown⟩⟩

end Rebase

/-! ## The runs -/

/-- What an opcode of `readRebase` reads of the stream. -/
def readRebaseReads (obj : MachObject) (stop : Addr) (r : Rebasing) : List Addr :=
  (Stream.readRebaseOp obj stop r.forget).looks r.mem

def readBindReads (fuel : Nat) (this : ImageId) (obj : MachObject) (stop : Addr) (b : Binding) :
    List Addr :=
  (Stream.readBindOp fuel this obj stop b.forget).looks b.s.mem

def readWeakBindReads (fuel : Nat) (obj : MachObject) (stop : Addr) (b : Binding) : List Addr :=
  (Stream.readWeakBindOp fuel obj stop b.forget).looks b.s.mem

def readLazyBindReads (fuel : Nat) (this : ImageId) (obj : MachObject) (stop : Addr)
    (b : Binding) : List Addr :=
  (Stream.readLazyBindOp fuel this obj stop b.forget).looks b.s.mem

def readWeakBindTurns (fuel : Nat) (s : Linker) (obj : MachObject) (start stop : Addr) :
    List Binding :=
  turns (fun b : Binding => b.pos < stop) (readWeakBindOp fuel obj stop) fuel (.start s start 0)

/-- All of them are in the stream. -/
def InStream (start stop : Addr) (reads : List Addr) : Prop := ∀ a ∈ reads, start ≤ a ∧ a < stop

section Runs

variable {fuel : Nat} {s : Linker} {this : ImageId} {obj : MachObject} {start stop : Addr}

theorem bindLoop_settles_iff {op : Binding → Outcome (Bool × Binding)}
    {reads : Binding → List Addr} {C : Binding → Prop} {b : Binding}
    (hturn : ∀ b, start ≤ b.pos ∧ b.pos < stop →
      ((op b).Settles ∧ InStream start stop (reads b) ↔ C b))
    (hadvances : ∀ b, start ≤ b.pos ∧ b.pos < stop → C b →
      (op b).Ensures (Advances stop (b.pos + 1)))
    (hb : b.pos = start) (hfuel : stop.toNat < fuel) :
    ((bindLoop op stop fuel b).Settles ∧
        ∀ t ∈ turns (fun b : Binding => b.pos < stop) op fuel b, InStream start stop (reads t)) ↔
      ∀ t ∈ turns (fun b : Binding => b.pos < stop) op fuel b, C t := by
  rw [bindLoop_eq_loop]
  refine loop_settles_iff (fun b => start ≤ b.pos) (fun b => stop.toNat - b.pos.toNat) ?_ ?_ ?_ ?_
  · exact fun t ht hgo => hturn t ⟨ht, hgo⟩
  · intro t ht hgo hC v hv
    obtain ⟨hle, hstop⟩ := hadvances t ⟨ht, hgo⟩ hC v hv
    constructor
    · bv_omega
    · bv_omega
  · exact BitVec.le_of_eq hb.symm
  · omega

theorem readBind_settles_iff (hfuel : stop.toNat < fuel) :
    ((readBind fuel s this obj start stop).Settles ∧
        ∀ b ∈ readBindTurns fuel s this obj start stop,
          InStream start stop (readBindReads fuel this obj stop b)) ↔
      ∀ b ∈ readBindTurns fuel s this obj start stop,
        TurnOk obj knownBindOpcodes (readBindOpFixups fuel this obj stop b)
          (BindOk fuel this obj start stop) start stop b := by
  unfold readBind
  rw [settles_bind, and_iff_left fun _ _ => settles_done _]
  refine bindLoop_settles_iff (fun b hb => ?_) (fun b hb h => readBindOp_advances hb h) rfl hfuel
  exact (settles_go_iff (T := ⟨b.s.mem, start, stop⟩)
    (Stream.runs_readBindOp fuel this obj stop b)).symm.trans (settles_readBindOp_iff hb hfuel)

theorem readWeakBind_settles_iff (hfuel : stop.toNat < fuel) :
    ((readWeakBind fuel s obj start stop).Settles ∧
        ∀ b ∈ readWeakBindTurns fuel s obj start stop,
          InStream start stop (readWeakBindReads fuel obj stop b)) ↔
      ∀ b ∈ readWeakBindTurns fuel s obj start stop,
        TurnOk obj knownWeakBindOpcodes (readWeakBindOpFixups obj stop b)
          (fun f => (checkAddress obj f).Settles) start stop b := by
  unfold readWeakBind
  rw [settles_bind, and_iff_left fun _ _ => settles_done _]
  refine bindLoop_settles_iff (fun b hb => ?_) (fun b hb h => readWeakBindOp_advances hb h) rfl
    hfuel
  exact (settles_go_iff (T := ⟨b.s.mem, start, stop⟩)
    (Stream.runs_readWeakBindOp fuel obj stop b)).symm.trans (settles_readWeakBindOp_iff hb hfuel)

theorem readLazyBind_settles_iff (hfuel : stop.toNat < fuel) :
    ((readLazyBind fuel s this obj start stop).Settles ∧
        ∀ b ∈ readLazyBindTurns fuel s this obj start stop,
          InStream start stop (readLazyBindReads fuel this obj stop b)) ↔
      ∀ b ∈ readLazyBindTurns fuel s this obj start stop,
        TurnOk obj knownLazyBindOpcodes (readLazyBindOpFixups b)
          (BindOk fuel this obj start stop) start stop b := by
  unfold readLazyBind
  rw [settles_bind, and_iff_left fun _ _ => settles_done _]
  refine bindLoop_settles_iff (fun b hb => ?_) (fun b hb h => readLazyBindOp_advances hb h) rfl
    hfuel
  exact (settles_go_iff (T := ⟨b.s.mem, start, stop⟩)
    (Stream.runs_readLazyBindOp fuel this obj stop b)).symm.trans
      (settles_readLazyBindOp_iff hb hfuel)

theorem readRebase_settles_iff (mem : Mem) :
    ((readRebase mem obj start stop).Settles ∧
        ∀ r ∈ readRebaseTurns mem obj start stop,
          InStream start stop (readRebaseReads obj stop r)) ↔
      0 < obj.fSegmentLoadCommands.length ∧
        ∀ r ∈ readRebaseTurns mem obj start stop, RebaseTurnOk obj stop r := by
  by_cases hsegments : 0 < obj.fSegmentLoadCommands.length
  · obtain ⟨address, haddress⟩ := segActualLoadAddr_of_lt hsegments
    obtain ⟨segEnd, hsegEnd⟩ := segActualEndAddr_of_lt hsegments
    unfold readRebase readRebaseTurns
    rw [haddress, hsegEnd, done_bind, done_bind, settles_bind,
      and_iff_left fun _ _ => settles_done _, and_iff_right hsegments, readRebaseLoop_eq_loop]
    refine loop_settles_iff (fun r => start ≤ r.p) (fun r => stop.toNat - r.p.toNat) ?_ ?_ ?_ ?_
    · intro r hr hgo
      have hruns := Stream.runs_readRebaseOp obj stop r
      exact (settles_go_iff (T := ⟨r.mem, start, stop⟩) hruns).symm.trans
        (settles_readRebaseOp_iff ⟨hr, hgo⟩)
    · rintro r hr hgo - ⟨finished, r1⟩ hop
      obtain ⟨hlt, hle⟩ := (readRebaseOp_moves obj hgo).2 finished r1 hop
      constructor
      · bv_omega
      · bv_omega
    · exact BitVec.le_refl _
    · exact Nat.lt_succ_self _
  · have hfault : readRebase mem obj start stop = .fault := by
      unfold readRebase
      rw [segActualLoadAddr_of_le (Nat.not_lt.mp hsegments), fault_bind]
    rw [hfault]
    simp [hsegments]

theorem eventually_congr {P Q : Nat → Prop} {n : Nat} (h : ∀ k, n < k → (P k ↔ Q k)) :
    (∃ m, ∀ k ≥ m, P k) ↔ ∃ m, ∀ k ≥ m, Q k := by
  constructor
  · rintro ⟨m, hm⟩
    exact ⟨max m (n + 1), fun k hk => (h k (by omega)).mp (hm k (by omega))⟩
  · rintro ⟨m, hm⟩
    exact ⟨max m (n + 1), fun k hk => (h k (by omega)).mpr (hm k (by omega))⟩

end Runs

/-- **The interpreters and their streams.** An interpreter returns or halts, and reads opcodes,
operands and names in the stream only, exactly if every opcode that it comes to has what it needs.
For the bind opcodes this holds with enough fuel. -/
theorem streams_inside_iff (mem : Mem) (s : Linker) (this : ImageId) (obj : MachObject)
    (start stop : Addr) :
    ((readRebase mem obj start stop).Settles ∧
        (∀ r ∈ readRebaseTurns mem obj start stop,
          InStream start stop (readRebaseReads obj stop r)) ↔
      0 < obj.fSegmentLoadCommands.length ∧
        ∀ r ∈ readRebaseTurns mem obj start stop, RebaseTurnOk obj stop r) ∧
    ((∃ n, ∀ fuel ≥ n, (readBind fuel s this obj start stop).Settles ∧
        ∀ b ∈ readBindTurns fuel s this obj start stop,
          InStream start stop (readBindReads fuel this obj stop b)) ↔
      ∃ n, ∀ fuel ≥ n, ∀ b ∈ readBindTurns fuel s this obj start stop,
        TurnOk obj knownBindOpcodes (readBindOpFixups fuel this obj stop b)
          (BindOk fuel this obj start stop) start stop b) ∧
    ((∃ n, ∀ fuel ≥ n, (readLazyBind fuel s this obj start stop).Settles ∧
        ∀ b ∈ readLazyBindTurns fuel s this obj start stop,
          InStream start stop (readLazyBindReads fuel this obj stop b)) ↔
      ∃ n, ∀ fuel ≥ n, ∀ b ∈ readLazyBindTurns fuel s this obj start stop,
        TurnOk obj knownLazyBindOpcodes (readLazyBindOpFixups b)
          (BindOk fuel this obj start stop) start stop b) ∧
    ((∃ n, ∀ fuel ≥ n, (readWeakBind fuel s obj start stop).Settles ∧
        ∀ b ∈ readWeakBindTurns fuel s obj start stop,
          InStream start stop (readWeakBindReads fuel obj stop b)) ↔
      ∃ n, ∀ fuel ≥ n, ∀ b ∈ readWeakBindTurns fuel s obj start stop,
        TurnOk obj knownWeakBindOpcodes (readWeakBindOpFixups obj stop b)
          (fun f => (checkAddress obj f).Settles) start stop b) :=
  ⟨readRebase_settles_iff mem,
    eventually_congr fun _ hfuel => readBind_settles_iff hfuel,
    eventually_congr fun _ hfuel => readLazyBind_settles_iff hfuel,
    eventually_congr fun _ hfuel => readWeakBind_settles_iff hfuel⟩

/-! A stream of one byte: an opcode that is invalid for `readRebase`, `readWeakBind` and
`readLazyBind`, or the start of a name. -/

def lastByteMem (b : Byte) : Mem := fun a => if a = 0x3000 then b else 0

def lastByteLinker (b : Byte) : Linker := { indexLinker with mem := lastByteMem b }

/-- All four read the byte behind the stream. -/
theorem streams_not_inside :
    (∃ r ∈ readRebaseTurns (lastByteMem 0x90) indexObject 0x3000 0x3001,
      ¬ InStream 0x3000 0x3001 (readRebaseReads indexObject 0x3001 r)) ∧
    (∃ b ∈ readBindTurns 9 (lastByteLinker 0x40) 0 indexObject 0x3000 0x3001,
      ¬ InStream 0x3000 0x3001 (readBindReads 9 0 indexObject 0x3001 b)) ∧
    (∃ b ∈ readLazyBindTurns 9 (lastByteLinker 0xa0) 0 indexObject 0x3000 0x3001,
      ¬ InStream 0x3000 0x3001 (readLazyBindReads 9 0 indexObject 0x3001 b)) ∧
    ∃ b ∈ readWeakBindTurns 9 (lastByteLinker 0x30) indexObject 0x3000 0x3001,
      ¬ InStream 0x3000 0x3001 (readWeakBindReads 9 indexObject 0x3001 b) := by
  have hbehind : ∀ reads : List Addr, (0x3001 : Addr) ∈ reads → ¬ InStream 0x3000 0x3001 reads :=
    fun reads hmem h => absurd (h 0x3001 hmem).2 (by decide)
  refine ⟨⟨⟨lastByteMem 0x90, 0x3000, 0, 0x1000, 0x2000⟩, List.mem_cons_self, hbehind _ ?_⟩,
    ⟨.start (lastByteLinker 0x40) 0x3000 0, List.mem_cons_self, hbehind _ ?_⟩,
    ⟨.start (lastByteLinker 0xa0) 0x3000 bindTypePointer, List.mem_cons_self, hbehind _ ?_⟩,
    ⟨.start (lastByteLinker 0x30) 0x3000 0, List.mem_cons_self, hbehind _ ?_⟩⟩
  all_goals
    refine List.mem_of_getElem? (i := 1) ?_
    rfl

end LibSystem.Lnk
