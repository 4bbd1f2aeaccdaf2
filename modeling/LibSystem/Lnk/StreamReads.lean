import LibSystem.Lnk.Region
import LibSystem.Lnk.SegmentIndices
import LibSystem.Lnk.StreamProgram

/-!
# What the interpreters read of their stream

Numbers are read up to the end of the stream. A name is read up to its terminator, wherever that
is, and the message about an invalid opcode shows the byte behind it.
-/

namespace LibSystem.Lnk

open Outcome Access

namespace Region

variable {T : Region} {α β : Type}

/-! ## Runs over a region -/

theorem go_bind (p : Program α) (f : α → Program β) :
    T.go (p >>= f) = T.go p >>= fun r => Region.go ⟨r.2, T.start, T.stop⟩ (f r.1) :=
  runIn_bind p f T.mem

theorem settles_go_iff {τ τ' : Type} {view : τ → τ' × Mem} {p : Program τ'} {x : Outcome τ}
    (h : Runs view T.mem p x) :
    (T.go p).Settles ↔ x.Settles ∧ ∀ a ∈ p.looks T.mem, T.Inside a := by
  have hrun : (p.run T.mem).Settles ↔ x.Settles := by
    rw [h, settles_bind]
    exact and_iff_left fun r _ => settles_done _
  constructor
  · intro hgo
    have hinside := looks_of_runIn (settles_iff.mp hgo).2
    rw [← hrun, ← runIn_of_looks hinside]
    exact ⟨hgo, hinside⟩
  · rintro ⟨hx, hinside⟩
    have hgo : T.go p = p.run T.mem := runIn_of_looks hinside
    rw [hgo, hrun]
    exact hx

theorem go_of_settles {τ τ' : Type} {view : τ → τ' × Mem} {p : Program τ'} {x : Outcome τ}
    (h : Runs view T.mem p x) (hgo : (T.go p).Settles) :
    T.go p = x >>= fun r => done (view r) :=
  (runIn_of_looks (looks_of_runIn (settles_iff.mp hgo).2)).trans h

theorem settles_go_pure (a : α) : (T.go (pure a)).Settles := settles_done (a, T.mem)

theorem settles_go_byte {a : Addr} {next : Byte → Program α} :
    (T.go (Program.byte a >>= next)).Settles ↔ T.Inside a ∧ (T.go (next (T.mem a))).Settles := by
  rw [go_byte]
  by_cases h : T.Inside a
  · rw [if_pos h]
    exact (and_iff_right h).symm
  · rw [if_neg h]
    simp [h]

theorem settles_go_ends_iff {x : Outcome β} {f : β → Program α} :
    (T.go (.ends x >>= f)).Settles ↔ x.Settles ∧ ∀ a, x = done a → (T.go (f a)).Settles := by
  have hends : T.go (.ends x) = x >>= fun a => done (a, T.mem) := rfl
  rw [go_bind, hends, bind_bind, settles_bind]
  rfl

/-! ## Numbers -/

theorem settles_readUleb128 {a : Addr} (ha : T.Cursor a) :
    (T.go (Program.readUleb128 a T.stop)).Settles := by
  have hinside : T.go (Program.readUleb128 a T.stop) ≠ .fault :=
    go_readUleb128Loop_ne_fault 11 a ha 0 0
  refine settles_iff.mpr ⟨?_, hinside⟩
  rw [go_of_ne_fault hinside (Program.runs_readUleb128 _ _ _)]
  exact bind_ne_timeout.mpr ⟨readUleb128Loop_ne_timeout (by omega), by simp⟩

theorem settles_uleb_iff {a : Addr} (ha : T.Cursor a) {f : Word × Addr → Program α} :
    (T.go (Program.readUleb128 a T.stop >>= f)).Settles ↔
      ∀ v a', readUleb128 T.mem a T.stop = done (v, a') → (T.go (f (v, a'))).Settles := by
  rw [go_bind, settles_bind, and_iff_right (settles_readUleb128 ha),
    go_of_settles (Program.runs_readUleb128 _ _ _) (settles_readUleb128 ha)]
  constructor
  · intro h v a' hread
    exact h ((v, a'), T.mem) (by rw [hread]; rfl)
  · intro h r hr
    obtain ⟨⟨v, a'⟩, hread, hr⟩ := bind_eq_done.mp hr
    obtain rfl := done.inj hr
    exact h v a' hread

theorem Cursor.readUleb128 {a a' : Addr} {v : Word} (ha : T.Cursor a)
    (h : readUleb128 T.mem a T.stop = done (v, a')) : a < a' ∧ T.Cursor a' := by
  obtain ⟨hlt, hle⟩ := readUleb128Loop_cursor ha.2 h
  exact ⟨hlt, BitVec.le_trans ha.1 (BitVec.le_of_lt hlt), hle⟩

theorem settles_readSleb128Loop {a : Addr} (ha : T.Cursor a) {fuel : Nat}
    (hfuel : T.stop.toNat - a.toNat < fuel) (result : Word) (bit : Nat) :
    (T.go (Program.readSleb128Loop T.stop fuel a result bit)).Settles := by
  induction fuel generalizing a result bit with
  | zero => omega
  | succ fuel ih =>
    unfold Program.readSleb128Loop
    split
    · exact settles_halt _
    · rename_i hstop
      have hin := ha.inside hstop
      have hnext := hin.toNat_next
      rw [settles_go_byte, and_iff_right hin]
      dsimp only
      split
      · exact ih hin.next (by omega) _ _
      split
      · exact settles_done _
      · exact settles_done _

theorem readSleb128Loop_cursor {a a' : Addr} {fuel bit : Nat} {result v : Word} (ha : T.Cursor a)
    (h : readSleb128Loop T.mem T.stop fuel a result bit = done (v, a')) :
    a < a' ∧ T.Cursor a' := by
  induction fuel generalizing a result bit with
  | zero => simp [readSleb128Loop] at h
  | succ fuel ih =>
    unfold readSleb128Loop at h
    split at h
    · simp at h
    rename_i hstop
    have hin := ha.inside hstop
    have hlt : a < a + 1 := by
      have := hin.toNat_next
      bv_omega
    dsimp only at h
    split at h
    · obtain ⟨hlt', hcursor⟩ := ih hin.next h
      exact ⟨BitVec.lt_trans hlt hlt', hcursor⟩
    split at h
    · obtain ⟨-, rfl⟩ := Prod.mk.inj (done.inj h)
      exact ⟨hlt, hin.next⟩
    · obtain ⟨-, rfl⟩ := Prod.mk.inj (done.inj h)
      exact ⟨hlt, hin.next⟩

/-! ## Names -/

/-- A string stands at `a`, with its terminator. -/
def Terminated (T : Region) (a : Addr) : Prop := ∃ str : CString, T.Shows a (str.bytes ++ [0])

theorem terminated_iff {a : Addr} :
    T.Terminated a ↔ T.Inside a ∧ (T.mem a ≠ 0 → T.Terminated (a + 1)) := by
  constructor
  · rintro ⟨⟨bytes, hnul⟩, hshows⟩
    cases bytes with
    | nil =>
      obtain ⟨hzero, hin, -⟩ := shows_cons.mp hshows
      exact ⟨hin, fun h => absurd hzero h⟩
    | cons b bytes =>
      obtain ⟨-, hin, hrest⟩ := shows_cons.mp hshows
      exact ⟨hin, fun _ => ⟨⟨bytes, (List.forall_mem_cons.mp hnul).2⟩, hrest⟩⟩
  · rintro ⟨hin, hrest⟩
    by_cases hzero : T.mem a = 0
    · exact ⟨Program.emptyString, shows_cons.mpr ⟨hzero, hin, shows_nil _⟩⟩
    · obtain ⟨str, hshows⟩ := hrest hzero
      exact ⟨Program.consString (T.mem a) hzero str, shows_cons.mpr ⟨rfl, hin, hshows⟩⟩

theorem settles_skipString_iff {a : Addr} {fuel : Nat} (hfuel : T.stop.toNat - a.toNat < fuel) :
    (T.go (Program.skipString fuel a)).Settles ↔ T.Terminated a := by
  induction fuel generalizing a with
  | zero => omega
  | succ fuel ih =>
    rw [terminated_iff, Program.skipString, settles_go_byte]
    refine and_congr_right fun hin => ?_
    have hnext := hin.toNat_next
    by_cases hzero : T.mem a = 0
    · rw [if_neg (not_not.mpr hzero)]
      exact iff_of_true (settles_go_pure _) fun h => absurd hzero h
    · rw [if_pos hzero, ih (by omega)]
      exact ⟨fun h _ => h, fun h => h hzero⟩

theorem settles_cstringAt_iff {a : Addr} {fuel : Nat} (hfuel : T.stop.toNat - a.toNat < fuel) :
    (T.go (Program.cstringAt fuel a)).Settles ↔ T.Terminated a := by
  induction fuel generalizing a with
  | zero => omega
  | succ fuel ih =>
    rw [terminated_iff, Program.cstringAt, settles_go_byte]
    refine and_congr_right fun hin => ?_
    have hnext := hin.toNat_next
    by_cases hzero : T.mem a = 0
    · rw [dif_pos hzero]
      exact iff_of_true (settles_go_pure _) fun h => absurd hzero h
    · rw [dif_neg hzero, go_bind, settles_bind, ih (by omega)]
      rw [and_iff_left fun _ _ => settles_go_pure _]
      exact ⟨fun h _ => h, fun h => h hzero⟩

theorem Terminated.skipString {a a' : Addr} {fuel : Nat} (h : T.Terminated a)
    (hskip : skipString T.mem fuel a = done a') : a ≤ a' ∧ T.Inside a' := by
  induction fuel generalizing a with
  | zero => simp [Lnk.skipString] at hskip
  | succ fuel ih =>
    obtain ⟨hin, hrest⟩ := terminated_iff.mp h
    unfold Lnk.skipString at hskip
    split at hskip
    · rename_i hmore
      obtain ⟨hle, hin'⟩ := ih (hrest hmore) hskip
      have := hin.toNat_next
      exact ⟨by bv_omega, hin'⟩
    · obtain rfl := done.inj hskip
      exact ⟨BitVec.le_refl _, hin⟩

end Region

/-! ## One opcode -/

/-- The opcodes of `setOpcode`. -/
def setOpcodes : List Byte :=
  [bindOpcodeSetDylibOrdinalImm, bindOpcodeSetDylibOrdinalUleb, bindOpcodeSetTypeImm,
    bindOpcodeSetAddendSleb, bindOpcodeAddAddrUleb, bindOpcodeSetSegmentAndOffsetUleb,
    bindOpcodeSetSymbolTrailingFlagsImm]

/-- The opcodes of `doBindOpcode`. -/
def doBindOpcodes : List Byte :=
  [bindOpcodeDoBind, bindOpcodeDoBindAddAddrUleb, bindOpcodeDoBindAddAddrImmScaled,
    bindOpcodeDoBindUlebTimesSkippingUleb]

section Ops

open Region

variable {fuel : Nat} {this : ImageId} {obj : MachObject} {T : Region}

theorem segActualLoadAddr_settles_iff {index : Nat} :
    (segActualLoadAddr obj index).Settles ↔ index < obj.fSegmentLoadCommands.length := by
  by_cases hlt : index < obj.fSegmentLoadCommands.length
  · obtain ⟨start, hstart⟩ := segActualLoadAddr_of_lt hlt
    simp [hstart, hlt]
  · simp [segActualLoadAddr_of_le (Nat.not_lt.mp hlt), hlt]

variable {opcode immediate : Byte} {b : Binding} {other : Program (Bool × Binding)}

theorem settles_segment_iff {α : Type} {index : Nat} {a : Addr} (ha : T.Cursor a)
    {f : Addr → Word × Addr → Addr → α} :
    (T.go (.ends (segActualLoadAddr obj index) >>= fun start =>
      Program.readUleb128 a T.stop >>= fun v =>
        .ends (segActualEndAddr obj index) >>= fun segEnd => pure (f start v segEnd))).Settles ↔
      index < obj.fSegmentLoadCommands.length := by
  rw [settles_go_ends_iff, segActualLoadAddr_settles_iff]
  refine and_iff_left_of_imp fun hlt start _ => (settles_uleb_iff ha).mpr fun v a' _ => ?_
  obtain ⟨segEnd, hsegEnd⟩ := segActualEndAddr_of_lt hlt
  rw [hsegEnd]
  exact settles_go_pure _

theorem settles_setOpcode_iff (hb : T.Cursor b.pos) (hfuel : T.stop.toNat - b.pos.toNat < fuel) :
    (T.go (Program.setOpcode fuel obj T.stop opcode immediate b other)).Settles ↔
      (opcode = bindOpcodeSetSegmentAndOffsetUleb →
        immediate.toNat < obj.fSegmentLoadCommands.length) ∧
      (opcode = bindOpcodeSetSymbolTrailingFlagsImm → T.Terminated b.pos) ∧
      (opcode ∉ setOpcodes → (T.go other).Settles) := by
  have huleb : ∀ f : Word × Addr → Bool × Binding,
      (T.go (Program.readUleb128 b.pos T.stop >>= fun r => pure (f r))).Settles :=
    fun f => (settles_uleb_iff hb).mpr fun _ _ _ => settles_go_pure _
  have hset : opcode ≠ bindOpcodeSetSegmentAndOffsetUleb →
      opcode ≠ bindOpcodeSetSymbolTrailingFlagsImm → opcode ∈ setOpcodes →
      (opcode = bindOpcodeSetSegmentAndOffsetUleb →
        immediate.toNat < obj.fSegmentLoadCommands.length) ∧
      (opcode = bindOpcodeSetSymbolTrailingFlagsImm → T.Terminated b.pos) ∧
      (opcode ∉ setOpcodes → (T.go other).Settles) :=
    fun hseg hsym hmem => ⟨fun h => absurd h hseg, fun h => absurd h hsym, fun h => absurd hmem h⟩
  unfold Program.setOpcode
  split
  · rename_i h
    subst h
    exact iff_of_true (settles_go_pure _) (hset (by decide) (by decide) (by decide))
  split
  · rename_i h
    subst h
    exact iff_of_true (huleb _) (hset (by decide) (by decide) (by decide))
  split
  · rename_i h
    subst h
    exact iff_of_true (settles_go_pure _) (hset (by decide) (by decide) (by decide))
  split
  · rename_i h
    subst h
    refine iff_of_true ?_ (hset (by decide) (by decide) (by decide))
    rw [go_bind, settles_bind]
    exact ⟨settles_readSleb128Loop hb hfuel 0 0, fun _ _ => settles_go_pure _⟩
  split
  · rename_i h
    subst h
    exact iff_of_true (huleb _) (hset (by decide) (by decide) (by decide))
  split
  · rename_i h
    subst h
    refine (settles_segment_iff hb).trans ⟨fun h => ⟨fun _ => h, ?_, ?_⟩, fun h => h.1 rfl⟩
    · exact fun hsym => absurd hsym (by decide)
    · exact fun hmem => absurd (by decide) hmem
  split
  · rename_i h
    subst h
    rw [go_bind, settles_bind, settles_skipString_iff hfuel,
      and_iff_left fun _ _ => settles_go_pure _]
    refine ⟨fun h => ⟨?_, fun _ => h, ?_⟩, fun h => h.2.1 rfl⟩
    · exact fun hseg => absurd hseg (by decide)
    · exact fun hmem => absurd (by decide) hmem
  · rename_i h1 h2 h3 h4 h5 hseg hsym
    have hmem : opcode ∉ setOpcodes := by simp [setOpcodes, h1, h2, h3, h4, h5, hseg, hsym]
    refine ⟨fun h => ⟨?_, ?_, fun _ => h⟩, fun h => h.2.2 hmem⟩
    · exact fun h' => absurd h' hseg
    · exact fun h' => absurd h' hsym

section DoBind

variable {start stop : Addr} {ok : Binding → Prop}

theorem settles_bindTimes_iff {one : Binding → Program Binding} {one' : Binding → Outcome Binding}
    (hruns : ∀ b, Runs Binding.view b.s.mem (one b.forget) (one' b))
    (hone : ∀ b, (Region.go ⟨b.s.mem, start, stop⟩ (one b.forget)).Settles ↔ ok b) (count : Nat)
    (b : Binding) :
    (Region.go ⟨b.s.mem, start, stop⟩ (Program.bindTimes one count b.forget)).Settles ↔
      ∀ f ∈ bindTimesFixups one' count b, ok f := by
  induction count generalizing b with
  | zero => exact iff_of_true (settles_go_pure _) (by simp [bindTimesFixups])
  | succ count ih =>
    rw [Program.bindTimes, go_bind, settles_bind, hone, bindTimesFixups, List.forall_mem_cons]
    refine and_congr_right fun hok => ?_
    rw [go_of_settles (hruns b) ((hone b).mpr hok)]
    cases hb : one' b with
    | done b1 =>
      refine Iff.trans ?_ (ih b1)
      exact ⟨fun h => h _ rfl, fun h r hr => done.inj hr ▸ h⟩
    | halt msg => simp
    | fault => simp
    | timeout => simp

variable {one : Word → Binding → Program Binding} {one' : Word → Binding → Outcome Binding}

theorem settles_doBindOpcode_iff (hb : start ≤ b.pos ∧ b.pos ≤ stop)
    (hruns : ∀ step b, Runs Binding.view b.s.mem (one step b.forget) (one' step b))
    (hone : ∀ step b, (Region.go ⟨b.s.mem, start, stop⟩ (one step b.forget)).Settles ↔ ok b)
    (hpos : ∀ step b b', one' step b = done b' → b'.pos = b.pos) :
    (Region.go ⟨b.s.mem, start, stop⟩
        (Program.doBindOpcode stop opcode immediate b.forget one other)).Settles ↔
      (∀ f ∈ doBindOpcodeFixups stop opcode b one', ok f) ∧
        (opcode ∉ doBindOpcodes → (Region.go ⟨b.s.mem, start, stop⟩ other).Settles) := by
  have hcursor : Cursor ⟨b.s.mem, start, stop⟩ b.pos := hb
  have hother : opcode ∈ doBindOpcodes → ∀ p q : Prop, (p ↔ p ∧ (opcode ∉ doBindOpcodes → q)) :=
    fun hmem p q => (and_iff_left fun h => absurd hmem h).symm
  unfold Program.doBindOpcode doBindOpcodeFixups
  split
  · rename_i h
    refine Iff.trans ?_ (hother (by rw [h]; decide) _ _)
    rw [go_bind, settles_bind, and_iff_left fun _ _ => settles_go_pure _, hone]
    simp
  split
  · rename_i h
    refine Iff.trans ?_ (hother (by rw [h]; decide) _ _)
    rw [go_bind, settles_bind, hone]
    simp only [List.forall_mem_singleton]
    refine and_iff_left_of_imp fun hok r hr => ?_
    rw [go_of_settles (hruns 0 b) ((hone 0 b).mpr hok)] at hr
    obtain ⟨b1, hone1, hr⟩ := bind_eq_done.mp hr
    obtain rfl := done.inj hr
    have hcursor1 : Cursor ⟨b1.s.mem, start, stop⟩ b1.pos := by
      rw [hpos 0 b b1 hone1]
      exact hb
    exact (settles_uleb_iff hcursor1).mpr fun _ _ _ => settles_go_pure _
  split
  · rename_i h
    refine Iff.trans ?_ (hother (by rw [h]; decide) _ _)
    rw [go_bind, settles_bind, and_iff_left fun _ _ => settles_go_pure _, hone]
    simp
  split
  · rename_i h
    refine Iff.trans ?_ (hother (by rw [h]; decide) _ _)
    refine (settles_uleb_iff hcursor).trans ?_
    cases hcount : readUleb128 b.s.mem b.pos stop with
    | done c =>
      obtain ⟨count, pos⟩ := c
      have hcursor' : Cursor ⟨b.s.mem, start, stop⟩ pos := (hcursor.readUleb128 hcount).2
      refine forall_done_pair_iff.trans ((settles_uleb_iff hcursor').trans ?_)
      cases hskip : readUleb128 b.s.mem pos stop with
      | done k =>
        obtain ⟨skip, pos'⟩ := k
        refine forall_done_pair_iff.trans ?_
        rw [go_bind, settles_bind, and_iff_left fun _ _ => settles_go_pure _]
        simp only [hskip, done_bind]
        exact settles_bindTimes_iff (hruns (skip + 4)) (hone (skip + 4)) count.toNat
          { b with pos := pos' }
      | halt msg => simp [hskip]
      | fault => simp [hskip]
      | timeout => simp [hskip]
    | halt msg => simp
    | fault => simp
    | timeout => simp
  · rename_i h1 h2 h3 h4
    have hmem : opcode ∉ doBindOpcodes := by simp [doBindOpcodes, h1, h2, h3, h4]
    simp [hmem]

end DoBind

/-! ## One fix-up -/

variable {start stop : Addr} {step : Word}

theorem checkAddress_settles_iff :
    (checkAddress obj b).Settles ↔
      (b.segmentEndAddress ≤ b.address → b.segmentIndex < obj.fSegmentLoadCommands.length) := by
  unfold checkAddress
  split
  · rename_i hbeyond
    rw [settles_bind, and_iff_left fun _ _ => settles_halt _, segActualLoadAddr_settles_iff]
    exact ⟨fun h _ => h, fun h => h hbeyond⟩
  · rename_i hinside
    exact iff_of_true (settles_done _) fun h => absurd h hinside

theorem settles_weakBindOne_iff :
    (Region.go ⟨b.s.mem, start, stop⟩ (Program.weakBindOne obj step b.forget)).Settles ↔
      (checkAddress obj b).Settles := by
  rw [Program.weakBindOne, settles_go_ends_iff]
  exact and_iff_left fun _ _ => settles_go_pure _

theorem settles_bindNamed_iff (name : CString) :
    (Region.go ⟨b.s.mem, start, stop⟩
      ((Program.bind fuel b.s.forget this b.address b.type name b.addend b.libraryOrdinal).hide >>=
        fun s => pure { b.forget with s := s })).Settles ↔
      (bind fuel b.s this b.address b.type name b.addend b.libraryOrdinal >>= fun s =>
        done { b with s := s }).Settles := by
  have hrun : Region.go ⟨b.s.mem, start, stop⟩
      (Program.bind fuel b.s.forget this b.address b.type name b.addend b.libraryOrdinal).hide =
      bind fuel b.s this b.address b.type name b.addend b.libraryOrdinal >>= fun s =>
        done s.view :=
    (runIn_hide _ _ _).trans (Program.runs_bind _ _ _ _ _ _ _ _)
  rw [go_bind, hrun, settles_bind, settles_bind, settles_bind,
    and_iff_left fun _ _ => settles_done _, and_iff_left fun _ _ => settles_go_pure _,
    and_iff_left fun _ _ => settles_done _]

theorem settles_bindHere_iff (hfuel : stop.toNat < fuel) :
    (Region.go ⟨b.s.mem, start, stop⟩ (Stream.bindHere fuel this obj b.forget)).Settles ↔
      (b.symbolName ≠ 0 → Terminated ⟨b.s.mem, start, stop⟩ b.symbolName) ∧
        (bindHere fuel this obj b).Settles := by
  unfold Stream.bindHere
  by_cases hnull : b.symbolName = 0
  · rw [if_pos (by exact hnull)]
    have hrun : Region.go ⟨b.s.mem, start, stop⟩ (Program.bindHere fuel this obj b.forget).hide =
        bindHere fuel this obj b >>= fun b' => done b'.view :=
      (runIn_hide _ _ _).trans (Program.runs_bindHere fuel this obj b)
    rw [hrun, settles_bind, and_iff_left fun _ _ => settles_done _]
    exact (and_iff_right fun h => absurd hnull h).symm
  · rw [if_neg (by exact hnull)]
    have hhere : bindHere fuel this obj b = cstringAt b.s.mem fuel b.symbolName >>= fun name =>
        bind fuel b.s this b.address b.type name b.addend b.libraryOrdinal >>= fun s =>
          done { b with s := s } :=
      if_neg fun h => hnull h.1
    have hname : (Region.go ⟨b.s.mem, start, stop⟩ (Program.cstringAt fuel b.symbolName)).Settles ↔
        Terminated ⟨b.s.mem, start, stop⟩ b.symbolName :=
      settles_cstringAt_iff (by dsimp only; omega)
    rw [hhere, go_bind, settles_bind, settles_bind]
    refine (and_congr_left' hname).trans ?_
    rw [forall_prop_of_true hnull]
    refine and_congr_right fun hterm => ?_
    have hreads := Program.runs_cstringAt b.s.mem fuel b.symbolName
    have hgo := go_of_settles (T := ⟨b.s.mem, start, stop⟩) hreads (hname.mpr hterm)
    have hsettles := ((settles_go_iff (T := ⟨b.s.mem, start, stop⟩) hreads).mp
      (hname.mpr hterm)).1
    rw [and_iff_right hsettles]
    constructor
    · intro h name hcstring
      exact (settles_bindNamed_iff name).mp (h (name, b.s.mem) (hgo.trans (by rw [hcstring]; rfl)))
    · intro h r hr
      obtain ⟨name, hcstring, hr⟩ := bind_eq_done.mp (hgo.symm.trans hr)
      obtain rfl := done.inj hr
      exact (settles_bindNamed_iff name).mpr (h name hcstring)

/-- What a bind needs: for the message about a bad address a segment that is there, and else a
name that ends in the stream, and a symbol search that comes to an end. -/
structure BindOk (fuel : Nat) (this : ImageId) (obj : MachObject) (start stop : Addr)
    (b : Binding) : Prop where
  located : b.segmentEndAddress ≤ b.address → b.segmentIndex < obj.fSegmentLoadCommands.length
  named : b.address < b.segmentEndAddress → b.symbolName ≠ 0 →
    Terminated ⟨b.s.mem, start, stop⟩ b.symbolName
  bound : b.address < b.segmentEndAddress → (bindHere fuel this obj b).Settles

theorem settles_bindOne_iff (hfuel : stop.toNat < fuel) :
    (Region.go ⟨b.s.mem, start, stop⟩ (Stream.bindOne fuel this obj step b.forget)).Settles ↔
      BindOk fuel this obj start stop b := by
  have hhere : (Region.go ⟨b.s.mem, start, stop⟩
      (Stream.bindHere fuel this obj b.forget >>= fun b' =>
        pure { b' with address := b'.address + step })).Settles ↔
      (b.symbolName ≠ 0 → Terminated ⟨b.s.mem, start, stop⟩ b.symbolName) ∧
        (bindHere fuel this obj b).Settles := by
    rw [go_bind, settles_bind, and_iff_left fun _ _ => settles_go_pure _]
    exact settles_bindHere_iff hfuel
  rw [Stream.bindOne, settles_go_ends_iff]
  change (checkAddress obj b).Settles ∧ (∀ u, checkAddress obj b = done u → _) ↔ _
  rw [checkAddress_settles_iff]
  constructor
  · rintro ⟨hlocated, h⟩
    have hinside : b.address < b.segmentEndAddress →
        (b.symbolName ≠ 0 → Terminated ⟨b.s.mem, start, stop⟩ b.symbolName) ∧
          (bindHere fuel this obj b).Settles :=
      fun hlt => hhere.mp (h () (if_neg (BitVec.not_le.mpr hlt)))
    exact ⟨hlocated, fun hlt => (hinside hlt).1, fun hlt => (hinside hlt).2⟩
  · rintro ⟨hlocated, hnamed, hbound⟩
    refine ⟨hlocated, fun u hu => ?_⟩
    have hlt := checkAddress_eq_done hu
    exact hhere.mpr ⟨hnamed hlt, hbound hlt⟩

end Ops

end LibSystem.Lnk
