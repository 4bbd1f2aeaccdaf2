import LibSystem.Lnk.BindStream
import LibSystem.Lnk.RebaseProgram

/-!
# Compact opcodes and their expansions

A compact opcode is as good as the opcodes it stands for, from every state of the interpreter, and
a stream that is rewritten so runs as before.
-/

namespace LibSystem.Lnk

open Outcome Mem Semantics

variable {obj : MachObject}

/-! ## The rebase opcodes -/

/-- A compact opcode and its expansion. The numbers are any below `2 ^ 32`. -/
inductive RebaseRule : List RebaseInstr → List RebaseInstr → Prop
  | ulebTimes (n : Word) :
      RebaseRule [.doRebaseUlebTimes (.done n)]
        (List.replicate n.toNat (.doRebaseAddAddrUleb (.done 0)))
  | ulebTimesSkippingUleb (n s : Word) :
      RebaseRule [.doRebaseUlebTimesSkippingUleb (.done n) (.done s)]
        (List.replicate n.toNat (.doRebaseAddAddrUleb (.done s)))
  | immTimes (i : Byte) :
      RebaseRule [.doRebaseImmTimes i] [.doRebaseUlebTimes (.done (i.setWidth 32))]
  | addAddrImmScaled (i : Byte) :
      RebaseRule [.addAddrImmScaled i] [.addAddrUleb (.done (4 * i.setWidth 32))]

theorem rebaseOne_split (step : Word) (r : Rebasing) :
    rebaseOne obj step r =
      (rebaseOne obj 0 r >>= fun r' => done { r' with address := r'.address + step }) := by
  unfold rebaseOne
  split
  · rfl
  · simp only [bind_bind, done_bind]
    refine bind_congr fun mem => ?_
    simp

theorem seen_addAddr (n : Outcome Word) (r : Rebasing) :
    (rebaseSemantics obj).seen (.doRebaseAddAddrUleb n) r = [r] := by
  show rebaseTimesFixups obj 0 1 r = [r]
  unfold rebaseTimesFixups
  split <;> rfl

theorem exec_addAddr (skip : Word) (r : Rebasing) :
    (rebaseSemantics obj).exec (.doRebaseAddAddrUleb (.done skip)) r =
      (rebaseOne obj (skip + 4) r >>= fun r' => done (false, r')) := by
  rw [rebaseOne_split, bind_bind]
  rfl

theorem copies_rebase (skip : Word) (count : Nat) (r : Rebasing) :
    (rebaseSemantics obj).run (List.replicate count (.doRebaseAddAddrUleb (.done skip))) r =
        (rebaseTimes obj (skip + 4) count r >>= fun r' => done (false, r')) ∧
      (rebaseSemantics obj).observe (List.replicate count (.doRebaseAddAddrUleb (.done skip))) r =
        rebaseTimesFixups obj (skip + 4) count r := by
  refine ⟨run_copies (exec_addAddr skip) (fun _ => rfl) (fun _ _ => rfl) count r,
    observe_copies (exec_addAddr skip) (fun _ => rfl) (fun count r r' h => ?_)
      (fun count r h => ?_) count r⟩
  · rw [rebaseTimesFixups, h, seen_addAddr]
    rfl
  · rw [rebaseTimesFixups, seen_addAddr]
    split
    · exact absurd ‹_› (h _)
    · rfl

theorem RebaseRule.alike {l l' : List RebaseInstr} (h : RebaseRule l l') :
    (rebaseSemantics obj).Alike l l' := by
  intro r
  cases h with
  | ulebTimes n =>
    rw [run_singleton, observe_singleton, (copies_rebase 0 n.toNat r).1,
      (copies_rebase 0 n.toNat r).2]
    exact ⟨rfl, rfl⟩
  | ulebTimesSkippingUleb n s =>
    rw [run_singleton, observe_singleton, (copies_rebase s n.toNat r).1,
      (copies_rebase s n.toNat r).2]
    exact ⟨rfl, rfl⟩
  | immTimes i =>
    have hcount : (i.setWidth 32 : Word).toNat = i.toNat := BitVec.toNat_setWidth_of_le (by decide)
    have htimes : (rebaseSemantics obj).exec (.doRebaseUlebTimes (.done (i.setWidth 32))) r =
        (rebaseTimes obj 4 i.toNat r >>= fun r' => done (false, r')) := by
      rw [← hcount]
      rfl
    have hseen : (rebaseSemantics obj).seen (.doRebaseUlebTimes (.done (i.setWidth 32))) r =
        rebaseTimesFixups obj 4 i.toNat r := by
      rw [← hcount]
      rfl
    rw [run_singleton, run_singleton, observe_singleton, observe_singleton, htimes, hseen]
    exact ⟨rfl, rfl⟩
  | addAddrImmScaled i =>
    rw [run_singleton, run_singleton, observe_singleton, observe_singleton]
    refine ⟨?_, rfl⟩
    show done (false, { r with address := r.address + i.setWidth 32 * 4 }) =
      done (false, { r with address := r.address + 4 * i.setWidth 32 })
    rw [BitVec.mul_comm]

/-! ## The bind opcodes -/

inductive BindRule : List BindInstr → List BindInstr → Prop
  | ulebTimesSkippingUleb (n s : Word) :
      BindRule [.doBindUlebTimesSkippingUleb (.done n) (.done s)]
        (List.replicate n.toNat (.doBindAddAddrUleb (.done s)))
  | addAddrImmScaled (i : Byte) :
      BindRule [.doBindAddAddrImmScaled i] [.doBindAddAddrUleb (.done (4 * i.setWidth 32))]

variable {fuel : Nat} {this : ImageId}

theorem bindOne_split (step : Word) (b : Binding) :
    bindOne fuel this obj step b =
      (bindOne fuel this obj 0 b >>= fun b' => done { b' with address := b'.address + step }) := by
  unfold bindOne
  simp only [bind_bind, done_bind]
  refine bind_congr fun _ => bind_congr fun b' => ?_
  simp

theorem bindNamed_split (step : Word) (t : BindState) :
    bindNamed fuel this obj step t =
      (bindNamed fuel this obj 0 t >>= fun t' =>
        done { t' with address := t'.address + step }) := by
  unfold bindNamed
  split
  · rw [bindOne_split]
    simp only [bind_bind, done_bind]
  · simp only [bind_bind, done_bind]
    refine bind_congr fun _ => bind_congr fun s => ?_
    simp

theorem exec_addAddr_bind (skip : Word) (t : BindState) :
    (bindSemantics fuel this obj).exec (.doBindAddAddrUleb (.done skip)) t =
      (bindNamed fuel this obj (skip + 4) t >>= fun t' => done (false, t')) := by
  rw [bindNamed_split, bind_bind]
  rfl

theorem copies_bind (skip : Word) (count : Nat) (t : BindState) :
    (bindSemantics fuel this obj).run (List.replicate count (.doBindAddAddrUleb (.done skip))) t =
        (bindNamedTimes (bindNamed fuel this obj (skip + 4)) count t >>= fun t' =>
          done (false, t')) ∧
      (bindSemantics fuel this obj).observe
          (List.replicate count (.doBindAddAddrUleb (.done skip))) t =
        bindNamedTimesFixups (bindNamed fuel this obj (skip + 4)) count t := by
  refine ⟨run_copies (exec_addAddr_bind skip) (fun _ => rfl) (fun _ _ => rfl) count t,
    observe_copies (exec_addAddr_bind skip) (fun _ => rfl) (fun count t t' h => ?_)
      (fun count t h => ?_) count t⟩
  · rw [bindNamedTimesFixups, h]
    rfl
  · rw [bindNamedTimesFixups]
    split
    · exact absurd ‹_› (h _)
    · rfl

theorem BindRule.alike {l l' : List BindInstr} (h : BindRule l l') :
    (bindSemantics fuel this obj).Alike l l' := by
  intro t
  cases h with
  | ulebTimesSkippingUleb n s =>
    rw [run_singleton, observe_singleton, (copies_bind s n.toNat t).1, (copies_bind s n.toNat t).2]
    exact ⟨rfl, rfl⟩
  | addAddrImmScaled i =>
    rw [run_singleton, run_singleton, observe_singleton, observe_singleton, exec_addAddr_bind,
      BitVec.mul_comm]
    exact ⟨rfl, rfl⟩

/-! ## The rules in bytes -/

section Bytes

variable {count skip : List Byte} {n s : Word}

theorem operand_of_word (hn : Uleb64 count n.toNat) (rest : List Byte) :
    operand (count ++ rest) = done n ∧ afterOperand (count ++ rest) = rest := by
  have h := operand_of_uleb hn rest
  rwa [BitVec.ofNat_toNat, BitVec.setWidth_eq] at h

theorem decodeRebase_copies (hs : Uleb64 skip s.toNat) (k : Nat) (rest : List Byte) :
    decodeRebase
        ((List.replicate k (rebaseOpcodeDoRebaseAddAddrUleb :: skip)).flatten ++ rest) =
      List.replicate k (.doRebaseAddAddrUleb (.done s)) ++ decodeRebase rest := by
  induction k with
  | zero => rfl
  | succ k ih =>
    obtain ⟨hvalue, hafter⟩ := operand_of_word hs
      ((List.replicate k (rebaseOpcodeDoRebaseAddAddrUleb :: skip)).flatten ++ rest)
    have hop : ∀ l, decodeRebaseOp rebaseOpcodeDoRebaseAddAddrUleb l =
        (.doRebaseAddAddrUleb (operand l), afterOperand l) := fun _ => rfl
    rw [List.replicate_succ, List.flatten_cons, List.append_assoc, List.cons_append,
      decodeRebase_cons, hop, hvalue, hafter, ih]
    rfl

theorem rebase_skipping_rewrites (hn : Uleb64 count n.toNat) (hs : Uleb64 skip s.toNat)
    (rest : List Byte) :
    Rewrites RebaseRule
      (decodeRebase (rebaseOpcodeDoRebaseUlebTimesSkippingUleb :: (count ++ (skip ++ rest))))
      (decodeRebase
        ((List.replicate n.toNat (rebaseOpcodeDoRebaseAddAddrUleb :: skip)).flatten ++ rest)) := by
  obtain ⟨hcount, hafter⟩ := operand_of_word hn (skip ++ rest)
  obtain ⟨hskip, hrest⟩ := operand_of_word hs rest
  have hcompact :
      decodeRebase (rebaseOpcodeDoRebaseUlebTimesSkippingUleb :: (count ++ (skip ++ rest))) =
        .doRebaseUlebTimesSkippingUleb (.done n) (.done s) :: decodeRebase rest := by
    have hop : ∀ l, decodeRebaseOp rebaseOpcodeDoRebaseUlebTimesSkippingUleb l =
        (.doRebaseUlebTimesSkippingUleb (operand l) (operand (afterOperand l)),
          afterOperand (afterOperand l)) := fun _ => rfl
    rw [decodeRebase_cons, hop, hafter, hcount, hskip, hrest]
  rw [hcompact, decodeRebase_copies hs]
  exact .rel _ _ (.intro [] (RebaseRule.ulebTimesSkippingUleb n s) (decodeRebase rest))

theorem decodeBind_copies (hs : Uleb64 skip s.toNat) (k : Nat) (rest : List Byte) :
    decodeBind ((List.replicate k (bindOpcodeDoBindAddAddrUleb :: skip)).flatten ++ rest) =
      List.replicate k (.doBindAddAddrUleb (.done s)) ++ decodeBind rest := by
  induction k with
  | zero => rfl
  | succ k ih =>
    obtain ⟨hvalue, hafter⟩ := operand_of_word hs
      ((List.replicate k (bindOpcodeDoBindAddAddrUleb :: skip)).flatten ++ rest)
    have hop : ∀ l, decodeBindOp bindOpcodeDoBindAddAddrUleb l =
        (.doBindAddAddrUleb (operand l), afterOperand l) := fun _ => rfl
    rw [List.replicate_succ, List.flatten_cons, List.append_assoc, List.cons_append,
      decodeBind_cons, hop, hvalue, hafter, ih]
    rfl

theorem bind_skipping_rewrites (hn : Uleb64 count n.toNat) (hs : Uleb64 skip s.toNat)
    (rest : List Byte) :
    Rewrites BindRule
      (decodeBind (bindOpcodeDoBindUlebTimesSkippingUleb :: (count ++ (skip ++ rest))))
      (decodeBind
        ((List.replicate n.toNat (bindOpcodeDoBindAddAddrUleb :: skip)).flatten ++ rest)) := by
  obtain ⟨hcount, hafter⟩ := operand_of_word hn (skip ++ rest)
  obtain ⟨hskip, hrest⟩ := operand_of_word hs rest
  have hcompact :
      decodeBind (bindOpcodeDoBindUlebTimesSkippingUleb :: (count ++ (skip ++ rest))) =
        .doBindUlebTimesSkippingUleb (.done n) (.done s) :: decodeBind rest := by
    have hop : ∀ l, decodeBindOp bindOpcodeDoBindUlebTimesSkippingUleb l =
        (.doBindUlebTimesSkippingUleb (operand l) (operand (afterOperand l)),
          afterOperand (afterOperand l)) := fun _ => rfl
    rw [decodeBind_cons, hop, hafter, hcount, hskip, hrest]
  rw [hcompact, decodeBind_copies hs]
  exact .rel _ _ (.intro [] (BindRule.ulebTimesSkippingUleb n s) (decodeBind rest))

end Bytes

/-! ## Streams -/

theorem readRebase_rewrites {mem : Mem} {start stop start' stop' : Addr}
    (hrewrites : Rewrites RebaseRule (decodeRebase (mem.slice start stop))
      (decodeRebase (mem.slice start' stop')))
    (hclear : RebasesClear mem obj start stop) (hclear' : RebasesClear mem obj start' stop') :
    readRebase mem obj start stop = readRebase mem obj start' stop' ∧
      (readRebaseFixups mem obj start stop).map (fun f => f.2.at 0) =
        (readRebaseFixups mem obj start' stop').map (fun f => f.2.at 0) := by
  have halike : (rebaseSemantics obj).Alike _ _ := hrewrites.alike fun _ _ h => h.alike
  cases haddress : segActualLoadAddr obj 0 with
  | done address =>
    cases hsegEnd : segActualEndAddr obj 0 with
    | done segEnd =>
      obtain ⟨hfixups, hrun⟩ := readRebase_eq haddress hsegEnd (.inl hclear)
      obtain ⟨hfixups', hrun'⟩ := readRebase_eq haddress hsegEnd (.inl hclear')
      rw [hfixups, hfixups', hrun, hrun', (halike _).1, (halike _).2]
      exact ⟨rfl, rfl⟩
    | _ => simp [readRebase, readRebaseFixups, haddress, hsegEnd]
  | _ => simp [readRebase, readRebaseFixups, haddress]

theorem readBind_rewrites {s : Linker} {start stop start' stop' : Addr}
    (hrewrites : Rewrites BindRule (decodeBind (s.mem.slice start stop))
      (decodeBind (s.mem.slice start' stop')))
    (hfuel : stop.toNat - start.toNat < fuel) (hfuel' : stop'.toNat - start'.toNat < fuel)
    (hended : .unterminated ∉ decodeBind (s.mem.slice start stop))
    (hended' : .unterminated ∉ decodeBind (s.mem.slice start' stop'))
    (hclear : BindsClear fuel s this obj start stop)
    (hclear' : BindsClear fuel s this obj start' stop') :
    readBind fuel s this obj start stop = readBind fuel s this obj start' stop' ∧
      readBindAttempts fuel s this obj start stop =
        readBindAttempts fuel s this obj start' stop' := by
  have halike : (bindSemantics fuel this obj).Alike _ _ := hrewrites.alike fun _ _ h => h.alike
  obtain ⟨hattempts, hrun⟩ := readBind_eq hfuel hended hclear
  obtain ⟨hattempts', hrun'⟩ := readBind_eq hfuel' hended' hclear'
  rw [hattempts, hattempts', hrun, hrun', (halike _).1, (halike _).2]
  exact ⟨rfl, rfl⟩

/-- **Compact opcodes mean their expansions**, from every state. A stream that is rewritten by these
rules, and is not rebased or bound itself, fixes the same words up and ends alike. -/
theorem compact_opcodes_expand :
    (∀ (obj : MachObject) (l l' : List RebaseInstr), RebaseRule l l' →
      (rebaseSemantics obj).Alike l l') ∧
    (∀ (fuel : Nat) (this : ImageId) (obj : MachObject) (l l' : List BindInstr), BindRule l l' →
      (bindSemantics fuel this obj).Alike l l') ∧
    (∀ (mem : Mem) (obj : MachObject) (start stop start' stop' : Addr),
      Rewrites RebaseRule (decodeRebase (mem.slice start stop))
        (decodeRebase (mem.slice start' stop')) →
      RebasesClear mem obj start stop → RebasesClear mem obj start' stop' →
      readRebase mem obj start stop = readRebase mem obj start' stop' ∧
        (readRebaseFixups mem obj start stop).map (fun f => f.2.at 0) =
          (readRebaseFixups mem obj start' stop').map (fun f => f.2.at 0)) ∧
    ∀ (fuel : Nat) (s : Linker) (this : ImageId) (obj : MachObject)
      (start stop start' stop' : Addr),
      Rewrites BindRule (decodeBind (s.mem.slice start stop))
        (decodeBind (s.mem.slice start' stop')) →
      stop.toNat - start.toNat < fuel → stop'.toNat - start'.toNat < fuel →
      .unterminated ∉ decodeBind (s.mem.slice start stop) →
      .unterminated ∉ decodeBind (s.mem.slice start' stop') →
      BindsClear fuel s this obj start stop → BindsClear fuel s this obj start' stop' →
      readBind fuel s this obj start stop = readBind fuel s this obj start' stop' ∧
        readBindAttempts fuel s this obj start stop =
          readBindAttempts fuel s this obj start' stop' := by
  refine ⟨fun obj l l' h => h.alike, fun fuel this obj l l' h => h.alike, ?_, ?_⟩
  · intro mem obj start stop start' stop' hrewrites hclear hclear'
    exact readRebase_rewrites hrewrites hclear hclear'
  · intro fuel s this obj start stop start' stop' hrewrites hfuel hfuel' hended hended' hclear
      hclear'
    exact readBind_rewrites hrewrites hfuel hfuel' hended hended' hclear hclear'

/-! Two words, rebased and bound to `_ab` by a compact opcode, and by its two copies. -/

def expandBytes : List Byte :=
  [0x11, 0x20, 0, 0x60, 2] ++ [0x11, 0x20, 0, 0x70, 0, 0x70, 0] ++
    [0x40, 0x5f, 0x61, 0x62, 0, 0x51, 0x70, 0, 0xc0, 2, 0] ++
      [0x40, 0x5f, 0x61, 0x62, 0, 0x51, 0x70, 0, 0xa0, 0, 0xa0, 0]

def expandMem : Mem := fun a =>
  if a < 0x1100 then sampleMem a else expandBytes.getD (a - 0x1100).toNat 0

def expandObject : MachObject :=
  { sampleObject 0x4000 with
    fSegmentLoadCommands := [⟨"__DATA", 0x5000, 0x100, 0, []⟩]
    fSlide := 0x20 }

def expandLinker : Linker :=
  { sampleLinker sampleInfo expandMem with images := [expandObject] }

theorem expand_rebasesClear (stop : Addr) {start : Addr} (hstart : 0x1000 ≤ start)
    (hstop : stop < 0x2000)
    (h : (readRebaseFixups expandMem expandObject start stop).all
      (fun f => decide (0x5000 ≤ f.2.address ∧ f.2.address < 0x6000)) = true) :
    RebasesClear expandMem expandObject start stop := by
  intro f hf _ x hin hx
  have haddress := of_decide_eq_true (List.all_eq_true.mp h f hf)
  unfold InWord at hin
  bv_omega

theorem expand_bindsClear (stop : Addr) {start : Addr} (hstart : 0x1000 ≤ start)
    (hstop : stop < 0x2000)
    (h : (readBindFixups 20 expandLinker 0 expandObject start stop).all
      (fun f => decide (0x5000 ≤ f.address ∧ f.address < 0x6000)) = true) :
    BindsClear 20 expandLinker 0 expandObject start stop := by
  intro f hf _ x hin hx
  have haddress := of_decide_eq_true (List.all_eq_true.mp h f hf)
  unfold InWord at hin
  bv_omega

theorem expand_rebaseRewrites : Rewrites RebaseRule (decodeRebase (expandMem.slice 0x1100 0x1105))
    (decodeRebase (expandMem.slice 0x1105 0x110c)) := by
  have hstep := RewriteStep.intro
    [RebaseInstr.setTypeImm 1, .setSegmentAndOffsetUleb 0 (.done 0)] (RebaseRule.ulebTimes 2) []
  exact .rel _ _ hstep

theorem expand_bindRewrites : Rewrites BindRule (decodeBind (expandMem.slice 0x110c 0x1117))
    (decodeBind (expandMem.slice 0x1117 0x1123)) := by
  have hstep := RewriteStep.intro
    [BindInstr.setSymbolTrailingFlagsImm 0 symbolAB, .setTypeImm 1,
      .setSegmentAndOffsetUleb 0 (.done 0)] (BindRule.ulebTimesSkippingUleb 2 0) []
  exact .rel _ _ hstep

theorem compact_opcodes_expand_sample :
    readRebase expandMem expandObject 0x1100 0x1105 =
        readRebase expandMem expandObject 0x1105 0x110c ∧
      readBind 20 expandLinker 0 expandObject 0x110c 0x1117 =
        readBind 20 expandLinker 0 expandObject 0x1117 0x1123 := by
  obtain ⟨-, -, hrebase, hbind⟩ := compact_opcodes_expand
  constructor
  · refine (hrebase expandMem expandObject _ _ _ _ expand_rebaseRewrites ?_ ?_).1
    · exact expand_rebasesClear _ (by decide) (by decide) rfl
    · exact expand_rebasesClear _ (by decide) (by decide) rfl
  · have hcompact : decodeBind (expandMem.slice 0x110c 0x1117) =
        [.setSymbolTrailingFlagsImm 0 symbolAB, .setTypeImm 1, .setSegmentAndOffsetUleb 0 (.done 0),
          .doBindUlebTimesSkippingUleb (.done 2) (.done 0)] := rfl
    have hcopies : decodeBind (expandMem.slice 0x1117 0x1123) =
        [.setSymbolTrailingFlagsImm 0 symbolAB, .setTypeImm 1, .setSegmentAndOffsetUleb 0 (.done 0),
          .doBindAddAddrUleb (.done 0), .doBindAddAddrUleb (.done 0)] := rfl
    refine (hbind 20 expandLinker 0 expandObject _ _ _ _ expand_bindRewrites (by decide) (by decide)
      ?_ ?_ ?_ ?_).1
    · rw [show expandLinker.mem = expandMem from rfl, hcompact]
      simp
    · rw [show expandLinker.mem = expandMem from rfl, hcopies]
      simp
    · exact expand_bindsClear _ (by decide) (by decide) rfl
    · exact expand_bindsClear _ (by decide) (by decide) rfl

end LibSystem.Lnk
