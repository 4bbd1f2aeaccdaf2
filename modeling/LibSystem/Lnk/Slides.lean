import LibSystem.Lnk.RebaseProgram

/-!
# Rebasing at two slides

The same stream rebases the same words of the image wherever the image is, and does nothing but
add the slide to them.
-/

namespace LibSystem.Lnk

open Outcome Mem

/-- The locations that a run rebases, in order. -/
def rebasedWords (mem : Mem) (obj : MachObject) (start stop : Addr) : List Addr :=
  (readRebaseFixups mem obj start stop).map fun f => f.2.address

variable {obj : MachObject} {r r' : Rebasing}

/-! ## One run -/

theorem rebaseOne_address {step : Word} (h : rebaseOne obj step r = done r') :
    r'.address = r.address + step := by
  unfold rebaseOne at h
  split at h
  · simp at h
  · obtain ⟨mem, -, h⟩ := bind_eq_done.mp h
    rw [← done.inj h]

theorem rebaseTimes_words {step : Word} {count : Nat} :
    (rebaseTimes obj step count r).Ensures fun r' =>
      (rebaseTimesFixups obj step count r).map (·.address) =
          (List.range count).map (fun i => r.address + BitVec.ofNat 32 i * step) ∧
        r'.address = r.address + BitVec.ofNat 32 count * step ∧
        r'.mem = r.mem.addAll obj.fSlide
          ((rebaseTimesFixups obj step count r).map (·.address)) := by
  induction count generalizing r with
  | zero => exact .done (by simp [rebaseTimesFixups])
  | succ count ih =>
    refine .bind fun r1 hone r' h => ?_
    obtain ⟨hwords, hend, hmem⟩ := ih r' h
    have haddress : r1.address = r.address + step := rebaseOne_address hone
    have hnext : ∀ i : Nat, r1.address + BitVec.ofNat 32 i * step =
        r.address + BitVec.ofNat 32 (i + 1) * step := by
      intro i
      rw [haddress, Mem.next_stride]
    rw [rebaseTimesFixups, hone]
    refine ⟨?_, ?_, ?_⟩
    · rw [List.map_cons, hwords, List.range_succ_eq_map, List.map_cons, List.map_map]
      simp [hnext, Function.comp_def]
    · rw [hend, hnext]
    · rw [hmem, (rebaseOne_eq_done hone).2.1]
      rfl

variable {stop : Addr}

theorem readRebaseOp_words : (readRebaseOp obj stop r).Ensures fun v =>
    v.2.mem = r.mem.addAll obj.fSlide ((readRebaseOpFixups obj stop r).map (·.address)) := by
  intro v hv
  obtain ⟨step, count, r0, r1, h, hmem, hfixups, hmem'⟩ := readRebaseOp_row v hv
  rw [hfixups, hmem', ← hmem]
  exact (rebaseTimes_words r1 h).2.2

theorem readRebaseLoop_words {fuel segmentIndex : Nat} :
    (readRebaseLoop obj stop fuel r).Ensures fun r' =>
      r'.mem = r.mem.addAll obj.fSlide
        ((readRebaseLoopFixups obj stop fuel segmentIndex r).map fun f => f.2.address) := by
  induction fuel generalizing r segmentIndex with
  | zero => exact nofun
  | succ fuel ih =>
    unfold readRebaseLoop readRebaseLoopFixups
    split
    · refine .bind fun v hop => ?_
      obtain ⟨finished, r1⟩ := v
      have hmem : r1.mem = r.mem.addAll obj.fSlide
          ((readRebaseOpFixups obj stop r).map (·.address)) := readRebaseOp_words _ hop
      simp only [hop, List.map_append, List.map_map, Function.comp_def, addAll_append, ← hmem]
      cases finished with
      | true => exact .done rfl
      | false => exact ih
    · exact .done rfl

/-! ## Two runs -/

def MachObject.atSlide (obj : MachObject) (slide : Word) : MachObject :=
  { obj with fSlide := slide }

variable {s1 s2 : Word} {r1 r2 : Rebasing} {v1 v2 : Bool × Rebasing}

/-- The addresses lie equally far behind the two slides. -/
def Shifted (s1 s2 : Word) (a1 a2 : Addr) : Prop := a1 - s1 = a2 - s2

theorem Shifted.add {a1 a2 : Addr} (h : Shifted s1 s2 a1 a2) (n : Word) :
    Shifted s1 s2 (a1 + n) (a2 + n) := by
  unfold Shifted at *
  bv_omega

theorem segActualLoadAddr_shifted (index : Nat) :
    EnsuresBoth (Shifted s1 s2) (segActualLoadAddr (obj.atSlide s1) index)
      (segActualLoadAddr (obj.atSlide s2) index) := by
  refine .bind_same fun seg _ => .done ?_
  unfold Shifted MachObject.atSlide
  bv_omega

theorem rebaseTimes_shifted (step : Word) (count : Nat)
    (h : Shifted s1 s2 r1.address r2.address) :
    EnsuresBoth (fun r1' r2' =>
        (rebaseTimesFixups (obj.atSlide s1) step count r1).map (fun f => f.address - s1) =
          (rebaseTimesFixups (obj.atSlide s2) step count r2).map (fun f => f.address - s2) ∧
        Shifted s1 s2 r1'.address r2'.address)
      (rebaseTimes (obj.atSlide s1) step count r1)
      (rebaseTimes (obj.atSlide s2) step count r2) := by
  intro r1' r2' h1 h2
  obtain ⟨hwords1, hend1, -⟩ := rebaseTimes_words _ h1
  obtain ⟨hwords2, hend2, -⟩ := rebaseTimes_words _ h2
  refine ⟨?_, by rw [hend1, hend2]; exact h.add _⟩
  have hmap1 := congrArg (List.map (· - s1)) hwords1
  have hmap2 := congrArg (List.map (· - s2)) hwords2
  rw [List.map_map, List.map_map] at hmap1 hmap2
  refine hmap1.trans (Eq.trans ?_ hmap2.symm)
  exact List.map_congr_left fun i _ => h.add _

/-- What two runs of an instruction have in common at two slides. -/
def ShiftedBy (i : RebaseInstr) (obj : MachObject) (s1 s2 : Word) (r1 r2 : Rebasing)
    (v1 v2 : Bool × Rebasing) : Prop :=
  (i.fixups (obj.atSlide s1) r1).map (fun f => f.address - s1) =
      (i.fixups (obj.atSlide s2) r2).map (fun f => f.address - s2) ∧
    v1.1 = v2.1 ∧ Shifted s1 s2 v1.2.address v2.2.address

theorem RebaseInstr.exec_shifted (i : RebaseInstr) (h : Shifted s1 s2 r1.address r2.address) :
    EnsuresBoth (ShiftedBy i obj s1 s2 r1 r2) (i.exec (obj.atSlide s1) r1)
      (i.exec (obj.atSlide s2) r2) := by
  cases i with
  | done => exact .done ⟨rfl, rfl, h⟩
  | setTypeImm immediate => exact .done ⟨rfl, rfl, h⟩
  | setSegmentAndOffsetUleb immediate offset =>
    refine .ite (fun _ => .halt _ _) fun _ => .bind fun base1 base2 hbase1 hbase2 => ?_
    have hbase : Shifted s1 s2 base1 base2 :=
      segActualLoadAddr_shifted immediate.toNat _ _ hbase1 hbase2
    exact .bind_same fun offset _ => .bind fun end1 end2 _ _ => .done ⟨rfl, rfl, hbase.add offset⟩
  | addAddrUleb n => exact .bind_same fun n _ => .done ⟨rfl, rfl, h.add n⟩
  | addAddrImmScaled immediate => exact .done ⟨rfl, rfl, h.add _⟩
  | doRebaseImmTimes immediate =>
    refine .bind fun r1' r2' h1 h2 => .done ?_
    obtain ⟨hwords, hend⟩ := rebaseTimes_shifted 4 immediate.toNat h _ _ h1 h2
    exact ⟨hwords, rfl, hend⟩
  | doRebaseUlebTimes count =>
    refine .bind_same fun n hn => .bind fun r1' r2' h1 h2 => .done ?_
    subst hn
    obtain ⟨hwords, hend⟩ := rebaseTimes_shifted 4 n.toNat h _ _ h1 h2
    exact ⟨hwords, rfl, hend⟩
  | doRebaseAddAddrUleb n =>
    refine .bind fun r1' r2' h1 h2 => .bind_same fun n _ => .done ?_
    obtain ⟨hwords, hend⟩ :=
      rebaseTimes_shifted 0 1 h _ _ (rebaseTimes_one h1) (rebaseTimes_one h2)
    exact ⟨hwords, rfl, hend.add _⟩
  | doRebaseUlebTimesSkippingUleb count skip =>
    refine .bind_same fun n hn => .bind_same fun m hm => .bind fun r1' r2' h1 h2 => .done ?_
    subst hn hm
    obtain ⟨hwords, hend⟩ := rebaseTimes_shifted (m + 4) n.toNat h _ _ h1 h2
    exact ⟨hwords, rfl, hend⟩
  | invalid => exact .halt _ _

theorem run_shifted (l : List RebaseInstr) (h : Shifted s1 s2 r1.address r2.address)
    (h1 : (rebaseSemantics (obj.atSlide s1)).run l r1 = done v1)
    (h2 : (rebaseSemantics (obj.atSlide s2)).run l r2 = done v2) :
    ((rebaseSemantics (obj.atSlide s1)).observe l r1).map (fun f => f.address - s1) =
      ((rebaseSemantics (obj.atSlide s2)).observe l r2).map (fun f => f.address - s2) := by
  induction l generalizing r1 r2 with
  | nil => rfl
  | cons i l ih =>
    obtain ⟨⟨finished1, r1'⟩, hexec1, h1⟩ := bind_eq_done.mp h1
    obtain ⟨⟨finished2, r2'⟩, hexec2, h2⟩ := bind_eq_done.mp h2
    obtain ⟨hwords, hfinished, hnext⟩ := i.exec_shifted h _ _ hexec1 hexec2
    obtain rfl : finished1 = finished2 := hfinished
    cases finished1 with
    | true =>
      rw [Semantics.observe_cons_of_ended _ (fun s' h => by simp [hexec1] at h),
        Semantics.observe_cons_of_ended _ (fun s' h => by simp [hexec2] at h)]
      exact hwords
    | false =>
      rw [Semantics.observe_cons_of_done _ hexec1, Semantics.observe_cons_of_done _ hexec2,
        List.map_append, List.map_append, ih hnext h1 h2]
      exact congrArg (· ++ _) hwords

/-! ## The stream in memory -/

variable {mem mem' mem1 mem2 : Mem} {start stop : Addr}

theorem readRebase_eq_done (h : readRebase mem obj start stop = done mem')
    (hclear : RebasesClear mem obj start stop) :
    ∃ address segEnd v, segActualLoadAddr obj 0 = done address ∧
      (rebaseSemantics obj).run (decodeRebase (mem.slice start stop))
        (rebaseStart mem address segEnd) = done v ∧
      v.2.mem = mem' ∧
      rebasedWords mem obj start stop =
        ((rebaseSemantics obj).observe (decodeRebase (mem.slice start stop))
          (rebaseStart mem address segEnd)).map (·.address) := by
  obtain ⟨address, haddress, hrest⟩ := bind_eq_done.mp h
  obtain ⟨segEnd, hsegEnd, -⟩ := bind_eq_done.mp hrest
  obtain ⟨hfixups, hrun⟩ := readRebase_eq haddress hsegEnd (.inl hclear)
  rw [h] at hrun
  obtain ⟨v, hv, hmem⟩ := bind_eq_done.mp hrun.symm
  refine ⟨address, segEnd, v, haddress, hv, done.inj hmem, ?_⟩
  rw [← hfixups, List.map_map]
  rfl

theorem rebasedWords_shifted (h1 : readRebase mem (obj.atSlide s1) start stop = done mem1)
    (h2 : readRebase mem (obj.atSlide s2) start stop = done mem2)
    (hclear1 : RebasesClear mem (obj.atSlide s1) start stop)
    (hclear2 : RebasesClear mem (obj.atSlide s2) start stop) :
    (rebasedWords mem (obj.atSlide s1) start stop).map (· - s1) =
      (rebasedWords mem (obj.atSlide s2) start stop).map (· - s2) := by
  obtain ⟨a1, e1, v1, haddress1, hrun1, -, hwords1⟩ := readRebase_eq_done h1 hclear1
  obtain ⟨a2, e2, v2, haddress2, hrun2, -, hwords2⟩ := readRebase_eq_done h2 hclear2
  have hstart : Shifted s1 s2 a1 a2 := segActualLoadAddr_shifted 0 _ _ haddress1 haddress2
  have hshifted := run_shifted _ hstart hrun1 hrun2
  rw [hwords1, hwords2, List.map_map, List.map_map]
  exact hshifted

theorem readRebase_words (h : readRebase mem obj start stop = done mem') :
    mem' = mem.addAll obj.fSlide (rebasedWords mem obj start stop) := by
  obtain ⟨address, haddress, h⟩ := bind_eq_done.mp h
  obtain ⟨segEnd, hsegEnd, h⟩ := bind_eq_done.mp h
  obtain ⟨r, hr, h⟩ := bind_eq_done.mp h
  obtain rfl := done.inj h
  unfold rebasedWords readRebaseFixups
  rw [haddress, hsegEnd]
  exact readRebaseLoop_words r hr

/-- No two different words overlap. -/
def NoOverlap (words : List Addr) : Prop := ∀ a ∈ words, ∀ b ∈ words, SameOrApart a b

/-- Each word grows by the slide as often as it is listed, and no other byte changes. -/
def GrowBy (slide : Word) (words : List Addr) (mem mem' : Mem) : Prop :=
  (∀ a ∈ words, mem'.load a = mem.load a + BitVec.ofNat 32 (words.count a) * slide) ∧
    ∀ x, (∀ a ∈ words, ¬ InWord a x) → mem' x = mem x

theorem growBy_addAll {slide : Word} {words : List Addr} (h : NoOverlap words) :
    GrowBy slide words mem (mem.addAll slide words) :=
  ⟨fun a ha => load_addAll fun b hb => h b hb a ha, fun _ hx => addAll_outside hx⟩

/-- **Rebasing is position independent.** Two slides at which the stream ends rebase the same
words of the image. Where these do not overlap, they grow by the slide, and nothing else changes. -/
theorem readRebase_slides (mem mem1 mem2 : Mem) (obj : MachObject) (start stop : Addr)
    (s1 s2 : Word) (h1 : readRebase mem (obj.atSlide s1) start stop = done mem1)
    (h2 : readRebase mem (obj.atSlide s2) start stop = done mem2)
    (hclear1 : RebasesClear mem (obj.atSlide s1) start stop)
    (hclear2 : RebasesClear mem (obj.atSlide s2) start stop) :
    (rebasedWords mem (obj.atSlide s1) start stop).map (· - s1) =
        (rebasedWords mem (obj.atSlide s2) start stop).map (· - s2) ∧
      (NoOverlap (rebasedWords mem (obj.atSlide s1) start stop) →
        GrowBy s1 (rebasedWords mem (obj.atSlide s1) start stop) mem mem1) ∧
      (NoOverlap (rebasedWords mem (obj.atSlide s2) start stop) →
        GrowBy s2 (rebasedWords mem (obj.atSlide s2) start stop) mem mem2) := by
  refine ⟨rebasedWords_shifted h1 h2 hclear1 hclear2, fun hwords => ?_, fun hwords => ?_⟩
  · rw [readRebase_words h1]
    exact growBy_addAll hwords
  · rw [readRebase_words h2]
    exact growBy_addAll hwords

/-! The two words of `rebaseSampleObject`, at two slides. -/

theorem rebaseSample_words :
    rebasedWords rebaseSampleMem (rebaseSampleObject.atSlide 0x20) 0x2020 0x2025 =
        [0x1020, 0x1024] ∧
      rebasedWords rebaseSampleMem (rebaseSampleObject.atSlide 0x300) 0x2020 0x2025 =
        [0x1300, 0x1304] := by decide

theorem rebaseSample_clear (slide : Word) (h : ∀ a ∈ rebasedWords rebaseSampleMem
    (rebaseSampleObject.atSlide slide) 0x2020 0x2025, a < 0x2000) :
    RebasesClear rebaseSampleMem (rebaseSampleObject.atSlide slide) 0x2020 0x2025 := by
  intro f hf _ x hin hx
  have hlow : f.2.address < 0x2000 := h _ (List.mem_map_of_mem hf)
  unfold InWord at hin
  bv_omega

theorem readRebase_slides_sample : ∃ mem1 mem2,
    readRebase rebaseSampleMem (rebaseSampleObject.atSlide 0x20) 0x2020 0x2025 = done mem1 ∧
      readRebase rebaseSampleMem (rebaseSampleObject.atSlide 0x300) 0x2020 0x2025 = done mem2 ∧
      GrowBy 0x20 [0x1020, 0x1024] rebaseSampleMem mem1 ∧
      GrowBy 0x300 [0x1300, 0x1304] rebaseSampleMem mem2 := by
  obtain ⟨hwords1, hwords2⟩ := rebaseSample_words
  obtain ⟨mem1, h1⟩ : ∃ mem1,
    readRebase rebaseSampleMem (rebaseSampleObject.atSlide 0x20) 0x2020 0x2025 = done mem1 :=
      ⟨_, rfl⟩
  obtain ⟨mem2, h2⟩ : ∃ mem2,
    readRebase rebaseSampleMem (rebaseSampleObject.atSlide 0x300) 0x2020 0x2025 = done mem2 :=
      ⟨_, rfl⟩
  have hclear1 := rebaseSample_clear 0x20 (by rw [hwords1]; simp)
  have hclear2 := rebaseSample_clear 0x300 (by rw [hwords2]; simp)
  obtain ⟨-, hgrow1, hgrow2⟩ := readRebase_slides rebaseSampleMem mem1 mem2 rebaseSampleObject
    0x2020 0x2025 0x20 0x300 h1 h2 hclear1 hclear2
  rw [hwords1] at hgrow1
  rw [hwords2] at hgrow2
  refine ⟨mem1, mem2, h1, h2, hgrow1 ?_, hgrow2 ?_⟩
  · simp [NoOverlap, SameOrApart, apart_iff]
  · simp [NoOverlap, SameOrApart, apart_iff]

end LibSystem.Lnk
