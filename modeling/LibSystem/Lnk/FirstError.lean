import LibSystem.Lnk.SegmentIndices
import LibSystem.Lnk.Slides

/-!
# The first error

Where `readRebase` halts, `rebaseCompressed` prints a line and goes on. It ends with the memory
that `readRebase` has built only if nothing that comes after such a line stores a word.
-/

namespace LibSystem.Lnk

open Outcome Mem

/-! ## The stores -/

namespace Rebasing

/-- `rebaseAt` has a case for the type. -/
def Known (r : Rebasing) : Prop :=
  r.type = rebaseTypePointer ∨ r.type = rebaseTypeTextAbsolute32

instance (r : Rebasing) : Decidable r.Known := inferInstanceAs (Decidable (_ ∨ _))

/-- How the opcode at the cursor rebases: the step, how often, and the cursor behind the numbers
that say so. -/
def repeats (stop : Addr) (r : Rebasing) : Outcome (Word × Nat × Addr) :=
  if r.opcode = rebaseOpcodeDoRebaseImmTimes then .done (4, r.immediate.toNat, r.p + 1)
  else if r.opcode = rebaseOpcodeDoRebaseUlebTimes then do
    let (count, p) ← readUleb128 r.mem (r.p + 1) stop
    .done (4, count.toNat, p)
  else if r.opcode = rebaseOpcodeDoRebaseAddAddrUleb then .done (0, 1, r.p + 1)
  else if r.opcode = rebaseOpcodeDoRebaseUlebTimesSkippingUleb then do
    let (count, p) ← readUleb128 r.mem (r.p + 1) stop
    let (skip, p) ← readUleb128 r.mem p stop
    .done (skip + 4, count.toNat, p)
  else .done (0, 0, r.p + 1)

end Rebasing

/-- The fix-ups that are repeated, which `f` lists. -/
def repeated {α : Type} (x : Outcome (Word × Nat × Addr)) (f : Word → Nat → Addr → List α) :
    List α :=
  match x with
  | .done (step, count, p) => f step count p
  | _ => []

@[simp] theorem repeated_done {α : Type} (step : Word) (count : Nat) (p : Addr)
    (f : Word → Nat → Addr → List α) : repeated (.done (step, count, p)) f = f step count p := rfl

instance : DecidablePred RebaseStores := fun _ => inferInstanceAs (Decidable (_ ∧ _))

/-- The words that are stored, where these are the fix-ups of `readRebase`. -/
def storedWords (fixups : List Rebasing) : List Addr :=
  (fixups.filter fun r => RebaseStores r).map (·.address)

def readRebaseStores (mem : Mem) (obj : MachObject) (start stop : Addr) : List Addr :=
  storedWords ((readRebaseFixups mem obj start stop).map Prod.snd)

namespace Bootstrap

def rebaseTimesFixups (slide : Word) (text : String) (step : Word) : Nat → State → List State
  | 0, _ => []
  | count + 1, s => s :: rebaseTimesFixups slide text step count (rebaseOne slide text step s)

/-- What the opcode prints at an address behind the segment. -/
def rebaseText (opcode : Byte) : String :=
  if opcode = rebaseOpcodeDoRebaseImmTimes then
    "LNK_RELOC_ERROR: baaaad REBASE_OPCODE_DO_REBASE_IMM_TIMES \n"
  else if opcode = rebaseOpcodeDoRebaseUlebTimes then
    "LNK_RELOC_ERROR: baaaad REBASE_OPCODE_DO_REBASE_ULEB_TIMES \n"
  else if opcode = rebaseOpcodeDoRebaseAddAddrUleb then
    "LNK_RELOC_ERROR: baaaad REBASE_OPCODE_DO_REBASE_ADD_ADDR_ULEB \n"
  else "LNK_RELOC_ERROR: baaaad REBASE_OPCODE_DO_REBASE_ULEB_TIMES_SKIPPING_ULEB \n"

/-- The fix-ups that one opcode makes. -/
def rebaseOpFixups (slide : Word) (stop : Addr) (s : State) : List State :=
  repeated (s.repeats stop) fun step count p =>
    rebaseTimesFixups slide (rebaseText s.opcode) step count { s with p := p }

def rebaseFixups (mem : Mem) (segments : List SegmentCommand) (slide : Word) (start stop : Addr) :
    List State :=
  (rebaseTurns mem segments slide start stop).flatMap (rebaseOpFixups slide stop)

/-- The words that are stored: an address behind the segment does not keep them from it. -/
def storedWords (fixups : List State) : List Addr :=
  (fixups.filter fun s => s.Known).map (·.address)

def rebaseStores (mem : Mem) (segments : List SegmentCommand) (slide : Word) (start stop : Addr) :
    List Addr :=
  storedWords (rebaseFixups mem segments slide start stop)

/-! ## One fix-up -/

section Fixups

variable {slide step : Word} {text : String} {count : Nat} {obj : MachObject} {stop : Addr}
variable {s : State}

theorem rebaseOne_eq (slide : Word) (text : String) (step : Word) (s : State) :
    rebaseOne slide text step s =
      { s with
        mem := if s.Known then s.mem.add slide s.address else s.mem
        address := s.address + step
        reports := s.reports ++ (if s.segmentEndAddress ≤ s.address then [text] else []) ++
          (if s.Known then [] else ["LNK_RELOC_ERROR: baaaad rebase type\n"]) } := by
  have hreport : (if s.segmentEndAddress ≤ s.address then s.report text else s) =
      { s with
        reports := s.reports ++ (if s.segmentEndAddress ≤ s.address then [text] else []) } := by
    split
    · rfl
    · rw [List.append_nil]
  unfold rebaseOne rebaseAt Rebasing.Known
  rw [hreport]
  by_cases hpointer : s.type = rebaseTypePointer
  · simp [hpointer, add]
  by_cases habsolute : s.type = rebaseTypeTextAbsolute32
  · simp [habsolute, add]
  · simp [hpointer, habsolute]

theorem rebaseOne_follows (text : String) (step : Word) (s : State) :
    (rebaseOne obj.fSlide text step s).reports = s.reports ∧
        Lnk.rebaseOne obj step s.toRebasing =
          done (rebaseOne obj.fSlide text step s).toRebasing ∨
      s.reports.length < (rebaseOne obj.fSlide text step s).reports.length := by
  rw [rebaseOne_eq]
  by_cases hend : s.segmentEndAddress ≤ s.address
  · right
    simp only [if_pos hend, List.length_append, List.length_singleton]
    omega
  by_cases hknown : s.Known
  · left
    have hmem : Lnk.rebaseAt s.mem s.address obj.fSlide s.type =
        done (s.mem.add obj.fSlide s.address) := by
      rcases hknown with htype | htype
      · rw [Lnk.rebaseAt, if_pos htype, add]
      · rw [Lnk.rebaseAt, if_pos htype, ite_self, add]
    simp only [if_neg hend, if_pos hknown, List.append_nil, true_and]
    rw [Lnk.rebaseOne, if_neg hend, hmem, done_bind]
  · right
    simp only [if_neg hknown, List.length_append, List.length_singleton]
    omega

theorem rebaseTimes_follows (text : String) (step : Word) (count : Nat) (s : State) :
    (rebaseTimes obj.fSlide text step count s).reports = s.reports ∧
        Lnk.rebaseTimes obj step count s.toRebasing =
          done (rebaseTimes obj.fSlide text step count s).toRebasing ∨
      s.reports.length < (rebaseTimes obj.fSlide text step count s).reports.length := by
  induction count generalizing s with
  | zero => exact .inl ⟨rfl, rfl⟩
  | succ count ih =>
    rw [rebaseTimes, Lnk.rebaseTimes]
    rcases @rebaseOne_follows obj text step s with ⟨hreports, hone⟩ | hlonger
    · rw [hone, done_bind, ← hreports]
      exact ih _
    · rcases ih (rebaseOne obj.fSlide text step s) with ⟨hreports, -⟩ | hlonger'
      · exact .inr (by rwa [hreports])
      · exact .inr (by omega)

theorem rebaseTimes_p (text : String) (step : Word) (count : Nat) (s : State) :
    (rebaseTimes slide text step count s).p = s.p := by
  induction count generalizing s with
  | zero => rfl
  | succ count ih => rw [rebaseTimes, ih, rebaseOne_eq]

theorem rebaseTimes_mem (text : String) (step : Word) (count : Nat) (s : State) :
    (rebaseTimes slide text step count s).mem =
      s.mem.addAll slide (storedWords (rebaseTimesFixups slide text step count s)) := by
  induction count generalizing s with
  | zero => rfl
  | succ count ih =>
    rw [rebaseTimes, ih, rebaseTimesFixups, rebaseOne_eq]
    unfold storedWords
    by_cases hknown : s.Known
    · simp [hknown]
    · simp [hknown]

/-- A fix-up stores nothing after an error, its own included. -/
def State.Silent (s : State) : Prop :=
  s.Known → s.reports = [] ∧ s.address < s.segmentEndAddress

theorem rebaseTimes_silent_iff (text : String) (step : Word) (count : Nat) (s : State) :
    (∀ f ∈ rebaseTimesFixups slide text step count s, f.Silent) ↔
      (s.Known → ∀ i < count, s.reports = [] ∧
        s.address + BitVec.ofNat 32 i * step < s.segmentEndAddress) := by
  induction count generalizing s with
  | zero => simp [rebaseTimesFixups]
  | succ count ih =>
    rw [rebaseTimesFixups, List.forall_mem_cons, ih, rebaseOne_eq]
    dsimp only
    constructor
    · rintro ⟨hfirst, hrest⟩ hknown i hi
      obtain ⟨hreports, hinside⟩ := hfirst hknown
      cases i with
      | zero => exact ⟨hreports, by simpa using hinside⟩
      | succ i =>
        rw [← Mem.next_stride]
        exact ⟨hreports, (hrest hknown i (by omega)).2⟩
    · intro h
      have hfirst : s.Silent := fun hknown => by simpa using h hknown 0 (by omega)
      refine ⟨hfirst, fun (hknown : s.Known) i hi => ?_⟩
      obtain ⟨hreports, hinside⟩ := hfirst hknown
      have hend : ¬ s.segmentEndAddress ≤ s.address := BitVec.not_le.mpr hinside
      rw [Mem.next_stride, if_neg hend, if_pos hknown, hreports]
      exact ⟨rfl, (h hknown (i + 1) (by omega)).2⟩

theorem storedWords_of_unknown (h : ¬ s.Known) :
    storedWords (rebaseTimesFixups slide text step count s) = [] := by
  induction count generalizing s with
  | zero => rfl
  | succ count ih =>
    have hrest := @ih (rebaseOne slide text step s) (by rw [rebaseOne_eq]; exact h)
    unfold storedWords at *
    rw [rebaseTimesFixups, List.filter_cons_of_neg (by simpa using h), hrest]

theorem image_storedWords_of_unknown {r : Rebasing} (h : ¬ r.Known) :
    Lnk.storedWords (Lnk.rebaseTimesFixups obj step count r) = [] := by
  have hstores : ¬ RebaseStores r := fun hr => h hr.2
  cases count with
  | zero => rfl
  | succ count =>
    unfold Lnk.storedWords
    rw [Lnk.rebaseTimesFixups, List.filter_cons_of_neg (by simpa using hstores)]
    cases hone : Lnk.rebaseOne obj step r with
    | done r1 => exact absurd (rebaseOne_eq_done hone).1 hstores
    | halt msg => rfl
    | fault => rfl
    | timeout => rfl

theorem storedWords_eq {r : Rebasing} {reports : List String} (hknown : r.Known)
    (hinside : ∀ i < count, r.address + BitVec.ofNat 32 i * step < r.segmentEndAddress) :
    storedWords (rebaseTimesFixups obj.fSlide text step count ⟨r, reports⟩) =
      Lnk.storedWords (Lnk.rebaseTimesFixups obj step count r) := by
  induction count generalizing r reports with
  | zero => rfl
  | succ count ih =>
    have hfirst : r.address < r.segmentEndAddress := by simpa using hinside 0 (by omega)
    have hone : rebaseOne obj.fSlide text step ⟨r, reports⟩ =
        ⟨{ r with mem := r.mem.add obj.fSlide r.address, address := r.address + step },
          reports⟩ := by
      rw [rebaseOne_eq]
      simp [hknown, BitVec.not_le.mpr hfirst]
    have himage : Lnk.rebaseOne obj step r =
        done { r with mem := r.mem.add obj.fSlide r.address, address := r.address + step } := by
      rcases @rebaseOne_follows obj text step ⟨r, reports⟩ with ⟨-, h⟩ | h
      · rwa [hone] at h
      · simp [hone] at h
    have hrest := @ih { r with
      mem := r.mem.add obj.fSlide r.address, address := r.address + step } reports hknown
      fun i hi => by
        rw [Mem.next_stride]
        exact hinside (i + 1) (by omega)
    have hstores : RebaseStores r := ⟨hfirst, hknown⟩
    unfold storedWords Lnk.storedWords at *
    rw [rebaseTimesFixups, hone, Lnk.rebaseTimesFixups, himage,
      List.filter_cons_of_pos (by simpa using hknown),
      List.filter_cons_of_pos (by simpa using hstores), List.map_cons, List.map_cons, hrest]

end Fixups

/-! ## One opcode -/

section Opcode

variable {slide : Word} {obj : MachObject} {stop : Addr} {s : State}
variable {x : Outcome (Bool × Rebasing)} {y : Outcome (Bool × State)}

/-- If the linker's opcode ends, the cursor has moved, up to `stop`, and either the image's opcode
ends in the same way or something has been printed. -/
def Follows (stop : Addr) (s : State) (x : Outcome (Bool × Rebasing)) (y : Outcome (Bool × State)) :
    Prop :=
  y.Ensures fun v => (s.p < v.2.p ∧ v.2.p ≤ stop) ∧
    (v.2.reports = s.reports ∧ x = .done (v.1, v.2.toRebasing) ∨
      s.reports.length < v.2.reports.length)

theorem Follows.same {finished : Bool} {r : Rebasing} (h : s.p < r.p ∧ r.p ≤ stop) :
    Follows stop s (.done (finished, r)) (.done (finished, ⟨r, s.reports⟩)) :=
  .done ⟨h, .inl ⟨rfl, rfl⟩⟩

theorem Follows.printed {finished : Bool} {s' : State} (h : s.p < s'.p ∧ s'.p ≤ stop)
    (hlonger : s.reports.length < s'.reports.length) : Follows stop s x (.done (finished, s')) :=
  .done ⟨h, .inr hlonger⟩

theorem Follows.ite {c : Prop} [Decidable c] {x' : Outcome (Bool × Rebasing)}
    {y' : Outcome (Bool × State)} (h : Follows stop s x y) (h' : Follows stop s x' y') :
    Follows stop s (if c then x else x') (if c then y else y') := by
  split
  · exact h
  · exact h'

theorem Follows.read {mem : Mem} {q : Addr} {f : Word × Addr → Outcome (Bool × Rebasing)}
    {g : Word × Addr → Outcome (Bool × State)} (hq : s.p < q ∧ q ≤ stop)
    (h : ∀ v q', s.p < q' ∧ q' ≤ stop → Follows stop s (f (v, q')) (g (v, q'))) :
    Follows stop s (readUleb128 mem q stop >>= f) (readUleb128 mem q stop >>= g) := by
  refine .bind fun ⟨v, q'⟩ hread => ?_
  obtain ⟨hlt, hle⟩ := readUleb128Loop_cursor hq.2 hread
  rw [hread, done_bind]
  exact h v q' ⟨BitVec.lt_trans hq.1 hlt, hle⟩

theorem Follows.times {step : Word} {count : Nat} (text : String) {r : Rebasing}
    (h : s.p < r.p ∧ r.p ≤ stop) :
    Follows stop s (Lnk.rebaseTimes obj step count r >>= fun r => .done (false, r))
      (.done (false, rebaseTimes obj.fSlide text step count ⟨r, s.reports⟩)) := by
  have hp : s.p < (rebaseTimes obj.fSlide text step count ⟨r, s.reports⟩).p ∧
      (rebaseTimes obj.fSlide text step count ⟨r, s.reports⟩).p ≤ stop := by
    rwa [rebaseTimes_p]
  refine .done ⟨hp, ?_⟩
  rcases rebaseTimes_follows text step count ⟨r, s.reports⟩ with ⟨hreports, htimes⟩ | hlonger
  · exact .inl ⟨hreports, by rw [htimes, done_bind]⟩
  · exact .inr hlonger

theorem rebaseOp_follows (hgo : s.p < stop) :
    Follows stop s (readRebaseOp obj stop s.toRebasing)
      (rebaseOp obj.fSegmentLoadCommands obj.fSlide stop s) := by
  have hsucc : s.p < s.p + 1 ∧ s.p + 1 ≤ stop := by bv_omega
  unfold readRebaseOp rebaseOp
  dsimp only
  refine .ite ?_ (.ite ?_ (.ite ?_ (.ite ?_ (.ite ?_ (.ite ?_ (.ite ?_ (.ite ?_
    (.ite ?_ ?_))))))))
  · exact .same hsucc
  · exact .same hsucc
  · by_cases hcount : obj.fSegmentLoadCommands.length <
        (s.mem s.p &&& rebaseImmediateMask).toNat
    · rw [ofOption_of_le (Nat.le_of_lt hcount)]
      exact .fault
    rw [if_neg hcount, if_neg hcount]
    unfold segActualEndAddr segActualLoadAddr
    cases obj.fSegmentLoadCommands[(s.mem s.p &&& rebaseImmediateMask).toNat]? with
    | none => exact .fault
    | some seg =>
      simp only [ofOption_some, done_bind]
      refine .read hsucc fun offset q hq => ?_
      have hend : seg.vmaddr + seg.vmsize + obj.fSlide = seg.vmaddr + obj.fSlide + seg.vmsize := by
        ac_rfl
      rw [hend]
      exact .same hq
  · exact .read hsucc fun n q hq => .same hq
  · exact .same hsucc
  · exact .times _ hsucc
  · exact .read hsucc fun count q hq => .times _ hq
  · generalize "LNK_RELOC_ERROR: baaaad REBASE_OPCODE_DO_REBASE_ADD_ADDR_ULEB \n" = text
    have hp : s.p < (rebaseOne obj.fSlide text 0 { s with p := s.p + 1 }).p ∧
        (rebaseOne obj.fSlide text 0 { s with p := s.p + 1 }).p ≤ stop := by
      rwa [rebaseOne_eq]
    rcases @rebaseOne_follows obj text 0 { s with p := s.p + 1 } with ⟨hreports, hone⟩ | hlonger
    · rw [hone, done_bind]
      exact .read hp fun n q hq => .done ⟨hq, .inl ⟨hreports, rfl⟩⟩
    · refine .bind fun ⟨n, q⟩ hread => .done ⟨?_, .inr hlonger⟩
      obtain ⟨hlt, hle⟩ := readUleb128Loop_cursor hp.2 hread
      exact ⟨BitVec.lt_trans hp.1 hlt, hle⟩
  · exact .read hsucc fun count q hq => .read hq fun skip q' hq' => .times _ hq'
  · exact .printed hsucc (by simp [State.report])

theorem rebaseOp_mem {segments : List SegmentCommand} :
    (rebaseOp segments slide stop s).Ensures fun v =>
      v.2.mem = s.mem.addAll slide (storedWords (rebaseOpFixups slide stop s)) := by
  unfold rebaseOp rebaseOpFixups Rebasing.repeats Rebasing.opcode Rebasing.immediate
  dsimp only
  refine .ite (fun hop => .done ?_) fun _ => .ite (fun hop => .done ?_) fun _ =>
    .ite (fun hop => .bind fun seg _ => .bind fun offset _ => .done ?_) fun _ =>
    .ite (fun hop => .bind fun n _ => .done ?_) fun _ => .ite (fun hop => .done ?_) fun _ =>
    .ite (fun hop => .done ?_) fun himm => .ite (fun hop => ?_) fun huleb =>
    .ite (fun hop => ?_) fun hadd => .ite (fun hop => ?_) fun hskip => .done ?_
  · rw [hop]; rfl
  · rw [hop]; rfl
  · rw [hop]
    split
    · rfl
    · rfl
  · rw [hop]; rfl
  · rw [hop]; rfl
  · rw [hop]
    exact rebaseTimes_mem _ _ _ _
  · refine .bind fun n hn => .done ?_
    simp only [hop, hn]
    exact rebaseTimes_mem _ _ _ _
  · refine .bind fun n hn => .done ?_
    simp only [hop]
    exact rebaseTimes_mem _ _ 1 _
  · refine .bind fun n hn => .bind fun m hm => .done ?_
    simp only [hop, hn, hm, done_bind]
    exact rebaseTimes_mem _ _ _ _
  · rw [if_neg himm, if_neg huleb, if_neg hadd, if_neg hskip]
    rfl

theorem settles_ofOption_iff {α : Type} {l : List α} {index : Nat} :
    (ofOption l[index]?).Settles ↔ index < l.length := by
  constructor
  · intro h
    by_contra hlt
    rw [ofOption_of_le (Nat.not_lt.mp hlt)] at h
    exact not_settles_fault h
  · intro h
    obtain ⟨a, ha⟩ := ofOption_of_lt h
    rw [ha]
    exact settles_done a

theorem rebaseOp_settles_iff {segments : List SegmentCommand} :
    (rebaseOp segments slide stop s).Settles ↔
      (s.opcode = rebaseOpcodeSetSegmentAndOffsetUleb → s.immediate.toNat < segments.length) := by
  by_cases hselect : s.opcode = rebaseOpcodeSetSegmentAndOffsetUleb
  · have hdone : rebaseOpcodeSetSegmentAndOffsetUleb ≠ rebaseOpcodeDone := by decide
    have htype : rebaseOpcodeSetSegmentAndOffsetUleb ≠ rebaseOpcodeSetTypeImm := by decide
    rw [forall_prop_of_true hselect]
    unfold Rebasing.opcode at hselect
    unfold rebaseOp
    simp only [hselect, if_neg hdone, if_neg htype, if_true]
    refine settles_bind.trans ((and_iff_left fun seg _ => ?_).trans settles_ofOption_iff)
    exact settles_bind.mpr ⟨readUleb128_settles, fun v _ => settles_done _⟩
  · refine iff_of_true ?_ fun h => absurd h hselect
    unfold Rebasing.opcode at hselect
    unfold rebaseOp
    dsimp only
    rw [if_neg hselect]
    repeat' split
    all_goals simp [settles_bind, readUleb128_settles]

/-- The image's fix-ups are repeated in the same way. -/
theorem readRebaseOpFixups_repeated {r : Rebasing} :
    readRebaseOpFixups obj stop r =
      repeated (r.repeats stop) fun step count p =>
        Lnk.rebaseTimesFixups obj step count { r with p := p } := by
  unfold readRebaseOpFixups Rebasing.repeats
  by_cases himm : r.opcode = rebaseOpcodeDoRebaseImmTimes
  · rw [if_pos himm]
    exact if_pos himm
  rw [if_neg himm]
  refine (if_neg himm).trans ?_
  by_cases huleb : r.opcode = rebaseOpcodeDoRebaseUlebTimes
  · rw [if_pos huleb]
    refine (if_pos huleb).trans ?_
    dsimp only
    cases readUleb128 r.mem (r.p + 1) stop with
    | done v => rfl
    | halt msg => rfl
    | fault => rfl
    | timeout => rfl
  rw [if_neg huleb]
  refine (if_neg huleb).trans ?_
  by_cases hadd : r.opcode = rebaseOpcodeDoRebaseAddAddrUleb
  · rw [if_pos hadd]
    exact if_pos hadd
  rw [if_neg hadd]
  refine (if_neg hadd).trans ?_
  by_cases hskip : r.opcode = rebaseOpcodeDoRebaseUlebTimesSkippingUleb
  · rw [if_pos hskip]
    refine (if_pos hskip).trans ?_
    dsimp only
    cases readUleb128 r.mem (r.p + 1) stop with
    | done v =>
      rw [done_bind, done_bind]
      cases readUleb128 r.mem v.2 stop with
      | done w => rfl
      | halt msg => rfl
      | fault => rfl
      | timeout => rfl
    | halt msg => rfl
    | fault => rfl
    | timeout => rfl
  · rw [if_neg hskip]
    exact if_neg hskip

/-- What an opcode may do: it selects a segment that is there, and if it rebases with a known type,
then nothing has been printed yet, and each of its addresses is before the end of the segment. -/
structure QuietTurn (n : Nat) (stop : Addr) (s : State) : Prop where
  segment : s.opcode = rebaseOpcodeSetSegmentAndOffsetUleb → s.immediate.toNat < n
  quiet : ∀ step count p, s.repeats stop = done (step, count, p) → s.Known → ∀ i < count,
    s.reports = [] ∧ s.address + BitVec.ofNat 32 i * step < s.segmentEndAddress

theorem quietTurn_iff {segments : List SegmentCommand} :
    (rebaseOp segments slide stop s).Settles ∧
        (∀ f ∈ rebaseOpFixups slide stop s, f.Silent) ↔
      QuietTurn segments.length stop s := by
  have hsilent : (∀ f ∈ rebaseOpFixups slide stop s, f.Silent) ↔
      ∀ step count p, s.repeats stop = done (step, count, p) → s.Known → ∀ i < count,
        s.reports = [] ∧ s.address + BitVec.ofNat 32 i * step < s.segmentEndAddress := by
    unfold rebaseOpFixups
    cases s.repeats stop with
    | done v =>
      obtain ⟨step, count, p⟩ := v
      rw [repeated_done, rebaseTimes_silent_iff]
      constructor
      · rintro h step' count' p' ⟨⟩
        exact h
      · intro h
        exact h step count p rfl
    | halt msg => simp [repeated]
    | fault => simp [repeated]
    | timeout => simp [repeated]
  rw [rebaseOp_settles_iff, hsilent]
  exact ⟨fun h => ⟨h.1, h.2⟩, fun h => ⟨h.1, h.2⟩⟩

variable {n : Nat}

theorem QuietTurn.stores_eq {r : Rebasing} (h : QuietTurn n stop ⟨r, []⟩) :
    storedWords (rebaseOpFixups obj.fSlide stop ⟨r, []⟩) =
      Lnk.storedWords (readRebaseOpFixups obj stop r) := by
  rw [readRebaseOpFixups_repeated]
  unfold rebaseOpFixups
  cases hrepeats : r.repeats stop with
  | done v =>
    obtain ⟨step, count, p⟩ := v
    rw [repeated_done, repeated_done]
    by_cases hknown : r.Known
    · exact storedWords_eq hknown fun i hi => (h.quiet step count p hrepeats hknown i hi).2
    · have hknown' : ¬ ({ r with p := p } : Rebasing).Known := hknown
      rw [image_storedWords_of_unknown hknown']
      exact storedWords_of_unknown hknown'
  | halt msg => rfl
  | fault => rfl
  | timeout => rfl

theorem QuietTurn.stores_nil (h : QuietTurn n stop s) (hreports : s.reports ≠ []) :
    storedWords (rebaseOpFixups slide stop s) = [] := by
  unfold rebaseOpFixups
  cases hrepeats : s.repeats stop with
  | done v =>
    obtain ⟨step, count, p⟩ := v
    rw [repeated_done]
    by_cases hknown : s.Known
    · cases count with
      | zero => rfl
      | succ count => exact absurd (h.quiet step _ p hrepeats hknown 0 (by omega)).1 hreports
    · have hknown' : ¬ ({ s with p := p } : State).Known := hknown
      exact storedWords_of_unknown hknown'
  | halt msg => rfl
  | fault => rfl
  | timeout => rfl

end Opcode

/-! ## The run -/

section Run

variable {obj : MachObject} {stop : Addr} {n fuel : Nat} {s : State}

theorem storedWords_append (l1 l2 : List State) :
    storedWords (l1 ++ l2) = storedWords l1 ++ storedWords l2 := by
  simp [storedWords]

theorem image_storedWords_append (l1 l2 : List Rebasing) :
    Lnk.storedWords (l1 ++ l2) = Lnk.storedWords l1 ++ Lnk.storedWords l2 := by
  simp [Lnk.storedWords]

theorem rebaseLoop_eq_loop (segments : List SegmentCommand) (slide : Word) (stop : Addr)
    (fuel : Nat) (s : State) :
    rebaseLoop segments slide stop fuel s =
      loop (fun s : State => s.p < stop) (rebaseOp segments slide stop) fuel s := by
  induction fuel generalizing s with
  | zero => rfl
  | succ fuel ih =>
    unfold rebaseLoop loop
    simp only [ih]

/-- The words that are stored from `s` on. -/
def storesFrom (segments : List SegmentCommand) (slide : Word) (stop : Addr) (fuel : Nat)
    (s : State) : List Addr :=
  storedWords ((turns (fun s : State => s.p < stop) (rebaseOp segments slide stop) fuel s).flatMap
    (rebaseOpFixups slide stop))

variable {segments : List SegmentCommand} {slide : Word}

theorem storesFrom_stopped (h : ¬ s.p < stop) : storesFrom segments slide stop fuel s = [] := by
  have hturns : turns (fun s : State => s.p < stop) (rebaseOp segments slide stop) fuel s = [] :=
    turns_of_stopped h
  rw [storesFrom, hturns]
  rfl

theorem storesFrom_of_done {s' : State} (h : s.p < stop)
    (hop : rebaseOp segments slide stop s = done (false, s')) :
    storesFrom segments slide stop (fuel + 1) s =
      storedWords (rebaseOpFixups slide stop s) ++ storesFrom segments slide stop fuel s' := by
  have hturns : turns (fun s : State => s.p < stop) (rebaseOp segments slide stop) (fuel + 1) s =
      s :: turns (fun s : State => s.p < stop) (rebaseOp segments slide stop) fuel s' :=
    turns_of_done h hop
  rw [storesFrom, hturns, List.flatMap_cons, storedWords_append, storesFrom]

theorem storesFrom_of_ended (h : s.p < stop)
    (hop : ∀ s', rebaseOp segments slide stop s ≠ done (false, s')) :
    storesFrom segments slide stop (fuel + 1) s = storedWords (rebaseOpFixups slide stop s) := by
  have hturns : turns (fun s : State => s.p < stop) (rebaseOp segments slide stop) (fuel + 1) s =
      [s] := turns_of_ended h hop
  rw [storesFrom, hturns, List.flatMap_singleton]

theorem rebaseLoop_mem :
    (rebaseLoop segments slide stop fuel s).Ensures fun s' =>
      s'.mem = s.mem.addAll slide (storesFrom segments slide stop fuel s) := by
  induction fuel generalizing s with
  | zero => exact nofun
  | succ fuel ih =>
    unfold rebaseLoop
    split
    · rename_i hgo
      refine .bind fun v hop => ?_
      obtain ⟨finished, s1⟩ := v
      have hmem : s1.mem = s.mem.addAll slide (storedWords (rebaseOpFixups slide stop s)) :=
        rebaseOp_mem _ hop
      cases finished with
      | true =>
        rw [storesFrom_of_ended hgo (by simp [hop])]
        exact .done hmem
      | false =>
        rw [storesFrom_of_done hgo hop, addAll_append, ← hmem]
        exact ih
    · rename_i hgo
      rw [storesFrom_stopped hgo]
      exact .done rfl

/-- The turns from `s` on are quiet. -/
def QuietFrom (segments : List SegmentCommand) (slide : Word) (stop : Addr) (fuel : Nat)
    (s : State) : Prop :=
  ∀ t ∈ turns (fun s : State => s.p < stop) (rebaseOp segments slide stop) fuel s,
    QuietTurn segments.length stop t

theorem quietFrom_succ (h : s.p < stop) :
    QuietFrom segments slide stop (fuel + 1) s ↔ QuietTurn segments.length stop s ∧
      ∀ s', rebaseOp segments slide stop s = done (false, s') →
        QuietFrom segments slide stop fuel s' :=
  forall_turns_succ h

theorem QuietFrom.stores_nil (h : QuietFrom obj.fSegmentLoadCommands obj.fSlide stop fuel s)
    (hreports : s.reports ≠ []) :
    storesFrom obj.fSegmentLoadCommands obj.fSlide stop fuel s = [] := by
  induction fuel generalizing s with
  | zero => rfl
  | succ fuel ih =>
    by_cases hgo : s.p < stop
    · obtain ⟨hturn, hrest⟩ := (quietFrom_succ hgo).mp h
      by_cases hop : ∃ s',
          rebaseOp obj.fSegmentLoadCommands obj.fSlide stop s = done (false, s')
      · obtain ⟨s', hop⟩ := hop
        have hreports' : s'.reports ≠ [] := by
          rcases (rebaseOp_follows hgo _ hop).2 with ⟨hsame, -⟩ | hlonger
          · exact hsame ▸ hreports
          · exact List.ne_nil_of_length_pos (Nat.zero_lt_of_lt hlonger)
        rw [storesFrom_of_done hgo hop, hturn.stores_nil hreports, ih (hrest s' hop) hreports']
        rfl
      · rw [storesFrom_of_ended hgo (not_exists.mp hop), hturn.stores_nil hreports]
    · exact storesFrom_stopped hgo

section Image

variable {segmentIndex : Nat} {r : Rebasing}

/-- The words that the image's run stores from `r` on. -/
def imageStoresFrom (obj : MachObject) (stop : Addr) (fuel segmentIndex : Nat) (r : Rebasing) :
    List Addr :=
  Lnk.storedWords ((readRebaseLoopFixups obj stop fuel segmentIndex r).map Prod.snd)

theorem imageStoresFrom_stopped (h : ¬ r.p < stop) :
    imageStoresFrom obj stop fuel segmentIndex r = [] := by
  cases fuel with
  | zero => rfl
  | succ fuel =>
    rw [imageStoresFrom, readRebaseLoopFixups, if_neg h]
    rfl

theorem map_snd_fixups (fixups : List Rebasing) :
    (fixups.map fun r => (segmentIndex, r)).map Prod.snd = fixups := by
  simp

theorem imageStoresFrom_of_done {r' : Rebasing} (h : r.p < stop)
    (hop : readRebaseOp obj stop r = done (false, r')) :
    imageStoresFrom obj stop (fuel + 1) segmentIndex r =
      Lnk.storedWords (readRebaseOpFixups obj stop r) ++
        imageStoresFrom obj stop fuel (nextSegmentIndex segmentIndex r) r' := by
  rw [imageStoresFrom, readRebaseLoopFixups, if_pos h, hop, List.map_append, map_snd_fixups,
    image_storedWords_append, imageStoresFrom]

theorem imageStoresFrom_of_ended (h : r.p < stop)
    (hop : ∀ r', readRebaseOp obj stop r ≠ done (false, r')) :
    imageStoresFrom obj stop (fuel + 1) segmentIndex r =
      Lnk.storedWords (readRebaseOpFixups obj stop r) := by
  rw [imageStoresFrom, readRebaseLoopFixups, if_pos h, List.map_append, map_snd_fixups]
  obtain ⟨r', h'⟩ | ⟨msg, h'⟩ | h' | h' := eq_of_ended hop
  all_goals
    rw [h']
    exact congrArg Lnk.storedWords (List.append_nil _)

theorem QuietFrom.stores_eq
    (h : QuietFrom obj.fSegmentLoadCommands obj.fSlide stop fuel ⟨r, []⟩) :
    storesFrom obj.fSegmentLoadCommands obj.fSlide stop fuel ⟨r, []⟩ =
      imageStoresFrom obj stop fuel segmentIndex r := by
  induction fuel generalizing r segmentIndex with
  | zero => rfl
  | succ fuel ih =>
    by_cases hgo : r.p < stop
    · obtain ⟨hturn, hrest⟩ := (quietFrom_succ hgo).mp h
      by_cases himage : ∃ r', readRebaseOp obj stop r = done (false, r')
      · obtain ⟨r', himage⟩ := himage
        have hop : rebaseOp obj.fSegmentLoadCommands obj.fSlide stop ⟨r, []⟩ =
            done (false, ⟨r', []⟩) := rebaseOp_agrees obj stop r false r' himage
        rw [storesFrom_of_done hgo hop, imageStoresFrom_of_done hgo himage, hturn.stores_eq,
          ih (hrest _ hop)]
      -- The image's run stops here. The linker's stops too, or has printed something.
      rw [imageStoresFrom_of_ended hgo (not_exists.mp himage), ← hturn.stores_eq]
      by_cases hop : ∃ s',
          rebaseOp obj.fSegmentLoadCommands obj.fSlide stop ⟨r, []⟩ = done (false, s')
      · obtain ⟨s', hop⟩ := hop
        have hreports : s'.reports ≠ [] := by
          rcases (rebaseOp_follows hgo _ hop).2 with ⟨-, hsame⟩ | hlonger
          · exact absurd hsame (not_exists.mp himage _)
          · exact List.ne_nil_of_length_pos (Nat.zero_lt_of_lt hlonger)
        rw [storesFrom_of_done hgo hop, (hrest s' hop).stores_nil hreports, List.append_nil]
      · exact storesFrom_of_ended hgo (not_exists.mp hop)
    · rw [storesFrom_stopped hgo, imageStoresFrom_stopped hgo]

theorem image_rebaseTimes_stores {step : Word} {count : Nat} :
    (Lnk.rebaseTimes obj step count r).Ensures fun _ =>
      Lnk.storedWords (Lnk.rebaseTimesFixups obj step count r) =
        (Lnk.rebaseTimesFixups obj step count r).map (·.address) := by
  induction count generalizing r with
  | zero => exact .done rfl
  | succ count ih =>
    refine .bind fun r1 hone r' h => ?_
    have hstores : RebaseStores r := (rebaseOne_eq_done hone).1
    have hrest := ih r' h
    unfold Lnk.storedWords at *
    rw [Lnk.rebaseTimesFixups, hone, List.filter_cons_of_pos (by simpa using hstores),
      List.map_cons, List.map_cons, hrest]

theorem readRebaseOp_stores : (readRebaseOp obj stop r).Ensures fun _ =>
    Lnk.storedWords (readRebaseOpFixups obj stop r) =
      (readRebaseOpFixups obj stop r).map (·.address) := by
  intro v hv
  obtain ⟨step, count, r0, r1, h, -, hfixups, -⟩ := readRebaseOp_row v hv
  rw [hfixups]
  exact image_rebaseTimes_stores r1 h

theorem readRebaseLoop_mem : (readRebaseLoop obj stop fuel r).Ensures fun r' =>
    r'.mem = r.mem.addAll obj.fSlide (imageStoresFrom obj stop fuel segmentIndex r) := by
  induction fuel generalizing r segmentIndex with
  | zero => exact nofun
  | succ fuel ih =>
    unfold readRebaseLoop
    split
    · rename_i hgo
      refine .bind fun v hop => ?_
      obtain ⟨finished, r1⟩ := v
      have hmem : r1.mem = r.mem.addAll obj.fSlide
          (Lnk.storedWords (readRebaseOpFixups obj stop r)) := by
        rw [readRebaseOp_stores _ hop]
        exact readRebaseOp_words _ hop
      cases finished with
      | true =>
        rw [imageStoresFrom_of_ended hgo (by simp [hop])]
        exact .done hmem
      | false =>
        rw [imageStoresFrom_of_done hgo hop, addAll_append, ← hmem]
        exact ih
    · rename_i hgo
      rw [imageStoresFrom_stopped hgo]
      exact .done rfl

end Image

end Run

end Bootstrap

/-- The memory that `readRebase` has built when it ends or halts. -/
def readRebaseBuilt (mem : Mem) (obj : MachObject) (start stop : Addr) : Mem :=
  mem.addAll obj.fSlide (readRebaseStores mem obj start stop)

theorem readRebase_built {mem mem' : Mem} {obj : MachObject} {start stop : Addr}
    (h : readRebase mem obj start stop = done mem') :
    mem' = readRebaseBuilt mem obj start stop := by
  obtain ⟨address, haddress, h⟩ := bind_eq_done.mp h
  obtain ⟨segEnd, hsegEnd, h⟩ := bind_eq_done.mp h
  obtain ⟨r, hr, h⟩ := bind_eq_done.mp h
  obtain rfl := done.inj h
  unfold readRebaseBuilt readRebaseStores readRebaseFixups
  rw [haddress, hsegEnd]
  exact Bootstrap.readRebaseLoop_mem r hr

namespace Bootstrap

def streamStart (dyldInfo : DyldInfoCommand) (linkEdit : SegmentCommand) (slide : Word) : Addr :=
  dyldInfo.rebaseOff + linkEditBase linkEdit slide

def streamStop (dyldInfo : DyldInfoCommand) (linkEdit : SegmentCommand) (slide : Word) : Addr :=
  dyldInfo.rebaseSize + dyldInfo.rebaseOff + linkEditBase linkEdit slide

/-- The run has a meaning, it stores nothing once something has been printed, and the image's run
stores the same words and builds the same memory. -/
structure StopsAtFirstError (mem : Mem) (obj : MachObject) (dyldInfo : DyldInfoCommand)
    (linkEdit : SegmentCommand) : Prop where
  settles : (rebaseCompressed mem dyldInfo linkEdit obj.fSlide obj.fSegmentLoadCommands).Settles
  silent : ∀ f ∈ rebaseFixups mem obj.fSegmentLoadCommands obj.fSlide
    (streamStart dyldInfo linkEdit obj.fSlide) (streamStop dyldInfo linkEdit obj.fSlide), f.Silent
  stores : rebaseStores mem obj.fSegmentLoadCommands obj.fSlide
      (streamStart dyldInfo linkEdit obj.fSlide) (streamStop dyldInfo linkEdit obj.fSlide) =
    readRebaseStores mem obj (streamStart dyldInfo linkEdit obj.fSlide)
      (streamStop dyldInfo linkEdit obj.fSlide)
  memory : ∀ mem' reports,
    rebaseCompressed mem dyldInfo linkEdit obj.fSlide obj.fSegmentLoadCommands =
      done (mem', reports) →
    mem' = readRebaseBuilt mem obj (streamStart dyldInfo linkEdit obj.fSlide)
      (streamStop dyldInfo linkEdit obj.fSlide)

section Run

variable {obj : MachObject} {stop : Addr} {fuel : Nat} {s : State}

theorem rebaseLoop_settles_iff (hfuel : stop.toNat - s.p.toNat < fuel) :
    (rebaseLoop obj.fSegmentLoadCommands obj.fSlide stop fuel s).Settles ∧
        (∀ t ∈ turns (fun s : State => s.p < stop)
          (rebaseOp obj.fSegmentLoadCommands obj.fSlide stop) fuel s,
          ∀ f ∈ rebaseOpFixups obj.fSlide stop t, f.Silent) ↔
      QuietFrom obj.fSegmentLoadCommands obj.fSlide stop fuel s := by
  rw [rebaseLoop_eq_loop]
  refine loop_settles_iff (fun _ => True) (fun s => stop.toNat - s.p.toNat)
    (fun s _ _ => quietTurn_iff) ?_ trivial hfuel
  rintro s - hgo - ⟨finished, s'⟩ hop
  obtain ⟨hlt, hle⟩ := (rebaseOp_follows hgo _ hop).1
  refine ⟨trivial, ?_⟩
  bv_omega

/-- The variables before the first opcode. -/
def firstRebasing (mem : Mem) (seg : SegmentCommand) (slide : Word) (start : Addr) : Rebasing :=
  ⟨mem, start, 0, seg.vmaddr + slide, seg.vmaddr + slide + seg.vmsize⟩

variable {mem : Mem} {seg : SegmentCommand} {start : Addr}

theorem rebaseTurns_eq (hseg : obj.fSegmentLoadCommands[0]? = some seg) :
    rebaseTurns mem obj.fSegmentLoadCommands obj.fSlide start stop =
      turns (fun s : State => s.p < stop) (rebaseOp obj.fSegmentLoadCommands obj.fSlide stop)
        (stop.toNat - start.toNat + 1) ⟨firstRebasing mem seg obj.fSlide start, []⟩ := by
  rw [rebaseTurns, hseg]
  rfl

theorem rebaseStores_eq (hseg : obj.fSegmentLoadCommands[0]? = some seg) :
    rebaseStores mem obj.fSegmentLoadCommands obj.fSlide start stop =
      storesFrom obj.fSegmentLoadCommands obj.fSlide stop (stop.toNat - start.toNat + 1)
        ⟨firstRebasing mem seg obj.fSlide start, []⟩ := by
  rw [rebaseStores, rebaseFixups, rebaseTurns_eq hseg]
  rfl

theorem readRebaseStores_eq (hseg : obj.fSegmentLoadCommands[0]? = some seg) :
    readRebaseStores mem obj start stop =
      imageStoresFrom obj stop (stop.toNat - start.toNat + 1) 0
        (firstRebasing mem seg obj.fSlide start) := by
  unfold readRebaseStores readRebaseFixups segActualEndAddr segActualLoadAddr
  rw [hseg]
  rfl

theorem rebaseCompressed_eq {dyldInfo : DyldInfoCommand} {linkEdit : SegmentCommand}
    (hseg : obj.fSegmentLoadCommands[0]? = some seg)
    (hstart : streamStart dyldInfo linkEdit obj.fSlide = start)
    (hstop : streamStop dyldInfo linkEdit obj.fSlide = stop) :
    rebaseCompressed mem dyldInfo linkEdit obj.fSlide obj.fSegmentLoadCommands =
      (rebaseLoop obj.fSegmentLoadCommands obj.fSlide stop (stop.toNat - start.toNat + 1)
        ⟨firstRebasing mem seg obj.fSlide start, []⟩ >>= fun s => done (s.mem, s.reports)) := by
  subst hstart hstop
  rw [rebaseCompressed, hseg]
  rfl

theorem rebaseCompressed_settles_iff {dyldInfo : DyldInfoCommand} {linkEdit : SegmentCommand}
    (hseg : obj.fSegmentLoadCommands[0]? = some seg)
    (hstart : streamStart dyldInfo linkEdit obj.fSlide = start)
    (hstop : streamStop dyldInfo linkEdit obj.fSlide = stop) :
    (rebaseCompressed mem dyldInfo linkEdit obj.fSlide obj.fSegmentLoadCommands).Settles ∧
        (∀ f ∈ rebaseFixups mem obj.fSegmentLoadCommands obj.fSlide start stop, f.Silent) ↔
      QuietFrom obj.fSegmentLoadCommands obj.fSlide stop (stop.toNat - start.toNat + 1)
        ⟨firstRebasing mem seg obj.fSlide start, []⟩ := by
  rw [rebaseCompressed_eq hseg hstart hstop, settles_bind, and_iff_left fun _ _ => settles_done _,
    rebaseFixups, rebaseTurns_eq hseg]
  refine Iff.trans (and_congr_right fun _ => ?_) (rebaseLoop_settles_iff (Nat.lt_succ_self _))
  simp only [List.mem_flatMap]
  constructor
  · exact fun h t ht f hf => h f ⟨t, ht, hf⟩
  · rintro h f ⟨t, ht, hf⟩
    exact h t ht f hf

end Run

/-- **The linker does not stop at the first error.** It does what the image's interpreter does,
and stores nothing after an error, exactly if there is a segment to begin with and all opcodes that
it comes to are quiet. -/
theorem stops_at_first_error_iff (mem : Mem) (obj : MachObject) (dyldInfo : DyldInfoCommand)
    (linkEdit : SegmentCommand) :
    StopsAtFirstError mem obj dyldInfo linkEdit ↔
      0 < obj.fSegmentLoadCommands.length ∧
        ∀ s ∈ rebaseTurns mem obj.fSegmentLoadCommands obj.fSlide
          (streamStart dyldInfo linkEdit obj.fSlide) (streamStop dyldInfo linkEdit obj.fSlide),
          QuietTurn obj.fSegmentLoadCommands.length
            (streamStop dyldInfo linkEdit obj.fSlide) s := by
  by_cases hsegments : 0 < obj.fSegmentLoadCommands.length
  · rw [and_iff_right hsegments]
    obtain ⟨seg, hseg⟩ : ∃ seg, obj.fSegmentLoadCommands[0]? = some seg :=
      ⟨_, List.getElem?_eq_getElem hsegments⟩
    generalize hstart : streamStart dyldInfo linkEdit obj.fSlide = start
    generalize hstop : streamStop dyldInfo linkEdit obj.fSlide = stop
    rw [rebaseTurns_eq hseg]
    constructor
    · intro h
      have hsilent := h.silent
      rw [hstart, hstop] at hsilent
      exact (rebaseCompressed_settles_iff hseg hstart hstop).mp ⟨h.settles, hsilent⟩
    · intro (h : QuietFrom _ _ _ _ _)
      have hstores : rebaseStores mem obj.fSegmentLoadCommands obj.fSlide start stop =
          readRebaseStores mem obj start stop := by
        rw [rebaseStores_eq hseg, readRebaseStores_eq hseg, h.stores_eq]
      obtain ⟨hsettles, hsilent⟩ := (rebaseCompressed_settles_iff hseg hstart hstop).mpr h
      refine ⟨hsettles, by rwa [hstart, hstop], by rwa [hstart, hstop], ?_⟩
      intro mem' reports hrun
      rw [rebaseCompressed_eq hseg hstart hstop] at hrun
      obtain ⟨s, hloop, hs⟩ := bind_eq_done.mp hrun
      obtain ⟨rfl, -⟩ := Prod.mk.inj (done.inj hs)
      rw [hstart, hstop, readRebaseBuilt, ← hstores, rebaseStores_eq hseg]
      exact rebaseLoop_mem _ hloop
  · refine iff_of_false (fun h => ?_) fun h => hsegments h.1
    have hfault : rebaseCompressed mem dyldInfo linkEdit obj.fSlide obj.fSegmentLoadCommands =
        .fault := by
      unfold rebaseCompressed
      rw [ofOption_of_le (Nat.not_lt.mp hsegments), fault_bind]
    exact not_settles_fault (hfault ▸ h.settles)

/-! An opcode that does not exist, and then one word of the segment. -/

def errorMem : Mem := fun a =>
  [0x90, 0x11, 0x20, 0x00, 0x51].getD (a - 0x2020).toNat (if a = 0x1020 then 0x10 else 0)

/-- `readRebase` halts at the first opcode. `rebaseCompressed` prints, and then rebases the word. -/
theorem not_stops_at_first_error :
    (rebaseCompressed errorMem ⟨0, 5, 0, 0⟩ ⟨"__LINKEDIT", 0x3000, 0x1000, 0x1000, []⟩ 0x20
        rebaseSampleObject.fSegmentLoadCommands >>= fun v => done (v.1.load 0x1020)) = done 0x30 ∧
      (readRebaseBuilt errorMem rebaseSampleObject 0x2020 0x2025).load 0x1020 = 0x10 ∧
      ¬ StopsAtFirstError errorMem rebaseSampleObject ⟨0, 5, 0, 0⟩
        ⟨"__LINKEDIT", 0x3000, 0x1000, 0x1000, []⟩ := by
  have himage : readRebaseStores errorMem rebaseSampleObject 0x2020 0x2025 = [] := by decide
  refine ⟨by decide, by decide, fun h => ?_⟩
  have hlinker : rebaseStores errorMem rebaseSampleObject.fSegmentLoadCommands 0x20 0x2020 0x2025 =
      [0x1020] := by decide
  have hstores : rebaseStores errorMem rebaseSampleObject.fSegmentLoadCommands 0x20 0x2020 0x2025 =
      readRebaseStores errorMem rebaseSampleObject 0x2020 0x2025 := h.stores
  rw [hlinker, himage] at hstores
  simp at hstores

end Bootstrap

end LibSystem.Lnk
