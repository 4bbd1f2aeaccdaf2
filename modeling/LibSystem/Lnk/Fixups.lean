import LibSystem.Turns
import LibSystem.Lnk.Binding
import LibSystem.Lnk.Resolve

/-!
# Where the fix-ups go

Each fix-up is preceded by one comparison, of its address with the end of the segment. The
fix-ups of an opcode stream are listed with the state in which each is about to be made.
-/

namespace LibSystem.Lnk

open Outcome

/-! ## The fix-ups of a stream -/

def rebaseTimesFixups (obj : MachObject) (step : Word) : Nat → Rebasing → List Rebasing
  | 0, _ => []
  | count + 1, r => r ::
    match rebaseOne obj step r with
    | .done r => rebaseTimesFixups obj step count r
    | _ => []

/-- The fix-ups that one opcode makes. -/
def readRebaseOpFixups (obj : MachObject) (stop : Addr) (r : Rebasing) : List Rebasing :=
  let immediate := r.mem r.p &&& rebaseImmediateMask
  let opcode := r.mem r.p &&& rebaseOpcodeMask
  let r := { r with p := r.p + 1 }
  if opcode = rebaseOpcodeDoRebaseImmTimes then rebaseTimesFixups obj 4 immediate.toNat r
  else if opcode = rebaseOpcodeDoRebaseUlebTimes then
    match readUleb128 r.mem r.p stop with
    | .done (count, p) => rebaseTimesFixups obj 4 count.toNat { r with p := p }
    | _ => []
  else if opcode = rebaseOpcodeDoRebaseAddAddrUleb then rebaseTimesFixups obj 0 1 r
  else if opcode = rebaseOpcodeDoRebaseUlebTimesSkippingUleb then
    match (do
      let (count, p) ← readUleb128 r.mem r.p stop
      let (skip, p) ← readUleb128 r.mem p stop
      .done (count, skip, p)) with
    | .done (count, skip, p) => rebaseTimesFixups obj (skip + 4) count.toNat { r with p := p }
    | _ => []
  else []

/-- `segmentIndex` after the opcode. -/
def nextSegmentIndex (segmentIndex : Nat) (r : Rebasing) : Nat :=
  if r.mem r.p &&& rebaseOpcodeMask = rebaseOpcodeSetSegmentAndOffsetUleb then
    (r.mem r.p &&& rebaseImmediateMask).toNat
  else segmentIndex

/-- Each fix-up comes with the value of `segmentIndex`. -/
def readRebaseLoopFixups (obj : MachObject) (stop : Addr) :
    Nat → Nat → Rebasing → List (Nat × Rebasing)
  | 0, _, _ => []
  | fuel + 1, segmentIndex, r =>
    if r.p < stop then
      (readRebaseOpFixups obj stop r).map (fun r => (segmentIndex, r)) ++
        match readRebaseOp obj stop r with
        | .done (false, r') =>
          readRebaseLoopFixups obj stop fuel (nextSegmentIndex segmentIndex r) r'
        | _ => []
    else []

def readRebaseFixups (mem : Mem) (obj : MachObject) (start stop : Addr) : List (Nat × Rebasing) :=
  match segActualLoadAddr obj 0, segActualEndAddr obj 0 with
  | .done address, .done segEnd =>
    readRebaseLoopFixups obj stop (stop.toNat - start.toNat + 1) 0 ⟨mem, start, 0, address, segEnd⟩
  | _, _ => []

def bindTimesFixups (one : Binding → Outcome Binding) : Nat → Binding → List Binding
  | 0, _ => []
  | count + 1, b => b ::
    match one b with
    | .done b => bindTimesFixups one count b
    | _ => []

/-- The fix-ups of `doBindOpcode`. -/
def doBindOpcodeFixups (stop : Addr) (opcode : Byte) (b : Binding)
    (one : Word → Binding → Outcome Binding) : List Binding :=
  if opcode = bindOpcodeDoBind then [b]
  else if opcode = bindOpcodeDoBindAddAddrUleb then [b]
  else if opcode = bindOpcodeDoBindAddAddrImmScaled then [b]
  else if opcode = bindOpcodeDoBindUlebTimesSkippingUleb then
    match (do
      let (count, pos) ← readUleb128 b.s.mem b.pos stop
      let (skip, pos) ← readUleb128 b.s.mem pos stop
      .done (count, skip, pos)) with
    | .done (count, skip, pos) => bindTimesFixups (one (skip + 4)) count.toNat { b with pos := pos }
    | _ => []
  else []

def readBindOpFixups (fuel : Nat) (this : ImageId) (obj : MachObject) (stop : Addr) (b : Binding) :
    List Binding :=
  doBindOpcodeFixups stop (b.s.mem b.pos &&& bindOpcodeMask) { b with pos := b.pos + 1 }
    (bindOne fuel this obj)

def readLazyBindOpFixups (b : Binding) : List Binding :=
  if b.s.mem b.pos &&& bindOpcodeMask = bindOpcodeDoBind then [{ b with pos := b.pos + 1 }] else []

def bindLoopFixups (op : Binding → Outcome (Bool × Binding)) (fixups : Binding → List Binding)
    (stop : Addr) : Nat → Binding → List Binding
  | 0, _ => []
  | fuel + 1, b =>
    if b.pos < stop then
      fixups b ++
        match op b with
        | .done (false, b) => bindLoopFixups op fixups stop fuel b
        | _ => []
    else []

theorem bindLoop_eq_loop (op : Binding → Outcome (Bool × Binding)) (stop : Addr) (fuel : Nat)
    (b : Binding) : bindLoop op stop fuel b = loop (fun b : Binding => b.pos < stop) op fuel b := by
  induction fuel generalizing b with
  | zero => rfl
  | succ fuel ih =>
    unfold bindLoop loop
    simp only [ih]

theorem readRebaseLoop_eq_loop (obj : MachObject) (stop : Addr) (fuel : Nat) (r : Rebasing) :
    readRebaseLoop obj stop fuel r =
      loop (fun r : Rebasing => r.p < stop) (readRebaseOp obj stop) fuel r := by
  induction fuel generalizing r with
  | zero => rfl
  | succ fuel ih =>
    unfold readRebaseLoop loop
    simp only [ih]

theorem mem_bindLoopFixups {op : Binding → Outcome (Bool × Binding)}
    {fixups : Binding → List Binding} {stop : Addr} {fuel : Nat} {a b : Binding} :
    a ∈ bindLoopFixups op fixups stop fuel b ↔
      ∃ t ∈ turns (fun b : Binding => b.pos < stop) op fuel b, a ∈ fixups t := by
  rw [← List.mem_flatMap]
  induction fuel generalizing b with
  | zero => simp [bindLoopFixups, turns]
  | succ fuel ih =>
    unfold bindLoopFixups turns
    split
    · rw [List.mem_append, List.flatMap_cons, List.mem_append]
      refine or_congr_right ?_
      cases op b with
      | done v =>
        obtain ⟨finished, b'⟩ := v
        cases finished with
        | true => simp
        | false => exact ih
      | halt msg => simp
      | fault => simp
      | timeout => simp
    · simp

def readBindFixups (fuel : Nat) (s : Linker) (this : ImageId) (obj : MachObject)
    (start stop : Addr) : List Binding :=
  bindLoopFixups (readBindOp fuel this obj stop) (readBindOpFixups fuel this obj stop) stop fuel
    (.start s start 0)

def readLazyBindFixups (fuel : Nat) (s : Linker) (this : ImageId) (obj : MachObject)
    (start stop : Addr) : List Binding :=
  bindLoopFixups (readLazyBindOp fuel this obj stop) readLazyBindOpFixups stop fuel
    (.start s start bindTypePointer)

/-! ## What they store -/

/-- `rebaseAt` is reached, and stores a word. -/
def RebaseStores (r : Rebasing) : Prop :=
  r.address < r.segmentEndAddress ∧ (r.type = rebaseTypePointer ∨ r.type = rebaseTypeTextAbsolute32)

/-- `bind` is reached, and the word is not there yet. -/
def BindStores (fuel : Nat) (this : ImageId) (obj : MachObject) (b : Binding) : Prop :=
  ∃ b', bindOne fuel this obj 0 b = done b' ∧ b'.s.mem ≠ b.s.mem

/-! ## The interpreter of the rebase opcodes -/

variable {obj : MachObject} {stop : Addr} {r r' : Rebasing}

theorem rebaseOne_eq_done {step : Word} (h : rebaseOne obj step r = done r') :
    RebaseStores r ∧ r'.mem = r.mem.store r.address (r.mem.load r.address + obj.fSlide) ∧
      r'.segmentEndAddress = r.segmentEndAddress := by
  unfold rebaseOne at h
  split at h
  · simp at h
  · rename_i hinside
    obtain ⟨mem, hmem, h⟩ := bind_eq_done.mp h
    obtain rfl := done.inj h
    unfold rebaseAt at hmem
    split at hmem
    · rename_i htype
      exact ⟨⟨by bv_omega, .inl htype⟩, (done.inj hmem).symm, rfl⟩
    split at hmem
    · rename_i htype
      exact ⟨⟨by bv_omega, .inr htype⟩, (done.inj hmem).symm, rfl⟩
    · simp at hmem

theorem rebaseTimesFixups_end {step : Word} {count : Nat} {a : Rebasing}
    (ha : a ∈ rebaseTimesFixups obj step count r) : a.segmentEndAddress = r.segmentEndAddress := by
  induction count generalizing r with
  | zero => simp [rebaseTimesFixups] at ha
  | succ count ih =>
    rcases List.mem_cons.mp ha with rfl | ha
    · rfl
    · split at ha
      · rename_i r1 hone
        rw [ih ha, (rebaseOne_eq_done hone).2.2]
      · simp at ha

theorem readRebaseOpFixups_end {a : Rebasing} (ha : a ∈ readRebaseOpFixups obj stop r) :
    a.segmentEndAddress = r.segmentEndAddress := by
  unfold readRebaseOpFixups at ha
  dsimp only at ha
  split at ha
  · rw [rebaseTimesFixups_end ha]
  split at ha
  · split at ha
    · rw [rebaseTimesFixups_end ha]
    · simp at ha
  split at ha
  · rw [rebaseTimesFixups_end ha]
  split at ha
  · split at ha
    · rw [rebaseTimesFixups_end ha]
    · simp at ha
  · simp at ha

theorem rebaseTimes_end {step : Word} {count : Nat} (h : rebaseTimes obj step count r = done r') :
    r'.segmentEndAddress = r.segmentEndAddress := by
  induction count generalizing r with
  | zero => rw [← done.inj h]
  | succ count ih =>
    obtain ⟨r1, hone, h⟩ := bind_eq_done.mp h
    rw [ih h, (rebaseOne_eq_done hone).2.2]

theorem readRebaseOp_end {segmentIndex : Nat}
    (hend : segActualEndAddr obj segmentIndex = done r.segmentEndAddress) :
    (readRebaseOp obj stop r).Ensures fun v =>
      segActualEndAddr obj (nextSegmentIndex segmentIndex r) = done v.2.segmentEndAddress := by
  by_cases hselect : r.mem r.p &&& rebaseOpcodeMask = rebaseOpcodeSetSegmentAndOffsetUleb
  · unfold readRebaseOp nextSegmentIndex
    simp only [hselect]
    rw [if_neg (by decide), if_neg (by decide)]
    simp only [if_true]
    refine .ite (fun _ => .halt _) fun _ => .bind fun base _ => .bind fun offset _ => ?_
    exact .bind fun segEnd hsegEnd => .done hsegEnd
  · have hkeep : ∀ v : Bool × Rebasing, v.2.segmentEndAddress = r.segmentEndAddress →
        segActualEndAddr obj (nextSegmentIndex segmentIndex r) = done v.2.segmentEndAddress := by
      intro v hv
      rw [nextSegmentIndex, if_neg hselect, hend, hv]
    unfold readRebaseOp
    refine .ite (fun _ => .done (hkeep _ rfl)) fun _ => .ite (fun _ => .done (hkeep _ rfl)) fun _ =>
      .ite (fun h => absurd h hselect) fun _ => .ite (fun _ => ?_) fun _ =>
      .ite (fun _ => .done (hkeep _ rfl)) fun _ => .ite (fun _ => ?_) fun _ =>
      .ite (fun _ => ?_) fun _ => .ite (fun _ => ?_) fun _ => .ite (fun _ => ?_) fun _ => .halt _
    · exact .bind fun n _ => .done (hkeep _ rfl)
    · exact .bind fun r1 h => .done (hkeep _ ((rebaseTimes_end h).trans rfl))
    · exact .bind fun n _ => .bind fun r1 h => .done (hkeep _ ((rebaseTimes_end h).trans rfl))
    · exact .bind fun r1 hone => .bind fun n _ =>
        .done (hkeep _ ((rebaseOne_eq_done hone).2.2.trans rfl))
    · exact .bind fun n _ => .bind fun m _ => .bind fun r1 h =>
        .done (hkeep _ ((rebaseTimes_end h).trans rfl))

theorem readRebaseLoopFixups_end {fuel segmentIndex : Nat}
    (hend : segActualEndAddr obj segmentIndex = done r.segmentEndAddress) :
    ∀ a ∈ readRebaseLoopFixups obj stop fuel segmentIndex r,
      segActualEndAddr obj a.1 = done a.2.segmentEndAddress := by
  induction fuel generalizing segmentIndex r with
  | zero => simp [readRebaseLoopFixups]
  | succ fuel ih =>
    intro a ha
    unfold readRebaseLoopFixups at ha
    split at ha
    · rcases List.mem_append.mp ha with ha | ha
      · obtain ⟨b, hb, rfl⟩ := List.mem_map.mp ha
        rw [hend, readRebaseOpFixups_end hb]
      · split at ha
        · rename_i r1 hop
          exact ih (readRebaseOp_end hend _ hop) a ha
        · simp at ha
    · simp at ha

theorem readRebaseFixups_end {mem : Mem} {start : Addr} :
    ∀ a ∈ readRebaseFixups mem obj start stop,
      segActualEndAddr obj a.1 = done a.2.segmentEndAddress := by
  intro a ha
  unfold readRebaseFixups at ha
  split at ha
  · rename_i address segEnd haddress hsegEnd
    exact readRebaseLoopFixups_end hsegEnd a ha
  · simp at ha

/-! ## The interpreters of the bind opcodes -/

variable {fuel : Nat} {this : ImageId} {b b' : Binding}

theorem checkAddress_eq_done {u : Unit} (h : checkAddress obj b = done u) :
    b.address < b.segmentEndAddress := by
  unfold checkAddress at h
  split at h
  · obtain ⟨start, -, h⟩ := bind_eq_done.mp h
    simp at h
  · bv_omega

theorem bind_stores {s s' : Linker} {address : Addr} {type : Byte} {name : CString}
    {addend ordinal : Word}
    (h : bind fuel s this address type name addend ordinal = done s') :
    ∃ value count,
      s' = { s with mem := s.mem.store address value, sUnresolvedCount := count } := by
  obtain ⟨obj, -, h⟩ := bind_eq_done.mp h
  dsimp only at h
  split at h
  · simp at h
  obtain ⟨⟨value, target, s1⟩, hresolve, h⟩ := bind_eq_done.mp h
  obtain ⟨count, rfl⟩ : ∃ count, s1 = { s with sUnresolvedCount := count } := by
    rcases resolve_done hresolve with rfl | ⟨rfl, -⟩
    · exact ⟨_, rfl⟩
    · exact ⟨_, rfl⟩
  simp only [fixLocation_eq] at h
  split at h
  · exact ⟨_, count, (done.inj h).symm⟩
  split at h
  · exact ⟨_, count, (done.inj h).symm⟩
  split at h
  · exact ⟨_, count, (done.inj h).symm⟩
  · simp at h

theorem bindOne_eq_done {step : Word} (h : bindOne fuel this obj step b = done b') :
    b.address < b.segmentEndAddress ∧ ∃ value count, b' = { b with
      s := { b.s with mem := b.s.mem.store b.address value, sUnresolvedCount := count }
      address := b.address + step } := by
  obtain ⟨u, hcheck, h⟩ := bind_eq_done.mp h
  obtain ⟨b1, hbind, h⟩ := bind_eq_done.mp h
  obtain rfl := done.inj h
  unfold bindHere at hbind
  split at hbind
  · simp at hbind
  · obtain ⟨name, -, hbind⟩ := bind_eq_done.mp hbind
    obtain ⟨s, hs, hbind⟩ := bind_eq_done.mp hbind
    obtain rfl := done.inj hbind
    obtain ⟨value, count, rfl⟩ := bind_stores hs
    exact ⟨checkAddress_eq_done hcheck, value, count, rfl⟩

/-- A statement about the linker and the selected segment, which a bind keeps, and the selection
of a segment too. -/
structure BindInvariant (fuel : Nat) (this : ImageId) (obj : MachObject) (I : Binding → Prop) :
    Prop where
  sets : ∀ b b' : Binding, I b → b'.s = b.s → b'.segmentIndex = b.segmentIndex →
    b'.segmentEndAddress = b.segmentEndAddress → I b'
  selects : ∀ b b' : Binding, I b → b'.s = b.s →
    segActualEndAddr obj b'.segmentIndex = done b'.segmentEndAddress → I b'
  binds : ∀ step b b', I b → bindOne fuel this obj step b = done b' → I b'

namespace BindInvariant

variable {I : Binding → Prop} (h : BindInvariant fuel this obj I)
include h

theorem setOpcode {opcode immediate : Byte} {other : Outcome (Bool × Binding)} (hb : I b)
    (hother : other.Ensures fun v => I v.2) :
    (setOpcode fuel obj stop opcode immediate b other).Ensures fun v => I v.2 := by
  unfold Lnk.setOpcode
  refine .ite (fun _ => .done (h.sets _ _ hb rfl rfl rfl)) fun _ => .ite (fun _ => ?_) fun _ =>
    .ite (fun _ => .done (h.sets _ _ hb rfl rfl rfl)) fun _ => .ite (fun _ => ?_) fun _ =>
    .ite (fun _ => ?_) fun _ => .ite (fun _ => ?_) fun _ => .ite (fun _ => ?_) fun _ => hother
  · exact .bind fun n _ => .done (h.sets _ _ hb rfl rfl rfl)
  · exact .bind fun n _ => .done (h.sets _ _ hb rfl rfl rfl)
  · exact .bind fun n _ => .done (h.sets _ _ hb rfl rfl rfl)
  · exact .bind fun start _ => .bind fun offset _ => .bind fun segEnd hsegEnd =>
      .done (h.selects _ _ hb rfl hsegEnd)
  · exact .bind fun pos _ => .done (h.sets _ _ hb rfl rfl rfl)

theorem times {step : Word} {count : Nat} (hb : I b) :
    (bindTimes (bindOne fuel this obj step) count b).Ensures I := by
  induction count generalizing b with
  | zero => exact .done hb
  | succ count ih => exact .bind fun b1 hone => ih (h.binds _ _ _ hb hone)

theorem doBindOpcode {opcode immediate : Byte} {msg : String} (hb : I b) :
    (doBindOpcode stop opcode immediate b (bindOne fuel this obj) (.halt msg)).Ensures
      fun v => I v.2 := by
  have hone : ∀ step b1, bindOne fuel this obj step b = done b1 → I b1 :=
    fun step b1 hone => h.binds step b b1 hb hone
  unfold Lnk.doBindOpcode
  refine .ite (fun _ => ?_) fun _ => .ite (fun _ => ?_) fun _ => .ite (fun _ => ?_) fun _ =>
    .ite (fun _ => ?_) fun _ => .halt _
  · exact .bind fun b1 hb1 => .done (hone _ b1 hb1)
  · exact .bind fun b1 hb1 => .bind fun n _ => .done (h.sets _ _ (hone _ b1 hb1) rfl rfl rfl)
  · exact .bind fun b1 hb1 => .done (hone _ b1 hb1)
  · refine .bind fun count _ => .bind fun skip _ => .bind fun b1 hb1 => .done ?_
    have hpos : I { b with pos := skip.2 } := h.sets _ _ hb rfl rfl rfl
    exact h.times hpos b1 hb1

theorem readBindOp (hb : I b) : (readBindOp fuel this obj stop b).Ensures fun v => I v.2 :=
  .ite (fun _ => .done (h.sets _ _ hb rfl rfl rfl)) fun _ =>
    .ite (fun _ => .done (h.sets _ _ hb rfl rfl rfl)) fun _ =>
    h.setOpcode (h.sets _ _ hb rfl rfl rfl) (h.doBindOpcode (h.sets _ _ hb rfl rfl rfl))

theorem readLazyBindOp (hb : I b) :
    (readLazyBindOp fuel this obj stop b).Ensures fun v => I v.2 := by
  have hpos : I { b with pos := b.pos + 1 } := h.sets _ _ hb rfl rfl rfl
  refine .ite (fun _ => .done hpos) fun _ => .ite (fun _ => .done (h.sets _ _ hb rfl rfl rfl))
    fun _ => h.setOpcode hpos ?_
  exact .ite (fun _ => .bind fun b1 hb1 => .done (h.binds _ _ _ hpos hb1)) fun _ => .halt _

/-! It holds at each fix-up too. -/

theorem timesFixups {step : Word} {count : Nat} (hb : I b) :
    ∀ a ∈ bindTimesFixups (bindOne fuel this obj step) count b, I a := by
  induction count generalizing b with
  | zero => simp [bindTimesFixups]
  | succ count ih =>
    intro a ha
    rcases List.mem_cons.mp ha with rfl | ha
    · exact hb
    · split at ha
      · rename_i b1 hone
        exact ih (h.binds _ _ _ hb hone) a ha
      · simp at ha

theorem readBindOpFixups (hb : I b) : ∀ a ∈ readBindOpFixups fuel this obj stop b, I a := by
  have hpos : ∀ pos, I { b with pos := pos } := fun pos => h.sets _ _ hb rfl rfl rfl
  intro a ha
  unfold Lnk.readBindOpFixups doBindOpcodeFixups at ha
  split at ha
  · rw [List.mem_singleton.mp ha]
    exact hpos _
  split at ha
  · rw [List.mem_singleton.mp ha]
    exact hpos _
  split at ha
  · rw [List.mem_singleton.mp ha]
    exact hpos _
  split at ha
  · split at ha
    · exact h.timesFixups (hpos _) a ha
    · simp at ha
  · simp at ha

theorem readLazyBindOpFixups (hb : I b) : ∀ a ∈ readLazyBindOpFixups b, I a := by
  intro a ha
  unfold Lnk.readLazyBindOpFixups at ha
  split at ha
  · rw [List.mem_singleton.mp ha]
    exact h.sets _ _ hb rfl rfl rfl
  · simp at ha

theorem readBindFixups {s : Linker} {start : Addr} (hstart : I (.start s start 0)) :
    ∀ a ∈ readBindFixups fuel s this obj start stop, I a := by
  intro a ha
  obtain ⟨t, ht, ha⟩ := mem_bindLoopFixups.mp ha
  exact h.readBindOpFixups (turns_forall (fun b hb _ => h.readBindOp hb) hstart t ht).1 a ha

theorem readLazyBindFixups {s : Linker} {start : Addr}
    (hstart : I (.start s start bindTypePointer)) :
    ∀ a ∈ readLazyBindFixups fuel s this obj start stop, I a := by
  intro a ha
  obtain ⟨t, ht, ha⟩ := mem_bindLoopFixups.mp ha
  exact h.readLazyBindOpFixups (turns_forall (fun b hb _ => h.readLazyBindOp hb) hstart t ht).1 a ha

end BindInvariant

/-! ## Every change is one of the fix-ups -/

/-- The two memories differ only in words at these addresses. -/
def OnlyAt (P : Addr → Prop) (mem mem' : Mem) : Prop :=
  ∀ x, mem' x ≠ mem x → ∃ a, P a ∧ Mem.InWord a x

theorem OnlyAt.refl (P : Addr → Prop) (mem : Mem) : OnlyAt P mem mem :=
  fun _ h => absurd rfl h

theorem OnlyAt.trans {P : Addr → Prop} {mem mem' mem'' : Mem} (h : OnlyAt P mem mem')
    (h' : OnlyAt P mem' mem'') : OnlyAt P mem mem'' := by
  intro x hx
  by_cases hsame : mem' x = mem x
  · exact h' x (by rwa [hsame])
  · exact h x hsame

theorem OnlyAt.mono {P Q : Addr → Prop} {mem mem' : Mem} (h : OnlyAt P mem mem')
    (hPQ : ∀ a, P a → Q a) : OnlyAt Q mem mem' := by
  intro x hx
  obtain ⟨a, ha, hin⟩ := h x hx
  exact ⟨a, hPQ a ha, hin⟩

theorem OnlyAt.store {P : Addr → Prop} (mem : Mem) {a : Addr} (v : Word)
    (h : mem.store a v ≠ mem → P a) : OnlyAt P mem (mem.store a v) := by
  intro x hx
  refine ⟨a, h fun hsame => hx (congrFun hsame x), ?_⟩
  by_contra hout
  exact hx (Mem.store_outside mem a v x hout)

/-- Where the fix-ups of the list store. -/
def RebaseWords (fixups : List Rebasing) (a : Addr) : Prop :=
  ∃ r ∈ fixups, RebaseStores r ∧ r.address = a

theorem RebaseWords.mono {l l' : List Rebasing} {a : Addr} (h : RebaseWords l a) (hsub : l ⊆ l') :
    RebaseWords l' a := by
  obtain ⟨r, hr, hstores⟩ := h
  exact ⟨r, hsub hr, hstores⟩

theorem rebaseTimes_changes {step : Word} {count : Nat} :
    (rebaseTimes obj step count r).Ensures fun r' =>
      OnlyAt (RebaseWords (rebaseTimesFixups obj step count r)) r.mem r'.mem := by
  induction count generalizing r with
  | zero => exact .done (.refl _ _)
  | succ count ih =>
    refine .bind fun r1 hone r' h => ?_
    obtain ⟨hstores, hmem, -⟩ := rebaseOne_eq_done hone
    have hhead : OnlyAt (RebaseWords (rebaseTimesFixups obj step (count + 1) r)) r.mem r1.mem := by
      rw [hmem]
      exact .store _ _ fun _ => ⟨r, by simp [rebaseTimesFixups], hstores, rfl⟩
    refine hhead.trans ((ih r' h).mono fun a ha => ha.mono ?_)
    rw [rebaseTimesFixups, hone]
    exact List.subset_cons_self _ _

theorem rebaseTimes_one {r' : Rebasing} {step : Word} (h : rebaseOne obj step r = done r') :
    rebaseTimes obj step 1 r = done r' := by
  rw [rebaseTimes, h]
  rfl

/-- The opcode has rebased its fix-ups one after the other, if it has any. -/
def RebasesInARow (obj : MachObject) (r r' : Rebasing) (fixups : List Rebasing) : Prop :=
  ∃ step count r0 r1, rebaseTimes obj step count r0 = done r1 ∧ r0.mem = r.mem ∧
    fixups = rebaseTimesFixups obj step count r0 ∧ r'.mem = r1.mem

theorem readRebaseOp_row : (readRebaseOp obj stop r).Ensures fun v =>
    RebasesInARow obj r v.2 (readRebaseOpFixups obj stop r) := by
  unfold readRebaseOp readRebaseOpFixups
  dsimp only
  have hnone : ∀ {r' fixups}, r'.mem = r.mem → fixups = [] → RebasesInARow obj r r' fixups :=
    fun hmem hnil => ⟨0, 0, r, r, rfl, rfl, hnil, hmem⟩
  refine .ite (fun hop => .done ?_) fun _ => .ite (fun hop => .done ?_) fun _ =>
    .ite (fun hop => .ite (fun _ => .halt _) fun _ => .bind fun base _ => .bind fun offset _ =>
      .bind fun segEnd _ => .done ?_) fun _ =>
    .ite (fun hop => .bind fun n _ => .done ?_) fun _ =>
    .ite (fun hop => .done ?_) fun _ =>
    .ite (fun hop => .bind fun r1 h => .done ?_) fun _ =>
    .ite (fun hop => .bind fun n hn => .bind fun r1 h => .done ?_) fun _ =>
    .ite (fun hop => .bind fun r1 h => .bind fun n _ => .done ?_) fun _ =>
    .ite (fun hop => .bind fun n hn => .bind fun m hm => .bind fun r1 h => .done ?_) fun _ =>
    .halt _
  · exact hnone rfl (by rw [hop]; rfl)
  · exact hnone rfl (by rw [hop]; rfl)
  · exact hnone rfl (by rw [hop]; rfl)
  · exact hnone rfl (by rw [hop]; rfl)
  · exact hnone rfl (by rw [hop]; rfl)
  · exact ⟨_, _, _, r1, h, rfl, by rw [hop]; rfl, rfl⟩
  · exact ⟨_, _, _, r1, h, rfl, by simp only [hop, hn]; rfl, rfl⟩
  · exact ⟨_, _, _, r1, rebaseTimes_one h, rfl, by rw [hop]; rfl, rfl⟩
  · exact ⟨_, _, _, r1, h, rfl, by simp only [hop, hn, hm, done_bind]; rfl, rfl⟩

theorem readRebaseOp_changes : (readRebaseOp obj stop r).Ensures fun v =>
    OnlyAt (RebaseWords (readRebaseOpFixups obj stop r)) r.mem v.2.mem := by
  intro v hv
  obtain ⟨step, count, r0, r1, h, hmem, hfixups, hmem'⟩ := readRebaseOp_row v hv
  rw [hfixups, hmem', ← hmem]
  exact rebaseTimes_changes r1 h

theorem readRebaseLoop_changes {fuel segmentIndex : Nat} :
    (readRebaseLoop obj stop fuel r).Ensures fun r' =>
      OnlyAt (RebaseWords ((readRebaseLoopFixups obj stop fuel segmentIndex r).map Prod.snd))
        r.mem r'.mem := by
  induction fuel generalizing r segmentIndex with
  | zero => exact nofun
  | succ fuel ih =>
    unfold readRebaseLoop readRebaseLoopFixups
    split
    · simp only [List.map_append, List.map_map, Function.comp_def, List.map_id']
      refine .bind fun v hop => ?_
      have hfirst : ∀ l, OnlyAt (RebaseWords (readRebaseOpFixups obj stop r ++ l)) r.mem v.2.mem :=
        fun l => (readRebaseOp_changes v hop).mono fun a ha =>
          ha.mono (List.subset_append_left _ _)
      refine .ite (fun _ => .done (hfirst _)) fun hgo => ?_
      intro r' h
      obtain ⟨finished, r1⟩ := v
      obtain rfl : finished = false := by simpa using hgo
      rw [hop]
      exact (hfirst _).trans ((ih r' h).mono fun a ha => ha.mono (List.subset_append_right _ _))
    · exact .done (.refl _ _)

theorem readRebase_changes {mem : Mem} {start : Addr} :
    (readRebase mem obj start stop).Ensures fun mem' =>
      OnlyAt (RebaseWords ((readRebaseFixups mem obj start stop).map Prod.snd)) mem mem' := by
  refine .bind fun address haddress => .bind fun segEnd hsegEnd => .bind fun r hr => .done ?_
  unfold readRebaseFixups
  rw [haddress, hsegEnd]
  exact readRebaseLoop_changes r hr

def BindWords (fuel : Nat) (this : ImageId) (obj : MachObject) (fixups : List Binding) (a : Addr) :
    Prop :=
  ∃ b ∈ fixups, BindStores fuel this obj b ∧ b.address = a

theorem BindWords.mono {l l' : List Binding} {a : Addr} (h : BindWords fuel this obj l a)
    (hsub : l ⊆ l') : BindWords fuel this obj l' a := by
  obtain ⟨b, hb, hstores⟩ := h
  exact ⟨b, hsub hb, hstores⟩

theorem bindOne_step {step : Word} (h : bindOne fuel this obj step b = done b') :
    bindOne fuel this obj 0 b = done { b' with address := b.address } := by
  obtain ⟨u, hcheck, h⟩ := bind_eq_done.mp h
  obtain ⟨b1, hbind, h⟩ := bind_eq_done.mp h
  have haddress : b1.address = b.address := by
    unfold bindHere at hbind
    split at hbind
    · simp at hbind
    · obtain ⟨name, -, hbind⟩ := bind_eq_done.mp hbind
      obtain ⟨s, -, hbind⟩ := bind_eq_done.mp hbind
      rw [← done.inj hbind]
  unfold bindOne
  rw [hcheck, hbind, ← done.inj h]
  simp [haddress]

theorem bindOne_changes {step : Word} {fixups : List Binding} (hb : b ∈ fixups) :
    (bindOne fuel this obj step b).Ensures fun b' =>
      OnlyAt (BindWords fuel this obj fixups) b.s.mem b'.s.mem := by
  intro b' h
  obtain ⟨-, value, count, rfl⟩ := bindOne_eq_done h
  exact .store _ _ fun hne => ⟨b, hb, ⟨_, bindOne_step h, hne⟩, rfl⟩

theorem bindTimes_changes {step : Word} {count : Nat} :
    (bindTimes (bindOne fuel this obj step) count b).Ensures fun b' =>
      OnlyAt (BindWords fuel this obj (bindTimesFixups (bindOne fuel this obj step) count b))
        b.s.mem b'.s.mem := by
  induction count generalizing b with
  | zero => exact .done (.refl _ _)
  | succ count ih =>
    refine .bind fun b1 hone b' h => ?_
    unfold bindTimesFixups
    rw [hone]
    have hhead := bindOne_changes (List.mem_cons_self (l :=
      bindTimesFixups (bindOne fuel this obj step) count b1)) b1 hone
    exact hhead.trans ((ih b' h).mono fun a ha => ha.mono (List.subset_cons_self _ _))

theorem setOpcode_changes {opcode immediate : Byte} {other : Outcome (Bool × Binding)}
    {P : Addr → Prop} (hother : other.Ensures fun v => OnlyAt P b.s.mem v.2.s.mem) :
    (setOpcode fuel obj stop opcode immediate b other).Ensures fun v =>
      OnlyAt P b.s.mem v.2.s.mem := by
  unfold setOpcode
  refine .ite (fun _ => .done (.refl _ _)) fun _ => .ite (fun _ => ?_) fun _ =>
    .ite (fun _ => .done (.refl _ _)) fun _ => .ite (fun _ => ?_) fun _ =>
    .ite (fun _ => ?_) fun _ => .ite (fun _ => ?_) fun _ => .ite (fun _ => ?_) fun _ => hother
  · exact .bind fun n _ => .done (.refl _ _)
  · exact .bind fun n _ => .done (.refl _ _)
  · exact .bind fun n _ => .done (.refl _ _)
  · exact .bind fun start _ => .bind fun offset _ => .bind fun segEnd _ => .done (.refl _ _)
  · exact .bind fun pos _ => .done (.refl _ _)

theorem doBindOpcode_changes {opcode immediate : Byte} {msg : String} :
    (doBindOpcode stop opcode immediate b (bindOne fuel this obj) (.halt msg)).Ensures fun v =>
      OnlyAt (BindWords fuel this obj (doBindOpcodeFixups stop opcode b (bindOne fuel this obj)))
        b.s.mem v.2.s.mem := by
  unfold doBindOpcode doBindOpcodeFixups
  refine .ite (fun hop => ?_) fun _ => .ite (fun hop => ?_) fun _ => .ite (fun hop => ?_) fun _ =>
    .ite (fun hop => ?_) fun _ => .halt _
  · simp only [hop]
    exact .bind fun b1 h => .done (bindOne_changes (List.mem_singleton.mpr rfl) b1 h)
  · simp only [hop]
    exact .bind fun b1 h => .bind fun n _ =>
      .done (bindOne_changes (List.mem_singleton.mpr rfl) b1 h)
  · simp only [hop]
    exact .bind fun b1 h => .done (bindOne_changes (List.mem_singleton.mpr rfl) b1 h)
  · refine .bind fun count hcount => .bind fun skip hskip => .bind fun b1 h => .done ?_
    simp only [hop, hcount, hskip, done_bind]
    exact bindTimes_changes b1 h

theorem readBindOp_changes : (readBindOp fuel this obj stop b).Ensures fun v =>
    OnlyAt (BindWords fuel this obj (readBindOpFixups fuel this obj stop b))
      b.s.mem v.2.s.mem :=
  .ite (fun _ => .done (.refl _ _)) fun _ => .ite (fun _ => .done (.refl _ _)) fun _ =>
    setOpcode_changes (b := { b with pos := b.pos + 1 }) doBindOpcode_changes

theorem readLazyBindOp_changes : (readLazyBindOp fuel this obj stop b).Ensures fun v =>
    OnlyAt (BindWords fuel this obj (readLazyBindOpFixups b)) b.s.mem v.2.s.mem := by
  refine .ite (fun _ => .done (.refl _ _)) fun _ => .ite (fun _ => .done (.refl _ _)) fun _ =>
    setOpcode_changes (b := { b with pos := b.pos + 1 }) ?_
  refine .ite (fun hop => .bind fun b1 h => .done ?_) fun _ => .halt _
  unfold readLazyBindOpFixups
  rw [if_pos hop]
  exact bindOne_changes (List.mem_singleton.mpr rfl) b1 h

theorem bindLoop_changes {op : Binding → Outcome (Bool × Binding)}
    {fixups : Binding → List Binding} {n : Nat}
    (hop : ∀ b, (op b).Ensures fun v =>
      OnlyAt (BindWords fuel this obj (fixups b)) b.s.mem v.2.s.mem) :
    (bindLoop op stop n b).Ensures fun b' =>
      OnlyAt (BindWords fuel this obj (bindLoopFixups op fixups stop n b)) b.s.mem b'.s.mem := by
  induction n generalizing b with
  | zero => exact nofun
  | succ n ih =>
    unfold bindLoop bindLoopFixups
    split
    · refine .bind fun v hv => ?_
      have hfirst : ∀ l, OnlyAt (BindWords fuel this obj (fixups b ++ l)) b.s.mem v.2.s.mem :=
        fun l => (hop b v hv).mono fun a ha => ha.mono (List.subset_append_left _ _)
      refine .ite (fun _ => .done (hfirst _)) fun hgo => ?_
      intro b' h
      obtain ⟨finished, b1⟩ := v
      obtain rfl : finished = false := by simpa using hgo
      rw [hv]
      exact (hfirst _).trans ((ih b' h).mono fun a ha => ha.mono (List.subset_append_right _ _))
    · exact .done (.refl _ _)

theorem readBind_changes {s : Linker} {start : Addr} :
    ((readBind fuel s this obj start stop).Ensures fun s' =>
      OnlyAt (BindWords fuel this obj (readBindFixups fuel s this obj start stop)) s.mem s'.mem) ∧
    (readLazyBind fuel s this obj start stop).Ensures fun s' =>
      OnlyAt (BindWords fuel this obj (readLazyBindFixups fuel s this obj start stop))
        s.mem s'.mem :=
  ⟨.bind fun b h => .done (bindLoop_changes (fun _ => readBindOp_changes) b h),
    .bind fun b h => .done (bindLoop_changes (fun _ => readLazyBindOp_changes) b h)⟩

end LibSystem.Lnk
