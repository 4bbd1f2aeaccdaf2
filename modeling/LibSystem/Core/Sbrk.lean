import LibSystem.Piles
import LibSystem.Run
import LibSystem.Words

/-!
# The break

`sbrk` of `core/mem.c`, call after call, with a kernel that grants each move of the break or
refuses it.
-/

namespace LibSystem.Core.Sbrk

def sbrkAlign : Word := 32

/-- What the last call asked of the kernel, what the kernel answered, and what the call returned. -/
structure Answer where
  asked : Addr
  answered : Addr
  result : Addr

structure State where
  /-- The kernel's. -/
  brk : Addr
  /-- `__Break`. -/
  cached : Addr
  /-- What successful calls have returned, with the increment. -/
  regions : List (Addr × Word)
  last : Option Answer

/-- `__Break` is 0 in the image. -/
def init (brk : Addr) : State := ⟨brk, 0, [], none⟩

structure Call where
  increment : Word
  /-- The kernel moves the break, if it is asked to. -/
  granted : Bool

/-- `brk$LINUX`: the answer and the break afterwards. -/
def brkLinux (granted : Bool) (brk «end» : Addr) : Addr × Addr :=
  if «end» = 0 then (brk, brk)
  else if granted then («end», «end») else (brk, brk)

def sbrk (c : Call) (s : State) : State :=
  let cached := if s.cached = 0 then (brkLinux c.granted s.brk 0).1 else s.cached
  let start := (cached + (sbrkAlign - 1)) &&& ~~~(sbrkAlign - 1)
  let «end» := start + c.increment
  let (newBrk, brk) := brkLinux c.granted s.brk «end»
  if newBrk = -1 then
    { s with brk := brk, cached := cached, last := some ⟨«end», newBrk, newBrk⟩ }
  else if newBrk < «end» then
    { s with brk := brk, cached := cached, last := some ⟨«end», newBrk, -1⟩ }
  else
    { brk := brk, cached := newBrk, regions := (start, c.increment) :: s.regions,
      last := some ⟨«end», newBrk, start⟩ }

inductive Step (s : State) (c : Call) : State → Prop where
  | sbrk (h : 0 ≤ c.increment.toInt) : Step s c (sbrk c s)

/-- `[start, start + n)`, which may run past the end of the address space. -/
def range (r : Addr × Word) : Nat × Nat := (r.1.toNat, r.1.toNat + r.2.toNat)

/-- What `sbrk` is for. -/
structure HandsOut (s : State) : Prop where
  aligned : ∀ r ∈ s.regions, r.1.toNat % 32 = 0
  below : ∀ r ∈ s.regions, (range r).2 ≤ s.brk.toNat
  disjoint : s.regions.Pairwise fun r r' =>
    Disjoint (Set.Ico (range r).1 (range r).2) (Set.Ico (range r').1 (range r').2)
  refused : ∀ o ∈ s.last, o.answered ≠ o.asked → o.result = -1
  failed : ∀ o ∈ s.last, o.result = -1 → s.cached = s.brk

/-- The break, rounded up to 32 bytes. -/
def roundUp (brk : Addr) : Nat := (brk.toNat + 31) / 32 * 32

/-- A call that asks for an end below the last address. -/
def Low (s : State) (c : Call) : Prop := roundUp s.brk + c.increment.toNat < 2 ^ 32 - 1

/-- The guard of a call. The last address may be asked for where it is refused, and a break there
may stay. A break that cannot be rounded up may move to the bottom, if nothing was handed out. -/
def Fits (s : State) (c : Call) : Prop :=
  Low s c ∨
  (c.granted = false ∧ roundUp s.brk + c.increment.toNat = 2 ^ 32 - 1) ∨
  (s.brk = -1 ∧ (c.granted = false ∨ c.increment = 0)) ∨
  (roundUp s.brk = 2 ^ 32 ∧ c.granted = true ∧ c.increment ≠ 0 ∧ s.regions = [])

/-! ## One call -/

theorem le_roundUp (brk : Addr) : brk.toNat ≤ roundUp brk := by
  unfold roundUp
  omega

theorem brkLinux_cases (granted : Bool) (brk e : Addr) :
    brkLinux granted brk e = (brk, brk) ∨ brkLinux granted brk e = (e, e) := by
  unfold brkLinux
  split
  · exact .inl rfl
  · cases granted
    · exact .inl rfl
    · exact .inr rfl

section

variable {s : State} {c : Call}

/-- Where the next region starts. -/
def start (brk : Addr) : Addr := (brk + (sbrkAlign - 1)) &&& ~~~(sbrkAlign - 1)

theorem start_toNat (brk : Addr) : (start brk).toNat = (brk.toNat + 31) % 2 ^ 32 / 32 * 32 := by
  have hmask := Mem.and_not_mask (brk + 31) (k := 5) (by decide)
  rw [BitVec.toNat_add] at hmask
  exact hmask

theorem sbrk_eq (hcached : s.cached = 0 ∨ s.cached = s.brk) :
    sbrk c s =
      let e := start s.brk + c.increment
      let (newBrk, brk) := brkLinux c.granted s.brk e
      if newBrk = -1 then
        { s with brk := brk, cached := s.brk, last := some ⟨e, newBrk, newBrk⟩ }
      else if newBrk < e then
        { s with brk := brk, cached := s.brk, last := some ⟨e, newBrk, -1⟩ }
      else
        { brk := brk, cached := newBrk, regions := (start s.brk, c.increment) :: s.regions,
          last := some ⟨e, newBrk, start s.brk⟩ } := by
  have heffective :
      (if s.cached = 0 then (brkLinux c.granted s.brk 0).1 else s.cached) = s.brk := by
    split
    · rfl
    · exact hcached.resolve_left ‹_›
  unfold sbrk
  rw [heffective]
  rfl

theorem sbrk_cases (hcached : s.cached = 0 ∨ s.cached = s.brk) (hlow : Low s c) :
    s.brk ≠ start s.brk + c.increment ∧
      sbrk c s = { s with cached := s.brk, last := some ⟨start s.brk + c.increment, s.brk, -1⟩ } ∨
    sbrk c s =
      { brk := start s.brk + c.increment, cached := start s.brk + c.increment,
        regions := (start s.brk, c.increment) :: s.regions,
        last := some ⟨start s.brk + c.increment, start s.brk + c.increment, start s.brk⟩ } := by
  have hstart := start_toNat s.brk
  have hle := le_roundUp s.brk
  unfold Low at hlow
  unfold roundUp at hlow hle
  have hend : (start s.brk + c.increment).toNat = (start s.brk).toNat + c.increment.toNat := by
    rw [BitVec.toNat_add]
    omega
  have hlast : ∀ a : Addr, a.toNat < 2 ^ 32 - 1 → a ≠ -1 := by
    rintro a ha rfl
    exact absurd ha (by decide)
  rw [sbrk_eq hcached]
  rcases brkLinux_cases c.granted s.brk (start s.brk + c.increment) with hbrk | hbrk
  · by_cases hlt : s.brk < start s.brk + c.increment
    · left
      refine ⟨BitVec.ne_of_lt hlt, ?_⟩
      simp only [hbrk]
      rw [if_neg (hlast _ (by omega)), if_pos hlt]
    · -- Refused, but the break is where it was asked to be.
      right
      have hsame : s.brk = start s.brk + c.increment := by
        apply BitVec.eq_of_toNat_eq
        rw [BitVec.lt_def] at hlt
        omega
      simp only [hbrk]
      rw [if_neg (hlast _ (by omega)), if_neg hlt, ← hsame]
  · right
    simp only [hbrk]
    rw [if_neg (hlast _ (by omega)), if_neg (BitVec.lt_irrefl _)]

end

/-! ## Runs -/

/-- The invariant. -/
structure Sound (s : State) : Prop where
  cached : s.cached = 0 ∨ s.cached = s.brk
  aligned : ∀ r ∈ s.regions, r.1.toNat % 32 = 0
  piled : Piled (s.regions.map range) s.brk.toNat
  top : ∀ r ∈ s.regions.head?, (range r).2 = s.brk.toNat
  refused : ∀ a ∈ s.last, a.answered ≠ a.asked → a.result = -1
  failed : ∀ a ∈ s.last, a.result = -1 → s.cached = s.brk

theorem Sound.handsOut {s : State} (h : Sound s) : HandsOut s where
  aligned := h.aligned
  below r hr := h.piled.below (range r) (List.mem_map_of_mem hr)
  disjoint := (List.pairwise_map (f := range)).mp h.piled.disjoint
  refused := h.refused
  failed := h.failed

theorem sound_init (brk : Addr) : Sound (init brk) where
  cached := .inl rfl
  aligned := by simp [init]
  piled := piled_nil _
  top := by simp [init]
  refused := by simp [init]
  failed := by simp [init]

section

variable {s : State} {c : Call}

theorem Sound.fail (h : Sound s) (asked answered : Addr) :
    Sound { s with cached := s.brk, last := some ⟨asked, answered, -1⟩ } :=
  ⟨.inr rfl, h.aligned, h.piled, h.top, by simp, by simp⟩

theorem Sound.step_low (h : Sound s) (hlow : Low s c) : Sound (sbrk c s) := by
  obtain ⟨hne, heq⟩ | heq := sbrk_cases h.cached hlow
  · rw [heq]
    exact h.fail _ _
  · have hstart := start_toNat s.brk
    have hle := le_roundUp s.brk
    unfold Low at hlow
    unfold roundUp at hlow hle
    have hend : (start s.brk + c.increment).toNat = (start s.brk).toNat + c.increment.toNat := by
      rw [BitVec.toNat_add]
      omega
    have hbelow : s.brk.toNat ≤ (start s.brk).toNat := by omega
    rw [heq]
    refine ⟨.inr rfl, ?_, ?_, by simp [range, hend], by simp, fun _ _ _ => rfl⟩
    · rw [List.forall_mem_cons]
      refine ⟨?_, h.aligned⟩
      change (start s.brk).toNat % 32 = 0
      omega
    · exact h.piled.cons hbelow (Nat.le_add_right _ _) (le_of_eq hend.symm)

/-! ## The end of the address space -/

theorem increment_lt {n : Word} (h : 0 ≤ n.toInt) : n.toNat < 2 ^ 31 := by
  rw [BitVec.toInt_eq_toNat_cond] at h
  have hlt := n.isLt
  split at h <;> omega

theorem end_last (hlast : roundUp s.brk + c.increment.toNat = 2 ^ 32 - 1) :
    start s.brk + c.increment = -1 := by
  have hstart := start_toNat s.brk
  unfold roundUp at hlast
  apply BitVec.eq_of_toNat_eq
  change _ = 2 ^ 32 - 1
  rw [BitVec.toNat_add]
  omega

theorem start_zero {brk : Addr} (hround : roundUp brk = 2 ^ 32) : start brk = 0 := by
  have hstart := start_toNat brk
  unfold roundUp at hround
  apply BitVec.eq_of_toNat_eq
  change _ = 0
  omega

theorem end_zero (hround : roundUp s.brk = 2 ^ 32) :
    start s.brk + c.increment = c.increment := by
  rw [start_zero hround]
  exact BitVec.zero_add _

theorem le_last (a : Addr) : a ≤ -1 := by
  have := a.isLt
  rw [BitVec.le_def]
  change _ ≤ 2 ^ 32 - 1
  omega

theorem roundUp_le (brk : Addr) : roundUp brk ≤ 2 ^ 32 := by
  have := brk.isLt
  unfold roundUp
  omega

theorem brk_ne_last (hround : roundUp s.brk < 2 ^ 32) : s.brk ≠ -1 := by
  intro h
  rw [h] at hround
  exact absurd hround (by decide)

theorem brkLinux_stays {granted : Bool} {e : Addr} (hstays : granted = false ∨ e = 0)
    (brk : Addr) : brkLinux granted brk e = (brk, brk) := by
  unfold brkLinux
  rcases hstays with h | h <;> simp [h]

theorem sbrk_last (hcached : s.cached = 0 ∨ s.cached = s.brk) (hgranted : c.granted = false)
    (hlast : roundUp s.brk + c.increment.toNat = 2 ^ 32 - 1) (hround : roundUp s.brk < 2 ^ 32) :
    sbrk c s = { s with cached := s.brk, last := some ⟨-1, s.brk, -1⟩ } := by
  have hbrk := brk_ne_last hround
  have hlt : s.brk < -1 := BitVec.lt_of_le_ne (le_last _) hbrk
  rw [sbrk_eq hcached, end_last hlast]
  simp only [brkLinux_stays (.inl hgranted), if_neg hbrk, if_pos hlt]

theorem sbrk_stays (hcached : s.cached = 0 ∨ s.cached = s.brk) (hbrk : s.brk = -1)
    (hstays : c.granted = false ∨ c.increment = 0) :
    sbrk c s = { s with cached := s.brk, last := some ⟨c.increment, -1, -1⟩ } := by
  have hround : roundUp s.brk = 2 ^ 32 := by
    rw [hbrk]
    rfl
  rw [sbrk_eq hcached, end_zero hround]
  simp only [brkLinux_stays hstays, hbrk, if_true]

theorem sbrk_bottom (hcached : s.cached = 0 ∨ s.cached = s.brk) (hround : roundUp s.brk = 2 ^ 32)
    (hgranted : c.granted = true) (hne : c.increment ≠ 0) (hpos : 0 ≤ c.increment.toInt) :
    sbrk c s =
      { brk := c.increment, cached := c.increment, regions := (0, c.increment) :: s.regions,
        last := some ⟨c.increment, c.increment, 0⟩ } := by
  have hlast : c.increment ≠ -1 := by
    intro h
    have := increment_lt hpos
    rw [h] at this
    exact absurd this (by decide)
  rw [sbrk_eq hcached, end_zero hround, start_zero hround, hgranted]
  simp only [brkLinux, if_neg hne, if_true, if_neg hlast, if_neg (BitVec.lt_irrefl _)]

theorem Sound.step (h : Sound s) {s' : State} (hfits : Fits s c) (hstep : Step s c s') :
    Sound s' := by
  cases hstep with
  | sbrk hpos =>
    rcases hfits with hlow | ⟨hgranted, hlast⟩ | ⟨hbrk, hstays⟩ | ⟨hround, hgranted, hne, hnil⟩
    · exact h.step_low hlow
    · rw [sbrk_last h.cached hgranted hlast (by omega)]
      exact h.fail _ _
    · rw [sbrk_stays h.cached hbrk hstays]
      exact h.fail _ _
    · rw [sbrk_bottom h.cached hround hgranted hne hpos, hnil]
      exact ⟨.inr rfl, by simp, (piled_nil 0).cons (Nat.le_refl _) (Nat.le_add_right _ _)
        (by simp), by simp [range], by simp, fun _ _ _ => rfl⟩

/-! ## Where the guard fails -/

theorem wrapped_breaks (hcached : s.cached = 0 ∨ s.cached = s.brk)
    (hpos : 0 ≤ c.increment.toInt) (hround : roundUp s.brk < 2 ^ 32)
    (hwrap : 2 ^ 32 ≤ roundUp s.brk + c.increment.toNat) : ¬HandsOut (sbrk c s) := by
  have hstart := start_toNat s.brk
  have hincrement := increment_lt hpos
  have hlast := brk_ne_last hround
  unfold roundUp at hround hwrap
  have hend : start s.brk + c.increment ≤ s.brk := by
    rw [BitVec.le_def, BitVec.toNat_add]
    omega
  have hend' : start s.brk + c.increment ≠ -1 := by
    intro h
    rw [h] at hend
    exact hlast (BitVec.le_antisymm (le_last _) hend)
  have hregion : (start s.brk, c.increment) ∈ (sbrk c s).regions := by
    rw [sbrk_eq hcached]
    rcases brkLinux_cases c.granted s.brk (start s.brk + c.increment) with hbrk | hbrk
    · simp only [hbrk, if_neg hlast, if_neg (BitVec.not_lt.mpr hend), List.mem_cons_self]
    · simp only [hbrk, if_neg hend', if_neg (BitVec.lt_irrefl _), List.mem_cons_self]
  intro h
  have hbelow := h.below _ hregion
  have hlt := (sbrk c s).brk.isLt
  simp only [range] at hbelow
  omega

theorem last_breaks (hcached : s.cached = 0 ∨ s.cached = s.brk) (hgranted : c.granted = true)
    (hlast : roundUp s.brk + c.increment.toNat = 2 ^ 32 - 1) (hround : roundUp s.brk < 2 ^ 32) :
    ¬HandsOut (sbrk c s) := by
  have hsbrk : sbrk c s = { s with brk := -1, cached := s.brk, last := some ⟨-1, -1, -1⟩ } := by
    rw [sbrk_eq hcached, end_last hlast, hgranted]
    rfl
  intro h
  rw [hsbrk] at h
  exact brk_ne_last hround (h.failed _ rfl rfl)

theorem bottom_breaks (hsound : Sound s) (hround : roundUp s.brk = 2 ^ 32)
    (hgranted : c.granted = true) (hne : c.increment ≠ 0) (hpos : 0 ≤ c.increment.toInt)
    (hregions : s.regions ≠ []) : ¬HandsOut (sbrk c s) := by
  obtain ⟨r, l, hr⟩ := List.exists_cons_of_ne_nil hregions
  have htop := hsound.top r (by rw [hr]; rfl)
  have hincrement := increment_lt hpos
  intro h
  rw [sbrk_bottom hsound.cached hround hgranted hne hpos] at h
  have hbelow : (range r).2 ≤ c.increment.toNat :=
    h.below r (List.mem_cons_of_mem _ (by rw [hr]; exact List.mem_cons_self))
  unfold roundUp at hround
  omega

theorem stays_breaks (hcached : s.cached = 0 ∨ s.cached = s.brk) (hround : roundUp s.brk = 2 ^ 32)
    (hbrk : s.brk ≠ -1) (hpos : 0 ≤ c.increment.toInt)
    (hstays : c.granted = false ∨ c.increment = 0) : ¬HandsOut (sbrk c s) := by
  have hincrement := increment_lt hpos
  have hlt : ¬s.brk < c.increment := by
    rw [BitVec.lt_def]
    unfold roundUp at hround
    omega
  have hne : s.brk ≠ c.increment := by
    intro h
    rw [h] at hround
    unfold roundUp at hround
    omega
  have hsbrk : (sbrk c s).last = some ⟨c.increment, s.brk, 0⟩ := by
    rw [sbrk_eq hcached, end_zero hround, start_zero hround]
    simp only [brkLinux_stays hstays, if_neg hbrk, if_neg hlt]
  intro h
  have hzero : (0 : Addr) = -1 := h.refused _ hsbrk hne
  exact absurd hzero (by decide)

theorem Sound.handsOut_iff (h : Sound s) (hpos : 0 ≤ c.increment.toInt) :
    HandsOut (sbrk c s) ↔ Fits s c := by
  refine ⟨fun hhands => ?_, fun hfits => (h.step hfits (.sbrk hpos)).handsOut⟩
  by_contra hbreak
  simp only [Fits, Low, not_or, not_and, not_lt] at hbreak
  obtain ⟨hhigh, hlast, hstays, hbottom⟩ := hbreak
  refine absurd hhands ?_
  -- The next 32 byte boundary is an address, or it is the end of the address space.
  rcases (roundUp_le s.brk).lt_or_eq with hround | hround
  · rcases hhigh.eq_or_lt with heq | hlt
    · refine last_breaks h.cached ?_ heq.symm hround
      exact Bool.eq_true_of_not_eq_false fun hgranted => hlast hgranted heq.symm
    · exact wrapped_breaks h.cached hpos hround (by omega)
  · by_cases hmoves : c.granted = true ∧ c.increment ≠ 0
    · exact bottom_breaks h hround hmoves.1 hmoves.2 hpos (hbottom hround hmoves.1 hmoves.2)
    · have hkeeps : c.granted = false ∨ c.increment = 0 := by
        rw [not_and_or, not_not] at hmoves
        exact hmoves.imp_left Bool.eq_false_of_not_eq_true
      refine stays_breaks h.cached hround (fun hbrk => ?_) hpos hkeeps
      rcases hkeeps with hkeep | hkeep
      · exact (hstays hbrk).1 hkeep
      · exact (hstays hbrk).2 hkeep

end

/-- **`sbrk` hands out disjoint memory** in all runs in which every call meets the guard, and a
call that does not is the first to go wrong. -/
theorem sbrk_hands_out (brk : Addr) :
    (∀ s, Run Step Fits (init brk) s → HandsOut s) ∧
    ∀ s c, Run Step Fits (init brk) s → 0 ≤ c.increment.toInt →
      (HandsOut (sbrk c s) ↔ Fits s c) := by
  have hsound : ∀ s, Run Step Fits (init brk) s → Sound s := fun s hrun =>
    hrun.invariant (sound_init brk) fun a c b ha hfits hstep => ha.step hfits hstep
  exact ⟨fun s hrun => (hsound s hrun).handsOut, fun s c hrun hpos =>
    (hsound s hrun).handsOut_iff hpos⟩

/-- Two calls, the second of which is refused. -/
theorem sbrk_hands_out_sample : ∃ s, Run Step Fits (init 0x10001) s ∧
    s.regions = [(0x10020, 0x100)] ∧ s.cached = 0x10120 ∧ HandsOut s := by
  have hrun : Run Step Fits (init 0x10001)
      (sbrk ⟨0x40, false⟩ (sbrk ⟨0x100, true⟩ (init 0x10001))) :=
    .tail _ (.tail _ .refl (.inl (by unfold Low; decide)) (.sbrk (by decide)))
      (.inl (by unfold Low; decide)) (.sbrk (by decide))
  exact ⟨_, hrun, rfl, rfl, (sbrk_hands_out 0x10001).1 _ hrun⟩

/-- With the break at 2 GiB and some more, 2 GiB less one byte are handed out by a kernel that
refuses. -/
theorem sbrk_wraps : ∃ s, Reaches Step (init 0x80000020) s ∧
    s.regions = [(0x80000020, 0x7fffffff)] ∧ s.brk = 0x80000020 ∧ ¬HandsOut s := by
  have hrun : Reaches Step (init 0x80000020) (sbrk ⟨0x7fffffff, false⟩ (init 0x80000020)) :=
    .single (.sbrk (by decide))
  refine ⟨_, hrun, rfl, rfl, fun h => ?_⟩
  have hbelow := h.below (0x80000020, 0x7fffffff) (List.mem_cons_self ..)
  exact absurd hbelow (by decide)

end LibSystem.Core.Sbrk
