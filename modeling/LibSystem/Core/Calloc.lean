import LibSystem.Core.HeapRuns

/-!
# `calloc`

The product of the two sizes may be too large for a word. The division that
tells is left out when both sizes are below 2¹⁶.
-/

namespace LibSystem.Core

open Function MallocState

variable {m m' : MallocState} {bs : List Block} {n e req : Word} {mem : Addr} {fuel : Nat}
  {L L' : Set (Addr × Word)} {sys : System}

/-- What `dlcalloc` asks `dlmalloc` for. -/
def callocRequest (nElements elemSize : Word) : Word :=
  if nElements ≠ 0#32 then
    let req := nElements * elemSize
    if (nElements ||| elemSize) &&& ~~~0xFFFF#32 ≠ 0#32 ∧ req / nElements ≠ elemSize then
      0xFFFFFFFF#32
    else req
  else 0#32

/-- `dlcalloc`. The parameter `memset` writes zeros. -/
def dlcalloc (sysAlloc : MallocState → Word → Outcome (MallocState × Addr))
    (memset : MallocState → Addr → Word → MallocState) (fuel : Nat) (m : MallocState)
    (nElements elemSize : Word) : Outcome (MallocState × Addr) := do
  let req := callocRequest nElements elemSize
  let (m, mem) ← dlmalloc sysAlloc fuel m req
  if mem ≠ 0#32 ∧ ¬ m.IsMmapped (mem2chunk mem) then .done (memset m mem req, mem)
  else .done (m, mem)

/-! ## The product -/

theorem lt_of_upper_zero {w : Word} (h : w &&& ~~~0xFFFF#32 = 0#32) : w.toNat < 2 ^ 16 := by
  have hmask : ∀ j < 32, (0xFFFF#32 : Word).getLsbD j = decide (j < 16) := by decide
  have := toNat_and_not (w := w) hmask
  rw [h] at this
  simp only [BitVec.toNat_ofNat] at this
  omega

theorem mul_div_eq_iff (hn : n ≠ 0#32) : n * e / n = e ↔ n.toNat * e.toNat < 2 ^ 32 := by
  have hpos : 0 < n.toNat := Nat.pos_of_ne_zero fun h0 => hn (BitVec.eq_of_toNat_eq h0)
  constructor
  · intro h
    have hdiv := congrArg BitVec.toNat h
    rw [BitVec.toNat_udiv, BitVec.toNat_mul] at hdiv
    have hle := Nat.mul_div_le (n.toNat * e.toNat % 2 ^ 32) n.toNat
    rw [hdiv] at hle
    exact hle.trans_lt (Nat.mod_lt _ (Nat.two_pow_pos 32))
  · intro hlt
    refine BitVec.eq_of_toNat_eq ?_
    rw [BitVec.toNat_udiv, BitVec.toNat_mul, Nat.mod_eq_of_lt hlt, Nat.mul_div_cancel_left _ hpos]

theorem toNat_callocRequest (n e : Word) : (callocRequest n e).toNat =
    if n.toNat * e.toNat < 2 ^ 32 then n.toNat * e.toNat else 2 ^ 32 - 1 := by
  rw [callocRequest]
  by_cases hn : n ≠ 0#32
  · rw [if_pos hn]
    simp only [ne_eq, mul_div_eq_iff hn]
    by_cases hfits : n.toNat * e.toNat < 2 ^ 32
    · rw [if_pos hfits, if_neg fun hboth => hboth.2 hfits, BitVec.toNat_mul, Nat.mod_eq_of_lt hfits]
    · have hupper : (n ||| e) &&& ~~~0xFFFF#32 ≠ 0#32 := by
        intro h0
        have hor := lt_of_upper_zero h0
        rw [BitVec.toNat_or] at hor
        have hn' : n.toNat < 2 ^ 16 := Nat.left_le_or.trans_lt hor
        have he' : e.toNat < 2 ^ 16 := Nat.right_le_or.trans_lt hor
        exact hfits ((Nat.mul_lt_mul'' hn' he').trans_eq (by norm_num))
      rw [if_neg hfits, if_pos ⟨hupper, hfits⟩]
      rfl
  · rw [if_neg hn, not_not.mp hn, BitVec.toNat_zero, Nat.zero_mul, if_pos (Nat.two_pow_pos 32)]

/-! ## Runs -/

theorem WritesOwn.mono (h : WritesOwn L m m') (hsub : L ⊆ L') : WritesOwn L' m m' := by
  have hgiven : ∀ {w}, ¬ Given L' w → ¬ Given L w := by
    rintro w hno ⟨p, hp, hw⟩
    exact hno ⟨p, hsub hp, hw⟩
  exact
  { rest := h.rest
    prevFoot := fun ha => h.prevFoot (hgiven ha)
    head := fun ha => h.head (hgiven ha)
    fd := fun ha => h.fd (hgiven ha)
    bk := fun ha => h.bk (hgiven ha)
    child := fun ha => h.child (hgiven ha)
    parent := fun ha => h.parent (hgiven ha)
    index := fun ha => h.index (hgiven ha) }

/-- In every run `calloc` ends, and gives out null or as many bytes as the product of the two
sizes says, which `memset` has cleared. The product is never cut down to a word. -/
theorem calloc_never_short {m0 : MallocState} {bs0 : List Block}
    {memset : MallocState → Addr → Word → MallocState} (hfuel : 33 < fuel) (h0 : Heap m0 bs0)
    (hunused : ∀ b ∈ bs0, b.kind ≠ .used)
    (hmemset : ∀ m mem req, WritesOwn {(mem, req)} m (memset m mem req))
    (h : Reaches (HeapStep sys fuel) (m0, ∅) (m, L)) (n e : Word) :
    ∃ m' mem, dlcalloc sys.alloc memset fuel m n e = .done (m', mem) ∧
      (mem = 0#32 ∧ Reaches (HeapStep sys fuel) (m0, ∅) (m', L) ∨
        ∃ m1 req, req.toNat = n.toNat * e.toNat ∧ m' = memset m1 mem req ∧
          Reaches (HeapStep sys fuel) (m0, ∅) (m', insert (mem, req) L)) := by
  obtain ⟨bs, hheap, -, -⟩ := reaches_heap hfuel h0 hunused h
  obtain ⟨⟨m1, mem⟩, hrun, bs', hheap', -, hserves⟩ :=
    dlmalloc_serves sys hheap hfuel (callocRequest n e)
  rw [dlcalloc, hrun]
  simp only [Outcome.done_bind]
  by_cases hmem : mem = 0#32
  · subst hmem
    rw [if_neg fun hboth => hboth.1 rfl]
    exact ⟨m1, 0#32, rfl, Or.inl ⟨rfl, h.trans (Reaches.single (.noMemory hrun))⟩⟩
  · obtain ⟨u, hadds, haddr, hle⟩ := hserves.resolve_left fun hno => hmem hno.1
    obtain ⟨hu, hkind⟩ := (hadds.used u).mpr (Or.inr rfl)
    have hc := hheap'.layout.chunk hu (by simp [hkind])
    have hmapped : ¬ m1.IsMmapped (mem2chunk mem) := by
      have hcinuse : (m1.head u.addr).toNat / 2 % 2 = 1 := cinuse_iff.mp (hc.cinuse.mpr hkind)
      rw [show mem = chunk2mem u.addr from haddr, chunk2mem_mem2chunk, isMmapped_iff]
      omega
    have hfits := requestSize_fits hc.size_mod hle
    have hlt := u.size.isLt
    have hreq := toNat_callocRequest n e
    by_cases hprod : n.toNat * e.toNat < 2 ^ 32
    · rw [if_pos hprod] at hreq
      rw [if_pos ⟨hmem, hmapped⟩]
      have hwrite : WritesOwn (insert (mem, callocRequest n e) L) m1
          (memset m1 mem (callocRequest n e)) :=
        (hmemset _ _ _).mono (Set.singleton_subset_iff.mpr (Set.mem_insert _ _))
      exact ⟨_, mem, rfl, Or.inr ⟨m1, _, hreq, rfl,
        (h.trans (Reaches.single (.malloc hrun hmem))).trans (Reaches.single (.write hwrite))⟩⟩
    · rw [if_neg hprod] at hreq
      omega

/-! ## A run -/

def Covers (mem : Addr) (req : Word) (w : Nat) : Prop :=
  mem.toNat ≤ w ∧ w + 4 ≤ mem.toNat + req.toNat

instance (mem : Addr) (req : Word) (w : Nat) : Decidable (Covers mem req w) :=
  inferInstanceAs (Decidable (_ ∧ _))

/-- `memset` for whole words. -/
def clearWords (m : MallocState) (mem : Addr) (req : Word) : MallocState :=
  { m with
    prevFoot := fun a => if Covers mem req a.toNat then 0#32 else m.prevFoot a
    head := fun a => if Covers mem req (a.toNat + 4) then 0#32 else m.head a
    fd := fun a => if Covers mem req (a.toNat + 8) then 0#32 else m.fd a
    bk := fun a => if Covers mem req (a.toNat + 12) then 0#32 else m.bk a
    child := fun C =>
      if Covers mem req (C.1.toNat + if C.2 then 20 else 16) then 0#32 else m.child C
    parent := fun a => if Covers mem req (a.toNat + 24) then 0#32 else m.parent a
    index := fun a => if Covers mem req (a.toNat + 28) then 0#32 else m.index a }

theorem writesOwn_clearWords (m : MallocState) (mem : Addr) (req : Word) :
    WritesOwn {(mem, req)} m (clearWords m mem req) := by
  have hcovers : ∀ {w}, ¬ Given {(mem, req)} w → ¬ Covers mem req w := by
    rintro w hno ⟨hlo, hhi⟩
    refine hno ⟨(mem, req), rfl, ?_, ?_⟩
    · change mem.toNat < w + 4
      omega
    · change w < mem.toNat + req.toNat
      omega
  exact
  { rest := rfl
    prevFoot := fun ha => if_neg (hcovers ha)
    head := fun ha => if_neg (hcovers ha)
    fd := fun ha => if_neg (hcovers ha)
    bk := fun ha => if_neg (hcovers ha)
    child := fun ha => if_neg (hcovers ha)
    parent := fun ha => if_neg (hcovers ha)
    index := fun ha => if_neg (hcovers ha) }

theorem calloc_never_short_once :
    ∃ m' mem, dlcalloc noSystem.alloc clearWords 34 mallocedOnce.1 100#32 4#32 = .done (m', mem) ∧
      (mem = 0#32 ∧ Reaches (HeapStep noSystem 34) (freshHeap, ∅)
          (m', insert (0x3010#32, 100#32) ∅) ∨
        ∃ m1 req, req.toNat = 400 ∧ m' = clearWords m1 mem req ∧
          Reaches (HeapStep noSystem 34) (freshHeap, ∅)
            (m', insert (mem, req) (insert (0x3010#32, 100#32) ∅))) :=
  calloc_never_short (by decide) freshHeap_heap freshBlocks_unused writesOwn_clearWords
    (.single mallocedOnce_step) 100#32 4#32

end LibSystem.Core
