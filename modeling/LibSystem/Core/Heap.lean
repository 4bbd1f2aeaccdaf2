import LibSystem.Core.Layout

/-!
# The heap

The blocks, and the bins that hold the free chunks. The chunk `dv` is free, but
in no bin.
-/

namespace LibSystem.Core

open Function MallocState

variable {m m' m1 : MallocState} {bs bs' l r p : List Block} {x y b c u : Block} {a v P : Addr}
  {s nb : Word} {B : Set Addr} {A : Addr → Prop} {fuel : Nat} {kind : BlockKind}

/-! ## The checks -/

theorem chunk2mem_mem2chunk (p : Addr) : mem2chunk (chunk2mem p) = p := by
  rw [mem2chunk, chunk2mem, BitVec.add_sub_cancel]

namespace Chunk

theorem aligned_mem (h : Chunk m b) : chunk2mem b.addr &&& 7#32 = 0#32 := by
  have hlo : b.addr.toNat % 8 = 0 := h.room.aligned_lo
  rw [chunk2mem, ← BitVec.toNat_inj, toNat_and_seven, BitVec.toNat_add]
  simp only [BitVec.toNat_ofNat]
  omega

theorem checkAnyChunk_eq (h : Chunk m b) : m.checkAnyChunk b.addr = m := by
  rw [checkAnyChunk, m.assert_of (Or.inl h.aligned_mem), m.assert_of h.ok]

theorem head_size (h : Chunk m b) : m.head b.addr &&& ~~~3#32 = b.size := by
  have hsize := congrArg BitVec.toNat h.size_eq
  have := h.flag4
  rw [toNat_chunksize] at hsize
  rw [← BitVec.toNat_inj, toNat_and_not_three]
  omega

theorem mem_ne_zero (h : Chunk m b) (hkind : b.kind ≠ .top) : chunk2mem b.addr ≠ 0#32 := by
  have hfits : b.addr.toNat + b.size.toNat ≤ 2 ^ 32 := h.room.fits
  have := h.least hkind
  rw [chunk2mem, ne_eq, ← BitVec.toNat_inj, BitVec.toNat_add]
  simp only [BitVec.toNat_ofNat]
  omega

theorem insertable (h : Chunk m b) (hkind : b.kind ≠ .top) (hB : b.addr ∉ B) :
    Insertable m B b.addr where
  least := by rw [h.size_eq]; exact h.least hkind
  ne_zero := h.ne_zero
  ok := h.ok
  fits := by rw [h.size_eq]; exact h.room.fits
  not_mem := hB
  not_header {i} hi heq := by
    have hheader := h.room.not_header hi
    have hlt := h.room.lt
    rw [← heq] at hheader
    unfold Block.start at hheader hlt
    omega

end Chunk

namespace Layout

theorem nextChunk_eq (h : Layout m (l ++ x :: b :: y :: r)) (hkind : b.kind ≠ .other) :
    m.nextChunk b.addr = y.addr := by
  rw [nextChunk, (h.chunk (by simp) hkind).size_eq, h.borders_next.addr_eq]

theorem checkInuseChunk_eq (h : Layout m bs) (hb : b ∈ bs) (hkind : b.kind = .used) :
    m.checkInuseChunk b.addr = m := by
  have hother : b.kind ≠ .other := by simp [hkind]
  have hc := h.chunk hb hother
  obtain ⟨l, x, y, r, rfl⟩ := h.neighbours hb hother
  have hinuse : m.IsInuse b.addr := by
    have := hc.cinuse.mpr hkind
    rw [cinuse_iff] at this
    rw [isInuse_iff]
    omega
  have hnext : m.Pinuse (m.nextChunk b.addr) := by
    rw [h.nextChunk_eq hother]
    exact (h.borders_next.pinuse (by simp [hkind])).mpr (by simp [hkind])
  have hprev : m.IsMmapped b.addr ∨ m.Pinuse b.addr ∨
      m.nextChunk (m.prevChunk b.addr) = b.addr := by
    have hxb := h.borders_pair
    by_cases hx : x.kind = .free
    · have hcx := h.chunk (b := x) (by simp) (by simp [hx])
      refine Or.inr (Or.inr ?_)
      rw [prevChunk, hxb.foot hx, hxb.addr_eq, BitVec.add_sub_cancel, nextChunk, hcx.size_eq]
    · refine Or.inr (Or.inl ((hxb.pinuse fun htop => ?_).mpr hx))
      exact hother (hxb.after_top htop)
  rw [checkInuseChunk, hc.checkAnyChunk_eq]
  simp only [m.assert_of hinuse, m.assert_of hnext, m.assert_of hprev]

theorem checkMallocedChunk_eq (h : Layout m bs) (hb : b ∈ bs) (hkind : b.kind = .used)
    (hle : s ≤ b.size) (hlt : b.size.toNat < s.toNat + 16) (hs : s.toNat + 16 < 2 ^ 32) :
    m.checkMallocedChunk (chunk2mem b.addr) s = m := by
  have hc := h.chunk hb (by simp [hkind])
  have hmod := hc.size_mod
  have hleast := hc.least (by simp [hkind])
  have hsz := hc.head_size
  have haligned : b.size &&& 7#32 = 0#32 := by
    rw [← BitVec.toNat_inj, toNat_and_seven]
    exact hmod
  have h16 : 16#32 ≤ b.size := hleast
  have hmore : m.IsMmapped b.addr ∨ b.size < s + 16#32 := by
    refine Or.inr ?_
    rw [BitVec.lt_def, BitVec.toNat_add_of_lt hs]
    exact hlt
  rw [checkMallocedChunk, if_pos (hc.mem_ne_zero (by simp [hkind]))]
  simp only [chunk2mem_mem2chunk, h.checkInuseChunk_eq hb hkind, hsz, m.assert_of haligned,
    m.assert_of h16, m.assert_of hle, m.assert_of hmore]

theorem checkTopChunk_eq (h : Layout m bs) (hb : b ∈ bs) (hkind : b.kind = .top)
    (hsize : b.size = m.topsize) : m.checkTopChunk b.addr = .done m := by
  have hother : b.kind ≠ .other := by simp [hkind]
  have hc := h.chunk hb hother
  have hpos : 0#32 < b.size := (h.each hb).pos
  obtain ⟨l, x, y, r, rfl⟩ := h.neighbours hb hother
  have hxb := h.borders_pair
  have hby := h.borders_next
  have hfoot := hby.top_foot hkind
  obtain ⟨sp, hsp, hend⟩ := hfoot.segment
  have hpinuse : m.Pinuse b.addr := by
    have hx := hxb.before (Or.inr hkind)
    refine (hxb.pinuse ?_).mpr ?_ <;> rcases hx with hx | hx <;> simp [hx]
  have hnext : ¬ m.Pinuse (b.addr + b.size) := by
    rw [← hby.addr_eq]
    exact hfoot.pinuse
  -- the segment ends with the foot
  have hrest : b.size = sp.base + sp.size - b.addr - topFootSize := by
    rw [← hend, hby.addr_eq]
    bv_omega
  have hheld : some sp ≠ none := Option.some_ne_none sp
  have hmem : chunk2mem b.addr &&& 7#32 = 0#32 ∨ m.head b.addr = 7#32 := Or.inl hc.aligned_mem
  rw [checkTopChunk]
  simp only [hc.head_size, m.assert_of hheld, m.assert_of hmem, m.assert_of hc.ok,
    m.assert_of hsize, m.assert_of hpos, hsp, m.assert_of hrest, m.assert_of hpinuse,
    m.assert_of hnext]

end Layout

theorem BinsHold.links (h : BinsHold m B) (ha : a ∈ B) :
    m.bk (m.fd a) = a ∧ m.fd (m.bk a) = a := by
  obtain ⟨l, g, hb, hmem⟩ := h
  rcases (hmem a).mp ha with ⟨i, hi⟩ | ⟨s, ⟨i, p⟩, c, hP, hc, -⟩
  · have hring := hb.small.ring (List.ne_nil_of_mem hi)
    have hmem := List.mem_cons_of_mem (m.smallbinAt i) hi
    exact ⟨(hring.fd_spec hmem).2, (hring.bk_spec hmem).2⟩
  · have hring := (hb.trees.chain hP).ring
    exact ⟨(hring.fd_spec hc).2, (hring.bk_spec hc).2⟩

theorem Layout.checkFreeChunk_eq (h : Layout m bs) (hb : b ∈ bs) (hkind : b.kind = .free)
    (hlinks : m.bk (m.fd b.addr) = b.addr ∧ m.fd (m.bk b.addr) = b.addr) :
    m.checkFreeChunk b.addr = m := by
  have hother : b.kind ≠ .other := by simp [hkind]
  have hc := h.chunk hb hother
  obtain ⟨l, x, y, r, rfl⟩ := h.neighbours hb hother
  have hxb := h.borders_pair
  have hby := h.borders_next
  have hmod := hc.size_mod
  have hpinuse : m.Pinuse b.addr := by
    have hx := hxb.before (Or.inl hkind)
    refine (hxb.pinuse ?_).mpr ?_ <;> rcases hx with hx | hx <;> simp [hx]
  have hhead : (m.head b.addr).toNat % 4 = 1 := by
    have hcinuse := hc.cinuse.not.mpr (by simp [hkind])
    rw [cinuse_iff] at hcinuse
    rw [pinuse_iff] at hpinuse
    omega
  have hnotInuse : ¬ m.IsInuse b.addr := by
    rw [isInuse_iff]
    omega
  have hnotMapped : ¬ m.IsMmapped b.addr := by
    rw [isMmapped_iff]
    omega
  have hnext : ¬ m.Pinuse (m.nextChunk b.addr) := by
    rw [h.nextChunk_eq hother]
    exact fun hp => (hby.pinuse (by simp [hkind])).mp hp hkind
  have haddr : b.addr + b.size = y.addr := hby.addr_eq.symm
  have haligned : b.size &&& 7#32 = 0#32 := by
    rw [← BitVec.toNat_inj, toNat_and_seven]
    exact hmod
  have hfoot : m.prevFoot y.addr = b.size := hby.foot hkind
  have hinuse : y.addr = m.top ∨ m.IsInuse y.addr := by
    right
    have hy : m.Cinuse y.addr := by
      rcases hby.after_free hkind with hy | hy
      · exact (h.chunk (b := y) (by simp) (by simp [hy])).cinuse.mpr hy
      · exact hby.fence hy (by simp [hkind])
    rw [cinuse_iff] at hy
    rw [isInuse_iff]
    omega
  have h16 : 16#32 ≤ b.size := hc.least (by simp [hkind])
  rw [checkFreeChunk, hc.size_eq, haddr, hc.checkAnyChunk_eq]
  simp only [m.assert_of hnotInuse, m.assert_of hnext, m.assert_of hnotMapped,
    m.assert_of haligned, m.assert_of hc.aligned_mem, m.assert_of hfoot, m.assert_of hpinuse,
    m.assert_of hinuse, m.assert_of hlinks.1, m.assert_of hlinks.2, if_pos h16, ite_self]

/-! ## The heap -/

def freeAddrs (bs : List Block) : Set Addr := {a | ∃ b ∈ bs, b.kind = .free ∧ b.addr = a}

/-- `top` is the chunk of this kind. -/
structure TopIs (m : MallocState) (bs : List Block) : Prop where
  mem : ∃ b ∈ bs, b.kind = .top ∧ b.addr = m.top ∧ b.size = m.topsize
  unique {b : Block} : b ∈ bs → b.kind = .top → b.addr = m.top

/-- `dv` is null, or a free chunk. -/
def DvIs (m : MallocState) (bs : List Block) : Prop :=
  m.dvsize = 0#32 ∧ m.dv = 0#32 ∨
    ∃ b ∈ bs, b.kind = .free ∧ b.addr = m.dv ∧ b.size = m.dvsize

structure Heap (m : MallocState) (bs : List Block) : Prop where
  layout : Layout m bs
  top : TopIs m bs
  dv : DvIs m bs
  bins : BinsHold m (freeAddrs bs \ {m.dv})

/-! ## A part is exchanged -/

theorem Touches.sameRoom (h : Touches A m m') : SameRoom m m' :=
  ⟨h.leastAddr, h.smallbins, h.segments⟩

theorem freeAddrs_skip (hb : b.kind ≠ .free) :
    freeAddrs (l ++ x :: b :: r) = freeAddrs (l ++ x :: r) := by
  ext a
  simp only [freeAddrs, List.mem_append, List.mem_cons, Set.mem_ofPred_eq]
  grind

theorem freeAddrs_insert (hb : b.kind = .free) :
    freeAddrs (l ++ x :: b :: r) = insert b.addr (freeAddrs (l ++ x :: r)) := by
  ext a
  simp only [freeAddrs, List.mem_append, List.mem_cons, Set.mem_ofPred_eq, Set.mem_insert_iff]
  grind

theorem sdiff_of_not_mem {d : Addr} (hb : b.kind = .free)
    (hnot : b.addr ∉ freeAddrs (l ++ x :: r)) :
    (freeAddrs (l ++ x :: b :: r) \ {d}) \ {b.addr} = freeAddrs (l ++ x :: r) \ {d} := by
  rw [freeAddrs_insert hb, Set.sdiff_sdiff_comm, Set.insert_sdiff_self_of_notMem hnot]

theorem Layout.addr_ne (h : Layout m (l ++ x :: (p ++ y :: r))) (hb : b ∈ p)
    (hc : c ∈ l ++ x :: y :: r) : c.addr ≠ b.addr := by
  intro haddr
  obtain ⟨s, t, rfl⟩ := List.append_of_mem hb
  have hstart : c.start = b.start := congrArg BitVec.toNat haddr
  have htiling : Tiling Block.start Block.stop ((l ++ x :: s) ++ b :: (t ++ y :: r)) := by
    simpa using h.tiling
  have hpos := htiling.pos (a := b) (by simp)
  have hcases : c ∈ l ++ x :: s ∨ c ∈ t ++ y :: r := by
    simp only [List.mem_append, List.mem_cons] at hc ⊢
    tauto
  rcases hcases with hc | hc
  · have := htiling.le_of_before hc
    have := htiling.pos (a := c) (by rw [List.mem_append]; exact Or.inl hc)
    omega
  · have := htiling.le_of_after hc
    omega

theorem Layout.not_mem_rest (h : Layout m (l ++ x :: (p ++ y :: r))) (hb : b ∈ p) :
    b.addr ∉ freeAddrs (l ++ x :: y :: r) := by
  rintro ⟨c, hc, -, haddr⟩
  exact h.addr_ne hb hc haddr

theorem Layout.zero_not_mem (h : Layout m bs) : (0#32 : Addr) ∉ freeAddrs bs := by
  rintro ⟨b, hb, hkind, haddr⟩
  exact (h.chunk hb (by simp [hkind])).ne_zero haddr

theorem TopIs.splice {q : List Block} (h : TopIs m (l ++ x :: (p ++ y :: r)))
    (htop : m'.top = m.top) (hsize : m'.topsize = m.topsize) (hmid : ∀ b ∈ p, b.kind ≠ .top)
    (hmid' : ∀ b ∈ q, b.kind ≠ .top) : TopIs m' (l ++ x :: (q ++ y :: r)) := by
  obtain ⟨T, hT, hkind, haddr, hTsize⟩ := h.mem
  refine ⟨⟨T, ?_, hkind, by rw [htop, haddr], by rw [hsize, hTsize]⟩, fun {b} hb hb' => ?_⟩
  · simp only [List.mem_append, List.mem_cons] at hT ⊢
    have := hmid T
    tauto
  · rw [htop]
    refine h.unique ?_ hb'
    simp only [List.mem_append, List.mem_cons] at hb ⊢
    have := hmid' b
    tauto

theorem TopIs.congr (h : TopIs m bs) (htop : m'.top = m.top) (hsize : m'.topsize = m.topsize) :
    TopIs m' bs := by
  obtain ⟨b, hb, hkind, haddr, hbsize⟩ := h.mem
  refine ⟨⟨b, hb, hkind, by rw [htop, haddr], by rw [hsize, hbsize]⟩, fun hc hc' => ?_⟩
  rw [htop]
  exact h.unique hc hc'

theorem DvIs.transfer (h : DvIs m bs) (hdv : m'.dv = m.dv) (hsize : m'.dvsize = m.dvsize)
    (hsub : ∀ b ∈ bs, b.kind = .free → b.addr = m.dv → b ∈ bs') : DvIs m' bs' := by
  rcases h with ⟨h0, h1⟩ | ⟨b, hb, hkind, haddr, hbsize⟩
  · exact Or.inl ⟨by rw [hsize, h0], by rw [hdv, h1]⟩
  · exact Or.inr ⟨b, hsub b hb hkind haddr, hkind, by rw [hdv, haddr], by rw [hsize, hbsize]⟩

theorem DvIs.splice {q : List Block} (h : DvIs m (l ++ x :: (p ++ y :: r)))
    (hdv : m'.dv = m.dv) (hsize : m'.dvsize = m.dvsize) (hmid : ∀ b ∈ p, b.addr ≠ m.dv) :
    DvIs m' (l ++ x :: (q ++ y :: r)) := by
  refine h.transfer hdv hsize fun b hb _ haddr => ?_
  simp only [List.mem_append, List.mem_cons] at hb ⊢
  have := hmid b
  tauto

/-! ## What the bins look at -/

/-- The state without the heads, and without `dv` and `top`. -/
def MallocState.binWords (m : MallocState) : MallocState :=
  { m with
    dvsize := 0#32
    dv := 0#32
    topsize := 0#32
    top := 0#32
    prevFoot := fun _ => 0#32
    head := fun _ => 0#32 }

theorem BinsHold.of_heads (h : BinsHold m B) (hsame : m'.binWords = m.binWords)
    (hsize : ∀ a ∈ B, (m'.head a).toNat / 8 = (m.head a).toNat / 8) : BinsHold m' B := by
  have hfield : ∀ {β : Type} (f : MallocState → β), (∀ m, f m.binWords = f m) → f m' = f m :=
    fun f hf => by rw [← hf m', hsame, hf]
  refine WritesElsewhere.binsHold ?_ h
  exact
  { smallmap := hfield (·.smallmap) fun _ => rfl
    treemap := hfield (·.treemap) fun _ => rfl
    treebins := hfield (·.treebins) fun _ => rfl
    leastAddr := hfield (·.leastAddr) fun _ => rfl
    smallbins := hfield (·.smallbins) fun _ => rfl
    treebinsAddr := hfield (·.treebinsAddr) fun _ => rfl
    aborts := hfield (·.aborts) fun _ => rfl
    chunksize := fun {a} ha => by
      rw [← BitVec.toNat_inj, toNat_chunksize, toNat_chunksize, hsize a ha]
    fd := fun {a} _ => hfield (·.fd a) fun _ => rfl
    bk := fun {a} _ => hfield (·.bk a) fun _ => rfl
    child := fun {a b} _ _ => hfield (·.child (a, b)) fun _ => rfl
    parent := fun {a} _ _ => hfield (·.parent a) fun _ => rfl
    index := fun {a} _ _ => hfield (·.index a) fun _ => rfl }

/-! ## Chunks of the bins -/

namespace Heap

theorem insert_free (hlayout : Layout m (l ++ x :: ⟨a, s, .free⟩ :: r))
    (htop : TopIs m (l ++ x :: ⟨a, s, .free⟩ :: r)) (hdv : DvIs m (l ++ x :: r))
    (hB : BinsHold m (freeAddrs (l ++ x :: r) \ {m.dv})) (hnot : a ∉ freeAddrs (l ++ x :: r))
    (hfuel : 32 < fuel) :
    ∃ m', insertChunk fuel m a s = .done m' ∧ Heap m' (l ++ x :: ⟨a, s, .free⟩ :: r) ∧
      m'.aborts = m.aborts ∧ a ∈ freeAddrs (l ++ x :: ⟨a, s, .free⟩ :: r) \ {m'.dv} := by
  have hmem : (⟨a, s, .free⟩ : Block) ∈ l ++ x :: ⟨a, s, .free⟩ :: r := by simp
  have hc := hlayout.chunk hmem (by simp)
  have hne : a ≠ m.dv := by
    rcases hdv with ⟨-, h0⟩ | ⟨c, hc', hkind, haddr, -⟩
    · rw [h0]
      exact hc.ne_zero
    · rintro rfl
      exact hnot ⟨c, hc', hkind, haddr⟩
  obtain ⟨m', hrun, hB', htouch⟩ := insertChunk_spec hB
    (hc.insertable (by simp) fun hmem => hnot hmem.1) hfuel
  rw [show m.chunksize a = s from hc.size_eq] at hrun
  refine ⟨m', hrun, ⟨hlayout.congr htouch.head htouch.prevFoot htouch.sameRoom,
    htop.congr htouch.top htouch.topsize, ?_, ?_⟩, htouch.aborts, ⟨_, hmem, rfl, rfl⟩, ?_⟩
  · refine hdv.transfer htouch.dv htouch.dvsize fun b hb _ _ => ?_
    simp only [List.mem_append, List.mem_cons] at hb ⊢
    tauto
  · rw [htouch.dv, freeAddrs_insert rfl, Set.insert_sdiff_of_notMem _ (by simpa using hne)]
    exact hB'
  · rw [htouch.dv]
    exact hne

theorem sdiff_eq (h : Layout m (l ++ x :: ⟨v, s, .free⟩ :: y :: r)) {d : Addr} :
    (freeAddrs (l ++ x :: ⟨v, s, .free⟩ :: y :: r) \ {d}) \ {v} =
      freeAddrs (l ++ x :: y :: r) \ {d} :=
  sdiff_of_not_mem rfl (h.not_mem_rest (p := [⟨v, s, .free⟩]) (List.mem_singleton_self _))

theorem use_binned (h : Heap m (l ++ x :: ⟨v, s, .free⟩ :: y :: r)) (hv : v ≠ m.dv)
    (htouch : Touches A m m1)
    (hbins : BinsHold m1 ((freeAddrs (l ++ x :: ⟨v, s, .free⟩ :: y :: r) \ {m.dv}) \ {v})) :
    Heap (m1.setInuseAndPinuse v s) (l ++ x :: ⟨v, s, .used⟩ :: y :: r) where
  layout := (h.layout.congr htouch.head htouch.prevFoot htouch.sameRoom).use
  top := h.top.splice (p := [⟨v, s, .free⟩]) (q := [⟨v, s, .used⟩]) htouch.top
    htouch.topsize (by simp) (by simp)
  dv := h.dv.splice (p := [⟨v, s, .free⟩]) (q := [⟨v, s, .used⟩]) htouch.dv htouch.dvsize
    (by simpa using hv)
  bins := by
    rw [sdiff_eq h.layout] at hbins
    rw [freeAddrs_skip (by simp)]
    change BinsHold _ (_ \ {m1.dv})
    rw [htouch.dv]
    have hs : s ≠ 0#32 := by
      rintro rfl
      exact absurd (h.layout.each (b := ⟨v, 0#32, .free⟩) (by simp)).pos (by simp)
    refine hbins.of_heads rfl fun a ha => ?_
    have hav : a ≠ v := by
      rintro rfl
      exact h.layout.not_mem_rest (p := [⟨a, s, .free⟩]) (List.mem_singleton_self _) ha.1
    rw [head_setInuseAndPinuse hs, if_neg hav]
    split
    · rw [toNat_or_one]
      omega
    · rfl

theorem freeAddrs_rest (h : Heap m (l ++ x :: ⟨v, s, .free⟩ :: y :: r)) (hv : v ≠ m.dv) :
    m.dv = 0#32 ∨ m.dv ∈ freeAddrs (l ++ x :: y :: r) := by
  rcases h.dv with ⟨-, h0⟩ | ⟨b, hb, hkind, haddr, -⟩
  · exact Or.inl h0
  · refine Or.inr ⟨b, ?_, hkind, haddr⟩
    simp only [List.mem_append, List.mem_cons] at hb ⊢
    have hne : b ≠ ⟨v, s, .free⟩ := by
      rintro rfl
      exact hv haddr
    tauto

/-- A chunk that was taken from its bin is split. What is left is free, and in no bin yet. -/
theorem split_binned (h : Heap m (l ++ x :: ⟨v, s, .free⟩ :: y :: r)) (hv : v ≠ m.dv)
    (htouch : Touches A m m1)
    (hbins : BinsHold m1 ((freeAddrs (l ++ x :: ⟨v, s, .free⟩ :: y :: r) \ {m.dv}) \ {v}))
    {rs : Word} (hnb8 : nb.toNat % 8 = 0) (hnb : 16 ≤ nb.toNat) (hrs : 16 ≤ rs.toNat)
    (hs : nb.toNat + rs.toNat = s.toNat)
    (hm' : m' = (m1.setSizeAndPinuseOfInuseChunk v nb).setSizeAndPinuseOfFreeChunk (v + nb) rs) :
    Layout m' (l ++ x :: ⟨v, nb, .used⟩ :: ⟨v + nb, rs, .free⟩ :: y :: r) ∧
      TopIs m' (l ++ x :: ⟨v, nb, .used⟩ :: ⟨v + nb, rs, .free⟩ :: y :: r) ∧
      BinsHold m' (freeAddrs (l ++ x :: y :: r) \ {m.dv}) ∧
      v + nb ∉ freeAddrs (l ++ x :: y :: r) ∧ v + nb ≠ m.dv := by
  have hold := h.layout.congr htouch.head htouch.prevFoot htouch.sameRoom
  have hlayout : Layout m' (l ++ x :: ⟨v, nb, .used⟩ :: ⟨v + nb, rs, .free⟩ :: y :: r) := by
    subst hm'
    refine hold.split (Or.inl rfl) hnb8 hnb (by omega) (fun _ => hrs) hs ⟨rfl, rfl, rfl⟩
      (fun b => ?_) (fun b hb => ?_) fun _ => ?_
    · rw [head_setSizeAndPinuseOfFreeChunk, head_setSizeAndPinuseOfInuseChunk]
      by_cases hbv : b = v
      · rw [if_pos hbv, if_neg, if_pos hbv]
        rintro rfl
        bv_omega
      · rw [if_neg hbv, if_neg hbv]
    · exact (prevFoot_setSizeAndPinuseOfFreeChunk).trans (if_neg hb)
    · exact (prevFoot_setSizeAndPinuseOfFreeChunk).trans (if_pos rfl)
  have hnot := hlayout.not_mem_rest (p := [⟨v, nb, .used⟩, ⟨v + nb, rs, .free⟩])
    (b := ⟨v + nb, rs, .free⟩) (by simp)
  have hne : v + nb ≠ m.dv := by
    have hc := hlayout.chunk (b := ⟨v + nb, rs, .free⟩) (by simp) (by simp)
    rcases h.freeAddrs_rest hv with h0 | hmem
    · rw [h0]
      exact hc.ne_zero
    · rintro heq
      exact hnot (heq ▸ hmem)
  refine ⟨hlayout, ?_, ?_, hnot, hne⟩
  · subst hm'
    exact h.top.splice (p := [⟨v, s, .free⟩])
      (q := [⟨v, nb, .used⟩, ⟨v + nb, rs, .free⟩]) htouch.top htouch.topsize (by simp)
      (by simp)
  · rw [sdiff_eq h.layout] at hbins
    subst hm'
    refine hbins.of_heads rfl fun a ha => ?_
    have hav : a ≠ v := by
      rintro rfl
      exact h.layout.not_mem_rest (p := [⟨a, s, .free⟩]) (List.mem_singleton_self _) ha.1
    have har : a ≠ v + nb := by
      rintro rfl
      exact hnot ha.1
    rw [head_setSizeAndPinuseOfFreeChunk, if_neg har, head_setSizeAndPinuseOfInuseChunk,
      if_neg hav]

theorem split_to_bin (h : Heap m (l ++ x :: ⟨v, s, .free⟩ :: y :: r)) (hv : v ≠ m.dv)
    (htouch : Touches A m m1)
    (hbins : BinsHold m1 ((freeAddrs (l ++ x :: ⟨v, s, .free⟩ :: y :: r) \ {m.dv}) \ {v}))
    {rs : Word} (hnb8 : nb.toNat % 8 = 0) (hnb : 16 ≤ nb.toNat) (hrs : 16 ≤ rs.toNat)
    (hs : nb.toNat + rs.toNat = s.toNat) (hfuel : 32 < fuel) :
    ∃ m2, insertChunk fuel ((m1.setSizeAndPinuseOfInuseChunk v nb).setSizeAndPinuseOfFreeChunk
        (v + nb) rs) (v + nb) rs = .done m2 ∧
      Heap m2 (l ++ x :: ⟨v, nb, .used⟩ :: ⟨v + nb, rs, .free⟩ :: y :: r) ∧
      m2.aborts = m.aborts := by
  generalize hm' :
    (m1.setSizeAndPinuseOfInuseChunk v nb).setSizeAndPinuseOfFreeChunk (v + nb) rs = m'
  obtain ⟨hlayout, htop, hB, hnot, -⟩ :=
    h.split_binned hv htouch hbins hnb8 hnb hrs hs hm'.symm
  have hlist : ∀ t, l ++ x :: ⟨v, nb, .used⟩ :: t = (l ++ [x]) ++ ⟨v, nb, .used⟩ :: t := by simp
  have hskip :
      freeAddrs ((l ++ [x]) ++ ⟨v, nb, .used⟩ :: y :: r) = freeAddrs (l ++ x :: y :: r) := by
    rw [← hlist, freeAddrs_skip (by simp)]
  have hdv : m'.dv = m.dv := by rw [← htouch.dv, ← hm']; rfl
  have hdvsize : m'.dvsize = m.dvsize := by rw [← htouch.dvsize, ← hm']; rfl
  have haborts : m'.aborts = m.aborts := by rw [← htouch.aborts, ← hm']; rfl
  have hdv' : DvIs m' ((l ++ [x]) ++ ⟨v, nb, .used⟩ :: y :: r) := by
    rw [← hlist]
    exact h.dv.splice (p := [⟨v, s, .free⟩]) (q := [⟨v, nb, .used⟩]) hdv hdvsize (by simpa using hv)
  rw [hlist] at hlayout htop
  obtain ⟨m2, hrun, hheap, haborts', -⟩ := insert_free hlayout htop hdv'
    (by rw [hskip, hdv]; exact hB) (by rw [hskip]; exact hnot) hfuel
  rw [← hlist] at hheap
  exact ⟨m2, hrun, hheap, haborts'.trans haborts⟩

/-- What is left is the new `dv`, and the old one goes to a small bin. -/
theorem split_to_dv (h : Heap m (l ++ x :: ⟨v, s, .free⟩ :: y :: r)) (hv : v ≠ m.dv)
    (htouch : Touches A m m1)
    (hbins : BinsHold m1 ((freeAddrs (l ++ x :: ⟨v, s, .free⟩ :: y :: r) \ {m.dv}) \ {v}))
    {rs : Word} (hnb8 : nb.toNat % 8 = 0) (hnb : 16 ≤ nb.toNat) (hrs : 16 ≤ rs.toNat)
    (hs : nb.toNat + rs.toNat = s.toNat) (hsmall : m.dvsize.toNat < 256)
    (hm' : m' = replaceDv ((m1.setSizeAndPinuseOfInuseChunk v nb).setSizeAndPinuseOfFreeChunk
      (v + nb) rs) (v + nb) rs) :
    Heap m' (l ++ x :: ⟨v, nb, .used⟩ :: ⟨v + nb, rs, .free⟩ :: y :: r) ∧
      m'.aborts = m.aborts := by
  generalize hm2 :
    (m1.setSizeAndPinuseOfInuseChunk v nb).setSizeAndPinuseOfFreeChunk (v + nb) rs = m2 at hm'
  obtain ⟨hlayout, htop, hB, hnot, hne⟩ :=
    h.split_binned hv htouch hbins hnb8 hnb hrs hs hm2.symm
  have hdv : m2.dv = m.dv := by rw [← htouch.dv, ← hm2]; rfl
  have hdvsize : m2.dvsize = m.dvsize := by rw [← htouch.dvsize, ← hm2]; rfl
  have haborts : m2.aborts = m.aborts := by rw [← htouch.aborts, ← hm2]; rfl
  have hisSmall : IsSmall m2.dvsize := by rw [isSmall_iff, hdvsize]; exact hsmall
  -- all but the new one are in a bin
  have hbinned : ∃ m3 A', m' = { m3 with dvsize := rs, dv := v + nb } ∧ Touches A' m2 m3 ∧
      BinsHold m3 (freeAddrs (l ++ x :: y :: r)) := by
    rw [replaceDv] at hm'
    simp only [m2.assert_of hisSmall] at hm'
    by_cases h0 : m2.dvsize = 0#32
    · rw [if_neg (not_not.mpr h0)] at hm'
      refine ⟨m2, fun _ => True, hm', .refl _ _, ?_⟩
      have hdv0 : m.dv = 0#32 := by
        rcases h.dv with ⟨-, h1⟩ | ⟨b, hb, -, -, hbsize⟩
        · exact h1
        · have := (h.layout.each hb).pos
          rw [hbsize, ← hdvsize, h0] at this
          exact absurd this (by simp)
      rwa [hdv0, Set.sdiff_singleton_eq_self] at hB
      exact fun hmem => h.layout.zero_not_mem (by
        rw [freeAddrs_insert rfl]
        exact Set.mem_insert_of_mem _ hmem)
    · rw [if_pos h0] at hm'
      obtain ⟨b, hb, hkind, haddr, hbsize⟩ :=
        h.dv.resolve_left fun hno => h0 (hdvsize.trans hno.1)
      have hb' : b ∈ l ++ x :: y :: r := by
        have hne : b ≠ ⟨v, s, .free⟩ := by
          rintro rfl
          exact hv haddr
        simp only [List.mem_append, List.mem_cons] at hb ⊢
        tauto
      have hc : Chunk m2 b := by
        refine hlayout.chunk ?_ (by simp [hkind])
        simp only [List.mem_append, List.mem_cons] at hb' ⊢
        tauto
      obtain ⟨m3, hrun, hB3, htouch3⟩ := insertChunk_spec hB
        (hc.insertable (by simp [hkind]) fun hmem => hmem.2 (by simp [haddr]))
        (by decide : 32 < 33)
      rw [hc.size_eq, haddr, hbsize, ← hdv, ← hdvsize, insertChunk, if_pos hisSmall] at hrun
      rw [Outcome.done.inj hrun] at hm'
      refine ⟨m3, _, hm', htouch3, ?_⟩
      rwa [haddr, Set.insert_sdiff_singleton, Set.insert_eq_of_mem] at hB3
      exact ⟨b, hb', hkind, haddr⟩
  obtain ⟨m3, A', rfl, htouch3, hB3⟩ := hbinned
  have hsame := htouch3.sameRoom
  refine ⟨⟨hlayout.congr htouch3.head htouch3.prevFoot ⟨hsame.1, hsame.2, hsame.3⟩,
    htop.congr htouch3.top htouch3.topsize, Or.inr ⟨⟨v + nb, rs, .free⟩, by simp, rfl, rfl, rfl⟩,
    ?_⟩, htouch3.aborts.trans haborts⟩
  rw [freeAddrs_skip (by simp), freeAddrs_insert rfl]
  refine BinsHold.of_heads (m := m3) ?_ rfl fun _ _ => rfl
  rwa [Set.insert_sdiff_self_of_notMem hnot]

end Heap

end LibSystem.Core
