import LibSystem.Core.Requests

/-!
# `free` and the heap

The chunk that is freed becomes one with the free chunks next to it. What they
become is free and in a bin, or is `dv`, or `top`.
-/

namespace LibSystem.Core

open Function MallocState

variable {m m' m1 : MallocState} {bs bs' l r p : List Block} {x y z b c : Block} {a : Addr}
  {s n : Word} {A : Addr → Prop} {fuel : Nat} {release : Release}

/-- The chunk `b` is in use no more, and all others that were in use still are. -/
def TakesBack (bs bs' : List Block) (b : Block) : Prop :=
  ∀ c, c ∈ bs' ∧ c.kind = .used ↔ (c ∈ bs ∧ c.kind = .used) ∧ c ≠ b

theorem TakesBack.exchange (h : TakesBack bs (l ++ x :: y :: r) b) (hy : y.kind ≠ .used)
    (hz : z.kind ≠ .used) : TakesBack bs (l ++ x :: z :: r) b := by
  intro c
  rw [← h c]
  simp only [List.mem_append, List.mem_cons]
  grind

/-- The blocks `p` between `x` and `y` are to be one chunk, at `a` and of `s` bytes. Only `b`
is in use of them, and none is in a bin. -/
structure Freeing (m : MallocState) (b : Block) (l : List Block) (x : Block) (p : List Block)
    (y : Block) (r : List Block) (a : Addr) (s : Word) : Prop where
  layout : Layout m (l ++ x :: (p ++ y :: r))
  top : TopIs m (l ++ x :: (p ++ y :: r))
  bins : BinsHold m (freeAddrs (l ++ x :: y :: r) \ {m.dv})
  before : x.kind = .used ∨ x.kind = .other
  fence : y.kind = .other → m.Cinuse y.addr
  room : Room m a.toNat (a.toNat + s.toNat)
  abut : a.toNat = x.stop
  next : y.addr.toNat = a.toNat + s.toNat
  least : 16 ≤ s.toNat
  mem : ∃ c ∈ p, c.addr = a
  own : b ∈ p
  used {c : Block} : c ∈ p → (c.kind = .used ↔ c = b)
  not_top {c : Block} : c ∈ p → c.kind ≠ .top

namespace Freeing

theorem takesBack (h : Freeing m b l x p y r a s) {q : List Block}
    (hq : ∀ c ∈ q, c.kind ≠ .used) :
    TakesBack (l ++ x :: (p ++ y :: r)) (l ++ x :: (q ++ y :: r)) b := by
  intro c
  have hrest : c ∈ l ++ x :: y :: r → c ≠ b := by
    rintro hc rfl
    exact h.layout.addr_ne h.own hc rfl
  have hused := h.used (c := c)
  have hqc := hq c
  simp only [List.mem_append, List.mem_cons] at hrest ⊢
  tauto

theorem addr_not_mem (h : Freeing m b l x p y r a s) : a ∉ freeAddrs (l ++ x :: y :: r) := by
  obtain ⟨c, hc, rfl⟩ := h.mem
  exact h.layout.not_mem_rest hc

theorem next_eq (h : Freeing m b l x p y r a s) : y.addr = a + s := by
  have := h.next
  have := y.addr.isLt
  exact BitVec.eq_of_toNat_eq (by rw [BitVec.toNat_add_of_lt (by omega)]; omega)

theorem merged (h : Freeing m b l x p y r a s) (m' : MallocState)
    (hy : y.kind = .used ∨ y.kind = .other) (hsame : m'.binWords = m.binWords)
    (htop : m'.top = m.top) (htopsize : m'.topsize = m.topsize)
    (hhead : ∀ c, m'.head c =
      if c = a then s ||| 1#32 else if c = y.addr then m.head c &&& ~~~1#32 else m.head c)
    (hfoot : ∀ c, m'.prevFoot c = if c = y.addr then s else m.prevFoot c) :
    Layout m' (l ++ x :: ⟨a, s, .free⟩ :: y :: r) ∧ TopIs m' (l ++ x :: ⟨a, s, .free⟩ :: y :: r) ∧
      BinsHold m' (freeAddrs (l ++ x :: y :: r) \ {m.dv}) := by
  refine ⟨h.layout.merge h.before hy h.fence h.room h.abut h.next h.least
    ⟨congrArg (·.leastAddr) hsame, congrArg (·.smallbins) hsame, congrArg (·.segments) hsame⟩
    hhead hfoot, ?_, ?_⟩
  · exact h.top.splice (q := [⟨a, s, .free⟩]) htop htopsize (fun _ => h.not_top) (by simp)
  · refine h.bins.of_heads hsame fun c hc => ?_
    have hca : c ≠ a := by
      rintro rfl
      exact h.addr_not_mem hc.1
    rw [hhead, if_neg hca]
    split
    · rw [toNat_and_not_one]
      omega
    · rfl

/-- The free block behind is to be in the chunk too. -/
theorem extend (h : Freeing m b l x p y (z :: r) a s) (hy : y.kind = .free)
    (hhead : m'.head = m.head) (hfoot : m'.prevFoot = m.prevFoot)
    (hsame : SameRoom m m') (htop : m'.top = m.top) (htopsize : m'.topsize = m.topsize)
    (hbins : BinsHold m' (freeAddrs (l ++ x :: z :: r) \ {m'.dv})) :
    Freeing m' b l x (p ++ [y]) z r a (s + y.size) ∧ (z.kind = .used ∨ z.kind = .other) ∧
      m'.head z.addr &&& ~~~1#32 = m'.head z.addr ∧ m'.prevFoot z.addr = y.size := by
  have hlist : l ++ x :: (p ++ y :: z :: r) = l ++ x :: ((p ++ [y]) ++ z :: r) := by simp
  have hpair : Layout m ((l ++ x :: p) ++ y :: z :: r) := by simpa using h.layout
  have hyz := hpair.borders_pair
  have hc := hpair.chunk (b := y) (by simp) (by simp [hy])
  have hz : z.addr.toNat = y.addr.toNat + y.size.toNat := hyz.abut
  have hnext := h.next
  have hlt := z.addr.isLt
  have hsum : (s + y.size).toNat = s.toNat + y.size.toNat :=
    BitVec.toNat_add_of_lt (by omega)
  have hleast' := h.least
  have hjoin : Room m a.toNat (a.toNat + (s + y.size).toNat) := by
    have hroom : Room m y.addr.toNat (y.addr.toNat + y.size.toNat) := hc.room
    rw [hnext] at hroom
    rw [hsum, ← Nat.add_assoc]
    exact h.room.join hroom
  refine ⟨?_, hyz.after_free hy, ?_, ?_⟩
  · exact
    { layout := hlist ▸ h.layout.congr hhead hfoot hsame
      top := hlist ▸ h.top.congr htop htopsize
      bins := hbins
      before := h.before
      fence := fun hkind => by
        rw [Cinuse, hhead]
        exact hyz.fence hkind (by simp [hy])
      room := hjoin.congr hsame
      abut := h.abut
      next := by omega
      least := by omega
      mem := by
        obtain ⟨c, hc, haddr⟩ := h.mem
        exact ⟨c, List.mem_append_left _ hc, haddr⟩
      own := List.mem_append_left _ h.own
      used := fun {c} hc => by
        rcases List.mem_append.mp hc with hc | hc
        · exact h.used hc
        · obtain rfl := List.mem_singleton.mp hc
          have hown := (h.used h.own).mpr rfl
          refine iff_of_false (by simp [hy]) ?_
          rintro rfl
          simp [hy] at hown
      not_top := fun {c} hc => by
        rcases List.mem_append.mp hc with hc | hc
        · exact h.not_top hc
        · rw [List.mem_singleton.mp hc]
          simp [hy] }
  · have hpinuse : ¬ m.Pinuse z.addr := fun hp => (hyz.pinuse (by simp [hy])).mp hp hy
    rw [pinuse_iff] at hpinuse
    rw [hhead, ← BitVec.toNat_inj, toNat_and_not_one]
    omega
  · rw [hfoot]
    exact hyz.foot hy

end Freeing

/-! ## What becomes of the chunk -/

/-- A way to put a chunk into its bin, and what may be done after that. -/
def PutsIn (fuel : Nat) (after : MallocState → MallocState)
    (bin : MallocState → Addr → Word → Outcome MallocState) : Prop :=
  ∀ {m m' a s}, insertChunk fuel m a s = .done m' → m'.checkFreeChunk a = m' →
    bin m a s = .done m' ∨ bin m a s = .done (after m')

theorem binFreed_putsIn : PutsIn fuel release.segments (binFreed release fuel) := by
  intro m m' a s hrun hcheck
  rw [insertChunk] at hrun
  rw [binFreed]
  by_cases hsmall : IsSmall s
  · rw [if_pos hsmall] at hrun
    rw [if_pos hsmall, Outcome.done.inj hrun, hcheck]
    exact Or.inl rfl
  · rw [if_neg hsmall] at hrun
    rw [if_neg hsmall, hrun]
    simp only [Outcome.done_bind, hcheck]
    exact Or.inr trivial

variable {after : MallocState → MallocState}
  {bin : MallocState → Addr → Word → Outcome MallocState}

theorem PutsIn.heap (hbin : PutsIn fuel after bin)
    (hlayout : Layout m (l ++ x :: ⟨a, s, .free⟩ :: y :: r))
    (htop : TopIs m (l ++ x :: ⟨a, s, .free⟩ :: y :: r)) (hdv : DvIs m (l ++ x :: y :: r))
    (hB : BinsHold m (freeAddrs (l ++ x :: y :: r) \ {m.dv})) (hfuel : 32 < fuel) :
    ∃ m', (bin m a s = .done m' ∨ bin m a s = .done (after m')) ∧
      Heap m' (l ++ x :: ⟨a, s, .free⟩ :: y :: r) ∧ m'.aborts = m.aborts := by
  have hnot := hlayout.not_mem_rest (p := [⟨a, s, .free⟩]) (List.mem_singleton_self _)
  obtain ⟨m', hrun, hheap, haborts, hmem⟩ := Heap.insert_free hlayout htop hdv hB hnot hfuel
  have hcheck := hheap.layout.checkFreeChunk_eq (b := ⟨a, s, .free⟩) (by simp) rfl
    (hheap.bins.links hmem)
  exact ⟨m', hbin hrun hcheck, hheap, haborts⟩

theorem heap_of_dv (hlayout : Layout m (l ++ x :: ⟨a, s, .free⟩ :: y :: r))
    (htop : TopIs m (l ++ x :: ⟨a, s, .free⟩ :: y :: r)) (hdv : m.dv = a) (hsize : m.dvsize = s)
    (hB : BinsHold m (freeAddrs (l ++ x :: y :: r))) :
    Heap m (l ++ x :: ⟨a, s, .free⟩ :: y :: r) := by
  have hnot := hlayout.not_mem_rest (p := [⟨a, s, .free⟩]) (List.mem_singleton_self _)
  refine ⟨hlayout, htop, Or.inr ⟨⟨a, s, .free⟩, by simp, rfl, hdv.symm, hsize.symm⟩, ?_⟩
  rwa [hdv, freeAddrs_insert rfl, Set.insert_sdiff_self_of_notMem hnot]

/-! ## The blocks behind -/

/-- What `free` does: the heap is kept, and the chunk is taken back. Memory may then go to the
system. -/
def Frees (release : Release) (m : MallocState) (bs : List Block) (b : Block)
    (run : Outcome MallocState) : Prop :=
  ∃ m' bs', (run = .done m' ∨ run = .done (release.trim m') ∨ run = .done (release.segments m')) ∧
    Heap m' bs' ∧ TakesBack bs bs' b ∧ m'.aborts = m.aborts

namespace Freeing

theorem frees_inuse (hbin : PutsIn fuel release.segments bin) (h : Freeing m b l x p y r a s)
    (hy : y.kind = .used ∨ y.kind = .other)
    (hdv : DvIs m (l ++ x :: y :: r)) (hfuel : 32 < fuel) :
    Frees release m (l ++ x :: (p ++ y :: r)) b
      (bin (m.setFreeWithPinuse a s y.addr) a s) := by
  obtain ⟨hlayout, htop, hB⟩ := h.merged (m.setFreeWithPinuse a s y.addr) hy rfl rfl rfl
    (fun c => by rw [head_setFreeWithPinuse]) fun c => by
      rw [prevFoot_setFreeWithPinuse, ← h.next_eq]
  obtain ⟨m', hrun, hheap, haborts⟩ := hbin.heap hlayout htop hdv hB hfuel
  exact ⟨m', _, hrun.imp_right Or.inr, hheap,
    h.takesBack (q := [⟨a, s, .free⟩]) (by simp), haborts⟩

theorem merged_free (h : Freeing m b l x p z r a s) (m' : MallocState)
    (hz : z.kind = .used ∨ z.kind = .other)
    (hhead : m.head z.addr &&& ~~~1#32 = m.head z.addr) (hsame : m'.binWords = m.binWords)
    (htop : m'.top = m.top) (htopsize : m'.topsize = m.topsize)
    (hhead' : m'.head = (m.setSizeAndPinuseOfFreeChunk a s).head)
    (hfoot : m'.prevFoot = (m.setSizeAndPinuseOfFreeChunk a s).prevFoot) :
    Layout m' (l ++ x :: ⟨a, s, .free⟩ :: z :: r) ∧ TopIs m' (l ++ x :: ⟨a, s, .free⟩ :: z :: r) ∧
      BinsHold m' (freeAddrs (l ++ x :: z :: r) \ {m.dv}) := by
  refine h.merged m' hz hsame htop htopsize (fun c => ?_) fun c => ?_
  · rw [hhead', head_setSizeAndPinuseOfFreeChunk]
    by_cases hc : c = z.addr
    · rw [if_pos hc, hc, hhead]
    · rw [if_neg hc]
  · rw [hfoot, prevFoot_setSizeAndPinuseOfFreeChunk, ← h.next_eq]

theorem frees_dv (h : Freeing m b l x p y (z :: r) a s) (hy : y.kind = .free)
    (haddr : y.addr = m.dv) (hsize : y.size = m.dvsize) :
    Frees release m (l ++ x :: (p ++ y :: z :: r)) b
      (.done (MallocState.setSizeAndPinuseOfFreeChunk
        { m with dvsize := m.dvsize + s, dv := a } a (m.dvsize + s))) := by
  have hsplit : l ++ x :: (p ++ y :: z :: r) = l ++ x :: ((p ++ [y]) ++ z :: r) := by simp
  have hnot : y.addr ∉ freeAddrs (l ++ x :: z :: r) :=
    Layout.not_mem_rest (hsplit ▸ h.layout) (by simp)
  have hrest := h.bins
  rw [freeAddrs_insert hy, haddr, Set.insert_sdiff_self_of_notMem (haddr ▸ hnot)] at hrest
  have hsdiff : freeAddrs (l ++ x :: z :: r) \ {m.dv} = freeAddrs (l ++ x :: z :: r) :=
    Set.sdiff_singleton_eq_self (haddr ▸ hnot)
  obtain ⟨hF, hz, hhead, -⟩ := h.extend hy rfl rfl ⟨rfl, rfl, rfl⟩ rfl rfl (hsdiff.symm ▸ hrest)
  rw [BitVec.add_comm m.dvsize s, ← hsize]
  generalize hm' : MallocState.setSizeAndPinuseOfFreeChunk _ _ _ = m'
  obtain ⟨hlayout, htop, hB⟩ := hF.merged_free m' hz hhead (by subst hm'; rfl) (by subst hm'; rfl)
    (by subst hm'; rfl) (by subst hm'; rfl) (by subst hm'; rfl)
  rw [hsdiff] at hB
  refine ⟨m', _, Or.inl rfl,
    heap_of_dv hlayout htop (by subst hm'; rfl) (by subst hm'; rfl) hB, ?_, by subst hm'; rfl⟩
  rw [hsplit]
  exact hF.takesBack (q := [⟨a, s + y.size, .free⟩]) (by simp)

/-- `top` is behind. -/
theorem frees_top (h : Freeing m b l x p y (z :: r) a s) (hy : y.kind = .top)
    (hz : z.kind = .other) (habut : z.addr.toNat = y.addr.toNat + y.size.toNat)
    (haddr : y.addr = m.top) (hsize : y.size = m.topsize)
    (hdv : a = m.dv ∨ DvIs m (l ++ x :: y :: z :: r))
    (hm' : m' = MallocState.setHead { m with topsize := m.topsize + s, top := a } a
      ((m.topsize + s) ||| 1#32)) :
    Frees release m (l ++ x :: (p ++ y :: z :: r)) b
      (.done (release.trim
        (if a = m'.dv then { m' with dv := 0#32, dvsize := 0#32 } else m'))) := by
  have hsplit : l ++ x :: (p ++ y :: z :: r) = l ++ x :: ((p ++ [y]) ++ z :: r) := by simp
  have hold : Layout m (l ++ x :: ((p ++ [y]) ++ z :: r)) := hsplit ▸ h.layout
  have hnext := h.next
  have hlt := z.addr.isLt
  have hsum : (m.topsize + s).toNat = m.topsize.toNat + s.toNat := by
    rw [← hsize]
    exact BitVec.toNat_add_of_lt (by omega)
  have hroom : Room m a.toNat (a.toNat + (m.topsize + s).toNat) := by
    have hroom : Room m y.addr.toNat (y.addr.toNat + y.size.toNat) :=
      (h.layout.chunk (b := y) (by simp) (by simp [hy])).room
    rw [hnext, hsize, Nat.add_assoc, Nat.add_comm s.toNat, ← hsum] at hroom
    exact h.room.join hroom
  have hyz : Borders m y z := by
    have hpair : Layout m ((l ++ x :: p) ++ y :: z :: r) := by simpa using h.layout
    exact hpair.borders_pair
  -- both are in the segment
  have hfoot : TopFoot m a z.addr := by
    rw [hsum, ← hsize] at hroom
    refine (hyz.top_foot hy).moved (hroom.segmentHolding_eq ?_ ?_ ?_ ?_) <;> omega
  have hlayout : Layout m' (l ++ x :: ⟨a, m.topsize + s, .top⟩ :: z :: r) := by
    refine hold.mergeTop h.before hz hroom h.abut ?_ hfoot (by subst hm'; exact ⟨rfl, rfl, rfl⟩)
      (fun c => by rw [hm']; exact update_apply _ _ _ _) (by rw [hm']; rfl)
    change z.addr.toNat = _
    rw [hsum, ← hsize]
    omega
  have hnot := h.addr_not_mem
  have hrest : freeAddrs (l ++ x :: y :: z :: r) = freeAddrs (l ++ x :: z :: r) :=
    freeAddrs_skip (by simp [hy])
  have hbins := h.bins
  rw [hrest] at hbins hnot
  have htakes : TakesBack (l ++ x :: (p ++ y :: z :: r))
      (l ++ x :: ⟨a, m.topsize + s, .top⟩ :: z :: r) b :=
    (h.takesBack (q := []) (by simp)).exchange (by simp [hy]) (by simp)
  have htop : ∀ m2 : MallocState, m2.top = a → m2.topsize = m.topsize + s →
      TopIs m2 (l ++ x :: ⟨a, m.topsize + s, .top⟩ :: z :: r) := by
    refine fun m2 htop hsize => ⟨⟨⟨a, m.topsize + s, .top⟩, by simp, rfl, htop.symm,
      hsize.symm⟩, fun {c} hc hkind => ?_⟩
    have hcases : c = ⟨a, m.topsize + s, .top⟩ ∨ c ∈ l ++ x :: z :: r := by
      simp only [List.mem_append, List.mem_cons] at hc ⊢
      tauto
    rcases hcases with rfl | hc
    · exact htop.symm
    · refine absurd ((h.top.unique ?_ hkind).trans haddr.symm) (hold.addr_ne (by simp) hc)
      simp only [List.mem_append, List.mem_cons] at hc ⊢
      tauto
  have hwords : m'.binWords = m.binWords := by rw [hm']; rfl
  have hheads : ∀ c ∈ freeAddrs (l ++ x :: z :: r),
      (m'.head c).toNat / 8 = (m.head c).toNat / 8 := by
    intro c hc
    have hca : c ≠ a := by
      rintro rfl
      exact hnot hc
    rw [hm']
    exact congrArg (fun w : Word => w.toNat / 8) (update_of_ne hca _ _)
  have hskip : freeAddrs (l ++ x :: ⟨a, m.topsize + s, .top⟩ :: z :: r) =
      freeAddrs (l ++ x :: z :: r) := freeAddrs_skip (by simp)
  have hdv' : m'.dv = m.dv := by rw [hm']; rfl
  have hdvsize' : m'.dvsize = m.dvsize := by rw [hm']; rfl
  have haborts : m'.aborts = m.aborts := by rw [hm']; rfl
  have htop' : m'.top = a := by rw [hm']; rfl
  have htopsize' : m'.topsize = m.topsize + s := by rw [hm']; rfl
  by_cases ha : a = m.dv
  · rw [if_pos (ha.trans hdv'.symm)]
    refine ⟨_, _, Or.inr (Or.inl rfl), ⟨hlayout.congr rfl rfl ⟨rfl, rfl, rfl⟩,
      htop _ htop' htopsize', Or.inl ⟨rfl, rfl⟩, ?_⟩, htakes, haborts⟩
    have hzero : (0#32 : Addr) ∉ freeAddrs (l ++ x :: z :: r) := by
      rw [← hskip]
      exact hlayout.zero_not_mem
    rw [← ha, Set.sdiff_singleton_eq_self hnot] at hbins
    rw [hskip, Set.sdiff_singleton_eq_self hzero]
    exact hbins.of_heads hwords hheads
  · rw [if_neg fun heq => ha (heq.trans hdv')]
    refine ⟨_, _, Or.inr (Or.inl rfl), ⟨hlayout, htop _ htop' htopsize', ?_, ?_⟩, htakes, haborts⟩
    · refine (hdv.resolve_left ha).transfer hdv' hdvsize' fun c hc hkind _ => ?_
      have hcy : c ≠ y := by
        rintro rfl
        simp [hy] at hkind
      simp only [List.mem_append, List.mem_cons] at hc ⊢
      tauto
    · rw [hskip, hdv']
      exact hbins.of_heads hwords fun c hc => hheads c hc.1

/-- A chunk of a bin is behind. -/
theorem frees_binned (hbin : PutsIn fuel release.segments bin)
    (h : Freeing m b l x p y (z :: r) a s) (hy : y.kind = .free)
    (hyne : y.addr ≠ m.dv) (hdv : a = m.dv ∨ DvIs m (l ++ x :: y :: z :: r))
    (hfuel : 32 < fuel) :
    Frees release m (l ++ x :: (p ++ y :: z :: r)) b (do
      let m1 ← unlinkChunk fuel m y.addr y.size
      let m2 := m1.setSizeAndPinuseOfFreeChunk a (s + y.size)
      if a = m2.dv then .done { m2 with dvsize := s + y.size }
      else bin m2 a (s + y.size)) := by
  have hsplit : l ++ x :: (p ++ y :: z :: r) = l ++ x :: ((p ++ [y]) ++ z :: r) := by simp
  have hnot : y.addr ∉ freeAddrs (l ++ x :: z :: r) :=
    Layout.not_mem_rest (hsplit ▸ h.layout) (by simp)
  have hmem : y.addr ∈ freeAddrs (l ++ x :: y :: z :: r) \ {m.dv} :=
    ⟨⟨y, by simp, hy, rfl⟩, hyne⟩
  obtain ⟨m1, hrun, hB1, htouch⟩ := unlinkChunk_spec h.bins hmem hfuel
  rw [sdiff_of_not_mem hy hnot] at hB1
  rw [(h.layout.chunk (b := y) (by simp) (by simp [hy])).size_eq] at hrun
  obtain ⟨hF, hz, hhead, -⟩ := h.extend hy htouch.head htouch.prevFoot htouch.sameRoom
    htouch.top htouch.topsize (by rw [htouch.dv]; exact hB1)
  rw [hrun]
  simp only [Outcome.done_bind]
  have hdv1 : (m1.setSizeAndPinuseOfFreeChunk a (s + y.size)).dv = m.dv := htouch.dv
  have htakes : TakesBack (l ++ x :: (p ++ y :: z :: r))
      (l ++ x :: ⟨a, s + y.size, .free⟩ :: z :: r) b := by
    rw [hsplit]
    exact hF.takesBack (q := [⟨a, s + y.size, .free⟩]) (by simp)
  by_cases ha : a = m.dv
  · rw [if_pos (ha.trans hdv1.symm)]
    generalize hm' : MallocState.setSizeAndPinuseOfFreeChunk m1 a (s + y.size) = m' at hdv1
    obtain ⟨hlayout, htop, hB⟩ := hF.merged_free { m' with dvsize := s + y.size } hz hhead
      (by subst hm'; rfl) (by subst hm'; rfl) (by subst hm'; rfl) (by subst hm'; rfl)
      (by subst hm'; rfl)
    rw [htouch.dv, ← ha, Set.sdiff_singleton_eq_self hF.addr_not_mem] at hB
    exact ⟨_, _, Or.inl rfl, heap_of_dv hlayout htop (hdv1.trans ha.symm) rfl hB, htakes,
      by subst hm'; exact htouch.aborts⟩
  · rw [if_neg fun heq => ha (heq.trans hdv1)]
    generalize hm' : MallocState.setSizeAndPinuseOfFreeChunk m1 a (s + y.size) = m' at hdv1 ⊢
    obtain ⟨hlayout, htop, hB⟩ := hF.merged_free m' hz hhead (by subst hm'; rfl)
      (by subst hm'; rfl) (by subst hm'; rfl) (by subst hm'; rfl) (by subst hm'; rfl)
    have hdvsize : m'.dvsize = m.dvsize := by subst hm'; exact htouch.dvsize
    have hdv' : DvIs m' (l ++ x :: z :: r) := by
      refine (hdv.resolve_left ha).transfer hdv1 hdvsize fun c hc _ haddr => ?_
      have hcy : c ≠ y := by
        rintro rfl
        exact hyne haddr
      simp only [List.mem_append, List.mem_cons] at hc ⊢
      tauto
    rw [htouch.dv, ← hdv1] at hB
    obtain ⟨m2, hrun2, hheap, haborts⟩ := hbin.heap hlayout htop hdv' hB hfuel
    exact ⟨m2, _, hrun2.imp_right Or.inr, hheap, htakes,
      haborts.trans (by subst hm'; exact htouch.aborts)⟩

theorem cinuse_next (h : Freeing m b l x p y r a s) :
    m.Cinuse y.addr ↔ y.kind = .used ∨ y.kind = .other := by
  by_cases hy : y.kind = .other
  · exact iff_of_true (h.fence hy) (Or.inr hy)
  · rw [(h.layout.chunk (b := y) (by simp) hy).cinuse]
    simp [hy]

theorem next_eq_top (h : Freeing m b l x p y r a s) : y.addr = m.top ↔ y.kind = .top := by
  constructor
  · intro haddr
    obtain ⟨T, hT, hkind, hTaddr, -⟩ := h.top.mem
    rw [h.layout.eq_of_addr (b := y) (c := T) (by simp) hT (haddr.trans hTaddr.symm)]
    exact hkind
  · exact h.top.unique (by simp)

theorem lt_next (h : Freeing m b l x p y r a s) : a < y.addr := by
  have hnext := h.next
  have hleast := h.least
  rw [BitVec.lt_def]
  omega

/-- What is behind the chunk decides. -/
theorem consolidates (hbin : PutsIn fuel release.segments bin) (h : Freeing m b l x p y r a s)
    (hdv : a = m.dv ∧ ¬ (y.kind = .used ∨ y.kind = .other) ∨ a ≠ m.dv ∧ DvIs m (l ++ x :: y :: r))
    (hfuel : 32 < fuel) :
    Frees release m (l ++ x :: (p ++ y :: r)) b
      (if ¬ m.Cinuse y.addr then
        if y.addr = m.top then
          let tsize := m.topsize + s
          let m := { m with topsize := tsize, top := a }
          let m := m.setHead a (tsize ||| 1#32)
          let m := if a = m.dv then { m with dv := 0#32, dvsize := 0#32 } else m
          .done (release.trim m)
        else if y.addr = m.dv then
          let dsize := m.dvsize + s
          let m := { m with dvsize := dsize, dv := a }
          .done (m.setSizeAndPinuseOfFreeChunk a dsize)
        else do
          let nsize := m.chunksize y.addr
          let psize := s + nsize
          let m ← unlinkChunk fuel m y.addr nsize
          let m := m.setSizeAndPinuseOfFreeChunk a psize
          if a = m.dv then .done { m with dvsize := psize }
          else bin m a psize
      else bin (m.setFreeWithPinuse a s y.addr) a s) := by
  have hlt : a < y.addr := h.lt_next
  have hdv' : a = m.dv ∨ DvIs m (l ++ x :: y :: r) := hdv.imp (·.1) (·.2)
  by_cases hy : y.kind = .used ∨ y.kind = .other
  · rw [if_neg (not_not.mpr (h.cinuse_next.mpr hy))]
    exact frees_inuse hbin h hy (hdv.resolve_left fun hno => hno.2 hy).2 hfuel
  · rw [if_pos (mt h.cinuse_next.mp hy)]
    rw [not_or] at hy
    have hlayout : Layout m ((l ++ x :: p) ++ y :: r) := by simpa using h.layout
    obtain ⟨z, r, rfl⟩ : ∃ z r', r = z :: r' := by
      cases r with
      | cons z r => exact ⟨z, r, rfl⟩
      | nil => exact absurd (hlayout.last y List.getLast?_concat) hy.2
    have hyz := hlayout.borders_pair
    by_cases hytop : y.addr = m.top
    · rw [if_pos hytop]
      have hkind := h.next_eq_top.mp hytop
      obtain ⟨T, hT, -, hTaddr, hTsize⟩ := h.top.mem
      obtain rfl := h.layout.eq_of_addr (b := y) (by simp) hT (hytop.trans hTaddr.symm)
      exact h.frees_top hkind (hyz.after_top hkind) hyz.abut hytop hTsize hdv' rfl
    · rw [if_neg hytop]
      have hfree : y.kind = .free := by
        have := mt h.next_eq_top.mpr hytop
        cases hk : y.kind <;> simp_all
      by_cases hydv : y.addr = m.dv
      · rw [if_pos hydv]
        refine h.frees_dv hfree hydv ?_
        have hane : a ≠ m.dv := by
          rw [← hydv]
          exact BitVec.ne_of_lt hlt
        rcases (hdv.resolve_left fun hno => hane hno.1).2 with ⟨-, h0⟩ | ⟨c, hc, -, hcaddr, hcsize⟩
        · exact absurd (hydv.trans h0)
            (h.layout.chunk (b := y) (by simp) (by simp [hfree])).ne_zero
        · rw [← hcsize, h.layout.eq_of_addr (b := y) (c := c) (by simp) ?_
            (hydv.trans hcaddr.symm)]
          simp only [List.mem_append, List.mem_cons] at hc ⊢
          tauto
      · rw [if_neg hydv]
        have hsize : m.chunksize y.addr = y.size :=
          (h.layout.chunk (b := y) (by simp) (by simp [hfree])).size_eq
        simp only [hsize]
        exact frees_binned hbin h hfree hydv hdv' hfuel

theorem freeForward_spec (release : Release) (h : Freeing m b l x p y r a s)
    (hpinuse : m.Pinuse y.addr)
    (hdv : a = m.dv ∧ ¬ (y.kind = .used ∨ y.kind = .other) ∨ a ≠ m.dv ∧ DvIs m (l ++ x :: y :: r))
    (hfuel : 32 < fuel) :
    Frees release m (l ++ x :: (p ++ y :: r)) b (freeForward release fuel m a s y.addr) := by
  rw [freeForward, if_pos ⟨h.lt_next, hpinuse⟩]
  exact consolidates binFreed_putsIn h hdv hfuel

end Freeing

/-! ## dlfree -/

namespace Heap

/-- No free chunk is before it. -/
theorem freeing_alone (h : Heap m (l ++ x :: b :: y :: r)) (hb : b.kind = .used)
    (hx : x.kind ≠ .free) :
    Freeing m b l x [b] y r b.addr b.size ∧ b.addr ≠ m.dv ∧ DvIs m (l ++ x :: y :: r) := by
  have hxb := h.layout.borders_pair
  have hby := h.layout.borders_next
  have hc := h.layout.chunk (b := b) (by simp) (by simp [hb])
  have hskip : freeAddrs (l ++ x :: b :: y :: r) = freeAddrs (l ++ x :: y :: r) :=
    freeAddrs_skip (by simp [hb])
  have hbefore : x.kind = .used ∨ x.kind = .other := by
    cases hxk : x.kind with
    | used => exact Or.inl rfl
    | other => exact Or.inr rfl
    | free => exact absurd hxk hx
    | top => simp [hxb.after_top hxk] at hb
  refine ⟨?_, ?_, ?_⟩
  · exact
    { layout := h.layout
      top := h.top
      bins := hskip ▸ h.bins
      before := hbefore
      fence := fun hkind => hby.fence hkind (by simp [hb])
      room := hc.room
      abut := hxb.abut
      next := hby.abut
      least := hc.least (by simp [hb])
      mem := ⟨b, List.mem_singleton_self _, rfl⟩
      own := List.mem_singleton_self _
      used := fun {c} hc => by simp [List.mem_singleton.mp hc, hb]
      not_top := fun {c} hc => by simp [List.mem_singleton.mp hc, hb] }
  · rcases h.dv with ⟨-, h0⟩ | ⟨c, hc', hkind, haddr, -⟩
    · rw [h0]
      exact hc.ne_zero
    · intro heq
      obtain rfl := h.layout.eq_of_addr (b := b) (by simp) hc' (heq.trans haddr.symm)
      simp [hb] at hkind
  · refine h.dv.transfer rfl rfl fun c hc hkind _ => ?_
    have hcb : c ≠ b := by
      rintro rfl
      simp [hb] at hkind
    simp only [List.mem_append, List.mem_cons] at hc ⊢
    tauto

/-- The free chunk before it is to be in the chunk too. -/
theorem freeing_before (h : Heap m (l ++ z :: x :: b :: y :: r)) (hb : b.kind = .used)
    (hx : x.kind = .free) (hhead : m'.head = m.head) (hfoot : m'.prevFoot = m.prevFoot)
    (hsame : SameRoom m m') (htop : m'.top = m.top) (htopsize : m'.topsize = m.topsize)
    (hbins : BinsHold m' (freeAddrs (l ++ z :: y :: r) \ {m'.dv})) :
    Freeing m' b l z [x, b] y r x.addr (b.size + x.size) := by
  have hlayout : Layout m ((l ++ [z]) ++ x :: b :: y :: r) := by simpa using h.layout
  have hzx := h.layout.borders_pair
  have hxb := hlayout.borders_pair
  have hby := hlayout.borders_next
  have hcx := h.layout.chunk (b := x) (by simp) (by simp [hx])
  have hcb := h.layout.chunk (b := b) (by simp) (by simp [hb])
  have hbaddr : b.addr.toNat = x.addr.toNat + x.size.toNat := hxb.abut
  have hyaddr : y.addr.toNat = b.addr.toNat + b.size.toNat := hby.abut
  have hlt := y.addr.isLt
  have hleast' := hcb.least (by simp [hb])
  have hsum : (b.size + x.size).toNat = b.size.toNat + x.size.toNat :=
    BitVec.toNat_add_of_lt (by omega)
  have hjoin : Room m x.addr.toNat (x.addr.toNat + (b.size + x.size).toNat) := by
    have hroom : Room m b.addr.toNat (b.addr.toNat + b.size.toNat) := hcb.room
    rw [hbaddr] at hroom
    rw [hsum, Nat.add_comm b.size.toNat, ← Nat.add_assoc]
    exact hcx.room.join hroom
  exact
  { layout := h.layout.congr hhead hfoot hsame
    top := h.top.congr htop htopsize
    bins := hbins
    before := hzx.before (Or.inl hx)
    fence := fun hkind => by
      rw [Cinuse, hhead]
      exact hby.fence hkind (by simp [hb])
    room := hjoin.congr hsame
    abut := hzx.abut
    next := by omega
    least := by omega
    mem := ⟨x, by simp, rfl⟩
    own := by simp
    used := fun {c} hc => by
      have hxne : x ≠ b := by
        rintro rfl
        simp [hb] at hx
      rcases List.mem_cons.mp hc with rfl | hc
      · simp [hx, hxne]
      · simp [List.mem_singleton.mp hc, hb]
    not_top := fun {c} hc => by
      rcases List.mem_cons.mp hc with rfl | hc
      · simp [hx]
      · simp [List.mem_singleton.mp hc, hb] }

theorem freeAddrs_before (h : Layout m (l ++ z :: x :: b :: y :: r)) (hb : b.kind = .used)
    (hx : x.kind = .free) :
    freeAddrs (l ++ z :: x :: b :: y :: r) = insert x.addr (freeAddrs (l ++ z :: y :: r)) ∧
      x.addr ∉ freeAddrs (l ++ z :: y :: r) := by
  refine ⟨?_, h.not_mem_rest (p := [x, b]) (by simp)⟩
  rw [freeAddrs_insert hx, freeAddrs_skip (by simp [hb])]

theorem frees_before_binned (h : Heap m (l ++ z :: x :: b :: y :: r)) (hb : b.kind = .used)
    (hx : x.kind = .free) (hpinuse : m.Pinuse y.addr) (hne : x.addr ≠ m.dv) (hfuel : 32 < fuel) :
    Frees release m (l ++ z :: x :: b :: y :: r) b (do
      let m1 ← unlinkChunk fuel m x.addr x.size
      freeForward release fuel m1 x.addr (b.size + x.size) y.addr) := by
  obtain ⟨hadd, hnot⟩ := freeAddrs_before h.layout hb hx
  have hmem : x.addr ∈ freeAddrs (l ++ z :: x :: b :: y :: r) \ {m.dv} :=
    ⟨⟨x, by simp, hx, rfl⟩, hne⟩
  obtain ⟨m1, hrun, hB1, htouch⟩ := unlinkChunk_spec h.bins hmem hfuel
  rw [(h.layout.chunk (b := x) (by simp) (by simp [hx])).size_eq] at hrun
  rw [hadd, Set.sdiff_sdiff_comm, Set.insert_sdiff_self_of_notMem hnot] at hB1
  have hF := h.freeing_before hb hx htouch.head htouch.prevFoot htouch.sameRoom
    htouch.top htouch.topsize (by rw [htouch.dv]; exact hB1)
  have hdv : DvIs m1 (l ++ z :: y :: r) := by
    refine h.dv.transfer htouch.dv htouch.dvsize fun c hc hkind haddr => ?_
    have hcx : c ≠ x := by
      rintro rfl
      exact hne haddr
    have hcb : c ≠ b := by
      rintro rfl
      simp [hb] at hkind
    simp only [List.mem_append, List.mem_cons] at hc ⊢
    tauto
  have hpinuse1 : m1.Pinuse y.addr := by
    rw [Pinuse, htouch.head]
    exact hpinuse
  rw [hrun]
  obtain ⟨m2, bs', hrun2, hheap, htakes, haborts⟩ := hF.freeForward_spec release
    hpinuse1 (Or.inr ⟨by rw [htouch.dv]; exact hne, hdv⟩) hfuel
  exact ⟨m2, bs', hrun2, hheap, htakes, haborts.trans htouch.aborts⟩

theorem frees_before_dv (h : Heap m (l ++ z :: x :: b :: y :: r)) (hb : b.kind = .used)
    (hx : x.kind = .free) (hpinuse : m.Pinuse y.addr) (hdv : x.addr = m.dv) (hfuel : 32 < fuel) :
    Frees release m (l ++ z :: x :: b :: y :: r) b
      (if m.head y.addr &&& 3#32 = 3#32 then
        .done (MallocState.setFreeWithPinuse { m with dvsize := b.size + x.size } x.addr
          (b.size + x.size) y.addr)
      else freeForward release fuel m x.addr (b.size + x.size) y.addr) := by
  obtain ⟨hadd, hnot⟩ := freeAddrs_before h.layout hb hx
  have hrest : freeAddrs (l ++ z :: y :: r) \ {m.dv} = freeAddrs (l ++ z :: y :: r) :=
    Set.sdiff_singleton_eq_self (hdv ▸ hnot)
  have hbins := h.bins
  rw [hadd, hdv, Set.insert_sdiff_self_of_notMem (hdv ▸ hnot), ← hrest] at hbins
  have hF := h.freeing_before hb hx rfl rfl ⟨rfl, rfl, rfl⟩ rfl rfl hbins
  have hinuse : m.head y.addr &&& 3#32 = 3#32 ↔ y.kind = .used ∨ y.kind = .other := by
    rw [← hF.cinuse_next, cinuse_iff, ← BitVec.toNat_inj, toNat_and_three]
    rw [pinuse_iff] at hpinuse
    simp only [BitVec.toNat_ofNat]
    omega
  by_cases hy : m.head y.addr &&& 3#32 = 3#32
  · rw [if_pos hy]
    generalize hm' : MallocState.setFreeWithPinuse _ _ _ _ = m'
    obtain ⟨hlayout, htop, hB⟩ := hF.merged m' (hinuse.mp hy) (by subst hm'; rfl)
      (by subst hm'; rfl) (by subst hm'; rfl) (fun c => by subst hm'; rw [head_setFreeWithPinuse])
      fun c => by subst hm'; rw [prevFoot_setFreeWithPinuse, ← hF.next_eq]
    rw [hrest] at hB
    exact ⟨m', _, Or.inl rfl, heap_of_dv hlayout htop (by subst hm'; exact hdv.symm)
      (by subst hm'; rfl) hB, hF.takesBack (q := [⟨x.addr, b.size + x.size, .free⟩]) (by simp),
      by subst hm'; rfl⟩
  · rw [if_neg hy]
    exact hF.freeForward_spec release hpinuse (Or.inl ⟨hdv, mt hinuse.mpr hy⟩) hfuel

end Heap

theorem dlfree_spec (release : Release) (h : Heap m bs) (hb : b ∈ bs) (hkind : b.kind = .used)
    (hfuel : 32 < fuel) :
    Frees release m bs b (dlfree release fuel m (chunk2mem b.addr)) := by
  have hc := h.layout.chunk hb (by simp [hkind])
  have hcheck := h.layout.checkInuseChunk_eq hb hkind
  have hcinuse := cinuse_iff.mp (hc.cinuse.mpr hkind)
  have hinuse : m.IsInuse b.addr := by
    rw [isInuse_iff]
    omega
  have hmapped : ¬ m.IsMmapped b.addr := by
    rw [isMmapped_iff]
    omega
  obtain ⟨l, x, y, r, rfl⟩ := h.layout.neighbours hb (by simp [hkind])
  have hxb := h.layout.borders_pair
  have hby := h.layout.borders_next
  have hpinuse : m.Pinuse y.addr := (hby.pinuse (by simp [hkind])).mpr (by simp [hkind])
  have hxtop : x.kind ≠ .top := fun hx => by simp [hxb.after_top hx] at hkind
  rw [dlfree, if_pos (hc.mem_ne_zero (by simp [hkind]))]
  simp only [chunk2mem_mem2chunk, hcheck, hc.size_eq, ← hby.addr_eq]
  rw [if_pos ⟨hc.ok, hinuse⟩]
  by_cases hx : x.kind = .free
  · rw [if_pos fun hp => (hxb.pinuse hxtop).mp hp hx, if_neg hmapped]
    have hcx := h.layout.chunk (b := x) (by simp) (by simp [hx])
    have hprev : b.addr - m.prevFoot b.addr = x.addr := by
      rw [hxb.foot hx, hxb.addr_eq, BitVec.add_sub_cancel]
    rw [hprev, hxb.foot hx, if_pos hcx.ok]
    rcases List.eq_nil_or_concat l with rfl | ⟨l, z, rfl⟩
    · exact absurd (h.layout.first x (by simp)) (by simp [hx])
    simp only [List.concat_eq_append, List.append_assoc, List.singleton_append] at h ⊢
    by_cases hne : x.addr ≠ m.dv
    · rw [if_pos hne]
      exact h.frees_before_binned hkind hx hpinuse hne hfuel
    · rw [if_neg hne]
      exact h.frees_before_dv hkind hx hpinuse (not_not.mp hne) hfuel
  · rw [if_neg fun hp => hp ((hxb.pinuse hxtop).mpr hx)]
    obtain ⟨hF, hne, hdv⟩ := h.freeing_alone hkind hx
    exact hF.freeForward_spec release hpinuse (Or.inr ⟨hne, hdv⟩) hfuel

end LibSystem.Core
