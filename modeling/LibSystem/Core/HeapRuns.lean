import LibSystem.Core.HeapFree
import LibSystem.Run

/-!
# Runs of `malloc` and `free`

A program calls `malloc` and `free` in any order, and frees what it was given
and has not freed since. What the system does when it is asked for memory, or
may take some back, is a parameter.
-/

namespace LibSystem.Core

open Function MallocState

variable {m m' : MallocState} {bs bs' bs'' : List Block} {b c u : Block} {nb bytes : Word}
  {fuel : Nat} {L : Set (Addr × Word)}

def SameUsed (bs bs' : List Block) : Prop :=
  ∀ c, c ∈ bs' ∧ c.kind = .used ↔ c ∈ bs ∧ c.kind = .used

/-- The chunk `u` is in use, and was not. -/
structure AddsUsed (bs bs' : List Block) (u : Block) : Prop where
  used (c : Block) : c ∈ bs' ∧ c.kind = .used ↔ c ∈ bs ∧ c.kind = .used ∨ c = u
  fresh : u ∉ bs

/-- Null, or a chunk for `nb` bytes. -/
def Serves (m : MallocState) (bs : List Block) (nb : Word) (out : MallocState × Addr) : Prop :=
  ∃ bs', Heap out.1 bs' ∧ out.1.aborts = m.aborts ∧
    (out.2 = 0#32 ∧ SameUsed bs bs' ∨
      ∃ u, AddsUsed bs bs' u ∧ out.2 = chunk2mem u.addr ∧ nb.toNat ≤ u.size.toNat)

def KeepsHeap (f : MallocState → MallocState) : Prop :=
  ∀ {m bs}, Heap m bs → ∃ bs', Heap (f m) bs' ∧ SameUsed bs bs' ∧ (f m).aborts = m.aborts

/-- `sys_alloc` with what it gets from the system, and the ways back. Chunks that are mapped
on their own are left out. -/
structure System where
  alloc : MallocState → Word → Outcome (MallocState × Addr)
  release : Release
  alloc_serves {m : MallocState} {bs : List Block} (nb : Word) :
    Heap m bs → ∃ out, alloc m nb = .done out ∧ Serves m bs nb out
  trim_keeps : KeepsHeap release.trim
  segments_keeps : KeepsHeap release.segments

variable {sys : System}

/-! ## One call -/

theorem Mallocs.serves {f : Block} {out : MallocState × Addr} (h : Heap m bs)
    (hout : Mallocs m bs nb f out) : Serves m bs nb out := by
  obtain ⟨bs', u, hheap, hgives, hmem, hle, -, haborts⟩ := hout
  refine ⟨bs', hheap, haborts, Or.inr ⟨u, ⟨hgives.used, fun hu => ?_⟩, hmem, hle⟩⟩
  obtain ⟨-, hkind⟩ := (hgives.used u).mpr (Or.inr rfl)
  obtain rfl := h.layout.eq_of_addr hu hgives.mem hgives.addr
  rcases hgives.kind with hk | hk <;> simp [hk] at hkind

theorem dlmalloc_serves (sys : System) (h : Heap m bs) (hfuel : 33 < fuel) (bytes : Word) :
    ∃ out, dlmalloc sys.alloc fuel m bytes = .done out ∧ Serves m bs (requestSize bytes) out := by
  rcases dlmalloc_spec h hfuel bytes with
    ⟨out, f, hrun, hout, -⟩ | ⟨hrun, -⟩
  · exact ⟨out, hrun, hout.serves h⟩
  · obtain ⟨out, hsys, hserves⟩ := sys.alloc_serves (requestSize bytes) h
    exact ⟨out, hrun.trans hsys, hserves⟩

theorem TakesBack.of_same (h : TakesBack bs bs' b) (hsame : SameUsed bs' bs'') :
    TakesBack bs bs'' b := fun c => (hsame c).trans (h c)

theorem dlfree_takesBack (sys : System) (h : Heap m bs) (hb : b ∈ bs) (hkind : b.kind = .used)
    (hfuel : 32 < fuel) :
    ∃ m' bs', dlfree sys.release fuel m (chunk2mem b.addr) = .done m' ∧ Heap m' bs' ∧
      TakesBack bs bs' b ∧ m'.aborts = m.aborts := by
  obtain ⟨m', bs', hrun, hheap, htakes, haborts⟩ := dlfree_spec sys.release h hb hkind
    hfuel
  rcases hrun with hrun | hrun | hrun
  · exact ⟨m', bs', hrun, hheap, htakes, haborts⟩
  · obtain ⟨bs'', hheap', hsame, haborts'⟩ := sys.trim_keeps hheap
    exact ⟨_, bs'', hrun, hheap', htakes.of_same hsame, haborts'.trans haborts⟩
  · obtain ⟨bs'', hheap', hsame, haborts'⟩ := sys.segments_keeps hheap
    exact ⟨_, bs'', hrun, hheap', htakes.of_same hsame, haborts'.trans haborts⟩

theorem requestSize_fits (hsize : u.size.toNat % 8 = 0)
    (hle : (requestSize bytes).toNat ≤ u.size.toNat) : bytes.toNat + 4 ≤ u.size.toNat := by
  by_cases hmax : bytes.toNat < 0xFFFFFFC0
  · have := (requestSize_spec hmax).2.2.1
    omega
  · have h11 : ¬ bytes < 11#32 := Nat.not_lt_of_le (by simp only [BitVec.toNat_ofNat]; omega)
    have hreq : requestSize bytes = 0xFFFFFFFF#32 := by
      rw [requestSize, if_neg h11, if_pos]
      exact Nat.le_of_not_lt hmax
    rw [hreq, show (0xFFFFFFFF#32 : Word).toNat = 2 ^ 32 - 1 from rfl] at hle
    have := u.size.isLt
    omega

/-! ## Writes of the program -/

/-- The word at `w` has a byte of what was given out. -/
def Given (L : Set (Addr × Word)) (w : Nat) : Prop :=
  ∃ p ∈ L, p.1.toNat < w + 4 ∧ w < p.1.toNat + p.2.toNat

/-- The state without the words of the memory for chunks. -/
def MallocState.unchunked (m : MallocState) : MallocState :=
  { m with
    prevFoot := fun _ => 0#32
    head := fun _ => 0#32
    fd := fun _ => 0#32
    bk := fun _ => 0#32
    child := fun _ => 0#32
    parent := fun _ => 0#32
    index := fun _ => 0#32 }

/-- The program writes to the memory that it was given. -/
structure WritesOwn (L : Set (Addr × Word)) (m m' : MallocState) : Prop where
  rest : m'.unchunked = m.unchunked
  prevFoot {a : Addr} : ¬ Given L a.toNat → m'.prevFoot a = m.prevFoot a
  head {a : Addr} : ¬ Given L (a.toNat + 4) → m'.head a = m.head a
  fd {a : Addr} : ¬ Given L (a.toNat + 8) → m'.fd a = m.fd a
  bk {a : Addr} : ¬ Given L (a.toNat + 12) → m'.bk a = m.bk a
  child {a : Addr} {b : Bool} : ¬ Given L (a.toNat + if b then 20 else 16) →
    m'.child (a, b) = m.child (a, b)
  parent {a : Addr} : ¬ Given L (a.toNat + 24) → m'.parent a = m.parent a
  index {a : Addr} : ¬ Given L (a.toNat + 28) → m'.index a = m.index a

/-! ## Runs -/

inductive HeapOp where
  | malloc (bytes : Word)
  | free (mem : Addr)
  | write

/-- The state, and what was given out and not freed since, with the bytes that were asked
for. -/
inductive HeapStep (sys : System) (fuel : Nat) : MallocState × Set (Addr × Word) → HeapOp →
    MallocState × Set (Addr × Word) → Prop
  | malloc {m m' : MallocState} {L : Set (Addr × Word)} {bytes : Word} {mem : Addr}
      (hrun : dlmalloc sys.alloc fuel m bytes = .done (m', mem)) (hmem : mem ≠ 0#32) :
      HeapStep sys fuel (m, L) (.malloc bytes) (m', insert (mem, bytes) L)
  | noMemory {m m' : MallocState} {L : Set (Addr × Word)} {bytes : Word}
      (hrun : dlmalloc sys.alloc fuel m bytes = .done (m', 0#32)) :
      HeapStep sys fuel (m, L) (.malloc bytes) (m', L)
  | free {m m' : MallocState} {L : Set (Addr × Word)} {bytes : Word} {mem : Addr}
      (hL : (mem, bytes) ∈ L) (hrun : dlfree sys.release fuel m mem = .done m') :
      HeapStep sys fuel (m, L) (.free mem) (m', L \ {(mem, bytes)})
  | write {m m' : MallocState} {L : Set (Addr × Word)} (h : WritesOwn L m m') :
      HeapStep sys fuel (m, L) .write (m', L)

/-- The chunks in use are those that the program has. -/
structure Owned (bs : List Block) (L : Set (Addr × Word)) : Prop where
  chunk {p : Addr × Word} : p ∈ L →
    ∃ u ∈ bs, u.kind = .used ∧ p.1 = chunk2mem u.addr ∧ p.2.toNat + 4 ≤ u.size.toNat
  once {p q : Addr × Word} : p ∈ L → q ∈ L → p.1 = q.1 → p = q
  held {u : Block} : u ∈ bs → u.kind = .used → ∃ p ∈ L, p.1 = chunk2mem u.addr

theorem chunk2mem_inj {p q : Addr} (h : chunk2mem p = chunk2mem q) : p = q := by
  rw [← chunk2mem_mem2chunk p, h, chunk2mem_mem2chunk]

namespace Owned

theorem same (h : Owned bs L) (hsame : SameUsed bs bs') : Owned bs' L where
  chunk hp := by
    obtain ⟨u, hu, hkind, hrest⟩ := h.chunk hp
    obtain ⟨hu', -⟩ := (hsame u).mpr ⟨hu, hkind⟩
    exact ⟨u, hu', hkind, hrest⟩
  once := h.once
  held hu hkind := by
    obtain ⟨hu', -⟩ := (hsame _).mp ⟨hu, hkind⟩
    exact h.held hu' hkind

theorem add (h : Owned bs L) (hheap : Heap m bs') (hadds : AddsUsed bs bs' u)
    (hle : bytes.toNat + 4 ≤ u.size.toNat) : Owned bs' (insert (chunk2mem u.addr, bytes) L) := by
  obtain ⟨hu, hukind⟩ := (hadds.used u).mpr (Or.inr rfl)
  have hnew : ∀ p ∈ L, p.1 ≠ chunk2mem u.addr := by
    intro p hp heq
    obtain ⟨c, hc, hkind, haddr, -⟩ := h.chunk hp
    obtain ⟨hc', -⟩ := (hadds.used c).mpr (Or.inl ⟨hc, hkind⟩)
    obtain rfl := hheap.layout.eq_of_addr hu hc' (chunk2mem_inj (heq.symm.trans haddr))
    exact hadds.fresh hc
  refine ⟨fun {p} hp => ?_, fun {p q} hp hq heq => ?_, fun {c} hc hkind => ?_⟩
  · rcases hp with rfl | hp
    · exact ⟨u, hu, hukind, rfl, hle⟩
    · obtain ⟨c, hc, hkind, hrest⟩ := h.chunk hp
      obtain ⟨hc', -⟩ := (hadds.used c).mpr (Or.inl ⟨hc, hkind⟩)
      exact ⟨c, hc', hkind, hrest⟩
  · rcases hp with rfl | hp <;> rcases hq with rfl | hq
    · rfl
    · exact absurd heq.symm (hnew q hq)
    · exact absurd heq (hnew p hp)
    · exact h.once hp hq heq
  · rcases (hadds.used c).mp ⟨hc, hkind⟩ with ⟨hc, hkind⟩ | rfl
    · obtain ⟨p, hp, haddr⟩ := h.held hc hkind
      exact ⟨p, Or.inr hp, haddr⟩
    · exact ⟨_, Or.inl rfl, rfl⟩

theorem remove (h : Owned bs L) (hheap : Heap m bs) (hb : b ∈ bs) (htakes : TakesBack bs bs' b)
    {p : Addr × Word} (hp : p ∈ L) (hpb : p.1 = chunk2mem b.addr) : Owned bs' (L \ {p}) where
  chunk := by
    rintro q ⟨hq, hne⟩
    obtain ⟨u, hu, hkind, haddr, hle⟩ := h.chunk hq
    have hub : u ≠ b := by
      rintro rfl
      exact hne (h.once hq hp (haddr.trans hpb.symm))
    obtain ⟨hu', -⟩ := (htakes u).mpr ⟨⟨hu, hkind⟩, hub⟩
    exact ⟨u, hu', hkind, haddr, hle⟩
  once hq hq' := h.once hq.1 hq'.1
  held {u} hu hkind := by
    obtain ⟨⟨hu', -⟩, hne⟩ := (htakes u).mp ⟨hu, hkind⟩
    obtain ⟨q, hq, haddr⟩ := h.held hu' hkind
    refine ⟨q, ⟨hq, ?_⟩, haddr⟩
    rintro rfl
    exact hne (hheap.layout.eq_of_addr hu' hb (chunk2mem_inj (haddr.symm.trans hpb)))

end Owned

theorem Owned.place (h : Owned bs L) (hheap : Heap m bs) {p : Addr × Word} (hp : p ∈ L) :
    ∃ u ∈ bs, u.kind = .used ∧ p.1 = chunk2mem u.addr ∧ p.1.toNat = u.start + 8 ∧
      p.1.toNat + p.2.toNat ≤ u.stop + 4 := by
  obtain ⟨u, hu, hkind, haddr, hle⟩ := h.chunk hp
  have hc := hheap.layout.chunk hu (by simp [hkind])
  have hleast := hc.least (by simp [hkind])
  have hfits : u.start + u.size.toNat ≤ 2 ^ 32 := hc.room.fits
  have hmem : p.1.toNat = u.start + 8 := by
    rw [haddr, chunk2mem, BitVec.toNat_add_of_lt]
    · rfl
    · change u.start + 8 < 2 ^ 32
      omega
  have hstop : u.stop = u.start + u.size.toNat := rfl
  exact ⟨u, hu, hkind, haddr, hmem, by omega⟩

theorem Owned.of_given (h : Owned bs L) (hheap : Heap m bs) {w : Nat} (hw : Given L w) :
    ∃ u ∈ bs, u.kind = .used ∧ u.start + 4 < w ∧ w < u.stop + 4 := by
  obtain ⟨p, hp, hlo, hhi⟩ := hw
  obtain ⟨u, hu, hkind, -, hmem, hle⟩ := h.place hheap hp
  exact ⟨u, hu, hkind, by omega, by omega⟩

theorem Owned.not_given (h : Owned bs L) (hheap : Heap m bs) (hb : b ∈ bs) (hkind : b.kind = .free)
    {w : Nat} (hlo : b.start + 4 ≤ w) (hhi : w < b.stop + 4) : ¬ Given L w := by
  intro hw
  obtain ⟨u, hu, hukind, hlo', hhi'⟩ := h.of_given hheap hw
  obtain rfl := hheap.layout.tiling.eq_of_overlap hu hb (by omega) (by omega)
  simp [hukind] at hkind

theorem Owned.not_given_header (h : Owned bs L) (hheap : Heap m bs) {i : Word} (hi : i.toNat < 32)
    {w : Nat} (hlo : (m.smallbinAt i).toNat + 8 ≤ w) (hhi : w < (m.smallbinAt i).toNat + 16) :
    ¬ Given L w := by
  intro hw
  obtain ⟨u, hu, hkind, hlo', hhi'⟩ := h.of_given hheap hw
  have := (hheap.layout.chunk hu (by simp [hkind])).room.not_header hi
  omega

namespace WritesOwn

theorem head_eq (h : WritesOwn L m m') (howned : Owned bs L) (hheap : Heap m bs) (hb : b ∈ bs) :
    m'.head b.addr = m.head b.addr := by
  refine h.head fun hw => ?_
  obtain ⟨u, hu, -, hlo, hhi⟩ := howned.of_given hheap hw
  change u.start + 4 < b.start + 4 at hlo
  change b.start + 4 < u.stop + 4 at hhi
  have hpos := hheap.layout.tiling.pos hb
  obtain rfl := hheap.layout.tiling.eq_of_overlap hu hb (by omega) (by omega)
  omega

theorem sameRoom (h : WritesOwn L m m') : SameRoom m m' :=
  ⟨congrArg (·.leastAddr) h.rest, congrArg (·.smallbins) h.rest, congrArg (·.segments) h.rest⟩

theorem layout (h : WritesOwn L m m') (howned : Owned bs L) (hheap : Heap m bs) :
    Layout m' bs where
  each hb := ⟨(hheap.layout.each hb).pos, fun hkind => (hheap.layout.chunk hb hkind).congr
    (h.head_eq howned hheap hb) h.sameRoom⟩
  borders := hheap.layout.borders.imp_of_mem_imp fun b c hb hc hbc =>
    { abut := hbc.abut
      pinuse := by rw [Pinuse, h.head_eq howned hheap hc]; exact hbc.pinuse
      foot := fun hkind => by
        have hleast := (hheap.layout.chunk hb (by simp [hkind])).least (by simp [hkind])
        have hstop : b.stop = b.start + b.size.toNat := rfl
        have habut : c.addr.toNat = b.stop := hbc.abut
        rw [h.prevFoot (howned.not_given hheap hb hkind (by omega) (by omega))]
        exact hbc.foot hkind
      after_free := hbc.after_free
      after_top := hbc.after_top
      top_foot := fun hkind =>
        (hbc.top_foot hkind).congr (h.head_eq howned hheap hc) h.sameRoom.segments
      fence := by rw [Cinuse, h.head_eq howned hheap hc]; exact hbc.fence }
  first := hheap.layout.first
  last := hheap.layout.last

/-- The bins do not look at memory that was given out. -/
theorem elsewhere (h : WritesOwn L m m') (howned : Owned bs L) (hheap : Heap m bs) :
    WritesElsewhere (freeAddrs bs \ {m.dv}) m m' := by
  -- the words of a free chunk, up to its end
  have hfree : ∀ {a k}, a ∈ freeAddrs bs \ {m.dv} → 4 ≤ k → k < (m.chunksize a).toNat + 4 →
      ¬ Given L (a.toNat + k) := by
    rintro a k ⟨⟨b, hb, hkind, rfl⟩, -⟩ hk hlt
    rw [(hheap.layout.chunk hb (by simp [hkind])).size_eq] at hlt
    exact howned.not_given hheap hb hkind (Nat.add_le_add_left hk _)
      (by unfold Block.stop; omega)
  have hleast : ∀ {a}, a ∈ freeAddrs bs \ {m.dv} → 16 ≤ (m.chunksize a).toNat := by
    rintro a ⟨⟨b, hb, hkind, rfl⟩, -⟩
    have hc := hheap.layout.chunk hb (by simp [hkind])
    rw [hc.size_eq]
    exact hc.least (by simp [hkind])
  have hlarge : ∀ {a}, ¬ IsSmall (m.chunksize a) → 256 ≤ (m.chunksize a).toNat := fun ha => by
    rw [isSmall_iff] at ha
    omega
  exact
  { smallmap := congrArg (·.smallmap) h.rest
    treemap := congrArg (·.treemap) h.rest
    treebins := congrArg (·.treebins) h.rest
    leastAddr := congrArg (·.leastAddr) h.rest
    smallbins := congrArg (·.smallbins) h.rest
    treebinsAddr := congrArg (·.treebinsAddr) h.rest
    aborts := congrArg (·.aborts) h.rest
    chunksize := by
      rintro a ⟨⟨b, hb, -, rfl⟩, -⟩
      rw [chunksize, chunksize, h.head_eq howned hheap hb]
    fd := by
      rintro a (ha | ⟨i, hi, rfl⟩)
      · exact h.fd (hfree ha (by omega) (by have := hleast ha; omega))
      · exact h.fd (howned.not_given_header hheap hi (by omega) (by omega))
    bk := by
      rintro a (ha | ⟨i, hi, rfl⟩)
      · exact h.bk (hfree ha (by omega) (by have := hleast ha; omega))
      · exact h.bk (howned.not_given_header hheap hi (by omega) (by omega))
    child := fun {a b} ha hsize => by
      have := hlarge hsize
      cases b
      · exact h.child (hfree ha (by simp) (by simp; omega))
      · exact h.child (hfree ha (by simp) (by simp; omega))
    parent := fun ha hsize => by
      have := hlarge hsize
      exact h.parent (hfree ha (by omega) (by omega))
    index := fun ha hsize => by
      have := hlarge hsize
      exact h.index (hfree ha (by omega) (by omega)) }

theorem heap (h : WritesOwn L m m') (howned : Owned bs L) (hheap : Heap m bs) : Heap m' bs where
  layout := h.layout howned hheap
  top := hheap.top.congr (congrArg (·.top) h.rest) (congrArg (·.topsize) h.rest)
  dv := by
    have hdv : m'.dv = m.dv := congrArg (·.dv) h.rest
    have hdvsize : m'.dvsize = m.dvsize := congrArg (·.dvsize) h.rest
    rw [DvIs, hdv, hdvsize]
    exact hheap.dv
  bins := by
    have hdv : m'.dv = m.dv := congrArg (·.dv) h.rest
    rw [hdv]
    exact (h.elsewhere howned hheap).binsHold hheap.bins

end WritesOwn

theorem served {mem : Addr} (h : Heap m bs) (hfuel : 33 < fuel)
    (hrun : dlmalloc sys.alloc fuel m bytes = .done (m', mem)) :
    Serves m bs (requestSize bytes) (m', mem) := by
  obtain ⟨out, hrun', hserves⟩ := dlmalloc_serves sys h hfuel bytes
  rwa [Outcome.done.inj (hrun'.symm.trans hrun)] at hserves

theorem heapStep_keeps {x y : MallocState × Set (Addr × Word)} {op : HeapOp} (hfuel : 33 < fuel)
    (hheap : Heap x.1 bs) (howned : Owned bs x.2) (h : HeapStep sys fuel x op y) :
    ∃ bs', Heap y.1 bs' ∧ Owned bs' y.2 ∧ y.1.aborts = x.1.aborts := by
  cases h with
  | malloc hrun hmem =>
    obtain ⟨bs', hheap', haborts, ⟨h0, -⟩ | ⟨u, hadds, rfl, hle⟩⟩ := served hheap hfuel hrun
    · exact absurd h0 hmem
    · obtain ⟨hu, hkind⟩ := (hadds.used u).mpr (Or.inr rfl)
      have hsize := (hheap'.layout.chunk hu (by simp [hkind])).size_mod
      exact ⟨bs', hheap', howned.add hheap' hadds (requestSize_fits hsize hle), haborts⟩
  | noMemory hrun =>
    obtain ⟨bs', hheap', haborts, ⟨-, hsame⟩ | ⟨u, hadds, h0, -⟩⟩ := served hheap hfuel hrun
    · exact ⟨bs', hheap', howned.same hsame, haborts⟩
    · obtain ⟨hu, hkind⟩ := (hadds.used u).mpr (Or.inr rfl)
      have hc := hheap'.layout.chunk hu (by simp [hkind])
      exact absurd h0.symm (hc.mem_ne_zero (by simp [hkind]))
  | free hL hrun =>
    obtain ⟨u, hu, hkind, haddr, -⟩ := howned.chunk hL
    obtain ⟨m', bs', hrun', hheap', htakes, haborts⟩ :=
      dlfree_takesBack sys hheap hu hkind (by omega : 32 < fuel)
    rw [← haddr] at hrun'
    obtain rfl := Outcome.done.inj (hrun'.symm.trans hrun)
    exact ⟨bs', hheap', howned.remove hheap hu htakes hL haddr, haborts⟩
  | write hwrite =>
    exact ⟨bs, hwrite.heap howned hheap, howned, congrArg (·.aborts) hwrite.rest⟩

theorem reaches_heap {m0 : MallocState} {bs0 : List Block} (hfuel : 33 < fuel)
    (h0 : Heap m0 bs0) (hunused : ∀ b ∈ bs0, b.kind ≠ .used)
    (h : Reaches (HeapStep sys fuel) (m0, ∅) (m, L)) :
    ∃ bs, Heap m bs ∧ Owned bs L ∧ m.aborts = m0.aborts := by
  refine Run.invariant (I := fun x => ∃ bs, Heap x.1 bs ∧ Owned bs x.2 ∧ x.1.aborts = m0.aborts) h
    ?_ ?_
  · exact ⟨bs0, h0, ⟨fun hp => hp.elim, fun hp => hp.elim, fun hu hkind =>
      absurd hkind (hunused _ hu)⟩, rfl⟩
  · rintro x op y ⟨bs, hheap, howned, haborts⟩ - hstep
    obtain ⟨bs', hheap', howned', haborts'⟩ := heapStep_keeps hfuel hheap howned hstep
    exact ⟨bs', hheap', howned', haborts'.trans haborts⟩

theorem Owned.apart (h : Owned bs L) (hheap : Heap m bs) {p : Addr × Word} (hp : p ∈ L) :
    p.1.toNat % 8 = 0 ∧ p.1.toNat + p.2.toNat < 2 ^ 32 ∧ ∀ q ∈ L, q ≠ p →
      p.1.toNat + p.2.toNat < q.1.toNat ∨ q.1.toNat + q.2.toNat < p.1.toNat := by
  obtain ⟨u, hu, hkind, haddr, hmem, hle⟩ := h.place hheap hp
  have hc := hheap.layout.chunk hu (by simp [hkind])
  have hlo := hc.room.aligned_lo
  have hhi := hc.room.aligned_hi
  have hstop : u.stop < 2 ^ 32 := by
    obtain ⟨l, x, y, r, rfl⟩ := hheap.layout.neighbours hu (by simp [hkind])
    have habut : y.addr.toNat = u.stop := hheap.layout.borders_next.abut
    rw [← habut]
    exact y.addr.isLt
  refine ⟨by omega, by omega, fun q hq hne => ?_⟩
  obtain ⟨w, hw, -, haddr', hmem', hle'⟩ := h.place hheap hq
  have huw : u ≠ w := by
    rintro rfl
    exact hne (h.once hq hp (haddr'.trans haddr.symm))
  by_contra hno
  exact huw (hheap.layout.tiling.eq_of_overlap hu hw (by omega) (by omega))

/-- In every run no check of the code fails, every call ends, and what was given out is memory
of its own. -/
theorem heap_never_corrupt {m0 : MallocState} {bs0 : List Block} (hfuel : 33 < fuel)
    (h0 : Heap m0 bs0) (hunused : ∀ b ∈ bs0, b.kind ≠ .used)
    (h : Reaches (HeapStep sys fuel) (m0, ∅) (m, L)) :
    m.aborts = m0.aborts ∧
      (∀ p ∈ L, p.1.toNat % 8 = 0 ∧ p.1.toNat + p.2.toNat < 2 ^ 32 ∧ ∀ q ∈ L, q ≠ p →
        p.1.toNat + p.2.toNat < q.1.toNat ∨ q.1.toNat + q.2.toNat < p.1.toNat) ∧
      (∀ bytes, ∃ y, HeapStep sys fuel (m, L) (.malloc bytes) y) ∧
      ∀ p ∈ L, ∃ y, HeapStep sys fuel (m, L) (.free p.1) y := by
  obtain ⟨bs, hheap, howned, haborts⟩ := reaches_heap hfuel h0 hunused h
  refine ⟨haborts, fun p hp => howned.apart hheap hp, fun bytes => ?_, fun p hp => ?_⟩
  · obtain ⟨⟨m', mem⟩, hrun, -⟩ := dlmalloc_serves sys hheap hfuel bytes
    by_cases hmem : mem = 0#32
    · subst hmem
      exact ⟨_, .noMemory hrun⟩
    · exact ⟨_, .malloc hrun hmem⟩
  · obtain ⟨u, hu, hkind, haddr, -⟩ := howned.chunk hp
    obtain ⟨m', bs', hrun, -⟩ :=
      dlfree_takesBack sys hheap hu hkind (by omega : 32 < fuel)
    rw [← haddr] at hrun
    exact ⟨_, .free (show (p.1, p.2) ∈ L from hp) hrun⟩

/-- In every run a request gets the lower end of the best block, and the system is asked when
no block is large enough. -/
theorem malloc_best_fit {m0 : MallocState} {bs0 : List Block} (hfuel : 33 < fuel)
    (h0 : Heap m0 bs0) (hunused : ∀ b ∈ bs0, b.kind ≠ .used)
    (h : Reaches (HeapStep sys fuel) (m0, ∅) (m, L)) (bytes : Word) :
    ∃ bs, Heap m bs ∧ Owned bs L ∧
      Allocates sys.alloc m bs (requestSize bytes) (dlmalloc sys.alloc fuel m bytes) := by
  obtain ⟨bs, hheap, howned, -⟩ := reaches_heap hfuel h0 hunused h
  exact ⟨bs, hheap, howned, dlmalloc_spec hheap hfuel bytes⟩

/-- A program that has freed all it was given leaves one chunk between any two borders. -/
theorem all_freed {m0 : MallocState} {bs0 : List Block} (hfuel : 33 < fuel) (h0 : Heap m0 bs0)
    (hunused : ∀ b ∈ bs0, b.kind ≠ .used) (h : Reaches (HeapStep sys fuel) (m0, ∅) (m, ∅)) :
    ∃ bs, Heap m bs ∧ (∀ b ∈ bs, b.kind ≠ .used) ∧
      ∀ l b c r, bs = l ++ b :: c :: r → b.kind = .other ∨ c.kind = .other := by
  obtain ⟨bs, hheap, howned, -⟩ := reaches_heap hfuel h0 hunused h
  have hnone : ∀ b ∈ bs, b.kind ≠ .used := fun b hb hkind => by
    obtain ⟨p, hp, -⟩ := howned.held hb hkind
    exact hp
  refine ⟨bs, hheap, hnone, ?_⟩
  rintro l b c r rfl
  have hbc := hheap.layout.borders_pair
  cases hb : b.kind with
  | other => exact Or.inl rfl
  | used => exact absurd hb (hnone b (by simp))
  | top => exact Or.inr (hbc.after_top hb)
  | free => exact Or.inr ((hbc.after_free hb).resolve_left (hnone c (by simp)))

/-! ## A run -/

/-- A system that has no more memory, and takes none back. -/
def noSystem : System where
  alloc m _ := .done (m, 0#32)
  release := ⟨fun m _ => m, fun m => m, fun m => m⟩
  alloc_serves {m bs} _ h := ⟨(m, 0#32), rfl, bs, h, rfl, Or.inl ⟨rfl, fun _ => Iff.rfl⟩⟩
  trim_keeps h := ⟨_, h, fun _ => Iff.rfl, rfl⟩
  segments_keeps h := ⟨_, h, fun _ => Iff.rfl, rfl⟩

/-- A heap of 4096 bytes. -/
def freshHeap : MallocState :=
  { freshBins with
    topsize := 0x1000#32
    top := 0x3008#32
    head := update (update (fun _ => 0#32) 0x3008#32 0x1001#32) 0x4008#32 0x28#32
    segments := [⟨0x3000#32, 0x1030#32⟩] }

def freshBlocks : List Block :=
  [⟨0x3000#32, 8#32, BlockKind.other⟩, ⟨0x3008#32, 0x1000#32, BlockKind.top⟩,
    ⟨0x4008#32, 0x28#32, BlockKind.other⟩]

theorem freshHeap_heap : Heap freshHeap freshBlocks := by
  have hroom : Room freshHeap 0x3008 0x4008 :=
    { aligned_lo := by decide
      aligned_hi := by decide
      pos := by decide
      lt := by decide
      fits := by decide
      ok := by decide
      not_header := fun {i} hi => by
        left
        change (0x2000#32 + 8#32 * i).toNat + 16 ≤ 0x3008
        bv_omega
      held := by
        refine ⟨⟨0x3000#32, 0x1030#32⟩, fun a hlo hhi => ?_⟩
        rw [segmentHolding, freshHeap, List.find?_cons_of_pos]
        simp only [BitVec.le_def, BitVec.lt_def, decide_eq_true_eq]
        exact ⟨Nat.le_trans (by decide) hlo, Nat.lt_of_le_of_lt hhi (by decide)⟩ }
  have hfoot : TopFoot freshHeap 0x3008#32 0x4008#32 :=
    ⟨by decide, ⟨0x3000#32, 0x1030#32⟩, by decide, by decide⟩
  have hempty : EmptyBins freshHeap :=
    { smallmap := rfl
      treemap := rfl
      treebins := fun _ => rfl
      treebinAt_ne := fun {i} hi => by
        simp only [treebinAt, freshHeap, freshBins]
        bv_omega }
  refine ⟨⟨fun {b} hb => ?_, ?_, by simp [freshBlocks], by simp [freshBlocks]⟩, ⟨?_, ?_⟩,
    Or.inl ⟨rfl, rfl⟩, ?_⟩
  · simp only [freshBlocks, List.mem_cons, List.not_mem_nil, or_false] at hb
    rcases hb with rfl | rfl | rfl
    · exact ⟨by decide, by simp⟩
    · exact ⟨by decide, fun _ => ⟨hroom, by decide, by decide, by decide, by simp⟩⟩
    · exact ⟨by decide, by simp⟩
  · simp only [freshBlocks, List.isChain_cons_cons, List.isChain_singleton, and_true]
    exact ⟨.of_inuse (Or.inr rfl) (by decide) (by decide) (by simp),
      .of_top rfl (by decide) rfl hfoot⟩
  · exact ⟨_, List.mem_cons_of_mem _ List.mem_cons_self, rfl, rfl, rfl⟩
  · simp [freshBlocks, freshHeap]
  · have hnone : freeAddrs freshBlocks = ∅ := by
      ext a
      simp [freeAddrs, freshBlocks]
    rw [hnone, Set.empty_sdiff]
    exact hempty.binsHold

theorem freshBlocks_unused : ∀ b ∈ freshBlocks, b.kind ≠ .used := by
  simp [freshBlocks]

/-- 100 bytes are given out. -/
def mallocedOnce : MallocState × Addr :=
  (dlmalloc noSystem.alloc 34 freshHeap 100#32).getD (freshHeap, 0#32)

/-- And 24 bytes. -/
def mallocedTwice : MallocState × Addr :=
  (dlmalloc noSystem.alloc 34 mallocedOnce.1 24#32).getD (freshHeap, 0#32)

theorem mallocedOnce_step :
    HeapStep noSystem 34 (freshHeap, ∅) (.malloc 100#32)
      (mallocedOnce.1, insert (0x3010#32, 100#32) ∅) :=
  .malloc (show _ = Outcome.done (_, 0x3010#32) from rfl) (by decide)

theorem heap_never_corrupt_twice :
    mallocedTwice.1.aborts = 0 ∧
      ∃ m, dlfree noSystem.release 34 mallocedTwice.1 0x3010#32 = .done m := by
  have h2 : HeapStep noSystem 34 (mallocedOnce.1, insert (0x3010#32, 100#32) ∅) (.malloc 24#32)
      (mallocedTwice.1, insert (0x3078#32, 24#32) (insert (0x3010#32, 100#32) ∅)) :=
    .malloc (show _ = Outcome.done (_, 0x3078#32) from rfl) (by decide)
  have hrun := (Reaches.single mallocedOnce_step).trans (Reaches.single h2)
  obtain ⟨haborts, -, -, hfree⟩ := heap_never_corrupt (by decide) freshHeap_heap
    freshBlocks_unused hrun
  obtain ⟨y, hstep⟩ := hfree (0x3010#32, 100#32) (by simp)
  cases hstep with
  | free _ hrun => exact ⟨haborts, _, hrun⟩

theorem malloc_best_fit_once :
    ∃ bs, Heap mallocedOnce.1 bs ∧ Owned bs (insert (0x3010#32, 100#32) ∅) ∧
      Allocates noSystem.alloc mallocedOnce.1 bs (requestSize 24#32)
        (dlmalloc noSystem.alloc 34 mallocedOnce.1 24#32) :=
  malloc_best_fit (by decide) freshHeap_heap freshBlocks_unused (.single mallocedOnce_step) 24#32

def mallocedAndFreed : MallocState :=
  (dlfree noSystem.release 34 mallocedOnce.1 0x3010#32).getD freshHeap

theorem all_freed_once :
    ∃ bs, Heap mallocedAndFreed bs ∧ (∀ b ∈ bs, b.kind ≠ .used) ∧
      ∀ l b c r, bs = l ++ b :: c :: r → b.kind = .other ∨ c.kind = .other := by
  have h2 : HeapStep noSystem 34 (mallocedOnce.1, insert (0x3010#32, 100#32) ∅)
      (.free 0x3010#32)
      (mallocedAndFreed, insert (0x3010#32, 100#32) ∅ \ {(0x3010#32, 100#32)}) :=
    .free (Set.mem_insert _ _) rfl
  rw [Set.insert_sdiff_self_of_notMem (Set.notMem_empty _)] at h2
  exact all_freed (by decide) freshHeap_heap freshBlocks_unused
    ((Reaches.single mallocedOnce_step).trans (Reaches.single h2))

end LibSystem.Core
