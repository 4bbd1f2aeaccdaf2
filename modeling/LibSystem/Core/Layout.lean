import LibSystem.Core.Heads
import LibSystem.Tiling

/-!
# The layout of the heap

The memory is a list of blocks. A block is a chunk that is in use, one that is
free, the chunk `top`, or memory that is not for allocation. The last kind is
around every segment, with the records and fenceposts at its end.
-/

namespace LibSystem.Core

open Function MallocState

inductive BlockKind where
  | used
  | free
  | top
  | other
  deriving DecidableEq

structure Block where
  addr : Addr
  size : Word
  kind : BlockKind

namespace Block

def start (b : Block) : Nat := b.addr.toNat

def stop (b : Block) : Nat := b.addr.toNat + b.size.toNat

end Block

/-- Memory for chunks. -/
structure Room (m : MallocState) (lo hi : Nat) : Prop where
  aligned_lo : lo % 8 = 0
  aligned_hi : hi % 8 = 0
  pos : 0 < lo
  lt : lo < hi
  fits : hi ≤ 2 ^ 32
  ok : m.leastAddr.toNat ≤ lo
  not_header {i : Word} :
    i.toNat < 32 → (m.smallbinAt i).toNat + 16 ≤ lo ∨ hi ≤ (m.smallbinAt i).toNat
  /-- It is in one segment, and the word behind it too. -/
  held : ∃ sp, ∀ a : Addr, lo ≤ a.toNat → a.toNat ≤ hi → m.segmentHolding a = some sp

/-- What tells whether there is room. -/
structure SameRoom (m m' : MallocState) : Prop where
  leastAddr : m'.leastAddr = m.leastAddr
  smallbins : m'.smallbins = m.smallbins
  segments : m'.segments = m.segments

/-- Behind `top` is the foot of its segment. -/
structure TopFoot (m : MallocState) (top foot : Addr) : Prop where
  pinuse : ¬ m.Pinuse foot
  segment : ∃ sp, m.segmentHolding top = some sp ∧ foot + topFootSize = sp.base + sp.size

/-- A chunk and its head. -/
structure Chunk (m : MallocState) (b : Block) : Prop where
  room : Room m b.start b.stop
  size_eq : m.chunksize b.addr = b.size
  cinuse : m.Cinuse b.addr ↔ b.kind = .used
  flag4 : (m.head b.addr).toNat % 8 < 4
  least : b.kind ≠ .top → 16 ≤ b.size.toNat

structure BlockAt (m : MallocState) (b : Block) : Prop where
  pos : 0 < b.size.toNat
  chunk : b.kind ≠ .other → Chunk m b

/-- What the block `c` says of `b`, the one before it. -/
structure Borders (m : MallocState) (b c : Block) : Prop where
  abut : c.start = b.stop
  pinuse : b.kind ≠ .top → (m.Pinuse c.addr ↔ b.kind ≠ .free)
  foot : b.kind = .free → m.prevFoot c.addr = b.size
  /-- No two free chunks are next to each other. -/
  after_free : b.kind = .free → c.kind = .used ∨ c.kind = .other
  after_top : b.kind = .top → c.kind = .other
  top_foot : b.kind = .top → TopFoot m b.addr c.addr
  fence : c.kind = .other → b.kind ≠ .top → m.Cinuse c.addr

structure Layout (m : MallocState) (bs : List Block) : Prop where
  each {b : Block} : b ∈ bs → BlockAt m b
  borders : bs.IsChain (Borders m)
  first : ∀ b ∈ bs.head?, b.kind = .other
  last : ∀ b ∈ bs.getLast?, b.kind = .other

variable {m m' : MallocState} {bs l r p q : List Block} {x y b c : Block} {lo hi n : Nat}
  {a : Addr} {s nb : Word}

/-! ## Room -/

namespace Room

theorem congr (h : Room m lo hi) (hsame : SameRoom m m') : Room m' lo hi where
  aligned_lo := h.aligned_lo
  aligned_hi := h.aligned_hi
  pos := h.pos
  lt := h.lt
  fits := h.fits
  ok := by rw [hsame.leastAddr]; exact h.ok
  not_header hi := by
    rw [smallbinAt, hsame.smallbins]
    exact h.not_header hi
  held := by
    obtain ⟨sp, hsp⟩ := h.held
    exact ⟨sp, fun a hlo hhi => by rw [segmentHolding, hsame.segments]; exact hsp a hlo hhi⟩

theorem join (h : Room m lo n) (h' : Room m n hi) : Room m lo hi where
  aligned_lo := h.aligned_lo
  aligned_hi := h'.aligned_hi
  pos := h.pos
  lt := h.lt.trans h'.lt
  fits := h'.fits
  ok := h.ok
  not_header hi := by
    have := h.not_header hi
    have := h'.not_header hi
    omega
  held := by
    obtain ⟨sp, hsp⟩ := h.held
    obtain ⟨sp', hsp'⟩ := h'.held
    have hn : (BitVec.ofNat 32 n).toNat = n :=
      Nat.mod_eq_of_lt (h'.lt.trans_le h'.fits)
    -- The address between the two is in both segments.
    obtain rfl : sp = sp' := Option.some.inj
      ((hsp _ (h.lt.le.trans hn.ge) hn.le).symm.trans (hsp' _ hn.ge (hn.le.trans h'.lt.le)))
    refine ⟨sp, fun a hlo hhi => ?_⟩
    rcases Nat.le_total a.toNat n with hle | hle
    · exact hsp a hlo hle
    · exact hsp' a hle hhi

theorem sub {lo' hi' : Nat} (h : Room m lo hi) (hlo : lo ≤ lo') (hlt : lo' < hi') (hhi : hi' ≤ hi)
    (hlo8 : lo' % 8 = 0) (hhi8 : hi' % 8 = 0) : Room m lo' hi' where
  aligned_lo := hlo8
  aligned_hi := hhi8
  pos := h.pos.trans_le hlo
  lt := hlt
  fits := hhi.trans h.fits
  ok := h.ok.trans hlo
  not_header hi := by
    have := h.not_header hi
    omega
  held := by
    obtain ⟨sp, hsp⟩ := h.held
    exact ⟨sp, fun a hlo' hhi' => hsp a (hlo.trans hlo') (hhi'.trans hhi)⟩

theorem segmentHolding_eq (h : Room m lo hi) {a a' : Addr} (ha : lo ≤ a.toNat) (ha' : a.toNat ≤ hi)
    (hb : lo ≤ a'.toNat) (hb' : a'.toNat ≤ hi) : m.segmentHolding a' = m.segmentHolding a := by
  obtain ⟨sp, hsp⟩ := h.held
  rw [hsp a ha ha', hsp a' hb hb']

end Room

theorem TopFoot.congr {top foot : Addr} (h : TopFoot m top foot)
    (hhead : m'.head foot = m.head foot) (hsegments : m'.segments = m.segments) :
    TopFoot m' top foot where
  pinuse := by rw [Pinuse, hhead]; exact h.pinuse
  segment := by rw [segmentHolding, hsegments]; exact h.segment

theorem TopFoot.moved {top top' foot : Addr} (h : TopFoot m top foot)
    (heq : m.segmentHolding top' = m.segmentHolding top) : TopFoot m top' foot where
  pinuse := h.pinuse
  segment := by rw [heq]; exact h.segment

/-! ## The parts of a layout -/

namespace Chunk

theorem congr (h : Chunk m b) (hhead : m'.head b.addr = m.head b.addr)
    (hsame : SameRoom m m') : Chunk m' b where
  room := h.room.congr hsame
  size_eq := by rw [chunksize, hhead]; exact h.size_eq
  cinuse := by rw [Cinuse, hhead]; exact h.cinuse
  flag4 := by rw [hhead]; exact h.flag4
  least := h.least

theorem ok (h : Chunk m b) : m.OkAddress b.addr := h.room.ok

theorem ne_zero (h : Chunk m b) : b.addr ≠ 0#32 := by
  have := h.room.pos
  rw [ne_eq, ← BitVec.toNat_inj]
  exact this.ne'

theorem size_mod (h : Chunk m b) : b.size.toNat % 8 = 0 := by
  have hlo := h.room.aligned_lo
  have hhi := h.room.aligned_hi
  unfold Block.start at hlo
  unfold Block.stop at hhi
  omega

end Chunk

namespace BlockAt

theorem of_used (hroom : Room m a.toNat (a.toNat + s.toNat))
    (hhead : (m.head a).toNat = s.toNat + 3) (hleast : 16 ≤ s.toNat) :
    BlockAt m ⟨a, s, .used⟩ := by
  have hlo := hroom.aligned_lo
  have hhi := hroom.aligned_hi
  refine ⟨by simp only; omega,
    fun _ => ⟨hroom, BitVec.eq_of_toNat_eq ?_, ?_, by simp only; omega, fun _ => hleast⟩⟩
  · change (m.chunksize a).toNat = s.toNat
    rw [toNat_chunksize]
    omega
  · rw [cinuse_iff]
    simp only [iff_true]
    omega

theorem of_unused {kind : BlockKind} (hroom : Room m a.toNat (a.toNat + s.toNat))
    (hhead : (m.head a).toNat = s.toNat + 1) (hkind : kind ≠ .used)
    (hleast : kind ≠ .top → 16 ≤ s.toNat) : BlockAt m ⟨a, s, kind⟩ := by
  have hlo := hroom.aligned_lo
  have hhi := hroom.aligned_hi
  have hlt := hroom.lt
  refine ⟨by simp only; omega,
    fun _ => ⟨hroom, BitVec.eq_of_toNat_eq ?_, ?_, by simp only; omega, hleast⟩⟩
  · change (m.chunksize a).toNat = s.toNat
    rw [toNat_chunksize]
    omega
  · rw [cinuse_iff]
    simp only [hkind, iff_false]
    omega

end BlockAt

namespace Borders

theorem addr_eq (h : Borders m b c) : c.addr = b.addr + b.size := by
  have habut := h.abut
  have := c.addr.isLt
  unfold Block.start Block.stop at habut
  apply BitVec.eq_of_toNat_eq
  rw [BitVec.toNat_add]
  omega

theorem before (h : Borders m b c) (hc : c.kind = .free ∨ c.kind = .top) :
    b.kind = .used ∨ b.kind = .other := by
  cases hb : b.kind with
  | used => exact Or.inl rfl
  | other => exact Or.inr rfl
  | free => rcases h.after_free hb with h1 | h1 <;> simp [h1] at hc
  | top => simp [h.after_top hb] at hc

theorem of_inuse (hb : b.kind = .used ∨ b.kind = .other) (habut : c.start = b.stop)
    (hpinuse : m.Pinuse c.addr) (hfence : c.kind = .other → m.Cinuse c.addr) : Borders m b c where
  abut := habut
  pinuse _ := by
    refine ⟨fun _ => ?_, fun _ => hpinuse⟩
    rcases hb with hb | hb <;> simp [hb]
  foot h := by simp [h] at hb
  after_free h := by simp [h] at hb
  after_top h := by simp [h] at hb
  top_foot h := by simp [h] at hb
  fence hc _ := hfence hc

theorem of_free (hb : b.kind = .free) (habut : c.start = b.stop) (hpinuse : ¬ m.Pinuse c.addr)
    (hfoot : m.prevFoot c.addr = b.size) (hc : c.kind = .used ∨ c.kind = .other)
    (hfence : c.kind = .other → m.Cinuse c.addr) : Borders m b c where
  abut := habut
  pinuse _ := ⟨fun h => absurd h hpinuse, fun h => absurd hb h⟩
  foot _ := hfoot
  after_free _ := hc
  after_top h := by simp [h] at hb
  top_foot h := by simp [h] at hb
  fence hc _ := hfence hc

theorem of_top (hb : b.kind = .top) (habut : c.start = b.stop) (hc : c.kind = .other)
    (hfoot : TopFoot m b.addr c.addr) : Borders m b c where
  abut := habut
  pinuse h := absurd hb h
  foot h := by simp [h] at hb
  after_free h := by simp [h] at hb
  after_top _ := hc
  top_foot _ := hfoot
  fence _ h := absurd hb h

end Borders

namespace Layout

theorem tiling (h : Layout m bs) : Tiling Block.start Block.stop bs where
  abut := h.borders.imp fun _ _ hb => hb.abut
  pos {b} hb := by
    have := (h.each hb).pos
    unfold Block.start Block.stop
    omega

theorem chunk (h : Layout m bs) (hb : b ∈ bs) (hkind : b.kind ≠ .other) : Chunk m b :=
  (h.each hb).chunk hkind

theorem eq_of_addr (h : Layout m bs) (hb : b ∈ bs) (hc : c ∈ bs) (haddr : b.addr = c.addr) :
    b = c :=
  h.tiling.eq_of_lo hb hc (congrArg BitVec.toNat haddr)

theorem neighbours (h : Layout m bs) (hb : b ∈ bs) (hkind : b.kind ≠ .other) :
    ∃ l x y r, bs = l ++ x :: b :: y :: r :=
  exists_neighbours h.first h.last hb hkind

theorem borders_pair (h : Layout m (l ++ b :: c :: r)) : Borders m b c :=
  (List.isChain_append_cons_cons.mp h.borders).2.1

theorem congr (h : Layout m bs) (hhead : m'.head = m.head) (hfoot : m'.prevFoot = m.prevFoot)
    (hsame : SameRoom m m') : Layout m' bs where
  each hb := ⟨(h.each hb).pos,
    fun hkind => (h.chunk hb hkind).congr (by rw [hhead]) hsame⟩
  borders := h.borders.imp fun b c hb =>
    { abut := hb.abut
      pinuse := by rw [Pinuse, hhead]; exact hb.pinuse
      foot := by rw [hfoot]; exact hb.foot
      after_free := hb.after_free
      after_top := hb.after_top
      top_foot := fun hkind => (hb.top_foot hkind).congr (by rw [hhead]) hsame.segments
      fence := by rw [Cinuse, hhead]; exact hb.fence }
  first := h.first
  last := h.last

/-- What is between `x` and `y` is exchanged. The head of `y` may tell something else about
the block before it, and no word is written outside. -/
theorem splice (h : Layout m (l ++ x :: (p ++ y :: r))) (hsame : SameRoom m m')
    (hframe : ∀ a, a.toNat < x.stop ∨ y.start < a.toNat →
      m'.head a = m.head a ∧ m'.prevFoot a = m.prevFoot a)
    (hy : (m'.head y.addr).toNat / 2 = (m.head y.addr).toNat / 2)
    (heach : ∀ b ∈ q, BlockAt m' b)
    (hborders : (x :: (q ++ [y])).IsChain (Borders m')) :
    Layout m' (l ++ x :: (q ++ y :: r)) := by
  have hx := h.tiling.pos (a := x) (by simp)
  have hbefore : ∀ b ∈ l ++ [x], b.start < x.stop := by
    intro b hb
    rcases List.mem_append.mp hb with hb | hb
    · have := h.tiling.le_of_before hb
      have := h.tiling.pos (a := b) (by simp [hb])
      omega
    · rw [List.mem_singleton.mp hb]
      exact hx
  have hafter : ∀ b ∈ r, y.start < b.start := by
    intro b hb
    have htiling := h.tiling
    rw [← List.cons_append, ← List.append_assoc] at htiling
    have := htiling.le_of_after hb
    have := htiling.pos (a := y) (by simp)
    omega
  have hframe' : ∀ b, b ∈ l ++ [x] ∨ b ∈ r →
      m'.head b.addr = m.head b.addr ∧ m'.prevFoot b.addr = m.prevFoot b.addr := fun b hb =>
    hframe b.addr (hb.imp (hbefore b) (hafter b))
  have hborder : ∀ b c, c ∈ l ++ [x] ∨ c ∈ r → Borders m b c → Borders m' b c := by
    intro b c hc hbc
    obtain ⟨hhead, hfoot⟩ := hframe' c hc
    exact
    { abut := hbc.abut
      pinuse := by rw [Pinuse, hhead]; exact hbc.pinuse
      foot := by rw [hfoot]; exact hbc.foot
      after_free := hbc.after_free
      after_top := hbc.after_top
      top_foot := fun hkind => (hbc.top_foot hkind).congr hhead hsame.segments
      fence := by rw [Cinuse, hhead]; exact hbc.fence }
  refine ⟨fun {b} hb => ?_, isChain_splice h.borders (fun b c hc => hborder b c (Or.inl hc))
    hborders fun b c hc => hborder b c (Or.inr hc), ?_, ?_⟩
  · have hcases : b ∈ q ∨ b = y ∨ b ∈ l ++ [x] ∨ b ∈ r := by
      simp only [List.mem_append, List.mem_cons] at hb ⊢
      tauto
    rcases hcases with hb | rfl | hb
    · exact heach b hb
    · have hold : b ∈ l ++ x :: (p ++ b :: r) := by simp
      refine ⟨(h.each hold).pos, fun hkind => ?_⟩
      have hc := h.chunk hold hkind
      have hflag4 := hc.flag4
      refine ⟨hc.room.congr hsame, ?_, ?_, by omega, hc.least⟩
      · rw [← hc.size_eq, ← BitVec.toNat_inj, toNat_chunksize, toNat_chunksize]
        omega
      · rw [← hc.cinuse, cinuse_iff, cinuse_iff, hy]
    · have hold : b ∈ l ++ x :: (p ++ y :: r) := by
        simp only [List.mem_append, List.mem_cons] at hb ⊢
        tauto
      exact ⟨(h.each hold).pos, fun hkind =>
        (h.chunk hold hkind).congr (hframe' b hb).1 hsame⟩
  · cases l with
    | nil => exact h.first
    | cons => exact h.first
  · intro b hb
    refine h.last b ?_
    rw [← List.cons_append, ← List.append_assoc, List.getLast?_append_cons] at hb ⊢
    exact hb

/-! ## Blocks become others -/

theorem borders_next (h : Layout m (l ++ x :: b :: y :: r)) : Borders m b y := by
  rw [← List.singleton_append, ← List.append_assoc] at h
  exact h.borders_pair

/-- A free chunk is used as a whole. -/
theorem use (h : Layout m (l ++ x :: ⟨a, s, .free⟩ :: y :: r)) :
    Layout (m.setInuseAndPinuse a s) (l ++ x :: ⟨a, s, .used⟩ :: y :: r) := by
  have hxb := h.borders_pair
  have hby := h.borders_next
  have hc : Chunk m ⟨a, s, .free⟩ := h.chunk (by simp) (by simp)
  have hroom : Room m a.toNat (a.toNat + s.toNat) := hc.room
  have hlt := hroom.lt
  have hxa : a.toNat = x.stop := hxb.abut
  have hya : y.start = a.toNat + s.toNat := hby.abut
  have hyaddr : y.addr = a + s := hby.addr_eq
  unfold Block.start at hya
  have hne : a ≠ y.addr := by
    rintro rfl
    omega
  have hs : s ≠ 0#32 := by
    rintro rfl
    exact hne (by simpa using hyaddr.symm)
  have hheadA : ((m.setInuseAndPinuse a s).head a).toNat = s.toNat + 3 := by
    rw [head_setInuseAndPinuse hs, ← hyaddr, if_neg hne, if_pos rfl, toNat_inuse_head hc.size_mod]
  have hheadY : ((m.setInuseAndPinuse a s).head y.addr).toNat =
      (m.head y.addr).toNat / 2 * 2 + 1 := by
    rw [head_setInuseAndPinuse hs, ← hyaddr, if_pos rfl, toNat_or_one]
  refine h.splice (p := [⟨a, s, .free⟩]) (q := [⟨a, s, .used⟩]) ⟨rfl, rfl, rfl⟩ ?_ (by omega)
    ?_ ?_
  · intro b hb
    unfold Block.start at hb
    rw [head_setInuseAndPinuse hs, ← hyaddr, if_neg ?_, if_neg ?_]
    · exact ⟨rfl, rfl⟩
    · rintro rfl
      omega
    · rintro rfl
      omega
  · intro b hb
    obtain rfl := List.mem_singleton.mp hb
    exact .of_used (hroom.congr ⟨rfl, rfl, rfl⟩) hheadA (hc.least (by simp))
  · simp only [List.cons_append, List.nil_append, List.isChain_cons_cons, List.isChain_singleton,
      and_true]
    refine ⟨.of_inuse (hxb.before (Or.inl rfl)) hxb.abut ?_ (by simp),
      .of_inuse (Or.inl rfl) hby.abut ?_ fun hkind => ?_⟩
    · have := hc.size_mod
      rw [pinuse_iff, hheadA]
      simp only at this
      omega
    · rw [pinuse_iff, hheadY]
      omega
    · have := hby.fence hkind (by simp)
      rw [cinuse_iff] at this ⊢
      omega

/-- A free chunk or `top` is split: the lower part is used. -/
theorem split {kind : BlockKind} {rs : Word} (h : Layout m (l ++ x :: ⟨a, s, kind⟩ :: y :: r))
    (hkind : kind = .free ∨ kind = .top) (hnb8 : nb.toNat % 8 = 0) (hnb : 16 ≤ nb.toNat)
    (hpos : 0 < rs.toNat) (hrs : kind ≠ .top → 16 ≤ rs.toNat)
    (hs : nb.toNat + rs.toNat = s.toNat) (hsame : SameRoom m m')
    (hhead : ∀ b, m'.head b =
      if b = a then nb ||| 1#32 ||| 2#32 else if b = a + nb then rs ||| 1#32 else m.head b)
    (hfoot : ∀ b, b ≠ a + nb + rs → m'.prevFoot b = m.prevFoot b)
    (hfootY : kind = .free → m'.prevFoot (a + nb + rs) = rs) :
    Layout m' (l ++ x :: ⟨a, nb, .used⟩ :: ⟨a + nb, rs, kind⟩ :: y :: r) := by
  have hxb := h.borders_pair
  have hby := h.borders_next
  have hc : Chunk m ⟨a, s, kind⟩ := h.chunk (by simp) (by rcases hkind with rfl | rfl <;> simp)
  have hroom : Room m' a.toNat (a.toNat + s.toNat) := hc.room.congr hsame
  have hs8 : s.toNat % 8 = 0 := hc.size_mod
  have hlo8 := hroom.aligned_lo
  have hfits := hroom.fits
  have hxa : a.toNat = x.stop := hxb.abut
  have hya : y.addr.toNat = a.toNat + s.toNat := hby.abut
  have hylt := y.addr.isLt
  have haddr : (a + nb).toNat = a.toNat + nb.toNat := BitVec.toNat_add_of_lt (by omega)
  have hyaddr : y.addr = a + nb + rs := BitVec.eq_of_toNat_eq (by
    rw [BitVec.toNat_add_of_lt (by omega)]
    omega)
  have hne : a + nb ≠ a := fun heq => by
    rw [heq] at haddr
    omega
  have hneA : y.addr ≠ a := by
    rintro rfl
    omega
  have hneR : y.addr ≠ a + nb := fun heq => by
    rw [heq] at hya
    omega
  have hheadA : (m'.head a).toNat = nb.toNat + 3 := by
    rw [hhead, if_pos rfl, toNat_inuse_head hnb8]
  have hheadR : (m'.head (a + nb)).toNat = rs.toNat + 1 := by
    rw [hhead, if_neg hne, if_pos rfl, toNat_free_head (by omega)]
  have hheadY : m'.head y.addr = m.head y.addr := by
    rw [hhead, if_neg hneA, if_neg hneR]
  refine h.splice (p := [⟨a, s, kind⟩]) (q := [⟨a, nb, .used⟩, ⟨a + nb, rs, kind⟩]) hsame ?_
    (by rw [hheadY]) ?_ ?_
  · intro b hb
    unfold Block.start at hb
    rw [hhead, hfoot, if_neg ?_, if_neg ?_]
    · exact ⟨rfl, rfl⟩
    · rintro rfl
      omega
    · rintro rfl
      omega
    · rw [← hyaddr]
      rintro rfl
      omega
  · intro b hb
    rcases List.mem_cons.mp hb with rfl | hb
    · refine .of_used (hroom.sub ?_ ?_ ?_ ?_ ?_) hheadA hnb <;> omega
    · obtain rfl := List.mem_singleton.mp hb
      refine .of_unused (hroom.sub ?_ ?_ ?_ ?_ ?_) hheadR ?_ hrs <;>
        first | omega | (rcases hkind with rfl | rfl <;> simp)
  · simp only [List.cons_append, List.nil_append, List.isChain_cons_cons, List.isChain_singleton,
      and_true]
    have hother : kind ≠ .other := by rcases hkind with rfl | rfl <;> simp
    refine ⟨.of_inuse (hxb.before hkind) hxb.abut ?_ (by simp),
      .of_inuse (Or.inl rfl) haddr ?_ (fun h => absurd h hother), ?_⟩
    · rw [pinuse_iff, hheadA]
      omega
    · rw [pinuse_iff, hheadR]
      omega
    · exact
      { abut := by
          simp only [Block.start, Block.stop, haddr]
          omega
        pinuse := by rw [Pinuse, hheadY]; exact hby.pinuse
        foot := fun hfree => by rw [hyaddr]; exact hfootY hfree
        after_free := hby.after_free
        after_top := hby.after_top
        top_foot := fun htop => by
          refine ((hby.top_foot htop).congr hheadY hsame.segments).moved ?_
          refine hroom.segmentHolding_eq ?_ ?_ ?_ ?_ <;> simp only [haddr] <;> omega
        fence := by rw [Cinuse, hheadY]; exact hby.fence }

/-- Blocks become one free chunk. -/
theorem merge (h : Layout m (l ++ x :: (p ++ y :: r))) (hx : x.kind = .used ∨ x.kind = .other)
    (hy : y.kind = .used ∨ y.kind = .other) (hfence : y.kind = .other → m.Cinuse y.addr)
    (hroom : Room m a.toNat (a.toNat + s.toNat)) (hxa : a.toNat = x.stop)
    (hya : y.start = a.toNat + s.toNat) (hs : 16 ≤ s.toNat) (hsame : SameRoom m m')
    (hhead : ∀ b, m'.head b =
      if b = a then s ||| 1#32 else if b = y.addr then m.head b &&& ~~~1#32 else m.head b)
    (hfoot : ∀ b, m'.prevFoot b = if b = y.addr then s else m.prevFoot b) :
    Layout m' (l ++ x :: ⟨a, s, .free⟩ :: y :: r) := by
  have hroom' := hroom.congr hsame
  have hlo8 := hroom.aligned_lo
  have hhi8 := hroom.aligned_hi
  unfold Block.start at hya
  have hne : y.addr ≠ a := by
    rintro rfl
    omega
  have hheadA : (m'.head a).toNat = s.toNat + 1 := by
    rw [hhead, if_pos rfl, toNat_free_head (by omega)]
  have hheadY : (m'.head y.addr).toNat = (m.head y.addr).toNat / 2 * 2 := by
    rw [hhead, if_neg hne, if_pos rfl, toNat_and_not_one]
  refine h.splice (q := [⟨a, s, .free⟩]) hsame ?_ (by omega) ?_ ?_
  · intro b hb
    unfold Block.start at hb
    rw [hhead, hfoot, if_neg ?_, if_neg ?_, if_neg ?_]
    · exact ⟨rfl, rfl⟩
    · rintro rfl
      omega
    · rintro rfl
      omega
    · rintro rfl
      omega
  · intro b hb
    obtain rfl := List.mem_singleton.mp hb
    exact .of_unused hroom' hheadA (by simp) fun _ => hs
  · simp only [List.cons_append, List.nil_append, List.isChain_cons_cons, List.isChain_singleton,
      and_true]
    refine ⟨.of_inuse hx hxa ?_ (by simp), .of_free rfl hya ?_ ?_ hy fun hkind => ?_⟩
    · rw [pinuse_iff, hheadA]
      omega
    · rw [pinuse_iff, hheadY]
      omega
    · rw [hfoot, if_pos rfl]
    · have := hfence hkind
      rw [cinuse_iff] at this ⊢
      omega

theorem mergeTop (h : Layout m (l ++ x :: (p ++ y :: r)))
    (hx : x.kind = .used ∨ x.kind = .other) (hy : y.kind = .other)
    (hroom : Room m a.toNat (a.toNat + s.toNat)) (hxa : a.toNat = x.stop)
    (hya : y.start = a.toNat + s.toNat) (hfootY : TopFoot m a y.addr) (hsame : SameRoom m m')
    (hhead : ∀ b, m'.head b = if b = a then s ||| 1#32 else m.head b)
    (hfoot : m'.prevFoot = m.prevFoot) : Layout m' (l ++ x :: ⟨a, s, .top⟩ :: y :: r) := by
  have hroom' := hroom.congr hsame
  have hlo8 := hroom.aligned_lo
  have hhi8 := hroom.aligned_hi
  have hlt := hroom.lt
  unfold Block.start at hya
  have hne : y.addr ≠ a := by
    rintro rfl
    omega
  have hheadA : (m'.head a).toNat = s.toNat + 1 := by
    rw [hhead, if_pos rfl, toNat_free_head (by omega)]
  refine h.splice (q := [⟨a, s, .top⟩]) hsame ?_ (by rw [hhead, if_neg hne]) ?_ ?_
  · intro b hb
    unfold Block.start at hb
    rw [hhead, hfoot, if_neg ?_]
    · exact ⟨rfl, rfl⟩
    · rintro rfl
      omega
  · intro b hb
    obtain rfl := List.mem_singleton.mp hb
    exact .of_unused hroom' hheadA (by simp) (by simp)
  · simp only [List.cons_append, List.nil_append, List.isChain_cons_cons, List.isChain_singleton,
      and_true]
    refine ⟨.of_inuse hx hxa ?_ (by simp), .of_top rfl hya hy (hfootY.congr ?_ hsame.segments)⟩
    · rw [pinuse_iff, hheadA]
      omega
    · rw [hhead, if_neg hne]

end Layout

end LibSystem.Core
