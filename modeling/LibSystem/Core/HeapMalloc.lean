import LibSystem.Core.Heap

/-!
# `malloc` and the heap

Every way of `dlmalloc` gives out the lower part of a free chunk or of `top`,
or all of it, and keeps the heap.
-/

namespace LibSystem.Core

open Function MallocState

variable {m m' m1 : MallocState} {bs bs' l r rest : List Block} {x y b c u : Block} {a v : Addr}
  {s n nb rs : Word} {B : Set Addr} {A : Addr → Prop} {fuel : Nat} {kind : BlockKind}

/-- The chunk `u` is new, and all others that were in use still are. It was the lower part of
`f`. -/
structure GivesOut (bs bs' : List Block) (f u : Block) : Prop where
  used (b : Block) : b ∈ bs' ∧ b.kind = .used ↔ b ∈ bs ∧ b.kind = .used ∨ b = u
  mem : f ∈ bs
  kind : f.kind = .free ∨ f.kind = .top
  addr : u.addr = f.addr
  size : u.size.toNat ≤ f.size.toNat

/-- The result of an allocation of `nb` bytes from the block `f`. -/
def Mallocs (m : MallocState) (bs : List Block) (nb : Word) (f : Block)
    (out : MallocState × Addr) : Prop :=
  ∃ bs' u, Heap out.1 bs' ∧ GivesOut bs bs' f u ∧ out.2 = chunk2mem u.addr ∧
    nb.toNat ≤ u.size.toNat ∧ u.size.toNat < nb.toNat + 16 ∧ out.1.aborts = m.aborts

theorem GivesOut.whole (hkind : kind = .free ∨ kind = .top) :
    GivesOut (l ++ x :: ⟨a, s, kind⟩ :: y :: r) (l ++ x :: ⟨a, s, .used⟩ :: y :: r)
      ⟨a, s, kind⟩ ⟨a, s, .used⟩ where
  used b := by
    have hne : kind ≠ .used := by rcases hkind with rfl | rfl <;> simp
    simp only [List.mem_append, List.mem_cons]
    grind
  mem := by simp
  kind := hkind
  addr := rfl
  size := Nat.le_refl _

theorem GivesOut.lower (hkind : kind = .free ∨ kind = .top) (hle : n.toNat ≤ s.toNat) :
    GivesOut (l ++ x :: ⟨a, s, kind⟩ :: y :: r)
      (l ++ x :: ⟨a, n, .used⟩ :: ⟨a + n, rs, kind⟩ :: y :: r) ⟨a, s, kind⟩ ⟨a, n, .used⟩ where
  used b := by
    have hne : kind ≠ .used := by rcases hkind with rfl | rfl <;> simp
    simp only [List.mem_append, List.mem_cons]
    grind
  mem := by simp
  kind := hkind
  addr := rfl
  size := hle

theorem Mallocs.checked {f : Block} {mem : Addr} (h : Mallocs m bs nb f (m', mem))
    (hnb : nb.toNat + 16 < 2 ^ 32) : m'.checkMallocedChunk mem nb = m' := by
  obtain ⟨bs', u, hheap, hout, rfl, hle, hlt, -⟩ := h
  obtain ⟨hu, hkind⟩ := (hout.used u).mpr (Or.inr rfl)
  exact hheap.layout.checkMallocedChunk_eq hu hkind hle hlt hnb

/-! ## From `dv` and from `top` -/

theorem mallocDv_spec (h : Heap m bs) (hnb8 : nb.toNat % 8 = 0) (hnb : 16 ≤ nb.toNat)
    (hmax : nb.toNat + 16 < 2 ^ 32) (hle : nb ≤ m.dvsize) :
    Mallocs m bs nb ⟨m.dv, m.dvsize, .free⟩ (mallocDv m nb) := by
  have hle' : nb.toNat ≤ m.dvsize.toNat := hle
  obtain ⟨⟨a, s, kind⟩, hb, hkind, haddr, hsize⟩ :=
    h.dv.resolve_left fun hno => by
      rw [hno.1] at hle'
      simp at hle'
      omega
  obtain rfl : kind = .free := hkind
  obtain rfl : a = m.dv := haddr
  obtain rfl : s = m.dvsize := hsize
  have hc := h.layout.chunk hb (by simp)
  have hs8 : m.dvsize.toNat % 8 = 0 := hc.size_mod
  have hfits : m.dv.toNat + m.dvsize.toNat ≤ 2 ^ 32 := hc.room.fits
  obtain ⟨l, x, y, r, rfl⟩ := h.layout.neighbours hb (by simp)
  have hnot := h.layout.not_mem_rest (p := [⟨m.dv, m.dvsize, .free⟩]) (List.mem_singleton_self _)
  have hbins := h.bins
  rw [freeAddrs_insert rfl, Set.insert_sdiff_self_of_notMem hnot] at hbins
  have hrs : (m.dvsize - nb).toNat = m.dvsize.toNat - nb.toNat := BitVec.toNat_sub_of_le hle
  rw [mallocDv]
  by_cases h16 : 16#32 ≤ m.dvsize - nb
  · have h16' : 16 ≤ (m.dvsize - nb).toNat := h16
    rw [if_pos h16]
    generalize hm' : MallocState.setSizeAndPinuseOfInuseChunk _ _ _ = m'
    have hlayout : Layout m' (l ++ x :: ⟨m.dv, nb, .used⟩ ::
        ⟨m.dv + nb, m.dvsize - nb, .free⟩ :: y :: r) := by
      subst hm'
      refine h.layout.split (Or.inl rfl) hnb8 hnb (by omega) (fun _ => h16') (by omega)
        ⟨rfl, rfl, rfl⟩ (fun b => ?_) (fun b hb => ?_) fun _ => ?_
      · rw [head_setSizeAndPinuseOfInuseChunk, head_setSizeAndPinuseOfFreeChunk]
      · exact (prevFoot_setSizeAndPinuseOfFreeChunk).trans (if_neg hb)
      · exact (prevFoot_setSizeAndPinuseOfFreeChunk).trans (if_pos rfl)
    have hnot' := hlayout.not_mem_rest (b := ⟨m.dv + nb, m.dvsize - nb, .free⟩)
      (p := [⟨m.dv, nb, .used⟩, ⟨m.dv + nb, m.dvsize - nb, .free⟩]) (by simp)
    have hheap : Mallocs m (l ++ x :: ⟨m.dv, m.dvsize, .free⟩ :: y :: r) nb
        ⟨m.dv, m.dvsize, .free⟩ (m', chunk2mem m.dv) := by
      refine ⟨_, ⟨m.dv, nb, .used⟩, ⟨hlayout, ?_, ?_, ?_⟩, .lower (Or.inl rfl) hle', rfl,
        Nat.le_refl _, by simp only; omega, by subst hm'; rfl⟩
      · subst hm'
        exact h.top.splice (p := [⟨m.dv, m.dvsize, .free⟩])
          (q := [⟨m.dv, nb, .used⟩, ⟨m.dv + nb, m.dvsize - nb, .free⟩]) rfl rfl (by simp)
          (by simp)
      · subst hm'
        exact Or.inr ⟨⟨m.dv + nb, m.dvsize - nb, .free⟩, by simp, rfl, rfl, rfl⟩
      · rw [freeAddrs_skip (by simp), freeAddrs_insert rfl,
          show m'.dv = m.dv + nb by subst hm'; rfl, Set.insert_sdiff_self_of_notMem hnot']
        subst hm'
        refine hbins.of_heads rfl fun a ha => ?_
        have hadv : a ≠ m.dv := by
          rintro rfl
          exact hnot ha
        have har : a ≠ m.dv + nb := by
          rintro rfl
          exact hnot' ha
        rw [head_setSizeAndPinuseOfInuseChunk, if_neg hadv, head_setSizeAndPinuseOfFreeChunk,
          if_neg har]
    have hcheck := hheap.checked hmax
    rwa [hcheck]
  · have h16' : (m.dvsize - nb).toNat < 16 := Nat.lt_of_not_le h16
    rw [if_neg h16]
    generalize hm' : MallocState.setInuseAndPinuse _ _ _ = m'
    have hs : m.dvsize ≠ 0#32 := by
      intro h0
      rw [h0] at hle'
      simp at hle'
      omega
    have hheap : Mallocs m (l ++ x :: ⟨m.dv, m.dvsize, .free⟩ :: y :: r) nb
        ⟨m.dv, m.dvsize, .free⟩ (m', chunk2mem m.dv) := by
      have hold : Layout { m with dvsize := 0#32, dv := 0#32 } _ :=
        h.layout.congr rfl rfl ⟨rfl, rfl, rfl⟩
      subst hm'
      refine ⟨_, ⟨m.dv, m.dvsize, .used⟩, ⟨hold.use, ?_, Or.inl ⟨rfl, rfl⟩, ?_⟩,
        .whole (Or.inl rfl), rfl, hle', by simp only; omega, rfl⟩
      · exact h.top.splice (p := [⟨m.dv, m.dvsize, .free⟩])
          (q := [⟨m.dv, m.dvsize, .used⟩]) rfl rfl (by simp) (by simp)
      · have hzero : (0#32 : Addr) ∉ freeAddrs (l ++ x :: y :: r) := fun hmem =>
          h.layout.zero_not_mem (by
            rw [freeAddrs_insert rfl]
            exact Set.mem_insert_of_mem _ hmem)
        rw [freeAddrs_skip (by simp)]
        change BinsHold _ (_ \ {0#32})
        rw [Set.sdiff_singleton_eq_self hzero]
        refine hbins.of_heads rfl fun a ha => ?_
        have hadv : a ≠ m.dv := by
          rintro rfl
          exact hnot ha
        rw [head_setInuseAndPinuse hs, if_neg hadv]
        split
        · change (m.head a ||| 1#32).toNat / 8 = _
          rw [toNat_or_one]
          omega
        · rfl
    have hcheck := hheap.checked hmax
    rwa [hcheck]

theorem top_ne_dv (h : Heap m bs) : m.top ≠ m.dv := by
  obtain ⟨T, hT, hTkind, hTaddr, -⟩ := h.top.mem
  rcases h.dv with ⟨-, h0⟩ | ⟨b, hb, hbkind, hbaddr, -⟩
  · rw [h0, ← hTaddr]
    exact (h.layout.chunk hT (by simp [hTkind])).ne_zero
  · intro heq
    obtain rfl := h.layout.eq_of_addr hT hb (by rw [hTaddr, hbaddr, heq])
    simp [hTkind] at hbkind

theorem mallocTop_spec (h : Heap m bs) (hnb8 : nb.toNat % 8 = 0) (hnb : 16 ≤ nb.toNat)
    (hmax : nb.toNat + 16 < 2 ^ 32) (hlt : nb < m.topsize) :
    ∃ out, mallocTop m nb = .done out ∧ Mallocs m bs nb ⟨m.top, m.topsize, .top⟩ out := by
  have hlt' : nb.toNat < m.topsize.toNat := hlt
  obtain ⟨⟨a, s, kind⟩, hb, hkind, haddr, hsize⟩ := h.top.mem
  obtain rfl : kind = .top := hkind
  obtain rfl : a = m.top := haddr
  obtain rfl : s = m.topsize := hsize
  have hc := h.layout.chunk hb (by simp)
  obtain ⟨l, x, y, r, rfl⟩ := h.layout.neighbours hb (by simp)
  have hrs : (m.topsize - nb).toNat = m.topsize.toNat - nb.toNat :=
    BitVec.toNat_sub_of_le hlt'.le
  rw [mallocTop]
  generalize hm' : MallocState.setSizeAndPinuseOfInuseChunk _ _ _ = m'
  have hlayout : Layout m' (l ++ x :: ⟨m.top, nb, .used⟩ ::
      ⟨m.top + nb, m.topsize - nb, .top⟩ :: y :: r) := by
    subst hm'
    refine h.layout.split (Or.inr rfl) hnb8 hnb (by omega) (by simp) (by omega) ⟨rfl, rfl, rfl⟩
      (fun b => ?_) (fun b hb => rfl) (by simp)
    rw [head_setSizeAndPinuseOfInuseChunk]
    exact congrArg _ (update_apply _ _ _ _)
  have hheap : Mallocs m (l ++ x :: ⟨m.top, m.topsize, .top⟩ :: y :: r) nb
      ⟨m.top, m.topsize, .top⟩ (m', chunk2mem m.top) := by
    refine ⟨_, ⟨m.top, nb, .used⟩, ⟨hlayout, ⟨?_, fun {b} hb hb' => ?_⟩, ?_, ?_⟩,
      .lower (Or.inr rfl) hlt'.le, rfl, Nat.le_refl _, by simp only; omega, by subst hm'; rfl⟩
    · subst hm'
      exact ⟨⟨m.top + nb, m.topsize - nb, .top⟩, by simp, rfl, rfl, rfl⟩
    · subst hm'
      -- No chunk outside is a `top`, and what has been cut off is in use.
      by_cases hrest : b ∈ l ++ x :: y :: r
      · refine absurd (h.top.unique ?_ hb') (h.layout.addr_ne
          (p := [⟨m.top, m.topsize, .top⟩]) (List.mem_singleton_self _) hrest)
        simp only [List.mem_append, List.mem_cons] at hrest ⊢
        tauto
      · have hcases : b = ⟨m.top, nb, .used⟩ ∨ b = ⟨m.top + nb, m.topsize - nb, .top⟩ := by
          simp only [List.mem_append, List.mem_cons] at hb hrest
          tauto
        rcases hcases with rfl | rfl
        · simp at hb'
        · rfl
    · subst hm'
      exact h.dv.splice (p := [⟨m.top, m.topsize, .top⟩])
        (q := [⟨m.top, nb, .used⟩, ⟨m.top + nb, m.topsize - nb, .top⟩]) rfl rfl
        (by simpa using top_ne_dv h)
    · -- Neither of the two heads that are written is that of a chunk in a bin.
      have hne := h.layout.not_mem_rest (p := [⟨m.top, m.topsize, .top⟩])
        (List.mem_singleton_self _)
      have hne' := hlayout.not_mem_rest (b := ⟨m.top + nb, m.topsize - nb, .top⟩)
        (p := [⟨m.top, nb, .used⟩, ⟨m.top + nb, m.topsize - nb, .top⟩]) (by simp)
      have hbins := h.bins
      rw [freeAddrs_skip (by simp)] at hbins
      rw [freeAddrs_skip (by simp), freeAddrs_skip (by simp)]
      subst hm'
      refine hbins.of_heads rfl fun a ha => ?_
      have hat : a ≠ m.top := by
        rintro rfl
        exact hne ha.1
      have har : a ≠ m.top + nb := by
        rintro rfl
        exact hne' ha.1
      rw [head_setSizeAndPinuseOfInuseChunk, if_neg hat]
      exact congrArg (fun w : Word => w.toNat / 8) (update_of_ne har _ _)
  have htop : m'.checkTopChunk m'.top = .done m' := by
    rw [show m'.top = m.top + nb by subst hm'; rfl]
    exact hlayout.checkTopChunk_eq (b := ⟨m.top + nb, m.topsize - nb, .top⟩) (by simp) rfl
      (by subst hm'; rfl)
  refine ⟨_, ?_, hheap⟩
  rw [htop, Outcome.done_bind, hheap.checked hmax]

/-! ## From a small bin -/

theorem Heap.binned (h : Heap m bs) {p : Addr} (hp : p ∈ freeAddrs bs \ {m.dv}) :
    ∃ l x y r, bs = l ++ x :: ⟨p, m.chunksize p, .free⟩ :: y :: r := by
  obtain ⟨⟨⟨a, s, kind⟩, hb, hkind, haddr⟩, -⟩ := hp
  obtain rfl : kind = .free := hkind
  obtain rfl : a = p := haddr
  obtain rfl : m.chunksize a = s := (h.layout.chunk hb (by simp)).size_eq
  exact h.layout.neighbours hb (by simp)

theorem unlinkFirstSmallChunk_eq {l : Word → List Addr} {i : Word} (hs : SmallBins m l)
    (hne : l i ≠ []) :
    unlinkFirstSmallChunk m (m.smallbinAt i) (m.fd (m.smallbinAt i)) i =
      unlinkSmallChunk m (m.fd (m.smallbinAt i)) (m.chunksize (m.fd (m.smallbinAt i))) := by
  have hP := hs.fd_header hne
  have hbk : m.bk (m.fd (m.smallbinAt i)) = m.smallbinAt i :=
    ((hs.ring hne).fd_spec List.mem_cons_self).2
  generalize m.fd (m.smallbinAt i) = P at hP hbk ⊢
  have hring := hs.ring hne
  have hPr : P ∈ m.smallbinAt i :: l i := List.mem_cons_of_mem _ hP
  obtain ⟨hfd, hbkfd⟩ := hring.fd_spec hPr
  obtain ⟨hPB, hPF, hsize⟩ := hs.apart_spec hP
  rw [hbk] at hPB
  have hF : m.fd P = m.smallbinAt i ∨ m.OkAddress (m.fd P) ∧ m.bk (m.fd P) = P :=
    (List.mem_cons.mp hfd).imp_right fun hmem => ⟨hs.ok hmem, hbkfd⟩
  rw [unlinkFirstSmallChunk, unlinkSmallChunk, hs.index hP, hbk]
  simp only [m.assert_of hPB, m.assert_of hPF, m.assert_of hsize, if_pos hF, true_or, if_true]
  by_cases hBF : m.smallbinAt i = m.fd P
  · rw [if_pos hBF, if_pos hBF]
  · rw [if_neg hBF, if_neg hBF, if_pos (hF.resolve_left fun h => hBF h.symm)]

theorem BinsHold.takeFirst (h : BinsHold m B) {i : Word} (hi : i.toNat < 32)
    (hmark : m.smallmap.getLsbD i.toNat = true) :
    ∃ m1 A, unlinkFirstSmallChunk m (m.smallbinAt i) (m.fd (m.smallbinAt i)) i = m1 ∧
      m.fd (m.smallbinAt i) ∈ B ∧ m.chunksize (m.fd (m.smallbinAt i)) = i <<< 3 ∧
      BinsHold m1 (B \ {m.fd (m.smallbinAt i)}) ∧ Touches A m m1 := by
  obtain ⟨l, g, hb, hmem⟩ := h
  have hne : l i ≠ [] := (hb.small.marked hi).mp ((marked_iff hi).mpr hmark)
  have hP := hb.small.fd_header hne
  have hB := (hmem _).mpr (Or.inl ⟨i, hP⟩)
  obtain ⟨m1, hrun, hB1, htouch⟩ := unlinkChunk_spec ⟨l, g, hb, hmem⟩ hB (by decide : 32 < 33)
  rw [unlinkChunk, if_pos (hb.isSmall_of_mem hP), Outcome.done.injEq] at hrun
  exact ⟨m1, _, (unlinkFirstSmallChunk_eq hb.small hne).trans hrun, hB,
    (hb.small.apart_spec hP).2.2, hB1, htouch⟩

theorem mallocSmallbin_spec (h : Heap m bs) {i : Word} (hi : i.toNat < 32)
    (hmark : m.smallmap.getLsbD i.toNat = true) (hle : nb.toNat ≤ (i <<< 3).toNat)
    (hlt : (i <<< 3).toNat < nb.toNat + 16) (hmax : nb.toNat + 16 < 2 ^ 32) :
    Mallocs m bs nb ⟨m.fd (m.smallbinAt i), i <<< 3, .free⟩ (mallocSmallbin m i nb) := by
  obtain ⟨m1, A, hrun, hB, hsize, hB1, htouch⟩ := h.bins.takeFirst hi hmark
  obtain ⟨l, x, y, r, hbs⟩ := h.binned hB
  rw [hsize] at hbs
  subst hbs
  have hheap := h.use_binned hB.2 htouch hB1
  rw [mallocSmallbin]
  simp only [m.assert_of hsize, hrun]
  have hout : Mallocs m (l ++ x :: ⟨m.fd (m.smallbinAt i), i <<< 3, .free⟩ :: y :: r) nb
      ⟨m.fd (m.smallbinAt i), i <<< 3, .free⟩
      (m1.setInuseAndPinuse (m.fd (m.smallbinAt i)) (i <<< 3), chunk2mem (m.fd (m.smallbinAt i))) :=
    ⟨_, _, hheap, .whole (Or.inl rfl), rfl, hle, hlt, htouch.aborts⟩
  rwa [hout.checked hmax]

theorem mallocNextSmallbin_spec (h : Heap m bs) {i : Word} (hi : i.toNat < 32)
    (hmark : m.smallmap.getLsbD i.toNat = true) (hnb8 : nb.toNat % 8 = 0) (hnb : 16 ≤ nb.toNat)
    (hle : nb.toNat + 16 ≤ (i <<< 3).toNat) (hdv : m.dvsize.toNat < 256) :
    Mallocs m bs nb ⟨m.fd (m.smallbinAt i), i <<< 3, .free⟩ (mallocNextSmallbin m i nb) := by
  obtain ⟨m1, A, hrun, hB, hsize, hB1, htouch⟩ := h.bins.takeFirst hi hmark
  obtain ⟨l, x, y, r, hbs⟩ := h.binned hB
  rw [hsize] at hbs
  subst hbs
  have hrs : ((i <<< 3) - nb).toNat = (i <<< 3).toNat - nb.toNat :=
    BitVec.toNat_sub_of_le (show nb.toNat ≤ (i <<< 3).toNat by omega)
  rw [mallocNextSmallbin]
  simp only [m.assert_of hsize, hrun]
  generalize hm' : replaceDv _ _ _ = m'
  obtain ⟨hheap, haborts⟩ := h.split_to_dv hB.2 htouch hB1 hnb8 hnb (by omega) (by omega) hdv
    hm'.symm
  have hout : Mallocs m (l ++ x :: ⟨m.fd (m.smallbinAt i), i <<< 3, .free⟩ :: y :: r) nb
      ⟨m.fd (m.smallbinAt i), i <<< 3, .free⟩ (m', chunk2mem (m.fd (m.smallbinAt i))) :=
    ⟨_, _, hheap, .lower (Or.inl rfl) (by omega), rfl, Nat.le_refl _, by simp only; omega, haborts⟩
  rwa [hout.checked (by have := (i <<< 3).isLt; omega)]

/-! ## From a tree -/

theorem Layout.lt_add (h : Layout m (l ++ x :: ⟨a, s, kind⟩ :: y :: r)) (hpos : 0 < nb.toNat)
    (hle : nb.toNat ≤ s.toNat) : a < a + nb := by
  have habut : y.addr.toNat = a.toNat + s.toNat := h.borders_next.abut
  have := y.addr.isLt
  rw [BitVec.lt_def, BitVec.toNat_add_of_lt (by omega)]
  omega

namespace BinsHold

theorem marked_of_mem (h : BinsHold m B) (ha : a ∈ B) (hsmall : (m.chunksize a).toNat < 256) :
    m.smallmap.getLsbD ((m.chunksize a).toNat / 8) = true := by
  obtain ⟨l, g, hb, hmem⟩ := h
  rcases (hmem a).mp ha with ⟨i, hi⟩ | ⟨s, hs⟩
  · have hi32 := hb.small.small hi
    have hmark := (marked_iff hi32).mp
      ((hb.small.marked hi32).mpr (List.ne_nil_of_mem hi))
    rw [← hb.small.index hi, smallIndex, BitVec.toNat_ushiftRight,
      Nat.shiftRight_eq_div_pow] at hmark
    exact hmark
  · obtain ⟨rfl, hlarge⟩ := hb.size_of_has hs
    exact absurd (isSmall_iff.mpr hsmall) hlarge

theorem treemap_ne (h : BinsHold m B) (ha : a ∈ B) (hlarge : 256 ≤ (m.chunksize a).toNat) :
    m.treemap ≠ 0#32 := by
  obtain ⟨l, g, hb, hmem⟩ := h
  rcases (hmem a).mp ha with ⟨i, hi⟩ | ⟨s, ⟨i, p⟩, c, hP, -, -⟩
  · have := isSmall_iff.mp (hb.isSmall_of_mem hi)
    omega
  · have hbit := (hb.trees.treemap_iff (hb.trees.index_lt hP)).mpr (hb.trees.root_ne_none hP)
    intro h0
    simp [h0] at hbit

theorem has_of_mem {l : Word → List Addr} {g : Forest} (hb : Bins m l g)
    (hmem : ∀ a, a ∈ B ↔ (∃ i, a ∈ l i) ∨ ∃ s, g.Has a s) (ha : a ∈ B)
    (hlarge : 256 ≤ (m.chunksize a).toNat) : g.Has a (m.chunksize a) := by
  rcases (hmem a).mp ha with ⟨i, hi⟩ | ⟨s, hs⟩
  · have := isSmall_iff.mp (hb.isSmall_of_mem hi)
    omega
  · rw [(hb.size_of_has hs).1]
    exact hs

theorem bestFit {l : Word → List Addr} {g : Forest} (hb : Bins m l g)
    (hmem : ∀ a, a ∈ B ↔ (∃ i, a ∈ l i) ∨ ∃ s, g.Has a s) (h : BestFit g nb v rs) :
    v ∈ B ∧ 256 ≤ (m.chunksize v).toNat ∧ nb.toNat ≤ (m.chunksize v).toNat ∧
      rs = m.chunksize v - nb ∧ ∀ a ∈ B, 256 ≤ (m.chunksize a).toNat →
        nb.toNat ≤ (m.chunksize a).toNat → (m.chunksize v).toNat ≤ (m.chunksize a).toNat := by
  obtain ⟨s, hs, hle, hrs, hleast⟩ := h
  obtain ⟨hsize, hlarge⟩ := hb.size_of_has hs
  rw [isSmall_iff] at hlarge
  rw [hsize]
  exact ⟨(hmem v).mpr (Or.inr ⟨s, hs⟩), by omega, hle, hrs, fun a ha hla hfit =>
    hleast a _ (has_of_mem hb hmem ha hla) hfit⟩

theorem bestLarge_spec (h : BinsHold m B) (hlarge : 256 ≤ nb.toNat) (hfuel : 33 < fuel) :
    ∃ v rs, bestLarge fuel m nb = .done (v, rs) ∧
      (v = 0#32 ∧ (∀ a ∈ B, (m.chunksize a).toNat < nb.toNat) ∨
        v ≠ 0#32 ∧ v ∈ B ∧ 256 ≤ (m.chunksize v).toNat ∧ nb.toNat ≤ (m.chunksize v).toNat ∧
        rs = m.chunksize v - nb ∧ ∀ a ∈ B, nb.toNat ≤ (m.chunksize a).toNat →
          (m.chunksize v).toNat ≤ (m.chunksize a).toNat) := by
  obtain ⟨l, g, hb, hmem⟩ := h
  obtain ⟨v, rs, hrun, ⟨h0, hno⟩ | ⟨hne, hbest⟩⟩ := hb.trees.bestLarge_spec hlarge hfuel
  · refine ⟨v, rs, hrun, Or.inl ⟨h0, fun a ha => ?_⟩⟩
    by_cases hla : 256 ≤ (m.chunksize a).toNat
    · exact hno a _ (has_of_mem hb hmem ha hla)
    · omega
  · obtain ⟨hv, hvl, hle, hrs, hleast⟩ := bestFit hb hmem hbest
    exact ⟨v, rs, hrun, Or.inr ⟨hne, hv, hvl, hle, hrs, fun a ha hfit =>
      hleast a ha (by omega) hfit⟩⟩

theorem bestSmall_spec (h : BinsHold m B) (hsmall : nb.toNat < 256) (hnb : 0 < nb.toNat)
    (hmap : m.treemap ≠ 0#32) (hfuel : 32 < fuel) :
    ∃ v rs, bestSmall fuel m nb = .done (v, rs) ∧ v ∈ B ∧ 256 ≤ (m.chunksize v).toNat ∧
      rs = m.chunksize v - nb ∧ ∀ a ∈ B, 256 ≤ (m.chunksize a).toNat →
        (m.chunksize v).toNat ≤ (m.chunksize a).toNat := by
  obtain ⟨l, g, hb, hmem⟩ := h
  obtain ⟨v, rs, hrun, -, hbest⟩ := hb.trees.bestSmall_spec hsmall hnb hmap hfuel
  obtain ⟨hv, hvl, hle, hrs, hleast⟩ := bestFit hb hmem hbest
  exact ⟨v, rs, hrun, hv, hvl, hrs, fun a ha hla => hleast a ha hla (by omega)⟩

theorem takeLarge (h : BinsHold m B) (hv : v ∈ B) (hlarge : 256 ≤ (m.chunksize v).toNat)
    (hfuel : 32 < fuel) : ∃ m1 A, unlinkLargeChunk fuel m v = .done m1 ∧ BinsHold m1 (B \ {v}) ∧
      Touches A m m1 := by
  obtain ⟨m1, hrun, hB, htouch⟩ := unlinkChunk_spec h hv hfuel
  rw [unlinkChunk, if_neg (by rw [isSmall_iff]; omega)] at hrun
  exact ⟨m1, _, hrun, hB, htouch⟩

end BinsHold

/-- `dv` and `top` are left alone. -/
theorem tmallocLarge_spec (h : Heap m bs) (hlarge : 256 ≤ nb.toNat) (hnb8 : nb.toNat % 8 = 0)
    (hfuel : 33 < fuel) :
    tmallocLarge fuel m nb = .done (m, 0#32) ∧
        (∀ a ∈ freeAddrs bs \ {m.dv}, nb.toNat ≤ (m.chunksize a).toNat →
          nb.toNat ≤ m.dvsize.toNat ∧ m.dvsize.toNat ≤ (m.chunksize a).toNat) ∨
      ∃ out v, tmallocLarge fuel m nb = .done out ∧
        Mallocs m bs nb ⟨v, m.chunksize v, .free⟩ out ∧
        (∀ a ∈ freeAddrs bs \ {m.dv}, nb.toNat ≤ (m.chunksize a).toNat →
          (m.chunksize v).toNat ≤ (m.chunksize a).toNat) ∧
        (nb.toNat ≤ m.dvsize.toNat → (m.chunksize v).toNat < m.dvsize.toNat) := by
  obtain ⟨v, rs, hrun, ⟨rfl, hno⟩ | ⟨hne, hv, hvl, hle, hrs, hleast⟩⟩ :=
    h.bins.bestLarge_spec hlarge hfuel
  · left
    rw [tmallocLarge, hrun]
    exact ⟨rfl, fun a ha hfit => absurd hfit (Nat.not_le_of_lt (hno a ha))⟩
  · have hrs' : rs.toNat = (m.chunksize v).toNat - nb.toNat := by
      rw [hrs, BitVec.toNat_sub_of_le hle]
    have hvlt := (m.chunksize v).isLt
    have hdvlt := m.dvsize.isLt
    have hiff : rs < m.dvsize - nb ↔
        m.dvsize.toNat < nb.toNat ∨ (m.chunksize v).toNat < m.dvsize.toNat := by
      rw [BitVec.lt_def, BitVec.toNat_sub]
      omega
    rw [tmallocLarge, hrun]
    simp only [Outcome.done_bind]
    by_cases hlt : rs < m.dvsize - nb
    · right
      have hadd : m.chunksize v = rs + nb := by rw [hrs, BitVec.sub_add_cancel]
      obtain ⟨m1, A, hrun1, hB1, htouch⟩ := h.bins.takeLarge hv hvl (by omega : 32 < fuel)
      obtain ⟨l, x, y, r, rfl⟩ := h.binned hv
      have hc := h.layout.chunk (b := ⟨v, m.chunksize v, .free⟩) (by simp) (by simp)
      have hlt' : v < v + nb := h.layout.lt_add (by omega) hle
      have hbetter := hiff.mp hlt
      rw [if_pos ⟨hne, hlt⟩, if_pos hc.ok]
      simp only [m.assert_of hadd, if_pos hlt', hrun1, Outcome.done_bind]
      by_cases hrest : rs < 16#32
      · have hrest' : rs.toNat < 16 := hrest
        rw [if_pos hrest, ← hadd]
        exact ⟨_, v, rfl, ⟨_, _, h.use_binned hv.2 htouch hB1, .whole (Or.inl rfl), rfl, hle,
          by simp only; omega, htouch.aborts⟩, hleast, by omega⟩
      · have hrest' : 16 ≤ rs.toNat := Nat.le_of_not_lt hrest
        rw [if_neg hrest]
        obtain ⟨m2, hrun2, hheap, haborts⟩ := h.split_to_bin hv.2 htouch hB1 hnb8 (by omega) hrest'
          (by omega) (by omega : 32 < fuel)
        simp only [hrun2, Outcome.done_bind]
        exact ⟨_, v, rfl, ⟨_, _, hheap, .lower (Or.inl rfl) hle, rfl, Nat.le_refl _,
          by simp only; omega, haborts⟩, hleast, by omega⟩
    · left
      rw [if_neg fun hboth => hlt hboth.2]
      rw [hiff] at hlt
      refine ⟨rfl, fun a ha hfit => ?_⟩
      have := hleast a ha hfit
      omega

theorem tmallocSmall_spec (h : Heap m bs) (hsmall : nb.toNat < 256) (hnb8 : nb.toNat % 8 = 0)
    (hnb : 16 ≤ nb.toNat) (hmap : m.treemap ≠ 0#32) (hdv : m.dvsize.toNat < 256)
    (hfuel : 32 < fuel) :
    ∃ out v, tmallocSmall fuel m nb = .done out ∧
      Mallocs m bs nb ⟨v, m.chunksize v, .free⟩ out ∧ 256 ≤ (m.chunksize v).toNat ∧
      ∀ a ∈ freeAddrs bs \ {m.dv}, 256 ≤ (m.chunksize a).toNat →
        (m.chunksize v).toNat ≤ (m.chunksize a).toNat := by
  obtain ⟨v, rs, hrun, hv, hvl, hrs, hleast⟩ :=
    h.bins.bestSmall_spec hsmall (by omega) hmap hfuel
  have hle : nb.toNat ≤ (m.chunksize v).toNat := by omega
  have hrs' : rs.toNat = (m.chunksize v).toNat - nb.toNat := by
    rw [hrs, BitVec.toNat_sub_of_le hle]
  have hadd : m.chunksize v = rs + nb := by rw [hrs, BitVec.sub_add_cancel]
  obtain ⟨m1, A, hrun1, hB1, htouch⟩ := h.bins.takeLarge hv hvl hfuel
  obtain ⟨l, x, y, r, rfl⟩ := h.binned hv
  have hc := h.layout.chunk (b := ⟨v, m.chunksize v, .free⟩) (by simp) (by simp)
  have hlt : v < v + nb := h.layout.lt_add (by omega) hle
  rw [tmallocSmall, hrun]
  simp only [Outcome.done_bind]
  rw [if_pos hc.ok]
  simp only [m.assert_of hadd, if_pos hlt, hrun1, Outcome.done_bind]
  by_cases hrest : rs < 16#32
  · have hrest' : rs.toNat < 16 := hrest
    rw [if_pos hrest, ← hadd]
    exact ⟨_, v, rfl, ⟨_, _, h.use_binned hv.2 htouch hB1, .whole (Or.inl rfl), rfl, hle,
      by simp only; omega, htouch.aborts⟩, hvl, hleast⟩
  · have hrest' : 16 ≤ rs.toNat := Nat.le_of_not_lt hrest
    rw [if_neg hrest]
    generalize hm' : replaceDv _ _ _ = m'
    obtain ⟨hheap, haborts⟩ := h.split_to_dv hv.2 htouch hB1 hnb8 hnb hrest' (by omega) hdv hm'.symm
    exact ⟨_, v, rfl, ⟨_, _, hheap, .lower (Or.inl rfl) hle, rfl, Nat.le_refl _,
      by simp only; omega, haborts⟩, hvl, hleast⟩

/-! ## The choice -/

/-- The block for a request of `nb` bytes: the least one of the bins, or `dv`, and for a large
request the least of all. `top` is the last resort. -/
structure Chosen (m : MallocState) (bs : List Block) (nb : Word) (f : Block) : Prop where
  top : f.kind = .top → ∀ b ∈ bs, b.kind = .free → b.size.toNat < nb.toNat
  binned : f.addr ≠ m.dv → ∀ b ∈ bs, b.kind = .free → b.addr ≠ m.dv →
    nb.toNat ≤ b.size.toNat → f.size.toNat ≤ b.size.toNat
  large : 256 ≤ nb.toNat → ∀ b ∈ bs, b.kind = .free → nb.toNat ≤ b.size.toNat →
    f.size.toNat ≤ b.size.toNat

/-- Nothing is large enough. -/
def NoRoom (bs : List Block) (nb : Word) : Prop :=
  ∀ b ∈ bs, (b.kind = .free → b.size.toNat < nb.toNat) ∧ (b.kind = .top → b.size.toNat ≤ nb.toNat)

theorem Heap.dv_size (h : Heap m bs) (hb : b ∈ bs) (hkind : b.kind = .free)
    (haddr : b.addr = m.dv) : b.size = m.dvsize := by
  rcases h.dv with ⟨-, h0⟩ | ⟨c, hc, -, hcaddr, hcsize⟩
  · exact absurd (haddr.trans h0) (h.layout.chunk hb (by simp [hkind])).ne_zero
  · rw [h.layout.eq_of_addr hb hc (haddr.trans hcaddr.symm), hcsize]

theorem Heap.binned_size (h : Heap m bs) (hb : b ∈ bs) (hkind : b.kind = .free)
    (haddr : b.addr ≠ m.dv) :
    b.addr ∈ freeAddrs bs \ {m.dv} ∧ m.chunksize b.addr = b.size :=
  ⟨⟨⟨b, hb, hkind, rfl⟩, haddr⟩, (h.layout.chunk hb (by simp [hkind])).size_eq⟩

theorem Heap.chosen_binned (h : Heap m bs)
    (hleast : ∀ a ∈ freeAddrs bs \ {m.dv}, nb.toNat ≤ (m.chunksize a).toNat →
      s.toNat ≤ (m.chunksize a).toNat)
    (hdv : 256 ≤ nb.toNat → nb.toNat ≤ m.dvsize.toNat → s.toNat ≤ m.dvsize.toNat) :
    Chosen m bs nb ⟨v, s, .free⟩ where
  top h := by simp at h
  binned _ b hb hkind haddr hfit := by
    obtain ⟨hmem, hsize⟩ := h.binned_size hb hkind haddr
    rw [← hsize] at hfit ⊢
    exact hleast _ hmem hfit
  large hlarge b hb hkind hfit := by
    by_cases haddr : b.addr = m.dv
    · rw [h.dv_size hb hkind haddr] at hfit ⊢
      exact hdv hlarge hfit
    · obtain ⟨hmem, hsize⟩ := h.binned_size hb hkind haddr
      rw [← hsize] at hfit ⊢
      exact hleast _ hmem hfit

/-- What an allocation does: it gives out a block of the heap, or leaves it to the system. -/
def Allocates (sysAlloc : MallocState → Word → Outcome (MallocState × Addr)) (m : MallocState)
    (bs : List Block) (nb : Word) (run : Outcome (MallocState × Addr)) : Prop :=
  (∃ out f, run = .done out ∧ Mallocs m bs nb f out ∧ Chosen m bs nb f) ∨
    run = sysAlloc m nb ∧ NoRoom bs nb

variable {sysAlloc : MallocState → Word → Outcome (MallocState × Addr)}

theorem mallocRest_spec (h : Heap m bs) (hnb8 : nb.toNat % 8 = 0) (hnb : 16 ≤ nb.toNat)
    (hmax : nb.toNat + 16 < 2 ^ 32)
    (hno : ∀ a ∈ freeAddrs bs \ {m.dv}, nb.toNat ≤ (m.chunksize a).toNat →
      nb.toNat ≤ m.dvsize.toNat ∧ (256 ≤ nb.toNat → m.dvsize.toNat ≤ (m.chunksize a).toNat)) :
    Allocates sysAlloc m bs nb (mallocRest sysAlloc m nb) := by
  rw [mallocRest]
  by_cases hdv : nb ≤ m.dvsize
  · rw [if_pos hdv]
    refine Or.inl ⟨_, _, rfl, mallocDv_spec h hnb8 hnb hmax hdv, ?_⟩
    exact
    { top := fun hkind => by simp at hkind
      binned := fun hne => absurd rfl hne
      large := fun hlarge b hb hkind hfit => by
        by_cases haddr : b.addr = m.dv
        · rw [h.dv_size hb hkind haddr]
        · obtain ⟨hmem, hsize⟩ := h.binned_size hb hkind haddr
          rw [← hsize] at hfit ⊢
          exact (hno _ hmem hfit).2 hlarge }
  · have hdv' : m.dvsize.toNat < nb.toNat := Nat.lt_of_not_le hdv
    have hfree : ∀ b ∈ bs, b.kind = .free → b.size.toNat < nb.toNat := by
      intro b hb hkind
      by_cases haddr : b.addr = m.dv
      · rw [h.dv_size hb hkind haddr]
        exact hdv'
      · obtain ⟨hmem, hsize⟩ := h.binned_size hb hkind haddr
        by_contra hfit
        have := (hno _ hmem (by rw [hsize]; omega)).1
        omega
    rw [if_neg hdv]
    by_cases htop : nb < m.topsize
    · rw [if_pos htop]
      obtain ⟨out, hrun, hout⟩ := mallocTop_spec h hnb8 hnb hmax htop
      refine Or.inl ⟨out, _, hrun, hout, fun _ => hfree,
        fun _ b hb hkind _ hfit => ?_, fun _ b hb hkind hfit => ?_⟩ <;>
        exact absurd hfit (Nat.not_le_of_lt (hfree b hb hkind))
    · rw [if_neg htop]
      refine Or.inr ⟨rfl, fun b hb => ⟨hfree b hb, fun hkind => ?_⟩⟩
      obtain ⟨T, hT, hTkind, hTaddr, hTsize⟩ := h.top.mem
      rw [h.layout.eq_of_addr hb hT ((h.top.unique hb hkind).trans hTaddr.symm), hTsize]
      exact Nat.le_of_not_lt htop

end LibSystem.Core
