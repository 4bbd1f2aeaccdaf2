import LibSystem.Core.HeapMalloc

/-!
# Requests

`dlmalloc` looks for a chunk in the small bins, the trees, `dv` and `top`. What
it gives out is the best chunk that it may choose from.
-/

namespace LibSystem.Core

open Function MallocState

variable {m : MallocState} {bs : List Block} {nb : Word} {fuel : Nat}
  {sysAlloc : MallocState → Word → Outcome (MallocState × Addr)}

/-! ## The size of a chunk -/

/-- The size of the chunk for a request. -/
def requestSize (bytes : Word) : Word :=
  if bytes < 11#32 then 16#32
  else if 0xFFFFFFC0#32 ≤ bytes then 0xFFFFFFFF#32
  else padRequest bytes

theorem toNat_padRequest {req : Word} (h : req.toNat < 0xFFFFFFC0) :
    (padRequest req).toNat = (req.toNat + 11) / 8 * 8 := by
  rw [padRequest, toNat_and_not_seven, BitVec.toNat_add, BitVec.toNat_add]
  simp only [BitVec.toNat_ofNat]
  omega

theorem requestSize_spec {bytes : Word} (h : bytes.toNat < 0xFFFFFFC0) :
    (requestSize bytes).toNat % 8 = 0 ∧ 16 ≤ (requestSize bytes).toNat ∧
      bytes.toNat + 4 ≤ (requestSize bytes).toNat ∧
      ((requestSize bytes).toNat < bytes.toNat + 12 ∨ (requestSize bytes).toNat = 16) := by
  rw [requestSize]
  by_cases h11 : bytes < 11#32
  · have h11' : bytes.toNat < 11 := h11
    rw [if_pos h11, show (16#32).toNat = 16 from rfl]
    omega
  · have h11' : 11 ≤ bytes.toNat := Nat.le_of_not_lt h11
    rw [if_neg h11, if_neg (by rw [BitVec.le_def]; simp only [BitVec.toNat_ofNat]; omega),
      toNat_padRequest h]
    omega

/-! ## The small bins -/

theorem getLsbD_zero_iff (w : Word) : w.getLsbD 0 = true ↔ w.toNat % 2 = 1 := by
  rw [← BitVec.testBit_toNat, Nat.testBit_zero, decide_eq_true_eq]

theorem getLsbD_one_iff (w : Word) : w.getLsbD 1 = true ↔ w.toNat / 2 % 2 = 1 := by
  rw [← BitVec.testBit_toNat, Nat.testBit_succ, Nat.testBit_zero, decide_eq_true_eq]

theorem smallbits_spec {w idx i : Word} (hidx : idx.toNat < 32)
    (h3 : (w >>> idx) &&& 3#32 ≠ 0#32) (hi : i = idx + (~~~(w >>> idx) &&& 1#32)) :
    i.toNat < 32 ∧ w.getLsbD i.toNat = true ∧ idx.toNat ≤ i.toNat ∧ i.toNat ≤ idx.toNat + 1 ∧
      ∀ j, idx.toNat ≤ j → j < i.toNat → w.getLsbD j = false := by
  have hshift : ∀ j, (w >>> idx).getLsbD j = w.getLsbD (idx.toNat + j) := fun j => by
    rw [BitVec.ushiftRight_eq', BitVec.getLsbD_ushiftRight]
  have hbits : (w >>> idx).toNat % 4 ≠ 0 := by
    rw [← toNat_and_three]
    exact fun h0 => h3 (BitVec.eq_of_toNat_eq h0)
  have hbit0 := getLsbD_zero_iff (w >>> idx)
  have hbit1 := getLsbD_one_iff (w >>> idx)
  rw [hshift] at hbit0 hbit1
  have hnot : (~~~(w >>> idx) &&& 1#32).toNat = 1 - (w >>> idx).toNat % 2 := by
    have := (w >>> idx).isLt
    rw [toNat_and_one, BitVec.toNat_not]
    omega
  have hitoNat : i.toNat = idx.toNat + (1 - (w >>> idx).toNat % 2) := by
    rw [hi, BitVec.toNat_add, hnot]
    omega
  have hmark : w.getLsbD i.toNat = true := by
    rw [hitoNat]
    by_cases h0 : (w >>> idx).toNat % 2 = 1
    · rw [h0]
      exact hbit0.mpr h0
    · rw [show (w >>> idx).toNat % 2 = 0 by omega]
      exact hbit1.mpr (by omega)
  refine ⟨BitVec.lt_of_getLsbD hmark, hmark, by omega, by omega, fun j hj hji => ?_⟩
  obtain rfl : j = idx.toNat := by omega
  have h0 : ¬ (w >>> idx).toNat % 2 = 1 := by omega
  rw [← Bool.not_eq_true]
  exact fun h => h0 (hbit0.mp h)

/-- The first two bins are empty, and a larger one is not. -/
theorem leftbits_spec {w idx i : Word} (hidx : idx.toNat < 32)
    (h3 : (w >>> idx) &&& 3#32 = 0#32) (hne : w >>> idx ≠ 0#32)
    (hi : i = computeBit2idx (leastBit (((w >>> idx) <<< idx) &&& leftBits (idx2bit idx)))) :
    i.toNat < 32 ∧ w.getLsbD i.toNat = true ∧ idx.toNat + 2 ≤ i.toNat ∧
      ∀ j, idx.toNat ≤ j → j < i.toNat → w.getLsbD j = false := by
  have hshift : ∀ j, (w >>> idx).getLsbD j = w.getLsbD (idx.toNat + j) := fun j => by
    rw [BitVec.ushiftRight_eq', BitVec.getLsbD_ushiftRight]
  have hbits : (w >>> idx).toNat % 4 = 0 := by rw [← toNat_and_three, h3]; rfl
  have hbit0 := getLsbD_zero_iff (w >>> idx)
  have hbit1 := getLsbD_one_iff (w >>> idx)
  rw [hshift] at hbit0 hbit1
  generalize hx : ((w >>> idx) <<< idx) &&& leftBits (idx2bit idx) = x at hi
  have hxbit : ∀ j < 32, x.getLsbD j = true ↔ idx.toNat < j ∧ w.getLsbD j = true := by
    intro j hj
    rw [← hx, BitVec.getLsbD_and, getLsbD_leftBits hidx, BitVec.shiftLeft_eq',
      BitVec.getLsbD_shiftLeft, hshift]
    simp only [hj, decide_true, Bool.true_and, Bool.and_eq_true, Bool.not_eq_true',
      decide_eq_false_iff_not, decide_eq_true_eq]
    constructor
    · rintro ⟨⟨h1, h2⟩, h4⟩
      rw [show idx.toNat + (j - idx.toNat) = j by omega] at h2
      exact ⟨h4, h2⟩
    · rintro ⟨h4, h2⟩
      rw [show idx.toNat + (j - idx.toNat) = j by omega]
      exact ⟨⟨by omega, h2⟩, h4⟩
  have hx0 : x ≠ 0#32 := by
    rintro rfl
    refine hne (BitVec.eq_of_getLsbD_eq fun j hj => ?_)
    rw [hshift, BitVec.getLsbD_zero, ← Bool.not_eq_true]
    intro hw
    have hlt := BitVec.lt_of_getLsbD hw
    by_cases hj0 : j = 0
    · subst hj0
      have := hbit0.mp hw
      omega
    · have := (hxbit _ hlt).mpr ⟨by omega, hw⟩
      simp at this
  obtain ⟨hlt, hbit, hmin⟩ := computeBit2idx_leastBit hx0
  rw [← hi] at hlt hbit hmin
  obtain ⟨hidxlt, hw⟩ := (hxbit _ hlt).mp hbit
  have hnot0 : w.getLsbD idx.toNat = false := by
    rw [← Bool.not_eq_true]
    intro h
    have := hbit0.mp h
    omega
  have hnot1 : w.getLsbD (idx.toNat + 1) = false := by
    rw [← Bool.not_eq_true]
    intro h
    have := hbit1.mp h
    omega
  refine ⟨hlt, hw, ?_, fun j hj hji => ?_⟩
  · by_contra hle
    rw [show i.toNat = idx.toNat + 1 by omega, hnot1] at hw
    simp at hw
  · rcases Nat.eq_or_lt_of_le hj with rfl | hj
    · exact hnot0
    · rw [← Bool.not_eq_true]
      intro h
      have := (hxbit j (by omega)).mpr ⟨hj, h⟩
      simp [hmin j hji] at this

/-! ## dlmalloc -/

theorem Mallocs.mem_ne_zero {f : Block} {out : MallocState × Addr} (h : Mallocs m bs nb f out) :
    out.2 ≠ 0#32 := by
  obtain ⟨bs', u, hheap, hout, hmem, -⟩ := h
  obtain ⟨hu, hkind⟩ := (hout.used u).mpr (Or.inr rfl)
  rw [hmem]
  exact (hheap.layout.chunk hu (by simp [hkind])).mem_ne_zero (by simp [hkind])

theorem Heap.no_small (h : Heap m bs) {n : Nat}
    (hempty : ∀ j, nb.toNat / 8 ≤ j → j < n → m.smallmap.getLsbD j = false)
    {a : Addr} (ha : a ∈ freeAddrs bs \ {m.dv}) (hfit : nb.toNat ≤ (m.chunksize a).toNat)
    (hsmall : (m.chunksize a).toNat < 256) : n * 8 ≤ (m.chunksize a).toNat := by
  have hmark := h.bins.marked_of_mem ha hsmall
  by_contra hlt
  rw [hempty _ (Nat.div_le_div_right hfit) (by omega)] at hmark
  simp at hmark

theorem toNat_smallIndex (nb : Word) : (smallIndex nb).toNat = nb.toNat / 8 := by
  rw [smallIndex, BitVec.toNat_ushiftRight, Nat.shiftRight_eq_div_pow]

theorem toNat_shiftLeft_three {i : Word} (hi : i.toNat < 32) : (i <<< 3).toNat = i.toNat * 8 := by
  rw [BitVec.toNat_shiftLeft, Nat.shiftLeft_eq]
  omega

/-- A small request. -/
theorem dlmalloc_small (h : Heap m bs) (hfuel : 33 < fuel) (hnb8 : nb.toNat % 8 = 0)
    (hnb : 16 ≤ nb.toNat) (hsmall : nb.toNat < 256) {bytes : Word} (hbytes : bytes ≤ 244#32)
    (hreq : (if bytes < 11#32 then 16#32 else padRequest bytes) = nb) :
    Allocates sysAlloc m bs nb (dlmalloc sysAlloc fuel m bytes) := by
  rw [dlmalloc, if_pos hbytes]
  simp only [hreq]
  have hidx := toNat_smallIndex nb
  have hidx32 : (smallIndex nb).toNat < 32 := by omega
  generalize smallIndex nb = idx at hidx hidx32 ⊢
  by_cases h3 : (m.smallmap >>> idx) &&& 3#32 ≠ 0#32
  · rw [if_pos h3]
    obtain ⟨hi, hmark, hge, hle, hempty⟩ := smallbits_spec hidx32 h3 rfl
    generalize idx + (~~~(m.smallmap >>> idx) &&& 1#32) = i at hi hmark hge hle hempty ⊢
    have hi8 := toNat_shiftLeft_three hi
    refine Or.inl ⟨_, _, rfl, mallocSmallbin_spec h hi hmark (by omega) (by omega) (by omega), ?_⟩
    refine h.chosen_binned (fun a ha hfit => ?_) fun hlarge => by omega
    by_cases hsm : (m.chunksize a).toNat < 256
    · have := h.no_small (by rwa [hidx] at hempty) ha hfit hsm
      omega
    · omega
  · rw [if_neg h3]
    rw [not_not] at h3
    by_cases hdv : m.dvsize < nb
    · have hdv' : m.dvsize.toNat < nb.toNat := hdv
      rw [if_pos hdv]
      by_cases hbits : m.smallmap >>> idx ≠ 0#32
      · rw [if_pos hbits]
        obtain ⟨hi, hmark, hle, hempty⟩ := leftbits_spec hidx32 h3 hbits rfl
        generalize computeBit2idx (leastBit (((m.smallmap >>> idx) <<< idx) &&&
          leftBits (idx2bit idx))) = i at hi hmark hle hempty ⊢
        have hi8 := toNat_shiftLeft_three hi
        refine Or.inl ⟨_, _, rfl, mallocNextSmallbin_spec h hi hmark hnb8 hnb (by omega)
          (by omega), ?_⟩
        refine h.chosen_binned (fun a ha hfit => ?_) fun hlarge => by omega
        by_cases hsm : (m.chunksize a).toNat < 256
        · have := h.no_small (by rwa [hidx] at hempty) ha hfit hsm
          omega
        · omega
      · rw [if_neg hbits]
        rw [not_not] at hbits
        have hnone : ∀ a ∈ freeAddrs bs \ {m.dv}, nb.toNat ≤ (m.chunksize a).toNat →
            256 ≤ (m.chunksize a).toNat := by
          intro a ha hfit
          by_contra hsm
          have hzero : ∀ j, nb.toNat / 8 ≤ j → j < 32 → m.smallmap.getLsbD j = false := by
            intro j hj _
            have := congrArg (fun w : Word => w.getLsbD (j - idx.toNat)) hbits
            simp only [BitVec.ushiftRight_eq', BitVec.getLsbD_ushiftRight, BitVec.getLsbD_zero]
              at this
            rwa [show idx.toNat + (j - idx.toNat) = j by omega] at this
          have := h.no_small hzero ha hfit (Nat.lt_of_not_le hsm)
          omega
        by_cases hmap : m.treemap ≠ 0#32
        · rw [if_pos hmap]
          obtain ⟨out, v, hrun, hout, -, hleast⟩ :=
            tmallocSmall_spec h hsmall hnb8 hnb hmap (by omega) (show 32 < fuel by omega)
          rw [hrun]
          simp only [Outcome.done_bind, if_pos hout.mem_ne_zero, hout.checked (by omega)]
          refine Or.inl ⟨out, _, rfl, hout, h.chosen_binned (fun a ha hfit => ?_) fun _ => ?_⟩
          · exact hleast a ha (hnone a ha hfit)
          · omega
        · rw [if_neg hmap]
          rw [not_not] at hmap
          refine mallocRest_spec h hnb8 hnb (by omega) fun a ha hfit => ?_
          exact absurd hmap (h.bins.treemap_ne ha (hnone a ha hfit))
    · rw [if_neg hdv]
      have hdv' : nb.toNat ≤ m.dvsize.toNat := Nat.le_of_not_lt hdv
      exact mallocRest_spec h hnb8 hnb (by omega) fun a ha hfit => ⟨hdv', by omega⟩

theorem dlmalloc_large (h : Heap m bs) (hfuel : 33 < fuel) {bytes : Word}
    (hbytes : ¬ bytes ≤ 244#32) (hmax : ¬ 0xFFFFFFC0#32 ≤ bytes) :
    Allocates sysAlloc m bs (padRequest bytes) (dlmalloc sysAlloc fuel m bytes) := by
  have hbytes' : 244 < bytes.toNat := Nat.lt_of_not_le hbytes
  have hmax' : bytes.toNat < 0xFFFFFFC0 := Nat.lt_of_not_le hmax
  have hpad := toNat_padRequest hmax'
  rw [dlmalloc, if_neg hbytes, if_neg hmax]
  simp only
  generalize padRequest bytes = nb at hpad ⊢
  by_cases hmap : m.treemap ≠ 0#32
  · have h256 : 256 ≤ nb.toNat := by omega
    rw [if_pos hmap]
    rcases tmallocLarge_spec h h256 (by omega) hfuel with
      ⟨hrun, hno⟩ | ⟨out, v, hrun, hout, hleast, hdv⟩
    · rw [hrun]
      simp only [Outcome.done_bind, ne_eq, not_true_eq_false, if_false]
      refine mallocRest_spec h (by omega) (by omega) (by omega) fun a ha hfit => ?_
      exact (hno a ha hfit).imp_right fun hle _ => hle
    · rw [hrun]
      simp only [Outcome.done_bind, if_pos hout.mem_ne_zero, hout.checked (by omega)]
      exact Or.inl ⟨out, _, rfl, hout, h.chosen_binned hleast fun _ hfit => (hdv hfit).le⟩
  · rw [if_neg hmap]
    rw [not_not] at hmap
    refine mallocRest_spec h (by omega) (by omega) (by omega) fun a ha hfit => ?_
    exact absurd hmap (h.bins.treemap_ne ha (by omega))

theorem mallocRest_max (h : Heap m bs) :
    Allocates sysAlloc m bs 0xFFFFFFFF#32 (mallocRest sysAlloc m 0xFFFFFFFF#32) := by
  have hmax : (0xFFFFFFFF#32 : Word).toNat = 2 ^ 32 - 1 := rfl
  have hfree : ∀ b ∈ bs, b.kind = .free → b.size.toNat < 2 ^ 32 - 1 := by
    intro b hb hkind
    have := (h.layout.chunk hb (by simp [hkind])).size_mod
    have := b.size.isLt
    omega
  have hdv : ¬ 0xFFFFFFFF#32 ≤ m.dvsize := by
    refine Nat.not_le_of_lt ?_
    rw [hmax]
    rcases h.dv with ⟨h0, -⟩ | ⟨b, hb, hkind, -, hsize⟩
    · rw [h0]
      decide
    · rw [← hsize]
      exact hfree b hb hkind
  have htop : ¬ 0xFFFFFFFF#32 < m.topsize := by
    refine Nat.not_lt_of_le ?_
    rw [hmax]
    exact Nat.le_sub_one_of_lt m.topsize.isLt
  rw [mallocRest, if_neg hdv, if_neg htop]
  exact Or.inr ⟨rfl, fun b hb => ⟨hfree b hb, fun _ => Nat.le_sub_one_of_lt b.size.isLt⟩⟩

theorem dlmalloc_spec (h : Heap m bs) (hfuel : 33 < fuel) (bytes : Word) :
    Allocates sysAlloc m bs (requestSize bytes) (dlmalloc sysAlloc fuel m bytes) := by
  by_cases hsmall : bytes ≤ 244#32
  · have hsmall' : bytes.toNat ≤ 244 := hsmall
    obtain ⟨h8, h16, hle, hlt⟩ := requestSize_spec (by omega : bytes.toNat < 0xFFFFFFC0)
    refine dlmalloc_small h hfuel h8 h16 (by omega) hsmall ?_
    rw [requestSize, if_neg (c := 0xFFFFFFC0#32 ≤ bytes)]
    exact Nat.not_le_of_lt (by simp only [BitVec.toNat_ofNat]; omega)
  · have hbytes' : 244 < bytes.toNat := Nat.lt_of_not_le hsmall
    have h11 : ¬ bytes < 11#32 := Nat.not_lt_of_le (by simp only [BitVec.toNat_ofNat]; omega)
    rw [requestSize, if_neg h11]
    by_cases hmax : 0xFFFFFFC0#32 ≤ bytes
    · rw [if_pos hmax, dlmalloc, if_neg hsmall, if_pos hmax]
      exact mallocRest_max h
    · rw [if_neg hmax]
      exact dlmalloc_large h hfuel hsmall hmax

end LibSystem.Core
