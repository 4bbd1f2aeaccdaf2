import LibSystem.Overlays
import LibSystem.Lnk.Mapping

/-!
# What a mapping shows

The mapping loop of `MachObject::instantiateFromFile`, and what the program then sees in the
segments: the bytes of the file, and zeros behind them.
-/

namespace LibSystem.Lnk

open Outcome

/-! ## Pages that are mapped -/

/-- What is seen at each address. There is nothing where no page is mapped. -/
abbrev Space := Addr → Option Byte

def pageUp (n : Nat) : Nat := (n + 4095) / 4096 * 4096

/-- The last page of a file is filled up with zeros, and there are no pages behind it. -/
def fileByte (file : List Byte) (pos : Nat) : Option Byte :=
  file[pos]?.or (if pos < pageUp file.length then some 0 else none)

namespace Mmap

instance (m : Mmap) (x : Addr) : Decidable (m.Maps x) := inferInstanceAs (Decidable (_ ∧ _))

/-- The call with a file descriptor. -/
def ofFile (m : Mmap) (file : List Byte) (space : Space) : Space := fun x =>
  if m.Maps x then fileByte file (m.offset.toNat + (x.toNat - m.addr.toNat)) else space x

/-- The call with `MAP_ANON`. -/
def anon (m : Mmap) (space : Space) : Space := fun x => if m.Maps x then some 0 else space x

end Mmap

/-- What `mm::reserve` leaves. The kernel gives whole pages. -/
def reserve (reserved : Addr) (size : Nat) (space : Space) : Space := fun x =>
  if (x - reserved).toNat < size then some 0 else space x

/-- One turn of the loop over the segments. -/
def mapSegment (file : List Byte) (loaderBias : Word) (space : Space) (seg : MappedSegment) :
    Space :=
  let space := (wire loaderBias seg).ofFile file space
  match wireAnon loaderBias seg with
  | some m => m.anon space
  | none => space

def biasOf (segments : List MappedSegment) (reserved : Word) : Word :=
  loaderBias (segments.map (·.toSegmentCommand)) reserved

/-- From `segments[0]->vmaddr` to the end of the loop. The array has 64 entries. -/
def mapSegments (file : List Byte) (segments : List MappedSegment) (reserved : Word)
    (space : Space) : Outcome Space :=
  if 64 < segments.length then .fault
  else
    match segments with
    | [] => .halt "instantiateFromFile(%s): no segments"
    | seg :: _ =>
      let space :=
        if seg.vmaddr ≠ 0 then space else reserve reserved (reservedSize segments) space
      .done (segments.foldl (mapSegment file (biasOf segments reserved)) space)

/-- The file is not a fixed one. -/
def Slid (segments : List MappedSegment) : Prop :=
  ∃ seg rest, segments = seg :: rest ∧ seg.vmaddr = 0

/-! ## What is asked of it -/

/-- `x` is in the pages of the segment, before it is slid. -/
def MappedSegment.PageHolds (seg : MappedSegment) (x : Addr) : Prop :=
  (x - seg.vmaddr).toNat < pageUp seg.vmsize.toNat

structure WellPlaced (segments : List MappedSegment) : Prop where
  disjoint : segments.Pairwise fun a b => ∀ x, ¬ (a.PageHolds x ∧ b.PageHolds x)
  vmaddr : ∀ seg ∈ segments, seg.vmaddr.toNat % 4096 = 0
  fileoff : ∀ seg ∈ segments, seg.fileoff.toNat % 4096 = 0
  sizes : ∀ seg ∈ segments, seg.filesize ≤ seg.vmsize

/-- A range that the kernel has reserved: whole pages, not at the null page, and inside the address
space. -/
structure Reserved (segments : List MappedSegment) (reserved : Word) : Prop where
  aligned : reserved.toNat % 4096 = 0
  nonzero : reserved ≠ 0
  room : reserved.toNat + reservedSize segments ≤ 2 ^ 32

/-- The segment shows its bytes of the file, and zeros behind them. -/
structure Shows (file : List Byte) (loaderBias : Word) (space : Space) (seg : MappedSegment) :
    Prop where
  content : ∀ i < seg.filesize.toNat, ∃ byte, file[seg.fileoff.toNat + i]? = some byte ∧
    space (seg.vmaddr + loaderBias + BitVec.ofNat 32 i) = some byte
  zeros : ∀ i, seg.filesize.toNat ≤ i → i < seg.vmsize.toNat →
    space (seg.vmaddr + loaderBias + BitVec.ofNat 32 i) = some 0

/-- Whatever was mapped before, the loop shows the segments, and it never asks `wire_anon` for a
size that has wrapped around. -/
structure ShowsFile (file : List Byte) (segments : List MappedSegment) (reserved : Word) :
    Prop where
  safe : ∀ space, mapSegments file segments reserved space ≠ .fault
  content : WellPlaced segments → (Slid segments → Reserved segments reserved) →
    ∀ before space, mapSegments file segments reserved before = done space →
      ∀ seg ∈ segments, Shows file (biasOf segments reserved) space seg
  sizes : ∀ seg ∈ segments, ∀ m, wireAnon (biasOf segments reserved) seg = some m →
    m.length.toNat + (roundPage seg.filesize).toNat = (roundPage seg.vmsize).toNat

/-- Where the segment shows what it should: its file pages are mapped and the file goes that far,
the last of them has only zeros behind `filesize`, and the rest of the segment is zero-filled or
lies in the range that has been reserved. -/
structure FileFits (file : List Byte) (segments : List MappedSegment) (loaderBias : Word)
    (seg : MappedSegment) : Prop where
  wired : 0 < seg.filesize.toNat → roundPage seg.filesize ≠ 0 ∧
    (seg.vmaddr + loaderBias).toNat + (roundPage seg.filesize).toNat ≤ 2 ^ 32 ∧
    seg.fileoff.toNat + seg.filesize.toNat ≤ file.length
  tail : ∀ i byte, seg.filesize.toNat ≤ i → i < seg.vmsize.toNat →
    i < (roundPage seg.filesize).toNat → file[seg.fileoff.toNat + i]? = some byte → byte = 0
  filled : (roundPage seg.filesize).toNat < seg.vmsize.toNat → loaderBias = 0 →
    roundPage seg.vmsize ≠ roundPage seg.filesize ∧
      (seg.vmaddr + roundPage seg.filesize).toNat +
        (roundPage seg.vmsize - roundPage seg.filesize).toNat ≤ 2 ^ 32
  reserved : (roundPage seg.filesize).toNat < seg.vmsize.toNat → loaderBias ≠ 0 →
    (seg.vmaddr + roundPage seg.filesize).toNat +
      (seg.vmsize.toNat - (roundPage seg.filesize).toNat) ≤ reservedSize segments

/-! ## One segment -/

theorem roundPage_cases (x : Word) :
    x.toNat ≤ 2 ^ 32 - 4096 ∧ (roundPage x).toNat = pageUp x.toNat ∨
      2 ^ 32 - 4096 < x.toNat ∧ (roundPage x).toNat = 0 ∧ pageUp x.toNat = 2 ^ 32 := by
  have hx := x.isLt
  rw [roundPage_toNat]
  unfold pageUp
  omega

theorem roundPage_of_aligned {x : Word} (h : x.toNat % 4096 = 0) : roundPage x = x := by
  have hx := x.isLt
  apply BitVec.eq_of_toNat_eq
  rw [roundPage_toNat]
  omega

theorem roundPage_aligned (x : Word) : (roundPage x).toNat % 4096 = 0 := by
  rw [roundPage_toNat]
  omega

theorem aligned_add {x y : Word} (hx : x.toNat % 4096 = 0) (hy : y.toNat % 4096 = 0) :
    (x + y).toNat % 4096 = 0 := by
  rw [BitVec.toNat_add]
  omega

theorem pageUp_mono {m n : Nat} (h : m ≤ n) : pageUp m ≤ pageUp n := by
  unfold pageUp
  omega

theorem le_pageUp (n : Nat) : n ≤ pageUp n := by
  unfold pageUp
  omega

theorem pageUp_le (x : Word) : pageUp x.toNat ≤ 2 ^ 32 := by
  have hx := x.isLt
  unfold pageUp
  omega

theorem Mmap.maps_iff (m : Mmap) (x : Addr) :
    m.Maps x ↔ m.Accepted ∧ (x - m.addr).toNat < m.length.toNat := by
  have hx := x.isLt
  have haddr := m.addr.isLt
  refine and_congr_right fun h => ?_
  have hend := h.2.1
  rw [BitVec.toNat_sub]
  omega

section Segment

variable {file : List Byte} {bias : Word} {seg : MappedSegment} {space : Space} {x : Addr}

theorem delta_toNat (hsizes : seg.filesize ≤ seg.vmsize)
    (hne : roundPage seg.vmsize ≠ roundPage seg.filesize) :
    (roundPage seg.vmsize - roundPage seg.filesize).toNat + (roundPage seg.filesize).toNat =
      pageUp seg.vmsize.toNat := by
  have hmono := pageUp_mono (BitVec.le_def.mp hsizes)
  have hne' : (roundPage seg.vmsize).toNat ≠ (roundPage seg.filesize).toNat :=
    fun h => hne (BitVec.eq_of_toNat_eq h)
  have hsizes' := BitVec.le_def.mp hsizes
  have hlt := (roundPage seg.filesize).isLt
  rw [BitVec.toNat_sub]
  rcases roundPage_cases seg.filesize with ⟨hf, hrf⟩ | ⟨hf, hrf, -⟩
  · rcases roundPage_cases seg.vmsize with ⟨hv, hrv⟩ | ⟨hv, hrv, hup⟩
    · omega
    · omega
  · rcases roundPage_cases seg.vmsize with ⟨hv, hrv⟩ | ⟨hv, hrv, hup⟩
    · omega
    · omega

theorem wire_eq (hvmaddr : seg.vmaddr.toNat % 4096 = 0) (hbias : bias.toNat % 4096 = 0) :
    wire bias seg = ⟨seg.vmaddr + bias, roundPage seg.filesize, seg.fileoff⟩ := by
  rw [wire, pageAlignPtr, roundPage_of_aligned (aligned_add hvmaddr hbias)]

theorem wireAnon_eq (hvmaddr : seg.vmaddr.toNat % 4096 = 0) :
    wireAnon 0 seg =
      if roundPage seg.vmsize = roundPage seg.filesize then none
      else some ⟨seg.vmaddr + roundPage seg.filesize,
        roundPage seg.vmsize - roundPage seg.filesize, 0⟩ := by
  have haligned := aligned_add hvmaddr (roundPage_aligned seg.filesize)
  have hdelta : roundPage seg.vmsize - roundPage seg.filesize = 0 ↔
      roundPage seg.vmsize = roundPage seg.filesize := by
    bv_omega
  unfold wireAnon pageAlignPtr
  dsimp only
  rw [show seg.vmaddr + 0 = seg.vmaddr from BitVec.add_zero _, roundPage_of_aligned haligned]
  by_cases h : roundPage seg.vmsize = roundPage seg.filesize
  · rw [if_neg fun hne => hne.1 (hdelta.mpr h), if_pos h]
  · rw [if_pos ⟨mt hdelta.mp h, rfl⟩, if_neg h]

theorem wireAnon_of_ne (hbias : bias ≠ 0) : wireAnon bias seg = none :=
  if_neg fun h => hbias h.2

theorem wire_maps_iff (hvmaddr : seg.vmaddr.toNat % 4096 = 0) (hbias : bias.toNat % 4096 = 0) :
    (wire bias seg).Maps x ↔ (wire bias seg).Accepted ∧
      (x - (seg.vmaddr + bias)).toNat < (roundPage seg.filesize).toNat := by
  rw [Mmap.maps_iff, wire_eq hvmaddr hbias]

theorem anon_maps_iff {m : Mmap} (hvmaddr : seg.vmaddr.toNat % 4096 = 0)
    (hsizes : seg.filesize ≤ seg.vmsize) (h : wireAnon bias seg = some m) :
    m.Maps x ↔ m.Accepted ∧ (roundPage seg.filesize).toNat ≤ (x - (seg.vmaddr + bias)).toNat ∧
      (x - (seg.vmaddr + bias)).toNat < pageUp seg.vmsize.toNat := by
  have hzero : bias = 0 := by
    by_contra hne
    simp [wireAnon_of_ne hne] at h
  subst hzero
  rw [wireAnon_eq hvmaddr] at h
  split at h
  · simp at h
  rename_i hne
  obtain rfl := Option.some.inj h
  have hdelta := delta_toNat hsizes hne
  have hle := pageUp_le seg.vmsize
  have hsub : x - (seg.vmaddr + roundPage seg.filesize) =
      x - (seg.vmaddr + 0) - roundPage seg.filesize := by
    bv_omega
  rw [Mmap.maps_iff]
  refine and_congr_right fun _ => ?_
  dsimp only
  rw [hsub]
  generalize roundPage seg.vmsize - roundPage seg.filesize = delta at hdelta ⊢
  generalize roundPage seg.filesize = size at hdelta ⊢
  generalize x - (seg.vmaddr + 0) = i
  bv_omega

theorem Mmap.ofFile_of_maps {m : Mmap} (h : m.Maps x) :
    m.ofFile file space x = fileByte file (m.offset.toNat + (x - m.addr).toNat) := by
  have hsub : (x - m.addr).toNat = x.toNat - m.addr.toNat := by
    have hlow := h.2.1
    bv_omega
  rw [Mmap.ofFile, if_pos h, hsub]

theorem mapSegment_of_some {m : Mmap} (h : wireAnon bias seg = some m) :
    mapSegment file bias space seg x =
      if m.Maps x then some 0 else (wire bias seg).ofFile file space x := by
  rw [mapSegment, h]
  rfl

theorem mapSegment_of_none (h : wireAnon bias seg = none) :
    mapSegment file bias space seg x = (wire bias seg).ofFile file space x := by
  rw [mapSegment, h]

theorem mapSegment_of_not_maps (h : ∀ m, wireAnon bias seg = some m → ¬ m.Maps x) :
    mapSegment file bias space seg x = (wire bias seg).ofFile file space x := by
  cases hanon : wireAnon bias seg with
  | none => exact mapSegment_of_none hanon
  | some m => rw [mapSegment_of_some hanon, if_neg (h m hanon)]

theorem mapSegment_pointwise {space' : Space} (h : space x = space' x) :
    mapSegment file bias space seg x = mapSegment file bias space' seg x := by
  have hwire : (wire bias seg).ofFile file space x = (wire bias seg).ofFile file space' x := by
    rw [Mmap.ofFile, Mmap.ofFile, h]
  cases hanon : wireAnon bias seg with
  | none => rw [mapSegment_of_none hanon, mapSegment_of_none hanon, hwire]
  | some m => rw [mapSegment_of_some hanon, mapSegment_of_some hanon, hwire]

variable (hvmaddr : seg.vmaddr.toNat % 4096 = 0) (hbias : bias.toNat % 4096 = 0)
  (hsizes : seg.filesize ≤ seg.vmsize)

include hvmaddr hsizes in
theorem not_anon_maps (h : (x - (seg.vmaddr + bias)).toNat < (roundPage seg.filesize).toNat ∨
      pageUp seg.vmsize.toNat ≤ (x - (seg.vmaddr + bias)).toNat) :
    ∀ m, wireAnon bias seg = some m → ¬ m.Maps x := by
  intro m hm
  rw [anon_maps_iff hvmaddr hsizes hm]
  omega

include hvmaddr hbias hsizes in
theorem mapSegment_file
    (h : (x - (seg.vmaddr + bias)).toNat < (roundPage seg.filesize).toNat) :
    mapSegment file bias space seg x =
      if (wire bias seg).Accepted then
        fileByte file (seg.fileoff.toNat + (x - (seg.vmaddr + bias)).toNat)
      else space x := by
  rw [mapSegment_of_not_maps (not_anon_maps hvmaddr hsizes (.inl h))]
  have hmaps := wire_maps_iff (x := x) hvmaddr hbias
  by_cases haccepted : (wire bias seg).Accepted
  · rw [if_pos haccepted, Mmap.ofFile_of_maps (hmaps.mpr ⟨haccepted, h⟩), wire_eq hvmaddr hbias]
  · rw [if_neg haccepted, Mmap.ofFile, if_neg fun hm => haccepted hm.1]

include hvmaddr hbias in
theorem mapSegment_rest (h : (roundPage seg.filesize).toNat ≤ (x - (seg.vmaddr + bias)).toNat)
    (hanon : ∀ m, wireAnon bias seg = some m → ¬ m.Maps x) :
    mapSegment file bias space seg x = space x := by
  have hmaps := wire_maps_iff (x := x) hvmaddr hbias
  rw [mapSegment_of_not_maps hanon, Mmap.ofFile, if_neg]
  rw [hmaps]
  omega

include hvmaddr hbias hsizes in
theorem mapSegment_outside (h : ¬ seg.PageHolds (x - bias)) :
    mapSegment file bias space seg x = space x := by
  have hoffset : x - bias - seg.vmaddr = x - (seg.vmaddr + bias) := by bv_omega
  unfold MappedSegment.PageHolds at h
  rw [hoffset] at h
  refine mapSegment_rest hvmaddr hbias ?_ (not_anon_maps hvmaddr hsizes (.inr (by omega)))
  have hmono := pageUp_mono (BitVec.le_def.mp hsizes)
  rcases roundPage_cases seg.filesize with ⟨-, hrf⟩ | ⟨-, hrf, -⟩
  · omega
  · omega

theorem fileByte_of_some {pos : Nat} {byte : Byte} (h : file[pos]? = some byte) :
    fileByte file pos = some byte := by
  rw [fileByte, h, Option.some_or]

theorem fileByte_behind {pos : Nat} (h : file.length ≤ pos) (hpage : pos < pageUp file.length) :
    fileByte file pos = some 0 := by
  rw [fileByte, List.getElem?_eq_none h, Option.none_or, if_pos hpage]

theorem fileByte_tail {offset size k : Nat} (haligned : offset % 4096 = 0)
    (hpresent : offset + size ≤ file.length) (hk : k < pageUp size)
    (htail : ∀ byte, file[offset + k]? = some byte → byte = 0) :
    fileByte file (offset + k) = some 0 := by
  cases hbyte : file[offset + k]? with
  | some byte => rw [fileByte_of_some hbyte, htail byte hbyte]
  | none =>
    -- The last of the `size` bytes is on the same page.
    refine fileByte_behind (List.getElem?_eq_none_iff.mp hbyte) ?_
    have hpages : offset + pageUp size = pageUp (offset + size) := by
      unfold pageUp
      omega
    have hmono := pageUp_mono hpresent
    omega

theorem wire_accepted (hvmaddr : seg.vmaddr.toNat % 4096 = 0) (hbias : bias.toNat % 4096 = 0)
    (hfileoff : seg.fileoff.toNat % 4096 = 0) :
    (wire bias seg).Accepted ↔ roundPage seg.filesize ≠ 0 ∧
      (seg.vmaddr + bias).toNat + (roundPage seg.filesize).toNat ≤ 2 ^ 32 := by
  rw [wire_eq hvmaddr hbias]
  exact and_congr_right fun _ => and_iff_left hfileoff

theorem offset_eq (seg : MappedSegment) (bias : Word) {i : Nat} (h : i < seg.vmsize.toNat) :
    (seg.vmaddr + bias + BitVec.ofNat 32 i - (seg.vmaddr + bias)).toNat = i := by
  have hv := seg.vmsize.isLt
  bv_omega

variable {segments : List MappedSegment} {base : Space}
variable (hfileoff : seg.fileoff.toNat % 4096 = 0)

theorem le_roundPage {size : Word} (h : roundPage size ≠ 0) :
    (roundPage size).toNat = pageUp size.toNat := by
  rcases roundPage_cases size with ⟨-, hrf⟩ | ⟨-, hrf, -⟩
  · exact hrf
  · exact absurd (BitVec.eq_of_toNat_eq hrf) h

theorem roundPage_pos {size : Word} (h : roundPage size ≠ 0) : 0 < size.toNat := by
  have hrf := le_roundPage h
  refine Nat.pos_of_ne_zero fun hzero => h (BitVec.eq_of_toNat_eq ?_)
  rw [hrf, hzero]
  rfl

theorem anon_accepted_iff (hvmaddr : seg.vmaddr.toNat % 4096 = 0)
    (hne : roundPage seg.vmsize ≠ roundPage seg.filesize) :
    ∃ m, wireAnon 0 seg = some m ∧ (m.Accepted ↔
      (seg.vmaddr + roundPage seg.filesize).toNat +
        (roundPage seg.vmsize - roundPage seg.filesize).toNat ≤ 2 ^ 32) := by
  refine ⟨_, by rw [wireAnon_eq hvmaddr, if_neg hne], ?_⟩
  have hdelta : roundPage seg.vmsize - roundPage seg.filesize ≠ 0 := by bv_omega
  exact (and_iff_right hdelta).trans (and_iff_left rfl)

include hvmaddr hbias hsizes hfileoff in
theorem shows_of_fits (h : FileFits file segments bias seg)
    (hbase : bias ≠ 0 → ∀ x, (x - bias).toNat < reservedSize segments → base x = some 0) :
    Shows file bias (mapSegment file bias base seg) seg := by
  have hfits := BitVec.le_def.mp hsizes
  constructor
  · intro i hi
    obtain ⟨hrf, hend, hlen⟩ := h.wired (by omega)
    have hin : i < (roundPage seg.filesize).toNat := by
      rw [le_roundPage hrf]
      exact hi.trans_le (le_pageUp _)
    have hbyte := List.getElem?_eq_getElem (show seg.fileoff.toNat + i < file.length by omega)
    refine ⟨_, hbyte, ?_⟩
    have hoffset := offset_eq seg bias (hi.trans_le hfits)
    rw [mapSegment_file hvmaddr hbias hsizes (by rwa [hoffset]), hoffset,
      if_pos ((wire_accepted hvmaddr hbias hfileoff).mpr ⟨hrf, hend⟩), fileByte_of_some hbyte]
  · intro i hlow hi
    have hoffset := offset_eq seg bias hi
    by_cases hin : i < (roundPage seg.filesize).toNat
    · have hrf : roundPage seg.filesize ≠ 0 := by
        rintro hzero
        simp [hzero] at hin
      obtain ⟨-, hend, hlen⟩ := h.wired (roundPage_pos hrf)
      rw [mapSegment_file hvmaddr hbias hsizes (by rwa [hoffset]), hoffset,
        if_pos ((wire_accepted hvmaddr hbias hfileoff).mpr ⟨hrf, hend⟩)]
      have htail := h.tail i
      refine fileByte_tail hfileoff hlen ?_ fun byte => htail byte hlow hi hin
      rwa [← le_roundPage hrf]
    · have hrest : (roundPage seg.filesize).toNat < seg.vmsize.toNat := by omega
      by_cases hzero : bias = 0
      · subst hzero
        obtain ⟨hne, hend⟩ := h.filled hrest rfl
        obtain ⟨m, hm, haccepted⟩ := anon_accepted_iff hvmaddr hne
        rw [mapSegment_of_some hm, if_pos]
        rw [anon_maps_iff hvmaddr hsizes hm, hoffset]
        exact ⟨haccepted.mpr hend, by omega, hi.trans_le (le_pageUp _)⟩
      · have hanon : ∀ m, wireAnon bias seg = some m →
            ¬ m.Maps (seg.vmaddr + bias + BitVec.ofNat 32 i) := by
          simp [wireAnon_of_ne hzero]
        rw [mapSegment_rest hvmaddr hbias (by omega) hanon]
        refine hbase hzero _ ?_
        have hroom := h.reserved hrest hzero
        bv_omega

variable (hbase : ∀ x, base x ≠ none → bias ≠ 0 ∧ (x - bias).toNat < reservedSize segments)
  (hroom : bias ≠ 0 → bias.toNat + reservedSize segments ≤ 2 ^ 32)

include hvmaddr hbias hsizes in
theorem mapSegment_of_refused (h : ¬ (wire bias seg).Accepted) {i : Nat}
    (hi : i < seg.filesize.toNat) :
    mapSegment file bias base seg (seg.vmaddr + bias + BitVec.ofNat 32 i) =
      base (seg.vmaddr + bias + BitVec.ofNat 32 i) := by
  have hfits := BitVec.le_def.mp hsizes
  have hoffset := offset_eq seg bias (hi.trans_le hfits)
  by_cases hin : i < (roundPage seg.filesize).toNat
  · rw [mapSegment_file hvmaddr hbias hsizes (by rwa [hoffset]), if_neg h]
  -- The size has wrapped around, and so has that of the whole segment.
  refine mapSegment_rest hvmaddr hbias (by omega) ?_
  have hle := le_pageUp seg.filesize.toNat
  have heq : roundPage seg.vmsize = roundPage seg.filesize := by
    refine BitVec.eq_of_toNat_eq ?_
    rcases roundPage_cases seg.filesize with ⟨hf, hrf⟩ | ⟨hf, hrf, -⟩
    · omega
    · rcases roundPage_cases seg.vmsize with ⟨hv, hrv⟩ | ⟨hv, hrv, -⟩
      · omega
      · omega
  intro m hm
  rw [wireAnon, heq, if_neg (by simp)] at hm
  simp at hm

theorem end_in_range {v : Word} {size range : Nat} (hv : v.toNat % 4096 = 0)
    (hrange : range % 4096 = 0) (hlt : range < 2 ^ 32) (hsize : 0 < size)
    (h : ∀ i < size, (v + BitVec.ofNat 32 i).toNat < range) : v.toNat + pageUp size ≤ range := by
  have hfirst := h 0 hsize
  rw [BitVec.add_zero] at hfirst
  by_contra hlong
  -- The first byte behind the range.
  have hbehind := h (range - v.toNat) (by unfold pageUp at hlong; omega)
  bv_omega

include hvmaddr hbias hsizes hfileoff hbase hroom in
theorem accepted_of_shows (h : Shows file bias (mapSegment file bias base seg) seg)
    (hsize : 0 < seg.filesize.toNat) : (wire bias seg).Accepted := by
  by_contra hrefused
  have hin : ∀ i < seg.filesize.toNat,
      bias ≠ 0 ∧ (seg.vmaddr + BitVec.ofNat 32 i).toNat < reservedSize segments := by
    intro i hi
    obtain ⟨byte, -, hbyte⟩ := h.content i hi
    rw [mapSegment_of_refused hvmaddr hbias hsizes hrefused hi] at hbyte
    have hreserved := hbase (seg.vmaddr + bias + BitVec.ofNat 32 i) (by rw [hbyte]; simp)
    have hsub : seg.vmaddr + bias + BitVec.ofNat 32 i - bias =
        seg.vmaddr + BitVec.ofNat 32 i := by
      bv_omega
    rwa [hsub] at hreserved
  obtain ⟨hnonzero, -⟩ := hin 0 hsize
  have hroom' := hroom hnonzero
  have hpos : 0 < bias.toNat := by bv_omega
  have hend : seg.vmaddr.toNat + pageUp seg.filesize.toNat ≤ reservedSize segments :=
    end_in_range hvmaddr (Nat.mul_mod_left _ _) (by omega) hsize fun i hi => (hin i hi).2
  have hle := le_pageUp seg.filesize.toNat
  refine hrefused ((wire_accepted hvmaddr hbias hfileoff).mpr ?_)
  rcases roundPage_cases seg.filesize with ⟨-, hrf⟩ | ⟨hf, -⟩
  · refine ⟨fun hzero => ?_, ?_⟩
    · rw [hzero] at hrf
      have hrf' : 0 = pageUp seg.filesize.toNat := hrf
      omega
    · rw [hrf]
      bv_omega
  · omega

include hvmaddr hbias hsizes hfileoff hbase hroom in
theorem fits_of_shows (h : Shows file bias (mapSegment file bias base seg) seg) :
    FileFits file segments bias seg := by
  have hfits := BitVec.le_def.mp hsizes
  have haccepted : 0 < seg.filesize.toNat → (wire bias seg).Accepted :=
    accepted_of_shows hvmaddr hbias hsizes hfileoff hbase hroom h
  have hwired : 0 < seg.filesize.toNat → roundPage seg.filesize ≠ 0 ∧
      (seg.vmaddr + bias).toNat + (roundPage seg.filesize).toNat ≤ 2 ^ 32 := fun hsize =>
    (wire_accepted hvmaddr hbias hfileoff).mp (haccepted hsize)
  have hlow : seg.filesize.toNat ≤ (roundPage seg.filesize).toNat := by
    by_cases hsize : 0 < seg.filesize.toNat
    · rw [le_roundPage (hwired hsize).1]
      exact le_pageUp _
    · omega
  refine ⟨fun hsize => ?_, fun i byte hi hvm hin hbyte => ?_, fun hrest hzero => ?_,
    fun hrest hzero => ?_⟩
  · obtain ⟨byte, hbyte, -⟩ := h.content (seg.filesize.toNat - 1) (by omega)
    obtain ⟨hlast, -⟩ := List.getElem?_eq_some_iff.mp hbyte
    exact ⟨(hwired hsize).1, (hwired hsize).2, by omega⟩
  · have hrf : roundPage seg.filesize ≠ 0 := by
      rintro hzero
      simp [hzero] at hin
    have hoffset := offset_eq seg bias hvm
    have hshown := h.zeros i hi hvm
    rw [mapSegment_file hvmaddr hbias hsizes (by rwa [hoffset]), hoffset,
      if_pos (haccepted (roundPage_pos hrf)), fileByte_of_some hbyte] at hshown
    exact Option.some.inj hshown
  · subst hzero
    have hoffset := offset_eq seg 0 hrest
    have hshown := h.zeros _ hlow hrest
    have hmapped : ∃ m, wireAnon 0 seg = some m ∧
        m.Maps (seg.vmaddr + 0 + BitVec.ofNat 32 (roundPage seg.filesize).toNat) := by
      by_contra hnone
      rw [mapSegment_rest hvmaddr hbias (by omega) (by simpa using hnone)] at hshown
      exact (hbase _ (by rw [hshown]; simp)).1 rfl
    obtain ⟨m, hm, hmaps⟩ := hmapped
    have hne : roundPage seg.vmsize ≠ roundPage seg.filesize := by
      intro heq
      rw [wireAnon_eq hvmaddr, if_pos heq] at hm
      simp at hm
    obtain ⟨m', hm', hend⟩ := anon_accepted_iff hvmaddr hne
    obtain rfl := Option.some.inj (hm.symm.trans hm')
    exact ⟨hne, hend.mp hmaps.1⟩
  · have hin : ∀ i, (roundPage seg.filesize).toNat ≤ i → i < seg.vmsize.toNat →
        (seg.vmaddr + BitVec.ofNat 32 i).toNat < reservedSize segments := by
      intro i hi hvm
      have hoffset := offset_eq seg bias hvm
      have hshown := h.zeros i (by omega) hvm
      rw [mapSegment_rest hvmaddr hbias (by omega) (by simp [wireAnon_of_ne hzero])] at hshown
      have hreserved := (hbase (seg.vmaddr + bias + BitVec.ofNat 32 i) (by rw [hshown]; simp)).2
      have hsub : seg.vmaddr + bias + BitVec.ofNat 32 i - bias =
          seg.vmaddr + BitVec.ofNat 32 i := by
        bv_omega
      rwa [hsub] at hreserved
    have hroom' := hroom hzero
    have hpos : 0 < bias.toNat := by bv_omega
    have hfirst := hin _ (Nat.le_refl _) hrest
    rw [BitVec.ofNat_toNat, BitVec.setWidth_eq] at hfirst
    by_contra hlong
    -- The first byte behind the range.
    have hbehind := hin ((roundPage seg.filesize).toNat + (reservedSize segments -
      (seg.vmaddr + roundPage seg.filesize).toNat)) (by omega) (by omega)
    bv_omega

end Segment

/-! ## All segments -/

section Segments

variable {file : List Byte} {segments : List MappedSegment} {reserved : Word}
variable {bias : Word} {seg : MappedSegment} {space space' before : Space}

theorem Shows.congr (hsizes : seg.filesize ≤ seg.vmsize) (h : Shows file bias space seg)
    (heq : ∀ i < seg.vmsize.toNat, space' (seg.vmaddr + bias + BitVec.ofNat 32 i) =
      space (seg.vmaddr + bias + BitVec.ofNat 32 i)) : Shows file bias space' seg where
  content i hi := by
    rw [heq i (hi.trans_le (BitVec.le_def.mp hsizes))]
    exact h.content i hi
  zeros i hlow hi := by
    rw [heq i hi]
    exact h.zeros i hlow hi

theorem mapSegment_overlay (h : WellPlaced segments) (hbias : bias.toNat % 4096 = 0) :
    Overlay (mapSegment file bias) (fun seg x => seg.PageHolds (x - bias)) segments where
  outside seg hseg _ _ := mapSegment_outside (h.vmaddr seg hseg) hbias (h.sizes seg hseg)
  pointwise _ _ _ _ _ := mapSegment_pointwise

theorem foldl_mapSegment (h : WellPlaced segments) (hbias : bias.toNat % 4096 = 0)
    (hseg : seg ∈ segments) :
    Shows file bias (segments.foldl (mapSegment file bias) space) seg ↔
      Shows file bias (mapSegment file bias space seg) seg := by
  have heq : ∀ i < seg.vmsize.toNat,
      segments.foldl (mapSegment file bias) space (seg.vmaddr + bias + BitVec.ofNat 32 i) =
        mapSegment file bias space seg (seg.vmaddr + bias + BitVec.ofNat 32 i) := by
    intro i hi
    refine (mapSegment_overlay h hbias).foldl_of_mem ?_ hseg ?_
    · exact h.disjoint.imp fun hab x => hab (x - bias)
    · have hlt := hi.trans_le (le_pageUp seg.vmsize.toNat)
      have hv := seg.vmsize.isLt
      unfold MappedSegment.PageHolds
      bv_omega
  exact ⟨fun hs => hs.congr (h.sizes seg hseg) fun i hi => (heq i hi).symm,
    fun hs => hs.congr (h.sizes seg hseg) heq⟩

/-- What the first segment is mapped over. -/
def startSpace (segments : List MappedSegment) (reserved : Word) (space : Space) : Space :=
  match segments with
  | [] => space
  | seg :: _ => if seg.vmaddr ≠ 0 then space else reserve reserved (reservedSize segments) space

theorem mapSegments_eq_done {result : Space} (hlen : segments.length ≤ 64) (hseg : seg ∈ segments) :
    mapSegments file segments reserved before = done result ↔
      segments.foldl (mapSegment file (biasOf segments reserved))
        (startSpace segments reserved before) = result := by
  cases segments with
  | nil => simp at hseg
  | cons first rest =>
    rw [mapSegments, if_neg (by omega)]
    exact ⟨done.inj, congrArg done⟩

theorem biasOf_slid (h : Slid segments) : biasOf segments reserved = reserved := by
  obtain ⟨first, rest, rfl, hzero⟩ := h
  exact if_neg fun hne => hne hzero

theorem startSpace_slid (h : Slid segments) : startSpace segments reserved before =
    reserve reserved (reservedSize segments) before := by
  obtain ⟨first, rest, rfl, hzero⟩ := h
  exact if_neg fun hne => hne hzero

theorem biasOf_fixed (h : ¬ Slid segments) : biasOf segments reserved = 0 := by
  cases segments with
  | nil => rfl
  | cons first rest => exact if_pos fun hzero => h ⟨first, rest, rfl, hzero⟩

theorem startSpace_fixed (h : ¬ Slid segments) : startSpace segments reserved before = before := by
  cases segments with
  | nil => rfl
  | cons first rest => exact if_pos fun hzero => h ⟨first, rest, rfl, hzero⟩

theorem biasOf_aligned (h : Slid segments → Reserved segments reserved) :
    (biasOf segments reserved).toNat % 4096 = 0 := by
  by_cases hslid : Slid segments
  · rw [biasOf_slid hslid]
    exact (h hslid).aligned
  · rw [biasOf_fixed hslid]
    rfl

theorem mapSegments_ne_fault :
    mapSegments file segments reserved space ≠ .fault ↔ segments.length ≤ 64 := by
  unfold mapSegments
  split
  · rename_i hlen
    exact iff_of_false (fun h => h rfl) (by omega)
  · rename_i hlen
    refine iff_of_true ?_ (by omega)
    cases segments with
    | nil => exact nofun
    | cons first rest => exact nofun

theorem shows_iff_fits (h : WellPlaced segments)
    (hreserved : Slid segments → Reserved segments reserved) (hseg : seg ∈ segments) :
    (∀ before, Shows file (biasOf segments reserved) (mapSegment file (biasOf segments reserved)
        (startSpace segments reserved before) seg) seg) ↔
      FileFits file segments (biasOf segments reserved) seg := by
  have hvmaddr := h.vmaddr seg hseg
  have hfileoff := h.fileoff seg hseg
  have hsizes := h.sizes seg hseg
  by_cases hslid : Slid segments
  · obtain ⟨haligned, hnonzero, hroom⟩ := hreserved hslid
    rw [biasOf_slid hslid]
    constructor
    · intro hs
      refine fits_of_shows hvmaddr haligned hsizes hfileoff ?_ (fun _ => hroom) (hs fun _ => none)
      intro x hx
      rw [startSpace_slid hslid] at hx
      exact ⟨hnonzero, by_contra fun hout => hx (if_neg hout)⟩
    · intro hfits before
      refine shows_of_fits hvmaddr haligned hsizes hfileoff hfits fun _ x hx => ?_
      rw [startSpace_slid hslid]
      exact if_pos hx
  · rw [biasOf_fixed hslid]
    constructor
    · intro hs
      refine fits_of_shows hvmaddr rfl hsizes hfileoff ?_ (absurd rfl) (hs fun _ => none)
      intro x hx
      rw [startSpace_fixed hslid] at hx
      exact absurd rfl hx
    · intro hfits before
      exact shows_of_fits hvmaddr rfl hsizes hfileoff hfits (absurd rfl)

/-- The size is right unless the difference has wrapped around. -/
theorem anon_size_iff :
    (∀ m, wireAnon bias seg = some m →
        m.length.toNat + (roundPage seg.filesize).toNat = (roundPage seg.vmsize).toNat) ↔
      (bias = 0 → roundPage seg.filesize ≤ roundPage seg.vmsize) := by
  by_cases hzero : bias = 0
  · rw [forall_prop_of_true hzero]
    subst hzero
    unfold wireAnon
    dsimp only
    by_cases hdelta : roundPage seg.vmsize - roundPage seg.filesize = 0
    · rw [if_neg fun h => h.1 hdelta]
      refine iff_of_true nofun ?_
      bv_omega
    · rw [if_pos ⟨hdelta, rfl⟩]
      simp only [Option.some.injEq, forall_eq']
      bv_omega
  · rw [wireAnon_of_ne hzero]
    exact iff_of_true nofun fun h => absurd h hzero

end Segments

/-- **What a loaded image shows.** Its segments show the file and zeros, and no size has wrapped
around, exactly if the array holds the segments, each of them fits its file, and, where nothing is
reserved, the pages of the file are not more than those of the segment. -/
theorem shows_file_iff (file : List Byte) (segments : List MappedSegment) (reserved : Word) :
    ShowsFile file segments reserved ↔
      segments.length ≤ 64 ∧
      (WellPlaced segments → (Slid segments → Reserved segments reserved) →
        ∀ seg ∈ segments, FileFits file segments (biasOf segments reserved) seg) ∧
      (biasOf segments reserved = 0 →
        ∀ seg ∈ segments, roundPage seg.filesize ≤ roundPage seg.vmsize) := by
  have hsizes : (∀ seg ∈ segments, ∀ m, wireAnon (biasOf segments reserved) seg = some m →
        m.length.toNat + (roundPage seg.filesize).toNat = (roundPage seg.vmsize).toNat) ↔
      (biasOf segments reserved = 0 →
        ∀ seg ∈ segments, roundPage seg.filesize ≤ roundPage seg.vmsize) := by
    simp only [anon_size_iff]
    exact ⟨fun h hzero seg hseg => h seg hseg hzero, fun h seg hseg hzero => h hzero seg hseg⟩
  constructor
  · rintro ⟨hsafe, hcontent, hlengths⟩
    have hlen := mapSegments_ne_fault.mp (hsafe fun _ => none)
    refine ⟨hlen, fun hplaced hreserved seg hseg => ?_, hsizes.mp hlengths⟩
    refine (shows_iff_fits hplaced hreserved hseg).mp fun before => ?_
    refine (foldl_mapSegment hplaced (biasOf_aligned hreserved) hseg).mp ?_
    exact hcontent hplaced hreserved before _ ((mapSegments_eq_done hlen hseg).mpr rfl) seg hseg
  · rintro ⟨hlen, hfits, hpages⟩
    refine ⟨fun _ => mapSegments_ne_fault.mpr hlen, ?_, hsizes.mpr hpages⟩
    intro hplaced hreserved before space hrun seg hseg
    rw [mapSegments_eq_done hlen hseg] at hrun
    rw [← hrun, foldl_mapSegment hplaced (biasOf_aligned hreserved) hseg]
    exact (shows_iff_fits hplaced hreserved hseg).mpr (hfits hplaced hreserved seg hseg) before

/-! A file that goes on behind its segment, and a segment that is shorter than its part of the
file. -/

def textFile : List Byte := List.replicate 0x200 1 ++ [7]

def shortSegment : MappedSegment := ⟨⟨"__TEXT", 0, 0x1000, 0, []⟩, 0x200⟩

def longSegment : MappedSegment := ⟨⟨"__TEXT", 0x1000, 0x1000, 0, []⟩, 0x2000⟩

theorem shortSegment_wellPlaced : WellPlaced [shortSegment] where
  disjoint := List.pairwise_singleton _ _
  vmaddr := List.forall_mem_singleton.mpr rfl
  fileoff := List.forall_mem_singleton.mpr rfl
  sizes := List.forall_mem_singleton.mpr (by decide)

/-- The byte behind `filesize` is the next byte of the file. The second segment makes the loop ask
for 0xfffff000 bytes. -/
theorem not_shows_file :
    ¬ ShowsFile textFile [shortSegment] 0x10000 ∧
      wireAnon 0 longSegment = some ⟨0x3000, 0xfffff000, 0⟩ ∧
      ¬ ShowsFile [] [longSegment] 0 := by
  refine ⟨fun h => ?_, by decide, fun h => ?_⟩
  · have hreserved : Reserved [shortSegment] 0x10000 := ⟨rfl, by decide, by decide⟩
    have hshows := h.content shortSegment_wellPlaced (fun _ => hreserved) (fun _ => none) _ rfl
      shortSegment List.mem_cons_self
    have hzero := hshows.zeros 0x200 (by decide) (by decide)
    have hseven : [shortSegment].foldl (mapSegment textFile 0x10000)
        (startSpace [shortSegment] 0x10000 fun _ => none) 0x10200 = some 7 := by decide +kernel
    have hseven' := hseven.symm.trans hzero
    simp at hseven'
  · have hsize : 0xfffff000 + 0x2000 = 0x1000 :=
      h.sizes longSegment List.mem_cons_self ⟨0x3000, 0xfffff000, 0⟩ (by decide)
    simp at hsize

end LibSystem.Lnk
