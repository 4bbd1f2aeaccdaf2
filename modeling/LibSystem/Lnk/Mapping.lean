import LibSystem.Lnk.Loads
import LibSystem.Words

/-!
# Mapping a file

The part of `MachObject::instantiateFromFile` that asks for memory. The range to
reserve is as long as all segments together, and the segments are placed by their
addresses.
-/

namespace LibSystem.Lnk

open Outcome

/-- A segment with the field that only the mapping looks at. -/
structure MappedSegment extends SegmentCommand where
  filesize : Word

def pageMask : Word := 0xfff

def roundPage (x : Word) : Word := (x + pageMask) &&& ~~~pageMask

def pageAlignPtr (x : Addr) : Addr := roundPage x

/-- `map_size`, a `uint32_t`. -/
def mapSize (segments : List MappedSegment) : Word :=
  segments.foldl (fun size seg => size + seg.vmsize) 0

/-- `reserved` is what `mm::reserve(map_size)` returns. -/
def loaderBias (segments : List SegmentCommand) (reserved : Word) : Word :=
  match segments with
  | [] => 0
  | seg :: _ => if seg.vmaddr ≠ 0 then 0 else reserved

/-- A call of `mmap` with `MAP_FIXED`. -/
structure Mmap where
  addr : Addr
  length : Word
  offset : Word
  deriving DecidableEq

/-- The kernel refuses an empty range, one that runs past the end of the address space, and an
offset inside a page. -/
def Mmap.Accepted (m : Mmap) : Prop :=
  m.length ≠ 0 ∧ m.addr.toNat + m.length.toNat ≤ 2 ^ 32 ∧ m.offset.toNat % 4096 = 0

def Mmap.Maps (m : Mmap) (x : Addr) : Prop :=
  m.Accepted ∧ m.addr.toNat ≤ x.toNat ∧ x.toNat < m.addr.toNat + m.length.toNat

def wire (loaderBias : Word) (seg : MappedSegment) : Mmap :=
  ⟨pageAlignPtr (seg.vmaddr + loaderBias), roundPage seg.filesize, seg.fileoff⟩

/-- What zero-fills the rest of the segment, if the memory has not been reserved. -/
def wireAnon (loaderBias : Word) (seg : MappedSegment) : Option Mmap :=
  let mmFilesize := roundPage seg.filesize
  let delta := roundPage seg.vmsize - mmFilesize
  if delta ≠ 0 ∧ loaderBias = 0 then
    some ⟨pageAlignPtr (seg.vmaddr + loaderBias + mmFilesize), delta, 0⟩
  else none

def mmaps (loaderBias : Word) (segments : List MappedSegment) : List Mmap :=
  segments.flatMap fun seg => wire loaderBias seg :: (wireAnon loaderBias seg).toList

/-- `x` is in `[bias + vmaddr, bias + vmaddr + vmsize)`. -/
def MappedSegment.Holds (seg : MappedSegment) (loaderBias : Word) (x : Addr) : Prop :=
  (x - (seg.vmaddr + loaderBias)).toNat < seg.vmsize.toNat

theorem instantiateFromFile_slide {nn path : String} {file : File} {lib : ImageId} {s s' : Linker}
    (h : instantiateFromFile nn path file s = done (lib, s')) : ∃ obj, s'.images[lib]? = some obj ∧
      obj.fSlide = loaderBias (file.commands.filterMap LoadCommand.segment?) file.reserved := by
  unfold instantiateFromFile at h
  split at h
  · simp at h
  dsimp only at h
  split at h
  · simp at h
  split at h
  · simp at h
  · rename_i seg rest hsegments
    simp only [done.injEq, Prod.mk.injEq] at h
    obtain ⟨rfl, rfl⟩ := h
    refine ⟨_, List.getElem?_concat_length, ?_⟩
    rw [hsegments]
    rfl

/-! ## Pages -/

theorem and_not_pageMask (x : Word) : (x &&& ~~~pageMask).toNat = x.toNat / 4096 * 4096 :=
  Mem.and_not_mask x (k := 12) (by decide)

theorem roundPage_toNat (x : Word) :
    (roundPage x).toNat = (x.toNat + 4095) % 2 ^ 32 / 4096 * 4096 := by
  unfold roundPage
  rw [and_not_pageMask, BitVec.toNat_add]
  rfl

theorem roundPage_add (x bias : Word) (h : bias.toNat % 4096 = 0) :
    roundPage (x + bias) = roundPage x + bias := by
  apply BitVec.eq_of_toNat_eq
  rw [BitVec.toNat_add, roundPage_toNat, roundPage_toNat, BitVec.toNat_add]
  have hx := x.isLt
  have hbias := bias.isLt
  omega

/-! ## Loads at a reserved range -/

/-- `map_size` bytes, rounded up to pages. -/
def reservedSize (segments : List MappedSegment) : Nat :=
  ((mapSize segments).toNat + 4095) / 4096 * 4096

/-- A file whose first segment is at 0, and the range that has been reserved for it: whole pages,
not at the null page, and inside the address space. -/
structure SlidLoad where
  segments : List MappedSegment
  reserved : Word
  first : ∃ seg rest, segments = seg :: rest ∧ seg.vmaddr = 0
  aligned : reserved.toNat % 4096 = 0
  nonzero : reserved ≠ 0
  room : reserved.toNat + reservedSize segments ≤ 2 ^ 32

namespace SlidLoad

def bias (load : SlidLoad) : Word :=
  loaderBias (load.segments.map (·.toSegmentCommand)) load.reserved

def InRange (load : SlidLoad) (x : Addr) : Prop :=
  load.reserved.toNat ≤ x.toNat ∧ x.toNat < load.reserved.toNat + reservedSize load.segments

/-- `x` is on a page that has been mapped, or in a segment. -/
def Covers (load : SlidLoad) (x : Addr) : Prop :=
  (∃ m ∈ mmaps load.bias load.segments, m.Maps x) ∨
    ∃ seg ∈ load.segments, seg.Holds load.bias x

def Inside (load : SlidLoad) : Prop := ∀ x, load.Covers x → load.InRange x

/-- The segments end before the reserved size, and so do their pages in the file, as far as the
kernel maps them. -/
def Fits (load : SlidLoad) : Prop := ∀ seg ∈ load.segments,
  (seg.vmsize = 0 ∨ seg.vmaddr.toNat + seg.vmsize.toNat ≤ reservedSize load.segments) ∧
    ((wire load.reserved seg).Accepted →
      (pageAlignPtr seg.vmaddr).toNat + (roundPage seg.filesize).toNat ≤ reservedSize load.segments)

instance (m : Mmap) : Decidable m.Accepted := by
  unfold Mmap.Accepted
  infer_instance

instance (load : SlidLoad) : Decidable load.Fits := by
  unfold Fits
  infer_instance

instance (seg : MappedSegment) (loaderBias : Word) (x : Addr) :
    Decidable (seg.Holds loaderBias x) := by
  unfold MappedSegment.Holds
  infer_instance

theorem bias_eq (load : SlidLoad) : load.bias = load.reserved := by
  obtain ⟨seg, rest, hsegments, hfirst⟩ := load.first
  unfold bias
  rw [hsegments]
  simp [loaderBias, hfirst]

theorem mem_mmaps {load : SlidLoad} {m : Mmap} :
    m ∈ mmaps load.bias load.segments ↔ ∃ seg ∈ load.segments, m = wire load.reserved seg := by
  have hanon : ∀ seg, wireAnon load.reserved seg = none := by
    intro seg
    simpa [wireAnon] using fun _ => load.nonzero
  simp only [mmaps, load.bias_eq, hanon, Option.toList_none, List.mem_flatMap, List.mem_singleton]

theorem inRange_iff (load : SlidLoad) (x : Addr) :
    load.InRange x ↔ (x - load.reserved).toNat < reservedSize load.segments := by
  have hroom := load.room
  unfold InRange
  bv_omega

theorem reserved_pos (load : SlidLoad) : 0 < load.reserved.toNat := by
  have := load.nonzero
  bv_omega

theorem holds_inRange_iff (load : SlidLoad) (seg : MappedSegment) :
    (∀ x, seg.Holds load.reserved x → load.InRange x) ↔
      seg.vmsize = 0 ∨ seg.vmaddr.toNat + seg.vmsize.toNat ≤ reservedSize load.segments := by
  have hroom := load.room
  have hpos := load.reserved_pos
  have hshift : ∀ y : Addr, y + load.reserved - (seg.vmaddr + load.reserved) = y - seg.vmaddr := by
    intro y
    bv_omega
  have hback : ∀ y : Addr, y + load.reserved - load.reserved = y := by
    intro y
    bv_omega
  unfold MappedSegment.Holds
  simp only [inRange_iff]
  constructor
  · intro h
    by_cases hsize : seg.vmsize = 0
    · exact .inl hsize
    refine .inr (Nat.not_lt.mp fun hlong => ?_)
    -- The segment begins in the range, and so has the first address behind it.
    have hbegin := h (seg.vmaddr + load.reserved) (by bv_omega)
    rw [hback] at hbegin
    have hbehind := h (BitVec.ofNat 32 (reservedSize load.segments) + load.reserved) (by
      rw [hshift]
      bv_omega)
    rw [hback, BitVec.toNat_ofNat, Nat.mod_eq_of_lt (by omega)] at hbehind
    exact Nat.lt_irrefl _ hbehind
  · intro h x hx
    bv_omega

theorem wire_inRange_iff (load : SlidLoad) (seg : MappedSegment) :
    (∀ x, (wire load.reserved seg).Maps x → load.InRange x) ↔
      ((wire load.reserved seg).Accepted →
        (pageAlignPtr seg.vmaddr).toNat + (roundPage seg.filesize).toNat ≤
          reservedSize load.segments) := by
  have hroom := load.room
  have hpos := load.reserved_pos
  have hbase : pageAlignPtr (seg.vmaddr + load.reserved) =
      pageAlignPtr seg.vmaddr + load.reserved := roundPage_add _ _ load.aligned
  unfold Mmap.Maps InRange Mmap.Accepted wire
  dsimp only
  rw [hbase]
  generalize pageAlignPtr seg.vmaddr = v
  generalize roundPage seg.filesize = len
  constructor
  · intro h haccepted
    obtain ⟨hlen, hend, -⟩ := id haccepted
    have hlenpos : 0 < len.toNat := by bv_omega
    have hlast : (v + load.reserved + (len - 1)).toNat =
        (v + load.reserved).toNat + len.toNat - 1 := by bv_omega
    have hbegin := h (v + load.reserved) ⟨haccepted, by omega, by omega⟩
    have hfinal := h (v + load.reserved + (len - 1)) ⟨haccepted, by omega, by omega⟩
    rw [hlast] at hfinal
    bv_omega
  · intro h x hx
    have hfits := h hx.1
    bv_omega

theorem covers_iff (load : SlidLoad) (x : Addr) : load.Covers x ↔
    ∃ seg ∈ load.segments, seg.Holds load.reserved x ∨ (wire load.reserved seg).Maps x := by
  unfold Covers
  simp only [mem_mmaps]
  rw [load.bias_eq]
  constructor
  · rintro (⟨m, ⟨seg, hseg, rfl⟩, hx⟩ | ⟨seg, hseg, hx⟩)
    · exact ⟨seg, hseg, .inr hx⟩
    · exact ⟨seg, hseg, .inl hx⟩
  · rintro ⟨seg, hseg, hx | hx⟩
    · exact .inr ⟨seg, hseg, hx⟩
    · exact .inl ⟨_, ⟨seg, hseg, rfl⟩, hx⟩

theorem inside_iff_fits (load : SlidLoad) : load.Inside ↔ load.Fits := by
  unfold Inside Fits
  simp only [← holds_inRange_iff, ← wire_inRange_iff, covers_iff]
  constructor
  · exact fun h seg hseg =>
      ⟨fun x hx => h x ⟨seg, hseg, .inl hx⟩, fun x hx => h x ⟨seg, hseg, .inr hx⟩⟩
  · rintro h x ⟨seg, hseg, hx | hx⟩
    · exact (h seg hseg).1 x hx
    · exact (h seg hseg).2 x hx

/-- No address belongs to both. -/
def Apart (a b : SlidLoad) : Prop := ∀ x, ¬ (a.Covers x ∧ b.Covers x)

/-- Each range that is reserved is free of what has been reserved or mapped before. -/
def Fresh (loads : List SlidLoad) : Prop :=
  loads.Pairwise fun a b => ∀ x, b.InRange x → ¬ a.InRange x ∧ ¬ a.Covers x

/-- **When loading maps over nothing.** In any sequence of loads, each stays in its range and all
are apart if and only if the segments of each fit into the reserved size by their addresses. -/
theorem loads_inside_iff {loads : List SlidLoad} (hfresh : Fresh loads) :
    ((∀ load ∈ loads, load.Inside) ∧ loads.Pairwise Apart) ↔ ∀ load ∈ loads, load.Fits := by
  simp only [← inside_iff_fits]
  refine ⟨fun h => h.1, fun h => ⟨h, hfresh.imp_of_mem ?_⟩⟩
  intro a b ha hb hfree x hx
  exact (hfree x (h b hb x hx.2)).2 hx.1

/-! ## Small files -/

/-- `__TEXT` at 0 and `__DATA` at 0x4000, of one page each. -/
def gapSegments : List MappedSegment :=
  [⟨⟨"__TEXT", 0, 0x1000, 0, []⟩, 0x1000⟩, ⟨⟨"__DATA", 0x4000, 0x1000, 0x1000, []⟩, 0x1000⟩]

/-- One page at 0. -/
def pageSegments : List MappedSegment := [⟨⟨"__TEXT", 0, 0x1000, 0, []⟩, 0x1000⟩]

def gapLoad : SlidLoad where
  segments := gapSegments
  reserved := 0x10000
  first := ⟨_, _, rfl, rfl⟩
  aligned := rfl
  nonzero := by decide
  room := by decide

/-- `address` is a multiple of the page size, not 0, and not the last page. -/
def pageLoad (address : Word) (aligned : address.toNat % 4096 = 0) (nonzero : address ≠ 0)
    (room : address.toNat + 4096 ≤ 2 ^ 32) : SlidLoad where
  segments := pageSegments
  reserved := address
  first := ⟨_, _, rfl, rfl⟩
  aligned := aligned
  nonzero := nonzero
  room := room

/-- A library of one page, at the place where `gapLoad` puts its second segment. -/
def victimLoad : SlidLoad := pageLoad 0x14000 rfl (by decide) (by decide)

theorem fresh_pair {a b : SlidLoad} (ha : a.Fits)
    (hranges : ∀ x, b.InRange x → ¬ a.InRange x) : Fresh [a, b] := by
  refine List.pairwise_pair.mpr fun x hx => ⟨hranges x hx, fun hcovers => ?_⟩
  exact hranges x hx (a.inside_iff_fits.mpr ha x hcovers)

theorem loads_inside_pages :
    ((∀ load ∈ [pageLoad 0x10000 rfl (by decide) (by decide), victimLoad], load.Inside) ∧
      [pageLoad 0x10000 rfl (by decide) (by decide), victimLoad].Pairwise Apart) ↔
      ∀ load ∈ [pageLoad 0x10000 rfl (by decide) (by decide), victimLoad], load.Fits := by
  refine loads_inside_iff (fresh_pair (by decide) fun x hx ha => ?_)
  have hlow : 0x14000 ≤ x.toNat := hx.1
  have hhigh : x.toNat < 0x11000 := ha.2
  omega

/-- The second segment of the file is wired over a page of the other library. -/
theorem gapLoad_maps_over :
    Fresh [victimLoad, gapLoad] ∧
      wire gapLoad.reserved ⟨⟨"__DATA", 0x4000, 0x1000, 0x1000, []⟩, 0x1000⟩ =
        ⟨0x14000, 0x1000, 0x1000⟩ ∧
      ¬ gapLoad.InRange 0x14000 ∧ gapLoad.Covers 0x14000 ∧
      victimLoad.Covers 0x14000 ∧
      ¬ ((∀ load ∈ [victimLoad, gapLoad], load.Inside) ∧ [victimLoad, gapLoad].Pairwise Apart) := by
  have hout : ¬ gapLoad.InRange 0x14000 := by
    intro h
    have hhigh : 0x14000 < 0x12000 := h.2
    omega
  have hgap : gapLoad.Covers 0x14000 :=
    (gapLoad.covers_iff _).mpr ⟨_, List.mem_cons_of_mem _ List.mem_cons_self, .inl (by decide)⟩
  have hvictim : victimLoad.Covers 0x14000 :=
    (victimLoad.covers_iff _).mpr ⟨_, List.mem_cons_self, .inl (by decide)⟩
  refine ⟨fresh_pair (by decide) fun x hx ha => ?_, by decide, hout, hgap, hvictim, fun h => ?_⟩
  · have hhigh : x.toNat < 0x12000 := hx.2
    have hlow : 0x14000 ≤ x.toNat := ha.1
    omega
  · exact List.rel_of_pairwise_cons h.2 (by simp) _ ⟨hvictim, hgap⟩

end SlidLoad

end LibSystem.Lnk
