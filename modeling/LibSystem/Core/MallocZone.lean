import LibSystem.Memory
import Mathlib.Data.Fin.Basic
import Mathlib.Data.List.FinRange

/-!
# The zone of a pointer

`malloc_zone_from_ptr` of `malloc_zone.c` asks the mspace of every zone, by
`XXX_mspace_has_pointer` of `dlmalloc.c`.
-/

namespace LibSystem.Core

/-- `struct malloc_segment`, less the pointer to the next one. -/
structure MallocSegment where
  base : Addr
  size : Word
  sflags : Word
  deriving DecidableEq

def useMmapBit : Word := 1
def externBit : Word := 8

namespace MallocSegment

def IsMmapped (sp : MallocSegment) : Prop := sp.sflags &&& useMmapBit ≠ 0

def IsExtern (sp : MallocSegment) : Prop := sp.sflags &&& externBit ≠ 0

instance (sp : MallocSegment) : Decidable sp.IsMmapped := inferInstanceAs (Decidable (_ ≠ _))
instance (sp : MallocSegment) : Decidable sp.IsExtern := inferInstanceAs (Decidable (_ ≠ _))

end MallocSegment

/-- An mspace as far as it is looked at: its segments, from `seg` on. -/
abbrev Mspace := List MallocSegment

/-- `XXX_mspace_has_pointer`. Without footers `ok_magic` is 1. -/
def mspaceHasPointer : Mspace → Addr → Bool
  | [], _ => false
  | sp :: next, ptr =>
    let «end» := sp.base + sp.size
    if sp.IsMmapped ∧ ¬sp.IsExtern then
      if sp.base ≤ ptr ∧ ptr ≤ «end» then true else mspaceHasPointer next ptr
    else mspaceHasPointer next ptr

abbrev maxZones : Nat := 1024

structure OSMemoryZone where
  /-- Absent is `NULL`. -/
  memorySpace : Option Mspace
  registred : Bool

/-- The variables of `malloc_zone.c`. A pointer to a zone is an index, if it is not `NULL`. -/
structure Zones where
  zones : Fin maxZones → OSMemoryZone
  defaultZone : Option (Fin maxZones)

/-- The condition of the loop in `malloc_zone_from_ptr`. -/
def OSMemoryZone.hasPointer (zone : OSMemoryZone) (ptr : Addr) : Bool :=
  zone.registred &&
    match zone.memorySpace with
    | none => false
    | some msp => mspaceHasPointer msp ptr

def mallocZoneFromPtr (z : Zones) (ptr : Addr) : Option (Fin maxZones) :=
  match (List.finRange maxZones).find? fun i => (z.zones i).hasPointer ptr with
  | none => z.defaultZone
  | some i => some i

/-! ## Owners -/

namespace MallocSegment

/-- `ptr` is in the half-open range of the segment. -/
def Contains (sp : MallocSegment) (ptr : Addr) : Prop :=
  sp.base.toNat ≤ ptr.toNat ∧ ptr.toNat < sp.base.toNat + sp.size.toNat

/-- The range ends at `ptr`, without it. -/
def EndsAt (sp : MallocSegment) (ptr : Addr) : Prop :=
  sp.base.toNat + sp.size.toNat = ptr.toNat

/-- The range does not reach the top of the address space. -/
def BelowTop (sp : MallocSegment) : Prop := sp.base.toNat + sp.size.toNat < 2 ^ 32

instance (sp : MallocSegment) (ptr : Addr) : Decidable (sp.EndsAt ptr) :=
  inferInstanceAs (Decidable (_ = _))
instance (sp : MallocSegment) : Decidable sp.BelowTop := inferInstanceAs (Decidable (_ < _))

end MallocSegment

/-- The segments that the search of zone `i` comes to. -/
def Zones.segments (z : Zones) (i : Fin maxZones) : List MallocSegment :=
  if (z.zones i).registred then ((z.zones i).memorySpace).getD [] else []

def Zones.Owns (z : Zones) (i : Fin maxZones) (ptr : Addr) : Prop :=
  ∃ sp ∈ z.segments i, sp.Contains ptr

/-- The default zone has no mspace, and those of the others are mmapped and apart. -/
structure Zones.Valid (z : Zones) : Prop where
  default : ∀ i, z.defaultZone = some i → (z.zones i).memorySpace = none
  mmapped : ∀ i, ∀ sp ∈ z.segments i, sp.IsMmapped ∧ ¬sp.IsExtern
  apart : ∀ i j, i ≠ j → ∀ sp ∈ z.segments i, ∀ sp' ∈ z.segments j, ∀ ptr,
    sp.Contains ptr → ¬sp'.Contains ptr

/-- What the function is for. -/
structure FindsOwner (z : Zones) (ptr : Addr) : Prop where
  owner : ∀ i, z.Owns i ptr → mallocZoneFromPtr z ptr = some i
  default : (∀ i, ¬z.Owns i ptr) → mallocZoneFromPtr z ptr = z.defaultZone

/-! ## One mspace -/

theorem hit_iff {sp : MallocSegment} {ptr : Addr} :
    sp.base ≤ ptr ∧ ptr ≤ sp.base + sp.size ↔
      sp.Contains ptr ∧ sp.BelowTop ∨ sp.EndsAt ptr := by
  have hbase := sp.base.isLt
  have hsize := sp.size.isLt
  have hptr := ptr.isLt
  rw [BitVec.le_def, BitVec.le_def, BitVec.toNat_add]
  unfold MallocSegment.Contains MallocSegment.BelowTop MallocSegment.EndsAt
  omega

theorem mspaceHasPointer_iff {msp : Mspace} (h : ∀ sp ∈ msp, sp.IsMmapped ∧ ¬sp.IsExtern)
    {ptr : Addr} : mspaceHasPointer msp ptr = true ↔
      ∃ sp ∈ msp, sp.base ≤ ptr ∧ ptr ≤ sp.base + sp.size := by
  induction msp with
  | nil => simp [mspaceHasPointer]
  | cons sp next ih =>
    obtain ⟨hsp, hnext⟩ := List.forall_mem_cons.mp h
    rw [mspaceHasPointer, if_pos hsp, List.exists_mem_cons_iff, ← ih hnext]
    split
    · rename_i hhit
      exact iff_of_true rfl (.inl hhit)
    · rename_i hmiss
      exact ⟨.inr, fun h => h.resolve_left hmiss⟩

section

variable {z : Zones} {ptr : Addr}

theorem hasPointer_iff (hz : z.Valid) {i : Fin maxZones} :
    (z.zones i).hasPointer ptr = true ↔
      ∃ sp ∈ z.segments i, sp.Contains ptr ∧ sp.BelowTop ∨ sp.EndsAt ptr := by
  have hmmapped := hz.mmapped i
  simp only [← hit_iff]
  unfold Zones.segments at hmmapped ⊢
  unfold OSMemoryZone.hasPointer
  cases hreg : (z.zones i).registred with
  | false => simp
  | true =>
    cases hmem : (z.zones i).memorySpace with
    | none => simp
    | some msp =>
      simp only [hreg, hmem, if_true, Option.getD_some] at hmmapped
      simpa using mspaceHasPointer_iff hmmapped

end

theorem find?_finRange {n : Nat} {p : Fin n → Bool} {i : Fin n} :
    (List.finRange n).find? p = some i ↔ p i = true ∧ ∀ j < i, ¬p j = true := by
  rw [List.find?_eq_some_iff_getElem]
  refine and_congr_right fun _ => ⟨?_, fun h => ⟨i, by simp, by simp, fun j hj => ?_⟩⟩
  · rintro ⟨k, hk, rfl, hbefore⟩ j hj
    have hmiss := hbefore j (by simpa [Fin.lt_def] using hj)
    simpa using hmiss
  · have hmiss := h ⟨j, by omega⟩ (Fin.lt_def.mpr hj)
    simpa using hmiss

/-! ## All zones -/

section

variable {z : Zones} {ptr : Addr}

theorem mallocZoneFromPtr_of_first {i : Fin maxZones} (h : (z.zones i).hasPointer ptr = true)
    (hfirst : ∀ j < i, ¬(z.zones j).hasPointer ptr = true) :
    mallocZoneFromPtr z ptr = some i := by
  have hfind : (List.finRange maxZones).find? (fun i => (z.zones i).hasPointer ptr) = some i :=
    find?_finRange.mpr ⟨h, hfirst⟩
  unfold mallocZoneFromPtr
  rw [hfind]

theorem mallocZoneFromPtr_of_none (h : ∀ i, ¬(z.zones i).hasPointer ptr = true) :
    mallocZoneFromPtr z ptr = z.defaultZone := by
  have hfind : (List.finRange maxZones).find? (fun i => (z.zones i).hasPointer ptr) = none :=
    List.find?_eq_none.mpr fun i _ => h i
  unfold mallocZoneFromPtr
  rw [hfind]

theorem Zones.Valid.ne_default (hz : z.Valid) {i : Fin maxZones} {sp : MallocSegment}
    (h : sp ∈ z.segments i) : z.defaultZone ≠ some i := by
  intro hdefault
  have hnone := hz.default i hdefault
  rw [Zones.segments, hnone] at h
  split at h <;> simp at h

theorem first_of_answer (hz : z.Valid) {i : Fin maxZones} {sp : MallocSegment}
    (hsp : sp ∈ z.segments i) (h : mallocZoneFromPtr z ptr = some i) :
    (z.zones i).hasPointer ptr = true ∧ ∀ j < i, ¬(z.zones j).hasPointer ptr = true := by
  unfold mallocZoneFromPtr at h
  split at h
  · exact absurd h (hz.ne_default hsp)
  · rename_i hfind
    obtain rfl := Option.some.inj h
    exact find?_finRange.mp hfind

theorem Zones.Valid.owner_unique (hz : z.Valid) {i j : Fin maxZones} (hi : z.Owns i ptr)
    (hj : z.Owns j ptr) : i = j := by
  obtain ⟨sp, hsp, hin⟩ := hi
  obtain ⟨sp', hsp', hin'⟩ := hj
  by_contra hne
  exact hz.apart i j hne sp hsp sp' hsp' ptr hin hin'

theorem findsOwner_of (hz : z.Valid)
    (htop : ∀ i, z.Owns i ptr → (z.zones i).hasPointer ptr = true)
    (hends : ∀ j, ∀ sp ∈ z.segments j, sp.EndsAt ptr → ∃ i ≤ j, z.Owns i ptr) :
    FindsOwner z ptr := by
  have howner : ∀ j, (z.zones j).hasPointer ptr = true → ∃ i ≤ j, z.Owns i ptr := by
    intro j hj
    obtain ⟨sp, hsp, ⟨hin, -⟩ | hend⟩ := (hasPointer_iff hz).mp hj
    · exact ⟨j, le_refl j, sp, hsp, hin⟩
    · exact hends j sp hsp hend
  constructor
  · intro i hi
    refine mallocZoneFromPtr_of_first (htop i hi) fun j hlt hj => ?_
    obtain ⟨k, hk, hown⟩ := howner j hj
    rw [hz.owner_unique hown hi] at hk
    exact absurd hlt (not_lt.mpr hk)
  · intro hnone
    refine mallocZoneFromPtr_of_none fun j hj => ?_
    obtain ⟨k, -, hown⟩ := howner j hj
    exact hnone k hown

theorem FindsOwner.ends (hz : z.Valid) (h : FindsOwner z ptr) {j : Fin maxZones}
    {sp : MallocSegment} (hsp : sp ∈ z.segments j) (hend : sp.EndsAt ptr) :
    ∃ i ≤ j, z.Owns i ptr := by
  have hj : (z.zones j).hasPointer ptr = true := (hasPointer_iff hz).mpr ⟨sp, hsp, .inr hend⟩
  by_cases howned : ∃ i, z.Owns i ptr
  · obtain ⟨i, hi⟩ := howned
    obtain ⟨sp', hsp', hin⟩ := hi
    obtain ⟨-, hfirst⟩ := first_of_answer hz hsp' (h.owner i ⟨sp', hsp', hin⟩)
    exact ⟨i, not_lt.mp fun hlt => hfirst j hlt hj, sp', hsp', hin⟩
  · -- Somebody answers, who has a segment, and the default zone has none.
    have hanswer := h.default (not_exists.mp howned)
    unfold mallocZoneFromPtr at hanswer
    split at hanswer
    · rename_i hfind
      exact absurd hj (List.find?_eq_none.mp hfind j (List.mem_finRange j))
    · rename_i i hfind
      obtain ⟨sp', hsp', -⟩ := (hasPointer_iff hz).mp (find?_finRange.mp hfind).1
      exact absurd hanswer.symm (hz.ne_default hsp')

end

/-- The owner is found if its segment ends below the top of the address space (or another of its
segments ends at the pointer), and no segment of a zone before it ends at the pointer. -/
theorem findsOwner_iff (z : Zones) (hz : z.Valid) (ptr : Addr) :
    FindsOwner z ptr ↔
      (∀ i, z.Owns i ptr →
        ∃ sp ∈ z.segments i, sp.Contains ptr ∧ sp.BelowTop ∨ sp.EndsAt ptr) ∧
      ∀ j, ∀ sp ∈ z.segments j, sp.EndsAt ptr → ∃ i ≤ j, z.Owns i ptr := by
  constructor
  · intro h
    refine ⟨fun i hi => ?_, fun j sp hsp hend => h.ends hz hsp hend⟩
    obtain ⟨sp, hsp, hin⟩ := hi
    exact (hasPointer_iff hz).mp (first_of_answer hz hsp (h.owner i ⟨sp, hsp, hin⟩)).1
  · rintro ⟨htop, hends⟩
    exact findsOwner_of hz (fun i hi => (hasPointer_iff hz).mpr (htop i hi)) hends

/-- The default zone and two more, whose segments are adjacent. -/
def twoZones : Zones where
  zones i :=
    if i = 1023 then ⟨none, true⟩
    else if i = 1022 then ⟨some [⟨0x2000, 0x1000, useMmapBit⟩], true⟩
    else if i = 1021 then ⟨some [⟨0x1000, 0x1000, useMmapBit⟩], true⟩
    else ⟨none, false⟩
  defaultZone := some 1023

theorem mem_twoZones {i : Fin maxZones} {sp : MallocSegment} (h : sp ∈ twoZones.segments i) :
    i = 1022 ∧ sp = ⟨0x2000, 0x1000, useMmapBit⟩ ∨
      i = 1021 ∧ sp = ⟨0x1000, 0x1000, useMmapBit⟩ := by
  unfold Zones.segments twoZones at h
  dsimp only at h
  split_ifs at h <;> simp_all

theorem twoZones_valid : twoZones.Valid where
  default i h := by
    obtain rfl : 1023 = i := Option.some.inj h
    rfl
  mmapped i sp h := by
    obtain ⟨-, rfl⟩ | ⟨-, rfl⟩ := mem_twoZones h <;> decide
  apart i j hij sp h sp' h' ptr hin hin' := by
    obtain ⟨rfl, rfl⟩ | ⟨rfl, rfl⟩ := mem_twoZones h <;>
      obtain ⟨rfl, rfl⟩ | ⟨rfl, rfl⟩ := mem_twoZones h'
    · exact hij rfl
    · have hlow := hin.1
      have hhigh := hin'.2
      simp at hlow hhigh
      omega
    · have hlow := hin'.1
      have hhigh := hin.2
      simp at hlow hhigh
      omega
    · exact hij rfl

theorem upper_owns {ptr : Addr} (h : 0x2000 ≤ ptr.toNat) (h' : ptr.toNat < 0x3000) :
    twoZones.Owns 1022 ptr :=
  ⟨⟨0x2000, 0x1000, useMmapBit⟩, by decide +kernel, h, h'⟩

/-- A pointer into the middle of a segment. -/
theorem findsOwner_inside : FindsOwner twoZones 0x2800 := by
  refine (findsOwner_iff twoZones twoZones_valid 0x2800).mpr ⟨fun i hi => ?_, ?_⟩
  · obtain ⟨sp, hsp, hin⟩ := hi
    refine ⟨sp, hsp, .inl ⟨hin, ?_⟩⟩
    obtain ⟨-, rfl⟩ | ⟨-, rfl⟩ := mem_twoZones hsp <;> decide
  · intro j sp hsp hend
    obtain ⟨-, rfl⟩ | ⟨-, rfl⟩ := mem_twoZones hsp <;> exact absurd hend (by decide)

/-- The first pointer of a segment goes to the zone whose segment ends there, and a pointer behind
all segments to the zone with the last one. -/
theorem ends_not_found : twoZones.Owns 1022 0x2000 ∧
    mallocZoneFromPtr twoZones 0x2000 = some 1021 ∧ ¬FindsOwner twoZones 0x2000 ∧
    mallocZoneFromPtr twoZones 0x3000 = some 1022 ∧ ¬FindsOwner twoZones 0x3000 := by
  have howns : twoZones.Owns 1022 0x2000 := upper_owns (by decide) (by decide)
  have hfirst : mallocZoneFromPtr twoZones 0x2000 = some 1021 := by decide +kernel
  have hlast : mallocZoneFromPtr twoZones 0x3000 = some 1022 := by decide +kernel
  refine ⟨howns, hfirst, fun h => ?_, hlast, fun h => ?_⟩
  · have howner := h.owner 1022 howns
    rw [hfirst] at howner
    exact absurd howner (by decide)
  · have hnone : ∀ i, ¬twoZones.Owns i 0x3000 := by
      rintro i ⟨sp, hsp, hin⟩
      obtain ⟨-, rfl⟩ | ⟨-, rfl⟩ := mem_twoZones hsp <;> exact absurd hin.2 (by decide)
    have hdefault := h.default hnone
    rw [hlast] at hdefault
    exact absurd hdefault (by decide)

end LibSystem.Core
