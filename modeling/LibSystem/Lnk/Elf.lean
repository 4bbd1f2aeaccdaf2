import LibSystem.Lnk.MappedContent
import Mathlib.Order.Bounds.Basic

/-!
# Loading an ELF file

`ElfObject::instantiateFromFile` of `lnk_elf.cpp` up to `parseDynamicSegment`, which only reads.
-/

namespace LibSystem.Lnk.Elf

open Outcome

def ptLoad : Word := 1
def ptDynamic : Word := 2

/-- `Elf32_Phdr`, less what is not looked at. -/
structure Phdr where
  pType : Word
  pOffset : Word
  pVaddr : Word
  pFilesz : Word
  pMemsz : Word
  deriving DecidableEq

/-- `header`, which is cleared and then read. -/
def ehdr (file : List Byte) : Mem := fun a => file.getD a.toNat 0

def ePhoff (file : List Byte) : Word := (ehdr file).load 28
def ePhentsize (file : List Byte) : Word := ((ehdr file).load16 42).setWidth 32
def ePhnum (file : List Byte) : Word := ((ehdr file).load16 44).setWidth 32

/-- `phe`, counted from its start. `heap` is what `malloc` returns. -/
def phe (file : List Byte) (heap : Mem) : Mem := fun a =>
  if a < ePhentsize file * ePhnum file then file.getD ((ePhoff file).toNat + a.toNat) (heap a)
  else heap a

def phdr (phe : Mem) (offset : Word) : Phdr where
  pType := phe.load offset
  pOffset := phe.load (offset + 4)
  pVaddr := phe.load (offset + 8)
  pFilesz := phe.load (offset + 16)
  pMemsz := phe.load (offset + 20)

/-- The program headers that both loops go through. -/
def phdrs (file : List Byte) (heap : Mem) : List Phdr :=
  (List.range (ePhnum file).toNat).map fun i =>
    phdr (phe file heap) (BitVec.ofNat 32 i * ePhentsize file)

/-- One turn of the first loop, on `max_vaddr` and `min_vaddr`. -/
def measure (extent : Word × Word) (ph : Phdr) : Word × Word :=
  if ph.pType = ptLoad then
    (if extent.1 < ph.pVaddr + ph.pMemsz then ph.pVaddr + ph.pMemsz else extent.1,
      if ph.pVaddr < extent.2 then ph.pVaddr else extent.2)
  else extent

def vmsize (phdrs : List Phdr) : Word :=
  let (maxVaddr, minVaddr) := phdrs.foldl measure (0, 0)
  roundPage maxVaddr - (minVaddr &&& ~~~pageMask)

/-- `mm::wire` at the address of the program header. -/
def wired (rs : Word) (ph : Phdr) : Mmap := ⟨rs + ph.pVaddr, ph.pFilesz, ph.pOffset⟩

/-- With `MAP_FIXED` the kernel refuses an address inside a page, too. -/
def Accepted (m : Mmap) : Prop := m.addr.toNat % 4096 = 0 ∧ m.Accepted

/-- The length is rounded up to pages. -/
def Maps (m : Mmap) (x : Addr) : Prop := Accepted m ∧ (x - m.addr).toNat < pageUp m.length.toNat

instance (m : Mmap) : Decidable (Accepted m) := inferInstanceAs (Decidable (_ ∧ _ ∧ _ ∧ _))
instance (m : Mmap) (x : Addr) : Decidable (Maps m x) := inferInstanceAs (Decidable (_ ∧ _))

/-- One turn of the second loop, on the memory. -/
def wire (file : List Byte) (rs : Word) (space : Space) (ph : Phdr) : Space := fun x =>
  if ph.pType = ptLoad ∧ Maps (wired rs ph) x then
    fileByte file (ph.pOffset.toNat + (x - (wired rs ph).addr).toNat)
  else space x

/-- And on `dyn`. -/
def dynamic (rs : Word) (dyn : Addr) (ph : Phdr) : Addr :=
  if ph.pType ≠ ptLoad ∧ ph.pType = ptDynamic then rs + ph.pVaddr else dyn

/-- `fSlide` and `fHeader` are `rs`. The source leaks the object, and returns `NULL`. -/
structure ElfObject where
  fSlide : Word
  fDynamic : Addr

/-- `rs` is what `mm::reserve(vmsize)` returns. -/
def instantiateFromFile (file : List Byte) (heap : Mem) (rs : Word) (space : Space) :
    Outcome (ElfObject × Space) :=
  if (ehdr file).load 0 ≠ 0x464c457f then .halt "elf instantiateFromFile(%s) invalid magic"
  else
    let phdrs := phdrs file heap
    let space := reserve rs (vmsize phdrs).toNat space
    .done (⟨rs, phdrs.foldl (dynamic rs) 0⟩, phdrs.foldl (wire file rs) space)

/-! ## What is asked of it -/

def loads (phdrs : List Phdr) : List Phdr := phdrs.filter fun ph => ph.pType = ptLoad

namespace Phdr

/-- The end of the range in memory. -/
def stop (ph : Phdr) : Nat := ph.pVaddr.toNat + ph.pMemsz.toNat

/-- `n` is in the pages of the range. -/
def PageHolds (ph : Phdr) (n : Nat) : Prop :=
  ph.pVaddr.toNat / 4096 * 4096 ≤ n ∧ n < pageUp ph.stop

end Phdr

/-- Ranges that are apart even as pages, none of which goes beyond 2 GiB, and each of which is
where its page of the file is. -/
structure WellFormed (phdrs : List Phdr) : Prop where
  disjoint : (loads phdrs).Pairwise fun a b => ∀ n, ¬ (a.PageHolds n ∧ b.PageHolds n)
  bound : ∀ ph ∈ loads phdrs, ph.stop ≤ 2 ^ 31
  congruent : ∀ ph ∈ loads phdrs, ph.pVaddr.toNat % 4096 = ph.pOffset.toNat % 4096
  sizes : ∀ ph ∈ loads phdrs, ph.pFilesz ≤ ph.pMemsz

/-- What the kernel reserves is in whole pages and inside the address space. -/
def Reserved (phdrs : List Phdr) (rs : Word) : Prop :=
  vmsize phdrs ≠ 0 → rs.toNat % 4096 = 0 ∧ rs.toNat + (vmsize phdrs).toNat ≤ 2 ^ 32

/-- The sizes of whole pages that hold the ranges, from the start of each to its end. -/
def covers (phdrs : List Phdr) : Set Nat :=
  {n | ∃ lo hi, lo % 4096 = 0 ∧ hi % 4096 = 0 ∧ lo ≤ hi ∧ n = hi - lo ∧
    ∀ ph ∈ loads phdrs, lo ≤ ph.pVaddr.toNat ∧ ph.stop ≤ hi}

/-- The range shows its bytes of the file, and zeros behind them. -/
structure Shows (file : List Byte) (bias : Word) (space : Space) (ph : Phdr) : Prop where
  content : ∀ k < ph.pFilesz.toNat, ∃ byte, file[ph.pOffset.toNat + k]? = some byte ∧
    space (bias + ph.pVaddr + BitVec.ofNat 32 k) = some byte
  zeros : ∀ k, ph.pFilesz.toNat ≤ k → k < ph.pMemsz.toNat →
    space (bias + ph.pVaddr + BitVec.ofNat 32 k) = some 0

/-- What is reserved, what is mapped into it, and what is seen there, whatever was seen before. -/
structure Reproduces (file : List Byte) (heap : Mem) (rs : Word) : Prop where
  size : IsLeast (covers (phdrs file heap)) (vmsize (phdrs file heap)).toNat
  inside : ∀ ph ∈ loads (phdrs file heap), ∀ x, Maps (wired rs ph) x →
    (x - rs).toNat < (vmsize (phdrs file heap)).toNat
  content : ∀ before obj space, instantiateFromFile file heap rs before = done (obj, space) →
    ∀ ph ∈ loads (phdrs file heap), Shows file obj.fSlide space ph

/-- The file goes as far as the range, and there are zeros behind it where its last page shows
more; a range from inside a page on has only zeros. -/
structure Fits (file : List Byte) (ph : Phdr) : Prop where
  present : 0 < ph.pFilesz.toNat → ph.pOffset.toNat + ph.pFilesz.toNat ≤ file.length
  tail : ph.pVaddr.toNat % 4096 = 0 → ∀ k byte, ph.pFilesz.toNat ≤ k → k < ph.pMemsz.toNat →
    k < pageUp ph.pFilesz.toNat → file[ph.pOffset.toNat + k]? = some byte → byte = 0
  unaligned : ph.pVaddr.toNat % 4096 ≠ 0 → ∀ k byte, k < ph.pFilesz.toNat →
    file[ph.pOffset.toNat + k]? = some byte → byte = 0

/-! ## The size -/

section

variable {file : List Byte} {heap : Mem} {phdrs : List Phdr} {ph : Phdr} {rs : Word} {x : Addr}
variable {space : Space}

theorem mem_loads : ph ∈ loads phdrs ↔ ph ∈ phdrs ∧ ph.pType = ptLoad := by
  simp [loads]

theorem measure_spec (h : ∀ ph ∈ loads phdrs, ph.stop ≤ 2 ^ 31) (extent : Word) :
    ∃ maxVaddr : Word, phdrs.foldl measure (extent, 0) = (maxVaddr, 0) ∧ extent ≤ maxVaddr ∧
      (∀ ph ∈ loads phdrs, ph.stop ≤ maxVaddr.toNat) ∧
      (maxVaddr = extent ∨ ∃ ph ∈ loads phdrs, maxVaddr.toNat = ph.stop) := by
  induction phdrs generalizing extent with
  | nil => exact ⟨extent, rfl, BitVec.le_refl extent, by simp [loads], .inl rfl⟩
  | cons ph phdrs ih =>
    rw [List.foldl_cons, measure]
    by_cases hload : ph.pType = ptLoad
    · have hcons : loads (ph :: phdrs) = ph :: loads phdrs := by simp [loads, hload]
      rw [hcons] at h ⊢
      obtain ⟨hstop, hrest⟩ := List.forall_mem_cons.mp h
      rw [if_pos hload, if_neg (show ¬ ph.pVaddr < 0 from BitVec.not_lt_zero)]
      have hsum : (ph.pVaddr + ph.pMemsz).toNat = ph.stop := by
        unfold Phdr.stop at hstop ⊢
        bv_omega
      obtain ⟨maxVaddr, hfold, hle, hmax, hattained⟩ :=
        ih hrest (if extent < ph.pVaddr + ph.pMemsz then ph.pVaddr + ph.pMemsz else extent)
      refine ⟨maxVaddr, hfold, ?_, List.forall_mem_cons.mpr ⟨?_, hmax⟩, ?_⟩
      · split at hle
        · bv_omega
        · exact hle
      · split at hle
        · bv_omega
        · bv_omega
      · simp only [List.mem_cons, exists_eq_or_imp]
        rcases hattained with rfl | hattained
        · split
          · exact .inr (.inl hsum)
          · exact .inl rfl
        · exact .inr (.inr hattained)
    · have hcons : loads (ph :: phdrs) = loads phdrs := by simp [loads, hload]
      rw [hcons] at h ⊢
      rw [if_neg hload]
      exact ih h extent

theorem vmsize_spec (h : WellFormed phdrs) : ∃ top, (vmsize phdrs).toNat = pageUp top ∧
    (∀ ph ∈ loads phdrs, ph.stop ≤ top) ∧ (top = 0 ∨ ∃ ph ∈ loads phdrs, top = ph.stop) := by
  obtain ⟨maxVaddr, hfold, -, hmax, hattained⟩ := measure_spec h.bound 0
  refine ⟨maxVaddr.toNat, ?_, hmax, hattained.imp_left (congrArg BitVec.toNat)⟩
  have hbound : maxVaddr.toNat ≤ 2 ^ 31 := by
    rcases hattained with rfl | ⟨ph, hph, heq⟩
    · exact Nat.zero_le _
    · exact heq.trans_le (h.bound ph hph)
  have hsize : vmsize phdrs = roundPage maxVaddr := by
    rw [vmsize, hfold]
    exact BitVec.sub_zero _
  rw [hsize]
  rcases roundPage_cases maxVaddr with ⟨-, hround⟩ | ⟨hlarge, -⟩
  · exact hround
  · omega

theorem stop_le_vmsize (h : WellFormed phdrs) (hph : ph ∈ loads phdrs) :
    pageUp ph.stop ≤ (vmsize phdrs).toNat := by
  obtain ⟨top, hsize, hmax, -⟩ := vmsize_spec h
  rw [hsize]
  exact pageUp_mono (hmax ph hph)

theorem pageUp_aligned (n : Nat) : pageUp n % 4096 = 0 := Nat.mul_mod_left _ _

theorem vmsize_mem_covers (h : WellFormed phdrs) : (vmsize phdrs).toNat ∈ covers phdrs := by
  obtain ⟨top, hsize, hmax, -⟩ := vmsize_spec h
  refine ⟨0, pageUp top, rfl, pageUp_aligned top, Nat.zero_le _, hsize, fun ph hph => ?_⟩
  exact ⟨Nat.zero_le _, (hmax ph hph).trans (le_pageUp top)⟩

theorem isLeast_vmsize (h : WellFormed phdrs) :
    IsLeast (covers phdrs) (vmsize phdrs).toNat ↔
      loads phdrs = [] ∨ ∃ ph ∈ loads phdrs, ph.pVaddr.toNat < 4096 := by
  obtain ⟨top, hsize, hmax, hattained⟩ := vmsize_spec h
  constructor
  · intro hleast
    by_contra hnot
    obtain ⟨hne, hhigh⟩ := not_or.mp hnot
    push Not at hhigh
    obtain ⟨ph, hph⟩ := List.exists_mem_of_ne_nil _ hne
    have htop := (hhigh ph hph).trans ((Nat.le_add_right _ _).trans (hmax ph hph))
    have hpages := htop.trans (le_pageUp top)
    have hmem : pageUp top - 4096 ∈ covers phdrs := by
      refine ⟨4096, pageUp top, rfl, pageUp_aligned top, hpages, rfl, fun ph hph => ?_⟩
      exact ⟨hhigh ph hph, (hmax ph hph).trans (le_pageUp top)⟩
    have hle := hleast.2 hmem
    omega
  · intro hlow
    refine ⟨vmsize_mem_covers h, ?_⟩
    rintro n ⟨lo, hi, hlo, hhi, -, rfl, hcovers⟩
    rw [hsize]
    rcases hattained with rfl | ⟨last, hlast, rfl⟩
    · exact Nat.zero_le _
    · rcases hlow with hnil | ⟨first, hfirst, hpage⟩
      · simp [hnil] at hlast
      · have hzero := (hcovers first hfirst).1
        have hend := (hcovers last hlast).2
        unfold pageUp
        omega

/-! ## The pages of a range -/

theorem maps_wired_iff (h : WellFormed phdrs) (hreserved : Reserved phdrs rs)
    (hph : ph ∈ loads phdrs) :
    Maps (wired rs ph) x ↔ ph.pVaddr.toNat % 4096 = 0 ∧ ph.pVaddr.toNat ≤ (x - rs).toNat ∧
      (x - rs).toNat < ph.pVaddr.toNat + pageUp ph.pFilesz.toNat := by
  have hbound := h.bound ph hph
  have hcongruent := h.congruent ph hph
  have hsizes := BitVec.le_def.mp (h.sizes ph hph)
  have hsize := (le_pageUp ph.stop).trans (stop_le_vmsize h hph)
  unfold Phdr.stop at hbound hsize
  by_cases hempty : ph.pFilesz = 0
  · refine iff_of_false (fun hmaps => hmaps.1.2.1 hempty) ?_
    rw [hempty]
    rintro ⟨-, hle, hlt⟩
    exact absurd hlt (Nat.not_lt.mpr hle)
  · have hpos : 0 < ph.pFilesz.toNat :=
      Nat.pos_of_ne_zero fun hzero => hempty (BitVec.eq_of_toNat_eq hzero)
    obtain ⟨haligned, hroom⟩ := hreserved fun hzero => by
      rw [hzero] at hsize
      simp at hsize
      omega
    have haddr : (rs + ph.pVaddr).toNat = rs.toNat + ph.pVaddr.toNat := by bv_omega
    have hoff : (x - (rs + ph.pVaddr)).toNat < pageUp ph.pFilesz.toNat ↔
        ph.pVaddr.toNat ≤ (x - rs).toNat ∧
          (x - rs).toNat < ph.pVaddr.toNat + pageUp ph.pFilesz.toNat := by
      have hpages : pageUp ph.pFilesz.toNat ≤ 2 ^ 31 := by
        unfold pageUp
        omega
      generalize pageUp ph.pFilesz.toNat = pages at hpages ⊢
      bv_omega
    unfold Maps Accepted Mmap.Accepted wired
    dsimp only
    rw [hoff, haddr]
    refine and_congr_left fun _ => ?_
    constructor
    · rintro ⟨hstart, -⟩
      omega
    · intro hstart
      exact ⟨by omega, hempty, by omega, by omega⟩

theorem pageHolds_of_maps (h : WellFormed phdrs) (hreserved : Reserved phdrs rs)
    (hph : ph ∈ loads phdrs) (hmaps : Maps (wired rs ph) x) : ph.PageHolds (x - rs).toNat := by
  obtain ⟨haligned, hlow, hhigh⟩ := (maps_wired_iff h hreserved hph).mp hmaps
  have hsizes := BitVec.le_def.mp (h.sizes ph hph)
  refine ⟨by omega, hhigh.trans_le ?_⟩
  unfold pageUp Phdr.stop
  omega

theorem maps_inside (h : WellFormed phdrs) (hreserved : Reserved phdrs rs)
    (hph : ph ∈ loads phdrs) (hmaps : Maps (wired rs ph) x) :
    (x - rs).toNat < (vmsize phdrs).toNat :=
  (pageHolds_of_maps h hreserved hph hmaps).2.trans_le (stop_le_vmsize h hph)

theorem wire_overlay (h : WellFormed phdrs) (hreserved : Reserved phdrs rs) :
    Overlay (wire file rs) (fun ph x => ph.pType = ptLoad ∧ ph.PageHolds (x - rs).toNat)
      phdrs where
  outside ph hph space x hout := if_neg fun hmaps =>
    hout ⟨hmaps.1, pageHolds_of_maps h hreserved (mem_loads.mpr ⟨hph, hmaps.1⟩) hmaps.2⟩
  pointwise ph _ f g x heq := by
    unfold wire
    rw [heq]

theorem offset_toNat (hbound : ph.stop ≤ 2 ^ 31) (rs : Word) {k : Nat} (hk : k < ph.pMemsz.toNat) :
    (rs + ph.pVaddr + BitVec.ofNat 32 k - rs).toNat = ph.pVaddr.toNat + k := by
  unfold Phdr.stop at hbound
  bv_omega

/-- A range shows the pages of the file that are mapped, and else the zeros of what is reserved. -/
def Seen (file : List Byte) (bias : Word) (space : Space) (ph : Phdr) : Prop :=
  ∀ k < ph.pMemsz.toNat, space (bias + ph.pVaddr + BitVec.ofNat 32 k) =
    if ph.pVaddr.toNat % 4096 = 0 ∧ k < pageUp ph.pFilesz.toNat then
      fileByte file (ph.pOffset.toNat + k)
    else some 0

theorem foldl_wire (h : WellFormed phdrs) (hreserved : Reserved phdrs rs)
    (hph : ph ∈ loads phdrs) :
    Seen file rs (phdrs.foldl (wire file rs) (reserve rs (vmsize phdrs).toNat space)) ph := by
  intro k hk
  have hoffset := offset_toNat (h.bound ph hph) rs hk
  have hstop : ph.pVaddr.toNat + k < pageUp ph.stop :=
    (Nat.add_lt_add_left hk _).trans_le (le_pageUp ph.stop)
  obtain ⟨hmem, hload⟩ := mem_loads.mp hph
  have hdisjoint : phdrs.Pairwise fun a b => ∀ x,
      ¬ ((a.pType = ptLoad ∧ a.PageHolds (x - rs).toNat) ∧
        b.pType = ptLoad ∧ b.PageHolds (x - rs).toNat) := by
    refine (List.pairwise_filter.mp h.disjoint).imp fun hab x => ?_
    rintro ⟨⟨ha, haholds⟩, hb, hbholds⟩
    exact hab (decide_eq_true ha) (decide_eq_true hb) _ ⟨haholds, hbholds⟩
  have hholds : ph.PageHolds (rs + ph.pVaddr + BitVec.ofNat 32 k - rs).toNat := by
    rw [hoffset]
    exact ⟨by omega, hstop⟩
  rw [(wire_overlay h hreserved).foldl_of_mem hdisjoint hmem ⟨hload, hholds⟩, wire]
  have hmaps := maps_wired_iff (x := rs + ph.pVaddr + BitVec.ofNat 32 k) h hreserved hph
  rw [hoffset] at hmaps
  by_cases hfile : ph.pVaddr.toNat % 4096 = 0 ∧ k < pageUp ph.pFilesz.toNat
  · have hk' : (rs + ph.pVaddr + BitVec.ofNat 32 k - (wired rs ph).addr).toNat = k := by
      unfold wired
      bv_omega
    rw [if_pos hfile, if_pos ⟨hload, hmaps.mpr ⟨hfile.1, by omega⟩⟩, hk']
  · rw [if_neg hfile, if_neg (by rw [hmaps]; omega), reserve, if_pos]
    rw [hoffset]
    exact hstop.trans_le (stop_le_vmsize h hph)

theorem fits_of_shows (hseen : Seen file rs space ph) (hsizes : ph.pFilesz ≤ ph.pMemsz)
    (h : Shows file rs space ph) : Fits file ph := by
  have hle := BitVec.le_def.mp hsizes
  constructor
  · intro hpos
    obtain ⟨byte, hbyte, -⟩ := h.content (ph.pFilesz.toNat - 1) (by omega)
    obtain ⟨hlt, -⟩ := List.getElem?_eq_some_iff.mp hbyte
    omega
  · intro haligned k byte hlow hhigh hpage hbyte
    have hzero := h.zeros k hlow hhigh
    rw [hseen k hhigh, if_pos ⟨haligned, hpage⟩, fileByte_of_some hbyte] at hzero
    exact Option.some.inj hzero
  · intro hunaligned k byte hk hbyte
    obtain ⟨byte', hbyte', hshown⟩ := h.content k hk
    rw [hseen k (by omega), if_neg fun hfile => hunaligned hfile.1] at hshown
    obtain rfl := Option.some.inj (hbyte.symm.trans hbyte')
    exact (Option.some.inj hshown).symm

theorem shows_of_fits (hseen : Seen file rs space ph) (hsizes : ph.pFilesz ≤ ph.pMemsz)
    (hcongruent : ph.pVaddr.toNat % 4096 = ph.pOffset.toNat % 4096) (h : Fits file ph) :
    Shows file rs space ph := by
  have hle := BitVec.le_def.mp hsizes
  constructor
  · intro k hk
    have hlen := h.present (by omega)
    have hbyte := List.getElem?_eq_getElem (show ph.pOffset.toNat + k < file.length by omega)
    refine ⟨_, hbyte, ?_⟩
    rw [hseen k (by omega)]
    by_cases haligned : ph.pVaddr.toNat % 4096 = 0
    · rw [if_pos ⟨haligned, hk.trans_le (le_pageUp _)⟩, fileByte_of_some hbyte]
    · rw [if_neg fun hfile => haligned hfile.1, h.unaligned haligned k _ hk hbyte]
  · intro k hlow hhigh
    rw [hseen k hhigh]
    by_cases hfile : ph.pVaddr.toNat % 4096 = 0 ∧ k < pageUp ph.pFilesz.toNat
    · obtain ⟨haligned, hpage⟩ := hfile
      have hpos : 0 < ph.pFilesz.toNat := by
        unfold pageUp at hpage
        omega
      rw [if_pos ⟨haligned, hpage⟩]
      exact fileByte_tail (by omega) (h.present hpos) hpage
        fun byte => h.tail haligned k byte hlow hhigh hpage
    · rw [if_neg hfile]

theorem shows_iff (h : WellFormed phdrs) (hreserved : Reserved phdrs rs)
    (hph : ph ∈ loads phdrs) :
    Shows file rs (phdrs.foldl (wire file rs) (reserve rs (vmsize phdrs).toNat space)) ph ↔
      Fits file ph :=
  have hseen := foldl_wire h hreserved hph
  have hsizes := h.sizes ph hph
  ⟨fits_of_shows hseen hsizes, shows_of_fits hseen hsizes (h.congruent ph hph)⟩

end

/-- **The image of an ELF file.** It is right exactly if a range is in the first page, where
`min_vaddr` starts, and what `mmap` is asked for is what each range should show. -/
theorem reproduces_iff (file : List Byte) (heap : Mem) (rs : Word)
    (hmagic : (ehdr file).load 0 = 0x464c457f) (h : WellFormed (phdrs file heap))
    (hreserved : Reserved (phdrs file heap) rs) :
    Reproduces file heap rs ↔
      (loads (phdrs file heap) = [] ∨ ∃ ph ∈ loads (phdrs file heap), ph.pVaddr.toNat < 4096) ∧
        ∀ ph ∈ loads (phdrs file heap), Fits file ph := by
  have hdone : ∀ before, instantiateFromFile file heap rs before =
      done (⟨rs, (phdrs file heap).foldl (dynamic rs) 0⟩, (phdrs file heap).foldl (wire file rs)
        (reserve rs (vmsize (phdrs file heap)).toNat before)) := fun before =>
    if_neg fun hne => hne hmagic
  constructor
  · rintro ⟨hsize, -, hcontent⟩
    refine ⟨(isLeast_vmsize h).mp hsize, fun ph hph => ?_⟩
    exact (shows_iff h hreserved hph).mp (hcontent (fun _ => none) _ _ (hdone _) ph hph)
  · rintro ⟨hlow, hfits⟩
    refine ⟨(isLeast_vmsize h).mpr hlow, fun ph hph x => maps_inside h hreserved hph, ?_⟩
    intro before obj space hrun ph hph
    obtain ⟨rfl, rfl⟩ := Prod.mk.inj (done.inj ((hdone before).symm.trans hrun))
    exact (shows_iff h hreserved hph).mpr (hfits ph hph)

/-! Files as they are linked for ARM. The library has a `PT_DYNAMIC`, whose table is empty. -/

def wordBytes (w : Word) : List Byte := (List.range 4).map fun i => w.extractLsb' (8 * i) 8

def phdrWords (ph : Phdr) : List Word :=
  [ph.pType, ph.pOffset, ph.pVaddr, ph.pVaddr, ph.pFilesz, ph.pMemsz, 5, 0x1000]

def elfFile (phdrs : List Phdr) (rest : List Byte) : List Byte :=
  ([0x464c457f, 0, 0, 0, 0, 0, 0, 52, 0, 0, 0x200034, BitVec.ofNat 32 phdrs.length, 0] ++
    phdrs.flatMap phdrWords).flatMap wordBytes ++ rest

def library : List Phdr := [⟨ptLoad, 0, 0, 124, 0x100⟩, ⟨ptDynamic, 116, 116, 8, 8⟩]
def libraryFile : List Byte := elfFile library (List.replicate 8 0)

def libraryText : Phdr := ⟨ptLoad, 0, 0, 84, 0x100⟩
def programText : Phdr := ⟨ptLoad, 0, 0x8000, 84, 0x100⟩
def programData : Phdr := ⟨ptLoad, 0x54, 0x54, 1, 1⟩

theorem wellFormed_of_loads {phdrs : List Phdr} {ph : Phdr} (hloads : loads phdrs = [ph])
    (hbound : ph.stop ≤ 2 ^ 31) (hcongruent : ph.pVaddr.toNat % 4096 = ph.pOffset.toNat % 4096)
    (hsizes : ph.pFilesz ≤ ph.pMemsz) : WellFormed phdrs := by
  constructor
  · rw [hloads]
    exact List.pairwise_singleton _ _
  · rw [hloads]
    exact List.forall_mem_singleton.mpr hbound
  · rw [hloads]
    exact List.forall_mem_singleton.mpr hcongruent
  · rw [hloads]
    exact List.forall_mem_singleton.mpr hsizes

theorem phdrs_files :
    phdrs libraryFile (fun _ => 0) = library ∧
    phdrs (elfFile [programText] []) (fun _ => 0) = [programText] ∧
    phdrs (elfFile [libraryText] [7]) (fun _ => 0) = [libraryText] ∧
    phdrs (elfFile [programData] [7]) (fun _ => 0) = [programData] := by decide +kernel

theorem loads_library : loads library = [⟨ptLoad, 0, 0, 124, 0x100⟩] := rfl

theorem length_libraryFile : libraryFile.length = 124 := by decide +kernel

theorem reproduces_library : Reproduces libraryFile (fun _ => 0) 0x10000 := by
  refine (reproduces_iff _ _ _ (by decide +kernel) ?_ ?_).mpr ⟨.inr ?_, ?_⟩
  · rw [phdrs_files.1]
    exact wellFormed_of_loads loads_library (by decide) rfl (by decide)
  · rw [phdrs_files.1]
    exact fun _ => by decide
  · rw [phdrs_files.1, loads_library]
    exact ⟨_, List.mem_cons_self, by decide⟩
  · rw [phdrs_files.1, loads_library]
    refine List.forall_mem_singleton.mpr ⟨fun _ => length_libraryFile.ge,
      fun _ k byte hlow _ _ hbyte => ?_, fun hne => absurd rfl hne⟩
    have hlen : libraryFile.length ≤ (0 : Word).toNat + k :=
      length_libraryFile.le.trans (hlow.trans (Nat.le_add_left _ _))
    rw [List.getElem?_eq_none hlen] at hbyte
    cases hbyte

theorem libraryText_wellFormed : WellFormed [libraryText] :=
  wellFormed_of_loads rfl (by decide) rfl (by decide)

theorem programText_wellFormed : WellFormed [programText] :=
  wellFormed_of_loads rfl (by decide) rfl (by decide)

theorem programData_wellFormed : WellFormed [programData] :=
  wellFormed_of_loads rfl (by decide) rfl (by decide)

/-- A program at 0x8000 makes the loader reserve from address 0 on, the next byte of the file is
seen where a zero should be, and a range that starts inside a page is not mapped at all. -/
theorem not_reproduces :
    (phdrs (elfFile [programText] []) (fun _ => 0) = [programText] ∧ WellFormed [programText] ∧
      Reserved [programText] 0x10000 ∧
      ¬ Reproduces (elfFile [programText] []) (fun _ => 0) 0x10000) ∧
    (phdrs (elfFile [libraryText] [7]) (fun _ => 0) = [libraryText] ∧ WellFormed [libraryText] ∧
      Reserved [libraryText] 0x10000 ∧
      ¬ Reproduces (elfFile [libraryText] [7]) (fun _ => 0) 0x10000) ∧
    (phdrs (elfFile [programData] [7]) (fun _ => 0) = [programData] ∧ WellFormed [programData] ∧
      Reserved [programData] 0x10000 ∧
      ¬ Reproduces (elfFile [programData] [7]) (fun _ => 0) 0x10000) := by
  have hroom : ∀ ph, (0x10000 : Word).toNat + (vmsize [ph]).toNat ≤ 2 ^ 32 →
      Reserved [ph] 0x10000 := fun _ hroom _ => ⟨rfl, hroom⟩
  have hhigh := hroom programText (by decide)
  have htext := hroom libraryText (by decide)
  have hdata := hroom programData (by decide)
  obtain ⟨-, hprogramText, hlibraryText, hprogramData⟩ := phdrs_files
  refine ⟨⟨hprogramText, programText_wellFormed, hhigh, fun h => ?_⟩,
    ⟨hlibraryText, libraryText_wellFormed, htext, fun h => ?_⟩,
    ⟨hprogramData, programData_wellFormed, hdata, fun h => ?_⟩⟩
  · have hsize := h.size
    rw [hprogramText, isLeast_vmsize programText_wellFormed] at hsize
    rcases hsize with hnil | ⟨ph, hph, hlow⟩
    · simp [loads, programText] at hnil
    · obtain rfl := List.mem_singleton.mp (mem_loads.mp hph).1
      exact absurd hlow (by decide)
  · have hshows := h.content (fun _ => none) _ _ (if_neg (by decide +kernel)) libraryText
      (by rw [hlibraryText]; exact List.mem_cons_self)
    rw [hlibraryText, shows_iff libraryText_wellFormed htext List.mem_cons_self] at hshows
    have hzero := hshows.tail rfl 84 7 (by decide) (by decide) (by decide) (by decide)
    exact absurd hzero (by decide)
  · have hshows := h.content (fun _ => none) _ _ (if_neg (by decide +kernel)) programData
      (by rw [hprogramData]; exact List.mem_cons_self)
    rw [hprogramData, shows_iff programData_wellFormed hdata List.mem_cons_self] at hshows
    have hzero := hshows.unaligned (by decide) 0 7 (by decide) (by decide)
    exact absurd hzero (by decide)

end LibSystem.Lnk.Elf
