import LibSystem.Translation
import LibSystem.Memory
import Mathlib.Algebra.Group.Int.Defs

/-!
# File offsets

What becomes of an `off_t` of 64 bits in `lseek`, `lseek64`, `mmap` and `mmap$LINUX`, where `long`
and `size_t` have 32.
-/

namespace LibSystem.Core

abbrev Off := BitVec 64

/-- `lseek` of `kernelrpc.c`. -/
def lseek (trap : Word → Off → Word → Word) (fd : Word) (off : Off) (whence : Word) : Off :=
  let ret := trap fd ((off.setWidth 32).signExtend 64) whence
  ret.signExtend 64

/-- What `lseek64` makes of the answer. -/
def seekResult (answer : Word × Off) : Off := if answer.1.slt 0 then -1 else answer.2

def lseek64 (llseek : Word → Word → Word → Word → Word × Off) (fd : Word) (off : Off)
    (whence : Word) : Off :=
  seekResult (llseek fd ((off.sshiftRight 32).setWidth 32) (off.setWidth 32) whence)

/-- The constants of `<sys/mman.h>` and `<errno.h>`. -/
structure SysMman where
  (mapAnon mapShared mapFixed mapPrivate : Word)
  einval : Word

/-- `mmap2$LINUX`: address, size, protection, flags, descriptor and page. -/
abbrev Mmap2 := Addr → Word → Word → Word → Word → Word → Addr

def mmapLinux (s : SysMman) (mmap2 : Mmap2) (addr : Addr) (size prot flags fd : Word)
    (offset : Off) : Except Word Addr :=
  if offset &&& 0xfff ≠ 0 then .error s.einval
  else .ok (mmap2 addr size prot flags fd (offset.setWidth 32 >>> 12))

/-- `mmap`, less what it prints of an address below 4096. -/
def mmap (s : SysMman) (mmap2 : Mmap2) (addr : Addr) (size prot flags fd : Word)
    (offset : Off) : Except Word Addr :=
  if offset &&& 0xfff ≠ 0 then .error s.einval
  else
    let uflags := Flags.translate
      [(s.mapAnon, 0x20), (s.mapShared, 0x01), (s.mapFixed, 0x10), (s.mapPrivate, 0x02)] flags
      (0 : Word)
    .ok (mmap2 addr size prot uflags fd (offset.setWidth 32 >>> 12))

/-! ## What should reach the kernel -/

/-- `lseek_trap` is asked for the offset itself. -/
def SeeksTo (off : Off) : Prop :=
  ∀ trap fd whence, lseek trap fd off whence = (trap fd off whence).signExtend 64

/-- `llseek$LINUX` gets the two halves of the offset. -/
def Seeks64To (off : Off) : Prop :=
  ∃ high low : Word, high ++ low = off ∧ ∀ llseek fd whence,
    lseek64 llseek fd off whence = seekResult (llseek fd high low whence)

/-- An offset that `mmap2$LINUX` has a page number for. -/
def PageOffset (off : Off) : Prop := off.toNat % 4096 = 0 ∧ off.toNat < 2 ^ 44

/-- `mmap2$LINUX` gets the page of the offset where it has one; otherwise the call fails. -/
structure MapsFrom (f : Mmap2 → Addr → Word → Word → Word → Word → Off → Except Word Addr)
    (off : Off) : Prop where
  page : PageOffset off → ∃ page : Word, page.toNat = off.toNat / 4096 ∧
    ∀ mmap2 addr size prot flags fd, ∃ uflags,
      f mmap2 addr size prot flags fd off = .ok (mmap2 addr size prot uflags fd page)
  fails : ¬PageOffset off → ∀ mmap2 addr size prot flags fd, ∃ e,
    f mmap2 addr size prot flags fd off = .error e

structure Survives (s : SysMman) (off : Off) : Prop where
  lseek : SeeksTo off
  lseek64 : Seeks64To off
  mmap : MapsFrom (mmap s) off
  mmapLinux : MapsFrom (mmapLinux s) off

section

variable {s : SysMman} {off : Off}

theorem long_iff : (off.setWidth 32).signExtend 64 = off ↔
    -2 ^ 31 ≤ off.toInt ∧ off.toInt < 2 ^ 31 := by
  rw [← BitVec.toInt_inj, BitVec.toInt_signExtend_of_le (by decide), BitVec.toInt_setWidth,
    BitVec.toInt_eq_toNat_cond, Int.bmod_def]
  have hbound := off.isLt
  split <;> split <;> omega

theorem seeksTo_iff : SeeksTo off ↔ -2 ^ 31 ≤ off.toInt ∧ off.toInt < 2 ^ 31 := by
  rw [← long_iff]
  constructor
  · intro h
    by_contra hne
    have hasked := h (fun _ o _ => if o = off then 1 else 0) 0 0
    rw [lseek, if_neg hne, if_pos rfl] at hasked
    exact absurd hasked (by decide)
  · intro h trap fd whence
    rw [lseek, h]

theorem seeks64To : Seeks64To off := by
  refine ⟨(off.sshiftRight 32).setWidth 32, off.setWidth 32, ?_, fun _ _ _ => rfl⟩
  apply BitVec.eq_of_getLsbD_eq
  intro i hi
  rw [BitVec.getLsbD_append]
  split
  · rename_i hlow
    simp [hlow]
  · rename_i hlow
    have hsum : 32 + (i - 32) = i := by omega
    have hfirst : i - 32 < 32 := by omega
    have hwide : ¬64 ≤ i - 32 := by omega
    simp [BitVec.getLsbD_sshiftRight, hsum, hi, hfirst, hwide]

/-! ## Pages -/

theorem aligned_iff : off &&& 0xfff = 0 ↔ off.toNat % 4096 = 0 := by
  rw [← BitVec.toNat_inj, BitVec.toNat_and]
  change off.toNat &&& (2 ^ 12 - 1) = 0 ↔ _
  rw [Nat.and_two_pow_sub_one_eq_mod]

theorem page_toNat : (off.setWidth 32 >>> 12).toNat = off.toNat % 2 ^ 32 / 4096 := by
  rw [BitVec.toNat_ushiftRight, BitVec.toNat_setWidth, Nat.shiftRight_eq_div_pow]

theorem mapsFrom_iff {f : Mmap2 → Addr → Word → Word → Word → Word → Off → Except Word Addr}
    (hunaligned : off.toNat % 4096 ≠ 0 → ∀ mmap2 addr size prot flags fd, ∃ e,
      f mmap2 addr size prot flags fd off = .error e)
    (haligned : off.toNat % 4096 = 0 → ∀ mmap2 addr size prot flags fd, ∃ uflags,
      f mmap2 addr size prot flags fd off =
        .ok (mmap2 addr size prot uflags fd (off.setWidth 32 >>> 12))) :
    MapsFrom f off ↔ (off.toNat % 4096 = 0 → off.toNat < 2 ^ 32) := by
  constructor
  · intro h hzero
    obtain ⟨uflags, hmapped⟩ := haligned hzero (fun _ _ _ _ _ page => page) 0 0 0 0 0
    by_cases hpage : PageOffset off
    · obtain ⟨page, hright, hall⟩ := h.page hpage
      obtain ⟨uflags', hmapped'⟩ := hall (fun _ _ _ _ _ page => page) 0 0 0 0 0
      rw [hmapped, Except.ok.injEq] at hmapped'
      rw [← hmapped', page_toNat] at hright
      have hbound := hpage.2
      omega
    · obtain ⟨e, hfails⟩ := h.fails hpage (fun _ _ _ _ _ page => page) 0 0 0 0 0
      rw [hmapped] at hfails
      cases hfails
  · intro h
    constructor
    · intro hpage
      refine ⟨off.setWidth 32 >>> 12, ?_, haligned hpage.1⟩
      have hbound := h hpage.1
      rw [page_toNat, Nat.mod_eq_of_lt hbound]
    · intro hpage
      refine hunaligned fun hzero => hpage ⟨hzero, ?_⟩
      have hbound := h hzero
      omega

theorem mapsFrom_mmap : MapsFrom (mmap s) off ↔ (off.toNat % 4096 = 0 → off.toNat < 2 ^ 32) := by
  apply mapsFrom_iff
  · intro h mmap2 addr size prot flags fd
    exact ⟨s.einval, if_pos (mt aligned_iff.mp h)⟩
  · intro h mmap2 addr size prot flags fd
    exact ⟨_, if_neg (not_not.mpr (aligned_iff.mpr h))⟩

theorem mapsFrom_mmapLinux :
    MapsFrom (mmapLinux s) off ↔ (off.toNat % 4096 = 0 → off.toNat < 2 ^ 32) := by
  apply mapsFrom_iff
  · intro h mmap2 addr size prot flags fd
    exact ⟨s.einval, if_pos (mt aligned_iff.mp h)⟩
  · intro h mmap2 addr size prot flags fd
    exact ⟨flags, if_neg (not_not.mpr (aligned_iff.mpr h))⟩

/-- An offset survives if it fits into a `long` and is not that of a page below 0. -/
theorem survives_iff (s : SysMman) (off : Off) :
    Survives s off ↔
      (-2 ^ 31 ≤ off.toInt ∧ off.toInt < 2 ^ 31) ∧ (off.toNat % 4096 = 0 → 0 ≤ off.toInt) := by
  have hpositive (hlong : -2 ^ 31 ≤ off.toInt ∧ off.toInt < 2 ^ 31) :
      off.toNat < 2 ^ 32 ↔ 0 ≤ off.toInt := by
    rw [BitVec.toInt_eq_toNat_cond] at hlong ⊢
    have hbound := off.isLt
    split at hlong <;> split <;> omega
  constructor
  · intro h
    have hlong := seeksTo_iff.mp h.lseek
    exact ⟨hlong, fun hzero => (hpositive hlong).mp (mapsFrom_mmap.mp h.mmap hzero)⟩
  · rintro ⟨hlong, hpage⟩
    have hbelow : off.toNat % 4096 = 0 → off.toNat < 2 ^ 32 :=
      fun hzero => (hpositive hlong).mpr (hpage hzero)
    exact ⟨seeksTo_iff.mpr hlong, seeks64To, mapsFrom_mmap.mpr hbelow,
      mapsFrom_mmapLinux.mpr hbelow⟩

/-- The values the headers have. -/
def sysMman : SysMman where
  mapAnon := 0x1000
  mapShared := 0x1
  mapFixed := 0x10
  mapPrivate := 0x2
  einval := 22

/-- At 4 GiB `lseek` goes to the start of the file, and `mmap` maps it. -/
theorem not_survives_4GiB :
    (∀ trap fd whence, lseek trap fd 0x100000000 whence = (trap fd 0 whence).signExtend 64) ∧
    (∀ mmap2 : Mmap2, mmapLinux sysMman mmap2 0 4096 1 2 3 0x100000000 =
      .ok (mmap2 0 4096 1 2 3 0)) ∧
    ¬Survives sysMman 0x100000000 := by
  refine ⟨fun _ _ _ => rfl, fun _ => rfl, fun h => ?_⟩
  exact absurd (seeksTo_iff.mp h.lseek).2 (by decide)

end

end LibSystem.Core
