import LibSystem.Core.Tty

/-!
# Speeds that are not in the table

The search for such a speed returns -1, and `bsd_to_linux_termios` sets all bits of it.
-/

namespace LibSystem.Core

open Flags

/-- Outside of `LINUX_CBAUD` are the control modes of `bios`, and nothing else. -/
structure ControlKept (s : SysTermios) (bios : Termios s.nccs) : Prop where
  csize : (bsdToLinuxTermios s bios).cCflag &&& linuxCsize = (bios.cCflag &&& s.csize) >>> 4
  flags : ∀ p ∈ cflagToLinux s,
    ((bsdToLinuxTermios s bios).cCflag &&& p.2 ≠ 0 ↔ bios.cCflag &&& p.1 ≠ 0)
  others : (bsdToLinuxTermios s bios).cCflag &&&
    ~~~(linuxCbaud ||| linuxCsize ||| knownFlags (cflagToBsd s)) = 0

section

variable {s : SysTermios} {bios : Termios s.nccs}

theorem others_eq :
    ~~~(linuxCbaud ||| linuxCsize ||| knownFlags (cflagToBsd s)) = 0x7fffe000 := by
  have hmasks : (cflagToBsd s).map Prod.fst =
      [linuxCstopb, linuxCread, linuxParenb, linuxParodd, linuxHupcl, linuxClocal,
       linuxCrtscts] := rfl
  rw [knownFlags, hmasks]
  decide

theorem linux_cflags_apart :
    Apart (0x7fffe000 :: linuxCbaud :: linuxCsize :: (cflagToLinux s).map Prod.snd) := by
  change Apart [0x7fffe000, 0x100f, 0x30, 0x40, 0x80, 0x100, 0x200, 0x400, 0x800, 0x80000000]
  exact apart_of_notMem (by decide) (by decide +kernel)

theorem others_disjoint :
    ∀ m ∈ linuxCbaud :: linuxCsize :: (cflagToLinux s).map Prod.snd, 0x7fffe000 &&& m = 0 :=
  (List.pairwise_cons.mp linux_cflags_apart.disjoint).1

theorem cbaud_disjoint : ∀ m ∈ linuxCsize :: (cflagToLinux s).map Prod.snd, linuxCbaud &&& m = 0 :=
  (List.pairwise_cons.mp (List.pairwise_cons.mp linux_cflags_apart.disjoint).2).1

/-! ## One speed -/

theorem searchTable_missed {key value : Speedtab → Word} {wanted : Word} {rows : List Speedtab}
    (h : ∀ row ∈ rows, key row ≠ wanted) (stop : Speedtab) (hstop : key stop = -1) :
    searchTable key value wanted (rows ++ [stop]) = -1 := by
  induction rows with
  | nil => rw [List.nil_append, searchTable, if_pos hstop]
  | cons row rows ih =>
    obtain ⟨hrow, hrest⟩ := List.forall_mem_cons.mp h
    rw [List.cons_append, searchTable, if_neg hrow, ih hrest, ite_self]

theorem code_in_cbaud {row : Speedtab} (h : row ∈ speeds s) :
    row.spCode &&& linuxCbaud = row.spCode := by
  have hcodes : (speeds s).map Speedtab.spCode =
      [0, 1, 2, 3, 4, 5, 6, 7, 8, 9, 10, 11, 12, 13, 14, 15, 0x1001, 0x1002] := rfl
  have hmem : row.spCode ∈ (speeds s).map Speedtab.spCode := List.mem_map_of_mem h
  rw [hcodes] at hmem
  simp only [List.mem_cons, List.not_mem_nil, or_false] at hmem
  rcases hmem with h | h | h | h | h | h | h | h | h | h | h | h | h | h | h | h | h | h
  all_goals
    rw [h]
    decide

theorem translate_allOnes {v w : Nat} (pairs : List (BitVec v × BitVec w)) (x : BitVec v) :
    translate pairs x (BitVec.allOnes w) = BitVec.allOnes w := by
  induction pairs with
  | nil => rfl
  | cons p pairs ih => rw [translate_cons, BitVec.allOnes_or, ite_self, ih]

theorem and_of_within {a b m : Word} (ha : a &&& b = a) (h : b &&& m = 0) : a &&& m = 0 := by
  rw [← ha, BitVec.and_assoc, h]
  exact BitVec.and_zero

theorem start_and_of_disjoint {code size m : Word} (hcode : code &&& linuxCbaud = code)
    (hsize : size &&& linuxCsize = size) (hbaud : linuxCbaud &&& m = 0)
    (hcsize : linuxCsize &&& m = 0) : (code ||| size) &&& m = 0 := by
  rw [BitVec.and_or_distrib_right, and_of_within hcode hbaud, and_of_within hsize hcsize]
  rfl

theorem csize_shifted_within (hs : s.Documented) (flags : Word) :
    (flags &&& s.csize) >>> 4 &&& linuxCsize = (flags &&& s.csize) >>> 4 := by
  rw [hs.csize, BitVec.ushiftRight_and_distrib, BitVec.and_assoc]
  rfl

theorem control_kept_of_known (hs : s.Documented) {row : Speedtab} (hrow : row ∈ speeds s)
    (hspeed : row.spSpeed = bios.cIspeed) : ControlKept s bios := by
  have hcode : bsdToLinuxSpeed bios.cIspeed (sptab s) = row.spCode := by
    rw [← hspeed]
    exact searchTable_of_mem hs.speeds hrow
  have hresult : (bsdToLinuxTermios s bios).cCflag = translate (cflagToLinux s) bios.cCflag
      (row.spCode ||| (bios.cCflag &&& s.csize) >>> 4) := by
    rw [← hcode]
    rfl
  have hwithin : row.spCode &&& linuxCbaud = row.spCode := code_in_cbaud hrow
  have hsize := csize_shifted_within hs bios.cCflag
  obtain ⟨hbaudsize, hbaud⟩ := List.forall_mem_cons.mp (@cbaud_disjoint s)
  obtain ⟨hotherbaud, hothersize, hother⟩ : 0x7fffe000 &&& linuxCbaud = 0 ∧
      0x7fffe000 &&& linuxCsize = 0 ∧
      ∀ m ∈ (cflagToLinux s).map Prod.snd, 0x7fffe000 &&& m = 0 := by
    simpa only [List.forall_mem_cons] using @others_disjoint s
  have hapart := List.pairwise_cons.mp
    (List.pairwise_cons.mp (List.pairwise_cons.mp (@linux_cflags_apart s).disjoint).2).2
  refine ⟨?_, ?_, ?_⟩
  · rw [hresult, translate_and_of_disjoint fun p hp => ?_, BitVec.and_or_distrib_right, hsize,
      and_of_within hwithin hbaudsize]
    · exact BitVec.zero_or
    · rw [BitVec.and_comm]
      exact hapart.1 p.2 (List.mem_map_of_mem hp)
  · intro p hp
    have hmem : p.2 ∈ (cflagToLinux s).map Prod.snd := List.mem_map_of_mem hp
    rw [hresult]
    refine translate_meets ⟨fun m hm => ?_, hapart.2⟩ hp ?_
    · refine (@linux_cflags_apart s).nonzero m ?_
      exact List.mem_cons_of_mem _ (List.mem_cons_of_mem _ (List.mem_cons_of_mem _ hm))
    · exact start_and_of_disjoint hwithin hsize (hbaud p.2 hmem) (hapart.1 p.2 hmem)
  · rw [hresult, others_eq, translate_and_of_disjoint fun p hp => ?_]
    · exact start_and_of_disjoint hwithin hsize (BitVec.and_comm .. ▸ hotherbaud)
        (BitVec.and_comm .. ▸ hothersize)
    · rw [BitVec.and_comm]
      exact hother p.2 (List.mem_map_of_mem hp)

theorem not_control_kept (h : ∀ row ∈ speeds s, row.spSpeed ≠ bios.cIspeed) :
    ¬ ControlKept s bios := by
  intro hkept
  have hmissed : bsdToLinuxSpeed bios.cIspeed (sptab s) = -1 := searchTable_missed h ⟨-1, -1⟩ rfl
  have hall : (bsdToLinuxTermios s bios).cCflag = BitVec.allOnes 32 := by
    change translate (cflagToLinux s) bios.cCflag
      (bsdToLinuxSpeed bios.cIspeed (sptab s) ||| _) = _
    rw [hmissed, show (-1 : Word) = BitVec.allOnes 32 from rfl, BitVec.allOnes_or,
      translate_allOnes]
  have hothers := hkept.others
  rw [hall, others_eq] at hothers
  exact absurd hothers (by decide)

/-- **Unsupported speeds.** They disturb the other control modes, and only they. -/
theorem control_kept_iff (hs : s.Documented) :
    ControlKept s bios ↔ ∃ row ∈ speeds s, row.spSpeed = bios.cIspeed := by
  constructor
  · intro hkept
    by_contra hnone
    exact not_control_kept (fun row hrow heq => hnone ⟨row, hrow, heq⟩) hkept
  · rintro ⟨row, hrow, hspeed⟩
    exact control_kept_of_known hs hrow hspeed

end

/-- Eight bits at the given speed. -/
def speedTermios (speed : Word) : Termios sysTty.nccs where
  cIflag := 0
  cOflag := 0
  cCflag := 0x300
  cLflag := 0
  cCc _ := 0
  cIspeed := speed
  cOspeed := speed

theorem control_kept_9600 : ControlKept sysTty.toSysTermios (speedTermios 9600) :=
  (control_kept_iff sysTty_documented.termios).mpr ⟨⟨9600, linuxB9600⟩, by decide, rfl⟩

theorem control_not_kept :
    ¬ ∀ (s : SysTermios) (bios : Termios s.nccs), s.Documented → ControlKept s bios := by
  intro h
  have hflag := (h sysTty.toSysTermios (speedTermios 230400) sysTty_documented.termios).others
  exact absurd hflag (by decide)

end LibSystem.Core
