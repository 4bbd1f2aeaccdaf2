import LibSystem.Memory
import LibSystem.Translation

/-!
# Terminal settings

`core/darwin_ioctl.c` turns the kernel's `struct termios` into the caller's and back. The kernel's
constants are in `core/linux_ioctl.h`, the caller's in a system header.
-/

namespace LibSystem.Core

open Flags

/-! ## Constants -/

abbrev linuxNccs : Nat := 19

def linuxPosixVdisable : Byte := 0

def linuxVintr : Fin linuxNccs := 0
def linuxVquit : Fin linuxNccs := 1
def linuxVerase : Fin linuxNccs := 2
def linuxVkill : Fin linuxNccs := 3
def linuxVeof : Fin linuxNccs := 4
def linuxVeol : Fin linuxNccs := 11
def linuxVmin : Fin linuxNccs := 6
def linuxVtime : Fin linuxNccs := 5
def linuxVeol2 : Fin linuxNccs := 16
def linuxVsusp : Fin linuxNccs := 10
def linuxVstart : Fin linuxNccs := 8
def linuxVstop : Fin linuxNccs := 9
def linuxVreprint : Fin linuxNccs := 12
def linuxVdiscard : Fin linuxNccs := 13
def linuxVwerase : Fin linuxNccs := 14
def linuxVlnext : Fin linuxNccs := 15

def linuxIgnbrk : Word := 0x0000001
def linuxBrkint : Word := 0x0000002
def linuxIgnpar : Word := 0x0000004
def linuxParmrk : Word := 0x0000008
def linuxInpck : Word := 0x0000010
def linuxIstrip : Word := 0x0000020
def linuxInlcr : Word := 0x0000040
def linuxIgncr : Word := 0x0000080
def linuxIcrnl : Word := 0x0000100
def linuxIxon : Word := 0x0000400
def linuxIxany : Word := 0x0000800
def linuxIxoff : Word := 0x0001000
def linuxImaxbel : Word := 0x0002000

def linuxOpost : Word := 0x0000001
def linuxOnlcr : Word := 0x0000004
def linuxXtabs : Word := 0x0001800

def linuxCbaud : Word := 0x0000100f
def linuxB0 : Word := 0x00000000
def linuxB50 : Word := 0x00000001
def linuxB75 : Word := 0x00000002
def linuxB110 : Word := 0x00000003
def linuxB134 : Word := 0x00000004
def linuxB150 : Word := 0x00000005
def linuxB200 : Word := 0x00000006
def linuxB300 : Word := 0x00000007
def linuxB600 : Word := 0x00000008
def linuxB1200 : Word := 0x00000009
def linuxB1800 : Word := 0x0000000a
def linuxB2400 : Word := 0x0000000b
def linuxB4800 : Word := 0x0000000c
def linuxB9600 : Word := 0x0000000d
def linuxB19200 : Word := 0x0000000e
def linuxB38400 : Word := 0x0000000f
def linuxB57600 : Word := 0x00001001
def linuxB115200 : Word := 0x00001002
def linuxCsize : Word := 0x00000030
def linuxCstopb : Word := 0x00000040
def linuxCread : Word := 0x00000080
def linuxParenb : Word := 0x00000100
def linuxParodd : Word := 0x00000200
def linuxHupcl : Word := 0x00000400
def linuxClocal : Word := 0x00000800
def linuxCrtscts : Word := 0x80000000

def linuxIsig : Word := 0x00000001
def linuxIcanon : Word := 0x00000002
def linuxEcho : Word := 0x00000008
def linuxEchoe : Word := 0x00000010
def linuxEchok : Word := 0x00000020
def linuxEchonl : Word := 0x00000040
def linuxNoflsh : Word := 0x00000080
def linuxTostop : Word := 0x00000100
def linuxEchoctl : Word := 0x00000200
def linuxEchoprt : Word := 0x00000400
def linuxEchoke : Word := 0x00000800
def linuxFlusho : Word := 0x00001000
def linuxPendin : Word := 0x00002000
def linuxIexten : Word := 0x00008000

/-- The constants of `<sys/termios.h>`. -/
structure SysTermios where
  nccs : Nat
  (ignbrk brkint ignpar parmrk inpck istrip inlcr igncr icrnl ixon ixany ixoff imaxbel : Word)
  (opost onlcr tab3 : Word)
  (cignore csize cstopb cread parenb parodd hupcl clocal crtscts : Word)
  (isig icanon echo echoe echok echonl noflsh tostop echoctl echoprt echoke flusho pendin
   iexten : Word)
  (vintr vquit verase vkill veof veol vmin vtime veol2 vsusp vstart vstop vreprint vdiscard
   vwerase vlnext : Fin nccs)
  posixVdisable : Byte
  (b0 b50 b75 b110 b134 b150 b200 b300 b600 b1200 b1800 b2400 b4800 b9600 b19200 b38400
   b57600 b115200 : Word)

namespace SysTermios

variable (s : SysTermios)

def iflags : List Word :=
  [s.ignbrk, s.brkint, s.ignpar, s.parmrk, s.inpck, s.istrip, s.inlcr, s.igncr, s.icrnl, s.ixon,
   s.ixany, s.ixoff, s.imaxbel]

def oflags : List Word := [s.opost, s.onlcr, s.tab3]

def cflags : List Word :=
  [s.cignore, s.csize, s.cstopb, s.cread, s.parenb, s.parodd, s.hupcl, s.clocal, s.crtscts]

def lflags : List Word :=
  [s.isig, s.icanon, s.echo, s.echoe, s.echok, s.echonl, s.noflsh, s.tostop, s.echoctl, s.echoprt,
   s.echoke, s.flusho, s.pendin, s.iexten]

def ccs : List (Fin s.nccs) :=
  [s.vintr, s.vquit, s.verase, s.vkill, s.veof, s.veol, s.vmin, s.vtime, s.veol2, s.vsusp, s.vstart,
   s.vstop, s.vreprint, s.vdiscard, s.vwerase, s.vlnext]

end SysTermios

/-! ## Speeds -/

structure Speedtab where
  spSpeed : Word
  spCode : Word
  deriving DecidableEq

def speeds (s : SysTermios) : List Speedtab :=
  [⟨s.b0, linuxB0⟩, ⟨s.b50, linuxB50⟩, ⟨s.b75, linuxB75⟩, ⟨s.b110, linuxB110⟩, ⟨s.b134, linuxB134⟩,
   ⟨s.b150, linuxB150⟩, ⟨s.b200, linuxB200⟩, ⟨s.b300, linuxB300⟩, ⟨s.b600, linuxB600⟩,
   ⟨s.b1200, linuxB1200⟩, ⟨s.b1800, linuxB1800⟩, ⟨s.b2400, linuxB2400⟩, ⟨s.b4800, linuxB4800⟩,
   ⟨s.b9600, linuxB9600⟩, ⟨s.b19200, linuxB19200⟩, ⟨s.b38400, linuxB38400⟩, ⟨s.b57600, linuxB57600⟩,
   ⟨s.b115200, linuxB115200⟩]

def sptab (s : SysTermios) : List Speedtab := speeds s ++ [⟨-1, -1⟩]

/-- The loop of both searches: what `key` is compared with, what `value` is returned. -/
def searchTable (key value : Speedtab → Word) (wanted : Word) : List Speedtab → Word
  | [] => -1
  | row :: table =>
    if key row = -1 then -1
    else if key row = wanted then value row
    else searchTable key value wanted table

def linuxToBsdSpeed (code : Word) (table : List Speedtab) : Word :=
  searchTable Speedtab.spCode Speedtab.spSpeed code table

def bsdToLinuxSpeed (speed : Word) (table : List Speedtab) : Word :=
  searchTable Speedtab.spSpeed Speedtab.spCode speed table

/-! ## The two translations -/

@[ext] structure LinuxTermios where
  cIflag : Word
  cOflag : Word
  cCflag : Word
  cLflag : Word
  cLine : Byte
  cCc : Fin linuxNccs → Byte

structure Termios (nccs : Nat) where
  cIflag : Word
  cOflag : Word
  cCflag : Word
  cLflag : Word
  cCc : Fin nccs → Byte
  cIspeed : Word
  cOspeed : Word

def iflagToLinux (s : SysTermios) : List (Word × Word) :=
  [(s.ignbrk, linuxIgnbrk), (s.brkint, linuxBrkint), (s.ignpar, linuxIgnpar),
   (s.parmrk, linuxParmrk), (s.inpck, linuxInpck), (s.istrip, linuxIstrip), (s.inlcr, linuxInlcr),
   (s.igncr, linuxIgncr), (s.icrnl, linuxIcrnl), (s.ixon, linuxIxon), (s.ixany, linuxIxany),
   (s.ixoff, linuxIxoff), (s.imaxbel, linuxImaxbel)]

def iflagToBsd (s : SysTermios) : List (Word × Word) :=
  [(linuxIgnbrk, s.ignbrk), (linuxBrkint, s.brkint), (linuxIgnpar, s.ignpar),
   (linuxParmrk, s.parmrk), (linuxInpck, s.inpck), (linuxIstrip, s.istrip), (linuxInlcr, s.inlcr),
   (linuxIgncr, s.igncr), (linuxIcrnl, s.icrnl), (linuxIxon, s.ixon), (linuxIxany, s.ixany),
   (linuxIxoff, s.ixoff), (linuxImaxbel, s.imaxbel)]

def oflagToLinux (s : SysTermios) : List (Word × Word) :=
  [(s.opost, linuxOpost), (s.onlcr, linuxOnlcr), (s.tab3, linuxXtabs)]

def oflagToBsd (s : SysTermios) : List (Word × Word) :=
  [(linuxOpost, s.opost), (linuxOnlcr, s.onlcr), (linuxXtabs, s.tab3)]

def cflagToLinux (s : SysTermios) : List (Word × Word) :=
  [(s.cstopb, linuxCstopb), (s.cread, linuxCread), (s.parenb, linuxParenb), (s.parodd, linuxParodd),
   (s.hupcl, linuxHupcl), (s.clocal, linuxClocal), (s.crtscts, linuxCrtscts)]

def cflagToBsd (s : SysTermios) : List (Word × Word) :=
  [(linuxCstopb, s.cstopb), (linuxCread, s.cread), (linuxParenb, s.parenb), (linuxParodd, s.parodd),
   (linuxHupcl, s.hupcl), (linuxClocal, s.clocal), (linuxCrtscts, s.crtscts)]

def lflagToLinux (s : SysTermios) : List (Word × Word) :=
  [(s.isig, linuxIsig), (s.icanon, linuxIcanon), (s.echo, linuxEcho), (s.echoe, linuxEchoe),
   (s.echok, linuxEchok), (s.echonl, linuxEchonl), (s.noflsh, linuxNoflsh), (s.tostop, linuxTostop),
   (s.echoctl, linuxEchoctl), (s.echoprt, linuxEchoprt), (s.echoke, linuxEchoke),
   (s.flusho, linuxFlusho), (s.pendin, linuxPendin), (s.iexten, linuxIexten)]

def lflagToBsd (s : SysTermios) : List (Word × Word) :=
  [(linuxIsig, s.isig), (linuxIcanon, s.icanon), (linuxEcho, s.echo), (linuxEchoe, s.echoe),
   (linuxEchok, s.echok), (linuxEchonl, s.echonl), (linuxNoflsh, s.noflsh), (linuxTostop, s.tostop),
   (linuxEchoctl, s.echoctl), (linuxEchoprt, s.echoprt), (linuxEchoke, s.echoke),
   (linuxFlusho, s.flusho), (linuxPendin, s.pendin), (linuxIexten, s.iexten)]

def ccToLinux (s : SysTermios) : List (Fin s.nccs × Fin linuxNccs) :=
  [(s.vintr, linuxVintr), (s.vquit, linuxVquit), (s.verase, linuxVerase), (s.vkill, linuxVkill),
   (s.veof, linuxVeof), (s.veol, linuxVeol), (s.vmin, linuxVmin), (s.vtime, linuxVtime),
   (s.veol2, linuxVeol2), (s.vsusp, linuxVsusp), (s.vstart, linuxVstart), (s.vstop, linuxVstop),
   (s.vreprint, linuxVreprint), (s.vdiscard, linuxVdiscard), (s.vwerase, linuxVwerase),
   (s.vlnext, linuxVlnext)]

def ccToBsd (s : SysTermios) : List (Fin linuxNccs × Fin s.nccs) :=
  [(linuxVintr, s.vintr), (linuxVquit, s.vquit), (linuxVerase, s.verase), (linuxVkill, s.vkill),
   (linuxVeof, s.veof), (linuxVeol, s.veol), (linuxVmin, s.vmin), (linuxVtime, s.vtime),
   (linuxVeol2, s.veol2), (linuxVsusp, s.vsusp), (linuxVstart, s.vstart), (linuxVstop, s.vstop),
   (linuxVreprint, s.vreprint), (linuxVdiscard, s.vdiscard), (linuxVwerase, s.vwerase),
   (linuxVlnext, s.vlnext)]

/-- The last loop of both: one disabling value for the other, `VMIN` and `VTIME` left alone. -/
def renameDisabled {n : Nat} (vmin vtime : Fin n) (old new : Byte) (cc : Fin n → Byte) :
    Fin n → Byte :=
  fun i => if i ≠ vmin ∧ i ≠ vtime ∧ cc i = old then new else cc i

def bsdToLinuxTermios (s : SysTermios) (bios : Termios s.nccs) : LinuxTermios where
  cIflag := translate (iflagToLinux s) bios.cIflag 0
  cOflag := translate (oflagToLinux s) bios.cOflag 0
  cCflag := translate (cflagToLinux s) bios.cCflag
    (bsdToLinuxSpeed bios.cIspeed (sptab s) ||| (bios.cCflag &&& s.csize) >>> 4)
  cLflag := translate (lflagToLinux s) bios.cLflag 0
  cCc := renameDisabled linuxVmin linuxVtime s.posixVdisable linuxPosixVdisable
    (Entries.copy (ccToLinux s) bios.cCc fun _ => linuxPosixVdisable)
  cLine := 0

def linuxToBsdTermios (s : SysTermios) (lios : LinuxTermios) : Termios s.nccs where
  cIflag := translate (iflagToBsd s) lios.cIflag 0
  cOflag := translate (oflagToBsd s) lios.cOflag 0
  cCflag := translate (cflagToBsd s) lios.cCflag ((lios.cCflag &&& linuxCsize) <<< 4)
  cLflag := translate (lflagToBsd s) lios.cLflag 0
  cCc := renameDisabled s.vmin s.vtime linuxPosixVdisable s.posixVdisable
    (Entries.copy (ccToBsd s) lios.cCc fun _ => s.posixVdisable)
  cIspeed := linuxToBsdSpeed (lios.cCflag &&& linuxCbaud) (sptab s)
  cOspeed := linuxToBsdSpeed (lios.cCflag &&& linuxCbaud) (sptab s)

/-! ## There and back -/

/-- What the system header promises of its constants. -/
structure SysTermios.Documented (s : SysTermios) : Prop where
  iflags : Apart s.iflags
  oflags : Apart s.oflags
  cflags : Apart s.cflags
  lflags : Apart s.lflags
  csize : s.csize = 0x300
  ccs : s.ccs.Nodup
  posixVdisable : s.posixVdisable = 0xff
  speeds : (-1 :: (speeds s).map Speedtab.spSpeed).Nodup

/-- The flags the table has a pair for. -/
def knownFlags (pairs : List (Word × Word)) : Word := union (pairs.map Prod.fst)

/-- Settings that the translation has words for. -/
structure LinuxTermios.Known (l : LinuxTermios) (s : SysTermios) : Prop where
  iflag : l.cIflag &&& knownFlags (iflagToBsd s) = l.cIflag
  oflag : l.cOflag &&& knownFlags (oflagToBsd s) = l.cOflag
  xtabs : l.cOflag &&& linuxXtabs = 0 ∨ l.cOflag &&& linuxXtabs = linuxXtabs
  cflag : l.cCflag &&& (linuxCbaud ||| linuxCsize ||| knownFlags (cflagToBsd s)) = l.cCflag
  speed : ∃ row ∈ speeds s, row.spCode = l.cCflag &&& linuxCbaud
  lflag : l.cLflag &&& knownFlags (lflagToBsd s) = l.cLflag
  line : l.cLine = 0
  unused : l.cCc 7 = 0 ∧ l.cCc 17 = 0 ∧ l.cCc 18 = 0
  plain : ∀ i, i ≠ linuxVmin → i ≠ linuxVtime → l.cCc i ≠ 0xff

section

variable {s : SysTermios} {l : LinuxTermios}

theorem searchTable_of_mem {key value : Speedtab → Word} {rows rest : List Speedtab}
    (nodup : (-1 :: rows.map key).Nodup) {row : Speedtab} (hrow : row ∈ rows) :
    searchTable key value (key row) (rows ++ rest) = value row := by
  induction rows with
  | nil => simp at hrow
  | cons r rows ih =>
    rw [List.map_cons, List.nodup_cons, List.mem_cons, not_or, List.nodup_cons] at nodup
    obtain ⟨⟨hstop, hstops⟩, hr, hrows⟩ := nodup
    rw [List.cons_append, searchTable, if_neg (Ne.symm hstop)]
    rcases List.mem_cons.mp hrow with rfl | hmem
    · rw [if_pos rfl]
    · have hne : key r ≠ key row := fun heq => hr (heq ▸ List.mem_map_of_mem hmem)
      rw [if_neg hne, ih (List.nodup_cons.mpr ⟨hstops, hrows⟩) hmem]

theorem linux_codes_nodup : (-1 :: (speeds s).map Speedtab.spCode).Nodup := by
  change ([-1, 0, 1, 2, 3, 4, 5, 6, 7, 8, 9, 10, 11, 12, 13, 14, 15, 0x1001, 0x1002] :
    List Word).Nodup
  decide

theorem speed_back (hs : s.Documented) {row : Speedtab} (hrow : row ∈ speeds s) :
    bsdToLinuxSpeed (linuxToBsdSpeed row.spCode (sptab s)) (sptab s) = row.spCode := by
  unfold bsdToLinuxSpeed linuxToBsdSpeed sptab
  rw [searchTable_of_mem linux_codes_nodup hrow, searchTable_of_mem hs.speeds hrow]

theorem flags_back {pairs : List (Word × Word)} (apart : Apart (pairs.map Prod.snd)) {x : Word}
    (known : x &&& knownFlags pairs = x)
    (whole : ∀ p ∈ pairs, x &&& p.1 = 0 ∨ x &&& p.1 = p.1) :
    translate (pairs.map Prod.swap) (translate pairs x 0) 0 = x := by
  have clear : ∀ p ∈ pairs, (0 : Word) &&& p.2 = 0 := fun _ _ => BitVec.zero_and
  rw [translate_back apart clear whole]
  exact BitVec.zero_or.trans known

theorem whole_of_bits {pairs : List (Word × Word)} {bits : List Nat}
    (h : pairs.map Prod.fst = bits.map (BitVec.twoPow 32)) {x : Word} :
    ∀ p ∈ pairs, x &&& p.1 = 0 ∨ x &&& p.1 = p.1 := by
  intro p hp
  have hmem : p.1 ∈ bits.map (BitVec.twoPow 32) := h ▸ List.mem_map_of_mem hp
  obtain ⟨i, -, hi⟩ := List.mem_map.mp hmem
  rw [← hi]
  exact whole_of_twoPow i

theorem iflag_bits : (iflagToBsd s).map Prod.fst =
    [0, 1, 2, 3, 4, 5, 6, 7, 8, 10, 11, 12, 13].map (BitVec.twoPow 32) := rfl

theorem cflag_bits : (cflagToBsd s).map Prod.fst =
    [6, 7, 8, 9, 10, 11, 31].map (BitVec.twoPow 32) := rfl

theorem lflag_bits : (lflagToBsd s).map Prod.fst =
    [0, 1, 3, 4, 5, 6, 7, 8, 9, 10, 11, 12, 13, 15].map (BitVec.twoPow 32) := rfl

theorem oflag_whole (hl : l.Known s) :
    ∀ p ∈ oflagToBsd s, l.cOflag &&& p.1 = 0 ∨ l.cOflag &&& p.1 = p.1 := by
  intro p hp
  have hcases : p = (linuxOpost, s.opost) ∨ p = (linuxOnlcr, s.onlcr) ∨
      p = (linuxXtabs, s.tab3) := by simpa [oflagToBsd] using hp
  rcases hcases with rfl | rfl | rfl
  · exact whole_of_twoPow 0
  · exact whole_of_twoPow 2
  · exact hl.xtabs

/-! ## Control modes -/

theorem csize_shifted (x : Word) :
    (x &&& linuxCsize) <<< 4 &&& (0x300 : Word) = (x &&& linuxCsize) <<< 4 := by
  have hbits : linuxCsize <<< 4 &&& (0x300 : Word) = linuxCsize <<< 4 := by decide
  rw [BitVec.shiftLeft_and_distrib, BitVec.and_assoc, hbits]

theorem csize_unshifted (x : Word) : (x &&& linuxCsize) <<< 4 >>> 4 = x &&& linuxCsize := by
  have hle : (x &&& linuxCsize).toNat ≤ 0x30 := by
    rw [BitVec.toNat_and]
    exact Nat.and_le_right
  have hlt : (x &&& linuxCsize).toNat <<< 4 < 2 ^ 32 := by
    rw [Nat.shiftLeft_eq]
    omega
  apply BitVec.eq_of_toNat_eq
  rw [BitVec.toNat_ushiftRight, BitVec.toNat_shiftLeft, Nat.mod_eq_of_lt hlt,
    Nat.shiftLeft_shiftRight]

theorem csize_disjoint (hs : s.Documented) : ∀ p ∈ cflagToBsd s, s.csize &&& p.2 = 0 := by
  intro p hp
  obtain ⟨-, hpair⟩ := List.pairwise_cons.mp hs.cflags.disjoint
  exact (List.pairwise_cons.mp hpair).1 p.2 (List.mem_map_of_mem hp)

theorem cflag_apart (hs : s.Documented) : Apart ((cflagToBsd s).map Prod.snd) where
  nonzero m hm := hs.cflags.nonzero m (List.mem_cons_of_mem _ (List.mem_cons_of_mem _ hm))
  disjoint := (List.pairwise_cons.mp (List.pairwise_cons.mp hs.cflags.disjoint).2).2

theorem start_clear (hs : s.Documented) (x : Word) :
    ∀ p ∈ cflagToBsd s, (x &&& linuxCsize) <<< 4 &&& p.2 = 0 := by
  intro p hp
  calc (x &&& linuxCsize) <<< 4 &&& p.2
      = (x &&& linuxCsize) <<< 4 &&& (s.csize &&& p.2) := by
        rw [← BitVec.and_assoc, hs.csize, csize_shifted]
    _ = 0 := by rw [csize_disjoint hs p hp]; exact BitVec.and_zero

theorem csize_back (hs : s.Documented) :
    ((linuxToBsdTermios s l).cCflag &&& s.csize) >>> 4 = l.cCflag &&& linuxCsize := by
  have hmask : (linuxToBsdTermios s l).cCflag &&& s.csize = (l.cCflag &&& linuxCsize) <<< 4 := by
    refine (translate_and_of_disjoint fun p hp => ?_).trans ?_
    · rw [BitVec.and_comm]
      exact csize_disjoint hs p hp
    · rw [hs.csize, csize_shifted]
  rw [hmask, csize_unshifted]

theorem cflag_back (hs : s.Documented) (hl : l.Known s) :
    (bsdToLinuxTermios s (linuxToBsdTermios s l)).cCflag = l.cCflag := by
  obtain ⟨row, hrow, hcode⟩ := hl.speed
  have hspeed : bsdToLinuxSpeed (linuxToBsdTermios s l).cIspeed (sptab s) =
      l.cCflag &&& linuxCbaud := by
    change bsdToLinuxSpeed (linuxToBsdSpeed (l.cCflag &&& linuxCbaud) (sptab s)) (sptab s) = _
    rw [← hcode, speed_back hs hrow]
  calc (bsdToLinuxTermios s (linuxToBsdTermios s l)).cCflag
      = translate (cflagToLinux s) (linuxToBsdTermios s l).cCflag
          ((l.cCflag &&& linuxCbaud) ||| (l.cCflag &&& linuxCsize)) := by
        rw [← hspeed, ← csize_back hs]; rfl
    _ = (l.cCflag &&& linuxCbaud) ||| (l.cCflag &&& linuxCsize) |||
          (l.cCflag &&& knownFlags (cflagToBsd s)) :=
        translate_back (cflag_apart hs) (start_clear hs l.cCflag) (whole_of_bits cflag_bits)
    _ = l.cCflag := by
        rw [← BitVec.and_or_distrib_left, ← BitVec.and_or_distrib_left, hl.cflag]

/-! ## Control characters -/

theorem linux_ccs : (ccToBsd s).map Prod.fst =
    [0, 1, 2, 3, 4, 11, 6, 5, 16, 10, 8, 9, 12, 13, 14, 15] := rfl

theorem ccs_nodup (hs : s.Documented) : ((ccToBsd s).map Prod.snd).Nodup := hs.ccs

theorem linux_ccs_nodup : ((ccToBsd s).map Prod.fst).Nodup := by
  rw [linux_ccs]
  decide

theorem unused_of_notMem {j : Fin linuxNccs} (hj : j ∉ (ccToBsd s).map Prod.fst) :
    j = 7 ∨ j = 17 ∨ j = 18 := by
  rw [linux_ccs] at hj
  revert j
  decide

theorem exempt_iff (hs : s.Documented) {p : Fin linuxNccs × Fin s.nccs} (hp : p ∈ ccToBsd s) :
    (p.2 ≠ s.vmin ∧ p.2 ≠ s.vtime) ↔ (p.1 ≠ linuxVmin ∧ p.1 ≠ linuxVtime) := by
  have same : ∀ q ∈ ccToBsd s, (p.2 = q.2 ↔ p.1 = q.1) := by
    intro q hq
    constructor
    · intro heq
      exact congrArg Prod.fst (List.inj_on_of_nodup_map (ccs_nodup hs) hp hq heq)
    · intro heq
      exact congrArg Prod.snd (List.inj_on_of_nodup_map linux_ccs_nodup hp hq heq)
  have hmin := same (linuxVmin, s.vmin) (by simp [ccToBsd])
  have htime := same (linuxVtime, s.vtime) (by simp [ccToBsd])
  rw [Ne, Ne, hmin, htime]

theorem cc_there (hs : s.Documented) {p : Fin linuxNccs × Fin s.nccs} (hp : p ∈ ccToBsd s) :
    (linuxToBsdTermios s l).cCc p.2 =
      if p.1 ≠ linuxVmin ∧ p.1 ≠ linuxVtime ∧ l.cCc p.1 = 0 then 0xff else l.cCc p.1 := by
  have hcopied : Entries.copy (ccToBsd s) l.cCc (fun _ => s.posixVdisable) p.2 = l.cCc p.1 :=
    Entries.copy_of_mem (ccs_nodup hs) hp
  have hrenamed : p.2 ≠ s.vmin ∧ p.2 ≠ s.vtime ∧ l.cCc p.1 = linuxPosixVdisable ↔
      p.1 ≠ linuxVmin ∧ p.1 ≠ linuxVtime ∧ l.cCc p.1 = 0 := by
    rw [← and_assoc, exempt_iff hs hp, and_assoc]
    rfl
  change (if p.2 ≠ s.vmin ∧ p.2 ≠ s.vtime ∧ _ = linuxPosixVdisable then s.posixVdisable else _) = _
  rw [hcopied, hs.posixVdisable, if_congr hrenamed rfl rfl]

theorem cc_here (hs : s.Documented) {p : Fin linuxNccs × Fin s.nccs} (hp : p ∈ ccToBsd s)
    (bios : Termios s.nccs) :
    (bsdToLinuxTermios s bios).cCc p.1 =
      if p.1 ≠ linuxVmin ∧ p.1 ≠ linuxVtime ∧ bios.cCc p.2 = 0xff then 0 else bios.cCc p.2 := by
  have hswap : p.swap ∈ ccToLinux s :=
    (List.mem_map_of_mem hp : p.swap ∈ (ccToBsd s).map Prod.swap)
  have hcopied : Entries.copy (ccToLinux s) bios.cCc (fun _ => linuxPosixVdisable) p.1 =
      bios.cCc p.2 :=
    Entries.copy_of_mem (@linux_ccs_nodup s) hswap
  change (if p.1 ≠ linuxVmin ∧ p.1 ≠ linuxVtime ∧ _ = s.posixVdisable then linuxPosixVdisable
    else _) = _
  rw [hcopied, hs.posixVdisable]
  rfl

theorem cc_back (hs : s.Documented) (hl : l.Known s) :
    (bsdToLinuxTermios s (linuxToBsdTermios s l)).cCc = l.cCc := by
  funext j
  by_cases hj : j ∈ (ccToBsd s).map Prod.fst
  · obtain ⟨p, hp, rfl⟩ := List.mem_map.mp hj
    by_cases hexempt : p.1 ≠ linuxVmin ∧ p.1 ≠ linuxVtime
    · obtain ⟨hmin, htime⟩ := hexempt
      by_cases hzero : l.cCc p.1 = 0
      · have hthere : (linuxToBsdTermios s l).cCc p.2 = 0xff := by
          rw [cc_there hs hp, if_pos ⟨hmin, htime, hzero⟩]
        rw [cc_here hs hp, hthere, if_pos ⟨hmin, htime, rfl⟩, hzero]
      · have hthere : (linuxToBsdTermios s l).cCc p.2 = l.cCc p.1 := by
          rw [cc_there hs hp, if_neg fun h => hzero h.2.2]
        rw [cc_here hs hp, hthere, if_neg fun h => hl.plain p.1 hmin htime h.2.2]
    · have hthere : (linuxToBsdTermios s l).cCc p.2 = l.cCc p.1 := by
        rw [cc_there hs hp, if_neg fun h => hexempt ⟨h.1, h.2.1⟩]
      rw [cc_here hs hp, hthere, if_neg fun h => hexempt ⟨h.1, h.2.1⟩]
  · -- Nothing was copied here, so the entry is disabled on both ways.
    have hcopied : Entries.copy (ccToLinux s) (linuxToBsdTermios s l).cCc
        (fun _ => linuxPosixVdisable) j = linuxPosixVdisable := Entries.copy_of_notMem hj
    have hzero : l.cCc j = 0 := by
      obtain ⟨h7, h17, h18⟩ := hl.unused
      rcases unused_of_notMem hj with rfl | rfl | rfl
      · exact h7
      · exact h17
      · exact h18
    change (if j ≠ linuxVmin ∧ j ≠ linuxVtime ∧ _ = s.posixVdisable then linuxPosixVdisable
      else _) = _
    rw [hcopied, hzero, ite_self]
    rfl

/-! ## The whole record -/

theorem linuxToBsd_back (hs : s.Documented) (hl : l.Known s) :
    bsdToLinuxTermios s (linuxToBsdTermios s l) = l := by
  apply LinuxTermios.ext
  · exact @flags_back (iflagToBsd s) hs.iflags _ hl.iflag (whole_of_bits iflag_bits)
  · exact @flags_back (oflagToBsd s) hs.oflags _ hl.oflag (oflag_whole hl)
  · exact cflag_back hs hl
  · exact @flags_back (lflagToBsd s) hs.lflags _ hl.lflag (whole_of_bits lflag_bits)
  · exact hl.line.symm
  · exact cc_back hs hl

theorem bsdToLinux_cignore (hs : s.Documented) (bios : Termios s.nccs) :
    bsdToLinuxTermios s { bios with cCflag := bios.cCflag ||| s.cignore } =
      bsdToLinuxTermios s bios := by
  obtain ⟨hsize, hflags⟩ := List.forall_mem_cons.mp (List.pairwise_cons.mp hs.cflags.disjoint).1
  have hcsize : (bios.cCflag ||| s.cignore) &&& s.csize = bios.cCflag &&& s.csize :=
    or_and_of_disjoint hsize
  have hseen : ∀ p ∈ cflagToLinux s,
      (bios.cCflag ||| s.cignore) &&& p.1 = bios.cCflag &&& p.1 := by
    intro p hp
    have hmem : p.1 ∈ (cflagToLinux s).map Prod.fst := List.mem_map_of_mem hp
    exact or_and_of_disjoint (hflags p.1 hmem)
  apply LinuxTermios.ext
  case cCflag =>
    change translate (cflagToLinux s) (bios.cCflag ||| s.cignore)
      (_ ||| ((bios.cCflag ||| s.cignore) &&& s.csize) >>> 4) = _
    rw [hcsize, translate_congr hseen]
    rfl
  all_goals rfl

end

end LibSystem.Core
