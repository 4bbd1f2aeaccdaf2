import LibSystem.Core.Termios

/-!
# Opening a file

`open` of `core/unistd.c` turns Darwin's flags into Linux's, one after the other, and hands them
to `open$LINUX`.
-/

namespace LibSystem.Core

/-- The two numberings of `LX_fcntl.h`. -/
inductive Target
  | arm
  | other
  deriving DecidableEq

@[simp] def lxODirectory : Target → Word
  | .arm => 0o40000
  | .other => 0o200000

@[simp] def lxONofollow : Target → Word
  | .arm => 0o100000
  | .other => 0o400000

@[simp] def lxOLargefile : Target → Word
  | .arm => 0o400000
  | .other => 0o100000

@[simp] def lxOAccmode : Word := 0o3
@[simp] def lxORdonly : Word := 0o0
@[simp] def lxOWronly : Word := 0o1
@[simp] def lxORdwr : Word := 0o2
@[simp] def lxOCreat : Word := 0o100
@[simp] def lxOExcl : Word := 0o200
@[simp] def lxOTrunc : Word := 0o1000
@[simp] def lxOAppend : Word := 0o2000
@[simp] def lxONonblock : Word := 0o4000
@[simp] def lxOSync : Word := 0o10000
@[simp] def lxFasync : Word := 0o20000

/-- The constants of `<fcntl.h>`. -/
structure SysFcntl where
  (oCreat oAccmode oExcl oTrunc oRdwr oNonblock oDirectory oAsync oRdonly oWronly oSync oAppend
   oNofollow : Word)

/-- The conversions, in the order in which they are done. -/
def conversions (s : SysFcntl) (target : Target) : List (Word × Word) :=
  [(s.oCreat, lxOCreat), (s.oAccmode, lxOAccmode), (s.oExcl, lxOExcl), (s.oTrunc, lxOTrunc),
   (s.oRdwr, lxORdwr), (s.oNonblock, lxONonblock), (s.oDirectory, lxODirectory target),
   (s.oAsync, lxFasync), (s.oRdonly, lxORdonly), (s.oWronly, lxOWronly), (s.oSync, lxOSync),
   (s.oAppend, lxOAppend), (s.oNofollow, lxONofollow target)]

def uflags (s : SysFcntl) (target : Target) (flags : Word) : Word :=
  Flags.translate (conversions s target) flags (0 ||| lxOLargefile target)

/-- `mode_t` has 16 bits. -/
abbrev Mode := BitVec 16

/-- The call of `open$LINUX`, whose result is returned. -/
structure OpenCall where
  pathname : Addr
  uflags : Word
  mode : Word

/-- `open`, with the argument that `va_arg` would find. -/
def «open» (s : SysFcntl) (target : Target) (pathname : Addr) (flags arg : Word) : OpenCall :=
  let uflags := uflags s target flags
  let mode : Mode := if uflags &&& s.oCreat ≠ 0 then arg.setWidth 16 else 0
  ⟨pathname, uflags, mode.setWidth 32⟩

/-! ## What the constants promise -/

/-- The access modes have the numbers they have on Linux; `O_CREAT` has not. -/
structure SysFcntl.Documented (s : SysFcntl) : Prop where
  oAccmode : s.oAccmode = 3
  oRdonly : s.oRdonly = 0
  oWronly : s.oWronly = 1
  oRdwr : s.oRdwr = 2
  oCreat : s.oCreat = 0x200

/-- The flags that stand for themselves. -/
def singles (s : SysFcntl) (target : Target) : List (Word × Word) :=
  [(s.oCreat, lxOCreat), (s.oExcl, lxOExcl), (s.oTrunc, lxOTrunc), (s.oNonblock, lxONonblock),
   (s.oDirectory, lxODirectory target), (s.oAsync, lxFasync), (s.oSync, lxOSync),
   (s.oAppend, lxOAppend), (s.oNofollow, lxONofollow target)]

/-- What `open$LINUX` gets is what the caller asked for. -/
structure Translated (s : SysFcntl) (target : Target) (pathname : Addr) (flags : Word)
    (mode : Mode) (call : OpenCall) : Prop where
  pathname : call.pathname = pathname
  access : call.uflags &&& lxOAccmode = flags &&& s.oAccmode
  each : ∀ p ∈ singles s target, (call.uflags &&& p.2 ≠ 0 ↔ flags &&& p.1 ≠ 0)
  largefile : call.uflags &&& lxOLargefile target ≠ 0
  others : call.uflags &&& ~~~(lxOAccmode ||| lxOLargefile target |||
    Flags.union ((singles s target).map Prod.snd)) = 0
  mode : call.mode = if flags &&& s.oCreat ≠ 0 then mode.setWidth 32 else 0

section

variable {s : SysFcntl} {target : Target} {flags : Word} {mode : Mode}

theorem conversion_alone {p : Word × Word} (h : p ∈ singles s target) :
    (conversions s target).filter (fun q => q.2 &&& p.2 ≠ 0) = [p] ∧
      (0 ||| lxOLargefile target) &&& p.2 = 0 ∧ p.2 ≠ 0 := by
  revert p
  cases target <;> simp [singles, conversions]

theorem uflags_single {p : Word × Word} (h : p ∈ singles s target) :
    uflags s target flags &&& p.2 ≠ 0 ↔ flags &&& p.1 ≠ 0 := by
  obtain ⟨hone, hclear, hbit⟩ := conversion_alone h
  rw [uflags, Flags.translate_and_filter, hone, Flags.translate_cons, Flags.translate_nil]
  split
  · rename_i hmet
    rw [BitVec.and_or_distrib_right, hclear, BitVec.and_self]
    exact iff_of_true (by simpa using hbit) hmet
  · rename_i hmet
    exact iff_of_false (fun hne => hne hclear) hmet

theorem uflags_largefile : uflags s target flags &&& lxOLargefile target ≠ 0 := by
  rw [uflags, Flags.translate_and_filter]
  cases target <;> simp [conversions]

theorem uflags_others : uflags s target flags &&& ~~~(lxOAccmode ||| lxOLargefile target |||
    Flags.union ((singles s target).map Prod.snd)) = 0 := by
  rw [uflags, Flags.translate_and_filter]
  cases target <;> simp [singles, conversions, Flags.union]

theorem and_of_within_right {a m b : Word} (h : a &&& m = 0) (hwithin : m &&& b = b) :
    a &&& b = 0 := by
  rw [← hwithin, ← BitVec.and_assoc, h]
  exact BitVec.zero_and

theorem uflags_access (hs : s.Documented) :
    uflags s target flags &&& lxOAccmode = if flags &&& 3 = 0 then 0 else 3 := by
  have hthree : (conversions s target).filter (fun q => q.2 &&& lxOAccmode ≠ 0) =
      [(3, 3), (2, 2), (1, 1)] := by
    cases target <;> simp [conversions, hs.oAccmode, hs.oRdwr, hs.oWronly]
  have hlargefile : (0 ||| lxOLargefile target) &&& lxOAccmode = 0 := by
    cases target <;> rfl
  rw [uflags, Flags.translate_and_filter, hthree]
  simp only [Flags.translate_cons, Flags.translate_nil]
  by_cases hmet : flags &&& 3 = 0
  · have htwo : flags &&& 2 = 0 := and_of_within_right hmet rfl
    have hone : flags &&& 1 = 0 := and_of_within_right hmet rfl
    rw [if_pos hmet, if_neg (not_not.mpr hone), if_neg (not_not.mpr htwo),
      if_neg (not_not.mpr hmet), hlargefile]
  · rw [if_neg hmet, if_pos hmet]
    cases target <;> split_ifs <;> rfl

theorem uflags_creat (hs : s.Documented) :
    uflags s target flags &&& s.oCreat ≠ 0 ↔ flags &&& s.oTrunc ≠ 0 := by
  have htrunc : (s.oTrunc, lxOTrunc) ∈ singles s target := by simp [singles]
  rw [← uflags_single htrunc, hs.oCreat]
  rfl

theorem setWidth_mode (mode : Mode) : (mode.setWidth 32).setWidth 16 = mode := by
  rw [BitVec.setWidth_setWidth_of_le mode (by decide), BitVec.setWidth_eq]

theorem mode_iff (read wanted : Prop) [Decidable read] [Decidable wanted] :
    ((if read then mode else 0).setWidth 32 : Word) = (if wanted then mode.setWidth 32 else 0) ↔
      (mode = 0 ∨ (wanted ↔ read)) := by
  have hzero : (mode.setWidth 32 : Word) = 0 ↔ mode = 0 := by
    constructor
    · intro h
      rw [← setWidth_mode mode, h]
      rfl
    · rintro rfl
      rfl
  by_cases hr : read
  · by_cases hw : wanted
    · simp only [if_pos hr, if_pos hw, true_iff]
      exact .inr (iff_of_true hw hr)
    · rw [if_pos hr, if_neg hw, hzero]
      exact ⟨.inl, fun h => h.resolve_right fun hiff => hw (hiff.mpr hr)⟩
  · by_cases hw : wanted
    · rw [if_neg hr, if_pos hw]
      refine ⟨fun h => .inl (hzero.mp h.symm), fun h => ?_⟩
      rw [h.resolve_right fun hiff => hr (hiff.mp hw)]
    · simp only [if_neg hr, if_neg hw]
      exact iff_of_true rfl (.inr (iff_of_false hw hr))

/-- Both bits of the access mode or none, and `O_TRUNC` with `O_CREAT`, lest a mode gets lost or
is made up. -/
theorem open_translated_iff (s : SysFcntl) (hs : s.Documented) (target : Target)
    (pathname : Addr) (flags : Word) (mode : Mode) :
    Translated s target pathname flags mode
      («open» s target pathname flags (mode.setWidth 32)) ↔
    (flags &&& s.oAccmode = 0 ∨ flags &&& s.oAccmode = s.oAccmode) ∧
      (mode = 0 ∨ (flags &&& s.oCreat ≠ 0 ↔ flags &&& s.oTrunc ≠ 0)) := by
  have haccess : uflags s target flags &&& lxOAccmode = flags &&& s.oAccmode ↔
      flags &&& s.oAccmode = 0 ∨ flags &&& s.oAccmode = s.oAccmode := by
    rw [uflags_access hs, hs.oAccmode]
    split
    · rename_i hmet
      exact iff_of_true hmet.symm (.inl hmet)
    · rename_i hmet
      exact ⟨fun h => .inr h.symm, fun h => (h.resolve_left hmet).symm⟩
  have hmode : («open» s target pathname flags (mode.setWidth 32)).mode =
      (if flags &&& s.oCreat ≠ 0 then mode.setWidth 32 else 0) ↔
      (mode = 0 ∨ (flags &&& s.oCreat ≠ 0 ↔ flags &&& s.oTrunc ≠ 0)) := by
    rw [← @uflags_creat s target flags hs, ← mode_iff, «open», setWidth_mode]
  constructor
  · intro h
    exact ⟨haccess.mp h.access, hmode.mp h.mode⟩
  · rintro ⟨ha, hm⟩
    exact ⟨rfl, haccess.mpr ha, fun p hp => uflags_single hp, uflags_largefile, uflags_others,
      hmode.mpr hm⟩

end

/-! ## Values -/

/-- The values the header has. -/
def sysFcntl : SysFcntl where
  oCreat := 0x200
  oAccmode := 0x3
  oExcl := 0x800
  oTrunc := 0x400
  oRdwr := 0x2
  oNonblock := 0x4
  oDirectory := 0x100000
  oAsync := 0x40
  oRdonly := 0x0
  oWronly := 0x1
  oSync := 0x80
  oAppend := 0x8
  oNofollow := 0x100

theorem sysFcntl_documented : sysFcntl.Documented where
  oAccmode := rfl
  oRdonly := rfl
  oWronly := rfl
  oRdwr := rfl
  oCreat := rfl

/-- A file to be created or emptied, with mode 0644, and read. -/
theorem open_translated_creat :
    Translated sysFcntl .arm 0x1000 0x600 0o644 («open» sysFcntl .arm 0x1000 0x600 0o644) :=
  (open_translated_iff sysFcntl sysFcntl_documented .arm 0x1000 0x600 0o644).mpr
    ⟨.inl rfl, .inr (iff_of_true (by decide) (by decide))⟩

/-- A file to be created and written, with mode 0644: the access mode is 3, and the mode is
lost. -/
theorem open_not_translated :
    («open» sysFcntl .arm 0x1000 0x201 0o644).uflags &&& lxOAccmode = 3 ∧
    («open» sysFcntl .arm 0x1000 0x201 0o644).mode = 0 ∧
    ¬Translated sysFcntl .arm 0x1000 0x201 0o644 («open» sysFcntl .arm 0x1000 0x201 0o644) := by
  refine ⟨rfl, rfl, fun h => ?_⟩
  have haccess : (3 : Word) = 1 := h.access
  exact absurd haccess (by decide)

end LibSystem.Core
