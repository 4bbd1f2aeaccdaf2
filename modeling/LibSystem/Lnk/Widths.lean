import LibSystem.Lnk.Opcodes
import Mathlib.Algebra.Group.Int.Defs

/-!
# The widths of numbers

`read_sleb128` with the three widths of its operands, and what both readers make of any bytes.
-/

namespace LibSystem.Lnk.Widths

open Outcome

/-- C gives a shift by the width of the operand, or by more, no meaning. -/
def shiftLeft {w : Nat} (x : BitVec w) (bit : Nat) : Outcome (BitVec w) :=
  if bit < w then .done (x <<< bit) else .fault

/-- `byte & 0x7f` is an `int`, and `-1LL` and `result` have 64 bits. -/
def readSleb128Loop (mem : Mem) (stop : Addr) : Nat → Addr → BitVec 64 → Nat → Outcome (Word × Addr)
  | 0, _, _, _ => .timeout
  | fuel + 1, p, result, bit =>
    if p = stop then .halt "malformed sleb128"
    else do
      let byte := mem p
      let slice ← shiftLeft ((byte &&& 0x7f).setWidth 32) bit
      let result := result ||| slice.signExtend 64
      let bit := bit + 7
      if byte &&& 0x80 ≠ 0 then readSleb128Loop mem stop fuel (p + 1) result bit
      else if byte &&& 0x40 ≠ 0 then do
        let sign ← shiftLeft (BitVec.allOnes 64) bit
        .done ((result ||| sign).setWidth 32, p + 1)
      else .done (result.setWidth 32, p + 1)

/-- The sixth round has no meaning any more. -/
def readSleb128 (mem : Mem) (p stop : Addr) : Outcome (Word × Addr) :=
  readSleb128Loop mem stop 6 p 0 0

theorem shiftLeft_done {w : Nat} {x : BitVec w} {bit : Nat} (h : bit < w) :
    shiftLeft x bit = .done (x <<< bit) := if_pos h

theorem shiftLeft_fault {w : Nat} {x : BitVec w} {bit : Nat} (h : w ≤ bit) :
    shiftLeft x bit = .fault := if_neg (by omega)

theorem eq_of_shiftLeft {w : Nat} {x y : BitVec w} {bit : Nat} (h : shiftLeft x bit = .done y) :
    x <<< bit = y := by
  unfold shiftLeft at h
  split at h
  · exact done.inj h
  · simp at h

/-! ## Bytes of a range -/

section

variable {mem : Mem} {p stop : Addr} {pre rest bytes : List Byte}

theorem slice_head {b : Byte} (h : mem.slice p stop = b :: rest) :
    p ≠ stop ∧ mem p = b ∧ mem.slice (p + 1) stop = rest := by
  obtain ⟨hlt, hb, hrest⟩ := cons_of_slice h
  exact ⟨by bv_omega, hb, hrest⟩

theorem holds_of_slice (h : mem.slice p stop = pre ++ rest) :
    mem.Holds p pre ∧ ∀ i < pre.length, p + BitVec.ofNat 32 i ≠ stop := by
  induction pre generalizing p with
  | nil => exact ⟨by simp [Mem.Holds], by simp⟩
  | cons b pre ih =>
    obtain ⟨hne, hb, hrest⟩ := slice_head h
    obtain ⟨hholds, hstop⟩ := ih hrest
    refine ⟨Mem.holds_cons.mpr ⟨hb, hholds⟩, fun i hi => ?_⟩
    cases i with
    | zero => simpa using hne
    | succ i =>
      rw [Mem.ofNat_succ, ← BitVec.add_assoc]
      exact hstop i (by simpa using hi)

theorem slice_front (h : mem.slice p stop = pre ++ rest) :
    mem.slice p (p + BitVec.ofNat 32 pre.length) = pre := by
  have hlen := congrArg List.length h
  rw [Mem.length_slice, List.length_append] at hlen
  have hfront : (p + BitVec.ofNat 32 pre.length).toNat - p.toNat = pre.length := by bv_omega
  have htake : (mem.slice p stop).take pre.length = pre := by
    rw [h]
    exact List.take_left
  unfold Mem.slice at htake ⊢
  rwa [← List.map_take, List.take_range, Nat.min_eq_left (by omega), ← hfront] at htake

end

/-! ## Signed numbers -/

section

variable {mem : Mem} {p stop : Addr} {pre rest bytes : List Byte}

theorem sign_bit_iff : ∀ b : Byte, b &&& 0x40 ≠ 0 ↔ 64 ≤ b.toNat % 128 := by decide

theorem signExtend_low (x : Word) : (x.signExtend 64).setWidth 32 = x := by
  apply BitVec.eq_of_getLsbD_eq
  intro i hi
  simp [BitVec.getLsbD_signExtend, hi]
  omega

theorem ones_low (bit : Nat) :
    (BitVec.allOnes 64 <<< bit).setWidth 32 = BitVec.ofInt 32 (-(2 ^ bit : Nat)) := by
  apply BitVec.eq_of_toNat_eq
  rw [BitVec.toNat_setWidth, BitVec.toNat_shiftLeft, BitVec.toNat_allOnes, Nat.shiftLeft_eq,
    BitVec.toNat_ofInt]
  generalize 2 ^ bit = x
  omega

theorem allOnes_low (bit : Nat) :
    (BitVec.allOnes 32 <<< bit) = (BitVec.allOnes 64 <<< bit).setWidth 32 := by
  apply BitVec.eq_of_getLsbD_eq
  intro i hi
  simp [hi]

theorem or_ones {x : Word} {bit : Nat} (h : x.toNat < 2 ^ bit) :
    x ||| BitVec.ofInt 32 (-(2 ^ bit : Nat)) = BitVec.ofInt 32 (x.toNat - (2 ^ bit : Nat)) := by
  apply BitVec.eq_of_toNat_eq
  have hx := x.isLt
  rcases Nat.lt_or_ge 32 bit with hbit | hbit
  · obtain ⟨k, rfl⟩ : ∃ k, bit = 32 + k := ⟨bit - 32, by omega⟩
    rw [BitVec.toNat_or, BitVec.toNat_ofInt, BitVec.toNat_ofInt, Nat.pow_add]
    have hzero : ((-((2 ^ 32 * 2 ^ k : Nat) : Int)) % (2 ^ 32 : Nat)).toNat = 0 := by omega
    rw [hzero, Nat.or_zero]
    omega
  · have hpow : 2 ^ (32 - bit) * 2 ^ bit = 2 ^ 32 := by
      rw [← Nat.pow_add]
      congr 1
      omega
    have hones : ((-((2 ^ bit : Nat) : Int)) % (2 ^ 32 : Nat)).toNat =
        (2 ^ (32 - bit) - 1) <<< bit := by
      rw [Nat.shiftLeft_eq, Nat.sub_mul, hpow, Nat.one_mul]
      have hpos := Nat.two_pow_pos bit
      have hle : 2 ^ bit ≤ 2 ^ 32 := Nat.pow_le_pow_right (by omega) hbit
      omega
    rw [BitVec.toNat_or, BitVec.toNat_ofInt, BitVec.toNat_ofInt, hones, Nat.or_comm,
      ← Nat.shiftLeft_add_eq_or_of_lt h, Nat.shiftLeft_eq, Nat.sub_mul, hpow, Nat.one_mul]
    have hle : 2 ^ bit ≤ 2 ^ 32 := Nat.pow_le_pow_right (by omega) hbit
    omega

theorem next_low (result : BitVec 64) (x : Word) :
    (result ||| x.signExtend 64).setWidth 32 = result.setWidth 32 ||| x := by
  rw [BitVec.setWidth_or, signExtend_low]

theorem ofInt_mod (n : Nat) (x : Int) :
    BitVec.ofInt 32 ((n % 2 ^ 32 : Nat) + x) = BitVec.ofInt 32 (n + x) := by
  apply BitVec.eq_of_toNat_eq
  rw [BitVec.toNat_ofInt, BitVec.toNat_ofInt]
  omega

/-- Five bytes at most are read as the number that they denote, as far as 32 bits go. -/
theorem readSleb128Loop_spec (h : Leb bytes) (fuel : Nat) (p : Addr) (result : BitVec 64)
    (bit : Nat) (hmem : mem.Holds p bytes)
    (hstop : ∀ i < bytes.length, p + BitVec.ofNat 32 i ≠ stop) (hfuel : bytes.length ≤ fuel)
    (hbit : bit + 7 * bytes.length ≤ 35) (hresult : (result.setWidth 32).toNat < 2 ^ bit) :
    readSleb128Loop mem stop fuel p result bit =
      .done (BitVec.ofInt 32 ((result.setWidth 32).toNat + Leb.signed bytes * (2 ^ bit : Nat)),
        p + BitVec.ofNat 32 bytes.length) := by
  induction h generalizing fuel p result bit with
  | last b hb =>
    obtain ⟨fuel, rfl⟩ : ∃ k, fuel = k + 1 := ⟨fuel - 1, by simp at hfuel; omega⟩
    simp only [List.length_singleton] at hbit hstop
    have hp : mem p = b := (Mem.holds_cons.mp hmem).1
    have hne : p ≠ stop := by simpa using hstop 0 (by omega)
    have hlast : ¬ (b &&& 0x80 ≠ 0) := by rw [high_bit_iff]; omega
    have hround := or_slice_toNat (by decide) (result.setWidth 32) b bit (by omega) hresult
    have hpow : 2 ^ (bit + 7) = 128 * 2 ^ bit := by ring
    simp only [readSleb128Loop, if_neg hne, hp, if_neg hlast,
      shiftLeft_done (show bit < 32 by omega), shiftLeft_done (show bit + 7 < 64 by omega),
      done_bind]
    split
    · rename_i hsign
      have hlow : ((result.setWidth 32) ||| (b &&& 0x7f).setWidth 32 <<< bit).toNat <
          2 ^ (bit + 7) := by
        rw [hround]
        exact (Nat.mod_le _ _).trans_lt (round_lt b hresult)
      rw [BitVec.setWidth_or, next_low, ones_low, or_ones hlow, hround, sub_eq_add_neg, ofInt_mod,
        Leb.signed, if_pos ((sign_bit_iff b).mp hsign), hpow]
      congr 3
      push_cast
      ring
    · rename_i hsign
      rw [next_low, Leb.signed, if_neg (fun h => hsign ((sign_bit_iff b).mpr h))]
      congr 2
      apply BitVec.eq_of_toNat_eq
      rw [hround, ← Nat.cast_mul, ← Nat.cast_add, BitVec.ofInt_natCast, BitVec.toNat_ofNat]
  | more b bytes hb hbytes ih =>
    obtain ⟨fuel, rfl⟩ : ∃ k, fuel = k + 1 := ⟨fuel - 1, by simp at hfuel; omega⟩
    simp only [List.length_cons] at hbit hstop hfuel
    obtain ⟨hp, hrest⟩ := Mem.holds_cons.mp hmem
    have hlen := hbytes.length_pos
    have hne : p ≠ stop := by simpa using hstop 0 (by omega)
    have hmore : b &&& 0x80 ≠ 0 := (high_bit_iff b).mpr hb
    simp only [readSleb128Loop, if_neg hne, hp, if_pos hmore,
      shiftLeft_done (show bit < 32 by omega), done_bind]
    have hsmall := round_lt b hresult
    have hpow : 2 ^ (bit + 7) ≤ 2 ^ 32 := Nat.pow_le_pow_right (by omega) (by omega)
    have hround := or_slice_toNat (by decide) (result.setWidth 32) b bit (by omega) hresult
    rw [Nat.mod_eq_of_lt (by omega), ← next_low] at hround
    rw [ih fuel (p + 1) _ (bit + 7) hrest ?_ (by omega) (by omega) (by rw [hround]; exact hsmall)]
    · rw [hround, Leb.signed_cons hbytes, List.length_cons, Mem.ofNat_succ, ← BitVec.add_assoc]
      congr 3
      push_cast
      ring
    · intro i hi
      have := hstop (i + 1) (by omega)
      rwa [Mem.ofNat_succ, ← BitVec.add_assoc] at this

theorem readSleb128Loop_narrow {fuel bit : Nat} {result : BitVec 64} {v : Word × Addr}
    (h : readSleb128Loop mem stop fuel p result bit = .done v) :
    Lnk.readSleb128Loop mem stop fuel p (result.setWidth 32) bit = .done v := by
  induction fuel generalizing p result bit with
  | zero => simp [readSleb128Loop] at h
  | succ fuel ih =>
    unfold readSleb128Loop at h
    unfold Lnk.readSleb128Loop
    split at h
    · simp at h
    rename_i hne
    rw [if_neg hne]
    obtain ⟨slice, hshift, h⟩ := bind_eq_done.mp h
    have hslice := eq_of_shiftLeft hshift
    dsimp only at h ⊢
    rw [hslice, ← next_low]
    split at h
    · rename_i hmore
      rw [if_pos hmore]
      exact ih h
    rename_i hlast
    rw [if_neg hlast]
    split at h
    · rename_i hsign
      obtain ⟨sign, hshift, h⟩ := bind_eq_done.mp h
      rw [if_pos hsign, allOnes_low, ← BitVec.setWidth_or, eq_of_shiftLeft hshift]
      exact h
    · rename_i hsign
      rw [if_neg hsign]
      exact h

theorem readSleb128_spec (h : Leb pre) (hslice : mem.slice p stop = pre ++ rest)
    (hlen : pre.length ≤ 5) :
    readSleb128 mem p stop =
      .done (BitVec.ofInt 32 (Leb.signed pre), p + BitVec.ofNat 32 pre.length) := by
  obtain ⟨hholds, hstop⟩ := holds_of_slice hslice
  unfold readSleb128
  rw [readSleb128Loop_spec h 6 p 0 0 hholds hstop (by omega) (by omega) (by simp)]
  simp

theorem readUleb128_leb (h : Leb pre) (hslice : mem.slice p stop = pre ++ rest)
    (hlen : pre.length ≤ 10) :
    readUleb128 mem p stop =
      .done (BitVec.ofNat 32 (Leb.unsigned pre), p + BitVec.ofNat 32 pre.length) := by
  obtain ⟨hholds, hstop⟩ := holds_of_slice hslice
  exact readUleb128_spec ⟨h.uleb, hlen⟩ hholds hstop

end

/-- What a shortest encoding says is read back, whatever follows it. -/
theorem decode_encode (mem : Mem) (p stop : Addr) (rest : List Byte) :
    (∀ v < 2 ^ 32, mem.slice p stop = Leb.encodeUnsigned v ++ rest →
      readUleb128 mem p stop =
        .done (BitVec.ofNat 32 v, p + BitVec.ofNat 32 (Leb.encodeUnsigned v).length)) ∧
    (∀ v : Int, -2 ^ 31 ≤ v → v < 2 ^ 31 → mem.slice p stop = Leb.encodeSigned v ++ rest →
      readSleb128 mem p stop =
        .done (BitVec.ofInt 32 v, p + BitVec.ofNat 32 (Leb.encodeSigned v).length)) := by
  constructor
  · intro v hv hslice
    obtain ⟨hleb, hvalue⟩ := Leb.encodeUnsigned_spec v
    have hlen := Leb.length_encodeUnsigned v 4 (by omega)
    rw [readUleb128_leb hleb hslice (by omega), hvalue]
  · intro v hlow hhigh hslice
    obtain ⟨hleb, hvalue⟩ := Leb.encodeSigned_spec v
    have hlen := Leb.length_encodeSigned v 4 (by omega) (by omega)
    rw [readSleb128_spec hleb hslice hlen, hvalue]

/-- The largest number of the unsigned reader, the least one of the signed reader, and a byte. -/
def extremes : Mem := fun a =>
  [0xff, 0xff, 0xff, 0xff, 0x0f, 0x80, 0x80, 0x80, 0x80, 0x78, 0x07].getD a.toNat 0

theorem decode_extremes :
    readUleb128 extremes 0 11 = .done (BitVec.ofNat 32 (2 ^ 32 - 1), 5) ∧
    readSleb128 extremes 5 11 = .done (BitVec.ofInt 32 (-2 ^ 31), 10) := by
  have hunsigned : Leb.encodeUnsigned (2 ^ 32 - 1) = [0xff, 0xff, 0xff, 0xff, 0x0f] := by
    simp [Leb.encodeUnsigned]
  have hsigned : Leb.encodeSigned (-2 ^ 31) = [0x80, 0x80, 0x80, 0x80, 0x78] := by
    simp [Leb.encodeSigned]
  have hfirst := (decode_encode extremes 0 11 [0x80, 0x80, 0x80, 0x80, 0x78, 0x07]).1
    (2 ^ 32 - 1) (by omega) (by rw [hunsigned]; decide)
  have hsecond := (decode_encode extremes 5 11 [0x07]).2
    (-2 ^ 31) (by omega) (by omega) (by rw [hsigned]; decide)
  rw [hunsigned] at hfirst
  rw [hsigned] at hsecond
  exact ⟨hfirst, hsecond⟩

/-! ## Any bytes -/

section

variable {mem : Mem} {p stop : Addr} {pre rest : List Byte}

theorem ulebLoop_halts (hpre : ∀ b ∈ pre, 128 ≤ b.toNat) (result : BitVec 64) (bit : Nat)
    (hend : 63 < bit + 7 * pre.length ∨ rest = []) :
    ∃ message, ulebLoop (pre ++ rest) result bit = .halt message := by
  induction pre generalizing result bit with
  | nil =>
    cases rest with
    | nil => exact ⟨_, rfl⟩
    | cons b rest =>
      have hbit : 63 < bit := by simpa using hend
      exact ⟨_, by rw [List.nil_append, ulebLoop, if_pos hbit]⟩
  | cons b pre ih =>
    obtain ⟨hb, hpre⟩ := List.forall_mem_cons.mp hpre
    rw [List.cons_append, ulebLoop]
    split
    · exact ⟨_, rfl⟩
    · rw [List.length_cons] at hend
      dsimp only
      rw [if_pos ((high_bit_iff b).mpr hb)]
      exact ih hpre _ _ (hend.imp_left fun h => by omega)

theorem readSleb128Loop_more {b : Byte} (hslice : mem.slice p stop = b :: rest)
    (hb : 128 ≤ b.toNat) (fuel : Nat) (result : BitVec 64) (bit : Nat) :
    readSleb128Loop mem stop (fuel + 1) p result bit =
      (shiftLeft ((b &&& 0x7f).setWidth 32) bit >>= fun slice =>
        readSleb128Loop mem stop fuel (p + 1) (result ||| slice.signExtend 64) (bit + 7)) := by
  obtain ⟨hne, hp, -⟩ := slice_head hslice
  simp only [readSleb128Loop, if_neg hne, hp, if_pos ((high_bit_iff b).mpr hb)]

theorem readSleb128Loop_halts (hpre : ∀ b ∈ pre, 128 ≤ b.toNat)
    (hslice : mem.slice p stop = pre) (hp : p ≤ stop) (fuel : Nat) (result : BitVec 64) (bit : Nat)
    (hfuel : pre.length < fuel) (hbit : bit + 7 * pre.length < 39) :
    readSleb128Loop mem stop fuel p result bit = .halt "malformed sleb128" := by
  induction pre generalizing fuel p result bit with
  | nil =>
    obtain ⟨fuel, rfl⟩ : ∃ k, fuel = k + 1 := ⟨fuel - 1, by simp at hfuel; omega⟩
    rw [readSleb128Loop, if_pos (eq_stop_of_slice hp hslice)]
  | cons b pre ih =>
    obtain ⟨fuel, rfl⟩ : ∃ k, fuel = k + 1 := ⟨fuel - 1, by simp at hfuel; omega⟩
    obtain ⟨hb, hpre⟩ := List.forall_mem_cons.mp hpre
    obtain ⟨hlt, -, hrest⟩ := cons_of_slice hslice
    rw [List.length_cons] at hfuel hbit
    rw [readSleb128Loop_more hslice hb, shiftLeft_done (by omega), done_bind]
    exact ih hpre hrest (by bv_omega) fuel _ _ (by omega) (by omega)

theorem readSleb128Loop_fault {c : Byte} (hpre : ∀ b ∈ pre, 128 ≤ b.toNat)
    (hslice : mem.slice p stop = pre ++ c :: rest) (fuel : Nat) (result : BitVec 64) (bit : Nat)
    (hfuel : pre.length < fuel) (hbit : 32 ≤ bit + 7 * pre.length) :
    readSleb128Loop mem stop fuel p result bit = .fault := by
  induction pre generalizing fuel p result bit with
  | nil =>
    obtain ⟨fuel, rfl⟩ : ∃ k, fuel = k + 1 := ⟨fuel - 1, by simp at hfuel; omega⟩
    obtain ⟨hne, -, -⟩ := slice_head hslice
    simp only [readSleb128Loop, if_neg hne, shiftLeft_fault (show 32 ≤ bit by simpa using hbit),
      fault_bind]
  | cons b pre ih =>
    obtain ⟨fuel, rfl⟩ : ∃ k, fuel = k + 1 := ⟨fuel - 1, by simp at hfuel; omega⟩
    obtain ⟨hb, hpre⟩ := List.forall_mem_cons.mp hpre
    obtain ⟨-, -, hrest⟩ := slice_head hslice
    rw [List.length_cons] at hfuel hbit
    rw [readSleb128Loop_more hslice hb]
    rcases Nat.lt_or_ge bit 32 with hlt | hge
    · rw [shiftLeft_done hlt, done_bind]
      exact ih hpre hrest fuel _ _ (by omega) (by omega)
    · rw [shiftLeft_fault hge, fault_bind]

end

/-- The reader halts, or it returns what the bytes behind it denote. -/
def UnsignedRight (mem : Mem) (p stop : Addr) : Prop :=
  (∃ message, readUleb128 mem p stop = .halt message) ∨
  ∃ v q, readUleb128 mem p stop = .done (v, q) ∧ v.toNat = Leb.unsigned (mem.slice p q)

def SignedRight (mem : Mem) (p stop : Addr) : Prop :=
  (∃ message, readSleb128 mem p stop = .halt message) ∨
  ∃ v q, readSleb128 mem p stop = .done (v, q) ∧ v.toInt = Leb.signed (mem.slice p q)

/-- No number of ten bytes at most comes first, unless it fits 32 bits. -/
def UnsignedFits (bytes : List Byte) : Prop :=
  ∀ pre rest, bytes = pre ++ rest → Leb pre → pre.length ≤ 10 → Leb.unsigned pre < 2 ^ 32

/-- A number of five bytes at most comes first and fits, or the bytes end within the number, and
there are five at most. -/
def SignedFits (bytes : List Byte) : Prop :=
  (∃ pre rest, bytes = pre ++ rest ∧ Leb pre ∧ pre.length ≤ 5 ∧
    -2 ^ 31 ≤ Leb.signed pre ∧ Leb.signed pre < 2 ^ 31) ∨
  ((∀ b ∈ bytes, 128 ≤ b.toNat) ∧ bytes.length ≤ 5)

section

variable {mem : Mem} {p stop : Addr} {pre rest : List Byte}

theorem unsignedRight_halts (hp : p ≤ stop) (hpre : ∀ b ∈ pre, 128 ≤ b.toNat)
    (hslice : mem.slice p stop = pre ++ rest) (hend : 10 ≤ pre.length ∨ rest = []) :
    UnsignedRight mem p stop := by
  obtain ⟨message, hhalt⟩ := ulebLoop_halts hpre 0 0 (hend.imp_left fun h => by omega)
  refine .inl ⟨message, ?_⟩
  rw [readUleb128_eq hp hslice, operand, hhalt, halt_bind, halt_bind]

theorem unsignedRight_iff (hp : p ≤ stop) :
    UnsignedRight mem p stop ↔ UnsignedFits (mem.slice p stop) := by
  constructor
  · intro hright pre rest hslice hleb hlen
    have hread := readUleb128_leb hleb hslice hlen
    rcases hright with ⟨message, hhalt⟩ | ⟨v, q, hdone, hvalue⟩
    · simp [hread] at hhalt
    · rw [hread] at hdone
      obtain ⟨rfl, rfl⟩ := Prod.mk.inj (done.inj hdone)
      rw [slice_front hslice] at hvalue
      rw [← hvalue]
      exact BitVec.isLt _
  · intro hfits
    rcases Leb.prefix_or (mem.slice p stop) with ⟨pre, rest, hslice, hleb⟩ | hall
    · rcases Nat.lt_or_ge 10 pre.length with hlong | hshort
      · rw [← List.take_append_drop 10 pre, List.append_assoc] at hslice
        exact unsignedRight_halts hp (hleb.continues hlong) hslice (.inl (by simp; omega))
      · refine .inr ⟨_, _, readUleb128_leb hleb hslice hshort, ?_⟩
        rw [slice_front hslice, BitVec.toNat_ofNat]
        exact Nat.mod_eq_of_lt (hfits pre rest hslice hleb hshort)
    · exact unsignedRight_halts hp hall (List.append_nil _).symm (.inr rfl)

theorem not_signedRight (hpre : ∀ b ∈ pre.take 5, 128 ≤ b.toNat) (hlen : 5 < pre.length)
    (hslice : mem.slice p stop = pre ++ rest) : ¬ SignedRight mem p stop := by
  obtain ⟨c, tail, htail⟩ : ∃ c tail, pre.drop 5 = c :: tail :=
    List.exists_cons_of_length_pos (by simp; omega)
  rw [← List.take_append_drop 5 pre, List.append_assoc, htail, List.cons_append] at hslice
  have hfault : readSleb128 mem p stop = .fault :=
    readSleb128Loop_fault hpre hslice 6 0 0 (by simp) (by simp; omega)
  rintro (⟨message, hhalt⟩ | ⟨v, q, hdone, -⟩)
  · simp [hfault] at hhalt
  · simp [hfault] at hdone

theorem signedRight_of_leb (hleb : Leb pre) (hslice : mem.slice p stop = pre ++ rest)
    (hlen : pre.length ≤ 5) :
    SignedRight mem p stop ↔ -2 ^ 31 ≤ Leb.signed pre ∧ Leb.signed pre < 2 ^ 31 := by
  have hread := readSleb128_spec hleb hslice hlen
  constructor
  · rintro (⟨message, hhalt⟩ | ⟨v, q, hdone, hvalue⟩)
    · simp [hread] at hhalt
    · rw [hread] at hdone
      obtain ⟨rfl, rfl⟩ := Prod.mk.inj (done.inj hdone)
      rw [slice_front hslice] at hvalue
      rw [← hvalue]
      exact ⟨BitVec.le_toInt _, BitVec.toInt_lt⟩
  · rintro ⟨hlow, hhigh⟩
    refine .inr ⟨_, _, hread, ?_⟩
    rw [slice_front hslice]
    exact BitVec.toInt_ofInt_eq_self (by omega) (by simpa using hlow) (by simpa using hhigh)

theorem unsignedFits_of_leb (hleb : Leb pre) (hslice : mem.slice p stop = pre ++ rest) :
    UnsignedFits (mem.slice p stop) ↔ (pre.length ≤ 10 → Leb.unsigned pre < 2 ^ 32) := by
  constructor
  · exact fun hfits => hfits pre rest hslice hleb
  · intro hfits pre' rest' hslice' hleb'
    rwa [← hleb.prefix_unique hleb' (hslice.symm.trans hslice')]

theorem signedFits_of_leb (hleb : Leb pre) (hslice : mem.slice p stop = pre ++ rest) :
    SignedFits (mem.slice p stop) ↔
      pre.length ≤ 5 ∧ -2 ^ 31 ≤ Leb.signed pre ∧ Leb.signed pre < 2 ^ 31 := by
  constructor
  · rintro (⟨pre', rest', hslice', hleb', hfits⟩ | ⟨hall, -⟩)
    · rwa [hleb.prefix_unique hleb' (hslice.symm.trans hslice')]
    · obtain ⟨b, hb, hlow⟩ := hleb.ends
      have hhigh := hall b (by rw [hslice]; exact List.mem_append_left rest hb)
      omega
  · exact fun hfits => .inl ⟨pre, rest, hslice, hleb, hfits⟩

theorem signedFits_of_high (hall : ∀ b ∈ mem.slice p stop, 128 ≤ b.toNat) :
    SignedFits (mem.slice p stop) ↔ (mem.slice p stop).length ≤ 5 := by
  constructor
  · rintro (⟨pre, rest, hslice, hleb, -⟩ | ⟨-, hlen⟩)
    · obtain ⟨b, hb, hlow⟩ := hleb.ends
      have hhigh := hall b (by rw [hslice]; exact List.mem_append_left rest hb)
      omega
    · exact hlen
  · exact fun hlen => .inr ⟨hall, hlen⟩

theorem signedRight_iff (hp : p ≤ stop) :
    SignedRight mem p stop ↔ SignedFits (mem.slice p stop) := by
  rcases Leb.prefix_or (mem.slice p stop) with ⟨pre, rest, hslice, hleb⟩ | hall
  · rw [signedFits_of_leb hleb hslice]
    rcases Nat.lt_or_ge 5 pre.length with hlong | hshort
    · exact iff_of_false (not_signedRight (hleb.continues hlong) hlong hslice) (by omega)
    · rw [signedRight_of_leb hleb hslice hshort, and_iff_right hshort]
  · rw [signedFits_of_high hall]
    rcases Nat.lt_or_ge 5 (mem.slice p stop).length with hlong | hshort
    · have hfirst : ∀ b ∈ (mem.slice p stop).take 5, 128 ≤ b.toNat :=
        fun b hb => hall b (List.mem_of_mem_take hb)
      exact iff_of_false (not_signedRight hfirst hlong (List.append_nil _).symm) (by omega)
    · refine iff_of_true (.inl ⟨"malformed sleb128", ?_⟩) hshort
      exact readSleb128Loop_halts hall rfl hp 6 0 0 (by omega) (by omega)

end

/-- The readers are never silently wrong exactly where the numbers fit. -/
theorem readers_right_iff (mem : Mem) (p stop : Addr) (hp : p ≤ stop) :
    UnsignedRight mem p stop ∧ SignedRight mem p stop ↔
      UnsignedFits (mem.slice p stop) ∧ SignedFits (mem.slice p stop) :=
  and_congr (unsignedRight_iff hp) (signedRight_iff hp)

/-- Two to the 32 in five bytes, and a zero in six. -/
def overWide : Mem := fun a =>
  [0x80, 0x80, 0x80, 0x80, 0x10, 0x80, 0x80, 0x80, 0x80, 0x80, 0x00].getD a.toNat 0

theorem readers_wrong : ¬ UnsignedRight overWide 0 5 ∧ ¬ SignedRight overWide 5 11 := by
  have hunsigned : Leb [0x80, 0x80, 0x80, 0x80, 0x10] := by
    repeat first | exact .last _ (by decide) | refine .more _ _ (by decide) ?_
  have hsigned : Leb [0x80, 0x80, 0x80, 0x80, 0x80, 0x00] := by
    repeat first | exact .last _ (by decide) | refine .more _ _ (by decide) ?_
  have hfirst : overWide.slice 0 5 = [0x80, 0x80, 0x80, 0x80, 0x10] ++ [] := by decide
  have hsecond : overWide.slice 5 11 = [0x80, 0x80, 0x80, 0x80, 0x80, 0x00] ++ [] := by decide
  rw [unsignedRight_iff (by decide), signedRight_iff (by decide),
    unsignedFits_of_leb hunsigned hfirst, signedFits_of_leb hsigned hsecond]
  decide

/-- 133, for both readers. -/
def twoBytes : Mem := fun a => [0x85, 0x01].getD a.toNat 0

theorem readers_right_twoBytes : UnsignedRight twoBytes 0 2 ∧ SignedRight twoBytes 0 2 := by
  have hleb : Leb [0x85, 0x01] := .more _ _ (by decide) (.last _ (by decide))
  have hslice : twoBytes.slice 0 2 = [0x85, 0x01] ++ [] := by decide
  apply (readers_right_iff twoBytes 0 2 (by decide)).mpr
  rw [unsignedFits_of_leb hleb hslice, signedFits_of_leb hleb hslice]
  decide

end LibSystem.Lnk.Widths
