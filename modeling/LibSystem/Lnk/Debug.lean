import LibSystem.Core.Uuid
import LibSystem.Lnk.Util
import Mathlib.Data.Nat.Digits.Lemmas

/-!
# The linker's debug output

`printNumber` of `lnk_debug.cpp`. The two arrays on the stack start with any bytes.
-/

namespace LibSystem.Lnk.Ldbg

open Outcome
open Core.Uuid (write overwrite write_overwrite)

/-- `memcpy(buffer, desc, strlen(desc))`. -/
def memcpy (buffer desc : List Byte) : Outcome (List Byte) :=
  if desc.length ≤ buffer.length then .done (overwrite buffer desc) else .fault

/-- `while (num > 0)`: the digits in `rev`, the last one first, and how many there are. -/
def extractDigits : Nat → Word → List Byte → Nat → Outcome (List Byte × Nat)
  | 0, _, _, _ => .timeout
  | fuel + 1, num, rev, i =>
    if num = 0 then .done (rev, i)
    else do
      let ss := num % 10
      let rev ← write rev i (48 + ss.setWidth 8)
      extractDigits fuel (num / 10) rev (i + 1)

/-- `for (; i >= 0; i--)`. -/
def copyReversed (rev : List Byte) : Nat → List Byte → Nat → Outcome (List Byte × Nat)
  | 0, buffer, bufpos => do
    let byte ← ofOption rev[0]?
    let buffer ← write buffer bufpos byte
    .done (buffer, bufpos + 1)
  | i + 1, buffer, bufpos => do
    let byte ← ofOption rev[i + 1]?
    let buffer ← write buffer bufpos byte
    copyReversed rev i buffer (bufpos + 1)

/-- A word has ten digits at most. -/
def appendNumber (buffer rev : List Byte) (bufpos : Nat) (num : Word) :
    Outcome (List Byte × Nat) :=
  if num = 0 then do
    let buffer ← write buffer bufpos 48
    .done (buffer, bufpos + 1)
  else do
    let (rev, i) ← extractDigits 11 num rev 0
    copyReversed rev i buffer bufpos

/-- The bytes that are written, where `buffer` and `rev` were on the stack. -/
def printNumber (buffer rev : List Byte) (desc : CString) (anum : Word) : Outcome (List Byte) := do
  let buffer ← memcpy buffer desc.bytes
  let bufpos := desc.bytes.length
  let (buffer, bufpos) ← appendNumber buffer rev bufpos anum
  let buffer ← write buffer bufpos 10
  .done (buffer.take (bufpos + 1))

/-! ## What is asked of it -/

def digitsReversed (n : Nat) : List Byte := (Nat.digits 10 n).map fun d => 48 + BitVec.ofNat 8 d

def decimal (n : Nat) : List Byte := if n = 0 then [48] else (digitsReversed n).reverse

def Prints (buffer rev : List Byte) (desc : CString) (anum : Word) : Prop :=
  printNumber buffer rev desc anum = .done (desc.bytes ++ decimal anum.toNat ++ [10])

/-! ## The digits -/

theorem digitsReversed_pos {n : Nat} (h : 0 < n) :
    digitsReversed n = (48 + BitVec.ofNat 8 (n % 10)) :: digitsReversed (n / 10) := by
  rw [digitsReversed, Nat.digits_def' (by decide) h]
  rfl

theorem length_digitsReversed {n k : Nat} (h : n < 10 ^ k) : (digitsReversed n).length ≤ k := by
  rw [digitsReversed, List.length_map]
  exact (Nat.digits_length_le_iff (by decide) n).mpr h

theorem toNat_pos {num : Word} (h : num ≠ 0) : 0 < num.toNat := by
  bv_omega

section

variable {old new : List Byte}

theorem extractDigits_spec (num : Word) (fuel : Nat)
    (hlen : new.length + (digitsReversed num.toNat).length ≤ old.length)
    (hfuel : (digitsReversed num.toNat).length < fuel) :
    extractDigits fuel num (overwrite old new) new.length =
      .done (overwrite old (new ++ digitsReversed num.toNat),
        new.length + (digitsReversed num.toNat).length) := by
  induction fuel generalizing num new with
  | zero => omega
  | succ fuel ih =>
    unfold extractDigits
    split
    · rename_i hzero
      subst hzero
      simp [digitsReversed]
    · rename_i hnum
      have hpos : 0 < num.toNat := toNat_pos hnum
      have hdigit : (num % 10).setWidth 8 = BitVec.ofNat 8 (num.toNat % 10) := by
        apply BitVec.eq_of_toNat_eq
        simp
      have hrest : (num / 10).toNat = num.toNat / 10 := BitVec.toNat_udiv
      rw [digitsReversed_pos hpos, List.length_cons] at hlen hfuel
      dsimp only
      rw [hdigit, write_overwrite (by omega), done_bind]
      have hnext := @ih (new ++ [48 + BitVec.ofNat 8 (num.toNat % 10)]) (num / 10)
      rw [hrest, List.length_append, List.length_singleton] at hnext
      rw [hnext (by omega) (by omega), digitsReversed_pos hpos, List.append_assoc,
        List.singleton_append, List.length_cons]
      congr 2
      omega

theorem copyReversed_spec (rev : List Byte) (i : Nat) (hi : i < rev.length)
    (hlen : new.length + i < old.length) :
    copyReversed rev i (overwrite old new) new.length =
      .done (overwrite old (new ++ (rev.take (i + 1)).reverse), new.length + i + 1) := by
  induction i generalizing new with
  | zero =>
    obtain ⟨b, rest, rfl⟩ := List.exists_cons_of_length_pos hi
    simp [copyReversed, write_overwrite (show new.length < old.length by omega)]
  | succ i ih =>
    have htake : rev.take (i + 2) = rev.take (i + 1) ++ [rev[i + 1]] :=
      (List.take_append_getElem hi).symm
    rw [copyReversed, List.getElem?_eq_getElem hi, ofOption_some, done_bind,
      write_overwrite (by omega), done_bind]
    have hnext := @ih (new ++ [rev[i + 1]]) (by omega)
    rw [List.length_append, List.length_singleton] at hnext
    rw [hnext (by omega), htake, List.reverse_append, List.reverse_singleton, List.append_assoc]
    congr 2
    omega

theorem overwrite_nil (old : List Byte) : overwrite old [] = old := rfl

theorem take_overwrite {k : Nat} (h : new.length = k) : (overwrite old new).take k = new := by
  rw [overwrite, ← h]
  exact List.take_left

theorem newline_spec (h : new.length < old.length) :
    (do
      let buffer ← write (overwrite old new) new.length 10
      .done (buffer.take (new.length + 1)) : Outcome (List Byte)) = .done (new ++ [10]) := by
  rw [write_overwrite h, done_bind, take_overwrite (by simp)]

end

section

variable {buffer rev : List Byte} {desc : CString} {anum : Word}

theorem length_digitsReversed_word (num : Word) : (digitsReversed num.toNat).length ≤ 10 :=
  length_digitsReversed (num.isLt.trans (by decide))

theorem appendNumber_nonzero {new : List Byte} (hanum : anum ≠ 0) (hrev : rev.length = 128)
    (hlen : new.length + 11 < buffer.length) :
    ∃ junk, appendNumber (overwrite buffer new) rev new.length anum =
      .done (overwrite buffer (new ++ junk :: decimal anum.toNat),
        (new ++ junk :: decimal anum.toNat).length) := by
  have hdigits := length_digitsReversed_word anum
  have hi : (digitsReversed anum.toNat).length < rev.length := by omega
  have hextract := @extractDigits_spec rev [] anum 11 (by simp; omega) (by omega)
  have hcopy := copyReversed_spec (overwrite rev (digitsReversed anum.toNat))
    (digitsReversed anum.toNat).length (by simp [overwrite]; omega)
    (show new.length + (digitsReversed anum.toNat).length < buffer.length by omega)
  have htake : (overwrite rev (digitsReversed anum.toNat)).take
      ((digitsReversed anum.toNat).length + 1) =
      digitsReversed anum.toNat ++ [rev[(digitsReversed anum.toNat).length]] := by
    rw [overwrite, List.take_length_add_append, List.drop_eq_getElem_cons hi]
    rfl
  have hdecimal : decimal anum.toNat = (digitsReversed anum.toNat).reverse :=
    if_neg (Nat.ne_of_gt (toNat_pos hanum))
  rw [htake, List.reverse_append, List.reverse_singleton, List.singleton_append, ← hdecimal]
    at hcopy
  rw [overwrite_nil, List.nil_append, List.length_nil, Nat.zero_add] at hextract
  refine ⟨rev[(digitsReversed anum.toNat).length], ?_⟩
  rw [appendNumber, if_neg hanum, hextract, done_bind]
  dsimp only
  rw [hcopy, List.length_append, List.length_cons, hdecimal, List.length_reverse, Nat.add_assoc]

theorem printNumber_nonzero (hanum : anum ≠ 0) (hdesc : desc.bytes.length < 4000)
    (hbuffer : buffer.length = 4096) (hrev : rev.length = 128) :
    ∃ junk, printNumber buffer rev desc anum =
      .done (desc.bytes ++ junk :: decimal anum.toNat ++ [10]) := by
  obtain ⟨junk, hjunk⟩ := @appendNumber_nonzero buffer rev anum desc.bytes hanum hrev (by omega)
  have hdigits := length_digitsReversed_word anum
  have hdecimal : (decimal anum.toNat).length = (digitsReversed anum.toNat).length := by
    rw [decimal, if_neg (Nat.ne_of_gt (toNat_pos hanum)), List.length_reverse]
  refine ⟨junk, ?_⟩
  rw [printNumber, memcpy, if_pos (by omega), done_bind]
  dsimp only
  rw [hjunk, done_bind]
  exact newline_spec (by simp; omega)

end

/-- **`printNumber` prints the number exactly if it is 0.** -/
theorem prints_iff (buffer rev : List Byte) (desc : CString) (anum : Word)
    (hdesc : desc.bytes.length < 4000) (hbuffer : buffer.length = 4096) (hrev : rev.length = 128) :
    Prints buffer rev desc anum ↔ anum = 0 := by
  constructor
  · intro hprints
    by_contra hanum
    obtain ⟨junk, hjunk⟩ := printNumber_nonzero hanum hdesc hbuffer hrev
    have hlen := congrArg List.length (done.inj (hprints.symm.trans hjunk))
    simp at hlen
  · rintro rfl
    unfold Prints printNumber memcpy
    rw [if_pos (by omega), done_bind]
    dsimp only
    rw [appendNumber, if_pos rfl, write_overwrite (by omega), done_bind, done_bind]
    have hnewline := @newline_spec buffer (desc.bytes ++ [48]) (by simp; omega)
    rwa [List.length_append, List.length_singleton] at hnewline

/-- `x=` and 7, with zeros on the stack. -/
theorem not_prints : ¬ Prints (List.replicate 4096 0) (List.replicate 128 0)
    ⟨[120, 61], by decide⟩ 7 := by
  obtain ⟨junk, hjunk⟩ := @printNumber_nonzero (List.replicate 4096 0) (List.replicate 128 0)
    ⟨[120, 61], by decide⟩ 7 (by decide) (by decide) List.length_replicate List.length_replicate
  intro hprints
  have hlen := congrArg List.length (done.inj (hprints.symm.trans hjunk))
  simp at hlen

theorem prints_zero : Prints (List.replicate 4096 0) (List.replicate 128 0)
    ⟨[120, 61], by decide⟩ 0 :=
  (prints_iff (List.replicate 4096 0) (List.replicate 128 0) ⟨[120, 61], by decide⟩ 0 (by decide)
    List.length_replicate List.length_replicate).mpr rfl

end LibSystem.Lnk.Ldbg
