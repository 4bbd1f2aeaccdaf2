import LibSystem.Memory
import LibSystem.Outcome

/-!
# UUIDs as text

`mbr_uuid_to_string` and `mbr_string_to_uuid` of `core/mbr_stubs.c`. An array is the list of its
bytes, and a pointer into it is an index.
-/

namespace LibSystem.Core.Uuid

open Outcome

/-- `'-'`. -/
def hyphen : Byte := 45

def einval : Word := 22

def mbrUuStringSize : Nat := 37

/-- `*p = byte`. -/
def write (array : List Byte) (p : Nat) (byte : Byte) : Outcome (List Byte) :=
  if p < array.length then .done (array.set p byte) else .fault

/-- A `char` is signed, and it is shifted as an `int`. -/
def hi (byte : Byte) : Byte := ((byte.signExtend 32).sshiftRight 4 &&& 0xf).setWidth 8

def low (byte : Byte) : Byte := (byte.signExtend 32 &&& 0xf).setWidth 8

/-- `'0' + half` or `'A' + half - 10`. -/
def hexDigit (half : Byte) : Byte := if half < 10 then 48 + half else 65 + half - 10

/-- `*string` and `*data`, with the array that the first points into. -/
structure Cursors where
  array : List Byte
  string : Nat
  data : Nat

/-- One turn of the loop. -/
def convertByte (uu : List Byte) (c : Cursors) : Outcome Cursors := do
  let byte ← ofOption uu[c.data]?
  let array ← write c.array c.string (hexDigit (hi byte))
  let array ← write array (c.string + 1) (hexDigit (low byte))
  .done ⟨array, c.string + 2, c.data + 1⟩

def convertBytesToHex (uu : List Byte) : Nat → Cursors → Outcome Cursors
  | 0, c => .done c
  | numBytes + 1, c => do
    let c ← convertByte uu c
    convertBytesToHex uu numBytes c

/-- `*strPtr = '-'; strPtr++`. -/
def putHyphen (c : Cursors) : Outcome Cursors := do
  let array ← write c.array c.string hyphen
  .done ⟨array, c.string + 1, c.data⟩

def mbrUuidToString (uu string : List Byte) : Outcome (Word × List Byte) := do
  let c ← convertBytesToHex uu 4 ⟨string, 0, 0⟩
  let c ← putHyphen c
  let c ← convertBytesToHex uu 2 c
  let c ← putHyphen c
  let c ← convertBytesToHex uu 2 c
  let c ← putHyphen c
  let c ← convertBytesToHex uu 2 c
  let c ← putHyphen c
  let c ← convertBytesToHex uu 6 c
  let array ← write c.array c.string 0
  .done (0, array)

def strlen : List Byte → Outcome Nat
  | [] => .fault
  | c :: string =>
    if c = 0 then .done 0
    else do
      let len ← strlen string
      .done (len + 1)

/-- The comparisons are signed. -/
def nibble? (c : Byte) : Option Byte :=
  if BitVec.sle 48 c ∧ BitVec.sle c 57 then some (c - 48)
  else if BitVec.sle 65 c ∧ BitVec.sle c 70 then some (c - 65 + 10)
  else if BitVec.sle 97 c ∧ BitVec.sle c 102 then some (c - 97 + 10)
  else none

structure Parser where
  uu : List Byte
  dataIndex : Nat
  isFirstNibble : Bool

/-- What a digit does. -/
def Parser.digit (s : Parser) (nibble : Byte) : Outcome Parser :=
  if s.isFirstNibble then do
    let uu ← write s.uu s.dataIndex (nibble <<< 4)
    .done ⟨uu, s.dataIndex, false⟩
  else do
    let byte ← ofOption s.uu[s.dataIndex]?
    let uu ← write s.uu s.dataIndex (byte ||| nibble)
    .done ⟨uu, s.dataIndex + 1, true⟩

/-- From the loop on: what is returned, and what is in `uu`. -/
def parse : List Byte → Parser → Outcome (Word × List Byte)
  | [], _ => .fault
  | c :: string, s =>
    if c ≠ 0 ∧ s.dataIndex < 16 then
      match nibble? c with
      | some nibble => do
        let s ← s.digit nibble
        parse string s
      | none => if c ≠ hyphen then .done (einval, s.uu) else parse string s
    else .done (if s.dataIndex ≠ 16 then einval else 0, s.uu)

def mbrStringToUuid (string uu : List Byte) : Outcome (Word × List Byte) := do
  let len ← strlen string
  if mbrUuStringSize < len then .done (einval, uu)
  else parse string ⟨uu, 0, true⟩

/-! ## Arrays that are filled from the start -/

/-- `new`, and behind it what `old` had there. -/
def overwrite (old new : List Byte) : List Byte := new ++ old.drop new.length

section

variable {old new : List Byte} {a b : Byte}

theorem overwrite_get (old new : List Byte) (a : Byte) :
    (overwrite old (new ++ [a]))[new.length]? = some a := by
  simp [overwrite]

theorem write_overwrite (h : new.length < old.length) (b : Byte) :
    write (overwrite old new) new.length b = done (overwrite old (new ++ [b])) := by
  have hlen : new.length < (overwrite old new).length := by
    rw [overwrite, List.length_append, List.length_drop]
    omega
  rw [write, if_pos hlen, overwrite, List.set_append_right _ _ (Nat.le_refl _), Nat.sub_self,
    List.drop_eq_getElem_cons h, List.set_cons_zero]
  simp [overwrite]

theorem write_overwrite_last (a b : Byte) :
    write (overwrite old (new ++ [a])) new.length b = done (overwrite old (new ++ [b])) := by
  simp [write, overwrite]

end

/-! ## The text -/

theorem nibble_halves : ∀ byte : Byte, nibble? (hexDigit (hi byte)) = some (hi byte) ∧
    nibble? (hexDigit (low byte)) = some (low byte) ∧ hi byte <<< 4 ||| low byte = byte := by
  decide +kernel

def hexPair (byte : Byte) : List Byte := [hexDigit (hi byte), hexDigit (low byte)]

def hex (bytes : List Byte) : List Byte := bytes.flatMap hexPair

theorem length_hex (bytes : List Byte) : (hex bytes).length = 2 * bytes.length := by
  simp [hex, hexPair, List.length_flatMap, Nat.mul_comm]

theorem nibble_zero : nibble? 0 = none := by decide

theorem nibble_hyphen : nibble? hyphen = none := by decide

theorem ne_zero_of_nibble {c nibble : Byte} (h : nibble? c = some nibble) : c ≠ 0 := by
  rintro rfl
  exact Option.some_ne_none _ (h.symm.trans nibble_zero)

theorem ne_zero_of_mem_hex {bytes : List Byte} {c : Byte} (h : c ∈ hex bytes) : c ≠ 0 := by
  obtain ⟨byte, -, hc⟩ := List.mem_flatMap.mp h
  rcases List.mem_pair.mp hc with rfl | rfl
  · exact ne_zero_of_nibble (nibble_halves byte).1
  · exact ne_zero_of_nibble (nibble_halves byte).2.1

/-- The `size` bytes from `start` on. -/
def group (uu : List Byte) (start size : Nat) : List Byte := (uu.drop start).take size

/-- The bytes in groups of 4, 2, 2, 2 and 6. -/
def text (uu : List Byte) : List Byte :=
  hex (group uu 0 4) ++
    [group uu 4 2, group uu 6 2, group uu 8 2, group uu 10 6].flatMap fun g => hyphen :: hex g

/-! ## Writing -/

section

variable {uu string new : List Byte} {n size : Nat}

theorem length_group (h : n + size ≤ uu.length) : (group uu n size).length = size := by
  rw [group, List.length_take, List.length_drop]
  omega

theorem group_succ (h : n < uu.length) :
    group uu n (size + 1) = uu[n] :: group uu (n + 1) size := by
  rw [group, List.drop_eq_getElem_cons h, List.take_succ_cons, group]

theorem group_append (uu : List Byte) (n a b : Nat) :
    group uu n a ++ group uu (n + a) b = group uu n (a + b) := by
  rw [group, group, group, ← List.drop_drop, ← List.take_add]

/-- The cursors behind what has been written over `string`, with `n` bytes of the data read. -/
def written (string new : List Byte) (n : Nat) : Cursors := ⟨overwrite string new, new.length, n⟩

theorem putHyphen_spec (h : new.length < string.length) :
    putHyphen (written string new n) = done (written string (new ++ [hyphen]) n) := by
  simp [putHyphen, written, write_overwrite h]

theorem convertByte_spec {byte : Byte} (hbyte : uu[n]? = some byte)
    (h : new.length + 2 ≤ string.length) :
    convertByte uu (written string new n) =
      done (written string (new ++ hexPair byte) (n + 1)) := by
  have hfirst : write (overwrite string new) new.length (hexDigit (hi byte)) =
      done (overwrite string (new ++ [hexDigit (hi byte)])) := write_overwrite (by omega) _
  have hsecond : write (overwrite string (new ++ [hexDigit (hi byte)])) (new.length + 1)
      (hexDigit (low byte)) = done (overwrite string (new ++ hexPair byte)) := by
    have hlen : (new ++ [hexDigit (hi byte)]).length = new.length + 1 := by simp
    have hroom : (new ++ [hexDigit (hi byte)]).length < string.length := by
      rw [hlen]
      omega
    have hwrite := write_overwrite hroom (hexDigit (low byte))
    rwa [hlen, List.append_assoc] at hwrite
  simp only [convertByte, written, hbyte, ofOption_some, done_bind, hfirst, hsecond]
  simp [hexPair]

theorem convertBytesToHex_spec (hdata : n + size ≤ uu.length)
    (h : new.length + 2 * size ≤ string.length) :
    convertBytesToHex uu size (written string new n) =
      done (written string (new ++ hex (group uu n size)) (n + size)) := by
  induction size generalizing new n with
  | zero => simp [convertBytesToHex, group, hex]
  | succ size ih =>
    have hbyte := List.getElem?_eq_getElem (show n < uu.length by omega)
    rw [convertBytesToHex, convertByte_spec hbyte (by omega), done_bind,
      ih (by omega) (by simp [hexPair]; omega), group_succ (by omega)]
    simp [hex, Nat.add_assoc, Nat.add_comm 1]

theorem length_hex_group (h : n + size ≤ uu.length) :
    (hex (group uu n size)).length = 2 * size := by
  rw [length_hex, length_group h]

theorem length_text (huu : uu.length = 16) : (text uu).length = 36 := by
  simp [text, length_hex_group, huu]

theorem mbrUuidToString_spec (huu : uu.length = 16) (hstring : 37 ≤ string.length) :
    mbrUuidToString uu string = done (0, text uu ++ 0 :: string.drop 37) := by
  have hstart : Cursors.mk string 0 0 = written string [] 0 := rfl
  have hend : write (overwrite string (text uu)) (text uu).length 0 =
      done (overwrite string (text uu ++ [0])) :=
    write_overwrite (by rw [length_text huu]; omega) 0
  have htext : [] ++ hex (group uu 0 4) ++ [hyphen] ++ hex (group uu 4 2) ++ [hyphen] ++
      hex (group uu 6 2) ++ [hyphen] ++ hex (group uu 8 2) ++ [hyphen] ++ hex (group uu 10 6) =
        text uu := by
    simp [text]
  have hlen : ∀ {n size}, n + size ≤ 16 → (hex (group uu n size)).length = 2 * size :=
    fun h => length_hex_group (h.trans_eq huu.symm)
  simp (disch := simp [hlen, huu] <;> omega) only [mbrUuidToString, hstart,
    convertBytesToHex_spec, putHyphen_spec, done_bind]
  rw [htext, written]
  dsimp only
  rw [hend, done_bind, overwrite]
  simp [length_text huu]

end

/-! ## Reading -/

section

variable {uu new rest : List Byte} {s : Parser}

theorem ne_zero_of_mem_text {c : Byte} (h : c ∈ text uu) : c ≠ 0 := by
  rcases List.mem_append.mp h with hhex | hgroups
  · exact ne_zero_of_mem_hex hhex
  · obtain ⟨g, -, hc⟩ := List.mem_flatMap.mp hgroups
    rcases List.mem_cons.mp hc with rfl | hhex
    · decide
    · exact ne_zero_of_mem_hex hhex

theorem strlen_spec {string : List Byte} (h : ∀ c ∈ string, c ≠ 0) :
    strlen (string ++ 0 :: rest) = done string.length := by
  induction string with
  | nil => rfl
  | cons c string ih =>
    obtain ⟨hc, hstring⟩ := List.forall_mem_cons.mp h
    rw [List.cons_append, strlen, if_neg hc, ih hstring]
    rfl

theorem parse_hyphen (h : s.dataIndex < 16) : parse (hyphen :: rest) s = parse rest s := by
  rw [parse, if_pos ⟨by decide, h⟩, nibble_hyphen]
  exact if_neg fun hne => hne rfl

theorem parse_digit {c nibble : Byte} (hc : nibble? c = some nibble) (h : s.dataIndex < 16) :
    parse (c :: rest) s = (do
      let s ← s.digit nibble
      parse rest s) := by
  rw [parse, if_pos ⟨ne_zero_of_nibble hc, h⟩, hc]

/-- Between two bytes, with `new` read over `uu`. -/
def parsed (uu new : List Byte) : Parser := ⟨overwrite uu new, new.length, true⟩

theorem parse_hexPair (byte : Byte) (h : new.length < 16) (huu : uu.length = 16) :
    parse (hexPair byte ++ rest) (parsed uu new) = parse rest (parsed uu (new ++ [byte])) := by
  obtain ⟨hhi, hlow, hbyte⟩ := nibble_halves byte
  have hfirst : (parsed uu new).digit (hi byte) =
      done ⟨overwrite uu (new ++ [hi byte <<< 4]), new.length, false⟩ := by
    simp [Parser.digit, parsed, write_overwrite (h.trans_eq huu.symm)]
  have hsecond :
      (Parser.mk (overwrite uu (new ++ [hi byte <<< 4])) new.length false).digit (low byte) =
        done (parsed uu (new ++ [byte])) := by
    simp [Parser.digit, parsed, overwrite_get, write_overwrite_last, hbyte]
  rw [hexPair, List.cons_append, parse_digit hhi h, hfirst, done_bind, List.cons_append,
    parse_digit hlow h, hsecond, done_bind, List.nil_append]

theorem parse_hex {bytes : List Byte} (h : new.length + bytes.length ≤ 16)
    (huu : uu.length = 16) :
    parse (hex bytes ++ rest) (parsed uu new) = parse rest (parsed uu (new ++ bytes)) := by
  induction bytes generalizing new with
  | nil => simp [hex]
  | cons byte bytes ih =>
    rw [List.length_cons] at h
    have hcons : hex (byte :: bytes) = hexPair byte ++ hex bytes := List.flatMap_cons
    rw [hcons, List.append_assoc, parse_hexPair byte (by omega) huu,
      ih (by simp; omega), List.append_assoc, List.singleton_append]

theorem parse_groups {gs : List (List Byte)} (hne : ∀ g ∈ gs, g ≠ [])
    (h : new.length + gs.flatten.length ≤ 16) (huu : uu.length = 16) :
    parse ((gs.flatMap fun g => hyphen :: hex g) ++ rest) (parsed uu new) =
      parse rest (parsed uu (new ++ gs.flatten)) := by
  induction gs generalizing new with
  | nil => simp
  | cons g gs ih =>
    obtain ⟨hg, hgs⟩ := List.forall_mem_cons.mp hne
    have hpos := List.length_pos_of_ne_nil hg
    rw [List.flatten_cons, List.length_append] at h
    rw [List.flatMap_cons, List.cons_append, List.cons_append, List.append_assoc,
      parse_hyphen (show new.length < 16 by omega), parse_hex (by omega) huu,
      ih hgs (by rw [List.length_append]; omega), List.flatten_cons, List.append_assoc]

theorem parse_end (hnew : new.length = 16) (huu : uu.length = 16) :
    parse (0 :: rest) (parsed uu new) = done (0, new) := by
  have hover : overwrite uu new = new := by
    rw [overwrite, List.drop_eq_nil_of_le (by omega), List.append_nil]
  rw [parse, if_neg fun h => h.1 rfl, parsed]
  dsimp only
  rw [if_neg fun h => h hnew, hover]

theorem flatten_groups (huu : uu.length = 16) :
    group uu 0 4 ++ [group uu 4 2, group uu 6 2, group uu 8 2, group uu 10 6].flatten = uu := by
  have hall : group uu 0 16 = uu := List.take_of_length_le huu.le
  rw [List.flatten_cons, List.flatten_cons, List.flatten_cons, List.flatten_singleton,
    group_append uu 8 2 6, group_append uu 6 2 8, group_append uu 4 2 10,
    group_append uu 0 4 12, hall]

theorem mbrStringToUuid_text {out : List Byte} (huu : uu.length = 16) (hout : out.length = 16) :
    mbrStringToUuid (text uu ++ 0 :: rest) out = done (0, uu) := by
  have hstart : Parser.mk out 0 true = parsed out [] := rfl
  have hfirst : (group uu 0 4).length = 4 := length_group (by omega)
  have hflat := flatten_groups huu
  have hlen := (congrArg List.length hflat).trans huu
  rw [List.length_append] at hlen
  have hne : ∀ g ∈ [group uu 4 2, group uu 6 2, group uu 8 2, group uu 10 6], g ≠ [] := by
    have hpos : ∀ n size, 0 < size → n + size ≤ 16 → group uu n size ≠ [] :=
      fun n size hsize hle => List.ne_nil_of_length_pos
        ((length_group (hle.trans_eq huu.symm)).symm ▸ hsize)
    simp [hpos]
  rw [mbrStringToUuid, strlen_spec fun c => ne_zero_of_mem_text, done_bind, length_text huu,
    if_neg (by decide), hstart, text, List.append_assoc,
    parse_hex (by rw [hfirst]; decide) hout, List.nil_append, parse_groups hne hlen.le hout, hflat]
  exact parse_end huu hout

end

/-- **The text of a UUID.** Whatever is in the two arrays before, the text has 36 characters and a
terminator, and it is read back as the same value. -/
theorem string_to_uuid_of_uuid_to_string (uu string out : List Byte) (huu : uu.length = 16)
    (hstring : 37 ≤ string.length) (hout : out.length = 16) :
    ∃ chars, chars.length = 36 ∧ (∀ c ∈ chars, c ≠ 0) ∧
      mbrUuidToString uu string = done (0, chars ++ 0 :: string.drop 37) ∧
      mbrStringToUuid (chars ++ 0 :: string.drop 37) out = done (0, uu) :=
  ⟨text uu, length_text huu, fun _ => ne_zero_of_mem_text, mbrUuidToString_spec huu hstring,
    mbrStringToUuid_text huu hout⟩

/-- Bytes with the top bit set, over arrays of ones. -/
theorem string_to_uuid_of_uuid_to_string_high :
    ∃ chars : List Byte, chars.length = 36 ∧ (∀ c ∈ chars, c ≠ 0) ∧
      mbrUuidToString (List.replicate 16 0xf7) (List.replicate 40 0xff) =
        done (0, chars ++ 0 :: List.replicate 3 0xff) ∧
      mbrStringToUuid (chars ++ 0 :: List.replicate 3 0xff) (List.replicate 16 0xff) =
        done (0, List.replicate 16 0xf7) :=
  string_to_uuid_of_uuid_to_string _ _ _ (by decide) (by decide) (by decide)

end LibSystem.Core.Uuid
