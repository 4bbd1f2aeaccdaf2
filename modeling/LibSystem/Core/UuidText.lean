import LibSystem.Core.Uuid
import Mathlib.Data.List.TakeWhile

/-!
# What is taken for the text of a UUID

`mbr_string_to_uuid` on any string. The digits arrive one by one, and so do the bytes of the value.
-/

namespace LibSystem.Core.Uuid

open Outcome

/-! ## What is asked of it -/

def HexDigit (c : Byte) : Prop :=
  48 ≤ c.toNat ∧ c.toNat ≤ 57 ∨ 65 ≤ c.toNat ∧ c.toNat ≤ 70 ∨ 97 ≤ c.toNat ∧ c.toNat ≤ 102

instance (c : Byte) : Decidable (HexDigit c) := inferInstanceAs (Decidable (_ ∨ _ ∨ _))

/-- Hyphens and 32 digits. -/
structure IsText (s : List Byte) : Prop where
  size : s.length ≤ mbrUuStringSize
  chars : ∀ c ∈ s, c = hyphen ∨ HexDigit c
  digits : s.countP (fun c => HexDigit c) = 32

/-- On the string `s`, which other bytes may follow. -/
structure Validates (s rest uu : List Byte) : Prop where
  accepts : (∃ uu', mbrStringToUuid (s ++ 0 :: rest) uu = done (0, uu')) ↔ IsText s
  clean : ∀ uu', mbrStringToUuid (s ++ 0 :: rest) uu = done (einval, uu') → uu' = uu

/-- The values of the digits in front of the first character that is neither a digit nor a
hyphen. -/
def nibbles (s : List Byte) : List Byte :=
  (s.takeWhile fun c => c = hyphen ∨ HexDigit c).filterMap nibble?

/-- The bytes that digits make up. After an odd number of them the last byte is half there. -/
def pack : List Byte → List Byte
  | [] => []
  | [a] => [a <<< 4]
  | a :: b :: rest => (a <<< 4 ||| b) :: pack rest

/-! ## Digits and bytes -/

theorem nibble_isSome : ∀ c, (nibble? c).isSome ↔ HexDigit c := by decide +kernel

theorem nibble_none {c : Byte} (h : nibble? c = none) : ¬HexDigit c := by
  rw [← nibble_isSome, h]
  simp

theorem nibbles_digit {c n : Byte} (h : nibble? c = some n) (s : List Byte) :
    nibbles (c :: s) = n :: nibbles s := by
  have hdigit : HexDigit c := (nibble_isSome c).mp (by simp [h])
  simp [nibbles, hdigit, h]

theorem nibbles_hyphen (s : List Byte) : nibbles (hyphen :: s) = nibbles s := by
  simp [nibbles, nibble_hyphen]

theorem nibbles_other {c : Byte} (h : nibble? c = none) (hne : c ≠ hyphen) (s : List Byte) :
    nibbles (c :: s) = [] := by
  simp [nibbles, nibble_none h, hne]

theorem length_nibbles {s : List Byte} (h : ∀ c ∈ s, c = hyphen ∨ HexDigit c) :
    (nibbles s).length = s.countP fun c => HexDigit c := by
  have hall : (s.takeWhile fun c => c = hyphen ∨ HexDigit c) = s := by
    rw [List.takeWhile_eq_self_iff]
    simpa using h
  rw [nibbles, hall, List.length_filterMap_eq_countP]
  exact List.countP_congr fun c _ => by simp [nibble_isSome]

theorem pack_append {ns : List Byte} (h : ns.length % 2 = 0) (ms : List Byte) :
    pack (ns ++ ms) = pack ns ++ pack ms := by
  induction ns using pack.induct with
  | case1 => rfl
  | case2 a => simp at h
  | case3 a b ns ih =>
    have hns : ns.length % 2 = 0 := by
      simp at h
      omega
    rw [List.cons_append, List.cons_append, pack, pack, ih hns, List.cons_append]

theorem length_pack (ns : List Byte) : (pack ns).length = (ns.length + 1) / 2 := by
  induction ns using pack.induct with
  | case1 => rfl
  | case2 a => simp [pack]
  | case3 a b ns ih =>
    simp [pack, ih]
    omega

/-! ## The loop -/

section

variable {uu : List Byte}

/-- The parser behind the digits `ns`. -/
def packed (uu ns : List Byte) : Parser :=
  ⟨overwrite uu (pack ns), ns.length / 2, ns.length % 2 = 0⟩

theorem packed_digit {ns : List Byte} (huu : uu.length = 16) (h : ns.length < 32) (n : Byte) :
    (packed uu ns).digit n = done (packed uu (ns ++ [n])) := by
  have hlen := length_pack ns
  rcases Nat.mod_two_eq_zero_or_one ns.length with heven | hodd
  · have hindex : ns.length / 2 = (pack ns).length := by omega
    have hroom : (pack ns).length < uu.length := by omega
    have hnext : pack (ns ++ [n]) = pack ns ++ [n <<< 4] := pack_append heven [n]
    have hcount : (ns.length + 1) / 2 = ns.length / 2 := by omega
    have hphase : (ns.length + 1) % 2 = 1 := by omega
    simp [Parser.digit, packed, heven, hindex, write_overwrite hroom, hnext, hcount, hphase]
  · obtain ⟨ms, a, rfl⟩ := List.eq_nil_or_concat ns |>.resolve_left (by rintro rfl; simp at hodd)
    rw [List.concat_eq_append] at *
    have heven : ms.length % 2 = 0 := by
      simp at hodd
      omega
    have hlast : pack (ms ++ [a]) = pack ms ++ [a <<< 4] := pack_append heven [a]
    have hnext : pack (ms ++ [a, n]) = pack ms ++ [a <<< 4 ||| n] := pack_append heven [a, n]
    have hindex : (ms.length + 1) / 2 = (pack ms).length := by
      rw [length_pack]
    have hcount : (ms.length + 1 + 1) / 2 = (pack ms).length + 1 := by
      rw [length_pack]
      omega
    have hphase : (ms.length + 1) % 2 = 1 := by omega
    have hphase' : (ms.length + 1 + 1) % 2 = 0 := by omega
    simp [Parser.digit, packed, hlast, hindex, hphase, overwrite_get, write_overwrite_last, hnext,
      hcount, hphase']

theorem packed_full {ns : List Byte} (h : ns.length ≤ 32) :
    (packed uu ns).dataIndex = 16 ↔ 32 ≤ ns.length := by
  show ns.length / 2 = 16 ↔ _
  omega

theorem parse_spec {s rest : List Byte} (huu : uu.length = 16) (hs : ∀ c ∈ s, c ≠ 0)
    (ns : List Byte) (hns : ns.length ≤ 32) :
    parse (s ++ 0 :: rest) (packed uu ns) =
      if 32 ≤ (ns ++ nibbles s).length then
        done (0, overwrite uu (pack ((ns ++ nibbles s).take 32)))
      else done (einval, overwrite uu (pack (ns ++ nibbles s))) := by
  induction s generalizing ns with
  | nil =>
    have hnil : nibbles [] = [] := rfl
    rw [List.nil_append, parse, if_neg fun h => h.1 rfl, hnil, List.append_nil]
    by_cases hfull : 32 ≤ ns.length
    · rw [if_neg (not_not.mpr ((packed_full hns).mpr hfull)), if_pos hfull,
        List.take_of_length_le hns]
      rfl
    · rw [if_pos (mt (packed_full hns).mp hfull), if_neg hfull]
      rfl
  | cons c s ih =>
    obtain ⟨hc, htail⟩ := List.forall_mem_cons.mp hs
    rw [List.cons_append]
    by_cases hfull : 32 ≤ ns.length
    · have hstop : (packed uu ns).dataIndex = 16 := (packed_full hns).mpr hfull
      rw [parse, if_neg (by simp [hstop]), if_neg (not_not.mpr hstop),
        if_pos (by rw [List.length_append]; omega), List.take_append_of_le_length hfull,
        List.take_of_length_le hns]
      rfl
    have hindex : (packed uu ns).dataIndex < 16 := by
      dsimp only [packed]
      omega
    cases hnibble : nibble? c with
    | some n =>
      rw [parse_digit hnibble hindex, packed_digit huu (by omega), done_bind,
        ih htail _ (by simp; omega), nibbles_digit hnibble, List.append_assoc,
        List.singleton_append]
    | none =>
      by_cases hhyphen : c = hyphen
      · subst hhyphen
        rw [parse_hyphen hindex, ih htail ns hns, nibbles_hyphen]
      · rw [parse, if_pos ⟨hc, hindex⟩, hnibble, nibbles_other hnibble hhyphen, List.append_nil,
          if_neg hfull]
        exact if_pos hhyphen

theorem mbrStringToUuid_short {s : List Byte} (huu : uu.length = 16) (hs : ∀ c ∈ s, c ≠ 0)
    (hsize : s.length ≤ mbrUuStringSize) (rest : List Byte) :
    mbrStringToUuid (s ++ 0 :: rest) uu =
      if 32 ≤ (nibbles s).length then done (0, overwrite uu (pack ((nibbles s).take 32)))
      else done (einval, overwrite uu (pack (nibbles s))) := by
  rw [mbrStringToUuid, strlen_spec hs, done_bind, if_neg (by omega)]
  exact parse_spec huu hs [] (by simp)

theorem mbrStringToUuid_long {s : List Byte} (hs : ∀ c ∈ s, c ≠ 0)
    (hsize : mbrUuStringSize < s.length) (rest : List Byte) :
    mbrStringToUuid (s ++ 0 :: rest) uu = done (einval, uu) := by
  rw [mbrStringToUuid, strlen_spec hs, done_bind, if_pos hsize]

theorem overwrite_eq_self (old new : List Byte) : overwrite old new = old ↔ new <+: old := by
  rw [overwrite]
  constructor
  · intro h
    exact ⟨_, h⟩
  · rintro ⟨rest, rfl⟩
    rw [List.drop_left]

theorem isText_iff {s : List Byte} (hsize : s.length ≤ mbrUuStringSize) :
    IsText s ↔ (∀ c ∈ s, c = hyphen ∨ HexDigit c) ∧ (nibbles s).length = 32 := by
  constructor
  · intro h
    exact ⟨h.chars, (length_nibbles h.chars).trans h.digits⟩
  · rintro ⟨hchars, hcount⟩
    exact ⟨hsize, hchars, (length_nibbles hchars).symm.trans hcount⟩

/-- **What is accepted.** The parser is right about a string that is too long. In another one, no
character but a hyphen may follow 32 digits. If there are fewer, `uu` is left as it was only
where it already holds the bytes that they make up. -/
theorem validates_iff (s rest uu : List Byte) (hs : ∀ c ∈ s, c ≠ 0) (huu : uu.length = 16) :
    Validates s rest uu ↔ mbrUuStringSize < s.length ∨
      if 32 ≤ (nibbles s).length then
        (∀ c ∈ s, c = hyphen ∨ HexDigit c) ∧ (nibbles s).length = 32
      else pack (nibbles s) <+: uu := by
  rcases Nat.lt_or_ge mbrUuStringSize s.length with hlong | hshort
  · have hrun : mbrStringToUuid (s ++ 0 :: rest) uu = done (einval, uu) :=
      mbrStringToUuid_long hs hlong rest
    refine iff_of_true ⟨?_, ?_⟩ (.inl hlong)
    · rw [hrun]
      refine iff_of_false (by simp [einval]) fun htext => ?_
      exact absurd htext.size (Nat.not_le.mpr hlong)
    · rw [hrun]
      rintro uu' heq
      exact (Prod.mk.inj (done.inj heq)).2.symm
  · have hrun := mbrStringToUuid_short huu hs hshort rest
    rw [or_iff_right (Nat.not_lt.mpr hshort)]
    split at hrun
    · rename_i hfull
      rw [if_pos hfull, ← isText_iff hshort]
      refine ⟨fun h => h.accepts.mp ⟨_, hrun⟩, fun htext => ⟨?_, ?_⟩⟩
      · exact iff_of_true ⟨_, hrun⟩ htext
      · rw [hrun]
        simp [einval]
    · rename_i hfew
      rw [if_neg hfew, ← overwrite_eq_self]
      constructor
      · intro h
        exact h.clean _ hrun
      · intro hsame
        rw [hsame] at hrun
        refine ⟨?_, ?_⟩
        · rw [hrun]
          refine iff_of_false (by simp [einval]) fun htext => hfew ?_
          exact ((isText_iff hshort).mp htext).2.ge
        · rw [hrun]
          rintro uu' heq
          exact (Prod.mk.inj (done.inj heq)).2.symm

end

/-- A character behind the 32nd digit, and a digit too few. -/
theorem not_validates :
    ¬Validates (List.replicate 32 48 ++ [120]) [] (List.replicate 16 0) ∧
      ¬Validates (List.replicate 31 48) [] (List.replicate 16 1) := by
  constructor
  · intro h
    have htext := h.accepts.mp ⟨List.replicate 16 0, by decide +kernel⟩
    exact absurd (htext.chars 120 (by simp)) (by decide)
  · intro h
    have hclean := h.clean (List.replicate 16 0) (by decide +kernel)
    exact absurd hclean (by decide)

theorem validates_text :
    Validates (List.replicate 32 48) [7] (List.replicate 16 1) :=
  (validates_iff _ _ _ (by decide) rfl).mpr (.inr (by decide +kernel))

end LibSystem.Core.Uuid
