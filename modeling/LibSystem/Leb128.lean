import LibSystem.Memory

/-!
# What a ULEB128 number is

Seven bits a byte, lowest first. Every byte but the last has its high bit set.
An encoding may be longer than it must be, up to the ten bytes that a 64 bit
number can need.
-/

namespace LibSystem

/-- `bytes` encode the number `v`. -/
inductive Uleb : List Byte → Nat → Prop
  | last (b : Byte) (h : b.toNat < 128) : Uleb [b] b.toNat
  | more (b : Byte) (bytes : List Byte) (v : Nat) (h : 128 ≤ b.toNat) (hbytes : Uleb bytes v) :
      Uleb (b :: bytes) (b.toNat % 128 + 128 * v)

/-- A number that fits a 64 bit reader. -/
def Uleb64 (bytes : List Byte) (v : Nat) : Prop := Uleb bytes v ∧ bytes.length ≤ 10

namespace Uleb

theorem length_pos {bytes : List Byte} {v : Nat} (h : Uleb bytes v) : 0 < bytes.length := by
  cases h <;> simp

theorem of_lt (b : Byte) (h : b.toNat < 128) : Uleb64 [b] b.toNat := ⟨.last b h, by simp⟩

theorem head_small {b : Byte} {bytes : List Byte} {v : Nat} (h : Uleb (b :: bytes) v)
    (hb : b.toNat < 128) : bytes = [] ∧ v = b.toNat := by
  cases h with
  | last _ _ => exact ⟨rfl, rfl⟩
  | more _ _ _ hbig _ => omega

end Uleb

/-! ## Any bytes -/

/-- A number, signed or not: all bytes but the last go on. -/
inductive Leb : List Byte → Prop
  | last (b : Byte) (h : b.toNat < 128) : Leb [b]
  | more (b : Byte) (bytes : List Byte) (h : 128 ≤ b.toNat) (hbytes : Leb bytes) :
      Leb (b :: bytes)

namespace Leb

/-- The sum of the seven bits of each byte, at their places. -/
def unsigned : List Byte → Nat
  | [] => 0
  | b :: bytes => b.toNat % 128 + 128 * unsigned bytes

/-- The last byte has its sign in bit 6. -/
def signed : List Byte → Int
  | [] => 0
  | [b] => if 64 ≤ b.toNat % 128 then (b.toNat % 128 : Nat) - 128 else (b.toNat % 128 : Nat)
  | b :: c :: bytes => (b.toNat % 128 : Nat) + 128 * signed (c :: bytes)

variable {bytes : List Byte} {b : Byte}

theorem length_pos (h : Leb bytes) : 0 < bytes.length := by
  cases h <;> simp

theorem signed_cons (h : Leb bytes) (b : Byte) :
    signed (b :: bytes) = (b.toNat % 128 : Nat) + 128 * signed bytes := by
  cases h <;> simp [signed]

theorem uleb (h : Leb bytes) : Uleb bytes (unsigned bytes) := by
  induction h with
  | last b hb =>
    have hvalue : unsigned [b] = b.toNat := by simp [unsigned, Nat.mod_eq_of_lt hb]
    rw [hvalue]
    exact .last b hb
  | more b bytes hb _ ih => exact .more b bytes _ hb ih

theorem prefix_or (bytes : List Byte) :
    (∃ pre rest, bytes = pre ++ rest ∧ Leb pre) ∨ ∀ b ∈ bytes, 128 ≤ b.toNat := by
  induction bytes with
  | nil => simp
  | cons b bytes ih =>
    by_cases hb : b.toNat < 128
    · exact .inl ⟨[b], bytes, rfl, .last b hb⟩
    · rcases ih with ⟨pre, rest, rfl, hpre⟩ | hall
      · exact .inl ⟨b :: pre, rest, rfl, .more b pre (by omega) hpre⟩
      · exact .inr (List.forall_mem_cons.mpr ⟨by omega, hall⟩)

theorem ends (h : Leb bytes) : ∃ b ∈ bytes, b.toNat < 128 := by
  induction h with
  | last b hb => exact ⟨b, by simp, hb⟩
  | more b bytes _ _ ih =>
    obtain ⟨c, hc, hlow⟩ := ih
    exact ⟨c, List.mem_cons_of_mem b hc, hlow⟩

theorem continues (h : Leb bytes) {n : Nat} (hn : n < bytes.length) :
    ∀ b ∈ bytes.take n, 128 ≤ b.toNat := by
  induction h generalizing n with
  | last b hb =>
    obtain rfl : n = 0 := by simpa using hn
    simp
  | more b bytes hb _ ih =>
    cases n with
    | zero => simp
    | succ n =>
      rw [List.take_succ_cons, List.forall_mem_cons]
      exact ⟨hb, ih (by simpa using hn)⟩

theorem prefix_unique {pre pre' rest rest' : List Byte} (h : Leb pre) (h' : Leb pre')
    (heq : pre ++ rest = pre' ++ rest') : pre = pre' := by
  induction h generalizing pre' with
  | last b hb =>
    cases h' with
    | last c hc =>
      obtain ⟨rfl, -⟩ := List.cons.inj heq
      rfl
    | more c bytes hc _ =>
      obtain ⟨rfl, -⟩ := List.cons.inj heq
      omega
  | more b bytes hb _ ih =>
    cases h' with
    | last c hc =>
      obtain ⟨rfl, -⟩ := List.cons.inj heq
      omega
    | more c bytes' hc hbytes' =>
      obtain ⟨rfl, hrest⟩ := List.cons.inj heq
      rw [ih hbytes' hrest]

/-! ## The shortest encodings -/

def encodeUnsigned (v : Nat) : List Byte :=
  if v < 128 then [BitVec.ofNat 8 v]
  else BitVec.ofNat 8 (v % 128 + 128) :: encodeUnsigned (v / 128)
termination_by v
decreasing_by omega

def encodeSigned (v : Int) : List Byte :=
  if -64 ≤ v ∧ v < 64 then [BitVec.ofNat 8 (v % 128).toNat]
  else BitVec.ofNat 8 ((v % 128).toNat + 128) :: encodeSigned (v / 128)
termination_by v.natAbs
decreasing_by omega

theorem encodeUnsigned_spec (v : Nat) :
    Leb (encodeUnsigned v) ∧ unsigned (encodeUnsigned v) = v := by
  induction v using encodeUnsigned.induct with
  | case1 v h =>
    rw [encodeUnsigned, if_pos h]
    refine ⟨.last _ (by simp; omega), ?_⟩
    simp [unsigned]
    omega
  | case2 v h ih =>
    rw [encodeUnsigned, if_neg h]
    refine ⟨.more _ _ (by simp; omega) ih.1, ?_⟩
    rw [unsigned, ih.2]
    simp
    omega

theorem encodeSigned_spec (v : Int) : Leb (encodeSigned v) ∧ signed (encodeSigned v) = v := by
  induction v using encodeSigned.induct with
  | case1 v h =>
    rw [encodeSigned, if_pos h]
    refine ⟨.last _ (by simp; omega), ?_⟩
    simp [signed]
    split <;> omega
  | case2 v h ih =>
    rw [encodeSigned, if_neg h]
    refine ⟨.more _ _ (by simp; omega) ih.1, ?_⟩
    rw [signed_cons ih.1, ih.2]
    simp
    omega

theorem length_encodeUnsigned (v k : Nat) (h : v < 128 ^ (k + 1)) :
    (encodeUnsigned v).length ≤ k + 1 := by
  induction k generalizing v with
  | zero =>
    rw [encodeUnsigned, if_pos (by omega)]
    simp
  | succ k ih =>
    rw [encodeUnsigned]
    split
    · simp
    · rw [List.length_cons]
      have hlen := ih (v / 128) (by rw [Nat.pow_succ] at h; omega)
      omega

theorem length_encodeSigned (v : Int) (k : Nat) (hlow : -(64 * 128 ^ k : Nat) ≤ v)
    (hhigh : v < (64 * 128 ^ k : Nat)) : (encodeSigned v).length ≤ k + 1 := by
  induction k generalizing v with
  | zero =>
    rw [encodeSigned, if_pos (by omega)]
    simp
  | succ k ih =>
    rw [Nat.pow_succ] at hlow hhigh
    rw [encodeSigned]
    split
    · simp
    · rw [List.length_cons]
      have hlen := ih (v / 128) (by omega) (by omega)
      omega

end Leb

end LibSystem
