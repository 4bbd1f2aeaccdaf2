import LibSystem.Outcome
import LibSystem.Leb128
import Mathlib.Tactic.Ring
import Mathlib.Tactic.GCongr

/-!
# The linker utilities

`read_uleb128` and `trie_walk` of `lnk_util.cpp`, over byte memory. A null
pointer is the address 0. A C string is the list of its bytes.
-/

namespace LibSystem

/-- A C string, without its terminator. -/
structure CString where
  bytes : List Byte
  nul_free : ∀ b ∈ bytes, b ≠ 0

theorem CString.bytes_injective : Function.Injective CString.bytes := by
  rintro ⟨_, _⟩ ⟨_, _⟩ rfl
  rfl

namespace Lnk

/-- The loop of `read_uleb128`. It makes at most eleven rounds: the last one halts. -/
def readUleb128Loop (mem : Mem) (stop : Addr) : Nat → Addr → BitVec 64 → Nat → Outcome (Word × Addr)
  | 0, _, _, _ => .timeout
  | fuel + 1, p, result, bit =>
    if p = stop then .halt "malformed uleb128"
    else if 63 < bit then .halt "uleb128 too big for uint64, bit=%d, result=0x%0llX"
    else
      let slice : BitVec 64 := (mem p &&& 0x7f).setWidth 64
      let result := result ||| slice <<< bit
      if mem p &&& 0x80 ≠ 0 then readUleb128Loop mem stop fuel (p + 1) result (bit + 7)
      else .done (result.setWidth 32, p + 1)

/-- The number at `p` as a `uintptr_t`, and the cursor after it. -/
def readUleb128 (mem : Mem) (p stop : Addr) : Outcome (Word × Addr) :=
  readUleb128Loop mem stop 11 p 0 0

/-- `*s`, which is 0 at the end of the string. -/
def charAt (s : List Byte) : Byte := s.headD 0

/-- Scans a child's label. It never reads past the end of the symbol. -/
def scanEdge (mem : Mem) : Nat → Addr → List Byte → Bool → Outcome (Addr × List Byte × Bool)
  | 0, _, _, _ => .timeout
  | fuel + 1, p, ss, wrongEdge =>
    if mem p = 0 then .done (p, ss, wrongEdge)
    else if wrongEdge then scanEdge mem fuel (p + 1) ss true
    else scanEdge mem fuel (p + 1) ss.tail (mem p != charAt ss)

/-- Skips a uleb128 up to its last byte. -/
def skipUleb (mem : Mem) : Nat → Addr → Outcome Addr
  | 0, _ => .timeout
  | fuel + 1, p => if mem p &&& 0x80 ≠ 0 then skipUleb mem fuel (p + 1) else .done p

/-- The `for` loop over the children of a node: the offset of the child whose label matches,
or 0, and the rest of the symbol. -/
def walkChildren (mem : Mem) (stop : Addr) (fuel : Nat) :
    Nat → Addr → List Byte → Outcome (Word × List Byte)
  | 0, _, s => .done (0, s)
  | childrenRemaining + 1, p, s => do
    let (p, ss, wrongEdge) ← scanEdge mem fuel p s false
    if wrongEdge then
      let p ← skipUleb mem fuel (p + 1)
      walkChildren mem stop fuel childrenRemaining (p + 1) s
    else
      let (nodeOffset, _) ← readUleb128 mem (p + 1) stop
      .done (nodeOffset, ss)

/-- The size of the node's terminal payload, and the cursor after it. -/
def readTerminalSize (mem : Mem) (p stop : Addr) : Outcome (Word × Addr) :=
  if 127 < (mem p).toNat then readUleb128 mem p stop
  else .done ((mem p).setWidth 32, p + 1)

def trieWalkLoop (mem : Mem) (start stop : Addr) (scan : Nat) :
    Nat → Addr → List Byte → Outcome Addr
  | 0, _, _ => .timeout
  | fuel + 1, p, s =>
    if p = 0 then .done 0
    else do
      let (terminalSize, p) ← readTerminalSize mem p stop
      if charAt s = 0 ∧ terminalSize ≠ 0 then .done p
      else
        let children := p + terminalSize
        let (nodeOffset, s) ← walkChildren mem stop scan (mem children).toNat (children + 1) s
        trieWalkLoop mem start stop scan fuel (if nodeOffset ≠ 0 then start + nodeOffset else 0) s

/-- The payload of the symbol `s` in the export trie at `start`, or null. -/
def trieWalk (fuel : Nat) (mem : Mem) (start stop : Addr) (s : List Byte) : Outcome Addr :=
  trieWalkLoop mem start stop fuel fuel start s

/-! ## Reading a number -/

theorem high_bit_iff (b : Byte) : b &&& 0x80 ≠ 0 ↔ 128 ≤ b.toNat := by
  revert b; decide

theorem low_bits {w : Nat} (hw : 7 ≤ w) (b : Byte) :
    ((b &&& 0x7f).setWidth w).toNat = b.toNat % 128 := by
  have hmask : (b &&& 0x7f).toNat = b.toNat % 128 := by
    rw [BitVec.toNat_and]
    exact Nat.and_two_pow_sub_one_eq_mod b.toNat 7
  have hpow : 2 ^ 7 ≤ 2 ^ w := Nat.pow_le_pow_right (by omega) hw
  rw [BitVec.toNat_setWidth, hmask, Nat.mod_eq_of_lt (by omega)]

theorem or_slice_toNat {w : Nat} (hw : 7 ≤ w) (result : BitVec w) (b : Byte) (bit : Nat)
    (hbit : bit ≤ w) (hresult : result.toNat < 2 ^ bit) :
    (result ||| (((b &&& 0x7f).setWidth w) <<< bit)).toNat =
      (result.toNat + b.toNat % 128 * 2 ^ bit) % 2 ^ w := by
  have hpow : 2 ^ w = 2 ^ (w - bit) * 2 ^ bit := by rw [← Nat.pow_add]; congr 1; omega
  have hshift : b.toNat % 128 * 2 ^ bit % 2 ^ w = b.toNat % 128 % 2 ^ (w - bit) * 2 ^ bit := by
    rw [hpow, Nat.mul_mod_mul_right]
  have hfit : result.toNat + b.toNat % 128 * 2 ^ bit % 2 ^ w < 2 ^ w := by
    have hlt := Nat.mod_lt (b.toNat % 128) (Nat.two_pow_pos (w - bit))
    rw [hshift]
    calc _ < 2 ^ bit + b.toNat % 128 % 2 ^ (w - bit) * 2 ^ bit := by omega
      _ = (b.toNat % 128 % 2 ^ (w - bit) + 1) * 2 ^ bit := by ring
      _ ≤ 2 ^ (w - bit) * 2 ^ bit := Nat.mul_le_mul_right _ hlt
      _ = 2 ^ w := hpow.symm
  rw [BitVec.toNat_or, BitVec.toNat_shiftLeft, low_bits hw, Nat.shiftLeft_eq, Nat.or_comm, hshift,
    ← Nat.shiftLeft_eq, ← Nat.shiftLeft_add_eq_or_of_lt hresult, Nat.shiftLeft_eq, ← hshift,
    Nat.add_comm, ← Nat.add_mod_mod, Nat.mod_eq_of_lt hfit]

theorem round_lt {n bit : Nat} (b : Byte) (hn : n < 2 ^ bit) :
    n + b.toNat % 128 * 2 ^ bit < 2 ^ (bit + 7) := by
  have hb : b.toNat % 128 ≤ 127 := by omega
  calc _ < 2 ^ bit + b.toNat % 128 * 2 ^ bit := by omega
    _ ≤ 2 ^ bit + 127 * 2 ^ bit := by gcongr
    _ = 2 ^ (bit + 7) := by ring

theorem readUleb128Loop_spec {mem : Mem} {stop : Addr} {bytes : List Byte} {v : Nat}
    (h : Uleb bytes v) (fuel : Nat) (p : Addr) (result : BitVec 64) (bit : Nat)
    (hmem : mem.Holds p bytes) (hstop : ∀ i < bytes.length, p + BitVec.ofNat 32 i ≠ stop)
    (hfuel : bytes.length ≤ fuel) (hbit : bit + 7 * bytes.length ≤ 70)
    (hresult : result.toNat < 2 ^ bit) :
    readUleb128Loop mem stop fuel p result bit =
      .done (BitVec.ofNat 32 (result.toNat + v * 2 ^ bit), p + BitVec.ofNat 32 bytes.length) := by
  induction h generalizing fuel p result bit with
  | last b hb =>
    obtain ⟨fuel, rfl⟩ : ∃ k, fuel = k + 1 := ⟨fuel - 1, by simp at hfuel; omega⟩
    simp only [List.length_singleton] at hbit hstop
    have hp : mem p = b := (Mem.holds_cons.mp hmem).1
    have hne : p ≠ stop := by simpa using hstop 0 (by omega)
    have hlast : ¬ (b &&& 0x80 ≠ 0) := by rw [high_bit_iff]; omega
    rw [readUleb128Loop, if_neg hne, if_neg (by omega), hp, if_neg hlast]
    have hround := or_slice_toNat (by decide) result b bit (by omega) hresult
    simp only [List.length_singleton, Outcome.done.injEq, Prod.mk.injEq]
    refine ⟨?_, rfl⟩
    apply BitVec.eq_of_toNat_eq
    rw [BitVec.toNat_setWidth, hround, BitVec.toNat_ofNat, Nat.mod_eq_of_lt hb]
    omega
  | more b bytes v hb hbytes ih =>
    obtain ⟨fuel, rfl⟩ : ∃ k, fuel = k + 1 := ⟨fuel - 1, by simp at hfuel; omega⟩
    simp only [List.length_cons] at hbit hstop hfuel
    obtain ⟨hp, hrest⟩ := Mem.holds_cons.mp hmem
    have hlen := hbytes.length_pos
    have hne : p ≠ stop := by simpa using hstop 0 (by omega)
    have hmore : b &&& 0x80 ≠ 0 := (high_bit_iff b).mpr hb
    rw [readUleb128Loop, if_neg hne, if_neg (by omega), hp, if_pos hmore]
    -- At least one byte follows, so this one still fits below bit 63.
    have hsmall := round_lt b hresult
    have hpow : 2 ^ (bit + 7) ≤ 2 ^ 64 := Nat.pow_le_pow_right (by omega) (by omega)
    have hround := or_slice_toNat (by decide) result b bit (by omega) hresult
    rw [Nat.mod_eq_of_lt (by omega)] at hround
    rw [ih fuel (p + 1) _ (bit + 7) hrest ?_ (by omega) (by omega) (by rw [hround]; exact hsmall)]
    · rw [hround, List.length_cons, Mem.ofNat_succ, ← BitVec.add_assoc]
      congr 3
      ring
    · intro i hi
      have := hstop (i + 1) (by omega)
      rwa [Mem.ofNat_succ, ← BitVec.add_assoc] at this

theorem readUleb128_spec {mem : Mem} {p stop : Addr} {bytes : List Byte} {v : Nat}
    (h : Uleb64 bytes v) (hmem : mem.Holds p bytes)
    (hstop : ∀ i < bytes.length, p + BitVec.ofNat 32 i ≠ stop) :
    readUleb128 mem p stop = .done (BitVec.ofNat 32 v, p + BitVec.ofNat 32 bytes.length) := by
  have hlen := h.2
  unfold readUleb128
  rw [readUleb128Loop_spec h.1 11 p 0 0 hmem hstop (by omega) (by omega) (by simp)]
  simp

end Lnk

end LibSystem
