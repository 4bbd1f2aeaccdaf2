import LibSystem.Lnk.Binding
import LibSystem.Words

/-!
# Operands of opcodes

`read_uleb128`, `read_sleb128` and the strings, on the bytes that are left of a stream instead of
on a cursor into memory.
-/

namespace LibSystem.Lnk

open Outcome Mem

/-- The loop of `read_uleb128`: the number, and what is left. -/
def ulebLoop : List Byte → BitVec 64 → Nat → Outcome (Word × List Byte)
  | [], _, _ => .halt "malformed uleb128"
  | b :: rest, result, bit =>
    if 63 < bit then .halt "uleb128 too big for uint64, bit=%d, result=0x%0llX"
    else
      let slice : BitVec 64 := (b &&& 0x7f).setWidth 64
      let result := result ||| slice <<< bit
      if b &&& 0x80 ≠ 0 then ulebLoop rest result (bit + 7)
      else .done (result.setWidth 32, rest)

/-- The number at the head of the bytes, unless reading it stops the process. -/
def operand (bytes : List Byte) : Outcome Word := do
  let v ← ulebLoop bytes 0 0
  .done v.1

/-- What is left behind the number. -/
def afterOperand (bytes : List Byte) : List Byte :=
  match ulebLoop bytes 0 0 with
  | .done v => v.2
  | _ => []

theorem ulebLoop_suffix {bytes rest : List Byte} {result : BitVec 64} {bit : Nat} {n : Word}
    (h : ulebLoop bytes result bit = done (n, rest)) : rest <:+ bytes := by
  induction bytes generalizing result bit with
  | nil => simp [ulebLoop] at h
  | cons b bytes ih =>
    unfold ulebLoop at h
    dsimp only at h
    split at h
    · simp at h
    split at h
    · exact (ih h).trans (List.suffix_cons b bytes)
    · obtain ⟨-, rfl⟩ := Prod.mk.inj (done.inj h)
      exact List.suffix_cons b bytes

theorem afterOperand_suffix (bytes : List Byte) : afterOperand bytes <:+ bytes := by
  unfold afterOperand
  split
  · rename_i v h
    exact ulebLoop_suffix h
  · exact List.nil_suffix

theorem not_lt_of_slice {mem : Mem} {p stop : Addr} (h : mem.slice p stop = []) : ¬ p < stop := by
  have hlen := mem.length_slice p stop
  rw [h, List.length_nil] at hlen
  bv_omega

theorem eq_stop_of_slice {mem : Mem} {p stop : Addr} (hp : p ≤ stop) (h : mem.slice p stop = []) :
    p = stop := by
  have hend := not_lt_of_slice h
  bv_omega

theorem cons_of_slice {mem : Mem} {p stop : Addr} {b : Byte} {rest : List Byte}
    (h : mem.slice p stop = b :: rest) : p < stop ∧ mem p = b ∧ mem.slice (p + 1) stop = rest := by
  have hlt : p < stop := by
    by_contra hge
    rw [slice_of_le mem (BitVec.not_lt.mp hge)] at h
    simp at h
  rw [slice_of_lt mem hlt] at h
  exact ⟨hlt, List.cons.inj h⟩

theorem slice_behind {mem : Mem} {p stop : Addr} {b : Byte} {rest left : List Byte}
    (h : mem.slice p stop = b :: rest) (hleft : left <:+ rest) :
    p < cursor stop left ∧ mem.slice (cursor stop left) stop = left := by
  obtain ⟨hlt, -, hrest⟩ := cons_of_slice h
  rw [← hrest] at hleft
  obtain ⟨hslice, hlow, -⟩ := slice_cursor (by bv_omega) hleft
  exact ⟨by bv_omega, hslice⟩

theorem readUleb128Loop_eq {mem : Mem} {stop : Addr} {bytes : List Byte} {fuel : Nat} {p : Addr}
    {result : BitVec 64} {bit : Nat} (hp : p ≤ stop) (hbytes : mem.slice p stop = bytes)
    (hfuel : 63 < bit + 7 * fuel) :
    readUleb128Loop mem stop (fuel + 1) p result bit =
      (ulebLoop bytes result bit >>= fun v => done (v.1, cursor stop v.2)) := by
  induction bytes generalizing fuel p result bit with
  | nil =>
    rw [readUleb128Loop, if_pos (eq_stop_of_slice hp hbytes)]
    rfl
  | cons b bytes ih =>
    obtain ⟨hlt, rfl, hrest⟩ := cons_of_slice hbytes
    have hne : p ≠ stop := by bv_omega
    rw [readUleb128Loop, ulebLoop, if_neg hne]
    split
    · rfl
    · rename_i hbit
      obtain ⟨fuel, rfl⟩ : ∃ k, fuel = k + 1 := ⟨fuel - 1, by omega⟩
      dsimp only
      split
      · exact ih (by bv_omega) hrest (by omega)
      · rw [done_bind, ← hrest, cursor_slice mem (by bv_omega)]

theorem readUleb128_eq {mem : Mem} {p stop : Addr} {bytes : List Byte} (hp : p ≤ stop)
    (hbytes : mem.slice p stop = bytes) :
    readUleb128 mem p stop =
      (operand bytes >>= fun n => done (n, cursor stop (afterOperand bytes))) := by
  unfold readUleb128 operand afterOperand
  rw [readUleb128Loop_eq hp hbytes (by omega)]
  cases ulebLoop bytes 0 0 <;> rfl

theorem readUleb128_next {mem : Mem} {p stop : Addr} {bytes : List Byte} (hp : p ≤ stop)
    (hbytes : mem.slice p stop = bytes) :
    readUleb128 mem (cursor stop (afterOperand bytes)) stop =
      (operand (afterOperand bytes) >>= fun n =>
        done (n, cursor stop (afterOperand (afterOperand bytes)))) := by
  have hsuffix : afterOperand bytes <:+ mem.slice p stop := by
    rw [hbytes]
    exact afterOperand_suffix bytes
  obtain ⟨hslice, -, hle⟩ := slice_cursor hp hsuffix
  exact readUleb128_eq hle hslice

theorem ulebLoop_append {bytes left : List Byte} {result : BitVec 64} {bit : Nat} {n : Word}
    (h : ulebLoop bytes result bit = done (n, left)) (rest : List Byte) :
    ulebLoop (bytes ++ rest) result bit = done (n, left ++ rest) := by
  induction bytes generalizing result bit with
  | nil => simp [ulebLoop] at h
  | cons b bytes ih =>
    rw [List.cons_append]
    unfold ulebLoop at h ⊢
    dsimp only at h ⊢
    split at h
    · simp at h
    rename_i hbit
    rw [if_neg hbit]
    split at h
    · rename_i hmore
      rw [if_pos hmore]
      exact ih h
    · rename_i hlast
      obtain ⟨rfl, rfl⟩ := Prod.mk.inj (done.inj h)
      rw [if_neg hlast]

/-! ## Signed numbers -/

/-- The loop of `read_sleb128`. -/
def slebLoop : List Byte → Word → Nat → Outcome (Word × List Byte)
  | [], _, _ => .halt "malformed sleb128"
  | b :: rest, result, bit =>
    let result := result ||| (b &&& 0x7f).setWidth 32 <<< bit
    let bit := bit + 7
    if b &&& 0x80 ≠ 0 then slebLoop rest result bit
    else if b &&& 0x40 ≠ 0 then .done (result ||| BitVec.allOnes 32 <<< bit, rest)
    else .done (result, rest)

def signedOperand (bytes : List Byte) : Outcome Word := do
  let v ← slebLoop bytes 0 0
  .done v.1

def afterSigned (bytes : List Byte) : List Byte :=
  match slebLoop bytes 0 0 with
  | .done v => v.2
  | _ => []

theorem slebLoop_suffix {bytes rest : List Byte} {result n : Word} {bit : Nat}
    (h : slebLoop bytes result bit = done (n, rest)) : rest <:+ bytes := by
  induction bytes generalizing result bit with
  | nil => simp [slebLoop] at h
  | cons b bytes ih =>
    unfold slebLoop at h
    dsimp only at h
    split at h
    · exact (ih h).trans (List.suffix_cons b bytes)
    split at h
    · obtain ⟨-, rfl⟩ := Prod.mk.inj (done.inj h)
      exact List.suffix_cons b bytes
    · obtain ⟨-, rfl⟩ := Prod.mk.inj (done.inj h)
      exact List.suffix_cons b bytes

theorem afterSigned_suffix (bytes : List Byte) : afterSigned bytes <:+ bytes := by
  unfold afterSigned
  split
  · rename_i v h
    exact slebLoop_suffix h
  · exact List.nil_suffix

theorem readSleb128Loop_eq {mem : Mem} {stop : Addr} {bytes : List Byte} {fuel : Nat} {p : Addr}
    {result : Word} {bit : Nat} (hp : p ≤ stop) (hbytes : mem.slice p stop = bytes)
    (hfuel : bytes.length < fuel) :
    readSleb128Loop mem stop fuel p result bit =
      (slebLoop bytes result bit >>= fun v => done (v.1, cursor stop v.2)) := by
  induction bytes generalizing fuel p result bit with
  | nil =>
    obtain ⟨fuel, rfl⟩ : ∃ k, fuel = k + 1 := ⟨fuel - 1, by simp at hfuel; omega⟩
    rw [readSleb128Loop, if_pos (eq_stop_of_slice hp hbytes)]
    rfl
  | cons b bytes ih =>
    obtain ⟨fuel, rfl⟩ : ∃ k, fuel = k + 1 := ⟨fuel - 1, by simp at hfuel; omega⟩
    rw [List.length_cons] at hfuel
    obtain ⟨hlt, rfl, hrest⟩ := cons_of_slice hbytes
    have hne : p ≠ stop := by bv_omega
    have hend : cursor stop bytes = p + 1 := by rw [← hrest, cursor_slice mem (by bv_omega)]
    rw [readSleb128Loop, slebLoop, if_neg hne]
    dsimp only
    split
    · exact ih (by bv_omega) hrest (by omega)
    split
    · rw [done_bind, hend]
    · rw [done_bind, hend]

theorem readSleb128_eq {mem : Mem} {p stop : Addr} {bytes : List Byte} {fuel : Nat} (hp : p ≤ stop)
    (hbytes : mem.slice p stop = bytes) (hfuel : bytes.length < fuel) :
    readSleb128 fuel mem p stop =
      (signedOperand bytes >>= fun n => done (n, cursor stop (afterSigned bytes))) := by
  unfold readSleb128 signedOperand afterSigned
  rw [readSleb128Loop_eq hp hbytes hfuel]
  cases slebLoop bytes 0 0 <;> rfl

/-! ## Strings -/

theorem nul_free_nil : ∀ b ∈ ([] : List Byte), b ≠ 0 := List.forall_mem_nil _

theorem nul_free_cons (b : Byte) (h : b ≠ 0) (name : CString) : ∀ x ∈ b :: name.bytes, x ≠ 0 :=
  List.forall_mem_cons.mpr ⟨h, name.nul_free⟩

def emptyName : CString := ⟨[], nul_free_nil⟩

def consName (b : Byte) (h : b ≠ 0) (name : CString) : CString :=
  ⟨b :: name.bytes, nul_free_cons b h name⟩

/-- The string at the head of the bytes, and what is left behind its end. -/
def takeName : List Byte → Option (CString × List Byte)
  | [] => none
  | b :: rest =>
    if h : b = 0 then some (emptyName, rest)
    else (takeName rest).map fun v => (consName b h v.1, v.2)

theorem takeName_suffix {bytes rest : List Byte} {name : CString}
    (h : takeName bytes = some (name, rest)) : rest <:+ bytes := by
  induction bytes generalizing name with
  | nil => simp [takeName] at h
  | cons b bytes ih =>
    unfold takeName at h
    split at h
    · obtain ⟨-, rfl⟩ := Prod.mk.inj (Option.some.inj h)
      exact List.suffix_cons b bytes
    · obtain ⟨⟨name', rest'⟩, hname, heq⟩ := Option.map_eq_some_iff.mp h
      obtain ⟨-, rfl⟩ := Prod.mk.inj heq
      exact (ih hname).trans (List.suffix_cons b bytes)

theorem cstringAt_of_takeName {mem : Mem} {p stop : Addr} {bytes rest : List Byte} {name : CString}
    {fuel : Nat} (hbytes : mem.slice p stop = bytes) (h : takeName bytes = some (name, rest))
    (hfuel : bytes.length ≤ fuel) :
    cstringAt mem fuel p = done name ∧
      (skipString mem fuel p >>= fun q => done (q + 1)) = done (cursor stop rest) := by
  induction bytes generalizing p name fuel with
  | nil => simp [takeName] at h
  | cons b bytes ih =>
    obtain ⟨fuel, rfl⟩ : ∃ k, fuel = k + 1 := ⟨fuel - 1, by simp at hfuel; omega⟩
    rw [List.length_cons] at hfuel
    obtain ⟨hlt, rfl, hrest⟩ := cons_of_slice hbytes
    unfold takeName at h
    unfold cstringAt skipString
    split at h
    · rename_i hzero
      obtain ⟨rfl, rfl⟩ := Prod.mk.inj (Option.some.inj h)
      rw [dif_pos hzero, if_neg (not_not.mpr hzero), done_bind, ← hrest,
        cursor_slice mem (by bv_omega)]
      exact ⟨rfl, rfl⟩
    · rename_i hbyte
      obtain ⟨⟨name', rest'⟩, hname, heq⟩ := Option.map_eq_some_iff.mp h
      obtain ⟨rfl, rfl⟩ := Prod.mk.inj heq
      have hfuel : bytes.length ≤ fuel := by omega
      obtain ⟨hstring, hskip⟩ := ih hrest hname hfuel
      rw [dif_neg hbyte, if_pos hbyte, hstring, hskip]
      exact ⟨rfl, rfl⟩

/-! ## Streams -/

section Streams

variable {ι : Type} (op : Byte → List Byte → ι × List Byte)

/-- One instruction after another; `op` decodes the one at a byte and says what is left. The fuel
is the number of bytes: each instruction takes at least one. -/
def decodeLoop : Nat → List Byte → List ι
  | 0, _ => []
  | _, [] => []
  | fuel + 1, b :: rest => (op b rest).1 :: decodeLoop fuel (op b rest).2

def decodeStream (bytes : List Byte) : List ι := decodeLoop op bytes.length bytes

variable {op} (hop : ∀ b rest, (op b rest).2 <:+ rest)

include hop in
theorem decodeLoop_eq {fuel : Nat} {bytes : List Byte} (h : bytes.length ≤ fuel) :
    decodeLoop op fuel bytes = decodeStream op bytes := by
  unfold decodeStream
  induction fuel using Nat.strongRecOn generalizing bytes with
  | ind fuel ih =>
    cases bytes with
    | nil => cases fuel <;> rfl
    | cons b rest =>
      obtain ⟨fuel, rfl⟩ : ∃ k, fuel = k + 1 := ⟨fuel - 1, by simp at h; omega⟩
      rw [List.length_cons] at h ⊢
      have hlen := (hop b rest).length_le
      rw [decodeLoop, decodeLoop, ih fuel (by omega) (by omega),
        ← ih rest.length (by omega) hlen]

include hop in
theorem decodeStream_cons (b : Byte) (rest : List Byte) :
    decodeStream op (b :: rest) = (op b rest).1 :: decodeStream op (op b rest).2 := by
  rw [decodeStream, List.length_cons, decodeLoop, decodeLoop_eq hop (hop b rest).length_le]

end Streams

/-! ## Encodings -/

theorem ulebLoop_of_uleb {bytes : List Byte} {v : Nat} (h : Uleb64 bytes v) :
    ulebLoop bytes 0 0 = done (BitVec.ofNat 32 v, []) := by
  let mem : Mem := fun a => bytes.getD a.toNat 0
  have hlen := h.2
  have hat : ∀ i (hi : i < bytes.length), mem (0 + BitVec.ofNat 32 i) = bytes[i] := by
    intro i hi
    have hmod : (0 + BitVec.ofNat 32 i).toNat = i := by bv_omega
    show bytes.getD (0 + BitVec.ofNat 32 i).toNat 0 = bytes[i]
    rw [hmod]
    simp [hi]
  have hbytes : mem.slice 0 (BitVec.ofNat 32 bytes.length) = bytes := by
    have hlength : (mem.slice 0 (BitVec.ofNat 32 bytes.length)).length = bytes.length := by
      rw [length_slice]
      bv_omega
    refine List.ext_getElem hlength fun i hi hi' => ?_
    simp only [slice, List.getElem_map, List.getElem_range, hat i hi']
  have hholds : mem.Holds 0 bytes := hat
  have hstop : ∀ i < bytes.length, 0 + BitVec.ofNat 32 i ≠ BitVec.ofNat 32 bytes.length :=
    fun i hi => by bv_omega
  have hread := readUleb128_spec h hholds hstop
  unfold readUleb128 at hread
  rw [readUleb128Loop_eq (by bv_omega) hbytes (by omega)] at hread
  obtain ⟨⟨n, rest⟩, hloop, hv⟩ := bind_eq_done.mp hread
  obtain ⟨rfl, hcursor⟩ := Prod.mk.inj (done.inj hv)
  have hsuffix := (ulebLoop_suffix hloop).length_le
  have hnil : rest = [] := by
    refine List.eq_nil_of_length_eq_zero ?_
    unfold cursor at hcursor
    bv_omega
  rw [hloop, hnil]

theorem operand_of_uleb {bytes : List Byte} {v : Nat} (h : Uleb64 bytes v) (rest : List Byte) :
    operand (bytes ++ rest) = done (BitVec.ofNat 32 v) ∧ afterOperand (bytes ++ rest) = rest := by
  have hloop := ulebLoop_append (ulebLoop_of_uleb h) rest
  unfold operand afterOperand
  rw [hloop]
  exact ⟨rfl, rfl⟩

end LibSystem.Lnk
