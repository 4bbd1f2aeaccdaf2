import LibSystem.Lnk.SymbolSearch

/-!
# The bounds of `binary_search_toc`

The search with its table and its comparisons left open. A probe outside of the table is a fault.
-/

namespace LibSystem.Lnk.TocBounds

open Outcome

/-- `toc[mid].symbol_index`, and how `key` compares with the name of `symbols[index]`. -/
structure Table where
  symbolIndex : Word → Word
  compareKey : Word → Ordering

/-- `mid` is an `int32_t`. -/
def Inside (symbolCount mid : Word) : Prop := 0 ≤ mid.toInt ∧ mid.toNat < symbolCount.toNat

instance (symbolCount mid : Word) : Decidable (Inside symbolCount mid) :=
  inferInstanceAs (Decidable (_ ∧ _))

/-- The index of the symbol that was found. The sum of the bounds wraps. -/
def searchLoop (t : Table) (symbolCount : Word) :
    Nat → Word → Word → Word → Outcome (Option Word)
  | 0, _, _, _ => .timeout
  | fuel + 1, low, high, mid =>
    if high.slt low then .done none
    else if ¬ Inside symbolCount mid then .fault
    else
      let index := t.symbolIndex mid
      let cmp := t.compareKey index
      if cmp = .eq then .done (some index)
      else
        let low := if cmp = .gt then mid + 1 else low
        let high := if cmp = .gt then high else mid - 1
        searchLoop t symbolCount fuel low high ((low + high).sdiv 2)

def binarySearchToc (t : Table) (fuel : Nat) (symbolCount hintIndex : Word) :
    Outcome (Option Word) :=
  searchLoop t symbolCount fuel 0 (symbolCount - 1)
    (if symbolCount.sle hintIndex then symbolCount / 2 else hintIndex)

/-- Whatever the table and the key, every probe is inside and the loop ends. -/
def StaysInside (symbolCount hintIndex : Word) : Prop :=
  ∀ t, ∃ fuel r, binarySearchToc t fuel symbolCount hintIndex = .done r

/-! ## Tables in memory -/

section

variable {mem : Mem} {scan : Nat} {key : List Byte} {stringPool symbols toc : Addr}
  {compareKey : Word → Ordering} {symbolCount : Word} {fuel : Nat} {low high mid : Word}

theorem searchLoop_memory
    (hcmp : ∀ index, strcmp mem scan key (stringPool + mem.load (symbols + 12 * index)) =
      .done (compareKey index)) {r : Option Word}
    (h : searchLoop ⟨fun mid => mem.load (toc + 8 * mid), compareKey⟩ symbolCount fuel low high
      mid = .done r) :
    binarySearchTocLoop mem scan key stringPool symbols toc fuel low high mid =
      .done (r.elim 0 fun index => symbols + 12 * index) := by
  induction fuel generalizing low high mid with
  | zero => simp [searchLoop] at h
  | succ fuel ih =>
    unfold searchLoop at h
    unfold binarySearchTocLoop
    split at h
    · rename_i hempty
      obtain rfl := done.inj h
      rw [if_pos hempty]
      rfl
    rename_i hlive
    rw [if_neg hlive]
    split at h
    · simp at h
    dsimp only at h ⊢
    rw [hcmp, done_bind]
    split at h
    · rename_i heq
      obtain rfl := done.inj h
      rw [if_pos heq]
      rfl
    · rename_i hne
      rw [if_neg hne]
      exact ih h

theorem searchLoop_memory_fault
    (hcmp : ∀ index, strcmp mem scan key (stringPool + mem.load (symbols + 12 * index)) =
      .done (compareKey index))
    (h : searchLoop ⟨fun mid => mem.load (toc + 8 * mid), compareKey⟩ symbolCount fuel low high
      mid = .fault) :
    ∃ n low' high' mid', ¬ high'.slt low' ∧ ¬ Inside symbolCount mid' ∧
      binarySearchTocLoop mem scan key stringPool symbols toc fuel low high mid =
        binarySearchTocLoop mem scan key stringPool symbols toc (n + 1) low' high' mid' := by
  induction fuel generalizing low high mid with
  | zero => simp [searchLoop] at h
  | succ fuel ih =>
    unfold searchLoop at h
    split at h
    · simp at h
    rename_i hlive
    split at h
    · rename_i hout
      exact ⟨fuel, low, high, mid, hlive, hout, rfl⟩
    dsimp only at h
    split at h
    · simp at h
    rename_i hne
    obtain ⟨n, low', high', mid', hlive', hout, hgoes⟩ := ih h
    refine ⟨n, low', high', mid', hlive', hout, ?_⟩
    rw [← hgoes, binarySearchTocLoop, if_neg hlive]
    dsimp only
    rw [hcmp, done_bind, if_neg hne]

end

/-! ## Small tables -/

section

variable {t : Table} {symbolCount low high mid : Word} {fuel lo hi : Nat}

theorem searchLoop_empty (h : high.slt low) : searchLoop t symbolCount (fuel + 1) low high mid =
    .done none := if_pos h

theorem searchLoop_eq (hlive : ¬ high.slt low) (hin : Inside symbolCount mid)
    (heq : t.compareKey (t.symbolIndex mid) = .eq) :
    searchLoop t symbolCount (fuel + 1) low high mid = .done (some (t.symbolIndex mid)) := by
  simp only [searchLoop, if_neg hlive, if_neg (not_not.mpr hin), heq, if_true]

theorem searchLoop_gt (hlive : ¬ high.slt low) (hin : Inside symbolCount mid)
    (hgt : t.compareKey (t.symbolIndex mid) = .gt) :
    searchLoop t symbolCount (fuel + 1) low high mid =
      searchLoop t symbolCount fuel (mid + 1) high ((mid + 1 + high).sdiv 2) := by
  simp [searchLoop, hlive, hin, hgt]

theorem searchLoop_lt (hlive : ¬ high.slt low) (hin : Inside symbolCount mid)
    (hlt : t.compareKey (t.symbolIndex mid) = .lt) :
    searchLoop t symbolCount (fuel + 1) low high mid =
      searchLoop t symbolCount fuel low (mid - 1) ((low + (mid - 1)).sdiv 2) := by
  simp [searchLoop, hlive, hin, hlt]

theorem inside_ofInt {m : Nat} (h : m < symbolCount.toNat) (hm : m < 2 ^ 31) :
    Inside symbolCount (BitVec.ofInt 32 m) := by
  constructor
  · rw [toInt_ofInt_small (by omega) (by omega)]
    omega
  · rw [BitVec.ofInt_natCast, BitVec.toNat_ofNat]
    omega

theorem searchLoop_done (t : Table) (hhi : hi ≤ 2 ^ 30) (hlo : lo ≤ hi)
    (hcount : hi ≤ symbolCount.toNat)
    (hmid : lo < hi → ∃ m : Nat, mid = BitVec.ofInt 32 m ∧ lo ≤ m ∧ m < hi)
    (hfuel : hi - lo < fuel) :
    ∃ r, searchLoop t symbolCount fuel (BitVec.ofInt 32 lo) (BitVec.ofInt 32 (hi - 1)) mid =
      .done r := by
  induction fuel generalizing lo hi mid with
  | zero => omega
  | succ fuel ih =>
    rcases Nat.lt_or_ge lo hi with hlt | hge
    · obtain ⟨m, rfl, hlom, hmhi⟩ := hmid hlt
      have habove : BitVec.ofInt 32 m + 1 = BitVec.ofInt 32 (m + 1 : Nat) := by
        rw [Int.natCast_add, BitVec.ofInt_add]
        rfl
      have hlive : ¬ (BitVec.ofInt 32 (hi - 1)).slt (BitVec.ofInt 32 lo) :=
        mt (slt_iff_empty (by omega) hhi).mp (by omega)
      have hin : Inside symbolCount (BitVec.ofInt 32 m) := inside_ofInt (by omega) (by omega)
      cases hcmp : t.compareKey (t.symbolIndex (BitVec.ofInt 32 m)) with
      | eq => exact ⟨_, searchLoop_eq hlive hin hcmp⟩
      | gt =>
        rw [searchLoop_gt hlive hin hcmp, habove]
        exact ih hhi (by omega) hcount (sdiv_half hhi) (by omega)
      | lt =>
        rw [searchLoop_lt hlive hin hcmp, ofInt_pred]
        exact ih (by omega) hlom (by omega) (sdiv_half (by omega)) (by omega)
    · exact ⟨none, searchLoop_empty ((slt_iff_empty (by omega) hhi).mpr hge)⟩

end

theorem stays_of_empty {symbolCount : Word} (hintIndex : Word)
    (h : symbolCount.toNat = 0 ∨ 2 ^ 31 < symbolCount.toNat) :
    StaysInside symbolCount hintIndex := by
  have hempty : (symbolCount - 1).slt 0 := by
    rw [BitVec.slt_iff_toInt_lt, BitVec.toInt_eq_toNat_cond]
    have hzero : (0 : Word).toInt = 0 := rfl
    rw [hzero]
    split <;> bv_omega
  exact fun t => ⟨1, none, searchLoop_empty hempty⟩

theorem ofNat_toNat_pred (symbolCount : Word) :
    symbolCount - 1 = BitVec.ofInt 32 (symbolCount.toNat - 1) := by
  rw [← ofInt_pred, BitVec.ofInt_natCast, BitVec.ofNat_toNat, BitVec.setWidth_eq]

theorem first_inside {symbolCount hintIndex : Word} (hcount : symbolCount.toNat < 2 ^ 31)
    (hhint : hintIndex.toNat < 2 ^ 31) (hpos : 0 < symbolCount.toNat) :
    ∃ m : Nat, (if symbolCount.sle hintIndex then symbolCount / 2 else hintIndex) =
      BitVec.ofInt 32 m ∧ 0 ≤ m ∧ m < symbolCount.toNat := by
  simpa using first_probe hcount hintIndex hhint hpos

theorem stays_of_small {symbolCount hintIndex : Word} (hcount : symbolCount.toNat ≤ 2 ^ 30)
    (hhint : hintIndex.toNat < 2 ^ 31) : StaysInside symbolCount hintIndex := by
  intro t
  obtain ⟨r, hr⟩ := searchLoop_done t hcount (Nat.zero_le _) (Nat.le_refl _)
    (first_inside (by omega) hhint) (Nat.lt_succ_self _)
  rw [← ofNat_toNat_pred] at hr
  exact ⟨_, r, hr⟩

theorem stays_of_last : StaysInside 0x40000001 0x40000000 := by
  intro t
  obtain ⟨r, hr⟩ := @searchLoop_done 0x40000001 _ (2 ^ 30 + 1) 0 (2 ^ 30) t (Nat.le_refl _)
    (Nat.zero_le _) (by decide) (sdiv_half (Nat.le_refl _)) (Nat.lt_succ_self _)
  have hlive : ¬ (0x40000000 : Word).slt 0 := by decide
  have hin : Inside 0x40000001 0x40000000 := by decide
  refine ⟨2 ^ 30 + 2, ?_⟩
  unfold binarySearchToc
  rw [if_neg (by decide), show (0x40000001 - 1 : Word) = 0x40000000 by decide]
  cases hcmp : t.compareKey (t.symbolIndex 0x40000000) with
  | eq => exact ⟨_, searchLoop_eq hlive hin hcmp⟩
  | gt =>
    rw [searchLoop_gt hlive hin hcmp]
    exact ⟨none, searchLoop_empty (by decide)⟩
  | lt =>
    rw [searchLoop_lt hlive hin hcmp]
    exact ⟨r, hr⟩

/-! ## Large tables and negative hints -/

/-- The key is behind every entry but the last one. -/
def beforeLast (symbolCount : Word) : Table where
  symbolIndex := id
  compareKey index := if index = symbolCount - 1 then .lt else .gt

section

variable {symbolCount low high : Word}

theorem searchLoop_negative (t : Table) {mid : Word} (hlive : ¬ high.slt low) (hmid : mid.toInt < 0)
    (fuel : Nat) : searchLoop t symbolCount (fuel + 1) low high mid = .fault := by
  have hout : ¬ Inside symbolCount mid := fun hin => by
    have := hin.1
    omega
  rw [searchLoop, if_neg hlive, if_pos hout]

theorem half_of_fits {x : Word} (h : x.toNat < 2 ^ 31) : (x.sdiv 2).toNat = x.toNat / 2 := by
  have hx : x.msb = false := BitVec.msb_eq_false_iff_two_mul_lt.mpr (by omega)
  have htwo : (2 : Word).msb = false := rfl
  rw [BitVec.sdiv_eq, hx, htwo]
  rfl

theorem half_of_wraps {x : Word} (h : 2 ^ 31 ≤ x.toNat) (h' : x.toNat < 2 ^ 32 - 1) :
    (x.sdiv 2).toInt < 0 := by
  have hx : x.toInt = x.toNat - (2 ^ 32 : Nat) := by
    rw [BitVec.toInt_eq_toNat_cond, if_neg (by omega)]
  have htwo : (2 : Word).toInt = 2 := rfl
  have hdiv : x.toInt.tdiv 2 = -((2 ^ 32 - x.toNat) / 2 : Nat) := by
    rw [hx, show (x.toNat - (2 ^ 32 : Nat) : Int) = -((2 ^ 32 - x.toNat : Nat) : Int) by omega,
      Int.neg_tdiv, Int.tdiv_eq_ediv_of_nonneg (by omega)]
    omega
  rw [BitVec.toInt_sdiv, htwo, hdiv, Int.bmod_eq_of_le (by omega) (by omega)]
  omega

theorem not_slt {low high : Word} (hle : low.toNat ≤ high.toNat) (hhigh : high.toNat < 2 ^ 31) :
    ¬ high.slt low := by
  rw [BitVec.slt_iff_toInt_lt, BitVec.toInt_eq_toNat_of_lt (by omega),
    BitVec.toInt_eq_toNat_of_lt (by omega)]
  omega

/-- Going up, the lower bound reaches the upper one, unless the sum of both wraps before. -/
theorem searchLoop_wraps (hle : low.toNat ≤ high.toNat) (hhigh : high.toNat < 2 ^ 31)
    (hwide : 2 ^ 31 ≤ 2 * high.toNat) (hcount : high.toNat < symbolCount.toNat) (fuel : Nat)
    (r : Option Word) :
    searchLoop (beforeLast symbolCount) symbolCount fuel low high ((low + high).sdiv 2) ≠
      .done r := by
  induction fuel generalizing low with
  | zero => simp [searchLoop]
  | succ fuel ih =>
    have hsum : (low + high).toNat = low.toNat + high.toNat := by bv_omega
    rcases Nat.lt_or_ge (low.toNat + high.toNat) (2 ^ 31) with hfits | hwraps
    · have hhalf : ((low + high).sdiv 2).toNat = (low.toNat + high.toNat) / 2 := by
        rw [half_of_fits (by omega), hsum]
      generalize (low + high).sdiv 2 = mid at hhalf ⊢
      have hin : Inside symbolCount mid := by
        refine ⟨?_, by omega⟩
        rw [BitVec.toInt_eq_toNat_of_lt (by omega)]
        omega
      have hgt : (beforeLast symbolCount).compareKey mid = .gt := by
        refine if_neg fun hlast => ?_
        bv_omega
      rw [searchLoop_gt (not_slt hle hhigh) hin hgt]
      exact ih (by bv_omega)
    · rw [searchLoop_negative _ (not_slt hle hhigh) (half_of_wraps (by omega) (by omega))]
      simp

theorem searchLoop_leaves {mid : Word} (hmid : mid.toNat < symbolCount.toNat)
    (hcount : 2 ^ 30 < symbolCount.toNat) (hcount' : symbolCount.toNat ≤ 2 ^ 31)
    (hlast : mid.toNat = symbolCount.toNat - 1 → 2 ^ 30 + 1 < symbolCount.toNat) (fuel : Nat)
    (r : Option Word) :
    searchLoop (beforeLast symbolCount) symbolCount fuel 0 (symbolCount - 1) mid ≠ .done r := by
  cases fuel with
  | zero => simp [searchLoop]
  | succ fuel =>
    have hlive : ¬ (symbolCount - 1).slt 0 := not_slt (by simp) (by bv_omega)
    have hin : Inside symbolCount mid := by
      refine ⟨?_, hmid⟩
      rw [BitVec.toInt_eq_toNat_of_lt (by omega)]
      omega
    rcases Decidable.em (mid = symbolCount - 1) with rfl | hne
    · have hlt : (beforeLast symbolCount).compareKey (symbolCount - 1) = .lt := if_pos rfl
      rw [searchLoop_lt hlive hin hlt]
      have hwide := hlast (by bv_omega)
      exact searchLoop_wraps (by simp) (by bv_omega) (by bv_omega) (by bv_omega) fuel r
    · have hgt : (beforeLast symbolCount).compareKey mid = .gt := if_neg hne
      rw [searchLoop_gt hlive hin hgt]
      exact searchLoop_wraps (by bv_omega) (by bv_omega) (by bv_omega) (by bv_omega) fuel r

end

theorem leaves_of_hint {symbolCount hintIndex : Word} (hpos : 0 < symbolCount.toNat)
    (hcount : symbolCount.toNat < 2 ^ 31) (hhint : 2 ^ 31 ≤ hintIndex.toNat) :
    ¬ StaysInside symbolCount hintIndex := by
  have hnegative : hintIndex.toInt < 0 := by
    rw [BitVec.toInt_eq_toNat_cond]
    split <;> omega
  have hbelow : ¬ symbolCount.sle hintIndex := by
    rw [BitVec.sle_iff_toInt_le, BitVec.toInt_eq_toNat_of_lt (by omega)]
    omega
  intro hstays
  obtain ⟨fuel, r, hr⟩ := hstays (beforeLast symbolCount)
  unfold binarySearchToc at hr
  rw [if_neg hbelow] at hr
  cases fuel with
  | zero => simp [searchLoop] at hr
  | succ fuel =>
    rw [searchLoop_negative _ (not_slt (by simp) (by bv_omega)) hnegative] at hr
    simp at hr

theorem leaves_of_large {symbolCount hintIndex : Word} (hcount : 2 ^ 30 < symbolCount.toNat)
    (hcount' : symbolCount.toNat ≤ 2 ^ 31)
    (hhint : symbolCount.toNat = 2 ^ 31 ∨ hintIndex.toNat < 2 ^ 31)
    (hlast : symbolCount.toNat = 2 ^ 30 + 1 → hintIndex.toNat ≠ 2 ^ 30) :
    ¬ StaysInside symbolCount hintIndex := by
  intro hstays
  obtain ⟨fuel, r, hr⟩ := hstays (beforeLast symbolCount)
  unfold binarySearchToc at hr
  split at hr
  · have hhalf : (symbolCount / 2).toNat = symbolCount.toNat / 2 := BitVec.toNat_udiv
    exact searchLoop_leaves (by omega) hcount hcount' (by omega) fuel r hr
  · rename_i hbelow
    rw [BitVec.sle_iff_toInt_le, BitVec.toInt_eq_toNat_cond, BitVec.toInt_eq_toNat_cond] at hbelow
    refine searchLoop_leaves ?_ hcount hcount' ?_ fuel r hr
    all_goals split at hbelow <;> split at hbelow <;> omega

/-- **The search stays inside exactly for an empty table and, if the hint is not negative, for a
table whose bounds have sums that fit.** A count above `2 ^ 31` makes it look empty. -/
theorem staysInside_iff (symbolCount hintIndex : Word) :
    StaysInside symbolCount hintIndex ↔
      symbolCount.toNat = 0 ∨ 2 ^ 31 < symbolCount.toNat ∨
        (hintIndex.toNat < 2 ^ 31 ∧
          (symbolCount.toNat ≤ 2 ^ 30 ∨
            (symbolCount.toNat = 2 ^ 30 + 1 ∧ hintIndex.toNat = 2 ^ 30))) := by
  constructor
  · intro hstays
    by_contra hno
    have hsplit : (0 < symbolCount.toNat ∧ symbolCount.toNat < 2 ^ 31 ∧ 2 ^ 31 ≤ hintIndex.toNat) ∨
        (2 ^ 30 < symbolCount.toNat ∧ symbolCount.toNat ≤ 2 ^ 31 ∧
          (symbolCount.toNat = 2 ^ 31 ∨ hintIndex.toNat < 2 ^ 31) ∧
          (symbolCount.toNat = 2 ^ 30 + 1 → hintIndex.toNat ≠ 2 ^ 30)) := by omega
    rcases hsplit with ⟨hpos, hcount, hhint⟩ | ⟨hcount, hcount', hhint, hlast⟩
    · exact leaves_of_hint hpos hcount hhint hstays
    · exact leaves_of_large hcount hcount' hhint hlast hstays
  · rintro (hzero | hover | ⟨hhint, hsmall | ⟨hcount, hlast⟩⟩)
    · exact stays_of_empty hintIndex (.inl hzero)
    · exact stays_of_empty hintIndex (.inr hover)
    · exact stays_of_small hsmall hhint
    · obtain rfl : symbolCount = 0x40000001 := BitVec.eq_of_toNat_eq hcount
      obtain rfl : hintIndex = 0x40000000 := BitVec.eq_of_toNat_eq hlast
      exact stays_of_last

/-- One entry, and a hint that is negative as an `int32_t`. -/
theorem leaves_one : ¬ StaysInside 1 0x80000000 :=
  leaves_of_hint (by decide) (by decide) (by decide)

end LibSystem.Lnk.TocBounds
