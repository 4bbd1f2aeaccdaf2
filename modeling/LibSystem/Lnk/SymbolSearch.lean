import LibSystem.SortedSearch
import LibSystem.Lnk.LookupProgram
import LibSystem.Lnk.ExportTrie
import Mathlib.Order.Compare
import Mathlib.Data.List.Lex
import Mathlib.Algebra.Order.BigOperators.Group.List

/-!
# The classic symbol searches are exact

`binary_search` halves a count over a base that moves, `binary_search_toc` keeps two signed
indices and lets a hint choose its first probe. On sorted names both find the one entry with the
name, and look at nothing but entries of their array and the names of these.
-/

namespace LibSystem

/-- The order of `strcmp`: the first byte that differs decides, as an unsigned number. -/
instance : Preorder CString := Preorder.lift fun s => s.bytes.map BitVec.toNat

namespace Access

open Lnk

variable {τ : Type} {S : Addr → Prop} {mem : Mem} {a : Addr} {r : τ}

theorem Finds.byte {next : Byte → Program τ} (ha : S a)
    (h : Finds S (next (mem a)) mem r) : Finds S (Program.byte a >>= next) mem r := .look ha h

theorem Finds.load {next : Word → Program τ} (ha : ∀ x, Mem.InWord a x → S x)
    (h : Finds S (next (mem.load a)) mem r) : Finds S (Program.load a >>= next) mem r := by
  refine .look (ha _ ?_) (.look (ha _ ?_) (.look (ha _ ?_) (.look (ha _ ?_) h)))
  all_goals
    unfold Mem.InWord
    bv_omega

end Access

namespace Lnk

open Outcome Access

/-! ## Comparing names -/

/-- The C string `name` stands at `a`. -/
def NameAt (mem : Mem) (a : Addr) (name : CString) : Prop := mem.Holds a (name.bytes ++ [0])

/-- `x` is a byte of a string of this length at `a`, or its terminator. -/
def InName (a : Addr) (length : Nat) (x : Addr) : Prop := ∃ i ≤ length, x = a + BitVec.ofNat 32 i

theorem inName_start (a : Addr) (length : Nat) : InName a length a := ⟨0, by omega, by simp⟩

theorem InName.next {a x : Addr} {length : Nat} (h : InName (a + 1) length x) :
    InName a (length + 1) x := by
  obtain ⟨i, hi, rfl⟩ := h
  exact ⟨i + 1, by omega, by rw [Mem.ofNat_succ, BitVec.add_assoc]⟩

theorem compares_cons {cmp : Ordering} {l m : List Nat} (n : Nat) (h : cmp.Compares l m) :
    cmp.Compares (n :: l) (n :: m) := by
  cases cmp with
  | lt => exact List.cons_lt_cons_iff.mpr (Or.inr ⟨rfl, h⟩)
  | eq => exact congrArg (n :: ·) h
  | gt => exact List.cons_lt_cons_iff.mpr (Or.inr ⟨rfl, h⟩)

theorem compares_of_ne {n k : Nat} (l m : List Nat) (h : n ≠ k) :
    (compare n k).Compares (n :: l) (k :: m) := by
  rcases Nat.lt_or_gt_of_ne h with hlt | hgt
  · rw [Nat.compare_eq_lt.mpr hlt]
    exact List.cons_lt_cons_iff.mpr (Or.inl hlt)
  · rw [Nat.compare_eq_gt.mpr hgt]
    exact List.cons_lt_cons_iff.mpr (Or.inl hgt)

theorem toNat_ne {a b : Byte} (h : a ≠ b) : a.toNat ≠ b.toNat :=
  fun heq => h (BitVec.eq_of_toNat_eq heq)

/-- `strcmp` compares as the lists of the bytes do, and does not read past the terminators. -/
theorem finds_strcmp {mem : Mem} (name key : List Byte) (hname : ∀ b ∈ name, b ≠ 0)
    (hkey : ∀ b ∈ key, b ≠ 0) (p : Addr) (hmem : mem.Holds p (name ++ [0])) {scan : Nat}
    (hscan : name.length < scan) :
    ∃ cmp, Access.Finds (InName p name.length) (Program.strcmp scan key p) mem cmp ∧
      cmp.Compares (key.map BitVec.toNat) (name.map BitVec.toNat) := by
  obtain ⟨scan, rfl⟩ : ∃ k, scan = k + 1 := ⟨scan - 1, by omega⟩
  induction name generalizing key p scan with
  | nil =>
    have h0 : mem p = 0 := (Mem.holds_cons.mp hmem).1
    cases key with
    | nil =>
      refine ⟨.eq, .byte (inName_start p _) ?_, rfl⟩
      rw [h0, if_neg (by simp [charAt]), if_pos rfl]
      exact .pure _
    | cons k key =>
      have hk : k ≠ 0 := hkey k (by simp)
      refine ⟨compare k.toNat 0, .byte (inName_start p _) ?_, ?_⟩
      · rw [h0, if_pos (by simpa [charAt] using hk)]
        exact .pure _
      · rw [Nat.compare_eq_gt.mpr (Nat.pos_of_ne_zero (toNat_ne hk))]
        exact List.nil_lt_cons _ _
  | cons b name ih =>
    obtain ⟨hp, hrest⟩ := Mem.holds_cons.mp hmem
    have hb : b ≠ 0 := hname b (by simp)
    cases key with
    | nil =>
      refine ⟨compare 0 b.toNat, .byte (inName_start p _) ?_, ?_⟩
      · rw [hp, if_pos (by simpa [charAt] using hb.symm)]
        exact .pure _
      · rw [Nat.compare_eq_lt.mpr (Nat.pos_of_ne_zero (toNat_ne hb))]
        exact List.nil_lt_cons _ _
    | cons k key =>
      by_cases hkb : k = b
      · subst hkb
        obtain ⟨scan, rfl⟩ : ∃ j, scan = j + 1 := ⟨scan - 1, by simp at hscan; omega⟩
        obtain ⟨cmp, hfinds, hcmp⟩ := ih key (fun x hx => hname x (by simp [hx]))
          (fun x hx => hkey x (by simp [hx])) (p + 1) hrest scan (by simpa using hscan)
        refine ⟨cmp, .byte (inName_start p _) ?_, compares_cons _ hcmp⟩
        rw [hp, if_neg (by simp [charAt]), if_neg hb]
        exact hfinds.mono fun _ => InName.next
      · refine ⟨compare k.toNat b.toNat, .byte (inName_start p _) ?_,
          compares_of_ne _ _ (toNat_ne hkb)⟩
        rw [hp, if_pos (by simpa [charAt] using hkb)]
        exact .pure _

theorem compares_names {cmp : Ordering} {key name : CString}
    (h : cmp.Compares (key.bytes.map BitVec.toNat) (name.bytes.map BitVec.toNat)) :
    cmp.Compares key name := by
  cases cmp with
  | lt => exact h
  | eq =>
    have hinj : Function.Injective (fun b : Byte => b.toNat) := fun _ _ => BitVec.eq_of_toNat_eq
    exact CString.bytes_injective (hinj.list_map h)
  | gt => exact h

/-! ## Sorted entries -/

/-- `entry i` is the address of a `struct nlist` with the name `names[i]`. The names are strictly
sorted. -/
structure SortedSymbols (mem : Mem) (stringPool : Addr) (entry : Nat → Addr)
    (names : List CString) : Prop where
  fewer : names.length < 2 ^ 30
  nonnull : ∀ i < names.length, entry i ≠ 0
  named : ∀ i (h : i < names.length), NameAt mem (stringPool + mem.load (entry i)) names[i]
  sorted : names.Pairwise (· < ·)

/-- `x` is a byte of an entry's `n_strx`, or of its name. -/
def EntryByte (mem : Mem) (stringPool : Addr) (entry : Nat → Addr) (names : List CString)
    (x : Addr) : Prop :=
  ∃ i, ∃ h : i < names.length, Mem.InWord (entry i) x ∨
    InName (stringPool + mem.load (entry i)) names[i].bytes.length x

/-- `r` is the entry named `key`, and null exactly when there is none. -/
structure Exact (entry : Nat → Addr) (names : List CString) (key : CString) (r : Addr) : Prop where
  found : ∀ i (h : i < names.length), names[i] = key → r = entry i
  null_iff : r = 0 ↔ key ∉ names

section Search

variable {mem : Mem} {stringPool : Addr} {entry : Nat → Addr} {names : List CString} {key : CString}
  {r : Addr} {lo hi mid : Nat} {scan fuel : Nat} {S : Addr → Prop}

theorem Exact.unique {r' : Addr} (h : Exact entry names key r) (h' : Exact entry names key r') :
    r = r' := by
  by_cases hmem : key ∈ names
  · obtain ⟨i, hi, heq⟩ := List.mem_iff_getElem.mp hmem
    rw [h.found i hi heq, h'.found i hi heq]
  · rw [h.null_iff.mpr hmem, h'.null_iff.mpr hmem]

namespace SortedSymbols

theorem exact_hit (h : SortedSymbols mem stringPool entry names) (hmid : mid < names.length)
    (heq : key = names[mid]) : Exact entry names key (entry mid) := by
  refine ⟨fun i hi hkey => ?_, iff_of_false (h.nonnull mid hmid) ?_⟩
  · rw [getElem_inj_of_sorted h.sorted hi hmid (hkey.trans heq)]
  · rw [heq]
    exact not_not.mpr (List.getElem_mem hmid)

theorem exact_miss (hwin : Window names key lo hi) (hempty : hi ≤ lo) : Exact entry names key 0 :=
  ⟨fun _ hi heq => absurd (heq ▸ List.getElem_mem hi) (hwin.not_mem hempty),
    iff_of_true rfl (hwin.not_mem hempty)⟩

theorem probe (h : SortedSymbols mem stringPool entry names) (hmid : mid < names.length)
    (hscan : ∀ name ∈ names, name.bytes.length < scan)
    (hS : ∀ x, EntryByte mem stringPool entry names x → S x) {next : Ordering → Program Addr}
    (hnext : ∀ cmp, cmp.Compares key names[mid] →
      ∃ r, Access.Finds S (next cmp) mem r ∧ Exact entry names key r) :
    ∃ r, Access.Finds S (do
        let strx ← Program.load (entry mid)
        let cmp ← Program.strcmp scan key.bytes (stringPool + strx)
        next cmp) mem r ∧ Exact entry names key r := by
  obtain ⟨cmp, hfinds, hcmp⟩ := finds_strcmp names[mid].bytes key.bytes names[mid].nul_free
    key.nul_free _ (h.named mid hmid) (hscan _ (List.getElem_mem hmid))
  obtain ⟨r, hr, hexact⟩ := hnext cmp (compares_names hcmp)
  refine ⟨r, .load (fun x hx => hS x ⟨mid, hmid, Or.inl hx⟩) ?_, hexact⟩
  exact .bind (hfinds.mono fun x hx => hS x ⟨mid, hmid, Or.inr hx⟩) hr

end SortedSymbols

/-! ## `binary_search` -/

def nlistAt (symbols : Addr) (i : Nat) : Addr := symbols + 12 * BitVec.ofNat 32 i

theorem nlistAt_add (symbols : Addr) (i k : Nat) :
    nlistAt symbols i + 12 * BitVec.ofNat 32 k = nlistAt symbols (i + k) := by
  rw [nlistAt, nlistAt, BitVec.add_assoc, BitVec.ofNat_add, BitVec.mul_add]

theorem ofNat_half (n : Nat) (hn : n < 2 ^ 32) :
    BitVec.ofNat 32 n / 2 = BitVec.ofNat 32 (n / 2) := by
  apply BitVec.eq_of_toNat_eq
  rw [BitVec.toNat_udiv, BitVec.toNat_ofNat, BitVec.toNat_ofNat, Nat.mod_eq_of_lt (by omega),
    Nat.mod_eq_of_lt (by omega)]
  rfl

theorem ofNat_pred (n : Nat) (hn : 0 < n) : BitVec.ofNat 32 n - 1 = BitVec.ofNat 32 (n - 1) := by
  obtain ⟨n, rfl⟩ : ∃ k, n = k + 1 := ⟨n - 1, by omega⟩
  rw [Mem.ofNat_succ, BitVec.add_comm, BitVec.add_sub_cancel, Nat.add_sub_cancel]

theorem finds_binarySearchLoop {symbols : Addr}
    (h : SortedSymbols mem stringPool (nlistAt symbols) names)
    (hscan : ∀ name ∈ names, name.bytes.length < scan) (n : Nat)
    (hwin : Window names key lo (lo + n)) (hin : lo + n ≤ names.length) (hfuel : n < fuel) :
    ∃ r, Access.Finds (EntryByte mem stringPool (nlistAt symbols) names)
        (Program.binarySearchLoop scan key.bytes stringPool fuel (nlistAt symbols lo)
          (BitVec.ofNat 32 n)) mem r ∧
      Exact (nlistAt symbols) names key r := by
  have hfewer := h.fewer
  induction fuel generalizing lo n with
  | zero => omega
  | succ fuel ih =>
    unfold Program.binarySearchLoop
    by_cases hn : n = 0
    · rw [if_pos (by simp [hn])]
      exact ⟨0, .pure _, SortedSymbols.exact_miss hwin (by omega)⟩
    · have hn0 : BitVec.ofNat 32 n ≠ 0 := ofNat_ne_zero n hn (by omega)
      have hmid : lo + n / 2 < names.length := by omega
      rw [if_neg hn0, ofNat_pred n (by omega), ofNat_half n (by omega),
        ofNat_half (n - 1) (by omega)]
      dsimp only
      rw [nlistAt_add]
      refine h.probe hmid hscan (fun _ hx => hx) fun cmp hcmp => ?_
      cases cmp with
      | eq =>
        rw [if_pos rfl]
        exact ⟨_, .pure _, h.exact_hit hmid hcmp⟩
      | gt =>
        rw [if_neg (by simp), if_pos rfl,
          show nlistAt symbols (lo + n / 2) + 12 = nlistAt symbols (lo + n / 2 + 1) from
            nlistAt_add symbols _ 1]
        refine ih ((n - 1) / 2) ?_ (by omega) (by omega)
        have habove := hwin.above h.sorted hmid hcmp
        rwa [show lo + n = lo + n / 2 + 1 + (n - 1) / 2 by omega] at habove
      | lt =>
        rw [if_neg (by simp), if_neg (by simp)]
        exact ih (n / 2) (hwin.below h.sorted hmid hcmp) (by omega) (by omega)

/-! ## `binary_search_toc` -/

/-- The symbol that the `j`th entry of the table of contents lists. -/
def tocSymbol (mem : Mem) (symbols toc : Addr) (j : Nat) : Addr :=
  symbols + 12 * mem.load (toc + 8 * BitVec.ofNat 32 j)

/-- The search also reads the `symbol_index` of the table's own entries. -/
def TocByte (mem : Mem) (stringPool symbols toc : Addr) (names : List CString) (x : Addr) : Prop :=
  (∃ j < names.length, Mem.InWord (toc + 8 * BitVec.ofNat 32 j) x) ∨
    EntryByte mem stringPool (tocSymbol mem symbols toc) names x

theorem toInt_ofInt_small {x : Int} (h : -2 ^ 30 ≤ x) (h' : x < 2 ^ 31) :
    (BitVec.ofInt 32 x).toInt = x :=
  BitVec.toInt_ofInt_eq_self (by omega) (by omega) (by omega)

theorem ofInt_pred (x : Int) : BitVec.ofInt 32 x - 1 = BitVec.ofInt 32 (x - 1) := by
  rw [BitVec.sub_eq_add_neg, Int.sub_eq_add_neg, BitVec.ofInt_add]
  rfl

theorem slt_iff_empty {lo hi : Nat} (hlo : lo ≤ 2 ^ 30) (hhi : hi ≤ 2 ^ 30) :
    (BitVec.ofInt 32 (hi - 1)).slt (BitVec.ofInt 32 lo) ↔ hi ≤ lo := by
  rw [BitVec.slt_iff_toInt_lt, toInt_ofInt_small (by omega) (by omega),
    toInt_ofInt_small (by omega) (by omega)]
  omega

theorem sdiv_half {lo hi : Nat} (hhi : hi ≤ 2 ^ 30) (hlt : lo < hi) :
    ∃ m : Nat, (BitVec.ofInt 32 lo + BitVec.ofInt 32 (hi - 1)).sdiv 2 = BitVec.ofInt 32 m ∧
      lo ≤ m ∧ m < hi := by
  refine ⟨(lo + (hi - 1)) / 2, ?_, by omega, by omega⟩
  have hsum : (lo : Int) + (hi - 1) = ((lo + (hi - 1) : Nat) : Int) := by omega
  have htwo : (2 : Word).toInt = 2 := rfl
  apply BitVec.eq_of_toInt_eq
  rw [← BitVec.ofInt_add, hsum, BitVec.toInt_sdiv, toInt_ofInt_small (by omega) (by omega), htwo,
    Int.tdiv_eq_ediv_of_nonneg (by omega), toInt_ofInt_small (by omega) (by omega),
    Int.bmod_eq_of_le (by omega) (by omega)]
  rfl

theorem SortedSymbols.probe_toc {symbols toc : Addr}
    (h : SortedSymbols mem stringPool (tocSymbol mem symbols toc) names) (hmid : mid < names.length)
    (hscan : ∀ name ∈ names, name.bytes.length < scan) {next : Word → Ordering → Program Addr}
    (hnext : ∀ cmp, cmp.Compares key names[mid] →
      ∃ r, Access.Finds (TocByte mem stringPool symbols toc names)
        (next (mem.load (toc + 8 * BitVec.ofNat 32 mid)) cmp) mem r ∧
        Exact (tocSymbol mem symbols toc) names key r) :
    ∃ r, Access.Finds (TocByte mem stringPool symbols toc names) (do
        let index ← Program.load (toc + 8 * BitVec.ofNat 32 mid)
        let strx ← Program.load (symbols + 12 * index)
        let cmp ← Program.strcmp scan key.bytes (stringPool + strx)
        next index cmp) mem r ∧ Exact (tocSymbol mem symbols toc) names key r := by
  obtain ⟨r, hr, hexact⟩ := h.probe hmid hscan (fun _ hx => Or.inr hx) hnext
  exact ⟨r, .load (fun x hx => Or.inl ⟨mid, hmid, hx⟩) hr, hexact⟩

theorem finds_binarySearchTocLoop {symbols toc : Addr}
    (h : SortedSymbols mem stringPool (tocSymbol mem symbols toc) names)
    (hscan : ∀ name ∈ names, name.bytes.length < scan) (mid : Word)
    (hwin : Window names key lo hi) (hlo : lo ≤ names.length) (hhi : hi ≤ names.length)
    (hmid : lo < hi → ∃ m : Nat, mid = BitVec.ofInt 32 m ∧ lo ≤ m ∧ m < hi)
    (hfuel : hi - lo < fuel) :
    ∃ r, Access.Finds (TocByte mem stringPool symbols toc names)
        (Program.binarySearchTocLoop scan key.bytes stringPool symbols toc fuel
          (BitVec.ofInt 32 lo) (BitVec.ofInt 32 (hi - 1)) mid) mem r ∧
      Exact (tocSymbol mem symbols toc) names key r := by
  have hfewer := h.fewer
  induction fuel generalizing lo hi mid with
  | zero => omega
  | succ fuel ih =>
    unfold Program.binarySearchTocLoop
    by_cases hempty : hi ≤ lo
    · rw [if_pos ((slt_iff_empty (by omega) (by omega)).mpr hempty)]
      exact ⟨0, .pure _, SortedSymbols.exact_miss hwin hempty⟩
    · rw [if_neg (mt (slt_iff_empty (by omega) (by omega)).mp hempty)]
      obtain ⟨m, rfl, hlom, hmhi⟩ := hmid (by omega)
      have hm : m < names.length := by omega
      have habove : BitVec.ofInt 32 m + 1 = BitVec.ofInt 32 (m + 1 : Nat) := by
        rw [Int.natCast_add, BitVec.ofInt_add]
        rfl
      dsimp only
      rw [habove, ofInt_pred, BitVec.ofInt_natCast]
      refine h.probe_toc hm hscan fun cmp hcmp => ?_
      cases cmp with
      | eq =>
        rw [if_pos rfl]
        exact ⟨_, .pure _, h.exact_hit hm hcmp⟩
      | gt =>
        rw [if_neg (by simp), if_pos rfl, if_pos rfl]
        exact ih _ (hwin.above h.sorted hm hcmp) (by omega) hhi (sdiv_half (by omega)) (by omega)
      | lt =>
        rw [if_neg (by simp), if_neg (by simp), if_neg (by simp)]
        exact ih _ (hwin.below h.sorted hm hcmp) hlo (by omega) (sdiv_half (by omega)) (by omega)

theorem first_probe {count : Nat} (hcount : count < 2 ^ 31) (hint : Word)
    (hhint : hint.toNat < 2 ^ 31) (hpos : 0 < count) :
    ∃ m : Nat, (if (BitVec.ofNat 32 count).sle hint then BitVec.ofNat 32 count / 2 else hint) =
      BitVec.ofInt 32 m ∧ 0 ≤ m ∧ m < count := by
  have hcountInt : (BitVec.ofNat 32 count).toInt = count := by
    rw [← BitVec.ofInt_natCast, toInt_ofInt_small (by omega) (by omega)]
  have hhintInt : hint.toInt = hint.toNat := BitVec.toInt_eq_toNat_of_lt (by omega)
  split
  · refine ⟨count / 2, ?_, by omega, by omega⟩
    rw [ofNat_half count (by omega), BitVec.ofInt_natCast]
  · rename_i hlt
    refine ⟨hint.toNat, by simp, by omega, ?_⟩
    rw [BitVec.sle_iff_toInt_le, hcountInt, hhintInt] at hlt
    omega

end Search

namespace Program

def binarySearch (fuel : Nat) (key : List Byte) (stringPool symbols : Addr) (symbolCount : Word) :
    Program Addr :=
  binarySearchLoop fuel key stringPool fuel symbols symbolCount

def binarySearchToc (fuel : Nat) (key : List Byte) (stringPool symbols toc : Addr)
    (symbolCount hintIndex : Word) : Program Addr :=
  binarySearchTocLoop fuel key stringPool symbols toc fuel 0 (symbolCount - 1)
    (if symbolCount.sle hintIndex then symbolCount / 2 else hintIndex)

end Program

section Searches

variable {mem : Mem} {stringPool : Addr} {entry : Nat → Addr} {names : List CString}

theorem Reads.eq_done {τ : Type} {p : Program τ} {x : Outcome τ} {r : τ} (h : Reads mem p x)
    (hrun : p.run mem = done (r, mem)) : x = done r := by
  obtain ⟨a, ha, heq⟩ := bind_eq_done.mp (h.symm.trans hrun)
  rw [ha, (Prod.mk.inj (done.inj heq)).1]

theorem enough_fuel (names : List CString) :
    ∃ n, names.length < n ∧ ∀ name ∈ names, name.bytes.length < n := by
  refine ⟨names.length + (names.map fun name => name.bytes.length).sum + 1, by omega, ?_⟩
  intro name hname
  have := List.le_sum_of_mem (List.mem_map_of_mem (f := fun name => name.bytes.length) hname)
  omega

theorem nameAt_unique {a : Addr} {name name' : List Byte} (hname : ∀ b ∈ name, b ≠ 0)
    (hname' : ∀ b ∈ name', b ≠ 0) (h : mem.Holds a (name ++ [0]))
    (h' : mem.Holds a (name' ++ [0])) :
    name = name' := by
  induction name generalizing a name' with
  | nil =>
    cases name' with
    | nil => rfl
    | cons b' name' =>
      have h0 := (Mem.holds_cons.mp h).1
      exact absurd ((Mem.holds_cons.mp h').1.symm.trans h0) (hname' b' (by simp))
  | cons b name ih =>
    obtain ⟨hb, hrest⟩ := Mem.holds_cons.mp h
    cases name' with
    | nil => exact absurd (hb.symm.trans (Mem.holds_cons.mp h').1) (hname b (by simp))
    | cons b' name' =>
      obtain ⟨hb', hrest'⟩ := Mem.holds_cons.mp h'
      rw [← hb, ← hb', ih (fun x hx => hname x (by simp [hx])) (fun x hx => hname' x (by simp [hx]))
        hrest hrest']

theorem binarySearch_exact {symbols : Addr} (key : CString)
    (h : SortedSymbols mem stringPool (nlistAt symbols) names) :
    ∃ r, Exact (nlistAt symbols) names key r ∧ ∃ n, ∀ fuel ≥ n,
      binarySearch fuel mem key.bytes stringPool symbols (BitVec.ofNat 32 names.length) = done r ∧
      ∀ x ∈ (Program.binarySearch fuel key.bytes stringPool symbols
        (BitVec.ofNat 32 names.length)).looks mem,
        EntryByte mem stringPool (nlistAt symbols) names x := by
  have hfinds : ∀ fuel, names.length < fuel → (∀ name ∈ names, name.bytes.length < fuel) →
      ∃ r, Access.Finds (EntryByte mem stringPool (nlistAt symbols) names)
          (Program.binarySearch fuel key.bytes stringPool symbols (BitVec.ofNat 32 names.length))
          mem r ∧ Exact (nlistAt symbols) names key r := by
    intro fuel hfuel hscan
    have hwin : Window names key 0 (0 + names.length) := by simpa using Window.whole names key
    have := finds_binarySearchLoop h hscan names.length hwin (by omega) hfuel
    rwa [show nlistAt symbols 0 = symbols by simp [nlistAt]] at this
  obtain ⟨n, hlength, hnames⟩ := enough_fuel names
  obtain ⟨r, -, hexact⟩ := hfinds n hlength hnames
  refine ⟨r, hexact, n, fun fuel hfuel => ?_⟩
  obtain ⟨r', hr', hexact'⟩ := hfinds fuel (by omega) fun name hname =>
    Nat.lt_of_lt_of_le (hnames name hname) hfuel
  obtain rfl := hexact'.unique hexact
  exact ⟨Reads.eq_done (Program.runs_binarySearchLoop mem fuel _ _ _ _ _) hr'.run, hr'.looks⟩

theorem binarySearchToc_exact {symbols toc : Addr} (key : CString)
    (h : SortedSymbols mem stringPool (tocSymbol mem symbols toc) names) :
    ∃ r, Exact (tocSymbol mem symbols toc) names key r ∧ ∃ n, ∀ fuel ≥ n,
      ∀ hintIndex : Word, hintIndex.toNat < 2 ^ 31 →
        binarySearchToc fuel mem key.bytes stringPool symbols toc
          (BitVec.ofNat 32 names.length) hintIndex = done r ∧
        ∀ x ∈ (Program.binarySearchToc fuel key.bytes stringPool symbols toc
          (BitVec.ofNat 32 names.length) hintIndex).looks mem,
          TocByte mem stringPool symbols toc names x := by
  have hfinds : ∀ fuel, names.length < fuel → (∀ name ∈ names, name.bytes.length < fuel) →
      ∀ hintIndex : Word, hintIndex.toNat < 2 ^ 31 →
      ∃ r, Access.Finds (TocByte mem stringPool symbols toc names)
          (Program.binarySearchToc fuel key.bytes stringPool symbols toc
            (BitVec.ofNat 32 names.length) hintIndex) mem r ∧
        Exact (tocSymbol mem symbols toc) names key r := by
    intro fuel hfuel hscan hint hhint
    have := finds_binarySearchTocLoop h hscan _ (Window.whole names key) (Nat.zero_le _)
      (Nat.le_refl _) (first_probe (h.fewer.trans (by omega)) hint hhint) hfuel
    rwa [← ofInt_pred, BitVec.ofInt_natCast, BitVec.ofInt_natCast] at this
  obtain ⟨n, hlength, hnames⟩ := enough_fuel names
  obtain ⟨r, -, hexact⟩ := hfinds n hlength hnames 0 (by simp)
  refine ⟨r, hexact, n, fun fuel hfuel hint hhint => ?_⟩
  obtain ⟨r', hr', hexact'⟩ := hfinds fuel (by omega)
    (fun name hname => Nat.lt_of_lt_of_le (hnames name hname) hfuel) hint hhint
  obtain rfl := hexact'.unique hexact
  exact ⟨Reads.eq_done (Program.runs_binarySearchTocLoop mem fuel _ _ _ _ _ _ _ _) hr'.run,
    hr'.looks⟩

theorem SortedSymbols.name_eq {entry' : Nat → Addr} {names' : List CString}
    (h : SortedSymbols mem stringPool entry names) (h' : SortedSymbols mem stringPool entry' names')
    {i j : Nat} (hi : i < names.length) (hj : j < names'.length) (heq : entry' j = entry i) :
    names'[j] = names[i] := by
  have hname := h'.named j hj
  rw [heq] at hname
  exact CString.bytes_injective
    (nameAt_unique names'[j].nul_free names[i].nul_free hname (h.named i hi))

theorem Exact.transfer {entry' : Nat → Addr} {names' : List CString} {key : CString} {r : Addr}
    (h : SortedSymbols mem stringPool entry names) (h' : SortedSymbols mem stringPool entry' names')
    (hsame : ∀ a, (∃ i < names.length, entry i = a) ↔ ∃ j < names'.length, entry' j = a)
    (hr : Exact entry' names' key r) : Exact entry names key r := by
  refine ⟨fun i hi hkey => ?_, hr.null_iff.trans (not_congr ?_)⟩
  · obtain ⟨j, hj, hentry⟩ := (hsame (entry i)).mp ⟨i, hi, rfl⟩
    rw [hr.found j hj ((h.name_eq h' hi hj hentry).trans hkey), hentry]
  · constructor
    · intro hmem
      obtain ⟨j, hj, rfl⟩ := List.mem_iff_getElem.mp hmem
      obtain ⟨i, hi, hentry⟩ := (hsame (entry' j)).mpr ⟨j, hj, rfl⟩
      exact h.name_eq h' hi hj hentry.symm ▸ List.getElem_mem hi
    · intro hmem
      obtain ⟨i, hi, rfl⟩ := List.mem_iff_getElem.mp hmem
      obtain ⟨j, hj, hentry⟩ := (hsame (entry i)).mp ⟨i, hi, rfl⟩
      exact h.name_eq h' hi hj hentry ▸ List.getElem_mem hj

/-- **The classic searches are exact and agree.** `binary_search` and, whatever the hint,
`binary_search_toc` return the entry with the name, or null exactly when there is none, and read
their own entries and names only. If they search the same entries, they return the same one. -/
theorem classic_search_exact (mem : Mem) (stringPool : Addr) (key : CString) :
    (∀ symbols names, SortedSymbols mem stringPool (nlistAt symbols) names →
      ∃ r, Exact (nlistAt symbols) names key r ∧ ∃ n, ∀ fuel ≥ n,
        binarySearch fuel mem key.bytes stringPool symbols (BitVec.ofNat 32 names.length) = done r ∧
        ∀ x ∈ (Program.binarySearch fuel key.bytes stringPool symbols
          (BitVec.ofNat 32 names.length)).looks mem,
          EntryByte mem stringPool (nlistAt symbols) names x) ∧
    (∀ symbols toc names, SortedSymbols mem stringPool (tocSymbol mem symbols toc) names →
      ∃ r, Exact (tocSymbol mem symbols toc) names key r ∧ ∃ n, ∀ fuel ≥ n,
        ∀ hintIndex : Word, hintIndex.toNat < 2 ^ 31 →
          binarySearchToc fuel mem key.bytes stringPool symbols toc
            (BitVec.ofNat 32 names.length) hintIndex = done r ∧
          ∀ x ∈ (Program.binarySearchToc fuel key.bytes stringPool symbols toc
            (BitVec.ofNat 32 names.length) hintIndex).looks mem,
            TocByte mem stringPool symbols toc names x) ∧
    ∀ base symbols toc names names', SortedSymbols mem stringPool (nlistAt base) names →
      SortedSymbols mem stringPool (tocSymbol mem symbols toc) names' →
      (∀ a, (∃ i < names.length, nlistAt base i = a) ↔
        ∃ j < names'.length, tocSymbol mem symbols toc j = a) →
      ∃ r n, ∀ fuel ≥ n, ∀ hintIndex : Word, hintIndex.toNat < 2 ^ 31 →
        binarySearch fuel mem key.bytes stringPool base (BitVec.ofNat 32 names.length) = done r ∧
        binarySearchToc fuel mem key.bytes stringPool symbols toc
          (BitVec.ofNat 32 names'.length) hintIndex = done r := by
  refine ⟨fun symbols names h => binarySearch_exact key h,
    fun symbols toc names h => binarySearchToc_exact key h, ?_⟩
  intro base symbols toc names names' h h' hsame
  obtain ⟨r, hr, n, hrun⟩ := binarySearch_exact key h
  obtain ⟨r', hr', n', hrun'⟩ := binarySearchToc_exact key h'
  obtain rfl := hr.unique (hr'.transfer h h' hsame)
  refine ⟨r, max n n', fun fuel hfuel hint hhint => ⟨(hrun fuel (by omega)).1, ?_⟩⟩
  exact (hrun' fuel (by omega) hint hhint).1

/-- Two symbols at 200 with the names `a` and `b`, and a table of contents at 300. -/
def twoSymbols : Mem := fun x =>
  if x = 100 then 97 else if x = 102 then 98 else if x = 212 then 2 else if x = 308 then 1 else 0

def nameA : CString := ⟨[97], by decide⟩

def nameB : CString := ⟨[98], by decide⟩

theorem twoSymbols_sorted : SortedSymbols twoSymbols 100 (nlistAt 200) [nameA, nameB] where
  fewer := by decide
  nonnull := by decide
  named := by
    intro i h
    match i with
    | 0 => exact Mem.holds_cons.mpr ⟨rfl, Mem.holds_cons.mpr ⟨rfl, nofun⟩⟩
    | 1 => exact Mem.holds_cons.mpr ⟨rfl, Mem.holds_cons.mpr ⟨rfl, nofun⟩⟩
  sorted := by
    refine List.pairwise_pair.mpr (show [97] < [98] from ?_)
    exact List.cons_lt_cons_iff.mpr (Or.inl (by decide))

theorem twoSymbols_listed : SortedSymbols twoSymbols 100 (tocSymbol twoSymbols 200 300)
    [nameA, nameB] where
  fewer := by decide
  nonnull := by decide
  named := by
    intro i h
    match i with
    | 0 => exact Mem.holds_cons.mpr ⟨rfl, Mem.holds_cons.mpr ⟨rfl, nofun⟩⟩
    | 1 => exact Mem.holds_cons.mpr ⟨rfl, Mem.holds_cons.mpr ⟨rfl, nofun⟩⟩
  sorted := twoSymbols_sorted.sorted

theorem classic_search_finds_b : ∃ n, ∀ fuel ≥ n, ∀ hintIndex : Word, hintIndex.toNat < 2 ^ 31 →
    binarySearch fuel twoSymbols [98] 100 200 2 = done 212 ∧
      binarySearchToc fuel twoSymbols [98] 100 200 300 2 hintIndex = done 212 := by
  obtain ⟨hsearch, htoc, -⟩ := classic_search_exact twoSymbols 100 nameB
  obtain ⟨r, hr, n, hrun⟩ := hsearch 200 [nameA, nameB] twoSymbols_sorted
  obtain ⟨r', hr', n', hrun'⟩ := htoc 200 300 [nameA, nameB] twoSymbols_listed
  obtain rfl : r = 212 := hr.found 1 (by decide) rfl
  obtain rfl : r' = 212 := hr'.found 1 (by decide) rfl
  refine ⟨max n n', fun fuel hfuel hint hhint => ⟨(hrun fuel (by omega)).1, ?_⟩⟩
  exact (hrun' fuel (by omega) hint hhint).1

end Searches

end Lnk

end LibSystem
