import LibSystem.Memory
import Mathlib.Data.List.Count

/-!
# Words and stretches of memory

What a load finds behind a store, what a run of additions leaves, and the bytes between two
addresses as a list.
-/

namespace LibSystem.Mem

theorem stride_succ (n a : Word) (i : Nat) :
    a + n * BitVec.ofNat 32 (i + 1) = a + n + n * BitVec.ofNat 32 i := by
  rw [BitVec.ofNat_add, BitVec.mul_add, BitVec.add_comm (n * BitVec.ofNat 32 i), BitVec.mul_one,
    ← BitVec.add_assoc]

theorem next_stride (n a : Word) (i : Nat) :
    a + n + BitVec.ofNat 32 i * n = a + BitVec.ofNat 32 (i + 1) * n := by
  rw [BitVec.mul_comm, ← stride_succ, BitVec.mul_comm]

theorem and_not_mask (x : Word) {k : Nat} (hk : k ≤ 32) :
    (x &&& ~~~BitVec.ofNat 32 (2 ^ k - 1)).toNat = x.toNat / 2 ^ k * 2 ^ k := by
  have hpow : 2 ^ k - 1 < 2 ^ 32 := by
    have hle := Nat.pow_le_pow_right (show 0 < 2 by decide) hk
    omega
  have hlow : (x &&& BitVec.ofNat 32 (2 ^ k - 1)).toNat = x.toNat % 2 ^ k := by
    rw [BitVec.toNat_and, BitVec.toNat_ofNat, Nat.mod_eq_of_lt hpow,
      Nat.and_two_pow_sub_one_eq_mod]
  have hdisjoint : (x &&& BitVec.ofNat 32 (2 ^ k - 1)) &&&
      (x &&& ~~~BitVec.ofNat 32 (2 ^ k - 1)) = 0#32 := by
    rw [BitVec.and_comm x (~~~_), ← BitVec.and_assoc, BitVec.and_assoc x]
    simp
  have hsum : (x &&& BitVec.ofNat 32 (2 ^ k - 1)) +
      (x &&& ~~~BitVec.ofNat 32 (2 ^ k - 1)) = x := by
    rw [BitVec.add_eq_or_of_and_eq_zero _ _ hdisjoint, ← BitVec.and_or_distrib_left,
      BitVec.or_not_self, BitVec.and_allOnes]
  have hdiv := Nat.div_add_mod' x.toNat (2 ^ k)
  have hle := x.isLt
  bv_omega

theorem load_congr {mem mem' : Mem} {a : Addr} (h : ∀ x, InWord a x → mem' x = mem x) :
    mem'.load a = mem.load a := by
  have h0 : mem' a = mem a := h a (by unfold InWord; bv_omega)
  have h1 : mem' (a + 1) = mem (a + 1) := h (a + 1) (by unfold InWord; bv_omega)
  have h2 : mem' (a + 2) = mem (a + 2) := h (a + 2) (by unfold InWord; bv_omega)
  have h3 : mem' (a + 3) = mem (a + 3) := h (a + 3) (by unfold InWord; bv_omega)
  unfold load
  rw [h0, h1, h2, h3]

theorem load_store_self (mem : Mem) (a : Addr) (v : Word) : (mem.store a v).load a = v := by
  have h0 := store_at mem a v 0 (by omega)
  have h1 := store_at mem a v 1 (by omega)
  have h2 := store_at mem a v 2 (by omega)
  have h3 := store_at mem a v 3 (by omega)
  rw [BitVec.add_zero] at h0
  unfold load
  rw [h0, show (a + 1 : Addr) = a + BitVec.ofNat 32 1 from rfl, h1,
    show (a + 2 : Addr) = a + BitVec.ofNat 32 2 from rfl, h2,
    show (a + 3 : Addr) = a + BitVec.ofNat 32 3 from rfl, h3]
  have hv := v.isLt
  apply BitVec.eq_of_toNat_eq
  simp only [BitVec.toNat_ofNat]
  omega

/-- The words at `a` and `b` have no byte in common. -/
def Apart (a b : Addr) : Prop := ∀ x, InWord a x → ¬ InWord b x

theorem Apart.symm {a b : Addr} (h : Apart a b) : Apart b a := fun x hb ha => h x ha hb

theorem apart_iff {a b : Addr} : Apart a b ↔ 4 ≤ (b - a).toNat ∧ 4 ≤ (a - b).toNat := by
  constructor
  · intro h
    have ha := h a
    have hb := h b
    unfold InWord at ha hb
    constructor
    · by_contra hlt
      exact hb (by omega) (by bv_omega)
    · by_contra hlt
      exact ha (by bv_omega) (by omega)
  · rintro ⟨hab, hba⟩ x hx hx'
    unfold InWord at hx hx'
    bv_omega

instance (a b : Addr) : Decidable (Apart a b) := decidable_of_iff _ apart_iff.symm

theorem not_apart_self (a : Addr) : ¬ Apart a a := by
  rw [apart_iff]
  bv_omega

theorem load_store_apart (mem : Mem) {a b : Addr} (v : Word) (h : Apart a b) :
    (mem.store a v).load b = mem.load b :=
  load_congr fun x hx => store_outside mem a v x fun ha => h x ha hx

/-! ## Additions -/

/-- Memory after `v` is added to the word at `a`. -/
def add (mem : Mem) (v : Word) (a : Addr) : Mem := mem.store a (mem.load a + v)

/-- Memory after `v` is added to one word after the other. -/
def addAll (mem : Mem) (v : Word) (sites : List Addr) : Mem :=
  sites.foldl (fun mem => mem.add v) mem

@[simp] theorem addAll_nil (mem : Mem) (v : Word) : mem.addAll v [] = mem := rfl

@[simp] theorem addAll_cons (mem : Mem) (v : Word) (a : Addr) (sites : List Addr) :
    mem.addAll v (a :: sites) = (mem.add v a).addAll v sites := rfl

theorem addAll_append (mem : Mem) (v : Word) (l1 l2 : List Addr) :
    mem.addAll v (l1 ++ l2) = (mem.addAll v l1).addAll v l2 := List.foldl_append

theorem addAll_zero (mem : Mem) (sites : List Addr) : mem.addAll 0#32 sites = mem := by
  induction sites generalizing mem with
  | nil => rfl
  | cons a sites ih => rw [addAll_cons, add, BitVec.add_zero, store_load, ih]

/-- Two words are the same or have no byte in common. -/
def SameOrApart (a b : Addr) : Prop := a = b ∨ Apart a b

theorem addAll_outside {mem : Mem} {v : Word} {sites : List Addr} {x : Addr}
    (h : ∀ a ∈ sites, ¬ InWord a x) : mem.addAll v sites x = mem x := by
  induction sites generalizing mem with
  | nil => rfl
  | cons a sites ih =>
    rw [addAll_cons, ih fun b hb => h b (by simp [hb])]
    exact store_outside _ _ _ _ (h a (by simp))

theorem load_addAll {mem : Mem} {v : Word} {sites : List Addr} {a : Addr}
    (h : ∀ b ∈ sites, SameOrApart b a) :
    (mem.addAll v sites).load a = mem.load a + BitVec.ofNat 32 (sites.count a) * v := by
  induction sites generalizing mem with
  | nil => simp
  | cons b sites ih =>
    rw [addAll_cons, ih fun c hc => h c (by simp [hc])]
    rcases h b (by simp) with rfl | hapart
    · rw [add, load_store_self, List.count_cons_self, Nat.add_comm, BitVec.ofNat_add,
        BitVec.add_mul, BitVec.one_mul, BitVec.add_assoc]
    · have hne : b ≠ a := by
        rintro rfl
        exact not_apart_self _ hapart
      rw [add, load_store_apart _ _ hapart, List.count_cons_of_ne hne]

/-! ## Stores -/

/-- Memory after `v` is stored in one word after the other. -/
def setAll (mem : Mem) (v : Word) (sites : List Addr) : Mem :=
  sites.foldl (fun mem a => mem.store a v) mem

@[simp] theorem setAll_nil (mem : Mem) (v : Word) : mem.setAll v [] = mem := rfl

@[simp] theorem setAll_cons (mem : Mem) (v : Word) (a : Addr) (sites : List Addr) :
    mem.setAll v (a :: sites) = (mem.store a v).setAll v sites := rfl

theorem load_setAll {mem : Mem} {v : Word} {sites : List Addr} {a : Addr}
    (h : ∀ b ∈ sites, SameOrApart b a) :
    (mem.setAll v sites).load a = if a ∈ sites then v else mem.load a := by
  induction sites generalizing mem with
  | nil => simp
  | cons b sites ih =>
    rw [setAll_cons, ih fun c hc => h c (by simp [hc])]
    rcases h b (by simp) with rfl | hapart
    · simp [load_store_self]
    · have hne : a ≠ b := by
        rintro rfl
        exact not_apart_self _ hapart
      simp [load_store_apart _ _ hapart, hne]

/-- A run of stores: the memory before each, its word, and what is stored there. -/
inductive Stores : Mem → List (Mem × Addr × Word) → Mem → Prop
  | nil (mem : Mem) : Stores mem [] mem
  | cons {mem mem' : Mem} {a : Addr} {v : Word} {l : List (Mem × Addr × Word)}
      (h : Stores (mem.store a v) l mem') : Stores mem ((mem, a, v) :: l) mem'

theorem Stores.outside {mem mem' : Mem} {l : List (Mem × Addr × Word)} (h : Stores mem l mem')
    {x : Addr} (hx : ∀ q ∈ l, ¬ InWord q.2.1 x) :
    mem' x = mem x ∧ ∀ q ∈ l, q.1 x = mem x := by
  induction h with
  | nil mem => exact ⟨rfl, by simp⟩
  | @cons mem mem' a v l _ ih =>
    obtain ⟨hafter, hbefore⟩ := ih fun q hq => hx q (by simp [hq])
    have hstore := store_outside mem a v x (hx (mem, a, v) (by simp))
    refine ⟨hafter.trans hstore, fun q hq => ?_⟩
    rcases List.mem_cons.mp hq with rfl | hq
    · rfl
    · exact (hbefore q hq).trans hstore

theorem Stores.words {mem mem' : Mem} {l : List (Mem × Addr × Word)} (h : Stores mem l mem')
    (hapart : (l.map fun q => q.2.1).Pairwise Apart) :
    ∀ q ∈ l, q.1.load q.2.1 = mem.load q.2.1 ∧ mem'.load q.2.1 = q.2.2 := by
  induction h with
  | nil mem => simp
  | @cons mem mem' a v l hrest ih =>
    rw [List.map_cons, List.pairwise_cons] at hapart
    obtain ⟨hfirst, hapart⟩ := hapart
    intro q hq
    rcases List.mem_cons.mp hq with rfl | hq
    · refine ⟨rfl, (load_congr fun x hx => ?_).trans (load_store_self mem a v)⟩
      refine (hrest.outside fun q hq hin => ?_).1
      exact hfirst q.2.1 (List.mem_map_of_mem hq) x hx hin
    · obtain ⟨hbefore, hafter⟩ := ih hapart q hq
      refine ⟨hbefore.trans (load_store_apart _ _ ?_), hafter⟩
      exact hfirst q.2.1 (List.mem_map_of_mem hq)

/-! ## Stretches -/

/-- The bytes from `p` up to `stop`. -/
def slice (mem : Mem) (p stop : Addr) : List Byte :=
  (List.range (stop.toNat - p.toNat)).map fun i => mem (p + BitVec.ofNat 32 i)

theorem length_slice (mem : Mem) (p stop : Addr) :
    (mem.slice p stop).length = stop.toNat - p.toNat := by
  simp [slice]

theorem slice_of_le (mem : Mem) {p stop : Addr} (h : stop ≤ p) : mem.slice p stop = [] := by
  have hlen := mem.length_slice p stop
  rw [show stop.toNat - p.toNat = 0 by bv_omega] at hlen
  exact List.eq_nil_of_length_eq_zero hlen

theorem slice_of_lt (mem : Mem) {p stop : Addr} (h : p < stop) :
    mem.slice p stop = mem p :: mem.slice (p + 1) stop := by
  have hlen : stop.toNat - p.toNat = (stop.toNat - (p + 1).toNat) + 1 := by bv_omega
  unfold slice
  rw [hlen, List.range_succ_eq_map, List.map_cons, List.map_map]
  congr 1
  · simp
  · refine List.map_congr_left fun i _ => ?_
    rw [Function.comp_apply, Nat.succ_eq_add_one, ofNat_succ, ← BitVec.add_assoc]

theorem slice_congr {mem mem' : Mem} {p stop : Addr}
    (h : ∀ x, p ≤ x → x < stop → mem' x = mem x) : mem'.slice p stop = mem.slice p stop := by
  unfold slice
  refine List.map_congr_left fun i hi => ?_
  have hi := List.mem_range.mp hi
  exact h _ (by bv_omega) (by bv_omega)

/-- The address from which the last bytes before `stop` are `rest`. -/
def cursor (stop : Addr) (rest : List Byte) : Addr := stop - BitVec.ofNat 32 rest.length

theorem cursor_slice (mem : Mem) {p stop : Addr} (h : p ≤ stop) :
    cursor stop (mem.slice p stop) = p := by
  unfold cursor
  rw [length_slice]
  bv_omega

theorem slice_cursor {mem : Mem} {p stop : Addr} {rest : List Byte} (hp : p ≤ stop)
    (h : rest <:+ mem.slice p stop) :
    mem.slice (cursor stop rest) stop = rest ∧ p ≤ cursor stop rest ∧ cursor stop rest ≤ stop := by
  obtain ⟨front, hfront⟩ := h
  induction front generalizing p with
  | nil =>
    rw [List.nil_append] at hfront
    rw [hfront, cursor_slice mem hp]
    exact ⟨rfl, BitVec.le_refl p, hp⟩
  | cons b front ih =>
    have hlt : p < stop := by
      by_contra hge
      rw [slice_of_le mem (BitVec.not_lt.mp hge)] at hfront
      simp at hfront
    rw [slice_of_lt mem hlt, List.cons_append] at hfront
    obtain ⟨hslice, hle, hstop⟩ := ih (by bv_omega) (List.cons.inj hfront).2
    exact ⟨hslice, by bv_omega, hstop⟩

end LibSystem.Mem
