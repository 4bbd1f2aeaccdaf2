import LibSystem.Graph
import LibSystem.Outcome
import Mathlib.Algebra.Ring.Nat
import Mathlib.Data.List.Nodup
import Mathlib.Data.List.Perm.Basic

/-!
# Starting vertices in passes over a list

A pass starts every vertex whose dependencies have all been started. Vertices
that wait for each other are counted, in 32 bits. When the count is the number
of vertices left, or when only such vertices are left, the passes stop.
-/

namespace LibSystem.Rounds

open Relation LibSystem.Graph

/-! ## Which vertices get started -/

variable {ι : Type} (deps : ι → List ι) (chain : List ι)

/-- The vertex is started in one of the first passes. -/
inductive Settles : Nat → ι → Prop where
  | intro {p : Nat} {l1 l2 : List ι} {x : ι} (hchain : chain = l1 ++ x :: l2)
      (hbefore : ∀ d ∈ deps x, d ∈ l1 → Settles (p + 1) d)
      (hafter : ∀ d ∈ deps x, d ∉ l1 → Settles p d) : Settles (p + 1) x

/-- The vertex has been started when pass `p + 1` has gone through `l1`. -/
def Started (p : Nat) (l1 : List ι) (y : ι) : Prop :=
  (y ∈ l1 ∧ Settles deps chain (p + 1) y) ∨ Settles deps chain p y

variable {deps chain}

theorem not_settles_zero {x : ι} : ¬ Settles deps chain 0 x := nofun

theorem Settles.succ {p : Nat} {x : ι} (h : Settles deps chain p x) :
    Settles deps chain (p + 1) x := by
  induction h with
  | intro hchain _ _ ih1 ih2 => exact .intro hchain ih1 ih2

theorem Settles.mono {p q : Nat} {x : ι} (h : Settles deps chain p x) (hpq : p ≤ q) :
    Settles deps chain q x := by
  induction q, hpq using Nat.le_induction with
  | base => exact h
  | succ q _ ih => exact ih.succ

theorem settles_iff (hnodup : chain.Nodup) {p : Nat} {l1 l2 : List ι} {x : ι}
    (hchain : chain = l1 ++ x :: l2) :
    Settles deps chain (p + 1) x ↔ ∀ d ∈ deps x, Started deps chain p l1 d := by
  constructor
  · rintro (⟨h, hbefore, hafter⟩)
    rename_i m1 m2
    have hx : x ∉ l1 ++ l2 := (List.nodup_cons.mp (List.nodup_middle.mp (hchain ▸ hnodup))).1
    rw [List.mem_append, not_or] at hx
    obtain ⟨rfl, -, rfl⟩ :=
      (List.append_cons_inj_of_notMem hx.1 hx.2).mp (hchain.symm.trans h)
    intro d hd
    by_cases hmem : d ∈ l1
    · exact Or.inl ⟨hmem, hbefore d hd hmem⟩
    · exact Or.inr (hafter d hd hmem)
  · intro h
    refine .intro hchain (fun d hd hmem => ?_) (fun d hd hmem => ?_)
    · rcases h d hd with h | h
      · exact h.2
      · exact h.succ
    · exact (h d hd).resolve_left fun h => hmem h.1

theorem Settles.acc {p : Nat} {x : ι} (h : Settles deps chain p x) :
    Acc (fun d x => d ∈ deps x) x := by
  induction h with
  | @intro p l1 l2 x _ _ _ ih1 ih2 =>
    refine ⟨x, fun d hd => ?_⟩
    by_cases hmem : d ∈ l1
    · exact ih1 d hd hmem
    · exact ih2 d hd hmem

theorem exists_settles (hclosed : ∀ x ∈ chain, ∀ d ∈ deps x, d ∈ chain) {x : ι}
    (h : Acc (fun d x => d ∈ deps x) x) (hx : x ∈ chain) : ∃ p, Settles deps chain p x := by
  induction h with
  | intro x _ ih =>
    have hall : ∀ l : List ι, (∀ d ∈ l, d ∈ deps x) → ∃ p, ∀ d ∈ l, Settles deps chain p d := by
      intro l hl
      induction l with
      | nil => exact ⟨0, by simp⟩
      | cons d l ihl =>
        obtain ⟨p, hp⟩ := ihl fun e he => hl e (by simp [he])
        have hd := hl d (by simp)
        obtain ⟨q, hq⟩ := ih d hd (hclosed x hx d hd)
        refine ⟨max p q, fun e he => ?_⟩
        rcases List.mem_cons.mp he with rfl | he
        · exact hq.mono (Nat.le_max_right p q)
        · exact (hp e he).mono (Nat.le_max_left p q)
    obtain ⟨p, hp⟩ := hall (deps x) fun _ hd => hd
    obtain ⟨l1, l2, hchain⟩ := List.append_of_mem hx
    exact ⟨p + 1, .intro hchain (fun d hd _ => (hp d hd).succ) fun d hd _ => hp d hd⟩

theorem exists_settles_all (hclosed : ∀ x ∈ chain, ∀ d ∈ deps x, d ∈ chain) :
    ∃ p, ∀ x ∈ chain, Acc (fun d x => d ∈ deps x) x → Settles deps chain p x := by
  have hall : ∀ l : List ι, (∀ x ∈ l, x ∈ chain) →
      ∃ p, ∀ x ∈ l, Acc (fun d x => d ∈ deps x) x → Settles deps chain p x := by
    intro l hl
    induction l with
    | nil => exact ⟨0, by simp⟩
    | cons x l ih =>
      obtain ⟨p, hp⟩ := ih fun e he => hl e (by simp [he])
      by_cases hacc : Acc (fun d x => d ∈ deps x) x
      · obtain ⟨q, hq⟩ := exists_settles hclosed hacc (hl x (by simp))
        refine ⟨max p q, fun e he hacc => ?_⟩
        rcases List.mem_cons.mp he with rfl | he
        · exact hq.mono (Nat.le_max_right p q)
        · exact (hp e he hacc).mono (Nat.le_max_left p q)
      · refine ⟨p, fun e he hacc' => ?_⟩
        rcases List.mem_cons.mp he with rfl | he
        · exact absurd hacc' hacc
        · exact hp e he hacc'
  exact hall chain fun _ hx => hx

/-! ## The passes -/

structure State (ι : Type) where
  /-- The vertices started so far. -/
  order : List ι
  ccount : BitVec 32
  icount : BitVec 32
  circular : Bool
  waiting : Bool

variable [DecidableEq ι] (deps : ι → List ι)

/-- How many of the dependencies of `x` depend on `x`. -/
def mutualCount (x : ι) : Nat := (deps x).countP fun d => x ∈ deps d

def Ready (order : List ι) (x : ι) : Prop := ∀ d ∈ deps x, d ∈ order

instance (order : List ι) (x : ι) : Decidable (Ready deps order x) :=
  inferInstanceAs (Decidable (∀ d ∈ deps x, d ∈ order))

def State.start (s : State ι) (x : ι) : State ι :=
  if x ∈ s.order then s else { s with order := s.order ++ [x], icount := s.icount - 1 }

def State.postpone (s : State ι) (x : ι) : State ι :=
  { s with
    ccount := s.ccount + BitVec.ofNat 32 (mutualCount deps x)
    circular := s.circular || mutualCount deps x ≠ 0
    waiting := s.waiting || mutualCount deps x = 0 }

/-- One pass. The flag tells if the counts met. -/
def pass : List ι → State ι → Bool × State ι
  | [], s => (false, s)
  | x :: l, s =>
    if Ready deps s.order x then pass l (s.start x)
    else if s.ccount = s.icount then (true, s)
    else pass l (s.postpone deps x)

def rounds (chain : List ι) : Nat → State ι → Outcome (State ι)
  | 0, _ => .timeout
  | fuel + 1, s =>
    let (met, s) := pass deps chain { s with waiting := false }
    if met = false ∧ s.waiting = true then rounds chain fuel s else .done s

/-- What has not been started is started in the end, if the flag says that there was a cycle. -/
def finish (chain : List ι) (s : State ι) : List ι :=
  if s.circular then s.order ++ chain.filter (· ∉ s.order) else s.order

theorem Settles.mutual_eq_zero {p : Nat} {x : ι} (h : Settles deps chain p x) :
    mutualCount deps x = 0 := by
  rw [mutualCount, List.countP_eq_zero]
  induction h with
  | @intro p l1 l2 x _ _ _ ih1 ih2 =>
    intro d hd hx
    have hx : x ∈ deps d := by simpa using hx
    by_cases hmem : d ∈ l1
    · exact ih1 d hd hmem x hx (by simpa using hd)
    · exact ih2 d hd hmem x hx (by simpa using hd)

/-! ## The state of a pass -/

/-- The counted dependencies of the vertices of `l`. -/
def mutualSum (l : List ι) : Nat := (l.map (mutualCount deps)).sum

/-- Pass `p + 1` has gone through `l1`. -/
structure At (chain : List ι) (p : Nat) (l1 : List ι) (s : State ι) : Prop where
  started : ∀ y, y ∈ s.order ↔ y ∈ chain ∧ Started deps chain p l1 y
  nodup : s.order.Nodup
  sorted : ∀ a y b, s.order = a ++ y :: b → ∀ d ∈ deps y, d ∈ a
  ccount : s.ccount = BitVec.ofNat 32 (p * mutualSum deps chain + mutualSum deps l1)
  icount : s.icount = BitVec.ofNat 32 (chain.length - s.order.length)
  circular : p * mutualSum deps chain + mutualSum deps l1 ≠ 0 → s.circular = true
  waiting : s.waiting = true ↔
    ∃ y ∈ l1, ¬ Settles deps chain (p + 1) y ∧ mutualCount deps y = 0

variable {deps} {chain : List ι}

theorem At.subset {p : Nat} {l1 : List ι} {s : State ι} (h : At deps chain p l1 s) :
    s.order ⊆ chain := fun _ hy => ((h.started _).mp hy).1

theorem At.ready_iff (hnodup : chain.Nodup) (hclosed : ∀ x ∈ chain, ∀ d ∈ deps x, d ∈ chain)
    {p : Nat} {l1 l2 : List ι} {x : ι} {s : State ι} (h : At deps chain p l1 s)
    (hchain : chain = l1 ++ x :: l2) :
    Ready deps s.order x ↔ Settles deps chain (p + 1) x := by
  rw [settles_iff hnodup hchain]
  refine forall₂_congr fun d hd => ?_
  rw [h.started]
  exact and_iff_right (hclosed x (by simp [hchain]) d hd)

omit [DecidableEq ι] in
theorem started_append {p : Nat} {l1 : List ι} {x y : ι} :
    Started deps chain p (l1 ++ [x]) y ↔
      Started deps chain p l1 y ∨ (y = x ∧ Settles deps chain (p + 1) x) := by
  unfold Started
  constructor
  · rintro (⟨hy, h⟩ | h)
    · rcases List.mem_append.mp hy with hy | hy
      · exact Or.inl (Or.inl ⟨hy, h⟩)
      · obtain rfl := List.mem_singleton.mp hy
        exact Or.inr ⟨rfl, h⟩
    · exact Or.inl (Or.inr h)
  · rintro ((⟨hy, h⟩ | h) | ⟨rfl, h⟩)
    · exact Or.inl ⟨by simp [hy], h⟩
    · exact Or.inr h
    · exact Or.inl ⟨by simp, h⟩

theorem mutualSum_append (l1 : List ι) (x : ι) :
    mutualSum deps (l1 ++ [x]) = mutualSum deps l1 + mutualCount deps x := by
  simp [mutualSum]

theorem waiting_append {p : Nat} {l1 : List ι} {x : ι} :
    (∃ y ∈ l1 ++ [x], ¬ Settles deps chain (p + 1) y ∧ mutualCount deps y = 0) ↔
      (∃ y ∈ l1, ¬ Settles deps chain (p + 1) y ∧ mutualCount deps y = 0) ∨
        (¬ Settles deps chain (p + 1) x ∧ mutualCount deps x = 0) := by
  simp only [List.mem_append, List.mem_singleton, or_and_right, exists_or, exists_eq_left]

/-- A vertex that is ready is started, or has been. -/
theorem At.start {p : Nat} {l1 l2 : List ι} {x : ι} {s : State ι} (h : At deps chain p l1 s)
    (hchain : chain = l1 ++ x :: l2) (hready : Ready deps s.order x)
    (hsettles : Settles deps chain (p + 1) x) : At deps chain p (l1 ++ [x]) (s.start x) := by
  have hx : x ∈ chain := by simp [hchain]
  have hsum : mutualSum deps (l1 ++ [x]) = mutualSum deps l1 := by
    rw [mutualSum_append, hsettles.mutual_eq_zero, Nat.add_zero]
  have hwait : (∃ y ∈ l1 ++ [x], ¬ Settles deps chain (p + 1) y ∧ mutualCount deps y = 0) ↔
      ∃ y ∈ l1, ¬ Settles deps chain (p + 1) y ∧ mutualCount deps y = 0 := by
    rw [waiting_append]
    exact or_iff_left fun hn => hn.1 hsettles
  unfold State.start
  split
  · rename_i hmem
    refine ⟨fun y => ?_, h.nodup, h.sorted, by rw [hsum]; exact h.ccount, h.icount,
      by rw [hsum]; exact h.circular, by rw [hwait]; exact h.waiting⟩
    rw [h.started, started_append]
    refine and_congr_right fun _ => (or_iff_left_of_imp ?_).symm
    rintro ⟨rfl, -⟩
    exact ((h.started _).mp hmem).2
  · rename_i hmem
    have hlen : s.order.length < chain.length := by
      have hsub : x :: s.order ⊆ chain := List.cons_subset.mpr ⟨hx, h.subset⟩
      exact (List.subperm_of_subset (List.nodup_cons.mpr ⟨hmem, h.nodup⟩) hsub).length_le
    refine ⟨fun y => ?_, ?_, ?_, by rw [hsum]; exact h.ccount, ?_, by rw [hsum]; exact h.circular,
      by rw [hwait]; exact h.waiting⟩
    · rw [List.mem_append, List.mem_singleton, h.started, started_append, and_or_left]
      refine or_congr_right ⟨?_, fun hy => hy.2.1⟩
      rintro rfl
      exact ⟨hx, rfl, hsettles⟩
    · exact List.nodup_append.mpr ⟨h.nodup, by simp, by
        intro a ha b hb
        obtain rfl := List.mem_singleton.mp hb
        rintro rfl
        exact hmem ha⟩
    · intro a y b heq d hd
      rcases List.append_eq_append_iff.mp heq with ⟨a', rfl, hb⟩ | ⟨c, hc, hb⟩
      · cases a' with
        | nil =>
          obtain ⟨rfl, -⟩ := List.cons_eq_cons.mp hb
          simpa using hready d hd
        | cons z a' => simp at hb
      · cases c with
        | nil =>
          obtain ⟨rfl, -⟩ := List.cons_eq_cons.mp hb
          rw [List.append_nil] at hc
          exact hc ▸ hready d hd
        | cons z c =>
          obtain ⟨rfl, rfl⟩ := List.cons_eq_cons.mp hb
          exact h.sorted a y c hc d hd
    · show s.icount - 1 = BitVec.ofNat 32 (chain.length - (s.order ++ [x]).length)
      obtain ⟨k, hk⟩ : ∃ k, chain.length - s.order.length = k + 1 := ⟨_, (by omega :
        chain.length - s.order.length = chain.length - s.order.length - 1 + 1)⟩
      have hk' : chain.length - (s.order.length + 1) = k := by omega
      rw [h.icount, List.length_append, List.length_singleton, hk, hk', BitVec.ofNat_add]
      exact BitVec.add_sub_cancel _ _

theorem At.postpone {p : Nat} {l1 : List ι} {x : ι} {s : State ι} (h : At deps chain p l1 s)
    (hsettles : ¬ Settles deps chain (p + 1) x) :
    At deps chain p (l1 ++ [x]) (s.postpone deps x) := by
  refine ⟨fun y => ?_, h.nodup, h.sorted, ?_, h.icount, ?_, ?_⟩
  · show y ∈ s.order ↔ _
    rw [h.started, started_append]
    exact and_congr_right fun _ => (or_iff_left fun hn => hsettles hn.2).symm
  · show s.ccount + BitVec.ofNat 32 (mutualCount deps x) = _
    rw [h.ccount, mutualSum_append, ← BitVec.ofNat_add, Nat.add_assoc]
  · intro hne
    show (s.circular || decide (mutualCount deps x ≠ 0)) = true
    rw [mutualSum_append] at hne
    by_cases hx : mutualCount deps x = 0
    · rw [h.circular (by omega), Bool.true_or]
    · simp [hx]
  · show (s.waiting || decide (mutualCount deps x = 0)) = true ↔ _
    rw [waiting_append, Bool.or_eq_true, decide_eq_true_iff, h.waiting, and_iff_right hsettles]

/-! ## One pass after the other -/

open Classical in
/-- How many vertices have not been started when pass `p + 1` has gone through `l1`. -/
noncomputable def pending (deps : ι → List ι) (chain : List ι) (p : Nat) (l1 : List ι) : Nat :=
  chain.countP fun y => ¬ Started deps chain p l1 y

/-- The vertex `x` has to wait in pass `p + 1`, and the counts are the same before it. -/
def MeetsAt (deps : ι → List ι) (chain : List ι) (p : Nat) (l1 : List ι) (x : ι) : Prop :=
  ¬ Settles deps chain (p + 1) x ∧
    BitVec.ofNat 32 (p * mutualSum deps chain + mutualSum deps l1) =
      BitVec.ofNat 32 (pending deps chain p l1)

/-- The counts meet in pass `p + 1`. -/
def Meets (deps : ι → List ι) (chain : List ι) (p : Nat) : Prop :=
  ∃ l1 x l2, chain = l1 ++ x :: l2 ∧ MeetsAt deps chain p l1 x

/-- Only vertices that wait for each other are left after pass `p + 1`. -/
def OnlyMutual (deps : ι → List ι) (chain : List ι) (p : Nat) : Prop :=
  ∀ x ∈ chain, ¬ Settles deps chain (p + 1) x → mutualCount deps x ≠ 0

theorem At.pending_eq (hnodup : chain.Nodup) {p : Nat} {l1 : List ι} {s : State ι}
    (h : At deps chain p l1 s) : pending deps chain p l1 = chain.length - s.order.length := by
  classical
  have hperm : s.order.Perm (chain.filter fun y => Started deps chain p l1 y) := by
    refine (List.perm_ext_iff_of_nodup h.nodup (hnodup.filter _)).mpr fun y => ?_
    simp [h.started]
  have hlen : chain.length = chain.countP (fun y => Started deps chain p l1 y) +
      pending deps chain p l1 := by
    rw [List.length_eq_countP_add_countP fun y => decide (Started deps chain p l1 y)]
    congr 1
    exact List.countP_congr fun y _ => by simp
  rw [hperm.length_eq, ← List.countP_eq_length_filter]
  omega

theorem At.counts_eq_iff (hnodup : chain.Nodup) {p : Nat} {l1 : List ι} {x : ι} {s : State ι}
    (h : At deps chain p l1 s) (hx : ¬ Settles deps chain (p + 1) x) :
    s.ccount = s.icount ↔ MeetsAt deps chain p l1 x := by
  rw [h.ccount, h.icount, ← h.pending_eq hnodup]
  exact (and_iff_right hx).symm

theorem not_meetsAt_cons {p : Nat} {l1 l : List ι} {x : ι} (hx : ¬ MeetsAt deps chain p l1 x)
    (hl : ∀ m1 y m2, l = m1 ++ y :: m2 → ¬ MeetsAt deps chain p ((l1 ++ [x]) ++ m1) y) :
    ∀ m1 y m2, x :: l = m1 ++ y :: m2 → ¬ MeetsAt deps chain p (l1 ++ m1) y := by
  intro m1 y m2 heq
  cases m1 with
  | nil =>
    obtain ⟨rfl, -⟩ := List.cons_eq_cons.mp heq
    rwa [List.append_nil]
  | cons z m1 =>
    obtain ⟨rfl, rfl⟩ := List.cons_eq_cons.mp heq
    have := hl m1 y m2 rfl
    rwa [List.append_assoc] at this

theorem pass_first (hnodup : chain.Nodup) (hclosed : ∀ x ∈ chain, ∀ d ∈ deps x, d ∈ chain)
    {p : Nat} {l1 l2 : List ι} {s s' : State ι} (h : At deps chain p l1 s)
    (hchain : chain = l1 ++ l2) (hpass : pass deps l2 s = (true, s')) :
    ∃ m1 x m2, l2 = m1 ++ x :: m2 ∧ At deps chain p (l1 ++ m1) s' ∧
      MeetsAt deps chain p (l1 ++ m1) x ∧
      ∀ n1 y n2, m1 = n1 ++ y :: n2 → ¬ MeetsAt deps chain p (l1 ++ n1) y := by
  induction l2 generalizing l1 s with
  | nil => simp [pass] at hpass
  | cons x l2 ih =>
    have hready := h.ready_iff hnodup hclosed hchain
    have hchain' : chain = (l1 ++ [x]) ++ l2 := by simp [hchain]
    have hgo : ∀ s1, At deps chain p (l1 ++ [x]) s1 → pass deps l2 s1 = (true, s') →
        ¬ MeetsAt deps chain p l1 x →
        ∃ m1 y m2, x :: l2 = m1 ++ y :: m2 ∧ At deps chain p (l1 ++ m1) s' ∧
          MeetsAt deps chain p (l1 ++ m1) y ∧
          ∀ n1 z n2, m1 = n1 ++ z :: n2 → ¬ MeetsAt deps chain p (l1 ++ n1) z := by
      intro s1 hs1 hpass hx
      obtain ⟨m1, y, m2, rfl, hat, hmeets, hfirst⟩ := ih hs1 hchain' hpass
      rw [List.append_assoc] at hat hmeets
      exact ⟨x :: m1, y, m2, rfl, hat, hmeets, not_meetsAt_cons hx hfirst⟩
    unfold pass at hpass
    split at hpass
    · rename_i hr
      exact hgo _ (h.start hchain hr (hready.mp hr)) hpass fun hm => hm.1 (hready.mp hr)
    · rename_i hr
      have hx := fun hs => hr (hready.mpr hs)
      split at hpass
      · rename_i heq
        obtain ⟨-, rfl⟩ := Prod.mk.inj hpass
        rw [h.counts_eq_iff hnodup hx] at heq
        exact ⟨[], x, l2, rfl, by rwa [List.append_nil], by rwa [List.append_nil], by simp⟩
      · rename_i hne
        exact hgo _ (h.postpone hx) hpass fun hm => hne ((h.counts_eq_iff hnodup hx).mpr hm)

theorem pass_not_met (hnodup : chain.Nodup) (hclosed : ∀ x ∈ chain, ∀ d ∈ deps x, d ∈ chain)
    {p : Nat} {l1 l2 : List ι} {s s' : State ι} (h : At deps chain p l1 s)
    (hchain : chain = l1 ++ l2) (hpass : pass deps l2 s = (false, s')) :
    At deps chain p chain s' ∧
      ∀ m1 x m2, l2 = m1 ++ x :: m2 → ¬ MeetsAt deps chain p (l1 ++ m1) x := by
  induction l2 generalizing l1 s with
  | nil =>
    obtain ⟨-, rfl⟩ := Prod.mk.inj hpass
    rw [List.append_nil] at hchain
    exact ⟨hchain ▸ h, by simp⟩
  | cons x l2 ih =>
    have hready := h.ready_iff hnodup hclosed hchain
    have hchain' : chain = (l1 ++ [x]) ++ l2 := by simp [hchain]
    unfold pass at hpass
    split at hpass
    · rename_i hr
      obtain ⟨hat, hl⟩ := ih (h.start hchain hr (hready.mp hr)) hchain' hpass
      exact ⟨hat, not_meetsAt_cons (fun hm => hm.1 (hready.mp hr)) hl⟩
    · rename_i hr
      have hx := fun hs => hr (hready.mpr hs)
      split at hpass
      · simp at hpass
      · rename_i hne
        obtain ⟨hat, hl⟩ := ih (h.postpone hx) hchain' hpass
        exact ⟨hat, not_meetsAt_cons (fun hm => hne ((h.counts_eq_iff hnodup hx).mpr hm)) hl⟩

theorem At.next {p : Nat} {s : State ι} (h : At deps chain p chain s) :
    At deps chain (p + 1) [] { s with waiting := false } := by
  have hsum : (p + 1) * mutualSum deps chain + mutualSum deps [] =
      p * mutualSum deps chain + mutualSum deps chain := by
    simp [mutualSum, Nat.add_mul]
  refine ⟨fun y => ?_, h.nodup, h.sorted, by rw [hsum]; exact h.ccount, h.icount,
    by rw [hsum]; exact h.circular, by simp⟩
  show y ∈ s.order ↔ _
  rw [h.started]
  refine and_congr_right fun hy => ?_
  unfold Started
  constructor
  · rintro (⟨-, hs⟩ | hs)
    · exact Or.inr hs
    · exact Or.inr hs.succ
  · rintro (⟨hy', -⟩ | hs)
    · simp at hy'
    · exact Or.inl ⟨hy, hs⟩

theorem At.not_waiting_iff {p : Nat} {s : State ι} (h : At deps chain p chain s) :
    s.waiting = false ↔ OnlyMutual deps chain p := by
  rw [← Bool.not_eq_true, h.waiting]
  unfold OnlyMutual
  simp only [not_exists, not_and]

/-! ## The rounds -/

/-- No vertex is left, or a mutual pair has been counted. -/
def Final (deps : ι → List ι) (chain : List ι) (s : State ι) : Prop :=
  ∃ p l1, l1 ⊆ chain ∧ At deps chain p l1 s ∧
    ((∀ x ∈ chain, x ∈ s.order) ∨ p * mutualSum deps chain + mutualSum deps l1 ≠ 0)

theorem mutualSum_eq_zero_iff {l : List ι} :
    mutualSum deps l = 0 ↔ ∀ x ∈ l, mutualCount deps x = 0 := by
  simp [mutualSum, List.sum_eq_zero_iff_forall_eq_nat]

omit [DecidableEq ι] in
theorem pending_pos {p : Nat} {l1 l2 : List ι} {x : ι} (hchain : chain = l1 ++ x :: l2)
    (hx : ¬ Settles deps chain (p + 1) x) : 0 < pending deps chain p l1 := by
  classical
  refine List.countP_pos_iff.mpr ⟨x, by simp [hchain], ?_⟩
  have hnot : ¬ Started deps chain p l1 x := by
    rintro (⟨-, hs⟩ | hs)
    · exact hx hs
    · exact hx hs.succ
  simpa using hnot

theorem MeetsAt.counted (hlen : chain.length < 2 ^ 32) {p : Nat} {l1 l2 : List ι} {x : ι}
    (hchain : chain = l1 ++ x :: l2) (h : MeetsAt deps chain p l1 x) :
    p * mutualSum deps chain + mutualSum deps l1 ≠ 0 := by
  intro hzero
  have hpos := pending_pos hchain h.1
  have hle : pending deps chain p l1 ≤ chain.length := List.countP_le_length
  have hcount := congrArg BitVec.toNat h.2
  rw [hzero] at hcount
  simp only [BitVec.toNat_ofNat] at hcount
  omega

theorem At.final_of_onlyMutual {p : Nat} {s : State ι} (h : At deps chain p chain s)
    (honly : OnlyMutual deps chain p) : Final deps chain s := by
  refine ⟨p, chain, fun _ hx => hx, h, ?_⟩
  by_cases hall : ∀ x ∈ chain, Settles deps chain (p + 1) x
  · exact Or.inl fun x hx => (h.started x).mpr ⟨hx, Or.inl ⟨hx, hall x hx⟩⟩
  · simp only [not_forall] at hall
    obtain ⟨x, hx, hs⟩ := hall
    have hsum : mutualSum deps chain ≠ 0 := fun hzero =>
      honly x hx hs (mutualSum_eq_zero_iff.mp hzero x hx)
    exact Or.inr (by omega)

theorem rounds_succ (hnodup : chain.Nodup) (hclosed : ∀ x ∈ chain, ∀ d ∈ deps x, d ∈ chain)
    {fuel p : Nat} {s s' : State ι} (h : At deps chain p [] { s with waiting := false })
    (hrun : rounds deps chain (fuel + 1) s = .done s') :
    (∃ l1 x l2, chain = l1 ++ x :: l2 ∧ At deps chain p l1 s' ∧ MeetsAt deps chain p l1 x ∧
      ∀ m1 y m2, l1 = m1 ++ y :: m2 → ¬ MeetsAt deps chain p m1 y) ∨
    ¬ Meets deps chain p ∧ (OnlyMutual deps chain p ∧ At deps chain p chain s' ∨
      ¬ OnlyMutual deps chain p ∧ ∃ s1, At deps chain (p + 1) [] { s1 with waiting := false } ∧
        rounds deps chain fuel s1 = .done s') := by
  unfold rounds at hrun
  rcases hpass : pass deps chain { s with waiting := false } with ⟨met, s1⟩
  rw [hpass] at hrun
  dsimp only at hrun
  cases met with
  | true =>
    obtain rfl : s1 = s' := by simpa using hrun
    exact .inl (pass_first hnodup hclosed h rfl hpass)
  | false =>
    obtain ⟨hat, hnot⟩ := pass_not_met hnodup hclosed h rfl hpass
    have hmeets : ¬ Meets deps chain p := by
      rintro ⟨l1, x, l2, heq, hx⟩
      exact hnot l1 x l2 heq hx
    refine .inr ⟨hmeets, ?_⟩
    split at hrun
    · rename_i hgo
      have honly : ¬ OnlyMutual deps chain p := fun honly => by
        simp [hat.not_waiting_iff.mpr honly] at hgo
      exact .inr ⟨honly, s1, hat.next, hrun⟩
    · rename_i hstop
      obtain rfl : s1 = s' := by simpa using hrun
      exact .inl ⟨hat.not_waiting_iff.mp (by simpa using hstop), hat⟩

theorem rounds_done (hnodup : chain.Nodup) (hclosed : ∀ x ∈ chain, ∀ d ∈ deps x, d ∈ chain)
    (hlen : chain.length < 2 ^ 32) {fuel p : Nat} {s s' : State ι}
    (h : At deps chain p [] { s with waiting := false })
    (hrun : rounds deps chain fuel s = .done s') :
    (∃ q, Meets deps chain q ∨ OnlyMutual deps chain q) ∧ Final deps chain s' := by
  induction fuel generalizing p s with
  | zero => simp [rounds] at hrun
  | succ fuel ih =>
    rcases rounds_succ hnodup hclosed h hrun with
      ⟨l1, x, l2, hchain, hat, hmeets, -⟩ | ⟨-, ⟨honly, hat⟩ | ⟨-, s1, hat, hrest⟩⟩
    · refine ⟨⟨p, Or.inl ⟨l1, x, l2, hchain, hmeets⟩⟩, p, l1, ?_, hat, Or.inr ?_⟩
      · exact hchain ▸ List.subset_append_left l1 _
      · exact hmeets.counted hlen hchain
    · exact ⟨⟨p, Or.inr honly⟩, hat.final_of_onlyMutual honly⟩
    · exact ih hat hrest

theorem rounds_ends (hnodup : chain.Nodup) (hclosed : ∀ x ∈ chain, ∀ d ∈ deps x, d ∈ chain)
    {p k : Nat} {s : State ι} (h : At deps chain p [] { s with waiting := false })
    (hstop : Meets deps chain (p + k) ∨ OnlyMutual deps chain (p + k)) :
    ∃ fuel s', rounds deps chain fuel s = .done s' := by
  induction k generalizing p s with
  | zero =>
    refine ⟨1, ?_⟩
    unfold rounds
    rcases hpass : pass deps chain { s with waiting := false } with ⟨met, s1⟩
    dsimp only
    refine ⟨s1, if_neg ?_⟩
    rintro ⟨rfl, hwait⟩
    obtain ⟨hat, hnot⟩ := pass_not_met hnodup hclosed h rfl hpass
    rcases hstop with ⟨l1, x, l2, hchain, hmeets⟩ | honly
    · exact hnot l1 x l2 hchain hmeets
    · rw [hat.not_waiting_iff.mpr honly] at hwait
      exact absurd hwait (by simp)
  | succ k ih =>
    rcases hpass : pass deps chain { s with waiting := false } with ⟨met, s1⟩
    by_cases hgo : met = false ∧ s1.waiting = true
    · obtain ⟨rfl, hwait⟩ := hgo
      have hat := (pass_not_met hnodup hclosed h rfl hpass).1
      obtain ⟨fuel, s', hrun⟩ := ih hat.next (by rwa [Nat.add_right_comm, Nat.add_assoc])
      refine ⟨fuel + 1, s', ?_⟩
      unfold rounds
      rw [hpass]
      dsimp only
      rw [if_pos ⟨rfl, hwait⟩, hrun]
    · refine ⟨1, s1, ?_⟩
      unfold rounds
      rw [hpass]
      exact if_neg hgo

theorem exists_onlyMutual_iff (hclosed : ∀ x ∈ chain, ∀ d ∈ deps x, d ∈ chain) :
    (∃ p, OnlyMutual deps chain p) ↔
      ∀ x ∈ chain, ¬ Acc (fun d x => d ∈ deps x) x → mutualCount deps x ≠ 0 := by
  constructor
  · rintro ⟨p, h⟩ x hx hacc
    exact h x hx fun hs => hacc hs.acc
  · intro h
    obtain ⟨p, hp⟩ := exists_settles_all hclosed
    exact ⟨p, fun x hx hs => h x hx fun hacc => hs (hp x hx hacc).succ⟩

theorem Final.finish_eq {s : State ι} (h : Final deps chain s) :
    finish chain s = s.order ++ chain.filter (· ∉ s.order) := by
  obtain ⟨p, l1, -, hat, hall⟩ := h
  unfold finish
  split
  · rfl
  · rename_i hcirc
    have hnil : chain.filter (· ∉ s.order) = [] := by
      rw [List.filter_eq_nil_iff]
      intro y hy
      simpa using hall.resolve_right (fun hne => hcirc (hat.circular hne)) y hy
    rw [hnil, List.append_nil]

theorem Final.finish_perm (hnodup : chain.Nodup) {s : State ι} (h : Final deps chain s) :
    (finish chain s).Perm chain := by
  rw [h.finish_eq]
  obtain ⟨p, l1, -, hat, -⟩ := h
  refine (List.perm_ext_iff_of_nodup ?_ hnodup).mpr fun y => ?_
  · refine List.nodup_append.mpr ⟨hat.nodup, hnodup.filter _, ?_⟩
    rintro a ha b hb rfl
    simp [ha] at hb
  · rw [List.mem_append, List.mem_filter]
    by_cases hy : y ∈ s.order
    · simp [hy, hat.subset hy]
    · simp [hy]

def State.init (n : Nat) (circular : Bool) : State ι := ⟨[], 0, BitVec.ofNat 32 n, circular, false⟩

theorem at_init (circular : Bool) : At deps chain 0 [] (State.init chain.length circular) := by
  refine ⟨fun y => ?_, List.nodup_nil, ?_, ?_, rfl, ?_, ?_⟩
  · simp [State.init, Started, not_settles_zero]
  · intro a y b h
    simp [State.init] at h
  · simp [State.init, mutualSum]
  · simp [mutualSum]
  · simp [State.init]

/-- **When the passes stop.** Either only vertices of mutual pairs depend on cycles, or the counts
happen to meet. Then every vertex has been started once. -/
theorem rounds_iff (hnodup : chain.Nodup) (hclosed : ∀ x ∈ chain, ∀ d ∈ deps x, d ∈ chain)
    (hlen : chain.length < 2 ^ 32) (circular : Bool) :
    (∃ fuel s, rounds deps chain fuel (.init chain.length circular) = .done s ∧
        (finish chain s).Perm chain) ↔
      (∀ x ∈ chain, ¬ Acc (fun d x => d ∈ deps x) x → mutualCount deps x ≠ 0) ∨
        ∃ p, Meets deps chain p := by
  rw [← exists_onlyMutual_iff hclosed]
  constructor
  · rintro ⟨fuel, s, hrun, -⟩
    obtain ⟨⟨q, hq⟩, -⟩ := rounds_done hnodup hclosed hlen (at_init circular) hrun
    rcases hq with hq | hq
    · exact Or.inr ⟨q, hq⟩
    · exact Or.inl ⟨q, hq⟩
  · intro h
    obtain ⟨q, hq⟩ : ∃ q, Meets deps chain q ∨ OnlyMutual deps chain q := by
      rcases h with ⟨q, hq⟩ | ⟨q, hq⟩
      · exact ⟨q, Or.inr hq⟩
      · exact ⟨q, Or.inl hq⟩
    have hinit : At deps chain 0 [] { State.init chain.length circular with waiting := false } :=
      at_init circular
    obtain ⟨fuel, s, hrun⟩ := rounds_ends hnodup hclosed hinit (by rwa [Nat.zero_add])
    exact ⟨fuel, s, hrun,
      (rounds_done hnodup hclosed hlen (at_init circular) hrun).2.finish_perm hnodup⟩

theorem rounds_timeout (hnodup : chain.Nodup) (hclosed : ∀ x ∈ chain, ∀ d ∈ deps x, d ∈ chain)
    (hlen : chain.length < 2 ^ 32) (circular : Bool)
    (h : ¬ ((∀ x ∈ chain, ¬ Acc (fun d x => d ∈ deps x) x → mutualCount deps x ≠ 0) ∨
      ∃ p, Meets deps chain p)) (fuel : Nat) :
    rounds deps chain fuel (.init chain.length circular) = .timeout := by
  have hshape : ∀ (n : Nat) (s : State ι),
      rounds deps chain n s = .timeout ∨ ∃ s', rounds deps chain n s = .done s' := by
    intro n
    induction n with
    | zero => exact fun s => Or.inl rfl
    | succ n ih =>
      intro s
      unfold rounds
      rcases pass deps chain { s with waiting := false } with ⟨met, s1⟩
      dsimp only
      split
      · exact ih s1
      · exact Or.inr ⟨s1, rfl⟩
  refine (hshape fuel _).resolve_right fun ⟨s, hrun⟩ => h ?_
  have hfinal := (rounds_done hnodup hclosed hlen (at_init circular) hrun).2
  exact (rounds_iff hnodup hclosed hlen circular).mp ⟨fuel, s, hrun, hfinal.finish_perm hnodup⟩

/-- **Without cycles** every vertex is started once, and after its dependencies. -/
theorem rounds_acyclic (hnodup : chain.Nodup) (hclosed : ∀ x ∈ chain, ∀ d ∈ deps x, d ∈ chain)
    (hlen : chain.length < 2 ^ 32) (circular : Bool)
    (hacc : ∀ x ∈ chain, Acc (fun d x => d ∈ deps x) x) :
    ∃ fuel s, rounds deps chain fuel (.init chain.length circular) = .done s ∧
      (finish chain s).Perm chain ∧
      ∀ a y b, finish chain s = a ++ y :: b → ∀ d ∈ deps y, d ∈ a := by
  have hzero : ∀ x ∈ chain, mutualCount deps x = 0 := fun x hx =>
    let ⟨_, hp⟩ := exists_settles hclosed (hacc x hx) hx
    hp.mutual_eq_zero
  obtain ⟨fuel, s, hrun, hperm⟩ := (rounds_iff hnodup hclosed hlen circular).mpr
    (Or.inl fun x hx hno => absurd (hacc x hx) hno)
  obtain ⟨-, p, l1, hsub, hat, hall⟩ := rounds_done hnodup hclosed hlen (at_init circular) hrun
  have hsum : p * mutualSum deps chain + mutualSum deps l1 = 0 := by
    rw [mutualSum_eq_zero_iff.mpr hzero, mutualSum_eq_zero_iff.mpr fun x hx => hzero x (hsub hx)]
    rfl
  have hall := hall.resolve_right (not_not.mpr hsum)
  have hfinish : finish chain s = s.order := by
    have hnil : chain.filter (· ∉ s.order) = [] := by
      rw [List.filter_eq_nil_iff]
      intro y hy
      simpa using hall y hy
    unfold finish
    rw [hnil, List.append_nil, ite_self]
  exact ⟨fuel, s, hrun, hperm, hfinish ▸ hat.sorted⟩

/-! ## Where the passes stop -/

/-- The passes stop in pass `p + 1`, when it has gone through `l1`, and nowhere before. -/
structure StopsAt (deps : ι → List ι) (chain : List ι) (p : Nat) (l1 : List ι) : Prop where
  here : (∃ x l2, chain = l1 ++ x :: l2 ∧ MeetsAt deps chain p l1 x) ∨
    (l1 = chain ∧ OnlyMutual deps chain p)
  earlier : ∀ q < p, ¬ Meets deps chain q ∧ ¬ OnlyMutual deps chain q
  inPass : ∀ m1 x m2, chain = m1 ++ x :: m2 → m1.length < l1.length → ¬ MeetsAt deps chain p m1 x

omit [DecidableEq ι] in
theorem append_of_lt_length {l1 l2 m1 m2 : List ι} {x : ι} (h : l1 ++ x :: l2 = m1 ++ m2)
    (hlen : l1.length < m1.length) : ∃ r, m1 = l1 ++ x :: r := by
  rcases List.append_eq_append_iff.mp h with ⟨r, rfl, hr⟩ | ⟨r, rfl, -⟩
  · cases r with
    | nil => simp at hlen
    | cons y r =>
      obtain ⟨rfl, -⟩ := List.cons_eq_cons.mp hr
      exact ⟨r, rfl⟩
  · rw [List.length_append] at hlen
    omega

theorem StopsAt.prefix_eq {p : Nat} {l1 m1 : List ι} (h : StopsAt deps chain p l1)
    (h' : StopsAt deps chain p m1) (hle : l1.length ≤ m1.length) : l1 = m1 := by
  have hpre : ∃ r, chain = m1 ++ r := by
    rcases h'.here with ⟨x, r, heq, -⟩ | ⟨rfl, -⟩
    · exact ⟨_, heq⟩
    · exact ⟨[], (List.append_nil _).symm⟩
  obtain ⟨r, hr⟩ := hpre
  rcases h.here with ⟨x, l2, heq, hmeets⟩ | ⟨rfl, -⟩
  · have hlen : ¬ l1.length < m1.length := fun hlt => h'.inPass l1 x l2 heq hlt hmeets
    exact (List.append_inj (heq.symm.trans hr) (by omega)).1
  · have hlen := congrArg List.length hr
    rw [List.length_append] at hlen
    obtain rfl : r = [] := List.length_eq_zero_iff.mp (by omega)
    simpa using hr

theorem StopsAt.unique {p q : Nat} {l1 m1 : List ι} (h : StopsAt deps chain p l1)
    (h' : StopsAt deps chain q m1) : p = q ∧ l1 = m1 := by
  have hle : ∀ {p q : Nat} {l1 m1 : List ι}, StopsAt deps chain p l1 → StopsAt deps chain q m1 →
      p ≤ q := by
    intro p q l1 m1 h h'
    refine Nat.le_of_not_lt fun hlt => ?_
    obtain ⟨hmeets, honly⟩ := h.earlier q hlt
    rcases h'.here with ⟨x, m2, heq, hx⟩ | ⟨-, hx⟩
    · exact hmeets ⟨m1, x, m2, heq, hx⟩
    · exact honly hx
  obtain rfl := Nat.le_antisymm (hle h h') (hle h' h)
  refine ⟨rfl, ?_⟩
  rcases Nat.le_total l1.length m1.length with hlen | hlen
  · exact h.prefix_eq h' hlen
  · exact (h'.prefix_eq h hlen).symm

/-- **Where the passes stop.** The state then says what has been started up to there. -/
theorem rounds_stopsAt (hnodup : chain.Nodup) (hclosed : ∀ x ∈ chain, ∀ d ∈ deps x, d ∈ chain)
    {fuel p : Nat} {s s' : State ι} (h : At deps chain p [] { s with waiting := false })
    (hearlier : ∀ q < p, ¬ Meets deps chain q ∧ ¬ OnlyMutual deps chain q)
    (hrun : rounds deps chain fuel s = .done s') :
    ∃ q l1, StopsAt deps chain q l1 ∧ At deps chain q l1 s' := by
  induction fuel generalizing p s with
  | zero => simp [rounds] at hrun
  | succ fuel ih =>
    rcases rounds_succ hnodup hclosed h hrun with
      ⟨l1, x, l2, hchain, hat, hmeets, hfirst⟩ | ⟨hmeets, ⟨honly, hat⟩ | ⟨honly, s1, hat, hrest⟩⟩
    · refine ⟨p, l1, ⟨.inl ⟨x, l2, hchain, hmeets⟩, hearlier, fun n1 y n2 heq hlt => ?_⟩, hat⟩
      obtain ⟨r, hr⟩ := append_of_lt_length (heq.symm.trans hchain) hlt
      exact hfirst n1 y r hr
    · refine ⟨p, chain, ⟨.inr ⟨rfl, honly⟩, hearlier, fun m1 x m2 heq _ hx => ?_⟩, hat⟩
      exact hmeets ⟨m1, x, m2, heq, hx⟩
    · refine ih hat (fun q hq => ?_) hrest
      rcases Nat.lt_succ_iff_lt_or_eq.mp hq with hq | rfl
      · exact hearlier q hq
      · exact ⟨hmeets, honly⟩

/-! ## The order of what is left -/

theorem Final.left_after_iff {s : State ι} (h : Final deps chain s) {x d : ι} (hx : x ∈ chain)
    (hleft : x ∉ s.order) :
    [d, x].Sublist (finish chain s) ↔ d ∈ s.order ∨ [d, x].Sublist chain := by
  have hxf : x ∈ chain.filter (· ∉ s.order) := List.mem_filter.mpr ⟨hx, by simpa using hleft⟩
  rw [h.finish_eq]
  constructor
  · intro hsub
    obtain ⟨a, b, heq, ha, hb⟩ := List.sublist_append_iff.mp hsub
    cases a with
    | nil => exact .inr (heq ▸ hb.trans List.filter_sublist)
    | cons y a =>
      obtain ⟨rfl, -⟩ := List.cons_eq_cons.mp heq
      exact .inl (ha.subset List.mem_cons_self)
  · intro hor
    by_cases hd : d ∈ s.order
    · exact (List.singleton_sublist.mpr hd).append (List.singleton_sublist.mpr hxf)
    · have hsub := (hor.resolve_left hd).filter fun y => decide (y ∉ s.order)
      rw [List.filter_eq_self.mpr (by simp [hd, hleft])] at hsub
      exact hsub.trans (List.sublist_append_right _ _)

theorem Final.started_after {s : State ι} (h : Final deps chain s) {x d : ι} (hx : x ∈ s.order)
    (hd : d ∈ deps x) : [d, x].Sublist (finish chain s) := by
  obtain ⟨p, l1, -, hat, -⟩ := id h
  obtain ⟨a, b, hsplit⟩ := List.append_of_mem hx
  have hsub : [d, x].Sublist s.order := by
    rw [hsplit]
    exact (List.singleton_sublist.mpr (hat.sorted a x b hsplit d hd)).append
      (List.singleton_sublist.mpr List.mem_cons_self)
  rw [h.finish_eq]
  exact hsub.trans (List.sublist_append_left _ _)

theorem Final.after_iff {p : Nat} {l1 : List ι} {s : State ι} (h : Final deps chain s)
    (hat : At deps chain p l1 s) (hclosed : ∀ x ∈ chain, ∀ d ∈ deps x, d ∈ chain) {x : ι}
    (hx : x ∈ chain) :
    (∀ d ∈ deps x, [d, x].Sublist (finish chain s)) ↔
      (¬ Started deps chain p l1 x →
        ∀ d ∈ deps x, ¬ Started deps chain p l1 d → [d, x].Sublist chain) := by
  have hstarted : ∀ y ∈ chain, y ∈ s.order ↔ Started deps chain p l1 y :=
    fun y hy => (hat.started y).trans (and_iff_right hy)
  by_cases hleft : x ∈ s.order
  · refine iff_of_true (fun d hd => h.started_after hleft hd) fun hno => ?_
    exact absurd ((hstarted x hx).mp hleft) hno
  · rw [← hstarted x hx]
    constructor
    · intro hall _ d hd hno
      rcases (h.left_after_iff hx hleft).mp (hall d hd) with hin | hin
      · exact absurd ((hstarted d (hclosed x hx d hd)).mp hin) hno
      · exact hin
    · intro hall d hd
      refine (h.left_after_iff hx hleft).mpr (or_iff_not_imp_left.mpr fun hno => ?_)
      exact hall hleft d hd fun hs => hno ((hstarted d (hclosed x hx d hd)).mpr hs)

end LibSystem.Rounds
