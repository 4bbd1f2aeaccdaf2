import LibSystem.Graph
import LibSystem.Outcome

/-!
# Depth first search without a visited set

The search asks a vertex itself, and then what it leads to. On a graph with
cycles it may not end.
-/

namespace LibSystem.Graph

open Relation Outcome

variable {ι β : Type} {own : Nat → ι → Outcome (Option β)} {next : ι → List ι}

/-- The fuel bounds the depth, and is passed on to the vertices. -/
def dfs (own : Nat → ι → Outcome (Option β)) (next : ι → List ι) : Nat → ι → Outcome (Option β)
  | 0, _ => .timeout
  | fuel + 1, i => do
    match ← own fuel i with
    | some b => .done (some b)
    | none => search (dfs own next fuel) (next i)

/-- `i` has no answer of its own. -/
def Misses (own : Nat → ι → Outcome (Option β)) (i : ι) : Prop := Yields (fun n => own n i) none

theorem dfs_grows (hown : ∀ i, Grows fun n => own n i) (i : ι) :
    Grows fun n => dfs own next n i := by
  intro n
  induction n generalizing i with
  | zero => exact Le.timeout _
  | succ n ih =>
    refine (hown i n).bind fun o => ?_
    cases o with
    | some b => exact Le.refl _
    | none => exact search_le _ fun j _ => ih j

theorem dfs_of_own {n : Nat} {i : ι} {b : β} (h : own n i = done (some b)) :
    dfs own next (n + 1) i = done (some b) := by
  rw [dfs, h]
  rfl

theorem dfs_of_misses {n : Nat} {i : ι} (h : own n i = done none) :
    dfs own next (n + 1) i = search (dfs own next n) (next i) := by
  rw [dfs, h]
  rfl

/-! ## What an answer means -/

theorem dfs_none {n : Nat} {i : ι} (h : dfs own next n i = done none) :
    ∀ j, Reach next i j → Misses own j := by
  induction n generalizing i with
  | zero => simp [dfs] at h
  | succ n ih =>
    obtain ⟨o, hown, ho⟩ := bind_eq_done.mp h
    cases o with
    | some b => simp at ho
    | none =>
      intro j hij
      rcases ReflTransGen.cases_head hij with rfl | ⟨k, hk, hkj⟩
      · exact ⟨n, hown⟩
      · exact ih (search_eq_none.mp ho k hk) j hkj

theorem dfs_eq_none (hown : ∀ i, Grows fun n => own n i) {n : Nat} {i : ι}
    (h : dfs own next n i ≠ timeout) (hmiss : ∀ j, Reach next i j → Misses own j) :
    dfs own next n i = done none := by
  induction n generalizing i with
  | zero => exact absurd rfl h
  | succ n ih =>
    have hi : own n i = done none := (hmiss i .refl).eq (hown i) (bind_ne_timeout.mp h).1
    rw [dfs_of_misses hi] at h ⊢
    have hall : ∀ l : List ι, (∀ k ∈ l, k ∈ next i) → search (dfs own next n) l ≠ timeout →
        search (dfs own next n) l = done none := by
      intro l hl hs
      induction l with
      | nil => rfl
      | cons k l ihl =>
        have hk := ih (bind_ne_timeout.mp hs).1 fun j hj => hmiss j (.head (hl k (by simp)) hj)
        rw [search, hk] at hs ⊢
        exact ihl (fun m hm => hl m (by simp [hm])) hs
    exact hall _ (fun _ hk => hk) h

/-- `j` is the first of `l` with an answer of its own, and the answer is `b`. -/
def FirstIn (own : Nat → ι → Outcome (Option β)) (l : List ι) (j : ι) (b : β) : Prop :=
  ∃ l1 l2, l = l1 ++ j :: l2 ∧ (∀ k ∈ l1, Misses own k) ∧ Yields (fun n => own n j) (some b)

theorem FirstIn.cons {l : List ι} {i j : ι} {b : β} (h : FirstIn own l j b) (hi : Misses own i) :
    FirstIn own (i :: l) j b := by
  obtain ⟨l1, l2, rfl, hmiss, hj⟩ := h
  exact ⟨i :: l1, l2, rfl, by simpa using ⟨hi, hmiss⟩, hj⟩

theorem FirstIn.append {l m : List ι} {j : ι} {b : β} (h : FirstIn own m j b)
    (hl : ∀ k ∈ l, Misses own k) : FirstIn own (l ++ m) j b := by
  induction l with
  | nil => exact h
  | cons k l ih => exact (ih fun m hm => hl m (by simp [hm])).cons (hl k (by simp))

theorem FirstIn.append_right {l m : List ι} {j : ι} {b : β} (h : FirstIn own l j b) :
    FirstIn own (l ++ m) j b := by
  obtain ⟨l1, l2, rfl, hmiss, hj⟩ := h
  exact ⟨l1, l2 ++ m, by simp, hmiss, hj⟩

theorem dfs_some (hwf : WellFounded fun j i => j ∈ next i) {n : Nat} {i : ι} {b : β}
    (h : dfs own next n i = done (some b)) : ∃ j, FirstIn own (preorder hwf i) j b := by
  induction n generalizing i with
  | zero => simp [dfs] at h
  | succ n ih =>
    obtain ⟨o, hown, ho⟩ := bind_eq_done.mp h
    rw [preorder_eq]
    cases o with
    | some c =>
      obtain rfl : c = b := by simpa using ho
      exact ⟨i, [], _, rfl, by simp, n, hown⟩
    | none =>
      obtain ⟨l1, k, l2, hnext, hmiss, hk⟩ := search_eq_some.mp ho
      obtain ⟨j, hj⟩ := ih hk
      refine ⟨j, FirstIn.cons ?_ ⟨n, hown⟩⟩
      rw [hnext, List.flatMap_append, List.flatMap_cons]
      refine hj.append_right.append fun m hm => ?_
      obtain ⟨p, hp, hpm⟩ := List.mem_flatMap.mp hm
      exact dfs_none (hmiss p hp) m ((mem_preorder hwf p m).mp hpm)

/-! ## When the search ends -/

/-- The search at `i` goes on to `j`, unless it gets stuck before. -/
def Descends (own : Nat → ι → Outcome (Option β)) (next : ι → List ι) (i j : ι) : Prop :=
  Misses own i ∧ ∃ l1 l2, next i = l1 ++ j :: l2 ∧
    ∀ k ∈ l1, ∀ m, Reach next k m → Misses own m

theorem Descends.mem {i j : ι} (h : Descends own next i j) : j ∈ next i := by
  obtain ⟨-, l1, l2, hnext, -⟩ := h
  simp [hnext]

/-- `R` tells apart the good ends from the bad ones. -/
structure IsEnd (R : Outcome (Option β) → Prop) : Prop where
  done : ∀ o, R (.done o)
  not_timeout : ¬ R .timeout

theorem isEnd_done : IsEnd fun x : Outcome (Option β) => ∃ o, x = .done o :=
  ⟨fun o => ⟨o, rfl⟩, by simp⟩

theorem IsEnd.of_bind {R : Outcome (Option β) → Prop} (hR : IsEnd R) {x : Outcome (Option β)}
    {f : Option β → Outcome (Option β)} (h : R (x >>= f)) : R x := by
  cases x with
  | done o => exact hR.done o
  | halt msg => exact h
  | fault => exact h
  | timeout => exact h

theorem IsEnd.ne_timeout {R : Outcome (Option β) → Prop} (hR : IsEnd R) {x : Outcome (Option β)}
    (h : R x) : x ≠ .timeout := by
  rintro rfl
  exact hR.not_timeout h

theorem end_of_descends (hown : ∀ i, Grows fun n => own n i) {R : Outcome (Option β) → Prop}
    (hR : IsEnd R) {n : Nat} {i j : ι} (h : R (dfs own next (n + 1) i))
    (hij : Descends own next i j) : R (dfs own next n j) := by
  obtain ⟨hi, l1, l2, hnext, hmiss⟩ := hij
  have hi := hi.eq (hown i) (hR.ne_timeout (hR.of_bind h))
  rw [dfs_of_misses hi, hnext] at h
  clear hnext
  induction l1 with
  | nil => exact hR.of_bind h
  | cons k l1 ih =>
    have hk := dfs_eq_none hown (hR.ne_timeout (hR.of_bind h)) (hmiss k (by simp))
    rw [List.cons_append, search, hk] at h
    exact ih h fun m hm => hmiss m (by simp [hm])

theorem own_end_of_dfs (hR : IsEnd R) {n : Nat} {i : ι} (h : R (dfs own next n i)) :
    ∃ k, R (own k i) := by
  cases n with
  | zero => exact absurd h hR.not_timeout
  | succ n => exact ⟨n, hR.of_bind h⟩

theorem search_end_of_descends (hown : ∀ i, Grows fun n => own n i)
    {R : Outcome (Option β) → Prop} (hR : IsEnd R) {i : ι} (hi : Misses own i)
    (hend : ∀ j, Descends own next i j → ∃ n, R (dfs own next n j)) (l1 l2 : List ι)
    (hnext : next i = l1 ++ l2) (hmiss : ∀ k ∈ l1, ∀ m, Reach next k m → Misses own m) :
    ∃ n, R (search (dfs own next n) l2) := by
  induction l2 generalizing l1 with
  | nil => exact ⟨0, hR.done _⟩
  | cons j l2 ih =>
    obtain ⟨n, hn⟩ := hend j ⟨hi, l1, l2, hnext, hmiss⟩
    cases hj : dfs own next n j with
    | done o =>
      cases o with
      | some b => exact ⟨n, by rw [search, hj]; exact hR.done _⟩
      | none =>
        have hmiss' : ∀ k ∈ l1 ++ [j], ∀ m, Reach next k m → Misses own m := by
          intro k hk
          rcases List.mem_append.mp hk with hk | hk
          · exact hmiss k hk
          · obtain rfl := List.mem_singleton.mp hk
            exact dfs_none hj
        obtain ⟨m, hm⟩ := ih (l1 ++ [j]) (by simp [hnext]) hmiss'
        refine ⟨max n m, ?_⟩
        have hgrow : dfs own next (max n m) j = done none :=
          (dfs_grows hown j).eq_done hj (Nat.le_max_left n m)
        have hrest : search (dfs own next (max n m)) l2 = search (dfs own next m) l2 :=
          (search_grows (dfs_grows hown) l2).eq (Nat.le_max_right n m) (hR.ne_timeout hm)
        rw [search, hgrow, done_bind, hrest]
        exact hm
    | halt msg => exact ⟨n, by rw [search, hj]; rw [hj] at hn; exact hn⟩
    | fault => exact ⟨n, by rw [search, hj]; rw [hj] at hn; exact hn⟩
    | timeout => exact absurd hn (by rw [hj]; exact hR.not_timeout)

/-- **When a search comes to an end.** Wherever it descends, the vertices come to an end
themselves, and no descent is infinite. -/
theorem dfs_ends_iff (hown : ∀ i, Grows fun n => own n i) {R : Outcome (Option β) → Prop}
    (hR : IsEnd R) (i : ι) :
    (∃ n, R (dfs own next n i)) ↔
      Acc (fun j i => Descends own next i j) i ∧
        ∀ j, ReflTransGen (Descends own next) i j → ∃ n, R (own n j) := by
  constructor
  · rintro ⟨n, h⟩
    induction n generalizing i with
    | zero => exact absurd h hR.not_timeout
    | succ n ih =>
      have hbelow := fun j hij => ih j (end_of_descends hown hR h hij)
      refine ⟨⟨i, fun j hij => (hbelow j hij).1⟩, fun j hij => ?_⟩
      rcases ReflTransGen.cases_head hij with rfl | ⟨k, hik, hkj⟩
      · exact own_end_of_dfs hR h
      · exact (hbelow k hik).2 j hkj
  · rintro ⟨hacc, hend⟩
    induction hacc with
    | intro i _ ih =>
      obtain ⟨n, hn⟩ := hend i .refl
      cases hi : own n i with
      | done o =>
        cases o with
        | some b => exact ⟨n + 1, by rw [dfs_of_own hi]; exact hR.done _⟩
        | none =>
          have hbelow := fun j hij => ih j hij fun m hm => hend m (.head hij hm)
          obtain ⟨m, hm⟩ := search_end_of_descends hown hR ⟨n, hi⟩ hbelow [] (next i) rfl (by simp)
          refine ⟨max n m + 1, ?_⟩
          have hi' : own (max n m) i = done none := (hown i).eq_done hi (Nat.le_max_left n m)
          rw [dfs_of_misses hi', (search_grows (dfs_grows hown) _).eq (Nat.le_max_right n m)
            (hR.ne_timeout hm)]
          exact hm
      | halt msg => exact ⟨n + 1, by rw [dfs, hi]; rw [hi] at hn; exact hn⟩
      | fault => exact ⟨n + 1, by rw [dfs, hi]; rw [hi] at hn; exact hn⟩
      | timeout => exact absurd hn (by rw [hi]; exact hR.not_timeout)

theorem dfs_ends_of_wellFounded (hown : ∀ i, Grows fun n => own n i)
    {R : Outcome (Option β) → Prop} (hR : IsEnd R) (hwf : WellFounded fun j i => j ∈ next i)
    {i : ι} (hend : ∀ j, Reach next i j → ∃ n, R (own n j)) : ∃ n, R (dfs own next n i) := by
  refine (dfs_ends_iff hown hR i).mpr ⟨?_, fun j hij => hend j ?_⟩
  · exact Subrelation.accessible (fun h => h.mem) (hwf.apply i)
  · exact ReflTransGen.mono (fun _ _ h => h.mem) i j hij

theorem dfs_none_iff (hown : ∀ i, Grows fun n => own n i) (hwf : WellFounded fun j i => j ∈ next i)
    {i : ι} : Yields (fun n => dfs own next n i) none ↔ ∀ j, Reach next i j → Misses own j := by
  constructor
  · rintro ⟨n, hn⟩
    exact dfs_none hn
  · intro h
    have hR : IsEnd fun x : Outcome (Option β) => x ≠ timeout := ⟨by simp, by simp⟩
    obtain ⟨n, hn⟩ := dfs_ends_of_wellFounded hown hR hwf fun j hij =>
      let ⟨m, hm⟩ := h j hij
      ⟨m, by simp [hm]⟩
    exact ⟨n, dfs_eq_none hown hn h⟩

theorem FirstIn.of_append {l m : List ι} {j : ι} {b : β} (h : FirstIn own (l ++ m) j b) :
    FirstIn own l j b ∨ ((∀ k ∈ l, Misses own k) ∧ FirstIn own m j b) := by
  obtain ⟨l1, l2, heq, hmiss, hj⟩ := h
  rcases List.append_eq_append_iff.mp heq with ⟨l', rfl, hm⟩ | ⟨l', rfl, hl⟩
  · refine Or.inr ⟨fun k hk => hmiss k (by simp [hk]), l', l2, hm, ?_, hj⟩
    exact fun k hk => hmiss k (by simp [hk])
  · cases l' with
    | nil =>
      refine Or.inr ⟨fun k hk => hmiss k (by simpa using hk), [], l2, ?_, by simp, hj⟩
      simpa using hl.symm
    | cons k l' =>
      obtain ⟨rfl, rfl⟩ := List.cons_eq_cons.mp hl
      exact Or.inl ⟨l1, l', rfl, hmiss, hj⟩

theorem FirstIn.of_flatMap {l : List ι} {f : ι → List ι} {j : ι} {b : β}
    (h : FirstIn own (l.flatMap f) j b) :
    ∃ l1 k l2, l = l1 ++ k :: l2 ∧ (∀ m ∈ l1, ∀ x ∈ f m, Misses own x) ∧ FirstIn own (f k) j b := by
  induction l with
  | nil =>
    obtain ⟨l1, l2, heq, -⟩ := h
    simp at heq
  | cons k l ih =>
    rw [List.flatMap_cons] at h
    rcases h.of_append with h | ⟨hk, h⟩
    · exact ⟨[], k, l, rfl, by simp, h⟩
    · obtain ⟨l1, m, l2, rfl, hmiss, hm⟩ := ih h
      exact ⟨k :: l1, m, l2, rfl, by simpa using ⟨hk, hmiss⟩, hm⟩

/-- **The search answers in preorder**, with the first answer that there is. -/
theorem dfs_some_iff (hown : ∀ i, Grows fun n => own n i)
    (hwf : WellFounded fun j i => j ∈ next i) {i : ι} {b : β} :
    Yields (fun n => dfs own next n i) (some b) ↔ ∃ j, FirstIn own (preorder hwf i) j b := by
  constructor
  · rintro ⟨n, hn⟩
    exact dfs_some hwf hn
  · rintro ⟨j, h⟩
    induction i using hwf.induction with
    | _ i ih =>
      rw [preorder_eq, ← List.singleton_append] at h
      rcases h.of_append with h | ⟨hi, h⟩
      · obtain ⟨l1, l2, heq, -, n, hn⟩ := h
        obtain ⟨rfl, rfl, rfl⟩ : l1 = [] ∧ i = j ∧ l2 = [] := by
          cases l1 <;> simp_all
        exact ⟨n + 1, dfs_of_own hn⟩
      · obtain ⟨l1, k, l2, hnext, hmiss, hk⟩ := h.of_flatMap
        obtain ⟨n, hn⟩ := hi i (by simp)
        have hsome : Yields (fun n => search (dfs own next n) (next i)) (some b) := by
          refine (yields_search_some (dfs_grows hown)).mpr ⟨l1, k, l2, hnext, ?_, ?_⟩
          · intro m hm
            refine (dfs_none_iff hown hwf).mpr fun x hx => hmiss m hm x ?_
            exact (mem_preorder hwf m x).mpr hx
          · exact ih k (by simp [hnext]) hk
        obtain ⟨m, hm⟩ := hsome
        refine ⟨max n m + 1, ?_⟩
        show dfs own next (max n m + 1) i = done (some b)
        rw [dfs_of_misses ((hown i).eq_done hn (Nat.le_max_left n m))]
        exact (search_grows (dfs_grows hown) _).eq_done hm (Nat.le_max_right n m)

end LibSystem.Graph
