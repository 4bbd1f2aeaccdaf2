import Mathlib.Order.WellFoundedSet
import Mathlib.Logic.Relation

/-!
# Cycles, and depth first order

A graph is a relation, or a list of successors for each vertex.
-/

namespace LibSystem.Graph

open Relation

variable {ι : Type} {r : ι → ι → Prop}

theorem not_transGen_of_acc {i : ι} (h : Acc (fun j i => r i j) i) : ¬ TransGen r i i := by
  induction h with
  | intro i _ ih =>
    intro hcycle
    obtain ⟨j, hij, hji⟩ := TransGen.head'_iff.mp hcycle
    exact ih j hij (TransGen.tail' hji hij)

theorem acc_of_reflTransGen {i j : ι} (h : Acc (fun j i => r i j) i) (hij : ReflTransGen r i j) :
    Acc (fun j i => r i j) j := by
  induction hij with
  | refl => exact h
  | tail _ hstep ih => exact ih.inv hstep

theorem wellFounded_of_acyclic (hfin : Set.Finite {i | ∃ j, r i j}) (hac : ∀ i, ¬ TransGen r i i) :
    WellFounded fun j i => r i j := by
  have : IsStrictOrder ι fun j i => TransGen r i j :=
    { irrefl := hac, trans := fun _ _ _ h1 h2 => h2.trans h1 }
  have hon : Set.WellFoundedOn {i | ∃ j, r i j} fun j i => TransGen r i j := hfin.wellFoundedOn
  have hwf := Set.wellFoundedOn_iff.mp hon
  refine ⟨fun i => ?_⟩
  induction i using hwf.induction with
  | _ i ih =>
    refine ⟨i, fun j hij => ?_⟩
    by_cases hj : ∃ k, r j k
    · exact ih j ⟨.single hij, hj, j, hij⟩
    · exact ⟨j, fun k hjk => absurd ⟨k, hjk⟩ hj⟩

theorem acc_iff_no_cycle_of_reach {i : ι}
    (hfin : Set.Finite {j | ReflTransGen r i j ∧ ∃ k, r j k}) :
    Acc (fun j i => r i j) i ↔ ∀ j, ReflTransGen r i j → ¬ TransGen r j j := by
  constructor
  · intro h j hij
    exact not_transGen_of_acc (acc_of_reflTransGen h hij)
  · intro h
    -- Cut the graph down to what is reachable from `i`.
    let r' : ι → ι → Prop := fun a b => ReflTransGen r i a ∧ r a b
    have hsub : ∀ a b, r' a b → r a b := fun a b hab => hab.2
    have hwf : WellFounded fun b a => r' a b := by
      refine wellFounded_of_acyclic (hfin.subset fun a ⟨b, hab⟩ => ⟨hab.1, b, hab.2⟩) fun a ha => ?_
      obtain ⟨b, hab, -⟩ := TransGen.head'_iff.mp ha
      exact h a hab.1 (TransGen.mono hsub a a ha)
    have hacc : ∀ a, ReflTransGen r i a → Acc (fun b a => r a b) a := fun a => by
      induction a using hwf.induction with
      | _ a ih => exact fun ha => ⟨a, fun b hab => ih b ⟨ha, hab⟩ (ha.tail hab)⟩
    exact hacc i .refl

theorem acc_iff_no_cycle (hfin : Set.Finite {i | ∃ j, r i j}) (i : ι) :
    Acc (fun j i => r i j) i ↔ ∀ j, ReflTransGen r i j → ¬ TransGen r j j :=
  acc_iff_no_cycle_of_reach (hfin.subset fun _ h => h.2)

/-! ## Depth first order -/

variable {next : ι → List ι}

/-- `j` can be reached from `i`. -/
def Reach (next : ι → List ι) : ι → ι → Prop := ReflTransGen fun i j => j ∈ next i

def Acyclic (next : ι → List ι) : Prop := ∀ i, ¬ TransGen (fun i j => j ∈ next i) i i

theorem Acyclic.wellFounded (h : Acyclic next) (hfin : Set.Finite {i | next i ≠ []}) :
    WellFounded fun j i => j ∈ next i :=
  wellFounded_of_acyclic (hfin.subset fun _ ⟨_, hj⟩ => List.ne_nil_of_mem hj) h

theorem finite_of_bound {next : Nat → List ι} {n : Nat} (h : ∀ i, n ≤ i → next i = []) :
    Set.Finite {i | next i ≠ []} := by
  refine (List.finite_toSet (List.range n)).subset fun i hi => ?_
  exact List.mem_range.mpr (Nat.lt_of_not_le fun hle => hi (h i hle))

/-- A vertex, and then all below it, one successor after the other. -/
noncomputable def preorder (hwf : WellFounded fun j i => j ∈ next i) : ι → List ι :=
  hwf.fix fun i below => i :: (next i).attach.flatMap fun j => below j.1 j.2

theorem preorder_eq (hwf : WellFounded fun j i => j ∈ next i) (i : ι) :
    preorder hwf i = i :: (next i).flatMap (preorder hwf) := by
  unfold preorder
  rw [hwf.fix_eq]
  congr 1
  conv_rhs => rw [← List.attach_map_subtype_val (next i)]
  rw [List.flatMap_map]

theorem mem_preorder (hwf : WellFounded fun j i => j ∈ next i) (i j : ι) :
    j ∈ preorder hwf i ↔ Reach next i j := by
  induction i using hwf.induction with
  | _ i ih =>
    rw [preorder_eq, List.mem_cons, List.mem_flatMap]
    constructor
    · rintro (rfl | ⟨k, hk, hj⟩)
      · exact .refl
      · exact .head hk ((ih k hk).mp hj)
    · intro hij
      rcases ReflTransGen.cases_head hij with rfl | ⟨k, hk, hkj⟩
      · exact Or.inl rfl
      · exact Or.inr ⟨k, hk, (ih k hk).mpr hkj⟩

end LibSystem.Graph
