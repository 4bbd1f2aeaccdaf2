import Mathlib.Data.List.Infix

/-!
# Compressed tries

A node may hold a value, and each of its edges has a label of one or more
letters. The strings of a trie are the paths to its values.
-/

namespace LibSystem

mutual

inductive Trie (α β : Type) where
  | node (value : Option β) (edges : Edges α β)

inductive Edges (α β : Type) where
  | nil
  | cons (label : List α) (child : Trie α β) (rest : Edges α β)

end

variable {α β : Type}

namespace Edges

def toList : Edges α β → List (List α × Trie α β)
  | nil => []
  | cons label child rest => (label, child) :: rest.toList

def length : Edges α β → Nat
  | nil => 0
  | cons _ _ rest => rest.length + 1

end Edges

/-- The trie holds `v` under the string `s`. -/
inductive Trie.Stores : Trie α β → List α → β → Prop
  | here (v : β) (edges : Edges α β) : Stores (.node (some v) edges) [] v
  | child (value : Option β) (edges : Edges α β) (label : List α) (t : Trie α β) (rest : List α)
      (v : β) (hedge : (label, t) ∈ edges.toList) (ht : Stores t rest v) :
      Stores (.node value edges) (label ++ rest) v

mutual

/-- No label is empty, and no label is a prefix of a label beside it. -/
def Trie.WellFormed : Trie α β → Prop
  | .node _ edges => edges.WellFormed

def Edges.WellFormed : Edges α β → Prop
  | .nil => True
  | .cons label child rest =>
    label ≠ [] ∧ (∀ e ∈ rest.toList, ¬ label <+: e.1 ∧ ¬ e.1 <+: label) ∧
      child.WellFormed ∧ rest.WellFormed

end

mutual

/-- The levels below a node, itself included. -/
def Trie.depth : Trie α β → Nat
  | .node _ edges => edges.depth + 1

def Edges.depth : Edges α β → Nat
  | .nil => 1
  | .cons _ child rest => max child.depth rest.depth

end

theorem Edges.label_ne_nil : (edges : Edges α β) → edges.WellFormed →
    ∀ e ∈ edges.toList, e.1 ≠ []
  | .nil, _ => by simp [Edges.toList]
  | .cons label child rest, h => by
    intro e he
    rcases List.mem_cons.mp he with rfl | he
    · exact h.1
    · exact label_ne_nil rest h.2.2.2 e he

theorem Edges.not_prefix_of_prefix {label : List α} {s : List α} {rest : Edges α β}
    (h : ∀ e ∈ rest.toList, ¬ label <+: e.1 ∧ ¬ e.1 <+: label) (hs : label <+: s) :
    ∀ e ∈ rest.toList, ¬ e.1 <+: s := by
  intro e he hes
  rcases List.prefix_or_prefix_of_prefix hs hes with hle | hle
  · exact (h e he).1 hle
  · exact (h e he).2 hle

variable [DecidableEq α]

mutual

/-- Walks down along the first edge that fits, and never turns back. -/
def Trie.lookup : Trie α β → List α → Option β
  | .node value edges, s => if s = [] ∧ value.isSome then value else edges.lookup s

def Edges.lookup : Edges α β → List α → Option β
  | .nil, _ => none
  | .cons label child rest, s =>
    if label <+: s then child.lookup (s.drop label.length) else rest.lookup s

end

mutual

theorem Trie.lookup_eq_some_iff (t : Trie α β) (h : t.WellFormed) (s : List α) (v : β) :
    t.lookup s = some v ↔ t.Stores s v := by
  match t with
  | .node value edges =>
    have hedges := edges.lookup_eq_some_iff h s v
    rw [Trie.lookup]
    constructor
    · intro hv
      split_ifs at hv with hs
      · rw [hs.1, hv]
        exact .here v edges
      · obtain ⟨e, he, rest, rfl, hrest⟩ := hedges.mp hv
        exact .child value edges e.1 e.2 rest v he hrest
    · intro hv
      cases hv with
      | here => simp
      | child _ _ label t rest _ hedge ht =>
        have hne := edges.label_ne_nil h _ hedge
        rw [if_neg (by simp at hne; simp [hne])]
        exact hedges.mpr ⟨_, hedge, rest, rfl, ht⟩

theorem Edges.lookup_eq_some_iff (edges : Edges α β) (h : edges.WellFormed) (s : List α) (v : β) :
    edges.lookup s = some v ↔ ∃ e ∈ edges.toList, ∃ rest, s = e.1 ++ rest ∧ e.2.Stores rest v := by
  match edges with
  | .nil => simp [Edges.lookup, Edges.toList]
  | .cons label child rest =>
    obtain ⟨-, hsib, hchild, hrest⟩ := h
    rw [Edges.lookup, Edges.toList]
    split_ifs with hs
    · obtain ⟨tail, rfl⟩ := id hs
      rw [List.drop_left, child.lookup_eq_some_iff hchild]
      constructor
      · intro hv
        exact ⟨_, List.mem_cons_self, tail, rfl, hv⟩
      · rintro ⟨e, he, tail', heq, hv⟩
        rcases List.mem_cons.mp he with rfl | he
        · rwa [List.append_cancel_left heq]
        · exact absurd ⟨tail', heq.symm⟩ (Edges.not_prefix_of_prefix hsib hs e he)
    · rw [rest.lookup_eq_some_iff hrest]
      constructor
      · rintro ⟨e, he, hv⟩
        exact ⟨e, List.mem_cons_of_mem _ he, hv⟩
      · rintro ⟨e, he, tail, rfl, hv⟩
        rcases List.mem_cons.mp he with rfl | he
        · exact absurd (List.prefix_append _ _) hs
        · exact ⟨e, he, tail, rfl, hv⟩

end

end LibSystem
