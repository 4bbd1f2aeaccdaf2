import Mathlib.Data.List.Chain

/-!
# Tilings

Blocks that follow one another without a gap, and lists in which a part is
exchanged.
-/

namespace LibSystem

variable {α : Type} {lo hi : α → Nat} {l r mid mid' : List α} {x y a b : α}

/-- The blocks are not empty, and each one begins where the one before it ends. -/
structure Tiling (lo hi : α → Nat) (l : List α) : Prop where
  abut : l.IsChain fun a b => lo b = hi a
  pos {a : α} : a ∈ l → lo a < hi a

namespace Tiling

theorem pairwise (h : Tiling lo hi l) : l.Pairwise fun a b => hi a ≤ lo b := by
  have hchain : l.IsChain fun a b => hi a ≤ lo b ∧ lo b < hi b :=
    h.abut.imp_of_mem_imp fun a b _ hb hab => ⟨hab.ge, h.pos hb⟩
  have : IsTrans α fun a b => hi a ≤ lo b ∧ lo b < hi b :=
    ⟨fun a b c hab hbc => ⟨(hab.1.trans hab.2.le).trans hbc.1, hbc.2⟩⟩
  exact (List.isChain_iff_pairwise.mp hchain).imp fun h => h.1

theorem le_of_before (h : Tiling lo hi (l ++ x :: r)) (ha : a ∈ l) : hi a ≤ lo x :=
  (List.pairwise_append.mp h.pairwise).2.2 a ha x List.mem_cons_self

theorem le_of_after (h : Tiling lo hi (l ++ x :: r)) (ha : a ∈ r) : hi x ≤ lo a :=
  (List.pairwise_cons.mp (List.pairwise_append.mp h.pairwise).2.1).1 a ha

theorem eq_of_overlap (h : Tiling lo hi l) (ha : a ∈ l) (hb : b ∈ l) (hab : lo a < hi b)
    (hba : lo b < hi a) : a = b := by
  obtain ⟨s, t, rfl⟩ := List.append_of_mem ha
  rcases List.mem_append.mp hb with hb | hb
  · exact absurd (h.le_of_before hb) (Nat.not_le_of_lt hab)
  · rcases List.mem_cons.mp hb with rfl | hb
    · rfl
    · exact absurd (h.le_of_after hb) (Nat.not_le_of_lt hba)

theorem eq_of_lo (h : Tiling lo hi l) (ha : a ∈ l) (hb : b ∈ l) (hab : lo a = lo b) : a = b :=
  h.eq_of_overlap ha hb (hab ▸ h.pos hb) (hab ▸ h.pos ha)

end Tiling

theorem isChain_splice {R R' : α → α → Prop} (h : (l ++ x :: (mid ++ y :: r)).IsChain R)
    (hl : ∀ a b, b ∈ l ++ [x] → R a b → R' a b) (hmid : (x :: (mid' ++ [y])).IsChain R')
    (hr : ∀ a b, b ∈ r → R a b → R' a b) : (l ++ x :: (mid' ++ y :: r)).IsChain R' := by
  obtain ⟨hbefore, hrest⟩ := List.isChain_split.mp h
  rw [← List.cons_append, List.isChain_split] at hrest
  refine List.isChain_split.mpr ⟨hbefore.imp_of_mem_imp fun a b _ hb => hl a b hb, ?_⟩
  rw [← List.cons_append, List.isChain_split]
  exact ⟨hmid, hrest.2.imp_of_mem_tail_imp fun a b _ hb => hr a b hb⟩

theorem exists_neighbours {P : α → Prop} (hfirst : ∀ a ∈ l.head?, P a)
    (hlast : ∀ a ∈ l.getLast?, P a) (hb : b ∈ l) (hP : ¬ P b) :
    ∃ s x y t, l = s ++ x :: b :: y :: t := by
  obtain ⟨s, t, rfl⟩ := List.append_of_mem hb
  rcases List.eq_nil_or_concat s with rfl | ⟨s, x, rfl⟩
  · exact absurd (hfirst b (by simp)) hP
  · cases t with
    | nil => exact absurd (hlast b (by simp)) hP
    | cons y t => exact ⟨s, x, y, t, by simp⟩

end LibSystem
