import Mathlib.Data.List.Cycle
import Mathlib.Logic.Function.Basic

/-!
# Rings of doubly linked nodes

The links are two maps, `fd` to the next node and `bk` to the one before it. A
ring is a list of nodes up to rotation.
-/

namespace LibSystem

open Function

variable {α : Type} {fd bk fd' bk' : α → α} {x y : α} {l l' : List α}

/-- `y` comes right after `x`. -/
def Adjacent (fd bk : α → α) (x y : α) : Prop := fd x = y ∧ bk y = x

theorem isChain_adjacent_congr (h : l.IsChain (Adjacent fd bk))
    (hfd : ∀ x ∈ l.dropLast, fd' x = fd x) (hbk : ∀ x ∈ l.tail, bk' x = bk x) :
    l.IsChain (Adjacent fd' bk') := by
  induction l with
  | nil => simp
  | cons x l ih =>
    cases l with
    | nil => simp
    | cons y l =>
      rw [List.isChain_cons_cons] at h ⊢
      obtain ⟨⟨hx, hy⟩, h⟩ := h
      refine ⟨⟨by rw [hfd x (by simp), hx], by rw [hbk y (by simp), hy]⟩, ih h ?_ ?_⟩
      · exact fun z hz => hfd z (by simp [hz])
      · exact fun z hz => hbk z (by simp [List.mem_of_mem_tail hz])

/-- The nodes of `l` are linked in this order, and the last one to the first one. -/
def LinkedRing (fd bk : α → α) (l : List α) : Prop := Cycle.Chain (Adjacent fd bk) (l : Cycle α)

namespace LinkedRing

theorem rotate (h : l.IsRotated l') (hring : LinkedRing fd bk l) : LinkedRing fd bk l' := by
  unfold LinkedRing
  rwa [← Cycle.coe_eq_coe.mpr h]

theorem swap {l1 l2 : List α} (h : LinkedRing fd bk (l1 ++ l2)) : LinkedRing fd bk (l2 ++ l1) :=
  h.rotate List.isRotated_append

theorem iff_isChain (hl : l ≠ []) :
    LinkedRing fd bk l ↔
      Adjacent fd bk (l.getLast hl) (l.head hl) ∧ l.IsChain (Adjacent fd bk) := by
  rw [LinkedRing, Cycle.chain_ne_nil _ hl]
  obtain ⟨x, l, rfl⟩ := List.exists_cons_of_ne_nil hl
  exact List.isChain_cons_cons

theorem singleton_iff : LinkedRing fd bk [x] ↔ fd x = x ∧ bk x = x := by
  simp [iff_isChain, Adjacent]

theorem congr (hring : LinkedRing fd bk l) (hfd : ∀ x ∈ l, fd' x = fd x)
    (hbk : ∀ x ∈ l, bk' x = bk x) : LinkedRing fd' bk' l := by
  by_cases hl : l = []
  · rw [hl]
    exact Cycle.Chain.nil _
  · rw [iff_isChain hl] at hring ⊢
    obtain ⟨⟨hlast, hhead⟩, hchain⟩ := hring
    refine ⟨⟨?_, ?_⟩, isChain_adjacent_congr hchain ?_ ?_⟩
    · rw [hfd _ (List.getLast_mem hl), hlast]
    · rw [hbk _ (List.head_mem hl), hhead]
    · exact fun x hx => hfd x (List.mem_of_mem_dropLast hx)
    · exact fun x hx => hbk x (List.mem_of_mem_tail hx)

theorem rotated_to (hring : LinkedRing fd bk l) (hx : x ∈ l) :
    ∃ l', l.IsRotated (x :: l') ∧ LinkedRing fd bk (x :: l') := by
  obtain ⟨l1, l2, rfl⟩ := List.append_of_mem hx
  have hrot : (l1 ++ x :: l2).IsRotated (x :: (l2 ++ l1)) := List.isRotated_append
  exact ⟨l2 ++ l1, hrot, hring.rotate hrot⟩

theorem bk_spec (hring : LinkedRing fd bk l) (hx : x ∈ l) : bk x ∈ l ∧ fd (bk x) = x := by
  obtain ⟨l', hrot, hring⟩ := hring.rotated_to hx
  obtain ⟨⟨hlast, hhead⟩, -⟩ := (iff_isChain (by simp)).mp hring
  rw [List.head_cons] at hlast hhead
  rw [hhead, hrot.mem_iff]
  exact ⟨List.getLast_mem _, hlast⟩

theorem fd_spec (hring : LinkedRing fd bk l) (hx : x ∈ l) : fd x ∈ l ∧ bk (fd x) = x := by
  obtain ⟨l', hrot, hring⟩ := hring.rotated_to hx
  have hrot : l.IsRotated (l' ++ [x]) := hrot.trans (show ([x] ++ l').IsRotated (l' ++ [x]) from
    List.isRotated_append)
  have hring : LinkedRing fd bk ([x] ++ l') := hring
  have hring := hring.swap
  obtain ⟨⟨hlast, hhead⟩, -⟩ := (iff_isChain (by simp)).mp hring
  rw [List.getLast_append_singleton] at hlast hhead
  rw [hlast, hrot.mem_iff]
  exact ⟨List.head_mem _, hhead⟩

theorem cons_spec (hring : LinkedRing fd bk (x :: l)) (hl : l ≠ []) :
    fd x = l.head hl ∧ bk x = l.getLast hl := by
  obtain ⟨⟨-, hhead⟩, hchain⟩ := (iff_isChain (by simp)).mp hring
  rw [List.head_cons, List.getLast_cons hl] at hhead
  obtain ⟨y, l, rfl⟩ := List.exists_cons_of_ne_nil hl
  exact ⟨(List.isChain_cons_cons.mp hchain).1.1, hhead⟩

theorem fd_ne_bk (hring : LinkedRing fd bk l) (hnodup : l.Nodup) (hx : x ∈ l)
    (hlen : 2 < l.length) : fd x ≠ bk x := by
  obtain ⟨l', hrot, hring⟩ := hring.rotated_to hx
  have hnodup := (List.nodup_cons.mp (hrot.nodup_iff.mp hnodup)).2
  have hlen' := hrot.perm.length_eq
  rw [List.length_cons] at hlen'
  have hl' : l' ≠ [] := by
    rintro rfl
    simp at hlen'
    omega
  obtain ⟨hfd, hbk⟩ := hring.cons_spec hl'
  rw [hfd, hbk]
  obtain ⟨y, l, rfl⟩ := List.exists_cons_of_ne_nil hl'
  have hl : l ≠ [] := by
    rintro rfl
    simp at hlen'
    omega
  rw [List.head_cons, List.getLast_cons hl]
  exact fun heq => (List.nodup_cons.mp hnodup).1 (heq ▸ List.getLast_mem hl)

theorem bk_eq_self_iff (hring : LinkedRing fd bk l) (hnodup : l.Nodup) (hx : x ∈ l) :
    bk x = x ↔ l = [x] := by
  constructor
  · intro h
    obtain ⟨l', hrot, hring⟩ := hring.rotated_to hx
    by_cases hl' : l' = []
    · rw [hl'] at hrot
      exact List.isRotated_singleton_iff.mp hrot
    · obtain ⟨⟨-, hhead⟩, -⟩ := (iff_isChain (by simp)).mp hring
      rw [List.head_cons, h, List.getLast_cons hl'] at hhead
      have hnodup := hrot.nodup_iff.mp hnodup
      exact absurd (hhead ▸ List.getLast_mem hl') (List.nodup_cons.mp hnodup).1
  · rintro rfl
    exact (singleton_iff.mp hring).2

theorem push [DecidableEq α] (hring : LinkedRing fd bk l) (hnodup : l.Nodup) (hl : l ≠ [])
    (hx : x ∉ l) :
    LinkedRing (update (update fd (l.getLast hl) x) x (l.head hl))
      (update (update bk (l.head hl) x) x (l.getLast hl)) (l ++ [x]) := by
  obtain ⟨-, hchain⟩ := (iff_isChain hl).mp hring
  have hne : ∀ y ∈ l, y ≠ x := fun y hy h => hx (h ▸ hy)
  have hlast := hne _ (List.getLast_mem hl)
  have hhead := hne _ (List.head_mem hl)
  refine (iff_isChain (by simp)).mpr ⟨?_, List.isChain_append.mpr ⟨?_, by simp, ?_⟩⟩
  · rw [List.head_append_of_ne_nil hl, List.getLast_append_singleton]
    simp [Adjacent, hhead]
  · refine isChain_adjacent_congr hchain (fun y hy => ?_) (fun y hy => ?_)
    · have hylast : y ≠ l.getLast hl := by
        rintro rfl
        rw [← List.dropLast_append_getLast hl, List.nodup_append] at hnodup
        exact hnodup.2.2 _ hy _ (by simp) rfl
      rw [update_of_ne (hne y (List.mem_of_mem_dropLast hy)), update_of_ne hylast]
    · have hyhead : y ≠ l.head hl := by
        rintro rfl
        rw [← List.cons_head_tail hl] at hnodup
        exact (List.nodup_cons.mp hnodup).1 hy
      rw [update_of_ne (hne y (List.mem_of_mem_tail hy)), update_of_ne hyhead]
  · intro y hy z hz
    obtain rfl : y = l.getLast hl := by
      rw [List.getLast?_eq_some_getLast hl] at hy
      exact (Option.some.inj hy).symm
    obtain rfl : x = z := by simpa using hz
    simp [Adjacent, hlast]

theorem push_after [DecidableEq α] (hring : LinkedRing fd bk (x :: l)) (hnodup : (x :: l).Nodup)
    (hy : y ∉ x :: l) :
    LinkedRing (update (update fd x y) y (fd x)) (update (update bk (fd x) y) y x)
      (x :: y :: l) := by
  rw [← List.singleton_append] at hring hnodup hy
  have hring := hring.swap
  have hpush := hring.push (List.nodup_append_comm.mp hnodup) (by simp) (x := y)
    (by simpa [or_comm] using hy)
  obtain ⟨⟨hhead, -⟩, -⟩ := (iff_isChain (by simp)).mp hring
  rw [← hhead] at hpush
  simp only [List.getLast_append_singleton] at hpush
  rw [List.append_assoc] at hpush
  exact hpush.swap

theorem pop [DecidableEq α] (hring : LinkedRing fd bk (x :: l)) (hnodup : (x :: l).Nodup) :
    LinkedRing (update fd (bk x) (fd x)) (update bk (fd x) (bk x)) l := by
  by_cases hl : l = []
  · rw [hl]
    exact Cycle.Chain.nil _
  · obtain ⟨⟨hlast, hhead⟩, hchain⟩ := (iff_isChain (by simp)).mp hring
    rw [List.head_cons, List.getLast_cons hl] at hhead
    obtain ⟨y, l, rfl⟩ := List.exists_cons_of_ne_nil hl
    obtain ⟨⟨rfl, hy⟩, hchain⟩ := List.isChain_cons_cons.mp hchain
    obtain ⟨-, hnodup⟩ := List.nodup_cons.mp hnodup
    refine (iff_isChain hl).mpr ⟨?_, isChain_adjacent_congr hchain ?_ ?_⟩
    · simp [Adjacent, ← hhead]
    · intro z hz
      refine update_of_ne ?_ _ _
      rintro rfl
      rw [hhead] at hz
      rw [← List.dropLast_append_getLast hl, List.nodup_append] at hnodup
      exact hnodup.2.2 _ hz _ (by simp) rfl
    · intro z hz
      refine update_of_ne ?_ _ _
      rintro rfl
      exact (List.nodup_cons.mp hnodup).1 hz

end LinkedRing

end LibSystem
