import Mathlib.Data.List.Infix
import Mathlib.Data.Nat.Bitwise
import Mathlib.Logic.Function.Basic

/-!
# Digital search trees

A path from the root is a list of turns, the last one first, and `true` is the
turn to the right. A tree is a map from paths to items. Every item has a key of
its own, of `w` bits under a common upper part, and lies at a path that spells
the upper bits of its key. It need not be a leaf.
-/

namespace LibSystem

open Function

variable {α : Type} {w m n : Nat} {p q : List Bool} {b : Bool}

/-- The turns of the path are the bits of `n` below `w`, from the top. -/
def Spells (w : Nat) : List Bool → Nat → Prop
  | [], _ => True
  | b :: p, n => Spells w p n ∧ p.length < w ∧ n.testBit (w - (p.length + 1)) = b

namespace Spells

theorem next (h : Spells w p n) (hlen : p.length < w) :
    Spells w (n.testBit (w - (p.length + 1)) :: p) n := ⟨h, hlen, rfl⟩

theorem length_le (h : Spells w p n) : p.length ≤ w := by
  cases p with
  | nil => exact Nat.zero_le w
  | cons b p => exact h.2.1

theorem of_suffix (h : Spells w q n) (hpq : p <:+ q) : Spells w p n := by
  induction q with
  | nil =>
    rw [List.suffix_nil.mp hpq]
    exact h
  | cons b q ih =>
    rcases List.suffix_cons_iff.mp hpq with rfl | hpq
    · exact h
    · exact ih h.1 hpq

theorem suffix_or_suffix (hp : Spells w p n) (hq : Spells w q n) : p <:+ q ∨ q <:+ p := by
  induction p with
  | nil => exact Or.inl (List.nil_suffix)
  | cons b p ih =>
    rcases ih hp.1 with hpq | hqp
    · obtain ⟨r, rfl⟩ := hpq
      rcases List.eq_nil_or_concat r with rfl | ⟨r, c, rfl⟩
      · exact Or.inr (List.suffix_cons b p)
      · left
        rw [List.concat_eq_append, List.append_assoc, List.singleton_append] at hq ⊢
        have hc := hq.of_suffix (List.suffix_append r (c :: p))
        rw [show c = b from hc.2.2.symm.trans hp.2.2]
        exact List.suffix_append r (b :: p)
    · exact Or.inr (hqp.trans (List.suffix_cons b p))

theorem div_eq (hm : Spells w p m) (hn : Spells w p n) (hmn : m / 2 ^ w = n / 2 ^ w) :
    m / 2 ^ (w - p.length) = n / 2 ^ (w - p.length) := by
  induction p with
  | nil => exact hmn
  | cons b p ih =>
    have h := ih hm.1 hn.1
    have hlen : w - p.length = w - (p.length + 1) + 1 := by
      have := hm.2.1
      omega
    have hbit := hm.2.2.trans hn.2.2.symm
    rw [hlen, Nat.pow_succ, ← Nat.div_div_eq_div_mul, ← Nat.div_div_eq_div_mul] at h
    rw [Nat.testBit_eq_decide_div_mod_eq, Nat.testBit_eq_decide_div_mod_eq,
      decide_eq_decide] at hbit
    rw [List.length_cons]
    omega

theorem eq_of_length (hm : Spells w p m) (hn : Spells w p n) (hmn : m / 2 ^ w = n / 2 ^ w)
    (hlen : w ≤ p.length) : m = n := by
  have h := hm.div_eq hn hmn
  rw [show w - p.length = 0 by omega] at h
  simpa using h

theorem lt (hm : Spells w (false :: p) m) (hn : Spells w (true :: p) n)
    (hmn : m / 2 ^ w = n / 2 ^ w) : m < n := by
  have h := hm.1.div_eq hn.1 hmn
  have hlen : w - p.length = w - (p.length + 1) + 1 := by
    have := hm.2.1
    omega
  have hm := hm.2.2
  have hn := hn.2.2
  rw [hlen, Nat.pow_succ, ← Nat.div_div_eq_div_mul, ← Nat.div_div_eq_div_mul] at h
  rw [Nat.testBit_eq_decide_div_mod_eq, decide_eq_false_iff_not] at hm
  rw [Nat.testBit_eq_decide_div_mod_eq, decide_eq_true_eq] at hn
  refine lt_of_not_ge fun hle => ?_
  have := Nat.div_le_div_right (c := 2 ^ (w - (p.length + 1))) hle
  omega

end Spells

/-- The paths of a subtree. -/
def Below (p q : List Bool) : Prop := p <:+ q

theorem below_iff : Below p q ↔ q = p ∨ Below (false :: p) q ∨ Below (true :: p) q := by
  constructor
  · rintro ⟨r, rfl⟩
    rcases List.eq_nil_or_concat r with rfl | ⟨r, b, rfl⟩
    · exact Or.inl rfl
    · rw [List.concat_eq_append, List.append_assoc, List.singleton_append]
      cases b with
      | false => exact Or.inr (Or.inl (List.suffix_append r _))
      | true => exact Or.inr (Or.inr (List.suffix_append r _))
  · rintro (rfl | h | h)
    · exact List.suffix_refl _
    · exact (List.suffix_cons _ _).trans h
    · exact (List.suffix_cons _ _).trans h

/-- A digital search tree over the numbers `upper * 2 ^ w + i` with `i < 2 ^ w`. -/
structure DigitalTree (w upper : Nat) (key : α → Nat) (t : List Bool → Option α) : Prop where
  closed {b : Bool} {p : List Bool} : t p = none → t (b :: p) = none
  spells {p : List Bool} {a : α} : t p = some a → Spells w p (key a)
  div_eq {p : List Bool} {a : α} : t p = some a → key a / 2 ^ w = upper
  unique {p q : List Bool} {a a' : α} :
    t p = some a → t q = some a' → key a = key a' → p = q

namespace DigitalTree

variable {upper : Nat} {key : α → Nat} {t : List Bool → Option α} {a a' : α}

theorem below_none (h : DigitalTree w upper key t) (hp : t p = none) (hq : Below p q) :
    t q = none := by
  obtain ⟨r, rfl⟩ := hq
  induction r with
  | nil => exact hp
  | cons b r ih => exact h.closed ih

theorem empty : DigitalTree w upper key fun _ => none where
  closed _ := rfl
  spells := nofun
  div_eq := nofun
  unique := nofun

theorem absent (h : DigitalTree w upper key t) (hp : t p = none) (hspells : Spells w p n)
    (hway : ∀ q a, Below q p → t q = some a → key a ≠ n) (hq : t q = some a) : key a ≠ n := by
  rintro rfl
  rcases (h.spells hq).suffix_or_suffix hspells with hqp | hpq
  · exact hway q a hqp hq rfl
  · rw [h.below_none hp hpq] at hq
    simp at hq

/-! ## Changes -/

theorem update_eq_some :
    update t p (some a) q = some a' ↔ q = p ∧ a = a' ∨ q ≠ p ∧ t q = some a' := by
  by_cases hqp : q = p
  · subst hqp
    simp
  · simp [hqp]

theorem set (h : DigitalTree w upper key t) (hroom : ∀ b q, p = b :: q → t q ≠ none)
    (hspells : Spells w p (key a)) (hdiv : key a / 2 ^ w = upper)
    (hnew : ∀ q a', q ≠ p → t q = some a' → key a' ≠ key a) :
    DigitalTree w upper key (update t p (some a)) where
  closed {b q} hq := by
    have hqp : q ≠ p := by
      rintro rfl
      simp at hq
    rw [update_of_ne hqp] at hq
    rw [update_of_ne]
    · exact h.closed hq
    · rintro rfl
      exact hroom b q rfl hq
  spells {q a'} hq := by
    rcases update_eq_some.mp hq with ⟨rfl, rfl⟩ | ⟨-, hq⟩
    · exact hspells
    · exact h.spells hq
  div_eq {q a'} hq := by
    rcases update_eq_some.mp hq with ⟨rfl, rfl⟩ | ⟨-, hq⟩
    · exact hdiv
    · exact h.div_eq hq
  unique {q q' a1 a2} hq hq' hkey := by
    rcases update_eq_some.mp hq with ⟨rfl, rfl⟩ | ⟨hqp, hold⟩
    · rcases update_eq_some.mp hq' with ⟨rfl, rfl⟩ | ⟨hqp', hold'⟩
      · rfl
      · exact absurd hkey.symm (hnew q' a2 hqp' hold')
    · rcases update_eq_some.mp hq' with ⟨rfl, rfl⟩ | ⟨-, hold'⟩
      · exact absurd hkey (hnew q a1 hqp hold)
      · exact h.unique hold hold' hkey

theorem exchange (h : DigitalTree w upper key t) (hp : t p = some a) (hkey : key a' = key a) :
    DigitalTree w upper key (update t p (some a')) := by
  refine h.set ?_ (by rw [hkey]; exact h.spells hp) (by rw [hkey]; exact h.div_eq hp) ?_
  · rintro b q rfl hq
    rw [h.closed hq] at hp
    simp at hp
  · intro q a1 hqp hq heq
    exact hqp (h.unique hq hp (heq.trans hkey))

theorem of_update_none (hq : update t p none q = some a) : q ≠ p ∧ t q = some a := by
  by_cases hqp : q = p
  · subst hqp
    simp at hq
  · rw [update_of_ne hqp] at hq
    exact ⟨hqp, hq⟩

theorem prune (h : DigitalTree w upper key t) (hleaf : ∀ b, t (b :: p) = none) :
    DigitalTree w upper key (update t p none) where
  closed {b q} hq := by
    by_cases hbq : b :: q = p
    · rw [hbq, update_self]
    · rw [update_of_ne hbq]
      by_cases hqp : q = p
      · rw [hqp]
        exact hleaf b
      · rw [update_of_ne hqp] at hq
        exact h.closed hq
  spells hq := h.spells (of_update_none hq).2
  div_eq hq := h.div_eq (of_update_none hq).2
  unique hq hq' := h.unique (of_update_none hq).2 (of_update_none hq').2

/-! ## The best fit -/

/-- The least key from `n` on is `best`, or it is not smaller than such a key at a path
of `F`. -/
def Remains (key : α → Nat) (t : List Bool → Option α) (n best : Nat) (F : List Bool → Prop) :
    Prop :=
  ∀ q a, t q = some a → n ≤ key a →
    best ≤ key a ∨ ∃ q' a', F q' ∧ t q' = some a' ∧ n ≤ key a' ∧ key a' ≤ key a

variable {best : Nat} {F F' : List Bool → Prop}

theorem Remains.all : Remains key t n best (Below []) :=
  fun q a hq hn => Or.inr ⟨q, a, List.nil_suffix, hq, hn, Nat.le_refl _⟩

theorem Remains.narrow {best' : Nat} (h : Remains key t n best F) (hbest : best' ≤ best)
    (hF : ∀ q a, F q → t q = some a → n ≤ key a →
      best' ≤ key a ∨ ∃ q' a', F' q' ∧ t q' = some a' ∧ n ≤ key a' ∧ key a' ≤ key a) :
    Remains key t n best' F' := by
  intro q a hq hn
  rcases h q a hq hn with hle | ⟨q', a', hq', ha', hn', hle⟩
  · exact Or.inl (hbest.trans hle)
  · rcases hF q' a' hq' ha' hn' with hle' | ⟨q2, a2, hq2, ha2, hn2, hle2⟩
    · exact Or.inl (hle'.trans hle)
    · exact Or.inr ⟨q2, a2, hq2, ha2, hn2, hle2.trans hle⟩

theorem Remains.mono (h : Remains key t n best F) (hF : ∀ q, F q → F' q) :
    Remains key t n best F' :=
  h.narrow (Nat.le_refl _) fun q a hq ha hn => Or.inr ⟨q, a, hF q hq, ha, hn, Nat.le_refl _⟩

theorem Remains.of_le (hbest : best ≤ n) : Remains key t n best F :=
  fun _ _ _ hn => Or.inl (hbest.trans hn)

theorem Remains.visit {best' : Nat} (h : Remains key t n best fun q => Below p q ∨ F q)
    (hp : t p = some a) (hbest : best' ≤ best) (ha : n ≤ key a → best' ≤ key a) :
    Remains key t n best' fun q => (Below (false :: p) q ∨ Below (true :: p) q) ∨ F q := by
  refine h.narrow hbest fun q a' hq hqa hn => ?_
  rcases hq with hq | hq
  · rcases below_iff.mp hq with rfl | hq
    · obtain rfl := Option.some.inj (hp.symm.trans hqa)
      exact Or.inl (ha hn)
    · exact Or.inr ⟨q, a', Or.inl hq, hqa, hn, Nat.le_refl _⟩
  · exact Or.inr ⟨q, a', Or.inr hq, hqa, hn, Nat.le_refl _⟩

theorem spells_of_below (h : DigitalTree w upper key t) (hpq : Below p q) (hq : t q = some a) :
    Spells w p (key a) := (h.spells hq).of_suffix hpq

theorem Remains.right (h : DigitalTree w upper key t) (hn : Spells w (true :: p) n)
    (hdiv : n / 2 ^ w = upper)
    (hr : Remains key t n best fun q => (Below (false :: p) q ∨ Below (true :: p) q) ∨ F q) :
    Remains key t n best fun q => Below (true :: p) q ∨ F q := by
  refine hr.narrow (Nat.le_refl _) fun q a hq hqa hna => ?_
  rcases hq with (hq | hq) | hq
  · have hlt := (h.spells_of_below hq hqa).lt hn ((h.div_eq hqa).trans hdiv.symm)
    omega
  · exact Or.inr ⟨q, a, Or.inl hq, hqa, hna, Nat.le_refl _⟩
  · exact Or.inr ⟨q, a, Or.inr hq, hqa, hna, Nat.le_refl _⟩

theorem Remains.left (h : DigitalTree w upper key t) (hn : Spells w (false :: p) n)
    (hdiv : n / 2 ^ w = upper) (ha : t (true :: p) = some a)
    (hr : Remains key t n best fun q => (Below (false :: p) q ∨ Below (true :: p) q) ∨ F q)
    (hF : ∀ q, F q → ∃ s, Below (false :: s) p ∧ Below (true :: s) q) :
    Remains key t n best fun q => Below (false :: p) q ∨ Below (true :: p) q := by
  refine hr.narrow (Nat.le_refl _) fun q a' hq hqa hna => ?_
  rcases hq with hq | hq
  · exact Or.inr ⟨q, a', hq, hqa, hna, Nat.le_refl _⟩
  · obtain ⟨s, hs, hsq⟩ := hF q hq
    have hlt := hn.lt (h.spells ha) (hdiv.trans (h.div_eq ha).symm)
    have hs' : Below (false :: s) (true :: p) := List.IsSuffix.trans hs (List.suffix_cons _ _)
    have hlt' := (h.spells_of_below hs' ha).lt (h.spells_of_below hsq hqa)
      ((h.div_eq ha).trans (h.div_eq hqa).symm)
    exact Or.inr ⟨true :: p, a, Or.inr (List.suffix_refl _), ha, hlt.le, hlt'.le⟩

theorem Remains.drop (h : DigitalTree w upper key t) (hp : t p = none)
    (hr : Remains key t n best fun q => Below p q ∨ F q) : Remains key t n best F := by
  refine hr.narrow (Nat.le_refl _) fun q a hq hqa hna => ?_
  rcases hq with hq | hq
  · rw [h.below_none hp hq] at hqa
    simp at hqa
  · exact Or.inr ⟨q, a, hq, hqa, hna, Nat.le_refl _⟩

theorem Remains.leftmost (h : DigitalTree w upper key t) (ha : t (false :: p) = some a)
    (hfits : ∀ q a, Below p q → t q = some a → n ≤ key a)
    (hr : Remains key t n best fun q => (Below (false :: p) q ∨ Below (true :: p) q) ∨ F q) :
    Remains key t n best fun q => Below (false :: p) q ∨ F q := by
  refine hr.narrow (Nat.le_refl _) fun q a' hq hqa hna => ?_
  rcases hq with (hq | hq) | hq
  · exact Or.inr ⟨q, a', Or.inl hq, hqa, hna, Nat.le_refl _⟩
  · have hlt := (h.spells ha).lt (h.spells_of_below hq hqa)
      ((h.div_eq ha).trans (h.div_eq hqa).symm)
    exact Or.inr ⟨_, a, Or.inl (List.suffix_refl _), ha, hfits _ a (List.suffix_cons _ _) ha,
      hlt.le⟩
  · exact Or.inr ⟨q, a', Or.inr hq, hqa, hna, Nat.le_refl _⟩

end DigitalTree

end LibSystem
