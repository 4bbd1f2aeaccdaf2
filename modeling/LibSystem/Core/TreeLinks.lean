import LibSystem.Core.Bins

/-!
# The links of the trees

A place is the index of a tree and a path in it, the last turn first. `Linked`
says which node is at which place, and that the pointers agree with it. It does
not look at the chunks that are chained to a node.
-/

namespace LibSystem.Core

open Function MallocState

/-- The index of a tree, and a path from its root. -/
abbrev Place := Word × List Bool

/-- The nodes of the trees are at the places of `h`, which is null elsewhere. -/
structure Linked (m : MallocState) (h : Place → Addr) : Prop where
  closed {i : Word} {p : List Bool} {b : Bool} : h (i, p) = 0#32 → h (i, b :: p) = 0#32
  index_lt {i : Word} {p : List Bool} : h (i, p) ≠ 0#32 → i.toNat < 32
  inj {P Q : Place} : h P = h Q → h P ≠ 0#32 → P = Q
  root {i : Word} : i.toNat < 32 → m.treebins i = h (i, [])
  marked {i : Word} : i.toNat < 32 → (m.TreemapIsMarked i ↔ h (i, []) ≠ 0#32)
  child {i : Word} {p : List Bool} {b : Bool} :
    h (i, p) ≠ 0#32 → m.child (h (i, p), b) = h (i, b :: p)
  parent {i : Word} {p : List Bool} {b : Bool} :
    h (i, b :: p) ≠ 0#32 → m.parent (h (i, b :: p)) = h (i, p)
  parent_root {i : Word} : h (i, []) ≠ 0#32 → m.parent (h (i, [])) = m.treebinAt i
  treebinAt_ne {i : Word} : i.toNat < 32 → m.treebinAt i ≠ 0#32
  ok {P : Place} : h P ≠ 0#32 → m.OkAddress (h P)
  fits {P : Place} : h P ≠ 0#32 → (h P).toNat + 32 ≤ 2 ^ 32

namespace Linked

variable {m : MallocState} {h : Place → Addr} {i : Word} {p : List Bool} {b : Bool}
  {R X : Addr}

theorem above_ne (hl : Linked m h) (hne : h (i, b :: p) ≠ 0#32) : h (i, p) ≠ 0#32 :=
  fun h0 => hne (hl.closed h0)

theorem ne_of_ne (hl : Linked m h) {P Q : Place} (hne : h P ≠ 0#32) (hPQ : P ≠ Q) : h P ≠ h Q :=
  fun heq => hPQ (hl.inj heq hne)

theorem okAddress_add {a : Addr} {n : Nat} (hok : m.OkAddress a) (hn : a.toNat + n < 2 ^ 32) :
    m.OkAddress (a + BitVec.ofNat 32 n) := by
  unfold OkAddress at hok ⊢
  rw [BitVec.le_def] at hok ⊢
  rw [BitVec.toNat_add, BitVec.toNat_ofNat]
  omega

theorem okAddress_slot (hl : Linked m h) {P : Place} (hne : h P ≠ 0#32) (b : Bool) :
    m.OkAddress (ChildSlot.addr (h P, b)) := by
  have hfits := hl.fits hne
  unfold ChildSlot.addr
  cases b with
  | false => exact okAddress_add (hl.ok hne) (show (h P).toNat + 16 < 2 ^ 32 by omega)
  | true => exact okAddress_add (hl.ok hne) (show (h P).toNat + 20 < 2 ^ 32 by omega)

theorem congr {m' : MallocState} (hl : Linked m h) (htreebins : m'.treebins = m.treebins)
    (htreemap : m'.treemap = m.treemap) (haddr : m'.treebinsAddr = m.treebinsAddr)
    (hleast : m'.leastAddr = m.leastAddr)
    (hchild : ∀ P b, h P ≠ 0#32 → m'.child (h P, b) = m.child (h P, b))
    (hparent : ∀ P, h P ≠ 0#32 → m'.parent (h P) = m.parent (h P)) : Linked m' h where
  closed := hl.closed
  index_lt := hl.index_lt
  inj := hl.inj
  root hi := by rw [htreebins, hl.root hi]
  marked hi := by
    rw [← hl.marked hi, TreemapIsMarked, TreemapIsMarked, htreemap]
  child hne := by rw [hchild _ _ hne, hl.child hne]
  parent hne := by rw [hparent _ hne, hl.parent hne]
  parent_root hne := by rw [hparent _ hne, hl.parent_root hne, treebinAt, treebinAt, haddr]
  treebinAt_ne hi := by
    have := hl.treebinAt_ne hi
    rwa [treebinAt, haddr]
  ok hne := by
    have := hl.ok hne
    rwa [OkAddress, hleast]
  fits := hl.fits

/-! ## A leaf comes -/

/-- The address `X` may become a node: it is not one yet. -/
structure Fresh (m : MallocState) (h : Place → Addr) (X : Addr) : Prop where
  ne_zero : X ≠ 0#32
  ne (P : Place) : h P ≠ X
  ok : m.OkAddress X
  fits : X.toNat + 32 ≤ 2 ^ 32
  child (b : Bool) : m.child (X, b) = 0#32

theorem plant (hl : Linked m h) (hi : i.toNat < 32) (hfree : h (i, []) = 0#32)
    (hX : Fresh m h X) :
    Linked { m with
      treemap := m.treemap ||| idx2bit i
      treebins := update m.treebins i X
      parent := update m.parent X (m.treebinAt i) } (update h (i, []) X) where
  closed {j q c} h0 := by
    have := hl.closed (i := j) (p := q) (b := c)
    have := hX.ne_zero
    grind [update_apply]
  index_lt {j q} hj := by
    have := hl.index_lt (i := j) (p := q)
    grind [update_apply]
  inj {P Q} hPQ hP := by
    have := hl.inj (P := P) (Q := Q)
    have := hX.ne
    grind [update_apply]
  root {j} hj := by
    have := hl.root hj
    grind [update_apply]
  marked {j} hj := by
    have hmarked := hl.marked hj
    rw [TreemapIsMarked] at hmarked ⊢
    rw [marked_mark_iff hj, hmarked]
    have := hX.ne_zero
    grind [update_apply]
  child {j q c} hj := by
    have := hl.child (i := j) (p := q) (b := c)
    have := hl.closed (p := []) (b := c) hfree
    have := hX.child c
    grind [update_apply]
  parent {j q c} hj := by
    have := hl.parent (i := j) (p := q) (b := c)
    have := hl.closed (i := j) (p := q) (b := c)
    have := hX.ne (j, c :: q)
    grind [update_apply]
  parent_root {j} hj := by
    have := hl.parent_root (i := j)
    have := hX.ne (j, [])
    grind [update_apply, treebinAt]
  treebinAt_ne := hl.treebinAt_ne
  ok {P} hP := by
    have := hl.ok (P := P)
    have := hX.ok
    grind [update_apply, OkAddress]
  fits {P} hP := by
    have := hl.fits (P := P)
    have := hX.fits
    grind [update_apply]

theorem attach (hl : Linked m h) (hne : h (i, p) ≠ 0#32) (hfree : h (i, b :: p) = 0#32)
    (hX : Fresh m h X) :
    Linked { m with
      child := update m.child (h (i, p), b) X
      parent := update m.parent X (h (i, p)) } (update h (i, b :: p) X) where
  closed {j q c} h0 := by
    have := hl.closed (i := j) (p := q) (b := c)
    have := hX.ne_zero
    grind [update_apply]
  index_lt {j q} hj := by
    have := hl.index_lt (i := j) (p := q)
    have := hl.index_lt hne
    grind [update_apply]
  inj {P Q} hPQ hP := by
    have := hl.inj (P := P) (Q := Q)
    have := hX.ne
    grind [update_apply]
  root {j} hj := by
    have := hl.root hj
    grind [update_apply]
  marked {j} hj := by
    have := hl.marked hj
    rw [update_of_ne (by simp)]
    exact this
  child {j q c} hj := by
    have := hl.child (i := j) (p := q) (b := c)
    have := hl.inj (P := (j, q)) (Q := (i, p))
    have := hX.child c
    have := hX.ne (i, p)
    have := hl.closed (i := i) (p := b :: p) (b := c)
    grind [update_apply]
  parent {j q c} hj := by
    have := hl.parent (i := j) (p := q) (b := c)
    have := hl.closed (i := j) (p := q) (b := c)
    have := hX.ne (j, c :: q)
    grind [update_apply]
  parent_root {j} hj := by
    have := hl.parent_root (i := j)
    have := hX.ne (j, [])
    rw [update_of_ne (by simp)] at hj ⊢
    grind [update_apply, treebinAt]
  treebinAt_ne := hl.treebinAt_ne
  ok {P} hP := by
    have := hl.ok (P := P)
    have := hX.ok
    grind [update_apply, OkAddress]
  fits {P} hP := by
    have := hl.fits (P := P)
    have := hX.fits
    grind [update_apply]

/-! ## A leaf goes -/

theorem cut (hl : Linked m h) (hne : h (i, b :: p) ≠ 0#32)
    (hleaf : ∀ c, h (i, c :: b :: p) = 0#32) :
    Linked { m with child := update m.child (h (i, p), b) 0#32 } (update h (i, b :: p) 0#32) where
  closed {j q c} h0 := by
    have := hl.closed (i := j) (p := q) (b := c)
    grind [update_apply]
  index_lt {j q} hj := by
    have := hl.index_lt (i := j) (p := q)
    grind [update_apply]
  inj {P Q} hPQ hP := by
    have := hl.inj (P := P) (Q := Q)
    grind [update_apply]
  root {j} hj := by
    have := hl.root hj
    grind [update_apply]
  marked {j} hj := by
    have := hl.marked hj
    rw [update_of_ne (by simp)]
    exact this
  child {j q c} hj := by
    have := hl.child (i := j) (p := q) (b := c)
    have := hl.inj (P := (j, q)) (Q := (i, p))
    grind [update_apply]
  parent {j q c} hj := by
    have := hl.parent (i := j) (p := q) (b := c)
    grind [update_apply]
  parent_root {j} hj := by
    have := hl.parent_root (i := j)
    rw [update_of_ne (by simp)] at hj ⊢
    exact this hj
  treebinAt_ne := hl.treebinAt_ne
  ok {P} hP := by
    have := hl.ok (P := P)
    grind [update_apply, OkAddress]
  fits {P} hP := by
    have := hl.fits (P := P)
    grind [update_apply]

/-! ## A node is replaced -/

theorem adopt_eq {C : Addr} (hC : m.child (X, b) = C) (hok : C ≠ 0#32 → m.OkAddress C) :
    adopt m X R b = { m with
      child := if C = 0#32 then m.child else update m.child (R, b) C
      parent := if C = 0#32 then m.parent else update m.parent C R } := by
  unfold adopt
  rw [hC]
  by_cases h0 : C = 0#32
  · simp [h0]
  · simp [h0, hok h0]

/-- The pointer to the node at a place. -/
def point (m : MallocState) (h : Place → Addr) (P : Place) (R : Addr) : MallocState :=
  match P with
  | (i, []) =>
    { m with
      treebins := update m.treebins i R
      treemap := if R = 0#32 then m.treemap &&& ~~~idx2bit i else m.treemap }
  | (i, b :: p) => { m with child := update m.child (h (i, p), b) R }

theorem parent_ne (hl : Linked m h) (hne : h (i, p) ≠ 0#32) : m.parent (h (i, p)) ≠ 0#32 := by
  cases p with
  | nil =>
    rw [hl.parent_root hne]
    exact hl.treebinAt_ne (hl.index_lt hne)
  | cons b p =>
    rw [hl.parent hne]
    exact hl.above_ne hne

theorem repoint_eq (hl : Linked m h) (hne : h (i, p) ≠ 0#32) (hindex : m.index (h (i, p)) = i)
    (R : Addr) : repoint m (h (i, p)) (m.parent (h (i, p))) R = point m h (i, p) R := by
  have hi := hl.index_lt hne
  cases p with
  | nil => simp [repoint, hindex, hl.root hi, point]
  | cons b p =>
    have habove := hl.above_ne hne
    have hroot : h (i, b :: p) ≠ h (i, []) := hl.ne_of_ne hne (by simp)
    have hleft : h (i, true :: p) ≠ 0#32 → h (i, false :: p) ≠ h (i, true :: p) :=
      fun h1 h2 => hl.ne_of_ne h1 (by simp) h2.symm
    rw [hl.parent hne]
    cases b with
    | false => simp [repoint, hindex, hl.root hi, hroot, hl.ok habove, hl.child habove, point]
    | true =>
      simp [repoint, hindex, hl.root hi, hroot, hl.ok habove, hl.child habove, point, hleft hne]

theorem point_leastAddr (P : Place) : (point m h P R).leastAddr = m.leastAddr := by
  obtain ⟨i, p⟩ := P
  cases p <;> rfl

theorem point_parent (P : Place) : (point m h P R).parent = m.parent := by
  obtain ⟨i, p⟩ := P
  cases p <;> rfl

theorem point_child {a : Addr}
    (ha : ∀ q, (∃ b, p = b :: q) → a ≠ h (i, q)) :
    (point m h (i, p) R).child (a, b) = m.child (a, b) := by
  cases p with
  | nil => rfl
  | cons c p =>
    refine update_of_ne (fun heq => ?_) _ _
    exact ha p ⟨c, rfl⟩ (congrArg Prod.fst heq)

theorem relink_eq (hl : Linked m h) (hne : h (i, p) ≠ 0#32) (hindex : m.index (h (i, p)) = i)
    (hR : Fresh m h R) :
    relink m (h (i, p)) (m.parent (h (i, p))) R =
      { point m h (i, p) R with
        child := fun C => if C.1 = R then h (i, C.2 :: p) else (point m h (i, p) R).child C
        parent := fun a =>
          if a ≠ 0#32 ∧ (a = h (i, false :: p) ∨ a = h (i, true :: p)) then R
          else if a = R then m.parent (h (i, p)) else m.parent a } := by
  have hX : ∀ b, (point m h (i, p) R).child (h (i, p), b) = h (i, b :: p) := fun b => by
    rw [point_child, hl.child hne]
    rintro q ⟨c, rfl⟩
    exact hl.ne_of_ne hne (by simp)
  have hchild : ∀ b, (point m h (i, p) R).child (R, b) = 0#32 := fun b => by
    rw [point_child, hR.child b]
    rintro q -
    exact fun heq => hR.ne _ heq.symm
  have hok : ∀ b, h (i, b :: p) ≠ 0#32 → m.OkAddress (h (i, b :: p)) := fun b => hl.ok
  have hRX := hR.ne (i, p)
  rw [relink, if_pos (hl.parent_ne hne), hl.repoint_eq hne hindex]
  simp only [if_pos hR.ne_zero]
  rw [if_pos (by rw [OkAddress, point_leastAddr]; exact hR.ok)]
  rw [adopt_eq (b := false) (C := h (i, false :: p)) ?_ ?_,
    adopt_eq (b := true) (C := h (i, true :: p)) ?_ ?_]
  · congr 1
    · funext ⟨a, b⟩
      have := hchild b
      cases b <;> grind [update_apply]
    · funext a
      have := hl.inj (P := (i, false :: p)) (Q := (i, true :: p))
      rw [point_parent]
      grind [update_apply]
  · have := hX true
    grind [update_apply]
  · rw [OkAddress, point_leastAddr]
    exact hok true
  · exact hX false
  · rw [OkAddress, point_leastAddr]
    exact hok false

/-- The tree of places with `R` for the node at `(i, p)`, and the pointer to it changed. -/
theorem replace (hl : Linked m h) (hne : h (i, p) ≠ 0#32) (hindex : m.index (h (i, p)) = i)
    (hR : Fresh m h R) :
    Linked (relink m (h (i, p)) (m.parent (h (i, p))) R) (update h (i, p) R) := by
  have hi := hl.index_lt hne
  have hRne := hR.ne_zero
  have hcycle : ∀ (b : Bool) (p : List Bool), b :: p ≠ p := by simp
  rw [hl.relink_eq hne hindex hR]
  exact
  { closed := fun {j q c} h0 => by
      have := hl.closed (i := j) (p := q) (b := c)
      have := hl.closed (i := i) (p := p) (b := c)
      grind [update_apply]
    index_lt := fun {j q} hj => by
      have := hl.index_lt (i := j) (p := q)
      grind [update_apply]
    inj := fun {P Q} hPQ hP => by
      have := hl.inj (P := P) (Q := Q)
      have := hR.ne
      grind [update_apply]
    root := fun {j} hj => by
      have := hl.root hj
      cases p <;> simp only [point] <;> grind [update_apply]
    marked := fun {j} hj => by
      have := hl.marked hj
      cases p <;> simp only [point, TreemapIsMarked] at this ⊢ <;> grind [update_apply]
    child := fun {j q c} hj => by
      have := hl.child (i := j) (p := q) (b := c)
      have := hR.ne (j, q)
      have := hR.ne (j, c :: q)
      cases p with
      | nil =>
        simp only [point]
        grind [update_apply]
      | cons b p =>
        have := hl.inj (P := (j, q)) (Q := (i, p))
        have := hl.inj (P := (j, q)) (Q := (i, b :: p))
        have := hR.ne (i, p)
        simp only [point]
        grind [update_apply]
    parent := fun {j q c} hj => by
      have := hl.parent (i := j) (p := q) (b := c)
      have := hl.parent (i := i) (p := q) (b := c)
      have := hl.inj (P := (j, c :: q)) (Q := (i, false :: p))
      have := hl.inj (P := (j, c :: q)) (Q := (i, true :: p))
      have := hR.ne (j, c :: q)
      have := hR.ne (i, false :: p)
      have := hR.ne (i, true :: p)
      cases c <;> grind [update_apply]
    parent_root := fun {j} hj => by
      have hroot := hl.parent_root (i := j)
      have := hl.inj (P := (j, [])) (Q := (i, false :: p))
      have := hl.inj (P := (j, [])) (Q := (i, true :: p))
      have := hR.ne (j, [])
      have := hR.ne (i, false :: p)
      have := hR.ne (i, true :: p)
      cases p <;> simp only [point, treebinAt] at hroot ⊢ <;> grind [update_apply]
    treebinAt_ne := fun {j} hj => by
      have := hl.treebinAt_ne hj
      cases p <;> exact this
    ok := fun {P} hP => by
      have := hl.ok (P := P)
      have := hR.ok
      rw [OkAddress, point_leastAddr]
      grind [update_apply, OkAddress]
    fits := fun {P} hP => by
      have := hl.fits (P := P)
      have := hR.fits
      grind [update_apply] }

theorem relink_zero (hl : Linked m h) (hne : h (i, p) ≠ 0#32) (hindex : m.index (h (i, p)) = i) :
    relink m (h (i, p)) (m.parent (h (i, p))) 0#32 = point m h (i, p) 0#32 := by
  rw [relink, if_pos (hl.parent_ne hne), hl.repoint_eq hne hindex]
  simp

theorem uproot (hl : Linked m h) (hne : h (i, []) ≠ 0#32) (hleaf : ∀ b, h (i, [b]) = 0#32) :
    Linked (point m h (i, []) 0#32) (update h (i, []) 0#32) where
  closed {j q c} h0 := by
    have := hl.closed (i := j) (p := q) (b := c)
    grind [update_apply]
  index_lt {j q} hj := by
    have := hl.index_lt (i := j) (p := q)
    grind [update_apply]
  inj {P Q} hPQ hP := by
    have := hl.inj (P := P) (Q := Q)
    grind [update_apply]
  root {j} hj := by
    have := hl.root hj
    simp only [point]
    grind [update_apply]
  marked {j} hj := by
    have hmarked := hl.marked hj
    simp only [point, TreemapIsMarked, if_true] at hmarked ⊢
    rw [marked_clear_iff hj, hmarked]
    grind [update_apply]
  child {j q c} hj := by
    have := hl.child (i := j) (p := q) (b := c)
    simp only [point]
    grind [update_apply]
  parent {j q c} hj := by
    have := hl.parent (i := j) (p := q) (b := c)
    simp only [point]
    grind [update_apply]
  parent_root {j} hj := by
    have hroot := hl.parent_root (i := j)
    simp only [point, treebinAt] at hroot ⊢
    grind [update_apply]
  treebinAt_ne := hl.treebinAt_ne
  ok {P} hP := by
    have := hl.ok (P := P)
    simp only [point, OkAddress] at this ⊢
    grind [update_apply]
  fits {P} hP := by
    have := hl.fits (P := P)
    grind [update_apply]

theorem remove (hl : Linked m h) (hne : h (i, p) ≠ 0#32) (hindex : m.index (h (i, p)) = i)
    (hleaf : ∀ b, h (i, b :: p) = 0#32) :
    Linked (relink m (h (i, p)) (m.parent (h (i, p))) 0#32) (update h (i, p) 0#32) := by
  rw [hl.relink_zero hne hindex]
  cases p with
  | nil => exact hl.uproot hne hleaf
  | cons b p => exact hl.cut hne hleaf

end Linked

/-! ## What is left alone -/

/-- The state without the bins and the words that belong to them. -/
def MallocState.unbinned (m : MallocState) : MallocState :=
  { m with
    smallmap := 0#32
    treemap := 0#32
    treebins := fun _ => 0#32
    fd := fun _ => 0#32
    bk := fun _ => 0#32
    child := fun _ => 0#32
    parent := fun _ => 0#32
    index := fun _ => 0#32 }

/-- Only the bins were written, and their words of the chunks of `A`. -/
structure Touches (A : Addr → Prop) (m m' : MallocState) : Prop where
  rest : unbinned m' = unbinned m
  fd {a : Addr} : ¬ A a → m'.fd a = m.fd a
  bk {a : Addr} : ¬ A a → m'.bk a = m.bk a
  child {a : Addr} {b : Bool} : ¬ A a → m'.child (a, b) = m.child (a, b)
  parent {a : Addr} : ¬ A a → m'.parent a = m.parent a
  index {a : Addr} : ¬ A a → m'.index a = m.index a

namespace Touches

variable {A B : Addr → Prop} {m m' m'' : MallocState}

theorem leastAddr (h : Touches A m m') : m'.leastAddr = m.leastAddr := by
  change m'.unbinned.leastAddr = m.unbinned.leastAddr
  rw [h.rest]

theorem smallbins (h : Touches A m m') : m'.smallbins = m.smallbins := by
  change m'.unbinned.smallbins = m.unbinned.smallbins
  rw [h.rest]

theorem segments (h : Touches A m m') : m'.segments = m.segments := by
  change m'.unbinned.segments = m.unbinned.segments
  rw [h.rest]

theorem treebinsAddr (h : Touches A m m') : m'.treebinsAddr = m.treebinsAddr := by
  change m'.unbinned.treebinsAddr = m.unbinned.treebinsAddr
  rw [h.rest]

theorem head (h : Touches A m m') : m'.head = m.head := by
  change m'.unbinned.head = m.unbinned.head
  rw [h.rest]

theorem prevFoot (h : Touches A m m') : m'.prevFoot = m.prevFoot := by
  change m'.unbinned.prevFoot = m.unbinned.prevFoot
  rw [h.rest]

theorem dvsize (h : Touches A m m') : m'.dvsize = m.dvsize := by
  change m'.unbinned.dvsize = m.unbinned.dvsize
  rw [h.rest]

theorem dv (h : Touches A m m') : m'.dv = m.dv := by
  change m'.unbinned.dv = m.unbinned.dv
  rw [h.rest]

theorem topsize (h : Touches A m m') : m'.topsize = m.topsize := by
  change m'.unbinned.topsize = m.unbinned.topsize
  rw [h.rest]

theorem top (h : Touches A m m') : m'.top = m.top := by
  change m'.unbinned.top = m.unbinned.top
  rw [h.rest]

theorem aborts (h : Touches A m m') : m'.aborts = m.aborts := by
  change m'.unbinned.aborts = m.unbinned.aborts
  rw [h.rest]

theorem refl (A : Addr → Prop) (m : MallocState) : Touches A m m :=
  ⟨rfl, fun _ => rfl, fun _ => rfl, fun _ => rfl, fun _ => rfl, fun _ => rfl⟩

theorem trans (h : Touches A m m') (h' : Touches B m' m'') :
    Touches (fun a => A a ∨ B a) m m'' where
  rest := h'.rest.trans h.rest
  fd ha := (h'.fd fun hb => ha (Or.inr hb)).trans (h.fd fun hb => ha (Or.inl hb))
  bk ha := (h'.bk fun hb => ha (Or.inr hb)).trans (h.bk fun hb => ha (Or.inl hb))
  child ha := (h'.child fun hb => ha (Or.inr hb)).trans (h.child fun hb => ha (Or.inl hb))
  parent ha := (h'.parent fun hb => ha (Or.inr hb)).trans (h.parent fun hb => ha (Or.inl hb))
  index ha := (h'.index fun hb => ha (Or.inr hb)).trans (h.index fun hb => ha (Or.inl hb))

theorem mono (h : Touches A m m') (hAB : ∀ a, A a → B a) : Touches B m m' where
  rest := h.rest
  fd ha := h.fd fun hb => ha (hAB _ hb)
  bk ha := h.bk fun hb => ha (hAB _ hb)
  child ha := h.child fun hb => ha (hAB _ hb)
  parent ha := h.parent fun hb => ha (hAB _ hb)
  index ha := h.index fun hb => ha (hAB _ hb)

end Touches

theorem Linked.relink_rings {m : MallocState} {h : Place → Addr} (hl : Linked m h) {i : Word}
    {p : List Bool} {R : Addr} (hne : h (i, p) ≠ 0#32) (hindex : m.index (h (i, p)) = i)
    (hR : R = 0#32 ∨ Fresh m h R) :
    (relink m (h (i, p)) (m.parent (h (i, p))) R).fd = m.fd ∧
      (relink m (h (i, p)) (m.parent (h (i, p))) R).bk = m.bk ∧
      (relink m (h (i, p)) (m.parent (h (i, p))) R).index = m.index := by
  rcases hR with rfl | hR
  · rw [hl.relink_zero hne hindex]
    cases p <;> exact ⟨rfl, rfl, rfl⟩
  · rw [hl.relink_eq hne hindex hR]
    cases p <;> exact ⟨rfl, rfl, rfl⟩

theorem Linked.relink_touches {m : MallocState} {h : Place → Addr} (hl : Linked m h) {i : Word}
    {p : List Bool} {R : Addr} (hne : h (i, p) ≠ 0#32) (hindex : m.index (h (i, p)) = i)
    (hR : R = 0#32 ∨ Fresh m h R) :
    Touches (fun a => R ≠ 0#32 ∧ a = R ∨ ∃ P, h P ≠ 0#32 ∧ a = h P) m
      (relink m (h (i, p)) (m.parent (h (i, p))) R) ∧
    (relink m (h (i, p)) (m.parent (h (i, p))) R).smallmap = m.smallmap := by
  have hpoint : Touches (fun a => R ≠ 0#32 ∧ a = R ∨ ∃ P, h P ≠ 0#32 ∧ a = h P) m
      (point m h (i, p) R) ∧
      (point m h (i, p) R).smallmap = m.smallmap := by
    cases p with
    | nil => exact ⟨⟨rfl, fun _ => rfl, fun _ => rfl, fun _ => rfl, fun _ => rfl,
        fun _ => rfl⟩, rfl⟩
    | cons b p =>
      refine ⟨⟨rfl, fun _ => rfl, fun _ => rfl, fun ha => ?_, fun _ => rfl, fun _ => rfl⟩, rfl⟩
      refine update_of_ne (fun heq => ha (Or.inr ⟨(i, p), hl.above_ne hne, ?_⟩)) _ _
      exact congrArg Prod.fst heq
  rcases hR with rfl | hR
  · rw [hl.relink_zero hne hindex]
    exact hpoint
  · rw [hl.relink_eq hne hindex hR]
    obtain ⟨hpoint, hsmallmap⟩ := hpoint
    refine ⟨⟨hpoint.rest, hpoint.fd, hpoint.bk, fun ha => ?_, fun {a} ha => ?_, hpoint.index⟩,
      hsmallmap⟩
    · exact (if_neg fun heq => ha (Or.inl ⟨hR.ne_zero, heq⟩)).trans (hpoint.child ha)
    · refine (if_neg ?_).trans (if_neg fun heq => ha (Or.inl ⟨hR.ne_zero, heq⟩))
      rintro ⟨h0, rfl | rfl⟩
      · exact ha (Or.inr ⟨_, h0, rfl⟩)
      · exact ha (Or.inr ⟨_, h0, rfl⟩)

end LibSystem.Core
