import LibSystem.Core.TreeLinks
import LibSystem.DigitalTree
import LibSystem.LinkedRing

/-!
# Trees of large chunks

`insert_large_chunk` and `unlink_large_chunk` keep the trees of `dlmalloc.c`.
Chunks of one size are a ring, and one of them is a node of the tree.
-/

namespace LibSystem.Core

open Function MallocState

/-- Chunks of one size. The first one is the node. -/
structure TreeChain where
  size : Word
  node : Addr
  others : List Addr

def TreeChain.chunks (c : TreeChain) : List Addr := c.node :: c.others

/-- What is at each place. -/
abbrev Forest := Place → Option TreeChain

namespace Forest

def node (g : Forest) (P : Place) : Addr :=
  match g P with
  | none => 0#32
  | some c => c.node

/-- The chunk is in a tree. -/
def Has (g : Forest) (a : Addr) (s : Word) : Prop :=
  ∃ P c, g P = some c ∧ a ∈ c.chunks ∧ c.size = s

variable {g : Forest} {P : Place} {c d : TreeChain} {X a : Addr} {S s : Word}

theorem node_some (h : g P = some c) : g.node P = c.node := by
  rw [node, h]

theorem node_none (h : g P = none) : g.node P = 0#32 := by
  rw [node, h]

theorem node_update (g : Forest) (P : Place) (o : Option TreeChain) :
    node (update g P o) = update g.node P (match o with | none => 0#32 | some c => c.node) := by
  funext Q
  by_cases hQ : Q = P
  · subst hQ
    simp [node]
  · simp [node, hQ]

theorem has_iff (g : Forest) (P : Place) (a : Addr) (s : Word) :
    g.Has a s ↔ (∃ c, g P = some c ∧ a ∈ c.chunks ∧ c.size = s) ∨
      ∃ Q c, Q ≠ P ∧ g Q = some c ∧ a ∈ c.chunks ∧ c.size = s := by
  constructor
  · rintro ⟨Q, c, hQ, ha, hs⟩
    by_cases hQP : Q = P
    · subst hQP
      exact Or.inl ⟨c, hQ, ha, hs⟩
    · exact Or.inr ⟨Q, c, hQP, hQ, ha, hs⟩
  · rintro (⟨c, hP, ha, hs⟩ | ⟨Q, c, -, hQ, ha, hs⟩)
    · exact ⟨P, c, hP, ha, hs⟩
    · exact ⟨Q, c, hQ, ha, hs⟩

theorem has_update (g : Forest) (P : Place) (o : Option TreeChain) (a : Addr) (s : Word) :
    Has (update g P o) a s ↔ (∃ c, o = some c ∧ a ∈ c.chunks ∧ c.size = s) ∨
      ∃ Q c, Q ≠ P ∧ g Q = some c ∧ a ∈ c.chunks ∧ c.size = s := by
  rw [has_iff _ P, update_self]
  refine or_congr_right (exists_congr fun Q => exists_congr fun c => and_congr_right fun hQ => ?_)
  rw [update_of_ne hQ]

theorem has_new (h : g P = none) (X : Addr) (S : Word) (a : Addr) (s : Word) :
    Has (update g P (some ⟨S, X, []⟩)) a s ↔ g.Has a s ∨ a = X ∧ s = S := by
  rw [has_update, has_iff g P]
  simp [h, TreeChain.chunks, eq_comm, or_comm]

theorem has_more (h : g P = some c) (hd : ∀ a, a ∈ d.chunks ↔ a ∈ c.chunks ∨ a = X)
    (hsize : d.size = c.size) (a : Addr) (s : Word) :
    Has (update g P (some d)) a s ↔ g.Has a s ∨ a = X ∧ s = c.size := by
  rw [has_update, has_iff g P]
  simp only [Option.some.injEq, exists_eq_left', hd, hsize, h]
  grind

theorem has_less (h : g P = some c) (hX : ∀ Q c, g Q = some c → X ∈ c.chunks → Q = P)
    (hd : ∀ a, a ∈ d.chunks ↔ a ∈ c.chunks ∧ a ≠ X) (hsize : d.size = c.size) (a : Addr)
    (s : Word) : Has (update g P (some d)) a s ↔ g.Has a s ∧ a ≠ X := by
  rw [has_update, has_iff g P]
  simp only [Option.some.injEq, exists_eq_left', hd, hsize, h]
  grind

theorem has_gone (h : g P = some c) (hX : ∀ Q c, g Q = some c → X ∈ c.chunks → Q = P)
    (hc : c.chunks = [X]) (a : Addr) (s : Word) :
    Has (update g P none) a s ↔ g.Has a s ∧ a ≠ X := by
  rw [has_update, has_iff g P]
  simp only [Option.some.injEq, exists_eq_left', h, hc]
  grind

theorem has_lifted {Q : Place} (hP : g P = some c) (hQ : g Q = some d) (hPQ : P ≠ Q)
    (hX : ∀ Q c, g Q = some c → X ∈ c.chunks → Q = P) (hc : c.chunks = [X]) (a : Addr)
    (s : Word) : Has (update (update g Q none) P (some d)) a s ↔ g.Has a s ∧ a ≠ X := by
  constructor
  · rintro ⟨T, e, hT, ha, hs⟩
    by_cases hTP : T = P
    · rw [hTP, update_self] at hT
      obtain rfl := Option.some.inj hT
      exact ⟨⟨Q, d, hQ, ha, hs⟩, fun heq => hPQ (hX Q d hQ (heq ▸ ha)).symm⟩
    · rw [update_of_ne hTP] at hT
      have hTQ : T ≠ Q := by
        rintro rfl
        simp at hT
      rw [update_of_ne hTQ] at hT
      exact ⟨⟨T, e, hT, ha, hs⟩, fun heq => hTP (hX T e hT (heq ▸ ha))⟩
  · rintro ⟨⟨T, e, hT, ha, hs⟩, hne⟩
    by_cases hTQ : T = Q
    · obtain rfl := Option.some.inj (hQ.symm.trans (hTQ ▸ hT))
      exact ⟨P, d, update_self _ _ _, ha, hs⟩
    · have hTP : T ≠ P := by
        rintro rfl
        obtain rfl := Option.some.inj (hP.symm.trans hT)
        rw [hc] at ha
        exact hne (List.mem_singleton.mp ha)
      exact ⟨T, e, by rw [update_of_ne hTP, update_of_ne hTQ, hT], ha, hs⟩

end Forest

/-- The chunks are linked in a ring, and are marked as chunks of the tree `i`. All but the
node have no place in the tree. -/
structure ChainIn (m : MallocState) (i : Word) (c : TreeChain) : Prop where
  large : 256 ≤ c.size.toNat
  index_eq : computeTreeIndex c.size = i
  ring : LinkedRing m.fd m.bk c.chunks
  nodup : c.chunks.Nodup
  chunksize {a : Addr} : a ∈ c.chunks → m.chunksize a = c.size
  index {a : Addr} : a ∈ c.chunks → m.index a = i
  ne_zero {a : Addr} : a ∈ c.chunks → a ≠ 0#32
  ok {a : Addr} : a ∈ c.chunks → m.OkAddress a
  fits {a : Addr} : a ∈ c.chunks → a.toNat + c.size.toNat ≤ 2 ^ 32
  parent {a : Addr} : a ∈ c.others → m.parent a = 0#32
  child {a : Addr} {b : Bool} : a ∈ c.others → m.child (a, b) = 0#32

/-- What a chain looks at is the same. -/
structure SameChain (m m' : MallocState) (c : TreeChain) : Prop where
  chunksize {a : Addr} : a ∈ c.chunks → m'.chunksize a = m.chunksize a
  fd {a : Addr} : a ∈ c.chunks → m'.fd a = m.fd a
  bk {a : Addr} : a ∈ c.chunks → m'.bk a = m.bk a
  index {a : Addr} : a ∈ c.chunks → m'.index a = m.index a
  parent {a : Addr} : a ∈ c.others → m'.parent a = m.parent a
  child {a : Addr} {b : Bool} : a ∈ c.others → m'.child (a, b) = m.child (a, b)

theorem SameChain.trans {m m' m'' : MallocState} {c : TreeChain} (h : SameChain m m' c)
    (h' : SameChain m' m'' c) : SameChain m m'' c where
  chunksize ha := (h'.chunksize ha).trans (h.chunksize ha)
  fd ha := (h'.fd ha).trans (h.fd ha)
  bk ha := (h'.bk ha).trans (h.bk ha)
  index ha := (h'.index ha).trans (h.index ha)
  parent ha := (h'.parent ha).trans (h.parent ha)
  child ha := (h'.child ha).trans (h.child ha)

theorem ChainIn.congr {m m' : MallocState} {i : Word} {c : TreeChain} (h : ChainIn m i c)
    (hsame : SameChain m m' c) (hleast : m'.leastAddr = m.leastAddr) : ChainIn m' i c where
  large := h.large
  index_eq := h.index_eq
  ring := h.ring.congr (fun _ => hsame.fd) fun _ => hsame.bk
  nodup := h.nodup
  chunksize ha := by rw [hsame.chunksize ha, h.chunksize ha]
  index ha := by rw [hsame.index ha, h.index ha]
  ne_zero := h.ne_zero
  ok ha := by rw [OkAddress, hleast]; exact h.ok ha
  fits := h.fits
  parent ha := by rw [hsame.parent ha, h.parent ha]
  child ha := by rw [hsame.child ha, h.child ha]

/-- The trees hold the chunks of `g`. -/
structure TreeBins (m : MallocState) (g : Forest) : Prop where
  linked : Linked m g.node
  digital (i : Word) :
    DigitalTree (treeWidth i) (treeUpper i) (fun c : TreeChain => c.size.toNat) fun p => g (i, p)
  chain {i : Word} {p : List Bool} {c : TreeChain} : g (i, p) = some c → ChainIn m i c

namespace TreeBins

variable {m m' : MallocState} {g : Forest} {i : Word} {p : List Bool} {P Q : Place}
  {c d : TreeChain} {X a : Addr} {S s : Word}

theorem node_mem (c : TreeChain) : c.node ∈ c.chunks := List.mem_cons_self

theorem has_node (h : g P = some c) : g.Has c.node c.size := ⟨P, c, h, node_mem c, rfl⟩

theorem other_mem (ha : a ∈ c.others) : a ∈ c.chunks := List.mem_cons_of_mem _ ha

theorem node_ne (hg : TreeBins m g) (h : g P = some c) : c.node ≠ 0#32 :=
  (hg.chain h).ne_zero (node_mem c)

theorem node_eq_zero_iff (hg : TreeBins m g) : g.node P = 0#32 ↔ g P = none := by
  cases hP : g P with
  | none => simp [Forest.node_none hP]
  | some c => simp [Forest.node_some hP, hg.node_ne hP]

theorem node_ne_iff (hg : TreeBins m g) : g.node P ≠ 0#32 ↔ ∃ c, g P = some c := by
  rw [ne_eq, hg.node_eq_zero_iff, ← ne_eq, Option.ne_none_iff_exists']

theorem has_of_node (hg : TreeBins m g) (h : ∃ P, g.node P ≠ 0#32 ∧ a = g.node P) :
    ∃ s, g.Has a s := by
  obtain ⟨P, hne, rfl⟩ := h
  obtain ⟨c, hP⟩ := hg.node_ne_iff.mp hne
  rw [Forest.node_some hP]
  exact ⟨c.size, has_node hP⟩

theorem index_lt (hg : TreeBins m g) (h : g (i, p) = some c) : i.toNat < 32 :=
  hg.linked.index_lt (hg.node_ne_iff.mpr ⟨c, h⟩)

theorem place_unique (hg : TreeBins m g) (hP : g P = some c) (hQ : g Q = some d)
    (hc : a ∈ c.chunks) (hd : a ∈ d.chunks) : P = Q := by
  obtain ⟨i, p⟩ := P
  obtain ⟨j, q⟩ := Q
  have hP' := hg.chain hP
  have hQ' := hg.chain hQ
  obtain rfl : i = j := (hP'.index hc).symm.trans (hQ'.index hd)
  have hsize : c.size = d.size := (hP'.chunksize hc).symm.trans (hQ'.chunksize hd)
  rw [(hg.digital i).unique hP hQ (congrArg BitVec.toNat hsize)]

theorem node_ne_other (hg : TreeBins m g) (hP : g P = some c) (ha : a ∈ c.others) (Q : Place) :
    g.node Q ≠ a := by
  rintro rfl
  have hac := other_mem ha
  cases hQ : g Q with
  | none => exact (hg.chain hP).ne_zero hac (Forest.node_none hQ)
  | some d =>
    rw [Forest.node_some hQ] at ha hac
    obtain rfl := hg.place_unique hP hQ hac (node_mem d)
    obtain rfl := Option.some.inj (hP.symm.trans hQ)
    exact (List.nodup_cons.mp (hg.chain hP).nodup).1 ha

theorem congr (hg : TreeBins m g) (hl : Linked m' g.node) (hleast : m'.leastAddr = m.leastAddr)
    (hsame : ∀ Q d, g Q = some d → SameChain m m' d) : TreeBins m' g :=
  ⟨hl, hg.digital, fun hP => (hg.chain hP).congr (hsame _ _ hP) hleast⟩

theorem sameChain_of_touches {A : Addr → Prop} (h : Touches A m m') (hA : ∀ a ∈ c.chunks, ¬ A a) :
    SameChain m m' c where
  chunksize _ := by rw [MallocState.chunksize, h.head, MallocState.chunksize]
  fd ha := h.fd (hA _ ha)
  bk ha := h.bk (hA _ ha)
  index ha := h.index (hA _ ha)
  parent ha := h.parent (hA _ (other_mem ha))
  child ha := h.child (hA _ (other_mem ha))

theorem congr_of_touches {A : Addr → Prop} (hg : TreeBins m g) (h : Touches A m m')
    (htreebins : m'.treebins = m.treebins) (htreemap : m'.treemap = m.treemap)
    (hA : ∀ a s, A a → ¬ g.Has a s) : TreeBins m' g := by
  have hnot : ∀ {P c a}, g P = some c → a ∈ c.chunks → ¬ A a :=
    fun {P c a} hP ha hAa => hA a c.size hAa ⟨P, c, hP, ha, rfl⟩
  have hnode : ∀ P, g.node P ≠ 0#32 → ¬ A (g.node P) := by
    intro P hne
    obtain ⟨c, hP⟩ := hg.node_ne_iff.mp hne
    rw [Forest.node_some hP]
    exact hnot hP (node_mem c)
  exact hg.congr (hg.linked.congr htreebins htreemap h.treebinsAddr h.leastAddr
    (fun P b hne => h.child (hnode P hne)) fun P hne => h.parent (hnode P hne)) h.leastAddr
    fun Q d hQ => sameChain_of_touches h fun a => hnot hQ

/-! ## Assembly -/

theorem set (hg : TreeBins m g) (hl : Linked m' (update g.node (i, p) c.node))
    (hdigital : DigitalTree (treeWidth i) (treeUpper i) (fun c : TreeChain => c.size.toNat)
      (update (fun q => g (i, q)) p (some c)))
    (hc : ChainIn m' i c) (hleast : m'.leastAddr = m.leastAddr)
    (hsame : ∀ Q d, Q ≠ (i, p) → g Q = some d → SameChain m m' d) :
    TreeBins m' (update g (i, p) (some c)) where
  linked := by
    rw [Forest.node_update]
    exact hl
  digital j := by
    by_cases hj : j = i
    · subst hj
      convert hdigital using 1
      funext q
      simp only [update_apply, Prod.mk.injEq, true_and]
    · convert hg.digital j using 1
      funext q
      exact update_of_ne (fun h => hj (congrArg Prod.fst h)) _ _
  chain {j q d} hq := by
    by_cases hjq : (j, q) = (i, p)
    · rw [hjq, update_self] at hq
      obtain ⟨rfl, rfl⟩ := Prod.mk.inj hjq
      obtain rfl := Option.some.inj hq
      exact hc
    · rw [update_of_ne hjq] at hq
      exact (hg.chain hq).congr (hsame _ d hjq hq) hleast

theorem unset (hg : TreeBins m g) (hl : Linked m' (update g.node (i, p) 0#32))
    (hleaf : ∀ b, g (i, b :: p) = none) (hleast : m'.leastAddr = m.leastAddr)
    (hsame : ∀ Q d, Q ≠ (i, p) → g Q = some d → SameChain m m' d) :
    TreeBins m' (update g (i, p) none) where
  linked := by
    rw [Forest.node_update]
    exact hl
  digital j := by
    by_cases hj : j = i
    · subst hj
      convert (hg.digital j).prune hleaf using 1
      funext q
      simp only [update_apply, Prod.mk.injEq, true_and]
    · convert hg.digital j using 1
      funext q
      exact update_of_ne (fun h => hj (congrArg Prod.fst h)) _ _
  chain {j q d} hq := by
    by_cases hjq : (j, q) = (i, p)
    · rw [hjq, update_self] at hq
      simp at hq
    · rw [update_of_ne hjq] at hq
      exact (hg.chain hq).congr (hsame _ d hjq hq) hleast

/-! ## The way along the bits of a size -/

/-- `S` is not on the way to this path. -/
def Missed (g : Forest) (i : Word) (S : Word) (p : List Bool) : Prop :=
  ∀ q d, Below q p → g (i, q) = some d → d.size.toNat ≠ S.toNat

theorem Missed.cons {b : Bool} (h : Missed g i S p)
    (hp : ∀ d, g (i, b :: p) = some d → d.size.toNat ≠ S.toNat) : Missed g i S (b :: p) := by
  intro q d hq hqd
  rcases List.suffix_cons_iff.mp hq with rfl | hq
  · exact hp d hqd
  · exact h q d hq hqd

theorem length_lt (hg : TreeBins m g) (h : g (i, p) = some c) (hlarge : 256 ≤ S.toNat)
    (hS : computeTreeIndex S = i) (hspells : Spells (treeWidth i) p S.toNat)
    (hne : c.size.toNat ≠ S.toNat) : p.length < treeWidth i := by
  by_contra hlen
  refine hne (((hg.digital i).spells h).eq_of_length hspells ?_ (by omega))
  rw [(hg.digital i).div_eq h, ← hS, size_div_treeWidth hlarge]

theorem insertBelow_spec (hg : TreeBins m g) (hlarge : 256 ≤ S.toNat)
    (hS : computeTreeIndex S = i) (fuel : Nat) :
    ∀ p c, g (i, p) = some c → Spells (treeWidth i) p S.toNat →
      (∀ b q, p = b :: q → Missed g i S q) → 32 < fuel + p.length →
      (∃ q d, g (i, q) = some d ∧ d.size = S ∧
        insertBelow X S fuel m c.node (S <<< (32 - treeWidth i + p.length)) =
          .done (chainAfter m d.node X)) ∨
      ∃ b q d, g (i, q) = some d ∧ g (i, b :: q) = none ∧
        Spells (treeWidth i) (b :: q) S.toNat ∧ Missed g i S (b :: q) ∧
        insertBelow X S fuel m c.node (S <<< (32 - treeWidth i + p.length)) =
          .done (sprout m (d.node, b) X) := by
  have hi : i.toNat < 32 := by
    rw [← hS]
    exact computeTreeIndex_lt S
  have hwidth := treeWidth_le hi
  induction fuel with
  | zero =>
    intro p c h hspells _ hfuel
    have := hspells.length_le
    omega
  | succ fuel ih =>
    intro p c h hspells hmissed hfuel
    have hc := hg.chain h
    have hne := hg.node_ne h
    have hok := hc.ok (node_mem c)
    rw [insertBelow, hc.chunksize (node_mem c)]
    by_cases hsize : c.size = S
    · left
      have hfd := hc.ok (hc.ring.fd_spec (node_mem c)).1
      refine ⟨p, c, h, hsize, ?_⟩
      rw [if_neg (by simp [hsize]), if_pos ⟨hok, hfd⟩]
    · have hsize' : c.size.toNat ≠ S.toNat := fun h => hsize (BitVec.eq_of_toNat_eq h)
      have hlen := hg.length_lt h hlarge hS hspells hsize'
      have hnext := hspells.next hlen
      rw [if_pos hsize]
      simp only [sign_bit hi hlen]
      generalize S.toNat.testBit (treeWidth i - (p.length + 1)) = b at hnext ⊢
      have hnode := Forest.node_some h
      have hchild : m.child (c.node, b) = g.node (i, b :: p) := by
        rw [← hnode]
        exact hg.linked.child (by rw [hnode]; exact hne)
      have hmissed' : Missed g i S p := by
        cases p with
        | nil =>
          intro q d hq hqd
          obtain rfl := List.suffix_nil.mp hq
          obtain rfl := Option.some.inj (h.symm.trans hqd)
          exact hsize'
        | cons b' q =>
          refine (hmissed b' q rfl).cons fun d hd => ?_
          obtain rfl := Option.some.inj (h.symm.trans hd)
          exact hsize'
      rw [hchild]
      cases hb : g (i, b :: p) with
      | none =>
        right
        refine ⟨b, p, c, h, hb, hnext, hmissed'.cons (by simp [hb]), ?_⟩
        have hslot := hg.linked.okAddress_slot (hg.node_ne_iff.mpr ⟨c, h⟩) b
        rw [hnode] at hslot
        rw [if_neg (by simp [Forest.node_none hb]), if_pos hslot]
      | some d =>
        rw [if_pos (hg.node_ne_iff.mpr ⟨d, hb⟩), Forest.node_some hb, ← BitVec.shiftLeft_add,
          Nat.add_assoc]
        refine ih (b :: p) d hb hnext ?_ (by rw [List.length_cons]; omega)
        rintro b' q heq
        obtain ⟨rfl, rfl⟩ := List.cons.inj heq
        exact hmissed'

/-! ## A chunk comes -/

/-- The chunk `X` of this size is in no tree. -/
structure Loose (m : MallocState) (g : Forest) (X : Addr) (S : Word) : Prop where
  large : 256 ≤ S.toNat
  chunksize : m.chunksize X = S
  ne_zero : X ≠ 0#32
  ok : m.OkAddress X
  fits : X.toNat + S.toNat ≤ 2 ^ 32
  not_has (s : Word) : ¬ g.Has X s

theorem Loose.not_mem (hX : Loose m g X S) (h : g P = some c) : X ∉ c.chunks :=
  fun hmem => hX.not_has c.size ⟨P, c, h, hmem, rfl⟩

theorem Loose.fresh (hX : Loose m g X S) (hchild : ∀ b, m.child (X, b) = 0#32) :
    Linked.Fresh m g.node X where
  ne_zero := hX.ne_zero
  ne P := by
    cases hP : g P with
    | none =>
      rw [Forest.node_none hP]
      exact hX.ne_zero.symm
    | some c =>
      rw [Forest.node_some hP]
      exact fun heq => hX.not_mem hP (heq ▸ node_mem c)
  ok := hX.ok
  fits := by
    have := hX.fits
    have := hX.large
    omega
  child := hchild

theorem chainAfter_touches (hg : TreeBins m g) (h : g P = some c) :
    Touches (fun a => a = X ∨ a ∈ c.chunks) m (chainAfter m c.node X) where
  rest := rfl
  fd {a} ha := by
    have := node_mem c
    simp only [chainAfter, linkBetween]
    grind [update_apply]
  bk {a} ha := by
    have := ((hg.chain (i := P.1) (p := P.2) h).ring.fd_spec (node_mem c)).1
    simp only [chainAfter, linkBetween]
    grind [update_apply]
  child _ := rfl
  parent {a} ha := by
    simp only [chainAfter]
    grind [update_apply]
  index _ := rfl

theorem chainAfter_spec (hg : TreeBins m g) (h : g (i, p) = some c) (hX : Loose m g X c.size)
    (hindex : m.index X = i) (hchild : ∀ b, m.child (X, b) = 0#32) :
    TreeBins (chainAfter m c.node X)
      (update g (i, p) (some { c with others := X :: c.others })) := by
  have hc := hg.chain h
  have hXc := hX.not_mem h
  have htouch := hg.chainAfter_touches h (X := X)
  refine hg.set ?_ ((hg.digital i).exchange h rfl) ?_ rfl fun Q d hQ hd =>
    sameChain_of_touches htouch ?_
  · have hnode : update g.node (i, p) c.node = g.node := by
      rw [← Forest.node_some h, update_eq_self]
    rw [hnode]
    refine hg.linked.congr rfl rfl rfl rfl (fun _ _ _ => rfl) fun P _ => ?_
    exact update_of_ne ((hX.fresh hchild).ne P) _ _
  · have hmem : ∀ {a}, a ∈ c.node :: X :: c.others → a = X ∨ a ∈ c.chunks := by
      intro a ha
      simp only [List.mem_cons, TreeChain.chunks] at ha ⊢
      tauto
    have hnot : ∀ {a}, a ∈ X :: c.others → a = X ∨ a ≠ X ∧ a ∈ c.others := by
      intro a ha
      rcases List.mem_cons.mp ha with rfl | ha
      · exact Or.inl rfl
      · exact Or.inr ⟨fun heq => hXc (heq ▸ other_mem ha), ha⟩
    exact
    { large := hc.large
      index_eq := hc.index_eq
      ring := hc.ring.push_after hc.nodup hXc
      nodup := by
        have := hc.nodup
        simp only [TreeChain.chunks, List.nodup_cons, List.mem_cons, not_or] at this hXc ⊢
        exact ⟨⟨fun heq => hXc.1 heq.symm, this.1⟩, hXc.2, this.2⟩
      chunksize := fun ha => by
        rcases hmem ha with rfl | ha
        · exact hX.chunksize
        · exact hc.chunksize ha
      index := fun ha => by
        rcases hmem ha with rfl | ha
        · exact hindex
        · exact hc.index ha
      ne_zero := fun ha => by
        rcases hmem ha with rfl | ha
        · exact hX.ne_zero
        · exact hc.ne_zero ha
      ok := fun ha => by
        rcases hmem ha with rfl | ha
        · exact hX.ok
        · exact hc.ok ha
      fits := fun ha => by
        rcases hmem ha with rfl | ha
        · exact hX.fits
        · exact hc.fits ha
      parent := fun ha => by
        rcases hnot ha with rfl | ⟨hne, ha⟩
        · exact update_self _ _ _
        · exact (update_of_ne hne _ _).trans (hc.parent ha)
      child := fun {a b} ha => by
        rcases hnot ha with rfl | ⟨-, ha⟩
        · exact hchild b
        · exact hc.child ha }
  · rintro a ha (rfl | hac)
    · exact hX.not_mem hd ha
    · exact hQ (hg.place_unique hd h ha hac)

theorem single_chainIn (hX : Loose m g X S) (hS : computeTreeIndex S = i)
    (hindex : m'.index X = i) (hhead : m'.head = m.head) (hleast : m'.leastAddr = m.leastAddr)
    (hfd : m'.fd X = X) (hbk : m'.bk X = X) : ChainIn m' i ⟨S, X, []⟩ where
  large := hX.large
  index_eq := hS
  ring := LinkedRing.singleton_iff.mpr ⟨hfd, hbk⟩
  nodup := List.nodup_singleton X
  chunksize ha := by
    obtain rfl := List.mem_singleton.mp ha
    rw [MallocState.chunksize, hhead]
    exact hX.chunksize
  index ha := by
    obtain rfl := List.mem_singleton.mp ha
    exact hindex
  ne_zero ha := by
    obtain rfl := List.mem_singleton.mp ha
    exact hX.ne_zero
  ok ha := by
    obtain rfl := List.mem_singleton.mp ha
    rw [OkAddress, hleast]
    exact hX.ok
  fits ha := by
    obtain rfl := List.mem_singleton.mp ha
    exact hX.fits
  parent := nofun
  child := nofun

theorem sprout_spec {b : Bool} (hg : TreeBins m g) (h : g (i, p) = some c)
    (hfree : g (i, b :: p) = none) (hX : Loose m g X S) (hS : computeTreeIndex S = i)
    (hindex : m.index X = i) (hchild : ∀ b, m.child (X, b) = 0#32)
    (hspells : Spells (treeWidth i) (b :: p) S.toNat) (hmissed : Missed g i S (b :: p)) :
    TreeBins (sprout m (c.node, b) X) (update g (i, b :: p) (some ⟨S, X, []⟩)) := by
  refine hg.set ?_ ?_ (single_chainIn hX hS hindex rfl rfl (update_self _ _ _) (update_self _ _ _))
    rfl fun Q d hQ hd => ?_
  · have hne := hg.node_ne_iff.mpr ⟨c, h⟩
    have hl := hg.linked.attach hne (Forest.node_none hfree) (hX.fresh hchild)
    rw [Forest.node_some h] at hl
    exact hl.congr rfl rfl rfl rfl (fun _ _ _ => rfl) fun _ _ => rfl
  · refine (hg.digital i).set ?_ hspells ?_ ?_
    · rintro b' q heq
      obtain ⟨rfl, rfl⟩ := List.cons.inj heq
      simp [h]
    · rw [← hS]
      exact size_div_treeWidth hX.large
    · exact fun q d _ hq => (hg.digital i).absent hfree hspells hmissed hq
  · have hne : ∀ {a}, a ∈ d.chunks → a ≠ X := fun ha heq => hX.not_mem hd (heq ▸ ha)
    have hnode : ∀ {a}, a ∈ d.others → c.node ≠ a := fun ha => by
      rw [← Forest.node_some h]
      exact hg.node_ne_other hd ha _
    exact
    { chunksize := fun _ => rfl
      fd := fun ha => update_of_ne (hne ha) _ _
      bk := fun ha => update_of_ne (hne ha) _ _
      index := fun _ => rfl
      parent := fun ha => update_of_ne (hne (other_mem ha)) _ _
      child := fun ha => update_of_ne (fun heq => hnode ha (congrArg Prod.fst heq).symm) _ _ }

theorem plantRoot_spec (hg : TreeBins m g) (hfree : g (i, []) = none) (hX : Loose m g X S)
    (hS : computeTreeIndex S = i) (hindex : m.index X = i) (hchild : ∀ b, m.child (X, b) = 0#32) :
    TreeBins (plantRoot m i X) (update g (i, []) (some ⟨S, X, []⟩)) := by
  have hi : i.toNat < 32 := by
    rw [← hS]
    exact computeTreeIndex_lt S
  refine hg.set ?_ ?_ (single_chainIn hX hS hindex rfl rfl (update_self _ _ _) (update_self _ _ _))
    rfl fun Q d hQ hd => ?_
  · have hl := hg.linked.plant hi (Forest.node_none hfree) (hX.fresh hchild)
    exact hl.congr rfl rfl rfl rfl (fun _ _ _ => rfl) fun _ _ => rfl
  · refine (hg.digital i).set (by simp) trivial ?_ ?_
    · rw [← hS]
      exact size_div_treeWidth hX.large
    · intro q d _ hq
      rw [(hg.digital i).below_none hfree List.nil_suffix] at hq
      simp at hq
  · have hne : ∀ {a}, a ∈ d.chunks → a ≠ X := fun ha heq => hX.not_mem hd (heq ▸ ha)
    exact
    { chunksize := fun _ => rfl
      fd := fun ha => update_of_ne (hne ha) _ _
      bk := fun ha => update_of_ne (hne ha) _ _
      index := fun _ => rfl
      parent := fun ha => update_of_ne (hne (other_mem ha)) _ _
      child := fun _ => rfl }

theorem prepare_touches (m : MallocState) (I : Word) (X : Addr) :
    Touches (fun a => a = X) m (prepare m I X) where
  rest := rfl
  fd _ := rfl
  bk _ := rfl
  child {a b} ha := by
    simp only [prepare]
    grind [update_apply]
  parent _ := rfl
  index ha := update_of_ne ha _ _

theorem prepare_child (m : MallocState) (I : Word) (X : Addr) (b : Bool) :
    (prepare m I X).child (X, b) = 0#32 := by
  cases b <;> simp [prepare]

theorem plantRoot_touches (m : MallocState) (I : Word) (X : Addr) :
    Touches (fun a => a = X) m (plantRoot m I X) where
  rest := rfl
  fd ha := update_of_ne ha _ _
  bk ha := update_of_ne ha _ _
  child _ := rfl
  parent ha := update_of_ne ha _ _
  index _ := rfl

theorem sprout_touches (m : MallocState) (C : ChildSlot) (X : Addr) :
    Touches (fun a => a = X ∨ a = C.1) m (sprout m C X) where
  rest := rfl
  fd ha := update_of_ne (fun heq => ha (Or.inl heq)) _ _
  bk ha := update_of_ne (fun heq => ha (Or.inl heq)) _ _
  child ha := update_of_ne (fun heq => ha (Or.inr (congrArg Prod.fst heq))) _ _
  parent ha := update_of_ne (fun heq => ha (Or.inl heq)) _ _
  index _ := rfl

theorem Loose.congr (hX : Loose m g X S) (hhead : m'.head = m.head)
    (hleast : m'.leastAddr = m.leastAddr) : Loose m' g X S where
  large := hX.large
  chunksize := by
    rw [MallocState.chunksize, hhead]
    exact hX.chunksize
  ne_zero := hX.ne_zero
  ok := by
    rw [OkAddress, hleast]
    exact hX.ok
  fits := hX.fits
  not_has := hX.not_has

/-- `insert_large_chunk` adds the chunk, and reports no corruption. -/
theorem insertLargeChunk_spec {fuel : Nat} (hg : TreeBins m g) (hX : Loose m g X S)
    (hfuel : 32 < fuel) :
    ∃ m' g', insertLargeChunk fuel m X S = .done m' ∧ TreeBins m' g' ∧
      (∀ a s, g'.Has a s ↔ g.Has a s ∨ a = X ∧ s = S) ∧
      Touches (fun a => a = X ∨ ∃ s, g.Has a s) m m' ∧ m'.smallmap = m.smallmap := by
  have hi := computeTreeIndex_lt S
  have hprep := prepare_touches m (computeTreeIndex S) X
  have hg1 := hg.congr_of_touches hprep rfl rfl (by rintro a s rfl; exact hX.not_has s)
  have hX1 : Loose (prepare m (computeTreeIndex S) X) g X S := hX.congr rfl rfl
  have hindex : (prepare m (computeTreeIndex S) X).index X = computeTreeIndex S :=
    update_self _ _ _
  have hchild := prepare_child m (computeTreeIndex S) X
  have hmap : (prepare m (computeTreeIndex S) X).smallmap = m.smallmap := rfl
  rw [insertLargeChunk]
  generalize prepare m (computeTreeIndex S) X = m1 at *
  have hmarked := hg1.linked.marked hi
  cases hroot : g (computeTreeIndex S, []) with
  | none =>
    have hnot : ¬ m1.TreemapIsMarked (computeTreeIndex S) := by
      rw [hmarked, Forest.node_none hroot]
      simp
    refine ⟨_, _, if_pos hnot, hg1.plantRoot_spec hroot hX1 rfl hindex hchild,
      Forest.has_new hroot X S, (hprep.trans (plantRoot_touches m1 _ X)).mono ?_, hmap⟩
    rintro a (rfl | rfl)
    · exact Or.inl rfl
    · exact Or.inl rfl
  | some c =>
    have hyes : m1.TreemapIsMarked (computeTreeIndex S) :=
      hmarked.mpr (hg1.node_ne_iff.mpr ⟨c, hroot⟩)
    rw [if_neg (not_not.mpr hyes)]
    have hspec := hg1.insertBelow_spec (X := X) hX.large rfl fuel [] c hroot trivial (by simp)
      (by simpa using hfuel)
    rw [hg1.linked.root hi, Forest.node_some hroot, BitVec.shiftLeft_eq',
      leftshiftForTreeIndex_toNat hi]
    simp only [List.length_nil, Nat.add_zero] at hspec
    rcases hspec with ⟨q, d, hq, rfl, heq⟩ | ⟨b, q, d, hq, hfree, hspells, hmissed, heq⟩
    · refine ⟨_, _, heq, hg1.chainAfter_spec hq hX1 hindex hchild, ?_,
        (hprep.trans (hg1.chainAfter_touches hq)).mono ?_, hmap⟩
      · refine Forest.has_more hq (fun a => ?_) rfl
        simp only [TreeChain.chunks, List.mem_cons]
        tauto
      · rintro a (rfl | rfl | ha)
        · exact Or.inl rfl
        · exact Or.inl rfl
        · exact Or.inr ⟨_, _, d, hq, ha, rfl⟩
    · refine ⟨_, _, heq, hg1.sprout_spec hq hfree hX1 rfl hindex hchild hspells hmissed,
        Forest.has_new hfree X S, (hprep.trans (sprout_touches m1 _ X)).mono ?_, hmap⟩
      rintro a (rfl | rfl | rfl)
      · exact Or.inl rfl
      · exact Or.inl rfl
      · exact Or.inr ⟨_, has_node hq⟩

/-! ## A chunk goes -/

theorem rightmostLeaf_spec (hg : TreeBins m g) (fuel : Nat) :
    ∀ b p c, g (i, b :: p) = some c → 32 < fuel + p.length + 1 →
      ∃ b' p' d, Below (b :: p) (b' :: p') ∧ g (i, b' :: p') = some d ∧
        (∀ e, g (i, e :: b' :: p') = none) ∧
        rightmostLeaf m fuel c.node (g.node (i, p), b) =
          .done (d.node, (g.node (i, p'), b')) := by
  induction fuel with
  | zero =>
    intro b p c h hfuel
    have := ((hg.digital i).spells h).length_le
    have := treeWidth_le (hg.index_lt h)
    rw [List.length_cons] at *
    omega
  | succ fuel ih =>
    intro b p c h hfuel
    have hnode := Forest.node_some h
    have hchild : ∀ e, m.child (c.node, e) = g.node (i, e :: b :: p) := fun e => by
      rw [← hnode]
      exact hg.linked.child (hg.node_ne_iff.mpr ⟨c, h⟩)
    have hbelow : ∀ e, Below (b :: p) (e :: b :: p) := fun e => List.suffix_cons _ _
    rw [rightmostLeaf, hchild, hchild]
    cases hright : g (i, true :: b :: p) with
    | some d =>
      obtain ⟨b', p', e, hle, he, hleaf, heq⟩ := ih true (b :: p) d hright (by
        rw [List.length_cons]
        omega)
      rw [hnode] at heq
      refine ⟨b', p', e, (hbelow true).trans hle, he, hleaf, ?_⟩
      rw [if_pos (hg.node_ne_iff.mpr ⟨d, hright⟩), Forest.node_some hright, heq]
    | none =>
      rw [if_neg (by simp [Forest.node_none hright])]
      cases hleft : g (i, false :: b :: p) with
      | some d =>
        obtain ⟨b', p', e, hle, he, hleaf, heq⟩ := ih false (b :: p) d hleft (by
          rw [List.length_cons]
          omega)
        rw [hnode] at heq
        refine ⟨b', p', e, (hbelow false).trans hle, he, hleaf, ?_⟩
        rw [if_pos (hg.node_ne_iff.mpr ⟨d, hleft⟩), Forest.node_some hleft, heq]
      | none =>
        refine ⟨b, p, c, List.suffix_refl _, h, ?_, ?_⟩
        · rintro (_ | _)
          · exact hleft
          · exact hright
        · rw [if_neg (by simp [Forest.node_none hleft])]

theorem takeLeaf_spec {fuel : Nat} {b : Bool} (hg : TreeBins m g) (h : g (i, b :: p) = some c)
    (hfuel : 32 < fuel) :
    ∃ b' q d, Below p q ∧ g (i, b' :: q) = some d ∧ (∀ e, g (i, e :: b' :: q) = none) ∧
      takeLeaf fuel m (g.node (i, p), b) =
        .done ({ m with child := update m.child (g.node (i, q), b') 0#32 }, d.node) := by
  have hpne := hg.linked.above_ne (hg.node_ne_iff.mpr ⟨c, h⟩)
  obtain ⟨b', q, d, hbelow, hd, hleaf, heq⟩ := hg.rightmostLeaf_spec fuel b p c h (by omega)
  have hqne := hg.linked.above_ne (hg.node_ne_iff.mpr ⟨d, hd⟩)
  refine ⟨b', q, d, ?_, hd, hleaf, ?_⟩
  · rcases List.suffix_cons_iff.mp hbelow with heq | hbelow
    · rw [(List.cons.inj heq).2]
      exact List.suffix_refl q
    · exact (List.suffix_cons b p).trans hbelow
  · rw [takeLeaf, hg.linked.child hpne, Forest.node_some h, heq]
    exact if_pos (hg.linked.okAddress_slot hqne b')

theorem cut_spec {b : Bool} (hg : TreeBins m g) (h : g (i, b :: p) = some c)
    (hleaf : ∀ e, g (i, e :: b :: p) = none) :
    TreeBins { m with child := update m.child (g.node (i, p), b) 0#32 }
      (update g (i, b :: p) none) := by
  refine hg.unset ?_ hleaf rfl fun Q d _ hd => ?_
  · exact hg.linked.cut (hg.node_ne_iff.mpr ⟨c, h⟩) fun e => Forest.node_none (hleaf e)
  · exact
    { chunksize := fun _ => rfl
      fd := fun _ => rfl
      bk := fun _ => rfl
      index := fun _ => rfl
      parent := fun _ => rfl
      child := fun ha => update_of_ne
        (fun heq => hg.node_ne_other hd ha _ (congrArg Prod.fst heq).symm) _ _ }

theorem relink_sameChain {h : Place → Addr} {R : Addr} (hl : Linked m h) (hne : h (i, p) ≠ 0#32)
    (hindex : m.index (h (i, p)) = i) (hR : R = 0#32 ∨ Linked.Fresh m h R)
    (hother : ∀ a ∈ c.others, a ≠ R ∧ ∀ Q, h Q ≠ a) :
    SameChain m (relink m (h (i, p)) (m.parent (h (i, p))) R) c := by
  obtain ⟨hfd, hbk, hi⟩ := hl.relink_rings hne hindex hR
  obtain ⟨htouch, -⟩ := hl.relink_touches hne hindex hR
  have hnot : ∀ a ∈ c.others, ¬ (R ≠ 0#32 ∧ a = R ∨ ∃ P, h P ≠ 0#32 ∧ a = h P) := by
    rintro a ha (⟨-, heq⟩ | ⟨Q, -, heq⟩)
    · exact (hother a ha).1 heq
    · exact (hother a ha).2 Q heq.symm
  exact
  { chunksize := fun _ => by rw [MallocState.chunksize, htouch.head, MallocState.chunksize]
    fd := fun _ => by rw [hfd]
    bk := fun _ => by rw [hbk]
    index := fun _ => by rw [hi]
    parent := fun ha => htouch.parent (hnot _ ha)
    child := fun ha => htouch.child (hnot _ ha) }

theorem relink_spec {m1 : MallocState} (hg : TreeBins m g) (h : g (i, p) = some c)
    (hl : Linked m1 g.node) (hleast : m1.leastAddr = m.leastAddr)
    (hindex : m1.index c.node = i) (hd : ChainIn m1 i d) (hfresh : Linked.Fresh m1 g.node d.node)
    (hdothers : ∀ a ∈ d.others, ∀ Q, g.node Q ≠ a)
    (hdigital : DigitalTree (treeWidth i) (treeUpper i) (fun c : TreeChain => c.size.toNat)
      (update (fun q => g (i, q)) p (some d)))
    (hsame : ∀ Q e, Q ≠ (i, p) → g Q = some e → SameChain m m1 e)
    (hapart : ∀ Q e, Q ≠ (i, p) → g Q = some e → d.node ∉ e.chunks) :
    TreeBins (relink m1 c.node (m1.parent c.node) d.node) (update g (i, p) (some d)) ∧
      Touches (fun a => a = d.node ∨ ∃ s, g.Has a s) m1
        (relink m1 c.node (m1.parent c.node) d.node) ∧
      (relink m1 c.node (m1.parent c.node) d.node).smallmap = m1.smallmap := by
  have hne := hg.node_ne_iff.mpr ⟨c, h⟩
  rw [← Forest.node_some h] at hindex ⊢
  obtain ⟨htouch, hsmallmap⟩ := hl.relink_touches hne hindex (Or.inr hfresh)
  refine ⟨hg.set (hl.replace hne hindex hfresh) hdigital
    (hd.congr ?_ htouch.leastAddr) (htouch.leastAddr.trans hleast)
    fun Q e hQ he => (hsame Q e hQ he).trans ?_,
    htouch.mono fun a ha => ha.imp (fun ha => ha.2) hg.has_of_node, hsmallmap⟩
  · refine relink_sameChain hl hne hindex (Or.inr hfresh) fun a ha => ⟨?_, hdothers a ha⟩
    rintro rfl
    exact (List.nodup_cons.mp hd.nodup).1 ha
  · refine relink_sameChain hl hne hindex (Or.inr hfresh) fun a ha =>
      ⟨?_, hg.node_ne_other he ha⟩
    rintro rfl
    exact hapart Q e hQ he (other_mem ha)

theorem unchain_ring {l1 l2 : List Addr} (hg : TreeBins m g) (h : g (i, p) = some c)
    (hchunks : c.chunks = l1 ++ X :: l2) :
    LinkedRing (unchain m X).fd (unchain m X).bk (l1 ++ l2) := by
  have hc := hg.chain h
  have hring := hc.ring
  have hnodup := hc.nodup
  rw [hchunks] at hring hnodup
  exact (hring.swap.pop (List.nodup_append_comm.mp hnodup)).swap

theorem unchain_sameChain (hg : TreeBins m g) (h : g P = some c) (hX : X ∈ c.chunks)
    (hQ : Q ≠ P) (hd : g Q = some d) : SameChain m (unchain m X) d := by
  have hring := (hg.chain (i := P.1) (p := P.2) h).ring
  have hnot : ∀ {a x}, a ∈ d.chunks → x ∈ c.chunks → a ≠ x := fun ha hx heq =>
    hQ (hg.place_unique hd h ha (heq ▸ hx))
  exact
  { chunksize := fun _ => rfl
    fd := fun ha => update_of_ne (hnot ha (hring.bk_spec hX).1) _ _
    bk := fun ha => update_of_ne (hnot ha (hring.fd_spec hX).1) _ _
    index := fun _ => rfl
    parent := fun _ => rfl
    child := fun _ => rfl }

theorem unchain_chainIn (hg : TreeBins m g) (h : g (i, p) = some c) (hsize : d.size = c.size)
    (hring : LinkedRing (unchain m X).fd (unchain m X).bk d.chunks) (hnodup : d.chunks.Nodup)
    (hmem : ∀ a ∈ d.chunks, a ∈ c.chunks) (hothers : ∀ a ∈ d.others, a ∈ c.others) :
    ChainIn (unchain m X) i d := by
  have hc := hg.chain h
  exact
  { large := hsize ▸ hc.large
    index_eq := hsize ▸ hc.index_eq
    ring := hring
    nodup := hnodup
    chunksize := fun ha => hsize ▸ hc.chunksize (hmem _ ha)
    index := fun ha => hc.index (hmem _ ha)
    ne_zero := fun ha => hc.ne_zero (hmem _ ha)
    ok := fun ha => hc.ok (hmem _ ha)
    fits := fun ha => hsize ▸ hc.fits (hmem _ ha)
    parent := fun ha => hc.parent (hothers _ ha)
    child := fun ha => hc.child (hothers _ ha) }

theorem unchain_linked (hg : TreeBins m g) : Linked (unchain m X) g.node :=
  hg.linked.congr rfl rfl rfl rfl (fun _ _ _ => rfl) fun _ _ => rfl

theorem unchain_spec {l1 l2 : List Addr} (hg : TreeBins m g) (h : g (i, p) = some c)
    (hothers : c.others = l1 ++ X :: l2) :
    TreeBins (unchain m X) (update g (i, p) (some { c with others := l1 ++ l2 })) := by
  have hchunks : c.chunks = (c.node :: l1) ++ X :: l2 := by
    rw [TreeChain.chunks, hothers, List.cons_append]
  have hX : X ∈ c.chunks := by simp [hchunks]
  have hnodup := (hg.chain h).nodup
  rw [hchunks] at hnodup
  refine hg.set ?_ ((hg.digital i).exchange h rfl) (hg.unchain_chainIn h rfl
    (hg.unchain_ring h hchunks) ?_ ?_ ?_) rfl fun Q d hQ hd => hg.unchain_sameChain h hX hQ hd
  · have hnode : update g.node (i, p) c.node = g.node := by
      rw [← Forest.node_some h, update_eq_self]
    rw [hnode]
    exact hg.unchain_linked
  · exact hnodup.sublist ((List.sublist_cons_self X l2).append_left (c.node :: l1))
  · intro a ha
    rw [hchunks]
    simp only [TreeChain.chunks, List.mem_cons, List.mem_append] at ha ⊢
    tauto
  · intro a ha
    rw [hothers]
    simp only [List.mem_cons, List.mem_append] at ha ⊢
    tauto

/-- A node goes, and the chunk before it in the ring replaces it. -/
theorem promote_spec (hg : TreeBins m g) (h : g (i, p) = some c) (hothers : c.others ≠ []) :
    ∃ l, c.others = l ++ [m.bk c.node] ∧
      TreeBins (relink (unchain m c.node) c.node (m.parent c.node) (m.bk c.node))
        (update g (i, p) (some ⟨c.size, m.bk c.node, l⟩)) ∧
      Touches (fun a => a = m.bk c.node ∨ ∃ s, g.Has a s) (unchain m c.node)
        (relink (unchain m c.node) c.node (m.parent c.node) (m.bk c.node)) ∧
      (relink (unchain m c.node) c.node (m.parent c.node) (m.bk c.node)).smallmap =
        m.smallmap := by
  have hc := hg.chain h
  have hchunks : c.chunks = [] ++ c.node :: c.others := rfl
  obtain ⟨⟨-, hhead⟩, -⟩ := (LinkedRing.iff_isChain (by simp [TreeChain.chunks])).mp hc.ring
  simp only [TreeChain.chunks, List.head_cons, List.getLast_cons hothers] at hhead
  have hlast : c.others = c.others.dropLast ++ [m.bk c.node] := by
    rw [hhead, List.dropLast_append_getLast]
  generalize c.others.dropLast = l at hlast
  have hR : m.bk c.node ∈ c.others := by
    rw [hlast]
    simp
  have hnodup := (List.nodup_cons.mp hc.nodup).2
  have hring := hg.unchain_ring h hchunks
  rw [List.nil_append, hlast] at hring
  rw [hlast] at hnodup
  have hmem : ∀ a ∈ l, a ∈ c.others := fun a ha => by
    rw [hlast]
    exact List.mem_append_left _ ha
  have hchain : ChainIn (unchain m c.node) i ⟨c.size, m.bk c.node, l⟩ := by
    refine hg.unchain_chainIn h rfl hring.swap (List.nodup_append_comm.mp hnodup) ?_ hmem
    intro a ha
    rcases List.mem_cons.mp ha with rfl | ha
    · exact other_mem hR
    · exact other_mem (hmem a ha)
  refine ⟨l, hlast, hg.relink_spec h hg.unchain_linked rfl (hc.index (node_mem c)) hchain ?_
    (fun a ha => hg.node_ne_other h (hmem a ha)) ((hg.digital i).exchange h rfl)
    (fun Q e hQ he => hg.unchain_sameChain h (node_mem c) hQ he) fun Q e hQ he hmem' =>
      hQ (hg.place_unique he h hmem' (other_mem hR))⟩
  have hfits := hc.fits (other_mem hR)
  have hlarge := hc.large
  exact
  { ne_zero := hc.ne_zero (other_mem hR)
    ne := hg.node_ne_other h hR
    ok := hc.ok (other_mem hR)
    fits := by
      show (m.bk c.node).toNat + 32 ≤ 2 ^ 32
      omega
    child := fun _ => hc.child hR }

theorem remove_spec (hg : TreeBins m g) (h : g (i, p) = some c)
    (hleaf : ∀ b, g (i, b :: p) = none) :
    TreeBins (relink m c.node (m.parent c.node) 0#32) (update g (i, p) none) ∧
      Touches (fun a => ∃ s, g.Has a s) m (relink m c.node (m.parent c.node) 0#32) ∧
      (relink m c.node (m.parent c.node) 0#32).smallmap = m.smallmap := by
  have hne := hg.node_ne_iff.mpr ⟨c, h⟩
  have hindex := (hg.chain h).index (node_mem c)
  rw [← Forest.node_some h] at hindex ⊢
  obtain ⟨htouch, hsmallmap⟩ := hg.linked.relink_touches hne hindex (Or.inl rfl)
  refine ⟨hg.unset (hg.linked.remove hne hindex fun b => Forest.node_none (hleaf b)) hleaf
    htouch.leastAddr fun Q d hQ hd => ?_,
    htouch.mono fun a ha => ?_, hsmallmap⟩
  · exact relink_sameChain hg.linked hne hindex (Or.inl rfl) fun a ha =>
      ⟨(hg.chain (i := Q.1) (p := Q.2) hd).ne_zero (other_mem ha), hg.node_ne_other hd ha⟩
  · exact ha.elim (fun h0 => absurd rfl h0.1) hg.has_of_node

/-- A node without others goes, and a leaf below replaces it. -/
theorem lift_spec {b : Bool} {q : List Bool} (hg : TreeBins m g) (h : g (i, p) = some c)
    (hd : g (i, b :: q) = some d) (hbelow : Below p q) (hleaf : ∀ e, g (i, e :: b :: q) = none) :
    TreeBins (relink { m with child := update m.child (g.node (i, q), b) 0#32 } c.node
        (m.parent c.node) d.node) (update (update g (i, b :: q) none) (i, p) (some d)) ∧
      Touches (fun a => ∃ s, g.Has a s) m (relink { m with
        child := update m.child (g.node (i, q), b) 0#32 } c.node (m.parent c.node) d.node) ∧
      (relink { m with child := update m.child (g.node (i, q), b) 0#32 } c.node
        (m.parent c.node) d.node).smallmap = m.smallmap := by
  have hcut := hg.cut_spec hd hleaf
  have hdchain := hg.chain hd
  have hne : (i, p) ≠ (i, b :: q) := by
    intro heq
    obtain ⟨-, rfl⟩ := Prod.mk.inj heq
    have := List.IsSuffix.length_le hbelow
    simp at this
  have hplace : update g (i, b :: q) none (i, p) = some c := by rw [update_of_ne hne, h]
  have hold : ∀ {Q e}, update g (i, b :: q) none Q = some e → Q ≠ (i, b :: q) ∧ g Q = some e := by
    intro Q e hQ
    by_cases hQL : Q = (i, b :: q)
    · simp [hQL] at hQ
    · rw [update_of_ne hQL] at hQ
      exact ⟨hQL, hQ⟩
  have hnodes : ∀ {a}, a ∈ d.chunks → ∀ Q, Forest.node (update g (i, b :: q) none) Q ≠ a := by
    intro a ha Q heq
    cases hQ : update g (i, b :: q) none Q with
    | none =>
      rw [Forest.node_none hQ] at heq
      exact hdchain.ne_zero ha heq.symm
    | some e =>
      rw [Forest.node_some hQ] at heq
      obtain ⟨hQL, hQ⟩ := hold hQ
      exact hQL (hg.place_unique hQ hd (node_mem e) (heq ▸ ha))
  have hcutTouch : Touches (fun a => a = g.node (i, q)) m
      { m with child := update m.child (g.node (i, q), b) 0#32 } :=
    ⟨rfl, fun _ => rfl, fun _ => rfl,
      fun ha => update_of_ne (fun heq => ha (congrArg Prod.fst heq)) _ _, fun _ => rfl,
      fun _ => rfl⟩
  have hqne := hg.linked.above_ne (hg.node_ne_iff.mpr ⟨d, hd⟩)
  have hspells := (hg.digital i).spells_of_below
    (List.IsSuffix.trans hbelow (List.suffix_cons b q)) hd
  have hspec := hcut.relink_spec hplace hcut.linked rfl ((hg.chain h).index (node_mem c))
    (hdchain.congr ?_ rfl) ?_ (fun a ha => hnodes (other_mem ha)) ?_
    (fun _ _ _ _ => ⟨fun _ => rfl, fun _ => rfl, fun _ => rfl, fun _ => rfl, fun _ => rfl,
      fun _ => rfl⟩) ?_
  · obtain ⟨hspec, htouch, hsmallmap⟩ := hspec
    refine ⟨hspec, (hcutTouch.trans htouch).mono ?_, hsmallmap⟩
    rintro a (rfl | rfl | ⟨s, Q, e, hQ, ha, rfl⟩)
    · exact hg.has_of_node ⟨_, hqne, rfl⟩
    · exact ⟨d.size, has_node hd⟩
    · exact ⟨_, Q, e, (hold hQ).2, ha, rfl⟩
  · exact
    { chunksize := fun _ => rfl
      fd := fun _ => rfl
      bk := fun _ => rfl
      index := fun _ => rfl
      parent := fun _ => rfl
      child := fun ha => update_of_ne
        (fun heq => hg.node_ne_other hd ha _ (congrArg Prod.fst heq).symm) _ _ }
  · have hfits := hdchain.fits (node_mem d)
    have hlarge := hdchain.large
    exact
    { ne_zero := hdchain.ne_zero (node_mem d)
      ne := hnodes (node_mem d)
      ok := hdchain.ok (node_mem d)
      fits := by omega
      child := fun e => by
        have hparent : (d.node, e) ≠ (g.node (i, q), b) := by
          intro heq
          have hnode := (congrArg Prod.fst heq).symm
          rw [← Forest.node_some hd] at hnode
          exact hg.linked.ne_of_ne hqne (by simp) hnode
        show update m.child (g.node (i, q), b) 0#32 (d.node, e) = 0#32
        rw [update_of_ne hparent, ← Forest.node_some hd,
          hg.linked.child (hg.node_ne_iff.mpr ⟨d, hd⟩), Forest.node_none (hleaf e)] }
  · refine (hcut.digital i).set ?_ hspells ((hg.digital i).div_eq hd) ?_
    · rintro b' r rfl hr
      rw [(hcut.digital i).closed hr] at hplace
      simp at hplace
    · intro r e _ hr hsize
      obtain ⟨hrL, hr⟩ := hold hr
      exact hrL (congrArg (Prod.mk i) ((hg.digital i).unique hr hd hsize))
  · intro Q e _ hQ hmem
    obtain ⟨hQL, hQ⟩ := hold hQ
    exact hQL (hg.place_unique hQ hd hmem (node_mem d))

theorem relink_of_null (m : MallocState) (X R : Addr) : relink m X 0#32 R = m := if_neg (by simp)

theorem unchain_touches (m : MallocState) (X : Addr) :
    Touches (fun a => a = m.fd X ∨ a = m.bk X) m (unchain m X) where
  rest := rfl
  fd ha := update_of_ne (fun heq => ha (Or.inr heq)) _ _
  bk ha := update_of_ne (fun heq => ha (Or.inl heq)) _ _
  child _ := rfl
  parent _ := rfl
  index _ := rfl

/-- `unlink_large_chunk` removes the chunk, and reports no corruption. -/
theorem unlinkLargeChunk_spec {fuel : Nat} (hg : TreeBins m g) (hX : g.Has X S)
    (hfuel : 32 < fuel) :
    ∃ m' g', unlinkLargeChunk fuel m X = .done m' ∧ TreeBins m' g' ∧
      (∀ a s, g'.Has a s ↔ g.Has a s ∧ a ≠ X) ∧
      Touches (fun a => ∃ s, g.Has a s) m m' ∧ m'.smallmap = m.smallmap := by
  obtain ⟨⟨i, p⟩, c, h, hXc, rfl⟩ := hX
  have hc := hg.chain h
  have honly : ∀ Q d, g Q = some d → X ∈ d.chunks → Q = (i, p) := fun Q d hQ hXd =>
    hg.place_unique hQ h hXd hXc
  obtain ⟨hfd, hbkfd⟩ := hc.ring.fd_spec hXc
  obtain ⟨hbk, hfdbk⟩ := hc.ring.bk_spec hXc
  have hhas : ∀ {a}, a ∈ c.chunks → ∃ s, g.Has a s := fun ha => ⟨_, _, c, h, ha, rfl⟩
  have hunchain : Touches (fun a => ∃ s, g.Has a s) m (unchain m X) := by
    refine (unchain_touches m X).mono ?_
    rintro a (rfl | rfl)
    · exact hhas hfd
    · exact hhas hbk
  have halone := hc.ring.bk_eq_self_iff hc.nodup hXc
  rw [unlinkLargeChunk, replacement]
  by_cases hself : m.bk X = X
  · have hchunks := halone.mp hself
    obtain ⟨rfl, hothers⟩ := List.cons.inj hchunks
    have hnode := Forest.node_some h
    have hchild : ∀ e, m.child (c.node, e) = g.node (i, e :: p) := fun e => by
      rw [← hnode]
      exact hg.linked.child (hg.node_ne_iff.mpr ⟨c, h⟩)
    have hlift : ∀ b d, g (i, b :: p) = some d → ∃ m' g', (do
        let r ← takeLeaf fuel m (c.node, b)
        .done (relink r.1 c.node (m.parent c.node) r.2)) = .done m' ∧
        TreeBins m' g' ∧ (∀ a s, g'.Has a s ↔ g.Has a s ∧ a ≠ c.node) ∧
        Touches (fun a => ∃ s, g.Has a s) m m' ∧ m'.smallmap = m.smallmap := by
      intro b d hd
      obtain ⟨b', q, e, hbelow, he, hleaf, heq⟩ := hg.takeLeaf_spec hd (by omega)
      rw [hnode] at heq
      obtain ⟨hg', htouch, hsmallmap⟩ := hg.lift_spec h he hbelow hleaf
      refine ⟨_, _, by rw [heq]; rfl, hg', Forest.has_lifted h he ?_ honly hchunks, htouch,
        hsmallmap⟩
      intro heq
      obtain ⟨-, rfl⟩ := Prod.mk.inj heq
      have := List.IsSuffix.length_le hbelow
      simp at this
    rw [if_neg (not_not.mpr hself)]
    simp only [hchild]
    cases hright : g (i, true :: p) with
    | some d =>
      have hne := hg.node_ne_iff.mpr ⟨d, hright⟩
      simp only [if_pos hne, hchild]
      exact hlift true d hright
    | none =>
      have hzero : ¬ g.node (i, true :: p) ≠ 0#32 := by simp [Forest.node_none hright]
      simp only [if_neg hzero, hchild]
      cases hleft : g (i, false :: p) with
      | some d =>
        have hne := hg.node_ne_iff.mpr ⟨d, hleft⟩
        rw [if_pos hne]
        exact hlift false d hleft
      | none =>
        rw [Forest.node_none hleft]
        obtain ⟨hg', htouch, hsmallmap⟩ := hg.remove_spec h (by
          rintro (_ | _)
          · exact hleft
          · exact hright)
        exact ⟨_, _, rfl, hg', Forest.has_gone h honly hchunks, htouch, hsmallmap⟩
  · rw [if_pos hself, if_pos ⟨hc.ok hfd, hbkfd, hfdbk⟩]
    rcases List.mem_cons.mp hXc with rfl | hXo
    · have hothers : c.others ≠ [] := by
        intro hnil
        refine hself (halone.mpr ?_)
        rw [TreeChain.chunks, hnil]
      obtain ⟨l, hl, hg', htouch, hsmallmap⟩ := hg.promote_spec h hothers
      refine ⟨_, _, rfl, hg', Forest.has_less h honly ?_ rfl, (hunchain.trans htouch).mono ?_,
        hsmallmap⟩
      · intro a
        have hnodup := (List.nodup_cons.mp hc.nodup).1
        simp only [TreeChain.chunks, hl, List.mem_cons, List.mem_append, List.not_mem_nil,
          or_false] at hnodup ⊢
        grind
      · rintro a (ha | rfl | ha)
        · exact ha
        · exact hhas hbk
        · exact ha
    · obtain ⟨l1, l2, hl⟩ := List.append_of_mem hXo
      refine ⟨unchain m X, _, ?_, hg.unchain_spec h hl, Forest.has_less h honly ?_ rfl, hunchain,
        rfl⟩
      · simp only [Outcome.done_bind, hc.parent hXo, relink_of_null]
      · intro a
        have hnodup := hc.nodup
        simp only [TreeChain.chunks, hl, List.nodup_cons, List.nodup_append, List.mem_cons,
          List.mem_append] at hnodup ⊢
        grind

end TreeBins

end LibSystem.Core
