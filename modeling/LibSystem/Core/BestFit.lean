import LibSystem.Core.BinRuns

/-!
# The best fit

`tmalloc_large` and `tmalloc_small` of `dlmalloc.c` take the smallest chunk from
the trees that is large enough.
-/

namespace LibSystem.Core

open Function MallocState

/-- `leftmost_child`. -/
def leftmostChild (m : MallocState) (t : Addr) : Addr :=
  if m.child (t, false) ≠ 0#32 then m.child (t, false) else m.child (t, true)

/-- The first loop of `tmalloc_large`: along the bits of `nb`. `rst` is the deepest right
subtree that was passed by. The new `t`, `v` and `rsize`. -/
def searchPath (m : MallocState) (nb : Word) :
    Nat → Addr → Addr → Word → Addr → Word → Outcome (Addr × Addr × Word)
  | 0, _, _, _, _, _ => .timeout
  | fuel + 1, t, v, rsize, rst, sizebits =>
    let trem := m.chunksize t - nb
    if trem < rsize ∧ trem = 0#32 then .done (t, t, trem)
    else
      let (v, rsize) := if trem < rsize then (t, trem) else (v, rsize)
      let rt := m.child (t, true)
      let t := m.child (t, sizebits.getLsbD 31)
      let rst := if rt ≠ 0#32 ∧ rt ≠ t then rt else rst
      if t = 0#32 then .done (rst, v, rsize)
      else searchPath m nb fuel t v rsize rst (sizebits <<< 1)

/-- The loops to the left: the smallest of the tree or subtree `t`. -/
def searchLeft (m : MallocState) (nb : Word) : Nat → Addr → Addr → Word → Outcome (Addr × Word)
  | 0, _, _, _ => .timeout
  | fuel + 1, t, v, rsize =>
    if t = 0#32 then .done (v, rsize)
    else
      let trem := m.chunksize t - nb
      if trem < rsize then searchLeft m nb fuel (leftmostChild m t) t trem
      else searchLeft m nb fuel (leftmostChild m t) v rsize

/-- The tree `idx` of `nb` itself. -/
def searchFirst (fuel : Nat) (m : MallocState) (nb idx : Word) : Outcome (Addr × Addr × Word) :=
  let t := m.treebins idx
  if t ≠ 0#32 then
    searchPath m nb fuel t 0#32 (-nb) 0#32 (nb <<< leftshiftForTreeIndex idx)
  else .done (0#32, 0#32, -nb)

/-- `tmalloc_large` up to the choice of `v` and `rsize`. -/
def bestLarge (fuel : Nat) (m : MallocState) (nb : Word) : Outcome (Addr × Word) := do
  let idx := computeTreeIndex nb
  let (t, v, rsize) ← searchFirst fuel m nb idx
  let leftbits := leftBits (idx2bit idx) &&& m.treemap
  let t :=
    if t = 0#32 ∧ v = 0#32 ∧ leftbits ≠ 0#32 then m.treebins (computeBit2idx (leastBit leftbits))
    else t
  searchLeft m nb fuel t v rsize

/-- `tmalloc_small` up to the choice of `v` and `rsize`. -/
def bestSmall (fuel : Nat) (m : MallocState) (nb : Word) : Outcome (Addr × Word) :=
  let i := computeBit2idx (leastBit m.treemap)
  let t := m.treebins i
  searchLeft m nb fuel (leftmostChild m t) t (m.chunksize t - nb)

variable {m : MallocState} {g : Forest} {i : Word} {p q : List Bool} {c d : TreeChain}
  {nb S : Word} {v : Addr} {rsize : Word} {fuel best : Nat}

/-- The key of a chain. -/
abbrev sizeKey (c : TreeChain) : Nat := c.size.toNat

/-- `v` is a node of the tree `i` of the size `best`, or null if there is none yet. -/
def Holds (g : Forest) (i : Word) (nb : Word) (v : Addr) (best : Nat) : Prop :=
  v = 0#32 ∧ best = 2 ^ 32 ∨
    ∃ p c, g (i, p) = some c ∧ c.node = v ∧ c.size.toNat = best ∧ nb.toNat ≤ best

theorem Holds.le (h : Holds g i nb v best) : best ≤ 2 ^ 32 := by
  rcases h with ⟨-, rfl⟩ | ⟨p, c, -, -, rfl, -⟩
  · exact Nat.le_refl _
  · exact c.size.isLt.le

theorem trem_lt_iff {s rsize : Word} (hnb : 0 < nb.toNat) (hbest : best ≤ 2 ^ 32)
    (hrsize : rsize.toNat + nb.toNat = best) :
    s - nb < rsize ↔ nb.toNat ≤ s.toNat ∧ s.toNat < best := by
  rw [BitVec.lt_def, BitVec.toNat_sub]
  omega

namespace TreeBins

theorem child_node (hg : TreeBins m g) (h : g (i, p) = some c) (b : Bool) :
    m.child (c.node, b) = g.node (i, b :: p) := by
  have hnode := Forest.node_some h
  rw [← hnode]
  exact hg.linked.child (by rw [hnode]; exact hg.node_ne h)

theorem leftmostChild_eq (hg : TreeBins m g) (h : g (i, p) = some c) :
    ∃ b, leftmostChild m c.node = g.node (i, b :: p) ∧ (b = true ↔ g (i, false :: p) = none) := by
  rw [leftmostChild, hg.child_node h, hg.child_node h]
  split
  · rename_i hne
    exact ⟨false, rfl, by simp [← hg.node_eq_zero_iff, hne]⟩
  · rename_i hne
    exact ⟨true, rfl, by simpa [hg.node_eq_zero_iff] using hne⟩

theorem searchLeft_zero (hg : TreeBins m g) (fuel : Nat) :
    ∀ p, 33 < fuel + p.length → p.length ≤ 33 →
      searchLeft m nb fuel (g.node (i, p)) v 0#32 = .done (v, 0#32) := by
  induction fuel with
  | zero =>
    intro p hfuel hlen
    omega
  | succ fuel ih =>
    intro p hfuel hlen
    rw [searchLeft]
    cases hp : g (i, p) with
    | none => rw [if_pos (Forest.node_none hp)]
    | some c =>
      have hspells := ((hg.digital i).spells hp).length_le
      have hwidth := treeWidth_le (hg.index_lt hp)
      rw [Forest.node_some hp, if_neg (hg.node_ne hp)]
      obtain ⟨b, hb, -⟩ := hg.leftmostChild_eq hp
      simp only [BitVec.not_lt_zero, if_false, hb]
      exact ih (b :: p) (by rw [List.length_cons]; omega) (by rw [List.length_cons]; omega)

theorem visit (hg : TreeBins m g) (hnb : 0 < nb.toNat) {F : List Bool → Prop}
    (h : g (i, p) = some c) (hrsize : rsize.toNat + nb.toNat = best) (hv : Holds g i nb v best)
    (hr : DigitalTree.Remains sizeKey (fun q => g (i, q)) nb.toNat best
      fun q => Below p q ∨ F q) :
    ∃ v' rsize' best', (∀ {β : Type} (f : Addr → Word → β),
        (if m.chunksize c.node - nb < rsize then f c.node (m.chunksize c.node - nb)
          else f v rsize) = f v' rsize') ∧
      rsize'.toNat + nb.toNat = best' ∧ best' ≤ best ∧ Holds g i nb v' best' ∧
      DigitalTree.Remains sizeKey (fun q => g (i, q)) nb.toNat best'
        fun q => (Below (false :: p) q ∨ Below (true :: p) q) ∨ F q := by
  have hiff := trem_lt_iff (s := c.size) hnb hv.le hrsize
  rw [(hg.chain h).chunksize (node_mem c)]
  by_cases hlt : c.size - nb < rsize
  · obtain ⟨hle, hlt'⟩ := hiff.mp hlt
    refine ⟨_, _, c.size.toNat, fun f => if_pos hlt, ?_, hlt'.le, Or.inr ⟨p, c, h, rfl, rfl, hle⟩,
      hr.visit h hlt'.le fun _ => Nat.le_refl _⟩
    rw [BitVec.toNat_sub_of_le hle]
    omega
  · refine ⟨_, _, best, fun f => if_neg hlt, hrsize, Nat.le_refl _, hv,
      hr.visit h (Nat.le_refl _) fun hle => ?_⟩
    by_contra hlt'
    exact hlt (hiff.mpr ⟨hle, Nat.lt_of_not_le hlt'⟩)

/-- The smallest chunk of a subtree all of which is large enough. -/
theorem searchLeft_spec (hg : TreeBins m g) (hnb : 0 < nb.toNat) (fuel : Nat) :
    ∀ p v rsize best, 33 < fuel + p.length → p.length ≤ 33 →
      (∀ q d, Below p q → g (i, q) = some d → nb.toNat ≤ d.size.toNat) →
      rsize.toNat + nb.toNat = best → Holds g i nb v best →
      DigitalTree.Remains sizeKey (fun q => g (i, q)) nb.toNat best (Below p) →
      ∃ v' rsize' best', searchLeft m nb fuel (g.node (i, p)) v rsize = .done (v', rsize') ∧
        rsize'.toNat + nb.toNat = best' ∧ best' ≤ best ∧ Holds g i nb v' best' ∧
        DigitalTree.Remains sizeKey (fun q => g (i, q)) nb.toNat best' fun _ => False := by
  induction fuel with
  | zero =>
    intro p v rsize best hfuel hlen
    omega
  | succ fuel ih =>
    intro p v rsize best hfuel hlen hfits hrsize hv hr
    rw [searchLeft]
    cases hp : g (i, p) with
    | none =>
      rw [if_pos (Forest.node_none hp)]
      exact ⟨v, rsize, best, rfl, hrsize, Nat.le_refl _, hv,
        DigitalTree.Remains.drop (hg.digital i) hp (hr.mono fun q hq => Or.inl hq)⟩
    | some c =>
      have hspells := ((hg.digital i).spells hp).length_le
      have hwidth := treeWidth_le (hg.index_lt hp)
      obtain ⟨v', rsize', best', heq, hrsize', hle, hv', hr'⟩ :=
        hg.visit (F := fun _ => False) hnb hp hrsize hv (hr.mono fun q hq => Or.inl hq)
      obtain ⟨b, hb, hleft⟩ := hg.leftmostChild_eq hp
      rw [Forest.node_some hp, if_neg (hg.node_ne hp)]
      simp only [hb, heq (searchLeft m nb fuel (g.node (i, b :: p)))]
      have hfits' : ∀ b q d, Below (b :: p) q → g (i, q) = some d → nb.toNat ≤ d.size.toNat :=
        fun b q d hq => hfits q d (List.IsSuffix.trans (List.suffix_cons b p) hq)
      have hr'' : DigitalTree.Remains sizeKey (fun q => g (i, q)) nb.toNat best'
          (Below (b :: p)) := by
        cases b with
        | true =>
          refine DigitalTree.Remains.drop (hg.digital i) (hleft.mp rfl) (hr'.mono fun q hq => ?_)
          exact hq.resolve_right id
        | false =>
          obtain ⟨d, hd⟩ :=
            Option.ne_none_iff_exists'.mp fun hnone => by simpa using hleft.mpr hnone
          refine (DigitalTree.Remains.leftmost (hg.digital i) hd hfits hr').mono fun q hq => ?_
          exact hq.resolve_right id
      obtain ⟨v2, rsize2, best2, hrun, hrsize2, hle2, hv2, hr2⟩ := ih (b :: p) v' rsize' best'
        (by rw [List.length_cons]; omega) (by rw [List.length_cons]; omega) (hfits' b) hrsize' hv'
        hr''
      exact ⟨v2, rsize2, best2, hrun, hrsize2, hle2.trans hle, hv2, hr2⟩

/-! ## Along the bits of the size -/

/-- `rst` is the root of all that is left at `F`, to the right of the way to `p`. -/
def Untaken (g : Forest) (i : Word) (p : List Bool) (rst : Addr) (F : List Bool → Prop) : Prop :=
  rst = 0#32 ∧ (∀ q, ¬ F q) ∨
    ∃ s, rst = g.node (i, true :: s) ∧ Below (false :: s) p ∧ ∀ q, F q → Below (true :: s) q

theorem Untaken.exists_turn {rst : Addr} {F : List Bool → Prop} (h : Untaken g i p rst F)
    {q : List Bool} (hq : F q) : ∃ s, Below (false :: s) p ∧ Below (true :: s) q := by
  rcases h with ⟨-, hno⟩ | ⟨s, -, hs, hF⟩
  · exact absurd hq (hno q)
  · exact ⟨s, hs, hF q hq⟩

theorem turn (hg : TreeBins m g) (hlarge : 256 ≤ nb.toNat) (hi : computeTreeIndex nb = i)
    {b : Bool} {rst : Addr} {F : List Bool → Prop}
    (hspells : Spells (treeWidth i) (b :: p) nb.toNat) (hrst : Untaken g i p rst F)
    (hr : DigitalTree.Remains sizeKey (fun q => g (i, q)) nb.toNat best
      fun q => (Below (false :: p) q ∨ Below (true :: p) q) ∨ F q) :
    ∃ F', Untaken g i (b :: p)
        (if g.node (i, true :: p) ≠ 0#32 ∧ g.node (i, true :: p) ≠ g.node (i, b :: p)
          then g.node (i, true :: p) else rst) F' ∧
      DigitalTree.Remains sizeKey (fun q => g (i, q)) nb.toNat best
        fun q => Below (b :: p) q ∨ F' q := by
  have hdiv : nb.toNat / 2 ^ treeWidth i = treeUpper i := hi ▸ size_div_treeWidth hlarge
  have hkeep : Untaken g i (b :: p) rst F := by
    rcases hrst with h | ⟨s, hs, hp, hF⟩
    · exact Or.inl h
    · exact Or.inr ⟨s, hs, List.IsSuffix.trans hp (List.suffix_cons b p), hF⟩
  cases b with
  | true =>
    rw [if_neg (by simp)]
    exact ⟨F, hkeep, hr.right (hg.digital i) hspells hdiv⟩
  | false =>
    cases ht : g (i, true :: p) with
    | none =>
      rw [if_neg (by simp [Forest.node_none ht])]
      refine ⟨F, hkeep, DigitalTree.Remains.drop (hg.digital i) ht (hr.mono fun q hq => ?_)⟩
      tauto
    | some d =>
      have hne := hg.node_ne_iff.mpr ⟨d, ht⟩
      rw [if_pos ⟨hne, hg.linked.ne_of_ne hne (by simp)⟩]
      exact ⟨Below (true :: p), Or.inr ⟨p, rfl, List.suffix_refl _, fun _ => id⟩,
        hr.left (hg.digital i) hspells hdiv ht fun q hq => hrst.exists_turn hq⟩

theorem searchPath_spec (hg : TreeBins m g) (hlarge : 256 ≤ nb.toNat)
    (hi : computeTreeIndex nb = i) (fuel : Nat) :
    ∀ p c v rsize rst best F, g (i, p) = some c → 32 < fuel + p.length →
      Spells (treeWidth i) p nb.toNat → Untaken g i p rst F →
      rsize.toNat + nb.toNat = best → nb.toNat < best → Holds g i nb v best →
      DigitalTree.Remains sizeKey (fun q => g (i, q)) nb.toNat best (fun q => Below p q ∨ F q) →
      ∃ r v' rsize' best', searchPath m nb fuel c.node v rsize rst
          (nb <<< (32 - treeWidth i + p.length)) = .done (g.node (i, r), v', rsize') ∧
        r.length ≤ 33 ∧ rsize'.toNat + nb.toNat = best' ∧ Holds g i nb v' best' ∧
        (rsize' = 0#32 ∨
          (∀ q d, Below r q → g (i, q) = some d → nb.toNat ≤ d.size.toNat) ∧
          DigitalTree.Remains sizeKey (fun q => g (i, q)) nb.toNat best' (Below r)) := by
  have hwidth : treeWidth i ≤ 32 := hi ▸ treeWidth_le (computeTreeIndex_lt nb)
  induction fuel with
  | zero =>
    intro p c v rsize rst best F h hfuel hspells
    have := hspells.length_le
    omega
  | succ fuel ih =>
    intro p c v rsize rst best F h hfuel hspells hrst hrsize hlt hv hr
    obtain ⟨v', rsize', best', heq, hrsize', hle, hv', hr'⟩ :=
      hg.visit (by omega) h hrsize hv hr
    have hchunk := (hg.chain h).chunksize (node_mem c)
    rw [searchPath]
    by_cases hexact : m.chunksize c.node - nb < rsize ∧ m.chunksize c.node - nb = 0#32
    · have hpair := heq Prod.mk
      rw [if_pos hexact.1] at hpair
      obtain ⟨rfl, rfl⟩ := Prod.mk.inj hpair
      rw [if_pos hexact]
      refine ⟨p, c.node, _, best', ?_, ?_, hrsize', hv', Or.inl hexact.2⟩
      · rw [Forest.node_some h]
      · have := hspells.length_le
        omega
    · have hne : rsize ≠ 0#32 := by
        rintro rfl
        simp at hrsize
        omega
      have hne' : rsize' ≠ 0#32 := by
        have hpair := heq Prod.mk
        rintro rfl
        split at hpair
        · rename_i htrem
          exact hexact ⟨htrem, (Prod.mk.inj hpair).2⟩
        · exact hne (Prod.mk.inj hpair).2
      have hsize : c.size.toNat ≠ nb.toNat := by
        intro heq
        rw [hchunk, BitVec.eq_of_toNat_eq heq, BitVec.sub_self] at hexact
        exact hexact ⟨(BitVec.pos_iff_ne_zero rsize).mpr hne, rfl⟩
      have hlen := hg.length_lt h hlarge hi hspells hsize
      have hnext := hspells.next hlen
      simp only [if_neg hexact, heq Prod.mk, sign_bit (hi ▸ computeTreeIndex_lt nb) hlen,
        hg.child_node h]
      generalize nb.toNat.testBit (treeWidth i - (p.length + 1)) = b at hnext ⊢
      obtain ⟨F', hrst', hr2⟩ := hg.turn hlarge hi hnext hrst hr'
      cases hb : g (i, b :: p) with
      | none =>
        rw [if_pos (Forest.node_none hb)]
        have hr3 := DigitalTree.Remains.drop (hg.digital i) hb hr2
        rcases hrst' with ⟨h0, hno⟩ | ⟨s, hs, hp, hF⟩
        · rw [h0]
          refine ⟨b :: p, v', rsize', best', by rw [Forest.node_none hb], ?_, hrsize', hv',
            Or.inr ⟨fun q d hq hd => ?_, hr3.mono fun q hq => absurd hq (hno q)⟩⟩
          · rw [List.length_cons]
            omega
          · rw [(hg.digital i).below_none hb hq] at hd
            simp at hd
        · refine ⟨true :: s, v', rsize', best', by rw [hs], ?_, hrsize', hv',
            Or.inr ⟨fun q d hq hd => ?_, hr3.mono hF⟩⟩
          · have := hp.length_le
            simp only [List.length_cons] at this ⊢
            omega
          · refine ((hnext.of_suffix hp).lt ((hg.digital i).spells_of_below hq hd) ?_).le
            rw [(hg.digital i).div_eq hd, ← hi, size_div_treeWidth hlarge]
      | some d =>
        rw [if_neg (hg.node_ne_iff.mpr ⟨d, hb⟩), Forest.node_some hb, ← BitVec.shiftLeft_add,
          Nat.add_assoc]
        refine ih (b :: p) d v' rsize' _ best' F' hb (by rw [List.length_cons]; omega) hnext ?_
          hrsize' ?_ hv' hr2
        · rwa [Forest.node_some hb] at hrst'
        · have : rsize'.toNat ≠ 0 := fun h => hne' (BitVec.eq_of_toNat_eq h)
          omega

theorem root_eq (hg : TreeBins m g) (hi : i.toNat < 32) : m.treebins i = g.node (i, []) :=
  hg.linked.root hi

theorem searchFirst_spec (hg : TreeBins m g) (hlarge : 256 ≤ nb.toNat)
    (hi : computeTreeIndex nb = i) (hfuel : 32 < fuel) :
    ∃ r v rsize best, searchFirst fuel m nb i = .done (g.node (i, r), v, rsize) ∧
      r.length ≤ 33 ∧ rsize.toNat + nb.toNat = best ∧ Holds g i nb v best ∧
      (rsize = 0#32 ∨
        (∀ q d, Below r q → g (i, q) = some d → nb.toNat ≤ d.size.toNat) ∧
        DigitalTree.Remains sizeKey (fun q => g (i, q)) nb.toNat best (Below r)) := by
  have hi' : i.toNat < 32 := hi ▸ computeTreeIndex_lt nb
  have hneg : (-nb).toNat + nb.toNat = 2 ^ 32 := by
    have := nb.isLt
    rw [BitVec.toNat_neg]
    omega
  rw [searchFirst, hg.root_eq hi']
  cases hroot : g (i, []) with
  | none =>
    rw [if_neg (by simp [Forest.node_none hroot])]
    refine ⟨[], 0#32, -nb, 2 ^ 32, by rw [Forest.node_none hroot], by simp, hneg, Or.inl ⟨rfl, rfl⟩,
      Or.inr ⟨fun q d hq hd => ?_, .all⟩⟩
    rw [(hg.digital i).below_none hroot hq] at hd
    simp at hd
  | some c =>
    rw [if_pos (hg.node_ne_iff.mpr ⟨c, hroot⟩), Forest.node_some hroot]
    have hspec := hg.searchPath_spec hlarge hi fuel [] c 0#32 (-nb) 0#32 (2 ^ 32) (fun _ => False)
      hroot (by simpa using hfuel) trivial (Or.inl ⟨rfl, fun _ => id⟩) hneg nb.isLt
      (Or.inl ⟨rfl, rfl⟩) (DigitalTree.Remains.mono .all fun q hq => Or.inl hq)
    rw [List.length_nil, Nat.add_zero, ← leftshiftForTreeIndex_toNat hi',
      ← BitVec.shiftLeft_eq'] at hspec
    exact hspec

end TreeBins

/-- `v` is a least chunk of those in the trees that are large enough, and `rsize` is what it
has more. -/
def BestFit (g : Forest) (nb : Word) (v : Addr) (rsize : Word) : Prop :=
  ∃ s, g.Has v s ∧ nb.toNat ≤ s.toNat ∧ rsize = s - nb ∧
    ∀ a s', g.Has a s' → nb.toNat ≤ s'.toNat → s.toNat ≤ s'.toNat

/-- No chunk in the trees is large enough. -/
def NoFit (g : Forest) (nb : Word) : Prop := ∀ a s, g.Has a s → s.toNat < nb.toNat

namespace TreeBins

theorem bestFit_or_noFit (hg : TreeBins m g) (hrsize : rsize.toNat + nb.toNat = best)
    (hv : Holds g i nb v best)
    (hr : DigitalTree.Remains sizeKey (fun q => g (i, q)) nb.toNat best fun _ => False)
    (hsmaller : ∀ j p c, g (j, p) = some c → j.toNat < i.toNat → c.size.toNat < nb.toNat)
    (hlarger : v = 0#32 → ∀ j p c, g (j, p) = some c → i.toNat < j.toNat →
      c.size.toNat < nb.toNat) :
    v = 0#32 ∧ NoFit g nb ∨ v ≠ 0#32 ∧ BestFit g nb v rsize := by
  rcases hv with ⟨rfl, rfl⟩ | ⟨p, c, hc, rfl, rfl, hle⟩
  · left
    refine ⟨rfl, ?_⟩
    rintro a s ⟨⟨j, q⟩, d, hd, -, rfl⟩
    rcases Nat.lt_trichotomy j.toNat i.toNat with hj | hj | hj
    · exact hsmaller j q d hd hj
    · obtain rfl := BitVec.eq_of_toNat_eq hj
      by_contra hlt
      rcases hr q d hd (Nat.le_of_not_lt hlt) with h | ⟨_, _, h, -⟩
      · exact absurd h (Nat.not_le_of_lt d.size.isLt)
      · exact h
    · exact hlarger rfl j q d hd hj
  · right
    refine ⟨hg.node_ne hc, c.size, has_node hc, hle, BitVec.eq_of_toNat_eq ?_, ?_⟩
    · rw [BitVec.toNat_sub_of_le hle]
      omega
    · rintro a s ⟨⟨j, q⟩, d, hd, -, rfl⟩ hfit
      rcases Nat.lt_trichotomy j.toNat i.toNat with hj | hj | hj
      · exact absurd (hsmaller j q d hd hj) (Nat.not_lt_of_le hfit)
      · obtain rfl := BitVec.eq_of_toNat_eq hj
        exact (hr q d hd hfit).resolve_right fun ⟨_, _, h, _⟩ => h
      · have hcc := hg.chain hc
        have hcd := hg.chain hd
        exact (lt_of_computeTreeIndex_lt hcc.large hcd.large
          (by rw [hcc.index_eq, hcd.index_eq]; exact hj)).le

theorem treemap_iff (hg : TreeBins m g) (hi : i.toNat < 32) :
    m.treemap.getLsbD i.toNat = true ↔ g (i, []) ≠ none := by
  rw [← marked_iff hi, ne_eq (g (i, [])), ← hg.node_eq_zero_iff]
  exact hg.linked.marked hi

theorem leftbits_iff (hg : TreeBins m g) {j : Word} (hi : i.toNat < 32) (hj : j.toNat < 32) :
    (leftBits (idx2bit i) &&& m.treemap).getLsbD j.toNat = true ↔
      i.toNat < j.toNat ∧ g (j, []) ≠ none := by
  rw [BitVec.getLsbD_and, getLsbD_leftBits hi, ← hg.treemap_iff hj]
  simp [hj]

theorem root_ne_none (hg : TreeBins m g) (h : g (i, p) = some c) : g (i, []) ≠ none :=
  fun hnone => by
    rw [(hg.digital i).below_none hnone List.nil_suffix] at h
    simp at h

theorem fits_of_lt (hg : TreeBins m g) (hlarge : 256 ≤ nb.toNat) {j : Word}
    (hj : (computeTreeIndex nb).toNat < j.toNat) (h : g (j, p) = some c) :
    nb.toNat < c.size.toNat := by
  have hc := hg.chain h
  exact lt_of_computeTreeIndex_lt hlarge hc.large (by rw [hc.index_eq]; exact hj)

theorem lt_of_lt (hg : TreeBins m g) (hlarge : 256 ≤ nb.toNat) {j : Word}
    (hj : j.toNat < (computeTreeIndex nb).toNat) (h : g (j, p) = some c) :
    c.size.toNat < nb.toNat := by
  have hc := hg.chain h
  exact lt_of_computeTreeIndex_lt hc.large hlarge (by rw [hc.index_eq]; exact hj)

theorem searchTree_spec (hg : TreeBins m g) (hnb : 0 < nb.toNat) (hfuel : 33 < fuel)
    (hroot : g (i, []) ≠ none)
    (hfits : ∀ p c, g (i, p) = some c → nb.toNat ≤ c.size.toNat)
    (hsmaller : ∀ j p c, g (j, p) = some c → j.toNat < i.toNat → c.size.toNat < nb.toNat) :
    ∃ v rsize, searchLeft m nb fuel (g.node (i, [])) 0#32 (-nb) = .done (v, rsize) ∧
      v ≠ 0#32 ∧ BestFit g nb v rsize := by
  have hneg : (-nb).toNat + nb.toNat = 2 ^ 32 := by
    have := nb.isLt
    rw [BitVec.toNat_neg]
    omega
  obtain ⟨v, rsize, best, hrun, hrsize, -, hv, hr⟩ := hg.searchLeft_spec (i := i) hnb fuel [] 0#32
    (-nb) (2 ^ 32) (by simpa using hfuel) (by simp) (fun q d _ => hfits q d) hneg
    (Or.inl ⟨rfl, rfl⟩) .all
  obtain ⟨c, hc⟩ := Option.ne_none_iff_exists'.mp hroot
  have hne : v ≠ 0#32 := by
    rcases hv with ⟨-, rfl⟩ | ⟨p, d, hd, rfl, -⟩
    · rcases hr [] c hc (hfits [] c hc) with h | ⟨_, _, h, -⟩
      · exact absurd h (Nat.not_le_of_lt c.size.isLt)
      · exact absurd h id
    · exact hg.node_ne hd
  refine ⟨v, rsize, hrun, ?_⟩
  exact (hg.bestFit_or_noFit hrsize hv hr hsmaller fun h => absurd h hne).resolve_left
    fun h => hne h.1

theorem best_eq (hg : TreeBins m g) (hv : Holds g i nb 0#32 best) : best = 2 ^ 32 := by
  rcases hv with ⟨-, h⟩ | ⟨p, c, hc, h0, -⟩
  · exact h
  · exact absurd h0 (hg.node_ne hc)

theorem bestLarge_spec (hg : TreeBins m g) (hlarge : 256 ≤ nb.toNat) (hfuel : 33 < fuel) :
    ∃ v rsize, bestLarge fuel m nb = .done (v, rsize) ∧
      (v = 0#32 ∧ NoFit g nb ∨ v ≠ 0#32 ∧ BestFit g nb v rsize) := by
  have hi := computeTreeIndex_lt nb
  obtain ⟨r, v, rsize, best, hfirst, hlen, hrsize, hv, hr⟩ :=
    hg.searchFirst_spec hlarge rfl (by omega : 32 < fuel)
  have hsmaller : ∀ j p c, g (j, p) = some c → j.toNat < (computeTreeIndex nb).toNat →
      c.size.toNat < nb.toNat := fun j p c h hj => hg.lt_of_lt hlarge hj h
  rw [bestLarge]
  simp only [hfirst, Outcome.done_bind]
  by_cases hnone : g.node (computeTreeIndex nb, r) = 0#32 ∧ v = 0#32
  · obtain ⟨hr0, rfl⟩ := hnone
    obtain rfl := hg.best_eq hv
    have hno : DigitalTree.Remains sizeKey (fun q => g (computeTreeIndex nb, q)) nb.toNat (2 ^ 32)
        fun _ => False := by
      rcases hr with rfl | ⟨-, hr⟩
      · exact absurd hrsize (by simp; omega)
      · exact DigitalTree.Remains.drop (hg.digital _) (hg.node_eq_zero_iff.mp hr0)
          (hr.mono fun q hq => Or.inl hq)
    generalize hx : leftBits (idx2bit (computeTreeIndex nb)) &&& m.treemap = x
    have hbit : ∀ j : Word, j.toNat < 32 → (x.getLsbD j.toNat = true ↔
        (computeTreeIndex nb).toNat < j.toNat ∧ g (j, []) ≠ none) := by
      intro j hj
      rw [← hx, hg.leftbits_iff hi hj]
    by_cases hx0 : x = 0#32
    · rw [if_neg fun h => h.2.2 hx0, hr0]
      obtain ⟨fuel, rfl⟩ := Nat.exists_eq_add_of_lt hfuel
      refine ⟨0#32, rsize, rfl, hg.bestFit_or_noFit hrsize hv hno hsmaller fun _ j p c hc hj => ?_⟩
      have hj' := (hbit j (hg.index_lt hc)).mpr ⟨hj, hg.root_ne_none hc⟩
      simp [hx0] at hj'
    · obtain ⟨hj, hjx, hmin⟩ := computeBit2idx_leastBit hx0
      rw [if_pos ⟨hr0, rfl, hx0⟩, hg.root_eq hj]
      generalize computeBit2idx (leastBit x) = j at hj hjx hmin ⊢
      obtain ⟨hij, hroot⟩ := (hbit j hj).mp hjx
      obtain rfl : rsize = -nb := by
        apply BitVec.eq_of_toNat_eq
        rw [BitVec.toNat_neg]
        omega
      have hsmaller' : ∀ k p c, g (k, p) = some c → k.toNat < j.toNat →
          c.size.toNat < nb.toNat := by
        intro k p c hc hk
        -- the tree of the size itself, and those that the map skips
        rcases Nat.lt_trichotomy k.toNat (computeTreeIndex nb).toNat with hki | hki | hki
        · exact hsmaller k p c hc hki
        · obtain rfl := BitVec.eq_of_toNat_eq hki
          by_contra hlt
          rcases hno p c hc (Nat.le_of_not_lt hlt) with h | ⟨_, _, h, -⟩
          · exact absurd h (Nat.not_le_of_lt c.size.isLt)
          · exact h
        · have hbit' := (hbit k (hg.index_lt hc)).mpr ⟨hki, hg.root_ne_none hc⟩
          simp [hmin k.toNat hk] at hbit'
      obtain ⟨v, rsize, hrun, hne, hbest⟩ := hg.searchTree_spec (by omega) hfuel hroot
        (fun p c hc => (hg.fits_of_lt hlarge hij hc).le) hsmaller'
      exact ⟨v, rsize, hrun, Or.inr ⟨hne, hbest⟩⟩
  · rw [if_neg fun h => hnone ⟨h.1, h.2.1⟩]
    rcases hr with rfl | ⟨hfits, hr⟩
    · rw [hg.searchLeft_zero fuel r (by omega) hlen]
      refine ⟨v, 0#32, rfl, hg.bestFit_or_noFit hrsize hv ?_ hsmaller ?_⟩
      · exact .of_le (by simp at hrsize; omega)
      · rintro rfl
        exact absurd (hrsize.trans (hg.best_eq hv)) (by simp; omega)
    · obtain ⟨v', rsize', best', hrun, hrsize', hle, hv', hr'⟩ :=
        hg.searchLeft_spec (by omega) fuel r v rsize best (by omega) hlen hfits hrsize hv hr
      refine ⟨v', rsize', hrun, hg.bestFit_or_noFit hrsize' hv' hr' hsmaller ?_⟩
      rintro rfl
      exfalso
      obtain rfl := hg.best_eq hv'
      by_cases hv0 : v = 0#32
      · obtain ⟨c, hc⟩ := hg.node_ne_iff.mp fun h => hnone ⟨h, hv0⟩
        rcases hr' r c hc (hfits r c (List.suffix_refl _) hc) with h | ⟨_, _, h, -⟩
        · exact absurd h (Nat.not_le_of_lt c.size.isLt)
        · exact h
      · rcases hv with ⟨h0, -⟩ | ⟨p, c, -, -, rfl, -⟩
        · exact hv0 h0
        · exact absurd hle (Nat.not_le_of_lt c.size.isLt)

theorem bestSmall_spec (hg : TreeBins m g) (hsmall : nb.toNat < 256) (hnb : 0 < nb.toNat)
    (hmap : m.treemap ≠ 0#32) (hfuel : 32 < fuel) :
    ∃ v rsize, bestSmall fuel m nb = .done (v, rsize) ∧ v ≠ 0#32 ∧ BestFit g nb v rsize := by
  obtain ⟨hi, hbit, hmin⟩ := computeBit2idx_leastBit hmap
  rw [bestSmall]
  generalize computeBit2idx (leastBit m.treemap) = i at hi hbit hmin ⊢
  have hroot := (hg.treemap_iff hi).mp hbit
  obtain ⟨c, hc⟩ := Option.ne_none_iff_exists'.mp hroot
  have hfits : ∀ j p c, g (j, p) = some c → nb.toNat < c.size.toNat := fun j p c h =>
    hsmall.trans_le (hg.chain h).large
  have hsmaller : ∀ k p c, g (k, p) = some c → k.toNat < i.toNat → c.size.toNat < nb.toNat := by
    intro k p c hc hk
    have hk' := (hg.treemap_iff (hg.index_lt hc)).mpr (hg.root_ne_none hc)
    simp [hmin k.toNat hk] at hk'
  obtain ⟨v, rsize, hrun, hbest⟩ := hg.searchTree_spec hnb (by omega : 33 < fuel + 1) hroot
    (fun p c hc => (hfits i p c hc).le) hsmaller
  refine ⟨v, rsize, ?_, hbest⟩
  have hsize := (hg.chain hc).chunksize (node_mem c)
  have hlt : c.size - nb < -nb := by
    have hle := (hfits i [] c hc).le
    have := c.size.isLt
    rw [BitVec.lt_def, BitVec.toNat_sub_of_le hle, BitVec.toNat_neg]
    omega
  rw [Forest.node_some hc, searchLeft, if_neg (hg.node_ne hc)] at hrun
  simp only [hsize, if_pos hlt] at hrun
  simp only [hg.root_eq hi, Forest.node_some hc, hsize]
  exact hrun

end TreeBins

end LibSystem.Core
