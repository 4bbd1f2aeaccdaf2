import LibSystem.Core.TreeBins

/-!
# Small bins

`insert_small_chunk` and `unlink_small_chunk` keep the small bins of
`dlmalloc.c`. The chunks of a bin and its header are a ring, as long as there
are any: the links of a header that is not marked are stale.
-/

namespace LibSystem.Core

open Function MallocState

/-- The small bins hold the chunks of `l`. -/
structure SmallBins (m : MallocState) (l : Word → List Addr) : Prop where
  marked {i : Word} : i.toNat < 32 → (m.SmallmapIsMarked i ↔ l i ≠ [])
  ring {i : Word} : l i ≠ [] → LinkedRing m.fd m.bk (m.smallbinAt i :: l i)
  nodup (i : Word) : (l i).Nodup
  index {i : Word} {a : Addr} : a ∈ l i → smallIndex (m.chunksize a) = i
  small {i : Word} {a : Addr} : a ∈ l i → i.toNat < 32
  ok {i : Word} {a : Addr} : a ∈ l i → m.OkAddress a
  not_header {i j : Word} {a : Addr} : a ∈ l i → j.toNat < 32 → a ≠ m.smallbinAt j

theorem MallocState.assert_of (m : MallocState) {c : Prop} [Decidable c] (h : c) :
    m.assert c = m := if_pos h

theorem smallbinAt_inj {m : MallocState} {i j : Word} (hi : i.toNat < 32) (hj : j.toNat < 32)
    (h : m.smallbinAt i = m.smallbinAt j) : i = j := by
  unfold smallbinAt at h
  bv_omega

theorem chunksize_eq (m : MallocState) (p : Addr) :
    m.chunksize p = smallIndex (m.chunksize p) <<< 3 := by
  have hseven : ∀ j < 32, (7#32).getLsbD j = decide (j < 3) := by decide
  rw [MallocState.chunksize, smallIndex]
  refine BitVec.eq_of_getLsbD_eq fun j hj => ?_
  rw [BitVec.getLsbD_shiftLeft, BitVec.getLsbD_ushiftRight, BitVec.getLsbD_and,
    BitVec.getLsbD_not, hseven j hj]
  by_cases h3 : j < 3
  · simp [h3]
  · rw [show 3 + (j - 3) = j by omega, BitVec.getLsbD_and, BitVec.getLsbD_not, hseven j hj]
    simp [h3, hj]

namespace SmallBins

variable {m m' : MallocState} {l : Word → List Addr} {i j : Word} {a P : Addr} {S : Word}

theorem congr (hs : SmallBins m l) (hsmallmap : m'.smallmap = m.smallmap)
    (hsmallbins : m'.smallbins = m.smallbins) (hleast : m'.leastAddr = m.leastAddr)
    (hsize : ∀ i, ∀ a ∈ l i, m'.chunksize a = m.chunksize a)
    (hlinks : ∀ i a, i.toNat < 32 → a ∈ m.smallbinAt i :: l i →
      m'.fd a = m.fd a ∧ m'.bk a = m.bk a) : SmallBins m' l where
  marked hi := by
    rw [SmallmapIsMarked, hsmallmap]
    exact hs.marked hi
  ring {i} hne := by
    obtain ⟨b, hb⟩ := List.exists_mem_of_ne_nil _ hne
    rw [smallbinAt, hsmallbins]
    exact (hs.ring hne).congr (fun a ha => (hlinks i a (hs.small hb) ha).1)
      fun a ha => (hlinks i a (hs.small hb) ha).2
  nodup := hs.nodup
  index ha := by
    rw [hsize _ _ ha]
    exact hs.index ha
  small := hs.small
  ok ha := by
    rw [OkAddress, hleast]
    exact hs.ok ha
  not_header ha hj := by
    rw [smallbinAt, hsmallbins]
    exact hs.not_header ha hj

theorem congr_of_touches {A : Addr → Prop} (hs : SmallBins m l) (h : Touches A m m')
    (hsmallmap : m'.smallmap = m.smallmap) (hA : ∀ i a, a ∈ l i → ¬ A a)
    (hheader : ∀ i, i.toNat < 32 → ¬ A (m.smallbinAt i)) : SmallBins m' l := by
  refine hs.congr hsmallmap h.smallbins h.leastAddr
    (fun _ _ _ => by rw [MallocState.chunksize, h.head, MallocState.chunksize])
    fun i a hi ha => ?_
  have hnot : ¬ A a := by
    rcases List.mem_cons.mp ha with rfl | ha
    · exact hheader i hi
    · exact hA i a ha
  exact ⟨h.fd hnot, h.bk hnot⟩

theorem ring_nodup (hs : SmallBins m l) (hi : i.toNat < 32) :
    (m.smallbinAt i :: l i).Nodup :=
  List.nodup_cons.mpr ⟨fun h => hs.not_header h hi rfl, hs.nodup i⟩

theorem index_unique (hs : SmallBins m l) (hi : a ∈ l i) (hj : a ∈ l j) : i = j :=
  (hs.index hi).symm.trans (hs.index hj)

theorem ring_apart (hs : SmallBins m l) (hij : i ≠ j) (hi : i.toNat < 32) (hj : j.toNat < 32)
    (ha : a ∈ m.smallbinAt i :: l i) : a ∉ m.smallbinAt j :: l j := by
  intro hb
  rcases List.mem_cons.mp ha with rfl | ha
  · rcases List.mem_cons.mp hb with heq | hb
    · exact hij (smallbinAt_inj hi hj heq)
    · exact hs.not_header hb hi rfl
  · rcases List.mem_cons.mp hb with rfl | hb
    · exact hs.not_header ha hj rfl
    · exact hij (hs.index_unique ha hb)

/-- One bin changes, and the links of the others do not. -/
theorem set {as : List Addr} (hs : SmallBins m l) (hi : i.toNat < 32)
    (hmarked : ∀ j, j.toNat < 32 → (m'.SmallmapIsMarked j ↔ update l i as j ≠ []))
    (hring : as ≠ [] → LinkedRing m'.fd m'.bk (m.smallbinAt i :: as)) (hnodup : as.Nodup)
    (hmem : ∀ a ∈ as, smallIndex (m.chunksize a) = i ∧ m.OkAddress a ∧
      ∀ j, j.toNat < 32 → a ≠ m.smallbinAt j)
    (hsmallbins : m'.smallbins = m.smallbins) (hhead : m'.head = m.head)
    (hleast : m'.leastAddr = m.leastAddr)
    (hlinks : ∀ j a, j ≠ i → j.toNat < 32 → a ∈ m.smallbinAt j :: l j →
      m'.fd a = m.fd a ∧ m'.bk a = m.bk a) : SmallBins m' (update l i as) where
  marked hj := hmarked _ hj
  ring {j} hne := by
    rw [smallbinAt, hsmallbins]
    by_cases hj : j = i
    · subst hj
      rw [update_self] at hne ⊢
      exact hring hne
    · rw [update_of_ne hj] at hne ⊢
      obtain ⟨b, hb⟩ := List.exists_mem_of_ne_nil _ hne
      have hlinks := fun a => hlinks j a hj (hs.small hb)
      exact (hs.ring hne).congr (fun a ha => (hlinks a ha).1) fun a ha => (hlinks a ha).2
  nodup j := by
    by_cases hj : j = i
    · rw [hj, update_self]
      exact hnodup
    · rw [update_of_ne hj]
      exact hs.nodup j
  index {j a} ha := by
    rw [MallocState.chunksize, hhead]
    by_cases hj : j = i
    · rw [hj, update_self] at ha
      rw [hj]
      exact (hmem a ha).1
    · rw [update_of_ne hj] at ha
      exact hs.index ha
  small {j a} ha := by
    by_cases hj : j = i
    · rw [hj]
      exact hi
    · rw [update_of_ne hj] at ha
      exact hs.small ha
  ok {j a} ha := by
    rw [OkAddress, hleast]
    by_cases hj : j = i
    · rw [hj, update_self] at ha
      exact (hmem a ha).2.1
    · rw [update_of_ne hj] at ha
      exact hs.ok ha
  not_header {j k a} ha hk := by
    rw [smallbinAt, hsmallbins]
    by_cases hj : j = i
    · rw [hj, update_self] at ha
      exact (hmem a ha).2.2 k hk
    · rw [update_of_ne hj] at ha
      exact hs.not_header ha hk

/-! ## A chunk comes -/

theorem fd_header (hs : SmallBins m l) (hne : l i ≠ []) : m.fd (m.smallbinAt i) ∈ l i := by
  rw [((hs.ring hne).cons_spec hne).1]
  exact List.head_mem hne

/-- The chunk `P` is in no small bin. -/
structure Loose (m : MallocState) (l : Word → List Addr) (P : Addr) (S : Word) : Prop where
  small : IsSmall S
  least : 16#32 ≤ S
  chunksize : m.chunksize P = S
  ok : m.OkAddress P
  not_mem (i : Word) : P ∉ l i
  not_header {i : Word} : i.toNat < 32 → P ≠ m.smallbinAt i

theorem insertSmallChunk_spec (hs : SmallBins m l) (hP : Loose m l P S) :
    ∃ m', insertSmallChunk m P S = m' ∧
      SmallBins m' (update l (smallIndex S) (P :: l (smallIndex S))) ∧
      Touches (fun a => a = P ∨ a ∈ m.smallbinAt (smallIndex S) :: l (smallIndex S)) m m' ∧
      m'.treemap = m.treemap ∧ m'.treebins = m.treebins := by
  have hi : (smallIndex S).toNat < 32 := hP.small
  have hmem : ∀ a ∈ P :: l (smallIndex S), smallIndex (m.chunksize a) = smallIndex S ∧
      m.OkAddress a ∧ ∀ j, j.toNat < 32 → a ≠ m.smallbinAt j := by
    intro a ha
    rcases List.mem_cons.mp ha with rfl | ha
    · exact ⟨by rw [hP.chunksize], hP.ok, fun j => hP.not_header⟩
    · exact ⟨hs.index ha, hs.ok ha, fun j => hs.not_header ha⟩
  have hnodup := List.nodup_cons.mpr ⟨hP.not_mem (smallIndex S), hs.nodup (smallIndex S)⟩
  have hPB : P ≠ m.smallbinAt (smallIndex S) := hP.not_header hi
  have hlinks : ∀ {F m1}, F ∈ m.smallbinAt (smallIndex S) :: l (smallIndex S) → m1.fd = m.fd →
      m1.bk = m.bk → ∀ j a, j ≠ smallIndex S → j.toNat < 32 → a ∈ m.smallbinAt j :: l j →
      (linkBetween m1 P (m.smallbinAt (smallIndex S)) F).fd a = m.fd a ∧
        (linkBetween m1 P (m.smallbinAt (smallIndex S)) F).bk a = m.bk a := by
    intro F m1 hF hfd hbk j a hj hj32 ha
    have haP : a ≠ P := by
      rintro rfl
      rcases List.mem_cons.mp ha with rfl | ha
      · exact hP.not_header hj32 rfl
      · exact hP.not_mem j ha
    have hapart := hs.ring_apart hj hj32 hi ha
    have haB : a ≠ m.smallbinAt (smallIndex S) := fun h => hapart (h ▸ List.mem_cons_self)
    have haF : a ≠ F := fun h => hapart (h ▸ hF)
    simp only [linkBetween, hfd, hbk, update_of_ne haP, update_of_ne haB, update_of_ne haF,
      and_self]
  have htouches : ∀ {F m1}, F ∈ m.smallbinAt (smallIndex S) :: l (smallIndex S) →
      Touches (fun _ => False) m m1 →
      Touches (fun a => a = P ∨ a ∈ m.smallbinAt (smallIndex S) :: l (smallIndex S)) m
        (linkBetween m1 P (m.smallbinAt (smallIndex S)) F) := by
    intro F m1 hF h
    exact
    { rest := h.rest
      fd := fun {a} ha => by
        have := h.fd (a := a) id
        simp only [linkBetween]
        grind [update_apply]
      bk := fun {a} ha => by
        have := h.bk (a := a) id
        simp only [linkBetween]
        grind [update_apply]
      child := fun _ => h.child id
      parent := fun _ => h.parent id
      index := fun _ => h.index id }
  rw [insertSmallChunk, m.assert_of hP.least]
  by_cases hmarked : m.SmallmapIsMarked (smallIndex S)
  · have hne := (hs.marked hi).mp hmarked
    have hfd := hs.fd_header hne
    rw [if_neg (not_not.mpr hmarked), if_pos (hs.ok hfd)]
    refine ⟨_, rfl, hs.set hi ?_ ?_ hnodup hmem rfl rfl rfl
      (hlinks (List.mem_cons_of_mem _ hfd) rfl rfl), htouches (List.mem_cons_of_mem _ hfd)
      ⟨rfl, fun _ => rfl, fun _ => rfl, fun _ => rfl, fun _ => rfl,
        fun _ => rfl⟩, rfl, rfl⟩
    · intro j hj
      by_cases hji : j = smallIndex S
      · rw [hji, update_self]
        exact ⟨fun _ => List.cons_ne_nil _ _, fun _ => hmarked⟩
      · rw [update_of_ne hji]
        exact hs.marked hj
    · intro _
      refine (hs.ring hne).push_after (hs.ring_nodup hi) ?_
      simpa [hPB] using hP.not_mem (smallIndex S)
  · have hnil : l (smallIndex S) = [] := by
      by_contra hne
      exact hmarked ((hs.marked hi).mpr hne)
    rw [if_pos hmarked]
    refine ⟨_, rfl, hs.set hi ?_ ?_ hnodup hmem rfl rfl rfl
      (hlinks List.mem_cons_self rfl rfl), htouches List.mem_cons_self
      ⟨rfl, fun _ => rfl, fun _ => rfl, fun _ => rfl, fun _ => rfl,
        fun _ => rfl⟩, rfl, rfl⟩
    · intro j hj
      have hmark := marked_mark_iff (x := m.smallmap) (i := smallIndex S) hj
      have hold := hs.marked hj
      rw [SmallmapIsMarked] at hold ⊢
      refine hmark.trans ?_
      rw [hold]
      by_cases hji : j = smallIndex S
      · rw [hji, update_self]
        simp
      · rw [update_of_ne hji]
        simp [hji]
    · intro _
      rw [hnil, LinkedRing.iff_isChain (by simp)]
      simp [linkBetween, Adjacent, hPB.symm]

/-! ## A chunk goes -/

theorem apart_spec (hs : SmallBins m l) (hP : P ∈ l i) :
    P ≠ m.bk P ∧ P ≠ m.fd P ∧ m.chunksize P = i <<< 3 := by
  have hring := hs.ring (List.ne_nil_of_mem hP)
  have hPr : P ∈ m.smallbinAt i :: l i := List.mem_cons_of_mem _ hP
  have hnotAlone : m.smallbinAt i :: l i ≠ [P] := by
    intro heq
    rw [(List.cons.inj heq).2] at hP
    simp at hP
  have hPB : P ≠ m.bk P := fun heq =>
    hnotAlone ((hring.bk_eq_self_iff (hs.ring_nodup (hs.small hP)) hPr).mp heq.symm)
  refine ⟨hPB, fun heq => hPB ?_, ?_⟩
  · have hbkfd := (hring.fd_spec hPr).2
    rw [← heq] at hbkfd
    exact hbkfd.symm
  · have hsize := chunksize_eq m P
    rwa [hs.index hP] at hsize

theorem unlinkSmallChunk_spec (hs : SmallBins m l) (hP : P ∈ l i) :
    ∃ m', unlinkSmallChunk m P (m.chunksize P) = m' ∧
      SmallBins m' (update l i ((l i).erase P)) ∧
      Touches (fun a => a ∈ m.smallbinAt i :: l i) m m' ∧
      m'.treemap = m.treemap ∧ m'.treebins = m.treebins := by
  have hi := hs.small hP
  have hne : l i ≠ [] := List.ne_nil_of_mem hP
  have hring := hs.ring hne
  have hnodup := hs.ring_nodup hi
  have hPr : P ∈ m.smallbinAt i :: l i := List.mem_cons_of_mem _ hP
  obtain ⟨hfd, hbkfd⟩ := hring.fd_spec hPr
  obtain ⟨hbk, hfdbk⟩ := hring.bk_spec hPr
  obtain ⟨hPB, hPF, hsize⟩ := hs.apart_spec hP
  have hok : ∀ {a}, a ∈ m.smallbinAt i :: l i → a = m.smallbinAt i ∨ m.OkAddress a := by
    intro a ha
    exact (List.mem_cons.mp ha).imp_right hs.ok
  have hmem : ∀ a ∈ (l i).erase P, smallIndex (m.chunksize a) = i ∧ m.OkAddress a ∧
      ∀ j, j.toNat < 32 → a ≠ m.smallbinAt j := fun a ha => by
    have ha := List.mem_of_mem_erase ha
    exact ⟨hs.index ha, hs.ok ha, fun j => hs.not_header ha⟩
  rw [unlinkSmallChunk, hs.index hP]
  simp only [m.assert_of hPB, m.assert_of hPF, m.assert_of hsize]
  rw [if_pos ((hok hfd).imp_right fun h => ⟨h, hbkfd⟩)]
  have hlen : m.bk P = m.fd P ↔ l i = [P] := by
    constructor
    · intro heq
      have hlt : ¬ 2 < (m.smallbinAt i :: l i).length :=
        fun h => hring.fd_ne_bk hnodup hPr h heq.symm
      have hpos := List.length_pos_of_mem hP
      rw [List.length_cons] at hlt
      obtain ⟨b, hb⟩ := List.length_eq_one_iff.mp (show (l i).length = 1 by omega)
      rw [hb] at hP ⊢
      rw [List.mem_singleton.mp hP]
    · intro heq
      rw [heq, LinkedRing.iff_isChain (by simp)] at hring
      obtain ⟨⟨hlast, -⟩, hchain⟩ := hring
      simp only [List.isChain_pair] at hchain
      exact hchain.2.trans hlast.symm
  by_cases hBF : m.bk P = m.fd P
  · have halone := hlen.mp hBF
    rw [if_pos hBF]
    refine ⟨_, rfl, hs.set hi ?_ ?_ ((hs.nodup i).erase P) hmem rfl rfl rfl
      (fun _ _ _ _ _ => ⟨rfl, rfl⟩), ⟨rfl, fun _ => rfl, fun _ => rfl,
        fun _ => rfl, fun _ => rfl, fun _ => rfl⟩, rfl, rfl⟩
    · intro j hj
      have hclear := marked_clear_iff (x := m.smallmap) (i := i) hj
      have hold := hs.marked hj
      rw [SmallmapIsMarked] at hold ⊢
      refine hclear.trans ?_
      rw [hold]
      by_cases hji : j = i
      · rw [hji, update_self, halone]
        simp
      · rw [update_of_ne hji]
        simp [hji]
    · rw [halone]
      simp
  · have hmany : l i ≠ [P] := fun h => hBF (hlen.mpr h)
    have hneB : ∀ {a}, a ∉ m.smallbinAt i :: l i → a ≠ m.bk P := by
      rintro a ha rfl
      exact ha hbk
    have hneF : ∀ {a}, a ∉ m.smallbinAt i :: l i → a ≠ m.fd P := by
      rintro a ha rfl
      exact ha hfd
    rw [if_neg hBF, if_pos ((hok hbk).imp_right fun h => ⟨h, hfdbk⟩)]
    refine ⟨_, rfl, hs.set hi ?_ ?_ ((hs.nodup i).erase P) hmem rfl rfl rfl ?_,
      ⟨rfl, ?_, ?_, fun _ => rfl, fun _ => rfl, fun _ => rfl⟩, rfl, rfl⟩
    · intro j hj
      refine (hs.marked hj).trans ?_
      by_cases hji : j = i
      · rw [hji, update_self]
        simp [hne, List.erase_eq_nil_iff, hmany]
      · rw [update_of_ne hji]
    · intro _
      obtain ⟨l1, l2, hl⟩ := List.append_of_mem hP
      have hPl1 : P ∉ l1 := by
        have := hs.nodup i
        rw [hl, List.nodup_append] at this
        exact fun h => this.2.2 P h P (by simp) rfl
      rw [hl, List.erase_append_right _ hPl1, List.erase_cons_head]
      rw [hl, ← List.cons_append] at hring hnodup
      exact (hring.swap.pop (List.nodup_append_comm.mp hnodup)).swap
    · intro j a hj hj32 ha
      have hapart := hs.ring_apart hj hj32 hi ha
      exact ⟨update_of_ne (hneB hapart) _ _, update_of_ne (hneF hapart) _ _⟩
    · exact fun ha => update_of_ne (hneB ha) _ _
    · exact fun ha => update_of_ne (hneF ha) _ _

end SmallBins

end LibSystem.Core
