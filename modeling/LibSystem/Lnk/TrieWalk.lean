import LibSystem.Lnk.TrieTable
import Mathlib.Data.Finite.Prod

/-!
# How far the trie walk goes

`trie_walk` follows offsets that may lead back. It ends unless edges with empty labels lead in a
circle, and it stays in the export table as long as the table covers what it reads.
-/

namespace LibSystem.Lnk

open Relation Outcome Access Region

namespace TrieTable

variable {T : TrieTable} {scan : Nat} {c c' : Place}

/-- The walk from a place on. -/
def walkFrom (T : TrieTable) (scan fuel : Nat) (c : Place) : Outcome (Addr × Mem) :=
  T.go (Program.trieWalkLoop T.start T.stop scan fuel c.1 c.2.bytes)

theorem charAt_iff (s : CString) (size : Word) :
    (charAt s.bytes = 0 ∧ size ≠ 0) ↔ (s.bytes = [] ∧ size ≠ 0) :=
  and_congr_left' (charAt_eq_zero s.nul_free)

theorem walkFrom_null (s : CString) (fuel : Nat) :
    T.walkFrom scan (fuel + 1) (0, s) = done (0, T.mem) := rfl

/-- What is left of an iteration where the walk comes to the children. -/
def fromChild (T : TrieTable) (scan fuel n : Nat) (a : Addr) (s : List Byte) : Program Addr := do
  let (nodeOffset, s) ← Program.walkChildren T.stop scan n a s
  Program.trieWalkLoop T.start T.stop scan fuel
    (if nodeOffset ≠ 0 then T.start + nodeOffset else 0) s

theorem walkFrom_below {a : Addr} (h : T.GoesBelow c a) (fuel : Nat) :
    T.walkFrom scan (fuel + 1) c =
      T.go (Program.byte a >>= fun count =>
        T.fromChild scan fuel count.toNat (a + 1) c.2.bytes) := by
  obtain ⟨hne, size, payload, hterminal, hgoes, rfl⟩ := h
  rw [walkFrom, Program.trieWalkLoop, if_neg hne, go_bind_done (go_readTerminalSize hterminal)]
  dsimp only
  rw [if_neg (mt (charAt_iff _ _).mp hgoes)]
  rfl

theorem walkFrom_comesTo (hscan : 2 ^ 32 ≤ scan) {n : Nat} {a : Addr} (h : T.ComesTo c n a)
    (fuel : Nat) :
    T.walkFrom scan (fuel + 1) c = T.go (T.fromChild scan fuel n a c.2.bytes) := by
  obtain ⟨count, hbelow, hin, hpasses⟩ := h
  rw [walkFrom_below hbelow, go_byte, if_pos hin]
  exact go_bind_congr (go_walkChildren_passes hscan c.2.nul_free hpasses) _

theorem walkFrom_leads (hscan : 2 ^ 32 ≤ scan) (h : T.Leads c c') (fuel : Nat) :
    T.walkFrom scan (fuel + 1) c = T.walkFrom scan fuel c' := by
  cases h with
  | edge label c c' h =>
    obtain ⟨hfits, hrest, n, a, offset, v, hcomes, hlabel, hoffset, hshows, hnode⟩ := h
    have htakes := go_walkChildren_takes hscan c.2.nul_free n hlabel hfits hoffset hshows
    rw [walkFrom_comesTo hscan hcomes, fromChild, go_bind_done htakes]
    dsimp only
    rw [← hnode, ← hrest]
    rfl
  | none c a h =>
    rw [walkFrom_comesTo hscan h]
    rfl

theorem walkFrom_leaves (hscan : 2 ^ 32 ≤ scan) (h : ¬ T.Covers c) (fuel : Nat) :
    T.walkFrom scan (fuel + 1) c = .fault := by
  have hcases : (c.1 ≠ 0 ∧ ¬ T.Inside c.1) ∨ (∃ a, T.GoesBelow c a ∧ ¬ T.Inside a) ∨
      ∃ n a, T.ComesTo c (n + 1) a ∧ ¬ T.CoversChild c.2.bytes a := by
    by_contra hno
    push Not at hno
    exact h ⟨hno.1, hno.2.1, hno.2.2⟩
  rcases hcases with ⟨hne, hout⟩ | ⟨a, hbelow, hout⟩ | ⟨n, a, hcomes, hout⟩
  · rw [walkFrom, Program.trieWalkLoop, if_neg hne]
    exact go_bind_fault (go_readTerminalSize_fault hout) _
  · rw [walkFrom_below hbelow, go_byte, if_neg hout]
  · rw [walkFrom_comesTo hscan hcomes]
    exact go_bind_fault (go_walkChildren_fault hscan c.2.nul_free n hout) _

/-- The walk stops here, inside of the table. -/
def Stops (T : TrieTable) (c : Place) : Prop :=
  ∃ x, x ≠ .timeout ∧ x ≠ .fault ∧
    ∀ scan ≥ 2 ^ 32, ∀ fuel, T.walkFrom scan (fuel + 1) c = x

theorem leads_or_stops (T : TrieTable) (c : Place) :
    (∃ c', T.Leads c c') ∨ ¬ T.Covers c ∨ T.Stops c := by
  by_cases hcovers : T.Covers c
  swap
  · exact Or.inr (Or.inl hcovers)
  by_cases hne : c.1 = 0
  · refine Or.inr (Or.inr ⟨done (0, T.mem), nofun, nofun, fun scan _ fuel => ?_⟩)
    obtain ⟨_, s⟩ := c
    obtain rfl : _ = (0 : Addr) := hne
    exact walkFrom_null s fuel
  rcases go_readTerminalSize_total (hcovers.node hne) with ⟨size, payload, hterminal⟩ | ⟨msg, hmsg⟩
  swap
  · refine Or.inr (Or.inr ⟨.halt msg, nofun, nofun, fun scan _ fuel => ?_⟩)
    rw [walkFrom, Program.trieWalkLoop, if_neg hne]
    exact go_bind_halt hmsg _
  by_cases hfound : c.2.bytes = [] ∧ size ≠ 0
  · refine Or.inr (Or.inr ⟨done (payload, T.mem), nofun, nofun, fun scan _ fuel => ?_⟩)
    rw [walkFrom, Program.trieWalkLoop, if_neg hne, go_bind_done (go_readTerminalSize hterminal)]
    dsimp only
    rw [if_pos ((charAt_iff _ _).mpr hfound)]
    rfl
  have hbelow : T.GoesBelow c (payload + size) := ⟨hne, size, payload, hterminal, hfound, rfl⟩
  have hin := hcovers.count _ hbelow
  obtain ⟨n, a, hpasses, hend⟩ := children_end c.2.nul_free (T.mem (payload + size)).toNat
    (payload + size + 1)
  have hcomes : T.ComesTo c n a := ⟨_, hbelow, hin, hpasses⟩
  cases hend with
  | none a => exact Or.inl ⟨_, .none c a hcomes⟩
  | takes n a label offset v hlabel hfits hoffset hshows =>
    let rest : CString := ⟨c.2.bytes.drop label.bytes.length, fun b hb =>
      c.2.nul_free b (List.mem_of_mem_drop hb)⟩
    let child : Addr := if BitVec.ofNat 32 v ≠ 0 then T.start + BitVec.ofNat 32 v else 0
    exact Or.inl ⟨(child, rest), .edge label c _ ⟨hfits, rfl, n, a, offset, v, hcomes, hlabel,
      hoffset, hshows, rfl⟩⟩
  | halts n a msg hmsg =>
    refine Or.inr (Or.inr ⟨.halt msg, nofun, nofun, fun scan hscan fuel => ?_⟩)
    rw [walkFrom_comesTo hscan hcomes]
    exact go_bind_halt (hmsg scan hscan) _
  | leaves n a hout => exact absurd (hcovers.child n a hcomes) hout

theorem walkFrom_scan (hscan : 2 ^ 32 ≤ scan) (fuel : Nat) (c : Place) :
    T.walkFrom scan fuel c = T.walkFrom (2 ^ 32) fuel c := by
  induction fuel generalizing c with
  | zero => rfl
  | succ fuel ih =>
    rcases T.leads_or_stops c with ⟨c', hleads⟩ | hout | ⟨x, -, -, hx⟩
    · rw [walkFrom_leads hscan hleads, walkFrom_leads (Nat.le_refl _) hleads, ih]
    · rw [walkFrom_leaves hscan hout, walkFrom_leaves (Nat.le_refl _) hout]
    · rw [hx scan hscan, hx _ (Nat.le_refl _)]

theorem walks (T : TrieTable) : Walks (T.walkFrom (2 ^ 32)) T.Leads where
  zero _ := rfl
  step _ _ h := walkFrom_leads (Nat.le_refl _) h
  stops c := by
    rcases T.leads_or_stops c with hleads | hout | ⟨x, hend, -, hx⟩
    · exact Or.inl hleads
    · refine Or.inr ⟨?_, fun fuel => ?_⟩
      · rw [walkFrom_leaves (Nat.le_refl _) hout]
        exact nofun
      · rw [walkFrom_leaves (Nat.le_refl _) hout, walkFrom_leaves (Nat.le_refl _) hout]
    · exact Or.inr ⟨by rwa [hx _ (Nat.le_refl _)], fun fuel => by
        rw [hx _ (Nat.le_refl _), hx _ (Nat.le_refl _)]⟩

theorem trieWalk_ends_as {R : Outcome (Addr × Mem) → Prop} (hR : ¬ R .timeout) (s : CString) :
    (∃ n, ∀ fuel ≥ n, R (T.go (Program.trieWalk fuel T.start T.stop s.bytes))) ↔
      Acc (fun c' c => T.Leads c c') (T.start, s) ∧
        ∀ c, ReflTransGen T.Leads (T.start, s) c →
          (∃ c', T.Leads c c') ∨ R (T.walkFrom (2 ^ 32) 1 c) := by
  refine Iff.trans ?_ (T.walks.ends_iff hR (T.start, s))
  constructor
  · rintro ⟨n, hn⟩
    refine ⟨max n (2 ^ 32), fun fuel hfuel => ?_⟩
    rw [← walkFrom_scan (by omega : 2 ^ 32 ≤ fuel)]
    exact hn fuel (by omega)
  · rintro ⟨n, hn⟩
    refine ⟨max n (2 ^ 32), fun fuel hfuel => ?_⟩
    have := hn fuel (by omega)
    rwa [← walkFrom_scan (by omega : 2 ^ 32 ≤ fuel)] at this

/-! ## Circles -/

/-- An edge that takes nothing of the symbol. -/
def EmptyEdge (T : TrieTable) (c c' : Place) : Prop :=
  ∃ label : CString, label.bytes = [] ∧ T.Edge label c c'

theorem ne_null_of_leads (h : T.Leads c c') : c.1 ≠ 0 := by
  cases h with
  | edge label c c' h =>
    obtain ⟨-, -, n, a, offset, v, ⟨count, hbelow, -⟩, -⟩ := h
    exact hbelow.node_ne
  | none c a h =>
    obtain ⟨count, hbelow, -⟩ := h
    exact hbelow.node_ne

theorem suffix_of_leads (h : T.Leads c c') : c'.2.bytes <:+ c.2.bytes := by
  cases h with
  | edge label c c' h =>
    rw [h.rest]
    exact List.drop_suffix _ _
  | none c a h => exact List.suffix_refl _

theorem suffix_of_reach (h : ReflTransGen T.Leads c c') : c'.2.bytes <:+ c.2.bytes := by
  induction h with
  | refl => exact List.suffix_refl _
  | tail _ hleads ih => exact (suffix_of_leads hleads).trans ih

theorem step_cases (h : T.Leads c c') :
    c'.1 = 0 ∨ c'.2.bytes.length < c.2.bytes.length ∨ T.EmptyEdge c c' := by
  cases h with
  | none c a h => exact Or.inl rfl
  | edge label c c' h =>
    by_cases hlabel : label.bytes = []
    · exact Or.inr (Or.inr ⟨label, hlabel, h⟩)
    · have hfits := h.fits.length_le
      have hpos := List.length_pos_of_ne_nil hlabel
      rw [h.rest, List.length_drop]
      omega

theorem path_cases (h : TransGen T.Leads c c') :
    c'.1 = 0 ∨ c'.2.bytes.length < c.2.bytes.length ∨ TransGen T.EmptyEdge c c' := by
  induction h with
  | single h => exact (step_cases h).imp_right (Or.imp_right .single)
  | tail _ hlast ih =>
    have hle := (suffix_of_leads hlast).length_le
    rcases ih with hnull | hless | hempty
    · exact absurd hnull (ne_null_of_leads hlast)
    · exact Or.inr (Or.inl (by omega))
    · have hle' : ∀ c', TransGen T.EmptyEdge c c' → c'.2.bytes.length ≤ c.2.bytes.length := by
        intro c' hpath
        have := TransGen.mono (fun a b ⟨label, _, hedge⟩ => Leads.edge label a b hedge) c c' hpath
        exact (suffix_of_reach this.to_reflTransGen).length_le
      have := hle' _ hempty
      rcases step_cases hlast with hnull | hless | hedge
      · exact Or.inl hnull
      · exact Or.inr (Or.inl (by omega))
      · exact Or.inr (Or.inr (hempty.tail hedge))

theorem circle_iff (c : Place) : TransGen T.Leads c c ↔ TransGen T.EmptyEdge c c := by
  constructor
  · intro h
    obtain ⟨_, hfirst, -⟩ := TransGen.head'_iff.mp h
    rcases path_cases h with hnull | hless | hempty
    · exact absurd hnull (ne_null_of_leads hfirst)
    · omega
    · exact hempty
  · exact TransGen.mono (fun a b ⟨label, _, hedge⟩ => Leads.edge label a b hedge) c c

theorem places_finite (T : TrieTable) (c : Place) :
    Set.Finite {c' | ReflTransGen T.Leads c c' ∧ ∃ c'', T.Leads c' c''} := by
  have hinj : Function.Injective fun c : Place => (c.1.toFin, c.2.bytes) := by
    rintro ⟨a, s⟩ ⟨a', s'⟩ h
    obtain ⟨ha, hs⟩ := Prod.mk.inj h
    exact Prod.ext (BitVec.toFin_inj.mp ha) (CString.bytes_injective hs)
  have hfin : Set.Finite {l : List Byte | l <:+ c.2.bytes} :=
    (List.finite_toSet c.2.bytes.tails).subset fun l hl => (List.mem_tails _ _).mpr hl
  refine ((Set.finite_univ.prod hfin).preimage hinj.injOn).subset ?_
  exact fun c' hc' => ⟨trivial, suffix_of_reach hc'.1⟩

theorem acc_iff_no_circle (T : TrieTable) (c : Place) :
    Acc (fun c' c => T.Leads c c') c ↔
      ∀ c', ReflTransGen T.Leads c c' → ¬ TransGen T.EmptyEdge c' c' := by
  rw [Graph.acc_iff_no_cycle_of_reach (T.places_finite c)]
  simp only [circle_iff]

/-! ## The walk -/

theorem go_settles_iff {α : Type} {p : Program α} {x : Outcome α} (hx : Reads T.mem p x) :
    (T.go p).Settles ↔ x.Settles ∧ ∀ a ∈ p.looks T.mem, T.Inside a := by
  have hrun : (p.run T.mem).Settles ↔ x.Settles := by
    rw [hx]
    cases x <;> simp [Settles]
  constructor
  · intro h
    have hinside : ∀ a ∈ p.looks T.mem, T.Inside a := looks_of_runIn (settles_iff.mp h).2
    rw [go, runIn_of_looks hinside] at h
    exact ⟨hrun.mp h, hinside⟩
  · rintro ⟨h, hinside⟩
    rw [go, runIn_of_looks hinside]
    exact hrun.mpr h

theorem go_trieWalk_settles {s : CString}
    (h : ∀ c, ReflTransGen T.Leads (T.start, s) c → T.Covers c ∧ ¬ TransGen T.EmptyEdge c c) :
    ∃ n, ∀ fuel ≥ n, (T.go (Program.trieWalk fuel T.start T.stop s.bytes)).Settles := by
  refine (trieWalk_ends_as (by simp [Settles]) s).mpr
    ⟨(acc_iff_no_circle T _).mpr fun c hc => (h c hc).2, fun c hc => ?_⟩
  rcases T.leads_or_stops c with hleads | hout | ⟨x, hend, hinside, hx⟩
  · exact Or.inl hleads
  · exact absurd (h c hc).1 hout
  · rw [hx _ (Nat.le_refl _) 0]
    exact Or.inr (settles_iff.mpr ⟨hend, hinside⟩)

/-- **The walk ends, unless empty labels lead in a circle.** Reads outside of the table stop it. -/
theorem trieWalk_ends_iff (T : TrieTable) (s : CString) :
    (∃ n, ∀ fuel ≥ n, T.go (Program.trieWalk fuel T.start T.stop s.bytes) ≠ .timeout) ↔
      ∀ c, ReflTransGen T.Leads (T.start, s) c → ¬ TransGen T.EmptyEdge c c := by
  have hR : ¬ (Outcome.timeout : Outcome (Addr × Mem)) ≠ .timeout := not_not.mpr rfl
  refine (trieWalk_ends_as (R := (· ≠ .timeout)) hR s).trans ?_
  rw [acc_iff_no_circle]
  exact and_iff_left fun c _ => (T.walks.stops c).imp_right And.left

/-- A node whose only child, with an empty label, is the second node, which is its own child. -/
def circularTable : TrieTable where
  mem a := if a = 0x1001 ∨ a = 0x1005 then 1 else if a = 0x1003 ∨ a = 0x1007 then 4 else 0
  start := 0x1000
  stop := 0x1008

theorem symbolA_nul_free : ∀ b ∈ ([97] : List Byte), b ≠ 0 := by decide

def symbolA : CString := ⟨[97], symbolA_nul_free⟩

theorem circularTable_edge {a : Addr} (ha : a = 0x1000 ∨ a = 0x1004) :
    circularTable.Leads (a, symbolA) (0x1004, symbolA) := by
  have hbelow : circularTable.GoesBelow (a, symbolA) (a + 1) := by
    refine ⟨?_, 0, a + 1, ⟨[0], 0, Uleb.of_lt 0 (by decide), ?_, rfl, rfl⟩, by simp, by simp⟩
    · rcases ha with rfl | rfl <;> decide
    · rcases ha with rfl | rfl <;> exact shows_cons.mpr ⟨rfl, by decide, shows_nil _⟩
  have hcomes : circularTable.ComesTo (a, symbolA) 1 (a + 1 + 1) := by
    refine ⟨a + 1, hbelow, ?_, ?_⟩
    · rcases ha with rfl | rfl <;> decide
    · rcases ha with rfl | rfl <;> exact .refl _ _
  refine .edge ⟨[], by simp⟩ _ _ ⟨List.nil_prefix, rfl, 0, _, [4], 4, hcomes, ?_,
    Uleb.of_lt 4 (by decide), ?_, rfl⟩
  · rcases ha with rfl | rfl <;> exact shows_cons.mpr ⟨rfl, by decide, shows_nil _⟩
  · rcases ha with rfl | rfl <;> exact shows_cons.mpr ⟨rfl, by decide, shows_nil _⟩

theorem circularTable_timeout (fuel : Nat) {a : Addr} (ha : a = 0x1000 ∨ a = 0x1004) :
    circularTable.walkFrom (2 ^ 32) fuel (a, symbolA) = .timeout := by
  induction fuel generalizing a with
  | zero => rfl
  | succ fuel ih =>
    rw [walkFrom_leads (Nat.le_refl _) (circularTable_edge ha)]
    exact ih (Or.inr rfl)

theorem trieWalk_circles : ¬ ∀ (T : TrieTable) (s : CString),
    ∃ n, ∀ fuel ≥ n, T.go (Program.trieWalk fuel T.start T.stop s.bytes) ≠ .timeout := by
  intro h
  obtain ⟨n, hn⟩ := h circularTable symbolA
  refine hn (max n (2 ^ 32)) (Nat.le_max_left _ _) ?_
  exact (walkFrom_scan (Nat.le_max_right _ _) _ (0x1000, symbolA)).trans
    (circularTable_timeout _ (Or.inl rfl))

/-- **The walk stays in the table**, and returns or halts, exactly if the table covers every place
that it comes to, and empty labels do not lead in a circle. -/
theorem trieWalk_inside_iff (T : TrieTable) (s : CString) :
    (∃ n, ∀ fuel ≥ n, (trieWalk fuel T.mem T.start T.stop s.bytes).Settles ∧
        ∀ x ∈ (Program.trieWalk fuel T.start T.stop s.bytes).looks T.mem, T.Inside x) ↔
      ∀ c, ReflTransGen T.Leads (T.start, s) c → T.Covers c ∧ ¬ TransGen T.EmptyEdge c c := by
  have hsettles : ∀ fuel, (T.go (Program.trieWalk fuel T.start T.stop s.bytes)).Settles ↔
      (trieWalk fuel T.mem T.start T.stop s.bytes).Settles ∧
        ∀ x ∈ (Program.trieWalk fuel T.start T.stop s.bytes).looks T.mem, T.Inside x :=
    fun fuel => go_settles_iff (Program.runs_trieWalk _ _ _ _ _)
  simp only [← hsettles]
  refine ⟨fun hends c hc => ?_, go_trieWalk_settles⟩
  obtain ⟨hacc, hend⟩ := (trieWalk_ends_as (by simp [Settles]) s).mp hends
  refine ⟨?_, (acc_iff_no_circle T _).mp hacc c hc⟩
  by_contra hout
  have hfault := walkFrom_leaves (Nat.le_refl _) hout 0
  rcases hend c hc with ⟨c', hleads⟩ | hsettles
  · have htimeout := hfault.symm.trans (T.walks.timeout_of_leads hleads)
    exact absurd htimeout (by simp)
  · rw [hfault] at hsettles
    exact absurd hsettles (by simp [Settles])

/-- One byte: a terminal size of 0, and no count of children. -/
def cutTable : TrieTable where
  mem _ := 0
  start := 0x1000
  stop := 0x1001

theorem cutTable_leaves : ¬ cutTable.Covers (0x1000, symbolA) := by
  intro h
  have hbelow : cutTable.GoesBelow (0x1000, symbolA) 0x1001 :=
    ⟨by decide, 0, 0x1001, ⟨[0], 0, Uleb.of_lt 0 (by decide),
      shows_cons.mpr ⟨rfl, by decide, shows_nil _⟩, rfl, rfl⟩, by decide, rfl⟩
  exact absurd (h.count _ hbelow) (by decide)

theorem trieWalk_leaves : ¬ ∀ (T : TrieTable) (s : CString), T.start < T.stop →
    ∃ n, ∀ fuel ≥ n, (trieWalk fuel T.mem T.start T.stop s.bytes).Settles ∧
      ∀ x ∈ (Program.trieWalk fuel T.start T.stop s.bytes).looks T.mem, T.Inside x := by
  intro h
  obtain ⟨n, hn⟩ := h cutTable symbolA (by decide)
  have hend := (go_settles_iff (Program.runs_trieWalk _ _ _ _ _)).mpr
    (hn (max n (2 ^ 32) + 1) (by omega))
  exact (settles_iff.mp hend).2 (walkFrom_leaves (by omega) cutTable_leaves _)

end TrieTable

end LibSystem.Lnk
