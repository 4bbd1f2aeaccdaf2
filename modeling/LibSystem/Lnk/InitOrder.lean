import LibSystem.Lnk.Initialize

/-!
# Initialization order

Which images `initializeChain` initializes, and when it returns.
-/

namespace LibSystem.Lnk

open Outcome Relation LibSystem.Graph

variable {s s' : Linker} {chain : List ImageId}

/-! ## Events -/

theorem count_flatMap_initEvents {order : List ImageId} (hnodup : order.Nodup) {e : Event}
    (hmem : e.image ∈ order) :
    (order.flatMap (initEvents s)).count e = (initEvents s e.image).count e := by
  have hzero : ∀ l : List ImageId, e.image ∉ l → (l.flatMap (initEvents s)).count e = 0 := by
    intro l hl
    refine List.count_eq_zero.mpr fun he => ?_
    obtain ⟨im, him, hin⟩ := List.mem_flatMap.mp he
    exact hl (image_of_mem_initEvents hin ▸ him)
  obtain ⟨a, b, hsplit⟩ := List.append_of_mem hmem
  have hnot : e.image ∉ a ++ b :=
    (List.nodup_cons.mp (List.nodup_middle.mp (hsplit ▸ hnodup))).1
  rw [List.mem_append, not_or] at hnot
  rw [hsplit, List.flatMap_append, List.flatMap_cons, List.count_append, List.count_append,
    hzero a hnot.1, hzero b hnot.2]
  omega

theorem initEvents_enter {im : ImageId} (h : im < s.images.length) :
    (initEvents s im).count (.enterInit im) = 1 := by
  have hcalls : ∀ fns : List Word, (fns.map (Event.callInitializer im)).count (.enterInit im) = 0 :=
    fun fns => List.count_eq_zero.mpr (by simp)
  simp [initEvents, List.getElem?_eq_getElem h, List.count_append, hcalls]

theorem initEvents_leave {im : ImageId} (h : im < s.images.length) :
    (initEvents s im).count (.leaveInit im) = 1 := by
  have hcalls : ∀ fns : List Word, (fns.map (Event.callInitializer im)).count (.leaveInit im) = 0 :=
    fun fns => List.count_eq_zero.mpr (by simp)
  simp [initEvents, List.getElem?_eq_getElem h, List.count_append, hcalls]

/-- Between `s` and `s'` each image of the chain has been initialized once. -/
def InitializedOnce (chain : List ImageId) (s s' : Linker) (events : List Event) : Prop :=
  s'.trace = s.trace ++ events ∧ ∀ im ∈ chain,
    events.count (.enterInit im) = 1 ∧ events.count (.leaveInit im) = 1 ∧
      ∃ obj, s'.images[im]? = some obj ∧ obj.fHasInitialized = true

theorem Uninitialized.initializedOnce (h : Uninitialized s chain) {order : List ImageId}
    (hperm : order.Perm chain) :
    InitializedOnce chain s (s.initialized order) (order.flatMap (initEvents s)) := by
  have hnodup : order.Nodup := hperm.nodup_iff.mpr h.nodup
  refine ⟨rfl, fun im him => ?_⟩
  have hmem : im ∈ order := hperm.mem_iff.mpr him
  have hlt := h.isChain.lt_length im him
  refine ⟨?_, ?_, s.images[im].setInitialized true, ?_, rfl⟩
  · exact (count_flatMap_initEvents (e := .enterInit im) hnodup hmem).trans (initEvents_enter hlt)
  · exact (count_flatMap_initEvents (e := .leaveInit im) hnodup hmem).trans (initEvents_leave hlt)
  · rw [initialized_images, List.getElem?_eq_getElem hlt, Option.map_some, decide_eq_true hmem,
      Bool.or_true]

/-! ## Cycles -/

/-- The image depends on an image that depends on itself, directly or not. -/
def ReachesCycle (s : Linker) (im : ImageId) : Prop :=
  ∃ j, Reach (dependencies s) im j ∧ TransGen (fun i d => d ∈ dependencies s i) j j

theorem reachesCycle_iff (im : ImageId) :
    ReachesCycle s im ↔ ¬ Acc (fun d i => d ∈ dependencies s i) im := by
  have hfin : Set.Finite {i | ∃ d, d ∈ dependencies s i} := by
    have hfin : Set.Finite {i | dependencies s i ≠ []} :=
      finite_of_bound (n := s.images.length) fun im hlen => by
        simp [dependencies, List.getElem?_eq_none hlen]
    exact hfin.subset fun i hi => List.ne_nil_of_mem hi.choose_spec
  rw [acc_iff_no_cycle (r := fun i d => d ∈ dependencies s i) hfin im]
  simp only [not_forall, not_not, exists_prop]
  rfl

/-- Either each image that depends on a cycle is one of a pair of images that depend on each other,
or the two counters happen to meet. -/
def Stops (s : Linker) (chain : List ImageId) : Prop :=
  (∀ im ∈ chain, ReachesCycle s im → Rounds.mutualCount (dependencies s) im ≠ 0) ∨
    ∃ p, Rounds.Meets (dependencies s) chain p

theorem stops_iff_acc : Stops s chain ↔
    (∀ im ∈ chain, ¬ Acc (fun d i => d ∈ dependencies s i) im →
      Rounds.mutualCount (dependencies s) im ≠ 0) ∨
    ∃ p, Rounds.Meets (dependencies s) chain p := by
  unfold Stops
  simp only [reachesCycle_iff]

theorem Uninitialized.timeout (h : Uninitialized s chain) (hstop : ¬ Stops s chain)
    (garbage : Bool) (fuel : Nat) : Lnk.initializeChain fuel garbage s = .timeout := by
  rw [h.initializeChain, Rounds.rounds_timeout h.nodup h.closed h.length_lt garbage
    (fun hcond => hstop (stops_iff_acc.mpr hcond)) fuel, timeout_bind]

/-- **When `initializeChain` returns.** It then has initialized each image once. -/
theorem initializeChain_iff (h : Uninitialized s chain) (garbage : Bool) :
    (∃ fuel s' events, initializeChain fuel garbage s = done s' ∧
      InitializedOnce chain s s' events) ↔ Stops s chain := by
  constructor
  · rintro ⟨fuel, s', events, hrun, -⟩
    by_contra hstop
    simp [h.timeout hstop] at hrun
  · intro hstop
    obtain ⟨fuel, st, hst, hperm⟩ :=
      (Rounds.rounds_iff h.nodup h.closed h.length_lt garbage).mpr (stops_iff_acc.mp hstop)
    refine ⟨fuel, _, _, ?_, h.initializedOnce hperm⟩
    rw [h.initializeChain, hst, done_bind]

/-- **Without cycles** `initializeChain` initializes each image once, and after the dependencies of
the image. -/
theorem initializeChain_acyclic (h : Uninitialized s chain)
    (hac : ∀ im ∈ chain, ¬ TransGen (fun i d => d ∈ dependencies s i) im im) (garbage : Bool) :
    ∃ fuel s' events, initializeChain fuel garbage s = done s' ∧
      InitializedOnce chain s s' events ∧
      ∀ im ∈ chain, ∀ dep ∈ dependencies s im,
        [Event.leaveInit dep, Event.enterInit im].Sublist events := by
  have hreach : ∀ im ∈ chain, ∀ j, Reach (dependencies s) im j → j ∈ chain := by
    intro im him j hij
    induction hij with
    | refl => exact him
    | tail _ hstep ih => exact h.closed _ ih _ hstep
  have hacc : ∀ im ∈ chain, Acc (fun d i => d ∈ dependencies s i) im := by
    intro im him
    by_contra hno
    obtain ⟨j, hij, hcycle⟩ := (reachesCycle_iff im).mpr hno
    exact hac j (hreach im him j hij) hcycle
  obtain ⟨fuel, st, hst, hperm, hsorted⟩ :=
    Rounds.rounds_acyclic h.nodup h.closed h.length_lt garbage hacc
  refine ⟨fuel, _, _, by rw [h.initializeChain, hst, done_bind], h.initializedOnce hperm, ?_⟩
  intro im him dep hdep
  have hlt := h.isChain.lt_length
  obtain ⟨a, b, hsplit⟩ := List.append_of_mem (hperm.mem_iff.mpr him)
  have hleave : Event.leaveInit dep ∈ a.flatMap (initEvents s) := by
    refine List.mem_flatMap.mpr ⟨dep, hsorted a im b hsplit dep hdep, ?_⟩
    refine List.count_pos_iff.mp ?_
    rw [initEvents_leave (hlt dep (h.closed im him dep hdep))]
    exact Nat.one_pos
  have henter : Event.enterInit im ∈ initEvents s im := by
    refine List.count_pos_iff.mp ?_
    rw [initEvents_enter (hlt im him)]
    exact Nat.one_pos
  rw [hsplit, List.flatMap_append, List.flatMap_cons]
  exact (List.singleton_sublist.mpr hleave).append
    ((List.singleton_sublist.mpr henter).trans (List.sublist_append_left _ _))

/-! ## Chains of three images -/

def chainObject (next : Option ImageId) (deps : List ImageId) : MachObject :=
  { MachObject.new with fNextImage := next, fDependencies := deps }

def chainLinker (deps0 deps1 deps2 : List ImageId) : Linker where
  mem := fun _ => 0
  images := [chainObject (some 1) deps0, chainObject (some 2) deps1, chainObject none deps2]
  sMainExecutable := none
  sDylinker := none
  sFirstImage := some 0
  sImageCount := 3
  sUnresolvedCount := 0
  sAuxLibs := []
  trace := []

theorem chainLinker_uninitialized {deps0 deps1 deps2 : List ImageId}
    (h : ∀ deps ∈ [deps0, deps1, deps2], ∀ dep ∈ deps, dep ∈ [0, 1, 2]) :
    Uninitialized (chainLinker deps0 deps1 deps2) [0, 1, 2] where
  chain_eq := rfl
  closed := by
    intro im him dep hdep
    simp only [List.mem_cons, List.not_mem_nil, or_false] at him
    rcases him with rfl | rfl | rfl
    · exact h deps0 (by simp) dep hdep
    · exact h deps1 (by simp) dep hdep
    · exact h deps2 (by simp) dep hdep
  fresh := by
    intro im him obj hobj
    simp only [List.mem_cons, List.not_mem_nil, or_false] at him
    rcases him with rfl | rfl | rfl <;> cases hobj <;> rfl
  count := rfl

theorem initializeChain_iff_pair :
    (∃ fuel s' events, initializeChain fuel false (chainLinker [1] [0] []) = done s' ∧
      InitializedOnce [0, 1, 2] (chainLinker [1] [0] []) s' events) ↔
        Stops (chainLinker [1] [0] []) [0, 1, 2] :=
  initializeChain_iff (chainLinker_uninitialized (by decide)) false

theorem initializeChain_acyclic_sample :
    ∃ fuel s' events, initializeChain fuel true (chainLinker [1, 2] [2] []) = done s' ∧
      InitializedOnce [0, 1, 2] (chainLinker [1, 2] [2] []) s' events ∧
      ∀ im ∈ [0, 1, 2], ∀ dep ∈ dependencies (chainLinker [1, 2] [2] []) im,
        [Event.leaveInit dep, Event.enterInit im].Sublist events := by
  have hstep : ∀ im dep, dep ∈ dependencies (chainLinker [1, 2] [2] []) im → im < dep := by
    intro im dep hdep
    rcases im with _ | _ | _ | im
    · have hdep : dep ∈ [1, 2] := hdep
      obtain rfl | rfl : dep = 1 ∨ dep = 2 := by simpa using hdep
      all_goals decide
    · obtain rfl : dep = 2 := List.mem_singleton.mp hdep
      decide
    · exact absurd hdep List.not_mem_nil
    · exact absurd hdep List.not_mem_nil
  have hlt : ∀ im dep,
      TransGen (fun i d => d ∈ dependencies (chainLinker [1, 2] [2] []) i) im dep → im < dep := by
    intro im dep hpath
    induction hpath with
    | single h => exact hstep _ _ h
    | tail _ h ih => exact ih.trans (hstep _ _ h)
  exact initializeChain_acyclic (chainLinker_uninitialized (by decide))
    (fun im _ hcycle => absurd (hlt im im hcycle) (Nat.lt_irrefl im)) true

/-- Each image depends on the next one, and the last one on the first. -/
def ringLinker : Linker := chainLinker [1] [2] [0]

theorem ring_reachesCycle : ReachesCycle ringLinker 0 := by
  have h01 : (1 : ImageId) ∈ dependencies ringLinker 0 := by decide
  have h12 : (2 : ImageId) ∈ dependencies ringLinker 1 := by decide
  have h20 : (0 : ImageId) ∈ dependencies ringLinker 2 := by decide
  exact ⟨0, .refl, ((TransGen.single h01).tail h12).tail h20⟩

theorem ring_not_meets (p : Nat) : ¬ Rounds.Meets (dependencies ringLinker) [0, 1, 2] p := by
  rintro ⟨l1, x, l2, hchain, hmeets⟩
  have hzero : ∀ im ∈ [0, 1, 2], Rounds.mutualCount (dependencies ringLinker) im = 0 := by decide
  have hsub : ∀ im ∈ l1, im ∈ [0, 1, 2] := fun im him => by rw [hchain]; simp [him]
  refine hmeets.counted (by decide) hchain ?_
  rw [Rounds.mutualSum_eq_zero_iff.mpr hzero,
    Rounds.mutualSum_eq_zero_iff.mpr fun im him => hzero im (hsub im him)]
  rfl

/-- A cycle of three images is never recognized, and the passes go on for ever. -/
theorem initializeChain_ring :
    Uninitialized ringLinker [0, 1, 2] ∧
      ∀ garbage fuel, initializeChain fuel garbage ringLinker = timeout := by
  have hring : Uninitialized ringLinker [0, 1, 2] := chainLinker_uninitialized (by decide)
  refine ⟨hring, hring.timeout ?_⟩
  rintro (hmutual | ⟨p, hp⟩)
  · exact hmutual 0 (by decide) ring_reachesCycle (by decide)
  · exact ring_not_meets p hp

end LibSystem.Lnk
