import LibSystem.Lnk.InitOrder

/-!
# Initialization behind a cycle

What is left when the passes stop is initialized in chain order, cycle or not.
-/

namespace LibSystem.Lnk

open Outcome Relation LibSystem.Graph

variable {s s' : Linker} {chain : List ImageId}

/-- The image depends on itself, directly or not. -/
def OnCycle (s : Linker) (im : ImageId) : Prop :=
  TransGen (fun i d => d ∈ dependencies s i) im im

/-- A cycle of dependencies without repetition. -/
def IsCycle (s : Linker) (c : List ImageId) : Prop :=
  c.Nodup ∧ ∃ im l, c = im :: l ∧ List.IsChain (fun i d => d ∈ dependencies s i) (c ++ [im])

/-- An image on no cycle is initialized after all of its dependencies. -/
def OrderedOutside (s : Linker) (chain : List ImageId) (events : List Event) : Prop :=
  ∀ im ∈ chain, ¬ OnCycle s im → ∀ dep ∈ dependencies s im,
    [Event.leaveInit dep, Event.enterInit im].Sublist events

/-- Of what has not been initialized when the passes stop, each image on no cycle stands in the
chain behind its dependencies. -/
def LeftInOrder (s : Linker) (chain : List ImageId) : Prop :=
  ∃ p l1, Rounds.StopsAt (dependencies s) chain p l1 ∧
    ∀ im ∈ chain, ¬ OnCycle s im → ¬ Rounds.Started (dependencies s) chain p l1 im →
      ∀ dep ∈ dependencies s im, ¬ Rounds.Started (dependencies s) chain p l1 dep →
        [dep, im].Sublist chain

theorem events_sublist_iff {order : List ImageId} {dep im : ImageId} (hne : dep ≠ im)
    (hdep : dep < s.images.length) (him : im < s.images.length) :
    [Event.leaveInit dep, Event.enterInit im].Sublist (order.flatMap (initEvents s)) ↔
      [dep, im].Sublist order := by
  have hleave : Event.leaveInit dep ∈ initEvents s dep :=
    List.count_pos_iff.mp (by rw [initEvents_leave hdep]; exact Nat.one_pos)
  have henter : Event.enterInit im ∈ initEvents s im :=
    List.count_pos_iff.mp (by rw [initEvents_enter him]; exact Nat.one_pos)
  constructor
  · intro h
    induction order with
    | nil => simp at h
    | cons j order ih =>
      rw [List.flatMap_cons] at h
      obtain ⟨a, b, heq, ha, hb⟩ := List.sublist_append_iff.mp h
      rcases a with _ | ⟨e, a⟩
      · exact (ih (heq ▸ hb)).trans (List.sublist_cons_self j order)
      obtain ⟨rfl, htail⟩ := List.cons_eq_cons.mp heq
      obtain rfl : dep = j := image_of_mem_initEvents (ha.subset List.mem_cons_self)
      rcases a with _ | ⟨e, a⟩
      · obtain rfl : [Event.enterInit im] = b := htail
        obtain ⟨k, hk, hin⟩ := List.mem_flatMap.mp (List.singleton_sublist.mp hb)
        obtain rfl : im = k := image_of_mem_initEvents hin
        exact (List.singleton_sublist.mpr hk).cons_cons dep
      · obtain ⟨rfl, -⟩ := List.cons_eq_cons.mp htail
        have hin : Event.enterInit im ∈ initEvents s dep := ha.subset (by simp)
        exact absurd (image_of_mem_initEvents hin).symm hne
  · intro h
    obtain ⟨a, b, rfl, ha, hb⟩ := List.cons_sublist_iff.mp h
    rw [List.flatMap_append]
    refine (List.singleton_sublist.mpr (List.mem_flatMap.mpr ⟨dep, ha, hleave⟩)).append ?_
    refine List.singleton_sublist.mpr (List.mem_flatMap.mpr ⟨im, ?_, henter⟩)
    exact List.singleton_sublist.mp hb

theorem Uninitialized.initializeChain_eq_done (h : Uninitialized s chain) {fuel : Nat}
    {garbage : Bool} (hrun : Lnk.initializeChain fuel garbage s = done s') :
    ∃ p l1 st, Rounds.StopsAt (dependencies s) chain p l1 ∧
      Rounds.At (dependencies s) chain p l1 st ∧ Rounds.Final (dependencies s) chain st ∧
      s' = s.initialized (Rounds.finish chain st) := by
  rw [h.initializeChain] at hrun
  obtain ⟨st, hst, hs'⟩ := bind_eq_done.mp hrun
  have hinit : Rounds.At (dependencies s) chain 0 [] (.init chain.length garbage) :=
    Rounds.at_init garbage
  obtain ⟨p, l1, hstops, hat⟩ :=
    Rounds.rounds_stopsAt h.nodup h.closed hinit (by simp) hst
  obtain ⟨-, hfinal⟩ := Rounds.rounds_done h.nodup h.closed h.length_lt hinit hst
  exact ⟨p, l1, st, hstops, hat, hfinal, (done.inj hs').symm⟩

/-- **Images outside the cycles** are initialized after their dependencies if and only if those that
the passes leave stand in the chain behind what is left of their dependencies. -/
theorem initializeChain_outside_iff (h : Uninitialized s chain) {fuel : Nat} {garbage : Bool}
    (hrun : initializeChain fuel garbage s = done s') :
    ∃ events, InitializedOnce chain s s' events ∧
      (OrderedOutside s chain events ↔ LeftInOrder s chain) := by
  obtain ⟨p, l1, st, hstops, hat, hfinal, rfl⟩ := h.initializeChain_eq_done hrun
  refine ⟨_, h.initializedOnce (hfinal.finish_perm h.nodup), ?_⟩
  have hlt := h.isChain.lt_length
  have hevents : ∀ im ∈ chain, ¬ OnCycle s im → ((∀ dep ∈ dependencies s im,
      [Event.leaveInit dep, Event.enterInit im].Sublist
        ((Rounds.finish chain st).flatMap (initEvents s))) ↔
      ∀ dep ∈ dependencies s im, [dep, im].Sublist (Rounds.finish chain st)) := by
    intro im him hno
    refine forall₂_congr fun dep hdep => ?_
    refine events_sublist_iff ?_ (hlt dep (h.closed im him dep hdep)) (hlt im him)
    rintro rfl
    exact hno (.single hdep)
  have hordered : OrderedOutside s chain ((Rounds.finish chain st).flatMap (initEvents s)) ↔
      ∀ im ∈ chain, ¬ OnCycle s im → ¬ Rounds.Started (dependencies s) chain p l1 im →
        ∀ dep ∈ dependencies s im, ¬ Rounds.Started (dependencies s) chain p l1 dep →
          [dep, im].Sublist chain := by
    refine forall₂_congr fun im him => forall_congr' fun hno => ?_
    rw [hevents im him hno, hfinal.after_iff hat h.closed him]
  rw [hordered]
  constructor
  · exact fun hleft => ⟨p, l1, hstops, hleft⟩
  · rintro ⟨q, m1, hstops', hleft⟩
    obtain ⟨rfl, rfl⟩ := hstops.unique hstops'
    exact hleft

/-! ## An image and a pair -/

/-- The image 2 depends on one of the pair before it. -/
theorem initializeChain_outside_behind :
    ∃ events, InitializedOnce [0, 1, 2] (chainLinker [1] [0] [0])
        ((chainLinker [1] [0] [0]).initialized [0, 1, 2]) events ∧
      (OrderedOutside (chainLinker [1] [0] [0]) [0, 1, 2] events ↔
        LeftInOrder (chainLinker [1] [0] [0]) [0, 1, 2]) :=
  initializeChain_outside_iff (chainLinker_uninitialized (by decide))
    (rfl : initializeChain 2 false (chainLinker [1] [0] [0]) =
      done ((chainLinker [1] [0] [0]).initialized [0, 1, 2]))

/-- The image 0 depends on one of the pair behind it. -/
def pairBehind : Linker := chainLinker [1] [2] [1]

theorem pairBehind_step {i d : Nat} (h : d ∈ dependencies pairBehind i) :
    (i = 0 ∧ d = 1) ∨ (i = 1 ∧ d = 2) ∨ (i = 2 ∧ d = 1) := by
  rcases i with _ | _ | _ | i
  · exact .inl ⟨rfl, List.mem_singleton.mp h⟩
  · exact .inr (.inl ⟨rfl, List.mem_singleton.mp h⟩)
  · exact .inr (.inr ⟨rfl, List.mem_singleton.mp h⟩)
  · exact absurd h List.not_mem_nil

theorem pairBehind_cycles {c : List ImageId} (h : IsCycle pairBehind c) : c.length = 2 := by
  obtain ⟨hnodup, i, l, rfl, hchain⟩ := h
  rcases l with _ | ⟨j, _ | ⟨k, l⟩⟩
  · have hstep : i ∈ dependencies pairBehind i := by simpa using hchain
    have := pairBehind_step hstep
    omega
  · rfl
  · -- Behind 1 and 2 there is nothing but 1 and 2.
    have hij : j ∈ dependencies pairBehind i := by
      simp only [List.cons_append, List.isChain_cons_cons] at hchain
      exact hchain.1
    have hjk : k ∈ dependencies pairBehind j := by
      simp only [List.cons_append, List.isChain_cons_cons] at hchain
      exact hchain.2.1
    have hnext : ∃ m ∈ l ++ [i], m ∈ dependencies pairBehind k := by
      rcases l with _ | ⟨m, l⟩
      · exact ⟨i, by simp, by simpa using hchain.tail.tail⟩
      · refine ⟨m, by simp, ?_⟩
        simp only [List.cons_append, List.isChain_cons_cons] at hchain
        exact hchain.2.2.1
    obtain ⟨m, hm, hkm⟩ := hnext
    have h1 := pairBehind_step hij
    have h2 := pairBehind_step hjk
    have h3 := pairBehind_step hkm
    have hmj : @Eq Nat m j := by omega
    simp only [List.nodup_cons, List.mem_cons, not_or] at hnodup
    rcases List.mem_append.mp hm with hm | hm
    · exact absurd (hmj ▸ hm) hnodup.2.1.2
    · exact absurd (hmj.symm.trans (List.mem_singleton.mp hm)).symm hnodup.1.1

/-- All cycles have two images, and the image 0, on none of them, is initialized first. -/
theorem initializeChain_not_outside :
    Uninitialized pairBehind [0, 1, 2] ∧ (∀ c, IsCycle pairBehind c → c.length = 2) ∧
      initializeChain 2 false pairBehind = done (pairBehind.initialized [0, 1, 2]) ∧
      ¬ ∃ events, (pairBehind.initialized [0, 1, 2]).trace = pairBehind.trace ++ events ∧
        OrderedOutside pairBehind [0, 1, 2] events := by
  refine ⟨chainLinker_uninitialized (by decide), fun c hc => pairBehind_cycles hc, rfl, ?_⟩
  rintro ⟨events, htrace, hordered⟩
  have hno : ¬ OnCycle pairBehind 0 := by
    intro hcycle
    obtain ⟨i, -, hstep⟩ := TransGen.tail'_iff.mp hcycle
    have := pairBehind_step hstep
    omega
  have hsub := hordered 0 (by simp) hno 1 (by decide)
  rw [show events = pairBehind.trace ++ events from rfl, ← htrace] at hsub
  exact absurd hsub (by decide)

end LibSystem.Lnk
