import LibSystem.Lnk.BindCalls

/-!
# The lazy and the non-lazy interpreter

`readLazyBind` is a copy of `readBind` with another default type and fewer opcodes. On the opcodes
that both have, and once the type is set, they run in lockstep.
-/

namespace LibSystem.Lnk

open Outcome

/-! ## The opcodes of a run -/

/-- The opcodes that an interpreter begins, with their positions. -/
def bindLoopOpcodes (op : Binding → Outcome (Bool × Binding)) (stop : Addr) :
    Nat → Binding → List (Addr × Byte)
  | 0, _ => []
  | n + 1, b =>
    if b.pos < stop then
      (b.pos, b.s.mem b.pos &&& bindOpcodeMask) ::
        match op b with
        | .done (false, b') => bindLoopOpcodes op stop n b'
        | _ => []
    else []

def readBindOpcodes (fuel : Nat) (s : Linker) (this : ImageId) (obj : MachObject)
    (start stop : Addr) : List (Addr × Byte) :=
  bindLoopOpcodes (readBindOp fuel this obj stop) stop fuel (.start s start 0)

def readLazyBindOpcodes (fuel : Nat) (s : Linker) (this : ImageId) (obj : MachObject)
    (start stop : Addr) : List (Addr × Byte) :=
  bindLoopOpcodes (readLazyBindOp fuel this obj stop) stop fuel (.start s start bindTypePointer)

/-- The opcodes at which the two differ. -/
def NonLazyOpcode (opcode : Byte) : Prop :=
  opcode = bindOpcodeDone ∨ opcode = bindOpcodeDoBindAddAddrUleb ∨
    opcode = bindOpcodeDoBindAddAddrImmScaled ∨ opcode = bindOpcodeDoBindUlebTimesSkippingUleb

/-- A type is set before the first bind. -/
def TypedBeforeBind (opcodes : List Byte) : Prop :=
  ∀ l1 l2, opcodes = l1 ++ bindOpcodeDoBind :: l2 → bindOpcodeSetTypeImm ∈ l1

/-! ## One opcode -/

/-- The variables of both interpreters: the types may differ until one is set. -/
def TypeApart (typed : Prop) (b b' : Binding) : Prop :=
  b' = { b with type := b'.type } ∧ (typed → b'.type = b.type)

/-- The results of an opcode that ends neither stream. -/
def GoesOn (typed : Prop) (v v' : Bool × Binding) : Prop :=
  v.1 = false ∧ v'.1 = false ∧ TypeApart typed v.2 v'.2

variable {fuel : Nat} {this : ImageId} {obj : MachObject} {stop : Addr} {b b' : Binding}
variable {typed : Prop} {opcode immediate : Byte}

theorem TypeApart.eq (h : TypeApart typed b b') (ht : typed) : b' = b := by
  rw [h.1, h.2 ht]

theorem goesOn_of_untyped {b1 : Binding} {type : Byte} (htype : typed → type = b1.type)
    (hne : opcode ≠ bindOpcodeSetTypeImm) :
    Rel (GoesOn (typed ∨ opcode = bindOpcodeSetTypeImm)) (.done (false, b1))
      (.done (false, { b1 with type := type })) :=
  .done ⟨rfl, rfl, rfl, fun ht => htype (ht.resolve_right hne)⟩

theorem setOpcode_alike {other other' : Outcome (Bool × Binding)} (h : TypeApart typed b b')
    (hother : opcode ≠ bindOpcodeSetTypeImm →
      Rel (GoesOn (typed ∨ opcode = bindOpcodeSetTypeImm)) other other') :
    Rel (GoesOn (typed ∨ opcode = bindOpcodeSetTypeImm))
      (setOpcode fuel obj stop opcode immediate b other)
      (setOpcode fuel obj stop opcode immediate b' other') := by
  obtain ⟨type, rfl⟩ : ∃ type, b' = { b with type := type } := ⟨b'.type, h.1⟩
  have htype : typed → type = b.type := h.2
  unfold setOpcode
  refine Rel.ite (fun hop => ?_) fun _ => ?_
  · exact goesOn_of_untyped htype (by rw [hop]; decide)
  refine Rel.ite (fun hop => ?_) fun _ => ?_
  · exact Rel.bind_same fun v => goesOn_of_untyped htype (by rw [hop]; decide)
  refine Rel.ite (fun _ => ?_) fun hne => ?_
  · exact .done ⟨rfl, rfl, rfl, fun _ => rfl⟩
  refine Rel.ite (fun _ => ?_) fun _ => ?_
  · exact Rel.bind_same fun v => goesOn_of_untyped htype hne
  refine Rel.ite (fun _ => ?_) fun _ => ?_
  · exact Rel.bind_same fun v => goesOn_of_untyped htype hne
  refine Rel.ite (fun _ => ?_) fun _ => ?_
  · refine Rel.bind_same fun start => Rel.bind_same fun v => Rel.bind_same fun segEnd => ?_
    exact goesOn_of_untyped htype hne
  refine Rel.ite (fun _ => ?_) fun _ => ?_
  · exact Rel.bind_same fun pos => goesOn_of_untyped htype hne
  · exact hother hne

theorem doBindOpcode_alike (h : TypeApart typed b b') (hop : ¬ NonLazyOpcode opcode)
    (hne : opcode ≠ bindOpcodeSetTypeImm) (htyped : opcode = bindOpcodeDoBind → typed) :
    Rel (GoesOn (typed ∨ opcode = bindOpcodeSetTypeImm))
      (doBindOpcode stop opcode immediate b (bindOne fuel this obj)
        (.halt "invalid opcode %d for bind nl"))
      (if opcode = bindOpcodeDoBind then do
        let b' ← bindOne fuel this obj 4 b'
        .done (false, b')
      else .halt "invalid opcode %d for bind lazy") := by
  unfold NonLazyOpcode at hop
  unfold doBindOpcode
  refine Rel.ite (fun hbind => ?_) fun _ => ?_
  · obtain rfl := h.eq (htyped hbind)
    exact Rel.bind_same fun b1 => goesOn_of_untyped (fun _ => rfl) hne
  · rw [if_neg fun h => hop (by simp [h]), if_neg fun h => hop (by simp [h]),
      if_neg fun h => hop (by simp [h])]
    exact .halt _ _

theorem ops_alike (h : TypeApart typed b b')
    (hop : ¬ NonLazyOpcode (b.s.mem b.pos &&& bindOpcodeMask))
    (htyped : b.s.mem b.pos &&& bindOpcodeMask = bindOpcodeDoBind → typed) :
    Rel (GoesOn (typed ∨ b.s.mem b.pos &&& bindOpcodeMask = bindOpcodeSetTypeImm))
      (readBindOp fuel this obj stop b) (readLazyBindOp fuel this obj stop b') := by
  obtain ⟨type, rfl⟩ : ∃ type, b' = { b with type := type } := ⟨b'.type, h.1⟩
  have hdone : b.s.mem b.pos &&& bindOpcodeMask ≠ bindOpcodeDone := fun h => hop (Or.inl h)
  unfold readBindOp readLazyBindOp
  dsimp only
  rw [if_neg hdone, if_neg hdone]
  refine Rel.ite (fun hspecial => ?_) fun _ => ?_
  · exact goesOn_of_untyped h.2 (by rw [hspecial]; decide)
  · exact setOpcode_alike ⟨rfl, h.2⟩ fun hne => doBindOpcode_alike ⟨rfl, h.2⟩ hop hne htyped

theorem fixups_alike (h : TypeApart typed b b')
    (hop : ¬ NonLazyOpcode (b.s.mem b.pos &&& bindOpcodeMask))
    (htyped : b.s.mem b.pos &&& bindOpcodeMask = bindOpcodeDoBind → typed) :
    readLazyBindOpFixups b' = readBindOpFixups fuel this obj stop b := by
  have hsame : readLazyBindOpFixups b' = readLazyBindOpFixups b := by
    by_cases hbind : b.s.mem b.pos &&& bindOpcodeMask = bindOpcodeDoBind
    · rw [h.eq (htyped hbind)]
    · unfold readLazyBindOpFixups
      rw [h.1, if_neg hbind, if_neg hbind]
  unfold NonLazyOpcode at hop
  rw [hsame]
  unfold readLazyBindOpFixups readBindOpFixups doBindOpcodeFixups
  split
  · rfl
  · rw [if_neg fun h => hop (by simp [h]), if_neg fun h => hop (by simp [h]),
      if_neg fun h => hop (by simp [h])]

/-! ## The whole stream -/

theorem TypedBeforeBind.tail {opcodes : List Byte} (h : TypedBeforeBind (opcode :: opcodes)) :
    opcode = bindOpcodeSetTypeImm ∨ TypedBeforeBind opcodes := by
  by_cases hset : opcode = bindOpcodeSetTypeImm
  · exact Or.inl hset
  · refine Or.inr fun l1 l2 hl => ?_
    have hmem := h (opcode :: l1) l2 (by rw [hl, List.cons_append])
    exact (List.mem_cons.mp hmem).resolve_left fun heq => hset heq.symm

theorem TypedBeforeBind.head {opcodes : List Byte} (h : TypedBeforeBind (opcode :: opcodes)) :
    opcode ≠ bindOpcodeDoBind := by
  rintro rfl
  exact List.not_mem_nil (h [] opcodes rfl)

/-- Two loops over one stream in lockstep, from states that are `TypeApart`. -/
theorem loops_alike (n : Nat) (flags : Byte) (h : TypeApart typed b b')
    (hops : ∀ o ∈ (bindLoopOpcodes (readBindOp fuel this obj stop) stop n b).map Prod.snd,
      ¬ NonLazyOpcode o)
    (htyped : typed ∨
      TypedBeforeBind ((bindLoopOpcodes (readBindOp fuel this obj stop) stop n b).map Prod.snd)) :
    bindLoopAttempts fuel (readBindOp fuel this obj stop) (readBindOpFixups fuel this obj stop)
        stop n flags b =
      bindLoopAttempts fuel (readLazyBindOp fuel this obj stop) readLazyBindOpFixups
        stop n flags b' ∧
    bindLoopOpcodes (readBindOp fuel this obj stop) stop n b =
      bindLoopOpcodes (readLazyBindOp fuel this obj stop) stop n b' ∧
    Rel (fun v v' => v.s = v'.s) (bindLoop (readBindOp fuel this obj stop) stop n b)
      (bindLoop (readLazyBindOp fuel this obj stop) stop n b') := by
  induction n generalizing b b' typed flags with
  | zero => exact ⟨rfl, rfl, .timeout⟩
  | succ n ih =>
    have hpos : b'.pos = b.pos := by rw [h.1]
    have hs : b'.s = b.s := by rw [h.1]
    have hflags : nextSymbolFlags flags b' = nextSymbolFlags flags b := by rw [h.1]; rfl
    by_cases hlt : b.pos < stop
    · simp only [bindLoopOpcodes, if_pos hlt, List.map_cons] at hops htyped
      have hop := hops _ List.mem_cons_self
      have hbind : b.s.mem b.pos &&& bindOpcodeMask = bindOpcodeDoBind → typed :=
        fun heq => htyped.resolve_right fun ht => ht.head heq
      have hfix : (readLazyBindOpFixups b').map (Binding.attempt fuel flags) =
          (readBindOpFixups fuel this obj stop b).map (Binding.attempt fuel flags) := by
        rw [fixups_alike h hop hbind]
      have hstep : Rel _ (readBindOp fuel this obj stop b) (readLazyBindOp fuel this obj stop b') :=
        ops_alike h hop hbind
      simp only [bindLoopAttempts, bindLoopOpcodes, bindLoop, hpos, hs, if_pos hlt, hfix, hflags]
      generalize hx : readBindOp fuel this obj stop b = x at hstep hops htyped ⊢
      generalize readLazyBindOp fuel this obj stop b' = y at hstep ⊢
      cases hstep with
      | @done v v' hv =>
        obtain ⟨finished, b1⟩ := v
        obtain ⟨finished', b1'⟩ := v'
        obtain ⟨rfl, rfl, h1⟩ : finished = false ∧ finished' = false ∧ _ := hv
        have htyped1 : (typed ∨ b.s.mem b.pos &&& bindOpcodeMask = bindOpcodeSetTypeImm) ∨
            TypedBeforeBind
              ((bindLoopOpcodes (readBindOp fuel this obj stop) stop n b1).map Prod.snd) := by
          rcases htyped with ht | ht
          · exact Or.inl (Or.inl ht)
          · exact ht.tail.imp_left Or.inr
        obtain ⟨hattempts, hopcodes, hrun⟩ := ih (nextSymbolFlags flags b) h1
          (fun o ho => hops o (List.mem_cons_of_mem _ ho)) htyped1
        simp only [hattempts, hopcodes, done_bind]
        exact ⟨trivial, trivial, hrun⟩
      | halt msg msg' => exact ⟨rfl, rfl, .halt msg msg'⟩
      | fault => exact ⟨rfl, rfl, .fault⟩
      | timeout => exact ⟨rfl, rfl, .timeout⟩
    · simp only [bindLoopAttempts, bindLoopOpcodes, bindLoop, hpos, if_neg hlt]
      exact ⟨trivial, trivial, .done hs.symm⟩

/-- **The two interpreters agree.** On opcodes that both have, with a type set before the first
bind, they begin the same opcodes, make the same calls, and end alike with the same linker. -/
theorem readLazyBind_agrees (fuel : Nat) (s : Linker) (this : ImageId) (obj : MachObject)
    (start stop : Addr)
    (hops : ∀ o ∈ (readBindOpcodes fuel s this obj start stop).map Prod.snd, ¬ NonLazyOpcode o)
    (htyped : TypedBeforeBind ((readBindOpcodes fuel s this obj start stop).map Prod.snd)) :
    bindCalls (readBindAttempts fuel s this obj start stop) =
        bindCalls (readLazyBindAttempts fuel s this obj start stop) ∧
      readBindAttempts fuel s this obj start stop =
        readLazyBindAttempts fuel s this obj start stop ∧
      readBindOpcodes fuel s this obj start stop = readLazyBindOpcodes fuel s this obj start stop ∧
      Rel Eq (readBind fuel s this obj start stop) (readLazyBind fuel s this obj start stop) := by
  have hapart : TypeApart False (Binding.start s start 0) (.start s start bindTypePointer) :=
    ⟨rfl, False.elim⟩
  obtain ⟨hattempts, hopcodes, hrun⟩ := loops_alike fuel 0 hapart hops (Or.inr htyped)
  exact ⟨congrArg bindCalls hattempts, hattempts, hopcodes, hrun.bind fun v v' hv => .done hv⟩

/-! The sample's `_ab` is bound to a word. -/

def lazyBytes : List Byte := [0x40, 0x5f, 0x61, 0x62, 0, 0x51, 0x70, 0, 0x90]

def lazyMem : Mem := fun a =>
  if a < 0x1100 then sampleMem a else lazyBytes.getD (a - 0x1100).toNat 0

def lazyObject : MachObject :=
  { sampleObject 0x4000 with fSegmentLoadCommands := [⟨"__DATA", 0x5000, 0x100, 0, []⟩] }

def lazyLinker : Linker := { sampleLinker sampleInfo lazyMem with images := [lazyObject] }

theorem typedBeforeBind_of_set {l1 l2 : List Byte} (h : bindOpcodeDoBind ∉ l1) :
    TypedBeforeBind (l1 ++ bindOpcodeSetTypeImm :: l2) := by
  intro m1 m2 hm
  rcases List.append_eq_append_iff.mp hm with ⟨m, rfl, hcons⟩ | ⟨m, rfl, hcons⟩
  · cases m with
    | nil => exact absurd (List.cons.inj hcons).1 (by decide)
    | cons o m => simp [(List.cons.inj hcons).1]
  · cases m with
    | nil => exact absurd (List.cons.inj hcons).1 (by decide)
    | cons o m => simp [(List.cons.inj hcons).1] at h

theorem readLazyBind_agrees_sample :
    Rel Eq (readBind 20 lazyLinker 0 lazyObject 0x1100 0x1109)
      (readLazyBind 20 lazyLinker 0 lazyObject 0x1100 0x1109) ∧
    (bindCalls (readLazyBindAttempts 20 lazyLinker 0 lazyObject 0x1100 0x1109)).length = 1 := by
  have hopcodes : (readBindOpcodes 20 lazyLinker 0 lazyObject 0x1100 0x1109).map Prod.snd =
      [bindOpcodeSetSymbolTrailingFlagsImm] ++
        bindOpcodeSetTypeImm :: [bindOpcodeSetSegmentAndOffsetUleb, bindOpcodeDoBind] := rfl
  have hcalls :
      (bindCalls (readBindAttempts 20 lazyLinker 0 lazyObject 0x1100 0x1109)).length = 1 := rfl
  obtain ⟨hsame, -, -, hrun⟩ := readLazyBind_agrees 20 lazyLinker 0 lazyObject 0x1100 0x1109
    (by rw [hopcodes]; unfold NonLazyOpcode; simp; decide)
    (by rw [hopcodes]; exact typedBeforeBind_of_set (by simp; decide))
  exact ⟨hrun, hsame ▸ hcalls⟩

end LibSystem.Lnk
