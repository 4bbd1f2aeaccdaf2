import LibSystem.Lnk.BindProgram
import LibSystem.Lnk.Loader
import LibSystem.Lnk.Resolve

/-!
# The order of the binding

Images that keep to words of their own may be bound in any order.
-/

namespace LibSystem.Lnk

open Outcome Access

/-- The system whose binding is `doBindSymbols`. Load commands and headers are not in its memory:
no bind can change them. -/
def System.binding (sys : System) (fuel : Nat) (cmds : ImageId → BindCommands) : System :=
  { sys with bindSymbols := Lnk.bindSymbols fuel cmds }

/-- The bytes of the words that the binding of the image sets. -/
def boundWords (fuel : Nat) (cmds : ImageId → BindCommands) (s : Linker) (im : ImageId) :
    List Addr :=
  (Program.bindSymbols fuel cmds s.forget im).owns s.mem

/-- The bytes of the tables that the binding of the image looks at: any image's export, symbol and
string tables, and what drives its own binding, which is the opcodes or, of a classic image, the
indirect symbols and the relocations. -/
def tableBytes (fuel : Nat) (cmds : ImageId → BindCommands) (s : Linker) (im : ImageId) :
    List Addr :=
  (Program.bindSymbols fuel cmds s.forget im).looks s.mem

variable {fuel : Nat} {cmds : ImageId → BindCommands} {s : Linker} {im : ImageId}

/-! ## Programs and images -/

theorem run_bindSymbols_eq_done {count : Word} {mem : Mem} :
    (Program.bindSymbols fuel cmds s.forget im).run s.mem = done (count, mem) ↔
      bindSymbols fuel cmds s im = done (mem, count) := by
  have hruns : _ = bindSymbols fuel cmds s im >>= fun r => done (r.2, r.1) :=
    Program.runs_bindSymbols fuel cmds s im
  rw [hruns]
  constructor
  · intro h
    obtain ⟨r, hr, h⟩ := bind_eq_done.mp h
    obtain ⟨rfl, rfl⟩ := Prod.mk.inj (done.inj h)
    exact hr
  · intro h
    rw [h]
    rfl

theorem doBindSymbols_binding {sys : System} {mem : Mem} {count : Word}
    (h : bindSymbols fuel cmds s im = done (mem, count)) :
    doBindSymbols (sys.binding fuel cmds) s im =
      done ({ s with mem := mem, sUnresolvedCount := count }.record (.bind im)) := by
  have hbinding : (sys.binding fuel cmds).bindSymbols s im = done (mem, count) := h
  rw [doBindSymbols, hbinding]
  rfl

theorem bindAll_of_runAll {sys : System} {l : List ImageId} {mem : Mem}
    (h : runAll (Program.bindSymbols fuel cmds s.forget) l s.mem =
      done (l.map fun _ => s.sUnresolvedCount, mem)) :
    ∃ s', bindAll (sys.binding fuel cmds) l s = done s' ∧ s'.mem = mem := by
  induction l generalizing s with
  | nil =>
    obtain ⟨-, rfl⟩ := Prod.mk.inj (done.inj h)
    exact ⟨s, rfl, rfl⟩
  | cons im rest ih =>
    obtain ⟨⟨count, mem1⟩, hrun, h⟩ := bind_eq_done.mp h
    obtain ⟨⟨counts, mem2⟩, hrest, h⟩ := bind_eq_done.mp h
    obtain ⟨hcounts, rfl⟩ := Prod.mk.inj (done.inj h)
    obtain ⟨rfl, rfl⟩ := List.cons.inj hcounts
    let s1 := { s with mem := mem1, sUnresolvedCount := s.sUnresolvedCount }.record (.bind im)
    have hbind : doBindSymbols (sys.binding fuel cmds) s im = done s1 :=
      doBindSymbols_binding (run_bindSymbols_eq_done.mp hrun)
    obtain ⟨s', hall, hmem⟩ := ih (s := s1) hrest
    refine ⟨s', ?_, hmem⟩
    rw [bindAll, hbind, done_bind, hall]

/-! ## Any order -/

/-- **The order does not matter.** Images that bind without a halt, to symbols that are found, may
come in any order, if none sets a word that another one sets too or looks at. -/
theorem bindChain_perm (sys : System) (fuel : Nat) (cmds : ImageId → BindCommands) {s : Linker}
    {chain order : List ImageId} (hchain : s.imageChain = done chain)
    (hbinds : ∀ im ∈ chain, ∃ mem, bindSymbols fuel cmds s im = done (mem, s.sUnresolvedCount))
    (hapart : ∀ im ∈ chain, ∀ im' ∈ chain, im ≠ im' → ∀ a ∈ boundWords fuel cmds s im,
      a ∉ tableBytes fuel cmds s im' ∧ a ∉ boundWords fuel cmds s im')
    (horder : order.Perm chain) :
    ∃ s1 s2, bindChain (sys.binding fuel cmds) s = done s1 ∧
      bindAll (sys.binding fuel cmds) order s = done s2 ∧ s2.mem = s1.mem := by
  have hends : ∀ im ∈ chain, ∃ mem,
      (Program.bindSymbols fuel cmds s.forget im).run s.mem = done (s.sUnresolvedCount, mem) := by
    intro im him
    obtain ⟨mem, hbind⟩ := hbinds im him
    exact ⟨mem, run_bindSymbols_eq_done.mpr hbind⟩
  have hpairs : chain.Pairwise fun im im' =>
      Apart (Program.bindSymbols fuel cmds s.forget im)
        (Program.bindSymbols fuel cmds s.forget im') s.mem := by
    have hnodup : chain.Nodup := (Linker.imageChain_eq_done.mp hchain).nodup
    refine hnodup.imp_of_mem fun {im im'} him him' hne => ⟨?_, ?_⟩
    · exact hapart im him im' him' hne
    · exact hapart im' him' im him hne.symm
  obtain ⟨mem, hrun, hrun'⟩ := runAll_perm hends hpairs horder.symm
  have hall : ∃ s1, bindAll (sys.binding fuel cmds) chain s = done s1 ∧ s1.mem = mem :=
    bindAll_of_runAll hrun
  have hall' : ∃ s2, bindAll (sys.binding fuel cmds) order s = done s2 ∧ s2.mem = mem :=
    bindAll_of_runAll hrun'
  obtain ⟨s1, hall, rfl⟩ := hall
  obtain ⟨s2, hall', hmem⟩ := hall'
  refine ⟨s1, s2, ?_, hall', hmem⟩
  rw [bindChain, hchain, done_bind, hall]

/-! ## A compressed and a classic image

Both bind `_ab`, which the compressed one exports.
-/

/-- The opcodes of the one, then the relocation, the symbol and the string of the other. -/
def mixedBytes : List Byte :=
  [0x40, 0x5f, 0x61, 0x62, 0, 0x51, 0x70, 0, 0x90, 0, 0, 0] ++
    [0x10, 0, 0, 0, 0, 0, 0, 0x0c] ++ [0, 0, 0, 0, 1, 0, 0, 0, 0, 0, 0, 0] ++ [0x5f, 0x61, 0x62, 0]

/-- The relocation finds an addend. -/
def mixedMem : Mem := fun a =>
  if a = 0x6010 then 4
  else if a < 0x1100 then sampleMem a
  else mixedBytes.getD (a - 0x1100).toNat 0

def mixedDysymtab : DysymtabCommand :=
  { (default : DysymtabCommand) with extreloff := 0x10c, nextrel := 1 }

def mixedLinker : Linker :=
  { sampleLinker sampleInfo mixedMem with
    images := [
      { sampleObject 0x4000 with
        fNextImage := some 1
        fSegmentLoadCommands := [⟨"__DATA", 0x5000, 0x100, 0, []⟩] },
      { MachObject.new with
        fIsClassic := true
        fLinkEditBase := 0x1000
        fSymtab := 0x1114
        fStrings := 0x1120
        fDynamicInfo := some (.dysymtab mixedDysymtab)
        fSegmentLoadCommands := [⟨"__DATA", 0x6000, 0x100, 0, []⟩] }] }

def mixedCommands (_ : ImageId) : BindCommands where
  bindOff := 0x900
  bindSize := 10
  weakBindOff := 0
  weakBindSize := 0
  lazyBindOff := 0
  lazyBindSize := 0
  initprot _ := 3
  reserved1 _ _ := 0

theorem mixed_boundWords_compressed (a : Addr)
    (h : a ∈ boundWords 20 mixedCommands mixedLinker 0) : 0x5000 ≤ a ∧ a < 0x6000 := by
  have hall : (boundWords 20 mixedCommands mixedLinker 0).all
      (fun a => decide (0x5000 ≤ a ∧ a < 0x6000)) = true := rfl
  exact of_decide_eq_true (List.all_eq_true.mp hall a h)

theorem mixed_boundWords_classic (a : Addr)
    (h : a ∈ boundWords 20 mixedCommands mixedLinker 1) : 0x6000 ≤ a := by
  have hall : (boundWords 20 mixedCommands mixedLinker 1).all
      (fun a => decide (0x6000 ≤ a)) = true := rfl
  exact of_decide_eq_true (List.all_eq_true.mp hall a h)

theorem mixed_tableBytes (im : ImageId) (him : im ∈ [0, 1]) (a : Addr)
    (h : a ∈ tableBytes 20 mixedCommands mixedLinker im) : a < 0x5000 := by
  have hall0 : (tableBytes 20 mixedCommands mixedLinker 0).all
      (fun a => decide (a < 0x5000)) = true := rfl
  have hall1 : (tableBytes 20 mixedCommands mixedLinker 1).all
      (fun a => decide (a < 0x5000)) = true := rfl
  rcases List.mem_pair.mp him with rfl | rfl
  · exact of_decide_eq_true (List.all_eq_true.mp hall0 a h)
  · exact of_decide_eq_true (List.all_eq_true.mp hall1 a h)

theorem bindChain_perm_mixed :
    ∃ s1 s2, bindChain ((plainSystem []).binding 20 mixedCommands) mixedLinker = done s1 ∧
      bindAll ((plainSystem []).binding 20 mixedCommands) [1, 0] mixedLinker = done s2 ∧
        s2.mem = s1.mem := by
  have hchain : mixedLinker.imageChain = done [0, 1] := rfl
  refine bindChain_perm (plainSystem []) 20 mixedCommands hchain ?_ ?_ (.swap 0 1 [])
  · simp only [List.forall_mem_cons]
    exact ⟨⟨_, rfl⟩, ⟨_, rfl⟩, by simp⟩
  · intro im him im' him' hne a ha
    have hwords : 0x5000 ≤ a ∧ (im = 0 → a < 0x6000) ∧ (im = 1 → 0x6000 ≤ a) := by
      rcases List.mem_pair.mp him with rfl | rfl
      · have hword := mixed_boundWords_compressed a ha
        exact ⟨hword.1, fun _ => hword.2, by simp⟩
      · have hword := mixed_boundWords_classic a ha
        exact ⟨by bv_omega, by simp, fun _ => hword⟩
    refine ⟨fun htable => ?_, fun hother => ?_⟩
    · have := mixed_tableBytes im' him' a htable
      bv_omega
    · rcases List.mem_pair.mp him' with rfl | rfl
      · have := mixed_boundWords_compressed a hother
        have := hwords.2.2 ((List.mem_pair.mp him).resolve_left hne)
        bv_omega
      · have := mixed_boundWords_classic a hother
        have := hwords.2.1 ((List.mem_pair.mp him).resolve_right hne)
        bv_omega

end LibSystem.Lnk
