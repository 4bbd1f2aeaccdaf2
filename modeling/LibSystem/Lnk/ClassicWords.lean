import LibSystem.Words
import LibSystem.StraightLine
import LibSystem.Lnk.SpecialOrdinals

/-!
# The words of the classic path

The loops of `classicBindIndirect` and `classicBindExterns` are one list of uses of symbols. Each
use stores one word.
-/

namespace LibSystem.Lnk

open Outcome Mem

/-! ## The uses of an image -/

/-- The pointers of a section. Entry `reserved1 + j` of the indirect table is for pointer `j`. -/
def pointerSlots (cmds : BindCommands) (obj : MachObject) (segment : Nat) (sect : Section × Nat) :
    List ClassicUse :=
  let type := sect.1.flags &&& sectionType
  if type = sNonLazySymbolPointers ∨ type = sLazySymbolPointers then
    (List.range (sect.1.size.toNat / 4)).map fun j =>
      .indirect (sect.1.addr + obj.fSlide + 4 * BitVec.ofNat 32 j)
        (obj.fLinkEditBase + obj.dysymtab.indirectsymoff +
          4 * (cmds.reserved1 segment sect.2 + BitVec.ofNat 32 j))
  else []

def classicSlots (cmds : BindCommands) (obj : MachObject) : List ClassicUse :=
  obj.fSegmentLoadCommands.zipIdx.flatMap fun seg =>
    seg.1.sections.zipIdx.flatMap (pointerSlots cmds obj seg.2)

def externRelocCount (obj : MachObject) : Nat :=
  ((obj.fLinkEditBase + obj.dysymtab.extreloff + 8 * obj.dysymtab.nextrel).toNat -
    (obj.fLinkEditBase + obj.dysymtab.extreloff).toNat) / 8

def externSites (obj : MachObject) (relocBase : Addr) : List ClassicUse :=
  (List.range (externRelocCount obj)).map fun i =>
    .externReloc relocBase (obj.fLinkEditBase + obj.dysymtab.extreloff + 8 * BitVec.ofNat 32 i)

def classicUses (cmds : BindCommands) (obj : MachObject) (relocBase : Addr) : List ClassicUse :=
  classicSlots cmds obj ++ externSites obj relocBase

def classicStep (fuel : Nat) (this : ImageId) (obj : MachObject) (s : Linker) (use : ClassicUse) :
    Outcome Linker :=
  use.bind obj fuel this s

/-- The uses that a run comes to, each with the state before it. -/
def classicSteps (fuel : Nat) (cmds : BindCommands) (s : Linker) (this : ImageId)
    (obj : MachObject) (relocBase : Addr) : List (Linker × ClassicUse) :=
  (Semantics.ofSteps (classicStep fuel this obj)).observe (classicUses cmds obj relocBase) s

/-- The word of a use. -/
def siteOf (p : Linker × ClassicUse) : Addr := p.2.location p.1.mem

/-- `resolve` returns `addr` for the name of the symbol, in the state `t`. -/
def ResolvesTo (fuel : Nat) (obj : MachObject) (t : Linker) (symbol : Addr) (addr : Word) : Prop :=
  ∃ name found t', cstringAt t.mem fuel (obj.fStrings + t.mem.load symbol) = done name ∧
    resolve fuel t name (getLibraryOrdinal (t.mem.load16 (symbol + 6)))
      (if (getLibraryOrdinal (t.mem.load16 (symbol + 6))).toInt > 0 then
        dependencyAt obj (getLibraryOrdinal (t.mem.load16 (symbol + 6)) - 1)
      else none) = done (addr, found, t')

/-- What a use leaves where `old` was, with its tables and its symbol read in the state `t`. -/
inductive ClassicUse.Leaves (fuel : Nat) (obj : MachObject) (t : Linker) (old : Word) :
    ClassicUse → Word → Prop
  | slid {ptrToBind entry : Addr} (h : t.mem.load entry = indirectSymbolLocal) :
      Leaves fuel obj t old (.indirect ptrToBind entry) (old + obj.fSlide)
  | resolved {ptrToBind entry : Addr} {addr : Word} (h : t.mem.load entry ≠ indirectSymbolLocal)
      (hresolve : ResolvesTo fuel obj t (symbol t.mem obj (.indirect ptrToBind entry)) addr) :
      Leaves fuel obj t old (.indirect ptrToBind entry) addr
  | relocated {relocBase reloc : Addr} {addr : Word}
      (hresolve : ResolvesTo fuel obj t (symbol t.mem obj (.externReloc relocBase reloc)) addr) :
      Leaves fuel obj t old (.externReloc relocBase reloc)
        (addr + (old - t.mem.load (symbol t.mem obj (.externReloc relocBase reloc) + 8)))

/-! ## The loops -/

variable {fuel : Nat} {cmds : BindCommands} {this : ImageId} {obj : MachObject} {s s' t t' : Linker}
variable {use : ClassicUse}

theorem bindIndirects_eq (count : Nat) (ptrToBind entry : Addr) (s : Linker) :
    bindIndirects fuel this obj count ptrToBind entry s =
      ((List.range count).map fun j =>
        ClassicUse.indirect (ptrToBind + 4 * BitVec.ofNat 32 j)
          (entry + 4 * BitVec.ofNat 32 j)).foldlM (classicStep fuel this obj) s := by
  induction count generalizing ptrToBind entry s with
  | zero => rfl
  | succ count ih =>
    have hstep : classicStep fuel this obj s
        (.indirect (ptrToBind + 4 * BitVec.ofNat 32 0) (entry + 4 * BitVec.ofNat 32 0)) =
          bindIndirect fuel this obj ptrToBind entry s := by
      simp [classicStep, ClassicUse.bind]
    rw [List.range_succ_eq_map, List.map_cons, List.map_map, List.foldlM_cons, hstep]
    refine bind_congr fun s1 => ?_
    rw [ih]
    congr 1
    refine List.map_congr_left fun j _ => ?_
    rw [Function.comp_apply, Nat.succ_eq_add_one, stride_succ, stride_succ]

theorem bindIndirectSection_eq (segment : Nat) (s : Linker) (sect : Section × Nat) :
    bindIndirectSection fuel cmds this obj segment s sect =
      (pointerSlots cmds obj segment sect).foldlM (classicStep fuel this obj) s := by
  unfold bindIndirectSection pointerSlots
  dsimp only
  split
  · rw [bindIndirects_eq]
    congr 1
    refine List.map_congr_left fun j _ => ?_
    rw [BitVec.mul_add, BitVec.add_assoc _ (4 * cmds.reserved1 segment sect.2)]
  · rfl

theorem classicBindIndirect_eq (h : classicBindIndirect fuel cmds this obj s = done s') :
    (classicSlots cmds obj).foldlM (classicStep fuel this obj) s = done s' := by
  obtain ⟨_, -, h⟩ := bind_eq_done.mp h
  unfold classicSlots
  rw [Semantics.foldlM_flatMap, ← h]
  congr 1
  funext s seg
  rw [Semantics.foldlM_flatMap]
  congr 1
  funext s sect
  exact (bindIndirectSection_eq seg.2 s sect).symm

theorem classicBindExternsLoop_eq (relocBase : Addr) (count : Nat) (reloc : Addr) (s : Linker) :
    classicBindExternsLoop fuel this obj relocBase count reloc s =
      ((List.range count).map fun i =>
        ClassicUse.externReloc relocBase (reloc + 8 * BitVec.ofNat 32 i)).foldlM
          (classicStep fuel this obj) s := by
  induction count generalizing reloc s with
  | zero => rfl
  | succ count ih =>
    have hstep : classicStep fuel this obj s
        (.externReloc relocBase (reloc + 8 * BitVec.ofNat 32 0)) =
          classicBindExtern fuel this obj relocBase reloc s := by
      simp [classicStep, ClassicUse.bind]
    rw [List.range_succ_eq_map, List.map_cons, List.map_map, List.foldlM_cons, hstep]
    refine bind_congr fun s1 => ?_
    rw [ih]
    congr 1
    refine List.map_congr_left fun i _ => ?_
    rw [Function.comp_apply, Nat.succ_eq_add_one, stride_succ]

theorem classicBindExterns_eq {relocBase : Addr}
    (hbase : getClassicRelocBase cmds obj = done relocBase)
    (h : classicBindExterns fuel cmds this obj s = done s') :
    (externSites obj relocBase).foldlM (classicStep fuel this obj) s = done s' := by
  unfold classicBindExterns at h
  rw [hbase, done_bind] at h
  obtain ⟨_, -, h⟩ := bind_eq_done.mp h
  rw [← h]
  exact (classicBindExternsLoop_eq relocBase _ _ s).symm

/-! ## One use -/

theorem bind_stores_pointer (hobj : t.object this = done obj) {address : Addr} {name : CString}
    {addend ordinal : Word}
    (h : bind fuel t this address bindTypePointer name addend ordinal = done t') :
    t'.object this = done obj ∧
      ∃ addr found t1, resolve fuel t name ordinal
          (if ordinal.toInt > 0 then dependencyAt obj (ordinal - 1) else none) =
            done (addr, found, t1) ∧
        t'.mem = t.mem.store address (addr + addend) := by
  unfold bind at h
  rw [hobj, done_bind] at h
  dsimp only at h
  split at h
  · simp at h
  obtain ⟨⟨addr, found, t1⟩, hresolve, h⟩ := bind_eq_done.mp h
  have hsame : t1.mem = t.mem ∧ t1.object this = t.object this := by
    rcases resolve_done hresolve with rfl | ⟨rfl, -⟩
    · exact ⟨rfl, rfl⟩
    · exact ⟨rfl, rfl⟩
  rw [if_pos rfl] at h
  obtain rfl := done.inj h
  refine ⟨hsame.2.trans hobj, addr, found, t1, hresolve, ?_⟩
  dsimp only
  rw [fixLocation_eq, hsame.1]

theorem bindIndirect_leaves (hobj : t.object this = done obj) {ptrToBind entry : Addr}
    (h : bindIndirect fuel this obj ptrToBind entry t = done t') :
    t'.object this = done obj ∧ ∃ word,
      ClassicUse.Leaves fuel obj t (t.mem.load ptrToBind) (.indirect ptrToBind entry) word ∧
        t'.mem = t.mem.store ptrToBind word := by
  unfold bindIndirect at h
  dsimp only at h
  split at h
  · rename_i hlocal
    obtain rfl := done.inj h
    exact ⟨hobj, _, .slid hlocal, rfl⟩
  rename_i hlocal
  split at h
  · simp at h
  split at h
  · simp at h
  obtain ⟨name, hname, h⟩ := bind_eq_done.mp h
  obtain ⟨hobj', addr, found, t1, hresolve, hmem⟩ := bind_stores_pointer hobj h
  rw [show addr + (0 : Word) = addr from BitVec.add_zero addr] at hmem
  exact ⟨hobj', addr, .resolved hlocal ⟨name, found, t1, hname, hresolve⟩, hmem⟩

theorem classicBindExtern_leaves (hobj : t.object this = done obj) {relocBase reloc : Addr}
    (h : classicBindExtern fuel this obj relocBase reloc t = done t') :
    t'.object this = done obj ∧ ∃ word,
      ClassicUse.Leaves fuel obj t (t.mem.load (t.mem.load reloc + relocBase))
          (.externReloc relocBase reloc) word ∧
        t'.mem = t.mem.store (t.mem.load reloc + relocBase) word := by
  unfold classicBindExtern at h
  dsimp only at h
  split at h
  · split at h
    · split at h
      · simp at h
      · obtain ⟨name, hname, h⟩ := bind_eq_done.mp h
        obtain ⟨hobj', addr, found, t1, hresolve, hmem⟩ := bind_stores_pointer hobj h
        exact ⟨hobj', _, .relocated ⟨name, found, t1, hname, hresolve⟩, hmem⟩
    · simp at h
  · simp at h

theorem classicStep_leaves (hobj : t.object this = done obj)
    (h : classicStep fuel this obj t use = done t') :
    t'.object this = done obj ∧ ∃ word,
      use.Leaves fuel obj t (t.mem.load (siteOf (t, use))) word ∧
        t'.mem = t.mem.store (siteOf (t, use)) word := by
  cases use with
  | indirect ptrToBind entry => exact bindIndirect_leaves hobj h
  | externReloc relocBase reloc => exact classicBindExtern_leaves hobj h

/-! ## A run -/

theorem classicSteps_stores {uses : List ClassicUse} (hobj : s.object this = done obj)
    (h : uses.foldlM (classicStep fuel this obj) s = done s') :
    ∃ word : Linker × ClassicUse → Word,
      Stores s.mem (((Semantics.ofSteps (classicStep fuel this obj)).observe uses s).map fun p =>
        (p.1.mem, siteOf p, word p)) s'.mem ∧
      ∀ p ∈ (Semantics.ofSteps (classicStep fuel this obj)).observe uses s,
        p.2.Leaves fuel obj p.1 (p.1.mem.load (siteOf p)) (word p) := by
  -- What a step stores is read back from its result.
  refine ⟨fun p => ((classicStep fuel this obj p.1 p.2).getD p.1).mem.load (siteOf p), ?_⟩
  induction uses generalizing s with
  | nil =>
    obtain rfl := done.inj h
    exact ⟨.nil _, by simp [Semantics.observe]⟩
  | cons use uses ih =>
    rw [List.foldlM_cons] at h
    obtain ⟨s1, hstep, h⟩ := bind_eq_done.mp h
    obtain ⟨hobj1, word, hleaves, hmem⟩ := classicStep_leaves hobj hstep
    obtain ⟨hstores, hrest⟩ := ih hobj1 h
    have hword : s1.mem.load (siteOf (s, use)) = word := by rw [hmem, load_store_self]
    rw [Semantics.observe_ofSteps_cons hstep]
    constructor
    · rw [List.map_cons]
      simp only [hstep, getD, hword]
      exact .cons (hmem ▸ hstores)
    · intro p hp
      rcases List.mem_cons.mp hp with rfl | hp
      · simp only [hstep, getD, hword]
        exact hleaves
      · exact hrest p hp

/-- **Classic binding.** Where the words of the uses have no byte in common, each ends with what
its use leaves there, and every other byte is as it was, in each state on the way too. -/
theorem classic_words (fuel : Nat) (cmds : ImageId → BindCommands) (s : Linker) (this : ImageId)
    (obj : MachObject) (relocBase : Addr) (mem' : Mem) (unresolved : Word)
    (hobj : s.object this = done obj) (hclassic : obj.fIsClassic = true)
    (hbase : getClassicRelocBase (cmds this) obj = done relocBase)
    (hrun : bindSymbols fuel cmds s this = done (mem', unresolved))
    (hapart : ((classicSteps fuel (cmds this) s this obj relocBase).map siteOf).Pairwise Apart) :
    (classicSteps fuel (cmds this) s this obj relocBase).map Prod.snd =
        classicUses (cmds this) obj relocBase ∧
      (∀ p ∈ classicSteps fuel (cmds this) s this obj relocBase,
        p.2.Leaves fuel obj p.1 (s.mem.load (siteOf p)) (mem'.load (siteOf p))) ∧
      ∀ x, (∀ p ∈ classicSteps fuel (cmds this) s this obj relocBase, ¬ InWord (siteOf p) x) →
        mem' x = s.mem x ∧
          ∀ p ∈ classicSteps fuel (cmds this) s this obj relocBase, p.1.mem x = s.mem x := by
  obtain ⟨s', hfold, rfl⟩ : ∃ s', (classicUses (cmds this) obj relocBase).foldlM
      (classicStep fuel this obj) s = done s' ∧ s'.mem = mem' := by
    unfold bindSymbols at hrun
    rw [hobj, done_bind] at hrun
    dsimp only at hrun
    rw [if_pos hclassic] at hrun
    obtain ⟨s1, hindirect, hrun⟩ := bind_eq_done.mp hrun
    obtain ⟨s2, hexterns, hrun⟩ := bind_eq_done.mp hrun
    refine ⟨s2, ?_, (Prod.mk.inj (done.inj hrun)).1⟩
    unfold classicUses
    rw [List.foldlM_append, classicBindIndirect_eq hindirect, done_bind]
    exact classicBindExterns_eq hbase hexterns
  obtain ⟨word, hstores, hleaves⟩ := classicSteps_stores hobj hfold
  refine ⟨Semantics.map_snd_observe_ofSteps hfold, fun p hp => ?_, fun x hx => ?_⟩
  · obtain ⟨hbefore, hafter⟩ := hstores.words (by rw [List.map_map]; exact hapart) _
      (List.mem_map_of_mem hp)
    dsimp only at hbefore hafter
    rw [hafter, ← hbefore]
    exact hleaves p hp
  · have hout := hstores.outside (x := x) fun q hq => by
      obtain ⟨p, hp, rfl⟩ := List.mem_map.mp hq
      exact hx p hp
    exact ⟨hout.1, fun p hp => hout.2 _ (List.mem_map_of_mem hp)⟩

/-! ## Two pointers and a relocation

The first pointer is local. The others are for `_ab`, of which the relocation finds the addend 4.
-/

def wordsMem : Mem := fun a =>
  if a = 0x1110 then 1
  else if a = 0x1203 then 0x80
  else if a = 0x1204 then 1
  else mixedMem a

def wordsObject : MachObject :=
  { MachObject.new with
    fIsClassic := true
    fLinkEditBase := 0x1000
    fSlide := 0x40
    fSymtab := 0x1108
    fStrings := 0x1120
    fDynamicInfo := some (.dysymtab { mixedDysymtab with indirectsymoff := 0x200 })
    fSegmentLoadCommands :=
      [⟨"__DATA", 0x5fc0, 0x100, 0, [⟨"__la_symbol_ptr", sLazySymbolPointers, 0x5fe0, 8⟩]⟩] }

def wordsLinker : Linker :=
  { mixedLinker with
    mem := wordsMem
    images := mixedLinker.images.set 1 wordsObject }

theorem classic_words_sample : ∃ mem',
    bindSymbols 20 mixedCommands wordsLinker 1 = done (mem', 0) ∧
      mem'.load 0x6020 = 0x40 ∧ mem'.load 0x6024 = 0x4020 ∧ mem'.load 0x6010 = 0x4024 ∧
        ∀ p ∈ classicSteps 20 (mixedCommands 1) wordsLinker 1 wordsObject 0x6000,
          p.2.Leaves 20 wordsObject p.1 (wordsMem.load (siteOf p)) (mem'.load (siteOf p)) := by
  have hrun : (bindSymbols 20 mixedCommands wordsLinker 1 >>= fun r =>
      done (r.2, r.1.load 0x6020, r.1.load 0x6024, r.1.load 0x6010)) =
        done (0, 0x40, 0x4020, 0x4024) := rfl
  obtain ⟨⟨mem', unresolved⟩, hrun, hwords⟩ := bind_eq_done.mp hrun
  simp only [done.injEq, Prod.mk.injEq] at hwords
  obtain ⟨rfl, hwords⟩ := hwords
  have hsites : (classicSteps 20 (mixedCommands 1) wordsLinker 1 wordsObject 0x6000).map siteOf =
      [0x6020, 0x6024, 0x6010] := rfl
  have hall := classic_words 20 mixedCommands wordsLinker 1 wordsObject 0x6000 mem' 0 rfl rfl rfl
    hrun (by rw [hsites]; decide)
  exact ⟨mem', hrun, hwords.1, hwords.2.1, hwords.2.2, hall.2.1⟩

end LibSystem.Lnk
