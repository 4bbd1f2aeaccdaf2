import LibSystem.Lnk.Lookup
import LibSystem.Lnk.ExportTrie

/-!
# Flat resolution

What `lnk::resolve` finds in the image chain, and what `MachObject::bind` makes
of the library ordinal.
-/

namespace LibSystem.Lnk

open Outcome LibSystem.Graph

/-- The image has no symbol of that name itself. -/
def Lacks (s : Linker) (name : CString) (im : ImageId) : Prop := Misses (findOwn s name) im

/-- The image itself exports the name. -/
def Exports (s : Linker) (name : CString) (im : ImageId) (sym : Symbol) : Prop :=
  Yields (fun n => findOwn s name n im) (some sym)

/-- The image exports the name itself or through a re-export. -/
def Finds (s : Linker) (name : CString) (im : ImageId) (sym : Symbol) : Prop :=
  Yields (fun n => findExportedSymbol n s name im) (some sym)

/-- The image exports the name neither itself nor through a re-export. -/
def FindsNone (s : Linker) (name : CString) (im : ImageId) : Prop :=
  Yields (fun n => findExportedSymbol n s name im) none

theorem findIn_grows (s : Linker) (name : CString) (im : ImageId) :
    Grows fun n => findIn n s name im :=
  (findExportedSymbol_grows s name im).bind fun _ => Grows.const _

theorem yields_findIn {s : Linker} {name : CString} {im : ImageId}
    {r : Option (ImageId × Symbol)} :
    Yields (fun n => findIn n s name im) r ↔
      ∃ found, Yields (fun n => findExportedSymbol n s name im) found ∧
        r = found.map fun sym => (im, sym) := by
  refine (yields_bind_const (findExportedSymbol_grows s name im)).trans ?_
  simp [eq_comm]

/-! ## The search in the chain -/

/-- `im` is the first of the chain that finds the name. -/
def FirstFinds (s : Linker) (name : CString) (chain : List ImageId) (im : ImageId) (sym : Symbol) :
    Prop :=
  ∃ c1 c2, chain = c1 ++ im :: c2 ∧ (∀ k ∈ c1, FindsNone s name k) ∧ Finds s name im sym

/-- What happens to the state when nothing is found. -/
def Linker.countUnresolved (s : Linker) : Linker :=
  { s with sUnresolvedCount := s.sUnresolvedCount + 1 }

def searchChain (s : Linker) (name : CString) (chain : List ImageId) (fuel : Nat) :
    Outcome (Option (ImageId × Symbol)) :=
  search (findIn fuel s name) chain

theorem searchChain_some {s : Linker} {name : CString} {chain : List ImageId} {im : ImageId}
    {sym : Symbol} :
    Yields (searchChain s name chain) (some (im, sym)) ↔ FirstFinds s name chain im sym := by
  refine (yields_search_some (findIn_grows s name)).trans ?_
  constructor
  · rintro ⟨c1, k, c2, rfl, hmiss, hk⟩
    obtain ⟨found, hfound, heq⟩ := yields_findIn.mp hk
    obtain ⟨sym', rfl, hpair⟩ := Option.map_eq_some_iff.mp heq.symm
    obtain ⟨rfl, rfl⟩ := Prod.mk.inj hpair
    refine ⟨c1, c2, rfl, fun j hj => ?_, hfound⟩
    obtain ⟨found, hfound, heq⟩ := yields_findIn.mp (hmiss j hj)
    obtain rfl := Option.map_eq_none_iff.mp heq.symm
    exact hfound
  · rintro ⟨c1, c2, rfl, hmiss, him⟩
    refine ⟨c1, im, c2, rfl, fun k hk => ?_, yields_findIn.mpr ⟨some sym, him, rfl⟩⟩
    exact yields_findIn.mpr ⟨none, hmiss k hk, rfl⟩

theorem searchChain_none {s : Linker} {name : CString} {chain : List ImageId} :
    Yields (searchChain s name chain) none ↔ ∀ im ∈ chain, FindsNone s name im := by
  refine (yields_search_none (findIn_grows s name)).trans ?_
  refine forall₂_congr fun im _ => ?_
  rw [yields_findIn]
  constructor
  · rintro ⟨found, hfound, heq⟩
    obtain rfl := Option.map_eq_none_iff.mp heq.symm
    exact hfound
  · exact fun h => ⟨none, h, rfl⟩

/-- The address of what was found, or the next placeholder. -/
def answer (s : Linker) (foundImage : Option ImageId) :
    Option (ImageId × Symbol) → Outcome (Word × Option ImageId × Linker)
  | some (im, sym) => do
    let addr ← exportedSymbolAddress s sym.inImage sym
    .done (addr, some im, s)
  | none => .done (s.countUnresolved.sUnresolvedCount, foundImage, s.countUnresolved)

theorem resolve_eq {s : Linker} {chain : List ImageId} (hchain : s.imageChain = done chain)
    (fuel : Nat) (name : CString) (ordinal : Word) (foundImage : Option ImageId) :
    resolve fuel s name ordinal foundImage =
      searchChain s name chain fuel >>= answer s foundImage := by
  unfold resolve
  rw [if_pos (Or.inr trivial), hchain, done_bind]
  unfold searchChain
  congr 1

theorem yields_resolve {s : Linker} {chain : List ImageId} (hchain : s.imageChain = done chain)
    (name : CString) (ordinal : Word) (foundImage : Option ImageId)
    (r : Word × Option ImageId × Linker) :
    Yields (fun n => resolve n s name ordinal foundImage) r ↔
      (∃ im sym addr, FirstFinds s name chain im sym ∧
        exportedSymbolAddress s sym.inImage sym = done addr ∧ r = (addr, some im, s)) ∨
      ((∀ im ∈ chain, FindsNone s name im) ∧
        r = (s.sUnresolvedCount + 1, foundImage, s.countUnresolved)) := by
  have hgrows : Grows (searchChain s name chain) := search_grows (findIn_grows s name) chain
  simp only [resolve_eq hchain]
  rw [yields_bind_const hgrows]
  constructor
  · rintro ⟨found, hfound, hr⟩
    rcases found with _ | ⟨im, sym⟩
    · exact Or.inr ⟨searchChain_none.mp hfound, (done.inj hr).symm⟩
    · obtain ⟨addr, haddr, hr⟩ := bind_eq_done.mp hr
      exact Or.inl ⟨im, sym, addr, searchChain_some.mp hfound, haddr, (done.inj hr).symm⟩
  · rintro (⟨im, sym, addr, hfirst, haddr, rfl⟩ | ⟨hnone, rfl⟩)
    · refine ⟨_, searchChain_some.mpr hfirst, ?_⟩
      rw [answer, haddr]
      rfl
    · exact ⟨none, searchChain_none.mpr hnone, rfl⟩

/-! ## Without cycles -/

/-- Some image of the chain, or one that can be reached from it by re-exports, has the name. -/
def SomeExports (s : Linker) (name : CString) (chain : List ImageId) : Prop :=
  ∃ im ∈ chain, ∃ j sym, Reach (reExports s) im j ∧ Exports s name j sym

def NoneExports (s : Linker) (name : CString) (chain : List ImageId) : Prop :=
  ∀ im ∈ chain, ∀ j, Reach (reExports s) im j → Lacks s name j

/-- `im` is the first in chain order, and `j` the first in preorder below it. -/
def FirstExports (s : Linker) (hac : Acyclic (reExports s)) (name : CString) (chain : List ImageId)
    (im j : ImageId) (sym : Symbol) : Prop :=
  ∃ c1 c2, chain = c1 ++ im :: c2 ∧ NoneExports s name c1 ∧
    FirstIn (findOwn s name) (preorder (reExports_wellFounded hac) im) j sym

theorem findsNone_iff {s : Linker} (hac : Acyclic (reExports s)) {name : CString} {im : ImageId} :
    FindsNone s name im ↔ ∀ j, Reach (reExports s) im j → Lacks s name j := by
  unfold FindsNone
  simp only [findExportedSymbol_eq_dfs]
  exact dfs_none_iff (findOwn_grows s name) (reExports_wellFounded hac)

theorem finds_iff {s : Linker} (hac : Acyclic (reExports s)) {name : CString} {im : ImageId}
    {sym : Symbol} :
    Finds s name im sym ↔
      ∃ j, FirstIn (findOwn s name) (preorder (reExports_wellFounded hac) im) j sym := by
  unfold Finds
  simp only [findExportedSymbol_eq_dfs]
  exact dfs_some_iff (findOwn_grows s name) (reExports_wellFounded hac)

theorem firstFinds_iff {s : Linker} (hac : Acyclic (reExports s)) {name : CString}
    {chain : List ImageId} {im : ImageId} {sym : Symbol} :
    FirstFinds s name chain im sym ↔ ∃ j, FirstExports s hac name chain im j sym := by
  unfold FirstFinds FirstExports NoneExports
  simp only [findsNone_iff hac, finds_iff hac]
  constructor
  · rintro ⟨c1, c2, heq, hmiss, j, hj⟩
    exact ⟨j, c1, c2, heq, hmiss, hj⟩
  · rintro ⟨j, c1, c2, heq, hmiss, hj⟩
    exact ⟨c1, c2, heq, hmiss, j, hj⟩

theorem FirstExports.exports {s : Linker} {hac : Acyclic (reExports s)} {name : CString}
    {chain : List ImageId} {im j : ImageId} {sym : Symbol}
    (h : FirstExports s hac name chain im j sym) :
    im ∈ chain ∧ Reach (reExports s) im j ∧ Exports s name j sym := by
  obtain ⟨c1, c2, rfl, -, l1, l2, heq, -, hj⟩ := h
  exact ⟨by simp, (mem_preorder (reExports_wellFounded hac) im j).mp (by simp [heq]), hj⟩

theorem FirstExports.inImage {s : Linker} {hac : Acyclic (reExports s)} {name : CString}
    {chain : List ImageId} {im j : ImageId} {sym : Symbol}
    (h : FirstExports s hac name chain im j sym) : sym.inImage = j := by
  obtain ⟨n, hn⟩ := h.exports.2.2
  exact findOwn_inImage hn

theorem NoneExports.not_someExports {s : Linker} {name : CString} {chain : List ImageId}
    (h : NoneExports s name chain) : ¬ SomeExports s name chain := by
  rintro ⟨im, him, j, sym, hij, hj⟩
  have := (h im him j hij).unique (findOwn_grows s name j) hj
  simp at this

/-! ## Placeholders -/

/-- Calls of `resolve` one after the other, with the placeholders that they return. Between two
calls everything may change but `sUnresolvedCount`, which no other function writes. -/
inductive ResolveCalls : Word → List Word → Word → Prop where
  | nil (n : Word) : ResolveCalls n [] n
  | found {fuel : Nat} {s s' : Linker} {name : CString} {ordinal : Word}
      {foundImage found : Option ImageId} {addr : Word} {l : List Word} {m : Word}
      (hcall : resolve fuel s name ordinal foundImage = .done (addr, found, s'))
      (hcount : s'.sUnresolvedCount = s.sUnresolvedCount)
      (hrest : ResolveCalls s'.sUnresolvedCount l m) : ResolveCalls s.sUnresolvedCount l m
  | unresolved {fuel : Nat} {s s' : Linker} {name : CString} {ordinal : Word}
      {foundImage found : Option ImageId} {addr : Word} {l : List Word} {m : Word}
      (hcall : resolve fuel s name ordinal foundImage = .done (addr, found, s'))
      (hcount : s'.sUnresolvedCount ≠ s.sUnresolvedCount)
      (hrest : ResolveCalls s'.sUnresolvedCount l m) : ResolveCalls s.sUnresolvedCount (addr :: l) m

/-- The placeholders of `k` failed calls, from the count `n` on. -/
def placeholders (n : Word) (k : Nat) : List Word :=
  (List.range k).map fun i => n + BitVec.ofNat 32 (i + 1)

theorem placeholders_succ (n : Word) (k : Nat) :
    placeholders n (k + 1) = (n + 1) :: placeholders (n + 1) k := by
  unfold placeholders
  rw [List.range_succ_eq_map, List.map_cons, List.map_map]
  congr 1
  refine List.map_congr_left fun i _ => ?_
  simp only [Function.comp_apply, Nat.succ_eq_add_one, BitVec.ofNat_add]
  ac_rfl

theorem resolve_done {fuel : Nat} {s s' : Linker} {name : CString} {ordinal : Word}
    {foundImage found : Option ImageId} {addr : Word}
    (h : resolve fuel s name ordinal foundImage = done (addr, found, s')) :
    s' = s ∨ s' = s.countUnresolved ∧ addr = s.sUnresolvedCount + 1 := by
  cases hchain : s.imageChain with
  | done chain =>
    rcases (yields_resolve hchain name ordinal foundImage _).mp ⟨fuel, h⟩ with
      ⟨im, sym, addr', -, -, heq⟩ | ⟨-, heq⟩
    · simp only [Prod.mk.injEq] at heq
      exact Or.inl heq.2.2
    · simp only [Prod.mk.injEq] at heq
      exact Or.inr ⟨heq.2.2, heq.1⟩
  | halt msg => simp [resolve, hchain] at h
  | fault => simp [resolve, hchain] at h
  | timeout => simp [resolve, hchain] at h

theorem ResolveCalls.eq_placeholders {n m : Word} {l : List Word} (h : ResolveCalls n l m) :
    l = placeholders n l.length := by
  induction h with
  | nil n => rfl
  | found hcall hcount hrest ih => rwa [hcount] at ih
  | unresolved hcall hcount hrest ih =>
    rcases resolve_done hcall with rfl | ⟨rfl, rfl⟩
    · exact absurd rfl hcount
    · rw [List.length_cons, placeholders_succ]
      exact congrArg _ ih

theorem placeholders_nodup_iff (n : Word) (k : Nat) : (placeholders n k).Nodup ↔ k ≤ 2 ^ 32 := by
  unfold placeholders
  rw [List.nodup_map_iff_inj_on List.nodup_range]
  simp only [List.mem_range]
  constructor
  · intro h
    by_contra hk
    have := h 0 (by omega) (2 ^ 32) (by omega) (by simp)
    omega
  · intro hk i hi j hj heq
    have := congrArg BitVec.toNat ((BitVec.add_right_inj n).mp heq)
    simp only [BitVec.toNat_ofNat] at this
    omega

/-! ## The main result -/

theorem noneExports_iff_findsNone {s : Linker} (hac : Acyclic (reExports s)) {name : CString}
    {chain : List ImageId} :
    NoneExports s name chain ↔ ∀ im ∈ chain, FindsNone s name im :=
  forall₂_congr fun _ _ => (findsNone_iff hac).symm

/-- **Flat resolution.** What a call returns, when it returns, and that placeholders differ as
long as the counter does not go round. -/
theorem resolve_exact {s : Linker} {chain : List ImageId} (hchain : s.imageChain = done chain)
    (hac : Acyclic (reExports s)) (name : CString) :
    (∀ fuel ordinal foundImage addr found s',
      resolve fuel s name ordinal foundImage = done (addr, found, s') →
        (SomeExports s name chain ∧ ∃ im j sym, FirstExports s hac name chain im j sym ∧
          exportedSymbolAddress s j sym = done addr ∧ found = some im ∧ s' = s) ∨
        (¬ SomeExports s name chain ∧ found = foundImage ∧ addr = s.sUnresolvedCount + 1 ∧
          s' = { s with sUnresolvedCount := s.sUnresolvedCount + 1 })) ∧
    (∀ ordinal foundImage,
      (∃ fuel r, resolve fuel s name ordinal foundImage = done r) ↔
        (∃ im j sym addr, FirstExports s hac name chain im j sym ∧
          exportedSymbolAddress s j sym = done addr) ∨ NoneExports s name chain) ∧
    ∀ n l m, ResolveCalls n l m → l.length ≤ 2 ^ 32 → l.Nodup := by
  refine ⟨?_, ?_, ?_⟩
  · intro fuel ordinal foundImage addr found s' h
    rcases (yields_resolve hchain name ordinal foundImage _).mp ⟨fuel, h⟩ with
      ⟨im, sym, addr', hfirst, haddr, heq⟩ | ⟨hnone, heq⟩
    · obtain ⟨rfl, rfl, rfl⟩ : addr = addr' ∧ found = some im ∧ s' = s := by simpa using heq
      obtain ⟨j, hj⟩ := (firstFinds_iff hac).mp hfirst
      rw [hj.inImage] at haddr
      obtain ⟨him, hreach, hexp⟩ := hj.exports
      exact Or.inl ⟨⟨im, him, j, sym, hreach, hexp⟩, im, j, sym, hj, haddr, rfl, rfl⟩
    · obtain ⟨rfl, rfl, rfl⟩ :
          addr = s.sUnresolvedCount + 1 ∧ found = foundImage ∧ s' = s.countUnresolved := by
        simpa using heq
      exact Or.inr ⟨((noneExports_iff_findsNone hac).mpr hnone).not_someExports, rfl, rfl, rfl⟩
  · intro ordinal foundImage
    constructor
    · rintro ⟨fuel, r, h⟩
      rcases (yields_resolve hchain name ordinal foundImage r).mp ⟨fuel, h⟩ with
        ⟨im, sym, addr, hfirst, haddr, -⟩ | ⟨hnone, -⟩
      · obtain ⟨j, hj⟩ := (firstFinds_iff hac).mp hfirst
        exact Or.inl ⟨im, j, sym, addr, hj, by rwa [hj.inImage] at haddr⟩
      · exact Or.inr ((noneExports_iff_findsNone hac).mpr hnone)
    · rintro (⟨im, j, sym, addr, hj, haddr⟩ | hnone)
      · obtain ⟨fuel, h⟩ := (yields_resolve hchain name ordinal foundImage _).mpr (Or.inl
          ⟨im, sym, addr, (firstFinds_iff hac).mpr ⟨j, hj⟩, by rwa [hj.inImage], rfl⟩)
        exact ⟨fuel, _, h⟩
      · obtain ⟨fuel, h⟩ := (yields_resolve hchain name ordinal foundImage _).mpr (Or.inr
          ⟨(noneExports_iff_findsNone hac).mp hnone, rfl⟩)
        exact ⟨fuel, _, h⟩
  · intro n l m h hlen
    rw [h.eq_placeholders, placeholders_nodup_iff]
    exact hlen

/-! ## Two images with one name

The chain of the images 0 and 1 over one export trie. The image 2 is the second one's client.
-/

def sampleImage (header : Addr) (next : Option ImageId) (dependencies : List ImageId) :
    MachObject :=
  { sampleObject header with fNextImage := next, fDependencies := dependencies }

def sampleLinker (info : DyldInfoCommand) (mem : Mem) : Linker where
  mem := mem
  images := [{ sampleImage 0x4000 (some 1) [] with fDyldInfo := some info },
    sampleImage 0x8000 none [], sampleImage 0xc000 none [1]]
  sMainExecutable := some 2
  sDylinker := some 0
  sFirstImage := some 0
  sImageCount := 2
  sUnresolvedCount := 0
  sAuxLibs := []
  trace := []

theorem sample_imageChain (info : DyldInfoCommand) (mem : Mem) :
    (sampleLinker info mem).imageChain = done [0, 1] := rfl

theorem sample_acyclic (info : DyldInfoCommand) (mem : Mem) :
    Acyclic (reExports (sampleLinker info mem)) := by
  have hnil : ∀ im, reExports (sampleLinker info mem) im = [] := by
    intro im
    rcases im with _ | _ | _ | im <;> rfl
  intro im h
  obtain ⟨j, hj, -⟩ := Relation.TransGen.head'_iff.mp h
  simp [hnil] at hj

theorem resolve_exact_sample :
    (∀ fuel ordinal foundImage addr found s',
      resolve fuel (sampleLinker sampleInfo sampleMem) symbolAB ordinal foundImage =
          done (addr, found, s') →
        (SomeExports (sampleLinker sampleInfo sampleMem) symbolAB [0, 1] ∧
          ∃ im j sym, FirstExports (sampleLinker sampleInfo sampleMem) (sample_acyclic _ _)
              symbolAB [0, 1] im j sym ∧
            exportedSymbolAddress (sampleLinker sampleInfo sampleMem) j sym = done addr ∧
            found = some im ∧ s' = sampleLinker sampleInfo sampleMem) ∨
        (¬ SomeExports (sampleLinker sampleInfo sampleMem) symbolAB [0, 1] ∧ found = foundImage ∧
          addr = 0 + 1 ∧
            s' = { sampleLinker sampleInfo sampleMem with sUnresolvedCount := 0 + 1 })) ∧
    (∀ ordinal foundImage,
      (∃ fuel r, resolve fuel (sampleLinker sampleInfo sampleMem) symbolAB ordinal foundImage =
          done r) ↔
        (∃ im j sym addr, FirstExports (sampleLinker sampleInfo sampleMem) (sample_acyclic _ _)
            symbolAB [0, 1] im j sym ∧
          exportedSymbolAddress (sampleLinker sampleInfo sampleMem) j sym = done addr) ∨
        NoneExports (sampleLinker sampleInfo sampleMem) symbolAB [0, 1]) ∧
    ∀ n l m, ResolveCalls n l m → l.length ≤ 2 ^ 32 → l.Nodup :=
  resolve_exact (sample_imageChain _ _) (sample_acyclic _ _) symbolAB

/-- A trie whose only symbol is the sample's `_ab`, re-exported from somewhere else. -/
def reexportBytes : List Byte := [0, 1, 0x5f, 0x61, 0x62, 0, 7, 1, 8, 0]

def reexportMem : Mem := fun a =>
  if a < 0x2000 then sampleMem a else reexportBytes.getD (a - 0x2000).toNat 0

def reexportLinker : Linker := sampleLinker ⟨0, 0, 0x1800, 10⟩ reexportMem

theorem resolve_reexport_never (fuel : Nat) (ordinal : Word) (foundImage : Option ImageId)
    (r : Word × Option ImageId × Linker) :
    resolve fuel reexportLinker symbolAB ordinal foundImage ≠ done r := by
  have hhalt : searchChain reexportLinker symbolAB [0, 1] 20 =
      halt "no fucking idea, honestly" := by decide
  have hchain : reexportLinker.imageChain = done [0, 1] := sample_imageChain _ _
  intro h
  rw [resolve_eq hchain] at h
  obtain ⟨found, hfound, -⟩ := bind_eq_done.mp h
  have hgrows : Grows (searchChain reexportLinker symbolAB [0, 1]) :=
    search_grows (findIn_grows reexportLinker symbolAB) [0, 1]
  have heq : searchChain reexportLinker symbolAB [0, 1] fuel =
      searchChain reexportLinker symbolAB [0, 1] 20 :=
    hgrows.unique (by simp [hfound]) (by simp [hhalt])
  simp [hfound, hhalt] at heq

def emptyLinker (count : Word) : Linker :=
  { sampleLinker sampleInfo sampleMem with
    images := [], sFirstImage := none, sUnresolvedCount := count }

theorem resolveCalls_failing (n : Word) (k : Nat) : ∃ m, ResolveCalls n (placeholders n k) m := by
  induction k generalizing n with
  | zero => exact ⟨n, .nil n⟩
  | succ k ih =>
    obtain ⟨m, hm⟩ := ih (n + 1)
    refine ⟨m, ?_⟩
    rw [placeholders_succ]
    have hcall : resolve 0 (emptyLinker n) symbolAB 1 none =
        done (n + 1, none, (emptyLinker n).countUnresolved) := rfl
    refine ResolveCalls.unresolved hcall ?_ hm
    show n + 1 ≠ n
    simp

/-- After 2 ^ 32 failures the counter has gone round. And where the first image of the chain
re-exports the name, nothing comes back although the second one exports it. -/
theorem resolve_not_exact :
    (∃ l m, ResolveCalls 0 l m ∧ ¬ l.Nodup) ∧
    SomeExports reexportLinker symbolAB [0, 1] ∧
      ¬ ∃ fuel r, resolve fuel reexportLinker symbolAB 1 (some 1) = done r := by
  refine ⟨?_, ⟨1, by simp, 1, ⟨0x100e, 1⟩, .refl, 20, by decide⟩, ?_⟩
  · obtain ⟨m, hm⟩ := resolveCalls_failing 0 (2 ^ 32 + 1)
    refine ⟨_, m, hm, ?_⟩
    rw [placeholders_nodup_iff]
    omega
  · rintro ⟨fuel, r, h⟩
    exact resolve_reexport_never fuel 1 (some 1) r h

/-! ## Binding by ordinal -/

theorem resolve_grows (s : Linker) (name : CString) (ordinal : Word) (foundImage : Option ImageId) :
    Grows fun n => resolve n s name ordinal foundImage := by
  cases hchain : s.imageChain with
  | done chain =>
    simp only [resolve_eq hchain]
    exact Grows.bind (search_grows (findIn_grows s name) chain) fun _ => Grows.const _
  | halt msg => intro n; simp [resolve, hchain, Le.refl]
  | fault => intro n; simp [resolve, hchain, Le.refl]
  | timeout => intro n; simp [resolve, hchain, Le.refl]

theorem toInt_ordinal_le {length : Nat} (k : Fin length) :
    ((k.val : Word) + 1 - 1).toInt ≤ length := by
  have hle : ((k.val : Word)).toInt ≤ ((k.val : Word)).toNat := by
    rw [BitVec.toInt_eq_toNat_cond]
    split
    · exact Int.le_refl _
    · omega
  have hmod : ((k.val : Word)).toNat ≤ k.val := by
    rw [BitVec.natCast_eq_ofNat, BitVec.toNat_ofNat]
    exact Nat.mod_le _ _
  rw [BitVec.add_sub_cancel]
  omega

theorem bind_pointer {s : Linker} {this : ImageId} {obj : MachObject}
    (hobj : s.images[this]? = some obj) (k : Fin obj.fDependencies.length) (fuel : Nat)
    (address : Addr) (name : CString) (addend : Word) :
    bind fuel s this address bindTypePointer name addend (k + 1) =
      resolve fuel s name (k + 1)
          (if ((k.val : Word) + 1).toInt > 0 then dependencyAt obj (k + 1 - 1) else none) >>=
        fun r => done { r.2.2 with mem := r.2.2.mem.store address (r.1 + addend) } := by
  unfold bind Linker.object
  rw [hobj, ofOption_some, done_bind]
  dsimp only
  rw [if_neg (Int.not_lt.mpr (toInt_ordinal_le k))]
  congr 1
  funext ⟨value, found, s'⟩
  dsimp only
  rw [if_pos rfl, fixLocation_eq]

/-- **Binding looks in the whole chain.** What a bind by ordinal stores comes from the first image
of the chain that finds the name. That is the image of the ordinal when no other comes before. -/
theorem bind_flat {s : Linker} {chain : List ImageId} (hchain : s.imageChain = done chain)
    {this : ImageId} {obj : MachObject} (hobj : s.images[this]? = some obj)
    (k : Fin obj.fDependencies.length) (hmem : obj.fDependencies.get k ∈ chain) {name : CString}
    {depSym : Symbol} (hfinds : Finds s name (obj.fDependencies.get k) depSym) (address : Addr)
    (addend : Word) :
    (∀ s', (∃ fuel, bind fuel s this address bindTypePointer name addend (k + 1) = done s') ↔
      ∃ im sym value, FirstFinds s name chain im sym ∧
        exportedSymbolAddress s sym.inImage sym = done value ∧
        s' = { s with mem := s.mem.store address (value + addend) }) ∧
    (∀ c1 c2, chain = c1 ++ obj.fDependencies.get k :: c2 → (∀ im ∈ c1, FindsNone s name im) →
      ∀ value, exportedSymbolAddress s depSym.inImage depSym = done value →
        ∃ fuel, bind fuel s this address bindTypePointer name addend (k + 1) =
          done { s with mem := s.mem.store address (value + addend) }) := by
  have hiff : ∀ s', (∃ fuel,
      bind fuel s this address bindTypePointer name addend (k + 1) = done s') ↔
      ∃ im sym value, FirstFinds s name chain im sym ∧
        exportedSymbolAddress s sym.inImage sym = done value ∧
        s' = { s with mem := s.mem.store address (value + addend) } := by
    intro s'
    simp only [bind_pointer hobj k]
    refine (yields_bind_const (resolve_grows s name _ _)).trans ?_
    simp only [yields_resolve hchain]
    constructor
    · rintro ⟨r, ⟨im, sym, value, hfirst, haddr, rfl⟩ | ⟨hnone, -⟩, hr⟩
      · exact ⟨im, sym, value, hfirst, haddr, (done.inj hr).symm⟩
      · have := (hnone _ hmem).unique (findExportedSymbol_grows s name _) hfinds
        simp at this
    · rintro ⟨im, sym, value, hfirst, haddr, rfl⟩
      exact ⟨_, Or.inl ⟨im, sym, value, hfirst, haddr, rfl⟩, rfl⟩
  refine ⟨hiff, fun c1 c2 hsplit hmiss value haddr => ?_⟩
  exact (hiff _).mpr ⟨_, depSym, value, ⟨c1, c2, hsplit, hmiss, hfinds⟩, haddr, rfl⟩

theorem bind_flat_sample :
    (∀ s', (∃ fuel, bind fuel (sampleLinker sampleInfo sampleMem) 2 0x3000 bindTypePointer symbolAB
          0 (0 + 1) = done s') ↔
      ∃ im sym value, FirstFinds (sampleLinker sampleInfo sampleMem) symbolAB [0, 1] im sym ∧
        exportedSymbolAddress (sampleLinker sampleInfo sampleMem) sym.inImage sym = done value ∧
        s' = { sampleLinker sampleInfo sampleMem with
          mem := sampleMem.store 0x3000 (value + 0) }) ∧
    (∀ c1 c2, [0, 1] = c1 ++ 1 :: c2 →
      (∀ im ∈ c1, FindsNone (sampleLinker sampleInfo sampleMem) symbolAB im) →
      ∀ value, exportedSymbolAddress (sampleLinker sampleInfo sampleMem) 1 ⟨0x100e, 1⟩ =
          done value →
        ∃ fuel, bind fuel (sampleLinker sampleInfo sampleMem) 2 0x3000 bindTypePointer symbolAB
          0 (0 + 1) = done { sampleLinker sampleInfo sampleMem with
            mem := sampleMem.store 0x3000 (value + 0) }) := by
  have hobj : (sampleLinker sampleInfo sampleMem).images[2]? =
      some (sampleImage 0xc000 none [1]) := rfl
  have hfinds : Finds (sampleLinker sampleInfo sampleMem) symbolAB 1 ⟨0x100e, 1⟩ :=
    ⟨20, by decide⟩
  exact bind_flat (sample_imageChain _ _) hobj (0 : Fin 1) (by decide) hfinds 0x3000 0

/-- The image 2 asks for its only dependency's symbol, and gets another image's. -/
theorem bind_not_two_level :
    dependencyAt (sampleImage 0xc000 none [1]) (1 - 1) = some 1 ∧
    (findExportedSymbol 20 (sampleLinker sampleInfo sampleMem) symbolAB 1 >>= fun found => do
      let sym ← ofOption found
      exportedSymbolAddress (sampleLinker sampleInfo sampleMem) sym.inImage sym) = done 0x8020 ∧
    (bind 20 (sampleLinker sampleInfo sampleMem) 2 0x3000 bindTypePointer symbolAB 0 1 >>=
      fun s' => done (s'.mem.load 0x3000)) = done 0x4020 := by
  decide

end LibSystem.Lnk
