import LibSystem.Lnk.Slides
import LibSystem.Lnk.LocalRelocs
import LibSystem.Lnk.Loads

/-!
# Program variables

`processSections` follows `environPtr` while the commands are parsed, and the pointer is rebased
only afterwards.
-/

namespace LibSystem.Lnk

open Outcome Mem

/-! ## What is written -/

/-- The `__program_vars` sections. -/
def programVars (obj : MachObject) : List Section :=
  (obj.fSegmentLoadCommands.flatMap fun seg => seg.sections).filter fun sect =>
    decide (sect.sectname = "__program_vars")

/-- Where the section has `environPtr`. -/
def environField (obj : MachObject) (sect : Section) : Addr := sect.addr + obj.fSlide + 12

def environPtr (mem : Mem) (obj : MachObject) (sect : Section) : Addr :=
  mem.load (environField obj sect)

/-- The words that `processSections` stores to. A store may change the next pointer. -/
def environWords (gEnvironPtr : Word) : Mem → List Addr → List Addr
  | _, [] => []
  | mem, field :: fields =>
    mem.load field :: environWords gEnvironPtr (mem.store (mem.load field) gEnvironPtr) fields

def processedWords (gEnvironPtr : Word) (mem : Mem) (obj : MachObject) : List Addr :=
  environWords gEnvironPtr mem ((programVars obj).map (environField obj))

/-- The words that `doRebase` adds the slide to. -/
def doRebaseWords (segmentSlides : MachObject → Word) (mem : Mem) (obj : MachObject) : List Addr :=
  if obj.fIsClassic then
    if obj.fIsSplitSeg then []
    else
      match segActualLoadAddr obj 0 with
      | .done relocBase =>
        relocSites relocBase (segmentSlides obj) (classicRebaseEntries segmentSlides mem obj)
      | _ => []
  else
    match obj.fDyldInfo with
    | some info =>
      rebasedWords mem obj (obj.fLinkEditBase + info.rebaseOff)
        (obj.fLinkEditBase + info.rebaseOff + info.rebaseSize)
    | none => []

/-- The byte is in a segment of the image. -/
def MachObject.Owns (obj : MachObject) (x : Addr) : Prop :=
  ∃ seg ∈ obj.fSegmentLoadCommands, (x - (seg.vmaddr + obj.fSlide)).toNat < seg.vmsize.toNat

def MachObject.OwnsWord (obj : MachObject) (a : Addr) : Prop := ∀ x, InWord a x → obj.Owns x

/-! ## Images and loads -/

/-- The image's pointers as its file has them: each leads into the image where its file puts it,
and is rebased once. `mem` is the memory before `processSections`. -/
structure PointersInFile (obj : MachObject) (mem : Mem) (rebased : List Addr) : Prop where
  inside : ∀ sect ∈ programVars obj, ∀ i < 5,
    (obj.atSlide 0).OwnsWord (mem.load (sect.addr + obj.fSlide + 4 * BitVec.ofNat 32 i))
  covered : ∀ sect ∈ programVars obj, ∀ i < 5,
    rebased.count (sect.addr + obj.fSlide + 4 * BitVec.ofNat 32 i) = 1

/-- The variables are set through the rebased pointers, and nothing outside the image is
written. -/
structure VarsSet (gEnvironPtr : Word) (obj : MachObject) (mem mem' : Mem) (written : List Addr) :
    Prop where
  holds : ∀ sect ∈ programVars obj,
    mem'.load (environPtr mem obj sect + obj.fSlide) = gEnvironPtr
  inside : ∀ a ∈ written, obj.OwnsWord a

/-- The variables lie apart from the pointers, and overlap neither each other nor, at a slide, a
word that is rebased. -/
structure VarsApart (obj : MachObject) (mem : Mem) (rebased : List Addr) : Prop where
  fields : ∀ sect ∈ programVars obj, ∀ sect' ∈ programVars obj,
    Apart (environPtr mem obj sect) (environField obj sect')
  words : ∀ sect ∈ programVars obj, ∀ sect' ∈ programVars obj,
    SameOrApart (environPtr mem obj sect) (environPtr mem obj sect' + obj.fSlide)
  rebased : obj.fSlide ≠ 0 → ∀ a ∈ rebased, ∀ sect ∈ programVars obj,
    SameOrApart a (environPtr mem obj sect + obj.fSlide)

/-- Each pointer leads into the image before it is rebased, and where it leads to afterwards
`gEnvironPtr` happens to come about. -/
def ByAccident (gEnvironPtr : Word) (obj : MachObject) (mem : Mem) (rebased : List Addr) : Prop :=
  ∀ sect ∈ programVars obj, obj.OwnsWord (environPtr mem obj sect) ∧
    (if environPtr mem obj sect + obj.fSlide ∈ (programVars obj).map (environPtr mem obj) then
        gEnvironPtr
      else mem.load (environPtr mem obj sect + obj.fSlide)) +
      BitVec.ofNat 32 (rebased.count (environPtr mem obj sect + obj.fSlide)) * obj.fSlide =
    gEnvironPtr

/-! ## The two passes -/

variable {g : Word} {mem : Mem} {obj : MachObject} {segmentSlides : MachObject → Word}

theorem foldl_environ (fields : List Addr) (mem : Mem) :
    fields.foldl (fun mem field => mem.store (mem.load field) g) mem =
      mem.setAll g (environWords g mem fields) := by
  induction fields generalizing mem with
  | nil => rfl
  | cons field fields ih => exact ih _

theorem processSections_eq :
    processSections g mem obj = mem.setAll g (processedWords g mem obj) := by
  unfold processSections processedWords programVars
  rw [← foldl_environ, List.foldl_map, List.foldl_filter]
  simp only [decide_eq_true_eq]
  rfl

theorem environWords_eq {fields : List Addr}
    (h : ∀ f ∈ fields, ∀ f' ∈ fields, Apart (mem.load f) f') :
    environWords g mem fields = fields.map mem.load := by
  induction fields generalizing mem with
  | nil => rfl
  | cons field fields ih =>
    have hkept : ∀ f ∈ fields, (mem.store (mem.load field) g).load f = mem.load f :=
      fun f hf => load_store_apart _ _ (h field (by simp) f (by simp [hf]))
    rw [environWords, List.map_cons, ih]
    · rw [List.map_congr_left hkept]
    · intro f hf f' hf'
      rw [hkept f hf]
      exact h f (by simp [hf]) f' (by simp [hf'])

theorem processedWords_eq {rebased : List Addr} (h : VarsApart obj mem rebased) :
    processedWords g mem obj = (programVars obj).map (environPtr mem obj) := by
  unfold processedWords
  rw [environWords_eq, List.map_map]
  · rfl
  · simp only [List.forall_mem_map]
    exact h.fields

theorem doRebase_words {sys : System} (hsys : sys.classicRebase = classicRebase segmentSlides)
    {s s' : Linker} {im : ImageId} (hobj : s.object im = done obj)
    (h : doRebase sys s im = done s') :
    s'.mem = s.mem.addAll obj.fSlide (doRebaseWords segmentSlides s.mem obj) := by
  unfold doRebase at h
  rw [hobj, done_bind] at h
  dsimp only at h
  unfold doRebaseWords
  split at h
  · rename_i hclassic
    rw [if_pos hclassic]
    split at h
    · rename_i hsplit
      obtain rfl := done.inj h
      rw [if_pos hsplit]
      rfl
    · rename_i hsplit
      obtain ⟨mem', hmem, h⟩ := bind_eq_done.mp h
      obtain rfl := done.inj h
      rw [hsys] at hmem
      obtain ⟨relocBase, hbase, -⟩ := bind_eq_done.mp hmem
      rw [if_neg hsplit, hbase]
      exact classicRebase_eq hbase hmem
  · rename_i hclassic
    obtain ⟨info, hinfo, h⟩ := bind_eq_done.mp h
    obtain ⟨mem', hmem, h⟩ := bind_eq_done.mp h
    obtain rfl := done.inj h
    rw [if_neg hclassic, ofOption_eq_done.mp hinfo]
    exact readRebase_words hmem

theorem Opens.mem_eq {sys : System} (hsys : sys.classicRebase = classicRebase segmentSlides)
    {fuel : Nat} {path : String} {s s' before after t : Linker} {file : File} {l : ParseLocals}
    (h : Opens sys fuel path s s' file before after)
    (hloop : parseLoop (loadLibrary sys fuel) s.images.length file.commands before
      ⟨sys.compressedSlot s.images.length, 0, 0⟩ = done (t, l))
    (hobj : (t.modify s.images.length (finishParse l)).object s.images.length = done obj) :
    s'.mem = (processSections sys.gEnvironPtr t.mem obj).addAll obj.fSlide
      (doRebaseWords segmentSlides (processSections sys.gEnvironPtr t.mem obj) obj) := by
  obtain ⟨t', l', obj', hloop', hobj', hafter⟩ := parseLoadCommands_loop h.parsed
  obtain ⟨rfl, rfl⟩ := Prod.mk.inj (done.inj (hloop.symm.trans hloop'))
  obtain rfl := done.inj (hobj.symm.trans hobj')
  obtain rfl := hafter
  exact doRebase_words hsys (by exact hobj) h.rebased

/-! ## When the variables are set -/

theorem load_environ (g : Word) {rebased : List Addr} (h : VarsApart obj mem rebased)
    {sect : Section} (hsect : sect ∈ programVars obj) :
    ((processSections g mem obj).addAll obj.fSlide rebased).load
        (environPtr mem obj sect + obj.fSlide) =
      (if environPtr mem obj sect + obj.fSlide ∈ (programVars obj).map (environPtr mem obj) then g
        else mem.load (environPtr mem obj sect + obj.fSlide)) +
        BitVec.ofNat 32 (rebased.count (environPtr mem obj sect + obj.fSlide)) * obj.fSlide := by
  have hset : (processSections g mem obj).load (environPtr mem obj sect + obj.fSlide) =
      if environPtr mem obj sect + obj.fSlide ∈ (programVars obj).map (environPtr mem obj) then g
      else mem.load (environPtr mem obj sect + obj.fSlide) := by
    rw [processSections_eq, processedWords_eq h]
    refine load_setAll ?_
    simp only [List.forall_mem_map]
    exact fun sect' hsect' => h.words sect' hsect' sect hsect
  by_cases hslide : obj.fSlide = 0
  · have hzero : (processSections g mem obj).addAll 0 rebased = processSections g mem obj :=
      addAll_zero _ _
    rw [← hset, hslide, hzero]
    simp
  · rw [load_addAll fun a ha => h.rebased hslide a ha sect hsect, hset]

theorem byAccident_of_unslid {rebased : List Addr} (hfile : PointersInFile obj mem rebased)
    (hslide : obj.fSlide = 0) : ByAccident g obj mem rebased := by
  intro sect hsect
  have hsame : environPtr mem obj sect + obj.fSlide = environPtr mem obj sect := by
    rw [hslide]
    exact BitVec.add_zero _
  have hmem : environPtr mem obj sect ∈ (programVars obj).map (environPtr mem obj) :=
    List.mem_map_of_mem hsect
  constructor
  · have hinside := hfile.inside sect hsect 3 (by decide)
    rw [show obj.atSlide 0 = obj by rw [← hslide]; rfl] at hinside
    exact hinside
  · rw [hsame, if_pos hmem, hslide]
    simp

/-- **Program variables.** They are set through the rebased pointers, and nothing else is written,
exactly if the rebased words are in the image and it is not slid, or each pointer leads into it
unrebased too, and `gEnvironPtr` comes about by accident. -/
theorem program_vars_set_iff (sys : System) (segmentSlides : MachObject → Word) (fuel : Nat)
    (path : String) (s s' before after t : Linker) (file : File) (l : ParseLocals)
    (obj : MachObject) (rebased : List Addr)
    (hsys : sys.classicRebase = classicRebase segmentSlides)
    (hopens : Opens sys fuel path s s' file before after)
    (hloop : parseLoop (loadLibrary sys fuel) s.images.length file.commands before
      ⟨sys.compressedSlot s.images.length, 0, 0⟩ = done (t, l))
    (hobj : (t.modify s.images.length (finishParse l)).object s.images.length = done obj)
    (hrebased : rebased =
      doRebaseWords segmentSlides (processSections sys.gEnvironPtr t.mem obj) obj)
    (hfile : PointersInFile obj t.mem rebased) (hapart : VarsApart obj t.mem rebased) :
    VarsSet sys.gEnvironPtr obj t.mem s'.mem
        (processedWords sys.gEnvironPtr t.mem obj ++ rebased) ↔
      (∀ a ∈ rebased, obj.OwnsWord a) ∧
        (obj.fSlide = 0 ∨ ByAccident sys.gEnvironPtr obj t.mem rebased) := by
  have hmem := hopens.mem_eq hsys hloop hobj
  rw [← hrebased] at hmem
  have hload : ∀ sect ∈ programVars obj, _ := fun _ => load_environ sys.gEnvironPtr hapart
  constructor
  · intro h
    refine ⟨fun a ha => h.inside a (List.mem_append_right _ ha), .inr fun sect hsect => ⟨?_, ?_⟩⟩
    · refine h.inside _ (List.mem_append_left _ ?_)
      rw [processedWords_eq hapart]
      exact List.mem_map_of_mem hsect
    · have hholds := h.holds sect hsect
      rwa [hmem, hload sect hsect] at hholds
  · rintro ⟨hinside, hcond⟩
    have haccident : ByAccident sys.gEnvironPtr obj t.mem rebased := by
      rcases hcond with hslide | haccident
      · exact byAccident_of_unslid hfile hslide
      · exact haccident
    constructor
    · intro sect hsect
      rw [hmem, hload sect hsect]
      exact (haccident sect hsect).2
    · intro a ha
      rcases List.mem_append.mp ha with ha | ha
      · rw [processedWords_eq hapart] at ha
        obtain ⟨sect, hsect, rfl⟩ := List.mem_map.mp ha
        exact (haccident sect hsect).1
      · exact hinside a ha

/-! ## A library at 0x10000

Its pointers are at 0x10020, and the opcodes at 0x11000. It is linked at 0, or fixed at 0x10000,
and `environPtr` is 0x108 from there in the file.
-/

def varsBase (fixed : Bool) : Word := if fixed then 0x10000 else 0

def varsBytes (fixed : Bool) : List Byte :=
  let hi : Byte := if fixed then 1 else 0
  [0, 0, hi, 0] ++ [0, 1, hi, 0] ++ [4, 1, hi, 0] ++ [8, 1, hi, 0] ++ [12, 1, hi, 0]

def varsOpcodes : List Byte := [0x11, 0x20, 0x20, 0x55, 0]

def varsSection (fixed : Bool) : Section := ⟨"__program_vars", 0, varsBase fixed + 0x20, 20⟩

def varsSegments (fixed : Bool) : List SegmentCommand :=
  [⟨"__DATA", varsBase fixed, 0x1000, 0, [varsSection fixed]⟩,
    ⟨"__LINKEDIT", varsBase fixed + 0x1000, 0x1000, 0x1000, []⟩]

def varsFile (fixed : Bool) : File where
  isMachO := true
  commands := (varsSegments fixed).map .segment ++ [.dyldInfo ⟨0x1000, 5, 0, 0⟩]
  reserved := 0x10000
  wire mem := fun a =>
    if a < 0x10020 then mem a
    else if a < 0x10034 then (varsBytes fixed).getD (a - 0x10020).toNat 0
    else if a < 0x11000 then mem a
    else if a < 0x11005 then varsOpcodes.getD (a - 0x11000).toNat 0
    else mem a

def varsSystem (fixed : Bool) : System :=
  { plainSystem [("vars.dylib", varsFile fixed)] with
    gEnvironPtr := 0x9000
    classicRebase := classicRebase noSlides }

def varsStart : Linker :=
  { Linker.initial (fun _ => 0) with images := [MachObject.new], sFirstImage := some 0 }

/-- The image when its commands have been parsed. -/
def varsObject (fixed : Bool) : MachObject :=
  { MachObject.new with
    fSlide := 0x10000 - varsBase fixed
    fHeader := 0x10000
    fFilePath := some "vars.dylib"
    fOrigFilePath := some "vars.dylib"
    fIsSplitSeg := fixed
    fSegmentLoadCommands := varsSegments fixed
    fLinkEditBase := 0x10000
    fDyldInfo := some ⟨0x1000, 5, 0, 0⟩ }

/-- The memory before `processSections`. -/
def varsMem (fixed : Bool) : Mem := (varsFile fixed).wire fun _ => 0

def varsRebased : List Addr := [0x10020, 0x10024, 0x10028, 0x1002c, 0x10030]

/-- The state after the parsing. -/
def varsAfter (fixed : Bool) : Linker :=
  { varsStart with
    mem := processSections 0x9000 (varsMem fixed) (varsObject fixed)
    images := [{ MachObject.new with fNextImage := some 1 }, varsObject fixed]
    sImageCount := 1 }

theorem vars_load (fixed : Bool) : ∃ s' before t l,
    Opens (varsSystem fixed) 0 "vars.dylib" varsStart s' (varsFile fixed) before
        (varsAfter fixed) ∧
      parseLoop (loadLibrary (varsSystem fixed) 0) 1 (varsFile fixed).commands before
        ⟨(varsSystem fixed).compressedSlot 1, 0, 0⟩ = done (t, l) ∧
      (t.modify 1 (finishParse l)).object 1 = done (varsObject fixed) ∧ t.mem = varsMem fixed := by
  have hends : (doRebase (varsSystem fixed) (varsAfter fixed) 1 >>= fun _ => done ()) =
      done () := by
    cases fixed <;> decide +kernel
  obtain ⟨s', hrebase, -⟩ := bind_eq_done.mp hends
  obtain ⟨new, hnew, before, hinsert, ⟨t, l⟩, hloop, hobj, hmem, hparse⟩ :
      ∃ new, instantiateFromFile "vars.dylib" "vars.dylib" (varsFile fixed) varsStart =
          done (1, new) ∧
        ∃ before, insertImage 1 new = done before ∧
        ∃ v, parseLoop (loadLibrary (varsSystem fixed) 0) 1 (varsFile fixed).commands before
            ⟨(varsSystem fixed).compressedSlot 1, 0, 0⟩ = done v ∧
          (v.1.modify 1 (finishParse v.2)).object 1 = done (varsObject fixed) ∧
          v.1.mem = varsMem fixed ∧
          parseLoadCommands (varsSystem fixed) (loadLibrary (varsSystem fixed) 0) 1
            (varsFile fixed).commands before = done (varsAfter fixed) := by
    cases fixed <;> exact ⟨_, rfl, _, rfl, _, rfl, rfl, rfl, rfl⟩
  exact ⟨s', before, t, l, ⟨⟨"vars.dylib", rfl⟩, (inserted hnew hinsert).2, hparse, hrebase⟩, hloop,
    hobj, hmem⟩

theorem vars_rebased (fixed : Bool) :
    doRebaseWords noSlides (processSections 0x9000 (varsMem fixed) (varsObject fixed))
      (varsObject fixed) = varsRebased := by
  cases fixed <;> decide +kernel

theorem programVars_varsObject (fixed : Bool) :
    programVars (varsObject fixed) = [varsSection fixed] := by
  cases fixed <;> decide

theorem vars_pointersInFile (fixed : Bool) :
    PointersInFile (varsObject fixed) (varsMem fixed) varsRebased := by
  have hvars := programVars_varsObject fixed
  constructor
  · rw [hvars]
    intro sect hsect i hi x hx
    obtain rfl := List.mem_singleton.mp hsect
    refine ⟨_, List.mem_cons_self, ?_⟩
    have hlow : ∀ fixed, ∀ i < 5, ((varsMem fixed).load ((varsSection fixed).addr +
        (varsObject fixed).fSlide + 4 * BitVec.ofNat 32 i) - varsBase fixed).toNat < 0x200 := by
      decide
    have hlow := hlow fixed i hi
    unfold InWord at hx
    generalize (varsMem fixed).load ((varsSection fixed).addr +
      (varsObject fixed).fSlide + 4 * BitVec.ofNat 32 i) = a at *
    show (x - (varsBase fixed + 0)).toNat < 0x1000
    bv_omega
  · rw [hvars]
    intro sect hsect
    obtain rfl := List.mem_singleton.mp hsect
    cases fixed <;> decide

theorem environPtr_vars (fixed : Bool) :
    environPtr (varsMem fixed) (varsObject fixed) (varsSection fixed) =
      varsBase fixed + 0x108 := by
  cases fixed <;> decide

theorem vars_apart (fixed : Bool) : VarsApart (varsObject fixed) (varsMem fixed) varsRebased := by
  have hvars := programVars_varsObject fixed
  have hword := environPtr_vars fixed
  constructor
  · rw [hvars]
    intro sect hsect sect' hsect'
    obtain rfl := List.mem_singleton.mp hsect
    obtain rfl := List.mem_singleton.mp hsect'
    rw [hword]
    cases fixed <;> decide
  · rw [hvars]
    intro sect hsect sect' hsect'
    obtain rfl := List.mem_singleton.mp hsect
    obtain rfl := List.mem_singleton.mp hsect'
    rw [hword]
    cases fixed
    · exact Or.inr (by decide)
    · exact Or.inl rfl
  · rw [hvars]
    intro _ a ha sect hsect
    obtain rfl := List.mem_singleton.mp hsect
    rw [hword]
    simp only [varsRebased, List.mem_cons, List.not_mem_nil, or_false] at ha
    rcases ha with rfl | rfl | rfl | rfl | rfl <;> cases fixed
    all_goals exact Or.inr (by decide)

theorem vars_not_owned : ¬ (varsObject false).OwnsWord 0x108 := by
  intro h
  obtain ⟨seg, hseg, hin⟩ := h 0x108 (by unfold InWord; decide)
  simp only [varsObject, varsSegments, List.mem_cons, List.not_mem_nil, or_false] at hseg
  rcases hseg with rfl | rfl
  · exact absurd hin (by decide)
  · exact absurd hin (by decide)

theorem vars_owned : ∀ a ∈ varsRebased, (varsObject true).OwnsWord a := by
  intro a ha x hx
  refine ⟨_, List.mem_cons_self, ?_⟩
  have hlow : ∀ a ∈ varsRebased, (a - 0x10000).toNat < 0x200 := by simp [varsRebased]
  have hlow := hlow a ha
  unfold InWord at hx
  show (x - (0x10000 + 0)).toNat < 0x1000
  bv_omega

/-- The library that is fixed meets the condition, and the one at a slide does not. -/
theorem program_vars_set_iff_slid :
    (∃ s' before,
      Opens (varsSystem true) 0 "vars.dylib" varsStart s' (varsFile true) before (varsAfter true) ∧
      VarsSet 0x9000 (varsObject true) (varsMem true) s'.mem
        (processedWords 0x9000 (varsMem true) (varsObject true) ++ varsRebased)) ∧
    ∃ s' before,
      Opens (varsSystem false) 0 "vars.dylib" varsStart s' (varsFile false) before
        (varsAfter false) ∧
      ¬ VarsSet 0x9000 (varsObject false) (varsMem false) s'.mem
        (processedWords 0x9000 (varsMem false) (varsObject false) ++ varsRebased) := by
  constructor
  · obtain ⟨s', before, t, l, hopens, hloop, hobj, hmem⟩ := vars_load true
    have hiff := program_vars_set_iff (varsSystem true) noSlides 0 "vars.dylib" varsStart s' before
      (varsAfter true) t (varsFile true) l (varsObject true) varsRebased rfl hopens hloop hobj
      (hmem ▸ (vars_rebased true).symm) (hmem ▸ vars_pointersInFile true)
      (hmem ▸ vars_apart true)
    rw [hmem] at hiff
    exact ⟨s', before, hopens, hiff.mpr ⟨vars_owned, .inl (BitVec.sub_self _)⟩⟩
  · obtain ⟨s', before, t, l, hopens, hloop, hobj, hmem⟩ := vars_load false
    have hiff := program_vars_set_iff (varsSystem false) noSlides 0 "vars.dylib" varsStart s'
      before (varsAfter false) t (varsFile false) l (varsObject false) varsRebased rfl hopens hloop
      hobj (hmem ▸ (vars_rebased false).symm) (hmem ▸ vars_pointersInFile false)
      (hmem ▸ vars_apart false)
    rw [hmem] at hiff
    refine ⟨s', before, hopens, fun hset => ?_⟩
    rcases (hiff.mp hset).2 with hslide | haccident
    · exact absurd hslide (by decide)
    · have howned := (haccident (varsSection false) (by decide)).1
      exact vars_not_owned howned

theorem not_program_vars_set :
    ¬ ∀ (sys : System) (segmentSlides : MachObject → Word) (fuel : Nat) (path : String)
      (s s' before after t : Linker) (file : File) (l : ParseLocals) (obj : MachObject)
      (rebased : List Addr), sys.classicRebase = classicRebase segmentSlides →
      Opens sys fuel path s s' file before after →
      parseLoop (loadLibrary sys fuel) s.images.length file.commands before
        ⟨sys.compressedSlot s.images.length, 0, 0⟩ = done (t, l) →
      (t.modify s.images.length (finishParse l)).object s.images.length = done obj →
      rebased = doRebaseWords segmentSlides (processSections sys.gEnvironPtr t.mem obj) obj →
      PointersInFile obj t.mem rebased →
      VarsSet sys.gEnvironPtr obj t.mem s'.mem
        (processedWords sys.gEnvironPtr t.mem obj ++ rebased) := by
  intro h
  obtain ⟨s', before, t, l, hopens, hloop, hobj, hmem⟩ := vars_load false
  have hset := h (varsSystem false) noSlides 0 "vars.dylib" varsStart s' before (varsAfter false)
    t (varsFile false) l (varsObject false) varsRebased rfl hopens hloop hobj
    (hmem ▸ (vars_rebased false).symm) (hmem ▸ vars_pointersInFile false)
  rw [hmem] at hset
  have hwritten : (0x108 : Addr) ∈ processedWords 0x9000 (varsMem false) (varsObject false) := by
    decide
  exact vars_not_owned (hset.inside 0x108 (List.mem_append_left _ hwritten))

end LibSystem.Lnk
