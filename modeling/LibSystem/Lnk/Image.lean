import LibSystem.Lnk.Util
import Mathlib.Data.List.Perm.Subperm

/-!
# Images and the image chain

The objects of `lnk_image.h` and `lnk_macho.h`, and the globals of `lnk.cpp`.
An `Image*` is an index into the list of all objects ever made, and a null
pointer is `none`.
-/

namespace LibSystem.Lnk

abbrev ImageId := Nat

/-- `struct section`. -/
structure Section where
  sectname : String
  flags : Word
  addr : Word
  size : Word
  deriving DecidableEq

/-- `struct segment_command`, with the sections that follow it. -/
structure SegmentCommand where
  segname : String
  vmaddr : Word
  vmsize : Word
  fileoff : Word
  sections : List Section
  deriving DecidableEq

structure DyldInfoCommand where
  rebaseOff : Word
  rebaseSize : Word
  exportOff : Word
  exportSize : Word
  deriving DecidableEq

structure DysymtabCommand where
  iextdefsym : Word
  nextdefsym : Word
  tocoff : Word
  ntoc : Word
  indirectsymoff : Word
  extreloff : Word
  nextrel : Word
  locreloff : Word
  nlocrel : Word
  deriving DecidableEq, Inhabited

/-- The command that `fDynamicInfo` points at. At the place of an `LC_SYMTAB` command stand the
words that a `dysymtab_command` there would have. -/
inductive DynamicInfo where
  | symtab (asDysymtab : DysymtabCommand)
  | dysymtab (cmd : DysymtabCommand)
  deriving DecidableEq

/-- What is read through the pointer. -/
def DynamicInfo.words : DynamicInfo → DysymtabCommand
  | .symtab asDysymtab => asDysymtab
  | .dysymtab cmd => cmd

/-- `fDepCount` is the length of `fDependencies`. -/
structure Image where
  fNextImage : Option ImageId
  fFilePath : Option String
  fOrigFilePath : Option String
  fDependencies : List ImageId
  fHasInitialized : Bool
  deriving DecidableEq

/-- `fSegmentsCount` and `fReExportCount` are the lengths of their lists. -/
structure MachObject extends Image where
  fSegmentLoadCommands : List SegmentCommand
  /-- `init_address` of the `LC_ROUTINES` command. -/
  fRoutines : Option Word
  fReExports : List ImageId
  fIsClassic : Bool
  fIsSplitSeg : Bool
  fSlide : Word
  fLinkEditBase : Addr
  fHeader : Addr
  fDyldInfo : Option DyldInfoCommand
  fDynamicInfo : Option DynamicInfo
  fSymtab : Addr
  fStrings : Addr
  deriving DecidableEq

/-- The object that `new MachObject()` gives. -/
def MachObject.new : MachObject where
  fNextImage := none
  fFilePath := none
  fOrigFilePath := none
  fDependencies := []
  fHasInitialized := false
  fSegmentLoadCommands := []
  fRoutines := none
  fReExports := []
  fIsClassic := false
  fIsSplitSeg := false
  fSlide := 0
  fLinkEditBase := 0
  fHeader := 0
  fDyldInfo := none
  fDynamicInfo := none
  fSymtab := 0
  fStrings := 0

/-- The words at `*fDynamicInfo`. The pointer has been looked at before. -/
def MachObject.dysymtab (obj : MachObject) : DysymtabCommand :=
  (obj.fDynamicInfo.map DynamicInfo.words).getD default

def MachObject.setNextImage (obj : MachObject) (im : Option ImageId) : MachObject :=
  { obj with fNextImage := im }

/-- What the linker has done to an image, in order. -/
inductive Event where
  | rebase (im : ImageId)
  | bind (im : ImageId)
  | enterInit (im : ImageId)
  | callInitializer (im : ImageId) (fn : Word)
  | leaveInit (im : ImageId)
  deriving DecidableEq

def Event.image : Event → ImageId
  | .rebase im | .bind im | .enterInit im | .callInitializer im _ | .leaveInit im => im

/-- Memory and the globals of `lnk.cpp`. -/
structure Linker where
  mem : Mem
  images : List MachObject
  sMainExecutable : Option ImageId
  sDylinker : Option ImageId
  sFirstImage : Option ImageId
  sImageCount : Word
  sUnresolvedCount : Word
  sAuxLibs : List (Option ImageId)
  trace : List Event

namespace Linker

def object (s : Linker) (im : ImageId) : Outcome MachObject := .ofOption s.images[im]?

def modify (s : Linker) (im : ImageId) (f : MachObject → MachObject) : Linker :=
  { s with images := s.images.modify im f }

def record (s : Linker) (e : Event) : Linker := { s with trace := s.trace ++ [e] }

end Linker

def reExports (s : Linker) (im : ImageId) : List ImageId :=
  match s.images[im]? with
  | some obj => obj.fReExports
  | none => []

/-- The images that `while (im != NULL) im = im->nextImage();` visits. A walk over more
images than there are is in a cycle. -/
def chainFrom (images : List MachObject) : Nat → Option ImageId → Outcome (List ImageId)
  | _, none => .done []
  | 0, some _ => .timeout
  | fuel + 1, some im => do
    let obj ← Outcome.ofOption images[im]?
    let rest ← chainFrom images fuel obj.fNextImage
    .done (im :: rest)

def Linker.imageChain (s : Linker) : Outcome (List ImageId) :=
  chainFrom s.images s.images.length s.sFirstImage

/-! ## The chain as a list -/

/-- The links lead from `p` through `l` to null. -/
def IsChain (images : List MachObject) : Option ImageId → List ImageId → Prop
  | p, [] => p = none
  | p, im :: l => p = some im ∧ ∃ obj, images[im]? = some obj ∧ IsChain images obj.fNextImage l

theorem isChain_of_chainFrom {images : List MachObject} {fuel : Nat} {p : Option ImageId}
    {l : List ImageId} (h : chainFrom images fuel p = .done l) : IsChain images p l := by
  induction fuel generalizing p l with
  | zero =>
    cases p with
    | none =>
      obtain rfl : [] = l := by simpa [chainFrom] using h
      rfl
    | some im => simp [chainFrom] at h
  | succ fuel ih =>
    cases p with
    | none =>
      obtain rfl : [] = l := by simpa [chainFrom] using h
      rfl
    | some im =>
      simp only [chainFrom, Outcome.bind_eq_done, Outcome.ofOption_eq_done, Outcome.done.injEq] at h
      obtain ⟨obj, hobj, rest, hrest, rfl⟩ := h
      exact ⟨rfl, obj, hobj, ih hrest⟩

theorem chainFrom_of_isChain {images : List MachObject} {fuel : Nat} {p : Option ImageId}
    {l : List ImageId} (h : IsChain images p l) (hfuel : l.length ≤ fuel) :
    chainFrom images fuel p = .done l := by
  induction l generalizing fuel p with
  | nil =>
    obtain rfl : p = none := h
    cases fuel <;> rfl
  | cons im l ih =>
    obtain ⟨rfl, obj, hobj, hl⟩ := h
    obtain ⟨fuel, rfl⟩ : ∃ k, fuel = k + 1 := ⟨fuel - 1, by simp at hfuel; omega⟩
    rw [chainFrom, hobj, Outcome.ofOption_some, Outcome.done_bind,
      ih hl (by simpa using hfuel), Outcome.done_bind]

theorem IsChain.unique {images : List MachObject} {p : Option ImageId} {l l' : List ImageId}
    (h : IsChain images p l) (h' : IsChain images p l') : l = l' := by
  induction l generalizing p l' with
  | nil =>
    obtain rfl : p = none := h
    cases l' with
    | nil => rfl
    | cons im l' => exact absurd h'.1 (by simp)
  | cons im l ih =>
    obtain ⟨rfl, obj, hobj, hl⟩ := h
    cases l' with
    | nil => exact absurd h' (by simp [IsChain])
    | cons im' l' =>
      obtain ⟨heq, obj', hobj', hl'⟩ := h'
      obtain rfl : im = im' := by simpa using heq
      obtain rfl : obj = obj' := by simpa [hobj] using hobj'
      rw [ih hl hl']

theorem IsChain.suffix {images : List MachObject} {p : Option ImageId} {l1 l2 : List ImageId}
    (h : IsChain images p (l1 ++ l2)) : ∃ q, IsChain images q l2 := by
  induction l1 generalizing p with
  | nil => exact ⟨p, h⟩
  | cons im l1 ih =>
    obtain ⟨-, obj, -, hl⟩ := h
    exact ih hl

theorem IsChain.lt_length {images : List MachObject} {p : Option ImageId} {l : List ImageId}
    (h : IsChain images p l) : ∀ im ∈ l, im < images.length := by
  induction l generalizing p with
  | nil => simp
  | cons im l ih =>
    obtain ⟨-, obj, hobj, hl⟩ := h
    intro j hj
    rcases List.mem_cons.mp hj with rfl | hj
    · exact (List.getElem?_eq_some_iff.mp hobj).1
    · exact ih hl j hj

theorem IsChain.nodup {images : List MachObject} {p : Option ImageId} {l : List ImageId}
    (h : IsChain images p l) : l.Nodup := by
  induction l generalizing p with
  | nil => exact List.nodup_nil
  | cons im l ih =>
    obtain ⟨rfl, obj, hobj, hl⟩ := id h
    refine List.nodup_cons.mpr ⟨fun hmem => ?_, ih hl⟩
    obtain ⟨l1, l2, rfl⟩ := List.append_of_mem hmem
    obtain ⟨q, hq⟩ := hl.suffix
    obtain rfl : q = some im := hq.1
    have := congrArg List.length (h.unique hq)
    simp at this
    omega

theorem IsChain.length_le {images : List MachObject} {p : Option ImageId} {l : List ImageId}
    (h : IsChain images p l) : l.length ≤ images.length := by
  have hsub : l ⊆ List.range images.length := fun im him => List.mem_range.mpr (h.lt_length im him)
  simpa using (List.subperm_of_subset h.nodup hsub).length_le

theorem Linker.imageChain_eq_done {s : Linker} {l : List ImageId} :
    s.imageChain = .done l ↔ IsChain s.images s.sFirstImage l :=
  ⟨isChain_of_chainFrom, fun h => chainFrom_of_isChain h h.length_le⟩

theorem IsChain.congr {images images' : List MachObject} {p : Option ImageId} {l : List ImageId}
    (h : IsChain images p l) (hlinks : ∀ im ∈ l,
      images'[im]?.map (fun obj => obj.fNextImage) = images[im]?.map fun obj => obj.fNextImage) :
    IsChain images' p l := by
  induction l generalizing p with
  | nil => exact h
  | cons im l ih =>
    obtain ⟨rfl, obj, hobj, hl⟩ := h
    have him := hlinks im (by simp)
    rw [hobj, Option.map_some, Option.map_eq_some_iff] at him
    obtain ⟨obj', hobj', hnext⟩ := him
    refine ⟨rfl, obj', hobj', ?_⟩
    rw [hnext]
    exact ih hl fun j hj => hlinks j (by simp [hj])

end LibSystem.Lnk
