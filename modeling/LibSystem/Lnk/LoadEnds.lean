import LibSystem.Lnk.Chain
import Mathlib.Data.Set.Finite.Basic
import Mathlib.Data.Finset.Card

/-!
# Loading ends

An image is in the chain before its own libraries are loaded, so that each file
that is opened takes a name away from those that may still be opened.
-/

namespace LibSystem.Lnk

open Outcome

variable {sys : System} {fuel : Nat} {s s' : Linker}

/-! ## More fuel -/

theorem parseLoadCommand_le {load load' : String → Linker → Outcome (Option ImageId × Linker)}
    (hload : ∀ name s, Le (load name s) (load' name s)) (this : ImageId) (s : Linker)
    (l : ParseLocals) (cmd : LoadCommand) :
    Le (parseLoadCommand load this s l cmd) (parseLoadCommand load' this s l cmd) := by
  cases cmd with
  | dylib kind name => exact (hload name s).bind fun _ => .refl _
  | _ => exact .refl _

theorem parseLoop_le {load load' : String → Linker → Outcome (Option ImageId × Linker)}
    (hload : ∀ name s, Le (load name s) (load' name s)) (this : ImageId)
    (commands : List LoadCommand) (s : Linker) (l : ParseLocals) :
    Le (parseLoop load this commands s l) (parseLoop load' this commands s l) := by
  induction commands generalizing s l with
  | nil => exact .refl _
  | cons cmd commands ih =>
    exact (parseLoadCommand_le hload this s l cmd).bind fun r => ih r.1 r.2

theorem parseLoadCommands_le {load load' : String → Linker → Outcome (Option ImageId × Linker)}
    (hload : ∀ name s, Le (load name s) (load' name s)) (this : ImageId)
    (commands : List LoadCommand) (s : Linker) :
    Le (parseLoadCommands sys load this commands s)
      (parseLoadCommands sys load' this commands s) := by
  unfold parseLoadCommands
  split
  · exact .refl _
  · exact (parseLoop_le hload _ _ _ _).bind fun _ => .refl _

theorem loadLibraryEx_grows (sys : System) (path : String) (s : Linker) :
    Grows fun fuel => loadLibraryEx sys fuel path s := by
  intro fuel
  induction fuel generalizing path s with
  | zero => exact .timeout _
  | succ fuel ih =>
    have hload : ∀ name s, Le (loadLibrary sys fuel name s) (loadLibrary sys (fuel + 1) name s) :=
      fun name s => (ih name s).bind fun _ => .refl _
    show Le (loadLibraryEx sys (fuel + 1) path s) (loadLibraryEx sys (fuel + 2) path s)
    unfold loadLibraryEx
    split
    · exact .refl _
    · refine (Le.refl _).bind fun found => ?_
      cases found with
      | some im => exact .refl _
      | none =>
        cases openLibrary sys path with
        | none => exact .refl _
        | some lib =>
          refine (Le.refl _).bind fun new => (Le.refl _).bind fun before => ?_
          exact (parseLoadCommands_le hload _ _ _).bind fun after => .refl _

theorem loadLibrary_grows (sys : System) (path : String) (s : Linker) :
    Grows fun fuel => loadLibrary sys fuel path s :=
  (loadLibraryEx_grows sys path s).bind fun _ => .const _

/-! ## The parts of a load -/

theorem ofOption_ne_timeout {α : Type} (o : Option α) : ofOption o ≠ timeout := by
  cases o <;> simp

theorem instantiateFromFile_ne_timeout (nn path : String) (file : File) (s : Linker) :
    instantiateFromFile nn path file s ≠ timeout := by
  unfold instantiateFromFile
  dsimp only
  repeat' split
  all_goals simp

theorem insertImage_ne_timeout (lib : ImageId) (s : Linker) : insertImage lib s ≠ timeout := by
  refine bind_ne_timeout.mpr ⟨ofOption_ne_timeout _, fun first _ => ?_⟩
  exact bind_ne_timeout.mpr ⟨ofOption_ne_timeout _, by simp⟩

theorem doRebase_ne_timeout (hclassic : ∀ mem obj, sys.classicRebase mem obj ≠ timeout)
    (s : Linker) (im : ImageId) : doRebase sys s im ≠ timeout := by
  refine bind_ne_timeout.mpr ⟨ofOption_ne_timeout _, fun obj _ => ?_⟩
  dsimp only
  split
  · split
    · simp
    · exact bind_ne_timeout.mpr ⟨hclassic _ _, by simp⟩
  · refine bind_ne_timeout.mpr ⟨ofOption_ne_timeout _, fun info _ => ?_⟩
    exact bind_ne_timeout.mpr ⟨readRebase_ne_timeout _ _ _ _, by simp⟩

section Parsing

variable {load : String → Linker → Outcome (Option ImageId × Linker)} {P : Linker → Prop}
  (hload : ∀ name s, P s → load name s ≠ timeout)
  (hloads : ∀ name s r s', load name s = done (r, s') → LoadsRebased s s')
  (hkeep : ∀ s s', P s → Loads s s' → P s')

include hload

theorem parseLoadCommand_ne_timeout (hs : P s) (this : ImageId) (l : ParseLocals)
    (cmd : LoadCommand) : parseLoadCommand load this s l cmd ≠ timeout := by
  cases cmd with
  | segment seg =>
    refine bind_ne_timeout.mpr ⟨ofOption_ne_timeout _, fun obj _ => ?_⟩
    split <;> simp
  | dylib kind name =>
    refine bind_ne_timeout.mpr ⟨hload name s hs, fun r _ => ?_⟩
    dsimp only
    split
    · simp
    · refine bind_ne_timeout.mpr ⟨ofOption_ne_timeout _, fun obj _ => ?_⟩
      split <;> simp
  | symtab stroff symoff asDysymtab =>
    refine bind_ne_timeout.mpr ⟨ofOption_ne_timeout _, fun obj _ => ?_⟩
    split <;> simp
  | routines | dysymtab | dyldInfo | other => simp [parseLoadCommand]

include hloads hkeep

theorem parseLoop_ne_timeout (hs : P s) (this : ImageId) (commands : List LoadCommand)
    (l : ParseLocals) : parseLoop load this commands s l ≠ timeout := by
  induction commands generalizing s l with
  | nil => simp [parseLoop]
  | cons cmd commands ih =>
    refine bind_ne_timeout.mpr ⟨parseLoadCommand_ne_timeout hload hs this l cmd, fun r hr => ?_⟩
    exact ih (hkeep s r.1 hs (parseLoadCommand_loads hloads hr).1) r.2

theorem parseLoadCommands_ne_timeout (hs : P s) (this : ImageId) (commands : List LoadCommand) :
    parseLoadCommands sys load this commands s ≠ timeout := by
  unfold parseLoadCommands
  split
  · simp
  · refine bind_ne_timeout.mpr ⟨parseLoop_ne_timeout hload hloads hkeep hs this commands _, ?_⟩
    exact fun r _ => bind_ne_timeout.mpr ⟨ofOption_ne_timeout _, by simp⟩

end Parsing

/-! ## The measure -/

/-- There is a chain, and each file that can be opened has its name in `names` or has been loaded
under it. -/
def MayOpen (sys : System) (names : Finset String) (s : Linker) : Prop :=
  (∃ first rest, IsChain s.images s.sFirstImage (first :: rest)) ∧
    ∀ name, openLibrary sys name ≠ none → name ∈ names ∨ IsLoaded s name

theorem MayOpen.loads {names : Finset String} (h : MayOpen sys names s) (hloads : Loads s s') :
    MayOpen sys names s' := by
  obtain ⟨⟨first, rest, hc⟩, hnames⟩ := h
  exact ⟨⟨first, _, hloads.chain first rest hc⟩,
    fun name hname => (hnames name hname).imp_right (hloads.isLoaded hc)⟩

theorem MayOpen.inserted {names : Finset String} {path : String} (h : MayOpen sys names s)
    (hinserted : Inserted s s' path) : MayOpen sys (names.erase path) s' := by
  obtain ⟨hchain, hnames⟩ := h.loads hinserted.loads
  refine ⟨hchain, fun name hname => ?_⟩
  by_cases heq : name = path
  · obtain ⟨first, rest, hc⟩ := h.1
    subst heq
    refine .inr ((isLoaded_iff (hinserted.loads.chain first rest hc)).mpr
      ⟨s.images.length, ?_, hinserted.path⟩)
    have hnew : s.images.length ∈ newImages s s' :=
      mem_newImages.mpr ⟨Nat.le_refl _, by rw [hinserted.length]; omega⟩
    simp [hnew]
  · exact (hnames name hname).imp_left fun hmem => Finset.mem_erase.mpr ⟨heq, hmem⟩

theorem loadLibraryEx_ne_timeout (hclassic : ∀ mem obj, sys.classicRebase mem obj ≠ timeout)
    {names : Finset String} (h : MayOpen sys names s) (hfuel : names.card < fuel)
    (path : String) : loadLibraryEx sys fuel path s ≠ timeout := by
  induction fuel generalizing names s path with
  | zero => omega
  | succ fuel ih =>
    obtain ⟨⟨first, rest, hc⟩, hnames⟩ := id h
    unfold loadLibraryEx
    split
    · simp
    have hfind : findLoaded s path ≠ timeout := by
      unfold findLoaded
      rw [Linker.imageChain_eq_done.mpr hc]
      simp
    refine bind_ne_timeout.mpr ⟨hfind, fun found hfound => ?_⟩
    cases found with
    | some im => simp
    | none =>
      dsimp only
      split
      · simp
      rename_i nn file hopen
      refine bind_ne_timeout.mpr ⟨instantiateFromFile_ne_timeout _ _ _ _, fun new hnew => ?_⟩
      obtain ⟨lib, s1⟩ := new
      refine bind_ne_timeout.mpr ⟨insertImage_ne_timeout _ _, fun before hins => ?_⟩
      obtain ⟨rfl, hinserted⟩ := inserted hnew hins
      have hmem : path ∈ names := by
        refine (hnames path (by simp [hopen])).resolve_right fun hloaded => ?_
        exact (isLoaded_iff_findLoaded hfound).mp hloaded rfl
      have hcard : (names.erase path).card < fuel := by
        have := Finset.card_erase_lt_of_mem hmem
        omega
      have hload : ∀ name s, MayOpen sys (names.erase path) s →
          loadLibrary sys fuel name s ≠ timeout :=
        fun name s hs => bind_ne_timeout.mpr ⟨ih hs hcard name, by simp⟩
      refine bind_ne_timeout.mpr ⟨parseLoadCommands_ne_timeout hload
        (fun _ _ _ _ hload => loadLibrary_loads hload) (fun _ _ hs hl => hs.loads hl)
        (h.inserted hinserted) s.images.length file.commands, fun after _ => ?_⟩
      exact bind_ne_timeout.mpr ⟨doRebase_ne_timeout hclassic _ _, by simp⟩

theorem openable_finite (hfiles : {nn | sys.files nn ≠ none}.Finite) :
    {path | openLibrary sys path ≠ none}.Finite := by
  have hpre : ∀ pre : String, {path | sys.files (pre ++ path) ≠ none}.Finite := by
    intro pre
    refine Set.Finite.preimage (f := (pre ++ ·)) ?_ hfiles
    intro a _ b _ hab
    exact (String.append_right_inj pre).mp hab
  refine (((hpre "").union (hpre "/System/")).union (hpre "/usr/lib/")).subset fun path hpath => ?_
  obtain ⟨lib, hlib⟩ := Option.ne_none_iff_exists'.mp hpath
  obtain ⟨pre, hmem, hpre⟩ := List.exists_of_findSome?_eq_some hlib
  have hfile : sys.files (pre ++ path) ≠ none := by
    intro hnone
    simp [hnone] at hpre
  simp only [List.mem_cons, List.not_mem_nil, or_false] at hmem
  rcases hmem with rfl | rfl | rfl
  · exact .inl (.inl hfile)
  · exact .inl (.inr hfile)
  · exact .inr hfile

theorem Chained.origPath_injective {asked : String → Prop} {first : ImageId} {rest : List ImageId}
    (h : Chained sys asked s first rest) {im im' : ImageId} {path : String}
    (him : origPath s im = some path) (him' : origPath s im' = some path) : im = im' := by
  have hnodup := h.distinct
  exact List.inj_on_of_nodup_map hnodup (h.covers im (by simp [him]))
    (h.covers im' (by simp [him'])) (him.trans him'.symm)

/-! ## The loads of the startup -/

/-- `_main` up to its last load, with the main executable. -/
def startupImages (sys : System) (fuel : Nat) (mem : Mem) : Outcome (ImageId × Linker) := do
  let (dylinker, s) := instantiateFromMemory sys.linkerHeader sys.linkerSlide (.initial mem)
  let s := { s with sDylinker := some dylinker }
  let s ← parseLoadCommands sys (loadLibrary sys fuel) dylinker sys.linkerCommands s
  let s := { s with sImageCount := s.sImageCount + 1, sFirstImage := some dylinker }
  let s ← loadAuxiliarySystemLibraries sys fuel auxiliaryLibraries s
  let (main, s) := instantiateFromMemory sys.mainHeader 0 s
  let s := { s with sMainExecutable := some main }
  let s ← parseLoadCommands sys (loadLibrary sys fuel) main sys.mainCommands s
  let (_, s) ← loadLibrary sys fuel casPath s
  .done (main, s)

theorem startupLoads_eq_images (sys : System) (fuel : Nat) (mem : Mem) :
    startupLoads sys fuel mem = startupImages sys fuel mem >>= fun v =>
      bindChain sys v.2 >>= fun s => doBindSymbols sys s v.1 >>= fun s => .done (v.1, s) := by
  unfold startupLoads startupImages
  simp only [bind_bind, done_bind]

/-- What is seen after a run that has returned. -/
def afterwards {α : Type} (x : Outcome α) (moments : α → List Linker) : List Linker :=
  match x with
  | .done a => moments a
  | _ => []

def auxiliaryMoments (sys : System) (fuel : Nat) : List String → Linker → List Linker
  | [], _ => []
  | path :: rest, s =>
    loadMoments sys fuel path s ++ afterwards (loadLibrary sys fuel path s) fun r =>
      auxiliaryMoments sys fuel rest { r.2 with sAuxLibs := r.2.sAuxLibs ++ [r.1] }

/-- The moments of these loads. Before there is a chain nothing is loaded. -/
def startupMoments (sys : System) (fuel : Nat) (mem : Mem) : List Linker :=
  let dylinker := instantiateFromMemory sys.linkerHeader sys.linkerSlide (.initial mem)
  let s := { dylinker.2 with sDylinker := some dylinker.1 }
  afterwards (parseLoadCommands sys (loadLibrary sys fuel) dylinker.1 sys.linkerCommands s) fun s =>
  let s := { s with sImageCount := s.sImageCount + 1, sFirstImage := some dylinker.1 }
  auxiliaryMoments sys fuel auxiliaryLibraries s ++
  afterwards (loadAuxiliarySystemLibraries sys fuel auxiliaryLibraries s) fun s =>
  let main := instantiateFromMemory sys.mainHeader 0 s
  let s := { main.2 with sMainExecutable := some main.1 }
  parseMoments (loadLibrary sys fuel) (loadMoments sys fuel) main.1 sys.mainCommands s
    ⟨sys.compressedSlot main.1, 0, 0⟩ ++
  afterwards (parseLoadCommands sys (loadLibrary sys fuel) main.1 sys.mainCommands s) fun s =>
  loadMoments sys fuel casPath s

theorem mem_afterwards {α : Type} {x : Outcome α} {moments : α → List Linker} {t : Linker} :
    t ∈ afterwards x moments ↔ ∃ a, x = done a ∧ t ∈ moments a := by
  unfold afterwards
  cases x with
  | done a => simp
  | halt | fault | timeout => simp

theorem loadAuxiliarySystemLibraries_grows (sys : System) (paths : List String) (s : Linker) :
    Grows fun fuel => loadAuxiliarySystemLibraries sys fuel paths s := by
  intro fuel
  induction paths generalizing s with
  | nil => exact .refl _
  | cons path paths ih => exact (loadLibrary_grows sys path s fuel).bind fun r => ih _

theorem startupImages_grows (sys : System) (mem : Mem) :
    Grows fun fuel => startupImages sys fuel mem := by
  intro fuel
  have hload : ∀ name s, Le (loadLibrary sys fuel name s) (loadLibrary sys (fuel + 1) name s) :=
    fun name s => loadLibrary_grows sys name s fuel
  refine (parseLoadCommands_le hload _ _ _).bind fun s1 => ?_
  refine (loadAuxiliarySystemLibraries_grows sys auxiliaryLibraries _ fuel).bind fun s2 => ?_
  refine (parseLoadCommands_le hload _ _ _).bind fun s3 => ?_
  exact (hload casPath s3).bind fun _ => .refl _

theorem loadLibrary_unlinked_ne_timeout (hfirst : s.sFirstImage = none) (path : String) :
    loadLibrary sys (fuel + 1) path s ≠ timeout := by
  refine bind_ne_timeout.mpr ⟨?_, by simp⟩
  unfold loadLibraryEx
  split
  · simp
  refine bind_ne_timeout.mpr ⟨?_, fun found _ => ?_⟩
  · unfold findLoaded
    rw [Linker.imageChain_eq_done.mpr (show IsChain s.images s.sFirstImage [] from hfirst)]
    simp
  · cases found with
    | some im => simp
    | none =>
      dsimp only
      split
      · simp
      refine bind_ne_timeout.mpr ⟨instantiateFromFile_ne_timeout _ _ _ _, fun new hnew => ?_⟩
      obtain ⟨-, hfirst', -⟩ := instantiateFromFile_eq_done hnew
      refine bind_ne_timeout.mpr ⟨insertImage_ne_timeout _ _, fun before hins => ?_⟩
      -- There is no image to put the new one behind.
      simp [insertImage, hfirst', hfirst] at hins

section Startup

variable {names : Finset String}
  (hload : ∀ name s, MayOpen sys names s → loadLibrary sys fuel name s ≠ timeout)
include hload

theorem loadAuxiliarySystemLibraries_ne_timeout (h : MayOpen sys names s) (paths : List String) :
    loadAuxiliarySystemLibraries sys fuel paths s ≠ timeout := by
  induction paths generalizing s with
  | nil => simp [loadAuxiliarySystemLibraries]
  | cons path paths ih =>
    refine bind_ne_timeout.mpr ⟨hload path s h, fun r hr => ih ?_⟩
    obtain ⟨hchain, hnames⟩ := h.loads (loadLibrary_loads hr).1
    exact ⟨hchain, hnames⟩

theorem parse_ne_timeout (h : MayOpen sys names s) (this : ImageId) (commands : List LoadCommand) :
    parseLoadCommands sys (loadLibrary sys fuel) this commands s ≠ timeout :=
  parseLoadCommands_ne_timeout hload (fun _ _ _ _ hload => loadLibrary_loads hload)
    (fun _ _ hs hl => hs.loads hl) h this commands

end Startup

/-- No two images have been made for one path. -/
def OnePerPath (s : Linker) : Prop :=
  ∀ im im' path, origPath s im = some path → origPath s im' = some path → im = im'

theorem MayOpen.of_chained (hopen : {path | openLibrary sys path ≠ none}.Finite)
    {asked : String → Prop} {first : ImageId} {rest : List ImageId}
    (h : Chained sys asked s first rest) : MayOpen sys hopen.toFinset s :=
  ⟨⟨first, rest, h.chain⟩, fun _ hname => .inl (hopen.mem_toFinset.mpr hname)⟩

theorem startupImages_ne_timeout (hclassic : ∀ mem obj, sys.classicRebase mem obj ≠ timeout)
    (hopen : {path | openLibrary sys path ≠ none}.Finite) (mem : Mem) :
    startupImages sys (hopen.toFinset.card + 1) mem ≠ timeout := by
  have hclosed : DepsClosed sys fun _ => True := fun _ _ _ _ _ _ _ _ => trivial
  have hload : ∀ name s, MayOpen sys hopen.toFinset s →
      loadLibrary sys (hopen.toFinset.card + 1) name s ≠ timeout := fun name s h =>
    bind_ne_timeout.mpr ⟨loadLibraryEx_ne_timeout hclassic h (Nat.lt_succ_self _) name, by simp⟩
  refine bind_ne_timeout.mpr ⟨?_, fun s1 h1 => ?_⟩
  · exact parseLoadCommands_ne_timeout (P := fun s => s.sFirstImage = none)
      (fun name s hs => loadLibrary_unlinked_ne_timeout hs name)
      (fun _ _ _ _ hload => loadLibrary_loads hload) (fun s s' hs hl => hl.first.trans hs) rfl _ _
  -- From here on there is a chain, and each load leaves one.
  have hs1 : Chained sys (fun _ => True) _ 0 [] := .first h1 rfl rfl rfl rfl rfl rfl rfl
  refine bind_ne_timeout.mpr
    ⟨loadAuxiliarySystemLibraries_ne_timeout hload (.of_chained hopen hs1) _, fun s2 h2 => ?_⟩
  have h12 := loadAuxiliarySystemLibraries_later hclosed (fun _ _ => trivial) h2
  obtain ⟨new, hs2, -⟩ := (h12.trans (.main_image s2)).chained 0 [] hs1
  refine bind_ne_timeout.mpr ⟨parse_ne_timeout hload (.of_chained hopen hs2) _ _, fun s3 h3 => ?_⟩
  obtain ⟨new', hs3, -⟩ :=
    (parseLoadCommands_later hclosed (fun _ _ => trivial) h3).chained 0 _ hs2
  exact bind_ne_timeout.mpr ⟨hload casPath s3 (.of_chained hopen hs3), by simp⟩

theorem auxiliaryMoments_later {asked : String → Prop} (hclosed : DepsClosed sys asked)
    {paths : List String} (hasked : ∀ path ∈ paths, asked path) :
    ∀ t ∈ auxiliaryMoments sys fuel paths s, Later sys asked s t := by
  induction paths generalizing s with
  | nil => simp [auxiliaryMoments]
  | cons path paths ih =>
    obtain ⟨hpath, hpaths⟩ := List.forall_mem_cons.mp hasked
    intro t ht
    rcases List.mem_append.mp ht with ht | ht
    · exact (loadMoments_spans hclosed hpath fuel s).1.later t ht
    · obtain ⟨⟨im, s1⟩, hload, ht⟩ := mem_afterwards.mp ht
      have haux : Later sys asked s1 { s1 with sAuxLibs := s1.sAuxLibs ++ [im] } :=
        .of_images rfl rfl rfl rfl
      exact ((loadLibrary_later hclosed hpath hload).trans haux).trans (ih hpaths t ht)

theorem parse_later {asked : String → Prop} (hclosed : DepsClosed sys asked) {this : ImageId}
    {commands : List LoadCommand} (hasked : ∀ name ∈ dylibNames commands, asked name)
    {l : ParseLocals} :
    ∀ t ∈ parseMoments (loadLibrary sys fuel) (loadMoments sys fuel) this commands s l,
      Later sys asked s t := by
  have hspans : ∀ name s, asked name → Spans sys asked s (loadMoments sys fuel name s) :=
    fun name s hname => (loadMoments_spans hclosed hname fuel s).1
  refine (parseMoments_spans hspans ?_ hasked s l).1.later
  intro name s r s' hname hload
  obtain ⟨al, hload⟩ := loadLibrary_eq_done.mp hload
  exact (loadMoments_spans hclosed hname fuel s).2 r al s' hload

theorem startupMoments_chained {asked : String → Prop} (hclosed : DepsClosed sys asked)
    (hasked : ∀ name ∈ startupNames sys, asked name) (fuel : Nat) (mem : Mem) :
    ∀ t ∈ startupMoments sys fuel mem, ∃ rest, Chained sys asked t 0 rest := by
  simp only [startupNames, List.mem_append, List.mem_singleton] at hasked
  have haux : ∀ path ∈ auxiliaryLibraries, asked path := fun name h => hasked name (.inl (.inl h))
  have hmain : ∀ name ∈ dylibNames sys.mainCommands, asked name :=
    fun name h => hasked name (.inl (.inr h))
  intro t ht
  obtain ⟨s1, h1, ht⟩ := mem_afterwards.mp ht
  have hs1 : Chained sys asked _ 0 [] := .first h1 rfl rfl rfl rfl rfl rfl rfl
  rcases List.mem_append.mp ht with ht | ht
  · obtain ⟨new, hchained, -⟩ := (auxiliaryMoments_later hclosed haux t ht).chained 0 [] hs1
    exact ⟨_, hchained⟩
  obtain ⟨s2, h2, ht⟩ := mem_afterwards.mp ht
  obtain ⟨new, hs2, -⟩ :=
    ((loadAuxiliarySystemLibraries_later hclosed haux h2).trans (.main_image s2)).chained 0 [] hs1
  rcases List.mem_append.mp ht with ht | ht
  · obtain ⟨new', hchained, -⟩ := (parse_later hclosed hmain t ht).chained 0 _ hs2
    exact ⟨_, hchained⟩
  · obtain ⟨s3, h3, ht⟩ := mem_afterwards.mp ht
    obtain ⟨new', hs3, -⟩ := (parseLoadCommands_later hclosed hmain h3).chained 0 _ hs2
    obtain ⟨new'', hchained, -⟩ :=
      ((loadMoments_spans hclosed (hasked casPath (.inr rfl)) fuel s3).1.later t ht).chained 0 _ hs3
    exact ⟨_, hchained⟩

/-- **Loading ends.** With finitely many files the loads of the startup come to an end, and so does
a load after any calls, whatever the files need. At no moment have two images been made for one
path. -/
theorem loadLibrary_ends {segmentSlides : MachObject → Word}
    (hclassic : sys.classicRebase = classicRebase segmentSlides)
    (hfiles : {nn | sys.files nn ≠ none}.Finite) :
    (∀ mem, ∃ bound, startupImages sys bound mem ≠ timeout ∧
      (∀ fuel, bound ≤ fuel → startupImages sys fuel mem = startupImages sys bound mem) ∧
      ∀ t ∈ startupMoments sys bound mem, OnePerPath t) ∧
    ∀ n m garbage mem calls s0 s, startup sys n garbage mem = done s0 →
      runCalls sys m calls s0 = done s → ∀ path, ∃ bound,
        loadLibrary sys bound path s ≠ timeout ∧
        (∀ fuel, bound ≤ fuel → loadLibrary sys fuel path s = loadLibrary sys bound path s) ∧
        ∀ t ∈ loadMoments sys bound path s, OnePerPath t := by
  have hclosed : DepsClosed sys fun _ => True := fun _ _ _ _ _ _ _ _ => trivial
  have hrebase : ∀ mem obj, sys.classicRebase mem obj ≠ timeout := by
    rw [hclassic]
    exact classicRebase_ne_timeout segmentSlides
  have hopen := openable_finite hfiles
  refine ⟨fun mem => ?_, fun n m garbage mem calls s0 s h hcalls path => ?_⟩
  · have hends := startupImages_ne_timeout hrebase hopen mem
    refine ⟨_, hends, fun fuel hfuel => (startupImages_grows sys mem).eq hfuel hends, ?_⟩
    intro t ht im im' p him him'
    obtain ⟨rest, hchained⟩ := startupMoments_chained hclosed (fun _ _ => trivial) _ mem t ht
    exact hchained.origPath_injective him him'
  · obtain ⟨first, rest0, hs0⟩ := startup_chained hclosed (fun _ _ => trivial) h
    obtain ⟨new, hs, -⟩ := ((callMoments_spans hclosed (fun _ _ => trivial) s0).2 s
      hcalls).whole.chained first rest0 hs0
    have hends : loadLibrary sys (hopen.toFinset.card + 1) path s ≠ timeout :=
      bind_ne_timeout.mpr ⟨loadLibraryEx_ne_timeout hrebase (.of_chained hopen hs)
        (Nat.lt_succ_self _) path, by simp⟩
    refine ⟨_, hends, fun fuel hfuel => (loadLibrary_grows sys path s).eq hfuel hends, ?_⟩
    intro t ht im im' p him him'
    obtain ⟨new', hchained, -⟩ :=
      ((loadMoments_spans hclosed trivial _ s).1.later t ht).chained first _ hs
    exact hchained.origPath_injective him him'

/-- A small system with the relocations of the source. -/
def classicSystem (files : List (String × File)) : System :=
  { plainSystem files with classicRebase := classicRebase fun _ => 0 }

theorem classicSystem_finite (files : List (String × File)) :
    {nn | (classicSystem files).files nn ≠ none}.Finite := by
  refine (files.map Prod.fst).finite_toSet.subset fun nn hnn => ?_
  by_contra hmem
  refine hnn (List.lookup_eq_none_iff.mpr fun file hfile => ?_)
  have hne : nn ≠ file.1 := fun heq => hmem (heq ▸ List.mem_map_of_mem hfile)
  simpa using hne

def tangleFiles : List (String × File) :=
  [("/A", plainLibrary [(.load, "/A"), (.load, "/B"), (.loadWeak, "/C")]),
    ("/B", plainLibrary [(.reexport, "/A")]), ("/D", plainLibrary [(.load, "/D"), (.load, "/B")])]

/-- The main executable needs `/A`, which needs itself, `/B`, which needs `/A` again, and `/C`,
which is missing. `/D` is asked for later. -/
def tangleSystem : System :=
  { classicSystem tangleFiles with mainCommands := plainCommands [(.load, "/A"), (.load, "/C")] }

def tangleStarted : Linker :=
  match startup tangleSystem 3 false fun _ => 0 with
  | .done s => s
  | _ => .initial fun _ => 0

theorem startup_tangleSystem : startup tangleSystem 3 false (fun _ => 0) = done tangleStarted := rfl

theorem loadLibrary_ends_tangle :
    (∃ bound, startupImages tangleSystem bound (fun _ => 0) ≠ timeout ∧
      (∀ fuel, bound ≤ fuel → startupImages tangleSystem fuel (fun _ => 0) =
        startupImages tangleSystem bound fun _ => 0) ∧
      ∀ t ∈ startupMoments tangleSystem bound (fun _ => 0), OnePerPath t) ∧
    ∃ bound, loadLibrary tangleSystem bound "/D" tangleStarted ≠ timeout ∧
      (∀ fuel, bound ≤ fuel → loadLibrary tangleSystem fuel "/D" tangleStarted =
        loadLibrary tangleSystem bound "/D" tangleStarted) ∧
      ∀ t ∈ loadMoments tangleSystem bound "/D" tangleStarted, OnePerPath t := by
  have hclassic : tangleSystem.classicRebase = classicRebase fun _ => 0 := rfl
  have hfiles : {nn | tangleSystem.files nn ≠ none}.Finite := classicSystem_finite tangleFiles
  obtain ⟨hstartup, hcalls⟩ := loadLibrary_ends hclassic hfiles
  exact ⟨hstartup _, hcalls 3 0 false _ [] _ _ startup_tangleSystem rfl "/D"⟩

/-- A library whose symbol table comes before its `__LINKEDIT` segment. -/
def earlySystem : System :=
  classicSystem [("/A", {
    isMachO := true
    commands := [.segment ⟨"__TEXT", 0x1000, 0x1000, 0, []⟩, .symtab 0 0 default,
      .segment ⟨"__LINKEDIT", 0x2000, 0x1000, 0x1000, []⟩]
    reserved := 0
    wire := id })]

/-- No amount of fuel makes the load return: it halts. -/
theorem loadLibrary_halts :
    startup earlySystem 1 false (fun _ => 0) = done (started earlySystem) ∧
      {nn | earlySystem.files nn ≠ none}.Finite ∧
      (∀ fuel, loadLibrary earlySystem (fuel + 1) "/A" (started earlySystem) =
        halt "LC_SYMTAB before linkedit segment!") ∧
      ∀ fuel r, loadLibrary earlySystem fuel "/A" (started earlySystem) ≠ done r := by
  have hhalt : ∀ fuel, loadLibrary earlySystem (fuel + 1) "/A" (started earlySystem) =
      halt "LC_SYMTAB before linkedit segment!" := fun fuel => rfl
  refine ⟨rfl, classicSystem_finite _, hhalt, fun fuel r => ?_⟩
  cases fuel with
  | zero => simp [loadLibrary, loadLibraryEx]
  | succ fuel => simp [hhalt]

end LibSystem.Lnk
