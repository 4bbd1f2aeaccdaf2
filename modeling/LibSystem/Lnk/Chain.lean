import LibSystem.Lnk.Dlopen

/-!
# The chain at every moment

What the image chain looks like whenever `loadLibraryEx` is entered or returns,
the calls made while an image is being parsed included.
-/

namespace LibSystem.Lnk

open Outcome

/-! ## The moments of a run -/

/-- A call on a path, up to the parsing. There is nothing to parse if no file is opened. -/
def openImage (sys : System) (path : String) (s : Linker) :
    Outcome (Option (ImageId × File × Linker)) :=
  if path = libsystemPath ∨ path = libgccPath then .done none
  else do
    match ← findLoaded s path with
    | some _ => .done none
    | none =>
      match openLibrary sys path with
      | none => .done none
      | some (nn, file) => do
        let (lib, s) ← instantiateFromFile nn path file s
        let s ← insertImage lib s
        .done (some (lib, file, s))

def parseMoments (load : String → Linker → Outcome (Option ImageId × Linker))
    (moments : String → Linker → List Linker) (this : ImageId) :
    List LoadCommand → Linker → ParseLocals → List Linker
  | [], _, _ => []
  | cmd :: rest, s, l =>
    ((cmd.dylib?.map fun dylib => moments dylib.2 s).getD []) ++
      match parseLoadCommand load this s l cmd with
      | .done (s, l) => parseMoments load moments this rest s l
      | _ => []

/-- The states in which `loadLibraryEx` is entered, in which a new image has been put into the
chain, and in which `loadLibraryEx` returns. -/
def loadMoments (sys : System) : Nat → String → Linker → List Linker
  | 0, _, s => [s]
  | fuel + 1, path, s =>
    s :: (match openImage sys path s with
      | .done (some (lib, file, s)) =>
        s :: parseMoments (loadLibrary sys fuel) (loadMoments sys fuel) lib file.commands s
          ⟨sys.compressedSlot lib, 0, 0⟩
      | _ => []) ++
    match loadLibraryEx sys (fuel + 1) path s with
    | .done (_, _, s) => [s]
    | _ => []

/-- What a program does after the startup. -/
inductive Call where
  | loadLibraryEx (path : String)
  | dlopen (path : String)

def Call.path : Call → String
  | .loadLibraryEx path | .dlopen path => path

def Call.run (sys : System) (fuel : Nat) (s : Linker) : Call → Outcome Linker
  | .loadLibraryEx path => do
    let (_, _, s) ← Lnk.loadLibraryEx sys fuel path s
    .done s
  | .dlopen path => do
    let (_, s) ← Lnk.dlopen sys fuel path s
    .done s

def runCalls (sys : System) (fuel : Nat) : List Call → Linker → Outcome Linker
  | [], s => .done s
  | call :: rest, s => do
    let s ← call.run sys fuel s
    runCalls sys fuel rest s

def callMoments (sys : System) (fuel : Nat) : List Call → Linker → List Linker
  | [], _ => []
  | call :: rest, s =>
    loadMoments sys fuel call.path s ++
      match call.run sys fuel s with
      | .done s => callMoments sys fuel rest s
      | _ => []

/-! ## The invariant -/

def filePath (s : Linker) (im : ImageId) : Option String :=
  s.images[im]?.bind fun obj => obj.fFilePath

/-- The names that are asked for include those in the files that are opened. -/
def DepsClosed (sys : System) (asked : String → Prop) : Prop :=
  ∀ path nn file, asked path → ¬ (path = libsystemPath ∨ path = libgccPath) →
    openLibrary sys path = some (nn, file) → ∀ name ∈ dylibNames file.commands, asked name

/-- The chain, from the linker's image through the libraries. -/
structure Chained (sys : System) (asked : String → Prop) (s : Linker) (first : ImageId)
    (rest : List ImageId) : Prop where
  chain : IsChain s.images s.sFirstImage (first :: rest)
  head : s.sDylinker = some first
  count : s.sImageCount = BitVec.ofNat 32 (first :: rest).length
  linker : origPath s first = none ∧ filePath s first = none
  names : ∀ im ∈ rest, ∃ path nn file, origPath s im = some path ∧ filePath s im = some nn ∧
    openLibrary sys path = some (nn, file) ∧ asked path ∧
      ¬ (path = libsystemPath ∨ path = libgccPath)
  distinct : (rest.map (origPath s)).Nodup
  order : rest.Pairwise (· > ·)
  covers : ∀ im, origPath s im ≠ none → im ∈ rest

/-- What the chain is in `s`, it is in `s'` too, but for new images behind the first. -/
structure Later (sys : System) (asked : String → Prop) (s s' : Linker) : Prop where
  length : s.images.length ≤ s'.images.length
  chained : ∀ first rest, Chained sys asked s first rest →
    ∃ new, Chained sys asked s' first (new ++ rest) ∧ ∀ im ∈ new, s.images.length ≤ im

variable {sys : System} {asked : String → Prop} {fuel : Nat} {s s' s'' : Linker}

theorem Later.refl (s : Linker) : Later sys asked s s :=
  ⟨Nat.le_refl _, fun _ _ h => ⟨[], h, by simp⟩⟩

theorem Later.trans (h : Later sys asked s s') (h' : Later sys asked s' s'') :
    Later sys asked s s'' := by
  refine ⟨h.length.trans h'.length, fun first rest hs => ?_⟩
  obtain ⟨new, hs', hnew⟩ := h.chained first rest hs
  obtain ⟨new', hs'', hnew'⟩ := h'.chained first _ hs'
  refine ⟨new' ++ new, by rwa [List.append_assoc], fun im him => ?_⟩
  rcases List.mem_append.mp him with him | him
  · exact h.length.trans (hnew' im him)
  · exact hnew im him

theorem IsLoaded.mono {chain chain' : List ImageId} {name : String} (h : IsLoaded s name)
    (hc : IsChain s.images s.sFirstImage chain) (hc' : IsChain s'.images s'.sFirstImage chain')
    (hsub : chain ⊆ chain') (hpath : ∀ im ∈ chain, origPath s' im = origPath s im) :
    IsLoaded s' name := by
  obtain ⟨im, him, hname⟩ := (isLoaded_iff hc).mp h
  exact (isLoaded_iff hc').mpr ⟨im, hsub him, (hpath im him).trans hname⟩

theorem Loads.isLoaded {first : ImageId} {rest : List ImageId} {name : String} (h : Loads s s')
    (hc : IsChain s.images s.sFirstImage (first :: rest)) (hname : IsLoaded s name) :
    IsLoaded s' name := by
  refine hname.mono hc (h.chain first rest hc) ?_ fun im him => h.paths im (hc.lt_length im him)
  intro im him
  rcases List.mem_cons.mp him with rfl | him
  · simp
  · simp [him]

/-! ## Single changes -/

theorem Later.of_views (hlength : s'.images.length = s.images.length)
    (hfirst : s'.sFirstImage = s.sFirstImage) (hdylinker : s'.sDylinker = s.sDylinker)
    (hcount : s'.sImageCount = s.sImageCount)
    (hviews : ∀ im, nextLink s' im = nextLink s im ∧ origPath s' im = origPath s im ∧
      filePath s' im = filePath s im) : Later sys asked s s' := by
  refine ⟨hlength.ge, fun first rest h => ⟨[], ?_, by simp⟩⟩
  have horig : origPath s' = origPath s := funext fun im => (hviews im).2.1
  refine ⟨?_, hdylinker.trans h.head, hcount.trans h.count, ?_, ?_, ?_, h.order, ?_⟩
  · rw [hfirst]
    exact h.chain.congr fun im _ => (hviews im).1
  · rw [horig, (hviews first).2.2]
    exact h.linker
  · intro im him
    rw [horig, (hviews im).2.2]
    exact h.names im him
  · rw [horig]
    exact h.distinct
  · rw [horig]
    exact h.covers

theorem filePath_modify {f : MachObject → MachObject} (s : Linker) (im j : ImageId)
    (h : ∀ obj, (f obj).fFilePath = obj.fFilePath) :
    filePath (s.modify im f) j = filePath s j := by
  unfold filePath
  rw [getElem?_modify]
  cases s.images[j]? with
  | none => rfl
  | some obj => by_cases hj : im = j <;> simp [hj, h]

theorem Later.of_images (himages : s'.images = s.images) (hfirst : s'.sFirstImage = s.sFirstImage)
    (hdylinker : s'.sDylinker = s.sDylinker) (hcount : s'.sImageCount = s.sImageCount) :
    Later sys asked s s' := by
  refine .of_views (by rw [himages]) hfirst hdylinker hcount fun im => ?_
  unfold nextLink origPath filePath
  rw [himages]
  exact ⟨rfl, rfl, rfl⟩

/-- `f` keeps what the invariant looks at. -/
structure KeepsName (f : MachObject → MachObject) : Prop where
  next : ∀ obj, (f obj).fNextImage = obj.fNextImage
  path : ∀ obj, (f obj).fOrigFilePath = obj.fOrigFilePath
  file : ∀ obj, (f obj).fFilePath = obj.fFilePath

theorem KeepsName.later {f : MachObject → MachObject} (h : KeepsName f) (s : Linker)
    (im : ImageId) : Later sys asked s (s.modify im f) :=
  .of_views (length_modify s im f) rfl rfl rfl fun j =>
    ⟨nextLink_modify s im j h.next, origPath_modify s im j h.path, filePath_modify s im j h.file⟩

theorem finishParse_keepsName (l : ParseLocals) : KeepsName (finishParse l) := by
  refine ⟨?_, ?_, ?_⟩ <;> intro obj <;> unfold finishParse <;> split <;> rfl

/-! ## A new image -/

theorem instantiateFromFile_views {nn path : String} {file : File} {lib : ImageId}
    (h : instantiateFromFile nn path file s = done (lib, s')) :
    s'.sImageCount = s.sImageCount ∧ ∃ obj, s'.images = s.images ++ [obj] ∧
      obj.fFilePath = some nn := by
  unfold instantiateFromFile at h
  split at h
  · simp at h
  dsimp only at h
  split at h
  · simp at h
  split at h
  · simp at h
  · simp only [done.injEq, Prod.mk.injEq] at h
    obtain ⟨rfl, rfl⟩ := h
    exact ⟨rfl, _, rfl, rfl⟩

theorem insertImage_views {lib : ImageId} (h : insertImage lib s = done s') :
    s'.sImageCount = s.sImageCount + 1 ∧ ∀ im, filePath s' im = filePath s im := by
  obtain ⟨first, -, h⟩ := bind_eq_done.mp h
  obtain ⟨obj, -, h⟩ := bind_eq_done.mp h
  have hs := (done.inj h).symm
  refine ⟨by rw [hs]; rfl, fun im => ?_⟩
  have himages : s'.images = (s.images.modify lib fun o => o.setNextImage obj.fNextImage).modify
      first fun o => o.setNextImage (some lib) := by rw [hs]; rfl
  unfold filePath
  rw [himages, getElem?_relink]
  cases s.images[im]? <;> rfl

theorem Later.inserted {nn path : String} {file : File} {lib : ImageId}
    (hspecial : ¬ (path = libsystemPath ∨ path = libgccPath)) (hasked : asked path)
    (hfound : findLoaded s path = done none) (hopen : openLibrary sys path = some (nn, file))
    (hnew : instantiateFromFile nn path file s = done (lib, s'))
    (hins : insertImage lib s' = done s'') : Later sys asked s s'' := by
  obtain ⟨rfl, hinserted⟩ := Lnk.inserted hnew hins
  obtain ⟨hcount, obj, himages, hfile⟩ := instantiateFromFile_views hnew
  obtain ⟨hcount', hfiles⟩ := insertImage_views hins
  refine ⟨hinserted.loads.length, fun first rest h => ⟨[s.images.length], ?_, by simp⟩⟩
  have hids : newImages s s'' = [s.images.length] := by simp [newImages, hinserted.length]
  have hlt := h.chain.lt_length
  have horig : ∀ im ∈ first :: rest, origPath s'' im = origPath s im :=
    fun im him => hinserted.loads.paths im (hlt im him)
  have hfile' : ∀ im ∈ first :: rest, filePath s'' im = filePath s im := by
    intro im him
    rw [hfiles, filePath, himages, List.getElem?_append_left (hlt im him)]
    rfl
  have hrest : rest.map (origPath s'') = rest.map (origPath s) :=
    List.map_congr_left fun im him => horig im (by simp [him])
  refine ⟨?_, hinserted.loads.dylinker.trans h.head, ?_, ?_, ?_, ?_, ?_, ?_⟩
  · have hc := hinserted.loads.chain first rest h.chain
    rwa [hids] at hc
  · rw [hcount', hcount, h.count]
    simp [BitVec.ofNat_add]
  · rw [horig first (by simp), hfile' first (by simp)]
    exact h.linker
  · show ∀ im ∈ s.images.length :: rest, _
    intro im him
    rcases List.mem_cons.mp him with rfl | him
    · refine ⟨path, nn, file, hinserted.path, ?_, hopen, hasked, hspecial⟩
      rw [hfiles, filePath, himages]
      simpa using hfile
    · obtain ⟨p, nn', file', hp, hnn', hrest'⟩ := h.names im him
      have him' : im ∈ first :: rest := by simp [him]
      exact ⟨p, nn', file', (horig im him').trans hp, (hfile' im him').trans hnn', hrest'⟩
  · -- No image of the chain has been asked for under this path.
    rw [List.singleton_append, List.map_cons, hrest, hinserted.path]
    refine List.nodup_cons.mpr ⟨fun hmem => ?_, h.distinct⟩
    obtain ⟨im, him, hpath⟩ := List.mem_map.mp hmem
    refine (isLoaded_iff_findLoaded hfound).mp ?_ rfl
    exact (isLoaded_iff h.chain).mpr ⟨im, by simp [him], hpath⟩
  · show List.Pairwise _ (s.images.length :: rest)
    exact List.pairwise_cons.mpr ⟨fun im him => hlt im (by simp [him]), h.order⟩
  · show ∀ im, origPath s'' im ≠ none → im ∈ s.images.length :: rest
    intro im him
    rcases Nat.lt_trichotomy im s.images.length with hold | rfl | hnone
    · rw [hinserted.loads.paths im hold] at him
      exact List.mem_cons_of_mem _ (h.covers im him)
    · exact List.mem_cons_self
    · rw [origPath, List.getElem?_eq_none (by rw [hinserted.length]; exact hnone)] at him
      exact absurd rfl him

theorem openImage_eq_done {path : String} {lib : ImageId} {file : File}
    (h : openImage sys path s = done (some (lib, file, s'))) :
    ¬ (path = libsystemPath ∨ path = libgccPath) ∧ findLoaded s path = done none ∧
      ∃ nn s1, openLibrary sys path = some (nn, file) ∧
        instantiateFromFile nn path file s = done (lib, s1) ∧ insertImage lib s1 = done s' := by
  unfold openImage at h
  split at h
  · simp at h
  rename_i hspecial
  obtain ⟨found, hfound, h⟩ := bind_eq_done.mp h
  cases found with
  | some im => simp at h
  | none =>
    dsimp only at h
    split at h
    · simp at h
    · rename_i nn file' hopen
      obtain ⟨⟨lib', s1⟩, hnew, h⟩ := bind_eq_done.mp h
      obtain ⟨s2, hins, h⟩ := bind_eq_done.mp h
      simp only [done.injEq, Option.some.injEq, Prod.mk.injEq] at h
      obtain ⟨rfl, rfl, rfl⟩ := h
      exact ⟨hspecial, hfound, nn, s1, hopen, hnew, hins⟩

/-! ## The calls -/

/-- The states of `l` come one after the other, and all after `s`. -/
structure Spans (sys : System) (asked : String → Prop) (s : Linker) (l : List Linker) : Prop where
  later : ∀ t ∈ l, Later sys asked s t
  ordered : l.Pairwise (Later sys asked)

/-- A part of a run: what is seen of it, and what it leads to. -/
structure Part (sys : System) (asked : String → Prop) (s : Linker) (l : List Linker)
    (s' : Linker) : Prop where
  spans : Spans sys asked s l
  before : ∀ t ∈ l, Later sys asked t s'
  whole : Later sys asked s s'

theorem Spans.nil : Spans sys asked s [] := ⟨by simp, .nil⟩

theorem Later.part (h : Later sys asked s s') : Part sys asked s [] s' := ⟨.nil, by simp, h⟩

theorem Part.spans_append {l l' : List Linker} (h : Part sys asked s l s')
    (h' : Spans sys asked s' l') : Spans sys asked s (l ++ l') := by
  refine ⟨fun t ht => ?_, List.pairwise_append.mpr ⟨h.spans.ordered, h'.ordered, ?_⟩⟩
  · rcases List.mem_append.mp ht with ht | ht
    · exact h.spans.later t ht
    · exact h.whole.trans (h'.later t ht)
  · exact fun t ht t' ht' => (h.before t ht).trans (h'.later t' ht')

theorem Part.append {l l' : List Linker} (h : Part sys asked s l s')
    (h' : Part sys asked s' l' s'') : Part sys asked s (l ++ l') s'' := by
  refine ⟨h.spans_append h'.spans, fun t ht => ?_, h.whole.trans h'.whole⟩
  rcases List.mem_append.mp ht with ht | ht
  · exact (h.before t ht).trans h'.whole
  · exact h'.before t ht

theorem Spans.single (s : Linker) : Spans sys asked s [s] :=
  ⟨fun t ht => by rw [List.mem_singleton.mp ht]; exact .refl s, List.pairwise_singleton _ _⟩

theorem Part.single (s : Linker) : Part sys asked s [s] s :=
  ⟨.single s, fun t ht => by rw [List.mem_singleton.mp ht]; exact .refl s, .refl s⟩

section Parsing

variable {load : String → Linker → Outcome (Option ImageId × Linker)}
  {moments : String → Linker → List Linker}

theorem parseLoadCommand_keepsName {this : ImageId} {l l' : ParseLocals} {cmd : LoadCommand}
    (hcmd : cmd.dylib? = none) (h : parseLoadCommand load this s l cmd = done (s', l')) :
    ∃ f, KeepsName f ∧ s' = s.modify this f := by
  cases cmd with
  | segment seg =>
    obtain ⟨obj, -, h⟩ := bind_eq_done.mp h
    split at h
    · simp at h
    · obtain ⟨rfl, -⟩ := by simpa using h
      refine ⟨_, ⟨?_, ?_, ?_⟩, rfl⟩ <;> exact fun _ => rfl
  | routines initAddress =>
    obtain ⟨rfl, -⟩ := by simpa [parseLoadCommand] using h
    refine ⟨_, ⟨?_, ?_, ?_⟩, rfl⟩ <;> exact fun _ => rfl
  | dylib kind name => simp [LoadCommand.dylib?] at hcmd
  | symtab stroff symoff asDysymtab =>
    obtain ⟨obj, -, h⟩ := bind_eq_done.mp h
    split at h
    · simp at h
    · obtain ⟨rfl, -⟩ := by simpa using h
      refine ⟨_, ⟨?_, ?_, ?_⟩, rfl⟩ <;> exact fun _ => rfl
  | dysymtab cmd =>
    obtain ⟨rfl, -⟩ := by simpa [parseLoadCommand] using h
    refine ⟨_, ⟨?_, ?_, ?_⟩, rfl⟩ <;> exact fun _ => rfl
  | dyldInfo cmd =>
    obtain ⟨rfl, -⟩ := by simpa [parseLoadCommand] using h
    refine ⟨_, ⟨?_, ?_, ?_⟩, rfl⟩ <;> exact fun _ => rfl
  | other =>
    obtain ⟨rfl, -⟩ := by simpa [parseLoadCommand] using h
    refine ⟨id, ⟨?_, ?_, ?_⟩, by simp [Linker.modify]⟩ <;> exact fun _ => rfl

variable (hspans : ∀ name s, asked name → Spans sys asked s (moments name s))
  (hload : ∀ name s r s', asked name → load name s = done (r, s') →
    Part sys asked s (moments name s) s')

include hload

theorem parseLoadCommand_part {this : ImageId} {l l' : ParseLocals} {cmd : LoadCommand}
    (hasked : ∀ kind name, cmd.dylib? = some (kind, name) → asked name)
    (h : parseLoadCommand load this s l cmd = done (s', l')) :
    Part sys asked s ((cmd.dylib?.map fun dylib => moments dylib.2 s).getD []) s' := by
  rcases parseLoadCommand_cases h with ⟨hcmd, -⟩ | ⟨kind, name, dep, s1, hcmd, hdep, rfl⟩
  · rw [hcmd]
    obtain ⟨f, hkeeps, rfl⟩ := parseLoadCommand_keepsName hcmd h
    exact (hkeeps.later s this).part
  · rw [hcmd]
    have hlast : Later sys asked s1 (s1.modify this (addDependency kind dep)) := by
      refine KeepsName.later ⟨?_, ?_, ?_⟩ s1 this <;> exact fun _ => rfl
    have hpart := (hload name s _ s1 (hasked kind name hcmd) hdep).append hlast.part
    rwa [List.append_nil] at hpart

include hspans

theorem parseMoments_spans {this : ImageId} {commands : List LoadCommand}
    (hasked : ∀ name ∈ dylibNames commands, asked name) (s : Linker) (l : ParseLocals) :
    Spans sys asked s (parseMoments load moments this commands s l) ∧
      ∀ s' l', parseLoop load this commands s l = done (s', l') →
        Part sys asked s (parseMoments load moments this commands s l) s' := by
  induction commands generalizing s l with
  | nil =>
    refine ⟨.nil, fun s' l' h => ?_⟩
    obtain ⟨rfl, -⟩ := by simpa [parseLoop] using h
    exact (Later.refl s).part
  | cons cmd commands ih =>
    have hcmd : ∀ kind name, cmd.dylib? = some (kind, name) → asked name :=
      fun kind name h => hasked name (mem_dylibNames_cons.mpr (.inl ⟨kind, h⟩))
    have hrest : ∀ name ∈ dylibNames commands, asked name :=
      fun name h => hasked name (mem_dylibNames_cons.mpr (.inr h))
    have hfirst : Spans sys asked s ((cmd.dylib?.map fun dylib => moments dylib.2 s).getD []) := by
      cases hdylib : cmd.dylib? with
      | none => exact .nil
      | some dylib => exact hspans _ s (hcmd dylib.1 dylib.2 hdylib)
    unfold parseMoments parseLoop
    cases hs : parseLoadCommand load this s l cmd with
    | done r =>
      have hpart := parseLoadCommand_part hload hcmd hs
      obtain ⟨hspans', hpart'⟩ := ih hrest r.1 r.2
      refine ⟨hpart.spans_append hspans', fun s' l' h => ?_⟩
      exact hpart.append (hpart' s' l' h)
    | halt | fault | timeout => simpa using hfirst

end Parsing

theorem parseLoadCommands_part {moments : String → Linker → List Linker} {this : ImageId}
    {commands : List LoadCommand}
    (hspans : ∀ name s, asked name → Spans sys asked s (moments name s))
    (hload : ∀ name s r s', asked name → loadLibrary sys fuel name s = done (r, s') →
      Part sys asked s (moments name s) s')
    (hasked : ∀ name ∈ dylibNames commands, asked name)
    (h : parseLoadCommands sys (loadLibrary sys fuel) this commands s = done s') :
    Part sys asked s (parseMoments (loadLibrary sys fuel) moments this commands s
      ⟨sys.compressedSlot this, 0, 0⟩) s' := by
  obtain ⟨s1, l1, obj, hloop, -, rfl⟩ := parseLoadCommands_loop h
  have hparts := (parseMoments_spans hspans hload hasked s _).2 s1 l1 hloop
  have hfinish : Later sys asked s1 (s1.modify this (finishParse l1)) :=
    (finishParse_keepsName l1).later s1 this
  have hlast : Later sys asked s1 { s1.modify this (finishParse l1) with
      mem := processSections sys.gEnvironPtr s1.mem obj } :=
    hfinish.trans (.of_images rfl rfl rfl rfl)
  have hall := hparts.append hlast.part
  rwa [List.append_nil] at hall

theorem doRebase_later {im : ImageId} (h : doRebase sys s im = done s') :
    Later sys asked s s' := by
  obtain ⟨mem, rfl⟩ := doRebase_eq_done h
  exact .of_images rfl rfl rfl rfl

theorem loadLibraryEx_openImage {path : String} {lib : ImageId} {file : File} {before : Linker}
    {r : Option ImageId} {al : Option Bool}
    (hopen : openImage sys path s = done (some (lib, file, before)))
    (h : loadLibraryEx sys (fuel + 1) path s = done (r, al, s')) :
    ∃ after, parseLoadCommands sys (loadLibrary sys fuel) lib file.commands before = done after ∧
      doRebase sys after lib = done s' := by
  obtain ⟨hspecial, hfound, nn, s1, hlib, hnew, hins⟩ := openImage_eq_done hopen
  unfold loadLibraryEx at h
  rw [if_neg hspecial, hfound, done_bind] at h
  dsimp only at h
  rw [hlib] at h
  dsimp only at h
  rw [hnew, done_bind, hins, done_bind] at h
  obtain ⟨after, hparse, h⟩ := bind_eq_done.mp h
  obtain ⟨s3, hrebase, h⟩ := bind_eq_done.mp h
  simp only [done.injEq, Prod.mk.injEq] at h
  obtain ⟨rfl, rfl, rfl⟩ := h
  exact ⟨after, hparse, hrebase⟩

theorem loadLibraryEx_eq_self {path : String} {r : Option ImageId} {al : Option Bool}
    (hopen : ∀ lib file before, openImage sys path s ≠ done (some (lib, file, before)))
    (h : loadLibraryEx sys (fuel + 1) path s = done (r, al, s')) : s' = s := by
  obtain ⟨-, -, rfl⟩ | ⟨hspecial, ⟨im, -, -, -, rfl⟩ | ⟨hfound, ⟨-, -, rfl⟩ | ⟨-, -, -⟩⟩⟩ :=
    loadLibraryEx_cases h
  · rfl
  · rfl
  · rfl
  · unfold loadLibraryEx at h
    rw [if_neg hspecial, hfound, done_bind] at h
    dsimp only at h
    split at h
    · simp only [done.injEq, Prod.mk.injEq] at h
      exact h.2.2.symm
    · rename_i nn file hlib
      obtain ⟨⟨lib, s1⟩, hnew, h⟩ := bind_eq_done.mp h
      obtain ⟨before, hins, -⟩ := bind_eq_done.mp h
      refine absurd ?_ (hopen lib file before)
      unfold openImage
      rw [if_neg hspecial, hfound, done_bind]
      dsimp only
      rw [hlib]
      dsimp only
      rw [hnew, done_bind, hins, done_bind]

/-- What is seen of a call, and what it leads to if it returns. -/
theorem loadMoments_spans (hclosed : DepsClosed sys asked) {path : String} (hasked : asked path)
    (fuel : Nat) (s : Linker) :
    Spans sys asked s (loadMoments sys fuel path s) ∧
      ∀ r al s', loadLibraryEx sys fuel path s = done (r, al, s') →
        Part sys asked s (loadMoments sys fuel path s) s' := by
  induction fuel generalizing path s with
  | zero => exact ⟨.single s, fun r al s' h => by simp [loadLibraryEx] at h⟩
  | succ fuel ih =>
    have hspans : ∀ name s, asked name → Spans sys asked s (loadMoments sys fuel name s) :=
      fun name s hname => (ih hname s).1
    have hload : ∀ name s r s', asked name → loadLibrary sys fuel name s = done (r, s') →
        Part sys asked s (loadMoments sys fuel name s) s' := by
      intro name s r s' hname h
      obtain ⟨al, h⟩ := loadLibrary_eq_done.mp h
      exact (ih hname s).2 r al s' h
    -- The moments inside the call, and what they lead to.
    obtain ⟨inner, hinner, hinside, hreturn⟩ : ∃ inner, loadMoments sys (fuel + 1) path s =
        s :: inner ++ (match loadLibraryEx sys (fuel + 1) path s with
          | .done (_, _, s) => [s]
          | _ => []) ∧ Spans sys asked s inner ∧
        ∀ r al s', loadLibraryEx sys (fuel + 1) path s = done (r, al, s') →
          Part sys asked s inner s' := by
      refine ⟨_, rfl, ?_⟩
      split
      · rename_i lib file before hopen
        obtain ⟨hspecial, hfound, nn, s1, hlib, hnew, hins⟩ := openImage_eq_done hopen
        have hinserted : Later sys asked s before :=
          .inserted hspecial hasked hfound hlib hnew hins
        have hnames := hclosed path nn file hasked hspecial hlib
        have hbefore : Part sys asked s [before] before := hinserted.part.append (.single before)
        refine ⟨hbefore.spans_append (parseMoments_spans hspans hload hnames before _).1,
          fun r al s' h => ?_⟩
        obtain ⟨after, hparse, hrebase⟩ := loadLibraryEx_openImage hopen h
        have hparts := hbefore.append (parseLoadCommands_part hspans hload hnames hparse)
        have hparts := hparts.append (doRebase_later hrebase).part
        rwa [List.append_nil] at hparts
      · rename_i hopen
        refine ⟨.nil, fun r al s' h => ?_⟩
        obtain rfl := loadLibraryEx_eq_self (fun lib file before h => hopen lib file before h) h
        exact (Later.refl _).part
    rw [hinner]
    have hentry : Part sys asked s [s] s := .single s
    cases h : loadLibraryEx sys (fuel + 1) path s with
    | done r =>
      have hparts := (hentry.append (hreturn r.1 r.2.1 r.2.2 h)).append (.single r.2.2)
      refine ⟨hparts.spans, fun r' al s' heq => ?_⟩
      obtain rfl : r = (r', al, s') := done.inj heq
      exact hparts
    | halt | fault | timeout => simpa using hentry.spans_append hinside

theorem loadLibrary_later (hclosed : DepsClosed sys asked) {path : String} (hasked : asked path)
    {r : Option ImageId} (h : loadLibrary sys fuel path s = done (r, s')) :
    Later sys asked s s' := by
  obtain ⟨al, h⟩ := loadLibrary_eq_done.mp h
  exact ((loadMoments_spans hclosed hasked fuel s).2 r al s' h).whole

theorem doBindSymbols_later {im : ImageId} (h : doBindSymbols sys s im = done s') :
    Later sys asked s s' := by
  obtain ⟨⟨mem, count⟩, -, h⟩ := bind_eq_done.mp h
  obtain rfl := done.inj h
  exact .of_images rfl rfl rfl rfl

theorem doInitialize_later {im : ImageId} (h : doInitialize s im = done s') :
    Later sys asked s s' := by
  obtain ⟨obj, -, ⟨-, rfl⟩ | ⟨-, rfl⟩⟩ := doInitialize_eq_done h
  · exact .refl _
  · have hflag : Later sys asked s (s.modify im fun obj => obj.setInitialized true) := by
      refine KeepsName.later ⟨?_, ?_, ?_⟩ s im <;> exact fun _ => rfl
    exact hflag.trans (.of_images rfl rfl rfl rfl)

theorem Call.run_later (hclosed : DepsClosed sys asked) {call : Call} (hasked : asked call.path)
    (h : call.run sys fuel s = done s') :
    Part sys asked s (loadMoments sys fuel call.path s) s' := by
  have hspans := loadMoments_spans hclosed hasked fuel s
  cases call with
  | loadLibraryEx path =>
    obtain ⟨⟨r, al, s1⟩, hload, h⟩ := bind_eq_done.mp h
    obtain rfl := done.inj h
    exact hspans.2 r al s1 hload
  | dlopen path =>
    obtain ⟨⟨handle, s1⟩, hdlopen, h⟩ := bind_eq_done.mp h
    obtain rfl := done.inj h
    obtain ⟨dlib, al, s2, hload, hrest⟩ := dlopen_eq_done hdlopen
    have hpart := hspans.2 dlib al s2 hload
    obtain ⟨-, -, rfl⟩ | ⟨-, -, rfl⟩ | ⟨im, s3, -, -, hbind, hinit⟩ := hrest
    · exact hpart
    · exact hpart
    · have hlast : Later sys asked s2 s1 :=
        (doBindSymbols_later hbind).trans (doInitialize_later hinit)
      have hparts := hpart.append hlast.part
      rwa [List.append_nil] at hparts

theorem callMoments_spans (hclosed : DepsClosed sys asked) {calls : List Call}
    (hasked : ∀ call ∈ calls, asked call.path) (s : Linker) :
    Spans sys asked s (callMoments sys fuel calls s) ∧
      ∀ s', runCalls sys fuel calls s = done s' →
        Part sys asked s (callMoments sys fuel calls s) s' := by
  induction calls generalizing s with
  | nil =>
    refine ⟨.nil, fun s' h => ?_⟩
    obtain rfl := done.inj h
    exact (Later.refl s).part
  | cons call calls ih =>
    have hcall := hasked call (by simp)
    unfold callMoments runCalls
    cases hs : call.run sys fuel s with
    | done s1 =>
      have hpart := Call.run_later hclosed hcall hs
      obtain ⟨hspans, hpart'⟩ := ih (fun c hc => hasked c (by simp [hc])) s1
      refine ⟨hpart.spans_append hspans, fun s' h => ?_⟩
      exact hpart.append (hpart' s' h)
    | halt | fault | timeout => simpa using (loadMoments_spans hclosed hcall fuel s).1

/-! ## The startup -/

theorem loadLibrary_unlinked (hfirst : s.sFirstImage = none) {name : String}
    {r : Option ImageId} (h : loadLibrary sys fuel name s = done (r, s')) : s' = s := by
  obtain ⟨al, h⟩ := loadLibrary_eq_done.mp h
  cases fuel with
  | zero => simp [loadLibraryEx] at h
  | succ fuel =>
    refine loadLibraryEx_eq_self (fun lib file before hopen => ?_) h
    obtain ⟨-, -, nn, s1, -, hnew, hins⟩ := openImage_eq_done hopen
    obtain ⟨-, hs1, -⟩ := instantiateFromFile_eq_done hnew
    obtain ⟨-, -, -, first, obj, hsome, -⟩ := insertImage_eq_done hins
    simp [hs1, hfirst] at hsome

theorem parseLoop_unlinked {this : ImageId} {commands : List LoadCommand} {l l' : ParseLocals}
    (hfirst : s.sFirstImage = none)
    (h : parseLoop (loadLibrary sys fuel) this commands s l = done (s', l')) :
    s'.images.length = s.images.length ∧ s'.sImageCount = s.sImageCount ∧
      ∀ im, filePath s' im = filePath s im := by
  induction commands generalizing s l with
  | nil =>
    obtain ⟨rfl, -⟩ := by simpa [parseLoop] using h
    exact ⟨rfl, rfl, fun _ => rfl⟩
  | cons cmd commands ih =>
    obtain ⟨⟨s1, l1⟩, hcmd, h⟩ := bind_eq_done.mp h
    have hone : s1.sFirstImage = none ∧ s1.images.length = s.images.length ∧
        s1.sImageCount = s.sImageCount ∧ ∀ im, filePath s1 im = filePath s im := by
      obtain ⟨hnone, -⟩ | ⟨kind, name, dep, s2, -, hdep, rfl⟩ := parseLoadCommand_cases hcmd
      · obtain ⟨f, hkeeps, rfl⟩ := parseLoadCommand_keepsName hnone hcmd
        exact ⟨hfirst, length_modify _ _ _, rfl, fun im => filePath_modify s this im hkeeps.file⟩
      · obtain rfl := loadLibrary_unlinked hfirst hdep
        exact ⟨hfirst, length_modify _ _ _, rfl, fun im => filePath_modify s2 this im fun _ => rfl⟩
    obtain ⟨hfirst1, hlen1, hcount1, hfile1⟩ := hone
    obtain ⟨hlen, hcount, hfile⟩ := ih hfirst1 h
    exact ⟨hlen.trans hlen1, hcount.trans hcount1, fun im => (hfile im).trans (hfile1 im)⟩

theorem parseLoadCommands_unlinked {this : ImageId} {commands : List LoadCommand}
    (hfirst : s.sFirstImage = none)
    (h : parseLoadCommands sys (loadLibrary sys fuel) this commands s = done s') :
    s'.images.length = s.images.length ∧ s'.sImageCount = s.sImageCount ∧
      ∀ im, filePath s' im = filePath s im := by
  obtain ⟨s1, l1, obj, hloop, -, rfl⟩ := parseLoadCommands_loop h
  obtain ⟨hlen, hcount, hfile⟩ := parseLoop_unlinked hfirst hloop
  refine ⟨(length_modify _ _ _).trans hlen, hcount, fun im => ?_⟩
  exact (filePath_modify s1 this im (finishParse_keepsName l1).file).trans (hfile im)

/-- The names that the startup asks for once there is a chain. -/
def startupNames (sys : System) : List String :=
  auxiliaryLibraries ++ dylibNames sys.mainCommands ++ [casPath]

theorem Chained.first
    (h : parseLoadCommands sys (loadLibrary sys fuel) 0 sys.linkerCommands s = done s')
    (hlen : s.images.length = 1) (hnext : nextLink s 0 = some none) (hpath : origPath s 0 = none)
    (hfile : filePath s 0 = none) (hfirst : s.sFirstImage = none)
    (hdylinker : s.sDylinker = some 0) (hcount : s.sImageCount = 0) :
    Chained sys asked { s' with sImageCount := s'.sImageCount + 1, sFirstImage := some 0 } 0
      [] := by
  have hloads := (parseLoadCommands_loads (fun _ _ _ _ hload => loadLibrary_loads hload) h).1
  obtain ⟨hlen', hcount', hfile'⟩ := parseLoadCommands_unlinked hfirst h
  have hlink : nextLink s' 0 = some none := by
    rw [hloads.links 0 (by omega) (by simp [hfirst]), hnext]
  obtain ⟨obj, hobj, hnull⟩ := Option.map_eq_some_iff.mp hlink
  have hpath' : origPath s' 0 = none := (hloads.paths 0 (by omega)).trans hpath
  refine ⟨⟨rfl, obj, hobj, hnull⟩, hloads.dylinker.trans hdylinker, ?_, ⟨?_, ?_⟩, ?_, ?_, ?_, ?_⟩
  · show s'.sImageCount + 1 = _
    rw [hcount', hcount]
    rfl
  · exact hpath'
  · exact (hfile' 0).trans hfile
  · simp
  · simp
  · exact .nil
  · intro im him
    refine absurd ?_ him
    rcases Nat.eq_zero_or_pos im with rfl | hpos
    · exact hpath'
    · show origPath s' im = none
      rw [origPath, List.getElem?_eq_none (by omega)]
      rfl

theorem loadAuxiliarySystemLibraries_later (hclosed : DepsClosed sys asked) {paths : List String}
    (hasked : ∀ path ∈ paths, asked path)
    (h : loadAuxiliarySystemLibraries sys fuel paths s = done s') : Later sys asked s s' := by
  refine loadAuxiliarySystemLibraries_preserves (fun path hmem t r t' ht hpath => ?_) (.refl s) h
  have haux : Later sys asked t' { t' with sAuxLibs := t'.sAuxLibs ++ [r] } :=
    .of_images rfl rfl rfl rfl
  exact (ht.trans (loadLibrary_later hclosed (hasked path hmem) hpath)).trans haux

theorem Later.append_image (s : Linker) {obj : MachObject} (hobj : obj.fOrigFilePath = none)
    (main : Option ImageId) :
    Later sys asked s { s with images := s.images ++ [obj], sMainExecutable := main } := by
  refine ⟨by simp, fun first rest h => ⟨[], ?_, by simp⟩⟩
  have hold : ∀ im ∈ first :: rest, (s.images ++ [obj])[im]? = s.images[im]? :=
    fun im him => List.getElem?_append_left (h.chain.lt_length im him)
  refine ⟨h.chain.congr fun im him => by rw [hold im him], h.head, h.count, ?_, ?_, ?_, h.order,
    fun im him => ?_⟩
  · unfold origPath filePath
    rw [hold first (by simp)]
    exact h.linker
  · intro im him
    unfold origPath filePath
    rw [hold im (by simpa using .inr him)]
    exact h.names im him
  · have horig : rest.map (origPath { s with images := s.images ++ [obj], sMainExecutable := main })
        = rest.map (origPath s) := by
      refine List.map_congr_left fun im him => ?_
      unfold origPath
      rw [hold im (by simp [him])]
    rw [List.nil_append, horig]
    exact h.distinct
  · rcases Nat.lt_trichotomy im s.images.length with hlt | rfl | hgt
    · refine h.covers im ?_
      rwa [origPath, List.getElem?_append_left hlt] at him
    · simp [origPath, hobj] at him
    · rw [origPath, List.getElem?_eq_none (by simp; omega)] at him
      exact absurd rfl him

theorem Later.main_image (s : Linker) : Later sys asked s
    { (instantiateFromMemory sys.mainHeader 0 s).2 with
      sMainExecutable := some (instantiateFromMemory sys.mainHeader 0 s).1 } :=
  .append_image s rfl _

theorem bindAll_later {chain : List ImageId} (h : bindAll sys chain s = done s') :
    Later sys asked s s' :=
  bindAll_preserves (fun _ _ _ _ ht him => ht.trans (doBindSymbols_later him)) (.refl s) h

theorem parseLoadCommands_later (hclosed : DepsClosed sys asked) {this : ImageId}
    {commands : List LoadCommand} (hasked : ∀ name ∈ dylibNames commands, asked name)
    (h : parseLoadCommands sys (loadLibrary sys fuel) this commands s = done s') :
    Later sys asked s s' := by
  have hspans : ∀ name s, asked name → Spans sys asked s (loadMoments sys fuel name s) :=
    fun name s hname => (loadMoments_spans hclosed hname fuel s).1
  refine (parseLoadCommands_part hspans ?_ hasked h).whole
  intro name s r s' hname hload
  obtain ⟨al, hload⟩ := loadLibrary_eq_done.mp hload
  exact (loadMoments_spans hclosed hname fuel s).2 r al s' hload

theorem startupLoads_chained (hclosed : DepsClosed sys asked)
    (hasked : ∀ name ∈ startupNames sys, asked name) {mem : Mem} {main : ImageId}
    (h : startupLoads sys fuel mem = done (main, s)) :
    ∃ first rest, Chained sys asked s first rest := by
  obtain ⟨s1, s2, s3, cas, s4, chain, s5, hdylinker, haux, hmain, hcas, -, hbind, hbindmain, rfl⟩ :=
    startupLoads_eq_done h
  simp only [startupNames, List.mem_append, List.mem_singleton] at hasked
  have h1 : Chained sys asked _ 0 [] := .first hdylinker rfl rfl rfl rfl rfl rfl rfl
  have h2 := loadAuxiliarySystemLibraries_later hclosed
    (fun name hname => hasked name (.inl (.inl hname))) haux
  have h3 := h2.trans (.main_image s2)
  have h4 := h3.trans (parseLoadCommands_later hclosed
    (fun name hname => hasked name (.inl (.inr hname))) hmain)
  have h5 := h4.trans (loadLibrary_later hclosed (hasked casPath (.inr rfl)) hcas)
  have h6 := (h5.trans (bindAll_later hbind)).trans (doBindSymbols_later hbindmain)
  obtain ⟨new, hchained, -⟩ := h6.chained 0 [] h1
  exact ⟨0, _, hchained⟩

theorem startup_chained (hclosed : DepsClosed sys asked)
    (hasked : ∀ name ∈ startupNames sys, asked name) {garbage : Bool} {mem : Mem}
    (h : startup sys fuel garbage mem = done s) :
    ∃ first rest, Chained sys asked s first rest := by
  refine startup_preserves (fun s im s' ⟨first, rest, hs⟩ hinit => ?_)
    (fun _ _ hloads => startupLoads_chained hclosed hasked hloads) h
  obtain ⟨new, hchained, -⟩ := (doInitialize_later hinit).chained first rest hs
  exact ⟨first, _, hchained⟩

/-! ## The chain invariant -/

theorem Chained.map_origPath_nodup {first : ImageId} {rest : List ImageId}
    (h : Chained sys asked s first rest) : ((first :: rest).map (origPath s)).Nodup := by
  refine List.nodup_cons.mpr ⟨fun hmem => ?_, h.distinct⟩
  obtain ⟨im, him, hpath⟩ := List.mem_map.mp hmem
  obtain ⟨path, -, -, hsome, -⟩ := h.names im him
  rw [h.linker.1, hsome] at hpath
  simp at hpath

theorem Chained.gives {first : ImageId} {rest : List ImageId}
    (h : Chained sys asked s first rest) {path : String} {r : Option ImageId} {al : Option Bool}
    (hload : loadLibraryEx sys fuel path s = done (r, al, s')) :
    r = some first ∨ ∃ im, r = some im ∧ origPath s' im = some path := by
  cases fuel with
  | zero => simp [loadLibraryEx] at hload
  | succ fuel =>
    obtain ⟨-, hr, -⟩ | ⟨-, ⟨im, hfound, hr, -, rfl⟩ | ⟨-,
      ⟨-, hr, -⟩ | ⟨hr, -, file, before, after, hopens⟩⟩⟩ := loadLibraryEx_cases hload
    · exact .inl (hr.trans h.chain.1)
    · exact .inr ⟨im, hr, findLoaded_path hfound⟩
    · exact .inl (hr.trans h.head)
    · have hlt : s.images.length < before.images.length := lt_of_origPath hopens.inserted.path
      have hafter := (parseLoadCommands_loads (fun _ _ _ _ hload => loadLibrary_loads hload)
        hopens.parsed).1.paths _ hlt
      obtain ⟨mem, rfl⟩ := doRebase_eq_done hopens.rebased
      exact .inr ⟨_, hr, hafter.trans hopens.inserted.path⟩

theorem Chained.mem_iff {first : ImageId} {rest : List ImageId} (h : Chained sys asked s first rest)
    (im : ImageId) : im ∈ rest ↔ origPath s im ≠ none := by
  refine ⟨fun him => ?_, h.covers im⟩
  obtain ⟨path, -, -, hpath, -⟩ := h.names im him
  simp [hpath]

/-- **The chain at every moment.** The linker comes first, the libraries follow in the order last
loaded first, each under a path of its own, and what is in the chain stays where it is. They are all
the images that have been loaded: what a call gives is in the chain then and later. -/
theorem callMoments_chain {n : Nat} {garbage : Bool} {mem : Mem} {s0 : Linker}
    (h : startup sys n garbage mem = done s0) (fuel : Nat) (calls : List Call) :
    (∀ t ∈ callMoments sys fuel calls s0, ∃ first rest, t.imageChain = done (first :: rest) ∧
      (first :: rest).Nodup ∧ t.sDylinker = some first ∧
      t.sImageCount = BitVec.ofNat 32 (first :: rest).length ∧
      ((first :: rest).map (origPath t)).Nodup ∧ rest.Pairwise (· > ·) ∧
      ∀ im, im ∈ rest ↔ origPath t im ≠ none) ∧
    ((s0 :: callMoments sys fuel calls s0).Pairwise fun t t' => ∃ first rest new,
      t.imageChain = done (first :: rest) ∧ t'.imageChain = done (first :: (new ++ rest)) ∧
        ∀ im ∈ new, t.images[im]? = none) ∧
    ∀ t ∈ s0 :: callMoments sys fuel calls s0, ∀ k path r al t',
      loadLibraryEx sys k path t = done (r, al, t') → ∃ first rest,
        t'.imageChain = done (first :: rest) ∧
          (r = some first ∨ ∃ im ∈ rest, r = some im ∧ origPath t' im = some path) := by
  have hclosed : DepsClosed sys fun _ => True := fun _ _ _ _ _ _ _ _ => trivial
  obtain ⟨first, rest0, hs0⟩ := startup_chained hclosed (fun _ _ => trivial) h
  have hspans : Spans sys (fun _ => True) s0 (s0 :: callMoments sys fuel calls s0) :=
    (Part.single s0).spans_append (callMoments_spans hclosed (fun _ _ => trivial) s0).1
  have hchained : ∀ t ∈ s0 :: callMoments sys fuel calls s0,
      ∃ rest, Chained sys (fun _ => True) t first rest := by
    intro t ht
    obtain ⟨new, hchained, -⟩ := (hspans.later t ht).chained first rest0 hs0
    exact ⟨_, hchained⟩
  refine ⟨fun t ht => ?_, hspans.ordered.imp_of_mem fun {t t'} ht _ hlater => ?_,
    fun t ht k path r al t' hload => ?_⟩
  · obtain ⟨rest, ht⟩ := hchained t (by simp [ht])
    exact ⟨first, rest, Linker.imageChain_eq_done.mpr ht.chain, ht.chain.nodup, ht.head, ht.count,
      ht.map_origPath_nodup, ht.order, ht.mem_iff⟩
  · obtain ⟨rest, ht⟩ := hchained t ht
    obtain ⟨new, ht', hnew⟩ := hlater.chained first rest ht
    exact ⟨first, rest, new, Linker.imageChain_eq_done.mpr ht.chain,
      Linker.imageChain_eq_done.mpr ht'.chain, fun im him => List.getElem?_eq_none (hnew im him)⟩
  · obtain ⟨rest, ht⟩ := hchained t ht
    have hlater := ((loadMoments_spans hclosed trivial k t).2 r al t' hload).whole
    obtain ⟨new, ht', -⟩ := hlater.chained first rest ht
    refine ⟨first, new ++ rest, Linker.imageChain_eq_done.mpr ht'.chain, ?_⟩
    refine (ht.gives hload).imp_right fun ⟨im, hr, hpath⟩ => ?_
    exact ⟨im, (ht'.mem_iff im).mpr (by simp [hpath]), hr, hpath⟩

/-- `/A` and `/B` need each other. -/
def loopSystem : System :=
  plainSystem [("/A", plainLibrary [(.load, "/B")]), ("/B", plainLibrary [(.load, "/A")])]

theorem callMoments_chain_loop :
    (∀ t ∈ callMoments loopSystem 4 [.dlopen "/A", .loadLibraryEx "/B"] (started loopSystem),
      ∃ first rest, t.imageChain = done (first :: rest) ∧
        (first :: rest).Nodup ∧ t.sDylinker = some first ∧
        t.sImageCount = BitVec.ofNat 32 (first :: rest).length ∧
        ((first :: rest).map (origPath t)).Nodup ∧ rest.Pairwise (· > ·) ∧
        ∀ im, im ∈ rest ↔ origPath t im ≠ none) ∧
    ((started loopSystem :: callMoments loopSystem 4 [.dlopen "/A", .loadLibraryEx "/B"]
      (started loopSystem)).Pairwise fun t t' => ∃ first rest new,
        t.imageChain = done (first :: rest) ∧ t'.imageChain = done (first :: (new ++ rest)) ∧
          ∀ im ∈ new, t.images[im]? = none) ∧
    ∀ t ∈ started loopSystem :: callMoments loopSystem 4 [.dlopen "/A", .loadLibraryEx "/B"]
      (started loopSystem), ∀ k path r al t',
        loadLibraryEx loopSystem k path t = done (r, al, t') → ∃ first rest,
          t'.imageChain = done (first :: rest) ∧
            (r = some first ∨ ∃ im ∈ rest, r = some im ∧ origPath t' im = some path) :=
  callMoments_chain
    (rfl : startup loopSystem 1 false (fun _ => 0) = done (started loopSystem)) 4 _

/-- The call for `/A` goes on to `/B`, and that to `/A` again. -/
example : (callMoments loopSystem 4 [.dlopen "/A", .loadLibraryEx "/B"] (started loopSystem)).map
    (fun t => t.imageChain) = [done [0], done [0, 2], done [0, 2]] ++
      List.replicate 7 (done [0, 3, 2]) := by decide

end LibSystem.Lnk
