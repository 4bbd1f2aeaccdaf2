import LibSystem.Lnk.Loader

/-!
# What a load changes

A load puts new images behind the first one of the chain, rebases each of them
once, and leaves the chain and the state of the other images as they are.
-/

namespace LibSystem.Lnk

open Outcome

/-- The images made between `s` and `s'`, in order. -/
def newImages (s s' : Linker) : List ImageId :=
  List.range' s.images.length (s'.images.length - s.images.length)

def origPath (s : Linker) (im : ImageId) : Option String :=
  s.images[im]?.bind fun obj => obj.fOrigFilePath

def initializedFlag (s : Linker) (im : ImageId) : Option Bool :=
  s.images[im]?.map fun obj => obj.fHasInitialized

def nextLink (s : Linker) (im : ImageId) : Option (Option ImageId) :=
  s.images[im]?.map fun obj => obj.fNextImage

structure Loads (s s' : Linker) : Prop where
  first : s'.sFirstImage = s.sFirstImage
  dylinker : s'.sDylinker = s.sDylinker
  length : s.images.length ≤ s'.images.length
  chain : ∀ first rest, IsChain s.images s.sFirstImage (first :: rest) →
    IsChain s'.images s'.sFirstImage (first :: ((newImages s s').reverse ++ rest))
  links : ∀ im < s.images.length, s.sFirstImage ≠ some im → nextLink s' im = nextLink s im
  paths : ∀ im < s.images.length, origPath s' im = origPath s im
  flags : ∀ im < s.images.length, initializedFlag s' im = initializedFlag s im
  fresh : ∀ im ∈ newImages s s', initializedFlag s' im = some false

/-- The images of `ids` have been rebased between `s` and `s'`, and nothing else has happened. -/
def Rebased (s s' : Linker) (ids : List ImageId) : Prop :=
  ∃ events, s'.trace = s.trace ++ events ∧ events.Perm (ids.map .rebase)

variable {s s' s'' : Linker}

theorem lt_of_origPath {im : ImageId} {path : String} (h : origPath s im = some path) :
    im < s.images.length := by
  obtain ⟨obj, hobj, -⟩ := Option.bind_eq_some_iff.mp h
  exact (List.getElem?_eq_some_iff.mp hobj).1

theorem mem_newImages {im : Nat} :
    im ∈ newImages s s' ↔ s.images.length ≤ im ∧ im < s'.images.length := by
  unfold newImages
  rw [List.mem_range'_1]
  omega

theorem newImages_append (h : s.images.length ≤ s'.images.length)
    (h' : s'.images.length ≤ s''.images.length) :
    newImages s s'' = newImages s s' ++ newImages s' s'' := by
  unfold newImages
  rw [show s'.images.length = s.images.length + (s'.images.length - s.images.length) by omega,
    show s.images.length + (s'.images.length - s.images.length) - s.images.length =
      s'.images.length - s.images.length by omega, List.range'_append_1]
  congr 1
  omega

theorem newImages_eq_nil (h : s'.images.length = s.images.length) : newImages s s' = [] := by
  simp [newImages, h]

theorem Loads.refl (s : Linker) : Loads s s where
  first := rfl
  dylinker := rfl
  length := Nat.le_refl _
  chain first rest h := by rwa [newImages_eq_nil rfl]
  links _ _ _ := rfl
  paths _ _ := rfl
  flags _ _ := rfl
  fresh im him := by simp [newImages_eq_nil rfl] at him

theorem Loads.trans (h : Loads s s') (h' : Loads s' s'') : Loads s s'' where
  first := h'.first.trans h.first
  dylinker := h'.dylinker.trans h.dylinker
  length := h.length.trans h'.length
  chain first rest hc := by
    rw [newImages_append h.length h'.length, List.reverse_append, List.append_assoc]
    exact h'.chain first _ (h.chain first rest hc)
  links im him hne :=
    (h'.links im (him.trans_le h.length) (by rwa [h.first])).trans (h.links im him hne)
  paths im him := (h'.paths im (him.trans_le h.length)).trans (h.paths im him)
  flags im him := (h'.flags im (him.trans_le h.length)).trans (h.flags im him)
  fresh im him := by
    rw [newImages_append h.length h'.length, List.mem_append] at him
    rcases him with him | him
    · rw [h'.flags im (mem_newImages.mp him).2, h.fresh im him]
    · exact h'.fresh im him

theorem Rebased.refl (s : Linker) : Rebased s s [] := ⟨[], by simp, by simp⟩

theorem Rebased.trans {ids ids' : List ImageId} (h : Rebased s s' ids) (h' : Rebased s' s'' ids') :
    Rebased s s'' (ids ++ ids') := by
  obtain ⟨events, htrace, hperm⟩ := h
  obtain ⟨events', htrace', hperm'⟩ := h'
  refine ⟨events ++ events', by rw [htrace', htrace, List.append_assoc], ?_⟩
  rw [List.map_append]
  exact hperm.append hperm'

/-- A load, and the rebasing that goes with it. -/
def LoadsRebased (s s' : Linker) : Prop := Loads s s' ∧ Rebased s s' (newImages s s')

theorem LoadsRebased.refl (s : Linker) : LoadsRebased s s := by
  refine ⟨.refl s, ?_⟩
  rw [newImages_eq_nil rfl]
  exact .refl s

theorem LoadsRebased.trans (h : LoadsRebased s s') (h' : LoadsRebased s' s'') :
    LoadsRebased s s'' := by
  refine ⟨h.1.trans h'.1, ?_⟩
  rw [newImages_append h.1.length h'.1.length]
  exact h.2.trans h'.2

/-! ## Single changes -/

/-- `f` keeps the place of an image in the chain, its path and its flag. -/
structure Keeps (f : MachObject → MachObject) : Prop where
  next : ∀ obj, (f obj).fNextImage = obj.fNextImage
  path : ∀ obj, (f obj).fOrigFilePath = obj.fOrigFilePath
  flag : ∀ obj, (f obj).fHasInitialized = obj.fHasInitialized

theorem getElem?_modify (s : Linker) (im : ImageId) (f : MachObject → MachObject) (j : ImageId) :
    (s.modify im f).images[j]? = s.images[j]?.map fun obj => if im = j then f obj else obj := by
  show (s.images.modify im f)[j]? = _
  rw [List.getElem?_modify]
  rfl

theorem length_modify (s : Linker) (im : ImageId) (f : MachObject → MachObject) :
    (s.modify im f).images.length = s.images.length := List.length_modify _ _ _

section Modify

variable {f : MachObject → MachObject} (s : Linker) (im j : ImageId)

theorem nextLink_modify (h : ∀ obj, (f obj).fNextImage = obj.fNextImage) :
    nextLink (s.modify im f) j = nextLink s j := by
  unfold nextLink
  rw [getElem?_modify]
  cases s.images[j]? with
  | none => rfl
  | some obj => by_cases hj : im = j <;> simp [hj, h]

theorem origPath_modify (h : ∀ obj, (f obj).fOrigFilePath = obj.fOrigFilePath) :
    origPath (s.modify im f) j = origPath s j := by
  unfold origPath
  rw [getElem?_modify]
  cases s.images[j]? with
  | none => rfl
  | some obj => by_cases hj : im = j <;> simp [hj, h]

theorem initializedFlag_modify (h : ∀ obj, (f obj).fHasInitialized = obj.fHasInitialized) :
    initializedFlag (s.modify im f) j = initializedFlag s j := by
  unfold initializedFlag
  rw [getElem?_modify]
  cases s.images[j]? with
  | none => rfl
  | some obj => by_cases hj : im = j <;> simp [hj, h]

theorem reExports_modify (h : ∀ obj, (f obj).fReExports = obj.fReExports) :
    reExports (s.modify im f) j = reExports s j := by
  unfold reExports
  rw [getElem?_modify]
  cases s.images[j]? with
  | none => rfl
  | some obj => by_cases hj : im = j <;> simp [hj, h]

end Modify

theorem Keeps.loadsRebased {f : MachObject → MachObject} (h : Keeps f) (s : Linker) (im : ImageId) :
    LoadsRebased s (s.modify im f) := by
  have hnil : newImages s (s.modify im f) = [] := newImages_eq_nil (length_modify s im f)
  refine ⟨⟨rfl, rfl, (length_modify s im f).ge, ?_, ?_, ?_, ?_, by simp [hnil]⟩, ?_⟩
  · intro first rest hc
    rw [hnil]
    exact hc.congr fun j _ => nextLink_modify s im j h.next
  · exact fun j _ _ => nextLink_modify s im j h.next
  · exact fun j _ => origPath_modify s im j h.path
  · exact fun j _ => initializedFlag_modify s im j h.flag
  · rw [hnil]
    exact ⟨[], by simp [Linker.modify], by simp⟩

theorem Loads.of_images (himages : s'.images = s.images) (hfirst : s'.sFirstImage = s.sFirstImage)
    (hdylinker : s'.sDylinker = s.sDylinker) : Loads s s' := by
  have hnil : newImages s s' = [] := newImages_eq_nil (by rw [himages])
  refine ⟨hfirst, hdylinker, (by rw [himages]), ?_, ?_, ?_, ?_, by simp [hnil]⟩
  · intro first rest hc
    rw [hnil, himages, hfirst]
    exact hc
  · intro im _ _
    rw [nextLink, himages]
    rfl
  · intro im _
    rw [origPath, himages]
    rfl
  · intro im _
    rw [initializedFlag, himages]
    rfl

theorem LoadsRebased.of_images (himages : s'.images = s.images)
    (hfirst : s'.sFirstImage = s.sFirstImage) (hdylinker : s'.sDylinker = s.sDylinker)
    (htrace : s'.trace = s.trace) : LoadsRebased s s' := by
  refine ⟨.of_images himages hfirst hdylinker, ?_⟩
  rw [newImages_eq_nil (by rw [himages])]
  exact ⟨[], by simp [htrace], by simp⟩

/-! ## A new image -/

theorem getElem?_relink (images : List MachObject) (first lib : ImageId) (a b : Option ImageId)
    (j : ImageId) :
    ((images.modify lib fun o => o.setNextImage a).modify first fun o => o.setNextImage b)[j]? =
      images[j]?.map fun o =>
        o.setNextImage (if first = j then b else if lib = j then a else o.fNextImage) := by
  rw [List.getElem?_modify, List.getElem?_modify]
  cases images[j]? with
  | none => rfl
  | some o =>
    by_cases hfirst : first = j <;> by_cases hlib : lib = j <;>
      simp [hfirst, hlib, MachObject.setNextImage]

theorem instantiateFromFile_eq_done {nn path : String} {file : File} {lib : ImageId}
    (h : instantiateFromFile nn path file s = done (lib, s')) :
    lib = s.images.length ∧ s'.sFirstImage = s.sFirstImage ∧ s'.sDylinker = s.sDylinker ∧
      s'.trace = s.trace ∧ ∃ obj, s'.images = s.images ++ [obj] ∧
        obj.fOrigFilePath = some path ∧ obj.fHasInitialized = false ∧ obj.fReExports = [] := by
  unfold instantiateFromFile at h
  split at h
  · simp at h
  dsimp only at h
  split at h
  · simp at h
  split at h
  · simp at h
  · simp only [done.injEq, Prod.mk.injEq] at h
    obtain ⟨rfl, rfl⟩ := h
    exact ⟨rfl, rfl, rfl, rfl, _, rfl, rfl, rfl, rfl⟩

theorem insertImage_eq_done {lib : ImageId} (h : insertImage lib s = done s') :
    s'.sFirstImage = s.sFirstImage ∧ s'.sDylinker = s.sDylinker ∧ s'.trace = s.trace ∧
      ∃ first obj, s.sFirstImage = some first ∧ s.images[first]? = some obj ∧
        s'.images = (s.images.modify lib fun o => o.setNextImage obj.fNextImage).modify first
          fun o => o.setNextImage (some lib) := by
  obtain ⟨first, hfirst, h⟩ := bind_eq_done.mp h
  obtain ⟨obj, hobj, h⟩ := bind_eq_done.mp h
  obtain rfl := done.inj h
  exact ⟨rfl, rfl, rfl, first, obj, ofOption_eq_done.mp hfirst, ofOption_eq_done.mp hobj, rfl⟩

/-- The state in which the load commands of a new image are parsed. -/
structure Inserted (s s' : Linker) (path : String) : Prop where
  loads : Loads s s'
  length : s'.images.length = s.images.length + 1
  path : origPath s' s.images.length = some path
  reExports : ∀ im, reExports s' im = reExports s im
  trace : s'.trace = s.trace

theorem inserted {nn path : String} {file : File} {lib : ImageId}
    (hnew : instantiateFromFile nn path file s = done (lib, s'))
    (hins : insertImage lib s' = done s'') : lib = s.images.length ∧ Inserted s s'' path := by
  obtain ⟨rfl, hfirst1, hdylinker1, htrace1, new, himages1, hpath, hflag, hreexports⟩ :=
    instantiateFromFile_eq_done hnew
  obtain ⟨hfirst2, hdylinker2, htrace2, first, obj, hfirst, hobj, himages2⟩ :=
    insertImage_eq_done hins
  rw [himages1] at himages2 hobj
  rw [hfirst1] at hfirst
  have hget := getElem?_relink (s.images ++ [new]) first s.images.length obj.fNextImage
    (some s.images.length)
  rw [← himages2] at hget
  have hlen : s''.images.length = s.images.length + 1 := by simp [himages2]
  have hold : ∀ j < s.images.length, (s.images ++ [new])[j]? = s.images[j]? :=
    fun j hj => List.getElem?_append_left hj
  have hlib : s''.images[s.images.length]? = some (new.setNextImage
      (if first = s.images.length then some s.images.length else obj.fNextImage)) := by
    simp [hget]
  have hids : newImages s s'' = [s.images.length] := by simp [newImages, hlen]
  have hlink : ∀ j < s.images.length, first ≠ j → nextLink s'' j = nextLink s j := by
    intro j hj hne
    rw [nextLink, hget, hold j hj, Option.map_map, nextLink]
    congr 1
    funext o
    simp [MachObject.setNextImage, hne, hj.ne']
  refine ⟨rfl, ⟨?_, ?_, by omega, ?_, ?_, ?_, ?_, ?_⟩, hlen, ?_, ?_, ?_⟩
  · rw [hfirst2, hfirst1]
  · rw [hdylinker2, hdylinker1]
  · intro f rest hc
    rw [hids, hfirst2, hfirst1, hfirst]
    rw [hfirst] at hc
    have hlt := hc.lt_length
    have hnodup := List.nodup_cons.mp hc.nodup
    obtain ⟨heq, obj', hobj', hrest⟩ := hc
    obtain rfl : first = f := by simpa using heq
    have hltf := hlt first (by simp)
    obtain rfl : obj' = obj := by
      rw [hold first hltf, hobj'] at hobj
      simpa using hobj
    refine ⟨rfl, _, by rw [hget, hold first hltf, hobj', Option.map_some], ?_⟩
    refine ⟨by simp [MachObject.setNextImage], _, hlib, ?_⟩
    rw [if_neg hltf.ne]
    exact hrest.congr fun j hj => hlink j (hlt j (by simp [hj])) fun h => hnodup.1 (h ▸ hj)
  · intro j hj hne
    exact hlink j hj fun h => hne (by rw [hfirst, h])
  · intro j hj
    rw [origPath, hget, hold j hj, origPath]
    cases s.images[j]? <;> rfl
  · intro j hj
    rw [initializedFlag, hget, hold j hj, initializedFlag]
    cases s.images[j]? <;> rfl
  · intro j hj
    obtain rfl : j = s.images.length := by simpa [hids] using hj
    rw [initializedFlag, hlib]
    exact congrArg some hflag
  · rw [origPath, hlib]
    exact hpath
  · intro j
    rcases Nat.lt_trichotomy j s.images.length with hj | rfl | hj
    · rw [reExports, hget, hold j hj, reExports]
      cases s.images[j]? <;> rfl
    · rw [reExports, hlib, reExports, List.getElem?_eq_none (Nat.le_refl _)]
      exact hreexports
    · have hnone : s''.images[j]? = none := List.getElem?_eq_none (by omega)
      rw [reExports, hnone, reExports, List.getElem?_eq_none hj.le]
  · rw [htrace2, htrace1]

/-! ## Parsing -/

theorem addDependency_keeps (kind : DylibKind) (dep : ImageId) : Keeps (addDependency kind dep) :=
  ⟨fun _ => rfl, fun _ => rfl, fun _ => rfl⟩

theorem finishParse_keeps (l : ParseLocals) : Keeps (finishParse l) := by
  refine ⟨?_, ?_, ?_⟩ <;> intro obj <;> unfold finishParse <;> split <;> rfl

def LoadCommand.dylib? : LoadCommand → Option (DylibKind × String)
  | .dylib kind name => some (kind, name)
  | _ => none

section Parsing

variable {load : String → Linker → Outcome (Option ImageId × Linker)}

/-- What one command can do: fill in fields of the image, or load a library. -/
theorem parseLoadCommand_cases {this : ImageId} {l l' : ParseLocals} {cmd : LoadCommand}
    (h : parseLoadCommand load this s l cmd = done (s', l')) :
    (cmd.dylib? = none ∧ ∃ f, Keeps f ∧ (∀ obj, (f obj).fReExports = obj.fReExports) ∧
      s' = s.modify this f) ∨
    ∃ kind name dep s1, cmd.dylib? = some (kind, name) ∧ load name s = done (some dep, s1) ∧
      s' = s1.modify this (addDependency kind dep) := by
  cases cmd with
  | segment seg =>
    obtain ⟨obj, -, h⟩ := bind_eq_done.mp h
    split at h
    · simp at h
    · obtain ⟨rfl, -⟩ := by simpa using h
      refine .inl ⟨rfl, _, ⟨?_, ?_, ?_⟩, ?_, rfl⟩ <;> exact fun _ => rfl
  | routines initAddress =>
    obtain ⟨rfl, -⟩ := by simpa [parseLoadCommand] using h
    refine .inl ⟨rfl, _, ⟨?_, ?_, ?_⟩, ?_, rfl⟩ <;> exact fun _ => rfl
  | dylib kind name =>
    obtain ⟨⟨dep, s1⟩, hdep, h⟩ := bind_eq_done.mp h
    cases dep with
    | none => simp at h
    | some dep =>
      obtain ⟨obj, -, h⟩ := bind_eq_done.mp h
      split at h
      · simp at h
      · obtain ⟨rfl, -⟩ := by simpa using h
        exact .inr ⟨kind, name, dep, s1, rfl, hdep, rfl⟩
  | symtab stroff symoff asDysymtab =>
    obtain ⟨obj, -, h⟩ := bind_eq_done.mp h
    split at h
    · simp at h
    · obtain ⟨rfl, -⟩ := by simpa using h
      refine .inl ⟨rfl, _, ⟨?_, ?_, ?_⟩, ?_, rfl⟩ <;> exact fun _ => rfl
  | dysymtab cmd =>
    obtain ⟨rfl, -⟩ := by simpa [parseLoadCommand] using h
    refine .inl ⟨rfl, _, ⟨?_, ?_, ?_⟩, ?_, rfl⟩ <;> exact fun _ => rfl
  | dyldInfo cmd =>
    obtain ⟨rfl, -⟩ := by simpa [parseLoadCommand] using h
    refine .inl ⟨rfl, _, ⟨?_, ?_, ?_⟩, ?_, rfl⟩ <;> exact fun _ => rfl
  | other =>
    obtain ⟨rfl, -⟩ := by simpa [parseLoadCommand] using h
    refine .inl ⟨rfl, id, ⟨fun _ => rfl, fun _ => rfl, fun _ => rfl⟩, fun _ => rfl, ?_⟩
    simp [Linker.modify]

variable (hload : ∀ name s r s', load name s = done (r, s') → LoadsRebased s s')

include hload

theorem parseLoadCommand_loads {this : ImageId} {l l' : ParseLocals} {cmd : LoadCommand}
    (h : parseLoadCommand load this s l cmd = done (s', l')) : LoadsRebased s s' := by
  obtain ⟨-, f, hkeeps, -, rfl⟩ | ⟨kind, name, dep, s1, -, hdep, rfl⟩ := parseLoadCommand_cases h
  · exact hkeeps.loadsRebased s this
  · exact (hload name s _ s1 hdep).trans ((addDependency_keeps kind dep).loadsRebased s1 this)

theorem parseLoop_loads {this : ImageId} {commands : List LoadCommand} {l l' : ParseLocals}
    (h : parseLoop load this commands s l = done (s', l')) : LoadsRebased s s' := by
  induction commands generalizing s l with
  | nil =>
    obtain ⟨rfl, -⟩ := by simpa [parseLoop] using h
    exact .refl s
  | cons cmd commands ih =>
    obtain ⟨⟨s1, l1⟩, hcmd, h⟩ := bind_eq_done.mp h
    exact (parseLoadCommand_loads hload hcmd).trans (ih h)

omit hload in
theorem parseLoadCommands_eq_done {sys : System} {this : ImageId} {commands : List LoadCommand}
    (h : parseLoadCommands sys load this commands s = done s') :
    ∃ s1 l1, parseLoop load this commands s ⟨sys.compressedSlot this, 0, 0⟩ = done (s1, l1) ∧
      s1.images.length = s'.images.length ∧ LoadsRebased s1 s' ∧
        ∀ im, reExports s' im = reExports s1 im := by
  obtain ⟨s1, l1, obj, hloop, -, rfl⟩ := parseLoadCommands_loop h
  have hfinish := (finishParse_keeps l1).loadsRebased s1 this
  refine ⟨s1, l1, hloop, (length_modify _ _ _).symm, hfinish.trans (.of_images rfl rfl rfl rfl),
    fun im => reExports_modify s1 this im fun obj => ?_⟩
  unfold finishParse
  split <;> rfl

theorem parseLoadCommands_loads {sys : System} {this : ImageId} {commands : List LoadCommand}
    (h : parseLoadCommands sys load this commands s = done s') : LoadsRebased s s' := by
  obtain ⟨s1, l1, hloop, -, hrest, -⟩ := parseLoadCommands_eq_done h
  exact (parseLoop_loads hload hloop).trans hrest

end Parsing

/-! ## The whole load -/

theorem doRebase_eq_done {sys : System} {im : ImageId} (h : doRebase sys s im = done s') :
    ∃ mem, s' = { s with mem := mem }.record (.rebase im) := by
  obtain ⟨obj, -, h⟩ := bind_eq_done.mp h
  dsimp only at h
  split at h
  · split at h
    · exact ⟨s.mem, (done.inj h).symm⟩
    · obtain ⟨mem, -, h⟩ := bind_eq_done.mp h
      exact ⟨mem, (done.inj h).symm⟩
  · obtain ⟨info, -, h⟩ := bind_eq_done.mp h
    obtain ⟨mem, -, h⟩ := bind_eq_done.mp h
    exact ⟨mem, (done.inj h).symm⟩

theorem findLoaded_eq_done {path : String} {r : Option ImageId}
    (h : findLoaded s path = done r) : ∃ chain, s.imageChain = done chain ∧
      r = chain.find? fun im => origPath s im = some path := by
  obtain ⟨chain, hchain, h⟩ := bind_eq_done.mp h
  exact ⟨chain, hchain, (done.inj h).symm⟩

theorem findLoaded_path {path : String} {im : ImageId} (h : findLoaded s path = done (some im)) :
    origPath s im = some path := by
  obtain ⟨chain, -, hfind⟩ := findLoaded_eq_done h
  simpa using List.find?_some hfind.symm

/-- A load that opens a file. `before` and `after` are the states around the parsing. -/
structure Opens (sys : System) (fuel : Nat) (path : String) (s s' : Linker) (file : File)
    (before after : Linker) : Prop where
  opened : ∃ nn, openLibrary sys path = some (nn, file)
  inserted : Inserted s before path
  parsed : parseLoadCommands sys (loadLibrary sys fuel) s.images.length file.commands before =
    done after
  rebased : doRebase sys after s.images.length = done s'

theorem loadLibraryEx_cases {sys : System} {fuel : Nat} {path : String} {r : Option ImageId}
    {al : Option Bool} (h : loadLibraryEx sys (fuel + 1) path s = done (r, al, s')) :
    ((path = libsystemPath ∨ path = libgccPath) ∧ r = s.sFirstImage ∧ s' = s) ∨
    (¬ (path = libsystemPath ∨ path = libgccPath) ∧
      ((∃ im, findLoaded s path = done (some im) ∧ r = some im ∧ al = some true ∧ s' = s) ∨
      (findLoaded s path = done none ∧
        ((openLibrary sys path = none ∧ r = s.sDylinker ∧ s' = s) ∨
        (r = some s.images.length ∧ al = some false ∧
          ∃ file before after, Opens sys fuel path s s' file before after))))) := by
  unfold loadLibraryEx at h
  split at h
  · rename_i hspecial
    simp only [done.injEq, Prod.mk.injEq] at h
    exact .inl ⟨hspecial, h.1.symm, h.2.2.symm⟩
  rename_i hspecial
  refine .inr ⟨hspecial, ?_⟩
  obtain ⟨found, hfound, h⟩ := bind_eq_done.mp h
  cases found with
  | some im =>
    simp only [done.injEq, Prod.mk.injEq] at h
    exact .inl ⟨im, hfound, h.1.symm, h.2.1.symm, h.2.2.symm⟩
  | none =>
    refine .inr ⟨hfound, ?_⟩
    dsimp only at h
    split at h
    · rename_i hopen
      simp only [done.injEq, Prod.mk.injEq] at h
      exact .inl ⟨hopen, h.1.symm, h.2.2.symm⟩
    · rename_i nn file hopen
      obtain ⟨⟨lib, s1⟩, hnew, h⟩ := bind_eq_done.mp h
      obtain ⟨before, hins, h⟩ := bind_eq_done.mp h
      obtain ⟨after, hparse, h⟩ := bind_eq_done.mp h
      obtain ⟨s3, hrebase, h⟩ := bind_eq_done.mp h
      obtain ⟨rfl, hinserted⟩ := inserted hnew hins
      simp only [done.injEq, Prod.mk.injEq] at h
      obtain ⟨rfl, rfl, rfl⟩ := h
      exact .inr ⟨rfl, rfl, file, before, after, ⟨nn, hopen⟩, hinserted, hparse, hrebase⟩

theorem Opens.loadsRebased {sys : System} {fuel : Nat} {path : String} {file : File}
    {before after : Linker} (h : Opens sys fuel path s s' file before after)
    (hparse : LoadsRebased before after) :
    newImages s s' = s.images.length :: newImages before after ∧ LoadsRebased s s' := by
  obtain ⟨mem, rfl⟩ := doRebase_eq_done h.rebased
  set s' : Linker := { after with mem := mem }.record (.rebase s.images.length) with hs'
  have hlast : Loads after s' := .of_images rfl rfl rfl
  have hids : newImages s s' = s.images.length :: newImages before after := by
    rw [newImages_append h.inserted.loads.length (hparse.1.length.trans hlast.length),
      newImages_append hparse.1.length hlast.length,
      newImages_eq_nil (show s'.images.length = after.images.length from rfl), List.append_nil]
    simp [newImages, h.inserted.length]
  refine ⟨hids, (h.inserted.loads.trans hparse.1).trans hlast, ?_⟩
  obtain ⟨events, htrace, hperm⟩ := hparse.2
  refine ⟨events ++ [.rebase s.images.length], ?_, ?_⟩
  · show after.trace ++ [.rebase s.images.length] = _
    rw [htrace, h.inserted.trace, List.append_assoc]
  · rw [hids, List.map_cons]
    exact (List.perm_append_singleton _ _).trans (hperm.cons _)

theorem loadLibrary_eq_done {sys : System} {fuel : Nat} {name : String} {r : Option ImageId} :
    loadLibrary sys fuel name s = done (r, s') ↔
      ∃ al, loadLibraryEx sys fuel name s = done (r, al, s') := by
  unfold loadLibrary
  rw [bind_eq_done]
  constructor
  · rintro ⟨⟨im, al, s1⟩, hload, heq⟩
    simp only [done.injEq, Prod.mk.injEq] at heq
    obtain ⟨rfl, rfl⟩ := heq
    exact ⟨al, hload⟩
  · rintro ⟨al, hload⟩
    exact ⟨_, hload, rfl⟩

/-- **A load adds images and rebases them.** -/
theorem loadLibraryEx_loads {sys : System} {fuel : Nat} {path : String} {r : Option ImageId}
    {al : Option Bool} (h : loadLibraryEx sys fuel path s = done (r, al, s')) :
    LoadsRebased s s' := by
  induction fuel generalizing path s s' r al with
  | zero => simp [loadLibraryEx] at h
  | succ fuel ih =>
    obtain ⟨-, -, rfl⟩ | ⟨-, ⟨im, -, -, -, rfl⟩ | ⟨-,
      ⟨-, -, rfl⟩ | ⟨-, -, file, before, after, hopens⟩⟩⟩ := loadLibraryEx_cases h
    · exact .refl _
    · exact .refl _
    · exact .refl _
    · refine (hopens.loadsRebased (parseLoadCommands_loads ?_ hopens.parsed)).2
      intro name s r s' hload
      obtain ⟨al, hload⟩ := loadLibrary_eq_done.mp hload
      exact ih hload

theorem loadLibrary_loads {sys : System} {fuel : Nat} {name : String} {r : Option ImageId}
    (h : loadLibrary sys fuel name s = done (r, s')) : LoadsRebased s s' := by
  obtain ⟨al, hload⟩ := loadLibrary_eq_done.mp h
  exact loadLibraryEx_loads hload

end LibSystem.Lnk
