import LibSystem.Run
import LibSystem.Lnk.Chain

/-!
# The caller's path buffers

`instantiateFromFile` keeps the pointer that `dlopen` was called with. The strings that later calls
are compared with are what the caller has in these buffers by then.
-/

namespace LibSystem.Lnk

open Outcome

/-! ## The state -/

/-- The linker as it sees itself when `fOrigFilePath` of the images leads to these strings. -/
def Linker.withPaths (s : Linker) (paths : ImageId → Option String) : Linker :=
  { s with images := s.images.mapIdx fun im obj => { obj with fOrigFilePath := paths im } }

structure Caller where
  /-- Here `fOrigFilePath` is what the pointer led to when the image was loaded. -/
  linker : Linker
  buffers : Nat → String
  /-- The buffer that `fOrigFilePath` of the image points to. A load command is in none. -/
  pointers : ImageId → Option Nat

/-- What `fOrigFilePath` leads to now. -/
def Caller.current (c : Caller) (im : ImageId) : Option String :=
  match c.pointers im with
  | some buffer => some (c.buffers buffer)
  | none => origPath c.linker im

def Caller.view (c : Caller) : Linker := c.linker.withPaths c.current

/-- The image that a call adds before all others is the one for the path of the call. -/
def Caller.dlopen (sys : System) (fuel buffer : Nat) (c : Caller) :
    Outcome (Option ImageId × Caller) := do
  let (handle, s) ← Lnk.dlopen sys fuel (c.buffers buffer) c.view
  let this := c.linker.images.length
  .done (handle, { c with
    linker := s.withPaths fun im =>
      if im < this then origPath c.linker im else origPath s im
    pointers := fun im =>
      if im = this ∧ this < s.images.length then some buffer else c.pointers im })

def Caller.write (c : Caller) (buffer : Nat) (text : String) : Caller :=
  { c with buffers := fun j => if j = buffer then text else c.buffers j }

inductive CallerAction where
  | write (buffer : Nat) (text : String)
  | dlopen (fuel buffer : Nat)

inductive Caller.Step (sys : System) (c : Caller) : CallerAction → Caller → Prop where
  | write (buffer : Nat) (text : String) :
    Caller.Step sys c (.write buffer text) (c.write buffer text)
  | dlopen {fuel buffer : Nat} {handle : Option ImageId} {c' : Caller}
    (h : c.dlopen sys fuel buffer = done (handle, c')) :
    Caller.Step sys c (.dlopen fuel buffer) c'

/-- The startup loads nothing by a path of the caller. -/
def Caller.start (buffers : Nat → String) (s : Linker) : Caller where
  linker := s
  buffers := buffers
  pointers := fun _ => none

/-! ## What a caller may expect -/

/-- The answer to a call with this path. -/
structure Answers (sys : System) (c : Caller) (path : String) : Prop where
  own : ∀ fuel im s, Lnk.dlopen sys fuel path c.view = done (some im, s) →
    im < c.linker.images.length → origPath c.linker im = some path
  again : ∀ im, origPath c.linker im = some path →
    ∀ fuel, Lnk.dlopen sys (fuel + 1) path c.view = done (some im, c.view)

/-- Each buffer still holds the path that an image was loaded under. -/
def Intact (c : Caller) : Prop :=
  ∀ im buffer, c.pointers im = some buffer → origPath c.linker im = some (c.buffers buffer)

/-- The same for one path: the image that was loaded under it still has it, and no image before
that one in the chain has it by now. -/
structure IntactFor (c : Caller) (path : String) : Prop where
  kept : ∀ im, origPath c.linker im = some path → c.current im = some path
  first : ∀ chain im, c.linker.imageChain = done chain →
    chain.find? (fun im => c.current im = some path) = some im → origPath c.linker im = some path

/-- No call comes while a buffer is changed. -/
def InPlace (c : Caller) : CallerAction → Prop
  | .write _ _ => True
  | .dlopen _ _ => Intact c

variable {sys : System} {fuel : Nat} {s s' : Linker} {c c' : Caller}

/-! ## The strings -/

theorem getElem?_withPaths (s : Linker) (paths : ImageId → Option String) (im : ImageId) :
    (s.withPaths paths).images[im]? =
      s.images[im]?.map fun obj => { obj with fOrigFilePath := paths im } :=
  List.getElem?_mapIdx

@[simp] theorem length_withPaths (s : Linker) (paths : ImageId → Option String) :
    (s.withPaths paths).images.length = s.images.length :=
  List.length_mapIdx

theorem origPath_withPaths (s : Linker) (paths : ImageId → Option String) (im : ImageId) :
    origPath (s.withPaths paths) im = s.images[im]?.bind fun _ => paths im := by
  unfold origPath
  rw [getElem?_withPaths]
  cases s.images[im]? <;> rfl

theorem withPaths_eq_self {paths : ImageId → Option String}
    (h : ∀ im < s.images.length, paths im = origPath s im) : s.withPaths paths = s := by
  have himages : (s.withPaths paths).images = s.images := by
    refine List.ext_getElem? fun im => ?_
    rw [getElem?_withPaths]
    cases hobj : s.images[im]? with
    | none => rfl
    | some obj =>
      have hpath := h im (List.getElem?_eq_some_iff.mp hobj).1
      rw [origPath, hobj] at hpath
      rw [Option.map_some, hpath]
      rfl
  calc s.withPaths paths = { s with images := (s.withPaths paths).images } := rfl
    _ = s := by rw [himages]

theorem Valid.withPaths (h : Valid s) (paths : ImageId → Option String) :
    Valid (s.withPaths paths) := by
  obtain ⟨first, rest, hc⟩ := h.chain
  refine ⟨⟨first, rest, hc.congr fun im _ => ?_⟩, h.dylinker, fun e he => ?_⟩
  · rw [getElem?_withPaths, Option.map_map]
    rfl
  · rw [length_withPaths]
    exact h.events e he

theorem Intact.current (h : Intact c) (im : ImageId) : c.current im = origPath c.linker im := by
  unfold Caller.current
  split
  · rename_i buffer hpointer
    exact (h im buffer hpointer).symm
  · rfl

theorem Intact.view (h : Intact c) : c.view = c.linker :=
  withPaths_eq_self fun im _ => h.current im

theorem Intact.intactFor (h : Intact c) (path : String) : IntactFor c path where
  kept im him := (h.current im).trans him
  first chain im _ hfind := by
    have him : c.current im = some path := by simpa using List.find?_some hfind
    rwa [h.current] at him

/-! ## One call -/

theorem dlopen_old (h : Valid s) {path : String} {im : ImageId}
    (hopen : dlopen sys fuel path s = done (some im, s')) (him : im < s.images.length) :
    findLoaded s path = done (some im) := by
  obtain ⟨⟨dlib, al, s1⟩, hload, hrest⟩ := bind_eq_done.mp hopen
  dsimp only at hrest
  cases fuel with
  | zero => simp [loadLibraryEx] at hload
  | succ fuel =>
    obtain ⟨-, rfl, rfl⟩ | ⟨-, ⟨found, hfound, rfl, rfl, rfl⟩ | ⟨-,
      ⟨-, rfl, rfl⟩ | ⟨rfl, rfl, -⟩⟩⟩ := loadLibraryEx_cases hload
    · rw [if_pos rfl] at hrest
      simp at hrest
    · split at hrest
      · simp at hrest
      · rw [if_pos rfl] at hrest
        obtain ⟨rfl, -⟩ := by simpa using hrest
        exact hfound
    · rw [if_pos h.dylinker] at hrest
      simp at hrest
    · split at hrest
      · simp at hrest
      rw [if_neg (by simp), ofOption_some, done_bind] at hrest
      obtain ⟨bound, -, hrest⟩ := bind_eq_done.mp hrest
      obtain ⟨s2, -, hrest⟩ := bind_eq_done.mp hrest
      obtain ⟨rfl, -⟩ := by simpa using hrest
      exact absurd him (Nat.lt_irrefl _)

theorem dlopen_found {path : String} {im : ImageId}
    (hspecial : ¬ (path = libsystemPath ∨ path = libgccPath))
    (hfound : findLoaded s path = done (some im)) (hne : some im ≠ s.sFirstImage) (fuel : Nat) :
    dlopen sys (fuel + 1) path s = done (some im, s) := by
  unfold dlopen loadLibraryEx
  rw [if_neg hspecial, hfound]
  simp [hne]

theorem dlopen_special {path : String} {handle : Option ImageId}
    (hspecial : path = libsystemPath ∨ path = libgccPath)
    (h : dlopen sys fuel path s = done (handle, s')) : handle = none := by
  cases fuel with
  | zero => simp [dlopen, loadLibraryEx] at h
  | succ fuel =>
    unfold dlopen loadLibraryEx at h
    rw [if_pos hspecial] at h
    simp at h
    exact h.1.symm

theorem Chained.ordinary {asked : String → Prop} {first : ImageId} {rest : List ImageId}
    (h : Chained sys asked s first rest) {path : String} {im : ImageId}
    (him : origPath s im = some path) : ¬ (path = libsystemPath ∨ path = libgccPath) := by
  obtain ⟨path', -, -, hpath, -, -, -, hspecial⟩ := h.names im (h.covers im (by simp [him]))
  obtain rfl : path' = path := by simpa [him] using hpath.symm
  exact hspecial

theorem Chained.ne_first {asked : String → Prop} {first : ImageId} {rest : List ImageId}
    (h : Chained sys asked s first rest) {im : ImageId} (him : origPath s im ≠ none) :
    some im ≠ s.sFirstImage := by
  rw [h.chain.1, Ne, Option.some.injEq]
  rintro rfl
  exact him h.linker.1

theorem dlopen_path (h : Valid s) {path : String} {handle : Option ImageId}
    (hopen : dlopen sys fuel path s = done (handle, s'))
    (hnew : s.images.length < s'.images.length) : origPath s' s.images.length = some path := by
  obtain ⟨rfl, -⟩ | ⟨-, -, file, loaded, ⟨fuel, before, after, hopens⟩, bound, hbind, hinit⟩ :=
    dlopen_cases h hopen
  · exact absurd hnew (Nat.lt_irrefl _)
  · obtain ⟨-, -, events, hwork, -⟩ := doInitialize_works hinit
    obtain ⟨mem, rfl⟩ := doRebase_eq_done hopens.rebased
    have hlt : s.images.length < before.images.length := by
      rw [hopens.inserted.length]
      exact Nat.lt_succ_self _
    rw [hwork.paths, (doBindSymbols_works hbind).paths]
    exact (hopens.parse_loads.1.paths _ hlt).trans hopens.inserted.path

theorem dlopen_later {path : String} {handle : Option ImageId}
    (h : dlopen sys fuel path s = done (handle, s')) : Later sys (fun _ => True) s s' := by
  have hrun : Call.run sys fuel s (.dlopen path) = done s' :=
    bind_eq_done.mpr ⟨(handle, s'), h, rfl⟩
  exact (Call.run_later (fun _ _ _ _ _ _ _ _ => trivial) trivial hrun).whole

theorem dlopen_paths (h : Valid s) {path : String} {handle : Option ImageId}
    (hopen : dlopen sys fuel path s = done (handle, s')) :
    ∀ im < s.images.length, origPath s' im = origPath s im := by
  obtain ⟨rfl, -⟩ | ⟨-, -, file, loaded, ⟨fuel, before, after, hopens⟩, bound, hbind, hinit⟩ :=
    dlopen_cases h hopen
  · exact fun _ _ => rfl
  · obtain ⟨-, -, events, hwork, -⟩ := doInitialize_works hinit
    intro im him
    rw [hwork.paths, (doBindSymbols_works hbind).paths]
    exact (hopens.loadsRebased hopens.parse_loads).2.1.paths im him

/-! ## The runs -/

/-- What holds of the paths that the images were loaded under. -/
structure Named (sys : System) (c : Caller) : Prop where
  valid : Valid c.linker
  chained : ∃ first rest, Chained sys (fun _ => True) c.linker first rest
  pointed : ∀ im buffer, c.pointers im = some buffer → origPath c.linker im ≠ none

theorem Named.write (h : Named sys c) (buffer : Nat) (text : String) :
    Named sys (c.write buffer text) :=
  ⟨h.valid, h.chained, h.pointed⟩

theorem Named.dlopen (h : Named sys c) (hintact : Intact c) {buffer : Nat}
    {handle : Option ImageId} (hopen : c.dlopen sys fuel buffer = done (handle, c')) :
    Named sys c' := by
  obtain ⟨⟨handle', s⟩, hopen, hrest⟩ := bind_eq_done.mp hopen
  rw [hintact.view] at hopen
  have hpaths := dlopen_paths h.valid hopen
  have hlinker : c'.linker = s := by
    rw [← (Prod.mk.inj (done.inj hrest)).2]
    refine withPaths_eq_self fun im _ => ?_
    by_cases him : im < c.linker.images.length
    · rw [if_pos him, hpaths im him]
    · rw [if_neg him]
  have hpointers : c'.pointers = fun im => if im = c.linker.images.length ∧
      c.linker.images.length < s.images.length then some buffer else c.pointers im := by
    rw [← (Prod.mk.inj (done.inj hrest)).2]
  refine ⟨hlinker ▸ h.valid.dlopen hopen, ?_, fun im b hpointer => ?_⟩
  · obtain ⟨first, rest, hchained⟩ := h.chained
    obtain ⟨new, hchained', -⟩ := (dlopen_later hopen).chained first rest hchained
    exact ⟨first, _, hlinker ▸ hchained'⟩
  · rw [hlinker]
    simp only [hpointers] at hpointer
    split at hpointer
    · rename_i hnew
      rw [hnew.1, dlopen_path h.valid hopen hnew.2]
      simp
    · obtain ⟨path, hpath⟩ := Option.ne_none_iff_exists'.mp (h.pointed im b hpointer)
      rw [hpaths im (lt_of_origPath hpath), hpath]
      simp

theorem named_start {garbage : Bool} {mem : Mem}
    (h : startup sys fuel garbage mem = done s) (buffers : Nat → String) :
    Named sys (.start buffers s) :=
  ⟨startup_valid h, startup_chained (fun _ _ _ _ _ _ _ _ => trivial) (fun _ _ => trivial) h,
    fun _ _ hpointer => by simp [Caller.start] at hpointer⟩

theorem Caller.findLoaded_view {chain : List ImageId}
    (hchain : c.linker.imageChain = done chain) (path : String) :
    Lnk.findLoaded c.view path = done (chain.find? fun im => c.current im = some path) := by
  have hc : IsChain c.linker.images c.linker.sFirstImage chain :=
    Linker.imageChain_eq_done.mp hchain
  have hview : IsChain c.view.images c.view.sFirstImage chain := hc.congr fun im _ => by
    rw [Caller.view, getElem?_withPaths, Option.map_map]
    rfl
  unfold Lnk.findLoaded
  rw [Linker.imageChain_eq_done.mpr hview, done_bind]
  rw [← List.head?_filter, ← List.head?_filter]
  refine congrArg (fun l : List ImageId => done l.head?) (List.filter_congr fun im him => ?_)
  change decide (origPath c.view im = some path) = _
  rw [Caller.view, origPath_withPaths, List.getElem?_eq_getElem (hc.lt_length im him),
    Option.bind_some]

namespace Named

theorem current_ne_none (h : Named sys c) {im : ImageId} (him : c.current im ≠ none) :
    origPath c.linker im ≠ none := by
  cases hpointer : c.pointers im with
  | some buffer => exact h.pointed im buffer hpointer
  | none => rwa [Caller.current, hpointer] at him

/-- The answer for one path. -/
theorem answers_iff (h : Named sys c) (path : String) :
    Answers sys c path ↔ (path = libsystemPath ∨ path = libgccPath) ∨ IntactFor c path := by
  obtain ⟨first, rest, hchained⟩ := h.chained
  have hchain := Linker.imageChain_eq_done.mpr hchained.chain
  have hview : Valid c.view := h.valid.withPaths _
  have hfind := Caller.findLoaded_view hchain path
  have hne : ∀ im, c.current im = some path → some im ≠ c.view.sFirstImage := fun im him =>
    hchained.ne_first (h.current_ne_none (by simp [him]))
  constructor
  · intro hanswers
    by_cases hspecial : path = libsystemPath ∨ path = libgccPath
    · exact Or.inl hspecial
    refine Or.inr ⟨fun im hpath => ?_, fun chain im hchain' him => ?_⟩
    · have hlt : im < c.linker.images.length := lt_of_origPath hpath
      have hfound := dlopen_old hview (hanswers.again im hpath 0)
        (by rwa [Caller.view, length_withPaths])
      rw [hfind, done.injEq] at hfound
      simpa using List.find?_some hfound
    · obtain rfl := done.inj (hchain.symm.trans hchain')
      have hcurrent : c.current im = some path := by simpa using List.find?_some him
      have hopen : Lnk.dlopen sys 1 path _ = done (some im, _) :=
        dlopen_found hspecial (hfind.trans (congrArg done him)) (hne im hcurrent) 0
      exact hanswers.own 1 im _ hopen (hchained.chain.lt_length im (List.mem_of_find?_eq_some him))
  · rintro (hspecial | hintact)
    · refine ⟨fun fuel im s hopen _ => ?_, fun im hpath => ?_⟩
      · cases dlopen_special hspecial hopen
      · exact absurd hspecial (hchained.ordinary hpath)
    refine ⟨fun fuel im s hopen hlt => ?_, fun im hpath fuel => ?_⟩
    · have hfound := dlopen_old hview hopen (by rwa [Caller.view, length_withPaths])
      rw [hfind, done.injEq] at hfound
      exact hintact.first _ im hchain hfound
    · have hcurrent := hintact.kept im hpath
      have hmem : im ∈ first :: rest :=
        List.mem_cons_of_mem _ (hchained.covers im (by simp [hpath]))
      obtain ⟨im', him'⟩ : ∃ im', (first :: rest).find? (fun im => c.current im = some path) =
          some im' :=
        Option.isSome_iff_exists.mp (List.find?_isSome.mpr ⟨im, hmem, by simpa using hcurrent⟩)
      -- No two images have been loaded under one path.
      obtain rfl : im' = im := List.inj_on_of_nodup_map hchained.map_origPath_nodup
        (List.mem_of_find?_eq_some him') hmem ((hintact.first _ im' hchain him').trans hpath.symm)
      exact dlopen_found (hchained.ordinary hpath) (hfind.trans (congrArg done him'))
        (hne im' hcurrent) fuel

theorem intact_of_answers (h : Named sys c) (hanswers : ∀ path, Answers sys c path) :
    Intact c := by
  intro im buffer hpointer
  obtain ⟨path, hpath⟩ := Option.ne_none_iff_exists'.mp (h.pointed im buffer hpointer)
  obtain ⟨first, rest, hchained⟩ := h.chained
  have hintact := ((h.answers_iff path).mp (hanswers path)).resolve_left (hchained.ordinary hpath)
  have hcurrent := hintact.kept im hpath
  rw [Caller.current, hpointer] at hcurrent
  exact hpath.trans hcurrent.symm

end Named

/-- **A handle and its path.** After any calls that are made with the buffers in place, `dlopen`
gives a path the image that was loaded under it if and only if the buffers are in place for it, and
does so for each path if and only if they all are in place. -/
theorem answers_iff_intact {garbage : Bool} {mem : Mem}
    (hstart : startup sys fuel garbage mem = done s) {buffers : Nat → String}
    (hrun : Run (Caller.Step sys) InPlace (.start buffers s) c) :
    (∀ path, Answers sys c path ↔
      (path = libsystemPath ∨ path = libgccPath) ∨ IntactFor c path) ∧
      ((∀ path, Answers sys c path) ↔ Intact c) := by
  have h : Named sys c := by
    refine hrun.invariant (named_start hstart buffers) fun c a c' hc hguard hstep => ?_
    cases hstep with
    | write buffer text => exact hc.write buffer text
    | dlopen hopen => exact hc.dlopen hguard hopen
  exact ⟨h.answers_iff, h.intact_of_answers, fun hintact path =>
    (h.answers_iff path).mpr (Or.inr (hintact.intactFor path))⟩

/-- The caller opens `/A`. -/
def askedOnce : Caller :=
  match Caller.dlopen pairSystem 3 0 (.start (fun _ => "/A") (started pairSystem)) with
  | .done (_, c) => c
  | _ => .start (fun _ => "/A") (started pairSystem)

theorem answers_iff_intact_once :
    (∀ path, Answers pairSystem askedOnce path ↔
      (path = libsystemPath ∨ path = libgccPath) ∨ IntactFor askedOnce path) ∧
      ((∀ path, Answers pairSystem askedOnce path) ↔ Intact askedOnce) :=
  answers_iff_intact (rfl : startup pairSystem 1 false (fun _ => 0) = done (started pairSystem))
    (.tail (.dlopen 3 0) .refl (fun _ _ hpointer => by simp [Caller.start] at hpointer)
      (.dlopen (rfl : Caller.dlopen pairSystem 3 0 (.start (fun _ => "/A") (started pairSystem)) =
        done (some 2, askedOnce))))

/-- It puts another path into the buffer then. -/
def overwritten : Caller := askedOnce.write 0 "/C"

/-- `/C` is not there, and `dlopen` gives the image of `/A` for it. -/
theorem not_answers_overwritten :
    startup pairSystem 1 false (fun _ => 0) = done (started pairSystem) ∧
      Reaches (Caller.Step pairSystem) (.start (fun _ => "/A") (started pairSystem)) overwritten ∧
      origPath overwritten.linker 2 = some "/A" ∧
      dlopen pairSystem 3 "/C" overwritten.view = done (some 2, overwritten.view) ∧
      ¬ Answers pairSystem overwritten "/C" := by
  have hopen : dlopen pairSystem 3 "/C" overwritten.view = done (some 2, overwritten.view) := rfl
  refine ⟨rfl, ?_, rfl, hopen, fun h => ?_⟩
  · exact (Reaches.single (t := .dlopen 3 0) (.dlopen (rfl : Caller.dlopen pairSystem 3 0
      (.start (fun _ => "/A") (started pairSystem)) = done (some 2, askedOnce)))).trans
        (Reaches.single (.write 0 "/C"))
  · exact absurd (h.own 3 2 _ hopen (by decide)) (by decide)

end LibSystem.Lnk
