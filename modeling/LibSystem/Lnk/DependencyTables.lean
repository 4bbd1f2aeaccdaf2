import LibSystem.Lnk.Parsed
import LibSystem.Lnk.Runtime

/-!
# The dependency tables

`fDependencies` and `fReExports` at every moment of a run, from the first image on to the calls of
`dlopen` that initializers make.
-/

namespace LibSystem.Lnk

open Outcome

/-! ## The moments of a process -/

/-- A call of `parseLoadCommands`. -/
structure Parse where
  im : ImageId
  commands : List LoadCommand
  fuel : Nat
  before : Linker

def Parse.calls (sys : System) (p : Parse) : List LoadCall :=
  parseCalls sys (loadLibrary sys p.fuel) p.im p.commands p.before

/-- A state of the run, and the parse that has just returned in it, if one has. -/
structure Moment where
  state : Linker
  parsed : Option Parse

/-- What is seen after a run has returned. -/
def seenAfter {α : Type} (x : Outcome α) (f : α → List Moment) : List Moment :=
  match x with
  | .done a => f a
  | _ => []

/-- Each command of an image. `trace` is what is seen of a call of `loadLibrary`. -/
def commandTrace (load : String → Linker → Outcome (Option ImageId × Linker))
    (trace : String → Linker → List Moment) (this : ImageId) :
    List LoadCommand → Linker → ParseLocals → List Moment
  | [], _, _ => []
  | cmd :: rest, s, l =>
    ((cmd.dylib?.map fun dylib => trace dylib.2 s).getD []) ++
      seenAfter (parseLoadCommand load this s l cmd) fun r =>
        ⟨r.1, none⟩ :: commandTrace load trace this rest r.1 r.2

def parseTrace (sys : System) (trace : String → Linker → List Moment) (p : Parse) : List Moment :=
  ⟨p.before, none⟩ :: commandTrace (loadLibrary sys p.fuel) trace p.im p.commands p.before
      ⟨sys.compressedSlot p.im, 0, 0⟩ ++
    seenAfter (parseLoadCommands sys (loadLibrary sys p.fuel) p.im p.commands p.before) fun s =>
      [⟨s, some p⟩]

def loadTrace (sys : System) : Nat → String → Linker → List Moment
  | 0, _, _ => []
  | fuel + 1, path, s =>
    (seenAfter (openImage sys path s) fun opened =>
      opened.toList.flatMap fun o =>
        parseTrace sys (loadTrace sys fuel) ⟨o.1, o.2.1.commands, fuel, o.2.2⟩) ++
    seenAfter (loadLibraryEx sys (fuel + 1) path s) fun r => [⟨r.2.2, none⟩]

def auxiliaryTrace (sys : System) (fuel : Nat) : List String → Linker → List Moment
  | [], _ => []
  | path :: rest, s =>
    loadTrace sys fuel path s ++ seenAfter (loadLibrary sys fuel path s) fun r =>
      let s := { r.2 with sAuxLibs := r.2.sAuxLibs ++ [r.1] }
      ⟨s, none⟩ :: auxiliaryTrace sys fuel rest s

/-- `_main` up to the call of `initializeChain`. -/
def startupTrace (sys : System) (fuel : Nat) (mem : Mem) : List Moment :=
  let dylinker := instantiateFromMemory sys.linkerHeader sys.linkerSlide (.initial mem)
  let s := { dylinker.2 with sDylinker := some dylinker.1 }
  parseTrace sys (loadTrace sys fuel) ⟨dylinker.1, sys.linkerCommands, fuel, s⟩ ++
  seenAfter (parseLoadCommands sys (loadLibrary sys fuel) dylinker.1 sys.linkerCommands s) fun s =>
  let s := { s with sImageCount := s.sImageCount + 1, sFirstImage := some dylinker.1 }
  ⟨s, none⟩ :: auxiliaryTrace sys fuel auxiliaryLibraries s ++
  seenAfter (loadAuxiliarySystemLibraries sys fuel auxiliaryLibraries s) fun s =>
  let main := instantiateFromMemory sys.mainHeader 0 s
  let s := { main.2 with sMainExecutable := some main.1 }
  parseTrace sys (loadTrace sys fuel) ⟨main.1, sys.mainCommands, fuel, s⟩ ++
  seenAfter (parseLoadCommands sys (loadLibrary sys fuel) main.1 sys.mainCommands s) fun s =>
  loadTrace sys fuel casPath s ++
  seenAfter (loadLibrary sys fuel casPath s) fun r =>
  seenAfter (bindChain sys r.2) fun s =>
  ⟨s, none⟩ :: seenAfter (doBindSymbols sys s main.1) fun s => [⟨s, none⟩]

/-- What is seen while an action is under way. -/
def actTrace (sys : System) (r : Runtime) : Action → List Moment
  | .dlopen fuel path => loadTrace sys fuel path r.linker
  | _ => []

/-- What the linker and the functions that it calls do from there on. -/
def actionTrace (sys : System) : List Action → Runtime → List Moment
  | [], _ => []
  | a :: rest, r =>
    if r.inUserCode = a.inUserCode then
      actTrace sys r a ++
        seenAfter (r.act sys a) fun r => ⟨r.linker, none⟩ :: actionTrace sys rest r
    else []

def processTrace (sys : System) (fuel : Nat) (garbage : Bool) (mem : Mem)
    (actions : List Action) : List Moment :=
  startupTrace sys fuel mem ++ seenAfter (startupLoads sys fuel mem) fun r =>
    actionTrace sys actions (.start garbage r.2)

/-! ## The tables -/

/-- `fDependencies` and `fReExports`. -/
def tables (s : Linker) (im : ImageId) : Option (List ImageId × List ImageId) :=
  s.images[im]?.map fun obj => (obj.fDependencies, obj.fReExports)

/-- The tables after a parse are the answers of `loadLibrary`, in the order of the commands. -/
structure TablesMatch (sys : System) (p : Parse) (s : Linker) : Prop where
  commands : (p.calls sys).map (fun c => (c.kind, c.name)) =
    p.commands.filterMap LoadCommand.dylib?
  returned : ∀ c ∈ p.calls sys, loadLibrary sys p.fuel c.name c.before = done (some c.dep, c.after)
  standIn : ∀ c ∈ p.calls sys, c.name = libsystemPath ∨ c.name = libgccPath ∨
    openLibrary sys c.name = none → c.before.sDylinker = some c.dep
  tables : tables s p.im = some ((p.calls sys).map LoadCall.dep,
    ((p.calls sys).filter fun c => c.kind = .reexport).map LoadCall.dep)

variable {sys : System} {fuel : Nat} {s s' s'' : Linker} {this : ImageId}
  {commands : List LoadCommand}

theorem tables_of_content {obj : MachObject} (h : content s this = some obj) :
    tables s this = some (obj.fDependencies, obj.fReExports) := by
  obtain ⟨o, ho, rfl⟩ := content_eq_some.mp h
  rw [tables, ho]
  rfl

theorem content_of_tables {deps reexports : List ImageId}
    (h : tables s this = some (deps, reexports)) :
    ∃ obj, content s this = some obj ∧ obj.fDependencies = deps ∧ obj.fReExports = reexports := by
  obtain ⟨o, ho, heq⟩ := Option.map_eq_some_iff.mp h
  obtain ⟨rfl, rfl⟩ := Prod.mk.inj heq
  exact ⟨o.setNextImage none, content_eq_some.mpr ⟨o, ho, rfl⟩, rfl, rfl⟩

theorem lt_of_tables {r : List ImageId × List ImageId} (h : tables s this = some r) :
    this < s.images.length := by
  obtain ⟨o, ho, -⟩ := Option.map_eq_some_iff.mp h
  exact (List.getElem?_eq_some_iff.mp ho).1

theorem finishParse_tables (l : ParseLocals) (obj : MachObject) :
    (finishParse l obj).fDependencies = obj.fDependencies ∧
      (finishParse l obj).fReExports = obj.fReExports := by
  unfold finishParse
  split <;> exact ⟨rfl, rfl⟩

/-! ## What the steps keep -/

/-- The linker's image is the first one, and a path that has been asked for can be opened. -/
structure Base (sys : System) (s : Linker) : Prop where
  dylinker : s.sDylinker = some 0
  first : s.sFirstImage = none ∨ s.sFirstImage = some 0
  paths : ∀ im path, origPath s im = some path → openLibrary sys path ≠ none

theorem Base.standIn (h : Base sys s) {name : String} {dep : ImageId}
    (hload : loadLibrary sys fuel name s = done (some dep, s'))
    (hname : name = libsystemPath ∨ name = libgccPath ∨ openLibrary sys name = none) :
    s.sDylinker = some dep := by
  obtain ⟨al, hload⟩ := loadLibrary_eq_done.mp hload
  cases fuel with
  | zero => simp [loadLibraryEx] at hload
  | succ fuel =>
    obtain ⟨-, hfirst, -⟩ | ⟨hspecial, ⟨im, hfound, -⟩ | ⟨-, ⟨-, hdylinker, -⟩ |
      ⟨-, -, file, before, after, hopens⟩⟩⟩ := loadLibraryEx_cases hload
    · rcases h.first with hnone | hzero
      · simp [hnone] at hfirst
      · rw [h.dylinker, hfirst, hzero]
    · obtain ⟨chain, -, hfind⟩ := findLoaded_eq_done hfound
      have hpath : origPath s im = some name := by
        simpa using List.find?_some hfind.symm
      have hnone : openLibrary sys name = none := by tauto
      exact absurd hnone (h.paths im name hpath)
    · exact hdylinker.symm
    · obtain ⟨nn, hopened⟩ := hopens.opened
      have hnone : openLibrary sys name = none := by tauto
      simp [hnone] at hopened

/-- The images keep their tables, except for `hole`. -/
structure KeepsTables (sys : System) (hole : Option ImageId) (s s' : Linker) : Prop where
  base : Base sys s'
  length : s.images.length ≤ s'.images.length
  tables : ∀ im < s.images.length, hole ≠ some im → Lnk.tables s' im = Lnk.tables s im

variable {hole : Option ImageId}

theorem KeepsTables.refl (h : Base sys s) : KeepsTables sys hole s s :=
  ⟨h, Nat.le_refl _, fun _ _ _ => rfl⟩

theorem KeepsTables.trans (h : KeepsTables sys hole s s') (h' : KeepsTables sys hole s' s'') :
    KeepsTables sys hole s s'' :=
  ⟨h'.base, h.length.trans h'.length, fun im him hne =>
    (h'.tables im (him.trans_le h.length) hne).trans (h.tables im him hne)⟩

theorem KeepsTables.fill {s0 : Linker} (h0 : KeepsTables sys none s0 s)
    (hthis : s0.images.length ≤ this) (h : KeepsTables sys (some this) s s') :
    KeepsTables sys none s0 s' := by
  refine ⟨h.base, h0.length.trans h.length, fun im him _ => ?_⟩
  have hne : some this ≠ some im := fun heq => by
    obtain rfl := Option.some.inj heq
    exact absurd him (Nat.not_lt.mpr hthis)
  exact (h.tables im (him.trans_le h0.length) hne).trans (h0.tables im him (by simp))

theorem KeepsTables.of_images (h : Base sys s) (himages : s'.images = s.images)
    (hfirst : s'.sFirstImage = s.sFirstImage) (hdylinker : s'.sDylinker = s.sDylinker) :
    KeepsTables sys hole s s' := by
  refine ⟨⟨hdylinker.trans h.dylinker, hfirst ▸ h.first, fun im path him => ?_⟩, himages ▸ le_rfl,
    fun im _ _ => ?_⟩
  · rw [origPath, himages] at him
    exact h.paths im path him
  · rw [Lnk.tables, himages]
    rfl

theorem KeepsTables.modify (h : Base sys s) {f : MachObject → MachObject}
    (hpath : ∀ obj, (f obj).fOrigFilePath = obj.fOrigFilePath)
    (htables : hole = some this ∨ ∀ obj, (f obj).fDependencies = obj.fDependencies ∧
      (f obj).fReExports = obj.fReExports) : KeepsTables sys hole s (s.modify this f) := by
  refine ⟨⟨h.dylinker, h.first, fun im path him => ?_⟩, (length_modify s this f).ge,
    fun im _ hne => ?_⟩
  · rw [origPath_modify s this im hpath] at him
    exact h.paths im path him
  · unfold Lnk.tables
    rw [getElem?_modify]
    cases s.images[im]? with
    | none => rfl
    | some obj =>
      by_cases him : this = im
      · rcases htables with rfl | hsame
        · exact absurd (congrArg some him) hne
        · simp [him, (hsame obj).1, (hsame obj).2]
      · simp [him]

theorem KeepsTables.append (h : Base sys s) {obj : MachObject}
    (hpath : ∀ path, obj.fOrigFilePath = some path → openLibrary sys path ≠ none)
    (himages : s'.images = s.images ++ [obj]) (hfirst : s'.sFirstImage = s.sFirstImage)
    (hdylinker : s'.sDylinker = s.sDylinker) : KeepsTables sys hole s s' := by
  refine ⟨⟨hdylinker.trans h.dylinker, hfirst ▸ h.first, fun im path him => ?_⟩,
    by simp [himages], fun im him _ => ?_⟩
  · rw [origPath, himages] at him
    rcases Nat.lt_trichotomy im s.images.length with hlt | rfl | hgt
    · rw [List.getElem?_append_left hlt] at him
      exact h.paths im path him
    · exact hpath path (by simpa using him)
    · simp [List.getElem?_eq_none (show (s.images ++ [obj]).length ≤ im by simp; omega)] at him
  · unfold Lnk.tables
    rw [himages, List.getElem?_append_left him]

theorem KeepsTables.insertImage (h : Base sys s) {lib : ImageId}
    (hins : Lnk.insertImage lib s = done s') : KeepsTables sys hole s s' := by
  obtain ⟨first, -, hins⟩ := bind_eq_done.mp hins
  obtain ⟨obj, -, hins⟩ := bind_eq_done.mp hins
  obtain rfl := done.inj hins
  have hlib : KeepsTables sys hole s (s.modify lib fun lib => lib.setNextImage obj.fNextImage) :=
    .modify h (fun _ => rfl) (.inr fun _ => ⟨rfl, rfl⟩)
  have hfirst : KeepsTables sys hole _ ((s.modify lib fun lib => lib.setNextImage obj.fNextImage)
      |>.modify first fun first => first.setNextImage (some lib)) :=
    .modify hlib.base (fun _ => rfl) (.inr fun _ => ⟨rfl, rfl⟩)
  exact (hlib.trans hfirst).trans (.of_images hfirst.base rfl rfl rfl)

/-! ## Parts of a run -/

/-- The image that has been parsed keeps its tables. -/
def Moment.Stays (m : Moment) (s : Linker) : Prop :=
  ∀ p, m.parsed = some p → tables s p.im = tables m.state p.im

/-- What is seen from `s` on, while `hole` is being parsed. The images from `n` on are new. -/
structure Sees (sys : System) (hole : Option ImageId) (n : Nat) (s : Linker) (l : List Moment) :
    Prop where
  keeps : ∀ m ∈ l, KeepsTables sys hole s m.state
  parsed : ∀ m ∈ l, ∀ p, m.parsed = some p →
    TablesMatch sys p m.state ∧ n ≤ p.im ∧ hole ≠ some p.im
  ordered : l.Pairwise fun m m' => m.Stays m'.state

/-- The part has come to its end. -/
structure Leads (sys : System) (hole : Option ImageId) (n : Nat) (s : Linker) (l : List Moment)
    (s' : Linker) : Prop where
  sees : Sees sys hole n s l
  whole : KeepsTables sys hole s s'
  last : ∀ m ∈ l, m.Stays s'

variable {n : Nat}

theorem Sees.nil : Sees sys hole n s [] := ⟨by simp, by simp, .nil⟩

theorem KeepsTables.leads (h : KeepsTables sys hole s s') : Leads sys hole n s [] s' :=
  ⟨.nil, h, by simp⟩

theorem Leads.stays {l : List Moment} (h : Leads sys hole n s l s')
    (h' : KeepsTables sys hole s' s'') {m : Moment} (hm : m ∈ l) : m.Stays s'' := by
  intro p hp
  obtain ⟨hmatch, -, hne⟩ := h.sees.parsed m hm p hp
  have hlt : p.im < s'.images.length :=
    lt_of_tables ((h.last m hm p hp).trans hmatch.tables)
  exact (h'.tables p.im hlt hne).trans (h.last m hm p hp)

theorem Leads.append_sees {l l' : List Moment} (h : Leads sys hole n s l s')
    (h' : Sees sys hole n s' l') : Sees sys hole n s (l ++ l') := by
  refine ⟨fun m hm => ?_, fun m hm p hp => ?_, List.pairwise_append.mpr
    ⟨h.sees.ordered, h'.ordered, fun m hm m' hm' => h.stays (h'.keeps m' hm') hm⟩⟩
  · rcases List.mem_append.mp hm with hm | hm
    · exact h.sees.keeps m hm
    · exact h.whole.trans (h'.keeps m hm)
  · rcases List.mem_append.mp hm with hm | hm
    · exact h.sees.parsed m hm p hp
    · exact h'.parsed m hm p hp

theorem Leads.append {l l' : List Moment} (h : Leads sys hole n s l s')
    (h' : Leads sys hole n s' l' s'') : Leads sys hole n s (l ++ l') s'' := by
  refine ⟨h.append_sees h'.sees, h.whole.trans h'.whole, fun m hm => ?_⟩
  rcases List.mem_append.mp hm with hm | hm
  · exact h.stays h'.whole hm
  · exact h'.last m hm

theorem KeepsTables.moment (h : KeepsTables sys hole s s') :
    Leads sys hole n s [⟨s', none⟩] s' := by
  refine ⟨⟨?_, ?_, List.pairwise_singleton _ _⟩, h, ?_⟩
  · rintro m hm
    rw [List.mem_singleton.mp hm]
    exact h
  · rintro m hm p hp
    rw [List.mem_singleton.mp hm] at hp
    simp at hp
  · rintro m hm p hp
    rw [List.mem_singleton.mp hm] at hp
    simp at hp

theorem Sees.inside {l : List Moment} (h : Sees sys none s.images.length s l)
    (hthis : this < s.images.length) (hn : n ≤ s.images.length) :
    Sees sys (some this) n s l := by
  refine ⟨fun m hm => ?_, fun m hm p hp => ?_, h.ordered⟩
  · have hkeeps := h.keeps m hm
    exact ⟨hkeeps.base, hkeeps.length, fun im him _ => hkeeps.tables im him (by simp)⟩
  · obtain ⟨hmatch, hle, -⟩ := h.parsed m hm p hp
    refine ⟨hmatch, hn.trans hle, fun heq => ?_⟩
    obtain rfl := Option.some.inj heq
    exact absurd hthis (Nat.not_lt.mpr hle)

theorem Leads.inside {l : List Moment} (h : Leads sys none s.images.length s l s')
    (hthis : this < s.images.length) (hn : n ≤ s.images.length) :
    Leads sys (some this) n s l s' :=
  ⟨h.sees.inside hthis hn, ⟨h.whole.base, h.whole.length, fun im him _ =>
    h.whole.tables im him (by simp)⟩, h.last⟩

theorem Sees.fill {s0 : Linker} {l : List Moment} (h0 : KeepsTables sys none s0 s)
    (hthis : s0.images.length ≤ this) (h : Sees sys (some this) n s l) : Sees sys none n s0 l := by
  refine ⟨fun m hm => h0.fill hthis (h.keeps m hm), fun m hm p hp => ?_, h.ordered⟩
  obtain ⟨hmatch, hle, -⟩ := h.parsed m hm p hp
  exact ⟨hmatch, hle, by simp⟩

theorem Leads.fill {s0 : Linker} {l : List Moment} (h0 : KeepsTables sys none s0 s)
    (hthis : s0.images.length ≤ this) (h : Leads sys (some this) n s l s') :
    Leads sys none n s0 l s' :=
  ⟨h.sees.fill h0 hthis, h0.fill hthis h.whole, h.last⟩

theorem Leads.cons {l : List Moment} (hs : Base sys s) (h : Leads sys hole n s l s') :
    Leads sys hole n s (⟨s, none⟩ :: l) s' :=
  (KeepsTables.refl hs).moment.append h

/-- A part of a run: what is seen of it, and what it leads to if it ends. -/
structure RunPart {α : Type} (sys : System) (hole : Option ImageId) (n : Nat) (s : Linker)
    (l : List Moment) (x : Outcome α) (state : α → Linker) : Prop where
  sees : Sees sys hole n s l
  leads : ∀ a, x = done a → Leads sys hole n s l (state a)

section RunPart

variable {α β : Type} {l : List Moment} {x : Outcome α} {state : α → Linker}

theorem RunPart.done {a : α} (h : Leads sys hole n s l (state a)) :
    RunPart sys hole n s l (.done a) state := by
  refine ⟨h.sees, fun b hb => ?_⟩
  obtain rfl := Outcome.done.inj hb
  exact h

theorem RunPart.cons (hs : Base sys s) (h : RunPart sys hole n s l x state) :
    RunPart sys hole n s (⟨s, none⟩ :: l) x state :=
  ⟨(KeepsTables.refl hs).moment.append_sees h.sees, fun a ha => (h.leads a ha).cons hs⟩

theorem RunPart.bind {f : α → Outcome β} {trace : α → List Moment} {state' : β → Linker}
    (h : RunPart sys hole n s l x state)
    (hf : ∀ a, x = .done a → Base sys (state a) →
      RunPart sys hole n (state a) (trace a) (f a) state') :
    RunPart sys hole n s (l ++ seenAfter x trace) (x >>= f) state' := by
  obtain ⟨hsees, hleads⟩ := h
  cases x with
  | done a =>
    have ha := hleads a rfl
    have hrest := hf a rfl ha.whole.base
    exact ⟨ha.append_sees hrest.sees, fun b hb => ha.append (hrest.leads b hb)⟩
  | halt | fault | timeout => exact ⟨by simpa [seenAfter] using hsees, nofun⟩

theorem RunPart.bind_unseen {f : α → Outcome β} {trace : α → List Moment} {state' : β → Linker}
    (h : ∀ a, x = .done a → KeepsTables sys hole s (state a))
    (hf : ∀ a, x = .done a → Base sys (state a) →
      RunPart sys hole n (state a) (trace a) (f a) state') :
    RunPart sys hole n s (seenAfter x trace) (x >>= f) state' := by
  have hnil : RunPart sys hole n s [] x state := ⟨.nil, fun a ha => (h a ha).leads⟩
  exact hnil.bind hf

theorem RunPart.trans (h : KeepsTables sys hole s s') (h' : RunPart sys hole n s' l x state) :
    RunPart sys hole n s l x state :=
  ⟨h.leads.append_sees h'.sees, fun a ha => h.leads.append (h'.leads a ha)⟩

theorem RunPart.inside (h : RunPart sys none s.images.length s l x state)
    (hthis : this < s.images.length) (hn : n ≤ s.images.length) :
    RunPart sys (some this) n s l x state :=
  ⟨h.sees.inside hthis hn, fun a ha => (h.leads a ha).inside hthis hn⟩

theorem RunPart.lower {m : Nat} (h : RunPart sys hole n s l x state) (hle : m ≤ n) :
    RunPart sys hole m s l x state := by
  have hsees : Sees sys hole m s l := ⟨h.sees.keeps, fun t ht p hp =>
    ⟨(h.sees.parsed t ht p hp).1, hle.trans (h.sees.parsed t ht p hp).2.1,
      (h.sees.parsed t ht p hp).2.2⟩, h.sees.ordered⟩
  exact ⟨hsees, fun a ha => ⟨hsees, (h.leads a ha).whole, (h.leads a ha).last⟩⟩

end RunPart

/-! ## Parsing -/

section Parsing

variable {load : String → Linker → Outcome (Option ImageId × Linker)}
  {trace : String → Linker → List Moment}
  (hload : ∀ name s, Base sys s →
    RunPart sys none s.images.length s (trace name s) (load name s) Prod.snd)

include hload

theorem parseLoadCommand_part' {cmd : LoadCommand} {l : ParseLocals} (hs : Base sys s)
    (hthis : this < s.images.length) (hn : n ≤ s.images.length) :
    RunPart sys (some this) n s ((cmd.dylib?.map fun dylib => trace dylib.2 s).getD [])
      (parseLoadCommand load this s l cmd) Prod.fst := by
  refine ⟨?_, fun r h => ?_⟩
  · cases cmd.dylib? with
    | none => exact .nil
    | some dylib => exact ((hload _ s hs).inside hthis hn).sees
  · obtain ⟨hcmd, f, hkeeps, -, hr⟩ | ⟨kind, name, dep, s1, hcmd, hdep, hr⟩ :=
      parseLoadCommand_cases h
    · rw [hcmd, hr]
      exact (KeepsTables.modify hs hkeeps.path (.inl rfl)).leads
    · rw [hcmd, hr]
      have hpart := ((hload name s hs).inside hthis hn).leads _ hdep
      have hadd : KeepsTables sys (some this) s1 (s1.modify this (addDependency kind dep)) :=
        .modify hpart.whole.base (addDependency_keeps kind dep).path (.inl rfl)
      have hall := hpart.append hadd.leads
      rwa [List.append_nil] at hall

theorem commandTrace_part (commands : List LoadCommand) (l : ParseLocals) (hs : Base sys s)
    (hthis : this < s.images.length) (hn : n ≤ s.images.length) :
    RunPart sys (some this) n s (commandTrace load trace this commands s l)
      (parseLoop load this commands s l) Prod.fst := by
  induction commands generalizing s l with
  | nil => exact .done (KeepsTables.refl hs).leads
  | cons cmd commands ih =>
    have hfirst := @parseLoadCommand_part' sys s this n load trace hload cmd l hs hthis hn
    refine hfirst.bind fun r hr hbase => .cons hbase (ih r.2 hbase ?_ ?_)
    · exact hthis.trans_le (hfirst.leads r hr).whole.length
    · exact hn.trans (hfirst.leads r hr).whole.length

end Parsing

theorem loadCalls_base {load : String → Linker → Outcome (Option ImageId × Linker)}
    (hload : ∀ name s r s', Base sys s → load name s = done (r, s') → Base sys s')
    (commands : List LoadCommand) (l : ParseLocals) (hs : Base sys s) :
    ∀ c ∈ loadCalls load this commands s l, Base sys c.before := by
  induction commands generalizing s l with
  | nil => simp [loadCalls]
  | cons cmd commands ih =>
    intro c hc
    unfold loadCalls at hc
    rcases List.mem_append.mp hc with hc | hc
    · unfold loadCall at hc
      split at hc
      · split at hc
        · obtain rfl := by simpa using hc
          exact hs
        · simp at hc
      · simp at hc
    · split at hc
      · rename_i s1 l1 hcmd
        refine ih l1 ?_ c hc
        obtain ⟨-, f, hkeeps, -, rfl⟩ | ⟨kind, name, dep, s2, -, hdep, rfl⟩ :=
          parseLoadCommand_cases hcmd
        · exact (KeepsTables.modify hs hkeeps.path (.inl (rfl : some this = some this))).base
        · exact (KeepsTables.modify (hload name s _ s2 hs hdep)
            (addDependency_keeps kind dep).path (.inl (rfl : some this = some this))).base
      · simp at hc

theorem tablesMatch_parsed {p : Parse}
    (hload : ∀ name s r s', Base sys s → loadLibrary sys p.fuel name s = done (r, s') →
      Base sys s')
    (hp : Base sys p.before) (hfresh : tables p.before p.im = some ([], []))
    (h : parseLoadCommands sys (loadLibrary sys p.fuel) p.im p.commands p.before = done s') :
    TablesMatch sys p s' := by
  obtain ⟨obj, hobj, hdeps, hreexports⟩ := content_of_tables hfresh
  obtain ⟨hnames, hcalls, hread⟩ :=
    parseLoadCommands_read (loadLibrary_leavesAlone sys p.fuel p.im) hobj h
  refine ⟨hnames, hcalls, fun c hc hname => ?_, ?_⟩
  · exact (loadCalls_base hload p.commands _ hp c hc).standIn (hcalls c hc) hname
  · obtain ⟨h1, h2⟩ := readAll_tables (obj, ⟨sys.compressedSlot p.im, 0, 0⟩) hnames
    rw [tables_of_content hread, readImage, (finishParse_tables _ _).1, (finishParse_tables _ _).2]
    unfold Parse.calls
    rw [h1, h2, hdeps, hreexports, List.nil_append, List.nil_append]

theorem parseLoadCommands_end {p : Parse}
    {load : String → Linker → Outcome (Option ImageId × Linker)}
    (h : parseLoadCommands sys load p.im p.commands p.before = done s') :
    ∃ s1 l1, parseLoop load p.im p.commands p.before ⟨sys.compressedSlot p.im, 0, 0⟩ =
      done (s1, l1) ∧ (Base sys s1 → KeepsTables sys none s1 s') := by
  obtain ⟨s1, l1, obj, hloop, -, rfl⟩ := parseLoadCommands_loop h
  refine ⟨s1, l1, hloop, fun hs1 => ?_⟩
  have hfinish : KeepsTables sys none s1 (s1.modify p.im (finishParse l1)) :=
    .modify hs1 (finishParse_keeps l1).path (.inr (finishParse_tables l1))
  exact hfinish.trans (.of_images hfinish.base rfl rfl rfl)

theorem parseTrace_part {p : Parse} {s0 : Linker}
    (hload : ∀ name s, Base sys s → RunPart sys none s.images.length s
      (loadTrace sys p.fuel name s) (loadLibrary sys p.fuel name s) Prod.snd)
    (h0 : KeepsTables sys none s0 p.before) (hnew : s0.images.length ≤ p.im) (hn : n ≤ p.im)
    (hfresh : tables p.before p.im = some ([], [])) :
    RunPart sys none n s0 (parseTrace sys (loadTrace sys p.fuel) p)
      (parseLoadCommands sys (loadLibrary sys p.fuel) p.im p.commands p.before) id := by
  have hlt := lt_of_tables hfresh
  have hcommands := RunPart.cons h0.base (commandTrace_part hload p.commands
    ⟨sys.compressedSlot p.im, 0, 0⟩ h0.base hlt (hn.trans hlt.le))
  have hparsed : ∀ s', parseLoadCommands sys (loadLibrary sys p.fuel) p.im p.commands p.before =
      done s' → Leads sys none n s0 (⟨p.before, none⟩ :: commandTrace (loadLibrary sys p.fuel)
        (loadTrace sys p.fuel) p.im p.commands p.before ⟨sys.compressedSlot p.im, 0, 0⟩ ++
          [⟨s', some p⟩]) s' := by
    intro s' h
    have hmatch := tablesMatch_parsed
      (fun name s r s' hs hl => ((hload name s hs).leads _ hl).whole.base) h0.base hfresh h
    obtain ⟨s1, l1, hloop, hend⟩ := parseLoadCommands_end h
    have hloop := (hcommands.leads _ hloop).fill h0 hnew
    have hend := hend hloop.whole.base
    have hlast : Leads sys none n s1 [⟨s', some p⟩] s' := by
      refine ⟨⟨?_, ?_, List.pairwise_singleton _ _⟩, hend, ?_⟩
      · intro m hm
        rw [List.mem_singleton.mp hm]
        exact hend
      · intro m hm q hq
        rw [List.mem_singleton.mp hm] at hq ⊢
        obtain rfl := Option.some.inj hq
        exact ⟨hmatch, hn, by simp⟩
      · intro m hm q _
        rw [List.mem_singleton.mp hm]
    exact hloop.append hlast
  unfold parseTrace
  cases h : parseLoadCommands sys (loadLibrary sys p.fuel) p.im p.commands p.before with
  | done s' => exact .done (hparsed s' h)
  | halt | fault | timeout =>
    exact ⟨by simpa [seenAfter] using hcommands.sees.fill h0 hnew, nofun⟩

/-! ## Loading -/

theorem instantiateFromFile_tables {nn path : String} {file : File} {lib : ImageId}
    (h : instantiateFromFile nn path file s = done (lib, s')) :
    lib = s.images.length ∧ ∃ obj, s'.images = s.images ++ [obj] ∧ obj.fOrigFilePath = some path ∧
      s'.sFirstImage = s.sFirstImage ∧ s'.sDylinker = s.sDylinker ∧ obj.fDependencies = [] ∧
      obj.fReExports = [] := by
  unfold instantiateFromFile at h
  split at h
  · simp at h
  dsimp only at h
  split at h
  · simp at h
  split at h
  · simp at h
  · obtain ⟨rfl, rfl⟩ := Prod.mk.inj (done.inj h)
    exact ⟨rfl, _, rfl, rfl, rfl, rfl, rfl, rfl⟩

theorem openImage_keepsTables (hs : Base sys s) {path : String} {lib : ImageId} {file : File}
    {before : Linker} (h : openImage sys path s = done (some (lib, file, before))) :
    lib = s.images.length ∧ KeepsTables sys none s before ∧ tables before lib = some ([], []) := by
  obtain ⟨-, -, nn, s1, hlib, hnew, hins⟩ := openImage_eq_done h
  obtain ⟨rfl, obj, himages, hpath, hfirst, hdylinker, hdeps, hreexports⟩ :=
    instantiateFromFile_tables hnew
  have hs1 : KeepsTables sys none s s1 := by
    refine .append hs (fun path' hpath' => ?_) himages hfirst hdylinker
    obtain rfl : path = path' := Option.some.inj (hpath.symm.trans hpath')
    simp [hlib]
  have hbefore : KeepsTables sys none s1 before := .insertImage hs1.base hins
  refine ⟨rfl, hs1.trans hbefore, ?_⟩
  rw [hbefore.tables _ (by simp [himages]) (by simp), tables, himages]
  simp [hdeps, hreexports]

theorem openTrace_part (hs : Base sys s) {path : String}
    (hload : ∀ name s, Base sys s → RunPart sys none s.images.length s
      (loadTrace sys fuel name s) (loadLibrary sys fuel name s) Prod.snd) :
    RunPart sys none s.images.length s
      (seenAfter (openImage sys path s) fun opened => opened.toList.flatMap fun o =>
        parseTrace sys (loadTrace sys fuel) ⟨o.1, o.2.1.commands, fuel, o.2.2⟩)
      (loadLibraryEx sys (fuel + 1) path s) fun r => r.2.2 := by
  by_cases hopen : ∃ lib file before, openImage sys path s = done (some (lib, file, before))
  · obtain ⟨lib, file, before, hopen⟩ := hopen
    obtain ⟨hnew, hbefore, hfresh⟩ := openImage_keepsTables hs hopen
    have hparse := parseTrace_part (p := ⟨lib, file.commands, fuel, before⟩) hload hbefore
      hnew.ge hnew.ge hfresh
    rw [hopen, seenAfter, Option.toList_some, List.flatMap_singleton]
    refine ⟨hparse.sees, fun r h => ?_⟩
    obtain ⟨after, hafter, hrebase⟩ := loadLibraryEx_openImage hopen h
    have hafter := hparse.leads after hafter
    obtain ⟨mem, hr⟩ := doRebase_eq_done hrebase
    have hlast : KeepsTables sys none after r.2.2 := by
      rw [hr]
      exact .of_images hafter.whole.base rfl rfl rfl
    have hall := hafter.append hlast.leads
    rwa [List.append_nil] at hall
  · have hnone : seenAfter (openImage sys path s) (fun opened => opened.toList.flatMap fun o =>
        parseTrace sys (loadTrace sys fuel) ⟨o.1, o.2.1.commands, fuel, o.2.2⟩) = [] := by
      cases hopened : openImage sys path s with
      | done opened =>
        cases opened with
        | none => rfl
        | some o => exact absurd ⟨o.1, o.2.1, o.2.2, hopened⟩ hopen
      | halt | fault | timeout => rfl
    rw [hnone]
    refine ⟨.nil, fun r h => ?_⟩
    have hr := loadLibraryEx_eq_self (fun lib file before hopened =>
      hopen ⟨lib, file, before, hopened⟩) h
    rw [hr]
    exact (KeepsTables.refl hs).leads

theorem loadTrace_part (fuel : Nat) (path : String) (hs : Base sys s) :
    RunPart sys none s.images.length s (loadTrace sys fuel path s)
      (loadLibrary sys fuel path s) Prod.snd := by
  induction fuel generalizing path s with
  | zero => exact ⟨.nil, nofun⟩
  | succ fuel ih =>
    refine (openTrace_part hs fun name s hs => ih name hs).bind fun r _ hbase => ?_
    exact .done (KeepsTables.refl hbase).moment

theorem loadTrace_whole (fuel : Nat) (path : String) (hs : Base sys s) :
    RunPart sys none 0 s (loadTrace sys fuel path s) (loadLibrary sys fuel path s) Prod.snd :=
  (loadTrace_part fuel path hs).lower (Nat.zero_le _)

theorem auxiliaryTrace_part (paths : List String) (hs : Base sys s) :
    RunPart sys none 0 s (auxiliaryTrace sys fuel paths s)
      (loadAuxiliarySystemLibraries sys fuel paths s) id := by
  induction paths generalizing s with
  | nil => exact .done (KeepsTables.refl hs).leads
  | cons path paths ih =>
    refine (loadTrace_whole fuel path hs).bind fun r _ hbase => ?_
    have haux : KeepsTables sys none r.2 { r.2 with sAuxLibs := r.2.sAuxLibs ++ [r.1] } :=
      .of_images hbase rfl rfl rfl
    exact .trans haux (.cons haux.base (ih haux.base))

/-! ## The process -/

theorem bindSymbols_keepsTables {im : ImageId} (hs : Base sys s)
    (h : doBindSymbols sys s im = done s') : KeepsTables sys hole s s' := by
  obtain ⟨⟨mem, count⟩, -, h⟩ := bind_eq_done.mp h
  obtain rfl := done.inj h
  exact .of_images hs rfl rfl rfl

theorem bindChain_keepsTables (hs : Base sys s) (h : bindChain sys s = done s') :
    KeepsTables sys hole s s' := by
  obtain ⟨chain, -, h⟩ := bind_eq_done.mp h
  refine bindAll_preserves (fun im _ t t' ht hbind => ?_) (.refl hs) h
  exact ht.trans (bindSymbols_keepsTables ht.base hbind)

/-- The globals before the first image is made. -/
def Linker.empty (mem : Mem) : Linker := { Linker.initial mem with sDylinker := some 0 }

theorem base_empty (mem : Mem) : Base sys (.empty mem) :=
  ⟨rfl, .inl rfl, fun im path h => by simp [origPath, Linker.empty, Linker.initial] at h⟩

theorem KeepsTables.fromMemory (hs : Base sys s) {header : Addr} {slide : Word}
    (himages : s'.images = s.images ++ [{ MachObject.new with fHeader := header, fSlide := slide }])
    (hfirst : s'.sFirstImage = s.sFirstImage) (hdylinker : s'.sDylinker = s.sDylinker) :
    KeepsTables sys none s s' ∧ Lnk.tables s' s.images.length = some ([], []) := by
  refine ⟨.append hs (fun path h => by simp [MachObject.new] at h) himages hfirst hdylinker, ?_⟩
  rw [Lnk.tables, himages]
  simp [MachObject.new]

theorem startupTrace_part (sys : System) (fuel : Nat) (mem : Mem) :
    RunPart sys none 0 (.empty mem) (startupTrace sys fuel mem) (startupLoads sys fuel mem)
      Prod.snd := by
  have hload : ∀ name s, Base sys s → RunPart sys none s.images.length s
      (loadTrace sys fuel name s) (loadLibrary sys fuel name s) Prod.snd :=
    fun name s hs => loadTrace_part fuel name hs
  obtain ⟨h0, hfresh0⟩ := @KeepsTables.fromMemory sys (.empty mem) { Linker.initial mem with
    images := [{ MachObject.new with fHeader := sys.linkerHeader, fSlide := sys.linkerSlide }]
    sDylinker := some 0 } (base_empty mem) _ _ rfl rfl rfl
  refine (parseTrace_part hload h0 (Nat.le_refl _) (Nat.zero_le _) hfresh0).bind fun s1 _ hs1 => ?_
  -- The linker's image becomes the chain.
  have hlinked : KeepsTables sys none s1
      { s1 with sImageCount := s1.sImageCount + 1, sFirstImage := some 0 } :=
    ⟨⟨hs1.dylinker, .inr rfl, hs1.paths⟩, Nat.le_refl _, fun _ _ _ => rfl⟩
  refine .trans hlinked ?_
  refine (RunPart.cons hlinked.base (auxiliaryTrace_part auxiliaryLibraries hlinked.base)).bind
    fun s2 _ hs2 => ?_
  obtain ⟨hmain, hfresh⟩ := @KeepsTables.fromMemory sys s2 { s2 with
    images := s2.images ++ [{ MachObject.new with fHeader := sys.mainHeader, fSlide := 0 }]
    sMainExecutable := some s2.images.length } hs2 _ _ rfl rfl rfl
  refine (parseTrace_part hload hmain (Nat.le_refl _) (Nat.zero_le _) hfresh).bind
    fun s3 _ hs3 => ?_
  refine (loadTrace_whole fuel casPath hs3).bind fun r _ hr => ?_
  have hchain : ∀ s4, bindChain sys r.2 = done s4 → KeepsTables sys none r.2 (id s4) :=
    fun s4 h => bindChain_keepsTables hr h
  refine RunPart.bind_unseen hchain fun s4 _ hs4 => ?_
  refine RunPart.cons hs4 (RunPart.bind_unseen
    (fun s5 h => (bindSymbols_keepsTables hs4 h : KeepsTables sys none _ (id s5)))
    fun s5 _ hs5 => ?_)
  exact .done (KeepsTables.refl hs5).moment

theorem doInitialize_keepsTables {r r' : Runtime} {im : ImageId} (hr : Base sys r.linker)
    (h : r.doInitialize im = done r') : KeepsTables sys hole r.linker r'.linker := by
  obtain ⟨obj, -, ⟨-, rfl⟩ | ⟨-, rfl⟩⟩ := Runtime.doInitialize_eq_done h
  · exact .refl hr
  · exact .of_images hr rfl rfl rfl

theorem callHandler_keepsTables {r r' : Runtime} {fn : Word} {next : Option ImageId}
    (hr : Base sys r.linker) (h : r.callHandler fn next = done r') :
    KeepsTables sys hole r.linker r'.linker := by
  obtain ⟨-, rfl⟩ | ⟨im, obj, -, -, rfl⟩ := Runtime.callHandler_eq_done h
  · exact .refl hr
  · exact .refl hr

theorem goOn_keepsTables {r r' : Runtime} (hr : Base sys r.linker) (h : r.goOn = done r') :
    KeepsTables sys hole r.linker r'.linker := by
  unfold Runtime.goOn at h
  split at h
  · obtain ⟨⟨phase, im⟩, -, h⟩ := bind_eq_done.mp h
    cases im with
    | none =>
      obtain rfl := done.inj h
      exact .refl hr
    | some im => exact doInitialize_keepsTables (r := { r with phase := phase }) hr h
  · rename_i im _ _ _
    obtain rfl := done.inj h
    have hflag : KeepsTables sys hole r.linker
        (r.linker.modify im fun obj => obj.setInitialized true) :=
      .modify hr (fun _ => rfl) (.inr fun _ => ⟨rfl, rfl⟩)
    exact hflag.trans (.of_images hflag.base rfl rfl rfl)
  · obtain ⟨obj, -, h⟩ := bind_eq_done.mp h
    obtain ⟨fn, -, h⟩ := bind_eq_done.mp h
    obtain rfl := done.inj h
    exact .of_images hr rfl rfl rfl
  · obtain rfl := done.inj h
    exact .refl hr

theorem leave_keepsTables {r r' : Runtime} (hr : Base sys r.linker) (h : r.leave = done r') :
    KeepsTables sys hole r.linker r'.linker := by
  unfold Runtime.leave at h
  split at h
  · obtain rfl := done.inj h
    exact .refl hr
  · obtain rfl := done.inj h
    exact .refl hr
  · rename_i rest _
    obtain ⟨obj, -, h⟩ := bind_eq_done.mp h
    exact callHandler_keepsTables (r := { r with frames := rest }) hr h

theorem actTrace_part (a : Action) {r : Runtime} (hr : Base sys r.linker) :
    RunPart sys none 0 r.linker (actTrace sys r a) (r.act sys a) fun r => r.linker := by
  cases a with
  | goOn => exact ⟨.nil, fun r' h => (goOn_keepsTables hr h).leads⟩
  | leave => exact ⟨.nil, fun r' h => (leave_keepsTables hr h).leads⟩
  | register fn =>
    refine ⟨.nil, fun r' h => KeepsTables.leads ?_⟩
    simp only [Runtime.act, Runtime.register] at h
    split at h
    · simp at h
    · exact callHandler_keepsTables (r := { r with sAddHandlers := r.sAddHandlers ++ [fn] }) hr h
  | dlopen fuel path =>
    have hload := loadTrace_whole fuel path hr
    refine ⟨hload.sees, fun r' h => ?_⟩
    obtain ⟨dlib, al, s1, hs1, hr'⟩ := Runtime.dlopen_eq_done h
    have hs1 := hload.leads (dlib, s1) (loadLibrary_eq_done.mpr ⟨al, hs1⟩)
    obtain rfl | ⟨im, bound, -, -, -, hbound, hinit⟩ := hr'
    · exact hs1
    · have hlast : KeepsTables sys none s1 r'.linker := by
        have hbound : KeepsTables sys none s1 bound :=
          bindSymbols_keepsTables hs1.whole.base hbound
        exact hbound.trans (doInitialize_keepsTables hbound.base hinit)
      have hall := hs1.append hlast.leads
      rwa [List.append_nil] at hall

theorem actionTrace_sees (actions : List Action) {r : Runtime} (hr : Base sys r.linker) :
    Sees sys none 0 r.linker (actionTrace sys actions r) := by
  induction actions generalizing r with
  | nil => exact .nil
  | cons a actions ih =>
    unfold actionTrace
    split
    · cases h : r.act sys a with
      | done r' =>
        have hpart := (actTrace_part a hr).leads r' h
        have hbase := hpart.whole.base
        exact hpart.append_sees ((KeepsTables.refl hbase).moment.append_sees (ih hbase))
      | halt | fault | timeout => simpa [seenAfter] using (actTrace_part a hr).sees
    · exact .nil

/-- **The dependency tables.** When the parse of an image returns, its tables hold what
`loadLibrary` has returned for its dylib commands, in their order, with the linker's image for the
libraries that have no file; and they are the same at every later moment of the process. -/
theorem dependency_tables (sys : System) (fuel : Nat) (garbage : Bool) (mem : Mem)
    (actions : List Action) :
    (∀ m ∈ processTrace sys fuel garbage mem actions, ∀ p, m.parsed = some p →
      TablesMatch sys p m.state) ∧
    (processTrace sys fuel garbage mem actions).Pairwise fun m m' => ∀ p, m.parsed = some p →
      tables m'.state p.im = tables m.state p.im := by
  have hsees : Sees sys none 0 (.empty mem) (processTrace sys fuel garbage mem actions) := by
    have hstartup := startupTrace_part sys fuel mem
    unfold processTrace
    cases h : startupLoads sys fuel mem with
    | done r =>
      have hpart := hstartup.leads r h
      exact hpart.append_sees (actionTrace_sees actions (r := .start garbage r.2) hpart.whole.base)
    | halt | fault | timeout => simpa [seenAfter] using hstartup.sees
  exact ⟨fun m hm p hp => (hsees.parsed m hm p hp).1, hsees.ordered⟩

/-- The program opens `/A`, and `/A` and `/B` need each other. -/
example : ((processTrace loopSystem 4 false (fun _ => 0)
    (List.replicate 6 .goOn ++ [.dlopen 4 "/A"])).filterMap fun m =>
      m.parsed.bind fun p => tables m.state p.im) =
    [([], []), ([], []), ([2], []), ([3], [])] := rfl

end LibSystem.Lnk
