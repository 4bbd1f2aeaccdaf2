import LibSystem.Lnk.AddImage

/-!
# The image list

A program asks for the images by index. Each call walks the chain from its start, and a load puts
its images behind the first one, so an index is good for one call.
-/

namespace LibSystem.Lnk

open Outcome

/-! ## The walks -/

/-- The loop of `_dyld_image_count`. -/
def imageCountLoop (images : List MachObject) : Nat → Option ImageId → Word → Outcome Word
  | _, none, count => .done count
  | 0, some _, _ => .timeout
  | fuel + 1, some im, count => do
    let obj ← Outcome.ofOption images[im]?
    imageCountLoop images fuel obj.fNextImage (count + 1)

/-- The loop of `_dyld_get_image_header` and of `_dyld_get_image_vmaddr_slide`, which return 0
behind the end. -/
def getImageLoop (images : List MachObject) (get : MachObject → Word) (imageIndex : Word) :
    Nat → Option ImageId → Word → Outcome Word
  | _, none, _ => .done 0
  | 0, some _, _ => .timeout
  | fuel + 1, some im, count => do
    let obj ← Outcome.ofOption images[im]?
    if count = imageIndex then .done (get obj)
    else getImageLoop images get imageIndex fuel obj.fNextImage (count + 1)

def dyldImageCount (s : Linker) : Outcome Word :=
  imageCountLoop s.images s.images.length s.sFirstImage 0

def dyldGetImageHeader (imageIndex : Word) (s : Linker) : Outcome Word :=
  getImageLoop s.images (fun obj => obj.fHeader) imageIndex s.images.length s.sFirstImage 0

def dyldGetImageVmaddrSlide (imageIndex : Word) (s : Linker) : Outcome Word :=
  getImageLoop s.images (fun obj => obj.fSlide) imageIndex s.images.length s.sFirstImage 0

variable {images : List MachObject} {p : Option ImageId} {chain : List ImageId}

theorem imageCountLoop_eq (h : IsChain images p chain) {fuel : Nat} (hfuel : chain.length ≤ fuel)
    (count : Word) :
    imageCountLoop images fuel p count = done (count + BitVec.ofNat 32 chain.length) := by
  induction chain generalizing fuel p count with
  | nil =>
    obtain rfl : p = none := h
    cases fuel <;> simp [imageCountLoop]
  | cons im rest ih =>
    obtain ⟨rfl, obj, hobj, hrest⟩ := h
    obtain ⟨fuel, rfl⟩ : ∃ k, fuel = k + 1 := ⟨fuel - 1, by simp at hfuel; omega⟩
    rw [imageCountLoop, hobj, ofOption_some, done_bind, ih hrest (by simpa using hfuel)]
    congr 1
    rw [List.length_cons, BitVec.ofNat_add, BitVec.add_assoc, BitVec.add_comm 1]
    rfl

theorem getImageLoop_eq (h : IsChain images p chain) {fuel : Nat} (hfuel : chain.length ≤ fuel)
    (get : MachObject → Word) (imageIndex count : Word) :
    getImageLoop images get imageIndex fuel p count =
      done (((chain[(imageIndex - count).toNat]?.bind fun im => images[im]?).map get).getD 0) := by
  induction chain generalizing fuel p count with
  | nil =>
    obtain rfl : p = none := h
    cases fuel <;> simp [getImageLoop]
  | cons im rest ih =>
    obtain ⟨rfl, obj, hobj, hrest⟩ := h
    obtain ⟨fuel, rfl⟩ : ∃ k, fuel = k + 1 := ⟨fuel - 1, by simp at hfuel; omega⟩
    rw [getImageLoop, hobj, ofOption_some, done_bind]
    split
    · rename_i heq
      simp [heq, hobj]
    · rename_i hne
      have hindex : (imageIndex - count).toNat = (imageIndex - (count + 1)).toNat + 1 := by
        have : imageIndex - count ≠ 0 := fun h0 => hne (by bv_omega)
        bv_omega
      rw [ih hrest (by simpa using hfuel), hindex, List.getElem?_cons_succ]

/-! ## What a program is told -/

/-- The header and the slide of an image. -/
def listed (s : Linker) (im : ImageId) : Option (Addr × Word) :=
  s.images[im]?.map fun obj => (obj.fHeader, obj.fSlide)

/-- The calls tell of the images of `chain`, and of nothing else. -/
structure Tells (s : Linker) (chain : List ImageId) : Prop where
  count : dyldImageCount s = done (BitVec.ofNat 32 chain.length)
  header : ∀ i : Word, dyldGetImageHeader i s =
    done (((chain[i.toNat]?.bind (listed s)).map Prod.fst).getD 0)
  slide : ∀ i : Word, dyldGetImageVmaddrSlide i s =
    done (((chain[i.toNat]?.bind (listed s)).map Prod.snd).getD 0)

theorem IsChain.tells {s : Linker} (h : IsChain s.images s.sFirstImage chain) : Tells s chain := by
  have hvalue : ∀ (get : MachObject → Word) (part : Addr × Word → Word) (i : Word),
      (∀ obj : MachObject, part (obj.fHeader, obj.fSlide) = get obj) →
      getImageLoop s.images get i s.images.length s.sFirstImage 0 =
        done (((chain[i.toNat]?.bind (listed s)).map part).getD 0) := by
    intro get part i hpart
    rw [getImageLoop_eq h h.length_le, show i - 0 = i by simp]
    cases chain[i.toNat]? with
    | none => rfl
    | some im => simp [listed, Function.comp_def, hpart]
  refine ⟨?_, fun i => hvalue _ _ i fun _ => rfl, fun i => hvalue _ _ i fun _ => rfl⟩
  rw [dyldImageCount, imageCountLoop_eq h h.length_le]
  simp

/-! ## The chain along a run -/

/-- New images stand behind the first one, and the others keep their header and their slide. -/
structure ChainGrows (s s' : Linker) : Prop where
  length : s.images.length ≤ s'.images.length
  chain : ∀ first rest, IsChain s.images s.sFirstImage (first :: rest) →
    IsChain s'.images s'.sFirstImage (first :: ((newImages s s').reverse ++ rest))
  listed : ∀ im < s.images.length, listed s' im = listed s im

variable {sys : System} {s s' s'' : Linker} {r r' : Runtime}

theorem listed_eq_handlerCall (s : Linker) (im : ImageId) :
    listed s im = (handlerCall s 0 im).map fun call => (call.mh, call.vmaddrSlide) := by
  unfold listed handlerCall
  rw [Option.map_map]
  rfl

theorem KeepsCalls.listed (h : KeepsCalls s s') :
    ∀ im < s.images.length, listed s' im = listed s im := by
  intro im him
  rw [listed_eq_handlerCall, h 0 im him, listed_eq_handlerCall]

theorem ChainGrows.refl (s : Linker) : ChainGrows s s := by
  refine ⟨Nat.le_refl _, fun first rest h => ?_, fun _ _ => rfl⟩
  rwa [newImages_eq_nil rfl, List.reverse_nil, List.nil_append]

theorem ChainGrows.trans (h : ChainGrows s s') (h' : ChainGrows s' s'') : ChainGrows s s'' := by
  refine ⟨h.length.trans h'.length, fun first rest hc => ?_, fun im him => ?_⟩
  · rw [newImages_append h.length h'.length, List.reverse_append, List.append_assoc]
    exact h'.chain first _ (h.chain first rest hc)
  · rw [h'.listed im (him.trans_le h.length), h.listed im him]

theorem KeepsChain.chainGrows (h : KeepsChain s s') (hlen : s'.images.length = s.images.length) :
    ChainGrows s s' := by
  refine ⟨hlen.ge, fun first rest hc => ?_, h.calls.listed⟩
  rw [newImages_eq_nil hlen, List.reverse_nil, List.nil_append]
  exact h.chain _ hc

theorem goOn_length (h : r.goOn = done r') :
    r'.linker.images.length = r.linker.images.length := by
  unfold Runtime.goOn at h
  split at h
  · obtain ⟨⟨phase, next⟩, -, h⟩ := bind_eq_done.mp h
    cases next with
    | none =>
      obtain rfl := done.inj h
      rfl
    | some im =>
      obtain ⟨obj, -, ⟨-, rfl⟩ | ⟨-, rfl⟩⟩ := Runtime.doInitialize_eq_done h <;> rfl
  · obtain rfl := done.inj h
    simp [Linker.record, length_modify]
  · obtain ⟨obj, -, h⟩ := bind_eq_done.mp h
    obtain ⟨fn, -, h⟩ := bind_eq_done.mp h
    obtain rfl := done.inj h
    rfl
  · obtain rfl := done.inj h
    rfl

theorem callHandler_linker {fn : Word} {next : Option ImageId}
    (h : r.callHandler fn next = done r') : r'.linker = r.linker := by
  obtain ⟨-, rfl⟩ | ⟨im, -, hcalls⟩ := callHandler_calls h
  · rfl
  · exact hcalls.linker

theorem step_chainGrows {a : Action} (hstep : Runtime.Step sys r a r') :
    ChainGrows r.linker r'.linker := by
  obtain ⟨-, hact⟩ := hstep
  cases a with
  | goOn => exact (goOn_keeps hact).1.chainGrows (goOn_length hact)
  | leave =>
    obtain ⟨hlinker, -⟩ | ⟨fn, im, rest, obj, -, -, hcall⟩ := leave_cases hact
    · exact hlinker ▸ .refl _
    · exact callHandler_linker hcall ▸ .refl _
  | dlopen fuel path =>
    obtain ⟨-, dlib, al, s, hload, himages, hfirst⟩ := dlopen_loads hact
    have hloads := (loadLibraryEx_loads hload).1
    have hgrows : ChainGrows r.linker s :=
      ⟨hloads.length, hloads.chain, (KeepsCalls.load hload).listed⟩
    exact hgrows.trans ((KeepsChain.of_images himages hfirst).chainGrows (by rw [himages]))
  | register fn => exact callHandler_linker (register_eq_done hact) ▸ .refl _

theorem reaches_chainGrows (h : Reaches (Runtime.Step sys) r r') : ChainGrows r.linker r'.linker :=
  h.invariant (I := fun t => ChainGrows r.linker t.linker) (.refl _)
    fun _ _ _ hgrows _ hstep => hgrows.trans (step_chainGrows hstep)

theorem start_chain {fuel : Nat} {mem : Mem} {main : ImageId} {garbage : Bool}
    (hloads : startupLoads sys fuel mem = done (main, s))
    (hrun : Reaches (Runtime.Step sys) (.start garbage s) r) :
    ∃ first rest, IsChain r.linker.images r.linker.sFirstImage (first :: rest) := by
  obtain ⟨first, rest, hchain⟩ := (startupLoads_valid hloads).chain
  exact ⟨first, _, (reaches_chainGrows hrun).chain first rest hchain⟩

/-! ## An index from one call to the next -/

/-- The calls for one index tell of no image, or of `im`. -/
def TellsAt (s : Linker) (i : Word) (im : Option ImageId) : Prop :=
  dyldGetImageHeader i s = done (((im.bind (listed s)).map Prod.fst).getD 0) ∧
    dyldGetImageVmaddrSlide i s = done (((im.bind (listed s)).map Prod.snd).getD 0)

theorem Tells.at (h : Tells s chain) (i : Word) : TellsAt s i chain[i.toNat]? :=
  ⟨h.header i, h.slide i⟩

theorem TellsAt.congr {i i' : Word} {im : Option ImageId} (h : TellsAt s i im)
    (h' : TellsAt s' i' im) (hlisted : im.bind (listed s') = im.bind (listed s)) :
    dyldGetImageHeader i' s' = dyldGetImageHeader i s ∧
      dyldGetImageVmaddrSlide i' s' = dyldGetImageVmaddrSlide i s := by
  rw [h'.1, h'.2, h.1, h.2, hlisted]
  exact ⟨rfl, rfl⟩

theorem ChainGrows.listed_getElem? (h : ChainGrows s s')
    (hchain : IsChain s.images s.sFirstImage chain) (n : Nat) :
    chain[n]?.bind (Lnk.listed s') = chain[n]?.bind (Lnk.listed s) := by
  cases him : chain[n]? with
  | none => rfl
  | some im => exact h.listed im (hchain.lt_length im (List.mem_of_getElem? him))

theorem length_newImages (s s' : Linker) :
    (newImages s s').length = s'.images.length - s.images.length := by
  simp [newImages]

/-- **Every load moves the indices.** When `k` images have been loaded from one moment of a run to
another, the count has grown by `k`, the image with index 0 is the same, another one has an index
that is `k` higher, and the new ones have the indices from 1 to `k`, the last one first. -/
theorem imageIndex_moves {fuel : Nat} {mem : Mem} {main : ImageId} {s : Linker} {garbage : Bool}
    {k : Nat} (hloads : startupLoads sys fuel mem = done (main, s))
    (hrun : Reaches (Runtime.Step sys) (.start garbage s) r)
    (hrun' : Reaches (Runtime.Step sys) r r')
    (hk : k = r'.linker.images.length - r.linker.images.length) :
    (∃ count, dyldImageCount r.linker = done count ∧
      dyldImageCount r'.linker = done (count + BitVec.ofNat 32 k)) ∧
    (dyldGetImageHeader 0 r'.linker = dyldGetImageHeader 0 r.linker ∧
      dyldGetImageVmaddrSlide 0 r'.linker = dyldGetImageVmaddrSlide 0 r.linker) ∧
    (∀ i : Word, i ≠ 0 → i.toNat + k < 2 ^ 32 →
      dyldGetImageHeader (i + BitVec.ofNat 32 k) r'.linker = dyldGetImageHeader i r.linker ∧
      dyldGetImageVmaddrSlide (i + BitVec.ofNat 32 k) r'.linker =
        dyldGetImageVmaddrSlide i r.linker) ∧
    ∀ i : Word, 0 < i.toNat → i.toNat ≤ k →
      TellsAt r'.linker i (some (r'.linker.images.length - i.toNat)) := by
  obtain ⟨first, rest, hchain⟩ := start_chain hloads hrun
  have hgrows := reaches_chainGrows hrun'
  have hchain' := hgrows.chain first rest hchain
  have hnews : (newImages r.linker r'.linker).reverse.length = k := by
    rw [List.length_reverse, length_newImages, hk]
  refine ⟨⟨_, hchain.tells.count, ?_⟩, ?_, fun i hi hfit => ?_, fun i hi hle => ?_⟩
  · rw [hchain'.tells.count, ← BitVec.ofNat_add]
    congr 2
    simp only [List.length_cons, List.length_append, hnews]
    omega
  · exact (hchain.tells.at 0).congr (hchain'.tells.at 0) (hgrows.listed_getElem? hchain 0)
  · have hindex : (i + BitVec.ofNat 32 k).toNat = i.toNat + k := by
      rw [BitVec.toNat_add, BitVec.toNat_ofNat, Nat.add_mod_mod, Nat.mod_eq_of_lt hfit]
    obtain ⟨n, hn⟩ : ∃ n, i.toNat = n + 1 := ⟨i.toNat - 1, by
      have : i.toNat ≠ 0 := fun h0 => hi (BitVec.eq_of_toNat_eq (by simpa using h0))
      omega⟩
    -- The image is at the same place behind the new ones.
    have hplace : (first :: ((newImages r.linker r'.linker).reverse ++ rest))[i.toNat + k]? =
        (first :: rest)[i.toNat]? := by
      rw [hn, show n + 1 + k = (n + k) + 1 by omega, List.getElem?_cons_succ,
        List.getElem?_cons_succ, List.getElem?_append_right (by omega), hnews]
      congr 1
      omega
    have hat := hchain'.tells.at (i + BitVec.ofNat 32 k)
    rw [hindex, hplace] at hat
    exact (hchain.tells.at i).congr hat (hgrows.listed_getElem? hchain _)
  · have hat := hchain'.tells.at i
    obtain ⟨n, hn⟩ : ∃ n, i.toNat = n + 1 := ⟨i.toNat - 1, by omega⟩
    have hn' : n < (newImages r.linker r'.linker).length := by
      rw [← List.length_reverse, hnews]
      omega
    rw [hn, List.getElem?_cons_succ, List.getElem?_append_left (by simpa using hn'),
      List.getElem?_reverse hn', length_newImages, newImages,
      List.getElem?_range' (by omega)] at hat
    rw [show r'.linker.images.length - i.toNat = r.linker.images.length +
      1 * (r'.linker.images.length - r.linker.images.length - 1 - n) by omega]
    exact hat

/-! ## A loop over the indices -/

/-- `for (; i < _dyld_image_count(); i++)`, which asks for the header and the slide in each round,
and may do anything before the next one. `visits` is what it is told. -/
inductive Sweeps (sys : System) : Runtime → Word → List (Addr × Word) → Runtime → Prop where
  | stop {r : Runtime} {i count : Word} (hcount : dyldImageCount r.linker = done count)
      (hend : count ≤ i) : Sweeps sys r i [] r
  | round {r r' r'' : Runtime} {i count mh slide : Word} {visits : List (Addr × Word)}
      (hcount : dyldImageCount r.linker = done count) (hmore : i < count)
      (hheader : dyldGetImageHeader i r.linker = done mh)
      (hslide : dyldGetImageVmaddrSlide i r.linker = done slide)
      (hbody : Reaches (Runtime.Step sys) r r') (hrest : Sweeps sys r' (i + 1) visits r'') :
      Sweeps sys r i ((mh, slide) :: visits) r''

variable {i : Word} {visits : List (Addr × Word)}

theorem Sweeps.reaches (h : Sweeps sys r i visits r') : Reaches (Runtime.Step sys) r r' := by
  induction h with
  | stop _ _ => exact .refl
  | round _ _ _ _ hbody _ ih => exact hbody.trans ih

theorem Tells.visit (h : Tells s chain) {im : ImageId} {mh slide : Word} {v : Addr × Word}
    (him : chain[i.toNat]? = some im) (hv : listed s im = some v)
    (hheader : dyldGetImageHeader i s = done mh)
    (hslide : dyldGetImageVmaddrSlide i s = done slide) : v = (mh, slide) := by
  have hmh : v.1 = mh := by simpa [h.header, him, hv] using hheader
  have hsl : v.2 = slide := by simpa [h.slide, him, hv] using hslide
  exact Prod.ext hmh hsl

theorem IsChain.listed_isSome (h : IsChain s.images s.sFirstImage chain) {im : ImageId}
    (him : im ∈ chain) : ∃ v, listed s im = some v := by
  have hlt := h.lt_length im him
  exact ⟨_, by rw [listed, List.getElem?_eq_getElem hlt, Option.map_some]⟩

theorem Sweeps.visits_ahead (h : Sweeps sys r i visits r') {first : ImageId} {rest : List ImageId}
    (hchain : IsChain r.linker.images r.linker.sFirstImage (first :: rest))
    (hroom : r'.linker.images.length < 2 ^ 32) {n : Nat} {im : ImageId}
    (him : (first :: rest)[n]? = some im) (hahead : i.toNat ≤ n) :
    ∃ v ∈ visits, listed r.linker im = some v := by
  induction h generalizing rest n with
  | @stop r i count hcount hend =>
    have hlen := hchain.length_le
    have hn := (List.getElem?_eq_some_iff.mp him).1
    rw [hchain.tells.count, done.injEq] at hcount
    rw [← hcount, BitVec.le_def, BitVec.toNat_ofNat, Nat.mod_eq_of_lt (by omega)] at hend
    omega
  | @round r r1 r' i count mh slide visits hcount hmore hheader hslide hbody hrest ih =>
    obtain ⟨v, hv⟩ := hchain.listed_isSome (List.mem_of_getElem? him)
    rcases hahead.eq_or_lt with rfl | hlt
    · obtain rfl := hchain.tells.visit him hv hheader hslide
      exact ⟨_, List.mem_cons_self, hv⟩
    -- The image has another one before it, so all the new ones come before it too.
    obtain ⟨m, rfl⟩ : ∃ m, n = m + 1 := ⟨n - 1, by omega⟩
    have hgrows := reaches_chainGrows hbody
    have hnext : (i + 1).toNat ≤ (newImages r.linker r1.linker).reverse.length + m + 1 := by
      rw [BitVec.toNat_add]
      exact (Nat.mod_le _ _).trans (by simp; omega)
    obtain ⟨v', hv', hlisted⟩ := ih (hgrows.chain first rest hchain) hroom
      (n := (newImages r.linker r1.linker).reverse.length + m + 1)
      (by simpa [List.getElem?_append_right] using him) hnext
    have hlt := hchain.lt_length im (List.mem_of_getElem? him)
    rw [hgrows.listed im hlt] at hlisted
    exact ⟨v', List.mem_cons_of_mem _ hv', hlisted⟩

theorem Sweeps.visits_listed (h : Sweeps sys r i visits r') {first : ImageId} {rest : List ImageId}
    (hchain : IsChain r.linker.images r.linker.sFirstImage (first :: rest)) :
    ∃ rest', IsChain r'.linker.images r'.linker.sFirstImage (first :: rest') ∧
      ∀ v ∈ visits, ∃ im ∈ first :: rest', listed r'.linker im = some v := by
  induction h generalizing rest with
  | stop _ _ => exact ⟨rest, hchain, by simp⟩
  | @round r r1 r' i count mh slide visits hcount hmore hheader hslide hbody hrest ih =>
    have hgrows := reaches_chainGrows hbody
    obtain ⟨rest', hchain', hvisits⟩ := ih (hgrows.chain first rest hchain)
    refine ⟨rest', hchain', fun v hv => ?_⟩
    rcases List.mem_cons.mp hv with rfl | hv
    · have hi : i.toNat < (first :: rest).length := by
        rw [hchain.tells.count, done.injEq] at hcount
        rw [← hcount, BitVec.lt_def, BitVec.toNat_ofNat] at hmore
        exact hmore.trans_le (Nat.mod_le _ _)
      obtain ⟨v', hv'⟩ := hchain.listed_isSome (List.getElem_mem hi)
      obtain rfl := hchain.tells.visit (List.getElem?_eq_getElem hi) hv' hheader hslide
      have hgrows' := hgrows.trans (reaches_chainGrows hrest.reaches)
      obtain hsame := (hgrows'.chain first rest hchain).unique hchain'
      have hsub : first :: rest ⊆ first :: rest' :=
        hsame ▸ List.cons_subset_cons first (List.subset_append_right _ rest)
      exact ⟨_, hsub (List.getElem_mem hi),
        (hgrows'.listed _ (hchain.lt_length _ (List.getElem_mem hi))).trans hv'⟩
    · exact hvisits v hv

/-- **A loop over the indices misses nothing that was there.** Whatever it loads on its way, it is
told of every image that was in the chain when it started, and of images of the chain only. A 32-bit
address space has room for fewer than `2 ^ 32` images. -/
theorem sweep_covers {fuel : Nat} {mem : Mem} {main : ImageId} {s : Linker} {garbage : Bool}
    (hloads : startupLoads sys fuel mem = done (main, s))
    (hrun : Reaches (Runtime.Step sys) (.start garbage s) r)
    (hsweep : Sweeps sys r 0 visits r') (hroom : r'.linker.images.length < 2 ^ 32) :
    ∃ chain chain', r.linker.imageChain = done chain ∧ r'.linker.imageChain = done chain' ∧
      (∀ im ∈ chain, ∃ v ∈ visits, listed r.linker im = some v) ∧
      ∀ v ∈ visits, ∃ im ∈ chain', listed r'.linker im = some v := by
  obtain ⟨first, rest, hchain⟩ := start_chain hloads hrun
  obtain ⟨rest', hchain', hvisits⟩ := hsweep.visits_listed hchain
  refine ⟨_, _, Linker.imageChain_eq_done.mpr hchain, Linker.imageChain_eq_done.mpr hchain',
    fun im him => ?_, hvisits⟩
  obtain ⟨n, hn⟩ := List.mem_iff_getElem?.mp him
  exact hsweep.visits_ahead hchain hroom hn (by simp)

/-! ## A program with a loop -/

/-- A library that is mapped where there is room for it. -/
def placedLibrary (reserved : Word) : File where
  isMachO := true
  commands := [.segment ⟨"__TEXT", 0, 0x1000, 0, []⟩, .dyldInfo ⟨0, 0, 0, 0⟩]
  reserved := reserved
  wire := id

def placedSystem : System :=
  plainSystem [("/A", placedLibrary 0x100000), ("/B", placedLibrary 0x200000)]

/-- The program has opened `/A`. -/
def sweepStart : Runtime :=
  match runActions placedSystem (List.replicate 6 .goOn ++ [.dlopen 3 "/A", .goOn])
      (.start false (loaded placedSystem)) with
  | .done r => r
  | _ => .start false (loaded placedSystem)

/-- It has opened `/B` too, in the first round of its loop. -/
def sweepEnd : Runtime :=
  match runActions placedSystem [.dlopen 3 "/B", .goOn] sweepStart with
  | .done r => r
  | _ => sweepStart

theorem sweepStart_reaches :
    Reaches (Runtime.Step placedSystem) (.start false (loaded placedSystem)) sweepStart :=
  runActions_reaches (rfl : runActions placedSystem
    (List.replicate 6 .goOn ++ [.dlopen 3 "/A", .goOn]) (.start false (loaded placedSystem)) =
      done sweepStart)

theorem sweepEnd_reaches : Reaches (Runtime.Step placedSystem) sweepStart sweepEnd :=
  runActions_reaches
    (rfl : runActions placedSystem [.dlopen 3 "/B", .goOn] sweepStart = done sweepEnd)

/-- `/A` moves from the index 1 to the index 2. -/
theorem imageIndex_moves_sweep :
    (∃ count, dyldImageCount sweepStart.linker = done count ∧
      dyldImageCount sweepEnd.linker = done (count + BitVec.ofNat 32 1)) ∧
    (dyldGetImageHeader 0 sweepEnd.linker = dyldGetImageHeader 0 sweepStart.linker ∧
      dyldGetImageVmaddrSlide 0 sweepEnd.linker = dyldGetImageVmaddrSlide 0 sweepStart.linker) ∧
    (∀ i : Word, i ≠ 0 → i.toNat + 1 < 2 ^ 32 →
      dyldGetImageHeader (i + BitVec.ofNat 32 1) sweepEnd.linker =
        dyldGetImageHeader i sweepStart.linker ∧
      dyldGetImageVmaddrSlide (i + BitVec.ofNat 32 1) sweepEnd.linker =
        dyldGetImageVmaddrSlide i sweepStart.linker) ∧
    ∀ i : Word, 0 < i.toNat → i.toNat ≤ 1 →
      TellsAt sweepEnd.linker i (some (sweepEnd.linker.images.length - i.toNat)) :=
  imageIndex_moves
    (rfl : startupLoads placedSystem 1 (fun _ => 0) = done (1, loaded placedSystem))
    sweepStart_reaches sweepEnd_reaches (by decide)

theorem sweep_visits : Sweeps placedSystem sweepStart 0
    [(0x8000, 0), (0x200000, 0x200000), (0x100000, 0x100000)] sweepEnd :=
  have hcount : dyldImageCount sweepEnd.linker = done 3 := by decide
  .round (by decide : dyldImageCount sweepStart.linker = done 2) (by decide) (by decide) (by decide)
    sweepEnd_reaches
    (.round hcount (by decide) (by decide) (by decide) .refl
      (.round hcount (by decide) (by decide) (by decide) .refl (.stop hcount (by decide))))

theorem sweep_covers_visits :
    ∃ chain chain', sweepStart.linker.imageChain = done chain ∧
      sweepEnd.linker.imageChain = done chain' ∧
      (∀ im ∈ chain, ∃ v ∈ [(0x8000, 0), (0x200000, 0x200000), (0x100000, 0x100000)],
        listed sweepStart.linker im = some v) ∧
      ∀ v ∈ [(0x8000, 0), (0x200000, 0x200000), (0x100000, 0x100000)],
        ∃ im ∈ chain', listed sweepEnd.linker im = some v :=
  sweep_covers (rfl : startupLoads placedSystem 1 (fun _ => 0) = done (1, loaded placedSystem))
    sweepStart_reaches sweep_visits (by decide)

end LibSystem.Lnk
