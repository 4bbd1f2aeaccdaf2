import Mathlib.Data.List.Find
import LibSystem.Lnk.Content

/-!
# The image of an address

`dladdr` goes along the chain and takes the first image whose first segment has the address, or
ends at it. That segment need not be `__TEXT`.
-/

namespace LibSystem.Lnk

open Outcome

/-- The fields of `Dl_info`. -/
structure DlInfo where
  dliFname : Option String
  dliFbase : Addr
  dliSname : Option String
  dliSaddr : Addr
  deriving DecidableEq

def getTextSegmentBounds (obj : MachObject) : Outcome (Addr × Addr) := do
  let start ← segActualLoadAddr obj 0
  let stop ← segActualEndAddr obj 0
  .done (start, stop)

/-- The image in which the address has been found. -/
def dladdrLoop (s : Linker) (ptr : Addr) : Nat → Option ImageId → Outcome (Option ImageId)
  | _, none => .done none
  | 0, some _ => .timeout
  | fuel + 1, some im => do
    let obj ← s.object im
    let (start, stop) ← getTextSegmentBounds obj
    if ptr ≤ stop ∧ start ≤ ptr then .done (some im)
    else dladdrLoop s ptr fuel obj.fNextImage

/-- What it returns, and what it leaves in `dl`. -/
def dladdr (s : Linker) (ptr : Addr) (dl : DlInfo) : Outcome (Nat × DlInfo) := do
  match ← dladdrLoop s ptr s.images.length s.sFirstImage with
  | some im => do
    let obj ← s.object im
    .done (1, { dl with
      dliSname := none
      dliSaddr := 0
      dliFname := obj.fFilePath
      dliFbase := obj.fSlide })
  | none => .done (0, { dl with dliSname := none, dliSaddr := 0 })

/-! ## Ranges -/

/-- The segment that is called `__TEXT`, wherever its command stands. -/
def textSegment (obj : MachObject) : Option SegmentCommand :=
  obj.fSegmentLoadCommands.find? fun seg => seg.segname = "__TEXT"

/-- Where `__TEXT` is: its start and its end. -/
def textBounds (s : Linker) (im : ImageId) : Option (Addr × Addr) :=
  s.images[im]?.bind fun obj => (textSegment obj).map fun seg =>
    (seg.vmaddr + obj.fSlide, seg.vmaddr + obj.fSlide + seg.vmsize)

/-- The address is in `[start, end)`. -/
def InText (s : Linker) (im : ImageId) (ptr : Addr) : Prop :=
  ∃ start stop, textBounds s im = some (start, stop) ∧ start ≤ ptr ∧ ptr < stop

/-- The address is the end of the range. -/
def TextEndsAt (s : Linker) (im : ImageId) (ptr : Addr) : Prop :=
  ∃ start, textBounds s im = some (start, ptr) ∧ start ≤ ptr

/-- What `dladdr` takes for the bounds of `__TEXT`. -/
def firstBounds (s : Linker) (im : ImageId) : Outcome (Addr × Addr) :=
  s.object im >>= getTextSegmentBounds

/-- The first segment has the address, or ends at it. -/
def TakesIn (s : Linker) (im : ImageId) (ptr : Addr) : Prop :=
  ∃ start stop, firstBounds s im = done (start, stop) ∧ start ≤ ptr ∧ ptr ≤ stop

/-- What `dladdr` says about an image. -/
def imageInfo (s : Linker) (im : ImageId) : Option (Option String × Addr) :=
  s.images[im]?.map fun obj => (obj.fFilePath, obj.fSlide)

/-- The test of the loop. -/
def textHit (s : Linker) (ptr : Addr) (im : ImageId) : Bool :=
  match firstBounds s im with
  | .done (start, stop) => ptr ≤ stop ∧ start ≤ ptr
  | _ => false

section Search

variable {s s' : Linker} {ptr : Addr} {im : ImageId} {chain chain' : List ImageId} {dl : DlInfo}

theorem textHit_iff : textHit s ptr im = true ↔ TakesIn s im ptr := by
  unfold textHit TakesIn
  cases firstBounds s im with
  | done bounds =>
    obtain ⟨start, stop⟩ := bounds
    rw [decide_eq_true_iff]
    constructor
    · rintro ⟨hstop, hstart⟩
      exact ⟨start, stop, rfl, hstart, hstop⟩
    · rintro ⟨start', stop', h, hstart, hstop⟩
      obtain ⟨rfl, rfl⟩ := Prod.mk.inj (done.inj h)
      exact ⟨hstop, hstart⟩
  | halt msg => simp
  | fault => simp
  | timeout => simp

theorem firstBounds_of_text {bounds : Addr × Addr} (h : textBounds s im = some bounds) :
    ∃ first, firstBounds s im = done first := by
  obtain ⟨obj, hobj, h⟩ := Option.bind_eq_some_iff.mp h
  obtain ⟨seg, hseg, -⟩ := Option.map_eq_some_iff.mp h
  have hne : obj.fSegmentLoadCommands ≠ [] := List.ne_nil_of_mem (List.mem_of_find?_eq_some hseg)
  obtain ⟨first, rest, hsegments⟩ := List.exists_cons_of_ne_nil hne
  refine ⟨(first.vmaddr + obj.fSlide, first.vmaddr + obj.fSlide + first.vmsize), ?_⟩
  unfold firstBounds getTextSegmentBounds segActualEndAddr segActualLoadAddr Linker.object
  simp only [hobj, ofOption_some, done_bind, hsegments, List.getElem?_cons_zero]

/-- What the caller gets. -/
def dladdrAnswer (dl : DlInfo) : Option (Option String × Addr) → Nat × DlInfo
  | some (path, slide) => (1, ⟨path, slide, none, 0⟩)
  | none => (0, { dl with dliSname := none, dliSaddr := 0 })

theorem dladdrLoop_eq {p : Option ImageId} {fuel : Nat} (hchain : IsChain s.images p chain)
    (hfuel : chain.length ≤ fuel)
    (hfirst : ∀ im ∈ chain, ∃ bounds, firstBounds s im = done bounds) :
    dladdrLoop s ptr fuel p = done (chain.find? (textHit s ptr)) := by
  induction chain generalizing p fuel with
  | nil =>
    obtain rfl : p = none := hchain
    cases fuel <;> rfl
  | cons im chain ih =>
    obtain ⟨rfl, obj, hobj, hrest⟩ := hchain
    obtain ⟨fuel, rfl⟩ : ∃ k, fuel = k + 1 := ⟨fuel - 1, by simp at hfuel; omega⟩
    obtain ⟨⟨start, stop⟩, hbounds⟩ := hfirst im List.mem_cons_self
    have hobject : s.object im = done obj := by rw [Linker.object, hobj, ofOption_some]
    have hobj' : getTextSegmentBounds obj = done (start, stop) := by
      rwa [firstBounds, hobject] at hbounds
    rw [dladdrLoop, hobject, done_bind, hobj', done_bind]
    dsimp only
    by_cases hhit : ptr ≤ stop ∧ start ≤ ptr
    · have htrue : textHit s ptr im = true := by simp [textHit, hbounds, hhit]
      rw [if_pos hhit, List.find?_cons_of_pos htrue]
    · have hfalse : ¬ textHit s ptr im = true := by simpa [textHit, hbounds] using hhit
      rw [if_neg hhit, List.find?_cons_of_neg hfalse]
      exact ih hrest (by simpa using hfuel) fun j hj => hfirst j (List.mem_cons_of_mem im hj)

theorem dladdr_eq (hchain : IsChain s.images s.sFirstImage chain)
    (hfirst : ∀ im ∈ chain, ∃ bounds, firstBounds s im = done bounds) :
    dladdr s ptr dl =
      done (dladdrAnswer dl ((chain.find? (textHit s ptr)).bind (imageInfo s))) := by
  rw [dladdr, dladdrLoop_eq hchain hchain.length_le hfirst, done_bind]
  cases hfind : chain.find? (textHit s ptr) with
  | none => rfl
  | some im =>
    have him := hchain.lt_length im (List.mem_of_find?_eq_some hfind)
    have hobj := List.getElem?_eq_getElem him
    simp only [Linker.object, imageInfo, hobj, ofOption_some, done_bind, Option.bind_some,
      Option.map_some]
    rfl

/-! ## Another order -/

theorem firstBounds_eq (s : Linker) (im : ImageId) :
    firstBounds s im = ofOption (content s im) >>= getTextSegmentBounds := by
  unfold firstBounds Linker.object content
  cases s.images[im]? with
  | none => rfl
  | some obj => rfl

theorem imageInfo_eq (s : Linker) (im : ImageId) :
    imageInfo s im = (content s im).map fun obj => (obj.fFilePath, obj.fSlide) := by
  unfold imageInfo content
  cases s.images[im]? with
  | none => rfl
  | some obj => rfl

theorem textHit_congr (h : content s' im = content s im) :
    textHit s' ptr im = textHit s ptr im := by
  unfold textHit
  rw [firstBounds_eq, h, ← firstBounds_eq]

/-- The images of the list are linked, in this order. -/
def relink (s : Linker) : List ImageId → Linker
  | [] => { s with sFirstImage := none }
  | im :: rest =>
    { (relink s rest).modify im fun obj => obj.setNextImage (relink s rest).sFirstImage with
      sFirstImage := some im }

theorem content_relink (s : Linker) (chain : List ImageId) (im : ImageId) :
    content (relink s chain) im = content s im := by
  induction chain with
  | nil => rfl
  | cons first rest ih =>
    rw [← ih]
    change ((relink s rest).modify first _).images[im]?.map _ = _
    rw [getElem?_modify, Option.map_map]
    unfold content
    congr 1
    funext obj
    simp only [Function.comp_apply]
    split
    · rfl
    · rfl

theorem isChain_relink (hnodup : chain.Nodup) (hlt : ∀ im ∈ chain, im < s.images.length) :
    IsChain (relink s chain).images (relink s chain).sFirstImage chain := by
  induction chain with
  | nil => rfl
  | cons im rest ih =>
    obtain ⟨hfresh, hrest⟩ := List.nodup_cons.mp hnodup
    have hchain := ih hrest fun j hj => hlt j (List.mem_cons_of_mem im hj)
    obtain ⟨obj, hobj⟩ : ∃ obj, (relink s rest).images[im]? = some obj := by
      have hcontent := content_relink s rest im
      have him := List.getElem?_eq_getElem (hlt im List.mem_cons_self)
      unfold content at hcontent
      rw [him, Option.map_some, Option.map_eq_some_iff] at hcontent
      exact hcontent.imp fun obj h => h.1
    have himages : ∀ j, (relink s (im :: rest)).images[j]? =
        (relink s rest).images[j]?.map fun obj =>
          if im = j then obj.setNextImage (relink s rest).sFirstImage else obj :=
      getElem?_modify _ im _
    refine ⟨rfl, obj.setNextImage (relink s rest).sFirstImage, ?_, ?_⟩
    · rw [himages, hobj, Option.map_some, if_pos rfl]
    · refine hchain.congr fun j hj => ?_
      have hne : im ≠ j := fun h => hfresh (h ▸ hj)
      rw [himages, Option.map_map]
      congr 1
      funext obj
      simp only [Function.comp_apply, if_neg hne]

theorem find?_bind_perm {α β : Type} {p : α → Bool} {g : α → Option β} {l l' : List α}
    (hperm : l'.Perm l) (h : ∀ a ∈ l, ∀ b ∈ l, p a → p b → g a = g b) :
    (l'.find? p).bind g = (l.find? p).bind g := by
  cases hl : l.find? p with
  | none =>
    have hnone : ∀ a ∈ l', ¬ p a := fun a ha =>
      List.find?_eq_none.mp hl a (hperm.mem_iff.mp ha)
    rw [List.find?_eq_none.mpr hnone]
  | some a =>
    have ha := List.mem_of_find?_eq_some hl
    cases hl' : l'.find? p with
    | none => exact absurd (List.find?_some hl) (List.find?_eq_none.mp hl' a (hperm.mem_iff.mpr ha))
    | some b =>
      have hb := hperm.mem_iff.mp (List.mem_of_find?_eq_some hl')
      exact h b hb a ha (List.find?_some hl') (List.find?_some hl)

end Search

/-! ## The right image -/

/-- A chain of images that each have a `__TEXT` segment. No two of these meet. -/
structure TextChain (s : Linker) (chain : List ImageId) : Prop where
  linked : IsChain s.images s.sFirstImage chain
  text : ∀ im ∈ chain, ∃ bounds, textBounds s im = some bounds
  disjoint : chain.Pairwise fun a b => ∀ x, ¬ (InText s a x ∧ InText s b x)

/-- `dladdr` finds an image if one has the address, names that one, and says the same wherever the
images are in the chain. -/
structure NamesImage (s : Linker) (chain : List ImageId) (ptr : Addr) (dl : DlInfo) : Prop where
  found : ∃ r dl', dladdr s ptr dl = done (r, dl') ∧ (r ≠ 0 ↔ ∃ im ∈ chain, InText s im ptr) ∧
    ∀ im ∈ chain, InText s im ptr → dl'.dliFname = filePath s im
  order : ∀ s' chain', IsChain s'.images s'.sFirstImage chain' → chain'.Perm chain →
    (∀ im ∈ chain, content s' im = content s im) → dladdr s' ptr dl = dladdr s ptr dl

/-- An image may take the address in although its `__TEXT` does not have it: the range ends there,
or another segment comes first. That does no harm if the image looks like the one that has the
address, which must be taken in with one image at least. -/
structure TakenRight (s : Linker) (chain : List ImageId) (ptr : Addr) : Prop where
  alike : ∀ a ∈ chain, ∀ b ∈ chain, TakesIn s a ptr → TakesIn s b ptr →
    imageInfo s a = imageInfo s b
  owned : ∀ im ∈ chain, TakesIn s im ptr →
    ∃ im' ∈ chain, InText s im' ptr ∧ filePath s im' = filePath s im
  taken : ∀ im ∈ chain, InText s im ptr → ∃ im' ∈ chain, TakesIn s im' ptr

section Names

variable {s s' : Linker} {ptr : Addr} {im : ImageId} {chain chain' : List ImageId} {dl : DlInfo}

theorem TextChain.unique (h : TextChain s chain) {a b : ImageId} (ha : a ∈ chain) (hb : b ∈ chain)
    (hat : InText s a ptr) (hbt : InText s b ptr) : a = b := by
  by_contra hne
  have hsymm : Std.Symm fun a b => ∀ x, ¬ (InText s a x ∧ InText s b x) :=
    ⟨fun a b h x hx => h x hx.symm⟩
  exact h.disjoint.forall ha hb hne ptr ⟨hat, hbt⟩

theorem TextChain.first (h : TextChain s chain) : ∀ im ∈ chain, ∃ b, firstBounds s im = done b := by
  intro im him
  obtain ⟨bounds, hbounds⟩ := h.text im him
  exact firstBounds_of_text hbounds

/-! ### When `__TEXT` comes first -/

/-- The first segment is `__TEXT`. -/
def TextFirst (s : Linker) (im : ImageId) : Prop :=
  ∀ bounds, textBounds s im = some bounds → firstBounds s im = done bounds

/-- An image whose range ends at the address does no harm if an image that has the address looks
the same. -/
def EndsHarmlessly (s : Linker) (chain : List ImageId) (ptr : Addr) : Prop :=
  ∀ im ∈ chain, TextEndsAt s im ptr →
    ∃ im' ∈ chain, InText s im' ptr ∧ imageInfo s im' = imageInfo s im

theorem TextFirst.takesIn_iff (h : TextFirst s im) {bounds : Addr × Addr}
    (htext : textBounds s im = some bounds) :
    TakesIn s im ptr ↔ InText s im ptr ∨ TextEndsAt s im ptr := by
  have hfirst := h bounds htext
  obtain ⟨start, stop⟩ := bounds
  unfold TakesIn InText TextEndsAt
  rw [hfirst, htext]
  constructor
  · rintro ⟨start', stop', h, hstart, hstop⟩
    obtain ⟨rfl, rfl⟩ := Prod.mk.inj (done.inj h)
    by_cases hend : stop = ptr
    · exact .inr ⟨start, by rw [hend], hstart⟩
    · exact .inl ⟨start, stop, rfl, hstart, by bv_omega⟩
  · rintro (⟨start', stop', h, hstart, hstop⟩ | ⟨start', h, hstart⟩)
    · obtain ⟨rfl, rfl⟩ := Prod.mk.inj (Option.some.inj h)
      exact ⟨start, stop, rfl, hstart, BitVec.le_of_lt hstop⟩
    · obtain ⟨rfl, rfl⟩ := Prod.mk.inj (Option.some.inj h)
      exact ⟨start, stop, rfl, hstart, BitVec.le_refl _⟩

theorem filePath_of_imageInfo {a b : ImageId} (h : imageInfo s a = imageInfo s b) :
    filePath s a = filePath s b := by
  have hpath : ∀ im, filePath s im = (imageInfo s im).bind Prod.fst := by
    intro im
    unfold filePath imageInfo
    cases s.images[im]? <;> rfl
  rw [hpath, hpath, h]

theorem TextChain.takenRight_iff (h : TextChain s chain)
    (hfirst : ∀ im ∈ chain, TextFirst s im) :
    TakenRight s chain ptr ↔ EndsHarmlessly s chain ptr := by
  have htakes : ∀ im ∈ chain, TakesIn s im ptr ↔ InText s im ptr ∨ TextEndsAt s im ptr := by
    intro im him
    obtain ⟨bounds, hbounds⟩ := h.text im him
    exact (hfirst im him).takesIn_iff hbounds
  constructor
  · intro hright im him hend
    have htaken := (htakes im him).mpr (.inr hend)
    obtain ⟨im', him', hin, -⟩ := hright.owned im him htaken
    exact ⟨im', him', hin, hright.alike im' him' im him ((htakes im' him').mpr (.inl hin)) htaken⟩
  · intro hends
    have howned : ∀ im ∈ chain, TakesIn s im ptr →
        ∃ im' ∈ chain, InText s im' ptr ∧ imageInfo s im' = imageInfo s im := by
      intro im him htaken
      rcases (htakes im him).mp htaken with hin | hend
      · exact ⟨im, him, hin, rfl⟩
      · exact hends im him hend
    refine ⟨fun a ha b hb hat hbt => ?_, fun im him htaken => ?_, fun im him hin => ?_⟩
    · obtain ⟨a', ha', hina, hinfoa⟩ := howned a ha hat
      obtain ⟨b', hb', hinb, hinfob⟩ := howned b hb hbt
      rw [← hinfoa, ← hinfob, h.unique ha' hb' hina hinb]
    · obtain ⟨im', him', hin, hinfo⟩ := howned im him htaken
      exact ⟨im', him', hin, filePath_of_imageInfo hinfo⟩
    · exact ⟨im, him, (htakes im him).mpr (.inl hin)⟩

/-! ### In any order -/

theorem TextChain.dladdr_relinked (h : TextChain s chain)
    (hchain' : IsChain s'.images s'.sFirstImage chain') (hperm : chain'.Perm chain)
    (hsame : ∀ im ∈ chain, content s' im = content s im) :
    dladdr s' ptr dl =
      done (dladdrAnswer dl ((chain'.find? (textHit s ptr)).bind (imageInfo s))) := by
  have hmem : ∀ im ∈ chain', content s' im = content s im := fun im him =>
    hsame im (hperm.mem_iff.mp him)
  have hfirst : ∀ im ∈ chain', ∃ bounds, firstBounds s' im = done bounds := by
    intro im him
    rw [firstBounds_eq, hmem im him, ← firstBounds_eq]
    exact h.first im (hperm.mem_iff.mp him)
  have hfind : chain'.find? (textHit s' ptr) = chain'.find? (textHit s ptr) :=
    List.find?_congr fun im him => textHit_congr (hmem im him)
  rw [dladdr_eq hchain' hfirst, hfind]
  cases hhit : chain'.find? (textHit s ptr) with
  | none => rfl
  | some im =>
    have him := List.mem_of_find?_eq_some hhit
    rw [Option.bind_some, Option.bind_some, imageInfo_eq, hmem im him, ← imageInfo_eq]

theorem TextChain.dladdr_head (h : TextChain s chain) (him : im ∈ chain) (hhit : textHit s ptr im) :
    ∃ s' chain', IsChain s'.images s'.sFirstImage chain' ∧ chain'.Perm chain ∧
      (∀ im ∈ chain, content s' im = content s im) ∧
      dladdr s' ptr dl = done (dladdrAnswer dl (imageInfo s im)) := by
  have hperm : (im :: chain.erase im).Perm chain := (List.perm_cons_erase him).symm
  have hchain' := isChain_relink (hperm.nodup_iff.mpr h.linked.nodup) fun j hj =>
    h.linked.lt_length j (hperm.mem_iff.mp hj)
  have hsame : ∀ j ∈ chain, content (relink s (im :: chain.erase im)) j = content s j :=
    fun j _ => content_relink s _ j
  refine ⟨_, _, hchain', hperm, hsame, ?_⟩
  rw [h.dladdr_relinked hchain' hperm hsame, List.find?_cons_of_pos hhit, Option.bind_some]

theorem imageInfo_of_lt (h : im < s.images.length) :
    ∃ path slide, imageInfo s im = some (path, slide) ∧ filePath s im = path := by
  have hobj := List.getElem?_eq_getElem h
  refine ⟨_, _, by rw [imageInfo, hobj, Option.map_some], ?_⟩
  rw [filePath, hobj, Option.bind_some]

theorem dladdrAnswer_inj {p p' : Option String} {a a' : Addr}
    (h : dladdrAnswer dl (some (p, a)) = dladdrAnswer dl (some (p', a'))) : p = p' ∧ a = a' := by
  have hinfo := congrArg Prod.snd h
  exact ⟨congrArg DlInfo.dliFname hinfo, congrArg DlInfo.dliFbase hinfo⟩

theorem TakenRight.names (h : TakenRight s chain ptr) (hchain : TextChain s chain) :
    NamesImage s chain ptr dl := by
  have hrun : dladdr s ptr dl =
      done (dladdrAnswer dl ((chain.find? (textHit s ptr)).bind (imageInfo s))) :=
    hchain.dladdr_relinked hchain.linked (List.Perm.refl _) fun _ _ => rfl
  constructor
  · cases hfind : chain.find? (textHit s ptr) with
    | none =>
      have hnone : ∀ im ∈ chain, ¬ InText s im ptr := by
        intro im him hin
        obtain ⟨im', him', htaken⟩ := h.taken im him hin
        exact List.find?_eq_none.mp hfind im' him' (textHit_iff.mpr htaken)
      rw [hfind] at hrun
      refine ⟨_, _, hrun, ?_, fun im him hin => absurd hin (hnone im him)⟩
      refine iff_of_false (fun h => h rfl) ?_
      rintro ⟨im, him, hin⟩
      exact hnone im him hin
    | some im =>
      have him := List.mem_of_find?_eq_some hfind
      obtain ⟨owner, howner, hin, hsame⟩ :=
        h.owned im him (textHit_iff.mp (List.find?_some hfind))
      obtain ⟨path, slide, hinfo, hpath⟩ := imageInfo_of_lt (hchain.linked.lt_length im him)
      rw [hfind, Option.bind_some, hinfo] at hrun
      refine ⟨_, _, hrun, iff_of_true Nat.one_ne_zero ⟨owner, howner, hin⟩, fun im' him' hin' => ?_⟩
      rw [hchain.unique him' howner hin' hin, hsame, hpath]
  · intro s' chain' hchain' hperm hsame
    rw [hchain.dladdr_relinked hchain' hperm hsame, hrun,
      find?_bind_perm hperm fun a ha b hb hat hbt =>
        h.alike a ha b hb (textHit_iff.mp hat) (textHit_iff.mp hbt)]

theorem NamesImage.takenRight (h : NamesImage s chain ptr dl) (hchain : TextChain s chain) :
    TakenRight s chain ptr := by
  -- Any image that takes the address in may be at the head.
  have hhead : ∀ im ∈ chain, TakesIn s im ptr →
      dladdr s ptr dl = done (dladdrAnswer dl (imageInfo s im)) := by
    intro im him htaken
    obtain ⟨s', chain', hchain', hperm, hsame, hrun⟩ :=
      hchain.dladdr_head him (textHit_iff.mpr htaken)
    exact (h.order s' chain' hchain' hperm hsame).symm.trans hrun
  obtain ⟨r, dl', hrun, hfound, hnamed⟩ := h.found
  refine ⟨fun a ha b hb hat hbt => ?_, fun im him htaken => ?_, fun im him hin => ?_⟩
  · obtain ⟨path, slide, hinfo, -⟩ := imageInfo_of_lt (hchain.linked.lt_length a ha)
    obtain ⟨path', slide', hinfo', -⟩ := imageInfo_of_lt (hchain.linked.lt_length b hb)
    have hsame := done.inj ((hhead a ha hat).symm.trans (hhead b hb hbt))
    rw [hinfo, hinfo'] at hsame ⊢
    obtain ⟨rfl, rfl⟩ := dladdrAnswer_inj hsame
    rfl
  · obtain ⟨path, slide, hinfo, hpath⟩ := imageInfo_of_lt (hchain.linked.lt_length im him)
    have hanswer := hhead im him htaken
    rw [hinfo] at hanswer
    obtain ⟨rfl, rfl⟩ := Prod.mk.inj (done.inj (hanswer.symm.trans hrun))
    obtain ⟨owner, howner, hin⟩ := hfound.mp Nat.one_ne_zero
    exact ⟨owner, howner, hin, (hnamed owner howner hin).symm.trans hpath.symm⟩
  · cases hfind : chain.find? (textHit s ptr) with
    | some im' =>
      exact ⟨im', List.mem_of_find?_eq_some hfind, textHit_iff.mp (List.find?_some hfind)⟩
    | none =>
      rw [dladdr_eq hchain.linked hchain.first, hfind] at hrun
      obtain ⟨rfl, -⟩ := Prod.mk.inj (done.inj hrun)
      exact absurd rfl (hfound.mpr ⟨im, him, hin⟩)

/-- **When `dladdr` names the right image.** If `__TEXT` comes first in every image, the ends of the
ranges decide. -/
theorem dladdr_names_iff (h : TextChain s chain) (ptr : Addr) (dl : DlInfo) :
    (NamesImage s chain ptr dl ↔ TakenRight s chain ptr) ∧
      ((∀ im ∈ chain, TextFirst s im) →
        (TakenRight s chain ptr ↔ EndsHarmlessly s chain ptr)) :=
  ⟨⟨fun hnames => hnames.takenRight h, fun hright => hright.names h⟩, h.takenRight_iff⟩

end Names

/-! Two images, each of one page, the second right behind the first. -/

def adjacentLinker : Linker :=
  { mem := fun _ => 0
    images := [
      { MachObject.new with
        fNextImage := some 1
        fFilePath := some "/first"
        fSegmentLoadCommands := [⟨"__TEXT", 0, 0x1000, 0, []⟩]
        fSlide := 0x1000 },
      { MachObject.new with
        fFilePath := some "/second"
        fSegmentLoadCommands := [⟨"__TEXT", 0, 0x1000, 0, []⟩]
        fSlide := 0x2000 }]
    sMainExecutable := none
    sDylinker := none
    sFirstImage := some 0
    sImageCount := 2
    sUnresolvedCount := 0
    sAuxLibs := []
    trace := [] }

theorem adjacentLinker_bounds : textBounds adjacentLinker 0 = some (0x1000, 0x2000) ∧
    textBounds adjacentLinker 1 = some (0x2000, 0x3000) := ⟨rfl, rfl⟩

theorem adjacentLinker_chain : TextChain adjacentLinker [0, 1] where
  linked := ⟨rfl, _, rfl, rfl, _, rfl, rfl⟩
  text := by
    intro im him
    obtain rfl | rfl := by simpa using him
    · exact ⟨_, adjacentLinker_bounds.1⟩
    · exact ⟨_, adjacentLinker_bounds.2⟩
  disjoint := by
    refine List.pairwise_pair.mpr ?_
    rintro x ⟨⟨start, stop, h, hstart, hstop⟩, start', stop', h', hstart', hstop'⟩
    obtain ⟨rfl, rfl⟩ := Prod.mk.inj (Option.some.inj (adjacentLinker_bounds.1.symm.trans h))
    obtain ⟨rfl, rfl⟩ := Prod.mk.inj (Option.some.inj (adjacentLinker_bounds.2.symm.trans h'))
    bv_omega

theorem dladdr_names_adjacent :
    (NamesImage adjacentLinker [0, 1] 0x2800 ⟨none, 0, none, 0⟩ ↔
        TakenRight adjacentLinker [0, 1] 0x2800) ∧
      (TakenRight adjacentLinker [0, 1] 0x2800 ↔ EndsHarmlessly adjacentLinker [0, 1] 0x2800) := by
  have h := dladdr_names_iff adjacentLinker_chain 0x2800 ⟨none, 0, none, 0⟩
  refine ⟨h.1, h.2 fun im him bounds hbounds => ?_⟩
  obtain rfl | rfl := by simpa using him
  · obtain rfl := Option.some.inj (adjacentLinker_bounds.1.symm.trans hbounds)
    rfl
  · obtain rfl := Option.some.inj (adjacentLinker_bounds.2.symm.trans hbounds)
    rfl

/-- One image, of which the first segment is `__PAGEZERO`. -/
def pageZeroLinker : Linker :=
  { adjacentLinker with
    images := [
      { MachObject.new with
        fFilePath := some "/main"
        fSegmentLoadCommands :=
          [⟨"__PAGEZERO", 0, 0x1000, 0, []⟩, ⟨"__TEXT", 0x1000, 0x1000, 0, []⟩] }]
    sImageCount := 1 }

theorem pageZeroLinker_chain : TextChain pageZeroLinker [0] where
  linked := ⟨rfl, _, rfl, rfl⟩
  text := by
    intro im him
    obtain rfl := by simpa using him
    exact ⟨(0x1000, 0x2000), rfl⟩
  disjoint := List.pairwise_singleton _ _

/-- The first byte of the second image is taken for one of the first, and no byte of a `__TEXT`
behind another segment is found. -/
theorem dladdr_not_names :
    (TextChain adjacentLinker [0, 1] ∧ InText adjacentLinker 1 0x2000 ∧
      dladdr adjacentLinker 0x2000 ⟨none, 0, none, 0⟩ =
        done (1, ⟨some "/first", 0x1000, none, 0⟩) ∧
      ¬ NamesImage adjacentLinker [0, 1] 0x2000 ⟨none, 0, none, 0⟩) ∧
    TextChain pageZeroLinker [0] ∧ InText pageZeroLinker 0 0x1800 ∧
      dladdr pageZeroLinker 0x1800 ⟨none, 0, none, 0⟩ = done (0, ⟨none, 0, none, 0⟩) ∧
      ¬ NamesImage pageZeroLinker [0] 0x1800 ⟨none, 0, none, 0⟩ := by
  have hin : InText adjacentLinker 1 0x2000 :=
    ⟨_, _, adjacentLinker_bounds.2, by decide, by decide⟩
  have hinside : InText pageZeroLinker 0 0x1800 :=
    ⟨0x1000, 0x2000, rfl, by decide, by decide⟩
  refine ⟨⟨adjacentLinker_chain, hin, rfl, fun h => ?_⟩, pageZeroLinker_chain, hinside, rfl,
    fun h => ?_⟩
  · obtain ⟨r, dl', hrun, -, hnamed⟩ := h.found
    obtain ⟨-, rfl⟩ := Prod.mk.inj (done.inj hrun)
    have hname : some "/first" = some "/second" := hnamed 1 (by simp) hin
    simp at hname
  · obtain ⟨r, dl', hrun, hfound, -⟩ := h.found
    obtain ⟨rfl, -⟩ := Prod.mk.inj (done.inj hrun)
    exact hfound.mpr ⟨0, by simp, hinside⟩ rfl

end LibSystem.Lnk
