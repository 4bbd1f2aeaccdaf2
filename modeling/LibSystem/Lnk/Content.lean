import LibSystem.Lnk.Chain

/-!
# What a load leaves alone

Of the images that are there before, a load changes a link, and nothing else.
-/

namespace LibSystem.Lnk

open Outcome

/-- The image without its place in the chain. -/
def content (s : Linker) (im : ImageId) : Option MachObject :=
  s.images[im]?.map fun obj => obj.setNextImage none

/-- The first `n` images are what they were, apart from the links. -/
structure SameBelow (n : Nat) (s s' : Linker) : Prop where
  content : ∀ im < n, content s' im = content s im
  main : s'.sMainExecutable = s.sMainExecutable

variable {sys : System} {fuel n : Nat} {s s' s'' : Linker}

theorem SameBelow.refl (n : Nat) (s : Linker) : SameBelow n s s := ⟨fun _ _ => rfl, rfl⟩

theorem SameBelow.trans (h : SameBelow n s s') (h' : SameBelow n s' s'') : SameBelow n s s'' :=
  ⟨fun im him => (h'.content im him).trans (h.content im him), h'.main.trans h.main⟩

theorem SameBelow.of_images (himages : s'.images = s.images)
    (hmain : s'.sMainExecutable = s.sMainExecutable) : SameBelow n s s' := by
  refine ⟨fun im _ => ?_, hmain⟩
  unfold Lnk.content
  rw [himages]

theorem SameBelow.modify {this : Nat} (hthis : n ≤ this) (s : Linker)
    (f : MachObject → MachObject) : SameBelow n s (s.modify this f) := by
  refine ⟨fun im him => ?_, rfl⟩
  have hne : this ≠ im := by omega
  unfold Lnk.content
  rw [getElem?_modify]
  simp [hne]

theorem SameBelow.instantiateFromFile {nn path : String} {file : File} {lib : ImageId}
    (h : Lnk.instantiateFromFile nn path file s = done (lib, s')) :
    SameBelow s.images.length s s' := by
  unfold Lnk.instantiateFromFile at h
  split at h
  · simp at h
  dsimp only at h
  split at h
  · simp at h
  split at h
  · simp at h
  · obtain ⟨-, rfl⟩ := Prod.mk.inj (done.inj h)
    refine ⟨fun im him => ?_, rfl⟩
    unfold Lnk.content
    rw [List.getElem?_append_left him]

theorem SameBelow.insertImage {lib : ImageId} (h : Lnk.insertImage lib s = done s') :
    SameBelow n s s' := by
  obtain ⟨first, -, h⟩ := bind_eq_done.mp h
  obtain ⟨obj, -, h⟩ := bind_eq_done.mp h
  rw [← done.inj h]
  refine ⟨fun im _ => ?_, rfl⟩
  show ((s.images.modify lib fun o => o.setNextImage obj.fNextImage).modify first
    fun o => o.setNextImage (some lib))[im]?.map _ = _
  rw [getElem?_relink, Option.map_map]
  rfl

section Parsing

variable {load : String → Linker → Outcome (Option ImageId × Linker)}
  (hload : ∀ name s r s', n ≤ s.images.length → load name s = done (r, s') →
    s.images.length ≤ s'.images.length ∧ SameBelow n s s')

include hload

theorem parseLoop_sameBelow {this : ImageId} {commands : List LoadCommand} {l l' : ParseLocals}
    (hthis : n ≤ this) (hlen : n ≤ s.images.length)
    (h : parseLoop load this commands s l = done (s', l')) : SameBelow n s s' := by
  induction commands generalizing s l with
  | nil =>
    obtain ⟨rfl, -⟩ := by simpa [parseLoop] using h
    exact .refl n s
  | cons cmd commands ih =>
    obtain ⟨⟨s1, l1⟩, hcmd, h⟩ := bind_eq_done.mp h
    obtain ⟨-, f, -, -, rfl⟩ | ⟨kind, name, dep, s2, -, hdep, rfl⟩ := parseLoadCommand_cases hcmd
    · exact (SameBelow.modify hthis s f).trans (ih (by rwa [length_modify]) h)
    · obtain ⟨hle, hsame⟩ := hload name s _ s2 hlen hdep
      refine (hsame.trans (.modify hthis s2 _)).trans (ih ?_ h)
      rw [length_modify]
      exact hlen.trans hle

theorem parseLoadCommands_sameBelow {this : ImageId} {commands : List LoadCommand}
    (hthis : n ≤ this) (hlen : n ≤ s.images.length)
    (h : parseLoadCommands sys load this commands s = done s') : SameBelow n s s' := by
  obtain ⟨s1, l1, obj, hloop, -, rfl⟩ := parseLoadCommands_loop h
  exact (parseLoop_sameBelow hload hthis hlen hloop).trans
    ((SameBelow.modify hthis s1 _).trans (.of_images rfl rfl))

end Parsing

/-- **A load leaves the other images alone.** -/
theorem loadLibraryEx_sameBelow {path : String} {r : Option ImageId} {al : Option Bool}
    (hn : n ≤ s.images.length) (h : loadLibraryEx sys fuel path s = done (r, al, s')) :
    SameBelow n s s' := by
  induction fuel generalizing path s s' r al with
  | zero => simp [loadLibraryEx] at h
  | succ fuel ih =>
    by_cases hopen : ∃ lib file before, openImage sys path s = done (some (lib, file, before))
    · obtain ⟨lib, file, before, hopen⟩ := hopen
      obtain ⟨after, hparse, hrebase⟩ := loadLibraryEx_openImage hopen h
      obtain ⟨-, -, nn, s1, -, hnew, hins⟩ := openImage_eq_done hopen
      obtain ⟨rfl, hinserted⟩ := inserted hnew hins
      have hnew := SameBelow.instantiateFromFile hnew
      have hnew : SameBelow n s s1 :=
        ⟨fun im him => hnew.content im (him.trans_le hn), hnew.main⟩
      have hload : ∀ name s r s', n ≤ s.images.length → loadLibrary sys fuel name s = done (r, s') →
          s.images.length ≤ s'.images.length ∧ SameBelow n s s' := by
        intro name s r s' hlen hload
        obtain ⟨al, hload'⟩ := loadLibrary_eq_done.mp hload
        exact ⟨(loadLibrary_loads hload).1.length, ih hlen hload'⟩
      have hparse := parseLoadCommands_sameBelow hload hn (hn.trans hinserted.loads.length) hparse
      obtain ⟨mem, rfl⟩ := doRebase_eq_done hrebase
      exact ((hnew.trans (.insertImage hins)).trans hparse).trans (.of_images rfl rfl)
    · push Not at hopen
      obtain rfl := loadLibraryEx_eq_self hopen h
      exact .refl n _

end LibSystem.Lnk
