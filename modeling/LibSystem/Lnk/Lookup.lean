import LibSystem.Lnk.Symbols
import LibSystem.Search

/-!
# The lookup as a search

`findExportedSymbol` is a depth first search through the re-exports.
-/

namespace LibSystem.Lnk

open Outcome

/-! ## More fuel -/

theorem scanEdge_le (mem : Mem) (n : Nat) (p : Addr) (ss : List Byte) (wrongEdge : Bool) :
    Le (scanEdge mem n p ss wrongEdge) (scanEdge mem (n + 1) p ss wrongEdge) := by
  induction n generalizing p ss wrongEdge with
  | zero => exact Le.timeout _
  | succ n ih =>
    unfold scanEdge
    split
    · exact Le.refl _
    split
    · exact ih _ _ _
    · exact ih _ _ _

theorem skipUleb_le (mem : Mem) (n : Nat) (p : Addr) :
    Le (skipUleb mem n p) (skipUleb mem (n + 1) p) := by
  induction n generalizing p with
  | zero => exact Le.timeout _
  | succ n ih =>
    unfold skipUleb
    split
    · exact ih _
    · exact Le.refl _

theorem walkChildren_le (mem : Mem) (stop : Addr) (n childrenRemaining : Nat) (p : Addr)
    (s : List Byte) :
    Le (walkChildren mem stop n childrenRemaining p s)
      (walkChildren mem stop (n + 1) childrenRemaining p s) := by
  induction childrenRemaining generalizing p with
  | zero => exact Le.refl _
  | succ childrenRemaining ih =>
    refine (scanEdge_le mem n p s false).bind fun (p, ss, wrongEdge) => ?_
    dsimp only
    split
    · exact (skipUleb_le mem n (p + 1)).bind fun p => ih (p + 1)
    · exact Le.refl _

theorem trieWalkLoop_le (mem : Mem) (start stop : Addr) (scan n : Nat) (p : Addr) (s : List Byte) :
    Le (trieWalkLoop mem start stop scan n p s)
      (trieWalkLoop mem start stop (scan + 1) (n + 1) p s) := by
  induction n generalizing p s with
  | zero => exact Le.timeout _
  | succ n ih =>
    unfold trieWalkLoop
    split
    · exact Le.refl _
    refine (Le.refl _).bind fun (terminalSize, p) => ?_
    dsimp only
    split
    · exact Le.refl _
    · exact (walkChildren_le mem stop scan _ _ s).bind fun (nodeOffset, s) => ih _ s

theorem strcmp_le (mem : Mem) (n : Nat) (key : List Byte) (p : Addr) :
    Le (strcmp mem n key p) (strcmp mem (n + 1) key p) := by
  induction n generalizing key p with
  | zero => exact Le.timeout _
  | succ n ih =>
    unfold strcmp
    split
    · exact Le.refl _
    split
    · exact Le.refl _
    · exact ih _ _

theorem binarySearchLoop_le (mem : Mem) (scan : Nat) (key : List Byte) (stringPool : Addr) (n : Nat)
    (base : Addr) (count : Word) :
    Le (binarySearchLoop mem scan key stringPool n base count)
      (binarySearchLoop mem (scan + 1) key stringPool (n + 1) base count) := by
  induction n generalizing base count with
  | zero => exact Le.timeout _
  | succ n ih =>
    unfold binarySearchLoop
    split
    · exact Le.refl _
    refine (strcmp_le mem scan key _).bind fun cmp => ?_
    split
    · exact Le.refl _
    split
    · exact ih _ _
    · exact ih _ _

theorem binarySearchTocLoop_le (mem : Mem) (scan : Nat) (key : List Byte)
    (stringPool symbols toc : Addr) (n : Nat) (low high mid : Word) :
    Le (binarySearchTocLoop mem scan key stringPool symbols toc n low high mid)
      (binarySearchTocLoop mem (scan + 1) key stringPool symbols toc (n + 1) low high mid) := by
  induction n generalizing low high mid with
  | zero => exact Le.timeout _
  | succ n ih =>
    unfold binarySearchTocLoop
    split
    · exact Le.refl _
    refine (strcmp_le mem scan key _).bind fun cmp => ?_
    split
    · exact Le.refl _
    · exact ih _ _ _

theorem findExportedSymbolCompressed_grows (mem : Mem) (this : ImageId) (obj : MachObject)
    (symbol : CString) : Grows fun n => findExportedSymbolCompressed n mem this obj symbol := by
  intro n
  refine (Le.refl _).bind fun info => ?_
  split
  · exact Le.refl _
  · exact (trieWalkLoop_le mem _ _ n n _ _).bind fun node => Le.refl _

theorem findExportedSymbolClassic_grows (mem : Mem) (this : ImageId) (obj : MachObject)
    (name : CString) : Grows fun n => findExportedSymbolClassic n mem this obj name := by
  intro n
  refine (Le.refl _).bind fun info => ?_
  dsimp only
  split
  · exact (binarySearchLoop_le mem n _ _ n _ _).bind fun sym => Le.refl _
  · exact (binarySearchTocLoop_le mem n _ _ _ _ n _ _ _).bind fun sym => Le.refl _

/-! ## Depth first search -/

/-- The lookup in one image's own table. -/
def findOwn (s : Linker) (symbol : CString) (fuel : Nat) (im : ImageId) :
    Outcome (Option Symbol) := do
  let obj ← s.object im
  findOwnSymbol fuel s im obj symbol

theorem findOwn_grows (s : Linker) (symbol : CString) (im : ImageId) :
    Grows fun n => findOwn s symbol n im := by
  refine Grows.bind (Grows.const _) fun obj => ?_
  unfold findOwnSymbol
  split
  · exact findExportedSymbolClassic_grows _ _ _ _
  · exact findExportedSymbolCompressed_grows _ _ _ _

/-- **The lookup is a depth first search.** -/
theorem findExportedSymbol_eq_dfs (fuel : Nat) (s : Linker) (symbol : CString) (im : ImageId) :
    findExportedSymbol fuel s symbol im = Graph.dfs (findOwn s symbol) (reExports s) fuel im := by
  induction fuel generalizing im with
  | zero => rfl
  | succ fuel ih =>
    have hsame : findExportedSymbol fuel s symbol =
        Graph.dfs (findOwn s symbol) (reExports s) fuel := funext fun j => ih j
    unfold findExportedSymbol Graph.dfs Linker.object
    rw [hsame]
    cases him : s.images[im]? with
    | none => rw [findOwn, Linker.object, him]; rfl
    | some obj =>
      rw [findOwn, Linker.object, reExports, him]
      simp only [ofOption_some, done_bind]
      congr 1
      funext o
      cases o <;> rfl

theorem findExportedSymbol_grows (s : Linker) (symbol : CString) (im : ImageId) :
    Grows fun n => findExportedSymbol n s symbol im := by
  simp only [findExportedSymbol_eq_dfs]
  exact Graph.dfs_grows (findOwn_grows s symbol) im

theorem reExports_finite (s : Linker) : Set.Finite {im | reExports s im ≠ []} :=
  Graph.finite_of_bound (n := s.images.length) fun im hlen => by
    simp [reExports, List.getElem?_eq_none hlen]

theorem reExports_wellFounded {s : Linker} (h : Graph.Acyclic (reExports s)) :
    WellFounded fun j i => j ∈ reExports s i :=
  h.wellFounded (reExports_finite s)

/-! ## The owner of a symbol -/

theorem findExportedSymbolCompressed_inImage {fuel : Nat} {mem : Mem} {this : ImageId}
    {obj : MachObject} {symbol : CString} {sym : Symbol}
    (h : findExportedSymbolCompressed fuel mem this obj symbol = done (some sym)) :
    sym.inImage = this := by
  obtain ⟨info, -, h⟩ := bind_eq_done.mp h
  split at h
  · simp at h
  obtain ⟨node, -, h⟩ := bind_eq_done.mp h
  split at h
  · simp at h
  obtain ⟨⟨flags, p⟩, -, h⟩ := bind_eq_done.mp h
  dsimp only at h
  split at h
  · simp at h
  · simp only [done.injEq, Option.some.injEq] at h
    rw [← h]

theorem findExportedSymbolClassic_inImage {fuel : Nat} {mem : Mem} {this : ImageId}
    {obj : MachObject} {name : CString} {sym : Symbol}
    (h : findExportedSymbolClassic fuel mem this obj name = done (some sym)) :
    sym.inImage = this := by
  obtain ⟨info, -, h⟩ := bind_eq_done.mp h
  have hlast : ∀ x : Outcome Addr,
      (x >>= fun node => if node = 0 then done none else done (some ⟨node, this⟩)) =
        done (some sym) → sym.inImage = this := by
    intro x hx
    obtain ⟨node, -, hx⟩ := bind_eq_done.mp hx
    split at hx
    · simp at hx
    · simp only [done.injEq, Option.some.injEq] at hx
      rw [← hx]
  dsimp only at h
  split at h
  · exact hlast _ h
  · exact hlast _ h

theorem findOwn_inImage {s : Linker} {symbol : CString} {fuel : Nat} {im : ImageId} {sym : Symbol}
    (h : findOwn s symbol fuel im = done (some sym)) : sym.inImage = im := by
  obtain ⟨obj, -, h⟩ := bind_eq_done.mp h
  unfold findOwnSymbol at h
  split at h
  · exact findExportedSymbolClassic_inImage h
  · exact findExportedSymbolCompressed_inImage h

end LibSystem.Lnk
