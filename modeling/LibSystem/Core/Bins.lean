import LibSystem.Core.BinIndex
import LibSystem.Outcome
import Mathlib.Logic.Function.Basic

/-!
# The bins of free chunks

The macros of `dlmalloc.c` that put a free chunk into its bin and take it out
again. A field of a chunk is a map from the addresses of chunks. The header of a
small bin lies in the `malloc_state`, and is treated as a chunk.
-/

namespace LibSystem.Core

open Function

/-- A word `child[b]` of a chunk. The index 1 is `true`. -/
abbrev ChildSlot := Addr × Bool

/-- `struct malloc_segment`. -/
structure Segment where
  base : Addr
  size : Word
  deriving DecidableEq

/-- `struct malloc_state`, as far as the chunks go, and the fields of the chunks. -/
structure MallocState where
  smallmap : Word
  treemap : Word
  dvsize : Word
  leastAddr : Addr
  dv : Addr
  topsize : Word
  top : Addr
  /-- The address of `smallbins`. -/
  smallbins : Addr
  /-- The address of `treebins`. -/
  treebinsAddr : Addr
  treebins : Word → Addr
  prevFoot : Addr → Word
  head : Addr → Word
  fd : Addr → Addr
  bk : Addr → Addr
  child : ChildSlot → Addr
  parent : Addr → Addr
  index : Addr → Word
  /-- The list from `seg` on. -/
  segments : List Segment
  /-- How often `ABORT` was called. It prints a line number, and returns. -/
  aborts : Nat

namespace MallocState

variable (m : MallocState)

def chunksize (p : Addr) : Word := m.head p &&& ~~~7#32

/-- `ok_address`. -/
def OkAddress (a : Addr) : Prop := m.leastAddr ≤ a

instance (a : Addr) : Decidable (m.OkAddress a) := inferInstanceAs (Decidable (_ ≤ _))

/-- `smallbin_at`: the links of the header are the words from `smallbins[2 * i + 2]` on. -/
def smallbinAt (i : Word) : Addr := m.smallbins + 8#32 * i

def treebinAt (i : Word) : Addr := m.treebinsAddr + 4#32 * i

/-- `CORRUPTION_ERROR_ACTION`. -/
def corruptionErrorAction : MallocState := { m with aborts := m.aborts + 1 }

/-- An assertion that fails calls `ABORT`, too. -/
def assert (c : Prop) [Decidable c] : MallocState :=
  if c then m else { m with aborts := m.aborts + 1 }

def SmallmapIsMarked (i : Word) : Prop := m.smallmap &&& idx2bit i ≠ 0#32

def TreemapIsMarked (i : Word) : Prop := m.treemap &&& idx2bit i ≠ 0#32

instance (i : Word) : Decidable (m.SmallmapIsMarked i) := inferInstanceAs (Decidable (_ ≠ _))
instance (i : Word) : Decidable (m.TreemapIsMarked i) := inferInstanceAs (Decidable (_ ≠ _))

end MallocState

/-- Where the word is. -/
def ChildSlot.addr (C : ChildSlot) : Addr := C.1 + if C.2 then 20#32 else 16#32

/-! ## Small bins -/

/-- `P` comes between `B` and `F`. -/
def linkBetween (m : MallocState) (P B F : Addr) : MallocState :=
  { m with
    fd := update (update m.fd B P) P F
    bk := update (update m.bk F P) P B }

def insertSmallChunk (m : MallocState) (P : Addr) (S : Word) : MallocState :=
  let I := smallIndex S
  let B := m.smallbinAt I
  let m := m.assert (16#32 ≤ S)
  let (m, F) :=
    if ¬ m.SmallmapIsMarked I then ({ m with smallmap := m.smallmap ||| idx2bit I }, B)
    else if m.OkAddress (m.fd B) then (m, m.fd B)
    else (m.corruptionErrorAction, B)
  linkBetween m P B F

def unlinkSmallChunk (m : MallocState) (P : Addr) (S : Word) : MallocState :=
  let F := m.fd P
  let B := m.bk P
  let I := smallIndex S
  let m := m.assert (P ≠ B)
  let m := m.assert (P ≠ F)
  let m := m.assert (m.chunksize P = I <<< 3)
  if F = m.smallbinAt I ∨ m.OkAddress F ∧ m.bk F = P then
    if B = F then { m with smallmap := m.smallmap &&& ~~~idx2bit I }
    else if B = m.smallbinAt I ∨ m.OkAddress B ∧ m.fd B = P then
      { m with fd := update m.fd B F, bk := update m.bk F B }
    else m.corruptionErrorAction
  else m.corruptionErrorAction

/-! ## Trees -/

/-- `X` becomes the leaf at `C`. -/
def sprout (m : MallocState) (C : ChildSlot) (X : Addr) : MallocState :=
  { m with
    child := update m.child C X
    parent := update m.parent X C.1
    fd := update m.fd X X
    bk := update m.bk X X }

/-- `X` comes right after `T` in the ring, and gets no parent. -/
def chainAfter (m : MallocState) (T X : Addr) : MallocState :=
  { linkBetween m X T (m.fd T) with parent := update m.parent X 0#32 }

/-- The loop of `insert_large_chunk`. -/
def insertBelow (X : Addr) (S : Word) : Nat → MallocState → Addr → Word → Outcome MallocState
  | 0, _, _, _ => .timeout
  | fuel + 1, m, T, K =>
    if m.chunksize T ≠ S then
      let C : ChildSlot := (T, K.getLsbD 31)
      if m.child C ≠ 0#32 then insertBelow X S fuel m (m.child C) (K <<< 1)
      else if m.OkAddress C.addr then .done (sprout m C X)
      else .done m.corruptionErrorAction
    else if m.OkAddress T ∧ m.OkAddress (m.fd T) then .done (chainAfter m T X)
    else .done m.corruptionErrorAction

/-- The words of `X` that are written first. -/
def prepare (m : MallocState) (I : Word) (X : Addr) : MallocState :=
  { m with
    index := update m.index X I
    child := update (update m.child (X, true) 0#32) (X, false) 0#32 }

/-- The first chunk of a tree. -/
def plantRoot (m : MallocState) (I : Word) (X : Addr) : MallocState :=
  { m with
    treemap := m.treemap ||| idx2bit I
    treebins := update m.treebins I X
    parent := update m.parent X (m.treebinAt I)
    fd := update m.fd X X
    bk := update m.bk X X }

def insertLargeChunk (fuel : Nat) (m : MallocState) (X : Addr) (S : Word) :
    Outcome MallocState :=
  let I := computeTreeIndex S
  let m := prepare m I X
  if ¬ m.TreemapIsMarked I then .done (plantRoot m I X)
  else insertBelow X S fuel m (m.treebins I) (S <<< leftshiftForTreeIndex I)

/-- The loop of `unlink_large_chunk`: on to a leaf, to the right where there is a choice.
`RP` is where the pointer to `R` is. -/
def rightmostLeaf (m : MallocState) : Nat → Addr → ChildSlot → Outcome (Addr × ChildSlot)
  | 0, _, _ => .timeout
  | fuel + 1, R, RP =>
    if m.child (R, true) ≠ 0#32 then rightmostLeaf m fuel (m.child (R, true)) (R, true)
    else if m.child (R, false) ≠ 0#32 then rightmostLeaf m fuel (m.child (R, false)) (R, false)
    else .done (R, RP)

/-- The leaf that is found from `RP` on is taken out of the tree. -/
def takeLeaf (fuel : Nat) (m : MallocState) (RP : ChildSlot) : Outcome (MallocState × Addr) := do
  let (R, RP) ← rightmostLeaf m fuel (m.child RP) RP
  if m.OkAddress RP.addr then .done ({ m with child := update m.child RP 0#32 }, R)
  else .done (m.corruptionErrorAction, R)

/-- `X` is taken out of its ring. -/
def unchain (m : MallocState) (X : Addr) : MallocState :=
  let F := m.fd X
  let R := m.bk X
  { m with bk := update m.bk F R, fd := update m.fd R F }

/-- The first half of `unlink_large_chunk`: the node that replaces `X`. -/
def replacement (fuel : Nat) (m : MallocState) (X : Addr) : Outcome (MallocState × Addr) :=
  if m.bk X ≠ X then
    let F := m.fd X
    let R := m.bk X
    if m.OkAddress F ∧ m.bk F = X ∧ m.fd R = X then .done (unchain m X, R)
    else .done (m.corruptionErrorAction, R)
  else
    let RP : ChildSlot := if m.child (X, true) ≠ 0#32 then (X, true) else (X, false)
    if m.child RP ≠ 0#32 then takeLeaf fuel m RP else .done (m, 0#32)

/-- A child of `X` becomes a child of `R`. -/
def adopt (m : MallocState) (X R : Addr) (b : Bool) : MallocState :=
  let C := m.child (X, b)
  if C ≠ 0#32 then
    if m.OkAddress C then
      { m with child := update m.child (R, b) C, parent := update m.parent C R }
    else m.corruptionErrorAction
  else m

/-- What pointed to `X` points to `R`. -/
def repoint (m : MallocState) (X XP R : Addr) : MallocState :=
  let I := m.index X
  if X = m.treebins I then
    { m with
      treebins := update m.treebins I R
      treemap := if R = 0#32 then m.treemap &&& ~~~idx2bit I else m.treemap }
  else if m.OkAddress XP then
    if m.child (XP, false) = X then { m with child := update m.child (XP, false) R }
    else { m with child := update m.child (XP, true) R }
  else m.corruptionErrorAction

/-- The second half of `unlink_large_chunk`: `R`, if there is one, comes where `X` was. -/
def relink (m : MallocState) (X XP R : Addr) : MallocState :=
  if XP ≠ 0#32 then
    let m := repoint m X XP R
    if R ≠ 0#32 then
      if m.OkAddress R then
        let m := { m with parent := update m.parent R XP }
        adopt (adopt m X R false) X R true
      else m.corruptionErrorAction
    else m
  else m

def unlinkLargeChunk (fuel : Nat) (m : MallocState) (X : Addr) : Outcome MallocState := do
  let XP := m.parent X
  let (m, R) ← replacement fuel m X
  .done (relink m X XP R)

/-! ## Both -/

def insertChunk (fuel : Nat) (m : MallocState) (P : Addr) (S : Word) : Outcome MallocState :=
  if IsSmall S then .done (insertSmallChunk m P S) else insertLargeChunk fuel m P S

def unlinkChunk (fuel : Nat) (m : MallocState) (P : Addr) (S : Word) : Outcome MallocState :=
  if IsSmall S then .done (unlinkSmallChunk m P S) else unlinkLargeChunk fuel m P

end LibSystem.Core
