import LibSystem.Core.BestFit

/-!
# `malloc` and `free`

`dlmalloc` and `dlfree` of `dlmalloc.c`, up to the calls of the system. The
bits of a head tell whether the chunk and the one before it are in use.
-/

namespace LibSystem.Core

open Function

def mem2chunk (mem : Addr) : Addr := mem - 8#32

def chunk2mem (p : Addr) : Addr := p + 8#32

/-- `TOP_FOOT_SIZE`. -/
def topFootSize : Word := 40#32

namespace MallocState

variable (m : MallocState) (p : Addr)

/-! ## Heads -/

def Cinuse : Prop := m.head p &&& 2#32 ≠ 0#32

def Pinuse : Prop := m.head p &&& 1#32 ≠ 0#32

def IsInuse : Prop := m.head p &&& 3#32 ≠ 1#32

def IsMmapped : Prop := m.head p &&& 3#32 = 0#32

instance : Decidable (m.Cinuse p) := inferInstanceAs (Decidable (_ ≠ _))
instance : Decidable (m.Pinuse p) := inferInstanceAs (Decidable (_ ≠ _))
instance : Decidable (m.IsInuse p) := inferInstanceAs (Decidable (_ ≠ _))
instance : Decidable (m.IsMmapped p) := inferInstanceAs (Decidable (_ = _))

def setHead (w : Word) : MallocState := { m with head := update m.head p w }

/-- `set_foot`, with the address of the next chunk. -/
def setFoot (next : Addr) (s : Word) : MallocState :=
  { m with prevFoot := update m.prevFoot next s }

def nextChunk : Addr := p + m.chunksize p

/-- `segment_holding`. -/
def segmentHolding (addr : Addr) : Option Segment :=
  m.segments.find? fun sp => sp.base ≤ addr ∧ addr < sp.base + sp.size

def prevChunk : Addr := p - m.prevFoot p

def clearPinuse : MallocState := m.setHead p (m.head p &&& ~~~1#32)

def setInuseAndPinuse (s : Word) : MallocState :=
  let m := m.setHead p (s ||| 1#32 ||| 2#32)
  m.setHead (p + s) (m.head (p + s) ||| 1#32)

def setSizeAndPinuseOfInuseChunk (s : Word) : MallocState := m.setHead p (s ||| 1#32 ||| 2#32)

def setSizeAndPinuseOfFreeChunk (s : Word) : MallocState :=
  (m.setHead p (s ||| 1#32)).setFoot (p + s) s

def setFreeWithPinuse (s : Word) (n : Addr) : MallocState :=
  (m.clearPinuse n).setSizeAndPinuseOfFreeChunk p s

/-! ## The checks of `DEBUG` -/

/-- `do_check_any_chunk`. A head of 7 is that of a fencepost. -/
def checkAnyChunk : MallocState :=
  (m.assert (chunk2mem p &&& 7#32 = 0#32 ∨ m.head p = 7#32)).assert (m.OkAddress p)

/-- `do_check_top_chunk`. Without a segment it goes on to read one at null. -/
def checkTopChunk : Outcome MallocState :=
  let sz := m.head p &&& ~~~3#32
  let m := m.assert (m.segmentHolding p ≠ none)
  let m := m.assert (chunk2mem p &&& 7#32 = 0#32 ∨ m.head p = 7#32)
  let m := m.assert (m.OkAddress p)
  let m := m.assert (sz = m.topsize)
  let m := m.assert (0#32 < sz)
  match m.segmentHolding p with
  | none => .fault
  | some sp =>
    let m := m.assert (sz = sp.base + sp.size - p - topFootSize)
    let m := m.assert (m.Pinuse p)
    .done (m.assert (¬ m.Pinuse (p + sz)))

/-- `do_check_inuse_chunk`, for a chunk that is not mapped. -/
def checkInuseChunk : MallocState :=
  let m := m.checkAnyChunk p
  let m := m.assert (m.IsInuse p)
  let m := m.assert (m.Pinuse (m.nextChunk p))
  m.assert (m.IsMmapped p ∨ m.Pinuse p ∨ m.nextChunk (m.prevChunk p) = p)

def checkMallocedChunk (mem : Addr) (s : Word) : MallocState :=
  if mem ≠ 0#32 then
    let p := mem2chunk mem
    let sz := m.head p &&& ~~~3#32
    let m := m.checkInuseChunk p
    let m := m.assert (sz &&& 7#32 = 0#32)
    let m := m.assert (16#32 ≤ sz)
    let m := m.assert (s ≤ sz)
    m.assert (m.IsMmapped p ∨ sz < s + 16#32)
  else m

def checkFreeChunk : MallocState :=
  let sz := m.chunksize p
  let next := p + sz
  let m := m.checkAnyChunk p
  let m := m.assert (¬ m.IsInuse p)
  let m := m.assert (¬ m.Pinuse (m.nextChunk p))
  let m := m.assert (¬ m.IsMmapped p)
  if p ≠ m.dv ∧ p ≠ m.top then
    if 16#32 ≤ sz then
      let m := m.assert (sz &&& 7#32 = 0#32)
      let m := m.assert (chunk2mem p &&& 7#32 = 0#32)
      let m := m.assert (m.prevFoot next = sz)
      let m := m.assert (m.Pinuse p)
      let m := m.assert (next = m.top ∨ m.IsInuse next)
      let m := m.assert (m.bk (m.fd p) = p)
      m.assert (m.fd (m.bk p) = p)
    else m.assert (sz = 4#32)
  else m

end MallocState

/-! ## malloc -/

def unlinkFirstSmallChunk (m : MallocState) (B P : Addr) (I : Word) : MallocState :=
  let F := m.fd P
  let m := m.assert (P ≠ B)
  let m := m.assert (P ≠ F)
  let m := m.assert (m.chunksize P = I <<< 3)
  if B = F then { m with smallmap := m.smallmap &&& ~~~idx2bit I }
  else if m.OkAddress F ∧ m.bk F = P then
    { m with bk := update m.bk F B, fd := update m.fd B F }
  else m.corruptionErrorAction

def replaceDv (m : MallocState) (P : Addr) (S : Word) : MallocState :=
  let DVS := m.dvsize
  let m := m.assert (IsSmall DVS)
  let m := if DVS ≠ 0#32 then insertSmallChunk m m.dv DVS else m
  { m with dvsize := S, dv := P }

def tmallocLarge (fuel : Nat) (m : MallocState) (nb : Word) : Outcome (MallocState × Addr) := do
  let (v, rsize) ← bestLarge fuel m nb
  if v ≠ 0#32 ∧ rsize < m.dvsize - nb then
    if m.OkAddress v then
      let r := v + nb
      let m := m.assert (m.chunksize v = rsize + nb)
      if v < r then
        let m ← unlinkLargeChunk fuel m v
        if rsize < 16#32 then .done (m.setInuseAndPinuse v (rsize + nb), chunk2mem v)
        else
          let m := m.setSizeAndPinuseOfInuseChunk v nb
          let m := m.setSizeAndPinuseOfFreeChunk r rsize
          let m ← insertChunk fuel m r rsize
          .done (m, chunk2mem v)
      else .done (m.corruptionErrorAction, 0#32)
    else .done (m.corruptionErrorAction, 0#32)
  else .done (m, 0#32)

def tmallocSmall (fuel : Nat) (m : MallocState) (nb : Word) : Outcome (MallocState × Addr) := do
  let (v, rsize) ← bestSmall fuel m nb
  if m.OkAddress v then
    let r := v + nb
    let m := m.assert (m.chunksize v = rsize + nb)
    if v < r then
      let m ← unlinkLargeChunk fuel m v
      if rsize < 16#32 then .done (m.setInuseAndPinuse v (rsize + nb), chunk2mem v)
      else
        let m := m.setSizeAndPinuseOfInuseChunk v nb
        let m := m.setSizeAndPinuseOfFreeChunk r rsize
        .done (replaceDv m r rsize, chunk2mem v)
    else .done (m.corruptionErrorAction, 0#32)
  else .done (m.corruptionErrorAction, 0#32)

/-- `pad_request`. -/
def padRequest (req : Word) : Word := (req + 4#32 + 7#32) &&& ~~~7#32

/-- The first chunk of the small bin `idx`, for a request of `nb`. -/
def mallocSmallbin (m : MallocState) (idx nb : Word) : MallocState × Addr :=
  let b := m.smallbinAt idx
  let p := m.fd b
  let m := m.assert (m.chunksize p = idx <<< 3)
  let m := unlinkFirstSmallChunk m b p idx
  let m := m.setInuseAndPinuse p (idx <<< 3)
  (m.checkMallocedChunk (chunk2mem p) nb, chunk2mem p)

/-- The first chunk of a larger small bin, and its rest is the new `dv`. -/
def mallocNextSmallbin (m : MallocState) (i nb : Word) : MallocState × Addr :=
  let b := m.smallbinAt i
  let p := m.fd b
  let m := m.assert (m.chunksize p = i <<< 3)
  let m := unlinkFirstSmallChunk m b p i
  let rsize := (i <<< 3) - nb
  let m := m.setSizeAndPinuseOfInuseChunk p nb
  let r := p + nb
  let m := m.setSizeAndPinuseOfFreeChunk r rsize
  let m := replaceDv m r rsize
  (m.checkMallocedChunk (chunk2mem p) nb, chunk2mem p)

/-- From `dv`, which is large enough. -/
def mallocDv (m : MallocState) (nb : Word) : MallocState × Addr :=
  let rsize := m.dvsize - nb
  let p := m.dv
  let m :=
    if 16#32 ≤ rsize then
      let r := p + nb
      let m := { m with dv := r, dvsize := rsize }
      let m := m.setSizeAndPinuseOfFreeChunk r rsize
      m.setSizeAndPinuseOfInuseChunk p nb
    else
      let dvs := m.dvsize
      let m := { m with dvsize := 0#32, dv := 0#32 }
      m.setInuseAndPinuse p dvs
  (m.checkMallocedChunk (chunk2mem p) nb, chunk2mem p)

/-- From `top`, which is larger. -/
def mallocTop (m : MallocState) (nb : Word) : Outcome (MallocState × Addr) := do
  let rsize := m.topsize - nb
  let p := m.top
  let r := p + nb
  let m := { m with topsize := rsize, top := r }
  let m := m.setHead r (rsize ||| 1#32)
  let m := m.setSizeAndPinuseOfInuseChunk p nb
  let m ← m.checkTopChunk m.top
  .done (m.checkMallocedChunk (chunk2mem p) nb, chunk2mem p)

/-- What is tried when no bin is of use. -/
def mallocRest (sysAlloc : MallocState → Word → Outcome (MallocState × Addr)) (m : MallocState)
    (nb : Word) : Outcome (MallocState × Addr) :=
  if nb ≤ m.dvsize then .done (mallocDv m nb)
  else if nb < m.topsize then mallocTop m nb
  else sysAlloc m nb

/-- `dlmalloc`. The parameter is `sys_alloc`. -/
def dlmalloc (sysAlloc : MallocState → Word → Outcome (MallocState × Addr)) (fuel : Nat)
    (m : MallocState) (bytes : Word) : Outcome (MallocState × Addr) :=
  if bytes ≤ 244#32 then
    let nb := if bytes < 11#32 then 16#32 else padRequest bytes
    let idx := smallIndex nb
    let smallbits := m.smallmap >>> idx
    if smallbits &&& 3#32 ≠ 0#32 then
      .done (mallocSmallbin m (idx + (~~~smallbits &&& 1#32)) nb)
    else if m.dvsize < nb then
      if smallbits ≠ 0#32 then
        let leftbits := (smallbits <<< idx) &&& leftBits (idx2bit idx)
        .done (mallocNextSmallbin m (computeBit2idx (leastBit leftbits)) nb)
      else if m.treemap ≠ 0#32 then do
        let (m, mem) ← tmallocSmall fuel m nb
        if mem ≠ 0#32 then .done (m.checkMallocedChunk mem nb, mem)
        else mallocRest sysAlloc m nb
      else mallocRest sysAlloc m nb
    else mallocRest sysAlloc m nb
  else if 0xFFFFFFC0#32 ≤ bytes then mallocRest sysAlloc m 0xFFFFFFFF#32
  else
    let nb := padRequest bytes
    if m.treemap ≠ 0#32 then do
      let (m, mem) ← tmallocLarge fuel m nb
      if mem ≠ 0#32 then .done (m.checkMallocedChunk mem nb, mem)
      else mallocRest sysAlloc m nb
    else mallocRest sysAlloc m nb

/-! ## free -/

/-- What `dlfree` calls when memory may go back to the system. -/
structure Release where
  /-- A chunk that was mapped on its own is unmapped. -/
  mapped : MallocState → Addr → MallocState
  /-- `sys_trim`, if `should_trim` says so. -/
  trim : MallocState → MallocState
  /-- `release_unused_segments`, if its counter is down. -/
  segments : MallocState → MallocState

/-- The chunk `p` of the size `psize` is free, and its neighbours are not. -/
def binFreed (release : Release) (fuel : Nat) (m : MallocState) (p : Addr) (psize : Word) :
    Outcome MallocState :=
  if IsSmall psize then .done ((insertSmallChunk m p psize).checkFreeChunk p)
  else do
    let m ← insertLargeChunk fuel m p psize
    .done (release.segments (m.checkFreeChunk p))

/-- `p` has `psize` bytes up to `next`, and the chunk before it is in use. -/
def freeForward (release : Release) (fuel : Nat) (m : MallocState) (p : Addr) (psize : Word)
    (next : Addr) : Outcome MallocState :=
  if p < next ∧ m.Pinuse next then
    if ¬ m.Cinuse next then
      if next = m.top then
        let tsize := m.topsize + psize
        let m := { m with topsize := tsize, top := p }
        let m := m.setHead p (tsize ||| 1#32)
        let m := if p = m.dv then { m with dv := 0#32, dvsize := 0#32 } else m
        .done (release.trim m)
      else if next = m.dv then
        let dsize := m.dvsize + psize
        let m := { m with dvsize := dsize, dv := p }
        .done (m.setSizeAndPinuseOfFreeChunk p dsize)
      else do
        let nsize := m.chunksize next
        let psize := psize + nsize
        let m ← unlinkChunk fuel m next nsize
        let m := m.setSizeAndPinuseOfFreeChunk p psize
        if p = m.dv then .done { m with dvsize := psize }
        else binFreed release fuel m p psize
    else binFreed release fuel (m.setFreeWithPinuse p psize next) p psize
  else .done m.corruptionErrorAction

def dlfree (release : Release) (fuel : Nat) (m : MallocState) (mem : Addr) :
    Outcome MallocState :=
  if mem ≠ 0#32 then
    let p := mem2chunk mem
    let m := m.checkInuseChunk p
    if m.OkAddress p ∧ m.IsInuse p then
      let psize := m.chunksize p
      let next := p + psize
      if ¬ m.Pinuse p then
        let prevsize := m.prevFoot p
        if m.IsMmapped p then .done (release.mapped m p) else
        let prev := p - prevsize
        let psize := psize + prevsize
        if m.OkAddress prev then
          if prev ≠ m.dv then do
            let m ← unlinkChunk fuel m prev prevsize
            freeForward release fuel m prev psize next
          else if m.head next &&& 3#32 = 3#32 then
            let m := { m with dvsize := psize }
            .done (m.setFreeWithPinuse prev psize next)
          else freeForward release fuel m prev psize next
        else .done m.corruptionErrorAction
      else freeForward release fuel m p psize next
    else .done m.corruptionErrorAction
  else .done m

end LibSystem.Core
