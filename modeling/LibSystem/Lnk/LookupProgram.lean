import LibSystem.Access
import LibSystem.Lnk.Symbols

/-!
# The lookup as a program

The functions of the symbol lookup once more, with each access to memory made explicit.
-/

namespace LibSystem.Lnk

open Outcome Access

/-- A program over the memory of the process. -/
abbrev Program (α : Type) := Access Addr Byte α

/-- The state without the memory, and without the record of what has been done. -/
def Linker.forget (s : Linker) : Linker := { s with mem := fun _ => 0, trace := [] }

/-- In `mem` the program does what `x` says. `view` takes the memory out of a result. -/
def Runs {τ τ' : Type} (view : τ → τ' × Mem) (mem : Mem) (p : Program τ') (x : Outcome τ) : Prop :=
  p.run mem = x >>= fun r => done (view r)

/-- It leaves the memory as it is. -/
abbrev Reads {τ : Type} (mem : Mem) (p : Program τ) (x : Outcome τ) : Prop :=
  Runs (fun r => (r, mem)) mem p x

namespace Program

/-- A byte of a table. -/
def byte (a : Addr) : Program Byte := .look a pure

def loadWith (byte : Addr → Program Byte) (a : Addr) : Program Word := do
  let b0 ← byte a
  let b1 ← byte (a + 1)
  let b2 ← byte (a + 2)
  let b3 ← byte (a + 3)
  pure (BitVec.ofNat 32 (b0.toNat + 256 * b1.toNat + 65536 * b2.toNat + 16777216 * b3.toNat))

def load (a : Addr) : Program Word := loadWith byte a

/-- A word that the binding may overwrite. -/
def loadOwn (a : Addr) : Program Word := loadWith (fun i => .read i pure) a

def load16 (a : Addr) : Program (BitVec 16) := do
  let b0 ← byte a
  let b1 ← byte (a + 1)
  pure (BitVec.ofNat 16 (b0.toNat + 256 * b1.toNat))

def store (a : Addr) (v : Word) : Program Unit :=
  .write a (BitVec.ofNat 8 v.toNat) <|
  .write (a + 1) (BitVec.ofNat 8 (v.toNat / 256)) <|
  .write (a + 2) (BitVec.ofNat 8 (v.toNat / 256 ^ 2)) <|
  .write (a + 3) (BitVec.ofNat 8 (v.toNat / 256 ^ 3)) <|
  pure ()

end Program

/-! ## Rules -/

section Rules

variable {τ τ' σ σ' : Type} {view : τ → τ' × Mem} {view' : σ → σ' × Mem} {mem : Mem}
  {p q : Program τ'} {x y : Outcome τ}

theorem Runs.bind {next : τ' → Program σ'} {f : τ → Outcome σ} (h : Runs view mem p x)
    (hnext : ∀ r, Runs view' (view r).2 (next (view r).1) (f r)) :
    Runs view' mem (p >>= next) (x >>= f) := by
  unfold Runs at h ⊢
  rw [run_bind, h, bind_bind, bind_bind]
  congr 1
  funext r
  exact hnext r

theorem Runs.pure {r : τ} {a : τ'} (h : view r = (a, mem)) :
    Runs view mem (Pure.pure a) (.done r) := by
  unfold Runs
  rw [done_bind, h]
  rfl

theorem Runs.halt (msg : String) : Runs view mem (.ends (.halt msg)) (.halt msg) := rfl

theorem Runs.fault : Runs view mem (.ends .fault) .fault := rfl

theorem Runs.timeout : Runs view mem (.ends .timeout) .timeout := rfl

theorem Runs.lift (x : Outcome τ) : Reads mem (.ends x) x := rfl

theorem Runs.ite {c : Prop} [Decidable c] (hp : c → Runs view mem p x)
    (hq : ¬ c → Runs view mem q y) :
    Runs view mem (if c then p else q) (if c then x else y) := by
  split
  · exact hp ‹c›
  · exact hq ‹¬ c›

theorem Runs.dite {c : Prop} [Decidable c] {p : c → Program τ'} {q : ¬ c → Program τ'}
    {x : c → Outcome τ} {y : ¬ c → Outcome τ} (hp : ∀ h, Runs view mem (p h) (x h))
    (hq : ∀ h, Runs view mem (q h) (y h)) :
    Runs view mem (if h : c then p h else q h) (if h : c then x h else y h) := by
  split
  · exact hp _
  · exact hq _

theorem Runs.byte {a : Addr} {next : Byte → Program τ'} (h : Runs view mem (next (mem a)) x) :
    Runs view mem (Program.byte a >>= next) x := h

theorem Runs.load {a : Addr} {next : Word → Program τ'} (h : Runs view mem (next (mem.load a)) x) :
    Runs view mem (Program.load a >>= next) x := h

theorem Runs.loadOwn {a : Addr} {next : Word → Program τ'}
    (h : Runs view mem (next (mem.load a)) x) : Runs view mem (Program.loadOwn a >>= next) x := h

theorem Runs.load16 {a : Addr} {next : BitVec 16 → Program τ'}
    (h : Runs view mem (next (mem.load16 a)) x) : Runs view mem (Program.load16 a >>= next) x := h

theorem run_store (a : Addr) (v : Word) (mem : Mem) :
    (Program.store a v).run mem = done ((), mem.store a v) := by
  show done ((), _) = done ((), _)
  congr 2
  funext z
  unfold Access.set
  by_cases hz : Mem.InWord a z
  · rcases Mem.eq_add_of_inWord hz with rfl | rfl | rfl | rfl
    · simp [Mem.store]
    · rw [show (a + 1 : Addr) = a + BitVec.ofNat 32 1 from rfl, Mem.store_at _ _ _ _ (by omega)]
      simp
    · rw [show (a + 2 : Addr) = a + BitVec.ofNat 32 2 from rfl, Mem.store_at _ _ _ _ (by omega)]
      simp
    · rw [show (a + 3 : Addr) = a + BitVec.ofNat 32 3 from rfl, Mem.store_at _ _ _ _ (by omega)]
      simp
  · rw [Mem.store_outside _ _ _ _ hz]
    unfold Mem.InWord at hz
    rw [if_neg (by bv_omega), if_neg (by bv_omega), if_neg (by bv_omega), if_neg (by bv_omega)]

theorem Runs.store {a : Addr} {v : Word} {next : Unit → Program τ'}
    (h : Runs view (mem.store a v) (next ()) x) :
    Runs view mem (Program.store a v >>= next) x := by
  unfold Runs at h ⊢
  rw [run_bind, run_store, done_bind]
  exact h

theorem Runs.search {f : α → Program (Option β)} {g : α → Outcome (Option β)} {l : List α}
    (h : ∀ k ∈ l, Reads mem (f k) (g k)) : Reads mem (Access.search f l) (Outcome.search g l) := by
  induction l with
  | nil => exact .pure rfl
  | cons k l ih =>
    refine (h k (by simp)).bind fun r => ?_
    cases r with
    | none => exact ih fun k' hk' => h k' (by simp [hk'])
    | some b => exact .pure rfl

theorem Runs.foldlM {κ : Type} {f : τ' → κ → Program τ'} {g : τ → κ → Outcome τ}
    (h : ∀ r k, Runs view (view r).2 (f (view r).1 k) (g r k)) (l : List κ) (r : τ) :
    Runs view (view r).2 (l.foldlM f (view r).1) (l.foldlM g r) := by
  induction l generalizing r with
  | nil => exact .pure rfl
  | cons k l ih =>
    rw [List.foldlM_cons, List.foldlM_cons]
    exact (h r k).bind fun r => ih r

end Rules

namespace Program

/-! ## Numbers and tries -/

def readUleb128Loop (stop : Addr) : Nat → Addr → BitVec 64 → Nat → Program (Word × Addr)
  | 0, _, _, _ => .ends .timeout
  | fuel + 1, p, result, bit =>
    if p = stop then .ends (.halt "malformed uleb128")
    else do
      -- The byte that is too much is read too.
      let b ← byte p
      if 63 < bit then .ends (.halt "uleb128 too big for uint64, bit=%d, result=0x%0llX")
      else
        let slice : BitVec 64 := (b &&& 0x7f).setWidth 64
        let result := result ||| slice <<< bit
        if b &&& 0x80 ≠ 0 then readUleb128Loop stop fuel (p + 1) result (bit + 7)
        else pure (result.setWidth 32, p + 1)

def readUleb128 (p stop : Addr) : Program (Word × Addr) := readUleb128Loop stop 11 p 0 0

theorem runs_readUleb128Loop (mem : Mem) (stop : Addr) (fuel : Nat) (p : Addr)
    (result : BitVec 64) (bit : Nat) :
    Reads mem (readUleb128Loop stop fuel p result bit)
      (Lnk.readUleb128Loop mem stop fuel p result bit) := by
  induction fuel generalizing p result bit with
  | zero => exact .timeout
  | succ fuel ih =>
    unfold readUleb128Loop Lnk.readUleb128Loop
    refine .ite (fun _ => .halt _) fun _ => .byte (.ite (fun _ => .halt _) fun _ => ?_)
    exact .ite (fun _ => ih _ _ _) fun _ => .pure rfl

theorem runs_readUleb128 (mem : Mem) (p stop : Addr) :
    Reads mem (readUleb128 p stop) (Lnk.readUleb128 mem p stop) :=
  runs_readUleb128Loop mem stop 11 p 0 0

def scanEdge : Nat → Addr → List Byte → Bool → Program (Addr × List Byte × Bool)
  | 0, _, _, _ => .ends .timeout
  | fuel + 1, p, ss, wrongEdge => do
    let b ← byte p
    if b = 0 then pure (p, ss, wrongEdge)
    else if wrongEdge then scanEdge fuel (p + 1) ss true
    else scanEdge fuel (p + 1) ss.tail (b != charAt ss)

theorem runs_scanEdge (mem : Mem) (fuel : Nat) (p : Addr) (ss : List Byte) (wrongEdge : Bool) :
    Reads mem (scanEdge fuel p ss wrongEdge) (Lnk.scanEdge mem fuel p ss wrongEdge) := by
  induction fuel generalizing p ss wrongEdge with
  | zero => exact .timeout
  | succ fuel ih =>
    unfold scanEdge Lnk.scanEdge
    refine .byte (.ite (fun _ => .pure rfl) fun _ => ?_)
    exact .ite (fun _ => ih _ _ _) fun _ => ih _ _ _

def skipUleb : Nat → Addr → Program Addr
  | 0, _ => .ends .timeout
  | fuel + 1, p => do
    let b ← byte p
    if b &&& 0x80 ≠ 0 then skipUleb fuel (p + 1) else pure p

theorem runs_skipUleb (mem : Mem) (fuel : Nat) (p : Addr) :
    Reads mem (skipUleb fuel p) (Lnk.skipUleb mem fuel p) := by
  induction fuel generalizing p with
  | zero => exact .timeout
  | succ fuel ih =>
    unfold skipUleb Lnk.skipUleb
    exact .byte (.ite (fun _ => ih _) fun _ => .pure rfl)

def walkChildren (stop : Addr) (fuel : Nat) : Nat → Addr → List Byte → Program (Word × List Byte)
  | 0, _, s => pure (0, s)
  | childrenRemaining + 1, p, s => do
    let (p, ss, wrongEdge) ← scanEdge fuel p s false
    if wrongEdge then
      let p ← skipUleb fuel (p + 1)
      walkChildren stop fuel childrenRemaining (p + 1) s
    else
      let (nodeOffset, _) ← readUleb128 (p + 1) stop
      pure (nodeOffset, ss)

theorem runs_walkChildren (mem : Mem) (stop : Addr) (fuel childrenRemaining : Nat) (p : Addr)
    (s : List Byte) : Reads mem (walkChildren stop fuel childrenRemaining p s)
      (Lnk.walkChildren mem stop fuel childrenRemaining p s) := by
  induction childrenRemaining generalizing p with
  | zero => exact .pure rfl
  | succ childrenRemaining ih =>
    unfold walkChildren Lnk.walkChildren
    refine (runs_scanEdge mem fuel p s false).bind fun ⟨p, ss, wrongEdge⟩ => ?_
    refine .ite (fun _ => ?_) fun _ => ?_
    · exact (runs_skipUleb mem fuel (p + 1)).bind fun p => ih (p + 1)
    · exact (runs_readUleb128 mem (p + 1) stop).bind fun _ => .pure rfl

def readTerminalSize (p stop : Addr) : Program (Word × Addr) := do
  let b ← byte p
  if 127 < b.toNat then readUleb128 p stop else pure (b.setWidth 32, p + 1)

theorem runs_readTerminalSize (mem : Mem) (p stop : Addr) :
    Reads mem (readTerminalSize p stop) (Lnk.readTerminalSize mem p stop) :=
  .byte (.ite (fun _ => runs_readUleb128 mem p stop) fun _ => .pure rfl)

def trieWalkLoop (start stop : Addr) (scan : Nat) : Nat → Addr → List Byte → Program Addr
  | 0, _, _ => .ends .timeout
  | fuel + 1, p, s =>
    if p = 0 then pure 0
    else do
      let (terminalSize, p) ← readTerminalSize p stop
      if charAt s = 0 ∧ terminalSize ≠ 0 then pure p
      else
        let children := p + terminalSize
        let count ← byte children
        let (nodeOffset, s) ← walkChildren stop scan count.toNat (children + 1) s
        trieWalkLoop start stop scan fuel (if nodeOffset ≠ 0 then start + nodeOffset else 0) s

theorem runs_trieWalkLoop (mem : Mem) (start stop : Addr) (scan fuel : Nat) (p : Addr)
    (s : List Byte) : Reads mem (trieWalkLoop start stop scan fuel p s)
      (Lnk.trieWalkLoop mem start stop scan fuel p s) := by
  induction fuel generalizing p s with
  | zero => exact .timeout
  | succ fuel ih =>
    unfold trieWalkLoop Lnk.trieWalkLoop
    refine .ite (fun _ => .pure rfl) fun _ => ?_
    refine (runs_readTerminalSize mem p stop).bind fun ⟨terminalSize, p⟩ => ?_
    refine .ite (fun _ => .pure rfl) fun _ => .byte ?_
    exact (runs_walkChildren mem stop scan _ _ s).bind fun _ => ih _ _

def trieWalk (fuel : Nat) (start stop : Addr) (s : List Byte) : Program Addr :=
  trieWalkLoop start stop fuel fuel start s

theorem runs_trieWalk (mem : Mem) (fuel : Nat) (start stop : Addr) (s : List Byte) :
    Reads mem (trieWalk fuel start stop s) (Lnk.trieWalk fuel mem start stop s) :=
  runs_trieWalkLoop mem start stop fuel fuel start s

/-! ## Compressed images -/

def findExportedSymbolCompressed (fuel : Nat) (this : ImageId) (obj : MachObject)
    (symbol : CString) : Program (Option Symbol) := do
  let info ← .ends (Outcome.ofOption obj.fDyldInfo)
  if info.exportSize = 0 then pure none
  else
    let foundNodeStart ← trieWalk fuel (exportStart obj info) (exportEnd obj info) symbol.bytes
    if foundNodeStart = 0 then pure none
    else
      let (flags, _) ← readUleb128 foundNodeStart (exportEnd obj info)
      if flags &&& exportSymbolFlagsReexport ≠ 0 then .ends (.halt "no fucking idea, honestly")
      else pure (some ⟨foundNodeStart, this⟩)

theorem runs_findExportedSymbolCompressed (mem : Mem) (fuel : Nat) (this : ImageId)
    (obj : MachObject) (symbol : CString) :
    Reads mem (findExportedSymbolCompressed fuel this obj symbol)
      (Lnk.findExportedSymbolCompressed fuel mem this obj symbol) := by
  refine (Runs.lift _).bind fun info => .ite (fun _ => .pure rfl) fun _ => ?_
  refine (runs_trieWalk mem fuel _ _ _).bind fun node => .ite (fun _ => .pure rfl) fun _ => ?_
  exact (runs_readUleb128 mem node _).bind fun _ => .ite (fun _ => .halt _) fun _ => .pure rfl

def exportedSymbolAddressCompressed (obj : MachObject) (sym : Symbol) : Program Word := do
  let info ← .ends (Outcome.ofOption obj.fDyldInfo)
  let start := exportStart obj info
  let stop := exportEnd obj info
  if sym.addr < start ∨ stop < sym.addr then .ends (.halt "symbol not in a trie")
  else
    let (flags, exportNode) ← readUleb128 sym.addr stop
    if flags &&& exportSymbolFlagsKindMask = exportSymbolFlagsKindRegular then
      if flags &&& exportSymbolFlagsStubAndResolver ≠ 0 then
        .ends (.halt "XXX: resolvers not implemented, fix macho loader on line %d")
      else
        let (offset, _) ← readUleb128 exportNode stop
        pure (offset + obj.fHeader)
    else if flags &&& exportSymbolFlagsKindMask = exportSymbolFlagsKindThreadLocal then
      if flags &&& exportSymbolFlagsStubAndResolver ≠ 0 then
        .ends (.halt "unsupported local exported symbol kind. flags=%d at node=%p")
      else
        let (offset, _) ← readUleb128 exportNode stop
        pure (offset + obj.fHeader)
    else .ends (.halt "unsupported exported symbol kind. flags=%d at node=%p")

theorem runs_exportedSymbolAddressCompressed (mem : Mem) (obj : MachObject) (sym : Symbol) :
    Reads mem (exportedSymbolAddressCompressed obj sym)
      (Lnk.exportedSymbolAddressCompressed mem obj sym) := by
  refine (Runs.lift _).bind fun info => .ite (fun _ => .halt _) fun _ => ?_
  refine (runs_readUleb128 mem _ _).bind fun ⟨flags, exportNode⟩ => ?_
  refine .ite (fun _ => ?_) fun _ => .ite (fun _ => ?_) fun _ => .halt _
  all_goals
    refine .ite (fun _ => .halt _) fun _ => ?_
    exact (runs_readUleb128 mem _ _).bind fun _ => .pure rfl

/-! ## Classic images -/

def strcmp : Nat → List Byte → Addr → Program Ordering
  | 0, _, _ => .ends .timeout
  | fuel + 1, key, p => do
    let b ← byte p
    if charAt key ≠ b then pure (compare (charAt key).toNat b.toNat)
    else if b = 0 then pure .eq
    else strcmp fuel key.tail (p + 1)

theorem runs_strcmp (mem : Mem) (fuel : Nat) (key : List Byte) (p : Addr) :
    Reads mem (strcmp fuel key p) (Lnk.strcmp mem fuel key p) := by
  induction fuel generalizing key p with
  | zero => exact .timeout
  | succ fuel ih =>
    unfold strcmp Lnk.strcmp
    refine .byte (.ite (fun _ => .pure rfl) fun _ => ?_)
    exact .ite (fun _ => .pure rfl) fun _ => ih _ _

def binarySearchLoop (scan : Nat) (key : List Byte) (stringPool : Addr) :
    Nat → Addr → Word → Program Addr
  | 0, _, _ => .ends .timeout
  | fuel + 1, base, n =>
    if n = 0 then pure 0
    else do
      let pivot := base + 12 * (n / 2)
      let strx ← load pivot
      let cmp ← strcmp scan key (stringPool + strx)
      if cmp = .eq then pure pivot
      else if cmp = .gt then
        binarySearchLoop scan key stringPool fuel (pivot + 12) ((n - 1) / 2)
      else binarySearchLoop scan key stringPool fuel base (n / 2)

theorem runs_binarySearchLoop (mem : Mem) (scan : Nat) (key : List Byte) (stringPool : Addr)
    (fuel : Nat) (base : Addr) (n : Word) :
    Reads mem (binarySearchLoop scan key stringPool fuel base n)
      (Lnk.binarySearchLoop mem scan key stringPool fuel base n) := by
  induction fuel generalizing base n with
  | zero => exact .timeout
  | succ fuel ih =>
    unfold binarySearchLoop Lnk.binarySearchLoop
    refine .ite (fun _ => .pure rfl) fun _ => .load ?_
    refine (runs_strcmp mem scan key _).bind fun cmp => .ite (fun _ => .pure rfl) fun _ => ?_
    exact .ite (fun _ => ih _ _) fun _ => ih _ _

def binarySearchTocLoop (scan : Nat) (key : List Byte) (stringPool symbols toc : Addr) :
    Nat → Word → Word → Word → Program Addr
  | 0, _, _, _ => .ends .timeout
  | fuel + 1, low, high, mid =>
    if high.slt low then pure 0
    else do
      let index ← load (toc + 8 * mid)
      let pivot := symbols + 12 * index
      let strx ← load pivot
      let cmp ← strcmp scan key (stringPool + strx)
      if cmp = .eq then pure pivot
      else
        let low := if cmp = .gt then mid + 1 else low
        let high := if cmp = .gt then high else mid - 1
        binarySearchTocLoop scan key stringPool symbols toc fuel low high ((low + high).sdiv 2)

theorem runs_binarySearchTocLoop (mem : Mem) (scan : Nat) (key : List Byte)
    (stringPool symbols toc : Addr) (fuel : Nat) (low high mid : Word) :
    Reads mem (binarySearchTocLoop scan key stringPool symbols toc fuel low high mid)
      (Lnk.binarySearchTocLoop mem scan key stringPool symbols toc fuel low high mid) := by
  induction fuel generalizing low high mid with
  | zero => exact .timeout
  | succ fuel ih =>
    unfold binarySearchTocLoop Lnk.binarySearchTocLoop
    refine .ite (fun _ => .pure rfl) fun _ => .load (.load ?_)
    refine (runs_strcmp mem scan key _).bind fun cmp => ?_
    exact .ite (fun _ => .pure rfl) fun _ => ih _ _ _

def findExportedSymbolClassic (fuel : Nat) (this : ImageId) (obj : MachObject) (name : CString) :
    Program (Option Symbol) := do
  let _ ← .ends (Outcome.ofOption obj.fDynamicInfo)
  let info := obj.dysymtab
  let sym ←
    if info.tocoff = 0 then
      binarySearchLoop fuel name.bytes obj.fStrings fuel (obj.fSymtab + 12 * info.iextdefsym)
        info.nextdefsym
    else
      binarySearchTocLoop fuel name.bytes obj.fStrings obj.fSymtab
        (obj.fLinkEditBase + info.tocoff) fuel 0 (info.ntoc - 1)
        (if info.ntoc.sle info.nextdefsym then info.ntoc / 2 else info.nextdefsym)
  if sym = 0 then pure none else pure (some ⟨sym, this⟩)

theorem runs_findExportedSymbolClassic (mem : Mem) (fuel : Nat) (this : ImageId)
    (obj : MachObject) (name : CString) :
    Reads mem (findExportedSymbolClassic fuel this obj name)
      (Lnk.findExportedSymbolClassic fuel mem this obj name) := by
  refine (Runs.lift _).bind fun info => ?_
  refine .ite (fun _ => ?_) fun _ => ?_
  · refine (runs_binarySearchLoop mem fuel _ _ fuel _ _).bind fun sym => ?_
    exact .ite (fun _ => .pure rfl) fun _ => .pure rfl
  · refine (runs_binarySearchTocLoop mem fuel _ _ _ _ fuel _ _ _).bind fun sym => ?_
    exact .ite (fun _ => .pure rfl) fun _ => .pure rfl

def exportedSymbolAddressClassic (obj : MachObject) (sym : Symbol) : Program Word := do
  let value ← load (sym.addr + 8)
  let desc ← load16 (sym.addr + 6)
  let result := value + obj.fSlide
  pure (if desc &&& nArmThumbDef ≠ 0 then result ||| 1 else result)

theorem runs_exportedSymbolAddressClassic (mem : Mem) (obj : MachObject) (sym : Symbol) :
    Reads mem (exportedSymbolAddressClassic obj sym)
      (.done (Lnk.exportedSymbolAddressClassic mem obj sym)) :=
  .load (.load16 (.pure rfl))

/-! ## Images

What these programs get of the linker's state is everything but the memory.
-/

def findOwnSymbol (fuel : Nat) (this : ImageId) (obj : MachObject) (symbol : CString) :
    Program (Option Symbol) :=
  if obj.fIsClassic then findExportedSymbolClassic fuel this obj symbol
  else findExportedSymbolCompressed fuel this obj symbol

theorem runs_findOwnSymbol (fuel : Nat) (s : Linker) (this : ImageId) (obj : MachObject)
    (symbol : CString) :
    Reads s.mem (findOwnSymbol fuel this obj symbol) (Lnk.findOwnSymbol fuel s this obj symbol) :=
  .ite (fun _ => runs_findExportedSymbolClassic s.mem fuel this obj symbol)
    fun _ => runs_findExportedSymbolCompressed s.mem fuel this obj symbol

def findExportedSymbol : Nat → Linker → CString → ImageId → Program (Option Symbol)
  | 0, _, _, _ => .ends .timeout
  | fuel + 1, s, symbol, this => do
    let obj ← .ends (s.object this)
    match ← findOwnSymbol fuel this obj symbol with
    | some sym => pure (some sym)
    | none => Access.search (findExportedSymbol fuel s symbol) obj.fReExports

theorem runs_findExportedSymbol (fuel : Nat) (s : Linker) (symbol : CString) (this : ImageId) :
    Reads s.mem (findExportedSymbol fuel s.forget symbol this)
      (Lnk.findExportedSymbol fuel s symbol this) := by
  induction fuel generalizing this with
  | zero => exact .timeout
  | succ fuel ih =>
    unfold findExportedSymbol Lnk.findExportedSymbol
    refine (Runs.lift _).bind fun obj => ?_
    refine (runs_findOwnSymbol fuel s this obj symbol).bind fun found => ?_
    cases found with
    | some sym => exact .pure rfl
    | none => exact .search fun im _ => ih im

def exportedSymbolAddress (s : Linker) (this : ImageId) (sym : Symbol) : Program Word := do
  let obj ← .ends (s.object this)
  if obj.fIsClassic then exportedSymbolAddressClassic obj sym
  else exportedSymbolAddressCompressed obj sym

theorem runs_exportedSymbolAddress (s : Linker) (this : ImageId) (sym : Symbol) :
    Reads s.mem (exportedSymbolAddress s.forget this sym)
      (Lnk.exportedSymbolAddress s this sym) := by
  refine (Runs.lift _).bind fun obj => .ite (fun _ => ?_) fun _ => ?_
  · exact runs_exportedSymbolAddressClassic s.mem obj sym
  · exact runs_exportedSymbolAddressCompressed s.mem obj sym

def findIn (fuel : Nat) (s : Linker) (symbolName : CString) (im : ImageId) :
    Program (Option (ImageId × Symbol)) := do
  let found ← findExportedSymbol fuel s symbolName im
  pure (found.map fun sym => (im, sym))

theorem runs_findIn (fuel : Nat) (s : Linker) (symbolName : CString) (im : ImageId) :
    Reads s.mem (findIn fuel s.forget symbolName im) (Lnk.findIn fuel s symbolName im) :=
  (runs_findExportedSymbol fuel s symbolName im).bind fun _ => .pure rfl

end Program

end LibSystem.Lnk
