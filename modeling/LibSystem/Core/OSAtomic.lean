import LibSystem.Exclusives
import LibSystem.Words

/-!
# The atomic operations

`OSAtomic.s`, instruction by instruction, for any number of threads. A thread may be stopped
before each instruction, and loses its tag when another one stores.
-/

namespace LibSystem.Core.OSAtomic

open Exclusives

/-! ## Instructions -/

inductive Reg where
  | r0
  | r1
  | r2
  | r3
  | r4
  | r5
  | r8
  | r9
  | ip
  deriving DecidableEq

abbrev Regs := Reg → Word

inductive Cond where
  | al
  | eq
  | ne
  deriving DecidableEq

inductive Operand where
  | imm (v : Word)
  | reg (rm : Reg)
  | lsr (rm : Reg) (n : Nat)
  | asl (rm : Reg) (n : Nat)
  | asrBy (rm rs : Reg)
  | aslBy (rm rs : Reg)
  deriving DecidableEq

def Operand.eval (regs : Regs) : Operand → Word
  | .imm v => v
  | .reg rm => regs rm
  | .lsr rm n => regs rm >>> n
  | .asl rm n => regs rm <<< n
  | .asrBy rm rs => (regs rm).sshiftRight (regs rs).toNat
  | .aslBy rm rs => regs rm <<< (regs rs).toNat

inductive Op where
  | add
  | orr
  | and
  | eor
  | bic
  deriving DecidableEq

def Op.eval : Op → Word → Word → Word
  | .add, x, y => x + y
  | .orr, x, y => x ||| y
  | .and, x, y => x &&& y
  | .eor, x, y => x ^^^ y
  | .bic, x, y => x &&& ~~~y

/-- Branches go to an index of the routine's code. -/
inductive Instr where
  | mov (cond : Cond) (rd : Reg) (x : Operand)
  | alu (op : Op) (rd rn : Reg) (x : Operand)
  | ands (rd rn rm : Reg)
  | adds (rd rn rm : Reg)
  | adc (rd rn rm : Reg)
  | cmp (rn : Reg) (v : Word)
  | teq (cond : Cond) (rn rm : Reg)
  | ldrex (rt rn : Reg)
  | strex (rd rt rn : Reg)
  | ldrexd (rt rt2 rn : Reg)
  | strexd (rd rt rt2 rn : Reg)
  | b (cond : Cond) (target : Nat)
  /-- `bx lr`, or the `ldmfd` that ends a routine. -/
  | bx (cond : Cond)
  deriving DecidableEq

/-! ## Memory -/

inductive Cell where
  | word (a : Addr)
  | dword (a : Addr)
  deriving DecidableEq

/-- The low word of a double word comes first. -/
abbrev Cell.Val : Cell → Type
  | .word _ => Word
  | .dword _ => Word × Word

def Cell.Covers : Cell → Addr → Prop
  | .word a, x => Mem.InWord a x
  | .dword a, x => Mem.InWord a x ∨ Mem.InWord (a + 4) x

def getCell : (l : Cell) → Mem → l.Val
  | .word a, m => m.load a
  | .dword a, m => (m.load a, m.load (a + 4))

def putCell : (l : Cell) → l.Val → Mem → Mem
  | .word a, v, m => m.store a v
  | .dword a, v, m => (m.store a v.1).store (a + 4) v.2

theorem putCell_outside (l : Cell) (v : l.Val) (m : Mem) {x : Addr} (hx : ¬ l.Covers x) :
    putCell l v m x = m x := by
  cases l with
  | word a => exact Mem.store_outside m a v x hx
  | dword a =>
    obtain ⟨hlow, hhigh⟩ := not_or.mp hx
    exact (Mem.store_outside _ _ _ x hhigh).trans (Mem.store_outside m a v.1 x hlow)

theorem getCell_congr (l : Cell) {m m' : Mem} (h : ∀ x, l.Covers x → m' x = m x) :
    getCell l m' = getCell l m := by
  cases l with
  | word a => exact Mem.load_congr h
  | dword a =>
    have hlow : m'.load a = m.load a := Mem.load_congr fun x hx => h x (.inl hx)
    have hhigh : m'.load (a + 4) = m.load (a + 4) := Mem.load_congr fun x hx => h x (.inr hx)
    simp only [getCell, hlow, hhigh]

def cells : Layout Mem Cell Cell.Val where
  get := getCell
  put := putCell
  Apart l l' := ∀ x, l.Covers x → ¬ l'.Covers x
  get_put l l' v m hapart := getCell_congr l' fun x hx =>
    putCell_outside l v m fun hx' => hapart x hx' hx

/-! ## Running -/

/-- A routine, and whether its result has 64 bits. -/
structure Routine where
  code : List Instr
  wide : Bool
  deriving DecidableEq

/-- A place in a routine, with the registers and the flags `Z` and `C`. -/
structure Place where
  routine : Routine
  pc : Nat
  regs : Regs
  z : Bool
  carry : Bool

def Place.set (c : Place) (rd : Reg) (v : Word) : Place :=
  { c with regs := Function.update c.regs rd v }

def Place.next (c : Place) : Place := { c with pc := c.pc + 1 }

def Place.holds (c : Place) : Cond → Bool
  | .al => true
  | .eq => c.z
  | .ne => !c.z

/-- What a caller finds in `r0`, or in `r0` and `r1`. -/
inductive Result where
  | int (r0 : Word)
  | int64 (r0 r1 : Word)
  deriving DecidableEq

def Place.result (c : Place) : Result :=
  if c.routine.wide then .int64 (c.regs .r0) (c.regs .r1) else .int (c.regs .r0)

def status (failed : Bool) : Word := if failed then 1 else 0

def exec (c : Place) : Instr → Act Place Cell Cell.Val Result
  | .mov cond rd x => .go (if c.holds cond then c.next.set rd (x.eval c.regs) else c.next)
  | .alu op rd rn x => .go (c.next.set rd (op.eval (c.regs rn) (x.eval c.regs)))
  | .ands rd rn rm =>
    let v := c.regs rn &&& c.regs rm
    .go { c.next.set rd v with z := v = 0 }
  | .adds rd rn rm =>
    let v := c.regs rn + c.regs rm
    .go { c.next.set rd v with
      z := v = 0
      carry := 2 ^ 32 ≤ (c.regs rn).toNat + (c.regs rm).toNat }
  | .adc rd rn rm => .go (c.next.set rd (c.regs rn + c.regs rm + if c.carry then 1 else 0))
  | .cmp rn v => .go { c.next with z := c.regs rn = v, carry := v ≤ c.regs rn }
  | .teq cond rn rm =>
    .go (if c.holds cond then { c.next with z := c.regs rn = c.regs rm } else c.next)
  | .ldrex rt rn => .loadEx (.word (c.regs rn)) fun v => c.next.set rt v
  | .strex rd rt rn =>
    .storeEx (.word (c.regs rn)) (c.regs rt) fun failed => c.next.set rd (status failed)
  | .ldrexd rt rt2 rn =>
    .loadEx (.dword (c.regs rn)) fun v => (c.next.set rt v.1).set rt2 v.2
  | .strexd rd rt rt2 rn =>
    .storeEx (.dword (c.regs rn)) (c.regs rt, c.regs rt2) fun failed =>
      c.next.set rd (status failed)
  | .b cond target => .go (if c.holds cond then { c with pc := target } else c.next)
  | .bx cond => if c.holds cond then .ret c.result else .go c.next

/-- Behind its end, a routine would go on forever. -/
def act (c : Place) : Act Place Cell Cell.Val Result :=
  match c.routine.code[c.pc]? with
  | some instr => exec c instr
  | none => .go c

/-! ## The routines -/

def atomicArithmetic (op : Op) : Routine where
  code := [
    .ldrex .r2 .r1,
    .alu op .r3 .r2 (.reg .r0),
    .strex .ip .r3 .r1,
    .cmp .ip 0,
    .b .ne 0,
    .mov .al .r0 (.reg .r3),
    .bx .al]
  wide := false

def atomicArithmeticOrig (op : Op) : Routine where
  code := [
    .ldrex .r2 .r1,
    .alu op .r3 .r2 (.reg .r0),
    .strex .ip .r3 .r1,
    .cmp .ip 0,
    .b .ne 0,
    .mov .al .r0 (.reg .r2),
    .bx .al]
  wide := false

def osAtomicAdd32 : Routine := atomicArithmetic .add
def osAtomicOr32 : Routine := atomicArithmetic .orr
def osAtomicOr32Orig : Routine := atomicArithmeticOrig .orr
def osAtomicAnd32 : Routine := atomicArithmetic .and
def osAtomicAnd32Orig : Routine := atomicArithmeticOrig .and
def osAtomicXor32 : Routine := atomicArithmetic .eor
def osAtomicXor32Orig : Routine := atomicArithmeticOrig .eor

def osAtomicCompareAndSwap32 : Routine where
  code := [
    .ldrex .r3 .r2,
    .teq .al .r3 .r0,
    .mov .ne .r0 (.imm 0),
    .bx .ne,
    .strex .r3 .r1 .r2,
    .cmp .r3 0,
    .b .ne 0,
    .mov .al .r0 (.imm 1),
    .bx .al]
  wide := false

def atomicBitop (op : Op) : Routine where
  code := [
    .mov .al .r3 (.lsr .r0 5),
    .alu .add .r1 .r1 (.asl .r3 2),
    .alu .and .r2 .r0 (.imm 7),
    .mov .al .r3 (.imm 0x80),
    .mov .al .r3 (.asrBy .r3 .r2),
    .alu .and .r0 .r0 (.imm 0x18),
    .mov .al .r0 (.aslBy .r3 .r0),
    .ldrex .r2 .r1,
    .alu op .r3 .r2 (.reg .r0),
    .strex .ip .r3 .r1,
    .cmp .ip 0,
    .b .ne 7,
    .ands .r0 .r2 .r0,
    .mov .ne .r0 (.imm 1),
    .bx .al]
  wide := false

def osAtomicTestAndSet : Routine := atomicBitop .orr
def osAtomicTestAndClear : Routine := atomicBitop .bic

/-- From the label `1` on. What is saved before belongs to the caller. -/
def osAtomicAdd64 : Routine where
  code := [
    .ldrexd .r4 .r5 .r2,
    .adds .r8 .r4 .r0,
    .adc .r9 .r5 .r1,
    .strexd .r3 .r8 .r9 .r2,
    .cmp .r3 0,
    .b .ne 0,
    .mov .al .r0 (.reg .r8),
    .mov .al .r1 (.reg .r9),
    .bx .al]
  wide := true

/-- From the label `1` on. The pointer has been loaded into `ip`. -/
def osAtomicCompareAndSwap64 : Routine where
  code := [
    .ldrexd .r4 .r5 .ip,
    .teq .al .r0 .r4,
    .teq .eq .r1 .r5,
    .mov .ne .r0 (.imm 0),
    .b .ne 9,
    .strexd .r4 .r2 .r3 .ip,
    .cmp .r3 0,
    .b .ne 0,
    .mov .al .r0 (.imm 1),
    .bx .al]
  wide := false

/-! ## The operations -/

/-- The functions whose routines are loops around one store. -/
inductive Fn where
  | arithmetic (op : Op)
  | arithmeticOrig (op : Op)
  | compareAndSwap32
  | bitop (op : Op)
  | add64
  deriving DecidableEq

def Fn.routine : Fn → Routine
  | .arithmetic op => atomicArithmetic op
  | .arithmeticOrig op => atomicArithmeticOrig op
  | .compareAndSwap32 => osAtomicCompareAndSwap32
  | .bitop op => atomicBitop op
  | .add64 => osAtomicAdd64

/-- A call with anything in the registers and the flags. -/
structure Call where
  fn : Fn
  regs : Regs
  z : Bool
  carry : Bool

def entry (q : Call) : Place := ⟨q.fn.routine, 0, q.regs, q.z, q.carry⟩

/-- The word that has the bit, counted from `base`. -/
def bitWord (n base : Word) : Addr := base + (n >>> 5) <<< 2

/-- The bits of a byte are counted from the highest one. -/
def bitMask (n : Word) : Word := ((0x80 : Word) >>> (n &&& 7).toNat) <<< (n &&& 0x18).toNat

/-- The sum of two double words. -/
def dwordAdd (x y : Word × Word) : Word × Word :=
  let sum : BitVec 64 := (x.2 ++ x.1) + (y.2 ++ y.1)
  (sum.extractLsb' 0 32, sum.extractLsb' 32 32)

def Fn.loc (regs : Regs) : Fn → Cell
  | .arithmetic _ | .arithmeticOrig _ => .word (regs .r1)
  | .compareAndSwap32 => .word (regs .r2)
  | .bitop _ => .word (bitWord (regs .r0) (regs .r1))
  | .add64 => .dword (regs .r2)

def compareAndSwap (old new v : Word) : Option Word × Result :=
  if v = old then (some new, .int 1) else (none, .int 0)

def testBit (mask v : Word) : Result := .int (if v &&& mask = 0 then 0 else 1)

/-- What is stored over a value, and the result. -/
def Fn.op (regs : Regs) : (fn : Fn) → (fn.loc regs).Val → Option (fn.loc regs).Val × Result
  | .arithmetic op, v => (some (op.eval v (regs .r0)), .int (op.eval v (regs .r0)))
  | .arithmeticOrig op, v => (some (op.eval v (regs .r0)), .int v)
  | .compareAndSwap32, v => compareAndSwap (regs .r0) (regs .r1) v
  | .bitop op, v => (some (op.eval v (bitMask (regs .r0))), testBit (bitMask (regs .r0)) v)
  | .add64, v =>
    let sum := dwordAdd v (regs .r0, regs .r1)
    (some sum, .int64 sum.1 sum.2)

def operations : Atomic Call Cell Result Cell.Val where
  loc q := q.fn.loc q.regs
  op q := q.fn.op q.regs

/-! ## Steps of a routine -/

variable {c : Place} {r : Result}

theorem act_of {rt : Routine} {n : Nat} {instr : Instr} (hroutine : c.routine = rt)
    (hpc : c.pc = n) (hcode : rt.code[n]? = some instr) : act c = exec c instr := by
  unfold act
  rw [hroutine, hpc, hcode]

@[simp] theorem set_routine (rd : Reg) (v : Word) : (c.set rd v).routine = c.routine := rfl
@[simp] theorem set_pc (rd : Reg) (v : Word) : (c.set rd v).pc = c.pc := rfl
@[simp] theorem set_z (rd : Reg) (v : Word) : (c.set rd v).z = c.z := rfl
@[simp] theorem set_carry (rd : Reg) (v : Word) : (c.set rd v).carry = c.carry := rfl
@[simp] theorem set_self (rd : Reg) (v : Word) : (c.set rd v).regs rd = v :=
  Function.update_self _ _ _
@[simp] theorem set_other {rd rm : Reg} (v : Word) (h : rm ≠ rd) :
    (c.set rd v).regs rm = c.regs rm :=
  Function.update_of_ne h _ _

@[simp] theorem next_routine : c.next.routine = c.routine := rfl
@[simp] theorem next_pc : c.next.pc = c.pc + 1 := rfl
@[simp] theorem next_z : c.next.z = c.z := rfl
@[simp] theorem next_carry : c.next.carry = c.carry := rfl
@[simp] theorem next_regs : c.next.regs = c.regs := rfl

/-- A routine with what it knows before its store and after it, at one location. -/
structure Knows (rt : Routine) (l : Cell) (op : l.Val → Option l.Val × Result)
    (Before : Place → Option l.Val → Prop) (After : Result → Place → Prop) : Prop where
  before : ∀ c o, c.routine = rt → Before c o →
    (∃ c', act c = .go c' ∧ c'.routine = rt ∧ Before c' o) ∨
    (∃ k, act c = .loadEx l k ∧ ∀ v, (k v).routine = rt ∧
      (Before (k v) (some v) ∨ (op v).1 = none ∧ After (op v).2 (k v))) ∨
    ∃ v w k, o = some v ∧ act c = .storeEx l w k ∧ (∀ failed, (k failed).routine = rt) ∧
      (op v).1 = some w ∧ After (op v).2 (k false) ∧ Before (k true) none
  after : ∀ r c, c.routine = rt → After r c →
    (∃ c', act c = .go c' ∧ c'.routine = rt ∧ After r c') ∨ act c = .ret r

/-! ### Arithmetic -/

/-- The registers that are used later on, by the index of the next instruction. -/
def ArithmeticBefore (op : Op) (amount ptr : Word) (c : Place) (o : Option Word) : Prop :=
  (c.regs .r0 = amount ∧ c.regs .r1 = ptr) ∧
    (c.pc = 0 ∨ (c.pc = 1 ∧ o = some (c.regs .r2)) ∨
      (c.pc = 2 ∧ o = some (c.regs .r2) ∧ c.regs .r3 = op.eval (c.regs .r2) amount) ∨
      (c.pc = 3 ∧ c.regs .ip = 1) ∨ (c.pc = 4 ∧ c.z = false))

/-- `rm` holds the result. -/
def ArithmeticAfter (rm : Reg) (r : Result) (c : Place) : Prop :=
  (r = .int (c.regs rm) ∧ ((c.pc = 3 ∧ c.regs .ip = 0) ∨ (c.pc = 4 ∧ c.z = true) ∨ c.pc = 5)) ∨
    (r = .int (c.regs .r0) ∧ c.pc = 6)

theorem arithmetic_knows (op : Op) (amount ptr : Word) (res : Word → Word) {rm : Reg}
    (hip : rm ≠ .ip) (hres : ∀ regs : Regs, regs .r3 = op.eval (regs .r2) amount →
      regs rm = res (regs .r2)) :
    Knows ⟨[.ldrex .r2 .r1, .alu op .r3 .r2 (.reg .r0), .strex .ip .r3 .r1, .cmp .ip 0, .b .ne 0,
        .mov .al .r0 (.reg rm), .bx .al], false⟩ (.word ptr)
      (fun v => (some (op.eval v amount), .int (res v)))
      (ArithmeticBefore op amount ptr) (ArithmeticAfter rm) where
  before c o hroutine h := by
    obtain ⟨⟨h0, rfl⟩, hpc | ⟨hpc, ho⟩ | ⟨hpc, ho, h3⟩ | ⟨hpc, hip⟩ | ⟨hpc, hz⟩⟩ := h
    · refine .inr (.inl ⟨_, act_of hroutine hpc rfl, fun v => ⟨hroutine, .inl ?_⟩⟩)
      simp [ArithmeticBefore, h0, hpc]
    · refine .inl ⟨_, act_of hroutine hpc rfl, hroutine, ?_⟩
      simp [ArithmeticBefore, h0, hpc, ho, Operand.eval]
    · refine .inr (.inr ⟨_, _, _, ho, act_of hroutine hpc rfl, fun _ => hroutine, ?_, ?_, ?_⟩)
      · rw [h3]
      · simp [ArithmeticAfter, hpc, status, hip, hres _ h3]
      · simp [ArithmeticBefore, h0, hpc, status]
    · refine .inl ⟨_, act_of hroutine hpc rfl, hroutine, ?_⟩
      simp [ArithmeticBefore, h0, hpc, hip]
    · refine .inl ⟨_, act_of hroutine hpc rfl, ?_, ?_⟩
      · simp [Place.holds, hz, hroutine]
      · simp [ArithmeticBefore, h0, Place.holds, hz]
  after r c hroutine h := by
    obtain ⟨rfl, ⟨hpc, hip⟩ | ⟨hpc, hz⟩ | hpc⟩ | ⟨rfl, hpc⟩ := h
    · refine .inl ⟨_, act_of hroutine hpc rfl, hroutine, ?_⟩
      simp [ArithmeticAfter, hpc, hip]
    · refine .inl ⟨_, act_of hroutine hpc rfl, ?_, ?_⟩
      · simp [Place.holds, hz, hroutine]
      · simp [ArithmeticAfter, Place.holds, hz, hpc]
    · refine .inl ⟨_, act_of hroutine hpc rfl, hroutine, ?_⟩
      simp [ArithmeticAfter, Place.holds, hpc, Operand.eval]
    · right
      rw [act_of hroutine hpc rfl]
      simp [exec, Place.holds, Place.result, hroutine]

/-! ### Compare and swap -/

def CompareAndSwapBefore (old new ptr : Word) (c : Place) (o : Option Word) : Prop :=
  (c.regs .r0 = old ∧ c.regs .r1 = new ∧ c.regs .r2 = ptr) ∧
    (c.pc = 0 ∨ (c.pc = 1 ∧ o = some old ∧ c.regs .r3 = old) ∨
      (c.pc = 2 ∧ o = some old ∧ c.z = true) ∨ (c.pc = 3 ∧ o = some old ∧ c.z = true) ∨
      (c.pc = 4 ∧ o = some old) ∨ (c.pc = 5 ∧ c.regs .r3 = 1) ∨ (c.pc = 6 ∧ c.z = false))

def CompareAndSwapAfter (r : Result) (c : Place) : Prop :=
  (r = .int 0 ∧ ((c.pc = 1 ∧ c.regs .r3 ≠ c.regs .r0) ∨ (c.pc = 2 ∧ c.z = false) ∨
    (c.pc = 3 ∧ c.z = false ∧ c.regs .r0 = 0))) ∨
  (r = .int 1 ∧ ((c.pc = 5 ∧ c.regs .r3 = 0) ∨ (c.pc = 6 ∧ c.z = true) ∨ c.pc = 7)) ∨
    (r = .int (c.regs .r0) ∧ c.pc = 8)

theorem osAtomicCompareAndSwap32_knows (old new ptr : Word) :
    Knows osAtomicCompareAndSwap32 (.word ptr) (compareAndSwap old new)
      (CompareAndSwapBefore old new ptr) CompareAndSwapAfter where
  before c o hroutine h := by
    obtain ⟨⟨rfl, rfl, rfl⟩, hpc | ⟨hpc, ho, h3⟩ | ⟨hpc, ho, hz⟩ | ⟨hpc, ho, hz⟩ | ⟨hpc, ho⟩ |
      ⟨hpc, h3⟩ | ⟨hpc, hz⟩⟩ := h
    · refine .inr (.inl ⟨_, act_of hroutine hpc rfl, fun v => ⟨hroutine, ?_⟩⟩)
      by_cases hv : v = c.regs .r0
      · left
        simp [CompareAndSwapBefore, hpc, hv]
      · right
        simp [compareAndSwap, CompareAndSwapAfter, hpc, hv]
    · refine .inl ⟨_, act_of hroutine hpc rfl, hroutine, ?_⟩
      simp [CompareAndSwapBefore, hpc, ho, h3, Place.holds]
    · refine .inl ⟨_, act_of hroutine hpc rfl, ?_, ?_⟩
      · simp [Place.holds, hz, hroutine]
      · simp [CompareAndSwapBefore, hpc, ho, hz, Place.holds]
    · refine .inl ⟨c.next, ?_, hroutine, ?_⟩
      · rw [act_of hroutine hpc rfl]
        simp [exec, Place.holds, hz]
      · simp [CompareAndSwapBefore, hpc, ho]
    · refine .inr (.inr ⟨_, _, _, ho, act_of hroutine hpc rfl, fun _ => hroutine, ?_, ?_, ?_⟩)
      · simp [compareAndSwap]
      · simp [compareAndSwap, CompareAndSwapAfter, hpc, status]
      · simp [CompareAndSwapBefore, hpc, status]
    · refine .inl ⟨_, act_of hroutine hpc rfl, hroutine, ?_⟩
      simp [CompareAndSwapBefore, hpc, h3]
    · refine .inl ⟨_, act_of hroutine hpc rfl, ?_, ?_⟩
      · simp [Place.holds, hz, hroutine]
      · simp [CompareAndSwapBefore, Place.holds, hz]
  after r c hroutine h := by
    obtain ⟨rfl, ⟨hpc, h3⟩ | ⟨hpc, hz⟩ | ⟨hpc, hz, h0⟩⟩ | ⟨rfl, ⟨hpc, h3⟩ | ⟨hpc, hz⟩ | hpc⟩ |
      ⟨rfl, hpc⟩ := h
    · refine .inl ⟨_, act_of hroutine hpc rfl, hroutine, ?_⟩
      simp [CompareAndSwapAfter, hpc, h3, Place.holds]
    · refine .inl ⟨_, act_of hroutine hpc rfl, ?_, ?_⟩
      · simp [Place.holds, hz, hroutine]
      · simp [CompareAndSwapAfter, hpc, hz, Place.holds, Operand.eval]
    · right
      rw [act_of hroutine hpc rfl]
      simp [exec, Place.holds, hz, h0, Place.result, hroutine, osAtomicCompareAndSwap32]
    · refine .inl ⟨_, act_of hroutine hpc rfl, hroutine, ?_⟩
      simp [CompareAndSwapAfter, hpc, h3]
    · refine .inl ⟨_, act_of hroutine hpc rfl, ?_, ?_⟩
      · simp [Place.holds, hz, hroutine]
      · simp [CompareAndSwapAfter, Place.holds, hz, hpc]
    · refine .inl ⟨_, act_of hroutine hpc rfl, hroutine, ?_⟩
      simp [CompareAndSwapAfter, Place.holds, hpc, Operand.eval]
    · right
      rw [act_of hroutine hpc rfl]
      simp [exec, Place.holds, Place.result, hroutine, osAtomicCompareAndSwap32]

/-! ### Bits -/

/-- Up to the mask and the word of the bit, and from the loop on. -/
def BitopBefore (op : Op) (n base : Word) (c : Place) (o : Option Word) : Prop :=
  (c.regs .r0 = n ∧ c.regs .r1 = base ∧ (c.pc = 0 ∨ (c.pc = 1 ∧ c.regs .r3 = n >>> 5))) ∨
  (c.regs .r0 = n ∧ c.regs .r1 = bitWord n base ∧
    (c.pc = 2 ∨ (c.pc = 3 ∧ c.regs .r2 = n &&& 7) ∨
      (c.pc = 4 ∧ c.regs .r2 = n &&& 7 ∧ c.regs .r3 = 0x80) ∨
      (c.pc = 5 ∧ c.regs .r3 = (0x80 : Word) >>> (n &&& 7).toNat))) ∨
  (c.regs .r0 = n &&& 0x18 ∧ c.regs .r1 = bitWord n base ∧ c.pc = 6 ∧
    c.regs .r3 = (0x80 : Word) >>> (n &&& 7).toNat) ∨
  (c.regs .r0 = bitMask n ∧ c.regs .r1 = bitWord n base ∧
    (c.pc = 7 ∨ (c.pc = 8 ∧ o = some (c.regs .r2)) ∨
      (c.pc = 9 ∧ o = some (c.regs .r2) ∧ c.regs .r3 = op.eval (c.regs .r2) (bitMask n)) ∨
      (c.pc = 10 ∧ c.regs .ip = 1) ∨ (c.pc = 11 ∧ c.z = false)))

def BitopAfter (r : Result) (c : Place) : Prop :=
  (r = testBit (c.regs .r0) (c.regs .r2) ∧
    ((c.pc = 10 ∧ c.regs .ip = 0) ∨ (c.pc = 11 ∧ c.z = true) ∨ c.pc = 12)) ∨
  (r = .int (if c.regs .r0 = 0 then 0 else 1) ∧ c.pc = 13 ∧ c.z = decide (c.regs .r0 = 0)) ∨
    (r = .int (c.regs .r0) ∧ c.pc = 14)

theorem asr_eq_lsr (n : Nat) : (0x80 : Word).sshiftRight n = (0x80 : Word) >>> n := by
  rw [BitVec.sshiftRight_eq_of_msb_false (by decide)]

theorem atomicBitop_knows (op : Op) (n base : Word) :
    Knows (atomicBitop op) (.word (bitWord n base))
      (fun v => (some (op.eval v (bitMask n)), testBit (bitMask n) v))
      (BitopBefore op n base) BitopAfter where
  before c o hroutine h := by
    obtain ⟨rfl, rfl, hpc | ⟨hpc, h3⟩⟩ | ⟨rfl, h1, hpc | ⟨hpc, h2⟩ | ⟨hpc, h2, h3⟩ | ⟨hpc, h3⟩⟩ |
      ⟨h0, h1, hpc, h3⟩ | ⟨h0, h1, hpc | ⟨hpc, ho⟩ | ⟨hpc, ho, h3⟩ | ⟨hpc, hip⟩ | ⟨hpc, hz⟩⟩ := h
    -- The word and the mask.
    · refine .inl ⟨_, act_of hroutine hpc rfl, hroutine, .inl ?_⟩
      simp [hpc, Place.holds, Operand.eval]
    · refine .inl ⟨_, act_of hroutine hpc rfl, hroutine, .inr (.inl ?_)⟩
      simp [hpc, h3, Operand.eval, Op.eval, bitWord]
    · refine .inl ⟨_, act_of hroutine hpc rfl, hroutine, .inr (.inl ?_)⟩
      simp [hpc, h1, Operand.eval, Op.eval]
    · refine .inl ⟨_, act_of hroutine hpc rfl, hroutine, .inr (.inl ?_)⟩
      simp [hpc, h1, h2, Place.holds, Operand.eval]
    · refine .inl ⟨_, act_of hroutine hpc rfl, hroutine, .inr (.inl ?_)⟩
      simp only [Place.holds, Operand.eval, h3, h2, asr_eq_lsr]
      simp [hpc, h1]
    · refine .inl ⟨_, act_of hroutine hpc rfl, hroutine, .inr (.inr (.inl ?_))⟩
      simp [hpc, h1, h3, Operand.eval, Op.eval]
    · refine .inl ⟨_, act_of hroutine hpc rfl, hroutine, .inr (.inr (.inr ?_))⟩
      simp only [Place.holds, Operand.eval, h3, h0]
      simp [hpc, h1, bitMask]
    -- The loop.
    · refine .inr (.inl ⟨fun v => c.next.set .r2 v, ?_, fun v => ⟨hroutine, .inl ?_⟩⟩)
      · rw [act_of hroutine hpc rfl, exec, h1]
      · simp [BitopBefore, h0, h1, hpc]
    · refine .inl ⟨_, act_of hroutine hpc rfl, hroutine, .inr (.inr (.inr ?_))⟩
      simp [h0, h1, hpc, ho, Operand.eval]
    · refine .inr (.inr ⟨_, c.regs .r3, fun failed => c.next.set .ip (status failed), ho, ?_,
        fun _ => hroutine, ?_, ?_, ?_⟩)
      · rw [act_of hroutine hpc rfl, exec, h1]
      · rw [h3]
      · simp [BitopAfter, hpc, status, h0]
      · simp [BitopBefore, h0, h1, hpc, status]
    · refine .inl ⟨_, act_of hroutine hpc rfl, hroutine, .inr (.inr (.inr ?_))⟩
      simp [h0, h1, hpc, hip]
    · refine .inl ⟨_, act_of hroutine hpc rfl, ?_, .inr (.inr (.inr ?_))⟩
      · simp [Place.holds, hz, hroutine]
      · simp [h0, h1, Place.holds, hz]
  after r c hroutine h := by
    obtain ⟨rfl, ⟨hpc, hip⟩ | ⟨hpc, hz⟩ | hpc⟩ | ⟨rfl, hpc, hz⟩ | ⟨rfl, hpc⟩ := h
    · refine .inl ⟨_, act_of hroutine hpc rfl, hroutine, .inl ?_⟩
      simp [hpc, hip]
    · refine .inl ⟨_, act_of hroutine hpc rfl, ?_, .inl ?_⟩
      · simp [Place.holds, hz, hroutine]
      · simp [Place.holds, hz, hpc]
    · refine .inl ⟨_, act_of hroutine hpc rfl, hroutine, .inr (.inl ?_)⟩
      simp [testBit, hpc]
    · refine .inl ⟨_, act_of hroutine hpc rfl, ?_, .inr (.inr ?_)⟩
      · split <;> exact hroutine
      · by_cases h0 : c.regs .r0 = 0#32 <;> simp [Place.holds, Operand.eval, hz, h0, hpc]
    · right
      rw [act_of hroutine hpc rfl]
      simp [exec, Place.holds, Place.result, hroutine, atomicBitop]

/-! ### Double words -/

def Add64Before (low high ptr : Word) (c : Place) (o : Option (Word × Word)) : Prop :=
  (c.regs .r0 = low ∧ c.regs .r1 = high ∧ c.regs .r2 = ptr) ∧
    (c.pc = 0 ∨ (c.pc = 1 ∧ o = some (c.regs .r4, c.regs .r5)) ∨
      (c.pc = 2 ∧ o = some (c.regs .r4, c.regs .r5) ∧ c.regs .r8 = c.regs .r4 + low ∧
        c.carry = decide (2 ^ 32 ≤ (c.regs .r4).toNat + low.toNat)) ∨
      (c.pc = 3 ∧ ∃ v, o = some v ∧ (c.regs .r8, c.regs .r9) = dwordAdd v (low, high)) ∨
      (c.pc = 4 ∧ c.regs .r3 = 1) ∨ (c.pc = 5 ∧ c.z = false))

def Add64After (r : Result) (c : Place) : Prop :=
  (r = .int64 (c.regs .r8) (c.regs .r9) ∧
    ((c.pc = 4 ∧ c.regs .r3 = 0) ∨ (c.pc = 5 ∧ c.z = true) ∨ c.pc = 6)) ∨
  (r = .int64 (c.regs .r0) (c.regs .r9) ∧ c.pc = 7) ∨
    (r = .int64 (c.regs .r0) (c.regs .r1) ∧ c.pc = 8)

theorem append_toNat (high low : Word) :
    (high ++ low : BitVec 64).toNat = high.toNat * 2 ^ 32 + low.toNat := by
  rw [BitVec.toNat_append, ← Nat.shiftLeft_add_eq_or_of_lt low.isLt, Nat.shiftLeft_eq]

theorem dwordAdd_eq (x y : Word × Word) : dwordAdd x y =
    (x.1 + y.1, x.2 + y.2 + if 2 ^ 32 ≤ x.1.toNat + y.1.toNat then 1 else 0) := by
  have hx1 := x.1.isLt
  have hx2 := x.2.isLt
  have hy1 := y.1.isLt
  have hy2 := y.2.isLt
  unfold dwordAdd
  refine Prod.ext (BitVec.eq_of_toNat_eq ?_) (BitVec.eq_of_toNat_eq ?_)
  · simp only [BitVec.extractLsb'_toNat, BitVec.toNat_add, append_toNat, Nat.shiftRight_zero]
    omega
  · simp only [BitVec.extractLsb'_toNat, BitVec.toNat_add, append_toNat, Nat.shiftRight_eq_div_pow]
    split
    · rw [show (1 : Word).toNat = 1 from rfl]
      omega
    · rw [show (0 : Word).toNat = 0 from rfl]
      omega

theorem osAtomicAdd64_knows (low high ptr : Word) :
    Knows osAtomicAdd64 (.dword ptr)
      (fun v => (some (dwordAdd v (low, high)),
        .int64 (dwordAdd v (low, high)).1 (dwordAdd v (low, high)).2))
      (Add64Before low high ptr) Add64After where
  before c o hroutine h := by
    obtain ⟨⟨h0, h1, rfl⟩, hpc | ⟨hpc, ho⟩ | ⟨hpc, ho, h8, hcarry⟩ | ⟨hpc, v, ho, hsum⟩ |
      ⟨hpc, h3⟩ | ⟨hpc, hz⟩⟩ := h
    · refine .inr (.inl ⟨_, act_of hroutine hpc rfl, fun v => ⟨hroutine, .inl ?_⟩⟩)
      simp [Add64Before, h0, h1, hpc]
    · refine .inl ⟨_, act_of hroutine hpc rfl, hroutine, ?_⟩
      simp [Add64Before, h0, h1, hpc, ho]
    · refine .inl ⟨_, act_of hroutine hpc rfl, hroutine, ?_⟩
      simp [Add64Before, h0, h1, hpc, ho, h8, hcarry, dwordAdd_eq]
    · refine .inr (.inr ⟨v, _, _, ho, act_of hroutine hpc rfl, fun _ => hroutine, ?_, ?_, ?_⟩)
      · rw [hsum]
      · simp [Add64After, hpc, status, ← hsum]
      · simp [Add64Before, h0, h1, hpc, status]
    · refine .inl ⟨_, act_of hroutine hpc rfl, hroutine, ?_⟩
      simp [Add64Before, h0, h1, hpc, h3]
    · refine .inl ⟨_, act_of hroutine hpc rfl, ?_, ?_⟩
      · simp [Place.holds, hz, hroutine]
      · simp [Add64Before, h0, h1, Place.holds, hz]
  after r c hroutine h := by
    obtain ⟨rfl, ⟨hpc, h3⟩ | ⟨hpc, hz⟩ | hpc⟩ | ⟨rfl, hpc⟩ | ⟨rfl, hpc⟩ := h
    · refine .inl ⟨_, act_of hroutine hpc rfl, hroutine, ?_⟩
      simp [Add64After, hpc, h3]
    · refine .inl ⟨_, act_of hroutine hpc rfl, ?_, ?_⟩
      · simp [Place.holds, hz, hroutine]
      · simp [Add64After, Place.holds, hz, hpc]
    · refine .inl ⟨_, act_of hroutine hpc rfl, hroutine, ?_⟩
      simp [Add64After, Place.holds, hpc, Operand.eval]
    · refine .inl ⟨_, act_of hroutine hpc rfl, hroutine, ?_⟩
      simp [Add64After, Place.holds, hpc, Operand.eval]
    · right
      rw [act_of hroutine hpc rfl]
      simp [exec, Place.holds, Place.result, hroutine, osAtomicAdd64]

/-! ## All of them -/

def Fn.Before (regs : Regs) : (fn : Fn) → Place → Option (fn.loc regs).Val → Prop
  | .arithmetic op | .arithmeticOrig op => ArithmeticBefore op (regs .r0) (regs .r1)
  | .compareAndSwap32 => CompareAndSwapBefore (regs .r0) (regs .r1) (regs .r2)
  | .bitop op => BitopBefore op (regs .r0) (regs .r1)
  | .add64 => Add64Before (regs .r0) (regs .r1) (regs .r2)

def Fn.After : Fn → Result → Place → Prop
  | .arithmetic _ => ArithmeticAfter .r3
  | .arithmeticOrig _ => ArithmeticAfter .r2
  | .compareAndSwap32 => CompareAndSwapAfter
  | .bitop _ => BitopAfter
  | .add64 => Add64After

theorem Fn.knows (regs : Regs) (fn : Fn) :
    Knows fn.routine (fn.loc regs) (fn.op regs) (fn.Before regs) fn.After := by
  cases fn with
  | arithmetic op =>
    exact arithmetic_knows op _ _ (fun v => op.eval v (regs .r0)) (by decide) fun regs' h => h
  | arithmeticOrig op =>
    exact arithmetic_knows op _ _ (fun v => v) (by decide) fun regs' _ => rfl
  | compareAndSwap32 => exact osAtomicCompareAndSwap32_knows _ _ _
  | bitop op => exact atomicBitop_knows op _ _
  | add64 => exact osAtomicAdd64_knows _ _ _

theorem Fn.starts (q : Call) : q.fn.Before q.regs (entry q) none := by
  obtain ⟨fn, regs, z, carry⟩ := q
  cases fn <;> simp [Fn.Before, entry, ArithmeticBefore, CompareAndSwapBefore, BitopBefore,
    Add64Before]

def outline : Outline act entry operations where
  Before q c o := c.routine = q.fn.routine ∧ q.fn.Before q.regs c o
  After r c := ∃ fn : Fn, c.routine = fn.routine ∧ fn.After r c
  start q := ⟨rfl, Fn.starts q⟩
  before q c o h := by
    obtain ⟨c', hact, hroutine, hnext⟩ | ⟨k, hact, hk⟩ | ⟨v, w, k, ho, hact, hroutine, hop, hafter,
      hbefore⟩ := (q.fn.knows q.regs).before c o h.1 h.2
    · exact .inl ⟨c', hact, hroutine, hnext⟩
    · refine .inr (.inl ⟨k, hact, fun v => ?_⟩)
      obtain ⟨hroutine, hbefore | ⟨hnone, hafter⟩⟩ := hk v
      · exact .inl ⟨hroutine, hbefore⟩
      · exact .inr ⟨hnone, q.fn, hroutine, hafter⟩
    · exact .inr (.inr ⟨v, w, k, ho, hact, hop, ⟨q.fn, hroutine false, hafter⟩, hroutine true,
        hbefore⟩)
  after r c h := by
    obtain ⟨fn, hroutine, hafter⟩ := h
    obtain ⟨c', hact, hroutine', hnext⟩ | hret := (fn.knows c.regs).after r c hroutine hafter
    · exact .inl ⟨c', hact, fn, hroutine', hnext⟩
    · exact .inr hret

/-- **The routines are atomic.** Whatever any number of threads that call them, and anybody else
who stores, can be seen to do, could be seen as well if each call did its work in one step. -/
theorem routines_atomic {T : Type} [DecidableEq T] {m : Mem}
    {l : List (Event T Call Result Cell Cell.Val)}
    (h : Observes (Step cells act entry) (init T Cell Place m) l) :
    Observes (AtomicStep cells operations) (atomicInit T Call Result m) l :=
  outline.observes cells h

/-- A call of `OSAtomicAdd32` on the word at 0x100. -/
def addCall (amount : Word) : Call where
  fn := .arithmetic .add
  regs := fun rm => if rm = .r0 then amount else 0x100
  z := false
  carry := false

/-- The second thread adds while the first one is in its loop, whose first store fails. -/
def addTurns : List (Turn Bool Call) :=
  [.call false (addCall 3), .run false, .call true (addCall 5)] ++ List.replicate 7 (.run true) ++
    List.replicate 11 (.run false)

def addEvents : List (Event Bool Call Result Cell Cell.Val) :=
  [.call false (addCall 3), .call true (addCall 5), .ret true (.int 5), .ret false (.int 8)]

theorem addTurns_events :
    turnEvents cells act entry (init Bool Cell Place fun _ => 0) addTurns = some addEvents := by
  rfl

theorem routines_atomic_addTurns :
    Observes (AtomicStep cells operations) (atomicInit Bool Call Result fun _ => 0)
      addEvents :=
  routines_atomic (turnEvents_observes addTurns_events)

/-! ## Compare and swap of double words

The routine looks at the high word of the new value where it means to look at the outcome of the
store.
-/

/-- The start of a pass, with the old value, the new one and the pointer. -/
structure Passes (c : Place) (old new : Word × Word) (ptr : Word) : Prop where
  routine : c.routine = osAtomicCompareAndSwap64
  pc : c.pc = 0
  old : (c.regs .r0, c.regs .r1) = old
  new : (c.regs .r2, c.regs .r3) = new
  ptr : c.regs .ip = ptr

variable {old new : Word × Word} {ptr : Word}

theorem alone_go {c c' : Place} {m : Mem} {tag : Option Cell} (fuel : Nat)
    (h : act c = .go c') :
    alone cells act (fuel + 1) m tag c = alone cells act fuel m tag c' := by
  rw [alone, h]

theorem Passes.compare (h : Passes c old new ptr) (m : Mem) (tag : Option Cell) (fuel : Nat) :
    ∃ c', c'.routine = osAtomicCompareAndSwap64 ∧ c'.pc = 3 ∧
      c'.z = decide (getCell (.dword ptr) m = old) ∧ (c'.regs .r0, c'.regs .r1) = old ∧
      (c'.regs .r2, c'.regs .r3) = new ∧ c'.regs .ip = ptr ∧
      alone cells act (fuel + 3) m tag c = alone cells act fuel m (some (.dword ptr)) c' := by
  obtain ⟨hroutine, hpc, rfl, rfl, rfl⟩ := h
  let v : Word × Word := getCell (.dword (c.regs .ip)) m
  let c1 : Place := (c.next.set .r4 v.1).set .r5 v.2
  let c2 : Place := { c1.next with z := decide (c1.regs .r0 = c1.regs .r4) }
  let c3 : Place :=
    if c2.z then { c2.next with z := decide (c2.regs .r1 = c2.regs .r5) } else c2.next
  have h1 : act c = .loadEx (.dword (c.regs .ip)) fun v => (c.next.set .r4 v.1).set .r5 v.2 :=
    act_of hroutine hpc rfl
  have h2 : act c1 = .go c2 := act_of (c := c1) hroutine (by simp [c1, hpc] : c1.pc = 1) rfl
  have h3 : act c2 = .go c3 := act_of (c := c2) hroutine (by simp [c2, c1, hpc] : c2.pc = 2) rfl
  have hregs : c3.regs = c1.regs := by
    simp only [c3]
    split <;> rfl
  refine ⟨c3, ?_, ?_, ?_, ?_, ?_, ?_, ?_⟩
  · simp only [c3]
    split <;> exact hroutine
  · simp only [c3]
    split <;> simp [c2, c1, hpc]
  · have hz : c3.z = (decide (c.regs .r0 = v.1) && decide (c.regs .r1 = v.2)) := by
      by_cases hlow : c.regs .r0 = v.1 <;> simp [c3, c2, c1, hlow]
    rw [hz, ← Bool.decide_and]
    exact decide_eq_decide.mpr ⟨fun heq => Prod.ext heq.1.symm heq.2.symm, fun heq =>
      ⟨(congrArg Prod.fst heq).symm, (congrArg Prod.snd heq).symm⟩⟩
  · simp [hregs, c1]
  · simp [hregs, c1]
  · simp [hregs, c1]
  · rw [alone, h1]
    exact (alone_go _ h2).trans (alone_go _ h3)

theorem Passes.differs (h : Passes c old new ptr) {m : Mem} {tag : Option Cell}
    (hne : getCell (.dword ptr) m ≠ old) :
    alone cells act 6 m tag c = some (.int 0, m) := by
  obtain ⟨c3, hroutine, hpc, hz, -, -, -, hrun⟩ := h.compare m tag 3
  rw [hrun]
  have hz : c3.z = false := by simpa [hne] using hz
  let c4 : Place := c3.next.set .r0 0
  let c5 : Place := { c4 with pc := 9 }
  have h3 : act c3 = .go c4 := by
    rw [act_of hroutine hpc rfl]
    simp [exec, Place.holds, hz, Operand.eval, c4]
  have h4 : act c4 = .go c5 := by
    rw [act_of (c := c4) hroutine (by simp [c4, hpc] : c4.pc = 4) rfl]
    simp [exec, Place.holds, c4, hz, c5]
  have h5 : act c5 = .ret (.int 0) := by
    rw [act_of (c := c5) hroutine (rfl : c5.pc = 9) rfl]
    simp [exec, Place.holds, Place.result, c5, c4, hroutine, osAtomicCompareAndSwap64]
  rw [alone_go _ h3, alone_go _ h4, alone, h5]

theorem Passes.stores (h : Passes c old new ptr) (m : Mem) (tag : Option Cell)
    (heq : getCell (.dword ptr) m = old) (fuel : Nat) :
    ∃ c', c'.routine = osAtomicCompareAndSwap64 ∧ c'.pc = 7 ∧ c'.z = decide (new.2 = 0) ∧
      (c'.regs .r0, c'.regs .r1) = old ∧ (c'.regs .r2, c'.regs .r3) = new ∧ c'.regs .ip = ptr ∧
      alone cells act (fuel + 7) m tag c =
        alone cells act fuel (putCell (.dword ptr) new m) none c' := by
  obtain ⟨c3, hroutine, hpc, hz, hold, hnew, hptr, hrun⟩ :=
    h.compare m tag (fuel + 4)
  have hz : c3.z = true := by simpa [heq] using hz
  let c4 : Place := c3.next
  let c5 : Place := c4.next
  let c6 : Place := c5.next.set .r4 0
  let c7 : Place := { c6.next with z := decide (c6.regs .r3 = 0), carry := 0 ≤ c6.regs .r3 }
  have h3 : act c3 = .go c4 := by
    rw [act_of hroutine hpc rfl]
    simp [exec, Place.holds, hz, c4]
  have h4 : act c4 = .go c5 := by
    rw [act_of (c := c4) hroutine (by simp [c4, hpc] : c4.pc = 4) rfl]
    simp [exec, Place.holds, c4, hz, c5]
  have h5 : act c5 = .storeEx (.dword (c5.regs .ip)) (c5.regs .r2, c5.regs .r3)
      fun failed => c5.next.set .r4 (status failed) :=
    act_of (c := c5) hroutine (by simp [c5, c4, hpc] : c5.pc = 5) rfl
  have h6 : act c6 = .go c7 :=
    act_of (c := c6) hroutine (by simp [c6, c5, c4, hpc] : c6.pc = 6) rfl
  have hregs : c5.regs = c3.regs := rfl
  refine ⟨c7, hroutine, by simp [c7, c6, c5, c4, hpc], ?_, ?_, ?_, ?_, ?_⟩
  · rw [← hnew]
    simp [c7, c6, hregs]
  · simpa [c7, c6, hregs] using hold
  · simpa [c7, c6, hregs] using hnew
  · simpa [c7, c6, hregs] using hptr
  · rw [hrun, alone_go _ h3, alone_go _ h4, alone, h5]
    subst hptr hnew
    exact (if_pos rfl).trans (alone_go _ h6)

theorem getCell_putCell (a : Addr) (v : Word × Word) (m : Mem) :
    getCell (.dword a) (putCell (.dword a) v m) = v := by
  have hapart : Mem.Apart (a + 4) a := by
    rw [Mem.apart_iff]
    bv_omega
  simp only [getCell, putCell]
  rw [Mem.load_store_apart _ _ hapart, Mem.load_store_self, Mem.load_store_self]

theorem putCell_getCell (a : Addr) (m : Mem) :
    putCell (.dword a) (getCell (.dword a) m) m = m := by
  simp only [getCell, putCell]
  rw [Mem.store_load, Mem.store_load]

theorem Passes.again (h : Passes c old new ptr) (m : Mem) (tag : Option Cell)
    (heq : getCell (.dword ptr) m = old) (hhigh : new.2 ≠ 0) (fuel : Nat) :
    ∃ c', Passes c' old new ptr ∧ alone cells act (fuel + 8) m tag c =
        alone cells act fuel (putCell (.dword ptr) new m) none c' := by
  obtain ⟨c7, hroutine, hpc, hz, hold, hnew, hptr, hrun⟩ :=
    h.stores m tag heq (fuel + 1)
  have hz : c7.z = false := hz.trans (decide_eq_false hhigh)
  refine ⟨{ c7 with pc := 0 }, ⟨hroutine, rfl, hold, hnew, hptr⟩, ?_⟩
  rw [hrun]
  refine alone_go _ ?_
  rw [act_of hroutine hpc rfl]
  simp [exec, Place.holds, hz]

theorem Passes.swaps (h : Passes c old new ptr) {m : Mem} {tag : Option Cell}
    (heq : getCell (.dword ptr) m = old)
    (hhigh : new.2 = 0) :
    alone cells act 10 m tag c = some (.int 1, putCell (.dword ptr) new m) := by
  obtain ⟨c7, hroutine, hpc, hz, -, -, -, hrun⟩ := h.stores m tag heq 3
  have hz : c7.z = true := by simpa [hhigh] using hz
  let c8 : Place := c7.next
  let c9 : Place := c8.next.set .r0 1
  have h7 : act c7 = .go c8 := by
    rw [act_of hroutine hpc rfl]
    simp [exec, Place.holds, hz, c8]
  have h8 : act c8 = .go c9 := by
    rw [act_of (c := c8) hroutine (by simp [c8, hpc] : c8.pc = 8) rfl]
    simp [exec, Place.holds, Operand.eval, c9]
  have h9 : act c9 = .ret (.int 1) := by
    rw [act_of (c := c9) hroutine (by simp [c9, c8, hpc] : c9.pc = 9) rfl]
    simp [exec, Place.holds, Place.result, c9, c8, hroutine, osAtomicCompareAndSwap64]
  rw [hrun, alone_go _ h7, alone_go _ h8, alone, h9]

theorem Passes.forever (h : Passes c old old ptr) {m : Mem} {tag : Option Cell}
    (heq : getCell (.dword ptr) m = old)
    (hhigh : old.2 ≠ 0) (fuel : Nat) : alone cells act fuel m tag c = none := by
  induction fuel using Nat.strong_induction_on generalizing c tag with
  | _ fuel ih =>
    rcases Nat.lt_or_ge fuel 8 with hlt | hge
    · obtain ⟨c', -, hrun⟩ := h.again m tag heq hhigh 0
      cases hx : alone cells act fuel m tag c with
      | none => rfl
      | some x =>
        have hmore := alone_more hx (8 - fuel)
        rw [show fuel + (8 - fuel) = 0 + 8 by omega, hrun] at hmore
        simp [alone] at hmore
    · obtain ⟨c', hpasses, hrun⟩ := h.again m tag heq hhigh (fuel - 8)
      rw [show fuel = fuel - 8 + 8 by omega, hrun, ← heq, putCell_getCell]
      exact ih (fuel - 8) (by omega) hpasses

/-- **What `OSAtomicCompareAndSwap64` does.** A thread that nobody interferes with gets 0 and
leaves the memory as it is when the value differs, and gets 1 and stores when the high word of the
new value is 0. For any other new value it stores and gets 0, unless the new value is the old one:
then it never returns. -/
theorem compareAndSwap64_alone (h : Passes c old new ptr) (m : Mem) (tag : Option Cell) :
    (getCell (.dword ptr) m ≠ old → ∃ fuel, alone cells act fuel m tag c = some (.int 0, m)) ∧
    (getCell (.dword ptr) m = old → new.2 = 0 →
      ∃ fuel, alone cells act fuel m tag c = some (.int 1, putCell (.dword ptr) new m)) ∧
    (getCell (.dword ptr) m = old → new.2 ≠ 0 → new ≠ old →
      ∃ fuel, alone cells act fuel m tag c = some (.int 0, putCell (.dword ptr) new m)) ∧
    (getCell (.dword ptr) m = old → new.2 ≠ 0 → new = old →
      ∀ fuel, alone cells act fuel m tag c = none) := by
  refine ⟨fun hne => ⟨6, h.differs hne⟩, fun heq hhigh => ⟨10, h.swaps heq hhigh⟩,
    fun heq hhigh hne => ?_, ?_⟩
  · obtain ⟨c', hpasses, hrun⟩ := h.again m tag heq hhigh 6
    refine ⟨14, hrun.trans (hpasses.differs ?_)⟩
    rw [getCell_putCell]
    exact hne
  · rintro heq hhigh rfl
    exact h.forever heq hhigh

/-- The double word at 0x100 is 7, and is to become `2 ^ 32 + 8`. -/
def swapPlace : Place where
  routine := osAtomicCompareAndSwap64
  pc := 0
  regs := fun
    | .r0 => 7
    | .r1 => 0
    | .r2 => 8
    | .r3 => 1
    | _ => 0x100
  z := false
  carry := false

def swapMem : Mem := fun x => if x = 0x100 then 7 else 0

/-- It does, and the caller is told that it does not. -/
theorem compareAndSwap64_alone_swap :
    ∃ fuel, alone cells act fuel swapMem none swapPlace =
      some (.int 0, putCell (.dword 0x100) (8, 1) swapMem) :=
  have hpasses : Passes swapPlace (7, 0) (8, 1) 0x100 := ⟨rfl, rfl, rfl, rfl, rfl⟩
  (compareAndSwap64_alone hpasses swapMem none).2.2.1 (by decide) (by decide) (by decide)

/-! ## The bit -/

/-- What a routine does to the byte of the bit. -/
def Op.evalByte : Op → Byte → Byte → Byte
  | .orr, x, y => x ||| y
  | _, x, y => x &&& ~~~y

theorem inWord_offset {a x : Addr} (hx : Mem.InWord a x) :
    ∃ j < 4, x = a + BitVec.ofNat 32 j := by
  rcases Mem.eq_add_of_inWord hx with rfl | rfl | rfl | rfl
  · exact ⟨0, by omega, by simp⟩
  · exact ⟨1, by omega, rfl⟩
  · exact ⟨2, by omega, rfl⟩
  · exact ⟨3, by omega, rfl⟩

theorem store_byte (m : Mem) (a : Addr) (v : Word) {j : Nat} (hj : j < 4) :
    m.store a v (a + BitVec.ofNat 32 j) = v.extractLsb' (8 * j) 8 := by
  rw [Mem.store_at m a v j hj]
  refine BitVec.eq_of_toNat_eq ?_
  rw [BitVec.extractLsb'_toNat, Nat.shiftRight_eq_div_pow, Nat.pow_mul]
  rfl

theorem load_byte (m : Mem) (a : Addr) {j : Nat} (hj : j < 4) :
    (m.load a).extractLsb' (8 * j) 8 = m (a + BitVec.ofNat 32 j) := by
  rw [← store_byte m a (m.load a) hj, Mem.store_load]

theorem and_0x18 (n : Word) : (n &&& 0x18).toNat = n.toNat / 8 % 4 * 8 := by
  have hlow : (n &&& 0x1f).toNat = n.toNat % 32 := by
    rw [BitVec.toNat_and]
    exact Nat.and_two_pow_sub_one_eq_mod n.toNat 5
  have hhigh := Mem.and_not_mask (n &&& 0x1f) (k := 3) (by omega)
  rw [BitVec.and_assoc, show (0x1f : Word) &&& ~~~BitVec.ofNat 32 (2 ^ 3 - 1) = 0x18 by decide,
    hlow] at hhigh
  omega

theorem and_7 (n : Word) : (n &&& 7).toNat = n.toNat % 8 := by
  rw [BitVec.toNat_and]
  exact Nat.and_two_pow_sub_one_eq_mod n.toNat 3

theorem bitMask_byte (n : Word) {j : Nat} (hj : j < 4) :
    (bitMask n).extractLsb' (8 * j) 8 =
      if j = n.toNat / 8 % 4 then (0x80 : Byte) >>> (n.toNat % 8) else 0 := by
  have hall : ∀ k : Fin 8, ∀ i j : Fin 4,
      (((0x80 : Word) >>> k.val) <<< (i.val * 8)).extractLsb' (8 * j.val) 8 =
        if j = i then (0x80 : Byte) >>> k.val else 0 := by decide
  unfold bitMask
  rw [and_7, and_0x18]
  simpa [Fin.ext_iff] using hall ⟨n.toNat % 8, by omega⟩ ⟨n.toNat / 8 % 4, by omega⟩ ⟨j, hj⟩

theorem evalByte_zero {op : Op} (x : Byte) : op.evalByte x 0 = x := by
  have hones : x &&& 255#8 = x := BitVec.and_allOnes
  cases op <;> simp [Op.evalByte, hones]

theorem eval_byte {op : Op} (hop : op = .orr ∨ op = .bic) (v mask : Word) {j : Nat} (hj : j < 4) :
    (op.eval v mask).extractLsb' (8 * j) 8 =
      op.evalByte (v.extractLsb' (8 * j) 8) (mask.extractLsb' (8 * j) 8) := by
  rcases hop with rfl | rfl
  · exact BitVec.extractLsb'_or
  · have hnot : (~~~mask).extractLsb' (8 * j) 8 = ~~~mask.extractLsb' (8 * j) 8 := by
      ext i hi
      simp only [BitVec.getElem_extractLsb', BitVec.getElem_not, BitVec.getLsbD_not]
      simp
      omega
    show (v &&& ~~~mask).extractLsb' (8 * j) 8 = _
    rw [BitVec.extractLsb'_and, hnot]
    rfl

theorem bitWord_byte (n base : Word) :
    bitWord n base + BitVec.ofNat 32 (n.toNat / 8 % 4) = base + BitVec.ofNat 32 (n.toNat / 8) := by
  have hn := n.isLt
  unfold bitWord
  refine BitVec.eq_of_toNat_eq ?_
  simp only [BitVec.toNat_add, BitVec.toNat_shiftLeft, BitVec.toNat_ushiftRight,
    Nat.shiftRight_eq_div_pow, Nat.shiftLeft_eq, BitVec.toNat_ofNat]
  omega

/-- The byte that has the bit `n`, and the bit in it. -/
def bitByte (n base : Word) : Addr := base + BitVec.ofNat 32 (n.toNat / 8)

def bitOf (n : Word) : Byte := (0x80 : Byte) >>> (n.toNat % 8)

theorem bitWord_cases (n base : Word) {x : Addr} (hx : Mem.InWord (bitWord n base) x) :
    ∃ j < 4, x = bitWord n base + BitVec.ofNat 32 j ∧
      (x = bitByte n base ↔ j = n.toNat / 8 % 4) := by
  obtain ⟨j, hj, rfl⟩ := inWord_offset hx
  refine ⟨j, hj, rfl, ?_⟩
  have hi : n.toNat / 8 % 4 < 4 := Nat.mod_lt _ (by omega)
  rw [bitByte, ← bitWord_byte, BitVec.add_right_inj]
  constructor
  · intro heq
    have := congrArg BitVec.toNat heq
    rw [BitVec.toNat_ofNat, BitVec.toNat_ofNat] at this
    omega
  · rintro rfl
    rfl

theorem testBit_eq (n base : Word) (m : Mem) :
    testBit (bitMask n) (m.load (bitWord n base)) =
      .int (if m (bitByte n base) &&& bitOf n = 0 then 0 else 1) := by
  have hi : n.toNat / 8 % 4 < 4 := Nat.mod_lt _ (by omega)
  have hbyte : ∀ j < 4, (m.load (bitWord n base) &&& bitMask n).extractLsb' (8 * j) 8 =
      if j = n.toNat / 8 % 4 then m (bitByte n base) &&& bitOf n else 0 := by
    intro j hj
    rw [BitVec.extractLsb'_and, load_byte m _ hj, bitMask_byte n hj]
    split
    · rename_i heq
      rw [heq, bitWord_byte]
      rfl
    · simp
  have hzero : m.load (bitWord n base) &&& bitMask n = 0 ↔ m (bitByte n base) &&& bitOf n = 0 := by
    constructor
    · intro h0
      have := hbyte _ hi
      rw [h0, if_pos rfl] at this
      simpa using this.symm
    · intro h0
      rw [← Mem.load_store_self (fun _ => 0) 0 (m.load (bitWord n base) &&& bitMask n)]
      refine (Mem.load_congr fun x hx => ?_).trans (by decide : Mem.load (fun _ => 0) 0 = 0)
      obtain ⟨j, hj, rfl⟩ := inWord_offset hx
      rw [store_byte _ _ _ hj, hbyte j hj, h0, ite_self]
  simp only [testBit, hzero]

/-- **A bit of a bitmap.** `OSAtomicTestAndSet` and `OSAtomicTestAndClear` change the bit that they
are asked for, counted from the highest bit of the first byte, and no other bit of the memory, and
they return what it was. -/
theorem bitop_perform {q : Call} {op : Op} (hfn : q.fn = .bitop op) (hop : op = .orr ∨ op = .bic)
    (m : Mem) :
    operations.perform cells q m = Function.update m (bitByte (q.regs .r0) (q.regs .r1))
      (op.evalByte (m (bitByte (q.regs .r0) (q.regs .r1))) (bitOf (q.regs .r0))) ∧
    (operations.op q (getCell (operations.loc q) m)).2 =
      .int (if m (bitByte (q.regs .r0) (q.regs .r1)) &&& bitOf (q.regs .r0) = 0 then 0 else 1) := by
  obtain ⟨fn, regs, z, carry⟩ := q
  obtain rfl : fn = .bitop op := hfn
  refine ⟨?_, testBit_eq _ _ m⟩
  show m.store (bitWord (regs .r0) (regs .r1))
    (op.eval (m.load (bitWord (regs .r0) (regs .r1))) (bitMask (regs .r0))) = _
  funext x
  by_cases hx : Mem.InWord (bitWord (regs .r0) (regs .r1)) x
  · obtain ⟨j, hj, rfl, hbit⟩ := bitWord_cases _ _ hx
    rw [store_byte _ _ _ hj, eval_byte hop _ _ hj, load_byte m _ hj, bitMask_byte _ hj]
    by_cases hself : j = (regs .r0).toNat / 8 % 4
    · rw [if_pos hself, hbit.mpr hself, Function.update_self]
      rfl
    · rw [if_neg hself, Function.update_of_ne fun heq => hself (hbit.mp heq)]
      exact evalByte_zero _
  · rw [Mem.store_outside _ _ _ _ hx, Function.update_of_ne]
    rintro rfl
    refine hx ?_
    rw [bitByte, ← bitWord_byte]
    unfold Mem.InWord
    rw [BitVec.add_comm, BitVec.add_sub_cancel, BitVec.toNat_ofNat]
    omega

/-- A call of `OSAtomicTestAndSet` for the bit 9 from 0x100 on. -/
def setCall : Call where
  fn := .bitop .orr
  regs := fun rm => if rm = .r0 then 9 else 0x100
  z := false
  carry := false

theorem bitop_perform_set :
    operations.perform cells setCall swapMem = Function.update swapMem (bitByte 9 0x100)
      (Op.evalByte .orr (swapMem (bitByte 9 0x100)) (bitOf 9)) ∧
    (operations.op setCall (getCell (operations.loc setCall) swapMem)).2 =
      .int (if swapMem (bitByte 9 0x100) &&& bitOf 9 = 0 then 0 else 1) :=
  bitop_perform (rfl : setCall.fn = .bitop .orr) (.inl rfl) swapMem

example : bitByte 9 0x100 = 0x101 ∧ bitOf 9 = 0x40 := by decide

end LibSystem.Core.OSAtomic
