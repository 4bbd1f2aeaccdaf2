import LibSystem.Memory
import LibSystem.Run
import Mathlib.Data.List.FinRange

/-!
# Thread-specific data

The keys of `OSThread.c`. Every thread has its own list of entries, which starts with any contents:
`pthread_create` takes it from `malloc`.
-/

namespace LibSystem.Core.ThreadKeys

/-- `OS_TLS_COUNT`. -/
abbrev Slot := Fin 100

/-- `OS_TLS_UK_START`. -/
def userKeyStart : Nat := 10

/-- `OSTlsEntry`. -/
structure Entry where
  key : Word
  val : Word
  destr : Word
  allocated : Word

abbrev Block := Slot → Entry

def keyOf (i : Slot) : Word := BitVec.ofNat 32 i

/-- The loop has no `break`: the last match stays. -/
def lookup (list : Block) (key : Word) : Option Slot :=
  (List.finRange 100).foldl (fun entry i => if (list i).key = key then some i else entry) none

def freeSlot (list : Block) : Option Slot :=
  (List.finRange 100).find? fun i => userKeyStart ≤ i ∧ (list i).allocated = 0

/-- What both functions write to the entry they choose. -/
def allocate (list : Block) (i : Slot) (destr : Word) : Block :=
  Function.update list i ⟨keyOf i, 0, destr, 1⟩

/-- The key, and the list afterwards. Without a free slot the process is halted. -/
def pthreadKeyCreate (list : Block) (destr : Word) : Option (Word × Block) :=
  (freeSlot list).map fun i => (keyOf i, allocate list i destr)

def pthreadKeyInitNp (list : Block) (key dest : Word) : Option Block :=
  ((List.finRange 100).find? fun i => key = keyOf i).map fun i => allocate list i dest

def pthreadGetspecific (list : Block) (key : Word) : Word :=
  (lookup list key).elim 0 fun i => (list i).val

def pthreadSetspecific (list : Block) (key ptr : Word) : Block :=
  (lookup list key).elim list fun i => Function.update list i { list i with val := ptr }

/-! ## Threads -/

inductive Call where
  | keyCreate (destr : Word)
  | keyInitNp (key dest : Word)
  | setspecific (key ptr : Word)
  | getspecific (key : Word)

/-- The lists, and what has happened: the keys that `pthread_key_create` has returned, all keys that
were created, and what each thread has set since. -/
structure State (T : Type) where
  blocks : T → Block
  returned : List Word
  created : Word → Prop
  latest : T → Word → Word

def init {T : Type} (blocks : T → Block) : State T := ⟨blocks, [], fun _ => False, fun _ _ => 0⟩

variable {T : Type} [DecidableEq T]

/-- The thread's list changes, and the key starts as null in all threads. -/
def State.create (s : State T) (t : T) (block : Block) (key : Word) : State T :=
  { s with
    blocks := Function.update s.blocks t block
    created := fun k => k = key ∨ s.created k
    latest := fun u => Function.update (s.latest u) key 0 }

/-- A call of one thread. It touches no list but the thread's own. -/
def State.call (s : State T) (t : T) : Call → Option (State T)
  | .keyCreate destr =>
    (pthreadKeyCreate (s.blocks t) destr).map fun r =>
      { s.create t r.2 r.1 with returned := s.returned ++ [r.1] }
  | .keyInitNp key dest =>
    (pthreadKeyInitNp (s.blocks t) key dest).map fun block => s.create t block key
  | .setspecific key ptr =>
    some { s with
      blocks := Function.update s.blocks t (pthreadSetspecific (s.blocks t) key ptr)
      latest := Function.update s.latest t (Function.update (s.latest t) key ptr) }
  | .getspecific _ => some s

def Step (s : State T) (a : T × Call) (s' : State T) : Prop := s.call a.1 a.2 = some s'

/-- What thread-specific data is. -/
structure Right (s : State T) : Prop where
  distinct : s.returned.Nodup
  values : ∀ t key, s.created key → pthreadGetspecific (s.blocks t) key = s.latest t key

/-! ## When a call leaves it right -/

/-- The last entry with this key, among some slots, holds `val`. Without one `val` is null. -/
def Shows (list : Block) (slots : Slot → Prop) (key val : Word) : Prop :=
  (∃ i, slots i ∧ (list i).key = key ∧ (list i).val = val ∧
    ∀ j, slots j → i < j → (list j).key ≠ key) ∨
  (val = 0 ∧ ∀ i, slots i → (list i).key ≠ key)

/-- The key of the slot reads as null everywhere, and the entry that was there before was not the
last one of another key, unless the one before it shows the same. -/
structure Allocates (s : State T) (t : T) (i : Slot) : Prop where
  own : Shows (s.blocks t) (fun j => i < j) (keyOf i) 0
  others : ∀ u, u ≠ t → Shows (s.blocks u) (fun _ => True) (keyOf i) 0
  taken : s.created (s.blocks t i).key → (s.blocks t i).key ≠ keyOf i →
    (∀ j, i < j → (s.blocks t j).key ≠ (s.blocks t i).key) →
    Shows (s.blocks t) (fun j => j < i) (s.blocks t i).key (s.blocks t i).val

def Guard (s : State T) (a : T × Call) : Prop :=
  match a.2 with
  | .keyCreate _ =>
    ∀ i, freeSlot (s.blocks a.1) = some i → keyOf i ∉ s.returned ∧ Allocates s a.1 i
  | .keyInitNp key _ => ∀ i, keyOf i = key → Allocates s a.1 i
  | .setspecific key ptr => s.created key → ptr = 0 ∨ ∃ i, (s.blocks a.1 i).key = key
  | .getspecific _ => True

/-! ## Lists of entries -/

theorem foldl_last {l : List Slot} (hl : l.Pairwise (· < ·)) (p : Slot → Prop) [DecidablePred p] :
    (∀ i, l.foldl (fun entry i => if p i then some i else entry) none = some i ↔
      i ∈ l ∧ p i ∧ ∀ j ∈ l, i < j → ¬ p j) ∧
    (l.foldl (fun entry i => if p i then some i else entry) none = none ↔ ∀ i ∈ l, ¬ p i) := by
  induction l using List.reverseRecOn with
  | nil => simp
  | append_singleton l a ih =>
    obtain ⟨hl, -, hbelow⟩ := List.pairwise_append.mp hl
    have hlt : ∀ i ∈ l, i < a := fun i hi => hbelow i hi a (List.mem_singleton.mpr rfl)
    rw [List.foldl_append, List.foldl_cons, List.foldl_nil]
    split
    · rename_i ha
      constructor
      · intro i
        constructor
        · intro heq
          obtain rfl := Option.some.inj heq
          refine ⟨by simp, ha, fun j hj hlast => ?_⟩
          rcases List.mem_append.mp hj with hj | hj
          · exact absurd hlast (Fin.not_lt.mpr (Fin.le_of_lt (hlt j hj)))
          · rw [List.mem_singleton.mp hj] at hlast
            exact absurd hlast (Fin.lt_irrefl a)
        · rintro ⟨hi, -, hlast⟩
          rcases List.mem_append.mp hi with hi | hi
          · exact absurd ha (hlast a (by simp) (hlt i hi))
          · rw [List.mem_singleton.mp hi]
      · simp [ha]
    · rename_i ha
      constructor
      · intro i
        rw [(ih hl).1 i]
        simp only [List.mem_append, List.mem_singleton, or_imp, forall_and, forall_eq]
        constructor
        · rintro ⟨hi, hp, hlast⟩
          exact ⟨.inl hi, hp, hlast, fun _ => ha⟩
        · rintro ⟨hi | rfl, hp, hlast, -⟩
          · exact ⟨hi, hp, hlast⟩
          · exact absurd hp ha
      · rw [(ih hl).2]
        simp [ha, or_imp, forall_and]

theorem lookup_eq_some {list : Block} {key : Word} {i : Slot} :
    lookup list key = some i ↔ (list i).key = key ∧ ∀ j, i < j → (list j).key ≠ key := by
  have hlast := (foldl_last (List.pairwise_lt_finRange 100) fun i => (list i).key = key).1 i
  simpa [lookup] using hlast

theorem lookup_eq_none {list : Block} {key : Word} :
    lookup list key = none ↔ ∀ i, (list i).key ≠ key := by
  have hnone := (foldl_last (List.pairwise_lt_finRange 100) fun i => (list i).key = key).2
  simpa [lookup] using hnone

theorem keyOf_injective {i j : Slot} (h : keyOf i = keyOf j) : i = j := by
  have hi := i.isLt
  have hj := j.isLt
  unfold keyOf at h
  apply Fin.ext
  bv_omega

section

variable {list : Block} {key val destr : Word} {i : Slot}

theorem getspecific_iff :
    pthreadGetspecific list key = val ↔ Shows list (fun _ => True) key val := by
  unfold pthreadGetspecific Shows
  cases h : lookup list key with
  | none =>
    have hnone := lookup_eq_none.mp h
    constructor
    · rintro rfl
      exact .inr ⟨rfl, fun i _ => hnone i⟩
    · rintro (⟨i, -, hkey, -⟩ | ⟨rfl, -⟩)
      · exact absurd hkey (hnone i)
      · rfl
  | some i =>
    obtain ⟨hkey, hlast⟩ := lookup_eq_some.mp h
    constructor
    · rintro rfl
      exact .inl ⟨i, trivial, hkey, rfl, fun j _ => hlast j⟩
    · rintro (⟨j, -, hkey', rfl, hlast'⟩ | ⟨-, hnone⟩)
      · have hsome := lookup_eq_some.mpr ⟨hkey', fun k => hlast' k trivial⟩
        rw [Option.some.inj (h.symm.trans hsome)]
        rfl
      · exact absurd hkey (hnone i trivial)

theorem Shows.mono {slots slots' : Slot → Prop} (h : Shows list slots key val)
    (hall : ∀ j, (list j).key = key → (slots j ↔ slots' j)) : Shows list slots' key val := by
  rcases h with ⟨j, hj, hkey, hval, hlast⟩ | ⟨hval, hnone⟩
  · refine .inl ⟨j, (hall j hkey).mp hj, hkey, hval, fun k hk hlt hkey' => ?_⟩
    exact hlast k ((hall k hkey').mpr hk) hlt hkey'
  · exact .inr ⟨hval, fun j hj hkey => hnone j ((hall j hkey).mpr hj) hkey⟩

theorem Shows.unique {slots : Slot → Prop} {val' : Word} (h : Shows list slots key val)
    (h' : Shows list slots key val') : val = val' := by
  rcases h with ⟨j, hj, hkey, rfl, hlast⟩ | ⟨rfl, hnone⟩
  · rcases h' with ⟨k, hk, hkey', rfl, hlast'⟩ | ⟨-, hnone⟩
    · rcases lt_trichotomy j k with hlt | rfl | hgt
      · exact absurd hkey' (hlast k hk hlt)
      · rfl
      · exact absurd hkey (hlast' j hj hgt)
    · exact absurd hkey (hnone j hj)
  · rcases h' with ⟨k, hk, hkey', -, -⟩ | ⟨rfl, -⟩
    · exact absurd hkey' (hnone k hk)
    · rfl

theorem Shows.congr {list' : Block} {slots : Slot → Prop} (h : Shows list slots key val)
    (hkey : ∀ j, slots j → (list' j).key = (list j).key)
    (hval : ∀ j, slots j → (list j).key = key → (list' j).val = (list j).val) :
    Shows list' slots key val := by
  rcases h with ⟨j, hj, hj', rfl, hlast⟩ | ⟨rfl, hnone⟩
  · refine .inl ⟨j, hj, (hkey j hj).trans hj', hval j hj hj', fun k hk hlt => ?_⟩
    rw [hkey k hk]
    exact hlast k hk hlt
  · refine .inr ⟨rfl, fun j hj => ?_⟩
    rw [hkey j hj]
    exact hnone j hj

/-! ## Allocating a slot -/

theorem allocate_same (list : Block) (i : Slot) (destr : Word) :
    allocate list i destr i = ⟨keyOf i, 0, destr, 1⟩ := Function.update_self _ _ _

theorem allocate_other {j : Slot} (h : j ≠ i) : allocate list i destr j = list j :=
  Function.update_of_ne h _ _

theorem shows_own_iff : Shows (allocate list i destr) (fun _ => True) (keyOf i) 0 ↔
    Shows list (fun j => i < j) (keyOf i) 0 := by
  have hbehind : ∀ j, i < j → allocate list i destr j = list j :=
    fun j hj => allocate_other (ne_of_gt hj)
  have hkey : (allocate list i destr i).key = keyOf i := by rw [allocate_same]
  have hval : (allocate list i destr i).val = 0 := by rw [allocate_same]
  constructor
  · rintro (⟨j, -, hj, hj', hlast⟩ | ⟨-, hnone⟩)
    · rcases lt_trichotomy i j with hlt | rfl | hgt
      · rw [hbehind j hlt] at hj hj'
        refine .inl ⟨j, hlt, hj, hj', fun k hk hjk => ?_⟩
        rw [← hbehind k hk]
        exact hlast k trivial hjk
      · refine .inr ⟨rfl, fun k hk => ?_⟩
        rw [← hbehind k hk]
        exact hlast k trivial hk
      · exact absurd hkey (hlast i trivial hgt)
    · exact absurd hkey (hnone i trivial)
  · rintro (⟨j, hlt, hj, hj', hlast⟩ | ⟨-, hnone⟩)
    · rw [← hbehind j hlt] at hj hj'
      refine .inl ⟨j, trivial, hj, hj', fun k _ hjk => ?_⟩
      rw [hbehind k (hlt.trans hjk)]
      exact hlast k (hlt.trans hjk) hjk
    · refine .inl ⟨i, trivial, hkey, hval, fun k _ hk => ?_⟩
      rw [hbehind k hk]
      exact hnone k hk

theorem shows_other_iff (hkey : key ≠ keyOf i) :
    Shows (allocate list i destr) (fun _ => True) key val ↔
      Shows list (fun j => j ≠ i) key val := by
  have hslot : (allocate list i destr i).key ≠ key := by
    rw [allocate_same]
    exact hkey.symm
  constructor
  · intro h
    have hrest : Shows (allocate list i destr) (fun j => j ≠ i) key val := by
      refine h.mono fun j hj => iff_of_true trivial ?_
      rintro rfl
      exact hslot hj
    exact hrest.congr (fun j hj => by rw [allocate_other hj])
      fun j hj _ => by rw [allocate_other hj]
  · intro h
    have hrest : Shows (allocate list i destr) (fun j => j ≠ i) key val :=
      h.congr (fun j hj => by rw [allocate_other hj]) fun j hj _ => by rw [allocate_other hj]
    refine hrest.mono fun j hj => iff_of_true ?_ trivial
    rintro rfl
    exact hslot hj

theorem shows_without_iff (h : Shows list (fun _ => True) key val) :
    Shows list (fun j => j ≠ i) key val ↔
      ((list i).key = key → (∀ j, i < j → (list j).key ≠ key) →
        Shows list (fun j => j < i) key (list i).val) := by
  constructor
  · intro hrest hkey hlast
    have hval : (list i).val = val := by
      have hown : Shows list (fun _ => True) key (list i).val :=
        .inl ⟨i, trivial, hkey, rfl, fun j _ => hlast j⟩
      exact hown.unique h
    rw [hval]
    refine hrest.mono fun j hj => ⟨fun hne => ?_, ne_of_lt⟩
    exact lt_of_le_of_ne (not_lt.mp fun hlt => hlast j hlt hj) hne
  · intro hbefore
    rcases h with ⟨j, -, hkey, hval, hlast⟩ | ⟨hval, hnone⟩
    · rcases Decidable.em (j = i) with rfl | hne
      · have hrest := hbefore hkey fun k => hlast k trivial
        rw [hval] at hrest
        refine hrest.mono fun k hk => ⟨ne_of_lt, fun hne => ?_⟩
        exact lt_of_le_of_ne (not_lt.mp fun hlt => hlast k trivial hlt hk) hne
      · exact .inl ⟨j, hne, hkey, hval, fun k _ => hlast k trivial⟩
    · exact .inr ⟨hval, fun j _ => hnone j trivial⟩

/-! ## Setting a value -/

theorem setspecific_key (list : Block) (key ptr : Word) (j : Slot) :
    (pthreadSetspecific list key ptr j).key = (list j).key := by
  unfold pthreadSetspecific
  cases lookup list key with
  | none => rfl
  | some i =>
    rcases Decidable.em (j = i) with rfl | hne
    · simp
    · simp [hne]

theorem shows_set_iff (ptr : Word) :
    Shows (pthreadSetspecific list key ptr) (fun _ => True) key ptr ↔
      ptr = 0 ∨ ∃ j, (list j).key = key := by
  cases h : lookup list key with
  | none =>
    have hnone := lookup_eq_none.mp h
    have hlist : pthreadSetspecific list key ptr = list := by simp [pthreadSetspecific, h]
    rw [hlist]
    constructor
    · rintro (⟨j, -, hkey, -⟩ | ⟨hptr, -⟩)
      · exact .inr ⟨j, hkey⟩
      · exact .inl hptr
    · rintro (hptr | ⟨j, hkey⟩)
      · exact .inr ⟨hptr, fun j _ => hnone j⟩
      · exact absurd hkey (hnone j)
  | some i =>
    obtain ⟨hkey, hlast⟩ := lookup_eq_some.mp h
    refine iff_of_true (.inl ⟨i, trivial, ?_, ?_, fun j _ hj => ?_⟩) (.inr ⟨i, hkey⟩)
    · rw [setspecific_key, hkey]
    · simp [pthreadSetspecific, h]
    · rw [setspecific_key]
      exact hlast j hj

theorem shows_set_other {key' : Word} (ptr : Word) (hne : key' ≠ key)
    (h : Shows list (fun _ => True) key' val) :
    Shows (pthreadSetspecific list key ptr) (fun _ => True) key' val := by
  refine h.congr (fun j _ => setspecific_key list key ptr j) fun j _ hj => ?_
  unfold pthreadSetspecific
  cases hlookup : lookup list key with
  | none => rfl
  | some i =>
    obtain ⟨hkey, -⟩ := lookup_eq_some.mp hlookup
    have hji : j ≠ i := by
      rintro rfl
      exact hne (hj.symm.trans hkey)
    simp [hji]

end

/-! ## Runs -/

section

variable {s s' : State T} {t : T} {i : Slot}

theorem create_values_iff (h : Right s) (t : T) (i : Slot) (destr : Word) :
    (∀ u key, (s.create t (allocate (s.blocks t) i destr) (keyOf i)).created key →
      pthreadGetspecific ((s.create t (allocate (s.blocks t) i destr) (keyOf i)).blocks u) key =
        (s.create t (allocate (s.blocks t) i destr) (keyOf i)).latest u key) ↔ Allocates s t i := by
  have hold : ∀ u key, s.created key →
      Shows (s.blocks u) (fun _ => True) key (s.latest u key) :=
    fun u key hkey => getspecific_iff.mp (h.values u key hkey)
  simp only [State.create, getspecific_iff]
  constructor
  · intro hnew
    refine ⟨?_, fun u hu => ?_, fun hcreated hne hlast => ?_⟩
    · have hown := hnew t (keyOf i) (.inl rfl)
      rwa [Function.update_self, Function.update_self, shows_own_iff] at hown
    · have hother := hnew u (keyOf i) (.inl rfl)
      rwa [Function.update_of_ne hu, Function.update_self] at hother
    · have hslot := hnew t (s.blocks t i).key (.inr hcreated)
      rw [Function.update_self, Function.update_of_ne hne, shows_other_iff hne,
        shows_without_iff (hold t _ hcreated)] at hslot
      exact hslot rfl hlast
  · intro halloc u key hcreated
    rcases Decidable.em (key = keyOf i) with rfl | hne
    · rw [Function.update_self]
      rcases Decidable.em (u = t) with rfl | hu
      · rw [Function.update_self, shows_own_iff]
        exact halloc.own
      · rw [Function.update_of_ne hu]
        exact halloc.others u hu
    · have hcreated := hcreated.resolve_left hne
      rw [Function.update_of_ne hne]
      rcases Decidable.em (u = t) with rfl | hu
      · rw [Function.update_self, shows_other_iff hne, shows_without_iff (hold u key hcreated)]
        rintro rfl hlast
        exact halloc.taken hcreated hne hlast
      · rw [Function.update_of_ne hu]
        exact hold u key hcreated

theorem set_values_iff (h : Right s) (t : T) (key ptr : Word) :
    (∀ u k, s.created k →
      pthreadGetspecific
        (Function.update s.blocks t (pthreadSetspecific (s.blocks t) key ptr) u) k =
        Function.update s.latest t (Function.update (s.latest t) key ptr) u k) ↔
      (s.created key → ptr = 0 ∨ ∃ j, (s.blocks t j).key = key) := by
  simp only [getspecific_iff]
  constructor
  · intro hnew hcreated
    have hset := hnew t key hcreated
    rwa [Function.update_self, Function.update_self, Function.update_self, shows_set_iff] at hset
  · intro hguard u k hcreated
    rcases Decidable.em (u = t) with rfl | hu
    · rw [Function.update_self, Function.update_self]
      rcases Decidable.em (k = key) with rfl | hne
      · rw [Function.update_self, shows_set_iff]
        exact hguard hcreated
      · rw [Function.update_of_ne hne]
        exact shows_set_other ptr hne (getspecific_iff.mp (h.values u k hcreated))
    · rw [Function.update_of_ne hu, Function.update_of_ne hu]
      exact getspecific_iff.mp (h.values u k hcreated)

theorem Right.step_iff {a : T × Call} (h : Right s) (hstep : Step s a s') :
    Right s' ↔ Guard s a := by
  obtain ⟨t, call⟩ := a
  cases call with
  | keyCreate destr =>
    obtain ⟨r, hr, rfl⟩ := Option.map_eq_some_iff.mp hstep
    obtain ⟨i, hfree, rfl⟩ := Option.map_eq_some_iff.mp hr
    have hvalues := create_values_iff h t i destr
    constructor
    · intro hright j hj
      obtain rfl := Option.some.inj (hfree.symm.trans hj)
      refine ⟨fun hmem => ?_, hvalues.mp hright.values⟩
      exact List.disjoint_of_nodup_append hright.distinct hmem (List.mem_singleton.mpr rfl)
    · intro hguard
      obtain ⟨hmem, halloc⟩ := hguard i hfree
      refine ⟨List.nodup_append.mpr ⟨h.distinct, List.nodup_singleton _, fun k hk k' hk' => ?_⟩,
        hvalues.mpr halloc⟩
      rw [List.mem_singleton.mp hk']
      rintro rfl
      exact hmem hk
  | keyInitNp key dest =>
    obtain ⟨block, hblock, rfl⟩ := Option.map_eq_some_iff.mp hstep
    obtain ⟨i, hfind, rfl⟩ := Option.map_eq_some_iff.mp hblock
    obtain rfl : key = keyOf i := by simpa using List.find?_some hfind
    have hvalues := create_values_iff h t i dest
    constructor
    · intro hright j hj
      obtain rfl := keyOf_injective hj
      exact hvalues.mp hright.values
    · exact fun hguard => ⟨h.distinct, hvalues.mpr (hguard i rfl)⟩
  | setspecific key ptr =>
    obtain rfl := Option.some.inj hstep
    exact ⟨fun hright => (set_values_iff h t key ptr).mp hright.values,
      fun hguard => ⟨h.distinct, (set_values_iff h t key ptr).mpr hguard⟩⟩
  | getspecific key =>
    obtain rfl := Option.some.inj hstep
    exact iff_of_true h trivial

end

/-- **Thread-specific data is right exactly as long as all calls meet the guard.** In runs whose
calls all do it stays right, and the first call that does not leaves it wrong. -/
theorem right_iff_guarded (blocks : T → Block) :
    (∀ s, Run Step Guard (init blocks) s → Right s) ∧
    ∀ s a s', Run Step Guard (init blocks) s → Step s a s' → ¬ Guard s a → ¬ Right s' := by
  have hrun : ∀ s, Run Step Guard (init blocks) s → Right s := fun s hrun =>
    hrun.invariant ⟨List.nodup_nil, fun t key hcreated => hcreated.elim⟩
      fun a t b hright hguard hstep => (hright.step_iff hstep).mpr hguard
  exact ⟨hrun, fun s a s' h hstep => mt ((hrun s h).step_iff hstep).mp⟩

/-- The list of the main thread starts with zeros. -/
def zeroBlock : Block := fun _ => ⟨0, 0, 0, 0⟩

theorem freeSlot_zeroBlock : freeSlot zeroBlock = some 10 := by decide

/-- The state after a thread has created its first key, in the slot `i`. -/
def oneKey (t : Fin 2) (i : Slot) : State (Fin 2) :=
  { (init fun _ => zeroBlock).create t (allocate zeroBlock i 0) (keyOf i) with
    returned := [keyOf i] }

theorem step_oneKey : Step (init fun _ => zeroBlock) ((0 : Fin 2), .keyCreate 0) (oneKey 0 10) := by
  simp only [Step, State.call, init, pthreadKeyCreate, freeSlot_zeroBlock, Option.map_some]
  rfl

theorem guard_oneKey : Guard (init fun _ => zeroBlock) ((0 : Fin 2), .keyCreate 0) := by
  intro i hi
  obtain rfl := Option.some.inj (freeSlot_zeroBlock.symm.trans hi)
  have hnone : ∀ slots : Slot → Prop, Shows zeroBlock slots (keyOf 10) 0 :=
    fun slots => .inr ⟨rfl, fun j _ => by simp [zeroBlock, keyOf]⟩
  exact ⟨by simp [init], hnone _, fun u _ => hnone _, fun hcreated => hcreated.elim⟩

/-- It sets a value, and reads it. -/
theorem right_oneKey : ∃ s : State (Fin 2), Run Step Guard (init fun _ => zeroBlock) s ∧
    s.created 10 ∧ pthreadGetspecific (s.blocks 0) 10 = 5 := by
  have hset : Step (oneKey 0 10) (0, .setspecific 10 5) _ := rfl
  have hguard : Guard (oneKey 0 10) ((0 : Fin 2), .setspecific 10 5) :=
    fun _ => .inr ⟨10, by simp [oneKey, State.create, allocate, keyOf]⟩
  have hrun := (Run.tail _ .refl guard_oneKey step_oneKey).tail _ hguard hset
  have hcreated : (oneKey 0 10).created 10 := .inl rfl
  have hright := (right_iff_guarded fun _ => zeroBlock).1 _ hrun
  refine ⟨_, hrun, hcreated, (hright.values 0 10 hcreated).trans ?_⟩
  simp

/-- Both threads create a key. -/
theorem keys_not_distinct :
    ∃ s : State (Fin 2), Reaches Step (init fun _ => zeroBlock) s ∧ ¬ Right s := by
  have hsecond : Step (oneKey 0 10) (1, .keyCreate 0)
      { (oneKey 0 10).create 1 (allocate zeroBlock 10 0) 10 with returned := [10, 10] } := by
    have hblock : (oneKey 0 10).blocks 1 = zeroBlock := rfl
    simp only [Step, State.call, pthreadKeyCreate, hblock, freeSlot_zeroBlock, Option.map_some]
    rfl
  refine ⟨_, .tail _ (Reaches.single step_oneKey) trivial hsecond, fun hright => ?_⟩
  have hdistinct := hright.distinct
  simp at hdistinct

end LibSystem.Core.ThreadKeys
