import LibSystem.Lnk.ProgramVars

/-!
# The environment

`getenv` of `core/Environ.c`, and the pointer to the same array that loaded images get.
-/

namespace LibSystem.Core.Environ

open Outcome

/-- `'='`. -/
def equals : Byte := 61

/-- The loop over the name, for its length up to an `=`. -/
def nameLength : Nat → Mem → Addr → Outcome Nat
  | 0, _, _ => .timeout
  | fuel + 1, mem, np =>
    if mem np ≠ 0 ∧ mem np ≠ equals then do
      let len ← nameLength fuel mem (np + 1)
      .done (len + 1)
    else .done 0

/-- The loop over an entry, with `i` characters of the name to go: `i` and `cp` behind it. -/
def skipName (mem : Mem) : Nat → Addr → Addr → Nat × Addr
  | 0, cp, _ => (0, cp)
  | i + 1, cp, np =>
    if mem cp = 0 then (i + 1, cp)
    else if mem cp ≠ mem np then (i + 1, cp + 1)
    else skipName mem i (cp + 1) (np + 1)

/-- The loop over the entries from `p` on, with the offset of `p`. -/
def findEntry (mem : Mem) (name : Addr) (len : Nat) : Nat → Addr → Word →
    Outcome (Option (Addr × Word))
  | 0, _, _ => .timeout
  | fuel + 1, p, offset =>
    let cp := mem.load p
    if cp = 0 then .done none
    else
      let rest := skipName mem len cp name
      if rest.1 = 0 ∧ mem rest.2 = equals then .done (some (rest.2 + 1, offset))
      else findEntry mem name len fuel (p + 4) (offset + 1)

/-- `__findenv`. Absent is `NULL`; a result comes with `*offset`. -/
def findenv (fuel : Nat) (mem : Mem) (name environ : Addr) : Outcome (Option (Addr × Word)) := do
  if name = 0 ∨ environ = 0 then .done none
  else
    let len ← nameLength fuel mem name
    findEntry mem name len fuel environ 0

/-- `gEnvironPtr`, which is `&gEnviron`. -/
def nsGetEnviron (gEnvironPtr : Addr) : Addr := gEnvironPtr

/-- `getenv` takes what `_NSGetEnviron` returns for a `char***`. -/
def getenv (fuel : Nat) (mem : Mem) (gEnvironPtr name : Addr) : Outcome (Option Addr) := do
  let found ← findenv fuel mem name (mem.load (nsGetEnviron gEnvironPtr))
  .done (found.map Prod.fst)

/-- The same search from an image, over its variable `environ`. -/
def imageGetenv (fuel : Nat) (mem : Mem) (environ name : Addr) : Outcome (Option Addr) := do
  let found ← findenv fuel mem name (mem.load environ)
  .done (found.map Prod.fst)

/-! ## What lies in memory -/

/-- The string `s`, with its terminator. -/
def StringAt (mem : Mem) : Addr → List Byte → Prop
  | a, [] => mem a = 0
  | a, b :: s => mem a = b ∧ b ≠ 0 ∧ StringAt mem (a + 1) s

/-- Pointers to the strings of `env`, each with its address, and a `NULL`. -/
def TableAt (mem : Mem) : Addr → List (Addr × List Byte) → Prop
  | p, [] => mem.load p = 0
  | p, e :: env => mem.load p = e.1 ∧ e.1 ≠ 0 ∧ StringAt mem e.1 e.2 ∧ TableAt mem (p + 4) env

/-- The entry is of the form `name=...`. -/
def Names (name : List Byte) (e : Addr × List Byte) : Prop := name ++ [equals] <+: e.2

instance (name : List Byte) (e : Addr × List Byte) : Decidable (Names name e) :=
  inferInstanceAs (Decidable (_ <+: _))

/-- The text behind the `=` of the first entry of the form `name=...`. -/
def lookup (env : List (Addr × List Byte)) (name : List Byte) : Option Addr :=
  (env.find? fun e => Names name e).map fun e => e.1 + BitVec.ofNat 32 (name.length + 1)

/-- The bytes from `cp` on are those of the name and an `=`. -/
def NamedAt (mem : Mem) : List Byte → Addr → Prop
  | [], cp => mem cp = equals
  | b :: name, cp => mem cp = b ∧ NamedAt mem name (cp + 1)

/-! ## One entry -/

section

variable {mem : Mem}

theorem skipName_iff {name : List Byte} {cp np : Addr} (h : StringAt mem np name) :
    (skipName mem name.length cp np).1 = 0 ∧ mem (skipName mem name.length cp np).2 = equals ↔
      NamedAt mem name cp := by
  induction name generalizing cp np with
  | nil => simp [skipName, NamedAt]
  | cons b name ih =>
    obtain ⟨rfl, hb, hrest⟩ := h
    rw [List.length_cons, skipName, NamedAt]
    by_cases hzero : mem cp = 0
    · rw [if_pos hzero, hzero]
      exact iff_of_false (fun h => absurd h.1 (Nat.succ_ne_zero _)) fun h => hb h.1.symm
    · rw [if_neg hzero]
      by_cases hsame : mem cp = mem np
      · rw [if_neg (not_not.mpr hsame), ih hrest]
        exact ⟨fun h => ⟨hsame, h⟩, fun h => h.2⟩
      · rw [if_pos hsame]
        exact iff_of_false (fun h => absurd h.1 (Nat.succ_ne_zero _)) fun h => hsame h.1

theorem skipName_snd {name : List Byte} {cp np : Addr} (h : StringAt mem np name)
    (hnamed : NamedAt mem name cp) :
    (skipName mem name.length cp np).2 = cp + BitVec.ofNat 32 name.length := by
  induction name generalizing cp np with
  | nil => simp [skipName]
  | cons b name ih =>
    obtain ⟨rfl, hb, hrest⟩ := h
    obtain ⟨hsame, hnamed⟩ := hnamed
    have hzero : mem cp ≠ 0 := hsame ▸ hb
    rw [List.length_cons, skipName, if_neg hzero, if_neg (not_not.mpr hsame), ih hrest hnamed,
      BitVec.ofNat_add, BitVec.add_assoc, BitVec.add_comm (BitVec.ofNat 32 name.length)]
    rfl

theorem namedAt_iff {name s : List Byte} (hname : ∀ b ∈ name, b ≠ 0) {cp : Addr}
    (h : StringAt mem cp s) : NamedAt mem name cp ↔ name ++ [equals] <+: s := by
  induction name generalizing s cp with
  | nil =>
    cases s with
    | nil =>
      have hzero : mem cp = 0 := h
      rw [NamedAt, hzero]
      exact iff_of_false (by decide) (by simp)
    | cons b s =>
      obtain ⟨rfl, -, -⟩ := h
      simp [NamedAt, eq_comm]
  | cons b name ih =>
    obtain ⟨hb, hname⟩ := List.forall_mem_cons.mp hname
    cases s with
    | nil =>
      have hzero : mem cp = 0 := h
      rw [NamedAt, hzero]
      exact iff_of_false (fun h => hb h.1.symm) (by simp)
    | cons b' s =>
      obtain ⟨rfl, -, hrest⟩ := h
      rw [NamedAt, ih hname hrest, List.cons_append, List.cons_prefix_cons, eq_comm]

end

/-! ## All entries -/

/-- Entry `j` of a table. -/
def entry (mem : Mem) (p : Addr) (j : Nat) : Addr := mem.load (p + 4 * BitVec.ofNat 32 j)

/-- The first `k` entries are neither `NULL` nor of the name. -/
def Passes (mem : Mem) (name : List Byte) (p : Addr) (k : Nat) : Prop :=
  ∀ j < k, entry mem p j ≠ 0 ∧ ¬NamedAt mem name (entry mem p j)

section

variable {mem : Mem} {name : List Byte} {np p : Addr} {offset : Word}

theorem entry_zero : entry mem p 0 = mem.load p := by
  unfold entry
  rw [show p + 4 * BitVec.ofNat 32 0 = p from BitVec.add_zero p]

theorem entry_succ (j : Nat) : entry mem p (j + 1) = entry mem (p + 4) j := by
  unfold entry
  rw [Mem.stride_succ]

theorem offset_succ (offset : Word) (k : Nat) :
    offset + BitVec.ofNat 32 (k + 1) = offset + 1 + BitVec.ofNat 32 k := by
  rw [BitVec.ofNat_add, BitVec.add_comm (BitVec.ofNat 32 k), ← BitVec.add_assoc]
  rfl

theorem passes_succ {k : Nat} : Passes mem name p (k + 1) ↔
    (entry mem p 0 ≠ 0 ∧ ¬NamedAt mem name (entry mem p 0)) ∧ Passes mem name (p + 4) k := by
  unfold Passes
  rw [Nat.forall_lt_succ_left]
  simp only [entry_succ]

theorem findEntry_later (hname : StringAt mem np name) (hnull : entry mem p 0 ≠ 0)
    (hnot : ¬NamedAt mem name (entry mem p 0)) (n : Nat) :
    findEntry mem np name.length (n + 1) p offset =
      findEntry mem np name.length n (p + 4) (offset + 1) := by
  rw [entry_zero] at hnull hnot
  rw [findEntry]
  dsimp only
  rw [if_neg hnull, if_neg (mt (skipName_iff hname).mp hnot)]

theorem findEntry_here (hname : StringAt mem np name) (hnull : entry mem p 0 ≠ 0)
    (hnamed : NamedAt mem name (entry mem p 0)) (n : Nat) :
    findEntry mem np name.length (n + 1) p offset =
      .done (some (entry mem p 0 + BitVec.ofNat 32 (name.length + 1), offset)) := by
  rw [entry_zero] at hnull hnamed ⊢
  rw [findEntry]
  dsimp only
  rw [if_neg hnull, if_pos ((skipName_iff hname).mpr hnamed), skipName_snd hname hnamed,
    BitVec.add_assoc, BitVec.ofNat_add]
  rfl

theorem findEntry_stop (hnull : entry mem p 0 = 0) (n : Nat) :
    findEntry mem np name.length (n + 1) p offset = .done none := by
  rw [entry_zero] at hnull
  rw [findEntry, if_pos hnull]

theorem findEntry_grows {len : Nat} : Grows fun n => findEntry mem np len n p offset := by
  intro n
  induction n generalizing p offset with
  | zero => exact .inl rfl
  | succ n ih =>
    unfold findEntry
    dsimp only
    split
    · exact Le.refl _
    · split
      · exact Le.refl _
      · exact ih

theorem yields_findEntry (hname : StringAt mem np name) {r : Option (Addr × Word)} :
    Yields (fun n => findEntry mem np name.length n p offset) r ↔
      ∃ k, Passes mem name p k ∧
        (entry mem p k = 0 ∧ r = none ∨ entry mem p k ≠ 0 ∧ NamedAt mem name (entry mem p k) ∧
          r = some (entry mem p k + BitVec.ofNat 32 (name.length + 1),
            offset + BitVec.ofNat 32 k)) := by
  constructor
  · rintro ⟨n, h⟩
    replace h : findEntry mem np name.length n p offset = done r := h
    induction n generalizing p offset with
    | zero => simp [findEntry] at h
    | succ n ih =>
      by_cases hnull : entry mem p 0 = 0
      · rw [findEntry_stop hnull, done.injEq] at h
        exact ⟨0, by simp [Passes], .inl ⟨hnull, h.symm⟩⟩
      by_cases hnamed : NamedAt mem name (entry mem p 0)
      · rw [findEntry_here hname hnull hnamed, done.injEq] at h
        refine ⟨0, by simp [Passes], .inr ⟨hnull, hnamed, ?_⟩⟩
        rw [← h]
        simp
      · rw [findEntry_later hname hnull hnamed] at h
        obtain ⟨k, hpass, hend⟩ := ih h
        refine ⟨k + 1, passes_succ.mpr ⟨⟨hnull, hnamed⟩, hpass⟩, ?_⟩
        rw [entry_succ, offset_succ offset]
        exact hend
  · rintro ⟨k, hpass, hend⟩
    induction k generalizing p offset with
    | zero =>
      rcases hend with ⟨hnull, rfl⟩ | ⟨hnull, hnamed, rfl⟩
      · exact ⟨1, findEntry_stop hnull 0⟩
      · refine ⟨1, (findEntry_here hname hnull hnamed 0).trans ?_⟩
        simp
    | succ k ih =>
      obtain ⟨⟨hnull, hnot⟩, hpass⟩ := passes_succ.mp hpass
      rw [entry_succ, offset_succ offset] at hend
      obtain ⟨n, hn⟩ := ih hpass hend
      exact ⟨n + 1, (findEntry_later hname hnull hnot n).trans hn⟩

end

/-! ## The two searches -/

section

variable {mem : Mem} {name : List Byte} {np p : Addr} {env : List (Addr × List Byte)}

theorem StringAt.ne_zero {s : List Byte} {a : Addr} (h : StringAt mem a s) : ∀ b ∈ s, b ≠ 0 := by
  induction s generalizing a with
  | nil => simp
  | cons b s ih =>
    obtain ⟨-, hb, hrest⟩ := h
    exact List.forall_mem_cons.mpr ⟨hb, ih hrest⟩

theorem nameLength_eq (hname : StringAt mem np name) (hequals : equals ∉ name) :
    nameLength (name.length + 1) mem np = .done name.length := by
  induction name generalizing np with
  | nil =>
    have hzero : mem np = 0 := hname
    rw [nameLength, if_neg (by simp [hzero])]
    rfl
  | cons b name ih =>
    obtain ⟨rfl, hb, hrest⟩ := hname
    rw [List.mem_cons, not_or] at hequals
    rw [List.length_cons, nameLength, if_pos ⟨hb, Ne.symm hequals.1⟩, ih hrest hequals.2]
    rfl

theorem nameLength_grows : Grows fun n => nameLength n mem np := by
  intro n
  induction n generalizing np with
  | zero => exact .inl rfl
  | succ n ih =>
    dsimp only
    unfold nameLength
    split
    · exact ih.bind fun _ => Le.refl _
    · exact Le.refl _

theorem yields_findenv (hname : StringAt mem np name) (hequals : equals ∉ name) (hnp : np ≠ 0)
    (hp : p ≠ 0) {r : Option (Addr × Word)} :
    Yields (fun n => findenv n mem np p) r ↔
      Yields (fun n => findEntry mem np name.length n p 0) r := by
  have hlen : Yields (fun n => nameLength n mem np) name.length :=
    ⟨_, nameLength_eq hname hequals⟩
  unfold findenv
  simp only [hnp, hp, or_self, if_false]
  rw [yields_bind nameLength_grows fun _ => findEntry_grows]
  constructor
  · rintro ⟨len, hl, h⟩
    rwa [hlen.unique nameLength_grows hl]
  · intro h
    exact ⟨name.length, hlen, h⟩

theorem findenv_grows : Grows fun n => findenv n mem np p := by
  unfold findenv
  split
  · exact Grows.const _
  · exact nameLength_grows.bind fun _ => findEntry_grows

/-- The address of the first entry of the name, or `NULL`. -/
def firstNamed (env : List (Addr × List Byte)) (name : List Byte) : Addr :=
  ((env.find? fun e => Names name e).map Prod.fst).getD 0

theorem table_passes (hname : StringAt mem np name) (h : TableAt mem p env) :
    ∃ k, Passes mem name p k ∧
      entry mem p k = firstNamed env name ∧
      (entry mem p k = 0 ∧ lookup env name = none ∨
        entry mem p k ≠ 0 ∧ NamedAt mem name (entry mem p k) ∧
          lookup env name = some (entry mem p k + BitVec.ofNat 32 (name.length + 1))) := by
  induction env generalizing p with
  | nil =>
    have hnull : mem.load p = 0 := h
    refine ⟨0, by simp [Passes], ?_⟩
    rw [entry_zero, hnull]
    simp [lookup, firstNamed]
  | cons e env ih =>
    obtain ⟨hload, hnull, hstring, hrest⟩ := h
    have hnamed := namedAt_iff hname.ne_zero hstring
    by_cases hnames : Names name e
    · refine ⟨0, by simp [Passes], ?_⟩
      rw [entry_zero, hload, lookup, firstNamed,
        List.find?_cons_of_pos (by simpa using hnames)]
      exact ⟨rfl, .inr ⟨hnull, hnamed.mpr hnames, rfl⟩⟩
    · obtain ⟨k, hpass, hend⟩ := ih hrest
      refine ⟨k + 1, passes_succ.mpr ⟨?_, hpass⟩, ?_⟩
      · rw [entry_zero, hload]
        exact ⟨hnull, mt hnamed.mp hnames⟩
      · rw [entry_succ, lookup, firstNamed, List.find?_cons_of_neg (by simpa using hnames)]
        exact hend

theorem yields_over (hname : StringAt mem np name) (hequals : equals ∉ name) (hnp : np ≠ 0)
    (hp : p ≠ 0) {r : Option Addr} :
    Yields (fun n => findenv n mem np p >>= fun found => .done (found.map Prod.fst)) r ↔
      ∃ k, Passes mem name p k ∧
        (entry mem p k = 0 ∧ r = none ∨ entry mem p k ≠ 0 ∧ NamedAt mem name (entry mem p k) ∧
          r = some (entry mem p k + BitVec.ofNat 32 (name.length + 1))) := by
  rw [yields_bind_const findenv_grows]
  simp only [yields_findenv hname hequals hnp hp, yields_findEntry hname, done.injEq]
  constructor
  · rintro ⟨o, ⟨k, hpass, hend⟩, rfl⟩
    refine ⟨k, hpass, ?_⟩
    rcases hend with ⟨hnull, rfl⟩ | ⟨hnull, hnamed, rfl⟩
    · exact .inl ⟨hnull, rfl⟩
    · exact .inr ⟨hnull, hnamed, rfl⟩
  · rintro ⟨k, hpass, ⟨hnull, rfl⟩ | ⟨hnull, hnamed, rfl⟩⟩
    · exact ⟨none, ⟨k, hpass, .inl ⟨hnull, rfl⟩⟩, rfl⟩
    · exact ⟨_, ⟨k, hpass, .inr ⟨hnull, hnamed, rfl⟩⟩, rfl⟩

end

/-! ## Which environment is seen -/

theorem environ_installed {g : Word} {mem : Mem} {obj : Lnk.MachObject} {sect : Lnk.Section}
    (hsect : sect ∈ Lnk.programVars obj)
    (hfields : ∀ a ∈ Lnk.programVars obj, ∀ b ∈ Lnk.programVars obj,
      Mem.Apart (Lnk.environPtr mem obj a) (Lnk.environField obj b))
    (hwords : ∀ a ∈ Lnk.programVars obj,
      Mem.SameOrApart (Lnk.environPtr mem obj a) (Lnk.environPtr mem obj sect)) :
    (Lnk.processSections g mem obj).load (Lnk.environPtr mem obj sect) = g := by
  have hwritten : Lnk.processedWords g mem obj =
      (Lnk.programVars obj).map (Lnk.environPtr mem obj) := by
    unfold Lnk.processedWords
    rw [Lnk.environWords_eq, List.map_map]
    · rfl
    · simp only [List.forall_mem_map]
      exact hfields
  rw [Lnk.processSections_eq, hwritten, Mem.load_setAll (by simpa only [List.forall_mem_map]),
    if_pos (List.mem_map_of_mem hsect)]

/-- The environment in `gEnviron`, and a name without `=`. -/
structure Stored (mem : Mem) (gEnviron : Addr) (env : List (Addr × List Byte)) (np : Addr)
    (name : List Byte) : Prop where
  array : gEnviron ≠ 0
  count : env.length < 1024
  table : TableAt mem gEnviron env
  pointer : np ≠ 0
  string : StringAt mem np name
  plain : equals ∉ name

/-- `getenv` finds the variable, and finds what an image with `environ` set finds. -/
structure SameEnvironment (mem : Mem) (gEnviron : Addr) (env : List (Addr × List Byte))
    (np : Addr) (name : List Byte) : Prop where
  found : Yields (fun n => getenv n mem gEnviron np) (lookup env name)
  image : ∀ environ, mem.load environ = gEnviron → ∀ r,
    Yields (fun n => getenv n mem gEnviron np) r ↔
      Yields (fun n => imageGetenv n mem environ np) r

/-- The words from `table` on, of which none is `NULL` or leads to a text `name=`, come to the
address of the string that should be found, or to a `NULL` if there is none. -/
def ByAccident (mem : Mem) (table : Addr) (env : List (Addr × List Byte)) (name : List Byte) :
    Prop :=
  ∃ k, Passes mem name table k ∧ entry mem table k = firstNamed env name

section

variable {mem : Mem} {gEnviron np : Addr} {env : List (Addr × List Byte)} {name : List Byte}

theorem Stored.image (h : Stored mem gEnviron env np name) {environ : Addr}
    (henviron : mem.load environ = gEnviron) :
    Yields (fun n => imageGetenv n mem environ np) (lookup env name) := by
  obtain ⟨k, hpass, -, hend⟩ := table_passes h.string h.table
  unfold imageGetenv
  rw [henviron]
  exact (yields_over h.string h.plain h.pointer h.array).mpr ⟨k, hpass, hend⟩

theorem imageGetenv_grows {environ : Addr} : Grows fun n => imageGetenv n mem environ np :=
  findenv_grows.bind fun _ => Grows.const _

theorem getenv_grows : Grows fun n => getenv n mem gEnviron np :=
  findenv_grows.bind fun _ => Grows.const _

theorem Stored.sameEnvironment_iff (h : Stored mem gEnviron env np name) :
    SameEnvironment mem gEnviron env np name ↔
      Yields (fun n => getenv n mem gEnviron np) (lookup env name) := by
  refine ⟨fun hsame => hsame.found, fun hfound => ⟨hfound, fun environ henviron r => ?_⟩⟩
  have himage := h.image henviron
  constructor
  · intro hr
    rwa [hr.unique getenv_grows hfound]
  · intro hr
    rwa [hr.unique imageGetenv_grows himage]

theorem Stored.getenv_iff (h : Stored mem gEnviron env np name) (hfirst : mem.load gEnviron ≠ 0) :
    Yields (fun n => getenv n mem gEnviron np) (lookup env name) ↔
      ByAccident mem (mem.load gEnviron) env name := by
  obtain ⟨k, -, hentry, hend⟩ := table_passes h.string h.table
  rw [hentry] at hend
  unfold getenv nsGetEnviron
  rw [yields_over h.string h.plain h.pointer hfirst]
  constructor
  · rintro ⟨j, hpass, hj⟩
    refine ⟨j, hpass, ?_⟩
    rcases hend with ⟨hnull, hnone⟩ | ⟨-, -, hsome⟩ <;> rcases hj with ⟨hj, hr⟩ | ⟨-, -, hr⟩
    · rw [hj, hnull]
    · rw [hnone] at hr
      cases hr
    · rw [hsome] at hr
      cases hr
    · rw [hsome, Option.some.injEq] at hr
      exact ((BitVec.add_left_inj _).mp hr).symm
  · rintro ⟨j, hpass, hj⟩
    refine ⟨j, hpass, ?_⟩
    rw [hj]
    exact hend

/-- The environment is empty, or the bytes of its first string make up a table that leads to the
right string. -/
theorem same_environment_iff (mem : Mem) (gEnviron np : Addr) (env : List (Addr × List Byte))
    (name : List Byte) (h : Stored mem gEnviron env np name) :
    SameEnvironment mem gEnviron env np name ↔
      env = [] ∨ ByAccident mem (mem.load gEnviron) env name := by
  rw [h.sameEnvironment_iff]
  cases env with
  | nil =>
    have hnull : mem.load gEnviron = 0 := h.table
    refine iff_of_true ⟨0, ?_⟩ (.inl rfl)
    simp [getenv, nsGetEnviron, findenv, hnull, lookup]
  | cons e env =>
    obtain ⟨hload, hnull, -⟩ := h.table
    rw [h.getenv_iff (hload ▸ hnull), or_iff_right (List.cons_ne_nil e env)]

end

/-- The name `A` at 0x3000, and nothing else. -/
def noVariable : Mem := fun a => if a = 0x3000 then 0x41 else 0

/-- `A=1` at 0x2000, and the name `A` at 0x3000. -/
def oneVariable : Mem := fun a =>
  if a = 0x1001 then 0x20
  else if a = 0x2000 then 0x41
  else if a = 0x2001 then equals
  else if a = 0x2002 then 0x31
  else if a = 0x3000 then 0x41
  else 0

/-- The empty environment, and one without a variable `1`. -/
theorem same_environment_absent :
    SameEnvironment noVariable 0x1000 [] 0x3000 [0x41] ∧
      SameEnvironment oneVariable 0x1000 [(0x2000, [0x41, equals, 0x31])] 0x2002 [0x31] := by
  constructor
  · exact (same_environment_iff noVariable 0x1000 0x3000 [] [0x41]
      ⟨by decide, by decide, by simp only [TableAt]; decide, by decide,
        by simp only [StringAt]; decide, by decide⟩).mpr (.inl rfl)
  · refine (same_environment_iff oneVariable 0x1000 0x2002 _ [0x31]
      ⟨by decide, by decide, by simp only [TableAt, StringAt]; decide, by decide,
        by simp only [StringAt]; decide, by decide⟩).mpr (.inr ⟨1, ?_, by decide⟩)
    -- the bytes of `A=1` are no pointer to a text `1=`
    simp only [Passes, NamedAt]
    decide

theorem variable_not_found :
    Stored oneVariable 0x1000 [(0x2000, [0x41, equals, 0x31])] 0x3000 [0x41] ∧
    lookup [(0x2000, [0x41, equals, 0x31])] [0x41] = some 0x2002 ∧
    Yields (fun n => getenv n oneVariable 0x1000 0x3000) none ∧
    ¬SameEnvironment oneVariable 0x1000 [(0x2000, [0x41, equals, 0x31])] 0x3000 [0x41] := by
  have hnone : Yields (fun n => getenv n oneVariable 0x1000 0x3000) none := ⟨2, by decide⟩
  have hlookup : lookup [(0x2000, [0x41, equals, 0x31])] [0x41] = some 0x2002 := by decide
  refine ⟨⟨by decide, by decide, by simp only [TableAt, StringAt]; decide, by decide,
    by simp only [StringAt]; decide, by decide⟩, hlookup, hnone, fun h => ?_⟩
  have hfound := h.found
  rw [hlookup] at hfound
  exact absurd (hfound.unique getenv_grows hnone) (by decide)

end LibSystem.Core.Environ
