import Mathlib.Data.Nat.Init

/-!
# Outcomes of a program run under a fuel bound

A run returns a value, stops the process, touches something that is not there,
or is cut off because the fuel is used up. More fuel never changes a run that
was not cut off, so `timeout` for every fuel means that the program does not end.
-/

namespace LibSystem

inductive Outcome (α : Type) where
  | done (a : α)
  /-- The process ends with this message. -/
  | halt (msg : String)
  /-- A null pointer or an array entry out of bounds: C gives the run no meaning. -/
  | fault
  | timeout
  deriving DecidableEq

namespace Outcome

variable {α β γ : Type}

def bind : Outcome α → (α → Outcome β) → Outcome β
  | done a, f => f a
  | halt msg, _ => halt msg
  | fault, _ => fault
  | timeout, _ => timeout

instance : Monad Outcome where
  pure := done
  bind := bind

@[simp] theorem done_bind (a : α) (f : α → Outcome β) : (done a >>= f) = f a := rfl
@[simp] theorem halt_bind (msg : String) (f : α → Outcome β) : (halt msg >>= f) = halt msg := rfl
@[simp] theorem fault_bind (f : α → Outcome β) : (fault >>= f) = fault := rfl
@[simp] theorem timeout_bind (f : α → Outcome β) : (timeout >>= f) = timeout := rfl

theorem bind_bind (x : Outcome α) (f : α → Outcome β) (g : β → Outcome γ) :
    (x >>= f >>= g) = x >>= fun a => f a >>= g := by
  cases x <;> rfl

instance : LawfulMonad Outcome :=
  .mk' _ (fun x => by cases x <;> rfl) (fun _ _ => rfl) bind_bind

theorem bind_congr_of_done {x : Outcome α} {f g : α → Outcome β}
    (h : ∀ a, x = done a → f a = g a) : (x >>= f) = (x >>= g) := by
  cases x with
  | done a => exact h a rfl
  | halt msg => rfl
  | fault => rfl
  | timeout => rfl

theorem bind_eq_done {x : Outcome α} {f : α → Outcome β} {b : β} :
    (x >>= f) = done b ↔ ∃ a, x = done a ∧ f a = done b := by
  cases x <;> simp

theorem bind_ne_timeout {x : Outcome α} {f : α → Outcome β} :
    (x >>= f) ≠ timeout ↔ x ≠ timeout ∧ ∀ a, x = done a → f a ≠ timeout := by
  cases x <;> simp

/-- An array or heap access: no entry there is a fault. -/
def ofOption : Option α → Outcome α
  | some a => done a
  | none => fault

@[simp] theorem ofOption_some (a : α) : ofOption (some a) = done a := rfl
@[simp] theorem ofOption_none : ofOption (none : Option α) = fault := rfl

@[simp] theorem ofOption_eq_done {o : Option α} {a : α} : ofOption o = done a ↔ o = some a := by
  cases o <;> simp

def getD (x : Outcome α) (default : α) : α :=
  match x with
  | done a => a
  | _ => default

/-- The run returns, or the process ends with a message. -/
def Settles (x : Outcome α) : Prop := (∃ a, x = done a) ∨ ∃ msg, x = halt msg

theorem settles_iff {x : Outcome α} : x.Settles ↔ x ≠ timeout ∧ x ≠ fault := by
  cases x <;> simp [Settles]

@[simp] theorem settles_done (a : α) : (done a).Settles := Or.inl ⟨a, rfl⟩
@[simp] theorem settles_halt (msg : String) : (halt msg : Outcome α).Settles := Or.inr ⟨msg, rfl⟩
@[simp] theorem not_settles_fault : ¬ (fault : Outcome α).Settles := by simp [Settles]
@[simp] theorem not_settles_timeout : ¬ (timeout : Outcome α).Settles := by simp [Settles]

theorem settles_bind {x : Outcome α} {f : α → Outcome β} :
    (x >>= f).Settles ↔ x.Settles ∧ ∀ a, x = done a → (f a).Settles := by
  cases x <;> simp

theorem settles_ite {c : Prop} [Decidable c] {x y : Outcome α} :
    (if c then x else y).Settles ↔ (c → x.Settles) ∧ (¬ c → y.Settles) := by
  split
  · rename_i h
    simp [h]
  · rename_i h
    simp [h]

theorem forall_done_pair_iff {x : α} {y : β} {P : α → β → Prop} :
    (∀ a b, done (x, y) = done (a, b) → P a b) ↔ P x y := by
  simp

theorem eq_of_ended {x : Outcome (Bool × α)} (h : ∀ a, x ≠ done (false, a)) :
    (∃ a, x = done (true, a)) ∨ (∃ msg, x = halt msg) ∨ x = fault ∨ x = timeout := by
  cases x with
  | done v =>
    obtain ⟨finished, a⟩ := v
    cases finished with
    | true => exact Or.inl ⟨a, rfl⟩
    | false => exact absurd rfl (h a)
  | halt msg => exact Or.inr (Or.inl ⟨msg, rfl⟩)
  | fault => exact Or.inr (Or.inr (Or.inl rfl))
  | timeout => exact Or.inr (Or.inr (Or.inr rfl))

/-! ## Partial correctness -/

/-- If the run returns, it returns something of which `P` holds. -/
def Ensures (x : Outcome α) (P : α → Prop) : Prop := ∀ a, x = done a → P a

theorem Ensures.done {P : α → Prop} {a : α} (h : P a) : Ensures (.done a) P := by
  rintro _ ⟨⟩
  exact h

theorem Ensures.halt {P : α → Prop} (msg : String) : Ensures (.halt msg) P := nofun

theorem Ensures.fault {P : α → Prop} : Ensures .fault P := nofun

theorem Ensures.ite {P : α → Prop} {c : Prop} [Decidable c] {x y : Outcome α}
    (hx : c → Ensures x P) (hy : ¬ c → Ensures y P) : Ensures (if c then x else y) P := by
  split
  · exact hx ‹c›
  · exact hy ‹¬ c›

theorem Ensures.bind {P : β → Prop} {x : Outcome α} {f : α → Outcome β}
    (h : ∀ a, x = .done a → Ensures (f a) P) : Ensures (x >>= f) P := by
  intro b hb
  obtain ⟨a, ha, hb⟩ := bind_eq_done.mp hb
  exact h a ha b hb

/-! ## Two runs -/

/-- If both return, they return things that are related. -/
def EnsuresBoth (R : α → β → Prop) (x : Outcome α) (y : Outcome β) : Prop :=
  ∀ a b, x = done a → y = done b → R a b

theorem EnsuresBoth.done {R : α → β → Prop} {a : α} {b : β} (h : R a b) :
    EnsuresBoth R (.done a) (.done b) := by
  rintro _ _ ⟨⟩ ⟨⟩
  exact h

theorem EnsuresBoth.halt {R : α → β → Prop} (msg : String) (y : Outcome β) :
    EnsuresBoth R (.halt msg) y := nofun

theorem EnsuresBoth.ite {R : α → β → Prop} {c : Prop} [Decidable c] {x x' : Outcome α}
    {y y' : Outcome β} (h : c → EnsuresBoth R x y) (h' : ¬ c → EnsuresBoth R x' y') :
    EnsuresBoth R (if c then x else x') (if c then y else y') := by
  split
  · exact h ‹c›
  · exact h' ‹¬ c›

theorem EnsuresBoth.bind {α' β' : Type} {R : α' → β' → Prop} {x : Outcome α} {y : Outcome β}
    {f : α → Outcome α'} {g : β → Outcome β'}
    (h : ∀ a b, x = .done a → y = .done b → EnsuresBoth R (f a) (g b)) :
    EnsuresBoth R (x >>= f) (y >>= g) := by
  intro a' b' ha' hb'
  obtain ⟨a, ha, ha'⟩ := bind_eq_done.mp ha'
  obtain ⟨b, hb, hb'⟩ := bind_eq_done.mp hb'
  exact h a b ha hb a' b' ha' hb'

theorem EnsuresBoth.bind_same {R : β → γ → Prop} {x : Outcome α} {f : α → Outcome β}
    {g : α → Outcome γ} (h : ∀ a, x = .done a → EnsuresBoth R (f a) (g a)) :
    EnsuresBoth R (x >>= f) (x >>= g) := by
  refine .bind fun a b ha hb => ?_
  obtain rfl := done.inj (ha.symm.trans hb)
  exact h a ha

/-- Both return, with related values, or both end in the same way, whatever the message. -/
inductive Rel (R : α → β → Prop) : Outcome α → Outcome β → Prop
  | done {a : α} {b : β} (h : R a b) : Rel R (.done a) (.done b)
  | halt (msg msg' : String) : Rel R (.halt msg) (.halt msg')
  | fault : Rel R .fault .fault
  | timeout : Rel R .timeout .timeout

theorem Rel.bind {α' β' : Type} {R : α → β → Prop} {S : α' → β' → Prop} {x : Outcome α}
    {y : Outcome β} {f : α → Outcome α'} {g : β → Outcome β'} (hxy : Rel R x y)
    (hfg : ∀ a b, R a b → Rel S (f a) (g b)) : Rel S (x >>= f) (y >>= g) := by
  cases hxy with
  | done h => exact hfg _ _ h
  | halt msg msg' => exact .halt msg msg'
  | fault => exact .fault
  | timeout => exact .timeout

theorem Rel.bind_same {R : β → γ → Prop} {x : Outcome α} {f : α → Outcome β} {g : α → Outcome γ}
    (h : ∀ a, Rel R (f a) (g a)) : Rel R (x >>= f) (x >>= g) := by
  cases x with
  | done a => exact h a
  | halt msg => exact .halt msg msg
  | fault => exact .fault
  | timeout => exact .timeout

theorem Rel.ite {R : α → β → Prop} {c : Prop} [Decidable c] {x x' : Outcome α} {y y' : Outcome β}
    (h : c → Rel R x y) (h' : ¬ c → Rel R x' y') :
    Rel R (if c then x else x') (if c then y else y') := by
  split
  · exact h ‹c›
  · exact h' ‹¬ c›

/-! ## More fuel -/

/-- `y` is what `x` becomes with more fuel. -/
def Le (x y : Outcome α) : Prop := x = timeout ∨ x = y

theorem Le.refl (x : Outcome α) : Le x x := Or.inr rfl

theorem Le.trans {x y z : Outcome α} (h1 : Le x y) (h2 : Le y z) : Le x z := by
  rcases h1 with h1 | rfl
  · exact Or.inl h1
  · exact h2

theorem Le.timeout (y : Outcome α) : Le .timeout y := Or.inl rfl

theorem Le.eq {x y : Outcome α} (h : Le x y) (hx : x ≠ .timeout) : y = x := by
  rcases h with h | rfl
  · exact absurd h hx
  · rfl

theorem Le.bind {x y : Outcome α} {f g : α → Outcome β} (hxy : Le x y) (hfg : ∀ a, Le (f a) (g a)) :
    Le (x >>= f) (y >>= g) := by
  rcases hxy with rfl | rfl
  · exact Or.inl rfl
  · cases x with
    | done a => exact hfg a
    | halt msg => exact Le.refl _
    | fault => exact Le.refl _
    | timeout => exact Le.refl _

/-- A function of the fuel that only grows. -/
def Grows (f : Nat → Outcome α) : Prop := ∀ n, Le (f n) (f (n + 1))

theorem Grows.le {f : Nat → Outcome α} (h : Grows f) {m n : Nat} (hmn : m ≤ n) :
    Le (f m) (f n) := by
  induction n, hmn using Nat.le_induction with
  | base => exact Le.refl _
  | succ n _ ih => exact ih.trans (h n)

theorem Grows.eq {f : Nat → Outcome α} (h : Grows f) {m n : Nat} (hmn : m ≤ n)
    (hm : f m ≠ .timeout) : f n = f m :=
  (h.le hmn).eq hm

theorem Grows.eq_done {f : Nat → Outcome α} (h : Grows f) {m n : Nat} {a : α} (hm : f m = done a)
    (hmn : m ≤ n) : f n = done a := by
  rw [h.eq hmn (by simp [hm]), hm]

theorem Grows.unique {f : Nat → Outcome α} (h : Grows f) {m n : Nat} (hm : f m ≠ .timeout)
    (hn : f n ≠ .timeout) : f m = f n := by
  rcases Nat.le_total m n with hmn | hnm
  · exact (h.eq hmn hm).symm
  · exact h.eq hnm hn

theorem Grows.const (x : Outcome α) : Grows fun _ => x := fun _ => Le.refl x

/-- With enough fuel the run ends with the value `a`. -/
def Yields (f : Nat → Outcome α) (a : α) : Prop := ∃ n, f n = done a

theorem Yields.eq {f : Nat → Outcome α} (h : Grows f) {a : α} (ha : Yields f a) {n : Nat}
    (hn : f n ≠ timeout) : f n = done a := by
  obtain ⟨m, hm⟩ := ha
  rw [h.unique hn (by simp [hm] : f m ≠ timeout), hm]

theorem Yields.unique {f : Nat → Outcome α} (h : Grows f) {a b : α} (ha : Yields f a)
    (hb : Yields f b) : a = b := by
  obtain ⟨n, hn⟩ := hb
  have := ha.eq h (by simp [hn] : f n ≠ timeout)
  simpa [hn] using this.symm

/-! ## The first hit in a list -/

/-- Asks `f` about each entry in turn, and stops at the first answer. -/
def search (f : α → Outcome (Option β)) : List α → Outcome (Option β)
  | [] => done none
  | x :: l => do
    match ← f x with
    | some b => done (some b)
    | none => search f l

theorem search_append (f : α → Outcome (Option β)) (l1 l2 : List α)
    (h : ∀ x ∈ l1, f x = done none) : search f (l1 ++ l2) = search f l2 := by
  induction l1 with
  | nil => rfl
  | cons x l1 ih =>
    rw [List.cons_append, search, h x (by simp), done_bind]
    exact ih fun y hy => h y (by simp [hy])

theorem search_eq_some {f : α → Outcome (Option β)} {l : List α} {b : β} :
    search f l = done (some b) ↔
      ∃ l1 x l2, l = l1 ++ x :: l2 ∧ (∀ y ∈ l1, f y = done none) ∧ f x = done (some b) := by
  constructor
  · intro h
    induction l with
    | nil => simp [search] at h
    | cons x l ih =>
      obtain ⟨o, hx, ho⟩ := bind_eq_done.mp h
      cases o with
      | some c =>
        simp only [done.injEq, Option.some.injEq] at ho
        exact ⟨[], x, l, rfl, by simp, by rw [hx, ho]⟩
      | none =>
        obtain ⟨l1, y, l2, rfl, hmiss, hy⟩ := ih ho
        exact ⟨x :: l1, y, l2, rfl, by simpa using ⟨hx, hmiss⟩, hy⟩
  · rintro ⟨l1, x, l2, rfl, hmiss, hx⟩
    rw [search_append f l1 _ hmiss, search, hx]
    rfl

theorem search_eq_none {f : α → Outcome (Option β)} {l : List α} :
    search f l = done none ↔ ∀ x ∈ l, f x = done none := by
  constructor
  · intro h
    induction l with
    | nil => simp
    | cons x l ih =>
      obtain ⟨o, hx, ho⟩ := bind_eq_done.mp h
      cases o with
      | some c => simp at ho
      | none => simpa using ⟨hx, ih ho⟩
  · intro h
    simpa [search] using search_append f l [] h

theorem search_le {f g : α → Outcome (Option β)} (l : List α) (h : ∀ x ∈ l, Le (f x) (g x)) :
    Le (search f l) (search g l) := by
  induction l with
  | nil => exact Le.refl _
  | cons x l ih =>
    refine (h x (by simp)).bind fun o => ?_
    cases o with
    | some b => exact Le.refl _
    | none => exact ih fun y hy => h y (by simp [hy])

/-! ## Yields, step by step -/

theorem yields_const {x : Outcome α} {a : α} : Yields (fun _ => x) a ↔ x = done a :=
  ⟨fun ⟨_, h⟩ => h, fun h => ⟨0, h⟩⟩

theorem Grows.bind {f : Nat → Outcome α} {g : Nat → α → Outcome β} (hf : Grows f)
    (hg : ∀ a, Grows fun n => g n a) : Grows fun n => f n >>= g n :=
  fun n => (hf n).bind fun a => hg a n

theorem yields_bind {f : Nat → Outcome α} {g : Nat → α → Outcome β} (hf : Grows f)
    (hg : ∀ a, Grows fun n => g n a) {b : β} :
    Yields (fun n => f n >>= g n) b ↔ ∃ a, Yields f a ∧ Yields (fun n => g n a) b := by
  constructor
  · rintro ⟨n, h⟩
    obtain ⟨a, ha, hb⟩ := bind_eq_done.mp h
    exact ⟨a, ⟨n, ha⟩, n, hb⟩
  · rintro ⟨a, ⟨n, hn⟩, m, hm⟩
    refine ⟨max n m, bind_eq_done.mpr ⟨a, hf.eq_done hn (Nat.le_max_left n m), ?_⟩⟩
    exact (hg a).eq_done hm (Nat.le_max_right n m)

theorem yields_bind_const {f : Nat → Outcome α} {g : α → Outcome β} (hf : Grows f) {b : β} :
    Yields (fun n => f n >>= g) b ↔ ∃ a, Yields f a ∧ g a = done b := by
  refine (yields_bind hf fun a => Grows.const (g a)).trans ?_
  simp only [yields_const]

variable {f : Nat → α → Outcome (Option β)}

theorem search_grows (hf : ∀ x, Grows fun n => f n x) (l : List α) :
    Grows fun n => search (f n) l :=
  fun n => search_le l fun x _ => hf x n

theorem yields_search_none (hf : ∀ x, Grows fun n => f n x) {l : List α} :
    Yields (fun n => search (f n) l) none ↔ ∀ x ∈ l, Yields (fun n => f n x) none := by
  constructor
  · rintro ⟨n, h⟩ x hx
    exact ⟨n, search_eq_none.mp h x hx⟩
  · intro h
    induction l with
    | nil => exact ⟨0, rfl⟩
    | cons x l ih =>
      have hrest := ih fun y hy => h y (by simp [hy])
      refine (yields_bind (hf x) fun o => ?_).mpr ⟨none, h x (by simp), hrest⟩
      cases o with
      | some b => exact Grows.const _
      | none => exact search_grows hf l

theorem yields_search_some (hf : ∀ x, Grows fun n => f n x) {l : List α} {b : β} :
    Yields (fun n => search (f n) l) (some b) ↔
      ∃ l1 x l2, l = l1 ++ x :: l2 ∧ (∀ y ∈ l1, Yields (fun n => f n y) none) ∧
        Yields (fun n => f n x) (some b) := by
  constructor
  · rintro ⟨n, h⟩
    obtain ⟨l1, x, l2, rfl, hmiss, hx⟩ := search_eq_some.mp h
    exact ⟨l1, x, l2, rfl, fun y hy => ⟨n, hmiss y hy⟩, n, hx⟩
  · rintro ⟨l1, x, l2, rfl, hmiss, n, hx⟩
    obtain ⟨m, hm⟩ := (yields_search_none hf).mpr hmiss
    refine ⟨max n m, search_eq_some.mpr ⟨l1, x, l2, rfl, fun y hy => ?_, ?_⟩⟩
    · exact (hf y).eq_done (search_eq_none.mp hm y hy) (Nat.le_max_right n m)
    · exact (hf x).eq_done hx (Nat.le_max_left n m)

end Outcome

end LibSystem
