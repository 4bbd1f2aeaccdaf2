import LibSystem.Outcome
import Mathlib.Data.List.Perm.Basic
import Mathlib.Data.List.Pairwise

/-!
# Programs that read and write cells

A program names the next cell that it reads or writes, and goes on with what it has read. Cells
that it only looks up are told apart from the cells of its own. In a given memory the cells that
it touches can be listed. Programs whose own cells are apart may run in any order.
-/

namespace LibSystem

inductive Access (ι β α : Type) where
  | ends (x : Outcome α)
  /-- Reads a cell that the program looks something up in. -/
  | look (i : ι) (next : β → Access ι β α)
  /-- Reads a cell of its own. -/
  | read (i : ι) (next : β → Access ι β α)
  | write (i : ι) (b : β) (next : Access ι β α)

namespace Access

open Outcome

variable {ι β α γ : Type}

def bind : Access ι β α → (α → Access ι β γ) → Access ι β γ
  | ends (.done a), f => f a
  | ends (.halt msg), _ => ends (.halt msg)
  | ends .fault, _ => ends .fault
  | ends .timeout, _ => ends .timeout
  | look i next, f => look i fun b => (next b).bind f
  | read i next, f => read i fun b => (next b).bind f
  | write i b next, f => write i b (next.bind f)

instance : Monad (Access ι β) where
  pure a := ends (.done a)
  bind := bind

/-- Asks `f` about each entry in turn, and stops at the first answer. -/
def search (f : α → Access ι β (Option γ)) : List α → Access ι β (Option γ)
  | [] => pure none
  | x :: l => do
    match ← f x with
    | some b => pure (some b)
    | none => search f l

section Run

variable [DecidableEq ι]

def set (mem : ι → β) (i : ι) (b : β) : ι → β := fun j => if j = i then b else mem j

def run : Access ι β α → (ι → β) → Outcome (α × (ι → β))
  | ends x, mem => x >>= fun a => done (a, mem)
  | look i next, mem => (next (mem i)).run mem
  | read i next, mem => (next (mem i)).run mem
  | write i b next, mem => next.run (set mem i b)

/-- The cells that the run looks up. -/
def looks : Access ι β α → (ι → β) → List ι
  | ends _, _ => []
  | look i next, mem => i :: (next (mem i)).looks mem
  | read i next, mem => (next (mem i)).looks mem
  | write i b next, mem => next.looks (set mem i b)

/-- The run's own cells, those that it reads and those that it writes. -/
def owns : Access ι β α → (ι → β) → List ι
  | ends _, _ => []
  | look i next, mem => (next (mem i)).owns mem
  | read i next, mem => i :: (next (mem i)).owns mem
  | write i b next, mem => i :: next.owns (set mem i b)

theorem set_of_ne {mem : ι → β} {i j : ι} {b : β} (h : j ≠ i) : set mem i b j = mem j := if_neg h

theorem set_congr {mem mem' : ι → β} {i j : ι} {b : β} (h : mem' j = mem j) :
    set mem' i b j = set mem i b j := by
  unfold set
  split
  · rfl
  · exact h

theorem run_bind (p : Access ι β α) (f : α → Access ι β γ) (mem : ι → β) :
    (p >>= f).run mem = p.run mem >>= fun r => (f r.1).run r.2 := by
  show (p.bind f).run mem = _
  induction p generalizing mem with
  | ends x => cases x <;> rfl
  | look i next ih => exact ih (mem i) mem
  | read i next ih => exact ih (mem i) mem
  | write i b next ih => exact ih (set mem i b)

theorem looks_bind {p : Access ι β α} {mem mem1 : ι → β} {a : α} (h : p.run mem = done (a, mem1))
    (f : α → Access ι β γ) : (p >>= f).looks mem = p.looks mem ++ (f a).looks mem1 := by
  show (p.bind f).looks mem = _
  induction p generalizing mem with
  | ends x =>
    obtain ⟨b, rfl, hb⟩ := bind_eq_done.mp h
    obtain ⟨rfl, rfl⟩ := Prod.mk.inj (done.inj hb)
    rfl
  | look i next ih => exact congrArg (i :: ·) (ih (mem i) h)
  | read i next ih => exact ih (mem i) h
  | write i b next ih => exact ih h

/-- The run returns `a` and leaves the memory as it is. All that it looks up is in `S`. -/
structure Finds (S : ι → Prop) (p : Access ι β α) (mem : ι → β) (a : α) : Prop where
  run : p.run mem = done (a, mem)
  looks : ∀ i ∈ p.looks mem, S i

section Finds

variable {S : ι → Prop} {p : Access ι β α} {mem : ι → β} {a : α} {f : α → Access ι β γ} {b : γ}

theorem Finds.pure (a : α) : Finds S (Pure.pure a : Access ι β α) mem a := ⟨rfl, nofun⟩

theorem Finds.bind (h : Finds S p mem a) (hf : Finds S (f a) mem b) : Finds S (p >>= f) mem b := by
  refine ⟨?_, ?_⟩
  · rw [run_bind, h.run, done_bind]
    exact hf.run
  · rw [looks_bind h.run f]
    exact fun i hi => (List.mem_append.mp hi).elim (h.looks i) (hf.looks i)

theorem Finds.look {i : ι} {next : β → Access ι β α} (hi : S i) (h : Finds S (next (mem i)) mem a) :
    Finds S (.look i next) mem a :=
  ⟨h.run, fun _ hj => (List.mem_cons.mp hj).elim (fun heq => heq ▸ hi) (h.looks _)⟩

theorem Finds.mono {S' : ι → Prop} (h : Finds S p mem a) (hS : ∀ i, S i → S' i) :
    Finds S' p mem a :=
  ⟨h.run, fun i hi => hS i (h.looks i hi)⟩

end Finds

/-! ## Confined runs -/

section Confined

variable (S : ι → Prop) [DecidablePred S]

/-- The run where a look outside of `S` is a fault. -/
def runIn : Access ι β α → (ι → β) → Outcome (α × (ι → β))
  | ends x, mem => x >>= fun a => done (a, mem)
  | look i next, mem => if S i then (next (mem i)).runIn mem else .fault
  | read i next, mem => (next (mem i)).runIn mem
  | write i b next, mem => next.runIn (set mem i b)

variable {S} {p : Access ι β α} {mem : ι → β}

theorem runIn_bind (p : Access ι β α) (f : α → Access ι β γ) (mem : ι → β) :
    (p >>= f).runIn S mem = p.runIn S mem >>= fun r => (f r.1).runIn S r.2 := by
  show (p.bind f).runIn S mem = _
  induction p generalizing mem with
  | ends x => cases x <;> rfl
  | look i next ih =>
    simp only [bind, runIn]
    split
    · exact ih (mem i) mem
    · rfl
  | read i next ih => exact ih (mem i) mem
  | write i b next ih => exact ih (set mem i b)

theorem runIn_of_looks (h : ∀ i ∈ p.looks mem, S i) : p.runIn S mem = p.run mem := by
  induction p generalizing mem with
  | ends x => rfl
  | look i next ih =>
    obtain ⟨hi, hrest⟩ := List.forall_mem_cons.mp h
    rw [runIn, if_pos hi]
    exact ih (mem i) hrest
  | read i next ih => exact ih (mem i) h
  | write i b next ih => exact ih h

theorem looks_of_runIn (h : p.runIn S mem ≠ .fault) : ∀ i ∈ p.looks mem, S i := by
  induction p generalizing mem with
  | ends x => exact nofun
  | look i next ih =>
    rw [runIn] at h
    by_cases hi : S i
    · rw [if_pos hi] at h
      exact List.forall_mem_cons.mpr ⟨hi, ih (mem i) h⟩
    · exact absurd (if_neg hi) h
  | read i next ih => exact ih (mem i) h
  | write i b next ih => exact ih h

theorem Finds.runIn {S' : ι → Prop} {a : α} (h : Finds S' p mem a) (hS : ∀ i, S' i → S i) :
    p.runIn S mem = done (a, mem) :=
  (runIn_of_looks fun i hi => hS i (h.looks i hi)).trans h.run

end Confined

/-! ## Hidden lookups -/

/-- The program that does the same, but takes all cells for its own. -/
def hide : Access ι β α → Access ι β α
  | ends x => ends x
  | look i next => read i fun b => (next b).hide
  | read i next => read i fun b => (next b).hide
  | write i b next => write i b next.hide

theorem run_hide (p : Access ι β α) (mem : ι → β) : p.hide.run mem = p.run mem := by
  induction p generalizing mem with
  | ends x => rfl
  | look i next ih => exact ih (mem i) mem
  | read i next ih => exact ih (mem i) mem
  | write i b next ih => exact ih (set mem i b)

theorem looks_hide (p : Access ι β α) (mem : ι → β) : p.hide.looks mem = [] := by
  induction p generalizing mem with
  | ends x => rfl
  | look i next ih => exact ih (mem i) mem
  | read i next ih => exact ih (mem i) mem
  | write i b next ih => exact ih (set mem i b)

theorem runIn_hide (S : ι → Prop) [DecidablePred S] (p : Access ι β α) (mem : ι → β) :
    p.hide.runIn S mem = p.run mem := by
  rw [runIn_of_looks (by simp [looks_hide]), run_hide]

/-! ## Another memory -/

theorem run_kept {p : Access ι β α} {mem mem1 : ι → β} {a : α} (h : p.run mem = done (a, mem1)) :
    ∀ i ∉ p.owns mem, mem1 i = mem i := by
  induction p generalizing mem with
  | ends x =>
    obtain ⟨b, rfl, hb⟩ := bind_eq_done.mp h
    obtain ⟨-, rfl⟩ := Prod.mk.inj (done.inj hb)
    exact fun _ _ => rfl
  | look i next ih => exact ih (mem i) h
  | read i next ih => exact fun j hj => ih (mem i) h j (List.not_mem_of_not_mem_cons hj)
  | write i b next ih =>
    intro j hj
    rw [ih h j (List.not_mem_of_not_mem_cons hj), set_of_ne (List.ne_of_not_mem_cons hj)]

theorem run_congr {p : Access ι β α} {mem mem' mem1 : ι → β} {a : α}
    (h : p.run mem = done (a, mem1)) (hlooks : ∀ i ∈ p.looks mem, mem' i = mem i)
    (howns : ∀ i ∈ p.owns mem, mem' i = mem i) :
    p.looks mem' = p.looks mem ∧ p.owns mem' = p.owns mem ∧
      ∃ mem1', p.run mem' = done (a, mem1') ∧ ∀ i, mem' i = mem i → mem1' i = mem1 i := by
  induction p generalizing mem mem' with
  | ends x =>
    obtain ⟨b, rfl, hb⟩ := bind_eq_done.mp h
    obtain ⟨rfl, rfl⟩ := Prod.mk.inj (done.inj hb)
    exact ⟨rfl, rfl, mem', rfl, fun _ hi => hi⟩
  | look i next ih =>
    have hi : mem' i = mem i := hlooks i List.mem_cons_self
    obtain ⟨hsame, howned, hrun⟩ :=
      ih (mem i) h (fun j hj => hlooks j (List.mem_cons_of_mem _ hj)) howns
    rw [looks, looks, owns, owns, run, hi, hsame, howned]
    exact ⟨rfl, rfl, hrun⟩
  | read i next ih =>
    have hi : mem' i = mem i := howns i List.mem_cons_self
    obtain ⟨hsame, howned, hrun⟩ :=
      ih (mem i) h hlooks fun j hj => howns j (List.mem_cons_of_mem _ hj)
    rw [looks, looks, owns, owns, run, hi, hsame, howned]
    exact ⟨rfl, rfl, hrun⟩
  | write i b next ih =>
    obtain ⟨hsame, howned, mem1', hrun, hrest⟩ :=
      ih h (fun j hj => set_congr (hlooks j hj))
        fun j hj => set_congr (howns j (List.mem_cons_of_mem _ hj))
    rw [looks, looks, owns, owns, hsame, howned]
    exact ⟨rfl, rfl, mem1', hrun, fun j hj => hrest j (set_congr hj)⟩

/-! ## One after the other -/

/-- Neither program touches a cell that is the other one's own. -/
structure Apart (p q : Access ι β α) (mem : ι → β) : Prop where
  left : ∀ i ∈ p.owns mem, i ∉ q.looks mem ∧ i ∉ q.owns mem
  right : ∀ i ∈ q.owns mem, i ∉ p.looks mem ∧ i ∉ p.owns mem

theorem Apart.symm {p q : Access ι β α} {mem : ι → β} (h : Apart p q mem) : Apart q p mem :=
  ⟨h.right, h.left⟩

theorem Apart.congr {p q : Access ι β α} {mem mem' : ι → β} (h : Apart p q mem)
    (hp : p.looks mem' = p.looks mem ∧ p.owns mem' = p.owns mem)
    (hq : q.looks mem' = q.looks mem ∧ q.owns mem' = q.owns mem) : Apart p q mem' := by
  refine ⟨?_, ?_⟩
  · rw [hp.2, hq.1, hq.2]
    exact h.left
  · rw [hq.2, hp.1, hp.2]
    exact h.right

theorem Apart.run_after {p q : Access ι β α} {mem mem1 memq : ι → β} {a b : α}
    (h : Apart p q mem) (hp : p.run mem = done (a, mem1)) (hq : q.run mem = done (b, memq)) :
    (q.looks mem1 = q.looks mem ∧ q.owns mem1 = q.owns mem) ∧
      ∃ memq', q.run mem1 = done (b, memq') ∧ ∀ i ∈ q.owns mem, memq' i = memq i := by
  have hlooks : ∀ i ∈ q.looks mem, mem1 i = mem i :=
    fun i hi => run_kept hp i fun hown => (h.left i hown).1 hi
  have howns : ∀ i ∈ q.owns mem, mem1 i = mem i := fun i hi => run_kept hp i (h.right i hi).2
  obtain ⟨hsame, howned, memq', hrun, hrest⟩ := run_congr hq hlooks howns
  exact ⟨⟨hsame, howned⟩, memq', hrun, fun i hi => hrest i (howns i hi)⟩

/-- The programs of the list one after the other, with their results. -/
def runAll (p : γ → Access ι β α) : List γ → (ι → β) → Outcome (List α × (ι → β))
  | [], mem => done ([], mem)
  | k :: rest, mem => do
    let (a, mem) ← (p k).run mem
    let (results, mem) ← runAll p rest mem
    done (a :: results, mem)

/-- Each cell holds what the one program has left there that owns it, or what it has held. -/
structure Merged (p : γ → Access ι β α) (l : List γ) (mem mem' : ι → β) : Prop where
  owned : ∀ k ∈ l, ∀ a memk, (p k).run mem = done (a, memk) →
    ∀ i ∈ (p k).owns mem, mem' i = memk i
  kept : ∀ i, (∀ k ∈ l, i ∉ (p k).owns mem) → mem' i = mem i

variable {p : γ → Access ι β α} {l l' : List γ} {mem mem' : ι → β} {results : γ → α}

theorem runAll_merged (hends : ∀ k ∈ l, ∃ memk, (p k).run mem = done (results k, memk))
    (hapart : l.Pairwise fun k k' => Apart (p k) (p k') mem) :
    ∃ mem', runAll p l mem = done (l.map results, mem') ∧ Merged p l mem mem' := by
  induction l generalizing mem with
  | nil => exact ⟨mem, rfl, by simp, fun _ _ => rfl⟩
  | cons k rest ih =>
    obtain ⟨hfirst, hrest⟩ := List.pairwise_cons.mp hapart
    obtain ⟨mem1, hrun⟩ := hends k List.mem_cons_self
    have hcells : ∀ k' ∈ rest, (p k').looks mem1 = (p k').looks mem ∧
        (p k').owns mem1 = (p k').owns mem := by
      intro k' hk'
      obtain ⟨memk, hrun'⟩ := hends k' (List.mem_cons_of_mem _ hk')
      exact ((hfirst k' hk').run_after hrun hrun').1
    have hends1 : ∀ k' ∈ rest, ∃ memk, (p k').run mem1 = done (results k', memk) := by
      intro k' hk'
      obtain ⟨memk, hrun'⟩ := hends k' (List.mem_cons_of_mem _ hk')
      obtain ⟨-, memk', hrun1, -⟩ := (hfirst k' hk').run_after hrun hrun'
      exact ⟨memk', hrun1⟩
    obtain ⟨mem', hall, hmerged⟩ := ih hends1
      (hrest.imp_of_mem fun ha hb h => h.congr (hcells _ ha) (hcells _ hb))
    refine ⟨mem', ?_, ?_, ?_⟩
    · rw [runAll, hrun, done_bind]
      dsimp only
      rw [hall, done_bind]
      rfl
    · intro k' hk' a memk hrun' i hi
      rcases List.mem_cons.mp hk' with rfl | hk'
      · obtain rfl : mem1 = memk := (Prod.mk.inj (done.inj (hrun.symm.trans hrun'))).2
        refine hmerged.kept i fun k' hk' hown => ?_
        exact ((hfirst k' hk').left i hi).2 ((hcells k' hk').2 ▸ hown)
      · obtain ⟨-, memk', hrun1, hsame⟩ := (hfirst k' hk').run_after hrun hrun'
        rw [hmerged.owned k' hk' _ _ hrun1 i ((hcells k' hk').2 ▸ hi), hsame i hi]
    · intro i hi
      have hfirst : mem1 i = mem i := run_kept hrun i (hi k List.mem_cons_self)
      refine (hmerged.kept i fun k' hk' hown => ?_).trans hfirst
      exact hi k' (List.mem_cons_of_mem _ hk') ((hcells k' hk').2 ▸ hown)

theorem Merged.unique {mem1 mem2 : ι → β}
    (hends : ∀ k ∈ l, ∃ memk, (p k).run mem = done (results k, memk))
    (h1 : Merged p l mem mem1) (h2 : Merged p l mem mem2) : mem1 = mem2 := by
  funext i
  by_cases hi : ∃ k ∈ l, i ∈ (p k).owns mem
  · obtain ⟨k, hk, hi⟩ := hi
    obtain ⟨memk, hrun⟩ := hends k hk
    rw [h1.owned k hk _ _ hrun i hi, h2.owned k hk _ _ hrun i hi]
  · push Not at hi
    rw [h1.kept i hi, h2.kept i hi]

theorem Merged.perm {mem' : ι → β} (h : Merged p l mem mem') (hperm : l.Perm l') :
    Merged p l' mem mem' :=
  ⟨fun k hk => h.owned k (hperm.mem_iff.mpr hk),
    fun i hi => h.kept i fun k hk => hi k (hperm.mem_iff.mp hk)⟩

/-- **Programs apart run in any order.** -/
theorem runAll_perm (hends : ∀ k ∈ l, ∃ memk, (p k).run mem = done (results k, memk))
    (hapart : l.Pairwise fun k k' => Apart (p k) (p k') mem) (hperm : l.Perm l') :
    ∃ mem', runAll p l mem = done (l.map results, mem') ∧
      runAll p l' mem = done (l'.map results, mem') := by
  obtain ⟨mem1, hrun1, hmerged1⟩ := runAll_merged hends hapart
  obtain ⟨mem2, hrun2, hmerged2⟩ := runAll_merged
    (fun k hk => hends k (hperm.mem_iff.mpr hk))
    (hapart.perm hperm fun h => h.symm)
  obtain rfl := hmerged1.unique hends (hmerged2.perm hperm.symm)
  exact ⟨mem1, hrun1, hrun2⟩

end Run

end Access

end LibSystem
