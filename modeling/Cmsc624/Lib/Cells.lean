import Cmsc624.Lib.Runs
import Mathlib.Algebra.BigOperators.Group.List.Basic
import Mathlib.Algebra.Group.Basic
import Mathlib.Logic.Function.Basic
import Mathlib.Tactic.Abel

/-!
# Cells with additions that are not atomic

A thread adds to a cell in two steps, a load and a store. What the others have stored there in
between is lost, so a cell has what was added to it less what was lost.
-/

namespace Lib.Cells

set_option autoImplicit false

universe u v w
variable {τ : Type u} {κ : Type v} {α : Type w}

structure State (τ : Type u) (κ : Type v) (α : Type w) where
  mem : κ → α
  -- The cell that a thread has loaded and not stored yet, and the value it has read.
  held : τ → Option (κ × α)

/-- A store with the value of its load and the one that was there when it came. -/
structure Store (τ : Type u) (κ : Type v) (α : Type w) where
  thread : τ
  cell : κ
  read : α
  overwritten : α
  addend : α

inductive Event (τ : Type u) (κ : Type v) (α : Type w) where
  | load (t : τ) (c : κ)
  | store (x : Store τ κ α)

def Event.thread : Event τ κ α → τ
  | .load t _ => t
  | .store x => x.thread

def Event.cell : Event τ κ α → κ
  | .load _ c => c
  | .store x => x.cell

inductive Step [DecidableEq τ] [DecidableEq κ] [Add α] :
    State τ κ α → Event τ κ α → State τ κ α → Prop where
  | load {s : State τ κ α} {t : τ} (c : κ) (hfree : s.held t = none) :
      Step s (.load t c) { s with held := Function.update s.held t (some (c, s.mem c)) }
  | store {s : State τ κ α} {t : τ} {c : κ} {a : α} (d : α) (hheld : s.held t = some (c, a)) :
      Step s (.store ⟨t, c, a, s.mem c, d⟩)
        ⟨Function.update s.mem c (a + d), Function.update s.held t none⟩

def stores (tr : List (Event τ κ α)) : List (Store τ κ α) :=
  tr.filterMap fun | .store x => some x | .load _ _ => none

/-- What every thread has added, in order. -/
def added (tr : List (Event τ κ α)) : List (τ × κ × α) :=
  (stores tr).map fun x => (x.thread, x.cell, x.addend)

/-- All of the list that is for the cell `c`. -/
def sumAt [DecidableEq κ] [AddMonoid α] (c : κ) (l : List (κ × α)) : α :=
  (l.map fun x => if x.1 = c then x.2 else 0).sum

/-- What the stores to the cell `c` have overwritten and not read. -/
def lost [DecidableEq κ] [AddGroup α] (tr : List (Event τ κ α)) (c : κ) : α :=
  sumAt c ((stores tr).map fun x => (x.cell, x.overwritten - x.read))

/-- Every store finds the value of its load. -/
def Careful (tr : List (Event τ κ α)) : Prop := ∀ x ∈ stores tr, x.read = x.overwritten

section Logs
variable (tr tr' : List (Event τ κ α)) (x : Store τ κ α) (t : τ) (c : κ)

@[simp] theorem stores_append : stores (tr ++ tr') = stores tr ++ stores tr' :=
  List.filterMap_append

@[simp] theorem stores_store : stores [.store x] = [x] := rfl

@[simp] theorem stores_load : stores ([.load t c] : List (Event τ κ α)) = [] := rfl

@[simp] theorem added_append : added (tr ++ tr') = added tr ++ added tr' := by
  rw [added, stores_append, List.map_append, ← added, ← added]

theorem mem_of_stores {tr : List (Event τ κ α)} {x : Store τ κ α} (h : x ∈ stores tr) :
    Event.store x ∈ tr := by
  obtain ⟨e, he, hx⟩ := List.mem_filterMap.mp h
  cases e with
  | load t c => cases hx
  | store y =>
    obtain rfl := Option.some.inj hx
    exact he

variable [DecidableEq κ]

theorem sumAt_append [AddMonoid α] (c : κ) (l l' : List (κ × α)) :
    sumAt c (l ++ l') = sumAt c l + sumAt c l' := by
  rw [sumAt, List.map_append, List.sum_append, ← sumAt, ← sumAt]

@[simp] theorem sumAt_singleton [AddMonoid α] (c : κ) (x : κ × α) :
    sumAt c [x] = if x.1 = c then x.2 else 0 := by
  rw [sumAt, List.map_singleton, List.sum_singleton]

theorem sumAt_perm [AddCommMonoid α] {l l' : List (κ × α)} (h : l.Perm l') (c : κ) :
    sumAt c l = sumAt c l' := (h.map _).sum_eq

theorem sumAt_eq_zero [AddMonoid α] {l : List (κ × α)} {c : κ} (h : ∀ x ∈ l, x.1 = c → x.2 = 0) :
    sumAt c l = 0 := by
  apply List.sum_eq_zero
  intro a ha
  obtain ⟨x, hx, rfl⟩ := List.mem_map.mp ha
  split
  · rename_i hc
    exact h x hx hc
  · rfl

@[simp] theorem lost_append [AddGroup α] : lost (tr ++ tr') c = lost tr c + lost tr' c := by
  rw [lost, stores_append, List.map_append, sumAt_append, ← lost, ← lost]

@[simp] theorem lost_nil [AddGroup α] : lost ([] : List (Event τ κ α)) c = 0 := rfl

@[simp] theorem lost_load [AddGroup α] (c' : κ) :
    lost ([.load t c'] : List (Event τ κ α)) c = 0 := rfl

@[simp] theorem lost_store [AddGroup α] :
    lost [.store x] c = if x.cell = c then x.overwritten - x.read else 0 := by
  rw [lost, stores_store, List.map_singleton, sumAt_singleton]

theorem lost_of_careful [AddGroup α] {tr : List (Event τ κ α)} (h : Careful tr) (c : κ) :
    lost tr c = 0 := by
  apply sumAt_eq_zero
  intro y hy _
  obtain ⟨x, hx, rfl⟩ := List.mem_map.mp hy
  exact sub_eq_zero.mpr (h x hx).symm

theorem lost_of_unstored [AddGroup α] {tr : List (Event τ κ α)} (h : ∀ x ∈ stores tr, x.cell ≠ c) :
    lost tr c = 0 := by
  apply sumAt_eq_zero
  intro y hy hc
  obtain ⟨x, hx, rfl⟩ := List.mem_map.mp hy
  exact absurd hc (h x hx)

end Logs

section Careful
variable {tr tr' : List (Event τ κ α)}

theorem Careful.append (h : Careful tr) (h' : Careful tr') : Careful (tr ++ tr') := by
  intro x hx
  rw [stores_append] at hx
  exact (List.mem_append.mp hx).elim (h x) (h' x)

end Careful

/-- No two threads use the same cell. -/
def Separate (tr : List (Event τ κ α)) : Prop :=
  ∀ e ∈ tr, ∀ e' ∈ tr, e.cell = e'.cell → e.thread = e'.thread

theorem Separate.of_append {tr tr' : List (Event τ κ α)} (h : Separate (tr ++ tr')) :
    Separate tr := by
  intro e he e' he'
  exact h e (List.mem_append_left _ he) e' (List.mem_append_left _ he')

section Runs
variable [DecidableEq τ] [DecidableEq κ] {s₀ s : State τ κ α} {tr : List (Event τ κ α)}

theorem mem_of_run [AddCommGroup α] (h : Run Step s₀ tr s) (c : κ) :
    s.mem c = s₀.mem c + sumAt c ((added tr).map Prod.snd) - lost tr c := by
  induction h with
  | nil => exact ((sub_zero _).trans (add_zero _)).symm
  | @snoc tr s s' e _ hstep ih =>
    rw [added_append, List.map_append, sumAt_append, lost_append]
    cases hstep with
    | load c' hfree =>
      refine ih.trans ?_
      show _ = s₀.mem c + (_ + 0) - (lost tr c + 0)
      rw [add_zero, add_zero]
    | @store t c' a d hheld =>
      show Function.update s.mem c' (a + d) c = s₀.mem c + (_ + sumAt c [(c', d)]) -
        (lost tr c + sumAt c [(c', s.mem c' - a)])
      simp only [sumAt_singleton]
      by_cases hc : c' = c
      · subst hc
        rw [Function.update_self, if_pos rfl, if_pos rfl, ← add_assoc, add_sub_add_comm, ← ih]
        abel
      · rw [Function.update_of_ne (Ne.symm hc), if_neg hc, if_neg hc, add_zero, add_zero]
        exact ih

/-- As long as no two threads use the same cell, a value that is held is the last one. -/
structure Current (s₀ : State τ κ α) (tr : List (Event τ κ α)) (s : State τ κ α) : Prop where
  value : ∀ t c a, s₀.held t = none → s.held t = some (c, a) → a = s.mem c
  loaded : ∀ t c a, s₀.held t = none → s.held t = some (c, a) →
    ∃ e ∈ tr, e.thread = t ∧ e.cell = c

theorem current_of_run [Add α] (h : Run Step s₀ tr s) (hsep : Separate tr) :
    Current s₀ tr s := by
  induction h with
  | nil =>
    constructor
    · intro t c a hinit hheld
      rw [hinit] at hheld
      cases hheld
    · intro t c a hinit hheld
      rw [hinit] at hheld
      cases hheld
  | @snoc tr s s' e _ hstep ih =>
    obtain ⟨hvalue, hloaded⟩ := ih hsep.of_append
    have hkeep : ∀ t c a, s₀.held t = none → s.held t = some (c, a) →
        ∃ f ∈ tr ++ [e], f.thread = t ∧ f.cell = c := by
      intro t c a hinit hheld
      obtain ⟨f, hf, hthread, hcell⟩ := hloaded t c a hinit hheld
      exact ⟨f, List.mem_append_left _ hf, hthread, hcell⟩
    cases hstep with
    | @load t' c' hfree =>
      constructor
      · intro t c a hinit hheld
        by_cases ht : t = t'
        · subst ht
          obtain ⟨rfl, rfl⟩ : c' = c ∧ s.mem c' = a := by simpa using hheld
          rfl
        · exact hvalue t c a hinit (by simpa [ht] using hheld)
      · intro t c a hinit hheld
        by_cases ht : t = t'
        · subst ht
          obtain ⟨rfl, rfl⟩ : c' = c ∧ s.mem c' = a := by simpa using hheld
          exact ⟨_, List.mem_append_right _ (List.mem_singleton_self _), rfl, rfl⟩
        · exact hkeep t c a hinit (by simpa [ht] using hheld)
    | @store t' c' a' d hheld' =>
      have hother : ∀ t c a, (Function.update s.held t' none) t = some (c, a) →
          t ≠ t' ∧ s.held t = some (c, a) := by
        intro t c a hheld
        by_cases ht : t = t'
        · subst ht
          rw [Function.update_self] at hheld
          cases hheld
        · rw [Function.update_of_ne ht] at hheld
          exact ⟨ht, hheld⟩
      constructor
      · intro t c a hinit hheld
        obtain ⟨ht, hheld⟩ := hother t c a hheld
        -- the other thread has used another cell
        have hc : c ≠ c' := by
          intro hc
          obtain ⟨f, hf, hthread, hcell⟩ := hkeep t c a hinit hheld
          have hsame := hsep f hf _ (List.mem_append_right _ (List.mem_singleton_self _))
            (hcell.trans hc)
          exact ht (hthread.symm.trans hsame)
        rw [hvalue t c a hinit hheld]
        exact (Function.update_of_ne hc _ _).symm
      · intro t c a hinit hheld
        exact hkeep t c a hinit (hother t c a hheld).2

/-- Threads that have nothing loaded at the start and share no cell lose nothing. -/
theorem careful_of_separate [Add α] (hinit : ∀ e ∈ tr, s₀.held e.thread = none)
    (h : Run Step s₀ tr s) (hsep : Separate tr) : Careful tr := by
  induction h with
  | nil =>
    intro x hx
    cases hx
  | @snoc tr s s' e hrun hstep ih =>
    apply (ih (fun f hf => hinit f (List.mem_append_left _ hf)) hsep.of_append).append
    have hcurrent := current_of_run hrun hsep.of_append
    have hnone := hinit e (List.mem_append_right _ (List.mem_singleton_self e))
    cases hstep with
    | load c hfree =>
      intro x hx
      cases hx
    | @store t c a d hheld =>
      intro x hx
      obtain rfl := List.mem_singleton.mp hx
      exact hcurrent.value t c a hnone hheld

theorem careful_of_alone [Add α] {t : τ} (hfree : s₀.held t = none) (h : Run Step s₀ tr s)
    (halone : ∀ e ∈ tr, e.thread = t) : Careful tr := by
  apply careful_of_separate _ h
  · intro e he e' he' _
    rw [halone e he, halone e' he']
  · intro e he
    rw [halone e he]
    exact hfree

end Runs

end Lib.Cells
