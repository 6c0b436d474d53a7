import Cmsc624.A1.Barrier

/-!
# Which executors have counted

`fetch_and_increment` is the last thing an executor does, once. So the counter is the number of
the executors that have exited, and after `WaitOutstanding` these are all.
-/

namespace Cmsc624.A1.ThreadLauncher

open Lib

set_option autoImplicit false

variable {ρ : Type}

def counts (tr : List (Event ρ)) : List Nat :=
  tr.filterMap fun | .count i => some i | _ => none

@[simp] theorem counts_nil : counts ([] : List (Event ρ)) = [] := rfl

@[simp] theorem counts_append (tr tr' : List (Event ρ)) :
    counts (tr ++ tr') = counts tr ++ counts tr' := List.filterMap_append

def Executor.hasExited (x : Executor ρ) : Bool :=
  match x.pc with
  | .exited => true
  | _ => false

/-- An executor has counted when it has exited, and it has done so once. -/
structure Counted (tr : List (Event ρ)) (s : State ρ) : Prop where
  total : s.txnsExecuted = (counts tr).length
  nodup : (counts tr).Nodup
  exited : Threads.Holds Executor.hasExited s.executors (· ∈ counts tr)

section Counted
variable {M : Int32} {tr : List (Event ρ)} {s s' s₁ : State ρ} {e : Event ρ} {i : Nat}
  {targ : ArgPtr} {x : Executor ρ} {pc : ExecutorPc ρ}

theorem hasExited_iff : x.hasExited = true ↔ x.pc = .exited := by
  unfold Executor.hasExited
  constructor
  · intro h
    split at h
    · assumption
    · cases h
  · intro h
    rw [h]

theorem Counted.init (M : Int32) : Counted [] (State.init ρ M) where
  total := rfl
  nodup := List.nodup_nil
  exited j := by simp [State.init]

theorem Counted.quiet (h : Counted tr s) (hcount : counts [e] = [])
    (htotal : s'.txnsExecuted = s.txnsExecuted)
    (hexited : Threads.Holds Executor.hasExited s'.executors (· ∈ counts tr)) :
    Counted (tr ++ [e]) s' := by
  have hsame : counts (tr ++ [e]) = counts tr := by rw [counts_append, hcount, List.append_nil]
  exact ⟨by rw [hsame, htotal, h.total], hsame ▸ h.nodup, hsame ▸ hexited⟩

theorem Counted.launcherStep (h : Counted tr s) (hstep : LauncherStep s e s') :
    Counted (tr ++ [e]) s' := by
  cases hstep with
  | create hpc => exact h.quiet rfl rfl (h.exited.concat rfl)
  | _ => exact h.quiet rfl rfl h.exited

theorem Counted.notMem (h : Counted tr s) (hx : s.executors[i]? = some x)
    (hexit : x.hasExited = false) : i ∉ counts tr := by
  intro hmem
  obtain ⟨y, hy, hyexit⟩ := (h.exited i).mp hmem
  obtain rfl := Option.some.inj (hx.symm.trans hy)
  rw [hexit] at hyexit
  cases hyexit

theorem Counted.move (h : Counted tr s) (hx : s.executors[i]? = some x)
    (hexit : x.hasExited = false) (hpc : (Executor.mk targ pc).hasExited = false) :
    Threads.Holds Executor.hasExited (s.goto i targ pc).executors (· ∈ counts tr) := by
  apply h.exited.set hx
  · rw [hpc]
    exact iff_of_false (h.notMem hx hexit) Bool.false_ne_true
  · intro j _
    exact Iff.rfl

theorem Counted.count (h : Counted tr s) (hx : s.executors[i]? = some ⟨targ, .counting⟩) :
    Counted (tr ++ [.count i])
      { s.goto i targ .exited with txnsExecuted := s.txnsExecuted + 1 } := by
  have hcounts : counts (tr ++ [.count i]) = counts tr ++ [i] := counts_append _ _
  have hnew := h.notMem hx rfl
  refine ⟨?_, ?_, ?_⟩
  · rw [hcounts, List.length_append, ← h.total]
    rfl
  · rw [hcounts]
    apply List.nodup_append.mpr
    refine ⟨h.nodup, List.nodup_singleton i, ?_⟩
    intro a ha b hb hab
    rw [hab, List.mem_singleton.mp hb] at ha
    exact hnew ha
  · rw [hcounts]
    apply h.exited.set hx
    · simp [Executor.hasExited]
    · intro j hj
      simp [hj]

theorem Counted.executorStep (h : Counted tr s) (hstep : ExecutorStep i s e s') :
    Counted (tr ++ [e]) s' := by
  cases hstep with
  | count hx => exact h.count hx
  | execute hx | executed hx | lockList hx | setNext hx | publish hx | unlockList hx | lock hx
  | increment hx | signal hx | signalNobody hx | unlock hx =>
    exact h.quiet rfl rfl (h.move hx rfl rfl)

theorem counted_of_run (h : Runs M tr s) : Counted tr s := by
  apply h.invariant (I := fun tr s => Counted tr s)
  · exact Counted.init M
  · intro tr s e s' _ hcounted hstep
    cases hstep with
    | launcher hstep => exact hcounted.launcherStep hstep
    | executor i hstep => exact hcounted.executorStep hstep

/-- When the wait ends, every executor has exited. -/
theorem exited_of_waited (h : Runs M tr s) (hstep : Step s .waited s₁)
    (hx : s.executors[i]? = some x) : x.pc = .exited := by
  have hi : i < (issued tr).length := by
    rw [(executed_of_run h).issued_length, (numbered_of_run h).requests]
    exact Nat.lt_add_right _ (List.getElem?_eq_some_iff.mp hx).1
  have hphase := counted_of_waited h hstep (List.getElem?_eq_getElem hi)
  rw [phases_getElem hx] at hphase
  have hphase := Option.some.inj hphase
  cases hpc : x.pc with
  | exited => rfl
  | _ =>
    rw [hpc] at hphase
    cases hphase

theorem ExecutorStep.running (hstep : ExecutorStep i s e s') :
    ∃ x, s.executors[i]? = some x ∧ x.pc ≠ .exited := by
  cases hstep with
  | execute hx | executed hx | lockList hx | setNext hx | publish hx | unlockList hx | lock hx
  | increment hx | signal hx | signalNobody hx | unlock hx | count hx => exact ⟨_, hx, nofun⟩

theorem LauncherStep.of_waiting (hstep : LauncherStep s e s') (hwait : s.launcher = .waiting) :
    s' = s ∨ e = .waited ∧ s' = { s with launcher := .idle } := by
  cases hstep with
  | retry hpc hne => exact .inl rfl
  | waited hpc heq => exact .inr ⟨rfl, rfl⟩
  | issue req hpc | allocate id hpc | create hpc | lock hpc | wait hpc | wakeSpuriously hpc
  | relock hpc | pass hpc | take hpc | unlock hpc | lockList hpc | detach hpc | clear hpc
  | unlockList hpc | next hpc | join hpc | freeId hpc | free hpc | ret hpc | waitOutstanding hpc =>
    rw [hpc] at hwait
    cases hwait

/-- An executor moves the launcher when it wakes it, and else not. -/
theorem ExecutorStep.launcher_eq (hstep : ExecutorStep i s e s') (hl : s.launcher ≠ .sleeping) :
    s'.launcher = s.launcher := by
  cases hstep with
  | signal hx hsleep => exact absurd hsleep hl
  | _ => rfl

end Counted

end Cmsc624.A1.ThreadLauncher
