import Cmsc624.Lib.Runs
import Cmsc624.Lib.Tagged
import Mathlib.Data.Fintype.Basic

/-!
# StaticThreadPool

Any number of threads call `AddTask`, each worker serves its own queue, and the
destructor stops and joins the workers. A queue's mutex makes each push and pop atomic,
and a `TryLock` may fail at any time. Every task is one call of `AddTask`.
-/

namespace Cmsc624.A2.ThreadPool

open Lib

set_option autoImplicit false

/-- Where a worker is in `RunThread`. -/
inductive WorkerPc (τ : Type) where
  -- At `PopNonBlocking`.
  | polling
  -- In `task()` after it.
  | executing (task : τ)
  -- At `if (tp->stopped_)`.
  | checking
  -- At `Pop`.
  | draining
  -- In `task()` after it.
  | drainTask (task : τ)
  | exited

variable {τ : Type}

def WorkerPc.tasks : WorkerPc τ → List τ
  | .executing t => [t]
  | .drainTask t => [t]
  | _ => []

def WorkerPc.sawStop : WorkerPc τ → Prop
  | .draining => True
  | .drainTask _ => True
  | .exited => True
  | _ => False

/-- A queue with the worker that serves it. -/
structure Lane (τ : Type) where
  queue : List τ
  worker : WorkerPc τ

def Lane.push (l : Lane τ) (t : τ) : Lane τ := { l with queue := l.queue ++ [t] }

inductive WorkerEvent (τ : Type) where
  | start (t : τ)
  | finish (t : τ)
  | skip

/-- One statement of `RunThread`; `stopped` is the flag that it reads. -/
inductive WorkerStep (stopped : Bool) : Lane τ → WorkerEvent τ → Lane τ → Prop where
  | popNonBlocking {t : τ} {q : List τ} :
      WorkerStep stopped ⟨t :: q, .polling⟩ (.start t) ⟨q, .executing t⟩
  -- The mutex was taken, or the queue was empty.
  | popFails {q : List τ} : WorkerStep stopped ⟨q, .polling⟩ .skip ⟨q, .checking⟩
  | finish {t : τ} {q : List τ} : WorkerStep stopped ⟨q, .executing t⟩ (.finish t) ⟨q, .checking⟩
  | goOn {q : List τ} (hs : stopped = false) :
      WorkerStep stopped ⟨q, .checking⟩ .skip ⟨q, .polling⟩
  | seeStop {q : List τ} (hs : stopped = true) :
      WorkerStep stopped ⟨q, .checking⟩ .skip ⟨q, .draining⟩
  | pop {t : τ} {q : List τ} : WorkerStep stopped ⟨t :: q, .draining⟩ (.start t) ⟨q, .drainTask t⟩
  | drained {t : τ} {q : List τ} :
      WorkerStep stopped ⟨q, .drainTask t⟩ (.finish t) ⟨q, .draining⟩
  | exit : WorkerStep stopped ⟨[], .draining⟩ .skip ⟨[], .exited⟩

/-- The pool with its callers. `todo` are the calls of `AddTask` still to come, `calling`
those in their retry loop, `returning` those that have pushed. `joined` counts the joins. -/
structure Pool (n : Nat) (τ : Type) where
  lanes : Fin n → Lane τ
  todo : List τ
  calling : List τ
  returning : List τ
  stopped : Bool
  joined : Nat

def Pool.init (n : Nat) (tasks : List τ) : Pool n τ where
  lanes _ := ⟨[], .polling⟩
  todo := tasks
  calling := []
  returning := []
  stopped := false
  joined := 0

inductive Event (n : Nat) (τ : Type) where
  | call (t : τ)
  | retry (t : τ) (i : Fin n)
  | push (i : Fin n) (t : τ)
  | ret (t : τ)
  | work (i : Fin n) (e : WorkerEvent τ)
  | stop
  | join (i : Fin n)

inductive Step {n : Nat} : Pool n τ → Event n τ → Pool n τ → Prop where
  -- `AddTask` is called and passes its assertion.
  | call {s : Pool n τ} {a b : List τ} {t : τ} (ht : s.todo = a ++ t :: b)
      (hs : s.stopped = false) :
      Step s (.call t) { s with todo := a ++ b, calling := t :: s.calling }
  -- `PushNonBlocking` on a random queue returns false.
  | retry {s : Pool n τ} {t : τ} (i : Fin n) (ht : t ∈ s.calling) : Step s (.retry t i) s
  -- It pushes and returns true.
  | push {s : Pool n τ} {a b : List τ} {t : τ} (i : Fin n) (ht : s.calling = a ++ t :: b) :
      Step s (.push i t)
        { s with
          lanes := Function.update s.lanes i ((s.lanes i).push t)
          calling := a ++ b
          returning := t :: s.returning }
  | ret {s : Pool n τ} {a b : List τ} {t : τ} (ht : s.returning = a ++ t :: b) :
      Step s (.ret t) { s with returning := a ++ b }
  | work {s : Pool n τ} {e : WorkerEvent τ} {l : Lane τ} (i : Fin n)
      (hl : WorkerStep s.stopped (s.lanes i) e l) :
      Step s (.work i e) { s with lanes := Function.update s.lanes i l }
  -- The destructor begins, when no call of `AddTask` is under way.
  | stop {s : Pool n τ} (hc : s.calling = []) (hr : s.returning = []) :
      Step s .stop { s with stopped := true }
  -- `pthread_join` on the next worker returns.
  | join {s : Pool n τ} (i : Fin n) (hs : s.stopped = true) (hi : i.val = s.joined)
      (he : (s.lanes i).worker = .exited) : Step s (.join i) { s with joined := s.joined + 1 }

abbrev Runs (n : Nat) (tasks : List τ) : List (Event n τ) → Pool n τ → Prop :=
  Run Step (Pool.init n tasks)

section Logs
variable {n : Nat}

def called (tr : List (Event n τ)) : List τ := tr.filterMap fun | .call t => some t | _ => none

def returned (tr : List (Event n τ)) : List τ := tr.filterMap fun | .ret t => some t | _ => none

def pushes (tr : List (Event n τ)) : List (Fin n × τ) :=
  tr.filterMap fun | .push i t => some (i, t) | _ => none

def starts (tr : List (Event n τ)) : List (Fin n × τ) :=
  tr.filterMap fun | .work i (.start t) => some (i, t) | _ => none

def finishes (tr : List (Event n τ)) : List (Fin n × τ) :=
  tr.filterMap fun | .work i (.finish t) => some (i, t) | _ => none

def pushed (tr : List (Event n τ)) : List τ := (pushes tr).map Prod.snd

variable (tr tr' : List (Event n τ))

@[simp] theorem called_append : called (tr ++ tr') = called tr ++ called tr' :=
  List.filterMap_append

@[simp] theorem returned_append : returned (tr ++ tr') = returned tr ++ returned tr' :=
  List.filterMap_append

@[simp] theorem pushes_append : pushes (tr ++ tr') = pushes tr ++ pushes tr' :=
  List.filterMap_append

@[simp] theorem starts_append : starts (tr ++ tr') = starts tr ++ starts tr' :=
  List.filterMap_append

@[simp] theorem finishes_append : finishes (tr ++ tr') = finishes tr ++ finishes tr' :=
  List.filterMap_append

@[simp] theorem pushed_append : pushed (tr ++ tr') = pushed tr ++ pushed tr' := by
  simp [pushed]

end Logs

/-- A lane, compared with what was pushed, started and finished on it. -/
structure LaneInv (stopped : Bool) (pushed started finished : List τ) (l : Lane τ) : Prop where
  fifo : pushed = started ++ l.queue
  running : started = finished ++ l.worker.tasks
  saw_stop : l.worker.sawStop → stopped = true
  drained : l.worker = .exited → l.queue = []

def WorkerEvent.started : WorkerEvent τ → List τ
  | .start t => [t]
  | _ => []

def WorkerEvent.finished : WorkerEvent τ → List τ
  | .finish t => [t]
  | _ => []

section LaneInv
variable {stopped : Bool} {ps ss fs : List τ} {l l' : Lane τ} {e : WorkerEvent τ}

theorem WorkerStep.queue_eq (h : WorkerStep stopped l e l') : l.queue = e.started ++ l'.queue := by
  cases h <;> rfl

theorem WorkerStep.tasks_eq (h : WorkerStep stopped l e l') :
    l.worker.tasks ++ e.started = e.finished ++ l'.worker.tasks := by
  cases h <;> rfl

theorem WorkerStep.sawStop (h : WorkerStep stopped l e l') (h' : l'.worker.sawStop) :
    stopped = true ∨ l.worker.sawStop := by
  cases h with
  | seeStop hs => exact .inl hs
  | pop => exact .inr trivial
  | drained => exact .inr trivial
  | exit => exact .inr trivial
  | _ => exact h'.elim

theorem WorkerStep.queue_of_exited (h : WorkerStep stopped l e l')
    (h' : l'.worker = .exited) : l'.queue = [] := by
  cases h with
  | exit => rfl
  | _ => cases h'

theorem WorkerStep.not_exited (h : WorkerStep stopped l e l') : l.worker ≠ .exited := by
  cases h <;> simp

theorem LaneInv.step (h : LaneInv stopped ps ss fs l) (hstep : WorkerStep stopped l e l') :
    LaneInv stopped ps (ss ++ e.started) (fs ++ e.finished) l' where
  fifo := by rw [h.fifo, hstep.queue_eq, List.append_assoc]
  running := by rw [h.running, List.append_assoc, hstep.tasks_eq, List.append_assoc]
  saw_stop h' := (hstep.sawStop h').elim id h.saw_stop
  drained := hstep.queue_of_exited

/-- A push comes before the stop, so the worker has not left its loop yet. -/
theorem LaneInv.push (h : LaneInv false ps ss fs l) (t : τ) :
    LaneInv false (ps ++ [t]) ss fs (l.push t) where
  fifo := by
    rw [h.fifo, List.append_assoc]
    rfl
  running := h.running
  saw_stop := h.saw_stop
  drained hexit := by
    have hworker : l.worker = .exited := hexit
    have hstop := h.saw_stop (by rw [hworker]; trivial)
    cases hstop

theorem LaneInv.stop (h : LaneInv stopped ps ss fs l) : LaneInv true ps ss fs l where
  fifo := h.fifo
  running := h.running
  saw_stop _ := rfl
  drained := h.drained

end LaneInv

section Pool
variable {n : Nat} {tasks : List τ} {tr : List (Event n τ)} {s s' : Pool n τ} {e : Event n τ}

/-- No call of `AddTask` is lost or doubled. -/
structure Calls (tasks : List τ) (tr : List (Event n τ)) (s : Pool n τ) : Prop where
  known : (s.todo ++ called tr).Perm tasks
  under_way : (called tr).Perm (s.calling ++ pushed tr)
  done : (pushed tr).Perm (s.returning ++ returned tr)

theorem Calls.init (n : Nat) (tasks : List τ) : Calls tasks [] (Pool.init n tasks) where
  known := by simp [Pool.init, called]
  under_way := .nil
  done := .nil

/-- What one step moves from one stage of `AddTask` to the next. -/
theorem step_counts [DecidableEq τ] (h : Step s e s') (x : τ) :
    s'.todo.count x + (called [e]).count x = s.todo.count x ∧
    s'.calling.count x + (pushed [e]).count x = s.calling.count x + (called [e]).count x ∧
    s'.returning.count x + (returned [e]).count x = s.returning.count x + (pushed [e]).count x := by
  cases h with
  | call ht hs =>
    simp [called, pushed, pushes, returned, ht, List.count_cons]
    omega
  | push i ht =>
    simp [called, pushed, pushes, returned, ht, List.count_cons]
    omega
  | ret ht =>
    simp [called, pushed, pushes, returned, ht, List.count_cons]
    omega
  | retry i ht => simp [called, pushed, pushes, returned]
  | work i hl => simp [called, pushed, pushes, returned]
  | stop hc hr => simp [called, pushed, pushes, returned]
  | join i hs hi he => simp [called, pushed, pushes, returned]

theorem Calls.step [DecidableEq τ] (inv : Calls tasks tr s) (h : Step s e s') :
    Calls tasks (tr ++ [e]) s' := by
  have hknown := List.perm_iff_count.mp inv.known
  have hunder := List.perm_iff_count.mp inv.under_way
  have hdone := List.perm_iff_count.mp inv.done
  simp only [List.count_append] at hknown hunder hdone
  constructor
  · rw [List.perm_iff_count]
    intro x
    obtain ⟨h₁, _, _⟩ := step_counts h x
    rw [called_append, List.count_append, List.count_append, ← hknown x]
    omega
  · rw [List.perm_iff_count]
    intro x
    obtain ⟨_, h₂, _⟩ := step_counts h x
    rw [called_append, pushed_append, List.count_append, List.count_append, List.count_append,
      hunder x]
    omega
  · rw [List.perm_iff_count]
    intro x
    obtain ⟨_, _, h₃⟩ := step_counts h x
    rw [pushed_append, returned_append, List.count_append, List.count_append, List.count_append,
      hdone x]
    omega

theorem calls_of_run (h : Runs n tasks tr s) : Calls tasks tr s := by
  classical
  exact h.invariant (Calls.init n tasks) fun _ inv hstep => inv.step hstep

/-- After the stop nothing is pushed any more. -/
theorem quiet_of_run (h : Runs n tasks tr s) :
    s.stopped = true → s.calling = [] ∧ s.returning = [] := by
  apply h.stateInvariant (I := fun s => s.stopped = true → s.calling = [] ∧ s.returning = [])
  · intro hs
    cases hs
  · intro s e s' hquiet hstep hs'
    cases hstep with
    | call _ hs => exact absurd hs' (by simp [hs])
    | retry _ _ => exact hquiet hs'
    | push i ht => exact absurd (hquiet hs').1 (by simp [ht])
    | ret ht => exact absurd (hquiet hs').2 (by simp [ht])
    | work _ _ => exact hquiet hs'
    | stop hc hr => exact ⟨hc, hr⟩
    | join _ _ _ _ => exact hquiet hs'

theorem onChannel_starts (i j : Fin n) (e : WorkerEvent τ) :
    onChannel (starts [Event.work j e]) i = if j = i then e.started else [] := by
  cases e with
  | start t => exact (onChannel_cons (j, t) [] i).trans (List.append_nil _)
  | finish t => exact (ite_self _).symm
  | skip => exact (ite_self _).symm

theorem onChannel_finishes (i j : Fin n) (e : WorkerEvent τ) :
    onChannel (finishes [Event.work j e]) i = if j = i then e.finished else [] := by
  cases e with
  | start t => exact (ite_self _).symm
  | finish t => exact (onChannel_cons (j, t) [] i).trans (List.append_nil _)
  | skip => exact (ite_self _).symm

theorem lane_of_run (h : Runs n tasks tr s) (i : Fin n) :
    LaneInv s.stopped (onChannel (pushes tr) i) (onChannel (starts tr) i)
      (onChannel (finishes tr) i) (s.lanes i) := by
  apply h.invariant (I := fun tr s => LaneInv s.stopped (onChannel (pushes tr) i)
    (onChannel (starts tr) i) (onChannel (finishes tr) i) (s.lanes i))
  · exact ⟨rfl, rfl, False.elim, fun _ => rfl⟩
  · intro tr s e s' hr inv hstep
    rw [pushes_append, starts_append, finishes_append, onChannel_append, onChannel_append,
      onChannel_append]
    cases hstep with
    | call _ _ => simpa [pushes, starts, finishes] using inv
    | retry _ _ => simpa [pushes, starts, finishes] using inv
    | ret _ => simpa [pushes, starts, finishes] using inv
    | join _ _ _ _ => simpa [pushes, starts, finishes] using inv
    | stop _ _ => simpa [pushes, starts, finishes] using inv.stop
    | @push a b t j ht =>
      -- the destructor waits for all callers, so this one came before it
      have hs : s.stopped = false := by
        by_contra hs
        have hnil := (quiet_of_run hr (by simpa using hs)).1
        simp [ht] at hnil
      by_cases hj : j = i
      · subst hj
        rw [hs] at inv
        simpa [pushes, starts, finishes, onChannel_self, hs] using inv.push t
      · simpa [pushes, starts, finishes, onChannel_of_ne hj, Ne.symm hj] using inv
    | @work e l j hl =>
      rw [onChannel_starts, onChannel_finishes]
      by_cases hj : j = i
      · subst hj
        simpa [pushes] using inv.step hl
      · simpa [pushes, hj, Ne.symm hj] using inv

theorem exited_of_run (h : Runs n tasks tr s) :
    ∀ i : Fin n, i.val < s.joined → (s.lanes i).worker = .exited := by
  apply h.stateInvariant (I := fun s => ∀ i : Fin n, i.val < s.joined →
    (s.lanes i).worker = .exited)
  · intro i hi
    exact absurd hi (Nat.not_lt_zero _)
  · intro s e s' hexited hstep i hi
    cases hstep with
    | call _ _ => exact hexited i hi
    | retry _ _ => exact hexited i hi
    | ret _ => exact hexited i hi
    | stop _ _ => exact hexited i hi
    | @push a b t j ht =>
      have hold := hexited i hi
      by_cases hj : i = j
      · subst hj
        simpa [Lane.push] using hold
      · simpa [hj] using hold
    | @work e l j hl =>
      have hold := hexited i hi
      by_cases hj : i = j
      · subst hj
        exact absurd hold hl.not_exited
      · simpa [hj] using hold
    | join j hs hj he =>
      have hle : i.val < s.joined ∨ i = j := by
        have hi' : i.val < s.joined + 1 := hi
        rw [Fin.ext_iff]
        omega
      rcases hle with hlt | rfl
      · exact hexited i hlt
      · exact he

theorem pushed_eq (h : Runs n tasks tr s) : (pushed tr : Multiset τ) =
    ((starts tr).map Prod.snd : List τ) + ∑ i, ((s.lanes i).queue : Multiset τ) := by
  have hlane : ∀ i, (onChannel (pushes tr) i : Multiset τ) =
      onChannel (starts tr) i + (s.lanes i).queue := by
    intro i
    rw [(lane_of_run h i).fifo, ← Multiset.coe_add]
  rw [pushed, ← sum_onChannel, Finset.sum_congr rfl fun i _ => hlane i, Finset.sum_add_distrib,
    sum_onChannel]

theorem started_eq (h : Runs n tasks tr s) : (((starts tr).map Prod.snd : List τ) : Multiset τ) =
    ((finishes tr).map Prod.snd : List τ) + ∑ i, ((s.lanes i).worker.tasks : Multiset τ) := by
  have hlane : ∀ i, (onChannel (starts tr) i : Multiset τ) =
      onChannel (finishes tr) i + (s.lanes i).worker.tasks := by
    intro i
    rw [(lane_of_run h i).running, ← Multiset.coe_add]
  rw [← sum_onChannel, Finset.sum_congr rfl fun i _ => hlane i, Finset.sum_add_distrib,
    sum_onChannel]

theorem pushed_nodup (htasks : tasks.Nodup) (h : Runs n tasks tr s) : (pushed tr).Nodup := by
  have inv := calls_of_run h
  have hcalled := (List.nodup_append.mp (inv.known.nodup_iff.mpr htasks)).2.1
  exact (List.nodup_append.mp (inv.under_way.nodup_iff.mp hcalled)).2.1

theorem started_nodup (htasks : tasks.Nodup) (h : Runs n tasks tr s) :
    ((starts tr).map Prod.snd).Nodup := by
  have hle : (((starts tr).map Prod.snd : List τ) : Multiset τ) ≤ pushed tr := by
    rw [pushed_eq h]
    exact Multiset.le_add_right _ _
  exact Multiset.coe_nodup.mp (Multiset.nodup_of_le hle (Multiset.coe_nodup.mpr
    (pushed_nodup htasks h)))

/-- Once the destructor has joined all workers, every lane is empty. -/
theorem lane_of_joined (h : Runs n tasks tr s) (hjoined : s.joined = n) (i : Fin n) :
    (s.lanes i).queue = [] ∧ (s.lanes i).worker.tasks = [] := by
  have hexited : (s.lanes i).worker = .exited := by
    apply exited_of_run h i
    rw [hjoined]
    exact i.isLt
  exact ⟨(lane_of_run h i).drained hexited, by rw [hexited]; rfl⟩

/-- Every task is run exactly once, shutdown included. -/
theorem every_task_once [DecidableEq τ] (htasks : tasks.Nodup) (h : Runs n tasks tr s) :
    (∀ t ∈ returned tr, (pushed tr).count t = 1) ∧
    ((starts tr).map Prod.snd).Nodup ∧
    (pushed tr : Multiset τ) = ∑ i, ((s.lanes i).queue : Multiset τ) +
      ∑ i, ((s.lanes i).worker.tasks : Multiset τ) + ((finishes tr).map Prod.snd : List τ) ∧
    (∀ i, onChannel (pushes tr) i = onChannel (starts tr) i ++ (s.lanes i).queue) ∧
    (s.stopped = true → s.joined = n → (called tr).Perm ((finishes tr).map Prod.snd)) := by
  refine ⟨?_, started_nodup htasks h, ?_, fun i => (lane_of_run h i).fifo, ?_⟩
  · intro t ht
    apply List.count_eq_one_of_mem (pushed_nodup htasks h)
    exact (calls_of_run h).done.mem_iff.mpr (List.mem_append_right _ ht)
  · rw [pushed_eq h, started_eq h]
    ac_rfl
  · intro hstop hjoined
    have hqueues : ∑ i, ((s.lanes i).queue : Multiset τ) = 0 := by
      apply Finset.sum_eq_zero
      intro i _
      rw [(lane_of_joined h hjoined i).1]
      rfl
    have htasks : ∑ i, ((s.lanes i).worker.tasks : Multiset τ) = 0 := by
      apply Finset.sum_eq_zero
      intro i _
      rw [(lane_of_joined h hjoined i).2]
      rfl
    have hunder := (calls_of_run h).under_way
    rw [(quiet_of_run h hstop).1, List.nil_append] at hunder
    have hfinished : (pushed tr : Multiset τ) = ((finishes tr).map Prod.snd : List τ) := by
      rw [pushed_eq h, started_eq h, hqueues, htasks, add_zero, add_zero]
    exact hunder.trans (Multiset.coe_eq_coe.mp hfinished)

/-- Each of two workers has a task in its queue when the destructor begins, and misses it once
because `TryLock` fails. -/
theorem late_run : ∃ tr, ∃ s : Pool 2 Nat, Runs 2 [7, 8] tr s ∧ s.stopped = true ∧ s.joined = 2 ∧
    called tr = [7, 8] ∧ Event.retry 7 0 ∈ tr := by
  have run : Runs 2 [7, 8] [] (Pool.init 2 [7, 8]) := .nil
  have run := run.snoc (.call (a := []) rfl rfl)
  have run := run.snoc (.retry 0 List.mem_cons_self)
  have run := run.snoc (.push (a := []) 1 rfl)
  have run := run.snoc (.call (a := []) rfl rfl)
  have run := run.snoc (.push (a := []) 0 rfl)
  have run := run.snoc (.ret (a := []) rfl)
  have run := run.snoc (.ret (a := []) rfl)
  have run := run.snoc (.work 0 .popFails)
  have run := run.snoc (.work 1 .popFails)
  have run := run.snoc (.stop rfl rfl)
  have run := run.snoc (.work 0 (.seeStop rfl))
  have run := run.snoc (.work 1 (.seeStop rfl))
  have run := run.snoc (.work 1 .pop)
  have run := run.snoc (.work 0 .pop)
  have run := run.snoc (.work 0 .drained)
  have run := run.snoc (.work 1 .drained)
  have run := run.snoc (.work 0 .exit)
  have run := run.snoc (.work 1 .exit)
  have run := run.snoc (.join 0 rfl rfl rfl)
  have run := run.snoc (.join 1 rfl rfl rfl)
  exact ⟨_, _, run, rfl, rfl, rfl, List.mem_of_getElem? (i := 1) rfl⟩

theorem every_task_once_late : ∃ tr, ∃ s : Pool 2 Nat, Runs 2 [7, 8] tr s ∧ s.joined = 2 ∧
    Event.retry 7 0 ∈ tr ∧ [7, 8].Perm ((finishes tr).map Prod.snd) := by
  obtain ⟨tr, s, hrun, hstop, hjoined, hcalled, hretry⟩ := late_run
  refine ⟨tr, s, hrun, hjoined, hretry, ?_⟩
  rw [← hcalled]
  exact (every_task_once (by decide) hrun).2.2.2.2 hstop hjoined

end Pool

end Cmsc624.A2.ThreadPool
