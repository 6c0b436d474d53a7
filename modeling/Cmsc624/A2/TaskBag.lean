import Cmsc624.A2.LockingScheduler
import Cmsc624.A2.ThreadPool

/-!
# The thread pool is a bag of tasks

The locking scheduler is modelled over a bag from which a worker may take any task. That
is what `StaticThreadPool` gives it: whatever happens in the queues and the workers'
loops, the tasks go through the three steps of a bag, and so do those of the scheduler.
-/

namespace Cmsc624.A2

open Lib
open scoped BigOperators

set_option autoImplicit false

@[ext] structure Bag (τ : Type) where
  queued : Multiset τ
  running : Multiset τ

inductive BagEvent (τ : Type) where
  | add (t : τ)
  | start (t : τ)
  | finish (t : τ)

inductive BagStep {τ : Type} (b : Bag τ) : BagEvent τ → Bag τ → Prop where
  | add {b' : Bag τ} {t : τ} (hq : b'.queued = b.queued + {t}) (hr : b'.running = b.running) :
      BagStep b (.add t) b'
  | start {b' : Bag τ} {t : τ} (hq : b'.queued + {t} = b.queued)
      (hr : b'.running = b.running + {t}) : BagStep b (.start t) b'
  | finish {b' : Bag τ} {t : τ} (hq : b'.queued = b.queued)
      (hr : b'.running + {t} = b.running) : BagStep b (.finish t) b'

def Bag.empty (τ : Type) : Bag τ := ⟨0, 0⟩

namespace ThreadPool
variable {n : Nat} {τ : Type} {tasks : List τ} {tr : List (Event n τ)} {s s' : Pool n τ}
  {e : Event n τ}

def Pool.bag (s : Pool n τ) : Bag τ where
  queued := ∑ i, ((s.lanes i).queue : Multiset τ)
  running := ∑ i, ((s.lanes i).worker.tasks : Multiset τ)

def Event.bagEvent : Event n τ → Option (BagEvent τ)
  | .push _ t => some (.add t)
  | .work _ (.start t) => some (.start t)
  | .work _ (.finish t) => some (.finish t)
  | _ => none

theorem bag_init (n : Nat) (tasks : List τ) : (Pool.init n tasks).bag = Bag.empty τ := by
  have hqueued : ∑ _i : Fin n, (([] : List τ) : Multiset τ) = 0 := Finset.sum_const_zero
  exact congrArg₂ Bag.mk hqueued hqueued

/-- What a step pushes comes to the queues and what it starts leaves them for the workers,
who keep it until they finish it. -/
theorem bag_of_step (h : Runs n tasks tr s) (hstep : Step s e s') :
    s'.bag.queued + ((starts [e]).map Prod.snd : List τ) = s.bag.queued + (pushed [e] : List τ) ∧
    s'.bag.running + ((finishes [e]).map Prod.snd : List τ) =
      s.bag.running + ((starts [e]).map Prod.snd : List τ) := by
  have hpushed := pushed_eq (h.snoc hstep)
  have hstarted := started_eq (h.snoc hstep)
  rw [pushed_append, starts_append, List.map_append, ← Multiset.coe_add, ← Multiset.coe_add,
    pushed_eq h] at hpushed
  rw [starts_append, finishes_append, List.map_append, List.map_append, ← Multiset.coe_add,
    ← Multiset.coe_add, started_eq h] at hstarted
  constructor
  · apply add_left_cancel
    calc (((starts tr).map Prod.snd : List τ) : Multiset τ) +
          (s'.bag.queued + ((starts [e]).map Prod.snd : List τ))
        = ((starts tr).map Prod.snd : List τ) + ((starts [e]).map Prod.snd : List τ) +
            s'.bag.queued := by ac_rfl
      _ = ((starts tr).map Prod.snd : List τ) + s.bag.queued + (pushed [e] : List τ) :=
        hpushed.symm
      _ = _ := add_assoc _ _ _
  · apply add_left_cancel
    calc (((finishes tr).map Prod.snd : List τ) : Multiset τ) +
          (s'.bag.running + ((finishes [e]).map Prod.snd : List τ))
        = ((finishes tr).map Prod.snd : List τ) + ((finishes [e]).map Prod.snd : List τ) +
            s'.bag.running := by ac_rfl
      _ = ((finishes tr).map Prod.snd : List τ) + s.bag.running +
            ((starts [e]).map Prod.snd : List τ) := hstarted.symm
      _ = _ := add_assoc _ _ _

/-- The pool refines the bag. -/
theorem refines_bag (h : Runs n tasks tr s) :
    Run BagStep (Bag.empty τ) (tr.filterMap Event.bagEvent) s.bag := by
  rw [← bag_init n tasks]
  refine h.simulate Pool.bag Event.bagEvent ?_
  intro tr s e s' hr hstep
  obtain ⟨hqueued, hrunning⟩ := bag_of_step hr hstep
  have hquiet : pushed [e] = [] → starts [e] = [] → finishes [e] = [] → s'.bag = s.bag := by
    intro hp hst hf
    rw [hp, hst] at hqueued
    rw [hst, hf] at hrunning
    exact Bag.ext (add_right_cancel hqueued) (add_right_cancel hrunning)
  cases e with
  | push i t =>
    have hq : s'.bag.queued = s.bag.queued + {t} := by
      simpa [pushed, pushes, starts] using hqueued
    have hw : s'.bag.running = s.bag.running := by simpa [starts, finishes] using hrunning
    exact .inr ⟨.add t, rfl, .add hq hw⟩
  | work i w =>
    cases w with
    | start t =>
      have hq : s'.bag.queued + {t} = s.bag.queued := by
        simpa [pushed, pushes, starts] using hqueued
      have hw : s'.bag.running = s.bag.running + {t} := by
        simpa [starts, finishes] using hrunning
      exact .inr ⟨.start t, rfl, .start hq hw⟩
    | finish t =>
      have hq : s'.bag.queued = s.bag.queued := by simpa [pushed, pushes, starts] using hqueued
      have hw : s'.bag.running + {t} = s.bag.running := by
        simpa [starts, finishes] using hrunning
      exact .inr ⟨.finish t, rfl, .finish hq hw⟩
    | skip => exact .inl ⟨rfl, hquiet rfl rfl rfl⟩
  | call t => exact .inl ⟨rfl, hquiet rfl rfl rfl⟩
  | retry t i => exact .inl ⟨rfl, hquiet rfl rfl rfl⟩
  | ret t => exact .inl ⟨rfl, hquiet rfl rfl rfl⟩
  | stop => exact .inl ⟨rfl, hquiet rfl rfl rfl⟩
  | join i => exact .inl ⟨rfl, hquiet rfl rfl rfl⟩

theorem refines_bag_late : ∃ (tr : List (Event 2 Nat)) (s : Pool 2 Nat), s.joined = 2 ∧
    called tr = [7, 8] ∧ Run BagStep (Bag.empty Nat) (tr.filterMap Event.bagEvent) s.bag := by
  obtain ⟨tr, s, hrun, _, hjoined, hcalled, _⟩ := late_run
  exact ⟨tr, s, hjoined, hcalled, refines_bag hrun⟩

end ThreadPool

section Scheduler
variable {lm : LockManager} {code : TxnPtr → TxnCode} {txns : TxnPtr → Txn} {storage : Storage}
  {ts : List TxnPtr} {tr : List Event} {s s' : State lm} {e : Event}

def State.bag (s : State lm) : Bag TxnPtr where
  queued := s.pool
  running := (s.running.map Prod.fst : List TxnPtr)

def Event.bagEvent : Event → Option (BagEvent TxnPtr)
  | .dispatch t => some (.add t)
  | .start t => some (.start t)
  | .complete t => some (.finish t)
  | _ => none

theorem coe_middle {α : Type} (a b : List α) (x : α) :
    ((a ++ b : List α) : Multiset α) + {x} = (a ++ x :: b : List α) := by
  rw [add_comm, Multiset.singleton_add, Multiset.cons_coe]
  exact Multiset.coe_eq_coe.mpr List.perm_middle.symm

theorem bag_replaced {a b : List (TxnPtr × ExecPc)} {t : TxnPtr} {pc pc' : ExecPc}
    (hpool : s'.pool = s.pool) (hrun : s.running = a ++ (t, pc) :: b)
    (hrun' : s'.running = a ++ (t, pc') :: b) : s'.bag = s.bag := by
  simp only [State.bag, hpool, hrun, hrun', List.map_append, List.map_cons]

/-- The scheduler's pool is the bag: tasks come in by `AddTask` and leave when `ExecuteTxn`
has returned. -/
theorem scheduler_bag (h : Runs code txns storage ts tr s) :
    Run BagStep (Bag.empty TxnPtr) (tr.filterMap Event.bagEvent) s.bag := by
  refine h.simulate State.bag Event.bagEvent ?_
  intro tr s e s' _ hstep
  cases hstep with
  | @dispatch q t hpc hq =>
    refine .inr ⟨.add t, rfl, .add ?_ rfl⟩
    exact (Multiset.coe_add s.pool [t]).symm
  | @start a b t hpool =>
    refine .inr ⟨.start t, rfl, .start ?_ ?_⟩
    · exact (coe_middle a b t).trans (congrArg _ hpool.symm)
    · show ((t :: s.running.map Prod.fst : List TxnPtr) : Multiset TxnPtr) = _
      rw [← Multiset.cons_coe, ← Multiset.singleton_add, add_comm]
      rfl
  | @complete a b t hrun =>
    refine .inr ⟨.finish t, rfl, .finish rfl ?_⟩
    simp only [State.bag, hrun, List.map_append, List.map_cons]
    exact coe_middle _ _ t
  | size hrun => exact .inl ⟨rfl, bag_replaced rfl hrun rfl⟩
  | read hrun => exact .inl ⟨rfl, bag_replaced rfl hrun rfl⟩
  | run hrun hp =>
    obtain ⟨_, _, rfl⟩ := Processor.runTxn_eq_some.mp hp
    exact .inl ⟨rfl, bag_replaced rfl hrun rfl⟩
  | request hc hp =>
    obtain ⟨_, rfl⟩ := Processor.newTxnRequest_eq_some.mp hp
    exact .inl ⟨rfl, rfl⟩
  | _ => exact .inl ⟨rfl, rfl⟩

end Scheduler

end Cmsc624.A2
