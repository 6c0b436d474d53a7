import Cmsc624.A2.Dispatch
import Cmsc624.A2.TaskBag
import Cmsc624.A2.Teardown

/-!
# The locking scheduler on its StaticThreadPool

The scheduler's tasks are in the queues of the thread pool, the workers that serve them run
`ExecuteTxn`, and the pool is stopped by its destructor, the last one that `~TxnProcessor` calls.
Whatever a queue or a worker does, the whole is a run of the processor and its destructor over a
bag of tasks.
-/

namespace Cmsc624.A2

open Lib ThreadPool
open scoped BigOperators

set_option autoImplicit false

def Event.ofFront : Event → Bool
  | .stop => false
  | .dispatch _ => false
  | .start _ => false
  | .size _ _ => false
  | .read _ _ _ => false
  | .run _ _ => false
  | .complete _ => false
  | _ => true

def Event.ofClient : Event → Bool
  | .request _ => true
  | .result _ => true
  | _ => false

/-- The processor with its thread pool and its destructor. The bag of tasks in `front` is not used;
`adding` is the argument of `AddTask` while the scheduler is in its loop, and `exec i` is where
worker `i` is in `ExecuteTxn`. -/
structure Pooled (lm : LockManager) (n : Nat) where
  front : State lm
  adding : Option TxnPtr
  lanes : Fin n → Lane TxnPtr
  exec : Fin n → Option ExecPc
  poolStopped : Bool
  dtor : DtorPc
  destroyed : List Part

def Pooled.init (lm : LockManager) (n : Nat) (txns : TxnPtr → Txn) (storage : Storage)
    (clients : List TxnPtr) : Pooled lm n where
  front := State.init lm txns storage clients
  adding := none
  lanes _ := ⟨[], .polling⟩
  exec _ := none
  poolStopped := false
  dtor := .notBegun
  destroyed := []

inductive PooledEvent (n : Nat) where
  | front (e : Event)
  | addTask (t : TxnPtr)
  | retry (t : TxnPtr) (i : Fin n)
  | push (i : Fin n) (t : TxnPtr)
  | work (i : Fin n) (e : WorkerEvent TxnPtr)
  | exec (i : Fin n) (e : Event)
  | stop
  | join
  | destroy (part : Part)
  | stopPool
  | joinWorkers

/-- `task()` calls `ExecuteTxn`. -/
def enter : WorkerEvent TxnPtr → Option ExecPc
  | .start _ => some .size
  | _ => none

section System
variable {lm : LockManager} {n : Nat} (code : TxnPtr → TxnCode)

inductive PooledStep : Pooled lm n → PooledEvent n → Pooled lm n → Prop where
  | front {p : Pooled lm n} {e : Event} {f : State lm} (h : Step code p.front e f)
      (hfront : e.ofFront = true) (hfree : p.adding = none ∨ e.ofClient = true) :
      PooledStep p (.front e) { p with front := f }
  -- `AddTask` is called. Its assertion is no condition here: see `Pooled.CallsAddTask`.
  | addTask {p : Pooled lm n} {t : TxnPtr} {q : List TxnPtr} (hpc : p.front.sched = .dispatching)
      (hq : p.front.readyTxns = t :: q) (hfree : p.adding = none) :
      PooledStep p (.addTask t)
        { p with front := { p.front with readyTxns := q }, adding := some t }
  -- `PushNonBlocking` on a random queue returns false.
  | retry {p : Pooled lm n} {t : TxnPtr} (i : Fin n) (hadd : p.adding = some t) :
      PooledStep p (.retry t i) p
  -- It pushes and returns true.
  | push {p : Pooled lm n} {t : TxnPtr} (i : Fin n) (hadd : p.adding = some t) :
      PooledStep p (.push i t)
        { p with lanes := Function.update p.lanes i ((p.lanes i).push t), adding := none }
  -- A statement of `RunThread`; `task()` has returned when `ExecuteTxn` has.
  | work {p : Pooled lm n} {e : WorkerEvent TxnPtr} {l : Lane TxnPtr} (i : Fin n)
      (hl : WorkerStep p.poolStopped (p.lanes i) e l) (hexec : p.exec i = none) :
      PooledStep p (.work i e)
        { p with
          lanes := Function.update p.lanes i l
          exec := Function.update p.exec i (enter e) }
  | size {p : Pooled lm n} {t : TxnPtr} (i : Fin n) (ht : (p.lanes i).worker.tasks = [t])
      (hexec : p.exec i = some .size) :
      PooledStep p (.exec i (.size t p.front.committedSize))
        { p with
          front := { p.front with toProcessor := p.front.toProcessor.recordStart t }
          exec := Function.update p.exec i (some (.reading (code t).keys)) }
  | read {p : Pooled lm n} {t : TxnPtr} {k : Key} {rest : List Key} (i : Fin n)
      (ht : (p.lanes i).worker.tasks = [t]) (hexec : p.exec i = some (.reading (k :: rest))) :
      PooledStep p (.exec i (.read t k (p.front.storage.read k)))
        { p with
          front := { p.front with toProcessor := p.front.toProcessor.readKey t k }
          exec := Function.update p.exec i (some (.reading rest)) }
  | run {p : Pooled lm n} {t : TxnPtr} {p' : Processor} (i : Fin n)
      (ht : (p.lanes i).worker.tasks = [t]) (hexec : p.exec i = some (.reading []))
      (hp : p.front.toProcessor.runTxn (code t) t = some p') :
      PooledStep p (.exec i (.run t (p.front.txns t).reads))
        { p with
          front := { p.front with toProcessor := p' }
          exec := Function.update p.exec i (some .pushing) }
  | complete {p : Pooled lm n} {t : TxnPtr} (i : Fin n) (ht : (p.lanes i).worker.tasks = [t])
      (hexec : p.exec i = some .pushing) :
      PooledStep p (.exec i (.complete t))
        { p with
          front := { p.front with toProcessor := p.front.toProcessor.pushCompleted t }
          exec := Function.update p.exec i none }
  -- The destructor of the processor: `stopped_ = true`.
  | stop {p : Pooled lm n} (hpc : p.dtor = .notBegun) :
      PooledStep p .stop
        { p with front := { p.front with stopped := true }, dtor := .joining }
  | join {p : Pooled lm n} (hpc : p.dtor = .joining) (hs : p.front.sched = .returned) :
      PooledStep p .join { p with dtor := .destroying destructionOrder }
  | destroy {p : Pooled lm n} {part : Part} {rest : List Part}
      (hpc : p.dtor = .destroying (part :: rest)) :
      PooledStep p (.destroy part)
        { p with dtor := .destroying rest, destroyed := p.destroyed ++ [part] }
  -- The destructor of `tp_`, of which the workers know by its `stopped_`.
  | stopPool {p : Pooled lm n} (hpc : p.dtor = .destroying []) :
      PooledStep p .stopPool { p with poolStopped := true }
  | joinWorkers {p : Pooled lm n} (hpc : p.dtor = .destroying []) (hs : p.poolStopped = true)
      (hexited : ∀ i, (p.lanes i).worker = .exited) :
      PooledStep p .joinWorkers { p with dtor := .done }

abbrev PooledRuns (n : Nat) (txns : TxnPtr → Txn) (storage : Storage) (clients : List TxnPtr) :
    List (PooledEvent n) → Pooled lm n → Prop :=
  Run (PooledStep code) (Pooled.init lm n txns storage clients)

end System

/-- What the step is for the processor over a bag. A task is in the bag from the call of `AddTask`
to the last statement of `ExecuteTxn`. -/
def PooledEvent.toTeardown {n : Nat} : PooledEvent n → Option TeardownEvent
  | .front e => some (.step e)
  | .addTask t => some (.step (.dispatch t))
  | .work _ (.start t) => some (.step (.start t))
  | .exec _ e => some (.step e)
  | .stop => some .stop
  | .join => some .join
  | .destroy part => some (.destroy part)
  | .joinWorkers => some .joinWorkers
  | _ => none

def teardownEvents {n : Nat} (tr : List (PooledEvent n)) : List TeardownEvent :=
  tr.filterMap PooledEvent.toTeardown

theorem teardownEvents_append {n : Nat} (tr tr' : List (PooledEvent n)) :
    teardownEvents (tr ++ tr') = teardownEvents tr ++ teardownEvents tr' :=
  List.filterMap_append

/-- What the step is for the scheduler over a bag. -/
def PooledEvent.toEvent {n : Nat} (e : PooledEvent n) : Option Event :=
  e.toTeardown.bind TeardownEvent.toEvent

def pooledEvents {n : Nat} (tr : List (PooledEvent n)) : List Event :=
  tr.filterMap PooledEvent.toEvent

/-- The scheduler is at the call of `AddTask`. -/
def Pooled.CallsAddTask {lm : LockManager} {n : Nat} (p : Pooled lm n) : Prop :=
  p.front.sched = .dispatching ∧ p.front.readyTxns ≠ [] ∧ p.adding = none

def handedBack (tr : List Event) : List TxnPtr :=
  tr.filterMap fun | .complete t => some t | _ => none

def State.withTasks {lm : LockManager} (s : State lm) (pool : List TxnPtr)
    (running : List (TxnPtr × ExecPc)) : State lm :=
  { s with pool := pool, running := running }

/-- The processor and its destructor with these tasks in the bag. -/
def Pooled.teardown {lm : LockManager} {n : Nat} (p : Pooled lm n) (pool : List TxnPtr)
    (running : List (TxnPtr × ExecPc)) : Teardown lm :=
  ⟨p.front.withTasks pool running, p.dtor, p.destroyed⟩

def Pooled.executing {lm : LockManager} {n : Nat} (p : Pooled lm n) (i : Fin n) :
    List (TxnPtr × ExecPc) :=
  p.exec i |>.elim [] fun pc => (p.lanes i).worker.tasks.map (·, pc)

/-- The bag holds what the scheduler adds, what is queued and what is executed. -/
structure Pooled.Holds {lm : LockManager} {n : Nat} (p : Pooled lm n) (pool : List TxnPtr)
    (running : List (TxnPtr × ExecPc)) : Prop where
  pool : (pool : Multiset TxnPtr) =
    p.adding.toList + ∑ i, ((p.lanes i).queue : Multiset TxnPtr)
  running : (running : Multiset (TxnPtr × ExecPc)) =
    ∑ i, (p.executing i : Multiset (TxnPtr × ExecPc))

section Frame
variable {lm : LockManager} {code : TxnPtr → TxnCode} {s s' : State lm} {e : Event}

/-- A step that is not for the pool goes through whatever is in the bag. -/
theorem Step.withTasks (h : Step code s e s') (he : e.ofFront = true) (pool : List TxnPtr)
    (running : List (TxnPtr × ExecPc)) :
    Step code (s.withTasks pool running) e (s'.withTasks pool running) := by
  cases h with
  | request hc hp => exact .request hc hp
  | result hq => exact .result hq
  | leave hpc hs => exact .leave hpc hs
  | pop hpc hs hq => exact .pop hpc hs hq
  | noRequest hpc hs hq => exact .noRequest hpc hs hq
  | lock hpc => exact .lock hpc
  | ready hpc => exact .ready hpc
  | park hpc => exact .park hpc
  | take hpc hq => exact .take hpc hq
  | noCompleted hpc hq => exact .noCompleted hpc hq
  | decide hpc hst => exact .decide hpc hst
  | abort hpc hst => exact .abort hpc hst
  | write hpc => exact .write hpc
  | commit hpc => exact .commit hpc
  | mark hpc => exact .mark hpc
  | release hpc => exact .release hpc
  | deliver hpc => exact .deliver hpc
  | noReady hpc hq => exact .noReady hpc hq
  | stop => cases he
  | dispatch _ _ => cases he
  | start _ => cases he
  | size _ => cases he
  | read _ => cases he
  | run _ _ => cases he
  | complete _ => cases he

end Frame

section Sums
variable {n : Nat} {α : Type}

theorem sum_changed {f g : Fin n → Multiset α} (i : Fin n) (h : ∀ j, j ≠ i → g j = f j) :
    ∑ j, g j + f i = ∑ j, f j + g i := by
  have hrest : ∑ j ∈ Finset.univ.erase i, g j = ∑ j ∈ Finset.univ.erase i, f j := by
    apply Finset.sum_congr rfl
    intro j hj
    exact h j (Finset.ne_of_mem_erase hj)
  rw [← Finset.add_sum_erase _ g (Finset.mem_univ i), ← Finset.add_sum_erase _ f
    (Finset.mem_univ i), hrest]
  ac_rfl

end Sums

section Refinement
variable {lm : LockManager} {n : Nat} {code : TxnPtr → TxnCode} {txns : TxnPtr → Txn}
  {storage : Storage} {clients : List TxnPtr} {tr : List (PooledEvent n)} {p p' : Pooled lm n}
  {e : PooledEvent n} {pool pool' : List TxnPtr} {running running' : List (TxnPtr × ExecPc)}
  {i : Fin n} {t : TxnPtr} {pc : ExecPc}

theorem Pooled.Holds.init : (Pooled.init lm n txns storage clients).Holds [] [] where
  pool := by
    have hnone : ∑ _i : Fin n, (([] : List TxnPtr) : Multiset TxnPtr) = 0 := Finset.sum_const_zero
    exact ((zero_add _).trans hnone).symm
  running := by
    have hnone : ∑ _i : Fin n, (([] : List (TxnPtr × ExecPc)) : Multiset (TxnPtr × ExecPc)) = 0 :=
      Finset.sum_const_zero
    exact hnone.symm

theorem executing_eq (ht : (p.lanes i).worker.tasks = [t]) (hexec : p.exec i = some pc) :
    p.executing i = [(t, pc)] := by
  rw [Pooled.executing, hexec, ht]
  rfl

theorem executing_none (hexec : p.exec i = none) : p.executing i = [] := by
  rw [Pooled.executing, hexec]
  rfl

theorem Pooled.Holds.change (h : p.Holds pool running) (i : Fin n)
    (hlanes : ∀ j, j ≠ i → p'.lanes j = p.lanes j) (hexec : ∀ j, j ≠ i → p'.exec j = p.exec j)
    (hpool : (pool' : Multiset TxnPtr) + (p.adding.toList + (p.lanes i).queue) =
      pool + (p'.adding.toList + (p'.lanes i).queue))
    (hrunning : (running' : Multiset (TxnPtr × ExecPc)) + p.executing i =
      running + p'.executing i) : p'.Holds pool' running' where
  pool := by
    have hsum := sum_changed (f := fun j => ((p.lanes j).queue : Multiset TxnPtr))
      (g := fun j => ((p'.lanes j).queue : Multiset TxnPtr)) i fun j hj => by rw [hlanes j hj]
    rw [h.pool] at hpool
    apply add_right_cancel (b := (p.adding.toList : Multiset TxnPtr) + (p.lanes i).queue)
    calc (pool' : Multiset TxnPtr) + (p.adding.toList + (p.lanes i).queue)
        = p.adding.toList + p'.adding.toList +
            (∑ j, ((p.lanes j).queue : Multiset TxnPtr) + (p'.lanes i).queue) := by
          rw [hpool]
          ac_rfl
      _ = _ := by
          rw [← hsum]
          ac_rfl
  running := by
    have hsum := sum_changed (f := fun j => (p.executing j : Multiset (TxnPtr × ExecPc)))
      (g := fun j => (p'.executing j : Multiset (TxnPtr × ExecPc))) i fun j hj => by
        rw [Pooled.executing, Pooled.executing, hexec j hj, hlanes j hj]
    rw [h.running, ← hsum] at hrunning
    exact add_right_cancel hrunning

/-- What a worker executes is in the bag. -/
theorem Pooled.Holds.mem_running (h : p.Holds pool running) (ht : (p.lanes i).worker.tasks = [t])
    (hexec : p.exec i = some pc) : ∃ a b, running = a ++ (t, pc) :: b := by
  have hmem : (t, pc) ∈ (running : Multiset (TxnPtr × ExecPc)) := by
    rw [h.running, Multiset.mem_sum]
    refine ⟨i, Finset.mem_univ i, ?_⟩
    rw [executing_eq ht hexec]
    exact List.mem_singleton_self _
  exact List.append_of_mem (Multiset.mem_coe.mp hmem)

theorem Pooled.Holds.goOn {a b l : List (TxnPtr × ExecPc)}
    (h : p.Holds pool (a ++ (t, pc) :: b)) (ht : (p.lanes i).worker.tasks = [t])
    (hexec : p.exec i = some pc) (hlanes : p'.lanes = p.lanes) (hadding : p'.adding = p.adding)
    (hothers : ∀ j, j ≠ i → p'.exec j = p.exec j) (hnew : p'.executing i = l) :
    p'.Holds pool (a ++ (l ++ b)) := by
  refine h.change i (fun j _ => by rw [hlanes]) hothers (by rw [hlanes, hadding]) ?_
  rw [executing_eq ht hexec, hnew, List.append_cons]
  simp only [← Multiset.coe_add]
  ac_rfl

theorem started_tasks {stopped : Bool} {l l' : Lane TxnPtr}
    (h : WorkerStep stopped l (.start t) l') : l'.worker.tasks = [t] := by
  cases h <;> rfl

theorem Pooled.Holds.start (h : p.Holds pool running) {l : Lane TxnPtr}
    (hl : WorkerStep p.poolStopped (p.lanes i) (.start t) l) (hexec : p.exec i = none)
    (hadding : p'.adding = p.adding) (hlanes : p'.lanes = Function.update p.lanes i l)
    (hexec' : p'.exec = Function.update p.exec i (some .size)) :
    ∃ a b, pool = a ++ t :: b ∧ p'.Holds (a ++ b) ((t, .size) :: running) := by
  have hqueue : (p.lanes i).queue = t :: l.queue := hl.queue_eq
  have hlane : p'.lanes i = l := by rw [hlanes, Function.update_self]
  have hnew : p'.executing i = [(t, .size)] := by
    apply executing_eq
    · rw [hlane, started_tasks hl]
    · rw [hexec', Function.update_self]
  have hmem : t ∈ (pool : Multiset TxnPtr) := by
    rw [h.pool, Multiset.mem_add, Multiset.mem_sum]
    refine .inr ⟨i, Finset.mem_univ i, ?_⟩
    rw [hqueue]
    exact List.mem_cons_self
  obtain ⟨a, b, rfl⟩ := List.append_of_mem (Multiset.mem_coe.mp hmem)
  refine ⟨a, b, rfl, h.change i ?_ ?_ ?_ ?_⟩
  · intro j hj
    rw [hlanes, Function.update_of_ne hj]
  · intro j hj
    rw [hexec', Function.update_of_ne hj]
  · rw [hadding, hlane, hqueue, ← coe_middle, ← Multiset.cons_coe, ← Multiset.singleton_add]
    ac_rfl
  · rw [executing_none hexec, hnew, ← Multiset.cons_coe, ← Multiset.singleton_add]
    exact (add_zero _).trans (add_comm _ _)

theorem Pooled.Holds.rest (h : p.Holds pool running) {l : Lane TxnPtr} {w : WorkerEvent TxnPtr}
    (hl : WorkerStep p.poolStopped (p.lanes i) w l) (hstarted : w.started = [])
    (hexec : p.exec i = none) (hadding : p'.adding = p.adding)
    (hlanes : p'.lanes = Function.update p.lanes i l)
    (hexec' : p'.exec = Function.update p.exec i none) : p'.Holds pool running := by
  have hqueue : (p.lanes i).queue = l.queue := by
    rw [hl.queue_eq, hstarted]
    rfl
  have hnew : p'.executing i = [] := executing_none (by rw [hexec', Function.update_self])
  refine h.change i ?_ ?_ ?_ (by rw [executing_none hexec, hnew])
  · intro j hj
    rw [hlanes, Function.update_of_ne hj]
  · intro j hj
    rw [hexec', Function.update_of_ne hj]
  · rw [hadding, hlanes, Function.update_self, hqueue]

theorem Pooled.Holds.push (h : p.Holds pool running) (hadd : p.adding = some t)
    (hadding : p'.adding = none)
    (hlanes : p'.lanes = Function.update p.lanes i ((p.lanes i).push t))
    (hexec : p'.exec = p.exec) : p'.Holds pool running := by
  have hlane : p'.lanes i = (p.lanes i).push t := by rw [hlanes, Function.update_self]
  refine h.change i ?_ (fun j _ => by rw [hexec]) ?_ ?_
  · intro j hj
    rw [hlanes, Function.update_of_ne hj]
  · rw [hadd, hadding, hlane, Lane.push, ← Multiset.coe_add]
    show (pool : Multiset TxnPtr) + ({t} + _) = pool + (0 + (_ + {t}))
    rw [zero_add]
    exact congrArg _ (add_comm _ _)
  · rw [Pooled.executing, Pooled.executing, hexec, hlane]
    rfl

/-- The scheduler has returned before the pool is stopped, and a worker leaves nothing behind. -/
structure Pooled.Orderly (p : Pooled lm n) : Prop where
  adding : ∀ t, p.adding = some t → p.front.sched = .dispatching
  returned : p.dtor.joined → p.front.sched = .returned
  stopped : p.poolStopped = true → p.dtor.joined
  saw_stop : ∀ i, (p.lanes i).worker.sawStop → p.poolStopped = true
  drained : ∀ i, (p.lanes i).worker = .exited → (p.lanes i).queue = [] ∧ p.exec i = none
  done : p.dtor = .done → ∀ i, (p.lanes i).worker = .exited

theorem Pooled.Orderly.init : (Pooled.init lm n txns storage clients).Orderly where
  adding _ h := by cases h
  returned h := h.elim
  stopped h := by cases h
  saw_stop _ h := h.elim
  drained _ h := by cases h
  done h := by cases h

/-- While the scheduler is in its loop the destructor waits for it. -/
theorem Pooled.Orderly.not_joined (h : p.Orderly) (hpc : p.front.sched ≠ .returned) :
    ¬p.dtor.joined ∧ p.poolStopped = false := by
  have hjoined : ¬p.dtor.joined := fun hj => hpc (h.returned hj)
  exact ⟨hjoined, Bool.eq_false_iff.mpr fun hs => hjoined (h.stopped hs)⟩

theorem sched_of_client {s s' : State lm} {e : Event} (h : Step code s e s')
    (he : e.ofClient = true) : s'.sched = s.sched := by
  cases h with
  | request _ _ => rfl
  | result _ => rfl
  | _ => cases he

theorem sched_returned {s s' : State lm} {e : Event} (h : Step code s e s')
    (hpc : s.sched = .returned) : s'.sched = .returned := by
  cases h with
  | request _ _ => exact hpc
  | result _ => exact hpc
  | stop => exact hpc
  | start _ => exact hpc
  | size _ => exact hpc
  | read _ => exact hpc
  | run _ _ => exact hpc
  | complete _ => exact hpc
  | leave _ _ => rfl
  | _ => simp_all

theorem Pooled.Orderly.not_exited (h : p.Orderly) (hexec : p.exec i = some pc) :
    (p.lanes i).worker ≠ .exited := by
  intro hexit
  rw [(h.drained i hexit).2] at hexec
  cases hexec

theorem Pooled.Orderly.execStep (h : p.Orderly) (hexec : p.exec i = some pc)
    (hlanes : p'.lanes = p.lanes) (hadding : p'.adding = p.adding)
    (hstopped : p'.poolStopped = p.poolStopped) (hdtor : p'.dtor = p.dtor)
    (hsched : p'.front.sched = p.front.sched) (hothers : ∀ j, j ≠ i → p'.exec j = p.exec j) :
    p'.Orderly where
  adding := by
    rw [hadding, hsched]
    exact h.adding
  returned := by
    rw [hdtor, hsched]
    exact h.returned
  stopped := by
    rw [hstopped, hdtor]
    exact h.stopped
  saw_stop := by
    rw [hstopped, hlanes]
    exact h.saw_stop
  drained j hexit := by
    rw [hlanes] at hexit ⊢
    have hj : j ≠ i := by
      rintro rfl
      exact h.not_exited hexec hexit
    rw [hothers j hj]
    exact h.drained j hexit
  done := by
    rw [hdtor, hlanes]
    exact h.done

theorem enter_of_exited {stopped : Bool} {l l' : Lane TxnPtr} {w : WorkerEvent TxnPtr}
    (h : WorkerStep stopped l w l') (hexit : l'.worker = .exited) : enter w = none := by
  cases h with
  | exit => rfl
  | _ => cases hexit

theorem Pooled.Orderly.workStep (h : p.Orderly) {l : Lane TxnPtr} {w : WorkerEvent TxnPtr}
    (hl : WorkerStep p.poolStopped (p.lanes i) w l) (hadding : p'.adding = p.adding)
    (hstopped : p'.poolStopped = p.poolStopped) (hdtor : p'.dtor = p.dtor)
    (hsched : p'.front.sched = p.front.sched) (hlanes : p'.lanes = Function.update p.lanes i l)
    (hexec : p'.exec = Function.update p.exec i (enter w)) : p'.Orderly where
  adding := by
    rw [hadding, hsched]
    exact h.adding
  returned := by
    rw [hdtor, hsched]
    exact h.returned
  stopped := by
    rw [hstopped, hdtor]
    exact h.stopped
  saw_stop j hsaw := by
    rw [hstopped]
    by_cases hj : j = i
    · subst hj
      rw [hlanes, Function.update_self] at hsaw
      exact (hl.sawStop hsaw).elim id (h.saw_stop j)
    · rw [hlanes, Function.update_of_ne hj] at hsaw
      exact h.saw_stop j hsaw
  drained j hexit := by
    by_cases hj : j = i
    · subst hj
      rw [hlanes, Function.update_self] at hexit ⊢
      rw [hexec, Function.update_self]
      exact ⟨hl.queue_of_exited hexit, enter_of_exited hl hexit⟩
    · rw [hlanes, Function.update_of_ne hj] at hexit ⊢
      rw [hexec, Function.update_of_ne hj]
      exact h.drained j hexit
  done hdone := by
    rw [hdtor] at hdone
    exact absurd (h.done hdone i) hl.not_exited

/-- `AddTask` comes before the stop, so no worker has left its loop. -/
theorem Pooled.Orderly.pushStep (h : p.Orderly) (hadd : p.adding = some t)
    (hadding : p'.adding = none) (hstopped : p'.poolStopped = p.poolStopped)
    (hdtor : p'.dtor = p.dtor)
    (hlanes : p'.lanes = Function.update p.lanes i ((p.lanes i).push t)) : p'.Orderly := by
  obtain ⟨hjoined, hs⟩ := h.not_joined (by rw [h.adding t hadd]; nofun)
  have hworker : ∀ j, (p'.lanes j).worker = (p.lanes j).worker := by
    intro j
    by_cases hj : j = i
    · subst hj
      rw [hlanes, Function.update_self]
      rfl
    · rw [hlanes, Function.update_of_ne hj]
  have hnone : ∀ j, ¬(p'.lanes j).worker.sawStop := by
    intro j hsaw
    rw [hworker j] at hsaw
    rw [h.saw_stop j hsaw] at hs
    cases hs
  constructor
  · intro u hu
    rw [hadding] at hu
    cases hu
  · rw [hdtor]
    exact fun hj => absurd hj hjoined
  · rw [hstopped, hs]
    nofun
  · exact fun j hsaw => absurd hsaw (hnone j)
  · intro j hexit
    exact absurd (show (p'.lanes j).worker.sawStop by rw [hexit]; trivial) (hnone j)
  · intro hdone
    exact absurd (show p.dtor.joined by rw [← hdtor, hdone]; trivial) hjoined

theorem Pooled.Orderly.step (h : p.Orderly) (hstep : PooledStep code p e p') : p'.Orderly := by
  cases hstep with
  | @front e f hstep hfront hfree =>
    constructor
    · intro t hadd
      have hclient : e.ofClient = true := hfree.resolve_left fun hnone => by
        rw [show p.adding = some t from hadd] at hnone
        cases hnone
      exact (sched_of_client hstep hclient).trans (h.adding t hadd)
    · exact fun hj => sched_returned hstep (h.returned hj)
    · exact h.stopped
    · exact h.saw_stop
    · exact h.drained
    · exact h.done
  | addTask hpc hq hfree =>
    exact ⟨fun _ _ => hpc, h.returned, h.stopped, h.saw_stop, h.drained, h.done⟩
  | retry i hadd => exact h
  | push i hadd => exact h.pushStep hadd rfl rfl rfl rfl
  | work i hl hexec => exact h.workStep hl rfl rfl rfl rfl rfl rfl
  | size i ht hexec =>
    exact h.execStep hexec rfl rfl rfl rfl rfl fun j hj => Function.update_of_ne hj _ _
  | read i ht hexec =>
    exact h.execStep hexec rfl rfl rfl rfl rfl fun j hj => Function.update_of_ne hj _ _
  | run i ht hexec hp =>
    exact h.execStep hexec rfl rfl rfl rfl rfl fun j hj => Function.update_of_ne hj _ _
  | complete i ht hexec =>
    exact h.execStep hexec rfl rfl rfl rfl rfl fun j hj => Function.update_of_ne hj _ _
  | stop hpc =>
    refine ⟨h.adding, False.elim, fun hs => ?_, h.saw_stop, h.drained, nofun⟩
    have hjoined := h.stopped hs
    rw [hpc] at hjoined
    exact hjoined
  | join hpc hs => exact ⟨h.adding, fun _ => hs, fun _ => trivial, h.saw_stop, h.drained, nofun⟩
  | destroy hpc =>
    refine ⟨h.adding, fun _ => ?_, fun _ => trivial, h.saw_stop, h.drained, nofun⟩
    exact h.returned (by rw [hpc]; trivial)
  | stopPool hpc =>
    refine ⟨h.adding, h.returned, fun _ => ?_, fun _ _ => rfl, h.drained, h.done⟩
    show p.dtor.joined
    rw [hpc]
    trivial
  | joinWorkers hpc hs hexited =>
    refine ⟨h.adding, fun _ => ?_, fun _ => trivial, h.saw_stop, h.drained, fun _ => hexited⟩
    exact h.returned (by rw [hpc]; trivial)

theorem orderly_of_run (h : PooledRuns code n txns storage clients tr p) : p.Orderly :=
  h.stateInvariant .init fun horderly hstep => horderly.step hstep

theorem Pooled.Holds.eq_nil (h : p.Holds pool running) (hadd : p.adding = none)
    (hqueue : ∀ i, (p.lanes i).queue = []) (hexec : ∀ i, p.exec i = none) :
    pool = [] ∧ running = [] := by
  have hpool := h.pool
  have hrunning := h.running
  rw [hadd, Finset.sum_eq_zero fun i _ => by rw [hqueue i]; rfl] at hpool
  rw [Finset.sum_eq_zero fun i _ => by rw [executing_none (hexec i)]; rfl] at hrunning
  exact ⟨Multiset.coe_eq_zero _ |>.mp hpool, Multiset.coe_eq_zero _ |>.mp hrunning⟩

theorem Pooled.Holds.empty (h : p.Holds pool running) (horderly : p.Orderly)
    (hpc : p.front.sched = .returned) (hexited : ∀ i, (p.lanes i).worker = .exited) :
    pool = [] ∧ running = [] := by
  have hadd : p.adding = none := by
    by_contra hsome
    obtain ⟨t, hadd⟩ := Option.ne_none_iff_exists'.mp hsome
    have hdispatching := horderly.adding t hadd
    rw [hpc] at hdispatching
    cases hdispatching
  exact h.eq_nil hadd (fun i => (horderly.drained i (hexited i)).1) fun i =>
    (horderly.drained i (hexited i)).2

/-- One step of the pooled processor is a step of the one over a bag, or none. -/
theorem Pooled.Holds.step (h : p.Holds pool running) (horderly : p.Orderly)
    (hstep : PooledStep code p e p') :
    ∃ pool' running', p'.Holds pool' running' ∧
      ((e.toTeardown = none ∧ p'.teardown pool' running' = p.teardown pool running) ∨
        ∃ e', e.toTeardown = some e' ∧
          TeardownStep code (p.teardown pool running) e' (p'.teardown pool' running')) := by
  cases hstep with
  | front hstep hfront _ =>
    refine ⟨pool, running, ⟨h.pool, h.running⟩, .inr ⟨_, rfl, ?_⟩⟩
    apply TeardownStep.step (hstep.withTasks hfront pool running)
    rintro rfl
    cases hfront
  | @addTask t q hpc hq hfree =>
    refine ⟨pool ++ [t], running, ⟨?_, h.running⟩, .inr ⟨_, rfl, .step (.dispatch hpc hq) nofun⟩⟩
    have hpool := h.pool
    rw [hfree] at hpool
    rw [← Multiset.coe_add, hpool]
    exact (add_comm _ _).trans (congrArg _ (zero_add _))
  | retry i hadd => exact ⟨pool, running, h, .inl ⟨rfl, rfl⟩⟩
  | push i hadd => exact ⟨pool, running, h.push hadd rfl rfl rfl, .inl ⟨rfl, rfl⟩⟩
  | @work w l i hl hexec =>
    cases w with
    | start t =>
      obtain ⟨a, b, rfl, hnew⟩ : ∃ a b, pool = a ++ t :: b ∧ Pooled.Holds { p with
          lanes := Function.update p.lanes i l
          exec := Function.update p.exec i (some .size) } (a ++ b) ((t, .size) :: running) :=
        h.start hl hexec rfl rfl rfl
      exact ⟨a ++ b, _, hnew, .inr ⟨_, rfl, .step (.start rfl) nofun⟩⟩
    | finish t => exact ⟨pool, running, h.rest hl rfl hexec rfl rfl rfl, .inl ⟨rfl, rfl⟩⟩
    | skip => exact ⟨pool, running, h.rest hl rfl hexec rfl rfl rfl, .inl ⟨rfl, rfl⟩⟩
  | @size t i ht hexec =>
    obtain ⟨a, b, rfl⟩ := h.mem_running ht hexec
    refine ⟨pool, a ++ ([(t, .reading (code t).keys)] ++ b), h.goOn ht hexec rfl rfl ?_ ?_,
      .inr ⟨_, rfl, .step ?_ nofun⟩⟩
    · exact fun j hj => Function.update_of_ne hj _ _
    · exact executing_eq ht (Function.update_self _ _ _)
    · exact Step.size (s := p.front.withTasks pool (a ++ (t, .size) :: b)) rfl
  | @read t k rest i ht hexec =>
    obtain ⟨a, b, rfl⟩ := h.mem_running ht hexec
    refine ⟨pool, a ++ ([(t, .reading rest)] ++ b), h.goOn ht hexec rfl rfl ?_ ?_,
      .inr ⟨_, rfl, .step ?_ nofun⟩⟩
    · exact fun j hj => Function.update_of_ne hj _ _
    · exact executing_eq ht (Function.update_self _ _ _)
    · exact Step.read (s := p.front.withTasks pool (a ++ (t, .reading (k :: rest)) :: b)) rfl
  | @run t p' i ht hexec hp =>
    obtain ⟨a, b, rfl⟩ := h.mem_running ht hexec
    refine ⟨pool, a ++ ([(t, .pushing)] ++ b), h.goOn ht hexec rfl rfl ?_ ?_,
      .inr ⟨_, rfl, .step ?_ nofun⟩⟩
    · exact fun j hj => Function.update_of_ne hj _ _
    · exact executing_eq ht (Function.update_self _ _ _)
    · exact Step.run (s := p.front.withTasks pool (a ++ (t, .reading []) :: b)) rfl hp
  | @complete t i ht hexec =>
    obtain ⟨a, b, rfl⟩ := h.mem_running ht hexec
    refine ⟨pool, a ++ ([] ++ b), h.goOn ht hexec rfl rfl ?_ ?_, .inr ⟨_, rfl, .step ?_ nofun⟩⟩
    · exact fun j hj => Function.update_of_ne hj _ _
    · exact executing_none (Function.update_self _ _ _)
    · exact Step.complete (s := p.front.withTasks pool (a ++ (t, .pushing) :: b)) rfl
  | stop hpc => exact ⟨pool, running, ⟨h.pool, h.running⟩, .inr ⟨_, rfl, .stop hpc .stop⟩⟩
  | join hpc hs => exact ⟨pool, running, ⟨h.pool, h.running⟩, .inr ⟨_, rfl, .join hpc hs⟩⟩
  | destroy hpc => exact ⟨pool, running, ⟨h.pool, h.running⟩, .inr ⟨_, rfl, .destroy hpc⟩⟩
  | stopPool hpc => exact ⟨pool, running, ⟨h.pool, h.running⟩, .inl ⟨rfl, rfl⟩⟩
  | joinWorkers hpc hs hexited =>
    have hreturned := horderly.returned (by rw [hpc]; trivial)
    obtain ⟨rfl, rfl⟩ := h.empty horderly hreturned hexited
    exact ⟨[], [], ⟨h.pool, h.running⟩, .inr ⟨_, rfl, .joinWorkers hpc rfl rfl⟩⟩

/-- The pooled processor refines the one over a bag. -/
theorem refines_teardown (h : PooledRuns code n txns storage clients tr p) :
    ∃ pool running, p.Holds pool running ∧
      Run (TeardownStep code) (Teardown.init lm txns storage clients) (teardownEvents tr)
        (p.teardown pool running) := by
  unfold teardownEvents
  induction h with
  | nil => exact ⟨[], [], .init, .nil⟩
  | snoc hrun hstep ih =>
    obtain ⟨pool, running, hold, hbag⟩ := ih
    obtain ⟨pool', running', hnew, hstep⟩ := hold.step (orderly_of_run hrun) hstep
    refine ⟨pool', running', hnew, ?_⟩
    rw [List.filterMap_append]
    rcases hstep with ⟨hnone, hsame⟩ | ⟨e', hsome, hstep⟩
    · rw [List.filterMap_cons_none hnone, List.filterMap_nil, List.append_nil, hsame]
      exact hbag
    · rw [List.filterMap_cons_some hsome, List.filterMap_nil]
      exact hbag.snoc hstep

theorem pooledEvents_eq (tr : List (PooledEvent n)) :
    pooledEvents tr = (teardownEvents tr).filterMap TeardownEvent.toEvent :=
  (List.filterMap_filterMap ..).symm

theorem refines_scheduler (h : PooledRuns code n txns storage clients tr p) :
    ∃ pool running, p.Holds pool running ∧
      Runs code txns storage clients (pooledEvents tr) (p.front.withTasks pool running) := by
  obtain ⟨pool, running, hholds, hrun⟩ := refines_teardown h
  refine ⟨pool, running, hholds, ?_⟩
  rw [pooledEvents_eq]
  exact proc_run hrun

def BagEvent.added {τ : Type} : BagEvent τ → Option τ
  | .add t => some t
  | _ => none

def BagEvent.finished {τ : Type} : BagEvent τ → Option τ
  | .finish t => some t
  | _ => none

/-- What came to the bag has left it, or is in it. -/
theorem bag_conserved {τ : Type} {evs : List (BagEvent τ)} {b : Bag τ}
    (h : Run BagStep (Bag.empty τ) evs b) : (evs.filterMap BagEvent.added : Multiset τ) =
      evs.filterMap BagEvent.finished + (b.queued + b.running) := by
  induction h with
  | nil => rfl
  | snoc _ hstep ih =>
    rw [List.filterMap_append, List.filterMap_append, ← Multiset.coe_add, ← Multiset.coe_add, ih]
    cases hstep with
    | @add b' t hq hr =>
      have hadd : ([BagEvent.add t].filterMap BagEvent.added : Multiset τ) = {t} := rfl
      have hfin : ([BagEvent.add t].filterMap BagEvent.finished : Multiset τ) = 0 := rfl
      rw [hadd, hfin, hq, hr, add_zero]
      ac_rfl
    | @start b' t hq hr =>
      have hadd : ([BagEvent.start t].filterMap BagEvent.added : Multiset τ) = 0 := rfl
      have hfin : ([BagEvent.start t].filterMap BagEvent.finished : Multiset τ) = 0 := rfl
      rw [hadd, hfin, ← hq, hr, add_zero, add_zero]
      ac_rfl
    | @finish b' t hq hr =>
      have hadd : ([BagEvent.finish t].filterMap BagEvent.added : Multiset τ) = 0 := rfl
      have hfin : ([BagEvent.finish t].filterMap BagEvent.finished : Multiset τ) = {t} := rfl
      rw [hadd, hfin, hq, ← hr, add_zero]
      ac_rfl

theorem dispatched_eq {evs : List Event} {s : State lm}
    (h : Runs code txns storage clients evs s) : (dispatched evs : Multiset TxnPtr) =
      handedBack evs + (s.bag.queued + s.bag.running) := by
  have hbag := bag_conserved (scheduler_bag h)
  rw [List.filterMap_filterMap, List.filterMap_filterMap] at hbag
  have hadded : dispatched evs = evs.filterMap fun e => e.bagEvent.bind BagEvent.added := by
    apply List.filterMap_congr
    intro e _
    cases e <;> rfl
  have hback : handedBack evs = evs.filterMap fun e => e.bagEvent.bind BagEvent.finished := by
    apply List.filterMap_congr
    intro e _
    cases e <;> rfl
  rw [hadded, hback]
  exact hbag

theorem handedBack_of_empty {es : List TeardownEvent} {s : Teardown lm}
    (h : Run (TeardownStep code) (Teardown.init lm txns storage clients) es s)
    (hpool : s.proc.pool = []) (hrunning : s.proc.running = []) :
    (dispatched (es.filterMap TeardownEvent.toEvent)).Perm
      (handedBack (es.filterMap TeardownEvent.toEvent)) := by
  have hall := dispatched_eq (proc_run h)
  have hempty : s.proc.bag.queued + s.proc.bag.running = 0 := by
    rw [State.bag, hpool, hrunning]
    rfl
  rw [hempty, add_zero] at hall
  exact Multiset.coe_eq_coe.mp hall

/-- In a run without use after destruction, what the workers do in the end is done before. -/
theorem handedBack_of_safe {es₁ es₂ : List TeardownEvent} {s s' : Teardown lm}
    (h : Run (TeardownStep code) (Teardown.init lm txns storage clients) es₁ s)
    (hend : Run (TeardownStep code) (Teardown.init lm txns storage clients)
      (es₁ ++ .destroy .completedTxns :: es₂) s')
    (hpool : s'.proc.pool = []) (hrunning : s'.proc.running = [])
    (hsafe : SafeForWorkers (es₁ ++ .destroy .completedTxns :: es₂)) :
    (dispatched (es₁.filterMap TeardownEvent.toEvent)).Perm
      (handedBack (es₁.filterMap TeardownEvent.toEvent)) := by
  have hbefore := dispatched_eq (proc_run h)
  have hall := Multiset.coe_eq_coe.mpr (handedBack_of_empty hend hpool hrunning)
  -- a call of `ExecuteTxn` that comes to its end later pushes on the destroyed queue
  have hnone : handedBack (es₂.filterMap TeardownEvent.toEvent) = [] := by
    rw [handedBack, List.filterMap_filterMap, List.filterMap_eq_nil_iff]
    intro e he
    obtain ⟨a, b, rfl⟩ := List.append_of_mem he
    cases e with
    | step e =>
      cases e with
      | complete t =>
        refine absurd ?_ (hsafe (es₁ ++ .destroy .completedTxns :: a) (.complete t) b
          (by simp) .completedTxns (List.mem_singleton_self _))
        exact List.mem_append_right _ List.mem_cons_self
      | _ => rfl
    | _ => rfl
  have hback : handedBack ((es₁ ++ TeardownEvent.destroy .completedTxns :: es₂).filterMap
      TeardownEvent.toEvent) = handedBack (es₁.filterMap TeardownEvent.toEvent) := by
    rw [List.filterMap_append, List.filterMap_cons_none rfl, handedBack, List.filterMap_append]
    exact (congrArg _ hnone).trans (List.append_nil _)
  have hsplit : dispatched ((es₁ ++ TeardownEvent.destroy .completedTxns :: es₂).filterMap
      TeardownEvent.toEvent) = dispatched (es₁.filterMap TeardownEvent.toEvent) ++
        dispatched (es₂.filterMap TeardownEvent.toEvent) := by
    rw [List.filterMap_append, List.filterMap_cons_none rfl, dispatched, List.filterMap_append]
    rfl
  rw [hback, hsplit, ← Multiset.coe_add, hbefore] at hall
  -- so nothing was in the bag when the queue was destroyed
  have hbag : s.proc.bag.queued + s.proc.bag.running = 0 := by
    have hcard := congrArg Multiset.card hall
    simp only [Multiset.card_add] at hcard
    apply Multiset.card_eq_zero.mp
    rw [Multiset.card_add]
    omega
  rw [hbag, add_zero] at hbefore
  exact Multiset.coe_eq_coe.mp hbefore

/-- On its thread pool the processor makes the runs that it makes over a bag of tasks, and the
assertion of `AddTask` holds at every call. When the destructor is done the workers have executed
all that was dispatched; if they have used nothing after its destruction, it was handed back before
`completed_txns_` was destroyed. -/
theorem pool_refines_bag (h : PooledRuns code n txns storage clients tr p) :
    (∃ pool running, p.Holds pool running ∧
      Run (TeardownStep code) (Teardown.init lm txns storage clients) (teardownEvents tr)
        (p.teardown pool running)) ∧
    (p.CallsAddTask → p.poolStopped = false) ∧
    (p.dtor = .done →
      Run (TeardownStep code) (Teardown.init lm txns storage clients) (teardownEvents tr)
        (p.teardown [] []) ∧
      (dispatched ((teardownEvents tr).filterMap TeardownEvent.toEvent)).Perm
        (handedBack ((teardownEvents tr).filterMap TeardownEvent.toEvent)) ∧
      (SafeForWorkers (teardownEvents tr) → ∀ es₁ es₂,
        teardownEvents tr = es₁ ++ .destroy .completedTxns :: es₂ →
        (dispatched (es₁.filterMap TeardownEvent.toEvent)).Perm
          (handedBack (es₁.filterMap TeardownEvent.toEvent)))) := by
  have horderly := orderly_of_run h
  refine ⟨refines_teardown h, fun hcalls => ?_, fun hdone => ?_⟩
  · exact (horderly.not_joined (by rw [hcalls.1]; nofun)).2
  · obtain ⟨pool, running, hholds, hrun⟩ := refines_teardown h
    have hreturned := horderly.returned (by rw [hdone]; trivial)
    obtain ⟨rfl, rfl⟩ := hholds.empty horderly hreturned (horderly.done hdone)
    refine ⟨hrun, handedBack_of_empty hrun rfl rfl, fun hsafe es₁ es₂ heq => ?_⟩
    rw [heq] at hrun hsafe
    obtain ⟨s, _, hbefore, _, _⟩ := hrun.split
    exact handedBack_of_safe hbefore hrun rfl rfl hsafe

end Refinement

/-- Two transactions that write the same key, on two workers. -/
theorem pooled_rmw_run : ∃ (tr : List (PooledEvent 2)) (p : Pooled (queueLockManager .locking) 2),
    PooledRuns (fun _ => rmw (.singleton 5) (.singleton 6)) 2 (fun _ => ⟨unrun .empty, 0, 0⟩)
      ⟨fun _ => some 2⟩ [0, 1] tr p ∧ p.front.sched = .top ∧ p.front.Empty ∧ p.adding = none ∧
      (∀ i, p.exec i = none) ∧ (∀ i, p.lanes i = ⟨[], .polling⟩) ∧ p.poolStopped = false ∧
      p.dtor = .notBegun ∧ p.destroyed = [] ∧
      (∀ t ∈ [0, 1], PooledEvent.front (.request t) ∈ tr ∧ PooledEvent.addTask t ∈ tr) ∧
      PooledEvent.front (.release 0 6 [1]) ∈ tr := by
  have run : PooledRuns (fun _ => rmw (.singleton 5) (.singleton 6)) 2
    (fun _ => ⟨unrun .empty, 0, 0⟩) ⟨fun _ => some 2⟩ [0, 1] []
    (Pooled.init (queueLockManager .locking) 2 _ _ _) := .nil
  have run := run.snoc (.front (.request (a := []) rfl
    (Processor.newTxnRequest_eq_some.mpr ⟨by decide, rfl⟩)) rfl (.inl rfl))
  have run := run.snoc (.front (.request (a := []) rfl
    (Processor.newTxnRequest_eq_some.mpr ⟨by decide, rfl⟩)) rfl (.inl rfl))
  have run := run.snoc (.front (.pop rfl rfl rfl) rfl (.inl rfl))
  have run := run.snoc (.front (.lock rfl) rfl (.inl rfl))
  have run := run.snoc (.front (.lock rfl) rfl (.inl rfl))
  have run := run.snoc (.front (.ready rfl) rfl (.inl rfl))
  have run := run.snoc (.front (.noCompleted rfl rfl) rfl (.inl rfl))
  have run := run.snoc (.addTask rfl rfl rfl)
  have run := run.snoc (.retry 0 rfl)
  have run := run.snoc (.push 1 rfl)
  have run := run.snoc (.front (.noReady rfl rfl) rfl (.inl rfl))
  have run := run.snoc (.front (.pop rfl rfl rfl) rfl (.inl rfl))
  have run := run.snoc (.front (.lock rfl) rfl (.inl rfl))
  have run := run.snoc (.front (.lock rfl) rfl (.inl rfl))
  have run := run.snoc (.front (.park rfl) rfl (.inl rfl))
  have run := run.snoc (.front (.noCompleted rfl rfl) rfl (.inl rfl))
  have run := run.snoc (.front (.noReady rfl rfl) rfl (.inl rfl))
  have run := run.snoc (.work 1 .popNonBlocking rfl)
  have run := run.snoc (.size 1 rfl rfl)
  have run := run.snoc (.read 1 rfl rfl)
  have run := run.snoc (.read 1 rfl rfl)
  have run := run.snoc (.run 1 rfl rfl (Processor.runTxn_eq_some.mpr ⟨_, rfl, rfl⟩))
  have run := run.snoc (.complete 1 rfl rfl)
  have run := run.snoc (.work 1 .finish rfl)
  have run := run.snoc (.work 1 (.goOn rfl) rfl)
  have run := run.snoc (.front (.noRequest rfl rfl rfl) rfl (.inl rfl))
  have run := run.snoc (.front (.take rfl rfl) rfl (.inl rfl))
  have run := run.snoc (.front (.decide rfl rfl) rfl (.inl rfl))
  have run := run.snoc (.front (.write rfl) rfl (.inl rfl))
  have run := run.snoc (.front (.commit rfl) rfl (.inl rfl))
  have run := run.snoc (.front (.mark rfl) rfl (.inl rfl))
  have run := run.snoc (.front (.release rfl) rfl (.inl rfl))
  have run := run.snoc (.front (.release rfl) rfl (.inl rfl))
  have run := run.snoc (.front (.deliver rfl) rfl (.inl rfl))
  have run := run.snoc (.front (.noCompleted rfl rfl) rfl (.inl rfl))
  have run := run.snoc (.addTask rfl rfl rfl)
  have run := run.snoc (.push 0 rfl)
  have run := run.snoc (.front (.noReady rfl rfl) rfl (.inl rfl))
  have run := run.snoc (.work 0 .popNonBlocking rfl)
  have run := run.snoc (.size 0 rfl rfl)
  have run := run.snoc (.read 0 rfl rfl)
  have run := run.snoc (.read 0 rfl rfl)
  have run := run.snoc (.run 0 rfl rfl (Processor.runTxn_eq_some.mpr ⟨_, rfl, rfl⟩))
  have run := run.snoc (.complete 0 rfl rfl)
  have run := run.snoc (.work 0 .finish rfl)
  have run := run.snoc (.work 0 (.goOn rfl) rfl)
  have run := run.snoc (.front (.noRequest rfl rfl rfl) rfl (.inl rfl))
  have run := run.snoc (.front (.take rfl rfl) rfl (.inl rfl))
  have run := run.snoc (.front (.decide rfl rfl) rfl (.inl rfl))
  have run := run.snoc (.front (.write rfl) rfl (.inl rfl))
  have run := run.snoc (.front (.commit rfl) rfl (.inl rfl))
  have run := run.snoc (.front (.mark rfl) rfl (.inl rfl))
  have run := run.snoc (.front (.release rfl) rfl (.inl rfl))
  have run := run.snoc (.front (.release rfl) rfl (.inl rfl))
  have run := run.snoc (.front (.deliver rfl) rfl (.inl rfl))
  have run := run.snoc (.front (.noCompleted rfl rfl) rfl (.inl rfl))
  have run := run.snoc (.front (.noReady rfl rfl) rfl (.inl rfl))
  refine ⟨_, _, run, rfl, ⟨rfl, rfl, rfl, rfl, rfl, rfl⟩, rfl, Fin.forall_fin_two.mpr ⟨rfl, rfl⟩,
    Fin.forall_fin_two.mpr ⟨rfl, rfl⟩, rfl, rfl, rfl, List.forall_mem_cons.mpr ⟨⟨?_, ?_⟩,
      List.forall_mem_singleton.mpr ⟨?_, ?_⟩⟩, ?_⟩
  · exact List.mem_of_getElem? (i := 0) rfl
  · exact List.mem_of_getElem? (i := 7) rfl
  · exact List.mem_of_getElem? (i := 1) rfl
  · exact List.mem_of_getElem? (i := 35) rfl
  · exact List.mem_of_getElem? (i := 32) rfl

section Polling
variable {lm : LockManager} {n : Nat} {code : TxnPtr → TxnCode} {p₀ p : Pooled lm n}
  {tr : List (PooledEvent n)}

theorem worker_skips {l l' : Lane TxnPtr} (i : Fin n) (hexec : p.exec i = none)
    (hlane : p.lanes i = l) (hl : WorkerStep p.poolStopped l .skip l') :
    PooledStep code p (.work i .skip) { p with lanes := Function.update p.lanes i l' } := by
  have hstep : PooledStep code p _ _ := .work i (hlane ▸ hl) hexec
  have hsame : Function.update p.exec i (enter .skip) = p.exec := by
    show Function.update p.exec i none = p.exec
    rw [← hexec, Function.update_eq_self]
  rw [hsame] at hstep
  exact hstep

/-- A worker that finds nothing sees `stopped_` and leaves. -/
theorem worker_exits (h : Run (PooledStep code) p₀ tr p) (i : Fin n) (hexec : p.exec i = none)
    (hlane : p.lanes i = ⟨[], .polling⟩) (hstop : p.poolStopped = true) :
    ∃ tr', Run (PooledStep code) p₀ (tr ++ tr')
      { p with lanes := Function.update p.lanes i ⟨[], .exited⟩ } ∧ teardownEvents tr' = [] := by
  have run := h.snoc (worker_skips i hexec hlane .popFails)
  have run := run.snoc (worker_skips i hexec (Function.update_self _ _ _) (.seeStop hstop))
  have run := run.snoc (worker_skips i hexec (Function.update_self _ _ _) .exit)
  simp only [Function.update_idem, List.append_assoc] at run
  exact ⟨_, run, rfl⟩

theorem update_both {α : Type} (f : Fin 2 → α) (a : α) (i : Fin 2) :
    Function.update (Function.update f 0 a) 1 a i = a := by
  by_cases hi : i = 1
  · rw [hi, Function.update_self]
  · rw [Function.update_of_ne hi, (by omega : i = 0), Function.update_self]

end Polling

theorem exists_stopped {lm : LockManager} {n : Nat} (code : TxnPtr → TxnCode) {p : Pooled lm n}
    (htop : p.front.sched = .top) (hadd : p.adding = none) (hdtor : p.dtor = .notBegun) :
    ∃ tr p', Run (PooledStep code) p tr p' ∧ p'.dtor = .destroying [] ∧ p'.poolStopped = true ∧
      p'.lanes = p.lanes ∧ p'.exec = p.exec ∧
      teardownEvents tr = .stop :: .step .tau :: .join :: destructionOrder.map .destroy := by
  have run : Run (PooledStep code) p [] p := .nil
  have run := run.snoc (.stop hdtor)
  have run := run.snoc (.front (.leave htop rfl) rfl (.inl hadd))
  have run := run.snoc (.join rfl rfl)
  have run := run.snoc (.destroy rfl)
  have run := run.snoc (.destroy rfl)
  have run := run.snoc (.destroy rfl)
  have run := run.snoc (.destroy rfl)
  have run := run.snoc (.destroy rfl)
  have run := run.snoc (.destroy rfl)
  have run := run.snoc (.destroy rfl)
  have run := run.snoc (.destroy rfl)
  have run := run.snoc (.destroy rfl)
  have run := run.snoc (.destroy rfl)
  have run := run.snoc (.stopPool rfl)
  exact ⟨_, _, run, rfl, rfl, rfl, rfl, rfl⟩

theorem exists_destructed {lm : LockManager} (code : TxnPtr → TxnCode) {p : Pooled lm 2}
    (htop : p.front.sched = .top) (hadd : p.adding = none) (hexec : ∀ i, p.exec i = none)
    (hlanes : ∀ i, p.lanes i = ⟨[], .polling⟩) (hdtor : p.dtor = .notBegun) :
    ∃ tr p', Run (PooledStep code) p tr p' ∧ p'.dtor = .done ∧
      teardownEvents tr =
        .stop :: .step .tau :: .join :: (destructionOrder.map .destroy ++ [.joinWorkers]) := by
  obtain ⟨tr, p', run, hdestroying, hstop, hlanes', hexec', hevents⟩ :=
    exists_stopped code htop hadd hdtor
  have hpolling : ∀ i, p'.lanes i = ⟨[], .polling⟩ := fun i => (congrFun hlanes' i).trans (hlanes i)
  have hidle : ∀ i, p'.exec i = none := fun i => (congrFun hexec' i).trans (hexec i)
  obtain ⟨tr₀, run, hquiet₀⟩ := worker_exits run 0 (hidle 0) (hpolling 0) hstop
  obtain ⟨tr₁, run, hquiet₁⟩ := worker_exits run 1 (hidle 1)
    ((Function.update_of_ne (by decide : (1 : Fin 2) ≠ 0) ⟨[], .exited⟩ p'.lanes).trans
      (hpolling 1)) hstop
  have run := run.snoc (.joinWorkers hdestroying hstop fun i =>
    congrArg Lane.worker (update_both p'.lanes ⟨[], .exited⟩ i))
  refine ⟨_, _, run, rfl, ?_⟩
  simp only [teardownEvents_append, hevents, hquiet₀, hquiet₁, List.append_nil]
  rfl

theorem pool_refines_bag_rmw :
    ∃ (tr : List (PooledEvent 2)) (p : Pooled (queueLockManager .locking) 2),
    PooledRuns (fun _ => rmw (.singleton 5) (.singleton 6)) 2 (fun _ => ⟨unrun .empty, 0, 0⟩)
      ⟨fun _ => some 2⟩ [0, 1] tr p ∧ p.dtor = .done ∧ (∀ t ∈ [0, 1], .addTask t ∈ tr) ∧
      ∃ es₁ es₂, teardownEvents tr = es₁ ++ .destroy .completedTxns :: es₂ ∧
        (dispatched (es₁.filterMap TeardownEvent.toEvent)).Perm
          (handedBack (es₁.filterMap TeardownEvent.toEvent)) := by
  obtain ⟨tr, p, run, htop, _, hadd, hexec, hlanes, _, hdtor, hnone, hreq, _⟩ := pooled_rmw_run
  obtain ⟨tr', p', more, hdone, hevents⟩ := exists_destructed _ htop hadd hexec hlanes hdtor
  have hsafe : SafeForWorkers (teardownEvents (tr ++ tr')) := by
    rw [teardownEvents_append]
    obtain ⟨pool, running, _, hbag⟩ := refines_teardown run
    apply SafeForWorkers.of_append
    · intro part hpart
      have hmem : part ∈ p.destroyed := destroyed_of_run hbag hpart
      rw [hnone] at hmem
      cases hmem
    · intro e he
      rw [hevents] at he
      have heq : e = .tau := by simpa [destructionOrder] using he
      rw [heq]
      rfl
  have hdestroy : TeardownEvent.destroy .completedTxns ∈ teardownEvents (tr ++ tr') := by
    rw [teardownEvents_append, hevents]
    exact List.mem_append_right _ (by simp [destructionOrder])
  obtain ⟨es₁, es₂, heq⟩ := List.append_of_mem hdestroy
  refine ⟨_, p', run.trans more, hdone, ?_, es₁, es₂, heq, ?_⟩
  · exact fun t ht => List.mem_append_left _ (hreq t ht).2
  · exact ((pool_refines_bag (run.trans more)).2.2 hdone).2.2 hsafe es₁ es₂ heq

end Cmsc624.A2
