import Cmsc624.Lib.Runs
import Mathlib.Algebra.Group.Nat.Defs
import Mathlib.Logic.Function.Basic

/-!
# ThreadLauncher

One launcher thread calls `ExecuteRequest` and `WaitOutstanding` in any order; every
request gets an executor thread of its own. The steps are the statements of `ExecuteRequest`
and `ExecutorFunc`. `Execute` is a black box that begins and returns, and a pointer is the
number of the block that `malloc` gave, so no block is given twice.
-/

namespace Cmsc624.A1.ThreadLauncher

open Lib

set_option autoImplicit false

/-- A `thread_arg*`. -/
abbrev ArgPtr := Nat

/-- A `pthread_t*`. -/
abbrev IdPtr := Nat

variable {ρ : Type}

/-- The members that differ from one `thread_arg` to the other; the others point to the
launcher's own members. -/
structure ThreadArg (ρ : Type) where
  request : ρ
  threadId : IdPtr
  next : Option ArgPtr

/-- Where an executor is in `ExecutorFunc`: before which statement. -/
inductive ExecutorPc (ρ : Type) where
  | created
  -- Inside of `Execute`.
  | executing (req : ρ)
  | lockingList
  | settingNext
  | publishing
  | unlockingList
  | locking
  | incrementing
  | signalling
  | unlocking
  | counting
  | exited

structure Executor (ρ : Type) where
  targ : ArgPtr
  pc : ExecutorPc ρ

/-- Where the launcher is, with the local variables that are still used. -/
inductive LauncherPc (ρ : Type) where
  -- Between two calls.
  | idle
  -- In `ExecuteRequest`, after `num_requests_++`.
  | issued (req : ρ)
  | allocated (thread : IdPtr) (arg : ArgPtr)
  | locking
  -- At the test of `while`, with the mutex.
  | testing
  -- In `pthread_cond_wait`, without the mutex; first asleep, then woken.
  | sleeping
  | waking
  | taking
  | unlocking
  | lockingList
  | detaching
  | clearing (arg : Option ArgPtr)
  | unlockingList (arg : Option ArgPtr)
  -- At the test of the second `while`.
  | walking (arg : Option ArgPtr)
  | joining (temp : ArgPtr) (arg : Option ArgPtr)
  | freeingId (temp : ArgPtr) (arg : Option ArgPtr)
  | freeing (temp : ArgPtr) (arg : Option ArgPtr)
  -- In the loop of `WaitOutstanding`.
  | waiting

inductive Thread where
  | launcher
  | executor (i : Nat)
  deriving DecidableEq

/-- The members of the launcher, the blocks that are allocated and the threads. The two
counters of requests are exact; `WaitOutstanding` sees 64 bits of them. -/
structure State (ρ : Type) where
  numRequests : Nat
  txnsExecuted : Nat
  maxOutstanding : UInt32
  maxOutstandingMutex : Option Thread
  targListMutex : Option Thread
  targList : Option ArgPtr
  args : ArgPtr → Option (ThreadArg ρ)
  threadIds : IdPtr → Option Nat
  launcher : LauncherPc ρ
  executors : List (Executor ρ)

/-- As the constructor leaves it. -/
def State.init (ρ : Type) (maxOutstanding : Int32) : State ρ where
  numRequests := 0
  txnsExecuted := 0
  maxOutstanding := maxOutstanding.toUInt32
  maxOutstandingMutex := none
  targListMutex := none
  targList := none
  args _ := none
  threadIds _ := none
  launcher := .idle
  executors := []

/-- Executor `i` goes on to `pc`. -/
def State.goto (s : State ρ) (i : Nat) (targ : ArgPtr) (pc : ExecutorPc ρ) : State ρ :=
  { s with executors := s.executors.set i ⟨targ, pc⟩ }

/-- `free`. -/
def dealloc {α : Type} (blocks : Nat → Option α) (p : Nat) : Nat → Option α :=
  Function.update blocks p none

inductive Event (ρ : Type) where
  -- `ExecuteRequest` is called.
  | issue (req : ρ)
  -- `pthread_create` has started executor `i`.
  | create (i : Nat)
  -- `--max_outstanding_`.
  | take
  -- `++*max_outstanding_`.
  | giveBack (i : Nat)
  -- `Execute` is called, and returns.
  | execute (i : Nat) (req : ρ)
  | executed (i : Nat) (req : ρ)
  -- `fetch_and_increment`.
  | count (i : Nat)
  -- `*targ->targ_list_ = targ`, and `targ_list_ = NULL`.
  | link (p : ArgPtr)
  | detach
  | join (i : Nat)
  | freeId (p : IdPtr)
  | free (p : ArgPtr)
  -- `WaitOutstanding` returns.
  | waited
  | skip

inductive LauncherStep : State ρ → Event ρ → State ρ → Prop where
  | issue {s : State ρ} (req : ρ) (hpc : s.launcher = .idle) :
      LauncherStep s (.issue req)
        { s with numRequests := s.numRequests + 1, launcher := .issued req }
  -- Both calls of `malloc`, and `GenThreadArg`; the thread id is not set yet.
  | allocate {s : State ρ} {req : ρ} (id : Nat) (hpc : s.launcher = .issued req) :
      LauncherStep s .skip
        { s with
          args := Function.update s.args (s.numRequests - 1) (some ⟨req, s.numRequests - 1, none⟩)
          threadIds := Function.update s.threadIds (s.numRequests - 1) (some id)
          launcher := .allocated (s.numRequests - 1) (s.numRequests - 1) }
  | create {s : State ρ} {thread : IdPtr} {arg : ArgPtr}
      (hpc : s.launcher = .allocated thread arg) :
      LauncherStep s (.create s.executors.length)
        { s with
          threadIds := Function.update s.threadIds thread (some s.executors.length)
          executors := s.executors ++ [⟨arg, .created⟩]
          launcher := .locking }
  | lock {s : State ρ} (hpc : s.launcher = .locking) (hm : s.maxOutstandingMutex = none) :
      LauncherStep s .skip
        { s with maxOutstandingMutex := some .launcher, launcher := .testing }
  -- An unsigned number is at most 0; the mutex is released and the launcher sleeps in one step.
  | wait {s : State ρ} (hpc : s.launcher = .testing) (h0 : s.maxOutstanding ≤ 0) :
      LauncherStep s .skip { s with maxOutstandingMutex := none, launcher := .sleeping }
  | wakeSpuriously {s : State ρ} (hpc : s.launcher = .sleeping) :
      LauncherStep s .skip { s with launcher := .waking }
  | relock {s : State ρ} (hpc : s.launcher = .waking) (hm : s.maxOutstandingMutex = none) :
      LauncherStep s .skip
        { s with maxOutstandingMutex := some .launcher, launcher := .testing }
  | pass {s : State ρ} (hpc : s.launcher = .testing) (h0 : ¬s.maxOutstanding ≤ 0) :
      LauncherStep s .skip { s with launcher := .taking }
  | take {s : State ρ} (hpc : s.launcher = .taking) :
      LauncherStep s .take
        { s with maxOutstanding := s.maxOutstanding - 1, launcher := .unlocking }
  | unlock {s : State ρ} (hpc : s.launcher = .unlocking) :
      LauncherStep s .skip { s with maxOutstandingMutex := none, launcher := .lockingList }
  | lockList {s : State ρ} (hpc : s.launcher = .lockingList) (hm : s.targListMutex = none) :
      LauncherStep s .skip { s with targListMutex := some .launcher, launcher := .detaching }
  | detach {s : State ρ} (hpc : s.launcher = .detaching) :
      LauncherStep s .skip { s with launcher := .clearing s.targList }
  | clear {s : State ρ} {arg : Option ArgPtr} (hpc : s.launcher = .clearing arg) :
      LauncherStep s .detach { s with targList := none, launcher := .unlockingList arg }
  | unlockList {s : State ρ} {arg : Option ArgPtr} (hpc : s.launcher = .unlockingList arg) :
      LauncherStep s .skip { s with targListMutex := none, launcher := .walking arg }
  | next {s : State ρ} {temp : ArgPtr} {a : ThreadArg ρ} (hpc : s.launcher = .walking (some temp))
      (ha : s.args temp = some a) :
      LauncherStep s .skip { s with launcher := .joining temp a.next }
  | join {s : State ρ} {temp : ArgPtr} {arg : Option ArgPtr} {a : ThreadArg ρ} {i : Nat}
      {x : Executor ρ} (hpc : s.launcher = .joining temp arg) (ha : s.args temp = some a)
      (hid : s.threadIds a.threadId = some i) (hx : s.executors[i]? = some x)
      (hexit : x.pc = .exited) :
      LauncherStep s (.join i) { s with launcher := .freeingId temp arg }
  | freeId {s : State ρ} {temp : ArgPtr} {arg : Option ArgPtr} {a : ThreadArg ρ}
      (hpc : s.launcher = .freeingId temp arg) (ha : s.args temp = some a) :
      LauncherStep s (.freeId a.threadId)
        { s with threadIds := dealloc s.threadIds a.threadId, launcher := .freeing temp arg }
  | free {s : State ρ} {temp : ArgPtr} {arg : Option ArgPtr}
      (hpc : s.launcher = .freeing temp arg) :
      LauncherStep s (.free temp) { s with args := dealloc s.args temp, launcher := .walking arg }
  | ret {s : State ρ} (hpc : s.launcher = .walking none) :
      LauncherStep s .skip { s with launcher := .idle }
  | waitOutstanding {s : State ρ} (hpc : s.launcher = .idle) :
      LauncherStep s .skip { s with launcher := .waiting }
  | retry {s : State ρ} (hpc : s.launcher = .waiting)
      (hne : s.txnsExecuted % 2 ^ 64 ≠ s.numRequests % 2 ^ 64) : LauncherStep s .skip s
  | waited {s : State ρ} (hpc : s.launcher = .waiting)
      (heq : s.txnsExecuted % 2 ^ 64 = s.numRequests % 2 ^ 64) :
      LauncherStep s .waited { s with launcher := .idle }

inductive ExecutorStep (i : Nat) : State ρ → Event ρ → State ρ → Prop where
  | execute {s : State ρ} {targ : ArgPtr} {a : ThreadArg ρ}
      (hx : s.executors[i]? = some ⟨targ, .created⟩) (ha : s.args targ = some a) :
      ExecutorStep i s (.execute i a.request) (s.goto i targ (.executing a.request))
  | executed {s : State ρ} {targ : ArgPtr} {req : ρ}
      (hx : s.executors[i]? = some ⟨targ, .executing req⟩) :
      ExecutorStep i s (.executed i req) (s.goto i targ .lockingList)
  | lockList {s : State ρ} {targ : ArgPtr} (hx : s.executors[i]? = some ⟨targ, .lockingList⟩)
      (hm : s.targListMutex = none) :
      ExecutorStep i s .skip
        { s.goto i targ .settingNext with targListMutex := some (.executor i) }
  | setNext {s : State ρ} {targ : ArgPtr} (hx : s.executors[i]? = some ⟨targ, .settingNext⟩) :
      ExecutorStep i s .skip
        { s.goto i targ .publishing with
          args := Function.update s.args targ
            ((s.args targ).map fun a => { a with next := s.targList }) }
  | publish {s : State ρ} {targ : ArgPtr} (hx : s.executors[i]? = some ⟨targ, .publishing⟩) :
      ExecutorStep i s (.link targ)
        { s.goto i targ .unlockingList with targList := some targ }
  | unlockList {s : State ρ} {targ : ArgPtr} (hx : s.executors[i]? = some ⟨targ, .unlockingList⟩) :
      ExecutorStep i s .skip { s.goto i targ .locking with targListMutex := none }
  | lock {s : State ρ} {targ : ArgPtr} (hx : s.executors[i]? = some ⟨targ, .locking⟩)
      (hm : s.maxOutstandingMutex = none) :
      ExecutorStep i s .skip
        { s.goto i targ .incrementing with maxOutstandingMutex := some (.executor i) }
  | increment {s : State ρ} {targ : ArgPtr} (hx : s.executors[i]? = some ⟨targ, .incrementing⟩) :
      ExecutorStep i s (.giveBack i)
        { s.goto i targ .signalling with maxOutstanding := s.maxOutstanding + 1 }
  | signal {s : State ρ} {targ : ArgPtr} (hx : s.executors[i]? = some ⟨targ, .signalling⟩)
      (hl : s.launcher = .sleeping) :
      ExecutorStep i s .skip { s.goto i targ .unlocking with launcher := .waking }
  -- Nobody sleeps, and the signal is lost.
  | signalNobody {s : State ρ} {targ : ArgPtr} (hx : s.executors[i]? = some ⟨targ, .signalling⟩)
      (hl : s.launcher ≠ .sleeping) :
      ExecutorStep i s .skip (s.goto i targ .unlocking)
  | unlock {s : State ρ} {targ : ArgPtr} (hx : s.executors[i]? = some ⟨targ, .unlocking⟩) :
      ExecutorStep i s .skip { s.goto i targ .counting with maxOutstandingMutex := none }
  | count {s : State ρ} {targ : ArgPtr} (hx : s.executors[i]? = some ⟨targ, .counting⟩) :
      ExecutorStep i s (.count i)
        { s.goto i targ .exited with txnsExecuted := s.txnsExecuted + 1 }

/-- Any thread takes the next step. -/
inductive Step : State ρ → Event ρ → State ρ → Prop where
  | launcher {s s' : State ρ} {e : Event ρ} (h : LauncherStep s e s') : Step s e s'
  | executor {s s' : State ρ} {e : Event ρ} (i : Nat) (h : ExecutorStep i s e s') : Step s e s'

abbrev Runs (maxOutstanding : Int32) : List (Event ρ) → State ρ → Prop :=
  Run Step (State.init ρ maxOutstanding)

end Cmsc624.A1.ThreadLauncher
