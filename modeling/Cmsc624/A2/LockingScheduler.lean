import Cmsc624.A2.Processor
import Cmsc624.A2.LockManager
import Cmsc624.Lib.Runs

/-!
# RunLockingScheduler with its clients and workers

One scheduler thread, any number of client threads and of workers, interleaved
statement by statement. The queues' own mutexes make `Push`, `Pop` and `Size` atomic;
`NewTxnRequest` is atomic because of `mutex_`. The thread pool is a bag of tasks from
which a worker may take any one, which covers every choice of queue and worker.
-/

namespace Cmsc624.A2

open Lib

set_option autoImplicit false

/-- Where a worker is in `ExecuteTxn`. -/
inductive ExecPc where
  -- Before `committed_txns_.Size()`.
  | size
  -- In the read loops, these keys to go; none left: before `Run`.
  | reading (rest : List Key)
  -- Before `completed_txns_.Push`.
  | pushing
  deriving DecidableEq

/-- Where the scheduler thread is in `RunLockingScheduler`. -/
inductive SchedPc where
  -- At `while (!stopped_)`.
  | top
  -- In the request loops for the popped transaction.
  | locking (t : TxnPtr) (rest : List LockCall) (blocked : Bool)
  -- At `while (completed_txns_.Pop(&txn))`.
  | collecting
  -- At the test of `txn->Status()`.
  | deciding (t : TxnPtr)
  -- In `ApplyWrites`; none left: before `committed_txns_.Push`.
  | applying (t : TxnPtr) (rest : List (Key × Value))
  -- Before `txn->status_ = COMMITTED`.
  | marking (t : TxnPtr)
  -- In the release loops; none left: before `txn_results_.Push`.
  | releasing (t : TxnPtr) (rest : List Key)
  -- At `while (ready_txns_.size())`.
  | dispatching
  | returned
  deriving DecidableEq

/-- What a step does, as far as other threads or a statement about the run can tell. -/
inductive Event where
  | request (t : TxnPtr)
  | result (t : TxnPtr)
  | stop
  | pop (t : TxnPtr)
  | lock (t : TxnPtr) (c : LockCall) (granted : Bool)
  | ready (t : TxnPtr)
  | park (t : TxnPtr)
  | take (t : TxnPtr)
  | decide (t : TxnPtr)
  | write (t : TxnPtr) (k : Key) (v : Value)
  | commit (t : TxnPtr)
  | finish (t : TxnPtr) (status : TxnStatus)
  | release (t : TxnPtr) (k : Key) (woken : List TxnPtr)
  | deliver (t : TxnPtr)
  | dispatch (t : TxnPtr)
  | start (t : TxnPtr)
  | size (t : TxnPtr) (n : Int)
  | read (t : TxnPtr) (k : Key) (v : Option Value)
  | run (t : TxnPtr) (reads : OrderedMap Key Value)
  | complete (t : TxnPtr)
  | tau

/-- The processor in a locking mode, with the threads around it. `clients` are the
transactions still to be submitted, `handed` the results that clients have taken. -/
structure State (lm : LockManager) extends Processor where
  lockState : lm.State
  pool : List TxnPtr
  running : List (TxnPtr × ExecPc)
  sched : SchedPc
  clients : List TxnPtr
  handed : List TxnPtr

/-- The freshly constructed processor, with the transactions that clients will submit. -/
def State.init (lm : LockManager) (txns : TxnPtr → Txn) (storage : Storage)
    (clients : List TxnPtr) : State lm where
  toProcessor := Processor.init txns storage
  lockState := lm.init
  pool := []
  running := []
  sched := .top
  clients := clients
  handed := []

/-- Nobody has anything to do. -/
structure State.Empty {lm : LockManager} (s : State lm) : Prop where
  txnRequests : s.txnRequests = []
  readyTxns : s.readyTxns = []
  completedTxns : s.completedTxns = []
  pool : s.pool = []
  running : s.running = []
  stopped : s.stopped = false

variable {lm : LockManager} (code : TxnPtr → TxnCode)

inductive Step : State lm → Event → State lm → Prop where
  -- A client calls `NewTxnRequest`.
  | request {s : State lm} {a b : List TxnPtr} {t : TxnPtr} {p : Processor}
      (hc : s.clients = a ++ t :: b) (hp : s.toProcessor.newTxnRequest t = some p) :
      Step s (.request t) { s with toProcessor := p, clients := a ++ b }
  -- `GetTxnResult` pops a result.
  | result {s : State lm} {q : List TxnPtr} {t : TxnPtr} (hq : s.txnResults = t :: q) :
      Step s (.result t) { s with txnResults := q, handed := s.handed ++ [t] }
  -- The destructor's `stopped_ = true`.
  | stop {s : State lm} : Step s .stop { s with stopped := true }
  | leave {s : State lm} (hpc : s.sched = .top) (hs : s.stopped = true) :
      Step s .tau { s with sched := .returned }
  | pop {s : State lm} {q : List TxnPtr} {t : TxnPtr} (hpc : s.sched = .top)
      (hs : s.stopped = false) (hq : s.txnRequests = t :: q) :
      Step s (.pop t) { s with txnRequests := q, sched := .locking t (code t).lockCalls false }
  | noRequest {s : State lm} (hpc : s.sched = .top) (hs : s.stopped = false)
      (hq : s.txnRequests = []) : Step s .tau { s with sched := .collecting }
  | lock {s : State lm} {t : TxnPtr} {c : LockCall} {rest : List LockCall} {blocked : Bool}
      (hpc : s.sched = .locking t (c :: rest) blocked) :
      Step s (.lock t c (lm.call t c s.lockState).1)
        { s with
          lockState := (lm.call t c s.lockState).2
          sched := .locking t rest (blocked || !(lm.call t c s.lockState).1) }
  | ready {s : State lm} {t : TxnPtr} (hpc : s.sched = .locking t [] false) :
      Step s (.ready t) { s with readyTxns := s.readyTxns ++ [t], sched := .collecting }
  | park {s : State lm} {t : TxnPtr} (hpc : s.sched = .locking t [] true) :
      Step s (.park t) { s with sched := .collecting }
  | take {s : State lm} {q : List TxnPtr} {t : TxnPtr} (hpc : s.sched = .collecting)
      (hq : s.completedTxns = t :: q) :
      Step s (.take t) { s with completedTxns := q, sched := .deciding t }
  | noCompleted {s : State lm} (hpc : s.sched = .collecting) (hq : s.completedTxns = []) :
      Step s .tau { s with sched := .dispatching }
  | decide {s : State lm} {t : TxnPtr} (hpc : s.sched = .deciding t)
      (hst : (s.txns t).status = .completedC) :
      Step s (.decide t) { s with sched := .applying t (s.txns t).writes.entries }
  | abort {s : State lm} {t : TxnPtr} (hpc : s.sched = .deciding t)
      (hst : (s.txns t).status = .completedA) :
      Step s (.finish t .aborted)
        { s with
          toProcessor := s.toProcessor.setStatus t .aborted
          sched := .releasing t (code t).keys }
  | write {s : State lm} {t : TxnPtr} {e : Key × Value} {rest : List (Key × Value)}
      (hpc : s.sched = .applying t (e :: rest)) :
      Step s (.write t e.1 e.2)
        { s with toProcessor := s.toProcessor.writeKey t e, sched := .applying t rest }
  | commit {s : State lm} {t : TxnPtr} (hpc : s.sched = .applying t []) :
      Step s (.commit t)
        { s with toProcessor := s.toProcessor.pushCommitted t, sched := .marking t }
  | mark {s : State lm} {t : TxnPtr} (hpc : s.sched = .marking t) :
      Step s (.finish t .committed)
        { s with
          toProcessor := s.toProcessor.setStatus t .committed
          sched := .releasing t (code t).keys }
  | release {s : State lm} {t : TxnPtr} {k : Key} {rest : List Key}
      (hpc : s.sched = .releasing t (k :: rest)) :
      Step s (.release t k (lm.release t k s.lockState).1)
        { s with
          lockState := (lm.release t k s.lockState).2
          readyTxns := s.readyTxns ++ (lm.release t k s.lockState).1
          sched := .releasing t rest }
  | deliver {s : State lm} {t : TxnPtr} (hpc : s.sched = .releasing t []) :
      Step s (.deliver t)
        { s with toProcessor := s.toProcessor.pushResult t, sched := .collecting }
  | dispatch {s : State lm} {q : List TxnPtr} {t : TxnPtr} (hpc : s.sched = .dispatching)
      (hq : s.readyTxns = t :: q) :
      Step s (.dispatch t) { s with readyTxns := q, pool := s.pool ++ [t] }
  | noReady {s : State lm} (hpc : s.sched = .dispatching) (hq : s.readyTxns = []) :
      Step s .tau { s with sched := .top }
  -- A worker takes a task from the pool.
  | start {s : State lm} {a b : List TxnPtr} {t : TxnPtr} (hpool : s.pool = a ++ t :: b) :
      Step s (.start t) { s with pool := a ++ b, running := (t, .size) :: s.running }
  | size {s : State lm} {a b : List (TxnPtr × ExecPc)} {t : TxnPtr}
      (hrun : s.running = a ++ (t, .size) :: b) :
      Step s (.size t s.committedSize)
        { s with
          toProcessor := s.toProcessor.recordStart t
          running := a ++ (t, .reading (code t).keys) :: b }
  | read {s : State lm} {a b : List (TxnPtr × ExecPc)} {t : TxnPtr} {k : Key} {rest : List Key}
      (hrun : s.running = a ++ (t, .reading (k :: rest)) :: b) :
      Step s (.read t k (s.storage.read k))
        { s with
          toProcessor := s.toProcessor.readKey t k
          running := a ++ (t, .reading rest) :: b }
  | run {s : State lm} {a b : List (TxnPtr × ExecPc)} {t : TxnPtr} {p : Processor}
      (hrun : s.running = a ++ (t, .reading []) :: b)
      (hp : s.toProcessor.runTxn (code t) t = some p) :
      Step s (.run t (s.txns t).reads)
        { s with toProcessor := p, running := a ++ (t, .pushing) :: b }
  | complete {s : State lm} {a b : List (TxnPtr × ExecPc)} {t : TxnPtr}
      (hrun : s.running = a ++ (t, .pushing) :: b) :
      Step s (.complete t)
        { s with toProcessor := s.toProcessor.pushCompleted t, running := a ++ b }

abbrev Runs (txns : TxnPtr → Txn) (storage : Storage) (clients : List TxnPtr) :
    List Event → State lm → Prop :=
  Run (Step code) (State.init lm txns storage clients)

end Cmsc624.A2
