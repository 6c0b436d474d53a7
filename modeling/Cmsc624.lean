import Cmsc624.Lib.Runs
import Cmsc624.Lib.OrderedMap
import Cmsc624.Lib.ConflictOrder
import Cmsc624.Lib.LockQueue
import Cmsc624.Lib.CInt
import Cmsc624.A2.Txn
import Cmsc624.A2.TxnTypes
import Cmsc624.A2.Processor
import Cmsc624.A2.LockManager
import Cmsc624.A2.LockingScheduler
import Cmsc624.A2.LifeCycle
import Cmsc624.A2.Custody
import Cmsc624.A2.Admission
import Cmsc624.A2.Accounting
import Cmsc624.A2.TwoPhase
import Cmsc624.A2.Isolation
import Cmsc624.A2.Deadlock
import Cmsc624.A2.CallContract
import Cmsc624.A2.TxnMachine
import Cmsc624.A2.SerialScheduler
import Cmsc624.A2.Serializability
import Cmsc624.A2.Dispatch
import Cmsc624.A2.OccWindow
import Cmsc624.Lib.Tagged
import Cmsc624.A2.ThreadPool
import Cmsc624.A2.Teardown
import Cmsc624.A2.Startup
import Cmsc624.Lib.Program
import Cmsc624.A2.Overlay
import Cmsc624.A2.Reference
import Cmsc624.A2.CompletedQueue
import Cmsc624.Lib.ByteWord
import Cmsc624.A1.Record
import Cmsc624.A1.Database
import Cmsc624.A1.CorrectnessTest
import Cmsc624.A2.TaskBag
import Cmsc624.A1.ThreadLauncher
import Cmsc624.Lib.Threads
import Cmsc624.Lib.PermitMonitor
import Cmsc624.A1.Permits
import Cmsc624.Lib.JoinList
import Cmsc624.A1.Reclaim
import Cmsc624.A1.Barrier
import Cmsc624.A1.Launched
import Cmsc624.A2.Numbering
import Cmsc624.A2.Timestamps
import Cmsc624.Lib.ByteMemory
import Cmsc624.A1.CopyRequest
import Cmsc624.A1.CopySize
import Cmsc624.Lib.PageLedger
import Cmsc624.A1.DatabaseMemory
import Cmsc624.A1.Reclaimed
import Cmsc624.Lib.Sampling
import Cmsc624.A2.RandomSets
import Cmsc624.A1.Generation
import Cmsc624.A1.RunTest
import Cmsc624.A1.Counts
import Cmsc624.A1.PerfMonitor
import Cmsc624.A1.Experiment
import Cmsc624.A1.Measurement
import Cmsc624.A1.ProcessLauncher
import Cmsc624.A2.PooledScheduler
import Cmsc624.Lib.Behaviour
import Cmsc624.A2.Progress
import Cmsc624.A2.Completion
import Cmsc624.A2.SerialService
import Cmsc624.Lib.Guarded
import Cmsc624.A2.Atomic
import Cmsc624.A2.Benchmark
import Cmsc624.A2.BenchmarkModes
import Cmsc624.A2.PooledCompletion
import Cmsc624.A1.LauncherProgress
import Cmsc624.A1.FairLauncher
import Cmsc624.A1.ExperimentEnds
import Cmsc624.A1.LauncherClient
import Cmsc624.Lib.Cells
import Cmsc624.A1.FieldAccess
