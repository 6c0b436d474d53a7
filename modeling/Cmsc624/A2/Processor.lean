import Cmsc624.A2.Txn
import Cmsc624.Lib.CInt

/-!
# The members of a TxnProcessor and the steps that all modes share

The statements of `NewTxnRequest`, `ExecuteTxn` and `ApplyWrites`, each as a function
on the processor. The serial scheduler runs them one after the other; in the locking
scheduler every one of them is a step of its own.
-/

namespace Cmsc624.A2

open Lib

set_option autoImplicit false

/-- `TxnProcessor`, with the `Txn` objects its pointers lead to. The lock manager, the
thread pool and the mutexes belong to the modes that use them. -/
structure Processor where
  txns : TxnPtr → Txn
  storage : Storage
  nextUniqueId : Int
  txnRequests : List TxnPtr
  readyTxns : List TxnPtr
  completedTxns : List TxnPtr
  committedTxns : List TxnPtr
  txnResults : List TxnPtr
  stopped : Bool

/-- A member that an assignment to an object leaves alone is the same in all objects. -/
theorem update_field {α : Type} {txns : TxnPtr → Txn} {t u : TxnPtr} {x : Txn} (f : Txn → α)
    (hx : f x = f (txns t)) : f (Function.update txns t x u) = f (txns u) := by
  by_cases hu : u = t
  · rw [hu, Function.update_self, hx]
  · rw [Function.update_of_ne hu]

/-- The call of `storage_->Write`, which is virtual; its parameter `txn_unique_id` is an `int`. -/
@[simp] def writePass {σ : Type} (write : Key → Value → Int → σ) (uniqueId : Nat)
    (e : Key × Value) : σ :=
  write e.1 e.2 (CInt.toInt uniqueId)

namespace Processor

def init (txns : TxnPtr → Txn) (storage : Storage) : Processor where
  txns := txns
  storage := storage
  nextUniqueId := 1
  txnRequests := []
  readyTxns := []
  completedTxns := []
  committedTxns := []
  txnResults := []
  stopped := false

def modifyTxn (p : Processor) (t : TxnPtr) (f : Txn → Txn) : Processor :=
  { p with txns := Function.update p.txns t (f (p.txns t)) }

/-- The critical section of `NewTxnRequest`; `none` when `next_unique_id_++` overflows. -/
def newTxnRequest (p : Processor) (t : TxnPtr) : Option Processor :=
  (CInt.succ p.nextUniqueId).map fun next =>
    { p.modifyTxn t (fun x => { x with uniqueId := CInt.toUInt64 p.nextUniqueId }) with
      nextUniqueId := next
      txnRequests := p.txnRequests ++ [t] }

def committedSize (p : Processor) : Int := CInt.toInt p.committedTxns.length

@[simp] def recordStart (p : Processor) (t : TxnPtr) : Processor :=
  p.modifyTxn t fun x => { x with occStartIdx := p.committedSize }

@[simp] def readKey (p : Processor) (t : TxnPtr) (k : Key) : Processor :=
  p.modifyTxn t fun x => { x with reads := saveRead p.storage.read x.reads k }

def runTxn (p : Processor) (code : TxnCode) (t : TxnPtr) : Option Processor :=
  (code.run (p.txns t).toBuffers).map fun b => p.modifyTxn t fun x => { x with toBuffers := b }

@[simp] def pushCompleted (p : Processor) (t : TxnPtr) : Processor :=
  { p with completedTxns := p.completedTxns ++ [t] }

/-- `ExecuteTxn`, run without interruption. -/
def executeTxn (p : Processor) (code : TxnCode) (t : TxnPtr) : Option Processor :=
  ((code.keys.foldl (fun p k => p.readKey t k) (p.recordStart t)).runTxn code t).map
    fun p => p.pushCompleted t

/-- One pass of the loop of `ApplyWrites`. -/
@[simp] def writeKey (p : Processor) (t : TxnPtr) (e : Key × Value) : Processor :=
  { p with storage := writePass p.storage.write (p.txns t).uniqueId e }

def applyWrites (p : Processor) (t : TxnPtr) : Processor :=
  (p.txns t).writes.entries.foldl (fun p e => p.writeKey t e) p

@[simp] def pushCommitted (p : Processor) (t : TxnPtr) : Processor :=
  { p with committedTxns := p.committedTxns ++ [t] }

@[simp] def setStatus (p : Processor) (t : TxnPtr) (status : TxnStatus) : Processor :=
  p.modifyTxn t fun x => { x with status := status }

@[simp] def pushResult (p : Processor) (t : TxnPtr) : Processor :=
  { p with txnResults := p.txnResults ++ [t] }

section Fields
variable (p : Processor) (t u : TxnPtr) (f : Txn → Txn)

@[simp] theorem modifyTxn_self : (p.modifyTxn t f).txns t = f (p.txns t) := by
  simp [modifyTxn]

theorem modifyTxn_of_ne (h : u ≠ t) : (p.modifyTxn t f).txns u = p.txns u := by
  simp [modifyTxn, h]

@[simp] theorem modifyTxn_storage : (p.modifyTxn t f).storage = p.storage := rfl
@[simp] theorem modifyTxn_nextUniqueId : (p.modifyTxn t f).nextUniqueId = p.nextUniqueId := rfl
@[simp] theorem modifyTxn_txnRequests : (p.modifyTxn t f).txnRequests = p.txnRequests := rfl
@[simp] theorem modifyTxn_readyTxns : (p.modifyTxn t f).readyTxns = p.readyTxns := rfl
@[simp] theorem modifyTxn_completedTxns : (p.modifyTxn t f).completedTxns = p.completedTxns := rfl
@[simp] theorem modifyTxn_committedTxns : (p.modifyTxn t f).committedTxns = p.committedTxns := rfl
@[simp] theorem modifyTxn_txnResults : (p.modifyTxn t f).txnResults = p.txnResults := rfl
@[simp] theorem modifyTxn_stopped : (p.modifyTxn t f).stopped = p.stopped := rfl

end Fields

theorem newTxnRequest_eq_some {p p' : Processor} {t : TxnPtr} :
    p.newTxnRequest t = some p' ↔ p.nextUniqueId < CInt.intMax ∧
      p' = { p.modifyTxn t (fun x => { x with uniqueId := CInt.toUInt64 p.nextUniqueId }) with
        nextUniqueId := p.nextUniqueId + 1
        txnRequests := p.txnRequests ++ [t] } := by
  unfold newTxnRequest
  rw [Option.map_eq_some_iff]
  constructor
  · rintro ⟨next, hnext, rfl⟩
    obtain ⟨hlt, rfl⟩ := CInt.succ_eq_some.mp hnext
    exact ⟨hlt, rfl⟩
  · rintro ⟨hlt, rfl⟩
    exact ⟨p.nextUniqueId + 1, CInt.succ_eq_some.mpr ⟨hlt, rfl⟩, rfl⟩

theorem runTxn_eq_some {p p' : Processor} {code : TxnCode} {t : TxnPtr} :
    p.runTxn code t = some p' ↔ ∃ b, code.run (p.txns t).toBuffers = some b ∧
      p' = p.modifyTxn t fun x => { x with toBuffers := b } := by
  unfold runTxn
  rw [Option.map_eq_some_iff]
  simp only [eq_comm]

end Processor

end Cmsc624.A2
