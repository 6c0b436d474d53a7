import Cmsc624.Lib.OrderedMap
import Mathlib.Data.Set.Basic

/-!
# Transactions and the single-version store

`Txn` of `txn.h` and `Storage` of `storage.h`. A `Txn` object has a part that is fixed
when it is built (`TxnCode`: the two key sets and the virtual method `Run`) and a part
that the processor changes (`Txn`). Objects are reached by pointer.
-/

namespace Cmsc624.A2

open Lib

set_option autoImplicit false

abbrev Key := UInt64
abbrev Value := UInt64

abbrev TxnPtr := Nat

instance keyOrder : LinearOrder UInt64 where
  le_refl _ := UInt64.le_refl _
  le_trans _ _ _ := UInt64.le_trans
  le_antisymm _ _ := UInt64.le_antisymm
  le_total _ _ := UInt64.le_total _ _
  lt_iff_le_not_ge a b := by
    rw [UInt64.lt_iff_toNat_lt, UInt64.le_iff_toNat_le, UInt64.le_iff_toNat_le]
    omega
  toDecidableLE := inferInstance
  toDecidableEq := inferInstance

inductive TxnStatus where
  | incomplete
  | completedC
  | completedA
  | committed
  | aborted
  deriving DecidableEq, Repr

/-- The members of a `Txn` that `Run` works on. -/
structure Buffers where
  reads : OrderedMap Key Value
  writes : OrderedMap Key Value
  status : TxnStatus

/-- The members of a `Txn` that change after construction. -/
structure Txn extends Buffers where
  uniqueId : Nat
  occStartIdx : Int

/-- The members of a `Txn` that are fixed at construction. `run` maps the buffers before
`Run` to those after it; `none` stands for a call of `DIE`. -/
structure TxnCode where
  readset : OrderedSet Key
  writeset : OrderedSet Key
  run : Buffers → Option Buffers

namespace TxnCode

def keys (c : TxnCode) : List Key := c.readset.toList ++ c.writeset.toList

/-- `Txn::CheckReadWriteSets` does not `DIE`. -/
def checkReadWriteSets (c : TxnCode) : Prop := c.writeset.Disjoint c.readset

instance decidableCheck (c : TxnCode) : Decidable c.checkReadWriteSets :=
  inferInstanceAs (Decidable (c.writeset.Disjoint c.readset))

theorem keys_nodup {c : TxnCode} (h : c.checkReadWriteSets) : c.keys.Nodup := by
  refine List.nodup_append.mpr ⟨c.readset.nodup, c.writeset.nodup, ?_⟩
  rintro a ha b hb rfl
  exact h a hb ha

end TxnCode

def uses (code : TxnPtr → TxnCode) (t : TxnPtr) : Set Key := {k | k ∈ (code t).keys}

def writes (code : TxnPtr → TxnCode) (t : TxnPtr) : Set Key := {k | k ∈ (code t).writeset}

/-- The buffers of a transaction that has not run, with these reads. -/
def unrun (reads : OrderedMap Key Value) : Buffers := ⟨reads, .empty, .incomplete⟩

/-- As `Txn::Txn` leaves it. -/
def Txn.Fresh (x : Txn) : Prop := x.toBuffers = unrun .empty

/-- `Run` ended in `COMMIT` or `ABORT`. -/
def Buffers.Voted (b : Buffers) : Prop := b.status = .completedC ∨ b.status = .completedA

/-- `Run`, started on a fresh transaction, always votes. -/
def TxnCode.AlwaysVotes (c : TxnCode) : Prop :=
  ∀ reads, ∃ b, c.run (unrun reads) = some b ∧ b.Voted

/-- `Run` fills `writes_` through `Txn::Write` only, which dies on undeclared keys. -/
def TxnCode.WritesDeclared (c : TxnCode) : Prop :=
  ∀ reads b, c.run (unrun reads) = some b → ∀ k ∈ b.writes.keys, k ∈ c.writeset

/-- The same from any state of the buffers. -/
def TxnCode.KeepsDeclared (c : TxnCode) : Prop :=
  ∀ b b', c.run b = some b' → (∀ k ∈ b.writes.keys, k ∈ c.writeset) →
    ∀ k ∈ b'.writes.keys, k ∈ c.writeset

/-- `data_` of a `Storage`; `timestamps_` holds wall-clock times that nothing reads. -/
structure Storage where
  data : Key → Option Value

namespace Storage

/-- `Storage::Read`: `none` when it returns false. -/
def read (s : Storage) (key : Key) : Option Value := s.data key

/-- `Storage::Write`; the transaction's id matters to the multi-version store only. -/
def write (s : Storage) (key : Key) (value : Value) (_txnUniqueId : Int) : Storage :=
  ⟨Function.update s.data key (some value)⟩

@[simp] theorem write_data (s : Storage) (key : Key) (value : Value) (id : Int) :
    (s.write key value id).data = Function.update s.data key (some value) := rfl

end Storage

/-- One pass of a read loop of `ExecuteTxn`: the result is saved iff the record exists. -/
def saveRead (data : Key → Option Value) (reads : OrderedMap Key Value) (k : Key) :
    OrderedMap Key Value :=
  match data k with
  | some v => reads.insert k v
  | none => reads

theorem saveRead_congr {data data' : Key → Option Value} {k : Key} (h : data k = data' k)
    (reads : OrderedMap Key Value) : saveRead data reads k = saveRead data' reads k := by
  simp only [saveRead, h]

/-- Both read loops of `ExecuteTxn`, on a store that does not change meanwhile. -/
def readAll (data : Key → Option Value) (ks : List Key) : OrderedMap Key Value :=
  ks.foldl (saveRead data) .empty

theorem readAll_append_singleton (data : Key → Option Value) (ks : List Key) (k : Key) :
    readAll data (ks ++ [k]) = saveRead data (readAll data ks) k :=
  List.foldl_append

theorem lookup_foldl_saveRead (data : Key → Option Value) (ks : List Key)
    (reads : OrderedMap Key Value) (k : Key) :
    (ks.foldl (saveRead data) reads).lookup k =
      if k ∈ ks then (data k).or (reads.lookup k) else reads.lookup k := by
  induction ks generalizing reads with
  | nil => rfl
  | cons j ks ih =>
    rw [List.foldl_cons, ih]
    have hstep : (saveRead data reads j).lookup k =
        if j = k then (data k).or (reads.lookup k) else reads.lookup k := by
      unfold saveRead
      by_cases hjk : j = k
      · subst hjk
        cases hd : data j with
        | none => simp
        | some v => simp [OrderedMap.lookup_insert]
      · cases data j with
        | none => simp [hjk]
        | some v => simp [OrderedMap.lookup_insert, hjk]
    rw [hstep]
    by_cases hjk : j = k
    · subst hjk
      cases data j <;> simp
    · simp [hjk, Ne.symm hjk]

/-- The reads are the contents of the store for the keys that exist. -/
theorem lookup_readAll (data : Key → Option Value) (ks : List Key) (k : Key) :
    (readAll data ks).lookup k = if k ∈ ks then data k else none := by
  rw [readAll, lookup_foldl_saveRead]
  simp

theorem readAll_congr {data data' : Key → Option Value} {ks : List Key}
    (h : ∀ k ∈ ks, data k = data' k) : readAll data ks = readAll data' ks := by
  unfold readAll
  apply List.foldl_ext
  intro reads k hk
  exact saveRead_congr (h k hk) reads

end Cmsc624.A2
