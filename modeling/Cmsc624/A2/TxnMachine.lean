import Cmsc624.A2.Txn
import Cmsc624.Lib.ConflictOrder

/-!
# What a transaction means

One transaction alone, as a function on the contents of the store: it reads all its
keys, runs on what it has read, and its writes take effect all together or not at
all. The schedulers are compared with this machine.
-/

namespace Cmsc624.A2

open Lib

set_option autoImplicit false

/-- With the final status in place of the vote. -/
def Buffers.decided (b : Buffers) : Buffers :=
  { b with status := if b.status = .completedC then .committed else .aborted }

def TxnCode.effect (c : TxnCode) (data : Key → Option Value) : Key → Option Value :=
  match c.run (unrun (readAll data c.keys)) with
  | some b => if b.status = .completedC then assign b.writes.entries data else data
  | none => data

/-- Transactions as actions on the store that return what they have read. -/
def machine (code : TxnPtr → TxnCode) :
    Machine TxnPtr (Key → Option Value) (OrderedMap Key Value) where
  effect t data := (code t).effect data
  result t data := readAll data (code t).keys

theorem TxnCode.effect_of_run {c : TxnCode} {data : Key → Option Value} {b : Buffers}
    (hb : c.run (unrun (readAll data c.keys)) = some b) :
    c.effect data = if b.status = .completedC then assign b.writes.entries data else data := by
  simp only [TxnCode.effect, hb]

theorem TxnCode.effect_of_die {c : TxnCode} {data : Key → Option Value}
    (hb : c.run (unrun (readAll data c.keys)) = none) : c.effect data = data := by
  simp only [TxnCode.effect, hb]

variable {code : TxnPtr → TxnCode} {t : TxnPtr}

theorem effect_frame (h : (code t).WritesDeclared) (data : Key → Option Value) {k : Key}
    (hk : k ∉ writes code t) : (code t).effect data k = data k := by
  cases hb : (code t).run (unrun (readAll data (code t).keys)) with
  | none => rw [TxnCode.effect_of_die hb]
  | some b =>
    rw [TxnCode.effect_of_run hb]
    split
    · exact assign_of_notMem fun hmem => hk (h _ b hb k hmem)
    · rfl

theorem effect_congr {data data' : Key → Option Value}
    (hagree : ∀ k ∈ uses code t, data k = data' k) {k : Key} (hk : data k = data' k) :
    (code t).effect data k = (code t).effect data' k := by
  have hreads : readAll data (code t).keys = readAll data' (code t).keys := readAll_congr hagree
  cases hb : (code t).run (unrun (readAll data (code t).keys)) with
  | none =>
    rw [TxnCode.effect_of_die hb, TxnCode.effect_of_die (hreads ▸ hb)]
    exact hk
  | some b =>
    rw [TxnCode.effect_of_run hb, TxnCode.effect_of_run (hreads ▸ hb)]
    split
    · exact assign_congr (.inr hk)
    · exact hk

/-- A transaction looks at its two key sets only, and changes keys of its write set only. -/
theorem footprint (h : (code t).WritesDeclared) :
    Footprint (machine code) (uses code) (writes code) t where
  writes_subset _ hk := List.mem_append_right _ hk
  frame data _ hk := effect_frame h data hk
  local_effect _ _ hagree k hk := effect_congr hagree (hagree k (List.mem_append_right _ hk))
  local_result _ _ hagree := readAll_congr hagree

end Cmsc624.A2
