import Cmsc624.A1.Database
import Cmsc624.Lib.Runs
import Cmsc624.Lib.Tagged
import Mathlib.Data.List.Chain

/-!
# The correctness test

`run_test` lets a launcher execute the requests concurrently, repeats them one after the
other on a copy of the database, and compares. `Lock` and `Unlock` are left to the student,
so what they are for is built into the steps: the write of one record is atomic.
-/

namespace Cmsc624.A1

open Lib

set_option autoImplicit false

abbrev DbPtr := Nat

abbrev Heap := DbPtr → Database

structure Request where
  db : DbPtr
  isHighPriority : Bool
  writeset : List UInt64
  updates : Updates

namespace Request

def setDatabase (q : Request) (db : DbPtr) : Request := { q with db := db }

/-- Pass `i` of the loop of `Txn`; `none` when the assertion on the keys fails. -/
def txnPass (q : Request) (heap : Heap) (i : Nat) : Option Heap := do
  let key ← q.writeset[i]?
  if i = 0 ∨ q.writeset[i - 1]? ≠ some key then
    let db ← (heap q.db).write key q.updates
    some (Function.update heap q.db db)
  else none

def txn (q : Request) (heap : Heap) : Option Heap :=
  (List.range q.writeset.length).foldlM q.txnPass heap

/-- The body is empty. -/
def lock (_ : Request) (heap : Heap) : Heap := heap

/-- The body is empty. -/
def unlock (_ : Request) (heap : Heap) : Heap := heap

def execute (heap : Heap) (q : Request) : Option Heap :=
  (q.txn (q.lock heap)).map q.unlock

def additions (q : Request) : List (UInt64 × Updates) := q.writeset.map (·, q.updates)

/-- What `Txn` relies on: its keys are in the database and no key follows itself. -/
structure Valid (q : Request) (size : Nat) : Prop where
  in_range : ∀ key ∈ q.writeset, key.toNat < size
  adjacent : q.writeset.IsChain (· ≠ ·)

section Execute
variable {q : Request} {heap : Heap} {i : Nat} {key : UInt64}

theorem txnPass_eq_some {heap' : Heap} (hkey : q.writeset[i]? = some key)
    (h : q.txnPass heap i = some heap') :
    heap' = Function.update heap q.db ((heap q.db).add (key, q.updates)) := by
  unfold txnPass at h
  rw [hkey] at h
  simp only [Option.bind_eq_bind, Option.bind_some] at h
  split at h
  · obtain ⟨db, hdb, hheap⟩ := Option.bind_eq_some_iff.mp h
    obtain ⟨_, rfl⟩ := Database.write_eq_some.mp hdb
    exact (Option.some_inj.mp hheap).symm
  · cases h

theorem Valid.assertion {size : Nat} (hq : q.Valid size) (hkey : q.writeset[i]? = some key) :
    i = 0 ∨ q.writeset[i - 1]? ≠ some key := by
  cases i with
  | zero => exact Or.inl rfl
  | succ i =>
    apply Or.inr
    intro hprev
    obtain ⟨hi, hkey⟩ := List.getElem?_eq_some_iff.mp hkey
    obtain ⟨_, hprev⟩ := List.getElem?_eq_some_iff.mp hprev
    have hadj := List.isChain_iff_getElem.mp hq.adjacent i hi
    exact hadj (hprev.trans hkey.symm)

theorem txnPass_of_valid (hq : q.Valid (heap q.db).dbSize) (hkey : q.writeset[i]? = some key) :
    q.txnPass heap i = some (Function.update heap q.db ((heap q.db).add (key, q.updates))) := by
  have hne := hq.assertion hkey
  have hwrite : (heap q.db).write key q.updates = some ((heap q.db).add (key, q.updates)) :=
    Database.write_eq_some.mpr ⟨hq.in_range key (List.mem_of_getElem? hkey), rfl⟩
  unfold txnPass
  rw [hkey]
  simp only [Option.bind_eq_bind, Option.bind_some]
  rw [if_pos hne, hwrite, Option.bind_some]

theorem execute_of_valid (hq : q.Valid (heap q.db).dbSize) :
    execute heap q = some (Function.update heap q.db ((heap q.db).addAll q.additions)) := by
  suffices h : ∀ n ≤ q.writeset.length, (List.range n).foldlM q.txnPass heap =
      some (Function.update heap q.db
        ((heap q.db).addAll ((q.writeset.take n).map (·, q.updates)))) by
    have hall := h _ (le_refl _)
    rw [List.take_length] at hall
    rw [execute, lock, txn, hall]
    rfl
  intro n
  induction n with
  | zero =>
    intro _
    rw [List.range_zero, List.take_zero, List.map_nil, Database.addAll, List.foldl_nil,
      Function.update_eq_self]
    rfl
  | succ n ih =>
    intro hn
    have hkey : q.writeset[n]? = some q.writeset[n] := List.getElem?_eq_getElem hn
    rw [List.range_succ, List.foldlM_append, ih (Nat.le_of_succ_le hn),
      List.take_add_one, hkey, Option.toList_some, List.map_append, List.map_singleton,
      Database.addAll_concat]
    simp only [Option.bind_eq_bind, Option.bind_some, List.foldlM_cons, List.foldlM_nil]
    rw [txnPass_of_valid _ hkey]
    · rw [Option.bind_some, Function.update_idem, Function.update_self]
      rfl
    · rw [Function.update_self, Database.addAll_dbSize]
      exact hq

end Execute

end Request

/-- How far a request has come; `inTxn i` is before pass `i` of the loop. -/
inductive Progress where
  | queued
  | inTxn (i : Nat)
  | executed
  deriving DecidableEq

structure State (reqs : List Request) where
  heap : Heap
  progress : Fin reqs.length → Progress

inductive Event (reqs : List Request) where
  | lock (q : Fin reqs.length)
  | write (q : Fin reqs.length) (key : UInt64)
  | unlock (q : Fin reqs.length)

def start (reqs : List Request) (heap : Heap) : State reqs := ⟨heap, fun _ => .queued⟩

/-- A launcher gives every request to one thread or process, which calls `Execute` once. -/
inductive Step (reqs : List Request) : State reqs → Event reqs → State reqs → Prop where
  | lock {s : State reqs} {q : Fin reqs.length} (hq : s.progress q = .queued) :
      Step reqs s (.lock q) ⟨reqs[q].lock s.heap, Function.update s.progress q (.inTxn 0)⟩
  | write {s : State reqs} {q : Fin reqs.length} {i : Nat} {key : UInt64} {heap : Heap}
      (hq : s.progress q = .inTxn i) (hkey : reqs[q].writeset[i]? = some key)
      (hpass : reqs[q].txnPass s.heap i = some heap) :
      Step reqs s (.write q key) ⟨heap, Function.update s.progress q (.inTxn (i + 1))⟩
  | unlock {s : State reqs} {q : Fin reqs.length}
      (hq : s.progress q = .inTxn reqs[q].writeset.length) :
      Step reqs s (.unlock q) ⟨reqs[q].unlock s.heap, Function.update s.progress q .executed⟩

/-- `WaitOutstanding` has returned. -/
def State.Complete {reqs : List Request} (s : State reqs) : Prop := ∀ q, s.progress q = .executed

/-- The second half of `run_test`: the same requests on the other database, in list order. -/
def replay (reqs : List Request) (simple : DbPtr) (heap : Heap) : Option Heap :=
  (reqs.map (·.setDatabase simple)).foldlM Request.execute heap

/-- The writes of the run, each with its request. -/
def Event.toWrite {reqs : List Request} : Event reqs → Option (Fin reqs.length × UInt64)
  | .write q key => some (q, key)
  | _ => none

def writes {reqs : List Request} (tr : List (Event reqs)) : List (Fin reqs.length × UInt64) :=
  tr.filterMap Event.toWrite

def addition {reqs : List Request} (w : Fin reqs.length × UInt64) : UInt64 × Updates :=
  (w.2, reqs[w.1].updates)

section Concurrent
variable {reqs : List Request} {test : DbPtr} {heap : Heap} {tr : List (Event reqs)}
  {s s' : State reqs} {e : Event reqs}

def State.passes (s : State reqs) (q : Fin reqs.length) : Nat :=
  match s.progress q with
  | .queued => 0
  | .inTxn i => i
  | .executed => reqs[q].writeset.length

@[simp] theorem writes_concat (tr : List (Event reqs)) (e : Event reqs) :
    writes (tr ++ [e]) = writes tr ++ e.toWrite.toList := by
  rw [writes, List.filterMap_append]
  cases e with
  | lock q => rfl
  | write q key => rfl
  | unlock q => rfl

theorem step_effect (h : Step reqs s e s') :
    (e.toWrite = none ∧ s'.heap = s.heap ∧ ∀ q, s'.passes q = s.passes q) ∨
    ∃ q key, e.toWrite = some (q, key) ∧ reqs[q].writeset[s.passes q]? = some key ∧
      s'.heap = Function.update s.heap reqs[q].db
        ((s.heap reqs[q].db).add (addition (q, key))) ∧
      ∀ p, s'.passes p = if p = q then s.passes p + 1 else s.passes p := by
  cases h with
  | @lock q hq =>
    refine Or.inl ⟨rfl, rfl, fun p => ?_⟩
    by_cases hp : p = q
    · subst hp
      simp [State.passes, hq]
    · simp [State.passes, hp]
  | @write q i key heap hq hkey hpass =>
    have hi : s.passes q = i := by simp [State.passes, hq]
    refine Or.inr ⟨q, key, rfl, ?_, ?_, fun p => ?_⟩
    · rw [hi]
      exact hkey
    · exact Request.txnPass_eq_some hkey hpass
    · by_cases hp : p = q
      · subst hp
        rw [if_pos rfl, hi]
        simp [State.passes]
      · simp [State.passes, hp]
  | @unlock q hq =>
    refine Or.inl ⟨rfl, rfl, fun p => ?_⟩
    by_cases hp : p = q
    · subst hp
      simp [State.passes, hq]
    · simp [State.passes, hp]

/-- The database is the old one with the writes so far, and each request has written the
first keys of its write set, in order. -/
structure Written (heap : Heap) (test : DbPtr) (tr : List (Event reqs)) (s : State reqs) :
    Prop where
  test_eq : s.heap test = (heap test).addAll ((writes tr).map addition)
  other_eq : ∀ db ≠ test, s.heap db = heap db
  channel : ∀ q, onChannel (writes tr) q = reqs[q].writeset.take (s.passes q)
  passes_le : ∀ q, s.passes q ≤ reqs[q].writeset.length

theorem written_of_run (hdb : ∀ q ∈ reqs, q.db = test)
    (h : Run (Step reqs) (start reqs heap) tr s) :
    Written heap test tr s := by
  refine h.invariant ⟨rfl, fun _ _ => rfl, fun _ => rfl, fun _ => Nat.zero_le _⟩ ?_
  intro tr s e s' _ hinv hstep
  rcases step_effect hstep with ⟨hnone, hheap, hpasses⟩ | ⟨q, key, hsome, hkey, hheap, hpasses⟩
  · have hsame : writes (tr ++ [e]) = writes tr := by
      rw [writes_concat, hnone, Option.toList_none, List.append_nil]
    refine ⟨?_, ?_, ?_, ?_⟩
    · rw [hsame, hheap]
      exact hinv.test_eq
    · intro db hne
      rw [hheap]
      exact hinv.other_eq db hne
    · intro p
      rw [hsame, hpasses p]
      exact hinv.channel p
    · intro p
      rw [hpasses p]
      exact hinv.passes_le p
  · have hnew : writes (tr ++ [e]) = writes tr ++ [(q, key)] := by
      rw [writes_concat, hsome, Option.toList_some]
    rw [hdb reqs[q] (List.getElem_mem _)] at hheap
    refine ⟨?_, ?_, ?_, ?_⟩
    · rw [hnew, hheap, Function.update_self, List.map_append, List.map_singleton,
        Database.addAll_concat, hinv.test_eq]
    · intro db hne
      rw [hheap, Function.update_of_ne hne]
      exact hinv.other_eq db hne
    · intro p
      rw [hnew, onChannel_append, hinv.channel p, hpasses p]
      by_cases hp : p = q
      · subst hp
        rw [if_pos rfl, onChannel_self, List.take_add_one, hkey, Option.toList_some]
      · rw [if_neg hp, onChannel_of_ne (Ne.symm hp), List.append_nil]
    · intro p
      rw [hpasses p]
      split
      · rename_i hp
        subst hp
        exact (List.getElem?_eq_some_iff.mp hkey).1
      · exact hinv.passes_le p

def allAdditions (reqs : List Request) : List (UInt64 × Updates) := reqs.flatMap Request.additions

/-- Whatever the interleaving, the run has made the writes of all requests. -/
theorem writes_perm (hdb : ∀ q ∈ reqs, q.db = test) (h : Run (Step reqs) (start reqs heap) tr s)
    (hs : s.Complete) : ((writes tr).map addition).Perm (allAdditions reqs) := by
  have hinv := written_of_run hdb h
  have hperm : (writes tr).Perm
      ((List.finRange reqs.length).flatMap fun q => reqs[q].writeset.map (q, ·)) := by
    apply perm_of_onChannel
    intro q
    rw [hinv.channel q, onChannel_flatMap (List.nodup_finRange _), if_pos (List.mem_finRange q)]
    apply List.take_of_length_le
    simp [State.passes, hs q]
  refine (hperm.map addition).trans (List.Perm.of_eq ?_)
  calc ((List.finRange reqs.length).flatMap fun q => reqs[q].writeset.map (q, ·)).map addition
      = (List.finRange reqs.length).flatMap fun q => reqs[q].additions := by
        rw [List.map_flatMap]
        simp only [List.map_map]
        rfl
    _ = ((List.finRange reqs.length).map fun q => reqs[q]).flatMap Request.additions := by
        rw [List.flatMap_map]
    _ = allAdditions reqs := by
        rw [allAdditions]
        congr 1
        exact List.map_get_finRange reqs

theorem replay_of_valid {simple : DbPtr} (hvalid : ∀ q ∈ reqs, q.Valid (heap simple).dbSize) :
    replay reqs simple heap =
      some (Function.update heap simple ((heap simple).addAll (allAdditions reqs))) := by
  rw [replay]
  induction reqs generalizing heap with
  | nil =>
    rw [allAdditions, List.flatMap_nil, Database.addAll, List.foldl_nil, Function.update_eq_self]
    rfl
  | cons q reqs ih =>
    have hq : (q.setDatabase simple).Valid (heap simple).dbSize :=
      ⟨(hvalid q List.mem_cons_self).in_range, (hvalid q List.mem_cons_self).adjacent⟩
    have hexec : Request.execute heap (q.setDatabase simple) =
        some (Function.update heap simple ((heap simple).addAll q.additions)) :=
      Request.execute_of_valid hq
    rw [List.map_cons, List.foldlM_cons, hexec]
    simp only [Option.bind_eq_bind, Option.bind_some]
    have hrest := @ih (Function.update heap simple ((heap simple).addAll q.additions))
      (by
        intro p hp
        rw [Function.update_self, Database.addAll_dbSize]
        exact hvalid p (List.mem_cons_of_mem _ hp))
    rw [Function.update_self, Function.update_idem, ← Database.addAll_append] at hrest
    exact hrest

end Concurrent

section Sums
variable {reqs : List Request} {k : Nat} {j : Fin nfields}

theorem total_additions (q : Request) (k : Nat) (j : Fin nfields) :
    (Database.total q.additions k j).toNat =
      q.writeset.countP (fun key => key.toNat = k) * (q.updates j).toNat % 2 ^ 64 := by
  rw [Request.additions]
  induction q.writeset with
  | nil => simp [Database.total_nil]
  | cons key keys ih =>
    rw [List.map_cons, Database.total_cons, Pi.add_apply, UInt64.toNat_add, ih, List.countP_cons]
    by_cases hkey : key.toNat = k
    · simp only [hkey, if_true, decide_true]
      rw [Nat.add_mod_mod, Nat.add_mul, Nat.one_mul, Nat.add_comm]
    · simp [hkey]

theorem total_allAdditions (reqs : List Request) (k : Nat) (j : Fin nfields) :
    (Database.total (allAdditions reqs) k j).toNat =
      (reqs.map fun q =>
        q.writeset.countP (fun key => key.toNat = k) * (q.updates j).toNat).sum % 2 ^ 64 := by
  rw [allAdditions]
  induction reqs with
  | nil => simp [Database.total_nil]
  | cons q reqs ih =>
    rw [List.flatMap_cons, Database.total_append, Pi.add_apply, UInt64.toNat_add, ih,
      total_additions, List.map_cons, List.sum_cons, ← Nat.add_mod]

end Sums

/-- The test never reports a false alarm about the order of execution. -/
theorem no_false_alarm {reqs : List Request} {test simple : DbPtr} {heap : Heap} {copied : Database}
    {tr : List (Event reqs)} {s : State reqs} (hne : test ≠ simple)
    (hcopy : Database.copy (heap simple) (heap test) = some copied)
    (hdb : ∀ q ∈ reqs, q.db = test)
    (hkeys : ∀ q ∈ reqs, ∀ key ∈ q.writeset, key.toNat < (heap test).dbSize)
    (hadjacent : ∀ q ∈ reqs, q.writeset.IsChain (· ≠ ·))
    (hrun : Run (Step reqs) (start reqs (Function.update heap simple copied)) tr s)
    (hdone : s.Complete) :
    ∃ final, replay reqs simple s.heap = some final ∧
      Database.compare (final test) (final simple) = some true ∧
      final test = s.heap test ∧ final simple = s.heap test ∧
      (s.heap test).dbSize = (heap test).dbSize ∧
      ∀ k r, (heap test).records[k]? = some r → ∃ r', (s.heap test).records[k]? = some r' ∧
        (∀ j, (r'.field j).toNat = ((r.field j).toNat + (reqs.map fun q =>
          q.writeset.countP (fun key => key.toNat = k) * (q.updates j).toNat).sum) % 2 ^ 64) ∧
        ∀ i, ¬Record.InField i → r'.bytes i = r.bytes i := by
  obtain rfl := Database.copy_eq hcopy
  have hinv := written_of_run hdb hrun
  -- both databases end as the copied one with all additions, in whatever order
  have htest : s.heap test = (heap test).addAll (allAdditions reqs) := by
    rw [hinv.test_eq, Function.update_of_ne hne]
    exact Database.addAll_perm (writes_perm hdb hrun hdone)
  have hsimple : s.heap simple = heap test := by
    rw [hinv.other_eq simple hne.symm, Function.update_self]
  have hvalid : ∀ q ∈ reqs, q.Valid (s.heap simple).dbSize := by
    intro q hq
    rw [hsimple]
    exact ⟨hkeys q hq, hadjacent q hq⟩
  have hreplay := replay_of_valid hvalid
  rw [hsimple] at hreplay
  refine ⟨_, hreplay, ?_, ?_, ?_, ?_, ?_⟩
  · rw [Function.update_of_ne hne, Function.update_self, htest]
    exact Database.compare_eq_true.mpr rfl
  · rw [Function.update_of_ne hne]
  · rw [Function.update_self, htest]
  · rw [htest, Database.addAll_dbSize]
  · intro k r hr
    refine ⟨r.doWrite (Database.total (allAdditions reqs) k), ?_, ?_, ?_⟩
    · rw [htest, Database.addAll_record, hr, Option.map_some, Record.vadd_def]
    · intro j
      rw [Record.doWrite_field, UInt64.toNat_add, total_allAdditions, Nat.add_mod_mod]
    · intro i hi
      exact Record.doWrite_outside hi _ _

/-- Two requests for one record; the later one writes first. -/
theorem no_false_alarm_swapped : ∃ q₀ q₁ : Request, ∃ tr, ∃ s : State [q₀, q₁], ∃ heap final,
    q₀.writeset = [0] ∧ q₁.writeset = [0] ∧ s.Complete ∧
      Run (Step [q₀, q₁]) (start [q₀, q₁] heap) tr s ∧ (writes tr).map (·.1.val) = [1, 0] ∧
      replay [q₀, q₁] 1 s.heap = some final ∧ (final 0).compare (final 1) = some true := by
  have hvalid : ∀ u : Updates, Request.Valid ⟨0, false, [0], u⟩ 1 := by
    intro u
    refine ⟨?_, List.isChain_singleton 0⟩
    intro key hkey
    rw [List.mem_singleton.mp hkey]
    decide
  let q₀ : Request := ⟨0, false, [0], fun _ => 1⟩
  let q₁ : Request := ⟨0, false, [0], fun _ => 2⟩
  let db : Database := ⟨[⟨fun _ => 0⟩]⟩
  have hfst : 0 < [q₀, q₁].length := Nat.zero_lt_two
  have hsnd : 1 < [q₀, q₁].length := Nat.one_lt_two
  have hrun : ∃ tr, ∃ s : State [q₀, q₁], s.Complete ∧
      Run (Step [q₀, q₁]) (start [q₀, q₁] (Function.update (fun _ => db) 1 db)) tr s ∧
      (writes tr).map (·.1.val) = [1, 0] := by
    have run : Run (Step [q₀, q₁]) (start [q₀, q₁] (Function.update (fun _ => db) 1 db)) [] _ :=
      .nil
    have run := run.snoc (.lock (q := ⟨0, hfst⟩) rfl)
    have run := run.snoc (.lock (q := ⟨1, hsnd⟩) rfl)
    have run := run.snoc
      (.write (q := ⟨1, hsnd⟩) rfl rfl (Request.txnPass_of_valid (hvalid _) rfl))
    have run := run.snoc
      (.write (q := ⟨0, hfst⟩) rfl rfl (Request.txnPass_of_valid (hvalid _) rfl))
    have run := run.snoc (.unlock (q := ⟨0, hfst⟩) rfl)
    have run := run.snoc (.unlock (q := ⟨1, hsnd⟩) rfl)
    refine ⟨_, _, ?_, run, rfl⟩
    intro q
    match q with
    | ⟨0, _⟩ => rfl
    | ⟨1, _⟩ => rfl
  obtain ⟨tr, s, hdone, hrun, hwrites⟩ := hrun
  have hcopy : db.copy db = some db := rfl
  obtain ⟨final, hreplay, hcompare, _⟩ := no_false_alarm Nat.zero_ne_one hcopy
    (by simp [q₀, q₁]) (by simp [q₀, q₁, db, Database.dbSize]) (by simp [q₀, q₁]) hrun hdone
  exact ⟨q₀, q₁, tr, s, _, final, rfl, rfl, hdone, hrun, hwrites, hreplay, hcompare⟩

end Cmsc624.A1
