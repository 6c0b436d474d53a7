import Cmsc624.Lib.Guarded
import Cmsc624.Lib.OrderedMap
import Cmsc624.Lib.CInt
import Mathlib.Data.List.AList
import Mathlib.Data.Set.Card

/-!
# The containers of utils/atomic.h

Each class guards a container of the standard library, by a mutex or by a readers-writer
lock, and locks it in every method. So they behave like atomic objects, which is how the
other modules use `Push`, `Pop` and `Size`. The readers of a map call its `operator[]`,
which may insert; they do so only after they have seen the key.
-/

namespace Cmsc624.A2

open Lib

set_option autoImplicit false

inductive QueueOp (α : Type) where
  | size
  | push (item : α)
  | pop
  | pushNonBlocking (item : α)
  | popNonBlocking

/-- What a method of a container returns: nothing, a flag, a number, or a flag with the
value that it has set `*result` to. -/
inductive Answer (α : Type) where
  | void
  | flag (b : Bool)
  | count (n : Int)
  | found (value : Option α)
  deriving DecidableEq

section Queue
variable {α : Type}

/-- `if (!queue_.empty())`, then `front` and `pop`. -/
def popBody : Body (List α) (Answer α) :=
  .look fun q =>
    if q.isEmpty then .ret (.found none)
    else .look fun q => .set List.tail (.ret (.found q.head?))

def atomicQueue : Guarded (QueueOp α) (List α) (Answer α) where
  guard
    | .pushNonBlocking _ => .trying (.flag false)
    | .popNonBlocking => .trying (.found none)
    | _ => .exclusive
  body
    | .size => .look fun q => .ret (.count (CInt.toInt q.length))
    | .push item => .set (· ++ [item]) (.ret .void)
    | .pop => popBody
    | .pushNonBlocking item => .set (· ++ [item]) (.ret (.flag true))
    | .popNonBlocking => popBody
  quiet op hop := by cases op <;> simp at hop

theorem popBody_run (q : List α) : (popBody : Body (List α) (Answer α)).run q =
    (q.tail, .found q.head?) := by
  cases q with
  | nil => rfl
  | cons x q => rfl

def QueueOp.pushed : QueueOp α → Answer α → List α
  | .push item, _ => [item]
  | .pushNonBlocking item, .flag true => [item]
  | _, _ => []

def QueueOp.popped : QueueOp α → Answer α → List α
  | .pop, .found (some item) => [item]
  | .popNonBlocking, .found (some item) => [item]
  | _, _ => []

def pushedItems (calls : List (QueueOp α × Answer α)) : List α :=
  calls.flatMap fun x => x.1.pushed x.2

def poppedItems (calls : List (QueueOp α × Answer α)) : List α :=
  calls.flatMap fun x => x.1.popped x.2

theorem queue_applies {op : QueueOp α} {q q' : List α} {r : Answer α}
    (h : Applies atomicQueue op q q' r) : q ++ op.pushed r = op.popped r ++ q' := by
  rcases applies_iff.mp h with hrun | ⟨rfl, hg⟩
  · cases op with
    | size =>
      obtain ⟨rfl, rfl⟩ := Prod.mk.inj hrun
      simp [QueueOp.pushed, QueueOp.popped]
    | push item =>
      obtain ⟨rfl, rfl⟩ := Prod.mk.inj hrun
      simp [QueueOp.pushed, QueueOp.popped]
    | pushNonBlocking item =>
      obtain ⟨rfl, rfl⟩ := Prod.mk.inj hrun
      simp [QueueOp.pushed, QueueOp.popped]
    | pop =>
      obtain ⟨rfl, rfl⟩ := Prod.mk.inj ((popBody_run q).symm.trans hrun)
      cases q <;> simp [QueueOp.pushed, QueueOp.popped]
    | popNonBlocking =>
      obtain ⟨rfl, rfl⟩ := Prod.mk.inj ((popBody_run q).symm.trans hrun)
      cases q <;> simp [QueueOp.pushed, QueueOp.popped]
  · cases op with
    | pushNonBlocking item =>
      obtain rfl := Guard.trying.inj hg
      simp [QueueOp.pushed, QueueOp.popped]
    | popNonBlocking =>
      obtain rfl := Guard.trying.inj hg
      simp [QueueOp.pushed, QueueOp.popped]
    | _ => cases hg

theorem pop_fails {q q' : List α} (h : Applies atomicQueue .pop q q' (.found none)) : q = [] := by
  rcases applies_iff.mp h with hrun | ⟨_, hg⟩
  · have hhead := (Prod.mk.inj ((popBody_run q).symm.trans hrun)).2
    exact List.head?_eq_none_iff.mp (Answer.found.inj hhead)
  · cases hg

theorem size_answer {q q' : List α} {r : Answer α} (h : Applies atomicQueue .size q q' r) :
    r = .count (CInt.toInt q.length) := by
  rcases applies_iff.mp h with hrun | ⟨_, hg⟩
  · exact (Prod.mk.inj hrun).2.symm
  · cases hg

theorem queue_fifo {calls : List (QueueOp α × Answer α)} {q : List α}
    (h : SequentialRun atomicQueue [] calls q) : pushedItems calls = poppedItems calls ++ q := by
  refine h.invariant (I := fun calls q => pushedItems calls = poppedItems calls ++ q) rfl ?_
  intro calls q x q' _ ih hs
  have hpushed : pushedItems (calls ++ [x]) = pushedItems calls ++ x.1.pushed x.2 := by
    simp [pushedItems]
  have hpopped : poppedItems (calls ++ [x]) = poppedItems calls ++ x.1.popped x.2 := by
    simp [poppedItems]
  rw [hpushed, hpopped, ih, List.append_assoc, List.append_assoc, queue_applies hs]

/-- A queue is atomic whatever the threads do: first in, first out, a `Pop` that fails has found
it empty, and `Size` counts the items that are in it. Only the non-blocking calls may fail for
another reason. -/
theorem atomicQueue_linearizable {ι : Type} [DecidableEq ι]
    {tr : List (CallEvent ι (QueueOp α) (Answer α))}
    {c : GuardedState ι (QueueOp α) (List α) (Answer α)}
    (h : Run (GuardedStep atomicQueue) (GuardedState.init []) tr c) :
    Run (AtomicStep atomicQueue) (AtomicState.init []) (tr.filterMap CallEvent.visible) c.atomic ∧
    history (tr.filterMap CallEvent.visible) = history tr ∧
    pushedItems (effects tr) = poppedItems (effects tr) ++ c.final ∧
    (∀ l l', effects tr = l ++ (.pop, .found none) :: l' → pushedItems l = poppedItems l) ∧
    (∀ l l' r, effects tr = l ++ (.size, r) :: l' → ∃ q,
      pushedItems l = poppedItems l ++ q ∧ r = .count (CInt.toInt q.length)) ∧
    ((∃ i, c.phase i ≠ .idle) → ∃ e c', GuardedStep atomicQueue c e c' ∧
      ∀ j op, e ≠ .invoke j op) := by
  obtain ⟨hatomic, hhistory, hseq, hlocked⟩ := atomicQueue.refines h
  refine ⟨hatomic, hhistory, queue_fifo hseq, fun l l' hl => ?_, fun l l' r hl => ?_,
    fun ⟨i, hi⟩ => hlocked.progress atomicQueue hi⟩
  · rw [hl] at hseq
    obtain ⟨q, q', hbefore, hpop, _⟩ := hseq.split
    rw [queue_fifo hbefore, pop_fails hpop, List.append_nil]
  · rw [hl] at hseq
    obtain ⟨q, q', hbefore, hsize, _⟩ := hseq.split
    exact ⟨q, queue_fifo hbefore, size_answer hsize⟩

/-- One thread pushes while another one fails to get the lock; then it asks for the size. -/
theorem atomicQueue_run_busy : ∃ (tr : List (CallEvent Bool (QueueOp Nat) (Answer Nat)))
    (c : GuardedState Bool (QueueOp Nat) (List Nat) (Answer Nat)) (r : Answer Nat),
    Run (GuardedStep atomicQueue) (GuardedState.init []) tr c ∧
      effects tr = [(.push 7, .void), (.popNonBlocking, .found none), (.size, r)] ∧
      c.phase true ≠ .idle := by
  have run : Run (GuardedStep (ι := Bool) (atomicQueue (α := Nat))) (GuardedState.init []) [] _ :=
    .nil
  have run := run.snoc (.invoke (i := true) (.push 7) rfl)
  have run := run.snoc (.invoke (i := false) .popNonBlocking rfl)
  have run := run.snoc (.writeLock (i := true) rfl (by simp [atomicQueue]) rfl)
  have run := run.snoc (.set (i := true) rfl)
  have run := run.snoc (.busy (i := false) rfl rfl (by simp [GuardedState.goto]))
  have run := run.snoc (.writeUnlock (i := true) rfl rfl)
  have run := run.snoc (.respond (i := true) rfl)
  have run := run.snoc (.invoke (i := true) .size rfl)
  have run := run.snoc (.writeLock (i := true) rfl (by simp [atomicQueue]) rfl)
  exact ⟨_, _, _, run, rfl, by simp [GuardedState.goto]⟩

theorem atomicQueue_linearizable_busy :
    ∃ (r : Answer Nat) (c : GuardedState Bool (QueueOp Nat) (List Nat) (Answer Nat)),
      r = .count 1 ∧ c.final = [7] ∧
      ∃ e c', GuardedStep atomicQueue c e c' ∧ ∀ j op, e ≠ .invoke j op := by
  obtain ⟨tr, c, r, h, heff, hphase⟩ := atomicQueue_run_busy
  obtain ⟨_, _, hfifo, _, hsize, hprogress⟩ := atomicQueue_linearizable h
  obtain ⟨q, hq, hr⟩ := hsize [(.push 7, .void), (.popNonBlocking, .found none)] [] r heff
  rw [heff] at hfifo
  have hitems : [7] = c.final := hfifo
  obtain rfl : [7] = q := hq
  exact ⟨r, c, hr, hitems.symm, hprogress ⟨true, hphase⟩⟩

end Queue

inductive MapOp (κ υ : Type) where
  | size
  | contains (key : κ)
  | lookup (key : κ)
  | insert (key : κ) (value : υ)
  | erase (key : κ)

theorem ncard_keys {κ υ : Type} [DecidableEq κ] (m : AList fun _ : κ => υ) :
    Set.ncard {key | (m.lookup key).isSome = true} = m.entries.length :=
  calc Set.ncard {key | (m.lookup key).isSome = true}
    _ = Set.ncard (↑m.keys.toFinset : Set κ) := by
      congr 1
      ext key
      rw [Set.mem_ofPred_eq, AList.lookup_isSome, List.coe_toFinset, Set.mem_ofPred_eq,
        AList.mem_keys]
    _ = m.keys.length := by
      rw [Set.ncard_coe_finset, List.toFinset_card_of_nodup m.keys_nodup]
    _ = m.entries.length := List.length_map _

section Map
variable {κ υ : Type} [DecidableEq κ] [Inhabited υ]

/-- `map_[key]`: a missing key gets the default value. -/
def subscript (key : κ) (m : AList fun _ : κ => υ) : AList fun _ : κ => υ :=
  if key ∈ m then m else m.insert key default

/-- `Set` is a synonym of `Insert`. -/
def atomicMap : Guarded (MapOp κ υ) (AList fun _ : κ => υ) (Answer υ) where
  guard
    | .insert _ _ | .erase _ => .exclusive
    | _ => .shared
  body
    | .size => .look fun m => .ret (.count (CInt.toInt m.entries.length))
    | .contains key => .look fun m => .ret (.flag (decide (key ∈ m)))
    | .lookup key => .look fun m =>
      if key ∈ m then .set (subscript key) (.look fun m => .ret (.found (m.lookup key)))
      else .ret (.found none)
    | .insert key value => .set (subscript key) (.set (·.insert key value) (.ret .void))
    | .erase key => .set (·.erase key) (.ret .void)
  quiet op hop m := by
    cases op with
    | insert key value => cases hop
    | erase key => cases hop
    | size => trivial
    | contains key => trivial
    | lookup key =>
      by_cases hkey : key ∈ m
      · simp [Body.Quiet, hkey, subscript]
      · simp [Body.Quiet, hkey]

def MapOp.rebind (key : κ) (value : Option υ) : MapOp κ υ → Option υ
  | .insert k v => if k = key then some v else value
  | .erase k => if k = key then none else value
  | _ => value

def bound (calls : List (MapOp κ υ × Answer υ)) (key : κ) : Option υ :=
  calls.foldl (fun value x => x.1.rebind key value) none

theorem lookup_subscript_insert (m : AList fun _ : κ => υ) (k key : κ) (v : υ) :
    ((subscript k m).insert k v).lookup key = if k = key then some v else m.lookup key := by
  by_cases hk : k = key
  · subst hk
    simp
  · have hne : key ≠ k := fun h => hk h.symm
    rw [AList.lookup_insert_ne hne, if_neg hk, subscript]
    split
    · rfl
    · rw [AList.lookup_insert_ne hne]

theorem map_applies {op : MapOp κ υ} {m m' : AList fun _ : κ => υ} {r : Answer υ}
    (h : Applies atomicMap op m m' r) (key : κ) :
    m'.lookup key = op.rebind key (m.lookup key) := by
  rcases applies_iff.mp h with hrun | ⟨_, hg⟩
  · cases hg : atomicMap.guard op with
    | shared =>
      -- the readers leave the map alone
      have hsame := (atomicMap.quiet op hg m).run_fst
      rw [hrun] at hsame
      obtain rfl : m' = m := hsame
      cases op <;> first | rfl | cases hg
    | _ =>
      cases op with
      | insert k v =>
        obtain ⟨rfl, _⟩ := Prod.mk.inj hrun
        exact lookup_subscript_insert m k key v
      | erase k =>
        obtain ⟨rfl, _⟩ := Prod.mk.inj hrun
        rw [MapOp.rebind]
        by_cases hk : k = key
        · subst hk
          simp
        · rw [AList.lookup_erase_ne fun h => hk h.symm, if_neg hk]
      | _ => cases hg
  · cases op <;> cases hg

theorem map_bound {calls : List (MapOp κ υ × Answer υ)} {m : AList fun _ : κ => υ}
    (h : SequentialRun atomicMap ∅ calls m) (key : κ) : m.lookup key = bound calls key := by
  refine h.invariant (I := fun calls m => m.lookup key = bound calls key) rfl ?_
  intro calls m x m' _ ih hs
  rw [map_applies hs, ih, bound, bound, List.foldl_append]
  rfl

theorem lookup_answer {m m' : AList fun _ : κ => υ} {key : κ} {r : Answer υ}
    (h : Applies atomicMap (.lookup key) m m' r) : r = .found (m.lookup key) := by
  rcases applies_iff.mp h with hrun | ⟨_, hg⟩
  · by_cases hkey : key ∈ m
    · simp [atomicMap, Body.run, hkey, subscript] at hrun
      exact hrun.2.symm
    · simp [atomicMap, Body.run, hkey] at hrun
      rw [AList.lookup_eq_none.mpr hkey]
      exact hrun.2.symm
  · cases hg

theorem contains_answer {m m' : AList fun _ : κ => υ} {key : κ} {r : Answer υ}
    (h : Applies atomicMap (.contains key) m m' r) : r = .flag (m.lookup key).isSome := by
  rcases applies_iff.mp h with hrun | ⟨_, hg⟩
  · obtain ⟨_, rfl⟩ := Prod.mk.inj hrun
    exact congrArg Answer.flag
      (Bool.eq_iff_iff.mpr (decide_eq_true_iff.trans AList.lookup_isSome.symm))
  · cases hg

theorem map_size_answer {m m' : AList fun _ : κ => υ} {r : Answer υ}
    (h : Applies atomicMap .size m m' r) :
    r = .count (CInt.toInt (Set.ncard {key | (m.lookup key).isSome = true})) := by
  rcases applies_iff.mp h with hrun | ⟨_, hg⟩
  · rw [ncard_keys]
    exact (Prod.mk.inj hrun).2.symm
  · cases hg

/-- A map is atomic whatever the threads do: readers run at the same time, and each finds what
the calls before it have left. `Size` counts the keys that have a value. -/
theorem atomicMap_linearizable {ι : Type} [DecidableEq ι]
    {tr : List (CallEvent ι (MapOp κ υ) (Answer υ))}
    {c : GuardedState ι (MapOp κ υ) (AList fun _ : κ => υ) (Answer υ)}
    (h : Run (GuardedStep atomicMap) (GuardedState.init ∅) tr c) :
    Run (AtomicStep atomicMap) (AtomicState.init ∅) (tr.filterMap CallEvent.visible) c.atomic ∧
    history (tr.filterMap CallEvent.visible) = history tr ∧
    (∀ key, c.final.lookup key = bound (effects tr) key) ∧
    (∀ l l' key r, effects tr = l ++ (.lookup key, r) :: l' → r = .found (bound l key)) ∧
    (∀ l l' key r, effects tr = l ++ (.contains key, r) :: l' → r = .flag (bound l key).isSome) ∧
    (∀ l l' r, effects tr = l ++ (.size, r) :: l' →
      r = .count (CInt.toInt (Set.ncard {key | (bound l key).isSome = true}))) ∧
    ((∃ i, c.phase i ≠ .idle) → ∃ e c', GuardedStep atomicMap c e c' ∧
      ∀ j op, e ≠ .invoke j op) := by
  obtain ⟨hatomic, hhistory, hseq, hlocked⟩ := atomicMap.refines h
  refine ⟨hatomic, hhistory, map_bound hseq, fun l l' key r hl => ?_, fun l l' key r hl => ?_,
    fun l l' r hl => ?_, fun ⟨i, hi⟩ => hlocked.progress atomicMap hi⟩
  · rw [hl] at hseq
    obtain ⟨m, m', hbefore, hlookup, _⟩ := hseq.split
    exact (lookup_answer hlookup).trans (congrArg Answer.found (map_bound hbefore key))
  · rw [hl] at hseq
    obtain ⟨m, m', hbefore, hcontains, _⟩ := hseq.split
    rw [← map_bound hbefore key]
    exact contains_answer hcontains
  · rw [hl] at hseq
    obtain ⟨m, m', hbefore, hsize, _⟩ := hseq.split
    simp only [← map_bound hbefore]
    exact map_size_answer hsize

end Map

/-- Two readers inside at the same time. -/
theorem atomicMap_run_readers :
    ∃ (tr : List (CallEvent Bool (MapOp Nat Nat) (Answer Nat)))
    (c : GuardedState Bool (MapOp Nat Nat) (AList fun _ : Nat => Nat) (Answer Nat))
    (r r' : Answer Nat),
    Run (GuardedStep atomicMap) (GuardedState.init ∅) tr c ∧
      effects tr = [(.insert 1 5, .void), (.lookup 1, r), (.size, r')] ∧
      c.lock = .shared [false, true] := by
  have run : Run (GuardedStep (ι := Bool) (atomicMap (κ := Nat) (υ := Nat)))
      (GuardedState.init ∅) [] _ := .nil
  have run := run.snoc (.invoke (i := true) (.insert 1 5) rfl)
  have run := run.snoc (.writeLock (i := true) rfl (by simp [atomicMap]) rfl)
  have run := run.snoc (.set (i := true) rfl)
  have run := run.snoc (.set (i := true) rfl)
  have run := run.snoc (.writeUnlock (i := true) rfl rfl)
  have run := run.snoc (.respond (i := true) rfl)
  have run := run.snoc (.invoke (i := true) (.lookup 1) rfl)
  have run := run.snoc (.readLock (i := true) rfl rfl rfl)
  have run := run.snoc (.invoke (i := false) .size rfl)
  have run := run.snoc (.readLock (i := false) rfl rfl rfl)
  exact ⟨_, _, _, _, run, rfl, rfl⟩

theorem atomicMap_linearizable_readers :
    ∃ (r r' : Answer Nat) (c : GuardedState Bool (MapOp Nat Nat) (AList fun _ : Nat => Nat)
      (Answer Nat)), r = .found (some 5) ∧ r' = .count 1 ∧
      c.lock = .shared [false, true] ∧ c.final.lookup 1 = some 5 := by
  obtain ⟨tr, c, r, r', h, heff, hlock⟩ := atomicMap_run_readers
  obtain ⟨_, _, hfinal, hlookup, _, hsize, _⟩ := atomicMap_linearizable h
  have hbound : {key | (bound [(MapOp.insert 1 5, .void), (.lookup 1, r)] key).isSome = true} =
      {1} := by
    ext key
    by_cases hkey : key = 1
    · simp [bound, MapOp.rebind, hkey]
    · simp [bound, MapOp.rebind, hkey]
  refine ⟨r, r', c, (hlookup [(.insert 1 5, .void)] _ 1 r heff).trans (by decide), ?_, hlock, ?_⟩
  · rw [hsize [(.insert 1 5, .void), (.lookup 1, r)] [] r' heff, hbound, Set.ncard_singleton]
    rfl
  · rw [hfinal 1, heff]
    rfl

end Cmsc624.A2
