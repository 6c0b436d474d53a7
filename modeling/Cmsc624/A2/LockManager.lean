import Cmsc624.A2.Txn
import Cmsc624.Lib.LockQueue
import Mathlib.Data.List.Dedup

/-!
# The lock manager's interface and its documented behaviour

`LockManager` is the abstract class of `lock_manager.h` as its caller sees it: an
object state, and the answer and the transactions that each call gives. What the
header documents is stated twice, once as far as the custody of transactions goes
(`LateGrant`) and once in full, with a queue of requests for each key (`Documented`);
the second is proved to give the first. The bodies in `lock_manager.cc` are stubs;
they meet the first one.
-/

namespace Cmsc624.A2

open Lib

set_option autoImplicit false

/-- `CCMode`, as far as the lock manager depends on it. -/
inductive CCMode where
  | serial
  | lockingExclusiveOnly
  | locking
  | occ
  | pOcc
  | mvcc
  | mvccSsi
  deriving DecidableEq, Repr

inductive LockMode where
  | unlocked
  | shared
  | exclusive
  deriving DecidableEq, Repr

/-- The three calls of the scheduler. `release` also returns what it appends to
`ready_txns_`. -/
structure LockManager where
  State : Type
  init : State
  readLock : TxnPtr → Key → State → Bool × State
  writeLock : TxnPtr → Key → State → Bool × State
  release : TxnPtr → Key → State → List TxnPtr × State

/-- A call of `ReadLock` or, when `write` is set, of `WriteLock`. -/
structure LockCall where
  write : Bool
  key : Key
  deriving DecidableEq, Repr

/-- The calls that the two request loops of `RunLockingScheduler` make. -/
def TxnCode.lockCalls (c : TxnCode) : List LockCall :=
  c.readset.toList.map (LockCall.mk false) ++ c.writeset.toList.map (LockCall.mk true)

theorem TxnCode.lockCalls_keys (c : TxnCode) : c.lockCalls.map LockCall.key = c.keys := by
  simp [TxnCode.lockCalls, TxnCode.keys, Function.comp_def]

def LockManager.call (lm : LockManager) (t : TxnPtr) (c : LockCall) (st : lm.State) :
    Bool × lm.State :=
  if c.write then lm.writeLock t c.key st else lm.readLock t c.key st

/-- What the header says about the transactions a lock manager keeps back: a transaction
waits (`txn_waits_`) from the first request that is not granted until some `Release`
appends it to `ready_txns_`, which happens once, and nothing else is ever appended. As
the header requires, this is promised for calls whose pair was not requested before;
`requested` are the pairs with a request in the lock table. -/
structure LateGrant (lm : LockManager) where
  waits : lm.State → TxnPtr → Prop
  requested : lm.State → TxnPtr → Key → Prop
  init_waits : ∀ u, ¬waits lm.init u
  init_requested : ∀ u k, ¬requested lm.init u k
  call_waits : ∀ t c st, ¬requested st t c.key → ∀ u,
    waits (lm.call t c st).2 u ↔ waits st u ∨ (u = t ∧ (lm.call t c st).1 = false)
  call_requested : ∀ t c st, ¬requested st t c.key → ∀ u k,
    requested (lm.call t c st).2 u k → requested st u k ∨ (u = t ∧ k = c.key)
  release_nodup : ∀ t k st, (lm.release t k st).1.Nodup
  release_woken : ∀ t k st, ∀ u ∈ (lm.release t k st).1, waits st u
  release_waits : ∀ t k st, ¬waits st t → ∀ u,
    waits (lm.release t k st).2 u ↔ waits st u ∧ u ∉ (lm.release t k st).1
  release_requested : ∀ t k st u j, requested (lm.release t k st).2 u j → requested st u j

/-- The bodies of `LockManagerA` and `LockManagerB` in `lock_manager.cc`. -/
def stubLockManager : LockManager where
  State := Unit
  init := ()
  readLock _ _ _ := (true, ())
  writeLock _ _ _ := (true, ())
  release _ _ _ := ([], ())

def stubLateGrant : LateGrant stubLockManager where
  waits _ _ := False
  requested _ _ _ := False
  init_waits _ h := h
  init_requested _ _ h := h
  call_waits t c st _ u := by
    cases hc : c.write <;> simp [LockManager.call, stubLockManager, hc]
  call_requested _ _ _ _ _ _ h := h.elim
  release_nodup _ _ _ := List.nodup_nil
  release_woken _ _ _ _ h := by simp [stubLockManager] at h
  release_waits _ _ _ _ _ := by simp
  release_requested _ _ _ _ _ h := h

structure LockRequest where
  mode : LockMode
  txn : TxnPtr
  deriving DecidableEq, Repr

def LockRequest.shared (r : LockRequest) : Bool := r.mode == .shared

/-- The mode a call requests: `LockManagerA` makes read locks exclusive. -/
def LockCall.mode (ccMode : CCMode) (c : LockCall) : LockMode :=
  if c.write then .exclusive else if ccMode = .locking then .shared else .exclusive

def LockCall.request (ccMode : CCMode) (t : TxnPtr) (c : LockCall) : LockRequest :=
  ⟨c.mode ccMode, t⟩

/-- The requests that own the lock: the first one if it is exclusive, else the longest
prefix of shared ones. -/
def owners (q : List LockRequest) : List LockRequest := LockQueue.holders LockRequest.shared q

/-- `t` has a request in some queue that is not granted. -/
def Waiting (table : Key → List LockRequest) (t : TxnPtr) : Prop :=
  ∃ k, ∃ r ∈ table k, r.txn = t ∧ r ∉ owners (table k)

/-- The behaviour documented in `lock_manager.h`, over the lock table: a call appends a
request to its key's queue and answers whether it is granted at once; `Release` removes
the request and appends to `ready_txns_`, in some order, the transactions that were
granted a lock by this and now wait for none. -/
structure Documented (lm : LockManager) (ccMode : CCMode) where
  table : lm.State → Key → List LockRequest
  init_table : ∀ k, table lm.init k = []
  call_answer : ∀ t c st, (∀ r ∈ table st c.key, r.txn ≠ t) →
    (lm.call t c st).1 =
      LockQueue.grantable LockRequest.shared (table st c.key) (c.request ccMode t)
  call_table : ∀ t c st, (∀ r ∈ table st c.key, r.txn ≠ t) →
    table (lm.call t c st).2 =
      Function.update (table st) c.key (table st c.key ++ [c.request ccMode t])
  release_table : ∀ t k st, table (lm.release t k st).2 =
    Function.update (table st) k ((table st k).filter fun r => r.txn ≠ t)
  release_nodup : ∀ t k st, (lm.release t k st).1.Nodup
  release_woken : ∀ t k st u, u ∈ (lm.release t k st).1 ↔
    (∃ r ∈ table st k, r.txn = u ∧ r ∉ owners (table st k) ∧
      r ∈ owners (table (lm.release t k st).2 k)) ∧ ¬Waiting (table (lm.release t k st).2) u

section Queues
variable {q : List LockRequest} {r r' : LockRequest} {t u : TxnPtr}

theorem owners_append (q : List LockRequest) (r : LockRequest) :
    owners (q ++ [r]) =
      if LockQueue.grantable LockRequest.shared q r then owners q ++ [r] else owners q :=
  LockQueue.holders_append q r

theorem mem_of_mem_owners (h : r ∈ owners q) : r ∈ q := LockQueue.mem_of_mem_holders h

theorem mem_owners_append_of_ne (h : r ≠ r') : r ∈ owners (q ++ [r']) ↔ r ∈ owners q := by
  rw [owners_append]
  split <;> simp [h]

theorem mem_owners_append_self (h : r ∉ q) :
    r ∈ owners (q ++ [r]) ↔ LockQueue.grantable LockRequest.shared q r = true := by
  rw [owners_append]
  split
  · rename_i hg
    simp [hg]
  · rename_i hg
    simpa [hg] using fun hmem : r ∈ owners q => h (mem_of_mem_owners hmem)

theorem mem_owners_release (h : r ∈ owners q) (hne : r.txn ≠ t) :
    r ∈ owners (q.filter fun r => r.txn ≠ t) :=
  LockQueue.mem_holders_filter h (by simpa using hne)

/-- Waiting after a request, on a table where the caller had no request for that key. -/
theorem waiting_update_append {table : Key → List LockRequest} {k : Key} (r' : LockRequest)
    (hnew : ∀ r ∈ table k, r.txn ≠ r'.txn) :
    Waiting (Function.update table k (table k ++ [r'])) u ↔ Waiting table u ∨
      (u = r'.txn ∧ LockQueue.grantable LockRequest.shared (table k) r' = false) := by
  have hself := mem_owners_append_self (q := table k) (r := r') fun hmem => hnew r' hmem rfl
  constructor
  · rintro ⟨j, r, hr, rfl, hno⟩
    by_cases hj : j = k
    · subst hj
      rw [Function.update_self] at hr hno
      by_cases hrr : r = r'
      · subst hrr
        exact .inr ⟨rfl, by simpa [hself] using hno⟩
      · have hold := (List.mem_append.mp hr).resolve_right (by simpa using hrr)
        exact .inl ⟨j, r, hold, rfl, fun ho => hno ((mem_owners_append_of_ne hrr).mpr ho)⟩
    · rw [Function.update_of_ne hj] at hr hno
      exact .inl ⟨j, r, hr, rfl, hno⟩
  · rintro (⟨j, r, hr, rfl, hno⟩ | ⟨rfl, hg⟩)
    · refine ⟨j, r, ?_⟩
      by_cases hj : j = k
      · subst hj
        have hrr : r ≠ r' := fun heq => hnew r hr (by rw [heq])
        rw [Function.update_self]
        exact ⟨List.mem_append_left _ hr, rfl, fun ho => hno ((mem_owners_append_of_ne hrr).mp ho)⟩
      · rw [Function.update_of_ne hj]
        exact ⟨hr, rfl, hno⟩
    · refine ⟨k, r', ?_⟩
      rw [Function.update_self]
      exact ⟨by simp, rfl, fun ho => by simp [hself.mp ho] at hg⟩

end Queues

namespace Documented
variable {lm : LockManager} {ccMode : CCMode} (doc : Documented lm ccMode)

theorem release_waiting {t : TxnPtr} {k : Key} {st : lm.State} (ht : ¬Waiting (doc.table st) t)
    (u : TxnPtr) : Waiting (doc.table (lm.release t k st).2) u ↔
      Waiting (doc.table st) u ∧ u ∉ (lm.release t k st).1 := by
  rw [doc.release_woken]
  constructor
  · intro hw
    refine ⟨?_, fun hwoken => hwoken.2 hw⟩
    obtain ⟨j, r, hr, hru, hno⟩ := hw
    rw [doc.release_table] at hr hno
    by_cases hj : j = k
    · subst hj
      rw [Function.update_self] at hr hno
      obtain ⟨hrq, hne⟩ := List.mem_filter.mp hr
      exact ⟨j, r, hrq, hru, fun ho => hno (mem_owners_release ho (by simpa using hne))⟩
    · rw [Function.update_of_ne hj] at hr hno
      exact ⟨j, r, hr, hru, hno⟩
  · rintro ⟨⟨j, r, hr, hru, hno⟩, hnot⟩
    by_contra hw
    by_cases hj : j = k
    · subst hj
      have hne : r.txn ≠ t := by
        rintro rfl
        exact ht ⟨j, r, hr, rfl, hno⟩
      have hkept : r ∈ doc.table (lm.release t j st).2 j := by
        rw [doc.release_table, Function.update_self]
        exact List.mem_filter.mpr ⟨hr, by simpa using hne⟩
      refine hnot ⟨⟨r, hr, hru, hno, ?_⟩, hw⟩
      by_contra ho
      exact hw ⟨j, r, hkept, hru, ho⟩
    · refine hw ⟨j, r, ?_⟩
      rw [doc.release_table, Function.update_of_ne hj]
      exact ⟨hr, hru, hno⟩

/-- The queues give the custody that `LateGrant` states. -/
def lateGrant : LateGrant lm where
  waits st t := Waiting (doc.table st) t
  requested st t k := ∃ r ∈ doc.table st k, r.txn = t
  init_waits u := by
    rintro ⟨k, r, hr, _⟩
    simp [doc.init_table] at hr
  init_requested u k := by
    rintro ⟨r, hr, _⟩
    simp [doc.init_table] at hr
  call_waits t c st hreq u := by
    have hnew : ∀ r ∈ doc.table st c.key, r.txn ≠ t := fun r hr heq => hreq ⟨r, hr, heq⟩
    rw [doc.call_answer t c st hnew, doc.call_table t c st hnew]
    exact waiting_update_append (c.request ccMode t) hnew
  call_requested t c st hreq u k := by
    have hnew : ∀ r ∈ doc.table st c.key, r.txn ≠ t := fun r hr heq => hreq ⟨r, hr, heq⟩
    rintro ⟨r, hr, rfl⟩
    rw [doc.call_table t c st hnew] at hr
    by_cases hk : k = c.key
    · subst hk
      rw [Function.update_self] at hr
      rcases List.mem_append.mp hr with hr | hr
      · exact .inl ⟨r, hr, rfl⟩
      · exact .inr ⟨by rw [List.mem_singleton.mp hr]; rfl, rfl⟩
    · rw [Function.update_of_ne hk] at hr
      exact .inl ⟨r, hr, rfl⟩
  release_nodup := doc.release_nodup
  release_woken t k st u hu := by
    obtain ⟨⟨r, hr, hru, hno, _⟩, _⟩ := (doc.release_woken t k st u).mp hu
    exact ⟨k, r, hr, hru, hno⟩
  release_waits t k st ht u := doc.release_waiting ht u
  release_requested t k st u j := by
    rintro ⟨r, hr, rfl⟩
    rw [doc.release_table] at hr
    by_cases hj : j = k
    · subst hj
      rw [Function.update_self] at hr
      exact ⟨r, (List.mem_filter.mp hr).1, rfl⟩
    · rw [Function.update_of_ne hj] at hr
      exact ⟨r, hr, rfl⟩

end Documented

/-- All requests in the order of their arrival; the queue of a key is what has that key. -/
abbrev Arrivals := List (Key × LockRequest)

namespace Arrivals

def queue (a : Arrivals) (k : Key) : List LockRequest :=
  (a.filter fun e => e.1 = k).map Prod.snd

def waiting (a : Arrivals) (t : TxnPtr) : Bool :=
  a.any fun e => e.2.txn = t && e.2 ∉ owners (a.queue e.1)

def remove (a : Arrivals) (t : TxnPtr) (k : Key) : Arrivals :=
  a.filter fun e => !(e.1 = k && e.2.txn = t)

def woken (a : Arrivals) (t : TxnPtr) (k : Key) : List TxnPtr :=
  let a' := a.remove t k
  (((a'.queue k).filter fun r =>
    r ∉ owners (a.queue k) && r ∈ owners (a'.queue k) && !a'.waiting r.txn).map
      LockRequest.txn).dedup

theorem queue_append (a : Arrivals) (k : Key) (r : LockRequest) :
    queue (a ++ [(k, r)]) = Function.update (queue a) k (queue a k ++ [r]) := by
  funext i
  by_cases hi : i = k
  · subst hi
    simp [queue, List.filter_append]
  · simp [queue, List.filter_append, hi, Ne.symm hi]

theorem queue_remove (a : Arrivals) (t : TxnPtr) (k : Key) :
    queue (a.remove t k) = Function.update (queue a) k ((queue a k).filter fun r => r.txn ≠ t) := by
  funext i
  by_cases hi : i = k
  · subst hi
    rw [Function.update_self]
    simp only [queue, remove, List.filter_filter, List.filter_map]
    congr 1
    apply List.filter_congr
    intro e _
    by_cases he : e.1 = i <;> simp [he]
  · rw [Function.update_of_ne hi]
    simp only [queue, remove, List.filter_filter]
    congr 1
    apply List.filter_congr
    intro e _
    by_cases he : e.1 = i <;> simp [he, hi]

theorem mem_queue {a : Arrivals} {k : Key} {r : LockRequest} : r ∈ a.queue k ↔ (k, r) ∈ a := by
  simp [queue]

theorem waiting_iff (a : Arrivals) (t : TxnPtr) : a.waiting t = true ↔ Waiting a.queue t := by
  simp only [waiting, List.any_eq_true, Bool.and_eq_true, decide_eq_true_eq]
  constructor
  · rintro ⟨⟨k, r⟩, he, rfl, hno⟩
    exact ⟨k, r, mem_queue.mpr he, rfl, hno⟩
  · rintro ⟨k, r, hr, rfl, hno⟩
    exact ⟨(k, r), mem_queue.mp hr, rfl, hno⟩

theorem mem_woken {a : Arrivals} {t u : TxnPtr} {k : Key} : u ∈ a.woken t k ↔
    (∃ r ∈ a.queue k, r.txn = u ∧ r ∉ owners (a.queue k) ∧ r ∈ owners ((a.remove t k).queue k)) ∧
      ¬Waiting (a.remove t k).queue u := by
  simp only [woken, List.mem_dedup, List.mem_map, List.mem_filter, Bool.and_eq_true,
    decide_eq_true_eq, Bool.not_eq_true', ← Bool.not_eq_true, waiting_iff]
  constructor
  · rintro ⟨r, ⟨hr, ⟨hno, ho⟩, hw⟩, rfl⟩
    rw [queue_remove, Function.update_self] at hr
    exact ⟨⟨r, (List.mem_filter.mp hr).1, rfl, hno, ho⟩, hw⟩
  · rintro ⟨⟨r, _, rfl, hno, ho⟩, hw⟩
    exact ⟨r, ⟨mem_of_mem_owners ho, ⟨hno, ho⟩, hw⟩, rfl⟩

end Arrivals

def queueLockManager (ccMode : CCMode) : LockManager where
  State := Arrivals
  init := []
  readLock t k st :=
    let r := LockCall.request ccMode t ⟨false, k⟩
    (LockQueue.grantable LockRequest.shared (st.queue k) r, st ++ [(k, r)])
  writeLock t k st :=
    let r := LockCall.request ccMode t ⟨true, k⟩
    (LockQueue.grantable LockRequest.shared (st.queue k) r, st ++ [(k, r)])
  release t k st := (st.woken t k, st.remove t k)

theorem queueLockManager_call (ccMode : CCMode) (t : TxnPtr) (c : LockCall) (st : Arrivals) :
    (queueLockManager ccMode).call t c st =
      (LockQueue.grantable LockRequest.shared (st.queue c.key) (c.request ccMode t),
        st ++ [(c.key, c.request ccMode t)]) := by
  obtain ⟨write, k⟩ := c
  cases write <;> rfl

def queueDocumented (ccMode : CCMode) : Documented (queueLockManager ccMode) ccMode where
  table := Arrivals.queue
  init_table _ := rfl
  call_answer t c st _ := congrArg Prod.fst (queueLockManager_call ccMode t c st)
  call_table t c st _ :=
    (congrArg (fun x => Arrivals.queue x.2) (queueLockManager_call ccMode t c st)).trans
      (Arrivals.queue_append st c.key _)
  release_table t k st := Arrivals.queue_remove st t k
  release_nodup _ _ _ := List.nodup_dedup _
  release_woken _ _ _ _ := Arrivals.mem_woken

end Cmsc624.A2
