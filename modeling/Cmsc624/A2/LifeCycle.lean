import Cmsc624.A2.LockingScheduler
import Mathlib.Data.List.Count
import Mathlib.Data.List.Perm.Basic

/-!
# The life of one transaction

Every transaction is at one place: in a queue, in the hands of a thread, or kept back by
the lock manager. A step of the system moves at most one transaction to its next place,
and may wake some that the lock manager kept. `Life` is what such a move can do to the
transaction it moves; nothing happens to the others (`step_moves`).
-/

namespace Cmsc624.A2

open Lib

set_option autoImplicit false

inductive Place where
  | client
  | requested
  | locking (rest : List LockCall)
  | ready
  | pooled
  | running (pc : ExecPc)
  | completed
  | deciding
  | applying (rest : List (Key × Value))
  | marking
  | releasing (rest : List Key)
  | result
  | handed
  deriving DecidableEq

/-- In `ready_txns_` or past it. -/
def Place.PastReady : Place → Prop
  | .client => False
  | .requested => False
  | .locking _ => False
  | _ => True

def Place.Ended : Place → Prop
  | .releasing _ => True
  | .result => True
  | .handed => True
  | _ => False

def SchedPc.places : SchedPc → List (TxnPtr × Place)
  | .locking t rest _ => [(t, .locking rest)]
  | .deciding t => [(t, .deciding)]
  | .applying t rest => [(t, .applying rest)]
  | .marking t => [(t, .marking)]
  | .releasing t rest => [(t, .releasing rest)]
  | .top => []
  | .collecting => []
  | .dispatching => []
  | .returned => []

/-- All transactions but those kept back by the lock manager, with their places. -/
def State.places {lm : LockManager} (s : State lm) : List (TxnPtr × Place) :=
  s.clients.map (·, .client) ++ s.txnRequests.map (·, .requested) ++ s.sched.places ++
    s.readyTxns.map (·, .ready) ++ s.pool.map (·, .pooled) ++
    s.running.map (fun x => (x.1, .running x.2)) ++ s.completedTxns.map (·, .completed) ++
    s.txnResults.map (·, .result) ++ s.handed.map (·, .handed)

/-- The queue or variable that `pl` stands for has `t` in it. -/
def State.Occupies {lm : LockManager} (s : State lm) (t : TxnPtr) : Place → Prop
  | .client => t ∈ s.clients
  | .requested => t ∈ s.txnRequests
  | .locking rest => ∃ b, s.sched = .locking t rest b
  | .ready => t ∈ s.readyTxns
  | .pooled => t ∈ s.pool
  | .running pc => (t, pc) ∈ s.running
  | .completed => t ∈ s.completedTxns
  | .deciding => s.sched = .deciding t
  | .applying rest => s.sched = .applying t rest
  | .marking => s.sched = .marking t
  | .releasing rest => s.sched = .releasing t rest
  | .result => t ∈ s.txnResults
  | .handed => t ∈ s.handed

theorem SchedPc.mem_places {pc : SchedPc} {t : TxnPtr} {pl : Place} :
    (t, pl) ∈ pc.places ↔
      match pl with
      | .locking rest => ∃ b, pc = .locking t rest b
      | .deciding => pc = .deciding t
      | .applying rest => pc = .applying t rest
      | .marking => pc = .marking t
      | .releasing rest => pc = .releasing t rest
      | _ => False := by
  constructor
  · intro h
    cases pc with
    | locking u rest b =>
      obtain ⟨rfl, rfl⟩ := Prod.mk.inj (List.mem_singleton.mp h)
      exact ⟨b, rfl⟩
    | deciding u =>
      obtain ⟨rfl, rfl⟩ := Prod.mk.inj (List.mem_singleton.mp h)
      rfl
    | applying u rest =>
      obtain ⟨rfl, rfl⟩ := Prod.mk.inj (List.mem_singleton.mp h)
      rfl
    | marking u =>
      obtain ⟨rfl, rfl⟩ := Prod.mk.inj (List.mem_singleton.mp h)
      rfl
    | releasing u rest =>
      obtain ⟨rfl, rfl⟩ := Prod.mk.inj (List.mem_singleton.mp h)
      rfl
    | top => cases h
    | collecting => cases h
    | dispatching => cases h
    | returned => cases h
  · intro h
    cases pl with
    | locking rest =>
      obtain ⟨b, rfl⟩ := h
      exact List.mem_singleton_self _
    | deciding =>
      subst h
      exact List.mem_singleton_self _
    | applying rest =>
      subst h
      exact List.mem_singleton_self _
    | marking =>
      subst h
      exact List.mem_singleton_self _
    | releasing rest =>
      subst h
      exact List.mem_singleton_self _
    | _ => exact h.elim

theorem mem_places {lm : LockManager} {s : State lm} {t : TxnPtr} {pl : Place} :
    (t, pl) ∈ s.places ↔ s.Occupies t pl := by
  simp only [State.places, List.mem_append, List.mem_map, SchedPc.mem_places]
  cases pl <;> simp [State.Occupies]

theorem locking_mem_places {lm : LockManager} {s : State lm} {t : TxnPtr} {rest : List LockCall} :
    (t, .locking rest) ∈ s.places ↔ ∃ b, s.sched = .locking t rest b := mem_places

def started (tr : List Event) : List TxnPtr :=
  tr.filterMap fun | .start t => some t | _ => none

/-- The transactions whose status was set to its final value. -/
def finished (tr : List Event) : List TxnPtr :=
  tr.filterMap fun | .finish t _ => some t | _ => none

def readLog (tr : List Event) (t : TxnPtr) : List (Key × Option Value) :=
  tr.filterMap fun | .read u k v => if u = t then some (k, v) else none | _ => none

def Event.txn : Event → Option TxnPtr
  | .request t | .result t | .pop t | .lock t _ _ | .ready t | .park t | .take t | .decide t
  | .write t _ _ | .commit t | .finish t _ | .release t _ _ | .deliver t | .dispatch t | .start t
  | .size t _ | .read t _ _ | .run t _ | .complete t => some t
  | .stop | .tau => none

def Event.appended : Event → List TxnPtr
  | .ready t => [t]
  | .release _ _ woken => woken
  | _ => []

/-- Those of them that a `Release` appended. -/
def Event.woken : Event → List TxnPtr
  | .release _ _ woken => woken
  | _ => []

def appended (tr : List Event) : List TxnPtr := tr.flatMap Event.appended

/-- What a run has done with one transaction that is now at `place`. -/
structure View where
  place : Place
  txn : Txn
  commits : Nat
  starts : Nat
  finishes : Nat
  log : List (Key × Option Value)

def view {lm : LockManager} (tr : List Event) (s : State lm) (t : TxnPtr) (pl : Place) : View where
  place := pl
  txn := s.txns t
  commits := s.committedTxns.count t
  starts := (started tr).count t
  finishes := (finished tr).count t
  log := readLog tr t

/-- The moves of transaction `t`, with the step that makes them, over what the store
answers at that moment. -/
inductive Life (c : TxnCode) (read : Key → Option Value) (t : TxnPtr) :
    Event → View → View → Prop where
  | request {v : View} (id : Nat) (hv : v.place = .client) :
      Life c read t (.request t) v
        { v with place := .requested, txn := { v.txn with uniqueId := id } }
  | pop {v : View} (hv : v.place = .requested) :
      Life c read t (.pop t) v { v with place := .locking c.lockCalls }
  | lock {v : View} {call : LockCall} {rest : List LockCall} {granted : Bool}
      (hv : v.place = .locking (call :: rest)) :
      Life c read t (.lock t call granted) v { v with place := .locking rest }
  | ready {v : View} (hv : v.place = .locking []) :
      Life c read t (.ready t) v { v with place := .ready }
  | park {v : View} (hv : v.place = .locking []) : Life c read t (.park t) v v
  -- The step of another transaction that releases a lock.
  | wake {v : View} {u : TxnPtr} {k : Key} {woken : List TxnPtr} (hu : u ≠ t) (hw : t ∈ woken)
      (hv : v.place = .locking []) :
      Life c read t (.release u k woken) v { v with place := .ready }
  | dispatch {v : View} (hv : v.place = .ready) :
      Life c read t (.dispatch t) v { v with place := .pooled }
  | start {v : View} (hv : v.place = .pooled) :
      Life c read t (.start t) v { v with place := .running .size, starts := v.starts + 1 }
  | size {v : View} (n : Int) (hv : v.place = .running .size) :
      Life c read t (.size t n) v
        { v with place := .running (.reading c.keys), txn := { v.txn with occStartIdx := n } }
  | read {v : View} {k : Key} {rest : List Key} (hv : v.place = .running (.reading (k :: rest))) :
      Life c read t (.read t k (read k)) v
        { v with
          place := .running (.reading rest)
          txn := { v.txn with reads := saveRead read v.txn.reads k }
          log := v.log ++ [(k, read k)] }
  | run {v : View} {b : Buffers} (hv : v.place = .running (.reading []))
      (hb : c.run v.txn.toBuffers = some b) :
      Life c read t (.run t v.txn.reads) v
        { v with place := .running .pushing, txn := { v.txn with toBuffers := b } }
  | complete {v : View} (hv : v.place = .running .pushing) :
      Life c read t (.complete t) v { v with place := .completed }
  | take {v : View} (hv : v.place = .completed) :
      Life c read t (.take t) v { v with place := .deciding }
  | decide {v : View} (hv : v.place = .deciding) (hst : v.txn.status = .completedC) :
      Life c read t (.decide t) v { v with place := .applying v.txn.writes.entries }
  | abort {v : View} (hv : v.place = .deciding) (hst : v.txn.status = .completedA) :
      Life c read t (.finish t .aborted) v
        { v with
          place := .releasing c.keys
          txn := { v.txn with status := .aborted }
          finishes := v.finishes + 1 }
  | write {v : View} {e : Key × Value} {rest : List (Key × Value)}
      (hv : v.place = .applying (e :: rest)) :
      Life c read t (.write t e.1 e.2) v { v with place := .applying rest }
  | commit {v : View} (hv : v.place = .applying []) :
      Life c read t (.commit t) v { v with place := .marking, commits := v.commits + 1 }
  | mark {v : View} (hv : v.place = .marking) :
      Life c read t (.finish t .committed) v
        { v with
          place := .releasing c.keys
          txn := { v.txn with status := .committed }
          finishes := v.finishes + 1 }
  | release {v : View} {k : Key} {rest : List Key} {woken : List TxnPtr}
      (hv : v.place = .releasing (k :: rest)) :
      Life c read t (.release t k woken) v { v with place := .releasing rest }
  | deliver {v : View} (hv : v.place = .releasing []) :
      Life c read t (.deliver t) v { v with place := .result }
  | hand {v : View} (hv : v.place = .result) :
      Life c read t (.result t) v { v with place := .handed }

variable {lm : LockManager} {code : TxnPtr → TxnCode}

structure Idle (tr : List Event) (s : State lm) (e : Event) (s' : State lm) : Prop where
  places : s'.places = s.places
  views : ∀ u pl, view (tr ++ [e]) s' u pl = view tr s u pl
  txn : e.txn = none
  appended : e.appended = []
  lockState : s'.lockState = s.lockState

/-- Transaction `t` is left to the lock manager. -/
structure Parks (tr : List Event) (s : State lm) (e : Event) (s' : State lm) (t : TxnPtr)
    (l : List (TxnPtr × Place)) : Prop where
  event : e = .park t
  sched : s.sched = .locking t [] true
  sched' : s'.sched = .collecting
  before : s.places.Perm ((t, .locking []) :: l)
  after : s'.places.Perm l
  views : ∀ u pl, view (tr ++ [e]) s' u pl = view tr s u pl
  appended : e.appended = []
  lockState : s'.lockState = s.lockState

/-- Transaction `t` moves from `pl` to `pl'`, and those that the step wakes become ready. -/
structure Moves (code : TxnPtr → TxnCode) (tr : List Event) (s : State lm) (e : Event)
    (s' : State lm) (t : TxnPtr) (pl pl' : Place) (l : List (TxnPtr × Place)) : Prop where
  before : s.places.Perm ((t, pl) :: l)
  after : s'.places.Perm ((t, pl') :: (e.woken.map (·, .ready) ++ l))
  life : Life (code t) s.storage.read t e (view tr s t pl) (view (tr ++ [e]) s' t pl')
  txn : e.txn = some t
  others : ∀ u pl, u ≠ t → view (tr ++ [e]) s' u pl = view tr s u pl
  appended : ∀ u ∈ e.appended, u ∈ e.woken ∨ (u = t ∧ pl' = .ready)

theorem count_places (s : State lm) (x : TxnPtr × Place) : s.places.count x =
    (s.clients.map (·, Place.client)).count x + (s.txnRequests.map (·, Place.requested)).count x +
    s.sched.places.count x + (s.readyTxns.map (·, Place.ready)).count x +
    (s.pool.map (·, Place.pooled)).count x +
    (s.running.map (fun x => (x.1, Place.running x.2))).count x +
    (s.completedTxns.map (·, Place.completed)).count x +
    (s.txnResults.map (·, Place.result)).count x + (s.handed.map (·, Place.handed)).count x := by
  simp only [State.places, List.count_append]

@[simp] theorem started_append (tr tr' : List Event) :
    started (tr ++ tr') = started tr ++ started tr' := List.filterMap_append

@[simp] theorem finished_append (tr tr' : List Event) :
    finished (tr ++ tr') = finished tr ++ finished tr' := List.filterMap_append

@[simp] theorem appended_append (tr tr' : List Event) :
    appended (tr ++ tr') = appended tr ++ appended tr' := List.flatMap_append

@[simp] theorem readLog_append (tr tr' : List Event) (t : TxnPtr) :
    readLog (tr ++ tr') t = readLog tr t ++ readLog tr' t := List.filterMap_append

@[simp] theorem appended_singleton (e : Event) : appended [e] = e.appended := by
  simp [appended]

/-- Only the scheduler's own push appends a transaction that no `Release` woke. -/
theorem Event.woken_or_ready {e : Event} {u : TxnPtr} (h : u ∈ e.appended) :
    u ∈ e.woken ∨ e = .ready u := by
  cases e with
  | ready t =>
    obtain rfl := List.mem_singleton.mp h
    exact .inr rfl
  | release t k woken => exact .inl h
  | _ => cases h

/-- A move is known by the places it changes and the views it gives. -/
theorem Moves.of_count {tr : List Event} {s s' : State lm} {e : Event} {t : TxnPtr} (pl : Place)
    {v : View} (hat : s.Occupies t pl)
    (hlife : Life (code t) s.storage.read t e (view tr s t pl) v) (htxn : e.txn = some t)
    (hview : view (tr ++ [e]) s' t v.place = v)
    (hothers : ∀ u pl, u ≠ t → view (tr ++ [e]) s' u pl = view tr s u pl)
    (hcount : ∀ x, s'.places.count x + [(t, pl)].count x =
      s.places.count x + [(t, v.place)].count x + (e.woken.map (·, Place.ready)).count x) :
    ∃ t pl pl' l, Moves code tr s e s' t pl pl' l := by
  have hmem := mem_places.mpr hat
  refine ⟨t, pl, v.place, s.places.erase (t, pl), List.perm_cons_erase hmem, ?_, ?_, htxn,
    hothers, ?_⟩
  · rw [List.perm_iff_count]
    intro x
    have hx := hcount x
    have hbefore := (List.perm_cons_erase hmem).count_eq x
    simp only [List.count_cons, List.count_append, List.count_nil] at hx hbefore ⊢
    omega
  · rwa [hview]
  · intro u hu
    rcases Event.woken_or_ready hu with hw | rfl
    · exact .inl hw
    · cases hlife
      exact .inr ⟨rfl, rfl⟩

theorem Moves.of_place {tr : List Event} {s s' : State lm} {e : Event} {t : TxnPtr} (pl : Place)
    {pl' : Place} (hat : s.Occupies t pl)
    (hlife : Life (code t) s.storage.read t e (view tr s t pl) { view tr s t pl with place := pl' })
    (htxn : e.txn = some t) (hsame : ∀ u pl, view (tr ++ [e]) s' u pl = view tr s u pl)
    (hcount : ∀ x, s'.places.count x + [(t, pl)].count x =
      s.places.count x + [(t, pl')].count x + (e.woken.map (·, Place.ready)).count x) :
    ∃ t pl pl' l, Moves code tr s e s' t pl pl' l :=
  Moves.of_count pl hat hlife htxn (hsame t pl') (fun u pl _ => hsame u pl) hcount

theorem mem_front {α : Type} {l q : List α} {a : α} (h : l = a :: q) : a ∈ l :=
  h ▸ List.mem_cons_self

theorem mem_middle {α : Type} {l p q : List α} {a : α} (h : l = p ++ a :: q) : a ∈ l :=
  h ▸ List.mem_append_cons_self

theorem view_same {tr : List Event} {s s' : State lm} {e : Event} (htxns : s'.txns = s.txns)
    (hcom : s'.committedTxns = s.committedTxns) (hst : started [e] = [])
    (hfin : finished [e] = []) (hlog : ∀ t, readLog [e] t = []) (u : TxnPtr) (pl : Place) :
    view (tr ++ [e]) s' u pl = view tr s u pl := by
  simp only [view, htxns, hcom, started_append, finished_append, readLog_append, hst, hfin, hlog,
    List.append_nil]

theorem Idle.of_sched {tr : List Event} {s : State lm} {pc : SchedPc} (hpc : s.sched.places = [])
    (hpc' : pc.places = []) : Idle tr s .tau { s with sched := pc } where
  places := by simp only [State.places, hpc, hpc']
  views := view_same rfl rfl rfl rfl fun _ => rfl
  txn := rfl
  appended := rfl
  lockState := rfl

theorem Parks.of_sched (tr : List Event) {s : State lm} {t : TxnPtr}
    (hpc : s.sched = .locking t [] true) :
    Parks tr s (.park t) { s with sched := .collecting } t
      ({ s with sched := .collecting } : State lm).places where
  event := rfl
  sched := hpc
  sched' := rfl
  before := by
    rw [List.perm_iff_count]
    intro x
    simp only [count_places, hpc, SchedPc.places, List.count_cons, List.count_nil]
    omega
  after := .rfl
  views := view_same rfl rfl rfl rfl fun _ => rfl
  appended := rfl
  lockState := rfl

def State.outside (s : State lm) : List (TxnPtr × Place) :=
  s.clients.map (·, Place.client) ++ s.txnRequests.map (·, Place.requested) ++
  s.readyTxns.map (·, Place.ready) ++ s.pool.map (·, Place.pooled) ++
  s.running.map (fun x => (x.1, Place.running x.2)) ++
  s.completedTxns.map (·, Place.completed) ++ s.txnResults.map (·, Place.result) ++
  s.handed.map (·, Place.handed)

theorem count_outside (s : State lm) (x : TxnPtr × Place) :
    s.places.count x = s.sched.places.count x + s.outside.count x := by
  rw [count_places]
  simp only [State.outside, List.count_append]
  omega

theorem count_of_sched {s s' : State lm} {e : Event} {t : TxnPtr} {pl pl' : Place}
    (hbefore : s.sched.places = [(t, pl)]) (hafter : s'.sched.places = [(t, pl')])
    (hout : s'.outside = s.outside) (hwoken : e.woken = []) (x : TxnPtr × Place) :
    s'.places.count x + [(t, pl)].count x =
      s.places.count x + [(t, pl')].count x + (e.woken.map (·, Place.ready)).count x := by
  rw [count_outside, count_outside, hbefore, hafter, hout, hwoken, List.map_nil, List.count_nil]
  omega

theorem step_moves (tr : List Event) {s s' : State lm} {e : Event} (h : Step code s e s') :
    Idle tr s e s' ∨ (∃ t l, Parks tr s e s' t l) ∨
      ∃ t pl pl' l, Moves code tr s e s' t pl pl' l := by
  cases h with
  | stop => exact .inl ⟨rfl, view_same rfl rfl rfl rfl (fun _ => rfl), rfl, rfl, rfl⟩
  | leave hpc _ => exact .inl (.of_sched (by rw [hpc]; rfl) rfl)
  | noRequest hpc _ _ => exact .inl (.of_sched (by rw [hpc]; rfl) rfl)
  | noCompleted hpc _ => exact .inl (.of_sched (by rw [hpc]; rfl) rfl)
  | noReady hpc _ => exact .inl (.of_sched (by rw [hpc]; rfl) rfl)
  | park hpc => exact .inr (.inl ⟨_, _, .of_sched tr hpc⟩)
  | @request a b t p hc hp =>
    obtain ⟨_, rfl⟩ := Processor.newTxnRequest_eq_some.mp hp
    refine .inr (.inr (Moves.of_count .client (mem_middle hc)
      (.request (CInt.toUInt64 s.nextUniqueId) rfl) rfl ?_ ?_ ?_))
    · simp [view, started, finished, readLog]
    · intro u pl hu
      simp [view, started, finished, readLog, hu, Processor.modifyTxn_of_ne]
    · intro x
      simp [count_places, SchedPc.places, Event.woken, List.count_cons, hc]
      omega
  | @result q t hq =>
    refine .inr (.inr (Moves.of_place .result (mem_front hq) (.hand rfl) rfl
      (view_same rfl rfl rfl rfl fun _ => rfl) ?_))
    intro x
    simp [count_places, Event.woken, List.count_cons, hq]
    omega
  | @pop q t hpc hs hq =>
    refine .inr (.inr (Moves.of_place .requested (mem_front hq) (.pop rfl) rfl
      (view_same rfl rfl rfl rfl fun _ => rfl) ?_))
    intro x
    simp [count_places, SchedPc.places, Event.woken, List.count_cons, hpc, hq]
    omega
  | @lock t c rest blocked hpc =>
    refine .inr (.inr (Moves.of_place (.locking (c :: rest)) ⟨blocked, hpc⟩ (.lock rfl) rfl
      (view_same rfl rfl rfl rfl fun _ => rfl) ?_))
    exact count_of_sched (congrArg SchedPc.places hpc) rfl rfl rfl
  | @ready t hpc =>
    refine .inr (.inr (Moves.of_place (.locking []) ⟨false, hpc⟩ (.ready rfl) rfl
      (view_same rfl rfl rfl rfl fun _ => rfl) ?_))
    intro x
    simp [count_places, SchedPc.places, Event.woken, List.count_cons, hpc]
    omega
  | @take q t hpc hq =>
    refine .inr (.inr (Moves.of_place .completed (mem_front hq) (.take rfl) rfl
      (view_same rfl rfl rfl rfl fun _ => rfl) ?_))
    intro x
    simp [count_places, SchedPc.places, Event.woken, List.count_cons, hpc, hq]
    omega
  | @decide t hpc hst =>
    refine .inr (.inr (Moves.of_place .deciding hpc (.decide rfl hst) rfl
      (view_same rfl rfl rfl rfl fun _ => rfl) ?_))
    exact count_of_sched (congrArg SchedPc.places hpc) rfl rfl rfl
  | @abort t hpc hst =>
    refine .inr (.inr (Moves.of_count .deciding hpc (.abort rfl hst) rfl ?_ ?_ ?_))
    · simp [view, started, finished, readLog]
    · intro u pl hu
      simp [view, started, finished, readLog, hu, Ne.symm hu, Processor.modifyTxn_of_ne]
    · exact count_of_sched (congrArg SchedPc.places hpc) rfl rfl rfl
  | @write t e rest hpc =>
    refine .inr (.inr (Moves.of_place (.applying (e :: rest)) hpc (.write rfl) rfl
      (view_same rfl rfl rfl rfl fun _ => rfl) ?_))
    exact count_of_sched (congrArg SchedPc.places hpc) rfl rfl rfl
  | @commit t hpc =>
    refine .inr (.inr (Moves.of_count (.applying []) hpc (.commit rfl) rfl ?_ ?_ ?_))
    · simp [view, started, finished, readLog]
    · intro u pl hu
      simp [view, started, finished, readLog, Ne.symm hu]
    · exact count_of_sched (congrArg SchedPc.places hpc) rfl rfl rfl
  | @mark t hpc =>
    refine .inr (.inr (Moves.of_count .marking hpc (.mark rfl) rfl ?_ ?_ ?_))
    · simp [view, started, finished, readLog]
    · intro u pl hu
      simp [view, started, finished, readLog, hu, Ne.symm hu, Processor.modifyTxn_of_ne]
    · exact count_of_sched (congrArg SchedPc.places hpc) rfl rfl rfl
  | @release t k rest hpc =>
    refine .inr (.inr (Moves.of_place (.releasing (k :: rest)) hpc (.release rfl) rfl
      (view_same rfl rfl rfl rfl fun _ => rfl) ?_))
    intro x
    simp [count_places, SchedPc.places, Event.woken, List.count_cons, hpc]
    omega
  | @deliver t hpc =>
    refine .inr (.inr (Moves.of_place (.releasing []) hpc (.deliver rfl) rfl
      (view_same rfl rfl rfl rfl fun _ => rfl) ?_))
    intro x
    simp [count_places, SchedPc.places, Event.woken, List.count_cons, hpc]
    omega
  | @dispatch q t hpc hq =>
    refine .inr (.inr (Moves.of_place .ready (mem_front hq) (.dispatch rfl) rfl
      (view_same rfl rfl rfl rfl fun _ => rfl) ?_))
    intro x
    simp [count_places, Event.woken, List.count_cons, hq]
    omega
  | @start a b t hpool =>
    refine .inr (.inr (Moves.of_count .pooled (mem_middle hpool) (.start rfl) rfl ?_ ?_ ?_))
    · simp [view, started, finished, readLog]
    · intro u pl hu
      simp [view, started, finished, readLog, Ne.symm hu]
    · intro x
      simp [count_places, Event.woken, List.count_cons, hpool]
      omega
  | @size a b t hrun =>
    refine .inr (.inr (Moves.of_count (.running .size) (mem_middle hrun)
      (.size s.committedSize rfl) rfl ?_ ?_ ?_))
    · simp [view, started, finished, readLog]
    · intro u pl hu
      simp [view, started, finished, readLog, hu, Processor.modifyTxn_of_ne]
    · intro x
      simp [count_places, Event.woken, List.count_cons, hrun]
      omega
  | @read a b t k rest hrun =>
    refine .inr (.inr (Moves.of_count (.running (.reading (k :: rest))) (mem_middle hrun)
      (.read rfl) rfl ?_ ?_ ?_))
    · simp [view, started, finished, readLog]
    · intro u pl hu
      simp [view, started, finished, readLog, hu, Ne.symm hu, Processor.modifyTxn_of_ne]
    · intro x
      simp [count_places, Event.woken, List.count_cons, hrun]
      omega
  | @run a b t p hrun hp =>
    obtain ⟨buf, hbuf, rfl⟩ := Processor.runTxn_eq_some.mp hp
    refine .inr (.inr (Moves.of_count (.running (.reading [])) (mem_middle hrun)
      (Life.run (v := view tr s t _) rfl hbuf) rfl ?_ ?_ ?_))
    · simp [view, started, finished, readLog]
    · intro u pl hu
      simp [view, started, finished, readLog, hu, Processor.modifyTxn_of_ne]
    · intro x
      simp [count_places, Event.woken, List.count_cons, hrun]
      omega
  | @complete a b t hrun =>
    refine .inr (.inr (Moves.of_place (.running .pushing) (mem_middle hrun) (.complete rfl) rfl
      (view_same rfl rfl rfl rfl fun _ => rfl) ?_))
    intro x
    simp [count_places, Event.woken, List.count_cons, hrun]
    omega

end Cmsc624.A2
