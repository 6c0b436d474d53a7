import Cmsc624.A2.TxnMachine
import Cmsc624.A2.TxnTypes
import Cmsc624.A2.Processor
import Cmsc624.Lib.Runs
import Mathlib.Data.List.Nodup
import Mathlib.Data.List.Perm.Basic

/-!
# RunSerialScheduler with its clients

The serial scheduler, interleaved statement by statement with any number of clients.
What the clients see is a service that takes each transaction from a queue, executes it
in one step and puts it into a queue of results (`ServiceStep`): a transaction takes
effect when the scheduler decides about it. The modes OCC and P_OCC call the same loop.
-/

namespace Cmsc624.A2

open Lib

set_option autoImplicit false

/-- A transaction and what it was given and has done. -/
abbrev Outcome := TxnPtr × Buffers

inductive ServiceEvent where
  | request (t : TxnPtr)
  | serve (o : Outcome)
  | result (o : Outcome)

structure Service where
  pending : List TxnPtr
  data : Key → Option Value
  results : List Outcome

def Service.init (data : Key → Option Value) : Service := ⟨[], data, []⟩

/-- What the transaction leaves in its buffers, executed alone on this data. -/
def TxnCode.outcome (c : TxnCode) (data : Key → Option Value) : Option Buffers :=
  (c.run (unrun (readAll data c.keys))).map Buffers.decided

inductive ServiceStep (code : TxnPtr → TxnCode) : Service → ServiceEvent → Service → Prop where
  | request {s : Service} (t : TxnPtr) :
      ServiceStep code s (.request t) { s with pending := s.pending ++ [t] }
  | serve {s : Service} {t : TxnPtr} {q : List TxnPtr} {b : Buffers} (hq : s.pending = t :: q)
      (hb : (code t).outcome s.data = some b) :
      ServiceStep code s (.serve (t, b))
        { pending := q, data := (code t).effect s.data, results := s.results ++ [(t, b)] }
  | result {s : Service} {o : Outcome} {q : List Outcome} (hq : s.results = o :: q) :
      ServiceStep code s (.result o) { s with results := q }

def asked (tr : List ServiceEvent) : List TxnPtr :=
  tr.filterMap fun | .request t => some t | _ => none

def served (tr : List ServiceEvent) : List Outcome :=
  tr.filterMap fun | .serve o => some o | _ => none

def taken (tr : List ServiceEvent) : List Outcome :=
  tr.filterMap fun | .result o => some o | _ => none

@[simp] theorem asked_append (tr tr' : List ServiceEvent) :
    asked (tr ++ tr') = asked tr ++ asked tr' := List.filterMap_append

@[simp] theorem served_append (tr tr' : List ServiceEvent) :
    served (tr ++ tr') = served tr ++ served tr' := List.filterMap_append

@[simp] theorem taken_append (tr tr' : List ServiceEvent) :
    taken (tr ++ tr') = taken tr ++ taken tr' := List.filterMap_append

def Outcome.Of (code : TxnPtr → TxnCode) (o : Outcome) (r : TxnPtr × OrderedMap Key Value) :
    Prop :=
  o.1 = r.1 ∧ ((code r.1).run (unrun r.2)).map Buffers.decided = some o.2

/-- The transactions are served and returned in the order of the requests, and the store and
the outcomes are those of the sequential machine. -/
structure Service.Sequential (code : TxnPtr → TxnCode) (init : Key → Option Value)
    (tr : List ServiceEvent) (s : Service) : Prop where
  fifo : asked tr = (served tr).map Prod.fst ++ s.pending
  results : served tr = taken tr ++ s.results
  data : s.data = (machine code).exec ((served tr).map Prod.fst) init
  outcomes : List.Forall₂ (Outcome.Of code) (served tr)
    ((machine code).outcomes ((served tr).map Prod.fst) init)

theorem Service.sequential_of_run {code : TxnPtr → TxnCode} {init : Key → Option Value}
    {tr : List ServiceEvent} {s : Service}
    (h : Run (ServiceStep code) (Service.init init) tr s) : s.Sequential code init tr := by
  refine h.invariant (I := fun tr s => s.Sequential code init tr) ⟨rfl, rfl, rfl, .nil⟩ ?_
  intro tr s e s' _ ih hs
  cases hs with
  | request t =>
    refine ⟨?_, ?_, ?_, ?_⟩
    · rw [asked_append, served_append, ih.fifo]
      simp [asked, served]
    · simpa [served, taken] using ih.results
    · simpa [served] using ih.data
    · simpa [served] using ih.outcomes
  | @serve t q b hq hb =>
    have hserved : served (tr ++ [ServiceEvent.serve (t, b)]) = served tr ++ [(t, b)] := by
      simp [served]
    refine ⟨?_, ?_, ?_, ?_⟩
    · rw [hserved, asked_append, ih.fifo, hq]
      simp [asked]
    · rw [hserved, ih.results]
      simp [taken]
    · rw [hserved, List.map_append, Machine.exec_append, ← ih.data]
      rfl
    · rw [hserved, List.map_append, Machine.outcomes_append, ← ih.data]
      exact List.rel_append ih.outcomes (.cons ⟨rfl, hb⟩ .nil)
  | @result o q hq =>
    have hserved : served (tr ++ [ServiceEvent.result o]) = served tr := by simp [served]
    refine ⟨?_, ?_, ?_, ?_⟩
    · simpa [hserved, asked] using ih.fifo
    · rw [hserved, ih.results, hq]
      simp [taken]
    · rw [hserved]
      exact ih.data
    · rw [hserved]
      exact ih.outcomes

/-- Where the scheduler thread is in `RunSerialScheduler`, in `ExecuteTxn` too. -/
inductive SerialPc where
  -- At `while (!stopped_)`.
  | top
  -- Before `committed_txns_.Size()`.
  | starting (t : TxnPtr)
  -- In the read loops; none left: before `Run`.
  | reading (t : TxnPtr) (rest : List Key)
  -- Before `completed_txns_.Push`.
  | pushing (t : TxnPtr)
  -- At the tests of `txn->Status()`.
  | deciding (t : TxnPtr)
  -- In `ApplyWrites`; none left: before `committed_txns_.Push`.
  | applying (t : TxnPtr) (rest : List (Key × Value))
  -- Before `txn->status_ = COMMITTED`.
  | marking (t : TxnPtr)
  -- Before `txn_results_.Push`.
  | returning (t : TxnPtr)
  -- `DIE` was called.
  | died
  | returned
  deriving DecidableEq

structure SerialState extends Processor where
  pc : SerialPc
  clients : List TxnPtr
  handed : List TxnPtr

def SerialState.init (txns : TxnPtr → Txn) (storage : Storage) (clients : List TxnPtr) :
    SerialState where
  toProcessor := Processor.init txns storage
  pc := .top
  clients := clients
  handed := []

variable (code : TxnPtr → TxnCode)

inductive SerialStep : SerialState → Option ServiceEvent → SerialState → Prop where
  -- A client calls `NewTxnRequest`.
  | request {s : SerialState} {a b : List TxnPtr} {t : TxnPtr} {p : Processor}
      (hc : s.clients = a ++ t :: b) (hp : s.toProcessor.newTxnRequest t = some p) :
      SerialStep s (some (.request t)) { s with toProcessor := p, clients := a ++ b }
  -- `GetTxnResult` pops a result.
  | result {s : SerialState} {q : List TxnPtr} {t : TxnPtr} (hq : s.txnResults = t :: q) :
      SerialStep s (some (.result (t, (s.txns t).toBuffers)))
        { s with txnResults := q, handed := s.handed ++ [t] }
  -- The destructor's `stopped_ = true`.
  | stop {s : SerialState} : SerialStep s none { s with stopped := true }
  | leave {s : SerialState} (hpc : s.pc = .top) (hs : s.stopped = true) :
      SerialStep s none { s with pc := .returned }
  | pop {s : SerialState} {q : List TxnPtr} {t : TxnPtr} (hpc : s.pc = .top)
      (hs : s.stopped = false) (hq : s.txnRequests = t :: q) :
      SerialStep s none { s with txnRequests := q, pc := .starting t }
  | noRequest {s : SerialState} (hpc : s.pc = .top) (hs : s.stopped = false)
      (hq : s.txnRequests = []) : SerialStep s none s
  | start {s : SerialState} {t : TxnPtr} (hpc : s.pc = .starting t) :
      SerialStep s none
        { s with
          toProcessor := s.toProcessor.recordStart t
          pc := .reading t (code t).keys }
  | read {s : SerialState} {t : TxnPtr} {k : Key} {rest : List Key}
      (hpc : s.pc = .reading t (k :: rest)) :
      SerialStep s none
        { s with toProcessor := s.toProcessor.readKey t k, pc := .reading t rest }
  | run {s : SerialState} {t : TxnPtr} {p : Processor} (hpc : s.pc = .reading t [])
      (hp : s.toProcessor.runTxn (code t) t = some p) :
      SerialStep s none { s with toProcessor := p, pc := .pushing t }
  | runDies {s : SerialState} {t : TxnPtr} (hpc : s.pc = .reading t [])
      (hp : s.toProcessor.runTxn (code t) t = none) :
      SerialStep s none { s with pc := .died }
  | complete {s : SerialState} {t : TxnPtr} (hpc : s.pc = .pushing t) :
      SerialStep s none
        { s with toProcessor := s.toProcessor.pushCompleted t, pc := .deciding t }
  | decide {s : SerialState} {t : TxnPtr} (hpc : s.pc = .deciding t)
      (hst : (s.txns t).status = .completedC) :
      SerialStep s (some (.serve (t, (s.txns t).toBuffers.decided)))
        { s with pc := .applying t (s.txns t).writes.entries }
  | abort {s : SerialState} {t : TxnPtr} (hpc : s.pc = .deciding t)
      (hst : (s.txns t).status = .completedA) :
      SerialStep s (some (.serve (t, (s.txns t).toBuffers.decided)))
        { s with toProcessor := s.toProcessor.setStatus t .aborted, pc := .returning t }
  -- "Invalid TxnStatus!"
  | invalid {s : SerialState} {t : TxnPtr} (hpc : s.pc = .deciding t)
      (hc : (s.txns t).status ≠ .completedC) (ha : (s.txns t).status ≠ .completedA) :
      SerialStep s none { s with pc := .died }
  | write {s : SerialState} {t : TxnPtr} {e : Key × Value} {rest : List (Key × Value)}
      (hpc : s.pc = .applying t (e :: rest)) :
      SerialStep s none
        { s with toProcessor := s.toProcessor.writeKey t e, pc := .applying t rest }
  | commit {s : SerialState} {t : TxnPtr} (hpc : s.pc = .applying t []) :
      SerialStep s none
        { s with toProcessor := s.toProcessor.pushCommitted t, pc := .marking t }
  | mark {s : SerialState} {t : TxnPtr} (hpc : s.pc = .marking t) :
      SerialStep s none
        { s with toProcessor := s.toProcessor.setStatus t .committed, pc := .returning t }
  | deliver {s : SerialState} {t : TxnPtr} (hpc : s.pc = .returning t) :
      SerialStep s none { s with toProcessor := s.toProcessor.pushResult t, pc := .top }

abbrev SerialRuns (txns : TxnPtr → Txn) (storage : Storage) (clients : List TxnPtr) :
    List (Option ServiceEvent) → SerialState → Prop :=
  Run (SerialStep code) (SerialState.init txns storage clients)

/-- With the final status of one that will commit. -/
def Buffers.settled (b : Buffers) : Buffers :=
  if b.status = .completedC then { b with status := .committed } else b

theorem Buffers.settled_of_ne {b : Buffers} (h : b.status ≠ .completedC) : b.settled = b :=
  if_neg h

theorem Buffers.settled_of_eq {b : Buffers} (h : b.status = .completedC) :
    b.settled = { b with status := .committed } := if_pos h

@[simp] def SerialPc.before : SerialPc → List TxnPtr
  | .starting t | .reading t _ | .pushing t | .deciding t => [t]
  | _ => []

@[simp] def SerialPc.after : SerialPc → List TxnPtr
  | .applying t _ | .marking t | .returning t => [t]
  | _ => []

@[simp] def SerialPc.unwritten : SerialPc → List (Key × Value)
  | .applying _ rest => rest
  | _ => []

def SerialState.service (s : SerialState) : Service where
  pending := s.pc.before ++ s.txnRequests
  data := assign s.pc.unwritten s.storage.data
  results := (s.txnResults ++ s.pc.after).map fun t => (t, (s.txns t).toBuffers.settled)

/-- How far the scheduler has come with its transaction. -/
def SerialState.Working (code : TxnPtr → TxnCode) (s : SerialState) : Prop :=
  match s.pc with
  | .starting t => (s.txns t).Fresh
  | .reading t rest => ∃ ks, (code t).keys = ks ++ rest ∧
      (s.txns t).toBuffers = unrun (readAll s.storage.data ks)
  | .pushing t | .deciding t =>
      (code t).run (unrun (readAll s.storage.data (code t).keys)) = some (s.txns t).toBuffers ∧
        (s.txns t).toBuffers.Voted
  | .applying t _ | .marking t => (s.txns t).status = .completedC
  | .returning t => (s.txns t).status ≠ .completedC
  | .died => False
  | .top | .returned => True

structure SerialState.Orderly (code : TxnPtr → TxnCode) (s : SerialState) : Prop where
  nodup : ((s.clients ++ s.txnRequests) ++ (s.pc.before ++ s.pc.after) ++ s.txnResults).Nodup
  fresh : ∀ t ∈ s.clients ++ s.txnRequests, (s.txns t).Fresh
  votes : ∀ t ∈ (s.clients ++ s.txnRequests) ++ s.pc.before, (code t).AlwaysVotes
  working : s.Working code
  ended : ∀ t ∈ s.txnResults, (s.txns t).status ≠ .completedC

section Orderly
variable {code} {s s' : SerialState} {e : Option ServiceEvent} {t u : TxnPtr}

theorem SerialState.Orderly.ne_of_waiting (h : s.Orderly code)
    (ht : t ∈ s.pc.before ++ s.pc.after) (hu : u ∈ s.clients ++ s.txnRequests) : u ≠ t := by
  rintro rfl
  exact (List.nodup_append.mp (List.nodup_append.mp h.nodup).1).2.2 u hu u ht rfl

theorem SerialState.Orderly.ne_of_result (h : s.Orderly code)
    (ht : t ∈ s.pc.before ++ s.pc.after) (hu : u ∈ s.txnResults) : u ≠ t := by
  rintro rfl
  exact (List.nodup_append.mp h.nodup).2.2 u (List.mem_append_right _ ht) u hu rfl

theorem SerialState.Orderly.inHand (h : s.Orderly code) (ht : t ∈ s.pc.before ++ s.pc.after)
    (hc : s'.clients = s.clients) (hq : s'.txnRequests = s.txnRequests)
    (hr : s'.txnResults = s.txnResults)
    (hpc : (s'.pc.before ++ s'.pc.after) = (s.pc.before ++ s.pc.after))
    (hb : s'.pc.before ⊆ s.pc.before)
    (htxns : ∀ u, u ≠ t → (s'.txns u).toBuffers = (s.txns u).toBuffers)
    (hw : s'.Working code) : s'.Orderly code where
  nodup := by
    rw [hc, hq, hr, hpc]
    exact h.nodup
  fresh u hu := by
    rw [hc, hq] at hu
    exact (htxns u (h.ne_of_waiting ht hu)).trans (h.fresh u hu)
  votes u hu := by
    rw [hc, hq] at hu
    exact h.votes u (List.append_subset.mpr ⟨List.subset_append_left _ _,
      List.Subset.trans hb (List.subset_append_right _ _)⟩ hu)
  working := hw
  ended u hu := by
    rw [hr] at hu
    rw [htxns u (h.ne_of_result ht hu)]
    exact h.ended u hu

theorem SerialState.Orderly.init {txns : TxnPtr → Txn} {storage : Storage} {ts : List TxnPtr}
    (hts : ts.Nodup) (hfresh : ∀ t ∈ ts, (txns t).Fresh)
    (hvotes : ∀ t ∈ ts, (code t).AlwaysVotes) :
    (SerialState.init txns storage ts).Orderly code where
  nodup := by simpa [SerialState.init, Processor.init, SerialPc.before, SerialPc.after] using hts
  fresh t ht := hfresh t (by simpa [SerialState.init, Processor.init] using ht)
  votes t ht := hvotes t (by simpa [SerialState.init, Processor.init, SerialPc.before] using ht)
  working := trivial
  ended t ht := by simp [SerialState.init, Processor.init] at ht

theorem update_buffers {txns : TxnPtr → Txn} {x : Txn} (hu : u ≠ t) :
    (Function.update txns t x u).toBuffers = (txns u).toBuffers :=
  congrArg Txn.toBuffers (Function.update_of_ne hu _ _)

theorem newTxnRequest_buffers {p p' : Processor} (hp : p.newTxnRequest t = some p') (u : TxnPtr) :
    (p'.txns u).toBuffers = (p.txns u).toBuffers := by
  obtain ⟨_, rfl⟩ := Processor.newTxnRequest_eq_some.mp hp
  exact update_field Txn.toBuffers rfl

theorem SerialState.Working.of_buffers (h : s.Working code) (hpc : s'.pc = s.pc)
    (hst : s'.storage = s.storage) (hb : ∀ u, (s'.txns u).toBuffers = (s.txns u).toBuffers) :
    s'.Working code := by
  simpa only [SerialState.Working, Txn.Fresh, hpc, hst, hb] using h

/-- `Run` does not call `DIE`. -/
theorem SerialState.Orderly.voted (h : s.Orderly code) (hpc : s.pc = .reading t []) :
    ∃ b, (code t).run (s.txns t).toBuffers = some b ∧
      (code t).run (unrun (readAll s.storage.data (code t).keys)) = some b ∧ b.Voted := by
  have hworking := h.working
  rw [SerialState.Working, hpc] at hworking
  obtain ⟨ks, hks, hreads⟩ := hworking
  rw [List.append_nil] at hks
  obtain ⟨b, hb, hv⟩ := h.votes t (by simp [hpc]) (readAll s.storage.data (code t).keys)
  refine ⟨b, ?_, hb, hv⟩
  rw [hreads, ← hks]
  exact hb

theorem SerialState.Orderly.step (h : s.Orderly code) (hs : SerialStep code s e s') :
    s'.Orderly code := by
  have hworking := h.working
  unfold SerialState.Working at hworking
  cases hs with
  | @request a b t p hc hp =>
    have hbuf := newTxnRequest_buffers hp
    obtain ⟨_, rfl⟩ := Processor.newTxnRequest_eq_some.mp hp
    have hperm : ((a ++ b) ++ (s.txnRequests ++ [t])).Perm (s.clients ++ s.txnRequests) := by
      rw [hc, List.perm_iff_count]
      intro x
      simp only [List.count_append, List.count_cons, List.count_nil]
      omega
    refine ⟨?_, fun u hu => ?_, fun u hu => ?_, ?_, fun u hu => ?_⟩
    · exact ((hperm.append_right _).append_right _).nodup_iff.mpr h.nodup
    · exact (hbuf u).trans (h.fresh u (hperm.mem_iff.mp hu))
    · exact h.votes u ((hperm.append_right _).mem_iff.mp hu)
    · exact h.working.of_buffers rfl rfl hbuf
    · have hst := h.ended u hu
      rwa [← congrArg Buffers.status (hbuf u)] at hst
  | @result q t hq =>
    refine ⟨h.nodup.sublist ?_, h.fresh, h.votes, h.working, fun u hu => ?_⟩
    · rw [hq]
      exact List.Sublist.append_left (List.sublist_cons_self t q) _
    · exact h.ended u (by simp [hq, hu])
  | stop => exact ⟨h.nodup, h.fresh, h.votes, h.working, h.ended⟩
  | leave hpc hst =>
    have hnodup := h.nodup
    have hvotes := h.votes
    rw [hpc] at hnodup hvotes
    exact ⟨hnodup, h.fresh, hvotes, trivial, h.ended⟩
  | @pop q t hpc hst hq =>
    have hnodup := h.nodup
    have hvotes := h.votes
    rw [hpc, hq] at hnodup hvotes
    refine ⟨?_, fun u hu => h.fresh u ?_, fun u hu => hvotes u ?_, h.fresh t (by simp [hq]),
      h.ended⟩
    · refine (List.Perm.nodup_iff ?_).mp hnodup
      rw [List.perm_iff_count]
      intro x
      simp only [SerialPc.before, SerialPc.after, List.count_append, List.count_cons,
        List.count_nil]
      omega
    · rw [hq]
      exact List.append_subset.mpr ⟨List.subset_append_left _ _, fun x hx =>
        List.mem_append_right _ (List.mem_cons_of_mem t hx)⟩ hu
    · simp only [SerialPc.before, List.mem_append, List.mem_cons, List.not_mem_nil] at hu ⊢
      tauto
  | noRequest hpc hst hq => exact h
  | @start t hpc =>
    refine h.inHand (t := t) (by simp [hpc]) rfl rfl rfl (by simp [hpc]) (by simp [hpc])
      (fun _ hu => update_buffers hu) ?_
    rw [hpc] at hworking
    refine ⟨[], rfl, ?_⟩
    simpa [Txn.Fresh, readAll] using hworking
  | @read t k rest hpc =>
    refine h.inHand (t := t) (by simp [hpc]) rfl rfl rfl (by simp [hpc]) (by simp [hpc])
      (fun _ hu => update_buffers hu) ?_
    rw [hpc] at hworking
    obtain ⟨ks, hks, hreads⟩ := hworking
    refine ⟨ks ++ [k], by simpa using hks, ?_⟩
    rw [readAll_append_singleton]
    simp [hreads, unrun]
    rfl
  | @run t p hpc hp =>
    obtain ⟨b, hb, rfl⟩ := Processor.runTxn_eq_some.mp hp
    refine h.inHand (t := t) (by simp [hpc]) rfl rfl rfl (by simp [hpc]) (by simp [hpc])
      (fun _ hu => update_buffers hu) ?_
    obtain ⟨b', hb', hrun, hv⟩ := h.voted hpc
    obtain rfl : b' = b := Option.some.inj (hb'.symm.trans hb)
    refine ⟨?_, ?_⟩
    · simpa using hrun
    · simpa using hv
  | @runDies t hpc hp =>
    obtain ⟨b, hb, _⟩ := h.voted hpc
    simp [Processor.runTxn, hb] at hp
  | @complete t hpc =>
    exact h.inHand (t := t) (by simp [hpc]) rfl rfl rfl (by simp [hpc]) (by simp [hpc])
      (fun _ _ => rfl) (by rwa [hpc] at hworking)
  | @decide t hpc hst =>
    exact h.inHand (t := t) (by simp [hpc]) rfl rfl rfl (by simp [hpc]) (by simp [hpc])
      (fun _ _ => rfl) hst
  | @abort t hpc hst =>
    refine h.inHand (t := t) (by simp [hpc]) rfl rfl rfl (by simp [hpc]) (by simp [hpc])
      (fun _ hu => update_buffers hu) ?_
    simp [SerialState.Working]
  | @invalid t hpc hc ha =>
    rw [hpc] at hworking
    exact absurd hworking.2 (by simp [Buffers.Voted, hc, ha])
  | @write t x rest hpc =>
    exact h.inHand (t := t) (by simp [hpc]) rfl rfl rfl (by simp [hpc]) (by simp [hpc])
      (fun _ _ => rfl) (by rwa [hpc] at hworking)
  | @commit t hpc =>
    exact h.inHand (t := t) (by simp [hpc]) rfl rfl rfl (by simp [hpc]) (by simp [hpc])
      (fun _ _ => rfl) (by rwa [hpc] at hworking)
  | @mark t hpc =>
    refine h.inHand (t := t) (by simp [hpc]) rfl rfl rfl (by simp [hpc]) (by simp [hpc])
      (fun _ hu => update_buffers hu) ?_
    simp [SerialState.Working]
  | @deliver t hpc =>
    have hnodup := h.nodup
    have hvotes := h.votes
    rw [hpc] at hnodup hvotes hworking
    refine ⟨?_, h.fresh, hvotes, trivial, fun u hu => ?_⟩
    · refine (List.Perm.nodup_iff ?_).mp hnodup
      rw [List.perm_iff_count]
      intro x
      simp only [SerialPc.before, SerialPc.after, Processor.pushResult, List.count_append,
        List.count_cons, List.count_nil]
      omega
    · rcases List.mem_append.mp hu with hold | hnew
      · exact h.ended u hold
      · obtain rfl := List.mem_singleton.mp hnew
        exact hworking

theorem SerialState.service_congr
    (hp : s'.pc.before ++ s'.txnRequests = s.pc.before ++ s.txnRequests)
    (hd : assign s'.pc.unwritten s'.storage.data = assign s.pc.unwritten s.storage.data)
    (hr : s'.txnResults ++ s'.pc.after = s.txnResults ++ s.pc.after)
    (hb : ∀ u ∈ s.txnResults ++ s.pc.after,
      (s'.txns u).toBuffers.settled = (s.txns u).toBuffers.settled) : s'.service = s.service := by
  have hres : (s.txnResults ++ s.pc.after).map (fun t => (t, (s'.txns t).toBuffers.settled)) =
      (s.txnResults ++ s.pc.after).map fun t => (t, (s.txns t).toBuffers.settled) :=
    List.map_congr_left fun u hu => by rw [hb u hu]
  rw [SerialState.service, SerialState.service, hp, hd, hr, hres]

/-- What is done to the buffers of an undecided transaction does not show. -/
theorem SerialState.Orderly.service_of_undecided (h : s.Orderly code) (ht : t ∈ s.pc.before)
    (hp : s'.pc.before ++ s'.txnRequests = s.pc.before ++ s.txnRequests)
    (hd : assign s'.pc.unwritten s'.storage.data = assign s.pc.unwritten s.storage.data)
    (hr : s'.txnResults ++ s'.pc.after = s.txnResults) (hafter : s.pc.after = [])
    (hb : ∀ u, u ≠ t → (s'.txns u).toBuffers = (s.txns u).toBuffers) :
    s'.service = s.service := by
  refine SerialState.service_congr hp hd (by rw [hr, hafter, List.append_nil]) fun u hu => ?_
  rw [hafter, List.append_nil] at hu
  rw [hb u (h.ne_of_result (List.mem_append_left _ ht) hu)]

theorem SerialState.Orderly.outcome (h : s.Orderly code) (hpc : s.pc = .deciding t) :
    (code t).outcome s.service.data = some (s.txns t).toBuffers.decided := by
  have hworking := h.working
  rw [SerialState.Working, hpc] at hworking
  have hdata : s.service.data = s.storage.data := by simp [SerialState.service, hpc]
  rw [TxnCode.outcome, hdata, hworking.1, Option.map_some]

theorem Buffers.decided_of_commit {b : Buffers} (h : b.status = .completedC) :
    b.decided = b.settled := by
  rw [Buffers.decided, Buffers.settled_of_eq h, if_pos h]

/-- Every statement is none or one of the service's steps. -/
theorem SerialState.Orderly.simulates (h : s.Orderly code) (hs : SerialStep code s e s') :
    (e = none ∧ s'.service = s.service) ∨
      ∃ e', e = some e' ∧ ServiceStep code s.service e' s'.service := by
  have hworking := h.working
  unfold SerialState.Working at hworking
  cases hs with
  | @request a b t p hc hp =>
    have hbuf := newTxnRequest_buffers hp
    obtain ⟨_, hfields⟩ := Processor.newTxnRequest_eq_some.mp hp
    have hq : p.txnRequests = s.txnRequests ++ [t] := by rw [hfields]
    have hr : p.txnResults = s.txnResults := by rw [hfields, Processor.modifyTxn_txnResults]
    have hst : p.storage = s.storage := by rw [hfields, Processor.modifyTxn_storage]
    refine .inr ⟨_, rfl, ?_⟩
    have hrequest : ServiceStep code s.service (.request t) _ := .request t
    convert hrequest using 1
    simp [SerialState.service, hbuf, hq, hr, hst]
  | @result q t hq =>
    have ht := h.ended t (by simp [hq])
    refine .inr ⟨_, rfl, .result ?_⟩
    rw [SerialState.service, hq, List.cons_append, List.map_cons, Buffers.settled_of_ne ht]
  | stop => exact .inl ⟨rfl, rfl⟩
  | leave hpc hst => exact .inl ⟨rfl, by simp [SerialState.service, hpc]⟩
  | @pop q t hpc hst hq => exact .inl ⟨rfl, by simp [SerialState.service, hpc, hq]⟩
  | noRequest hpc hst hq => exact .inl ⟨rfl, rfl⟩
  | @start t hpc =>
    exact .inl ⟨rfl, h.service_of_undecided (t := t) (by simp [hpc]) (by simp [hpc]) (by simp [hpc])
      (by simp) (by simp [hpc]) fun _ hu => update_buffers hu⟩
  | @read t k rest hpc =>
    exact .inl ⟨rfl, h.service_of_undecided (t := t) (by simp [hpc]) (by simp [hpc]) (by simp [hpc])
      (by simp) (by simp [hpc]) fun _ hu => update_buffers hu⟩
  | @run t p hpc hp =>
    obtain ⟨b, hb, rfl⟩ := Processor.runTxn_eq_some.mp hp
    exact .inl ⟨rfl, h.service_of_undecided (t := t) (by simp [hpc]) (by simp [hpc]) (by simp [hpc])
      (by simp) (by simp [hpc]) fun _ hu => update_buffers hu⟩
  | @runDies t hpc hp =>
    obtain ⟨b, hb, _⟩ := h.voted hpc
    simp [Processor.runTxn, hb] at hp
  | @complete t hpc => exact .inl ⟨rfl, by simp [SerialState.service, hpc]⟩
  | @decide t hpc hst =>
    rw [hpc] at hworking
    refine .inr ⟨_, rfl, ?_⟩
    have heffect := TxnCode.effect_of_run hworking.1
    rw [if_pos hst] at heffect
    have hpending : s.service.pending = t :: s.txnRequests := by simp [SerialState.service, hpc]
    have hserved : ServiceStep code s.service _ _ := .serve hpending (h.outcome hpc)
    convert hserved using 1
    simp [SerialState.service, hpc, heffect, Buffers.decided_of_commit hst]
  | @abort t hpc hst =>
    rw [hpc] at hworking
    refine .inr ⟨_, rfl, ?_⟩
    have heffect := TxnCode.effect_of_run hworking.1
    rw [if_neg (by simp [hst])] at heffect
    have hpending : s.service.pending = t :: s.txnRequests := by simp [SerialState.service, hpc]
    have hserved : ServiceStep code s.service _ _ := .serve hpending (h.outcome hpc)
    have hothers : ∀ u ∈ s.txnResults,
        ((s.toProcessor.setStatus t .aborted).txns u).toBuffers = (s.txns u).toBuffers :=
      fun u hu => update_buffers (h.ne_of_result (by simp [hpc]) hu)
    convert hserved using 1
    simp only [SerialState.service, hpc, heffect, SerialPc.before, SerialPc.after,
      SerialPc.unwritten, assign_nil, List.nil_append, List.append_nil, List.map_append,
      List.map_singleton, Service.mk.injEq]
    refine ⟨rfl, rfl, congrArg₂ (· ++ ·) (List.map_congr_left fun u hu => ?_) ?_⟩
    · rw [hothers u hu]
    · simp [Buffers.settled, Buffers.decided, hst]
  | @invalid t hpc hc ha =>
    rw [hpc] at hworking
    exact absurd hworking.2 (by simp [Buffers.Voted, hc, ha])
  | @write t x rest hpc =>
    exact .inl ⟨rfl, SerialState.service_congr (by simp [hpc]) (by simp [hpc]) (by simp [hpc])
      fun _ _ => rfl⟩
  | @commit t hpc => exact .inl ⟨rfl, by simp [SerialState.service, hpc]⟩
  | @mark t hpc =>
    rw [hpc] at hworking
    refine .inl ⟨rfl, SerialState.service_congr (by simp [hpc]) (by simp [hpc]) (by simp [hpc])
      fun u hu => ?_⟩
    by_cases hut : u = t
    · subst hut
      simp [Buffers.settled, show (s.txns u).toBuffers.status = .completedC from hworking]
    · exact congrArg Buffers.settled (update_buffers hut)
  | @deliver t hpc => exact .inl ⟨rfl, by simp [SerialState.service, hpc]⟩

end Orderly

section Runs
variable {code} {txns : TxnPtr → Txn} {storage : Storage} {ts : List TxnPtr}
  {tr : List (Option ServiceEvent)} {s : SerialState}

theorem orderly_of_serial_run (hts : ts.Nodup) (hfresh : ∀ t ∈ ts, (txns t).Fresh)
    (hvotes : ∀ t ∈ ts, (code t).AlwaysVotes) (h : SerialRuns code txns storage ts tr s) :
    s.Orderly code :=
  h.stateInvariant (SerialState.Orderly.init hts hfresh hvotes) fun hi hs => hi.step hs

theorem service_of_serial_run (hts : ts.Nodup) (hfresh : ∀ t ∈ ts, (txns t).Fresh)
    (hvotes : ∀ t ∈ ts, (code t).AlwaysVotes) (h : SerialRuns code txns storage ts tr s) :
    Run (ServiceStep code) (Service.init storage.data) (tr.filterMap id) s.service :=
  h.simulate SerialState.service id fun hr hs =>
    (orderly_of_serial_run hts hfresh hvotes hr).simulates hs

theorem SerialState.Orderly.not_died (h : s.Orderly code) : s.pc ≠ .died := by
  intro hdied
  have hworking := h.working
  rwa [SerialState.Working, hdied] at hworking

end Runs

/-- RunSerialScheduler with any number of clients is a queue of transactions that are executed
one by one. -/
theorem serial_service {code : TxnPtr → TxnCode} {txns : TxnPtr → Txn} {storage : Storage}
    {ts : List TxnPtr} {tr : List (Option ServiceEvent)} {s : SerialState} (hts : ts.Nodup)
    (hfresh : ∀ t ∈ ts, (txns t).Fresh) (hvotes : ∀ t ∈ ts, (code t).AlwaysVotes)
    (h : SerialRuns code txns storage ts tr s) :
    s.pc ≠ .died ∧
    Run (ServiceStep code) (Service.init storage.data) (tr.filterMap id) s.service ∧
    s.service.Sequential code storage.data (tr.filterMap id) ∧
    (s.pc = .top → s.service.pending = s.txnRequests ∧ s.service.data = s.storage.data ∧
      s.service.results = s.txnResults.map fun t => (t, (s.txns t).toBuffers)) := by
  have horderly := orderly_of_serial_run hts hfresh hvotes h
  have hrun := service_of_serial_run hts hfresh hvotes h
  refine ⟨horderly.not_died, hrun, Service.sequential_of_run hrun, fun htop => ?_⟩
  refine ⟨by simp [SerialState.service, htop], by simp [SerialState.service, htop], ?_⟩
  have hafter : s.pc.after = [] := by
    rw [htop]
    rfl
  rw [SerialState.service, hafter, List.append_nil]
  refine List.map_congr_left fun u hu => ?_
  rw [Buffers.settled_of_ne (horderly.ended u hu)]

/-- Two transactions; the second one comes while the first one is executed. -/
theorem rmw_serial_run : ∃ tr s,
    SerialRuns (fun _ => rmw (.singleton 5) (.singleton 6)) (fun _ => ⟨unrun .empty, 0, 0⟩)
      ⟨fun _ => some 2⟩ [0, 1] tr s ∧ s.handed = [0, 1] := by
  have run : SerialRuns (fun _ => rmw (.singleton 5) (.singleton 6))
    (fun _ => ⟨unrun .empty, 0, 0⟩) ⟨fun _ => some 2⟩ [0, 1] [] (SerialState.init _ _ _) := .nil
  have run := run.snoc (.request (a := []) rfl
    (Processor.newTxnRequest_eq_some.mpr ⟨by decide, rfl⟩))
  have run := run.snoc (.pop rfl rfl rfl)
  have run := run.snoc (.start rfl)
  have run := run.snoc (.request (a := []) rfl
    (Processor.newTxnRequest_eq_some.mpr ⟨by decide, rfl⟩))
  have run := run.snoc (.read rfl)
  have run := run.snoc (.read rfl)
  have run := run.snoc (.run rfl (Processor.runTxn_eq_some.mpr ⟨_, rfl, rfl⟩))
  have run := run.snoc (.complete rfl)
  have run := run.snoc (.decide rfl rfl)
  have run := run.snoc (.write rfl)
  have run := run.snoc (.commit rfl)
  have run := run.snoc (.mark rfl)
  have run := run.snoc (.deliver rfl)
  have run := run.snoc (.result rfl)
  have run := run.snoc (.pop rfl rfl rfl)
  have run := run.snoc (.start rfl)
  have run := run.snoc (.read rfl)
  have run := run.snoc (.read rfl)
  have run := run.snoc (.run rfl (Processor.runTxn_eq_some.mpr ⟨_, rfl, rfl⟩))
  have run := run.snoc (.complete rfl)
  have run := run.snoc (.decide rfl rfl)
  have run := run.snoc (.write rfl)
  have run := run.snoc (.commit rfl)
  have run := run.snoc (.mark rfl)
  have run := run.snoc (.deliver rfl)
  have run := run.snoc (.result rfl)
  exact ⟨_, _, run, rfl⟩

theorem serial_service_rmw : ∃ (tr : List (Option ServiceEvent)) (s : SerialState),
    s.handed = [0, 1] ∧ s.pc ≠ .died ∧
    s.service.Sequential (fun _ => rmw (.singleton 5) (.singleton 6)) (fun _ => some 2)
      (tr.filterMap id) := by
  obtain ⟨tr, s, h, hhanded⟩ := rmw_serial_run
  obtain ⟨hdied, _, hseq, _⟩ := serial_service (by decide) (fun _ _ => by rfl)
    (fun _ _ => (rmw_votes _ _).1) h
  exact ⟨tr, s, hhanded, hdied, hseq⟩

end Cmsc624.A2
