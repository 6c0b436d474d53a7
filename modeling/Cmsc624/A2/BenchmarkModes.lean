import Cmsc624.A2.Benchmark
import Cmsc624.A2.Completion
import Cmsc624.A2.SerialService
import Mathlib.Data.Prod.Lex

/-!
# The Benchmark in the locking modes and the serial ones

All transactions of a round come back, and then no thread of the processor works on any of
them: the main thread may delete them. The modes OCC and P_OCC call the serial loop; so does
MVCC, but its store is the stub of `MVCCStorage`.
-/

namespace Cmsc624.A2

open Lib

set_option autoImplicit false

section Locking
variable {lm : LockManager} {code : TxnPtr → TxnCode} {ccMode : CCMode} {ts : List TxnPtr}
  {tr : List Event} {s s' : State lm} {e : Event} {txns : TxnPtr → Txn} {storage : Storage}
  {t : TxnPtr} {active timeLeft n : Nat}

def lockingServer (lm : LockManager) (code : TxnPtr → TxnCode) : Server (State lm) Event where
  Step := Step code
  call
    | .request t => some (.request t)
    | .result t => some (.result t)
    | _ => none
  stopped s := s.stopped = true
  calls_stopped := by
    intro s e s' h hcall hstop
    cases h with
    | request hc hp =>
      obtain ⟨_, rfl⟩ := Processor.newTxnRequest_eq_some.mp hp
      exact hstop
    | result hq => exact hstop
    | _ => exact absurd rfl hcall

theorem locking_requests (tr : List Event) :
    (lockingServer lm code).requests tr = requested tr := by
  apply List.filterMap_congr
  intro e _
  cases e <;> rfl

theorem locking_results (h : Runs code txns storage ts tr s) :
    (lockingServer lm code).results tr = s.handed := by
  apply h.invariant (I := fun tr s => (lockingServer lm code).results tr = s.handed) rfl
  intro tr s e s' _ ih hs
  rw [Server.results_concat, ih]
  cases hs with
  | result hq => rfl
  | _ => exact List.append_nil _

theorem stopped_of_worker (h : Step code s e s') (he : e.actor = .worker t) :
    s'.stopped = s.stopped := by
  cases h with
  | run hrun hp =>
    obtain ⟨_, _, rfl⟩ := Processor.runTxn_eq_some.mp hp
    rfl
  | start hpool => rfl
  | size hrun => rfl
  | read hrun => rfl
  | complete hrun => rfl
  | _ => cases he

theorem Life.not_handed {c : TxnCode} {read : Key → Option Value} {v v' : View}
    (h : Life c read t e v v') : v.place ≠ .handed := by
  intro hv
  cases h <;> simp_all

theorem idle_of_handed (spec : LateGrant lm) (sub : Submittable code txns ts)
    (h : Runs code txns storage ts tr s) (hall : ∀ t ∈ ts, t ∈ s.handed) (hs : Step code s e s') :
    ¬e.working := by
  intro hworking
  have inv := custody_of_run spec sub.nodup sub.sets h
  obtain ⟨t, ht⟩ := Option.isSome_iff_exists.mp hworking
  obtain ⟨pl, hat, ⟨hne, _⟩ | hlife⟩ := inv.at_step tr hs (s'.at_place t)
  · exact hne ht
  · have hhanded : s.At t .handed := .inl (mem_places.mpr (hall t (txn_known inv hs ht)))
    exact hlife.not_handed (inv.at_unique hat hhanded)

variable {b : Bench (State lm)}

theorem handed_nodup (spec : LateGrant lm) (sub : Submittable code txns ts)
    (h : Runs code txns storage ts tr s) : s.handed.Nodup ∧ s.handed ⊆ ts := by
  have inv := custody_of_run spec sub.nodup sub.sets h
  constructor
  · exact inv.queues_nodup.sublist (List.sublist_append_right _ _)
  · intro t ht
    have hmem : (t, Place.handed) ∈ s.places := mem_places.mpr ht
    exact inv.known t (mem_names_of_mem hmem)

theorem locking_init_running : ¬(lockingServer lm code).stopped (State.init lm txns storage ts) :=
  Bool.false_ne_true

theorem locking_returned (doc : Documented lm ccMode) (sub : Submittable code txns ts)
    (hts : ts.length = active + timeLeft)
    (h : Run (BenchStep (lockingServer lm code) active)
      (Bench.init active (State.init lm txns storage ts) timeLeft) tr b)
    (hpc : b.pc = .draining 0) :
    b.doneTxns.Perm ts ∧ ∀ e b', BenchStep (lockingServer lm code) active b e b' → ¬e.working := by
  have w := window_of_run locking_init_running h
  have hrun := server_of_run h
  have hdone : b.doneTxns = b.server.handed := by rw [w.done, locking_results hrun]
  obtain ⟨hnodup, hsub⟩ := handed_nodup doc.lateGrant sub hrun
  have hperm : b.server.handed.Perm ts := by
    apply (List.subperm_of_subset hnodup hsub).perm_of_length_le
    rw [← hdone, (w.all_taken hpc).2, hts]
  refine ⟨hdone ▸ hperm, ?_⟩
  intro e b' hstep
  exact idle_of_handed doc.lateGrant sub hrun (fun t ht => hperm.mem_iff.mpr ht) hstep.step

theorem enabled_of_worker {n : Nat} {bench : Behaviour (BenchStep (lockingServer lm code) active)
    (Bench.init active (State.init lm txns storage ts) timeLeft)}
    (hen : Enabled (Step code) (fun e => e.actor = .worker t) (bench.state n).server) :
    Enabled (BenchStep (lockingServer lm code) active) (fun e => e.actor = .worker t)
      (bench.state n) := by
  obtain ⟨e, s', hact, hs⟩ := hen
  have hcall : (lockingServer lm code).call e = none := by
    cases e <;> first | rfl | cases hact
  refine ⟨e, _, hact, .server hs hcall ?_⟩
  intro hstop
  apply (window_of_run locking_init_running (bench.run n)).stopped
  exact (stopped_of_worker hs hact).symm.trans hstop

/-- With fair workers the main thread gets all its results. -/
theorem locking_drained (doc : Documented lm ccMode) (sub : Submittable code txns ts)
    (hactive : 0 < active) (hts : ts.length = active + timeLeft) (hmax : ts.length < CInt.intMax)
    (bench : Behaviour (BenchStep (lockingServer lm code) active)
      (Bench.init active (State.init lm txns storage ts) timeLeft))
    (hmain : bench.WeaklyFair fun e => (lockingServer lm code).call e ≠ none)
    (hworkers : ∀ t ∈ ts, bench.WeaklyFair fun e => e.actor = .worker t) :
    ∃ n, (bench.state n).pc = .draining 0 := by
  have hfair : ∀ t ∈ ts, (serverBehaviour bench).WeaklyFair fun e => e.actor = .worker t :=
    fun t ht => (hworkers t ht).map fun n => enabled_of_worker
  have hrun : ∀ n, Runs code txns storage ts (bench.events n) (bench.state n).server :=
    fun n => server_of_run (bench.run n)
  refine eventually_drained bench locking_init_running hactive (by omega) hmain ?_ ?_
  · intro n hn
    rw [locking_requests, ← hts] at hn
    have adm := admitted_of_run sub.nodup (hrun n)
    have hlen := adm.all.length_eq
    rw [List.length_append] at hlen
    obtain ⟨t, rest, hclients⟩ := List.exists_cons_of_length_pos
      (show 0 < (bench.state n).server.clients.length by omega)
    have hid : (bench.state n).server.nextUniqueId < CInt.intMax := by
      rw [adm.next_eq]
      omega
    exact ⟨.request t, _, ⟨t, rfl⟩,
      .request (a := []) hclients (Processor.newTxnRequest_eq_some.mpr ⟨hid, rfl⟩)⟩
  · intro n hquiet
    obtain ⟨k, hk, hpolling⟩ := eventually_polling doc.lateGrant sub (serverBehaviour bench) n
      fun m hm => Bool.eq_false_iff.mpr (hquiet m hm).2.1
    obtain ⟨m, hm, hdone⟩ := hpolling.completed doc sub hfair
    have hlt := (hquiet m (by omega)).2.2
    rw [locking_requests, locking_results (hrun m)] at hlt
    -- some transaction is not back, and so it is in `txn_results_`
    obtain ⟨t, ht, hnot⟩ : ∃ t ∈ requested (bench.events m), t ∉ (bench.state m).server.handed := by
      by_contra hall
      push Not at hall
      have hnodup := (admitted_of_run sub.nodup (hrun m)).requested_nodup sub.nodup
      have hle := (List.subperm_of_subset hnodup hall).length_le
      omega
    have hres := (hdone t ht).resolve_right hnot
    refine ⟨m, by omega, ?_⟩
    intro j hj
    have hsame := congrArg (fun s : State lm => s.txnResults) ((hpolling.mono hm).frozen hj)
    obtain ⟨u, rest, hq⟩ := List.exists_cons_of_ne_nil (List.ne_nil_of_mem hres)
    exact ⟨.result u, _, ⟨u, rfl⟩, .result (hsame.trans hq)⟩

end Locking

/-- A round of Benchmark in a locking mode, over any lock manager that does what is documented:
never more than `active_txns` transactions are active, and with fair workers the main thread
gets each transaction back once, committed or aborted, before it deletes it. -/
theorem benchmark_locking {lm : LockManager} {code : TxnPtr → TxnCode} {ccMode : CCMode}
    {txns : TxnPtr → Txn} {storage : Storage} {ts : List TxnPtr} {active timeLeft : Nat}
    (doc : Documented lm ccMode) (sub : Submittable code txns ts) (hactive : 0 < active)
    (hts : ts.length = active + timeLeft) (hmax : ts.length < CInt.intMax) :
    (∀ tr b, Run (BenchStep (lockingServer lm code) active)
        (Bench.init active (State.init lm txns storage ts) timeLeft) tr b →
      (requested tr).length ≤ b.doneTxns.length + active ∧ b.txnCount = b.doneTxns.length ∧
      (∀ t ∈ b.doneTxns,
        (b.server.txns t).status = .committed ∨ (b.server.txns t).status = .aborted) ∧
      (b.pc = .draining 0 → b.doneTxns.Perm ts ∧
        ∀ e b', BenchStep (lockingServer lm code) active b e b' → ¬e.working)) ∧
    (∀ bench : Behaviour (BenchStep (lockingServer lm code) active)
        (Bench.init active (State.init lm txns storage ts) timeLeft),
      (bench.WeaklyFair fun e => (lockingServer lm code).call e ≠ none) →
      (∀ t ∈ ts, bench.WeaklyFair fun e => e.actor = .worker t) →
      ∃ n, (bench.state n).pc = .draining 0) := by
  constructor
  · intro tr b h
    have w := window_of_run locking_init_running h
    have hrun := server_of_run h
    have hactive := w.active_le
    rw [locking_requests] at hactive
    refine ⟨hactive, w.count, ?_, locking_returned doc sub hts h⟩
    intro t ht
    rw [w.done, locking_results hrun] at ht
    have hts := (handed_nodup doc.lateGrant sub hrun).2 ht
    exact status_of_ended doc.lateGrant sub hrun hts (.inr ht)
  · intro bench hmain hworkers
    exact locking_drained doc sub hactive hts hmax bench hmain hworkers

/-- Two active transactions and a clock that lets a third one in; they all write key 6. -/
theorem rmw_bench_run : ∃ tr, ∃ b : Bench (State (queueLockManager .locking)),
    Run (BenchStep (lockingServer (queueLockManager .locking)
        fun _ => rmw (.singleton 5) (.singleton 6)) 2)
      (Bench.init 2 (State.init _ (fun _ => ⟨unrun .empty, 0, 0⟩) ⟨fun _ => some 2⟩ [0, 1, 2]) 1)
      tr b ∧
      b.pc = .draining 0 ∧ b.server.sched = .top ∧ b.server.Empty := by
  have run : Run (BenchStep (lockingServer (queueLockManager .locking)
      fun _ => rmw (.singleton 5) (.singleton 6)) 2)
    (Bench.init 2 (State.init _ (fun _ => ⟨unrun .empty, 0, 0⟩) ⟨fun _ => some 2⟩ [0, 1, 2]) 1)
    [] _ := .nil
  have run := run.snoc (.submit rfl (.request (a := []) rfl
    (Processor.newTxnRequest_eq_some.mpr ⟨by decide, rfl⟩)) rfl)
  have run := run.snoc (.submit rfl (.request (a := []) rfl
    (Processor.newTxnRequest_eq_some.mpr ⟨by decide, rfl⟩)) rfl)
  have run := run.snoc (.quiet (.pop rfl rfl rfl) rfl Bool.false_ne_true)
  have run := run.snoc (.quiet (.lock rfl) rfl Bool.false_ne_true)
  have run := run.snoc (.quiet (.lock rfl) rfl Bool.false_ne_true)
  have run := run.snoc (.quiet (.ready rfl) rfl Bool.false_ne_true)
  have run := run.snoc (.quiet (.noCompleted rfl rfl) rfl Bool.false_ne_true)
  have run := run.snoc (.quiet (.dispatch rfl rfl) rfl Bool.false_ne_true)
  have run := run.snoc (.quiet (.noReady rfl rfl) rfl Bool.false_ne_true)
  have run := run.snoc (.quiet (.pop rfl rfl rfl) rfl Bool.false_ne_true)
  have run := run.snoc (.quiet (.lock rfl) rfl Bool.false_ne_true)
  have run := run.snoc (.quiet (.lock rfl) rfl Bool.false_ne_true)
  have run := run.snoc (.quiet (.park rfl) rfl Bool.false_ne_true)
  have run := run.snoc (.quiet (.noCompleted rfl rfl) rfl Bool.false_ne_true)
  have run := run.snoc (.quiet (.noReady rfl rfl) rfl Bool.false_ne_true)
  have run := run.snoc (.quiet (.start (a := []) rfl) rfl Bool.false_ne_true)
  have run := run.snoc (.quiet (.size (a := []) rfl) rfl Bool.false_ne_true)
  have run := run.snoc (.quiet (.read (a := []) rfl) rfl Bool.false_ne_true)
  have run := run.snoc (.quiet (.read (a := []) rfl) rfl Bool.false_ne_true)
  have run := run.snoc (.quiet (.run (a := []) rfl
    (Processor.runTxn_eq_some.mpr ⟨_, rfl, rfl⟩)) rfl Bool.false_ne_true)
  have run := run.snoc (.quiet (.complete (a := []) rfl) rfl Bool.false_ne_true)
  have run := run.snoc (.quiet (.noRequest rfl rfl rfl) rfl Bool.false_ne_true)
  have run := run.snoc (.quiet (.take rfl rfl) rfl Bool.false_ne_true)
  have run := run.snoc (.quiet (.decide rfl rfl) rfl Bool.false_ne_true)
  have run := run.snoc (.quiet (.write rfl) rfl Bool.false_ne_true)
  have run := run.snoc (.quiet (.commit rfl) rfl Bool.false_ne_true)
  have run := run.snoc (.quiet (.mark rfl) rfl Bool.false_ne_true)
  have run := run.snoc (.quiet (.release rfl) rfl Bool.false_ne_true)
  have run := run.snoc (.quiet (.release rfl) rfl Bool.false_ne_true)
  have run := run.snoc (.quiet (.deliver rfl) rfl Bool.false_ne_true)
  have run := run.snoc (.take (k := 0) rfl (.result rfl) rfl
    (CInt.succ_eq_some.mpr ⟨by decide, rfl⟩))
  have run := run.snoc (.submit rfl (.request (a := []) rfl
    (Processor.newTxnRequest_eq_some.mpr ⟨by decide, rfl⟩)) rfl)
  have run := run.snoc (.quiet (.noCompleted rfl rfl) rfl Bool.false_ne_true)
  have run := run.snoc (.quiet (.dispatch rfl rfl) rfl Bool.false_ne_true)
  have run := run.snoc (.quiet (.noReady rfl rfl) rfl Bool.false_ne_true)
  have run := run.snoc (.quiet (.pop rfl rfl rfl) rfl Bool.false_ne_true)
  have run := run.snoc (.quiet (.lock rfl) rfl Bool.false_ne_true)
  have run := run.snoc (.quiet (.lock rfl) rfl Bool.false_ne_true)
  have run := run.snoc (.quiet (.park rfl) rfl Bool.false_ne_true)
  have run := run.snoc (.quiet (.noCompleted rfl rfl) rfl Bool.false_ne_true)
  have run := run.snoc (.quiet (.noReady rfl rfl) rfl Bool.false_ne_true)
  have run := run.snoc (.quiet (.start (a := []) rfl) rfl Bool.false_ne_true)
  have run := run.snoc (.quiet (.size (a := []) rfl) rfl Bool.false_ne_true)
  have run := run.snoc (.quiet (.read (a := []) rfl) rfl Bool.false_ne_true)
  have run := run.snoc (.quiet (.read (a := []) rfl) rfl Bool.false_ne_true)
  have run := run.snoc (.quiet (.run (a := []) rfl
    (Processor.runTxn_eq_some.mpr ⟨_, rfl, rfl⟩)) rfl Bool.false_ne_true)
  have run := run.snoc (.quiet (.complete (a := []) rfl) rfl Bool.false_ne_true)
  have run := run.snoc (.quiet (.noRequest rfl rfl rfl) rfl Bool.false_ne_true)
  have run := run.snoc (.quiet (.take rfl rfl) rfl Bool.false_ne_true)
  have run := run.snoc (.quiet (.decide rfl rfl) rfl Bool.false_ne_true)
  have run := run.snoc (.quiet (.write rfl) rfl Bool.false_ne_true)
  have run := run.snoc (.quiet (.commit rfl) rfl Bool.false_ne_true)
  have run := run.snoc (.quiet (.mark rfl) rfl Bool.false_ne_true)
  have run := run.snoc (.quiet (.release rfl) rfl Bool.false_ne_true)
  have run := run.snoc (.quiet (.release rfl) rfl Bool.false_ne_true)
  have run := run.snoc (.quiet (.deliver rfl) rfl Bool.false_ne_true)
  have run := run.snoc (.take (k := 0) rfl (.result rfl) rfl
    (CInt.succ_eq_some.mpr ⟨by decide, rfl⟩))
  have run := run.snoc (.quiet (.noCompleted rfl rfl) rfl Bool.false_ne_true)
  have run := run.snoc (.quiet (.dispatch rfl rfl) rfl Bool.false_ne_true)
  have run := run.snoc (.quiet (.noReady rfl rfl) rfl Bool.false_ne_true)
  have run := run.snoc (.quiet (.start (a := []) rfl) rfl Bool.false_ne_true)
  have run := run.snoc (.quiet (.size (a := []) rfl) rfl Bool.false_ne_true)
  have run := run.snoc (.quiet (.read (a := []) rfl) rfl Bool.false_ne_true)
  have run := run.snoc (.quiet (.read (a := []) rfl) rfl Bool.false_ne_true)
  have run := run.snoc (.quiet (.run (a := []) rfl
    (Processor.runTxn_eq_some.mpr ⟨_, rfl, rfl⟩)) rfl Bool.false_ne_true)
  have run := run.snoc (.quiet (.complete (a := []) rfl) rfl Bool.false_ne_true)
  have run := run.snoc (.quiet (.noRequest rfl rfl rfl) rfl Bool.false_ne_true)
  have run := run.snoc (.quiet (.take rfl rfl) rfl Bool.false_ne_true)
  have run := run.snoc (.quiet (.decide rfl rfl) rfl Bool.false_ne_true)
  have run := run.snoc (.quiet (.write rfl) rfl Bool.false_ne_true)
  have run := run.snoc (.quiet (.commit rfl) rfl Bool.false_ne_true)
  have run := run.snoc (.quiet (.mark rfl) rfl Bool.false_ne_true)
  have run := run.snoc (.quiet (.release rfl) rfl Bool.false_ne_true)
  have run := run.snoc (.quiet (.release rfl) rfl Bool.false_ne_true)
  have run := run.snoc (.quiet (.deliver rfl) rfl Bool.false_ne_true)
  have run := run.snoc (.take (k := 0) rfl (.result rfl) rfl
    (CInt.succ_eq_some.mpr ⟨by decide, rfl⟩))
  have run := run.snoc (.quiet (.noCompleted rfl rfl) rfl Bool.false_ne_true)
  have run := run.snoc (.quiet (.noReady rfl rfl) rfl Bool.false_ne_true)
  exact ⟨_, _, run, rfl, rfl, ⟨rfl, rfl, rfl, rfl, rfl, rfl⟩⟩

theorem benchmark_locking_rmw : ∃ (bench : Behaviour
    (BenchStep (lockingServer (queueLockManager .locking)
      fun _ => rmw (.singleton 5) (.singleton 6)) 2)
    (Bench.init 2 (State.init _ (fun _ => ⟨unrun .empty, 0, 0⟩) ⟨fun _ => some 2⟩ [0, 1, 2]) 1))
    (n : Nat), (bench.state n).pc = .draining 0 ∧ (bench.state n).doneTxns.Perm [0, 1, 2] := by
  obtain ⟨tr, b, h, hpc, htop, hs⟩ := rmw_bench_run
  obtain ⟨bench, _, _, hfair, _⟩ := Behaviour.exists_of_run h
    { state := fun n => { b with server := { b.server with sched := .poll n } }
      event := fun _ => .tau
      start := by rw [SchedPc.poll, ← htop]
      step := fun n => .server (hs.step n) rfl fun _ => hpc }
  have hmain := hfair
    (fun e => (lockingServer _ fun _ => rmw (.singleton 5) (.singleton 6)).call e ≠ none)
    fun n hen => absurd (hen n le_rfl) (no_call_of_drained hpc)
  have hworkers : ∀ t ∈ [0, 1, 2], bench.WeaklyFair fun e => e.actor = .worker t := by
    intro t _
    refine hfair _ fun n hen => ?_
    obtain ⟨e, b', hact, hstep⟩ := hen n le_rfl
    exact absurd ⟨e, _, hact, hstep.step⟩ (hs.no_worker _ t)
  have sub : Submittable (fun _ => rmw (.singleton 5) (.singleton 6))
    (fun _ => ⟨unrun .empty, 0, 0⟩) ([0, 1, 2] : List TxnPtr) := rmw_submittable (by decide)
  obtain ⟨n, hn⟩ := (benchmark_locking (queueDocumented .locking) sub Nat.two_pos (by rfl)
    (by decide)).2 bench hmain hworkers
  refine ⟨bench, n, hn, ?_⟩
  exact (((benchmark_locking (queueDocumented .locking) sub Nat.two_pos (by rfl)
    (by decide)).1 _ _ (bench.run n)).2.2.2 hn).1

section Serial
variable {code : TxnPtr → TxnCode} {ts : List TxnPtr} {tr : List (Option ServiceEvent)}
  {s s' : SerialState} {e : Option ServiceEvent} {txns : TxnPtr → Txn} {storage : Storage}
  {active timeLeft : Nat} {b : Bench SerialState}

/-- The serial loop over a `Storage`, as in the modes SERIAL, OCC and P_OCC. -/
def serialServer (code : TxnPtr → TxnCode) : Server SerialState (Option ServiceEvent) where
  Step := SerialStep code
  call
    | some (.request t) => some (.request t)
    | some (.result o) => some (.result o.1)
    | _ => none
  stopped s := s.stopped = true
  calls_stopped := by
    intro s e s' h hcall hstop
    cases h with
    | request hc hp =>
      obtain ⟨_, rfl⟩ := Processor.newTxnRequest_eq_some.mp hp
      exact hstop
    | result hq => exact hstop
    | _ => exact absurd rfl hcall

theorem serial_requests (code : TxnPtr → TxnCode) (tr : List (Option ServiceEvent)) :
    (serialServer code).requests tr = asked (tr.filterMap id) := by
  rw [asked, List.filterMap_filterMap]
  apply List.filterMap_congr
  intro e _
  cases e with
  | none => rfl
  | some e => cases e <;> rfl

theorem serial_results (tr : List (Option ServiceEvent)) :
    (serialServer code).results tr = (taken (tr.filterMap id)).map Prod.fst := by
  rw [taken, List.filterMap_filterMap, List.map_filterMap]
  apply List.filterMap_congr
  intro e _
  cases e with
  | none => rfl
  | some e => cases e <;> rfl

theorem serial_admitted (h : SerialRuns code txns storage ts tr s) :
    (s.clients ++ (serialServer code).requests tr).Perm ts ∧
      s.nextUniqueId = 1 + ((serialServer code).requests tr).length := by
  refine h.invariant (I := fun tr (s : SerialState) =>
    (s.clients ++ (serialServer code).requests tr).Perm ts ∧
      s.nextUniqueId = 1 + ((serialServer code).requests tr).length) ⟨?_, rfl⟩ ?_
  · simp [SerialState.init, Server.requests]
  · intro tr s e s' _ ih hs
    rw [Server.requests_concat]
    cases hs with
    | @request a b t p hc hp =>
      obtain ⟨_, rfl⟩ := Processor.newTxnRequest_eq_some.mp hp
      constructor
      · refine List.Perm.trans ?_ ih.1
        rw [hc, List.perm_iff_count]
        intro x
        simp only [serialServer, ClientCall.requested, Option.bind_some, Option.toList_some,
          List.count_append, List.count_cons, List.count_nil]
        omega
      · simp only [serialServer, ClientCall.requested, Option.bind_some, Option.toList_some,
          List.length_append, List.length_singleton, ih.2]
        omega
    | run hpc hp =>
      obtain ⟨_, _, rfl⟩ := Processor.runTxn_eq_some.mp hp
      simpa [serialServer] using ih
    | _ => simpa [serialServer, ClientCall.requested] using ih

theorem serial_init_running : ¬(serialServer code).stopped (SerialState.init txns storage ts) :=
  Bool.false_ne_true

/-- Results come in the order of the requests; at the top of the loop with no request left
they are all there. -/
theorem serial_order (hts : ts.Nodup) (hfresh : ∀ t ∈ ts, (txns t).Fresh)
    (hvotes : ∀ t ∈ ts, (code t).AlwaysVotes) (h : SerialRuns code txns storage ts tr s) :
    (serialServer code).requests tr = (serialServer code).results tr ++
      (s.txnResults ++ s.pc.after) ++ (s.pc.before ++ s.txnRequests) := by
  have seq := Service.sequential_of_run (service_of_serial_run hts hfresh hvotes h)
  rw [serial_requests, serial_results, seq.fifo, seq.results, List.map_append]
  simp [SerialState.service, Function.comp_def]

/-- The scheduler's statements until it is at the top of its loop again. -/
def SerialPc.ahead : SerialPc → Nat × Nat
  | .starting _ => (7, 0)
  | .reading _ rest => (6, rest.length)
  | .pushing _ => (5, 0)
  | .deciding _ => (4, 0)
  | .applying _ rest => (3, rest.length)
  | .marking _ => (2, 0)
  | .returning _ => (1, 0)
  | .top | .died | .returned => (0, 0)

def SerialState.left (s : SerialState) : Nat ×ₗ (Nat ×ₗ Nat) :=
  toLex (s.txnRequests.length, toLex s.pc.ahead)

theorem SerialState.left_lt (hq : s'.txnRequests = s.txnRequests)
    (hpc : s'.pc.ahead.1 < s.pc.ahead.1 ∨
      s'.pc.ahead.1 = s.pc.ahead.1 ∧ s'.pc.ahead.2 < s.pc.ahead.2) : s'.left < s.left := by
  apply Prod.Lex.toLex_lt_toLex.mpr
  exact .inr ⟨congrArg List.length hq, Prod.Lex.toLex_lt_toLex.mpr hpc⟩

theorem SerialStep.left_lt_or_idle (h : SerialStep code s e s')
    (hcall : (serialServer code).call e = none) (hstop : s'.stopped = false) :
    s'.left < s.left ∨ (s' = s ∧ s.pc = .top ∧ s.txnRequests = []) := by
  cases h with
  | request hc hp => cases hcall
  | result hq => cases hcall
  | stop => cases hstop
  | leave hpc hs => exact absurd (hs.symm.trans hstop) (by decide)
  | noRequest hpc hs hq => exact .inr ⟨rfl, hpc, hq⟩
  | pop hpc hs hq =>
    left
    apply Prod.Lex.toLex_lt_toLex.mpr
    left
    simp [hq]
  | run hpc hp =>
    obtain ⟨_, _, rfl⟩ := Processor.runTxn_eq_some.mp hp
    exact .inl (SerialState.left_lt rfl (by simp [SerialPc.ahead, hpc]))
  | runDies hpc hp => exact .inl (SerialState.left_lt rfl (by simp [SerialPc.ahead, hpc]))
  | invalid hpc hc ha => exact .inl (SerialState.left_lt rfl (by simp [SerialPc.ahead, hpc]))
  | _ hpc => exact .inl (SerialState.left_lt rfl (by simp [SerialPc.ahead, hpc]))

theorem serial_drained (hts : ts.Nodup) (hfresh : ∀ t ∈ ts, (txns t).Fresh)
    (hvotes : ∀ t ∈ ts, (code t).AlwaysVotes) (hactive : 0 < active)
    (hlen : ts.length = active + timeLeft) (hmax : ts.length < CInt.intMax)
    (bench : Behaviour (BenchStep (serialServer code) active)
      (Bench.init active (SerialState.init txns storage ts) timeLeft))
    (hmain : bench.WeaklyFair fun e => (serialServer code).call e ≠ none) :
    ∃ n, (bench.state n).pc = .draining 0 := by
  have hrun : ∀ n, SerialRuns code txns storage ts (bench.events n) (bench.state n).server :=
    fun n => server_of_run (bench.run n)
  refine eventually_drained bench serial_init_running hactive (by omega) hmain ?_ ?_
  · intro n hn
    rw [← hlen] at hn
    obtain ⟨hall, hnext⟩ := serial_admitted (hrun n)
    have hall := hall.length_eq
    rw [List.length_append] at hall
    obtain ⟨t, rest, hclients⟩ := List.exists_cons_of_length_pos
      (show 0 < (bench.state n).server.clients.length by omega)
    have hid : (bench.state n).server.nextUniqueId < CInt.intMax := by
      rw [hnext]
      omega
    exact ⟨some (.request t), _, ⟨t, rfl⟩,
      .request (a := []) hclients (Processor.newTxnRequest_eq_some.mpr ⟨hid, rfl⟩)⟩
  · intro n hquiet
    have hstep : ∀ m, n ≤ m →
        (bench.state (m + 1)).server.left < (bench.state m).server.left ∨
          ((bench.state (m + 1)).server = (bench.state m).server ∧
            (bench.state m).server.pc = .top ∧ (bench.state m).server.txnRequests = []) := by
      intro m hm
      have hstop := Bool.eq_false_iff.mpr (hquiet (m + 1) (by omega)).2.1
      exact (bench.step m).step.left_lt_or_idle (hquiet m hm).1 hstop
    obtain ⟨N, hN, hsteady⟩ := eventually_steady (f := fun m => (bench.state m).server.left)
      fun m hm => by
        rcases hstep m hm with hlt | ⟨hsame, _⟩
        · exact le_of_lt hlt
        · rw [hsame]
    refine ⟨N, hN, ?_⟩
    intro m hm
    obtain ⟨_, htop, hq⟩ := (hstep m (by omega)).resolve_left fun hlt =>
      absurd ((hsteady (m + 1) (by omega)).trans (hsteady m hm).symm) hlt.ne
    -- the scheduler has nothing in hand, and so a result must be there
    have hlt := (hquiet m (by omega)).2.2
    rw [serial_order hts hfresh hvotes (hrun m), htop, hq] at hlt
    simp only [SerialPc.before, SerialPc.after, List.append_nil, List.length_append] at hlt
    obtain ⟨u, rest, hres⟩ := List.exists_cons_of_length_pos
      (show 0 < (bench.state m).server.txnResults.length by omega)
    exact ⟨some (.result (u, _)), _, ⟨u, rfl⟩, .result hres⟩

theorem serial_returned (hts : ts.Nodup) (hfresh : ∀ t ∈ ts, (txns t).Fresh)
    (hvotes : ∀ t ∈ ts, (code t).AlwaysVotes) (hlen : ts.length = active + timeLeft)
    (h : Run (BenchStep (serialServer code) active)
      (Bench.init active (SerialState.init txns storage ts) timeLeft) tr b)
    (hpc : b.pc = .draining 0) :
    b.doneTxns.Perm ts ∧ b.server.txnRequests = [] ∧ b.server.txnResults = [] ∧
      (b.server.pc = .top ∨ b.server.pc = .returned) ∧
      b.server.storage.data = (machine code).exec b.doneTxns storage.data := by
  have w := window_of_run serial_init_running h
  have hrun := server_of_run h
  have horderly := orderly_of_serial_run hts hfresh hvotes hrun
  have horder := serial_order hts hfresh hvotes hrun
  have seq := Service.sequential_of_run (service_of_serial_run hts hfresh hvotes hrun)
  obtain ⟨hsubmitted, htaken⟩ := w.all_taken hpc
  rw [← w.done] at horder
  -- what is taken is all there is
  have hnone : (b.server.txnResults ++ b.server.pc.after) ++
      (b.server.pc.before ++ b.server.txnRequests) = [] := by
    apply List.eq_nil_of_length_eq_zero
    have hlength := congrArg List.length horder
    simp only [List.append_assoc, List.length_append] at hlength ⊢
    omega
  rw [List.append_assoc, hnone, List.append_nil] at horder
  simp only [List.append_eq_nil_iff] at hnone
  obtain ⟨⟨hresults, hafter⟩, hbefore, hrequests⟩ := hnone
  have htop : b.server.pc = .top ∨ b.server.pc = .returned := by
    have halive := horderly.not_died
    cases hserver : b.server.pc <;> simp_all
  refine ⟨?_, hrequests, hresults, htop, ?_⟩
  · obtain ⟨hall, _⟩ := serial_admitted hrun
    rw [← horder]
    have hclients : b.server.clients = [] := by
      apply List.eq_nil_of_length_eq_zero
      have hlength := hall.length_eq
      rw [List.length_append] at hlength
      omega
    rwa [hclients, List.nil_append] at hall
  · have hdata := seq.data
    have hfifo := seq.fifo
    have hpending : b.server.service.pending = [] :=
      List.append_eq_nil_iff.mpr ⟨hbefore, hrequests⟩
    rw [hpending, List.append_nil, ← serial_requests code, horder] at hfifo
    rw [← hfifo] at hdata
    rw [← hdata]
    rcases htop with htop | htop <;> simp [SerialState.service, htop]

end Serial

/-- A round of Benchmark in the modes SERIAL, OCC and P_OCC: never more than `active_txns`
transactions are active, the results come in the order of the requests, and the main thread
gets them all; the loop is then idle, over the store that the transactions leave one by one. -/
theorem benchmark_serial {code : TxnPtr → TxnCode} {txns : TxnPtr → Txn} {storage : Storage}
    {ts : List TxnPtr} {active timeLeft : Nat} (hts : ts.Nodup)
    (hfresh : ∀ t ∈ ts, (txns t).Fresh) (hvotes : ∀ t ∈ ts, (code t).AlwaysVotes)
    (hactive : 0 < active) (hlen : ts.length = active + timeLeft)
    (hmax : ts.length < CInt.intMax) :
    (∀ tr b, Run (BenchStep (serialServer code) active)
        (Bench.init active (SerialState.init txns storage ts) timeLeft) tr b →
      ((serialServer code).requests tr).length ≤ b.doneTxns.length + active ∧
      b.txnCount = b.doneTxns.length ∧ b.doneTxns <+: (serialServer code).requests tr ∧
      (b.pc = .draining 0 → b.doneTxns.Perm ts ∧
        b.server.txnRequests = [] ∧ b.server.txnResults = [] ∧
        (b.server.pc = .top ∨ b.server.pc = .returned) ∧
        b.server.storage.data = (machine code).exec b.doneTxns storage.data)) ∧
    (∀ bench : Behaviour (BenchStep (serialServer code) active)
        (Bench.init active (SerialState.init txns storage ts) timeLeft),
      (bench.WeaklyFair fun e => (serialServer code).call e ≠ none) →
      ∃ n, (bench.state n).pc = .draining 0) := by
  constructor
  · intro tr b h
    have w := window_of_run serial_init_running h
    refine ⟨w.active_le, w.count, ?_, serial_returned hts hfresh hvotes hlen h⟩
    rw [w.done, serial_order hts hfresh hvotes (server_of_run h), List.append_assoc]
    exact List.prefix_append _ _
  · intro bench hmain
    exact serial_drained hts hfresh hvotes hactive hlen hmax bench hmain

theorem rmw_serial_bench_run : ∃ tr b,
    Run (BenchStep (serialServer fun _ => rmw (.singleton 5) (.singleton 6)) 2)
      (Bench.init 2 (SerialState.init (fun _ => ⟨unrun .empty, 0, 0⟩) ⟨fun _ => some 2⟩ [0, 1, 2])
        1) tr b ∧
      b.pc = .draining 0 ∧ b.server.pc = .top ∧ b.server.stopped = false ∧
      b.server.txnRequests = [] := by
  have run : Run (BenchStep (serialServer fun _ => rmw (.singleton 5) (.singleton 6)) 2)
    (Bench.init 2 (SerialState.init (fun _ => ⟨unrun .empty, 0, 0⟩) ⟨fun _ => some 2⟩ [0, 1, 2]) 1)
    [] _ := .nil
  have run := run.snoc (.submit rfl (.request (a := []) rfl
    (Processor.newTxnRequest_eq_some.mpr ⟨by decide, rfl⟩)) rfl)
  have run := run.snoc (.submit rfl (.request (a := []) rfl
    (Processor.newTxnRequest_eq_some.mpr ⟨by decide, rfl⟩)) rfl)
  have run := run.snoc (.quiet (.pop rfl rfl rfl) rfl Bool.false_ne_true)
  have run := run.snoc (.quiet (.start rfl) rfl Bool.false_ne_true)
  have run := run.snoc (.quiet (.read rfl) rfl Bool.false_ne_true)
  have run := run.snoc (.quiet (.read rfl) rfl Bool.false_ne_true)
  have run := run.snoc (.quiet (.run rfl (Processor.runTxn_eq_some.mpr ⟨_, rfl, rfl⟩)) rfl
    Bool.false_ne_true)
  have run := run.snoc (.quiet (.complete rfl) rfl Bool.false_ne_true)
  have run := run.snoc (.quiet (.decide rfl rfl) rfl Bool.false_ne_true)
  have run := run.snoc (.quiet (.write rfl) rfl Bool.false_ne_true)
  have run := run.snoc (.quiet (.commit rfl) rfl Bool.false_ne_true)
  have run := run.snoc (.quiet (.mark rfl) rfl Bool.false_ne_true)
  have run := run.snoc (.quiet (.deliver rfl) rfl Bool.false_ne_true)
  have run := run.snoc (.take (k := 0) rfl (.result rfl) rfl
    (CInt.succ_eq_some.mpr ⟨by decide, rfl⟩))
  have run := run.snoc (.submit rfl (.request (a := []) rfl
    (Processor.newTxnRequest_eq_some.mpr ⟨by decide, rfl⟩)) rfl)
  have run := run.snoc (.quiet (.pop rfl rfl rfl) rfl Bool.false_ne_true)
  have run := run.snoc (.quiet (.start rfl) rfl Bool.false_ne_true)
  have run := run.snoc (.quiet (.read rfl) rfl Bool.false_ne_true)
  have run := run.snoc (.quiet (.read rfl) rfl Bool.false_ne_true)
  have run := run.snoc (.quiet (.run rfl (Processor.runTxn_eq_some.mpr ⟨_, rfl, rfl⟩)) rfl
    Bool.false_ne_true)
  have run := run.snoc (.quiet (.complete rfl) rfl Bool.false_ne_true)
  have run := run.snoc (.quiet (.decide rfl rfl) rfl Bool.false_ne_true)
  have run := run.snoc (.quiet (.write rfl) rfl Bool.false_ne_true)
  have run := run.snoc (.quiet (.commit rfl) rfl Bool.false_ne_true)
  have run := run.snoc (.quiet (.mark rfl) rfl Bool.false_ne_true)
  have run := run.snoc (.quiet (.deliver rfl) rfl Bool.false_ne_true)
  have run := run.snoc (.quiet (.pop rfl rfl rfl) rfl Bool.false_ne_true)
  have run := run.snoc (.quiet (.start rfl) rfl Bool.false_ne_true)
  have run := run.snoc (.quiet (.read rfl) rfl Bool.false_ne_true)
  have run := run.snoc (.quiet (.read rfl) rfl Bool.false_ne_true)
  have run := run.snoc (.quiet (.run rfl (Processor.runTxn_eq_some.mpr ⟨_, rfl, rfl⟩)) rfl
    Bool.false_ne_true)
  have run := run.snoc (.quiet (.complete rfl) rfl Bool.false_ne_true)
  have run := run.snoc (.quiet (.decide rfl rfl) rfl Bool.false_ne_true)
  have run := run.snoc (.quiet (.write rfl) rfl Bool.false_ne_true)
  have run := run.snoc (.quiet (.commit rfl) rfl Bool.false_ne_true)
  have run := run.snoc (.quiet (.mark rfl) rfl Bool.false_ne_true)
  have run := run.snoc (.quiet (.deliver rfl) rfl Bool.false_ne_true)
  have run := run.snoc (.take (k := 0) rfl (.result rfl) rfl
    (CInt.succ_eq_some.mpr ⟨by decide, rfl⟩))
  have run := run.snoc (.take (k := 0) rfl (.result rfl) rfl
    (CInt.succ_eq_some.mpr ⟨by decide, rfl⟩))
  exact ⟨_, _, run, rfl, rfl, rfl, rfl⟩

theorem benchmark_serial_rmw : ∃ (bench : Behaviour
    (BenchStep (serialServer fun _ => rmw (.singleton 5) (.singleton 6)) 2)
    (Bench.init 2 (SerialState.init (fun _ => ⟨unrun .empty, 0, 0⟩) ⟨fun _ => some 2⟩ [0, 1, 2])
      1)) (n : Nat),
      (bench.state n).pc = .draining 0 ∧ (bench.state n).doneTxns.Perm [0, 1, 2] := by
  obtain ⟨tr, b, h, hpc, htop, hrunning, hq⟩ := rmw_serial_bench_run
  obtain ⟨bench, _, _, hfair, _⟩ := Behaviour.exists_of_run h
    { state := fun _ => b
      event := fun _ => none
      start := rfl
      step := fun _ => .server (.noRequest htop hrunning hq) rfl fun _ => hpc }
  have hmain := hfair
    (fun e => (serialServer fun _ => rmw (.singleton 5) (.singleton 6)).call e ≠ none)
    fun n hen => absurd (hen n le_rfl) (no_call_of_drained hpc)
  have hvotes : ∀ t ∈ [0, 1, 2], (rmw (.singleton 5) (.singleton 6)).AlwaysVotes := fun _ _ =>
    (rmw_votes _ _).1
  obtain ⟨n, hn⟩ := (benchmark_serial (by decide) (fun _ _ => by rfl) hvotes Nat.two_pos (by rfl)
    (by decide)).2 bench hmain
  refine ⟨bench, n, hn, ?_⟩
  exact (((benchmark_serial (by decide) (fun _ _ => by rfl) hvotes Nat.two_pos (by rfl)
    (by decide)).1 _ _ (bench.run n)).2.2.2 hn).1

end Cmsc624.A2
