import Cmsc624.A2.Deadlock
import Cmsc624.A2.Progress
import Cmsc624.Lib.Behaviour

/-!
# Every request is completed

If no worker leaves its transaction alone forever, every request gets its result, unless
the processor is stopped before. When all statements for transactions have been made, the
scheduler polls; then at the top of its loop there is no request, nothing completed and
nothing that a worker could go on with, and so no transaction that has not ended.
-/

namespace Cmsc624.A2

open Lib

set_option autoImplicit false

/-- The threads of the system, the workers named by their transactions. -/
inductive Actor where
  | client
  | scheduler
  | worker (t : TxnPtr)
  deriving DecidableEq

def Event.actor : Event → Actor
  | .request _ | .result _ | .stop => .client
  | .start t | .size t _ | .read t _ _ | .run t _ | .complete t => .worker t
  | _ => .scheduler

variable {lm : LockManager} {code : TxnPtr → TxnCode} {ccMode : CCMode} {ts : List TxnPtr}
  {tr : List Event} {s s' s₀ : State lm} {e : Event} {txns : TxnPtr → Txn} {storage : Storage}
  {t u : TxnPtr}

/-- One step of the scheduler's polling; it finds nothing to do. -/
inductive Polls (s : State lm) (s' : State lm) : Prop where
  | requests (hpc : s.sched = .top) (hq : s.txnRequests = [])
      (hs : s' = { s with sched := .collecting })
  | completed (hpc : s.sched = .collecting) (hq : s.completedTxns = [])
      (hs : s' = { s with sched := .dispatching })
  | ready (hpc : s.sched = .dispatching) (hs : s' = { s with sched := .top })

theorem polls_of_idle (h : Step code s e s') (he : ¬e.working) (hs : s'.stopped = false) :
    Polls s s' := by
  cases h with
  | stop => cases hs
  | leave hpc hstop => exact absurd (hstop.symm.trans hs) (by decide)
  | noRequest hpc _ hq => exact .requests hpc hq rfl
  | noCompleted hpc hq => exact .completed hpc hq rfl
  | noReady hpc hq => exact .ready hpc rfl
  | _ => exact absurd rfl he

theorem exists_runTxn (sub : Submittable code txns ts) (spec : LateGrant lm)
    (h : Runs code txns storage ts tr s) (ht : t ∈ ts) (hrun : (t, .reading []) ∈ s.running) :
    ∃ p, s.toProcessor.runTxn (code t) t = some p := by
  have hat : s.At t (.running (.reading [])) := .inl (mem_places.mpr hrun)
  obtain ⟨_, _, reads, hreads⟩ :=
    accounted_of_run spec sub.nodup sub.fresh sub.sets sub.votes h ht _ hat
  obtain ⟨buf, hbuf, _⟩ := sub.votes t ht reads
  exact ⟨_, Processor.runTxn_eq_some.mpr ⟨buf, (congrArg (code t).run hreads).trans hbuf, rfl⟩⟩

/-- A transaction in the pool or in a worker can go on. -/
theorem worker_enabled (sub : Submittable code txns ts) (spec : LateGrant lm)
    (h : Runs code txns storage ts tr s) (ht : t ∈ ts)
    (hw : t ∈ s.pool ∨ ∃ pc, (t, pc) ∈ s.running) :
    Enabled (Step code) (fun e => e.actor = .worker t) s := by
  rcases hw with hpool | ⟨pc, hrun⟩
  · obtain ⟨a, b, hab⟩ := List.append_of_mem hpool
    exact ⟨_, _, rfl, .start hab⟩
  · obtain ⟨a, b, hab⟩ := List.append_of_mem hrun
    cases pc with
    | size => exact ⟨_, _, rfl, .size hab⟩
    | pushing => exact ⟨_, _, rfl, .complete hab⟩
    | reading rest =>
      cases rest with
      | cons k rest => exact ⟨_, _, rfl, .read hab⟩
      | nil =>
        obtain ⟨p, hp⟩ := exists_runTxn sub spec h ht hrun
        exact ⟨_, _, rfl, .run hab hp⟩

/-- At the top of the loop a transaction that was popped and has not ended is held up by
one that a worker or the scheduler can go on with. -/
theorem exists_unblocked (doc : Documented lm ccMode) (sub : Submittable code txns ts)
    (h : Runs code txns storage ts tr s) (htop : s.sched = .top) (ht : t ∈ popped tr)
    (hfin : t ∉ finished tr) :
    ∃ u ∈ ts, u ∈ s.pool ∨ (∃ pc, (u, pc) ∈ s.running) ∨ u ∈ s.completedTxns := by
  have two := twoPhase_of_run doc sub.nodup sub.sets h
  have adm := admitted_of_run sub.nodup h
  have inv := custody_of_run doc.lateGrant sub.nodup sub.sets h
  obtain ⟨u, hu⟩ := exists_earliest ht hfin
  obtain ⟨hpop, hno, _⟩ := earliest_eq_some adm hu
  obtain ⟨huts, pl, hat, howes⟩ := owes_of_popped doc sub.nodup sub.sets h hpop hno (by simp [htop])
  have hready := readyTxns_at_top h (.inl htop)
  refine ⟨u, huts, ?_⟩
  rcases hat with hmem | ⟨hnames, _⟩
  · have hocc := mem_places.mp hmem
    have howe := howes ⟨false, 0⟩
    cases pl with
    | pooled => exact .inl hocc
    | running pc => exact .inr (.inl ⟨pc, hocc⟩)
    | completed => exact .inr (.inr hocc)
    | _ => simp_all [Place.Owes, State.Occupies]
  · -- the lock manager keeps nobody back who owns all his locks
    obtain ⟨k, r, hr, hru, hnot⟩ := (inv.placed u huts).resolve_left hnames
    exact absurd (earliest_owns sub.nodup sub.sets h two htop hu hr hru) hnot

/-- Where nobody has anything to do, every transaction that was submitted has its result. -/
theorem ended_of_idle (doc : Documented lm ccMode) (sub : Submittable code txns ts)
    (h : Runs code txns storage ts tr s) (htop : s.sched = .top) (hreq : s.txnRequests = [])
    (hcomp : s.completedTxns = [])
    (hworkers : ∀ u ∈ ts, u ∉ s.pool ∧ ∀ pc, (u, pc) ∉ s.running) (ht : t ∈ requested tr) :
    t ∈ s.txnResults ∨ t ∈ s.handed := by
  have adm := admitted_of_run sub.nodup h
  have hpop : t ∈ popped tr := by rwa [adm.fifo, hreq, List.append_nil] at ht
  have hts := adm.mem_ts ht
  have hfin : t ∈ finished tr := by
    by_contra hfin
    obtain ⟨u, hu, hunblocked⟩ := exists_unblocked doc sub h htop hpop hfin
    rcases hunblocked with hp | ⟨pc, hr⟩ | hc
    · exact (hworkers u hu).1 hp
    · exact (hworkers u hu).2 pc hr
    · simp [hcomp] at hc
  obtain ⟨pl, hat⟩ := s.exists_at t
  have hend := (mem_finished_iff doc.lateGrant sub.nodup sub.sets h hat hts).mp hfin
  rcases hat with hmem | ⟨_, rfl⟩
  · have hocc := mem_places.mp hmem
    cases pl with
    | result => exact .inl hocc
    | handed => exact .inr hocc
    | releasing rest => simp [State.Occupies, htop] at hocc
    | _ => exact hend.elim
  · exact hend.elim

theorem status_of_ended (spec : LateGrant lm) (sub : Submittable code txns ts)
    (h : Runs code txns storage ts tr s) (ht : t ∈ ts) (hend : t ∈ s.txnResults ∨ t ∈ s.handed) :
    (s.txns t).status = .committed ∨ (s.txns t).status = .aborted := by
  have hacc := accounted_of_run spec sub.nodup sub.fresh sub.sets sub.votes h ht
  rcases hend with hr | hh
  · exact ((hacc .result (.inl (mem_places.mpr hr))).finished trivial).imp And.left And.left
  · exact ((hacc .handed (.inl (mem_places.mpr hh))).finished trivial).imp And.left And.left

theorem Polls.exists_idle {R : State lm → Prop} (hnext : ∀ s, R s → ∃ s', R s' ∧ Polls s s')
    (hs : R s) : ∃ s, R s ∧ s.sched = .top ∧ s.txnRequests = [] ∧ s.completedTxns = [] := by
  have hafter : ∀ s, R s → s.sched = .dispatching → ∃ s', R s' ∧ s'.sched = .top := by
    intro s hs hpc
    obtain ⟨s', hs', hpoll⟩ := hnext s hs
    cases hpoll with
    | requests hpc' => simp [hpc] at hpc'
    | completed hpc' => simp [hpc] at hpc'
    | ready _ hset => exact ⟨s', hs', by rw [hset]⟩
  have htop : ∃ s, R s ∧ s.sched = .top := by
    obtain ⟨s', hs', hpoll⟩ := hnext s hs
    cases hpoll with
    | requests hpc => exact ⟨s, hs, hpc⟩
    | ready hpc => exact hafter s hs hpc
    | completed _ _ hset => exact hafter s' hs' (by rw [hset])
  obtain ⟨s, hs, hpc⟩ := htop
  obtain ⟨s', hs', hpoll⟩ := hnext s hs
  cases hpoll with
  | completed hpc' => simp [hpc] at hpc'
  | ready hpc' => simp [hpc] at hpc'
  | requests _ hq hset =>
    obtain ⟨s'', _, hpoll⟩ := hnext s' hs'
    cases hpoll with
    | requests hpc' => simp [hset] at hpc'
    | ready hpc' => simp [hset] at hpc'
    | completed _ hq' =>
      rw [hset] at hq'
      exact ⟨s, hs, hpc, hq, hq'⟩

section Polling
variable {b : Behaviour (Step code) s₀} {n m : Nat}

/-- From moment `n` on nothing but polling is done. -/
structure Polling (b : Behaviour (Step code) s₀) (n : Nat) : Prop where
  idle : ∀ m, n ≤ m → ¬(b.event m).working
  polls : ∀ m, n ≤ m → Polls (b.state m) (b.state (m + 1))

theorem Polling.mono (h : Polling b n) (hm : n ≤ m) : Polling b m :=
  ⟨fun k hk => h.idle k (hm.trans hk), fun k hk => h.polls k (hm.trans hk)⟩

theorem Polls.frozen (h : Polls s s') : s' = { s with sched := s'.sched } := by
  cases h with
  | requests _ _ hs => rw [hs]
  | completed _ _ hs => rw [hs]
  | ready _ hs => rw [hs]

theorem Polling.frozen (h : Polling b n) (hm : n ≤ m) :
    b.state m = { b.state n with sched := (b.state m).sched } := by
  induction m, hm using Nat.le_induction with
  | base => rfl
  | succ m hm ih =>
    have hstep := (h.polls m hm).frozen
    rw [ih] at hstep
    exact hstep

theorem Polling.exists_idle (h : Polling b n) : ∃ m, n ≤ m ∧ (b.state m).sched = .top ∧
    (b.state m).txnRequests = [] ∧ (b.state m).completedTxns = [] := by
  obtain ⟨_, ⟨m, hm, rfl⟩, hidle⟩ :=
    Polls.exists_idle (R := fun s => ∃ m, n ≤ m ∧ b.state m = s) (s := b.state n)
      (by
        rintro _ ⟨m, hm, rfl⟩
        exact ⟨_, ⟨m + 1, by omega, rfl⟩, h.polls m hm⟩) ⟨n, le_rfl, rfl⟩
  exact ⟨m, hm, hidle⟩

theorem Event.working_of_actor (h : e.actor = .worker t) : e.working := by
  cases e <;> first | rfl | cases h

theorem Polling.no_worker (sub : Submittable code txns ts) (spec : LateGrant lm)
    {b : Behaviour (Step code) (State.init lm txns storage ts)} (h : Polling b n) (ht : t ∈ ts)
    (hfair : b.WeaklyFair fun e => e.actor = .worker t) :
    t ∉ (b.state n).pool ∧ ∀ pc, (t, pc) ∉ (b.state n).running := by
  by_contra hw
  have hw : t ∈ (b.state n).pool ∨ ∃ pc, (t, pc) ∈ (b.state n).running := by
    by_contra hno
    push Not at hno
    exact hw hno
  obtain ⟨m, hm, hact⟩ := hfair n fun m hm => by
    refine worker_enabled sub spec (b.run m) ht ?_
    rw [h.frozen hm]
    exact hw
  exact h.idle m hm (Event.working_of_actor hact)

/-- So every transaction that was submitted has its result. -/
theorem Polling.completed (doc : Documented lm ccMode) (sub : Submittable code txns ts)
    {b : Behaviour (Step code) (State.init lm txns storage ts)} (h : Polling b n)
    (hfair : ∀ t ∈ ts, b.WeaklyFair fun e => e.actor = .worker t) :
    ∃ m, n ≤ m ∧ ∀ t ∈ requested (b.events m),
      t ∈ (b.state m).txnResults ∨ t ∈ (b.state m).handed := by
  obtain ⟨m, hm, htop, hreq, hcomp⟩ := h.exists_idle
  refine ⟨m, hm, ?_⟩
  intro t ht
  exact ended_of_idle doc sub (b.run m) htop hreq hcomp
    (fun u hu => (h.mono hm).no_worker sub doc.lateGrant hu (hfair u hu)) ht

end Polling

/-- A system whose workers are fair comes to rest, or it is stopped. -/
theorem eventually_polling (spec : LateGrant lm) (sub : Submittable code txns ts)
    (b : Behaviour (Step code) (State.init lm txns storage ts)) (n : Nat)
    (hstop : ∀ m, n ≤ m → (b.state m).stopped = false) : ∃ m, n ≤ m ∧ Polling b m := by
  have hstep : ∀ m, (b.state (m + 1)).potential code ts + (b.event m).working.toNat ≤
      (b.state m).potential code ts := by
    intro m
    have inv := custody_of_run spec sub.nodup sub.sets (b.run m)
    exact potential_of_step inv (fun t ht => sub.declared_of_run spec (b.run m) ht) (b.step m)
  obtain ⟨m, hm, hquiet⟩ := b.eventually_quiet (n := n) (A := fun e => e.working)
    (r := fun k => (b.state k).potential code ts) fun k _ => by
      refine ⟨(Nat.le_add_right _ _).trans (hstep k), ?_⟩
      intro hworking
      have hk := hstep k
      rw [hworking, Bool.toNat_true] at hk
      omega
  refine ⟨m, hm, hquiet, ?_⟩
  intro k hk
  exact polls_of_idle (b.step k) (hquiet k hk) (hstop (k + 1) (by omega))

/-- The places of the scheduler's loop, over and over. -/
def SchedPc.poll : Nat → SchedPc
  | 0 => .top
  | 1 => .collecting
  | 2 => .dispatching
  | n + 3 => SchedPc.poll n

theorem State.Empty.step (h : s.Empty) (n : Nat) :
    Step code { s with sched := .poll n } .tau { s with sched := .poll (n + 1) } := by
  induction n using SchedPc.poll.induct with
  | case1 => exact .noRequest rfl h.stopped h.txnRequests
  | case2 => exact .noCompleted rfl h.completedTxns
  | case3 => exact .noReady rfl h.readyTxns
  | case4 n ih => exact ih

theorem State.Empty.no_worker (h : s.Empty) (pc : SchedPc) (t : TxnPtr) :
    ¬Enabled (Step code) (fun e => e.actor = .worker t) { s with sched := pc } := by
  rintro ⟨e, s', hact, hs⟩
  cases hs with
  | start hpool => simp [h.pool] at hpool
  | size hrun => simp [h.running] at hrun
  | read hrun => simp [h.running] at hrun
  | run hrun hp => simp [h.running] at hrun
  | complete hrun => simp [h.running] at hrun
  | _ => cases hact

theorem exists_fair (h : Run (Step code) s₀ tr s) (htop : s.sched = .top) (hs : s.Empty) :
    ∃ b : Behaviour (Step code) s₀, b.events tr.length = tr ∧
      ∀ t, b.WeaklyFair fun e => e.actor = .worker t := by
  obtain ⟨b, hev, _, hfair, _⟩ := Behaviour.exists_of_run h
    { state := fun n => { s with sched := .poll n }
      event := fun _ => .tau
      start := by rw [SchedPc.poll, ← htop]
      step := hs.step }
  exact ⟨b, hev, fun t => hfair _ fun n hen => absurd (hen n le_rfl) (hs.no_worker _ t)⟩

theorem rmw_submittable (hts : ts.Nodup) : Submittable
    (fun _ => rmw (.singleton 5) (.singleton 6)) (fun _ => ⟨unrun .empty, 0, 0⟩) ts :=
  .of_types (fun _ => .rmw (.singleton 5) (.singleton 6)) hts (fun _ _ => by rfl) fun _ _ =>
    (TxnType.rmw _ _).checkReadWriteSets_iff.mp (by decide)

end Cmsc624.A2
