import Cmsc624.A2.Completion
import Cmsc624.A2.PooledScheduler

/-!
# Every request is completed on the thread pool

With the real `StaticThreadPool` the workers poll too, a task waits in one worker's queue,
and a `TryLock` may fail. If every thread goes on and no `TryLock` fails forever, every
request still gets its result.
-/

namespace Cmsc624.A2

open Lib ThreadPool

set_option autoImplicit false

variable {lm : LockManager} {n : Nat} {code : TxnPtr → TxnCode} {txns : TxnPtr → Txn}
  {storage : Storage} {ts : List TxnPtr} {tr : List (PooledEvent n)} {p p' : Pooled lm n}
  {e : PooledEvent n} {i : Fin n} {t : TxnPtr} {pc : ExecPc} {ccMode : CCMode}

def PooledEvent.working (e : PooledEvent n) : Bool := e.toEvent.any Event.working

def PooledEvent.ofScheduler : PooledEvent n → Prop
  | .front e => e.ofClient = false
  | .addTask _ | .retry _ _ | .push _ _ => True
  | _ => False

def PooledEvent.ofWorker (i : Fin n) : PooledEvent n → Prop
  | .work j _ | .exec j _ => j = i
  | _ => False

def PooledEvent.pushes : PooledEvent n → Prop
  | .push _ _ => True
  | _ => False

/-- `PopNonBlocking` or `Pop` of worker `i` returns true. -/
def PooledEvent.pops (i : Fin n) : PooledEvent n → Prop
  | .work j (.start _) => j = i
  | _ => False

/-- Every thread goes on, and a `TryLock` that is tried again and again succeeds. -/
structure Pooled.Fair (b : Behaviour (PooledStep code) (Pooled.init lm n txns storage ts)) :
    Prop where
  scheduler : b.WeaklyFair PooledEvent.ofScheduler
  workers : ∀ i, b.WeaklyFair (PooledEvent.ofWorker i)
  pushes : b.StronglyFair PooledEvent.pushes
  pops : ∀ i, b.StronglyFair (PooledEvent.pops i)

/-- A worker that is in `ExecuteTxn` has a task. -/
def Pooled.Tasked (p : Pooled lm n) : Prop :=
  ∀ i pc, p.exec i = some pc → ∃ t, (p.lanes i).worker.tasks = [t]

theorem Pooled.Tasked.execStep (h : p.Tasked) (ht : (p.lanes i).worker.tasks = [t])
    (hlanes : p'.lanes = p.lanes) (hothers : ∀ j, j ≠ i → p'.exec j = p.exec j) : p'.Tasked := by
  intro j pc hj
  rw [hlanes]
  by_cases hij : j = i
  · subst hij
    exact ⟨t, ht⟩
  · exact h j pc ((hothers j hij).symm.trans hj)

theorem Pooled.Tasked.workStep (h : p.Tasked) {l : Lane TxnPtr} {w : WorkerEvent TxnPtr}
    (hl : WorkerStep p.poolStopped (p.lanes i) w l)
    (hlanes : p'.lanes = Function.update p.lanes i l)
    (hexec : p'.exec = Function.update p.exec i (enter w)) : p'.Tasked := by
  intro j pc hj
  rw [hexec] at hj
  rw [hlanes]
  by_cases hij : j = i
  · subst hij
    rw [Function.update_self] at hj ⊢
    cases w with
    | start u => exact ⟨u, started_tasks hl⟩
    | finish u => cases hj
    | skip => cases hj
  · rw [Function.update_of_ne hij] at hj ⊢
    exact h j pc hj

theorem Pooled.Tasked.pushStep (h : p.Tasked)
    (hlanes : p'.lanes = Function.update p.lanes i ((p.lanes i).push t))
    (hexec : p'.exec = p.exec) : p'.Tasked := by
  intro j pc hj
  rw [hexec] at hj
  rw [hlanes]
  by_cases hij : j = i
  · subst hij
    rw [Function.update_self]
    exact h j pc hj
  · rw [Function.update_of_ne hij]
    exact h j pc hj

theorem tasked_of_run (h : PooledRuns code n txns storage ts tr p) : p.Tasked := by
  apply h.stateInvariant (fun _ _ hnone => by cases hnone)
  intro p e p' ih hs
  cases hs with
  | front hs hfront hfree => exact ih
  | addTask hpc hq hfree => exact ih
  | retry i hadd => exact ih
  | stop hpc => exact ih
  | join hpc hs => exact ih
  | destroy hpc => exact ih
  | stopPool hpc => exact ih
  | joinWorkers hpc hs hexited => exact ih
  | push i hadd => exact ih.pushStep rfl rfl
  | work i hl hexec => exact ih.workStep hl rfl rfl
  | size i ht hexec => exact ih.execStep ht rfl fun j hj => Function.update_of_ne hj _ _
  | read i ht hexec => exact ih.execStep ht rfl fun j hj => Function.update_of_ne hj _ _
  | run i ht hexec hp => exact ih.execStep ht rfl fun j hj => Function.update_of_ne hj _ _
  | complete i ht hexec => exact ih.execStep ht rfl fun j hj => Function.update_of_ne hj _ _

theorem stopped_of_returned (h : PooledRuns code n txns storage ts tr p)
    (hpc : p.front.sched = .returned) : p.front.stopped = true := by
  obtain ⟨pool, running, _, hrun⟩ := refines_scheduler h
  refine hrun.stateInvariant (I := fun s => s.sched = .returned → s.stopped = true)
    (fun hinit => by cases hinit) ?_ hpc
  intro s e s' ih hs hret
  cases hs with
  | request hc hp =>
    obtain ⟨_, rfl⟩ := Processor.newTxnRequest_eq_some.mp hp
    exact ih hret
  | run hrun hp =>
    obtain ⟨_, _, rfl⟩ := Processor.runTxn_eq_some.mp hp
    exact ih hret
  | result hq => exact ih hret
  | start hpool => exact ih hret
  | size hrun => exact ih hret
  | read hrun => exact ih hret
  | complete hrun => exact ih hret
  | stop => rfl
  | leave hpc hs => exact hs
  | dispatch hpc hq => exact ih hret
  | _ => cases hret

theorem running_not_stopped (h : PooledRuns code n txns storage ts tr p)
    (hs : p.front.stopped = false) : p.front.sched ≠ .returned ∧ p.poolStopped = false ∧
      ∀ i, ¬(p.lanes i).worker.sawStop := by
  have horderly := orderly_of_run h
  have hret : p.front.sched ≠ .returned := by
    intro hpc
    rw [stopped_of_returned h hpc] at hs
    cases hs
  have hpool := (horderly.not_joined hret).2
  refine ⟨hret, hpool, ?_⟩
  intro i hsaw
  rw [horderly.saw_stop i hsaw] at hpool
  cases hpool

theorem exec_enabled (sub : Submittable code txns ts) (spec : LateGrant lm)
    (h : PooledRuns code n txns storage ts tr p) (hexec : p.exec i = some pc) :
    Enabled (PooledStep code) (PooledEvent.ofWorker i) p := by
  obtain ⟨t, htask⟩ := tasked_of_run h i pc hexec
  obtain ⟨pool, running, hholds, hrun⟩ := refines_scheduler h
  obtain ⟨a, b, hab⟩ := hholds.mem_running htask hexec
  have hmem : (t, pc) ∈ (p.front.withTasks pool running).running := by
    show (t, pc) ∈ running
    simp [hab]
  cases pc with
  | size => exact ⟨.exec i _, _, rfl, .size i htask hexec⟩
  | pushing => exact ⟨.exec i _, _, rfl, .complete i htask hexec⟩
  | reading rest =>
    cases rest with
    | cons k rest => exact ⟨.exec i _, _, rfl, .read i htask hexec⟩
    | nil =>
      have inv := custody_of_run spec sub.nodup sub.sets hrun
      have hplace : (t, Place.running (.reading [])) ∈ (p.front.withTasks pool running).places :=
        mem_places.mpr hmem
      obtain ⟨p', hp⟩ := exists_runTxn sub spec hrun (inv.known t (mem_names_of_mem hplace)) hmem
      exact ⟨.exec i _, _, rfl, .run i htask hexec hp⟩

theorem lane_enabled (h : PooledRuns code n txns storage ts tr p) (hs : p.front.stopped = false)
    (hexec : p.exec i = none) : Enabled (PooledStep code) (PooledEvent.ofWorker i) p := by
  obtain ⟨_, hpool, hsaw⟩ := running_not_stopped h hs
  have hlane : ∃ e l, WorkerStep p.poolStopped (p.lanes i) e l := by
    have hsaw := hsaw i
    cases hl : p.lanes i with
    | mk q worker =>
      rw [hl] at hsaw
      cases worker with
      | polling => exact ⟨_, _, .popFails⟩
      | executing u => exact ⟨_, _, .finish⟩
      | checking => exact ⟨_, _, .goOn hpool⟩
      | draining => exact absurd trivial hsaw
      | drainTask u => exact absurd trivial hsaw
      | exited => exact absurd trivial hsaw
  obtain ⟨e, l, hl⟩ := hlane
  exact ⟨.work i e, _, rfl, .work i hl hexec⟩

theorem scheduler_enabled (sub : Submittable code txns ts) (spec : LateGrant lm)
    (h : PooledRuns code n txns storage ts tr p) (hs : p.front.stopped = false)
    (hadd : p.adding = none) : Enabled (PooledStep code) PooledEvent.ofScheduler p := by
  have hret := (running_not_stopped h hs).1
  have hfront : ∀ {e f}, Step code p.front e f → e.ofFront = true → e.ofClient = false →
      Enabled (PooledStep code) PooledEvent.ofScheduler p :=
    fun hstep hof hclient => ⟨.front _, _, hclient, .front hstep hof (.inl hadd)⟩
  cases hpc : p.front.sched with
  | top =>
    cases hq : p.front.txnRequests with
    | nil => exact hfront (.noRequest hpc hs hq) rfl rfl
    | cons t q => exact hfront (.pop hpc hs hq) rfl rfl
  | locking t rest blocked =>
    cases rest with
    | cons c rest => exact hfront (.lock hpc) rfl rfl
    | nil =>
      cases blocked with
      | false => exact hfront (.ready hpc) rfl rfl
      | true => exact hfront (.park hpc) rfl rfl
  | collecting =>
    cases hq : p.front.completedTxns with
    | nil => exact hfront (.noCompleted hpc hq) rfl rfl
    | cons t q => exact hfront (.take hpc hq) rfl rfl
  | deciding t =>
    obtain ⟨pool, running, _, hrun⟩ := refines_scheduler h
    have inv := custody_of_run spec sub.nodup sub.sets hrun
    have hplace : (t, Place.deciding) ∈ (p.front.withTasks pool running).places :=
      mem_places.mpr hpc
    obtain ⟨_, hst⟩ := accounted_of_run spec sub.nodup sub.fresh sub.sets sub.votes hrun
      (inv.known t (mem_names_of_mem hplace)) _ (.inl hplace)
    rcases hst with hst | hst
    · exact hfront (.decide hpc hst) rfl rfl
    · exact hfront (.abort hpc hst) rfl rfl
  | applying t rest =>
    cases rest with
    | cons w rest => exact hfront (.write hpc) rfl rfl
    | nil => exact hfront (.commit hpc) rfl rfl
  | marking t => exact hfront (.mark hpc) rfl rfl
  | releasing t rest =>
    cases rest with
    | cons k rest => exact hfront (.release hpc) rfl rfl
    | nil => exact hfront (.deliver hpc) rfl rfl
  | dispatching =>
    cases hq : p.front.readyTxns with
    | nil => exact hfront (.noReady hpc hq) rfl rfl
    | cons t q => exact ⟨.addTask t, _, trivial, .addTask hpc hq hadd⟩
  | returned => exact absurd hpc hret

theorem countP_pooledEvents (tr : List (PooledEvent n)) :
    (pooledEvents tr).countP Event.working = tr.countP PooledEvent.working := by
  unfold pooledEvents
  rw [List.countP_filterMap]
  apply List.countP_congr
  intro e _
  unfold PooledEvent.working
  cases e.toEvent <;> rfl

theorem pooled_working_le (spec : LateGrant lm) (sub : Submittable code txns ts)
    (h : PooledRuns code n txns storage ts tr p) :
    tr.countP PooledEvent.working ≤ budget code ts := by
  obtain ⟨pool, running, _, hrun⟩ := refines_scheduler h
  rw [← countP_pooledEvents]
  exact (Nat.le_add_right _ _).trans (working_le spec sub hrun)

inductive Rests (p : Pooled lm n) : PooledEvent n → Pooled lm n → Prop where
  | polls {e : Event} {s : State lm} (hs : Polls p.front s) (he : e.ofClient = false)
      (hadd : p.adding = none) : Rests p (.front e) { p with front := s }
  | retry {t : TxnPtr} (i : Fin n) (hadd : p.adding = some t) : Rests p (.retry t i) p
  | push {t : TxnPtr} (i : Fin n) (hadd : p.adding = some t) :
      Rests p (.push i t)
        { p with lanes := Function.update p.lanes i ((p.lanes i).push t), adding := none }
  | work {w : WorkerEvent TxnPtr} {l : Lane TxnPtr} (i : Fin n)
      (hl : WorkerStep p.poolStopped (p.lanes i) w l) (hw : w.started = [])
      (hexec : p.exec i = none) :
      Rests p (.work i w) { p with lanes := Function.update p.lanes i l }

theorem enter_of_started {w : WorkerEvent TxnPtr} (hw : w.started = []) : enter w = none := by
  cases w with
  | start u => cases hw
  | _ => rfl

theorem rests_of_idle (h : PooledStep code p e p') (he : ¬e.working)
    (hs : p'.front.stopped = false) (hret : p.front.sched ≠ .returned)
    (hjoined : ¬p.dtor.joined) : Rests p e p' := by
  cases h with
  | @front e f hstep hfront hfree =>
    have hidle : ¬e.working := he
    have hclient : e.ofClient = false := by
      cases hstep with
      | stop => cases hs
      | request hc hp => exact absurd rfl hidle
      | result hq => exact absurd rfl hidle
      | _ => rfl
    refine .polls (polls_of_idle hstep hidle hs) hclient (hfree.resolve_right ?_)
    simp [hclient]
  | retry i hadd => exact .retry i hadd
  | push i hadd => exact .push i hadd
  | @work w l i hl hexec =>
    have hw : w.started = [] := by
      cases w with
      | start u => exact absurd rfl he
      | _ => rfl
    rw [enter_of_started hw, ← hexec, Function.update_eq_self]
    exact .work i hl hw hexec
  | stop hpc => cases hs
  | join hpc hreturned => exact absurd hreturned hret
  | destroy hpc => exact absurd (show p.dtor.joined by rw [hpc]; trivial) hjoined
  | stopPool hpc => exact absurd (show p.dtor.joined by rw [hpc]; trivial) hjoined
  | joinWorkers hpc _ _ => exact absurd (show p.dtor.joined by rw [hpc]; trivial) hjoined
  | _ => exact absurd rfl he

section Rests
variable (h : Rests p e p')
include h

theorem Rests.exec : p'.exec = p.exec := by cases h <;> rfl

theorem Rests.exec_none (he : e.ofWorker i) : p.exec i = none := by
  cases h with
  | work j hl hw hexec =>
    obtain rfl : j = i := he
    exact hexec
  | _ => exact he.elim

theorem Rests.added (hadd : p.adding = none) : p'.adding = none := by
  cases h with
  | polls hs he hadd' => exact hadd
  | retry i hadd' => exact hadd
  | push i hadd' => rfl
  | work i hl hw hexec => exact hadd

theorem Rests.added_of_pushes (he : e.pushes) : p'.adding = none := by
  cases h with
  | push i hadd => rfl
  | _ => exact he.elim

theorem Rests.not_pops : ¬e.pops i := by
  intro he
  cases h with
  | @work w l j hl hw hexec =>
    cases w with
    | start u => cases hw
    | _ => exact he
  | _ => exact he

theorem Rests.lane (hadd : p.adding = none) :
    (¬e.ofWorker i ∧ p'.lanes i = p.lanes i) ∨ (e.ofWorker i ∧
      ∃ w, WorkerStep p.poolStopped (p.lanes i) w (p'.lanes i) ∧ w.started = []) := by
  cases h with
  | polls hs he hadd' => exact .inl ⟨id, rfl⟩
  | retry j hadd' => exact .inl ⟨id, rfl⟩
  | push j hadd' =>
    rw [hadd] at hadd'
    cases hadd'
  | @work w l j hl hw hexec =>
    by_cases hij : j = i
    · subst hij
      refine .inr ⟨rfl, w, ?_, hw⟩
      simpa using hl
    · refine .inl ⟨hij, ?_⟩
      exact Function.update_of_ne (Ne.symm hij) _ _

theorem Rests.queue (hadd : p.adding = none) : (p'.lanes i).queue = (p.lanes i).queue := by
  rcases h.lane hadd (i := i) with ⟨_, hsame⟩ | ⟨_, w, hl, hw⟩
  · rw [hsame]
  · rw [hl.queue_eq, hw, List.nil_append]

theorem Rests.front (hadd : p.adding = none) :
    (¬e.ofScheduler → p'.front = p.front) ∧ (e.ofScheduler → Polls p.front p'.front) := by
  cases h with
  | polls hs he hadd' => exact ⟨fun hnot => absurd he hnot, fun _ => hs⟩
  | retry i hadd' =>
    rw [hadd] at hadd'
    cases hadd'
  | push i hadd' =>
    rw [hadd] at hadd'
    cases hadd'
  | work i hl hw hexec => exact ⟨fun _ => rfl, fun he => he.elim⟩

end Rests

section Resting
variable {b : Behaviour (PooledStep code) (Pooled.init lm n txns storage ts)} {k m N : Nat}

/-- From moment `N` on no work is done. -/
structure Resting (b : Behaviour (PooledStep code) (Pooled.init lm n txns storage ts)) (N : Nat) :
    Prop where
  running : ∀ m, N ≤ m → (b.state m).front.stopped = false
  rests : ∀ m, N ≤ m → Rests (b.state m) (b.event m) (b.state (m + 1))

theorem eventually_resting (spec : LateGrant lm) (sub : Submittable code txns ts)
    (hstop : ∀ m, k ≤ m → (b.state m).front.stopped = false) : ∃ N, k ≤ N ∧ Resting b N := by
  have hcount : ∀ m, (b.events (m + 1)).countP PooledEvent.working =
      (b.events m).countP PooledEvent.working + (b.event m).working.toNat := by
    intro m
    rw [b.events_succ, List.countP_append]
    cases hw : (b.event m).working <;> simp [hw]
  obtain ⟨N, hN, hsteady⟩ := eventually_steady (n := k)
    (f := fun m => budget code ts - (b.events m).countP PooledEvent.working) fun m _ => by
      have hgrows := hcount m
      omega
  refine ⟨N, hN, fun m hm => hstop m (by omega), ?_⟩
  intro m hm
  have hret := (running_not_stopped (b.run m) (hstop m (by omega))).1
  have hjoined := ((orderly_of_run (b.run m)).not_joined hret).1
  refine rests_of_idle (b.step m) ?_ (hstop (m + 1) (by omega)) hret hjoined
  intro hw
  have hgrows := hcount m
  have hle := pooled_working_le spec sub (b.run (m + 1))
  have hnow := hsteady m hm
  have hnext := hsteady (m + 1) (by omega)
  rw [hw, Bool.toNat_true] at hgrows
  omega

theorem Resting.mono (h : Resting b N) (hm : N ≤ m) : Resting b m :=
  ⟨fun k hk => h.running k (hm.trans hk), fun k hk => h.rests k (hm.trans hk)⟩

theorem Resting.exists_added (h : Resting b N) (hn : 0 < n)
    (hfair : b.StronglyFair PooledEvent.pushes) :
    ∃ M, N ≤ M ∧ ∀ m, M ≤ m → (b.state m).adding = none := by
  have hfirst : ∃ M, N ≤ M ∧ (b.state M).adding = none := by
    by_contra hnever
    push Not at hnever
    obtain ⟨m, hm, hpush⟩ := hfair N fun m hm => by
      obtain ⟨t, hadd⟩ := Option.ne_none_iff_exists'.mp (hnever m hm)
      exact ⟨m, le_rfl, .push ⟨0, hn⟩ t, _, trivial, .push _ hadd⟩
    exact hnever (m + 1) (by omega) ((h.rests m hm).added_of_pushes hpush)
  obtain ⟨M, hM, hadd⟩ := hfirst
  refine ⟨M, hM, ?_⟩
  intro m hm
  induction m, hm using Nat.le_induction with
  | base => exact hadd
  | succ m hm ih => exact (h.rests m (by omega)).added ih

theorem Resting.exec_none (h : Resting b N) (sub : Submittable code txns ts) (spec : LateGrant lm)
    (hfair : b.WeaklyFair (PooledEvent.ofWorker i)) (hm : N ≤ m) : (b.state m).exec i = none := by
  by_contra hsome
  obtain ⟨pc, hexec⟩ := Option.ne_none_iff_exists'.mp hsome
  have hstays : ∀ k, m ≤ k → (b.state k).exec i = some pc := by
    intro k hk
    induction k, hk using Nat.le_induction with
    | base => exact hexec
    | succ k hk ih =>
      rw [(h.rests k (by omega)).exec]
      exact ih
  obtain ⟨k, hk, hact⟩ := hfair m fun k hk => exec_enabled sub spec (b.run k) (hstays k hk)
  have hnone := (h.rests k (by omega)).exec_none hact
  rw [hstays k hk] at hnone
  cases hnone

section Lanes
variable (h : Resting b N) (hadd : ∀ m, N ≤ m → (b.state m).adding = none)
  (hexec : ∀ m, N ≤ m → (b.state m).exec i = none)
include h hadd

theorem Resting.queue (hm : N ≤ m) : ((b.state m).lanes i).queue = ((b.state N).lanes i).queue := by
  induction m, hm using Nat.le_induction with
  | base => rfl
  | succ m hm ih => exact ((h.rests m hm).queue (hadd m hm)).trans ih

include hexec

theorem Resting.next_lane (hfair : b.WeaklyFair (PooledEvent.ofWorker i)) (hm : N ≤ m) :
    ∃ k, m ≤ k ∧ ∃ w, WorkerStep false ((b.state m).lanes i) w ((b.state (k + 1)).lanes i) ∧
      w.started = [] := by
  obtain ⟨k, hk, hact, hsame⟩ := hfair.first (fun p => p.lanes i) (n := m)
    (fun k hk => lane_enabled (b.run k) (h.running k (by omega)) (hexec k (by omega)))
    fun k hk hnot =>
      (((h.rests k (by omega)).lane (hadd k (by omega))).resolve_right fun hact => hnot hact.1).2
  obtain ⟨_, hpool, _⟩ := running_not_stopped (b.run k) (h.running k (by omega))
  obtain ⟨_, w, hl, hw⟩ := ((h.rests k (by omega)).lane (hadd k (by omega))).resolve_left
    fun hnot => hnot.1 hact
  rw [hpool] at hl
  rw [hsame] at hl
  exact ⟨k, hk, w, hl, hw⟩

/-- Worker `i` tries its queue again and again. -/
theorem Resting.exists_polling (hfair : b.WeaklyFair (PooledEvent.ofWorker i)) (hm : N ≤ m) :
    ∃ k, m ≤ k ∧ ((b.state k).lanes i).worker = .polling := by
  have hchecking : ∀ m, N ≤ m → ((b.state m).lanes i).worker = .checking →
      ∃ k, m ≤ k ∧ ((b.state k).lanes i).worker = .polling := by
    intro m hm hpc
    obtain ⟨k, hk, w, hl, _⟩ := h.next_lane hadd hexec hfair hm
    refine ⟨k + 1, by omega, ?_⟩
    generalize (b.state m).lanes i = l at hl hpc
    generalize (b.state (k + 1)).lanes i = l' at hl
    cases hl with
    | goOn hs => rfl
    | seeStop hs => cases hs
    | _ => cases hpc
  cases hpc : ((b.state m).lanes i).worker with
  | polling => exact ⟨m, le_rfl, hpc⟩
  | checking => exact hchecking m hm hpc
  | executing u =>
    obtain ⟨k, hk, w, hl, _⟩ := h.next_lane hadd hexec hfair hm
    have hnext : ((b.state (k + 1)).lanes i).worker = .checking := by
      generalize (b.state m).lanes i = l at hl hpc
      generalize (b.state (k + 1)).lanes i = l' at hl
      cases hl with
      | finish => rfl
      | _ => cases hpc
    obtain ⟨j, hj, hpoll⟩ := hchecking (k + 1) (by omega) hnext
    exact ⟨j, by omega, hpoll⟩
  | _ =>
    obtain ⟨_, _, hsaw⟩ := running_not_stopped (b.run m) (h.running m hm)
    exact absurd (show ((b.state m).lanes i).worker.sawStop by rw [hpc]; trivial) (hsaw i)

theorem Resting.queue_empty (hfair : b.WeaklyFair (PooledEvent.ofWorker i))
    (hpops : b.StronglyFair (PooledEvent.pops i)) : ((b.state N).lanes i).queue = [] := by
  by_contra hne
  obtain ⟨t, q, hq⟩ := List.exists_cons_of_ne_nil hne
  obtain ⟨m, hm, hpop⟩ := hpops N fun m hm => by
    obtain ⟨k, hk, hpc⟩ := h.exists_polling hadd hexec hfair hm
    have hl : (b.state k).lanes i = ⟨t :: q, .polling⟩ := by
      rw [← hpc, ← hq, ← h.queue hadd (by omega : N ≤ k)]
    have hstep : WorkerStep (b.state k).poolStopped ((b.state k).lanes i) (.start t)
        ⟨q, .executing t⟩ := hl ▸ .popNonBlocking
    exact ⟨k, hk, .work i (.start t), _, rfl, .work i hstep (hexec k (by omega))⟩
  exact (h.rests m hm).not_pops hpop

end Lanes

theorem Resting.exists_empty (h : Resting b N) (hn : 0 < n) (spec : LateGrant lm)
    (sub : Submittable code txns ts) (hfair : Pooled.Fair b) :
    ∃ M, N ≤ M ∧ ∀ m, M ≤ m → (b.state m).adding = none ∧
      Runs code txns storage ts (pooledEvents (b.events m))
        ((b.state m).front.withTasks [] []) := by
  obtain ⟨M, hM, hadd⟩ := h.exists_added hn hfair.pushes
  have hexec : ∀ i m, M ≤ m → (b.state m).exec i = none := fun i m hm =>
    h.exec_none sub spec (hfair.workers i) (by omega)
  refine ⟨M, hM, ?_⟩
  intro m hm
  obtain ⟨pool, running, hholds, hrun⟩ := refines_scheduler (b.run m)
  have hqueue : ∀ i, ((b.state m).lanes i).queue = [] := fun i =>
    (h.mono (by omega : N ≤ m)).queue_empty (fun k hk => hadd k (by omega))
      (fun k hk => hexec i k (by omega)) (hfair.workers i) (hfair.pops i)
  obtain ⟨rfl, rfl⟩ := hholds.eq_nil (hadd m hm) hqueue fun i => hexec i m hm
  exact ⟨hadd m hm, hrun⟩

theorem Resting.next_poll (h : Resting b N) (spec : LateGrant lm) (sub : Submittable code txns ts)
    (hadd : ∀ m, N ≤ m → (b.state m).adding = none)
    (hfair : b.WeaklyFair PooledEvent.ofScheduler) (hm : N ≤ m) :
    ∃ k, m ≤ k ∧ Polls (b.state m).front (b.state (k + 1)).front := by
  obtain ⟨k, hk, hact, hsame⟩ := hfair.first (fun p => p.front) (n := m)
    (fun k hk => scheduler_enabled sub spec (b.run k) (h.running k (by omega)) (hadd k (by omega)))
    fun k hk hnot => ((h.rests k (by omega)).front (hadd k (by omega))).1 hnot
  refine ⟨k, hk, ?_⟩
  rw [← hsame]
  exact ((h.rests k (by omega)).front (hadd k (by omega))).2 hact

end Resting

/-- On the real thread pool with at least one worker, and with any lock manager that does what is
documented, every request gets its result if every thread goes on and no `TryLock` fails for
ever, unless the processor is stopped; all but a bounded number of the statements are polling. -/
theorem pooled_requests_complete (doc : Documented lm ccMode) (sub : Submittable code txns ts)
    (hn : 0 < n) (b : Behaviour (PooledStep code) (Pooled.init lm n txns storage ts)) :
    (∀ m, (b.events m).countP PooledEvent.working ≤ budget code ts) ∧
    (Pooled.Fair b → ∀ k t, b.event k = .front (.request t) →
      ∃ m, k ≤ m ∧ ((b.state m).front.stopped = true ∨
        ((t ∈ (b.state m).front.txnResults ∨ t ∈ (b.state m).front.handed) ∧
          (((b.state m).front.txns t).status = .committed ∨
            ((b.state m).front.txns t).status = .aborted)))) := by
  refine ⟨fun m => pooled_working_le doc.lateGrant sub (b.run m), ?_⟩
  intro hfair k t ht
  by_cases hstop : ∃ m, k ≤ m ∧ (b.state m).front.stopped = true
  · obtain ⟨m, hm, hs⟩ := hstop
    exact ⟨m, hm, .inl hs⟩
  · push Not at hstop
    obtain ⟨N, hN, hrest⟩ := eventually_resting (k := k + 1) doc.lateGrant sub
      fun m hm => Bool.eq_false_iff.mpr (hstop m (by omega))
    obtain ⟨M, hM, hempty⟩ := hrest.exists_empty hn doc.lateGrant sub hfair
    -- the scheduler polls, and finds nothing
    obtain ⟨_, ⟨m, hm, rfl⟩, htop, hreq, hcomp⟩ := Polls.exists_idle
      (R := fun s => ∃ m, M ≤ m ∧ (b.state m).front = s) (s := (b.state M).front)
      (by
        rintro _ ⟨m, hm, rfl⟩
        obtain ⟨j, hj, hpoll⟩ := (hrest.mono hM).next_poll doc.lateGrant sub
          (fun m hm => (hempty m hm).1) hfair.scheduler hm
        exact ⟨_, ⟨j + 1, by omega, rfl⟩, hpoll⟩) ⟨M, le_rfl, rfl⟩
    have hrun := (hempty m hm).2
    have hrequested : t ∈ requested (pooledEvents (b.events m)) := by
      rw [mem_requested]
      refine List.mem_filterMap.mpr ⟨.front (.request t), ?_, rfl⟩
      rw [← ht]
      exact b.mem_events (by omega)
    have hdone := ended_of_idle doc sub hrun htop hreq hcomp
      (fun u _ => ⟨List.not_mem_nil, fun _ => List.not_mem_nil⟩) hrequested
    have hts := (admitted_of_run sub.nodup hrun).mem_ts hrequested
    have hstatus := status_of_ended doc.lateGrant sub hrun hts hdone
    exact ⟨m, by omega, .inr ⟨hdone, hstatus⟩⟩

/-- The places of a worker's loop, over and over. -/
def workerPoll : Nat → WorkerPc TxnPtr
  | 0 => .polling
  | 1 => .checking
  | n + 2 => workerPoll n

theorem workerPoll_step (k : Nat) :
    WorkerStep false ⟨[], workerPoll k⟩ .skip ⟨[], workerPoll (k + 1)⟩ := by
  induction k using workerPoll.induct with
  | case1 => exact .popFails
  | case2 => exact .goOn rfl
  | case3 k ih => exact ih

/-- The scheduler after `i` statements of polling, and worker `w` after `js w`. -/
def Pooled.poll (p : Pooled lm n) (i : Nat) (js : Fin n → Nat) : Pooled lm n :=
  { p with
    front := { p.front with sched := .poll i }
    lanes := fun w => ⟨[], workerPoll (js w)⟩ }

section Poll
variable {p : Pooled lm n}

theorem poll_scheduler (h : p.front.Empty) (hadd : p.adding = none) (i : Nat) (js : Fin n → Nat) :
    PooledStep code (p.poll i js) (.front .tau) (p.poll (i + 1) js) :=
  .front (h.step i) rfl (.inl hadd)

theorem poll_worker (hexec : ∀ w, p.exec w = none) (hstop : p.poolStopped = false) (i : Nat)
    (js : Fin n → Nat) (w : Fin n) : PooledStep code (p.poll i js) (.work w .skip)
      (p.poll i (Function.update js w (js w + 1))) := by
  have hl : WorkerStep (p.poll i js).poolStopped ⟨[], workerPoll (js w)⟩ .skip
      ⟨[], workerPoll (js w + 1)⟩ := by
    show WorkerStep p.poolStopped _ _ _
    rw [hstop]
    exact workerPoll_step (js w)
  have hstep : PooledStep code (p.poll i js) _ _ := worker_skips w (hexec w) rfl hl
  have hlanes : Function.update (p.poll i js).lanes w ⟨[], workerPoll (js w + 1)⟩ =
      (p.poll i (Function.update js w (js w + 1))).lanes :=
    (Function.comp_update (fun k => (⟨[], workerPoll k⟩ : Lane TxnPtr)) js w (js w + 1)).symm
  rw [hlanes] at hstep
  exact hstep

end Poll

def turn (n m : Nat) : Option (Fin n) :=
  if h : m % (n + 1) < n then some ⟨m % (n + 1), h⟩ else none

def turns (n : Nat) : Nat → Nat × (Fin n → Nat)
  | 0 => (0, fun _ => 0)
  | m + 1 => match turn n m with
    | none => ((turns n m).1 + 1, (turns n m).2)
    | some w => ((turns n m).1, Function.update (turns n m).2 w ((turns n m).2 w + 1))

theorem exists_turn (n m : Nat) (w : Option (Fin n)) : ∃ k, m ≤ k ∧ turn n k = w := by
  have hle : m ≤ (n + 1) * m := Nat.le_mul_of_pos_left m (Nat.succ_pos n)
  cases w with
  | none =>
    refine ⟨(n + 1) * m + n, by omega, dif_neg ?_⟩
    rw [Nat.mul_add_mod, Nat.mod_eq_of_lt (Nat.lt_succ_self n)]
    exact Nat.lt_irrefl n
  | some w =>
    have hmod : ((n + 1) * m + w) % (n + 1) = w := by
      rw [Nat.mul_add_mod, Nat.mod_eq_of_lt (by omega)]
    refine ⟨(n + 1) * m + w, by omega, ?_⟩
    simp [turn, hmod]

def turnEvent : Option (Fin n) → PooledEvent n
  | none => .front .tau
  | some w => .work w .skip

/-- With nothing to do the scheduler and the workers take turns. -/
theorem exists_pooled_fair {p₀ : Pooled lm n} (h : Run (PooledStep code) p₀ tr p)
    (htop : p.front.sched = .top) (hs : p.front.Empty) (hadd : p.adding = none)
    (hexec : ∀ i, p.exec i = none) (hlanes : ∀ i, p.lanes i = ⟨[], .polling⟩)
    (hstop : p.poolStopped = false) :
    ∃ b : Behaviour (PooledStep code) p₀, b.events tr.length = tr ∧
      b.WeaklyFair PooledEvent.ofScheduler ∧ (∀ i, b.WeaklyFair (PooledEvent.ofWorker i)) ∧
      b.StronglyFair PooledEvent.pushes ∧ ∀ i, b.StronglyFair (PooledEvent.pops i) := by
  have hstart : p.poll 0 (fun _ => 0) = p := by
    obtain ⟨front, adding, lanes, exec, stopped, dtor, destroyed⟩ := p
    have hl : lanes = fun _ => ⟨[], .polling⟩ := funext hlanes
    have hf : { front with sched := SchedPc.top } = front := by
      have htop : front.sched = .top := htop
      rw [← htop]
    simp only [Pooled.poll, SchedPc.poll, workerPoll, hl, hf]
  obtain ⟨b, hev, hrest, hweak, hstrong⟩ := Behaviour.exists_of_run h
    { state := fun m => p.poll (turns n m).1 (turns n m).2
      event := fun m => turnEvent (turn n m)
      start := hstart
      step := fun m => by
        rw [turns]
        cases turn n m with
        | none => exact poll_scheduler hs hadd _ _
        | some w => exact poll_worker hexec hstop _ _ w }
  refine ⟨b, hev, hweak _ ?_, fun i => hweak _ ?_, hstrong _ ?_, fun i => hstrong _ ?_⟩
  · intro m _
    obtain ⟨k, hk, hturn⟩ := exists_turn n m none
    refine ⟨k, hk, ?_⟩
    show PooledEvent.ofScheduler (turnEvent (turn n k))
    rw [hturn]
    rfl
  · intro m _
    obtain ⟨k, hk, hturn⟩ := exists_turn n m (some i)
    refine ⟨k, hk, ?_⟩
    show PooledEvent.ofWorker i (turnEvent (turn n k))
    rw [hturn]
    rfl
  · intro m hen
    obtain ⟨k, _, e, p', he, hstep⟩ := hen m le_rfl
    cases hstep with
    | push i hadd' =>
      rw [show p.adding = some _ from hadd'] at hadd
      cases hadd
    | _ => exact he.elim
  · intro m hen
    obtain ⟨k, _, e, p', he, hstep⟩ := hen m le_rfl
    cases hstep with
    | @work w l j hl _ =>
      cases w with
      | start u => exact absurd hl.queue_eq (List.cons_ne_nil _ _).symm
      | _ => exact he.elim
    | _ => exact he.elim

/-- Two workers, and two transactions of which the second one waits for the first one. -/
theorem pooled_requests_complete_rmw :
    ∃ b : Behaviour (PooledStep fun _ => rmw (.singleton 5) (.singleton 6))
      (Pooled.init (queueLockManager .locking) 2 (fun _ => ⟨unrun .empty, 0, 0⟩)
        ⟨fun _ => some 2⟩ [0, 1]),
    (∃ k, b.event k = .front (.release 0 6 [1])) ∧
    ∀ t ∈ [0, 1], ∃ k, b.event k = .front (.request t) ∧
      ∃ m, k ≤ m ∧ ((b.state m).front.stopped = true ∨
        ((t ∈ (b.state m).front.txnResults ∨ t ∈ (b.state m).front.handed) ∧
          (((b.state m).front.txns t).status = .committed ∨
            ((b.state m).front.txns t).status = .aborted))) := by
  obtain ⟨tr, p, h, htop, hs, hadd, hexec, hlanes, hstop, _, _, hreq, hrelease⟩ := pooled_rmw_run
  obtain ⟨b, hev, hscheduler, hworkers, hpushes, hpops⟩ :=
    exists_pooled_fair h htop hs hadd hexec hlanes hstop
  have hevent : ∀ e ∈ tr, ∃ k, b.event k = e := by
    intro e he
    rw [← hev] at he
    obtain ⟨k, _, hk⟩ := List.mem_map.mp he
    exact ⟨k, hk⟩
  refine ⟨b, hevent _ hrelease, ?_⟩
  intro t ht
  obtain ⟨k, hk⟩ := hevent _ (hreq t ht).1
  exact ⟨k, hk, (pooled_requests_complete (queueDocumented .locking) (rmw_submittable (by decide))
    Nat.two_pos b).2 ⟨hscheduler, hworkers, hpushes, hpops⟩ k t hk⟩

end Cmsc624.A2
