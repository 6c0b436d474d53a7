import Cmsc624.A2.LockingScheduler
import Cmsc624.A2.SerialScheduler

/-!
# From the constructor of a TxnProcessor to its destructor

The constructor starts the scheduler thread and goes on: `stopped_ = false` comes after
`pthread_create`. The thread runs the loop that the `switch` of `RunScheduler` has for the
mode; there is no case for MVCC_SSI.
-/

namespace Cmsc624.A2

open Lib

set_option autoImplicit false

inductive CtorPc where
  -- Before `stopped_ = false`.
  | created
  -- Before `scheduler_thread_ = scheduler_`.
  | unstopped
  | returned
  deriving DecidableEq

/-- Where the thread of `StartScheduler` is. -/
inductive ThreadPc where
  -- Before `switch (mode_)`.
  | starting
  -- At `while (!stopped_)` of `RunSerialScheduler`, and behind it.
  | serialTop
  | serialBody
  -- In `RunLockingScheduler`.
  | locking
  -- `RunScheduler` has returned.
  | returned
  deriving DecidableEq

def ThreadPc.runSerialScheduler : ThreadPc := .serialTop

def ThreadPc.runLockingScheduler : ThreadPc := .locking

def ThreadPc.runOCCScheduler : ThreadPc := .runSerialScheduler

def ThreadPc.runOCCParallelScheduler : ThreadPc := .runSerialScheduler

def ThreadPc.runMVCCScheduler : ThreadPc := .runSerialScheduler

/-- The switch of `RunScheduler`. -/
def CCMode.runScheduler : CCMode → ThreadPc
  | .serial => .runSerialScheduler
  | .locking => .runLockingScheduler
  | .lockingExclusiveOnly => .runLockingScheduler
  | .occ => .runOCCScheduler
  | .pOcc => .runOCCParallelScheduler
  | .mvcc => .runMVCCScheduler
  | .mvccSsi => .returned

namespace Processor

/-- A read of `MVCCStorage`, a stub that returns true and leaves the result as it was. -/
def readUnset (garbage : Key → Value) (t : TxnPtr) (p : Processor) (k : Key) : Processor :=
  p.modifyTxn t fun x => { x with reads := x.reads.insert k (garbage k) }

/-- `commitOrAbort` over `MVCCStorage`, whose `Write` is empty. -/
def commitOrAbortUnwritten (p : Processor) (t : TxnPtr) : Option Processor :=
  match (p.txns t).status with
  | .completedC => some ((p.pushCommitted t).setStatus t .committed)
  | .completedA => some (p.setStatus t .aborted)
  | _ => none

/-- `serialBody` over `MVCCStorage`. -/
def mvccBody (code : TxnPtr → TxnCode) (garbage : Key → Value) (t : TxnPtr) (p : Processor) :
    Option Processor :=
  ((((code t).keys.foldl (readUnset garbage t) (p.recordStart t)).runTxn (code t) t).bind
    fun p => (p.pushCompleted t).commitOrAbortUnwritten t).map fun p => p.pushResult t

/-- The body of the serial loop over the store that the constructor creates for the mode. -/
def modeBody (mode : CCMode) (code : TxnPtr → TxnCode) (garbage : Key → Value) (t : TxnPtr)
    (p : Processor) : Option Processor :=
  if mode = .mvcc ∨ mode = .mvccSsi then mvccBody code garbage t p else serialBody code t p

section Stopped
variable {p p' : Processor} {t : TxnPtr} {c : TxnCode} {code : TxnPtr → TxnCode}

theorem runTxn_stopped (h : p.runTxn c t = some p') : p'.stopped = p.stopped := by
  obtain ⟨_, _, rfl⟩ := runTxn_eq_some.mp h
  rfl

theorem commitOrAbort_stopped (h : p.commitOrAbort t = some p') : p'.stopped = p.stopped := by
  unfold commitOrAbort at h
  split at h
  · obtain rfl := Option.some.inj h
    rw [applyWrites_eq]
    rfl
  · obtain rfl := Option.some.inj h
    rfl
  · cases h

theorem commitOrAbortUnwritten_stopped (h : p.commitOrAbortUnwritten t = some p') :
    p'.stopped = p.stopped := by
  unfold commitOrAbortUnwritten at h
  split at h
  · obtain rfl := Option.some.inj h
    rfl
  · obtain rfl := Option.some.inj h
    rfl
  · cases h

theorem serialBody_stopped (h : serialBody code t p = some p') : p'.stopped = p.stopped := by
  unfold serialBody executeTxn at h
  obtain ⟨p₂, h₂, rfl⟩ := Option.map_eq_some_iff.mp h
  obtain ⟨p₁, h₁, h₂⟩ := Option.bind_eq_some_iff.mp h₂
  obtain ⟨p₀, h₀, rfl⟩ := Option.map_eq_some_iff.mp h₁
  have hrun := runTxn_stopped h₀
  rw [foldl_readKey] at hrun
  exact (commitOrAbort_stopped h₂).trans hrun

theorem foldl_readUnset_stopped (garbage : Key → Value) (ks : List Key) (p : Processor) :
    (ks.foldl (readUnset garbage t) p).stopped = p.stopped := by
  induction ks generalizing p with
  | nil => rfl
  | cons k ks ih =>
    rw [List.foldl_cons, ih]
    rfl

theorem mvccBody_stopped {garbage : Key → Value} (h : mvccBody code garbage t p = some p') :
    p'.stopped = p.stopped := by
  unfold mvccBody at h
  obtain ⟨p₂, h₂, rfl⟩ := Option.map_eq_some_iff.mp h
  obtain ⟨p₁, h₁, h₂⟩ := Option.bind_eq_some_iff.mp h₂
  have hrun := runTxn_stopped h₁
  rw [foldl_readUnset_stopped] at hrun
  exact (commitOrAbortUnwritten_stopped h₂).trans hrun

/-- No pass of the serial loop touches the flag. -/
theorem modeBody_stopped {mode : CCMode} {garbage : Key → Value}
    (h : modeBody mode code garbage t p = some p') : p'.stopped = p.stopped := by
  unfold modeBody at h
  split at h
  · exact mvccBody_stopped h
  · exact serialBody_stopped h

end Stopped

end Processor

/-- A processor with its constructor, its scheduler thread and its destructor. -/
structure Startup (lm : LockManager) where
  mode : CCMode
  proc : State lm
  ctor : CtorPc
  thread : ThreadPc
  -- The destructor has set `stopped_`.
  stopping : Bool

def Startup.init (lm : LockManager) (mode : CCMode) (stopped : Bool) (txns : TxnPtr → Txn)
    (storage : Storage) (clients : List TxnPtr) : Startup lm where
  mode := mode
  proc := { State.init lm txns storage clients with stopped := stopped }
  ctor := .created
  thread := .starting
  stopping := false

def Event.byClient : Event → Bool
  | .request _ => true
  | .result _ => true
  | _ => false

inductive StartupEvent where
  | unstop
  | construct
  | dispatch
  -- The serial loop tests `stopped_`.
  | test
  | pass
  | locking (e : Event)
  | leave
  | client (e : Event)
  | stop

variable {lm : LockManager} (code : TxnPtr → TxnCode)

inductive StartupStep : Startup lm → StartupEvent → Startup lm → Prop where
  | unstop {s : Startup lm} (hctor : s.ctor = .created) :
      StartupStep s .unstop
        { s with proc := { s.proc with stopped := false }, ctor := .unstopped }
  | construct {s : Startup lm} (hctor : s.ctor = .unstopped) :
      StartupStep s .construct { s with ctor := .returned }
  | dispatch {s : Startup lm} (hpc : s.thread = .starting) :
      StartupStep s .dispatch { s with thread := s.mode.runScheduler }
  | leave {s : Startup lm} (hpc : s.thread = .serialTop) (hs : s.proc.stopped = true) :
      StartupStep s .test { s with thread := .returned }
  | enter {s : Startup lm} (hpc : s.thread = .serialTop) (hs : s.proc.stopped = false) :
      StartupStep s .test { s with thread := .serialBody }
  | noRequest {s : Startup lm} (hpc : s.thread = .serialBody) (hq : s.proc.txnRequests = []) :
      StartupStep s .pass { s with thread := .serialTop }
  | pass {s : Startup lm} {t : TxnPtr} {q : List TxnPtr} {garbage : Key → Value} {p : Processor}
      (hpc : s.thread = .serialBody) (hq : s.proc.txnRequests = t :: q)
      (hp : Processor.modeBody s.mode code garbage t
        { s.proc.toProcessor with txnRequests := q } = some p) :
      StartupStep s .pass
        { s with proc := { s.proc with toProcessor := p }, thread := .serialTop }
  -- A statement of `RunLockingScheduler` or of a worker.
  | locking {s : Startup lm} {e : Event} {proc : State lm} (hpc : s.thread = .locking)
      (h : Step code s.proc e proc) (he : e.byClient = false) (hne : e ≠ .stop) :
      StartupStep s (.locking e) { s with proc := proc }
  | lockingReturns {s : Startup lm} (hpc : s.thread = .locking)
      (hs : s.proc.sched = .returned) : StartupStep s .leave { s with thread := .returned }
  -- Clients and the destructor have the object when the constructor has returned.
  | client {s : Startup lm} {e : Event} {proc : State lm} (hctor : s.ctor = .returned)
      (h : Step code s.proc e proc) (he : e.byClient = true) :
      StartupStep s (.client e) { s with proc := proc }
  | stop {s : Startup lm} (hctor : s.ctor = .returned) (hs : s.stopping = false) :
      StartupStep s .stop { s with proc := { s.proc with stopped := true }, stopping := true }

def Startup.AtTest (s : Startup lm) : Prop :=
  s.thread = .serialTop ∨ s.thread = .locking ∧ s.proc.sched = .top

def StartupEvent.byScheduler : StartupEvent → Bool
  | .test => true
  | .locking _ => true
  | _ => false

/-- The mode has a case in the switch, and the loop is not tested before the constructor has
assigned the flag, unless that happens to be false already. -/
def TimelyStep (s : Startup lm) (e : StartupEvent) (s' : Startup lm) : Prop :=
  StartupStep code s e s' ∧ (e = .dispatch → s.mode ≠ .mvccSsi) ∧
    (e.byScheduler = true → s.AtTest → s.ctor ≠ .created ∨ s.proc.stopped = false)

variable {code}

section Startup
variable {txns : TxnPtr → Txn} {storage : Storage} {clients : List TxnPtr} {mode : CCMode}
  {stopped : Bool} {tr : List StartupEvent} {s s' : Startup lm} {e : StartupEvent}

theorem step_stopped {p p' : State lm} {e : Event} (h : Step code p e p') (hne : e ≠ .stop) :
    p'.stopped = p.stopped ∧ (p'.sched = .returned → p.sched = .returned ∨
      p.sched = .top ∧ p.stopped = true ∧ e.byClient = false) := by
  cases h with
  | request _ hp =>
    obtain ⟨_, rfl⟩ := Processor.newTxnRequest_eq_some.mp hp
    exact ⟨rfl, Or.inl⟩
  | run _ hp =>
    have hstopped := Processor.runTxn_stopped hp
    exact ⟨hstopped, Or.inl⟩
  | stop => exact absurd rfl hne
  | leave hpc hs => exact ⟨rfl, fun _ => Or.inr ⟨hpc, hs, rfl⟩⟩
  | result _ | start _ | size _ | read _ | complete _ => exact ⟨rfl, Or.inl⟩
  | dispatch hpc _ => exact ⟨rfl, Or.inl⟩
  | _ => exact ⟨rfl, fun h => by cases h⟩

/-- The scheduler is alive, and as soon as the constructor has assigned the flag it is false. -/
structure Alive (s : Startup lm) : Prop where
  flag : s.ctor ≠ .created → s.proc.stopped = false
  thread : s.thread ≠ .returned
  sched : s.proc.sched ≠ .returned

theorem CCMode.runScheduler_ne (h : mode ≠ .mvccSsi) : mode.runScheduler ≠ .returned := by
  cases mode with
  | mvccSsi => exact absurd rfl h
  | serial | lockingExclusiveOnly | locking | occ | pOcc | mvcc => exact ThreadPc.noConfusion

theorem Alive.step (h : Alive s) (hstep : TimelyStep code s e s') (hs : s'.stopping = false) :
    Alive s' := by
  obtain ⟨hstep, hmode, htest⟩ := hstep
  have hflag : s.AtTest → e.byScheduler = true → s.proc.stopped = false := by
    intro hat he
    rcases htest he hat with hctor | hfalse
    · exact h.flag hctor
    · exact hfalse
  cases hstep with
  | unstop hctor => exact ⟨fun _ => rfl, h.thread, h.sched⟩
  | construct hctor =>
    refine ⟨fun _ => h.flag ?_, h.thread, h.sched⟩
    rw [hctor]
    exact CtorPc.noConfusion
  | dispatch hpc => exact ⟨h.flag, CCMode.runScheduler_ne (hmode rfl), h.sched⟩
  | leave hpc htrue =>
    have hfalse := hflag (Or.inl hpc) rfl
    rw [htrue] at hfalse
    cases hfalse
  | enter hpc _ | noRequest hpc _ => exact ⟨h.flag, ThreadPc.noConfusion, h.sched⟩
  | pass hpc hq hp =>
    have hstopped := Processor.modeBody_stopped hp
    exact ⟨fun hctor => hstopped.trans (h.flag hctor), ThreadPc.noConfusion, h.sched⟩
  | locking hpc hproc he hne =>
    obtain ⟨hstopped, hsched⟩ := step_stopped hproc hne
    refine ⟨fun hctor => hstopped.trans (h.flag hctor), h.thread, ?_⟩
    intro hret
    rcases hsched hret with hret | ⟨htop, htrue, _⟩
    · exact h.sched hret
    · have hfalse := hflag (Or.inr ⟨hpc, htop⟩) rfl
      rw [htrue] at hfalse
      cases hfalse
  | lockingReturns hpc hret => exact absurd hret h.sched
  | client hctor hproc he =>
    have hne : ∀ {e : Event}, e.byClient = true → e ≠ .stop := by
      intro e he hstop
      subst hstop
      cases he
    obtain ⟨hstopped, hsched⟩ := step_stopped hproc (hne he)
    refine ⟨fun hctor => hstopped.trans (h.flag hctor), h.thread, ?_⟩
    intro hret
    rcases hsched hret with hret | ⟨_, _, hby⟩
    · exact h.sched hret
    · rw [he] at hby
      cases hby
  | stop hctor _ => cases hs

theorem stopping_of_step (hstep : StartupStep code s e s') (hs : s'.stopping = false) :
    s.stopping = false := by
  cases hstep with
  | stop _ _ => cases hs
  | _ => exact hs

theorem alive_of_timely
    (h : Run (TimelyStep code) (Startup.init lm mode stopped txns storage clients) tr s)
    (hs : s.stopping = false) : Alive s := by
  revert hs
  apply h.stateInvariant (I := fun s => s.stopping = false → Alive s)
  · exact fun _ => ⟨fun hctor => absurd rfl hctor, ThreadPc.noConfusion, SchedPc.noConfusion⟩
  · intro s e s' halive hstep hs'
    exact (halive (stopping_of_step hstep.1 hs')).step hstep hs'

/-- Until the constructor assigns the flag it has its first content. -/
theorem untouched_of_run
    (h : Run (StartupStep code) (Startup.init lm mode stopped txns storage clients) tr s) :
    s.mode = mode ∧ (s.ctor = .created → s.proc.stopped = stopped) := by
  apply h.stateInvariant
    (I := fun s => s.mode = mode ∧ (s.ctor = .created → s.proc.stopped = stopped))
  · exact ⟨rfl, fun _ => rfl⟩
  · rintro s e s' ⟨hmode, hflag⟩ hstep
    cases hstep with
    | unstop _ | construct _ => exact ⟨hmode, fun hctor => by cases hctor⟩
    | dispatch _ | leave _ _ | enter _ _ | noRequest _ _ | lockingReturns _ _ =>
      exact ⟨hmode, hflag⟩
    | pass _ _ hp => exact ⟨hmode, fun hctor => (Processor.modeBody_stopped hp).trans (hflag hctor)⟩
    | locking _ hproc _ hne =>
      exact ⟨hmode, fun hctor => (step_stopped hproc hne).1.trans (hflag hctor)⟩
    | client hreturned _ _ | stop hreturned _ =>
      refine ⟨hmode, fun hctor => ?_⟩
      rw [hreturned] at hctor
      cases hctor

theorem timely_of_run (hmode : mode ≠ .mvccSsi)
    (h : Run (StartupStep code) (Startup.init lm mode false txns storage clients) tr s) :
    Run (TimelyStep code) (Startup.init lm mode false txns storage clients) tr s := by
  induction h with
  | nil => exact .nil
  | @snoc tr s s' e hr hstep ih =>
    obtain ⟨hsame, hflag⟩ := untouched_of_run hr
    refine ih.snoc ⟨hstep, fun _ => hsame ▸ hmode, fun _ _ => ?_⟩
    by_cases hctor : s.ctor = .created
    · exact Or.inr (hflag hctor)
    · exact Or.inl hctor

/-- The thread is faster than the constructor, or the mode has no loop. -/
theorem returned_early (code : TxnPtr → TxnCode) (lm : LockManager) (txns : TxnPtr → Txn)
    (storage : Storage) (clients : List TxnPtr) (h : mode = .mvccSsi ∨ stopped = true) : ∃ tr s,
    Run (StartupStep code) (Startup.init lm mode stopped txns storage clients) tr s ∧
      s.stopping = false ∧ s.thread = .returned := by
  have run : Run (StartupStep code) (Startup.init lm mode stopped txns storage clients) _ _ :=
    .single (.dispatch rfl)
  cases mode with
  | mvccSsi => exact ⟨_, _, run, rfl, rfl⟩
  | serial | occ | pOcc | mvcc =>
    have hstopped := h.resolve_left CCMode.noConfusion
    exact ⟨_, _, run.snoc (.leave rfl hstopped), rfl, rfl⟩
  | locking | lockingExclusiveOnly =>
    have hstopped := h.resolve_left CCMode.noConfusion
    exact ⟨_, _, (run.snoc (.locking rfl (.leave rfl hstopped) rfl Event.noConfusion)).snoc
      (.lockingReturns rfl rfl), rfl, rfl⟩

/-- The scheduler stays until the destructor stops it, in all runs that never test the flag
before it is set and only in modes with a loop. -/
theorem scheduler_stays (code : TxnPtr → TxnCode) (lm : LockManager) (mode : CCMode)
    (stopped : Bool) (txns : TxnPtr → Txn) (storage : Storage) (clients : List TxnPtr) :
    (∀ {tr s}, Run (TimelyStep code) (Startup.init lm mode stopped txns storage clients) tr s →
      s.stopping = false → s.thread ≠ .returned) ∧
    ((∀ {tr s}, Run (StartupStep code) (Startup.init lm mode stopped txns storage clients) tr s →
      s.stopping = false → s.thread ≠ .returned) ↔ mode ≠ .mvccSsi ∧ stopped = false) := by
  refine ⟨fun h hs => (alive_of_timely h hs).thread, ?_⟩
  constructor
  · intro hall
    by_contra hnot
    have hbad : mode = .mvccSsi ∨ stopped = true := by
      by_cases hmode : mode = .mvccSsi
      · exact Or.inl hmode
      · cases stopped with
        | true => exact Or.inr rfl
        | false => exact absurd ⟨hmode, rfl⟩ hnot
    obtain ⟨tr, s, run, hs, hret⟩ := returned_early code lm txns storage clients hbad
    exact hall run hs hret
  · rintro ⟨hmode, rfl⟩ tr s h hs
    exact (alive_of_timely (timely_of_run hmode h) hs).thread

end Startup

/-- In the mode MVCC_SSI a request is accepted that nobody will take. -/
theorem request_stranded : ∃ tr, ∃ s : Startup stubLockManager,
    Run (StartupStep fun _ => noop) (Startup.init stubLockManager .mvccSsi false
      (fun _ => ⟨unrun .empty, 0, 0⟩) ⟨fun _ => none⟩ [0]) tr s ∧
    s.stopping = false ∧ s.proc.txnRequests = [0] ∧ s.thread = .returned := by
  have run : Run (StartupStep fun _ => noop) (Startup.init stubLockManager .mvccSsi false
    (fun _ => ⟨unrun .empty, 0, 0⟩) ⟨fun _ => none⟩ [0]) [] _ := .nil
  have run := run.snoc (.unstop rfl)
  have run := run.snoc (.construct rfl)
  have run := run.snoc (.client rfl (.request (a := []) rfl
    (Processor.newTxnRequest_eq_some.mpr ⟨by decide, rfl⟩)) rfl)
  have run := run.snoc (.dispatch rfl)
  exact ⟨_, _, run, rfl, rfl, rfl⟩

end Cmsc624.A2
