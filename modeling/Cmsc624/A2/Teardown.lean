import Cmsc624.A2.Completion

/-!
# The destructor of a TxnProcessor

The body of `~TxnProcessor` stops and joins the scheduler and deletes the lock manager
and the store; then the members are destroyed in the reverse order of their declaration.
The thread pool was declared first, so the workers are joined last, when everything that
`ExecuteTxn` uses is gone. A call of `ExecuteTxn` that is still queued or running by
then uses it.
-/

namespace Cmsc624.A2

open Lib

set_option autoImplicit false

/-- What the destructor destroys before the thread pool. -/
inductive Part where
  | lm
  | storage
  | activeSetMutex
  | activeSet
  | txnResults
  | committedTxns
  | completedTxns
  | readyTxns
  | txnRequests
  | mutex
  deriving DecidableEq

/-- The two `delete`s of the body, then the members in the reverse order of declaration. -/
def destructionOrder : List Part :=
  [.lm, .storage, .activeSetMutex, .activeSet, .txnResults, .committedTxns, .completedTxns,
    .readyTxns, .txnRequests, .mutex]

inductive DtorPc where
  | notBegun
  -- At `pthread_join(scheduler_thread_, NULL)`.
  | joining
  | destroying (rest : List Part)
  | done
  deriving DecidableEq

def DtorPc.joined : DtorPc → Prop
  | .destroying _ | .done => True
  | _ => False

structure Teardown (lm : LockManager) where
  proc : State lm
  pc : DtorPc
  destroyed : List Part

def Teardown.init (lm : LockManager) (txns : TxnPtr → Txn) (storage : Storage)
    (clients : List TxnPtr) : Teardown lm where
  proc := State.init lm txns storage clients
  pc := .notBegun
  destroyed := []

inductive TeardownEvent where
  | step (e : Event)
  | stop
  | join
  | destroy (part : Part)
  | joinWorkers

/-- What the step is for the processor. -/
def TeardownEvent.toEvent : TeardownEvent → Option Event
  | .step e => some e
  | .stop => some .stop
  | _ => none

def Event.uses : Event → List Part
  | .size _ _ => [.committedTxns]
  | .read _ _ _ => [.storage]
  | .complete _ => [.completedTxns]
  | _ => []

variable {lm : LockManager} (code : TxnPtr → TxnCode)

inductive TeardownStep : Teardown lm → TeardownEvent → Teardown lm → Prop where
  -- Setting `stopped_` is left to the destructor.
  | step {s : Teardown lm} {e : Event} {proc : State lm} (h : Step code s.proc e proc)
      (he : e ≠ .stop) : TeardownStep s (.step e) { s with proc := proc }
  | stop {s : Teardown lm} {proc : State lm} (hpc : s.pc = .notBegun)
      (h : Step code s.proc .stop proc) :
      TeardownStep s .stop { s with proc := proc, pc := .joining }
  | join {s : Teardown lm} (hpc : s.pc = .joining) (hs : s.proc.sched = .returned) :
      TeardownStep s .join { s with pc := .destroying destructionOrder }
  | destroy {s : Teardown lm} {part : Part} {rest : List Part}
      (hpc : s.pc = .destroying (part :: rest)) :
      TeardownStep s (.destroy part)
        { s with pc := .destroying rest, destroyed := s.destroyed ++ [part] }
  -- The destructor of `tp_`, which returns when all tasks have been executed.
  | joinWorkers {s : Teardown lm} (hpc : s.pc = .destroying []) (hp : s.proc.pool = [])
      (hr : s.proc.running = []) : TeardownStep s .joinWorkers { s with pc := .done }

/-- No statement of `ExecuteTxn` was executed after a member that it uses was destroyed. -/
def SafeForWorkers (tr : List TeardownEvent) : Prop :=
  ∀ tr₁ e tr₂, tr = tr₁ ++ TeardownEvent.step e :: tr₂ →
    ∀ part ∈ e.uses, TeardownEvent.destroy part ∉ tr₁

/-- A call of `ExecuteTxn` that is at `pc` has still to use the member. -/
def Part.neededAt (part : Part) (c : TxnCode) (pc : ExecPc) : Prop :=
  match part, pc with
  | .storage, .size => c.keys ≠ []
  | .storage, .reading rest => rest ≠ []
  | .committedTxns, .size => True
  | .completedTxns, _ => True
  | _, _ => False

/-- No call of `ExecuteTxn`, queued or running, has still to use the member. -/
def State.Unneeded (s : State lm) (part : Part) : Prop :=
  (∀ t ∈ s.pool, ¬part.neededAt (code t) .size) ∧
    ∀ x ∈ s.running, ¬part.neededAt (code x.1) x.2

/-- A step of a destructor that destroys nothing too early. -/
def CarefulStep (s : Teardown lm) (e : TeardownEvent) (s' : Teardown lm) : Prop :=
  TeardownStep code s e s' ∧ ∀ part, e = .destroy part → s.proc.Unneeded code part

/-- A step of a destructor whose caller has waited until no task is queued or running. -/
def IdleStep (s : Teardown lm) (e : TeardownEvent) (s' : Teardown lm) : Prop :=
  TeardownStep code s e s' ∧ (e = .join → s.proc.pool = [] ∧ s.proc.running = [])

def Teardown.CanUse (s : Teardown lm) (part : Part) : Prop :=
  ∃ tr e s', Run (TeardownStep code) s (tr ++ [.step e]) s' ∧ part ∈ e.uses

variable {code}

section Steps
variable {s s' : State lm} {e : Event} {part : Part} {c : TxnCode}

theorem neededAt_reading (h : part.neededAt c (.reading c.keys)) : part.neededAt c .size := by
  cases part with
  | storage => exact h
  | completedTxns => trivial
  | _ => exact h.elim

theorem neededAt_rest {k : Key} {rest : List Key} (h : part.neededAt c (.reading rest)) :
    part.neededAt c (.reading (k :: rest)) := by
  cases part with
  | storage => exact List.cons_ne_nil k rest
  | completedTxns => trivial
  | _ => exact h.elim

theorem neededAt_pushing (h : part.neededAt c .pushing) : part.neededAt c (.reading []) := by
  cases part with
  | completedTxns => trivial
  | _ => exact h.elim

theorem State.Unneeded.replace {a b : List (TxnPtr × ExecPc)} {t : TxnPtr} {pc pc' : ExecPc}
    (h : s.Unneeded code part) (hrun : s.running = a ++ (t, pc) :: b)
    (hneed : part.neededAt (code t) pc' → part.neededAt (code t) pc) (hpool : s'.pool = s.pool)
    (hrun' : s'.running = a ++ (t, pc') :: b) : s'.Unneeded code part := by
  refine ⟨fun u hu => h.1 u (hpool ▸ hu), fun x hx => ?_⟩
  rw [hrun'] at hx
  rcases List.mem_append.mp hx with hx | hx
  · apply h.2 x
    rw [hrun]
    exact List.mem_append_left _ hx
  · rcases List.mem_cons.mp hx with rfl | hx
    · intro hpc'
      apply h.2 (t, pc) _ (hneed hpc')
      rw [hrun]
      exact List.mem_append_right _ List.mem_cons_self
    · apply h.2 x
      rw [hrun]
      exact List.mem_append_right _ (List.mem_cons_of_mem _ hx)

theorem unneeded_lm (s : State lm) : s.Unneeded code .lm :=
  ⟨fun _ _ => id, fun _ _ => id⟩

/-- Once the scheduler has returned nothing is dispatched, and what is not needed stays so. -/
theorem State.Unneeded.step (h : s.Unneeded code part) (hstep : Step code s e s')
    (hs : s.sched = .returned) : s'.Unneeded code part ∧ s'.sched = .returned := by
  cases hstep with
  | request _ hp =>
    obtain ⟨_, rfl⟩ := Processor.newTxnRequest_eq_some.mp hp
    exact ⟨h, hs⟩
  | result _ => exact ⟨h, hs⟩
  | stop => exact ⟨h, hs⟩
  | @start a b t ht =>
    refine ⟨⟨fun u hu => h.1 u ?_, fun x hx => ?_⟩, hs⟩
    · rw [ht]
      rcases List.mem_append.mp hu with hu | hu
      · exact List.mem_append_left _ hu
      · exact List.mem_append_right _ (List.mem_cons_of_mem t hu)
    · rcases List.mem_cons.mp hx with rfl | hx
      · apply h.1 t
        rw [ht]
        exact List.mem_append_right _ List.mem_cons_self
      · exact h.2 x hx
  | size hrun => exact ⟨h.replace hrun neededAt_reading rfl rfl, hs⟩
  | read hrun => exact ⟨h.replace hrun neededAt_rest rfl rfl, hs⟩
  | run hrun hp =>
    obtain ⟨_, _, rfl⟩ := Processor.runTxn_eq_some.mp hp
    exact ⟨h.replace hrun neededAt_pushing rfl rfl, hs⟩
  | @complete a b t hrun =>
    refine ⟨⟨h.1, fun x hx => h.2 x ?_⟩, hs⟩
    rw [hrun]
    rcases List.mem_append.mp hx with hx | hx
    · exact List.mem_append_left _ hx
    · exact List.mem_append_right _ (List.mem_cons_of_mem _ hx)
  -- the scheduler makes no more steps
  | leave hpc _ => exact absurd (hs.symm.trans hpc) (by simp)
  | pop hpc _ _ => exact absurd (hs.symm.trans hpc) (by simp)
  | noRequest hpc _ _ => exact absurd (hs.symm.trans hpc) (by simp)
  | dispatch hpc _ => exact absurd (hs.symm.trans hpc) (by simp)
  | _ hpc => exact absurd (hs.symm.trans hpc) (by simp)

/-- Once the scheduler has returned no task comes to the workers. -/
theorem idle_of_step (hstep : Step code s e s') (hs : s.sched = .returned) (hp : s.pool = [])
    (hr : s.running = []) : s'.pool = [] ∧ s'.running = [] := by
  cases hstep with
  | request _ hnew =>
    obtain ⟨_, rfl⟩ := Processor.newTxnRequest_eq_some.mp hnew
    exact ⟨hp, hr⟩
  | dispatch hpc _ => exact absurd (hs.symm.trans hpc) (by simp)
  | start hpool => simp [hp] at hpool
  | size hrun => simp [hr] at hrun
  | read hrun => simp [hr] at hrun
  | run hrun _ => simp [hr] at hrun
  | complete hrun => simp [hr] at hrun
  | _ => exact ⟨hp, hr⟩

theorem not_unneeded_of_uses (hstep : Step code s e s') (hpart : part ∈ e.uses) :
    ¬s.Unneeded code part := by
  intro h
  cases hstep with
  | @size a b t hrun =>
    obtain rfl := List.mem_singleton.mp hpart
    exact h.2 (t, .size) (by simp [hrun]) trivial
  | @read a b t k rest hrun =>
    obtain rfl := List.mem_singleton.mp hpart
    exact h.2 (t, .reading (k :: rest)) (by simp [hrun]) (List.cons_ne_nil k rest)
  | @complete a b t hrun =>
    obtain rfl := List.mem_singleton.mp hpart
    exact h.2 (t, .pushing) (by simp [hrun]) trivial
  | _ => exact absurd hpart List.not_mem_nil

end Steps

section Runs
variable {txns : TxnPtr → Txn} {storage : Storage} {ts : List TxnPtr} {tr : List TeardownEvent}
  {s s' : Teardown lm} {e : TeardownEvent}

/-- What has been destroyed is not needed any more. -/
structure Orderly (code : TxnPtr → TxnCode) (tr : List TeardownEvent) (s : Teardown lm) : Prop where
  logged : ∀ part, TeardownEvent.destroy part ∈ tr → part ∈ s.destroyed
  unneeded : ∀ part ∈ s.destroyed, s.proc.Unneeded code part
  returned : (s.pc = .notBegun ∨ s.pc = .joining) ∧ s.destroyed = [] ∨ s.proc.sched = .returned
  safe : SafeForWorkers tr

theorem SafeForWorkers.concat (h : SafeForWorkers tr)
    (he : ∀ e', e = .step e' → ∀ part ∈ e'.uses, TeardownEvent.destroy part ∉ tr) :
    SafeForWorkers (tr ++ [e]) := by
  intro tr₁ e' tr₂ heq part hpart
  rcases List.eq_nil_or_concat tr₂ with rfl | ⟨tr₃, a, rfl⟩
  · obtain ⟨rfl, hlast⟩ := List.append_inj' heq rfl
    exact he e' (List.singleton_inj.mp hlast) part hpart
  · have hassoc : tr ++ [e] = (tr₁ ++ TeardownEvent.step e' :: tr₃) ++ [a] := by simpa using heq
    obtain ⟨rfl, _⟩ := List.append_inj' hassoc rfl
    exact h tr₁ e' tr₃ rfl part hpart

theorem Orderly.step (inv : Orderly code tr s) (h : CarefulStep code s e s') :
    Orderly code (tr ++ [e]) s' := by
  obtain ⟨hlogged, hunneeded, hreturned, hsafe⟩ := inv
  obtain ⟨hstep, hcareful⟩ := h
  have hold : ∀ part, (∀ p, e ≠ .destroy p) → TeardownEvent.destroy part ∈ tr ++ [e] →
      part ∈ s.destroyed := by
    intro part hne hmem
    rcases List.mem_append.mp hmem with hmem | hmem
    · exact hlogged part hmem
    · exact absurd (List.mem_singleton.mp hmem).symm (hne part)
  cases hstep with
  | step hproc he =>
    refine ⟨fun part => hold part (by simp), fun part hpart => ?_, ?_, ?_⟩
    · rcases hreturned with ⟨_, hnil⟩ | hs
      · rw [hnil] at hpart
        cases hpart
      · exact ((hunneeded part hpart).step hproc hs).1
    · apply hreturned.imp_right
      intro hs
      exact ((unneeded_lm s.proc).step hproc hs).2
    · apply hsafe.concat
      intro e' heq part hpart hmem
      cases heq
      exact not_unneeded_of_uses hproc hpart (hunneeded part (hlogged part hmem))
  | stop hpc hproc =>
    cases hproc with
    | stop =>
      refine ⟨fun part => hold part (by simp), hunneeded, ?_, ?_⟩
      · exact hreturned.imp_left fun ⟨_, hnil⟩ => ⟨.inr rfl, hnil⟩
      · apply hsafe.concat
        intro e' heq
        cases heq
  | join hpc hs =>
    refine ⟨fun part => hold part (by simp), hunneeded, .inr hs, ?_⟩
    apply hsafe.concat
    intro e' heq
    cases heq
  | @destroy part rest hpc =>
    refine ⟨?_, ?_, ?_, ?_⟩
    · intro p hp
      apply List.mem_append.mpr
      rcases List.mem_append.mp hp with hp | hp
      · exact .inl (hlogged p hp)
      · cases List.mem_singleton.mp hp
        exact .inr (List.mem_singleton_self part)
    · intro p hp
      rcases List.mem_append.mp hp with hp | hp
      · exact hunneeded p hp
      · rw [List.mem_singleton.mp hp]
        exact hcareful part rfl
    · rcases hreturned with ⟨hearly, _⟩ | hs
      · simp [hpc] at hearly
      · exact .inr hs
    · apply hsafe.concat
      intro e' heq
      cases heq
  | joinWorkers hpc hp hr =>
    refine ⟨fun part => hold part (by simp), hunneeded, ?_, ?_⟩
    · rcases hreturned with ⟨hearly, _⟩ | hs
      · simp [hpc] at hearly
      · exact .inr hs
    · apply hsafe.concat
      intro e' heq
      cases heq

theorem safe_of_careful (h : Run (CarefulStep code) (Teardown.init lm txns storage ts) tr s) :
    SafeForWorkers tr := by
  suffices inv : Orderly code tr s from inv.safe
  apply h.invariant
  · refine ⟨fun part hp => ?_, fun part hp => ?_, .inl ⟨.inl rfl, rfl⟩, ?_⟩
    · cases hp
    · cases hp
    · intro tr₁ e tr₂ heq
      simp at heq
  · intro tr s e s' _ inv hstep
    exact inv.step hstep

theorem unneeded_of_idle {s : State lm} (hp : s.pool = []) (hr : s.running = []) (part : Part) :
    s.Unneeded code part := by
  refine ⟨fun t ht => ?_, fun x hx => ?_⟩
  · simp [hp] at ht
  · simp [hr] at hx

theorem careful_of_idle (h : Run (IdleStep code) (Teardown.init lm txns storage ts) tr s) :
    Run (CarefulStep code) (Teardown.init lm txns storage ts) tr s ∧
      (s.pc.joined → s.proc.sched = .returned ∧ s.proc.pool = [] ∧ s.proc.running = []) := by
  induction h with
  | nil => exact ⟨.nil, False.elim⟩
  | @snoc tr s s' e _ hs ih =>
    obtain ⟨run, hjoined⟩ := ih
    obtain ⟨hstep, hidle⟩ := hs
    cases hstep with
    | step hproc he =>
      refine ⟨run.snoc ⟨.step hproc he, nofun⟩, ?_⟩
      intro hpc
      obtain ⟨hret, hp, hr⟩ := hjoined hpc
      exact ⟨((unneeded_lm s.proc).step hproc hret).2, idle_of_step hproc hret hp hr⟩
    | stop hpc hproc => exact ⟨run.snoc ⟨.stop hpc hproc, nofun⟩, False.elim⟩
    | join hpc hret => exact ⟨run.snoc ⟨.join hpc hret, nofun⟩, fun _ => ⟨hret, hidle rfl⟩⟩
    | destroy hpc =>
      have hidle := hjoined (by rw [hpc]; trivial)
      refine ⟨run.snoc ⟨.destroy hpc, ?_⟩, fun _ => hidle⟩
      intro part _
      exact unneeded_of_idle hidle.2.1 hidle.2.2 part
    | joinWorkers hpc hp hr =>
      have hidle := hjoined (by rw [hpc]; trivial)
      exact ⟨run.snoc ⟨.joinWorkers hpc hp hr, nofun⟩, fun _ => hidle⟩

theorem proc_run (h : Run (TeardownStep code) (Teardown.init lm txns storage ts) tr s) :
    Runs code txns storage ts (tr.filterMap TeardownEvent.toEvent) s.proc := by
  refine h.simulate Teardown.proc TeardownEvent.toEvent ?_
  intro tr s e s' _ hstep
  cases hstep with
  | step hproc _ => exact .inr ⟨_, rfl, hproc⟩
  | stop _ hproc => exact .inr ⟨_, rfl, hproc⟩
  | join _ _ => exact .inl ⟨rfl, rfl⟩
  | destroy _ => exact .inl ⟨rfl, rfl⟩
  | joinWorkers _ _ _ => exact .inl ⟨rfl, rfl⟩

theorem destroyed_of_run {part : Part}
    (h : Run (TeardownStep code) (Teardown.init lm txns storage ts) tr s)
    (hpart : TeardownEvent.destroy part ∈ tr) : part ∈ s.destroyed := by
  revert hpart
  apply h.invariant (I := fun tr s => TeardownEvent.destroy part ∈ tr → part ∈ s.destroyed) nofun
  intro tr s e s' _ ih hstep hmem
  rw [List.mem_append, List.mem_singleton] at hmem
  cases hstep with
  | destroy hpc =>
    apply List.mem_append.mpr
    rcases hmem with hold | hnew
    · exact .inl (ih hold)
    · cases hnew
      exact .inr (List.mem_singleton_self part)
  | _ => exact ih (hmem.resolve_right nofun)

/-- What uses no member is safe after what destroys none. -/
theorem SafeForWorkers.of_append {tr' : List TeardownEvent}
    (h : ∀ part, TeardownEvent.destroy part ∉ tr)
    (h' : ∀ e, TeardownEvent.step e ∈ tr' → e.uses = []) : SafeForWorkers (tr ++ tr') := by
  intro tr₁ e tr₂ heq part hpart
  rcases List.append_eq_append_iff.mp heq with ⟨a, rfl, hrest⟩ | ⟨a, rfl, hrest⟩
  · have hmem : TeardownEvent.step e ∈ tr' := by
      rw [hrest]
      exact List.mem_append_right _ List.mem_cons_self
    rw [h' e hmem] at hpart
    cases hpart
  · exact fun hmem => h part (List.mem_append_left _ hmem)

section CanUse
variable {part : Part} {t : TxnPtr}

theorem Teardown.CanUse.now {e : Event} (h : TeardownStep code s (.step e) s')
    (hpart : part ∈ e.uses) : s.CanUse code part :=
  ⟨[], e, s', .single h, hpart⟩

theorem Teardown.CanUse.later (h : TeardownStep code s e s') (hcan : s'.CanUse code part) :
    s.CanUse code part := by
  obtain ⟨tr, e', s'', hrun, hpart⟩ := hcan
  exact ⟨e :: tr, e', s'', (Run.single h).trans hrun, hpart⟩

theorem canUse_of_pushing (hrun : (t, .pushing) ∈ s.proc.running)
    (hneed : part.neededAt (code t) .pushing) : s.CanUse code part := by
  obtain ⟨a, b, hab⟩ := List.append_of_mem hrun
  cases part with
  | completedTxns => exact .now (.step (.complete hab) nofun) (List.mem_singleton_self _)
  | _ => exact hneed.elim

variable (spec : LateGrant lm) (sub : Submittable code txns ts)
include spec sub

theorem canUse_of_reading {rest : List Key}
    (h : Run (TeardownStep code) (Teardown.init lm txns storage ts) tr s)
    (hrun : (t, .reading rest) ∈ s.proc.running)
    (hneed : part.neededAt (code t) (.reading rest)) : s.CanUse code part := by
  induction rest generalizing tr s with
  | nil =>
    have hproc := proc_run h
    have hplace : (t, Place.running (.reading [])) ∈ s.proc.places := mem_places.mpr hrun
    have ht := (custody_of_run spec sub.nodup sub.sets hproc).known t (mem_names_of_mem hplace)
    obtain ⟨p, hp⟩ := exists_runTxn sub spec hproc ht hrun
    obtain ⟨a, b, hab⟩ := List.append_of_mem hrun
    cases part with
    | completedTxns =>
      refine .later (.step (.run hab hp) nofun) (canUse_of_pushing (t := t) ?_ trivial)
      exact List.mem_append_right _ List.mem_cons_self
    | storage => exact absurd rfl hneed
    | _ => exact hneed.elim
  | cons k rest ih =>
    obtain ⟨a, b, hab⟩ := List.append_of_mem hrun
    have hstep : TeardownStep code s _ _ := .step (.read hab) nofun
    cases part with
    | storage => exact .now hstep (List.mem_singleton_self _)
    | completedTxns =>
      refine .later hstep (ih (h.snoc hstep) ?_ trivial)
      exact List.mem_append_right _ List.mem_cons_self
    | _ => exact hneed.elim

theorem canUse_of_size (h : Run (TeardownStep code) (Teardown.init lm txns storage ts) tr s)
    (hrun : (t, .size) ∈ s.proc.running) (hneed : part.neededAt (code t) .size) :
    s.CanUse code part := by
  obtain ⟨a, b, hab⟩ := List.append_of_mem hrun
  have hstep : TeardownStep code s _ _ := .step (.size hab) nofun
  have hreading : (t, ExecPc.reading (code t).keys) ∈ a ++ (t, .reading (code t).keys) :: b :=
    List.mem_append_right _ List.mem_cons_self
  cases part with
  | committedTxns => exact .now hstep (List.mem_singleton_self _)
  | storage => exact .later hstep (canUse_of_reading spec sub (h.snoc hstep) hreading hneed)
  | completedTxns => exact .later hstep (canUse_of_reading spec sub (h.snoc hstep) hreading trivial)
  | _ => exact hneed.elim

/-- What is needed can come to be used. -/
theorem canUse_of_needed (h : Run (TeardownStep code) (Teardown.init lm txns storage ts) tr s)
    (hneed : ¬s.proc.Unneeded code part) : s.CanUse code part := by
  by_cases hpool : ∀ t ∈ s.proc.pool, ¬part.neededAt (code t) .size
  · by_contra hnot
    apply hneed
    refine ⟨hpool, ?_⟩
    rintro ⟨t, pc⟩ hx hneeded
    apply hnot
    cases pc with
    | size => exact canUse_of_size spec sub h hx hneeded
    | reading rest => exact canUse_of_reading spec sub h hx hneeded
    | pushing => exact canUse_of_pushing hx hneeded
  · push Not at hpool
    obtain ⟨t, ht, hneeded⟩ := hpool
    obtain ⟨a, b, hab⟩ := List.append_of_mem ht
    have hstep : TeardownStep code s _ _ := .step (.start hab) nofun
    exact .later hstep (canUse_of_size spec sub (h.snoc hstep) List.mem_cons_self hneeded)

end CanUse

theorem unsafe_of_destroyed {part : Part} (hdestroy : TeardownEvent.destroy part ∈ tr)
    (hcan : s.CanUse code part) :
    ∃ tr' s', Run (TeardownStep code) s tr' s' ∧ ¬SafeForWorkers (tr ++ tr') := by
  obtain ⟨tr', e, s', hrun, hpart⟩ := hcan
  refine ⟨_, s', hrun, ?_⟩
  intro hsafe
  exact hsafe (tr ++ tr') e [] (List.append_assoc _ _ _).symm part hpart
    (List.mem_append_left _ hdestroy)

/-- The destructor is safe for the workers in every run in which nothing is destroyed that
a queued or running call of `ExecuteTxn` has still to use, and so in every run in which none is
queued or running when the scheduler is joined. Where a member is destroyed that is still
needed, the run goes on to one that uses it. -/
theorem safe_if_careful :
    (∀ {tr s}, Run (CarefulStep code) (Teardown.init lm txns storage ts) tr s →
      SafeForWorkers tr) ∧
    (∀ {tr s}, Run (IdleStep code) (Teardown.init lm txns storage ts) tr s →
      SafeForWorkers tr) ∧
    ∀ (_ : LateGrant lm) (_ : Submittable code txns ts) {tr s part},
      Run (TeardownStep code) (Teardown.init lm txns storage ts) tr s →
      TeardownEvent.destroy part ∈ tr → ¬s.proc.Unneeded code part →
      ∃ tr' s', Run (TeardownStep code) s tr' s' ∧ ¬SafeForWorkers (tr ++ tr') :=
  ⟨fun h => safe_of_careful h, fun h => safe_of_careful (careful_of_idle h).1,
    fun spec sub _ _ _ h hdestroy hneed =>
      unsafe_of_destroyed hdestroy (canUse_of_needed spec sub h hneed)⟩

end Runs

/-- The only task has pushed on `completed_txns_` before the store is deleted. -/
theorem careful_rmw_run : ∃ tr, ∃ s : Teardown (queueLockManager .locking),
    Run (CarefulStep fun _ => rmw .empty (.singleton 5))
      (Teardown.init _ (fun _ => ⟨unrun .empty, 0, 0⟩) ⟨fun _ => some 2⟩ [0]) tr s ∧
    TeardownEvent.destroy .storage ∈ tr ∧ TeardownEvent.step (.complete 0) ∈ tr := by
  have run : Run (CarefulStep fun _ => rmw .empty (.singleton 5))
    (Teardown.init (queueLockManager .locking) (fun _ => ⟨unrun .empty, 0, 0⟩) ⟨fun _ => some 2⟩
      [0]) [] _ := .nil
  have run := run.snoc ⟨.step (.request (a := []) rfl
    (Processor.newTxnRequest_eq_some.mpr ⟨by decide, rfl⟩)) nofun, nofun⟩
  have run := run.snoc ⟨.step (.pop rfl rfl rfl) nofun, nofun⟩
  have run := run.snoc ⟨.step (.lock rfl) nofun, nofun⟩
  have run := run.snoc ⟨.step (.ready rfl) nofun, nofun⟩
  have run := run.snoc ⟨.step (.noCompleted rfl rfl) nofun, nofun⟩
  have run := run.snoc ⟨.step (.dispatch rfl rfl) nofun, nofun⟩
  have run := run.snoc ⟨.step (.noReady rfl rfl) nofun, nofun⟩
  have run := run.snoc ⟨.step (.start (a := []) rfl) nofun, nofun⟩
  have run := run.snoc ⟨.step (.size (a := []) rfl) nofun, nofun⟩
  have run := run.snoc ⟨.step (.read (a := []) rfl) nofun, nofun⟩
  have run := run.snoc ⟨.step (.run (a := []) rfl
    (Processor.runTxn_eq_some.mpr ⟨_, rfl, rfl⟩)) nofun, nofun⟩
  have run := run.snoc ⟨.step (.complete (a := []) rfl) nofun, nofun⟩
  have run := run.snoc ⟨.stop rfl .stop, nofun⟩
  have run := run.snoc ⟨.step (.leave rfl rfl) nofun, nofun⟩
  have run := run.snoc ⟨.join rfl rfl, nofun⟩
  have run := run.snoc ⟨.destroy rfl, fun part _ => unneeded_of_idle rfl rfl part⟩
  have run := run.snoc ⟨.destroy rfl, fun part _ => unneeded_of_idle rfl rfl part⟩
  exact ⟨_, _, run, List.mem_of_getElem? (i := 16) rfl, List.mem_of_getElem? (i := 11) rfl⟩

/-- A task is dispatched, and the destructor does not wait for it. -/
theorem early_rmw_run : ∃ tr, ∃ s : Teardown (queueLockManager .locking),
    Run (TeardownStep fun _ => rmw (.singleton 5) (.singleton 6))
      (Teardown.init _ (fun _ => ⟨unrun .empty, 0, 0⟩) ⟨fun _ => some 2⟩ [0]) tr s ∧
    TeardownEvent.destroy .storage ∈ tr ∧ s.proc.pool = [0] := by
  have run : Run (TeardownStep fun _ => rmw (.singleton 5) (.singleton 6))
    (Teardown.init (queueLockManager .locking) (fun _ => ⟨unrun .empty, 0, 0⟩) ⟨fun _ => some 2⟩
      [0]) [] _ := .nil
  have run := run.snoc (.step (.request (a := []) rfl
    (Processor.newTxnRequest_eq_some.mpr ⟨by decide, rfl⟩)) nofun)
  have run := run.snoc (.step (.pop rfl rfl rfl) nofun)
  have run := run.snoc (.step (.lock rfl) nofun)
  have run := run.snoc (.step (.lock rfl) nofun)
  have run := run.snoc (.step (.ready rfl) nofun)
  have run := run.snoc (.step (.noCompleted rfl rfl) nofun)
  have run := run.snoc (.step (.dispatch rfl rfl) nofun)
  have run := run.snoc (.step (.noReady rfl rfl) nofun)
  have run := run.snoc (.stop rfl .stop)
  have run := run.snoc (.step (.leave rfl rfl) nofun)
  have run := run.snoc (.join rfl rfl)
  have run := run.snoc (.destroy rfl)
  have run := run.snoc (.destroy rfl)
  exact ⟨_, _, run, List.mem_of_getElem? (i := 12) rfl, rfl⟩

theorem early_needed {s : State (queueLockManager .locking)} (hpool : s.pool = [0]) :
    ¬s.Unneeded (fun _ => rmw (.singleton 5) (.singleton 6)) .storage := by
  intro h
  apply h.1 0 (by rw [hpool]; exact List.mem_cons_self)
  show (rmw (.singleton 5) (.singleton 6)).keys ≠ []
  decide

/-- It reads from the store that has been deleted. -/
theorem destroyed_too_early : ∃ tr, ∃ s : Teardown (queueLockManager .locking),
    Run (TeardownStep fun _ => rmw (.singleton 5) (.singleton 6))
      (Teardown.init _ (fun _ => ⟨unrun .empty, 0, 0⟩) ⟨fun _ => some 2⟩ [0]) tr s ∧
    ¬SafeForWorkers tr := by
  obtain ⟨tr, s, run, hdestroy, hpool⟩ := early_rmw_run
  have hcan := canUse_of_needed (queueDocumented .locking).lateGrant (rmw_submittable (by decide))
    run (early_needed hpool)
  obtain ⟨tr', s', run', hunsafe⟩ := unsafe_of_destroyed hdestroy hcan
  exact ⟨_, s', run.trans run', hunsafe⟩

theorem safe_if_careful_rmw :
    (∃ tr, TeardownEvent.destroy .storage ∈ tr ∧ TeardownEvent.step (.complete 0) ∈ tr ∧
      SafeForWorkers tr) ∧
    ∃ tr, TeardownEvent.destroy .storage ∈ tr ∧ ¬SafeForWorkers tr := by
  constructor
  · obtain ⟨tr, s, run, hstorage, hcomplete⟩ := careful_rmw_run
    exact ⟨tr, hstorage, hcomplete, safe_if_careful.1 run⟩
  · obtain ⟨tr, s, run, hdestroy, hpool⟩ := early_rmw_run
    obtain ⟨tr', s', _, hunsafe⟩ := safe_if_careful.2.2 (queueDocumented .locking).lateGrant
      (rmw_submittable (by decide)) run hdestroy (early_needed hpool)
    exact ⟨_, List.mem_append_left _ hdestroy, hunsafe⟩

end Cmsc624.A2
