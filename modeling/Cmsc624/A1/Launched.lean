import Cmsc624.A1.FieldAccess
import Cmsc624.A1.LauncherProgress

/-!
# ThreadLauncher on its database

The executors of the launcher run `Execute` on the heap. `Lock` and `Unlock` are empty, so the
loads and stores of different executors interleave, and an addition can be lost.
-/

namespace Cmsc624.A1.ThreadLauncher

open Lib

set_option autoImplicit false

/-- The launcher, the databases, and where executor `i` is in `Txn`. -/
structure System where
  launcher : State Request
  heap : Heap
  pcs : Nat → TxnPc

inductive Action where
  | launcher (e : Event Request)
  | access (e : Access)

def System.init (maxOutstanding : Int32) (heap : Heap) : System where
  launcher := State.init Request maxOutstanding
  heap := heap
  pcs _ := .start

inductive System.Step : System → Action → System → Prop where
  -- `Execute` returns after the last pass.
  | launcher {s : System} {e : Event Request} {l : State Request}
      (hstep : ThreadLauncher.Step s.launcher e l)
      (hdone : ∀ i req, e = .executed i req → (s.pcs i).pass = req.writeset.length) :
      Step s (.launcher e) { s with launcher := l }
  | txn {s : System} {i : Nat} {targ : ArgPtr} {req : Request} {e : Access} {heap : Heap}
      {pc : TxnPc} (hx : s.launcher.executors[i]? = some ⟨targ, .executing req⟩)
      (htxn : TxnStep i req s.heap (s.pcs i) e heap pc) :
      Step s (.access e) { s with heap := heap, pcs := Function.update s.pcs i pc }

abbrev System.Runs (maxOutstanding : Int32) (heap : Heap) : List Action → System → Prop :=
  Run System.Step (System.init maxOutstanding heap)

def events (tr : List Action) : List (Event Request) :=
  tr.filterMap fun | .launcher e => some e | .access _ => none

def accesses (tr : List Action) : List Access :=
  tr.filterMap fun | .launcher _ => none | .access e => some e

section Logs
variable (tr tr' : List Action) (e : Event Request) (x : Access)

@[simp] theorem events_append : events (tr ++ tr') = events tr ++ events tr' :=
  List.filterMap_append

@[simp] theorem accesses_append : accesses (tr ++ tr') = accesses tr ++ accesses tr' :=
  List.filterMap_append

@[simp] theorem events_launcher : events [.launcher e] = [e] := rfl

@[simp] theorem events_access : events [.access x] = [] := rfl

@[simp] theorem accesses_launcher : accesses [.launcher e] = [] := rfl

@[simp] theorem accesses_access : accesses [.access x] = [x] := rfl

@[simp] theorem events_map_launcher (es : List (Event Request)) :
    events (es.map .launcher) = es := by
  rw [events, List.filterMap_map]
  exact List.filterMap_some

@[simp] theorem accesses_map_launcher (es : List (Event Request)) :
    accesses (es.map .launcher) = [] := by
  rw [accesses, List.filterMap_map]
  exact List.filterMap_none es

@[simp] theorem events_map_access (xs : List Access) : events (xs.map .access) = [] := by
  rw [events, List.filterMap_map]
  exact List.filterMap_none xs

@[simp] theorem accesses_map_access (xs : List Access) : accesses (xs.map .access) = xs := by
  rw [accesses, List.filterMap_map]
  exact List.filterMap_some

theorem mem_completions {e : Event Request} {i : Nat} {req : Request}
    (h : req ∈ onChannel (completions [e]) i) : e = .executed i req := by
  cases e with
  | executed j q =>
    by_cases hj : j = i
    · subst hj
      obtain rfl := List.mem_singleton.mp ((onChannel_self j q) ▸ h)
      rfl
    · rw [show completions [Event.executed j q] = [(j, q)] from rfl, onChannel_of_ne hj] at h
      cases h
  | _ => cases h

end Logs

/-- An executor has made the first accesses of its request, in order, and only while it was in
`Execute`. -/
structure Passed (tr : List Action) (s : System) : Prop where
  within : ∀ i req, (issued (events tr))[i]? = some req → (s.pcs i).Within req
  channel : ∀ i req, (issued (events tr))[i]? = some req →
    onChannel (Cells.added (accesses tr)) i = req.behind (s.pcs i)
  touched : ∀ e ∈ accesses tr, ∃ req, (issued (events tr))[e.thread]? = some req ∧
    req.Touches e.cell
  begun : ∀ i, onChannel (executes (events tr)) i = [] → s.pcs i = .start
  ended : ∀ i, ∀ req ∈ onChannel (completions (events tr)) i,
    (s.pcs i).pass = req.writeset.length

section Passed
variable {M : Int32} {heap : Heap} {tr tr' : List Action} {s s₁ s' : System} {i : Nat}
  {req : Request}

theorem launcher_run {s₀ : System} (h : Run System.Step s₀ tr s) :
    Run ThreadLauncher.Step s₀.launcher (events tr) s.launcher := by
  apply h.simulate System.launcher fun | .launcher e => some e | .access _ => none
  intro tr s e s' _ hstep
  cases hstep with
  | launcher hstep _ => exact Or.inr ⟨_, rfl, hstep⟩
  | txn hx htxn => exact Or.inl ⟨rfl, rfl⟩

theorem memory_run {s₀ : System} (h : Run System.Step s₀ tr s) :
    Run Memory.Step ⟨s₀.heap, s₀.pcs⟩ (accesses tr) ⟨s.heap, s.pcs⟩ := by
  apply h.simulate (fun s => (⟨s.heap, s.pcs⟩ : Memory))
    fun | .launcher _ => none | .access e => some e
  intro tr s e s' _ hstep
  cases hstep with
  | launcher hstep _ => exact Or.inl ⟨rfl, rfl⟩
  | txn hx htxn => exact Or.inr ⟨_, rfl, .txn htxn⟩

theorem Passed.init (M : Int32) (heap : Heap) : Passed [] (System.init M heap) where
  within _ _ h := by cases h
  channel _ _ h := by cases h
  touched _ h := by cases h
  begun _ _ := rfl
  ended _ _ h := by cases h

theorem Passed.beyond (h : Passed tr s) (hnone : (issued (events tr))[i]? = none) :
    onChannel (Cells.added (accesses tr)) i = [] := by
  apply List.filterMap_eq_nil_iff.mpr
  intro x hx
  obtain ⟨y, hy, rfl⟩ := List.mem_map.mp hx
  obtain ⟨req, hreq, _⟩ := h.touched _ (Cells.mem_of_stores hy)
  apply if_neg
  intro hi
  rw [show (Cells.Event.store y).thread = i from hi, hnone] at hreq
  cases hreq

theorem Passed.launcherStep (h : Passed tr s) (hrun : Runs M (events tr) s.launcher)
    {e : Event Request} {l : State Request}
    (hdone : ∀ i req, e = .executed i req → (s.pcs i).pass = req.writeset.length) :
    Passed (tr ++ [.launcher e]) { s with launcher := l } := by
  have hevents : events (tr ++ [.launcher e]) = events tr ++ [e] := events_append _ _
  have haccesses : accesses (tr ++ [.launcher e]) = accesses tr := by simp
  -- a request that is just issued has no executor yet
  have hissued : ∀ (i : Nat) req, (issued (events tr ++ [e]))[i]? = some req →
      (issued (events tr))[i]? = some req ∨ (issued (events tr))[i]? = none ∧ s.pcs i = .start := by
    intro i req hreq
    rw [issued_append] at hreq
    cases hold : (issued (events tr))[i]? with
    | some q =>
      rw [List.getElem?_append_left (List.getElem?_eq_some_iff.mp hold).1, hold] at hreq
      exact Or.inl hreq
    | none =>
      have hbegun := executes_sublist hrun i
      rw [hold] at hbegun
      exact Or.inr ⟨rfl, h.begun i (List.sublist_nil.mp hbegun)⟩
  constructor
  · intro i req hreq
    rw [hevents] at hreq
    rcases hissued i req hreq with hold | ⟨_, hstart⟩
    · exact h.within i req hold
    · show (s.pcs i).Within req
      rw [hstart]
      exact start_within req
  · intro i req hreq
    rw [haccesses]
    rw [hevents] at hreq
    rcases hissued i req hreq with hold | ⟨hnone, hstart⟩
    · exact h.channel i req hold
    · show _ = req.behind (s.pcs i)
      rw [h.beyond hnone, hstart, Request.behind_start]
  · intro x hx
    rw [haccesses] at hx
    obtain ⟨req, hreq, htouch⟩ := h.touched x hx
    refine ⟨req, ?_, htouch⟩
    rw [hevents, issued_append,
      List.getElem?_append_left (List.getElem?_eq_some_iff.mp hreq).1]
    exact hreq
  · intro i hi
    rw [hevents, executes_append, onChannel_append] at hi
    exact h.begun i (List.append_eq_nil_iff.mp hi).1
  · intro i req hreq
    rw [hevents, completions_append, onChannel_append] at hreq
    rcases List.mem_append.mp hreq with hold | hnew
    · exact h.ended i req hold
    · exact hdone i req (mem_completions hnew)

theorem Passed.txnStep (h : Passed tr s) (hrun : Runs M (events tr) s.launcher)
    {targ : ArgPtr} {e : Access} {heap' : Heap} {pc : TxnPc}
    (hx : s.launcher.executors[i]? = some ⟨targ, .executing req⟩)
    (htxn : TxnStep i req s.heap (s.pcs i) e heap' pc) :
    Passed (tr ++ [.access e])
      { s with heap := heap', pcs := Function.update s.pcs i pc } := by
  have hexec := executed_of_run hrun
  have hphase : s.launcher.phases[i]? = some (.executing req) := phases_getElem hx
  have hissued : (issued (events tr))[i]? = some req := hexec.running i req hphase
  have hevents : events (tr ++ [.access e]) = events tr := by simp
  have haccesses : accesses (tr ++ [.access e]) = accesses tr ++ [e] := accesses_append _ _
  have hthread := htxn.thread_eq
  constructor
  · intro j q hq
    rw [hevents] at hq
    show (Function.update s.pcs i pc j).Within q
    by_cases hij : i = j
    · subst hij
      obtain rfl := Option.some.inj (hissued.symm.trans hq)
      rw [Function.update_self]
      exact htxn.within (h.within i req hq)
    · rw [Function.update_of_ne (Ne.symm hij)]
      exact h.within j q hq
  · intro j q hq
    rw [hevents] at hq
    rw [haccesses, Cells.added_append, onChannel_append, h.channel j q hq]
    show _ = q.behind (Function.update s.pcs i pc j)
    by_cases hij : i = j
    · subst hij
      obtain rfl := Option.some.inj (hissued.symm.trans hq)
      rw [Function.update_self, htxn.behind_eq (h.within i req hq)]
    · rw [Function.update_of_ne (Ne.symm hij), htxn.added_other hij, List.append_nil]
  · intro x hx
    rw [haccesses] at hx
    rw [hevents]
    rcases List.mem_append.mp hx with hold | hnew
    · exact h.touched x hold
    · obtain rfl := List.mem_singleton.mp hnew
      rw [hthread]
      exact ⟨req, hissued, htxn.touches (h.within i req hissued)⟩
  · intro j hj
    rw [hevents] at hj
    have hij : j ≠ i := by
      intro hij
      subst hij
      rw [hexec.begun j, hphase, hissued] at hj
      cases hj
    show Function.update s.pcs i _ j = .start
    rw [Function.update_of_ne hij]
    exact h.begun j hj
  · intro j q hq
    rw [hevents] at hq
    have hij : j ≠ i := by
      intro hij
      subst hij
      rw [hexec.ended j, hphase] at hq
      cases hq
    show (Function.update s.pcs i _ j).pass = _
    rw [Function.update_of_ne hij]
    exact h.ended j q hq

theorem passed_of_run (h : System.Runs M heap tr s) : Passed tr s := by
  apply h.invariant (I := fun tr s => Passed tr s)
  · exact Passed.init M heap
  · intro tr s e s' hr hpassed hstep
    have hrun := launcher_run hr
    cases hstep with
    | launcher hstep hdone => exact hpassed.launcherStep hrun hdone
    | txn hx htxn => exact hpassed.txnStep hrun hx htxn

theorem launcher_of_waited (hstep : System.Step s (.launcher .waited) s₁) :
    ThreadLauncher.Step s.launcher .waited s₁.launcher ∧ s₁.heap = s.heap := by
  cases hstep with
  | launcher hstep _ => exact ⟨hstep, rfl⟩

/-- All of a request that was waited for is stored. -/
theorem added_of_waited (h : System.Runs M heap tr s)
    (hstep : System.Step s (.launcher .waited) s₁) (hreq : (issued (events tr))[i]? = some req) :
    onChannel (Cells.added (accesses tr)) i = req.wordAdditions := by
  have hpassed := passed_of_run h
  obtain ⟨_, hended⟩ := once_of_waited (launcher_run h) (launcher_of_waited hstep).1 hreq
  have hlast := hpassed.ended i req (hended ▸ List.mem_singleton_self req)
  rw [hpassed.channel i req hreq, Request.behind_done hlast]

theorem uncompleted_of_access (h : System.Runs M heap tr s) {e : Access}
    (hstep : System.Step s (.access e) s₁) :
    onChannel (completions (events tr)) e.thread = [] := by
  cases hstep with
  | @txn i targ req _ _ _ hx htxn =>
    rw [htxn.thread_eq, (executed_of_run (launcher_run h)).ended i, phases_getElem hx]
    rfl

theorem untouched_after (h : System.Runs M heap tr s)
    (hstep : System.Step s (.launcher .waited) s₁) (hreq : (issued (events tr))[i]? = some req)
    (hrun : Run System.Step s₁ tr' s') : ∀ e ∈ accesses tr', e.thread ≠ i := by
  intro e he hi
  obtain ⟨a, ha, hsome⟩ := List.mem_filterMap.mp he
  cases a with
  | launcher f => cases hsome
  | access f =>
    obtain rfl := Option.some.inj hsome
    obtain ⟨tr₁, tr₂, m, m', -, hbefore, hm, -⟩ := hrun.split_event ha
    have hnone := uncompleted_of_access ((h.snoc hstep).trans hbefore) hm
    obtain ⟨_, hended⟩ := once_of_waited (launcher_run h) (launcher_of_waited hstep).1 hreq
    rw [hi, events_append, events_append, completions_append, completions_append,
      onChannel_append, onChannel_append, hended] at hnone
    cases hnone

/-- After a wait the databases have the updates of the requests before it if and only if no
addition is lost. -/
theorem updated_of_waited (h : System.Runs M heap tr s)
    (hstep : System.Step s (.launcher .waited) s₁) :
    Updated heap s₁.heap (issued (events tr)) ↔ ∀ p, Cells.lost (accesses tr) p = 0 := by
  classical
  have hpassed := passed_of_run h
  rw [(launcher_of_waited hstep).2]
  apply updated_iff_lost (memory_run h)
  apply perm_of_channels
  intro i
  cases hreq : (issued (events tr))[i]? with
  | none => exact hpassed.beyond hreq
  | some req => rw [added_of_waited h hstep hreq, Option.toList_some, List.flatMap_singleton]

/-- Requests that do not conflict lose nothing. -/
theorem careful_of_separate (h : System.Runs M heap tr s)
    (hsep : (issued (events tr)).Pairwise fun q q' => ¬q.Conflict q') :
    Cells.Careful (accesses tr) := by
  have hpassed := passed_of_run h
  apply Cells.careful_of_separate (fun _ _ => rfl) (Memory.cells_of_run (memory_run h))
  apply separate_of_touched hpassed.touched hsep

end Passed

/-- `WaitOutstanding` is a barrier. What the requests before it have added is in the databases
unless an executor has stored into a field between the load and the store of another one. -/
theorem wait_is_barrier {M : Int32} {heap : Heap} {tr : List Action} {s : System}
    (h : System.Runs M heap tr s) :
    (∀ i, (onChannel (executes (events tr)) i).Sublist (issued (events tr))[i]?.toList) ∧
    s.launcher.txnsExecuted ≤ (completions (events tr)).length ∧
    (completions (events tr)).length ≤ s.launcher.numRequests ∧
    ((issued (events tr)).Pairwise (fun q q' => ¬q.Conflict q') →
      Cells.Careful (accesses tr)) ∧
    ∀ s₁, System.Step s (.launcher .waited) s₁ →
      (∀ (i : Nat) req, (issued (events tr))[i]? = some req →
        onChannel (executes (events tr)) i = [req] ∧
        onChannel (completions (events tr)) i = [req] ∧
        onChannel (Cells.added (accesses tr)) i = req.wordAdditions ∧
        ∀ tr' s', Run System.Step s₁ tr' s' →
          onChannel (executes (events tr')) i = [] ∧ ∀ e ∈ accesses tr', e.thread ≠ i) ∧
      (Cells.Careful (accesses tr) → Updated heap s₁.heap (issued (events tr))) ∧
      (Updated heap s₁.heap (issued (events tr)) ↔ ∀ p, Cells.lost (accesses tr) p = 0) := by
  have hrun := launcher_run h
  refine ⟨executes_sublist hrun, txnsExecuted_le hrun, completions_le hrun,
    careful_of_separate h, ?_⟩
  intro s₁ hstep
  have hupdated := updated_of_waited h hstep
  refine ⟨?_, fun hcareful => hupdated.mpr (Cells.lost_of_careful hcareful), hupdated⟩
  intro i req hreq
  have hlauncher := (launcher_of_waited hstep).1
  obtain ⟨hbegun, hended⟩ := once_of_waited hrun hlauncher hreq
  refine ⟨hbegun, hended, added_of_waited h hstep hreq, ?_⟩
  intro tr' s' hrun'
  refine ⟨?_, untouched_after h hstep hreq hrun'⟩
  exact (untouched_of_waited hrun hlauncher hreq (launcher_run hrun')).1

section Schedules
variable {M : Int32} {heap heap' : Heap} {tr : List Action} {s : System} {i : Nat} {req : Request}
  {targ : ArgPtr}

theorem run_of_launcher {es : List (Event Request)} {l : State Request}
    (h : System.Runs M heap tr s) (hrun : Run ThreadLauncher.Step s.launcher es l)
    (hquiet : ∀ i req, .executed i req ∉ es) :
    System.Runs M heap (tr ++ es.map .launcher) { s with launcher := l } := by
  induction hrun with
  | nil => exact (List.append_nil tr).symm ▸ h
  | snoc _ hstep ih =>
    rw [List.map_append, ← List.append_assoc]
    refine (ih fun i req hmem => hquiet i req (List.mem_append_left _ hmem)).snoc
      (.launcher hstep fun i req he => ?_)
    exact absurd (List.mem_append_right _ (List.mem_singleton.mpr he.symm)) (hquiet i req)

/-- A call of `ExecuteRequest` that finds a permit and an empty list. -/
theorem exists_call (n k : Nat) {m : UInt32} (hfree : ¬m ≤ 0)
    (args : ArgPtr → Option (ThreadArg Request)) (ids : IdPtr → Option Nat)
    (executors : List (Executor Request)) (req : Request) : ∃ es args' ids',
    Run ThreadLauncher.Step ⟨n, k, m, none, none, none, args, ids, .idle, executors⟩ es
      ⟨n + 1, k, m - 1, none, none, none, args', ids', .idle, executors ++ [⟨n, .created⟩]⟩ ∧
    issued es = [req] ∧ ∀ i req, .executed i req ∉ es := by
  have run : Run ThreadLauncher.Step ⟨n, k, m, none, none, none, args, ids, .idle, executors⟩
    [] _ := .nil
  have run := run.snoc (.launcher (.issue req rfl))
  have run := run.snoc (.launcher (.allocate 0 rfl))
  have run := run.snoc (.launcher (.create rfl))
  have run := run.snoc (.launcher (.lock rfl rfl))
  have run := run.snoc (.launcher (.pass rfl hfree))
  have run := run.snoc (.launcher (.take rfl))
  have run := run.snoc (.launcher (.unlock rfl))
  have run := run.snoc (.launcher (.lockList rfl rfl))
  have run := run.snoc (.launcher (.detach rfl))
  have run := run.snoc (.launcher (.clear rfl))
  have run := run.snoc (.launcher (.unlockList rfl))
  have run := run.snoc (.launcher (.ret rfl))
  exact ⟨_, _, _, run, rfl, by simp⟩

theorem run_of_txnRun {xs : List Access} {y : Heap × TxnPc}
    (hx : s.launcher.executors[i]? = some ⟨targ, .executing req⟩)
    (htxn : TxnRun i req (s.heap, s.pcs i) xs y) :
    Run System.Step s (xs.map .access)
      { s with heap := y.1, pcs := Function.update s.pcs i y.2 } := by
  induction htxn with
  | nil =>
    rw [Function.update_eq_self]
    exact .nil
  | @snoc xs y z e _ hstep ih =>
    have hself : TxnStep i req y.1 (Function.update s.pcs i y.2 i) e z.1 z.2 := by
      rw [Function.update_self]
      exact hstep
    have hmem := System.Step.txn
      (s := { s with heap := y.1, pcs := Function.update s.pcs i y.2 }) hx hself
    simp only [Function.update_idem] at hmem
    rw [List.map_append]
    exact ih.snoc hmem

theorem issued_of_executing (h : System.Runs M heap tr s)
    (hx : s.launcher.executors[i]? = some ⟨targ, .executing req⟩) :
    (issued (events tr))[i]? = some req :=
  (executed_of_run (launcher_run h)).running i req (phases_getElem hx)

theorem dbSize_of_run (h : System.Runs M heap tr s) (db : DbPtr) :
    (s.heap db).dbSize = (heap db).dbSize :=
  (Memory.similar_of_run (memory_run h)).dbSize_eq db

theorem exists_passed (h : System.Runs M heap tr s)
    (hvalid : ∀ req ∈ issued (events tr), req.Valid (heap req.db).dbSize) (i : Nat) :
    ∃ xs heap' pcs, Run System.Step s (xs.map .access) { s with heap := heap', pcs := pcs } ∧
      (∀ targ req, s.launcher.executors[i]? = some ⟨targ, .executing req⟩ →
        (pcs i).pass = req.writeset.length) ∧
      ((∀ j, (s.pcs j).loaded = none) → Cells.Careful xs ∧ ∀ j, (pcs j).loaded = none) := by
  by_cases hexecuting : ∃ targ req, s.launcher.executors[i]? = some ⟨targ, .executing req⟩
  · obtain ⟨targ, req, hx⟩ := hexecuting
    have hreq := issued_of_executing h hx
    have hpc := (passed_of_run h).within i req hreq
    have hsize := hvalid req (List.mem_of_getElem? hreq)
    rw [← dbSize_of_run h] at hsize
    obtain ⟨xs, heap', pc, htxn, hdone⟩ := exists_txnRun i hsize hpc
    refine ⟨xs, heap', Function.update s.pcs i pc, run_of_txnRun hx htxn, ?_, ?_⟩
    · intro targ' req' hx'
      obtain ⟨rfl, hsame⟩ := Executor.mk.inj (Option.some.inj (hx.symm.trans hx'))
      obtain rfl := ExecutorPc.executing.inj hsame
      rw [Function.update_self]
      exact hdone
    · intro hnone
      refine ⟨careful_of_txnRun htxn (hnone i), ?_⟩
      intro j
      by_cases hj : j = i
      · subst hj
        rw [Function.update_self]
        exact (within_of_txnRun htxn hpc).free hdone
      · rw [Function.update_of_ne hj]
        exact hnone j
  · exact ⟨[], s.heap, s.pcs, .nil, fun targ req hx => absurd ⟨targ, req, hx⟩ hexecuting,
      fun hnone => ⟨nofun, hnone⟩⟩

theorem executing_of_executed {l l' : State Request} {j : Nat}
    (h : ExecutorStep i l (.executed j req) l') :
    j = i ∧ ∃ targ, l.executors[i]? = some ⟨targ, .executing req⟩ := by
  cases h with
  | @executed targ _ hx => exact ⟨rfl, targ, hx⟩

theorem waiting_of_step {l l' : State Request} {e : Event Request}
    (h : ExecutorStep i l e l') (hpc : l.launcher = .waiting) :
    l'.launcher = .waiting ∧ issued [e] = [] := by
  cases h with
  | signal hx hl =>
    rw [hpc] at hl
    cases hl
  | execute hx ha | executed hx | lockList hx hm | setNext hx | publish hx | unlockList hx
  | lock hx hm | increment hx | signalNobody hx hl | unlock hx | count hx => exact ⟨hpc, rfl⟩

/-- With valid requests the launcher never waits in vain. -/
theorem exists_waited (hM : 0 < M) (h : System.Runs M heap tr s)
    (hpc : s.launcher.launcher = .waiting)
    (hvalid : ∀ req ∈ issued (events tr), req.Valid (heap req.db).dbSize) : ∃ tr' s' s₁,
    Run System.Step s tr' s' ∧ issued (events tr') = [] ∧
      System.Step s' (.launcher .waited) s₁ ∧
      ((∀ j, (s.pcs j).loaded = none) → Cells.Careful (accesses tr')) := by
  generalize hn : potential (events tr) s.launcher = n
  induction n using Nat.strongRecOn generalizing tr s with
  | ind n ih =>
    have hrun := launcher_run h
    obtain ⟨th, hready⟩ := exists_ready hM hrun (Or.inl (by rw [hpc]; nofun))
    cases th with
    | launcher =>
      have heq : s.launcher.LauncherReady := hready
      unfold State.LauncherReady at heq
      rw [hpc] at heq
      exact ⟨[], s, _, .nil, rfl, .launcher (.launcher (.waited hpc heq)) nofun, fun _ => nofun⟩
    | executor i =>
      obtain ⟨x, hx, hready⟩ := hready
      obtain ⟨xs, heap', pcs, hpass, hdone, hfree⟩ := exists_passed h hvalid i
      obtain ⟨e, l, hstep⟩ := exists_executorStep hrun hx hready
      obtain ⟨hpc', hissued⟩ := waiting_of_step hstep hpc
      have hless : potential (events tr ++ [e]) l < potential (events tr) s.launcher :=
        hstep.potential
      have hmore : Run System.Step s (xs.map .access ++ [.launcher e])
          ⟨l, heap', pcs⟩ := by
        refine hpass.snoc (.launcher (.executor i hstep) ?_)
        rintro j req rfl
        obtain ⟨rfl, targ, hx⟩ := executing_of_executed hstep
        exact hdone targ req hx
      have hnew : events (xs.map .access ++ [.launcher e]) = [e] := by
        rw [events_append, events_map_access, List.nil_append, events_launcher]
      have hevents : events (tr ++ (xs.map .access ++ [.launcher e])) = events tr ++ [e] := by
        rw [events_append, hnew]
      obtain ⟨tr', s', s₁, hrest, hnone, hwaited, hcareful⟩ := ih _ (hn ▸ hless)
        (h.trans hmore) hpc' (by
          rw [hevents, issued_append, hissued, List.append_nil]
          exact hvalid) (by rw [hevents])
      refine ⟨_, s', s₁, hmore.trans hrest, ?_, hwaited, ?_⟩
      · rw [events_append, hnew, issued_append, hissued, hnone]
        rfl
      · intro hloaded
        obtain ⟨hxs, hloaded'⟩ := hfree hloaded
        rw [accesses_append, accesses_append, accesses_map_access, accesses_launcher,
          List.append_nil]
        exact hxs.append (hcareful hloaded')

theorem execute_of_created (h : System.Runs M heap tr s)
    (hx : s.launcher.executors[i]? = some ⟨targ, .created⟩)
    (hreq : (issued (events tr))[i]? = some req) :
    System.Step s (.launcher (.execute i req))
      { s with launcher := s.launcher.goto i targ (.executing req) } := by
  have hrun := launcher_run h
  obtain ⟨a, ha⟩ := allocated_of_running hrun hx (by simp)
  have htarg : targ = i := (numbered_of_run hrun).targ_eq hx
  have hblock := (executed_of_run hrun).block targ a ha
  rw [htarg, hreq] at hblock
  obtain rfl := Option.some.inj hblock
  exact .launcher (.executor i (.execute hx ha)) nofun

theorem two_issued (req req' : Request) (heap : Heap) : ∃ tr args ids m,
    System.Runs 2 heap tr ⟨⟨2, 0, m, none, none, none, args, ids, .waiting,
      [⟨0, .created⟩, ⟨1, .created⟩]⟩, heap, fun _ => .start⟩ ∧
    accesses tr = [] ∧ issued (events tr) = [req, req'] := by
  have hfree : ¬Int32.toUInt32 2 ≤ 0 := by decide
  have hfree' : ¬Int32.toUInt32 2 - 1 ≤ 0 := by decide
  have run : System.Runs 2 heap [] (System.init 2 heap) := .nil
  obtain ⟨es, args, ids, hcall, hissued, hquiet⟩ :=
    exists_call 0 0 hfree (fun _ => none) (fun _ => none) [] req
  have run := run_of_launcher run hcall hquiet
  obtain ⟨es', args', ids', hcall', hissued', hquiet'⟩ := exists_call 1 0 hfree' args ids _ req'
  have run := run_of_launcher run hcall' hquiet'
  have run := run.snoc (.launcher (.launcher (.waitOutstanding rfl)) nofun)
  refine ⟨_, args', ids', _, run, ?_, ?_⟩
  · simp
  · simp only [events_append, events_map_launcher, issued_append, hissued, hissued']
    rfl

/-- Two requests whose executors run one after the other. -/
theorem two_waited {req req' : Request} {heap : Heap} (hvalid : req.Valid (heap req.db).dbSize)
    (hvalid' : req'.Valid (heap req'.db).dbSize) : ∃ tr s s₁, System.Runs 2 heap tr s ∧
      issued (events tr) = [req, req'] ∧ System.Step s (.launcher .waited) s₁ ∧
      Cells.Careful (accesses tr) := by
  obtain ⟨tr, args, ids, m, run, hnone, hissued⟩ := two_issued req req' heap
  obtain ⟨tr', s, s₁, hmore, hnone', hstep, hcareful⟩ := exists_waited (by decide) run rfl (by
    rw [hissued]
    simp [hvalid, hvalid'])
  refine ⟨_, s, s₁, run.trans hmore, ?_, hstep, ?_⟩
  · rw [events_append, issued_append, hissued, hnone']
    rfl
  · rw [accesses_append, hnone]
    exact hcareful fun _ => rfl

end Schedules

/-- Two requests for the same record, one after the other: both are in the database. -/
theorem wait_is_barrier_two : ∃ (tr : List Action) (s s₁ : System),
    System.Runs 2 oneRecord tr s ∧ issued (events tr) = [oneKey, oneKey] ∧
      System.Step s (.launcher .waited) s₁ ∧
      onChannel (executes (events tr)) 1 = [oneKey] ∧
      s₁.heap 0 = (oneRecord 0).addAll [(0, fun _ => 1), (0, fun _ => 1)] := by
  obtain ⟨tr, s, s₁, run, hall, hstep, hcareful⟩ := two_waited oneKey_valid oneKey_valid
  obtain ⟨_, _, _, _, hbarrier⟩ := wait_is_barrier run
  obtain ⟨honce, hupdated, _⟩ := hbarrier s₁ hstep
  have hfinal := hupdated hcareful 0
  rw [hall] at honce hfinal
  exact ⟨tr, s, s₁, run, hall, hstep, (honce 1 oneKey rfl).1, hfinal⟩

/-- The first field of the only record. -/
def firstField : RecPtr := ⟨0, 0, ⟨0, nfields_pos⟩⟩

theorem oneKey_firstField : Cells.sumAt firstField oneKey.wordAdditions = 1 := by
  simp [sumAt_wordAdditions, Request.additions, oneKey, Database.total, firstField]

/-- One executor has loaded a field of the record; the other one executes its whole request
before the first one stores. -/
theorem one_overtaken : ∃ (tr : List Action) (s : System),
    System.Runs 2 oneRecord tr s ∧ s.launcher.launcher = .waiting ∧
      issued (events tr) = [oneKey, oneKey] ∧ (∀ j, (s.pcs j).loaded = none) ∧
      Cells.lost (accesses tr) firstField = 1 := by
  obtain ⟨tr, args, ids, m, run, hnone, hissued⟩ := two_issued oneKey oneKey oneRecord
  have hrange : ∀ {tr s}, System.Runs 2 oneRecord tr s → s.heap.Has firstField := by
    intro tr s h
    exact (Memory.similar_of_run (memory_run h)).has.mpr Nat.one_pos
  have run := run.snoc (execute_of_created run (i := 0) rfl (by rw [hissued]; rfl))
  have run := run.snoc (execute_of_created run (i := 1) rfl (by
    rw [events_append, issued_append, hissued]
    rfl))
  have hkey : oneKey.keyAt 0 = some 0 := rfl
  have run := run.snoc (.txn (i := 0) rfl (.load rfl hkey (hrange run)))
  obtain ⟨xs, heap₁, pc₁, htxn, hdone⟩ := exists_txnRun 1 oneKey_valid (start_within oneKey)
  have run := run.trans (run_of_txnRun (i := 1) rfl htxn)
  have run := run.snoc (.txn (i := 0) rfl (.store rfl (hrange run)))
  refine ⟨_, _, run, rfl, ?_, ?_, ?_⟩
  · simp only [events_append, events_map_access, events_access, events_launcher, issued_append,
      hissued]
    rfl
  · intro j
    show (Function.update (Function.update (Function.update (fun _ => TxnPc.start) 0 _) 1 pc₁) 0
      (TxnPc.next _) j).loaded = none
    by_cases hfirst : j = 0
    · rw [hfirst, Function.update_self, TxnPc.next_loaded]
    · rw [Function.update_of_ne hfirst]
      by_cases hsecond : j = 1
      · rw [hsecond, Function.update_self]
        exact (within_of_txnRun htxn (start_within oneKey)).free hdone
      · rw [Function.update_of_ne hsecond, Function.update_of_ne hfirst]
        rfl
  · have hcell : (⟨oneKey.db, UInt64.toNat 0, TxnPc.start.field⟩ : RecPtr) = firstField := rfl
    have hword := word_of_txnRun htxn hdone firstField
    rw [oneKey_firstField] at hword
    simp only [accesses_append, accesses_map_access, accesses_access, accesses_launcher, hnone,
      Cells.lost_append, Cells.lost_of_careful (careful_of_txnRun htxn rfl), Cells.lost_nil,
      Cells.lost_load, Cells.lost_store, hcell, if_true, zero_add]
    rw [hword, add_sub_cancel_left]

/-- The addition of one of two requests for the same record is not in the database. -/
theorem addition_lost : ∃ (tr : List Action) (s s₁ : System),
    System.Runs 2 oneRecord tr s ∧ issued (events tr) = [oneKey, oneKey] ∧
      System.Step s (.launcher .waited) s₁ ∧
      ¬Updated oneRecord s₁.heap (issued (events tr)) := by
  obtain ⟨tr, s, run, hpc, hissued, hfree, hone⟩ := one_overtaken
  have hvalid : ∀ req ∈ issued (events tr), req.Valid (oneRecord req.db).dbSize := by
    rw [hissued]
    simp [oneKey_valid]
  obtain ⟨tr', s', s₁, hmore, hnone, hstep, hcareful⟩ := exists_waited (by decide) run hpc hvalid
  refine ⟨_, s', s₁, run.trans hmore, ?_, hstep, ?_⟩
  · rw [events_append, issued_append, hissued, hnone]
    rfl
  · rw [updated_of_waited (run.trans hmore) hstep]
    intro hlost
    have hzero := hlost firstField
    rw [accesses_append, Cells.lost_append, hone, Cells.lost_of_careful (hcareful hfree)] at hzero
    cases hzero

end Cmsc624.A1.ThreadLauncher
