import Cmsc624.A1.Counts
import Cmsc624.A1.PerfMonitor

/-!
# The experiment

`run_experiment` with a `ThreadLauncher`: a dry run, a wait, and then requests in a circle until
the monitor sets the flag. The main thread, the executors and the monitor interleave; the main
thread does not join the monitor.
-/

namespace Cmsc624.A1

open Lib ThreadLauncher

set_option autoImplicit false

def dryRunSz : Nat := 1000

def numReqs : Nat := 2000000

variable {ρ : Type}

structure Inputs (ρ : Type) where
  dry : List ρ
  real : List ρ
  dry_length : dry.length = dryRunSz
  real_length : real.length = numReqs

/-- Where the main thread is in `run_experiment`, apart from the calls of the launcher. -/
inductive MainPc where
  -- At the head of the first loop.
  | dryRun (i : Nat)
  -- In `WaitOutstanding`, or just behind it.
  | waiting
  -- At the head of the second loop.
  | testing (i : UInt32)
  | issuing (i : UInt32)
  | returned

/-- The request of pass `k` of the second loop, whose `i` has 32 bits. -/
def Inputs.pass (inputs : Inputs ρ) (k : Nat) : ρ :=
  inputs.real.get ⟨k % 2 ^ 32 % numReqs, by
    rw [inputs.real_length]
    exact Nat.mod_lt _ (Nat.zero_lt_succ 1999999)⟩

structure Experiment (ρ : Type) where
  launcher : ThreadLauncher.State ρ
  main : MainPc
  monitor : Monitor
  done : UInt64

def Experiment.init (ρ : Type) (maxOutstanding : Int32) : Experiment ρ where
  launcher := ThreadLauncher.State.init ρ maxOutstanding
  main := .dryRun 0
  monitor := Monitor.init
  done := 0

namespace Experiment

inductive Action (ρ : Type) where
  | launcher (e : ThreadLauncher.Event ρ)
  | monitor (e : MonitorEvent)
  -- A statement of the main thread that calls nothing.
  | main

inductive Step (inputs : Inputs ρ) : Experiment ρ → Action ρ → Experiment ρ → Prop where
  | dryRun {s : Experiment ρ} {i : Nat} {req : ρ} {l : ThreadLauncher.State ρ}
      (hpc : s.main = .dryRun i) (hi : i < dryRunSz) (hreq : inputs.dry[i]? = some req)
      (hstep : LauncherStep s.launcher (.issue req) l) :
      Step inputs s (.launcher (.issue req)) { s with launcher := l, main := .dryRun (i + 1) }
  | wait {s : Experiment ρ} {i : Nat} {l : ThreadLauncher.State ρ} (hpc : s.main = .dryRun i)
      (hi : ¬i < dryRunSz) (hidle : s.launcher.launcher = .idle)
      (hstep : LauncherStep s.launcher .skip l) (hl : l.launcher = .waiting) :
      Step inputs s (.launcher .skip) { s with launcher := l, main := .waiting }
  -- `pthread_create`, and `i = 0`.
  | create {s : Experiment ρ} (hpc : s.main = .waiting) (hidle : s.launcher.launcher = .idle) :
      Step inputs s .main
        { s with monitor := { s.monitor with pc := .started }, main := .testing 0 }
  | proceed {s : Experiment ρ} {i : UInt32} (hpc : s.main = .testing i)
      (hidle : s.launcher.launcher = .idle) (h0 : s.done = 0) :
      Step inputs s .main { s with main := .issuing i }
  | leave {s : Experiment ρ} {i : UInt32} (hpc : s.main = .testing i)
      (hidle : s.launcher.launcher = .idle) (h0 : s.done ≠ 0) :
      Step inputs s .main { s with main := .returned }
  | issue {s : Experiment ρ} {i : UInt32} {req : ρ} {l : ThreadLauncher.State ρ}
      (hpc : s.main = .issuing i) (hreq : inputs.real[i.toNat % numReqs]? = some req)
      (hstep : LauncherStep s.launcher (.issue req) l) :
      Step inputs s (.launcher (.issue req)) { s with launcher := l, main := .testing (i + 1) }
  -- Inside of a call of the launcher.
  | launcher {s : Experiment ρ} {e : ThreadLauncher.Event ρ} {l : ThreadLauncher.State ρ}
      (hbusy : s.launcher.launcher ≠ .idle) (hstep : LauncherStep s.launcher e l) :
      Step inputs s (.launcher e) { s with launcher := l }
  | executor {s : Experiment ρ} {e : ThreadLauncher.Event ρ} {l : ThreadLauncher.State ρ} (i : Nat)
      (hstep : ExecutorStep i s.launcher e l) :
      Step inputs s (.launcher e) { s with launcher := l }
  -- The executors of a `ThreadLauncher` leave the counter of high priority requests at 0.
  | monitor {s : Experiment ρ} {e : MonitorEvent} {m : Monitor}
      (hstep : MonitorStep (UInt64.ofNat s.launcher.txnsExecuted) 0 s.done s.monitor e m) :
      Step inputs s (.monitor e) { s with monitor := m, done := setDone s.done e }

abbrev Runs (inputs : Inputs ρ) (maxOutstanding : Int32) :
    List (Action ρ) → Experiment ρ → Prop :=
  Run (Step inputs) (init ρ maxOutstanding)

def events (tr : List (Action ρ)) : List (ThreadLauncher.Event ρ) :=
  tr.filterMap fun | .launcher e => some e | _ => none

@[simp] theorem events_append (tr tr' : List (Action ρ)) :
    events (tr ++ tr') = events tr ++ events tr' := List.filterMap_append

@[simp] theorem events_launcher (e : ThreadLauncher.Event ρ) : events [.launcher e] = [e] := rfl

@[simp] theorem events_monitor (e : MonitorEvent) : events (ρ := ρ) [.monitor e] = [] := rfl

@[simp] theorem events_main : events (ρ := ρ) [.main] = [] := rfl

section Runs
variable {inputs : Inputs ρ} {M : Int32} {tr tr' : List (Action ρ)} {s s' : Experiment ρ}
  {a : Action ρ}

theorem launcher_run (h : Runs inputs M tr s) :
    ThreadLauncher.Runs M (events tr) s.launcher := by
  apply h.simulate (f := launcher) fun | .launcher e => some e | _ => none
  intro tr s a s' _ hstep
  cases hstep with
  | dryRun _ _ _ hstep => exact Or.inr ⟨_, rfl, .launcher hstep⟩
  | wait _ _ _ hstep _ => exact Or.inr ⟨_, rfl, .launcher hstep⟩
  | issue _ _ hstep => exact Or.inr ⟨_, rfl, .launcher hstep⟩
  | launcher _ hstep => exact Or.inr ⟨_, rfl, .launcher hstep⟩
  | executor i hstep => exact Or.inr ⟨_, rfl, .executor i hstep⟩
  | create hpc hidle => exact Or.inl ⟨rfl, rfl⟩
  | proceed hpc hidle h0 => exact Or.inl ⟨rfl, rfl⟩
  | leave hpc hidle h0 => exact Or.inl ⟨rfl, rfl⟩
  | monitor hstep => exact Or.inl ⟨rfl, rfl⟩

end Runs

def early : MainPc → Bool
  | .dryRun _ => true
  | .waiting => true
  | _ => false

/-- What the main thread and the monitor know of each other. -/
structure Paired (s : Experiment ρ) : Prop where
  early : early s.main = true → s.monitor = Monitor.init
  late : Experiment.early s.main = false → s.monitor.pc ≠ .absent
  done : s.done = s.monitor.flag
  filled : s.monitor.Filled
  returned : s.main = .returned → s.monitor.pc = .exited

section Paired
variable {inputs : Inputs ρ} {M : Int32} {tr tr' : List (Action ρ)} {s s' : Experiment ρ}
  {a : Action ρ}

theorem Paired.init (M : Int32) : Paired (Experiment.init ρ M) where
  early _ := rfl
  late h := by cases h
  done := rfl
  filled := ⟨rfl, rfl⟩
  returned h := by cases h

theorem Paired.keep (h : Paired s) (hmonitor : s'.monitor = s.monitor) (hdone : s'.done = s.done)
    (hearly : Experiment.early s'.main = Experiment.early s.main)
    (hreturned : s'.main = .returned → s.monitor.pc = .exited) : Paired s' where
  early h' := hmonitor.trans (h.early (hearly ▸ h'))
  late h' := hmonitor ▸ h.late (hearly ▸ h')
  done := by rw [hdone, hmonitor, h.done]
  filled := hmonitor ▸ h.filled
  returned h' := hmonitor ▸ hreturned h'

theorem flag_ne_zero {m : Monitor} (h : m.flag ≠ 0) : m.pc = .exited := by
  unfold Monitor.flag at h
  split at h
  · assumption
  · exact absurd rfl h

theorem Paired.step (h : Paired s) (hstep : Step inputs s a s') : Paired s' := by
  cases hstep with
  | dryRun hpc | wait hpc | proceed hpc | issue hpc =>
    exact h.keep rfl rfl (by rw [hpc]; rfl) nofun
  | launcher | executor => exact h.keep rfl rfl rfl h.returned
  | leave hpc hidle h0 =>
    refine h.keep rfl rfl (by rw [hpc]; rfl) fun _ => ?_
    exact flag_ne_zero (h.done ▸ h0)
  | create hpc hidle =>
    have hinit := h.early (by rw [hpc]; rfl)
    have hdone := h.done
    constructor
    · nofun
    · intro _
      nofun
    · show s.done = _
      rw [hdone, hinit]
      rfl
    · rw [hinit]
      exact ⟨rfl, rfl⟩
    · nofun
  | monitor hstep =>
    obtain ⟨habsent, hexit, habsent'⟩ := hstep.running
    constructor
    · intro hearly
      rw [h.early hearly] at habsent
      exact absurd rfl habsent
    · exact fun _ => habsent'
    · exact hstep.flag h.done
    · exact hstep.filled h.filled h.done
    · exact fun hret => absurd (h.returned hret) hexit

theorem paired_of_run (h : Runs inputs M tr s) : Paired s :=
  h.stateInvariant (Paired.init M) fun hpaired hstep => hpaired.step hstep

end Paired

/-- The requests of the first `n` passes of the second loop. -/
def circle (inputs : Inputs ρ) (n : Nat) : List ρ := (List.range n).map inputs.pass

/-- What has been passed to `ExecuteRequest` when the main thread is here. -/
def Ordered (inputs : Inputs ρ) (reqs : List ρ) : MainPc → Prop
  | .dryRun i => i ≤ dryRunSz ∧ reqs = inputs.dry.take i
  | .waiting => reqs = inputs.dry
  | .testing i | .issuing i => ∃ n, reqs = inputs.dry ++ circle inputs n ∧ i = UInt32.ofNat n
  | .returned => ∃ n, reqs = inputs.dry ++ circle inputs n

def pending : MainPc → Nat
  | .issuing _ => 1
  | _ => 0

section Requests
variable {inputs : Inputs ρ} {M : Int32} {tr tr' : List (Action ρ)} {s s' : Experiment ρ}
  {a : Action ρ} {n : Nat} {req : ρ} {e : ThreadLauncher.Event ρ} {l l' : ThreadLauncher.State ρ}

theorem issued_of_busy (hbusy : l.launcher ≠ .idle) (hstep : LauncherStep l e l') :
    issued [e] = [] := by
  cases hstep with
  | issue req hpc => exact absurd hpc hbusy
  | _ => rfl

theorem issued_of_executor {i : Nat} (hstep : ExecutorStep i l e l') : issued [e] = [] := by
  cases hstep with
  | _ => rfl

theorem circle_succ (hreq : inputs.real[(UInt32.ofNat n).toNat % numReqs]? = some req) :
    circle inputs (n + 1) = circle inputs n ++ [req] := by
  rw [UInt32.toNat_ofNat'] at hreq
  obtain ⟨_, rfl⟩ := List.getElem?_eq_some_iff.mp hreq
  rw [circle, List.range_succ, List.map_append]
  rfl

theorem Ordered.step (h : Ordered inputs (issued (events tr)) s.main)
    (hstep : Step inputs s a s') : Ordered inputs (issued (events (tr ++ [a]))) s'.main := by
  rw [events_append, issued_append]
  cases hstep with
  | dryRun hpc hi hreq hstep =>
    rw [hpc] at h
    refine ⟨hi, ?_⟩
    rw [h.2, List.take_add_one, hreq]
    rfl
  | wait hpc hi hidle hstep hl =>
    rw [hpc] at h
    show _ ++ [] = inputs.dry
    rw [List.append_nil, h.2]
    apply List.take_of_length_le
    rw [inputs.dry_length]
    exact Nat.le_of_not_lt hi
  | create hpc hidle =>
    rw [hpc] at h
    refine ⟨0, ?_, rfl⟩
    rw [circle, List.range_zero, List.map_nil, ← h]
    rfl
  | proceed hpc hidle h0 =>
    rw [hpc] at h
    exact (List.append_nil (issued (events tr))).symm ▸ h
  | leave hpc hidle h0 =>
    rw [hpc] at h
    obtain ⟨n, hreqs, _⟩ := h
    exact ⟨n, (List.append_nil _).trans hreqs⟩
  | issue hpc hreq hstep =>
    rw [hpc] at h
    obtain ⟨n, hreqs, rfl⟩ := h
    refine ⟨n + 1, ?_, (UInt32.ofNat_add n 1).symm⟩
    rw [circle_succ hreq, hreqs, List.append_assoc]
    rfl
  | launcher hbusy hstep =>
    rw [events_launcher, issued_of_busy hbusy hstep, List.append_nil]
    exact h
  | executor i hstep =>
    rw [events_launcher, issued_of_executor hstep, List.append_nil]
    exact h
  | monitor hstep => exact (List.append_nil (issued (events tr))).symm ▸ h

theorem ordered_of_run (h : Runs inputs M tr s) : Ordered inputs (issued (events tr)) s.main := by
  apply h.invariant (I := fun tr s => Ordered inputs (issued (events tr)) s.main)
  · exact ⟨Nat.zero_le _, rfl⟩
  · exact fun _ hordered hstep => hordered.step hstep

theorem issued_after_done (h : Runs inputs M tr s) (hdone : s.done ≠ 0)
    (hlater : Run (Step inputs) s tr' s') :
    (issued (events tr')).length + pending s'.main ≤ pending s.main ∧ s'.done ≠ 0 := by
  induction hlater with
  | nil => exact ⟨Nat.le_of_eq (Nat.zero_add _), hdone⟩
  | @snoc _ m _ _ hr hstep ih =>
    obtain ⟨hle, hflag⟩ := ih
    have hpaired := paired_of_run (h.trans hr)
    have hexit := flag_ne_zero (hpaired.done ▸ hflag)
    have hlate : early m.main ≠ true := by
      intro hearly
      rw [hpaired.early hearly] at hexit
      cases hexit
    rw [events_append, issued_append, List.length_append]
    cases hstep with
    | dryRun hpc | wait hpc | create hpc =>
      rw [hpc] at hlate
      exact absurd rfl hlate
    | proceed hpc hidle h0 => exact absurd h0 hflag
    | leave hpc hidle h0 => exact ⟨Nat.le_trans (Nat.le_add_right _ _) hle, hflag⟩
    | issue hpc hreq hstep =>
      rw [hpc] at hle
      exact ⟨hle, hflag⟩
    | launcher hbusy hstep =>
      rw [events_launcher, issued_of_busy hbusy hstep]
      exact ⟨hle, hflag⟩
    | executor i hstep =>
      rw [events_launcher, issued_of_executor hstep]
      exact ⟨hle, hflag⟩
    | monitor hstep => exact absurd hexit hstep.running.2.1

end Requests

def CallStep (l : ThreadLauncher.State ρ) (e : ThreadLauncher.Event ρ)
    (l' : ThreadLauncher.State ρ) : Prop :=
  l.launcher ≠ .idle ∧ LauncherStep l e l' ∨ ∃ i, ExecutorStep i l e l'

/-- `n` requests were executed one after the other, and all is cleaned up. -/
structure Quiet (l : ThreadLauncher.State ρ) (n : Nat) : Prop where
  launcher : l.launcher = .idle
  permits : l.maxOutstanding = 1
  unlocked : l.maxOutstandingMutex = none ∧ l.targListMutex = none ∧ l.targList = none
  requests : l.numRequests = n ∧ l.txnsExecuted = n ∧ l.executors.length = n

section Complete
variable {inputs : Inputs ρ} {tr : List (ThreadLauncher.Event ρ)} {l l' : ThreadLauncher.State ρ}
  {n i : Nat} {req : ρ} {x : Executor ρ}

theorem set_self {xs : List (Executor ρ)} (hx : xs[i]? = some x) (y : Executor ρ) :
    (xs.set i y)[i]? = some y := by
  rw [Threads.getElem?_set hx, if_pos rfl]

/-- The executor comes to its end before the launcher takes its permit. -/
theorem exists_call (h : Quiet l n) (req : ρ) : ∃ l₁ tr l', LauncherStep l (.issue req) l₁ ∧
    Run CallStep l₁ tr l' ∧ Quiet l' (n + 1) := by
  obtain ⟨requests, executed, permits, mutex, listMutex, list, args, ids, pc, xs⟩ := l
  obtain ⟨rfl, rfl, ⟨rfl, rfl, rfl⟩, rfl, hexecuted, hlength⟩ := h
  have hexecuted : executed = requests := hexecuted
  have hlength : xs.length = requests := hlength
  subst hexecuted hlength
  have run : Run CallStep ⟨xs.length + 1, xs.length, 1, none, none, none, args, ids, .issued req,
    xs⟩ [] _ := .nil
  have run := run.snoc (.inl ⟨nofun, .allocate 0 rfl⟩)
  have run := run.snoc (.inl ⟨nofun, .create rfl⟩)
  have hx : (xs ++ [(⟨xs.length, .created⟩ : Executor ρ)])[xs.length]? = _ :=
    List.getElem?_concat_length
  have run := run.snoc (.inr ⟨xs.length, .execute hx (Function.update_self _ _ _)⟩)
  have hx := set_self hx ⟨xs.length, (.executing req)⟩
  have run := run.snoc (.inr ⟨xs.length, .executed hx⟩)
  have hx := set_self hx ⟨xs.length, .lockingList⟩
  have run := run.snoc (.inr ⟨xs.length, .lockList hx rfl⟩)
  have hx := set_self hx ⟨xs.length, .settingNext⟩
  have run := run.snoc (.inr ⟨xs.length, .setNext hx⟩)
  have hx := set_self hx ⟨xs.length, .publishing⟩
  have run := run.snoc (.inr ⟨xs.length, .publish hx⟩)
  have hx := set_self hx ⟨xs.length, .unlockingList⟩
  have run := run.snoc (.inr ⟨xs.length, .unlockList hx⟩)
  have hx := set_self hx ⟨xs.length, .locking⟩
  have run := run.snoc (.inr ⟨xs.length, .lock hx rfl⟩)
  have hx := set_self hx ⟨xs.length, .incrementing⟩
  have run := run.snoc (.inr ⟨xs.length, .increment hx⟩)
  have hx := set_self hx ⟨xs.length, .signalling⟩
  have run := run.snoc (.inr ⟨xs.length, .signalNobody hx nofun⟩)
  have hx := set_self hx ⟨xs.length, .unlocking⟩
  have run := run.snoc (.inr ⟨xs.length, .unlock hx⟩)
  have hx := set_self hx ⟨xs.length, .counting⟩
  have run := run.snoc (.inr ⟨xs.length, .count hx⟩)
  have hx := set_self hx ⟨xs.length, .exited⟩
  have hfree : ¬(1 + 1 : UInt32) ≤ 0 := by decide
  have run := run.snoc (.inl ⟨nofun, .lock rfl rfl⟩)
  have run := run.snoc (.inl ⟨nofun, .pass rfl hfree⟩)
  have run := run.snoc (.inl ⟨nofun, .take rfl⟩)
  have run := run.snoc (.inl ⟨nofun, .unlock rfl⟩)
  have run := run.snoc (.inl ⟨nofun, .lockList rfl rfl⟩)
  have run := run.snoc (.inl ⟨nofun, .detach rfl⟩)
  have run := run.snoc (.inl ⟨nofun, .clear rfl⟩)
  have run := run.snoc (.inl ⟨nofun, .unlockList rfl⟩)
  have harg : Function.update (Function.update args xs.length (some ⟨req, xs.length, none⟩))
      xs.length ((Function.update args xs.length (some ⟨req, xs.length, none⟩) xs.length).map
        fun a => { a with next := none }) xs.length = some ⟨req, xs.length, none⟩ := by
    simp
  have hid : Function.update (Function.update ids xs.length (some 0)) xs.length (some xs.length)
      xs.length = some xs.length := Function.update_self _ _ _
  have run := run.snoc (.inl ⟨nofun, .next rfl harg⟩)
  have run := run.snoc (.inl ⟨nofun, .join rfl harg hid hx rfl⟩)
  have run := run.snoc (.inl ⟨nofun, .freeId rfl harg⟩)
  have run := run.snoc (.inl ⟨nofun, .free rfl⟩)
  have run := run.snoc (.inl ⟨nofun, .ret rfl⟩)
  refine ⟨_, _, _, .issue req rfl, run, rfl, ?_, ⟨rfl, rfl, rfl⟩, rfl, rfl, ?_⟩
  · show (1 + 1 - 1 : UInt32) = 1
    decide
  · simp [ThreadLauncher.State.goto]

/-- The other threads may wait in the meantime. -/
theorem run_of_call (main : MainPc) (monitor : Monitor) (done : UInt64)
    (h : Run CallStep l tr l') : Run (Step inputs) ⟨l, main, monitor, done⟩ (tr.map .launcher)
      ⟨l', main, monitor, done⟩ := by
  induction h with
  | nil => exact .nil
  | snoc hr hstep ih =>
    rw [List.map_append, List.map_singleton]
    rcases hstep with ⟨hbusy, hstep⟩ | ⟨i, hstep⟩
    · exact ih.snoc (.launcher hbusy hstep)
    · exact ih.snoc (.executor i hstep)

theorem exists_dryRun (inputs : Inputs ρ) {k : Nat} (hk : k ≤ dryRunSz) : ∃ tr l,
    Runs inputs 1 tr ⟨l, .dryRun k, Monitor.init, 0⟩ ∧ Quiet l k := by
  induction k with
  | zero => exact ⟨[], _, .nil, rfl, rfl, ⟨rfl, rfl, rfl⟩, rfl, rfl, rfl⟩
  | succ k ih =>
    obtain ⟨tr, l, run, hquiet⟩ := ih (Nat.le_of_succ_le hk)
    have hlt : k < inputs.dry.length := inputs.dry_length ▸ hk
    obtain ⟨l₁, tr', l', hissue, hcall, hquiet'⟩ := exists_call hquiet inputs.dry[k]
    have run := run.snoc (.dryRun rfl hk (List.getElem?_eq_getElem hlt) hissue)
    exact ⟨_, l', run.trans (run_of_call _ _ _ hcall), hquiet'⟩

/-- What the clock says when `i` rounds of the monitor are over. -/
def second (i : Nat) : Timespec := { Monitor.init.prevTime with sec := i }

theorem exists_request (inputs : Inputs ρ) (i : UInt32) :
    ∃ req, inputs.real[i.toNat % numReqs]? = some req := by
  have hlt : i.toNat % numReqs < inputs.real.length := by
    rw [inputs.real_length]
    exact Nat.mod_lt _ (Nat.zero_lt_succ 1999999)
  exact ⟨_, List.getElem?_eq_getElem hlt⟩

/-- The monitor is at the head of its loop, and one request was executed in each round. -/
structure Sampling (inputs : Inputs ρ) (i : Nat) (tr : List (Action ρ))
    (l : ThreadLauncher.State ρ) (m : Monitor) : Prop where
  run : Runs inputs 1 tr ⟨l, .testing (UInt32.ofNat i), m, 0⟩
  quiet : Quiet l (dryRunSz + i)
  pc : m.pc = .testing i
  prevTxns : m.prevTxns = UInt64.ofNat (dryRunSz + i)
  prevTime : m.prevTime = second i
  rates : ∀ r ∈ m.results, r.executed = 1 ∧ r.interval.nanos = 1000000000

theorem exists_sampling_zero (inputs : Inputs ρ) : ∃ tr l m, Sampling inputs 0 tr l m := by
  obtain ⟨tr, l, run, hquiet⟩ := exists_dryRun inputs (Nat.le_refl dryRunSz)
  have run := run.snoc (.wait rfl (Nat.lt_irrefl _) hquiet.launcher
    (.waitOutstanding hquiet.launcher) rfl)
  have hall : l.txnsExecuted = l.numRequests :=
    hquiet.requests.2.1.trans hquiet.requests.1.symm
  have run := run.snoc (.launcher nofun (.waited rfl (by rw [hall])))
  have run := run.snoc (.create rfl rfl)
  have run := run.snoc (.monitor (.start rfl rfl))
  have run := run.snoc (.monitor (.read rfl))
  have run := run.snoc (.monitor (.readHigh rfl))
  have run := run.snoc (.monitor (.readTime (second 0) rfl))
  refine ⟨_, _, _, run, ⟨rfl, hquiet.permits, hquiet.unlocked, hquiet.requests⟩, rfl, ?_, rfl, ?_⟩
  · exact congrArg UInt64.ofNat hquiet.requests.2.1
  · exact fun r hr => absurd hr List.not_mem_nil

theorem Sampling.round {l : ThreadLauncher.State ρ} {tr : List (Action ρ)} {m : Monitor}
    (h : Sampling inputs i tr l m) (hi : i < exptLen) :
    ∃ tr' l' m', Sampling inputs (i + 1) tr' l' m' := by
  obtain ⟨req, hreq⟩ := exists_request inputs (UInt32.ofNat i)
  obtain ⟨l₁, trc, l', hissue, hcall, hquiet⟩ := exists_call h.quiet req
  have run := h.run
  have run := run.snoc (.monitor (.enter h.pc hi))
  have run := run.snoc (.proceed rfl h.quiet.launcher rfl)
  have run := run.snoc (.issue rfl hreq hissue)
  have run := run.trans (run_of_call _ _ _ hcall)
  have hnext : UInt32.ofNat i + 1 = UInt32.ofNat (i + 1) := (UInt32.ofNat_add i 1).symm
  rw [hnext] at run
  have run := run.snoc (.monitor (.count rfl))
  have run := run.snoc (.monitor (.countHigh rfl))
  have run := run.snoc (.monitor (.time (second (i + 1)) rfl))
  have run := run.snoc (.monitor (.store rfl))
  have run := run.snoc (.monitor (.storeHigh rfl))
  have run := run.snoc (.monitor (.keep rfl))
  refine ⟨_, l', _, run, hquiet, rfl, ?_, rfl, ?_⟩
  · exact congrArg UInt64.ofNat hquiet.requests.2.1
  · intro r hr
    rcases List.mem_append.mp hr with hold | hnew
    · exact h.rates r hold
    · obtain rfl := List.mem_singleton.mp hnew
      constructor
      · show UInt64.ofNat l'.txnsExecuted - m.prevTxns = 1
        rw [hquiet.requests.2.1, h.prevTxns, UInt64.ofNat_add, UInt64.add_comm]
        exact UInt64.add_sub_cancel _ _
      · show ((second (i + 1)).diffTime m.prevTime).nanos = 1000000000
        rw [h.prevTime, Timespec.nanos_diffTime]
        simp only [second, Timespec.nanos, Monitor.init]
        omega

theorem exists_sampling (inputs : Inputs ρ) {i : Nat} (hi : i ≤ exptLen) :
    ∃ tr l m, Sampling inputs i tr l m := by
  induction i with
  | zero => exact exists_sampling_zero inputs
  | succ i ih =>
    obtain ⟨tr, l, m, h⟩ := ih (Nat.le_of_succ_le hi)
    exact h.round hi

/-- The main thread has passed its test when the monitor sets the flag, so it issues one more
request. -/
theorem exists_returned (inputs : Inputs ρ) : ∃ tr s tr' s', Runs inputs 1 tr s ∧ s.done ≠ 0 ∧
    Run (Step inputs) s tr' s' ∧ s'.main = .returned ∧
    Quiet s'.launcher (dryRunSz + exptLen + 1) ∧
    s.launcher.numRequests = dryRunSz + exptLen ∧
    ∀ r ∈ s'.monitor.results, r.executed = 1 ∧ r.interval.nanos = 1000000000 := by
  obtain ⟨tr, l, m, h⟩ := exists_sampling inputs (Nat.le_refl exptLen)
  obtain ⟨req, hreq⟩ := exists_request inputs (UInt32.ofNat exptLen)
  obtain ⟨l₁, trc, l', hissue, hcall, hquiet⟩ := exists_call h.quiet req
  have run := h.run
  have run := run.snoc (.monitor (.finish h.pc (Nat.lt_irrefl _)))
  have run := run.snoc (.monitor (.check rfl rfl))
  have run := run.snoc (.proceed rfl h.quiet.launcher rfl)
  have run := run.snoc (.monitor (.signal rfl))
  have hset : (0 + 1 : UInt64) ≠ 0 := by decide
  have later := run.here
  have later := later.snoc (.issue rfl hreq hissue)
  have later := later.trans (run_of_call _ _ _ hcall)
  have later := later.snoc (.leave rfl hquiet.launcher hset)
  exact ⟨_, _, _, _, run, hset, later, rfl, hquiet, h.quiet.requests.1, h.rates⟩

def numbered : Inputs Nat where
  dry := List.range dryRunSz
  real := List.range' dryRunSz numReqs
  dry_length := List.length_range
  real_length := List.length_range'

end Complete

/-- The main thread does not join the monitor, and yet it returns to complete arrays that nobody
writes any more; the assertions on the flag hold. -/
theorem results_published {inputs : Inputs ρ} {M : Int32} {tr : List (Action ρ)}
    {s : Experiment ρ} (h : Runs inputs M tr s) :
    s.monitor.pc ≠ .aborted ∧ s.done.toNat ≤ 1 ∧
    (s.main = .returned → s.monitor.results.length = exptLen ∧
      s.monitor.highPriorityResults.length = exptLen ∧
      ∀ tr' s', Run (Step inputs) s tr' s' → s'.monitor = s.monitor) := by
  have hpaired := paired_of_run h
  have hfilled := hpaired.filled
  unfold Monitor.Filled at hfilled
  refine ⟨?_, ?_, ?_⟩
  · intro hpc
    rw [hpc] at hfilled
    exact hfilled
  · rw [hpaired.done]
    unfold Monitor.flag
    split
    · exact Nat.le_refl 1
    · exact Nat.zero_le 1
  · intro hmain
    have hexit := hpaired.returned hmain
    rw [hexit] at hfilled
    refine ⟨hfilled.1, hfilled.2, fun tr' s' hlater => ?_⟩
    induction hlater with
    | nil => rfl
    | snoc hr hstep ih =>
      cases hstep with
      | monitor hstep => exact absurd (ih ▸ hexit) hstep.running.2.1
      | create hpc hidle =>
        have hearly := (paired_of_run (h.trans hr)).early (by rw [hpc]; rfl)
        rw [ih] at hearly
        rw [hearly] at hexit
        cases hexit
      | _ => exact ih

theorem results_published_end : ∃ tr s, Runs numbered 1 tr s ∧ s.main = .returned ∧
    s.launcher.numRequests = 1061 ∧ s.monitor.results.length = 60 ∧
    ∀ r ∈ s.monitor.results, r.executed = 1 := by
  obtain ⟨tr, _, tr', s, run, _, later, hmain, hquiet, _, hrates⟩ := exists_returned numbered
  have run := run.trans later
  exact ⟨_, s, run, hmain, hquiet.requests.1, ((results_published run).2.2 hmain).1,
    fun r hr => (hrates r hr).1⟩

/-- The requests come in the order of the arrays, the second one in a circle that the 32 bits of
`i` break, and after the flag is set at most one more is issued. -/
theorem requests_in_order {inputs : Inputs ρ} {M : Int32} {tr : List (Action ρ)}
    {s : Experiment ρ} (h : Runs inputs M tr s) :
    (∃ k n, issued (events tr) = inputs.dry.take k ++ circle inputs n ∧
      (0 < n → k = dryRunSz)) ∧
    (s.done ≠ 0 → ∀ tr' s', Run (Step inputs) s tr' s' → (issued (events tr')).length ≤ 1) := by
  have hall : inputs.dry.take dryRunSz = inputs.dry :=
    List.take_of_length_le (Nat.le_of_eq inputs.dry_length)
  constructor
  · have hordered := ordered_of_run h
    cases hpc : s.main with
    | dryRun i =>
      rw [hpc] at hordered
      exact ⟨i, 0, hordered.2.trans (List.append_nil _).symm, fun hn => absurd hn (Nat.lt_irrefl 0)⟩
    | waiting =>
      rw [hpc] at hordered
      refine ⟨dryRunSz, 0, ?_, fun _ => rfl⟩
      rw [hall]
      exact hordered.trans (List.append_nil _).symm
    | testing i | issuing i =>
      rw [hpc] at hordered
      obtain ⟨n, hreqs, _⟩ := hordered
      exact ⟨dryRunSz, n, by rw [hall, hreqs], fun _ => rfl⟩
    | returned =>
      rw [hpc] at hordered
      obtain ⟨n, hreqs⟩ := hordered
      exact ⟨dryRunSz, n, by rw [hall, hreqs], fun _ => rfl⟩
  · intro hdone tr' s' hlater
    obtain ⟨hle, _⟩ := issued_after_done h hdone hlater
    have hone : pending s.main ≤ 1 := by
      unfold pending
      split
      · exact Nat.le_refl 1
      · exact Nat.zero_le 1
    omega

/-- All 61 requests of the circle, of which the last one comes after the flag. -/
theorem requests_in_order_end : ∃ tr s tr' s', Runs numbered 1 tr s ∧ s.done ≠ 0 ∧
    Run (Step numbered) s tr' s' ∧ s'.main = .returned ∧
    issued (events (tr ++ tr')) = numbered.dry ++ circle numbered 61 ∧
    (issued (events tr')).length = 1 := by
  obtain ⟨tr, s, tr', s', run, hdone, later, hmain, hquiet, hrequests, _⟩ :=
    exists_returned numbered
  have hcount : ∀ {tr s}, Runs numbered 1 tr s →
      (issued (events tr)).length = s.launcher.numRequests := fun h => by
    have hl := launcher_run h
    rw [(executed_of_run hl).issued_length]
  have hbefore := (hcount run).trans hrequests
  have hafter := (hcount (run.trans later)).trans hquiet.requests.1
  obtain ⟨k, n, hissued, hdry⟩ := (requests_in_order (run.trans later)).1
  have hle := (requests_in_order run).2 hdone tr' s' later
  refine ⟨tr, s, tr', s', run, hdone, later, hmain, ?_, ?_⟩
  · have hlen := congrArg List.length hissued
    rw [hafter, List.length_append, List.length_take, circle, List.length_map, List.length_range,
      numbered.dry_length] at hlen
    have hn : 0 < n := by
      have hmin := Nat.min_le_right k dryRunSz
      unfold dryRunSz exptLen at *
      omega
    obtain rfl := hdry hn
    obtain rfl : n = 61 := by
      rw [Nat.min_self] at hlen
      unfold dryRunSz exptLen at hlen
      omega
    rw [hissued, List.take_of_length_le (Nat.le_of_eq numbered.dry_length)]
  · rw [events_append, issued_append, List.length_append, hbefore] at hafter
    omega

end Experiment

end Cmsc624.A1
