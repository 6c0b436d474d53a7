import Cmsc624.A1.Experiment

/-!
# What the experiment measures

The reads of the counter by the monitor split the executors into windows. A stored rate is the
size of one window over the time that has passed.
-/

namespace Cmsc624.A1

open Lib ThreadLauncher

set_option autoImplicit false

variable {ρ : Type}

namespace Experiment

/-- The executors that have counted, split at the reads of the counter by the monitor. -/
structure Windows where
  closed : List (List Nat)
  current : List Nat

def Windows.add (w : Windows) : Action ρ → Windows
  | .launcher (.count i) => { w with current := w.current ++ [i] }
  | .monitor .read => ⟨w.closed ++ [w.current], []⟩
  | _ => w

def windows (tr : List (Action ρ)) : Windows := tr.foldl Windows.add ⟨[], []⟩

def clocks (tr : List (Action ρ)) : List Timespec :=
  tr.filterMap fun | .monitor (.clock now) => some now | _ => none

/-- `r` is made of the window that ends with read `k + 1`, and of the clock around it. -/
def Measures (closed : List (List Nat)) (cl : List Timespec) (k : Nat) (r : Rate) : Prop :=
  ∃ win start stop, closed[k + 1]? = some win ∧ cl[k]? = some start ∧ cl[k + 1]? = some stop ∧
    r.executed = UInt64.ofNat win.length ∧ r.interval = stop.diffTime start

/-- The monitor has counted the windows before the last one, and read the counter after it. -/
def Counting (m : Monitor) (closed : List (List Nat)) (i : Nat) (total : UInt64) : Prop :=
  ∃ before win, closed = before ++ [win] ∧ before.length = i + 1 ∧
    m.prevTxns = UInt64.ofNat before.flatten.length ∧
    total = UInt64.ofNat (before.flatten.length + win.length)

/-- What the variables of the monitor are at each statement. -/
def Sampled (m : Monitor) (closed : List (List Nat)) (cl : List Timespec) : Prop :=
  match m.pc with
  | .absent | .started | .reading => closed = [] ∧ cl = []
  | .readingHigh | .readingTime =>
      closed.length = 1 ∧ m.prevTxns = UInt64.ofNat closed.flatten.length ∧ cl = []
  | .testing i | .counting i => closed.length = i + 1 ∧
      m.prevTxns = UInt64.ofNat closed.flatten.length ∧ cl.length = i + 1 ∧
      cl[i]? = some m.prevTime
  | .countingHigh i total | .timing i total _ =>
      Counting m closed i total ∧ cl.length = i + 1 ∧ cl[i]? = some m.prevTime
  | .storing i total _ now => Counting m closed i total ∧ cl.length = i + 2 ∧
      cl[i]? = some m.prevTime ∧ cl[i + 1]? = some now
  | .storingHigh i total _ now | .keeping i total _ now => Counting m closed i total ∧
      cl.length = i + 2 ∧ cl[i + 1]? = some now
  | _ => True

section Windows
variable {inputs : Inputs ρ} {M : Int32} {tr tr' : List (Action ρ)} {s s' : Experiment ρ}
  {a : Action ρ} {closed : List (List Nat)} {cl : List Timespec} {k i : Nat} {r : Rate}
  {executed highPriority done : UInt64} {m m' : Monitor} {e : MonitorEvent}

@[simp] theorem windows_concat (tr : List (Action ρ)) (a : Action ρ) :
    windows (tr ++ [a]) = (windows tr).add a := List.foldl_append

@[simp] theorem clocks_append (tr tr' : List (Action ρ)) :
    clocks (tr ++ tr') = clocks tr ++ clocks tr' := List.filterMap_append

theorem Measures.mono (h : Measures closed cl k r) (closed' : List (List Nat))
    (cl' : List Timespec) : Measures (closed ++ closed') (cl ++ cl') k r := by
  obtain ⟨win, start, stop, hwin, hstart, hstop, hrate⟩ := h
  have hkeep : ∀ {α : Type} {l : List α} {j : Nat} {x : α} (l' : List α), l[j]? = some x →
      (l ++ l')[j]? = some x := by
    intro α l j x l' hx
    rw [List.getElem?_append_left (List.getElem?_eq_some_iff.mp hx).1]
    exact hx
  exact ⟨win, start, stop, hkeep _ hwin, hkeep _ hstart, hkeep _ hstop, hrate⟩

theorem Counting.difference {total : UInt64} (h : Counting m closed i total) :
    ∃ win, closed[i + 1]? = some win ∧ total - m.prevTxns = UInt64.ofNat win.length := by
  obtain ⟨before, win, rfl, hlength, hprev, rfl⟩ := h
  refine ⟨win, ?_, ?_⟩
  · rw [← hlength, List.getElem?_concat_length]
  · rw [hprev, UInt64.ofNat_add, UInt64.add_comm, UInt64.add_sub_cancel]

theorem Sampled.step {w : Windows} (h : Sampled m w.closed cl)
    (hexec : executed = UInt64.ofNat (w.closed.flatten.length + w.current.length))
    (hstep : MonitorStep executed highPriority done m e m') :
    Sampled m' (w.add (ρ := ρ) (.monitor e)).closed (cl ++ clocks (ρ := ρ) [.monitor e]) := by
  unfold Sampled at h
  cases hstep with
  | start hpc | readHigh hpc | enter hpc | countHigh hpc =>
    rw [hpc] at h
    exact (List.append_nil cl).symm ▸ h
  | startAborts hpc | finish hpc | check hpc | checkAborts hpc | signal hpc => exact trivial
  | read hpc =>
    rw [hpc] at h
    obtain ⟨hclosed, rfl⟩ := h
    rw [hclosed] at hexec
    refine ⟨?_, ?_, rfl⟩
    · rw [Windows.add, hclosed]
      rfl
    · rw [Windows.add, hclosed]
      simpa using hexec
  | readTime now hpc =>
    rw [hpc] at h
    obtain ⟨hlength, hprev, rfl⟩ := h
    exact ⟨hlength, hprev, rfl, rfl⟩
  | count hpc =>
    rw [hpc] at h
    obtain ⟨hlength, hprev, hcl, hlast⟩ := h
    rw [show clocks (ρ := ρ) [.monitor .read] = [] from rfl, List.append_nil]
    exact ⟨⟨w.closed, w.current, rfl, hlength, hprev, hexec⟩, hcl, hlast⟩
  | time now hpc =>
    rw [hpc] at h
    obtain ⟨hcount, hcl, hlast⟩ := h
    refine ⟨hcount, ?_, ?_, ?_⟩
    · rw [List.length_append, hcl]
      rfl
    · rw [List.getElem?_append_left (by omega)]
      exact hlast
    · rw [← hcl]
      exact List.getElem?_concat_length
  | store hpc =>
    rw [hpc] at h
    obtain ⟨hcount, hcl, _, hnow⟩ := h
    exact (List.append_nil cl).symm ▸ ⟨hcount, hcl, hnow⟩
  | storeHigh hpc =>
    rw [hpc] at h
    exact (List.append_nil cl).symm ▸ h
  | keep hpc =>
    rw [hpc] at h
    obtain ⟨⟨before, win, hclosed, hlength, _, htotal⟩, hcl, hnow⟩ := h
    rw [show clocks (ρ := ρ) [.monitor .skip] = [] from rfl, List.append_nil]
    refine ⟨?_, ?_, hcl, hnow⟩
    · show w.closed.length = _
      rw [hclosed, List.length_append, hlength]
      rfl
    · show _ = UInt64.ofNat w.closed.flatten.length
      rw [htotal, hclosed, List.flatten_append, List.length_append, List.flatten_singleton]

/-- What is stored measures the window that was closed last. -/
theorem measures_step {w : Windows} (h : Sampled m w.closed cl) (hfilled : m.Filled)
    (hresults : ∀ (k : Nat) (r : Rate), m.results[k]? = some r → Measures w.closed cl k r)
    (hstep : MonitorStep executed highPriority done m e m') (k : Nat) (r : Rate)
    (hr : m'.results[k]? = some r) :
    Measures (w.add (ρ := ρ) (.monitor e)).closed (cl ++ clocks (ρ := ρ) [.monitor e]) k r := by
  have hgrows : ∃ more, (w.add (ρ := ρ) (.monitor e)).closed = w.closed ++ more := by
    cases e with
    | read => exact ⟨[w.current], rfl⟩
    | _ => exact ⟨[], (List.append_nil _).symm⟩
  obtain ⟨more, hmore⟩ := hgrows
  rw [hmore]
  apply Measures.mono
  cases hstep with
  | store hpc =>
    unfold Sampled at h
    unfold Monitor.Filled at hfilled
    rw [hpc] at h hfilled
    obtain ⟨hcount, _, hlast, hnow⟩ := h
    obtain ⟨_, hlength, _⟩ := hfilled
    by_cases hk : k < m.results.length
    · rw [List.getElem?_append_left hk] at hr
      exact hresults k r hr
    · have hbound := (List.getElem?_eq_some_iff.mp hr).1
      rw [List.length_append, List.length_singleton] at hbound
      obtain rfl : k = m.results.length := by omega
      rw [List.getElem?_concat_length] at hr
      obtain rfl := Option.some.inj hr
      obtain ⟨win, hwin, hexec⟩ := hcount.difference
      rw [hlength]
      exact ⟨win, _, _, hwin, hlast, hnow, hexec, rfl⟩
  | _ => exact hresults k r hr

end Windows

/-- Behind the wait all executors of the dry run have exited. -/
def Rested (s : Experiment ρ) : Prop :=
  s.main = .waiting → s.launcher.launcher = .waiting ∨ s.launcher.launcher = .idle ∧
    ∀ (i : Nat) (x : Executor ρ), s.launcher.executors[i]? = some x → x.pc = .exited

def DryFirst (w : Windows) : Prop :=
  ∀ i < dryRunSz, i ∈ (w.closed ++ [w.current]).headI

section DryRun
variable {inputs : Inputs ρ} {M : Int32} {tr tr' : List (Action ρ)} {s s' : Experiment ρ}
  {a : Action ρ}

theorem Rested.step (hrun : Runs inputs M tr s) (h : Rested s) (hstep : Step inputs s a s') :
    Rested s' := by
  have hl := launcher_run hrun
  intro hmain
  cases hstep with
  | dryRun | create | proceed | leave | issue => cases hmain
  | wait hpc hi hidle hstep hwait => exact .inl hwait
  | monitor hstep => exact h hmain
  | launcher hbusy hstep =>
    rcases h hmain with hwait | ⟨hidle, _⟩
    · rcases hstep.of_waiting hwait with rfl | ⟨rfl, rfl⟩
      · exact .inl hwait
      · exact .inr ⟨rfl, fun i x hx => exited_of_waited hl (.launcher hstep) hx⟩
    · exact absurd hidle hbusy
  | executor i hstep =>
    rcases h hmain with hwait | ⟨_, hexit⟩
    · refine .inl ((hstep.launcher_eq ?_).trans hwait)
      rw [hwait]
      nofun
    · obtain ⟨x, hx, hrun⟩ := hstep.running
      exact absurd (hexit i x hx) hrun

theorem rested_of_run (h : Runs inputs M tr s) : Rested s := by
  apply h.invariant (I := fun _ s => Rested s)
  · exact fun hmain => by cases hmain
  · exact fun hr hrested hstep => hrested.step hr hstep

theorem headI_of_add (w : Windows) (a : Action ρ) {i : Nat}
    (h : i ∈ (w.closed ++ [w.current]).headI) :
    i ∈ ((w.add a).closed ++ [(w.add a).current]).headI := by
  obtain ⟨closed, current⟩ := w
  cases closed with
  | nil =>
    cases a with
    | launcher e =>
      cases e with
      | count j => exact List.mem_append_left _ h
      | _ => exact h
    | monitor e =>
      cases e with
      | _ => exact h
    | main => exact h
  | cons first closed =>
    cases a with
    | launcher e =>
      cases e with
      | _ => exact h
    | monitor e =>
      cases e with
      | _ => exact h
    | main => exact h

end DryRun

structure Measured (tr : List (Action ρ)) (s : Experiment ρ) : Prop where
  counted : (windows tr).closed.flatten ++ (windows tr).current = counts (events tr)
  sampled : Sampled s.monitor (windows tr).closed (clocks tr)
  results : ∀ (k : Nat) (r : Rate), s.monitor.results[k]? = some r →
    Measures (windows tr).closed (clocks tr) k r
  dry : early s.main = false → DryFirst (windows tr)

section Measured
variable {inputs : Inputs ρ} {M : Int32} {tr tr' : List (Action ρ)} {s s' : Experiment ρ}
  {a : Action ρ} {e : ThreadLauncher.Event ρ}

theorem Measured.init (M : Int32) : Measured [] (Experiment.init ρ M) where
  counted := rfl
  sampled := ⟨rfl, rfl⟩
  results _ _ h := by cases h
  dry h := by cases h

theorem add_launcher (w : Windows) (e : ThreadLauncher.Event ρ) :
    (w.add (.launcher e)).closed = w.closed ∧
      (w.add (.launcher e)).current = w.current ++ counts [e] := by
  cases e with
  | count i => exact ⟨rfl, rfl⟩
  | _ => exact ⟨rfl, (List.append_nil _).symm⟩

theorem Measured.launcherEvent (h : Measured tr s) (hmonitor : s'.monitor = s.monitor)
    (hearly : early s'.main = early s.main) : Measured (tr ++ [.launcher e]) s' := by
  obtain ⟨hclosed, hcurrent⟩ := add_launcher (windows tr) e
  have hcl : clocks (tr ++ [.launcher e]) = clocks tr := by
    rw [clocks_append]
    exact List.append_nil _
  constructor
  · rw [windows_concat, hclosed, hcurrent, ← List.append_assoc, h.counted, events_append,
      counts_append, events_launcher]
  · rw [windows_concat, hclosed, hcl, hmonitor]
    exact h.sampled
  · rw [windows_concat, hclosed, hcl, hmonitor]
    exact h.results
  · intro hmain i hi
    rw [windows_concat]
    exact headI_of_add _ _ (h.dry (hearly ▸ hmain) i hi)

theorem Measured.mainStep (h : Measured tr s)
    (hsampled : Sampled s'.monitor (windows tr).closed (clocks tr))
    (hresults : s'.monitor.results = s.monitor.results)
    (hdry : early s'.main = false → DryFirst (windows tr)) : Measured (tr ++ [.main]) s' := by
  have hcl : clocks (tr ++ [.main]) = clocks tr := by
    rw [clocks_append]
    exact List.append_nil _
  have hwin : windows (tr ++ [.main]) = windows tr := windows_concat tr .main
  refine ⟨?_, ?_, ?_, ?_⟩
  · rw [hwin, events_append, events_main, List.append_nil]
    exact h.counted
  · rw [hwin, hcl]
    exact hsampled
  · rw [hwin, hcl, hresults]
    exact h.results
  · rw [hwin]
    exact hdry

/-- When the monitor is created, the dry run has been counted and nothing else. -/
theorem dryFirst_of_create (hrun : Runs inputs M tr s) (h : Measured tr s)
    (hpc : s.main = .waiting) (hidle : s.launcher.launcher = .idle) : DryFirst (windows tr) := by
  have hl := launcher_run hrun
  have hinit := (paired_of_run hrun).early (by rw [hpc]; rfl)
  have hclosed : (windows tr).closed = [] := by
    have hsampled := h.sampled
    rw [hinit] at hsampled
    exact hsampled.1
  have hlength : s.launcher.executors.length = dryRunSz := by
    have hordered := ordered_of_run hrun
    rw [hpc] at hordered
    have hreq := (executed_of_run hl).issued_length
    rw [hordered, inputs.dry_length, (numbered_of_run hl).requests, hidle] at hreq
    exact hreq.symm
  intro i hi
  rcases rested_of_run hrun hpc with hwait | ⟨_, hexit⟩
  · rw [hidle] at hwait
    cases hwait
  · have hx := List.getElem?_eq_getElem (hlength ▸ hi)
    have hmem := ((counted_of_run hl).exited i).mpr
      ⟨_, hx, hasExited_iff.mpr (hexit i _ hx)⟩
    rw [← h.counted, hclosed] at hmem
    rw [hclosed]
    exact hmem

theorem Measured.step (hrun : Runs inputs M tr s) (h : Measured tr s)
    (hstep : Step inputs s a s') : Measured (tr ++ [a]) s' := by
  have hpaired := paired_of_run hrun
  cases hstep with
  | dryRun hpc | wait hpc | issue hpc => exact h.launcherEvent rfl (by rw [hpc]; rfl)
  | launcher | executor => exact h.launcherEvent rfl rfl
  | proceed hpc | leave hpc =>
    exact h.mainStep h.sampled rfl fun _ => h.dry (by rw [hpc]; rfl)
  | create hpc hidle =>
    refine h.mainStep ?_ rfl fun _ => dryFirst_of_create hrun h hpc hidle
    have hsampled := h.sampled
    rw [hpaired.early (by rw [hpc]; rfl)] at hsampled
    exact hsampled
  | @monitor e m hstep =>
    have htotal := (counted_of_run (launcher_run hrun)).total
    rw [← h.counted, List.length_append] at htotal
    constructor
    · rw [windows_concat, events_append, events_monitor, List.append_nil, ← h.counted]
      cases e with
      | read => simp [Windows.add]
      | _ => rfl
    · rw [windows_concat, clocks_append]
      exact h.sampled.step (congrArg UInt64.ofNat htotal) hstep
    · rw [windows_concat, clocks_append]
      exact measures_step h.sampled hpaired.filled h.results hstep
    · intro hmain i hi
      rw [windows_concat]
      exact headI_of_add _ _ (h.dry hmain i hi)

theorem measured_of_run (h : Runs inputs M tr s) : Measured tr s := by
  apply h.invariant (I := fun tr s => Measured tr s)
  · exact Measured.init M
  · exact fun hr hmeasured hstep => hmeasured.step hr hstep

theorem completed_of_counted {M : Int32} {tr : List (ThreadLauncher.Event ρ)}
    {l : ThreadLauncher.State ρ} (h : ThreadLauncher.Runs M tr l) {i : Nat} (hi : i ∈ counts tr) :
    ∃ req, (issued tr)[i]? = some req ∧ onChannel (completions tr) i = [req] := by
  obtain ⟨x, hx, hexit⟩ := ((counted_of_run h).exited i).mp hi
  have hexec := executed_of_run h
  have hlt : i < (issued tr).length := by
    rw [hexec.issued_length, (numbered_of_run h).requests]
    exact Nat.lt_add_right _ (List.getElem?_eq_some_iff.mp hx).1
  refine ⟨_, List.getElem?_eq_getElem hlt, ?_⟩
  rw [hexec.ended i, phases_getElem hx, hasExited_iff.mp hexit, List.getElem?_eq_getElem hlt]
  rfl

/-- The windows after the first one hold executors of the second loop only. -/
theorem real_of_window (h : Runs inputs M tr s) {i : Nat}
    (hi : i ∈ (windows tr).closed.tail.flatten) : dryRunSz ≤ i := by
  have hmeasured := measured_of_run h
  have hnodup := (counted_of_run (launcher_run h)).nodup
  rw [← hmeasured.counted] at hnodup
  cases hclosed : (windows tr).closed with
  | nil =>
    rw [hclosed] at hi
    cases hi
  | cons first rest =>
    rw [hclosed] at hi hnodup
    have hlate : early s.main = false := by
      cases hearly : early s.main with
      | false => rfl
      | true =>
        have hsampled := hmeasured.sampled
        rw [(paired_of_run h).early hearly, hclosed] at hsampled
        cases hsampled.1
    have hfirst := hmeasured.dry hlate
    by_contra hlt
    have hmem := hfirst i (Nat.lt_of_not_le hlt)
    rw [hclosed] at hmem
    rw [List.flatten_cons, List.append_assoc] at hnodup
    exact (List.nodup_append.mp hnodup).2.2 i hmem i (List.mem_append_left _ hi) rfl

end Measured

/-- Each stored rate is the number of executors that counted between two reads, over the time
between two readings of the clock; no executor is in two windows, those of the dry run are in
none of them, and each has executed its request. -/
theorem rates_measured {inputs : Inputs ρ} {M : Int32} {tr : List (Action ρ)} {s : Experiment ρ}
    (h : Runs inputs M tr s) :
    (windows tr).closed.flatten.Nodup ∧
    (∀ i ∈ (windows tr).closed.tail.flatten, dryRunSz ≤ i ∧
      ∃ req, (issued (events tr))[i]? = some req ∧ onChannel (completions (events tr)) i = [req]) ∧
    ∀ (k : Nat) (r : Rate), s.monitor.results[k]? = some r → ∃ win start stop,
      (windows tr).closed[k + 1]? = some win ∧ (clocks tr)[k]? = some start ∧
      (clocks tr)[k + 1]? = some stop ∧ r.executed = UInt64.ofNat win.length ∧
      r.interval.nanos = stop.nanos - start.nanos := by
  have hmeasured := measured_of_run h
  have hl := launcher_run h
  refine ⟨?_, ?_, ?_⟩
  · have hnodup := (counted_of_run hl).nodup
    rw [← hmeasured.counted] at hnodup
    exact (List.nodup_append.mp hnodup).1
  · intro i hi
    refine ⟨real_of_window h hi, completed_of_counted hl ?_⟩
    rw [← hmeasured.counted]
    apply List.mem_append_left
    cases hclosed : (windows tr).closed with
    | nil =>
      rw [hclosed] at hi
      cases hi
    | cons first rest =>
      rw [hclosed] at hi
      exact List.mem_append_right first hi
  · intro k r hr
    obtain ⟨win, start, stop, hwin, hstart, hstop, hexec, hinterval⟩ := hmeasured.results k r hr
    refine ⟨win, start, stop, hwin, hstart, hstop, hexec, ?_⟩
    rw [hinterval, Timespec.nanos_diffTime]

theorem rates_measured_end : ∃ tr s, Runs numbered 1 tr s ∧ s.main = .returned ∧
    ∀ k < 60, ∃ r win start stop, s.monitor.results[k]? = some r ∧
      (windows tr).closed[k + 1]? = some win ∧ (clocks tr)[k]? = some start ∧
      (clocks tr)[k + 1]? = some stop ∧ stop.nanos - start.nanos = 1000000000 ∧
      ∃ i ∈ win, 1000 ≤ i ∧ ∃ req, onChannel (completions (events tr)) i = [req] := by
  obtain ⟨_, _, _, s, run, _, later, hmain, _, _, hrates⟩ := exists_returned numbered
  have run := run.trans later
  obtain ⟨_, hwindow, hrate⟩ := rates_measured run
  have hfilled := (paired_of_run run).filled
  unfold Monitor.Filled at hfilled
  rw [(paired_of_run run).returned hmain] at hfilled
  refine ⟨_, s, run, hmain, fun k hk => ?_⟩
  have hr := List.getElem?_eq_getElem (hfilled.1.symm ▸ hk : k < s.monitor.results.length)
  obtain ⟨hone, hinterval⟩ := hrates _ (List.mem_of_getElem? hr)
  obtain ⟨win, start, stop, hwin, hstart, hstop, hexec, hnanos⟩ := hrate k _ hr
  refine ⟨_, win, start, stop, hr, hwin, hstart, hstop, hnanos.symm.trans hinterval, ?_⟩
  have hne : win ≠ [] := by
    rintro rfl
    rw [hone] at hexec
    exact absurd hexec (by decide)
  obtain ⟨i, hi⟩ := List.exists_mem_of_ne_nil win hne
  have htail : win ∈ (windows _).closed.tail := List.mem_of_getElem? (by
    rw [List.getElem?_tail]
    exact hwin)
  obtain ⟨hlate, req, _, hreq⟩ := hwindow i (List.mem_flatten_of_mem htail hi)
  exact ⟨i, hi, hlate, req, hreq⟩

end Experiment

end Cmsc624.A1
