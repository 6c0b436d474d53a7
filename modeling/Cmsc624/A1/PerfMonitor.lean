import Mathlib.Algebra.Group.Int.Defs

/-!
# PerfMonitor

The thread that samples the counters of a launcher once a second. The quotients that it stores
are kept as the two numbers that are divided; the division is one of `double`.
-/

namespace Cmsc624.A1

set_option autoImplicit false

def exptLen : Nat := 60

/-- A `timespec` as the clock gives it. -/
@[ext] structure Timespec where
  sec : Int
  nsec : Int
  nonneg : 0 ≤ nsec
  lt_second : nsec < 1000000000

namespace Timespec

def nanos (t : Timespec) : Int := t.sec * 1000000000 + t.nsec

/-- `PerfMonitor::DiffTime(end, start)`. -/
def diffTime (stop start : Timespec) : Timespec :=
  if h : stop.nsec - start.nsec < 0 then
    { sec := stop.sec - start.sec - 1
      nsec := 1000000000 + stop.nsec - start.nsec
      nonneg := by
        have := stop.nonneg
        have := start.lt_second
        omega
      lt_second := by omega }
  else
    { sec := stop.sec - start.sec
      nsec := stop.nsec - start.nsec
      nonneg := Int.not_lt.mp h
      lt_second := by
        have := stop.lt_second
        have := start.nonneg
        omega }

/-- The clock may also have been set back in between. -/
theorem nanos_diffTime (stop start : Timespec) :
    (stop.diffTime start).nanos = stop.nanos - start.nanos := by
  unfold diffTime nanos
  split
  · show (stop.sec - start.sec - 1) * 1000000000 + (1000000000 + stop.nsec - start.nsec) = _
    omega
  · show (stop.sec - start.sec) * 1000000000 + (stop.nsec - start.nsec) = _
    omega

end Timespec

/-- Before which statement of `Run` the thread is, with its local variables. -/
inductive MonitorPc where
  -- Not created yet.
  | absent
  | started
  | reading
  | readingHigh
  | readingTime
  -- At the head of the loop.
  | testing (i : Nat)
  | counting (i : Nat)
  | countingHigh (i : Nat) (total : UInt64)
  | timing (i : Nat) (total totalHigh : UInt64)
  | storing (i : Nat) (total totalHigh : UInt64) (now : Timespec)
  | storingHigh (i : Nat) (total totalHigh : UInt64) (now : Timespec)
  | keeping (i : Nat) (total totalHigh : UInt64) (now : Timespec)
  | checking
  | signalling
  | exited
  -- An assertion has failed.
  | aborted

/-- The two operands of a quotient in `results_`. -/
structure Rate where
  executed : UInt64
  interval : Timespec

structure Monitor where
  pc : MonitorPc
  prevTxns : UInt64
  prevHighPriorityTxns : UInt64
  prevTime : Timespec
  results : List Rate
  highPriorityResults : List Rate

def Monitor.init : Monitor where
  pc := .absent
  prevTxns := 0
  prevHighPriorityTxns := 0
  prevTime := ⟨0, 0, by decide, by decide⟩
  results := []
  highPriorityResults := []

inductive MonitorEvent where
  -- `ReadTxnsExecuted`.
  | read
  | clock (now : Timespec)
  | store
  -- `fetch_and_increment(done_)`.
  | done
  | skip

/-- One statement of `Run`, where the two counters and `*done_` have these values. -/
inductive MonitorStep (executed highPriority done : UInt64) :
    Monitor → MonitorEvent → Monitor → Prop where
  | start {m : Monitor} (hpc : m.pc = .started) (h0 : done = 0) :
      MonitorStep executed highPriority done m .skip { m with pc := .reading }
  | startAborts {m : Monitor} (hpc : m.pc = .started) (h0 : done ≠ 0) :
      MonitorStep executed highPriority done m .skip { m with pc := .aborted }
  | read {m : Monitor} (hpc : m.pc = .reading) :
      MonitorStep executed highPriority done m .read
        { m with prevTxns := executed, pc := .readingHigh }
  | readHigh {m : Monitor} (hpc : m.pc = .readingHigh) :
      MonitorStep executed highPriority done m .skip
        { m with prevHighPriorityTxns := highPriority, pc := .readingTime }
  | readTime {m : Monitor} (now : Timespec) (hpc : m.pc = .readingTime) :
      MonitorStep executed highPriority done m (.clock now)
        { m with prevTime := now, pc := .testing 0 }
  | enter {m : Monitor} {i : Nat} (hpc : m.pc = .testing i) (hi : i < exptLen) :
      MonitorStep executed highPriority done m .skip { m with pc := .counting i }
  | count {m : Monitor} {i : Nat} (hpc : m.pc = .counting i) :
      MonitorStep executed highPriority done m .read { m with pc := .countingHigh i executed }
  | countHigh {m : Monitor} {i : Nat} {total : UInt64} (hpc : m.pc = .countingHigh i total) :
      MonitorStep executed highPriority done m .skip
        { m with pc := .timing i total highPriority }
  | time {m : Monitor} {i : Nat} {total totalHigh : UInt64} (now : Timespec)
      (hpc : m.pc = .timing i total totalHigh) :
      MonitorStep executed highPriority done m (.clock now)
        { m with pc := .storing i total totalHigh now }
  | store {m : Monitor} {i : Nat} {total totalHigh : UInt64} {now : Timespec}
      (hpc : m.pc = .storing i total totalHigh now) :
      MonitorStep executed highPriority done m .store
        { m with
          results := m.results ++ [⟨total - m.prevTxns, now.diffTime m.prevTime⟩]
          pc := .storingHigh i total totalHigh now }
  | storeHigh {m : Monitor} {i : Nat} {total totalHigh : UInt64} {now : Timespec}
      (hpc : m.pc = .storingHigh i total totalHigh now) :
      MonitorStep executed highPriority done m .store
        { m with
          highPriorityResults := m.highPriorityResults ++
            [⟨totalHigh - m.prevHighPriorityTxns, now.diffTime m.prevTime⟩]
          pc := .keeping i total totalHigh now }
  | keep {m : Monitor} {i : Nat} {total totalHigh : UInt64} {now : Timespec}
      (hpc : m.pc = .keeping i total totalHigh now) :
      MonitorStep executed highPriority done m .skip
        { m with
          prevTxns := total
          prevHighPriorityTxns := totalHigh
          prevTime := now
          pc := .testing (i + 1) }
  | finish {m : Monitor} {i : Nat} (hpc : m.pc = .testing i) (hi : ¬i < exptLen) :
      MonitorStep executed highPriority done m .skip { m with pc := .checking }
  | check {m : Monitor} (hpc : m.pc = .checking) (h0 : done = 0) :
      MonitorStep executed highPriority done m .skip { m with pc := .signalling }
  | checkAborts {m : Monitor} (hpc : m.pc = .checking) (h0 : done ≠ 0) :
      MonitorStep executed highPriority done m .skip { m with pc := .aborted }
  | signal {m : Monitor} (hpc : m.pc = .signalling) :
      MonitorStep executed highPriority done m .done { m with pc := .exited }

/-- How much of the two arrays is filled at each statement; no assertion has failed. -/
def Monitor.Filled (m : Monitor) : Prop :=
  match m.pc with
  | .absent | .started | .reading | .readingHigh | .readingTime =>
      m.results.length = 0 ∧ m.highPriorityResults.length = 0
  | .testing i => i ≤ exptLen ∧ m.results.length = i ∧ m.highPriorityResults.length = i
  | .counting i | .countingHigh i _ | .timing i _ _ | .storing i _ _ _ =>
      i < exptLen ∧ m.results.length = i ∧ m.highPriorityResults.length = i
  | .storingHigh i _ _ _ =>
      i < exptLen ∧ m.results.length = i + 1 ∧ m.highPriorityResults.length = i
  | .keeping i _ _ _ =>
      i < exptLen ∧ m.results.length = i + 1 ∧ m.highPriorityResults.length = i + 1
  | .checking | .signalling | .exited =>
      m.results.length = exptLen ∧ m.highPriorityResults.length = exptLen
  | .aborted => False

/-- `*done_`, as long as nobody else writes it. -/
def Monitor.flag (m : Monitor) : UInt64 :=
  match m.pc with
  | .exited => 1
  | _ => 0

/-- `*done_` after a statement of the monitor. -/
def setDone (done : UInt64) : MonitorEvent → UInt64
  | .done => done + 1
  | _ => done

section Monitor
variable {executed highPriority done : UInt64} {m m' : Monitor} {e : MonitorEvent}

theorem MonitorStep.filled (h : MonitorStep executed highPriority done m e m') (hm : m.Filled)
    (hdone : done = m.flag) : m'.Filled := by
  unfold Monitor.Filled at hm
  cases h with
  | startAborts hpc h0 | checkAborts hpc h0 =>
    rw [Monitor.flag, hpc] at hdone
    exact absurd hdone h0
  | start hpc | read hpc | readHigh hpc | check hpc | signal hpc =>
    rw [hpc] at hm
    exact hm
  | readTime now hpc =>
    rw [hpc] at hm
    exact ⟨Nat.zero_le _, hm⟩
  | enter hpc hi =>
    rw [hpc] at hm
    exact ⟨hi, hm.2⟩
  | count hpc | countHigh hpc | time now hpc =>
    rw [hpc] at hm
    exact hm
  | store hpc =>
    rw [hpc] at hm
    exact ⟨hm.1, by rw [List.length_append, hm.2.1]; rfl, hm.2.2⟩
  | storeHigh hpc =>
    rw [hpc] at hm
    exact ⟨hm.1, hm.2.1, by rw [List.length_append, hm.2.2]; rfl⟩
  | keep hpc =>
    rw [hpc] at hm
    exact ⟨hm.1, hm.2⟩
  | finish hpc hi =>
    rw [hpc] at hm
    obtain ⟨hle, hresults, hhigh⟩ := hm
    have hall := Nat.le_antisymm hle (Nat.le_of_not_lt hi)
    exact ⟨hresults.trans hall, hhigh.trans hall⟩

theorem MonitorStep.flag (h : MonitorStep executed highPriority done m e m')
    (hdone : done = m.flag) : setDone done e = m'.flag := by
  rw [hdone]
  unfold Monitor.flag
  cases h with
  | start hpc | startAborts hpc | read hpc | readHigh hpc | readTime now hpc | enter hpc | count hpc
  | countHigh hpc | time now hpc | store hpc | storeHigh hpc | keep hpc | finish hpc | check hpc
  | checkAborts hpc | signal hpc =>
    rw [hpc]
    rfl

theorem MonitorStep.running (h : MonitorStep executed highPriority done m e m') :
    m.pc ≠ .absent ∧ m.pc ≠ .exited ∧ m'.pc ≠ .absent := by
  cases h with
  | start hpc | startAborts hpc | read hpc | readHigh hpc | readTime now hpc | enter hpc | count hpc
  | countHigh hpc | time now hpc | store hpc | storeHigh hpc | keep hpc | finish hpc | check hpc
  | checkAborts hpc | signal hpc =>
    rw [hpc]
    exact ⟨nofun, nofun, nofun⟩

end Monitor

end Cmsc624.A1
