import Cmsc624.A1.Experiment
import Cmsc624.A1.LauncherClient

/-!
# The end of an experiment

With a fair main thread, fair executors and a fair monitor thread `run_experiment` returns. The
launcher returns from every call, so the main thread comes to its second loop and creates the
monitor; the monitor comes to its end and sets the flag; and then the loop is left.
-/

namespace Cmsc624.A1

open Lib ThreadLauncher

set_option autoImplicit false

variable {ρ : Type}

def MonitorPc.rank : MonitorPc → Nat
  | .absent => 0
  | .started => 8 * exptLen + 7
  | .reading => 8 * exptLen + 6
  | .readingHigh => 8 * exptLen + 5
  | .readingTime => 8 * exptLen + 4
  | .testing i => 8 * (exptLen - i) + 3
  | .counting i => 8 * (exptLen - i - 1) + 10
  | .countingHigh i _ => 8 * (exptLen - i - 1) + 9
  | .timing i _ _ => 8 * (exptLen - i - 1) + 8
  | .storing i _ _ _ => 8 * (exptLen - i - 1) + 7
  | .storingHigh i _ _ _ => 8 * (exptLen - i - 1) + 6
  | .keeping i _ _ _ => 8 * (exptLen - i - 1) + 5
  | .checking => 2
  | .signalling => 1
  | .exited => 0
  | .aborted => 0

section Monitor
variable {executed highPriority done : UInt64} {m m' : Monitor} {e : MonitorEvent}

theorem MonitorStep.rank_lt (h : MonitorStep executed highPriority done m e m') :
    m'.pc.rank < m.pc.rank := by
  cases h with
  | keep hpc | finish hpc hi | enter hpc hi =>
    rw [hpc]
    simp only [MonitorPc.rank]
    omega
  | start hpc | startAborts hpc | read hpc | readHigh hpc | readTime now hpc | count hpc
  | countHigh hpc | time now hpc | store hpc | storeHigh hpc | check hpc | checkAborts hpc
  | signal hpc =>
    rw [hpc]
    simp [MonitorPc.rank]

theorem exists_monitorStep (hm : m.Filled) (habsent : m.pc ≠ .absent) (hexited : m.pc ≠ .exited) :
    ∃ e m', MonitorStep executed highPriority done m e m' := by
  unfold Monitor.Filled at hm
  cases hpc : m.pc with
  | absent => exact absurd hpc habsent
  | started =>
    by_cases h0 : done = 0
    · exact ⟨_, _, .start hpc h0⟩
    · exact ⟨_, _, .startAborts hpc h0⟩
  | reading => exact ⟨_, _, .read hpc⟩
  | readingHigh => exact ⟨_, _, .readHigh hpc⟩
  | readingTime => exact ⟨_, _, .readTime m.prevTime hpc⟩
  | testing i =>
    by_cases hi : i < exptLen
    · exact ⟨_, _, .enter hpc hi⟩
    · exact ⟨_, _, .finish hpc hi⟩
  | counting i => exact ⟨_, _, .count hpc⟩
  | countingHigh i total => exact ⟨_, _, .countHigh hpc⟩
  | timing i total totalHigh => exact ⟨_, _, .time m.prevTime hpc⟩
  | storing i total totalHigh now => exact ⟨_, _, .store hpc⟩
  | storingHigh i total totalHigh now => exact ⟨_, _, .storeHigh hpc⟩
  | keeping i total totalHigh now => exact ⟨_, _, .keep hpc⟩
  | checking =>
    by_cases h0 : done = 0
    · exact ⟨_, _, .check hpc h0⟩
    · exact ⟨_, _, .checkAborts hpc h0⟩
  | signalling => exact ⟨_, _, .signal hpc⟩
  | exited => exact absurd hpc hexited
  | aborted =>
    rw [hpc] at hm
    exact hm.elim

end Monitor

namespace Experiment

inductive Turn (ρ : Type) where
  -- The main thread calls the launcher, or a thread inside of the launcher goes on.
  | launcher (t : ThreadLauncher.Turn ρ)
  | main
  | monitor (e : MonitorEvent)
  | other

def Turn.launched : Turn ρ → ThreadLauncher.Turn ρ
  | .launcher t => t
  | _ => .other

inductive TurnStep (inputs : Inputs ρ) : Experiment ρ → Turn ρ → Experiment ρ → Prop where
  | main {s s' : Experiment ρ} (h : Step inputs s .main s') : TurnStep inputs s .main s'
  | monitor {s s' : Experiment ρ} {e : MonitorEvent} (h : Step inputs s (.monitor e) s') :
      TurnStep inputs s (.monitor e) s'
  | call {s s' : Experiment ρ} {e : ThreadLauncher.Event ρ} (hidle : s.launcher.launcher = .idle)
      (hcall : s'.launcher.launcher ≠ .idle) (h : Step inputs s (.launcher e) s') :
      TurnStep inputs s (.launcher (.call e)) s'
  | inside {s : Experiment ρ} {t : ThreadLauncher.Turn ρ} {l : ThreadLauncher.State ρ}
      (hinside : t.inside = true) (h : ThreadLauncher.TurnStep s.launcher t l) :
      TurnStep inputs s (.launcher t) { s with launcher := l }
  | other {s : Experiment ρ} : TurnStep inputs s .other s

def Turn.ofMain : Turn ρ → Prop
  | .main => True
  | .launcher (.call _) => True
  | .launcher (.launcher _) => True
  | _ => False

def Turn.ofMonitor : Turn ρ → Prop
  | .monitor _ => True
  | _ => False

section Turns
variable {inputs : Inputs ρ} {M : Int32} {s s' : Experiment ρ} {t : Turn ρ} {a : Action ρ}
  {e : ThreadLauncher.Event ρ} {l l' : ThreadLauncher.State ρ}

theorem launcherStep_of_call (h : Step inputs s (.launcher e) s')
    (hidle : s.launcher.launcher = .idle) (hcall : s'.launcher.launcher ≠ .idle) :
    LauncherStep s.launcher e s'.launcher := by
  cases h with
  | dryRun _ _ _ hstep => exact hstep
  | wait _ _ _ hstep _ => exact hstep
  | issue _ _ hstep => exact hstep
  | launcher hbusy hstep => exact absurd hidle hbusy
  | executor i hstep => exact absurd (hstep.idle hidle) hcall

theorem TurnStep.launched (h : TurnStep inputs s t s') :
    ThreadLauncher.TurnStep s.launcher t.launched s'.launcher := by
  cases h with
  | main h => cases h <;> exact .other
  | monitor h =>
    cases h
    exact .other
  | call hidle hcall h =>
    rw [Turn.launched, ← turn_of_idle _ hidle]
    exact .launcher (launcherStep_of_call h hidle hcall)
  | inside hinside h => exact h
  | other => exact .other

theorem TurnStep.step (h : TurnStep inputs s t s') : s' = s ∨ ∃ a, Step inputs s a s' := by
  cases h with
  | main h => exact .inr ⟨_, h⟩
  | monitor h => exact .inr ⟨_, h⟩
  | call hidle hcall h => exact .inr ⟨_, h⟩
  | inside hinside h =>
    right
    cases h with
    | launcher h =>
      refine ⟨_, .launcher ?_ h⟩
      intro hidle
      rw [turn_of_idle _ hidle] at hinside
      cases hinside
    | executor i h => exact ⟨_, .executor i h⟩
    | other => cases hinside
  | other => exact .inl rfl

theorem exists_turn (h : Step inputs s a s') : ∃ t, TurnStep inputs s t s' := by
  cases h with
  | dryRun hpc hi hreq hstep =>
    cases hstep with
    | issue req hidle => exact ⟨_, .call hidle nofun (.dryRun hpc hi hreq (.issue _ hidle))⟩
  | wait hpc hi hidle hstep hl =>
    exact ⟨_, .call hidle (fun h => by cases hl.symm.trans h) (.wait hpc hi hidle hstep hl)⟩
  | create hpc hidle => exact ⟨_, .main (.create hpc hidle)⟩
  | proceed hpc hidle h0 => exact ⟨_, .main (.proceed hpc hidle h0)⟩
  | leave hpc hidle h0 => exact ⟨_, .main (.leave hpc hidle h0)⟩
  | issue hpc hreq hstep =>
    cases hstep with
    | issue req hidle => exact ⟨_, .call hidle nofun (.issue hpc hreq (.issue _ hidle))⟩
  | launcher hbusy hstep => exact ⟨_, .inside (inside_of_busy hstep hbusy) (.launcher hstep)⟩
  | executor i hstep => exact ⟨_, .inside (by rfl) (.executor i hstep)⟩
  | monitor hstep => exact ⟨_, .monitor (.monitor hstep)⟩

theorem run_of_turns {tr : List (Turn ρ)} (h : Run (TurnStep inputs) (init ρ M) tr s) :
    ∃ tr', Runs inputs M tr' s := by
  induction h with
  | nil => exact ⟨[], .nil⟩
  | snoc _ hstep ih =>
    obtain ⟨tr', hrun⟩ := ih
    rcases hstep.step with hsame | ⟨a, hstep⟩
    · exact ⟨tr', hsame ▸ hrun⟩
    · exact ⟨_, hrun.snoc hstep⟩

end Turns

/-- The passes of the dry run that are left, and the statements until the loop is left when the
flag is set. -/
def mainRank : MainPc → Nat
  | .dryRun i => dryRunSz - i + 4
  | .waiting => 3
  | .issuing _ => 2
  | .testing _ => 1
  | .returned => 0

section Main
variable {inputs : Inputs ρ} {M : Int32} {s s' : Experiment ρ} {t : Turn ρ} {a : Action ρ}

/-- The main thread comes nearer to its end, unless the flag keeps it in its second loop. -/
theorem Step.mainRank (h : Step inputs s a s') : s'.main = s.main ∨
    mainRank s'.main < mainRank s.main ∨ early s.main = false ∧ s.done = 0 := by
  cases h with
  | launcher | executor | monitor => exact .inl rfl
  | proceed hpc hidle h0 => exact .inr (.inr ⟨by rw [hpc]; rfl, h0⟩)
  | dryRun hpc hi | wait hpc hi =>
    right
    left
    rw [hpc]
    simp only [Experiment.mainRank]
    omega
  | create hpc hidle | leave hpc hidle h0 | issue hpc hreq hstep =>
    right
    left
    rw [hpc]
    simp [Experiment.mainRank]

theorem Step.late (h : Step inputs s a s') (hlate : early s.main = false) :
    early s'.main = false := by
  cases h with
  | dryRun hpc | wait hpc | create hpc =>
    rw [hpc] at hlate
    cases hlate
  | launcher | executor | monitor => exact hlate
  | proceed | leave | issue => rfl

theorem not_returned_of_early {pc : MainPc} (h : early pc = true) : pc ≠ .returned := by
  rintro rfl
  cases h

theorem TurnStep.main_moves (h : TurnStep inputs s t s') (hidle : s.launcher.launcher = .idle)
    (ht : t.ofMain) : s'.main ≠ s.main := by
  cases h with
  | main h =>
    cases h with
    | create hpc | proceed hpc | leave hpc =>
      rw [hpc]
      exact nofun
  | call _ hcall h =>
    cases h with
    | dryRun hpc hi =>
      rw [hpc]
      simp
    | wait hpc hi | issue hpc =>
      rw [hpc]
      exact nofun
    | launcher hbusy hstep => exact absurd hidle hbusy
    | executor i hstep => exact absurd (hstep.idle hidle) hcall
  | inside hinside h =>
    cases h with
    | launcher h =>
      rw [turn_of_idle _ hidle] at hinside
      cases hinside
    | executor i h => exact ht.elim
    | other => cases hinside
  | monitor h => exact ht.elim
  | other => exact ht.elim

/-- Only a call of the main thread ends the time between two calls. -/
theorem TurnStep.idle_or_moves (h : TurnStep inputs s t s')
    (hidle : s.launcher.launcher = .idle) :
    s'.launcher.launcher = .idle ∨ s'.main ≠ s.main := by
  by_cases ht : t.ofMain
  · exact .inr (h.main_moves hidle ht)
  · left
    cases h with
    | main h => exact absurd trivial ht
    | call hidle hcall h => exact absurd trivial ht
    | monitor h =>
      cases h
      exact hidle
    | inside hinside h =>
      cases h with
      | launcher h =>
        rw [turn_of_idle _ hidle] at hinside
        cases hinside
      | executor i h => exact h.idle hidle
      | other => exact hidle
    | other => exact hidle

theorem TurnStep.launcher_of_main (h : TurnStep inputs s t s')
    (hbusy : s.launcher.launcher ≠ .idle) (ht : t.ofMain) :
    t.launched.ofThread .launcher := by
  cases h with
  | main h =>
    cases h with
    | create _ hidle | proceed _ hidle | leave _ hidle => exact absurd hidle hbusy
  | call hidle => exact absurd hidle hbusy
  | @inside t l hinside h =>
    cases t with
    | launcher e => exact trivial
    | call e => cases hinside
    | _ => exact ht.elim
  | monitor h => exact ht.elim
  | other => exact ht.elim

theorem enabled_of_main (h : Step inputs s .main s') :
    Enabled (TurnStep inputs) Turn.ofMain s := ⟨.main, s', trivial, .main h⟩

theorem enabled_of_call {e : ThreadLauncher.Event ρ} (h : Step inputs s (.launcher e) s')
    (hidle : s.launcher.launcher = .idle) (hcall : s'.launcher.launcher ≠ .idle) :
    Enabled (TurnStep inputs) Turn.ofMain s :=
  ⟨.launcher (.call e), s', trivial, .call hidle hcall h⟩

theorem main_enabled (hidle : s.launcher.launcher = .idle) (hmain : s.main ≠ .returned) :
    Enabled (TurnStep inputs) Turn.ofMain s := by
  cases hpc : s.main with
  | dryRun i =>
    by_cases hi : i < dryRunSz
    · have hreq := List.getElem?_eq_getElem (show i < inputs.dry.length by rwa [inputs.dry_length])
      exact enabled_of_call (.dryRun hpc hi hreq (.issue _ hidle)) hidle nofun
    · exact enabled_of_call (.wait hpc hi hidle (.waitOutstanding hidle) rfl) hidle nofun
  | waiting => exact enabled_of_main (.create hpc hidle)
  | testing i =>
    by_cases h0 : s.done = 0
    · exact enabled_of_main (.proceed hpc hidle h0)
    · exact enabled_of_main (.leave hpc hidle h0)
  | issuing i =>
    have hlt : i.toNat % numReqs < inputs.real.length := by
      rw [inputs.real_length]
      exact Nat.mod_lt _ (by decide)
    have hreq := List.getElem?_eq_getElem hlt
    exact enabled_of_call (.issue hpc hreq (.issue _ hidle)) hidle nofun
  | returned => exact absurd hpc hmain

end Main

/-- What is asked of the scheduler. -/
structure Fair {inputs : Inputs ρ} {M : Int32} (b : Behaviour (TurnStep inputs) (init ρ M)) :
    Prop where
  main : b.WeaklyFair Turn.ofMain
  executors : ∀ i, b.StronglyFair fun t => t.launched.ofThread (.executor i)
  monitor : b.WeaklyFair Turn.ofMonitor

section Fair
variable {inputs : Inputs ρ} {M : Int32} {b : Behaviour (TurnStep inputs) (init ρ M)} {n : Nat}
  {s : Experiment ρ}

theorem exists_main (h : Enabled ThreadLauncher.TurnStep (ThreadLauncher.Turn.ofThread .launcher)
    s.launcher) : Enabled (TurnStep inputs) Turn.ofMain s := by
  obtain ⟨t, l, hturn, hstep⟩ := h
  cases t with
  | launcher e => exact ⟨.launcher (.launcher e), _, trivial, .inside rfl hstep⟩
  | _ => exact hturn.elim

/-- The experiment as a program that uses the launcher. -/
def client (inputs : Inputs ρ) (M : Int32) : Client ρ (Experiment ρ) (Turn ρ) MainPc where
  Step := TurnStep inputs
  init := init ρ M
  maxOutstanding := M
  launcher := launcher
  turn := Turn.launched
  main := main
  ofMain := Turn.ofMain
  launcher_init := rfl
  launched := TurnStep.launched
  exists_main := exists_main
  in_call := TurnStep.launcher_of_main
  main_moves := TurnStep.main_moves
  idle_or_moves := TurnStep.idle_or_moves

theorem Fair.launcher (hfair : Fair b) :
    ThreadLauncher.Fair (Client.launcherBehaviour (c := client inputs M) b) := by
  refine ⟨Client.weaklyFair_launcher hfair.main, fun i n hen => hfair.executors i n ?_⟩
  intro m hm
  obtain ⟨k, hk, t, l, hturn, hstep⟩ := hen m hm
  exact ⟨k, hk, .launcher t, _, hturn, .inside (inside_of_thread hturn) hstep⟩

theorem paired (b : Behaviour (TurnStep inputs) (init ρ M)) (n : Nat) : Paired (b.state n) := by
  obtain ⟨_, hrun⟩ := run_of_turns (b.run n)
  exact paired_of_run hrun

/-- The main thread neither stays before its second loop nor, once the flag is set, in it. -/
theorem Fair.main_leaves (hM : 0 < M) (hfair : Fair b) {R : Experiment ρ → Prop}
    (hR : ∀ m, n ≤ m → R (b.state m) → (b.state m).main ≠ .returned ∧
      (early (b.state m).main = true ∨ (b.state m).done ≠ 0)) :
    ∃ m, n ≤ m ∧ ¬R (b.state m) := by
  apply Client.main_leaves (c := client inputs M) (r := mainRank) hM hfair.launcher hfair.main
  · exact fun m hm hstays hidle => main_enabled hidle (hR m hm hstays).1
  · intro m hm hstays
    rcases (b.step m).step with hsame | ⟨a, hstep⟩
    · exact .inl (congrArg Experiment.main hsame)
    · rcases hstep.mainRank with hsame | hless | ⟨hlate, h0⟩
      · exact .inl hsame
      · exact .inr hless
      · rcases (hR m hm hstays).2 with hearly | hset
        · rw [hlate] at hearly
          cases hearly
        · exact absurd h0 hset

theorem late_forever {m : Nat} (hlate : early (b.state n).main = false) (hm : n ≤ m) :
    early (b.state m).main = false := by
  induction m, hm using Nat.le_induction with
  | base => exact hlate
  | succ m hm ih =>
    rcases (b.step m).step with hsame | ⟨a, hstep⟩
    · rw [hsame]
      exact ih
    · exact hstep.late ih

theorem TurnStep.monitor_cases {s s' : Experiment ρ} {t : Turn ρ} (h : TurnStep inputs s t s')
    (hlate : early s.main = false) : (¬t.ofMonitor ∧ s'.monitor = s.monitor) ∨
      ∃ executed highPriority done e,
        MonitorStep executed highPriority done s.monitor e s'.monitor := by
  cases h with
  | main h =>
    left
    cases h with
    | create hpc =>
      rw [hpc] at hlate
      cases hlate
    | proceed | leave => exact ⟨id, rfl⟩
  | monitor h =>
    cases h with
    | monitor hstep => exact .inr ⟨_, _, _, _, hstep⟩
  | call _ _ h => exact .inl ⟨id, by cases h <;> rfl⟩
  | inside => exact .inl ⟨id, rfl⟩
  | other => exact .inl ⟨id, rfl⟩

/-- The monitor comes to its end. -/
theorem Fair.monitor_exits (hfair : Fair b) (hlate : early (b.state n).main = false) :
    ∃ m, n ≤ m ∧ (b.state m).monitor.pc = .exited := by
  have hlate : ∀ m, n ≤ m → early (b.state m).main = false := fun m hm => late_forever hlate hm
  obtain ⟨m, hm, hexit⟩ := hfair.monitor.leaves (n := n)
    (R := fun s => s.monitor.pc ≠ .exited) (r := fun m => (b.state m).monitor.pc.rank) (by
      intro m hm hne
      obtain ⟨e, m', hstep⟩ :=
        exists_monitorStep (paired b m).filled ((paired b m).late (hlate m hm)) hne
      exact ⟨.monitor e, _, trivial, .monitor (.monitor hstep)⟩) (by
      intro m hm _ _
      rcases (b.step m).monitor_cases (hlate m hm) with ⟨hno, hsame⟩ | ⟨_, _, _, e, hstep⟩
      · rw [hsame]
        exact ⟨le_rfl, fun hturn => absurd hturn hno⟩
      · have hlt := hstep.rank_lt
        exact ⟨hlt.le, fun _ => hlt⟩)
  exact ⟨m, hm, by_contra hexit⟩

end Fair

/-- With fair threads an experiment comes to its end, and the arrays are filled then. -/
theorem run_experiment_returns {inputs : Inputs ρ} {M : Int32} (hM : 0 < M)
    (b : Behaviour (TurnStep inputs) (init ρ M)) (hfair : Fair b) :
    ∃ n, (b.state n).main = .returned ∧ (b.state n).monitor.results.length = exptLen ∧
      (b.state n).monitor.highPriorityResults.length = exptLen := by
  obtain ⟨k, _, hlate⟩ := hfair.main_leaves hM (n := 0) (R := fun s => early s.main = true)
    fun m _ hearly => ⟨not_returned_of_early hearly, .inl hearly⟩
  have hlate := Bool.eq_false_iff.mpr hlate
  obtain ⟨j, hj, hexit⟩ := hfair.monitor_exits hlate
  have hexit : ∀ m, j ≤ m → (b.state m).monitor.pc = .exited := by
    intro m hm
    induction m, hm using Nat.le_induction with
    | base => exact hexit
    | succ m hm ih =>
      rcases (b.step m).monitor_cases (late_forever hlate (by omega)) with
        ⟨_, hsame⟩ | ⟨_, _, _, e, hstep⟩
      · rw [hsame]
        exact ih
      · exact absurd ih hstep.running.2.1
  have hdone : ∀ m, j ≤ m → (b.state m).done ≠ 0 := by
    intro m hm
    rw [(paired b m).done, Monitor.flag, hexit m hm]
    decide
  obtain ⟨n, hn, hreturned⟩ := hfair.main_leaves hM (n := j) (R := fun s => s.main ≠ .returned)
    fun m hm hne => ⟨hne, .inr (hdone m hm)⟩
  have hfilled := (paired b n).filled
  unfold Monitor.Filled at hfilled
  rw [hexit n hn] at hfilled
  exact ⟨n, by_contra hreturned, hfilled⟩

section Rest
variable {inputs : Inputs ρ} {M : Int32} {tr : List (Action ρ)} {s s' : Experiment ρ} {t : Turn ρ}

theorem exists_turns (h : Runs inputs M tr s) : ∃ tr', Run (TurnStep inputs) (init ρ M) tr' s := by
  induction h with
  | nil => exact ⟨[], .nil⟩
  | snoc _ hstep ih =>
    obtain ⟨tr', hrun⟩ := ih
    obtain ⟨t, hturn⟩ := exists_turn hstep
    exact ⟨_, hrun.snoc hturn⟩

theorem other_of_rest (h : TurnStep inputs s t s') (hmain : s.main = .returned)
    (hmonitor : s.monitor.pc = .exited) (hidle : s.launcher.launcher = .idle)
    (hexited : s.launcher.Finished) : t = .other := by
  cases h with
  | main h =>
    cases h with
    | create hpc | proceed hpc | leave hpc =>
      rw [hmain] at hpc
      cases hpc
  | monitor h =>
    cases h with
    | monitor hstep => exact absurd hmonitor hstep.running.2.1
  | call _ hcall h =>
    cases h with
    | dryRun hpc | wait hpc | issue hpc =>
      rw [hmain] at hpc
      cases hpc
    | launcher hbusy hstep => exact absurd hidle hbusy
    | executor i hstep => exact absurd (hstep.idle hidle) hcall
  | inside hinside h =>
    cases h with
    | launcher h =>
      rw [turn_of_idle _ hidle] at hinside
      cases hinside
    | executor i h =>
      exact absurd (enabled_of_executor h) (not_enabled_at_rest hidle hexited _)
    | other => cases hinside
  | other => rfl

end Rest

theorem run_experiment_returns_fair : ∃ b : Behaviour (TurnStep numbered) (init Nat 1), Fair b ∧
    ∃ n, (b.state n).main = .returned ∧ (b.state n).monitor.results.length = 60 := by
  obtain ⟨tr, _, tr', s, run, _, later, hmain, hquiet, _⟩ := exists_returned numbered
  have run := run.trans later
  have hidle := hquiet.launcher
  have hall := hquiet.requests.2.1.trans hquiet.requests.1.symm
  have hexited := finished_of_counters (launcher_run run) hidle hall
  obtain ⟨_, hturns⟩ := exists_turns run
  obtain ⟨b, _, _, hfair⟩ := Behaviour.exists_of_rest hturns .other
  have hrest : ∀ {A : Turn Nat → Prop}, ¬A .other → b.WeaklyFair A ∧ b.StronglyFair A := by
    intro A hA
    apply hfair
    rintro ⟨t, s', ht, hstep⟩
    have hother := other_of_rest hstep hmain ((paired_of_run run).returned hmain) hidle hexited
    rw [hother] at ht
    exact hA ht
  have hfair : Fair b := ⟨(hrest id).1, fun i => (hrest id).2, (hrest id).1⟩
  obtain ⟨n, hn, hresults, _⟩ := run_experiment_returns (by decide) b hfair
  exact ⟨b, hfair, n, hn, hresults⟩

end Experiment

end Cmsc624.A1
