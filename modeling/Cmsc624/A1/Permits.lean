import Cmsc624.A1.ThreadLauncher
import Cmsc624.Lib.PermitMonitor
import Cmsc624.Lib.CInt

/-!
# The permits of ThreadLauncher

`max_outstanding_` with its mutex and its condition variable is a permit monitor: the
launcher takes, the executors give back. But `pthread_create` comes before the permit is
taken, so the limit is kept only where a permit was free already.
-/

namespace Cmsc624.A1.ThreadLauncher

open Lib

set_option autoImplicit false

variable {ρ : Type}

def Thread.party : Thread → PermitMonitor.Party
  | .launcher => .taker
  | .executor i => .returner i

def LauncherPc.taker : LauncherPc ρ → PermitMonitor.Taker
  | .locking => .locking
  | .testing => .testing
  | .sleeping => .sleeping
  | .waking => .waking
  | .taking => .taking
  | .unlocking => .unlocking
  | _ => .away

def ExecutorPc.returner : ExecutorPc ρ → PermitMonitor.Returner
  | .incrementing => .adding
  | .signalling => .signalling
  | .unlocking => .unlocking
  | .counting => .gone
  | .exited => .gone
  | _ => .working

def Executor.returner (x : Executor ρ) : PermitMonitor.Returner := x.pc.returner

def State.monitor (s : State ρ) : PermitMonitor.State where
  permits := s.maxOutstanding.toNat
  holder := s.maxOutstandingMutex.map Thread.party
  taker := s.launcher.taker
  returners := s.executors.map Executor.returner

def Event.monitor : Event ρ → PermitMonitor.Event
  | .create _ => .spawn
  | .take => .take
  | .giveBack _ => .giveBack
  | _ => .skip

section Refinement
variable {s s' : State ρ} {e : Event ρ} {i : Nat} {x : Executor ρ} {targ : ArgPtr}
  {pc : ExecutorPc ρ}

theorem monitor_getElem (hx : s.executors[i]? = some x) :
    s.monitor.returners[i]? = some x.returner := Threads.map_getElem? _ hx

theorem monitor_goto (i : Nat) (targ : ArgPtr) (pc : ExecutorPc ρ) :
    (s.goto i targ pc).executors.map Executor.returner =
      s.monitor.returners.set i pc.returner := by
  rw [State.goto, List.map_set]
  rfl

theorem monitor_goto_same (hx : s.executors[i]? = some x) (hpc : pc.returner = x.returner) :
    (s.goto i targ pc).executors.map Executor.returner = s.executors.map Executor.returner :=
  Threads.map_set_same hx hpc

theorem monitor_step {m : PermitMonitor.State} {ev : PermitMonitor.Event}
    (h : PermitMonitor.Step UInt32.size s.monitor ev m)
    (hpermits : s'.maxOutstanding.toNat = m.permits)
    (hholder : s'.maxOutstandingMutex.map Thread.party = m.holder)
    (htaker : s'.launcher.taker = m.taker)
    (hreturners : s'.executors.map Executor.returner = m.returners) :
    PermitMonitor.Step UInt32.size s.monitor ev s'.monitor := by
  have hsame : s'.monitor = m := by
    rw [State.monitor, hpermits, hholder, htaker, hreturners]
  rw [hsame]
  exact h

theorem monitor_idle (hmax : s'.maxOutstanding = s.maxOutstanding)
    (hmutex : s'.maxOutstandingMutex = s.maxOutstandingMutex)
    (htaker : s'.launcher.taker = s.launcher.taker)
    (hreturners : s'.executors.map Executor.returner = s.executors.map Executor.returner) :
    PermitMonitor.Step UInt32.size s.monitor .skip s'.monitor :=
  monitor_step .idle (by rw [hmax]; rfl) (by rw [hmutex]; rfl) htaker hreturners

theorem monitor_taker {pc : LauncherPc ρ} (hpc : s.launcher = pc) : s.monitor.taker = pc.taker := by
  rw [State.monitor, hpc]

theorem monitor_holder (hm : s.maxOutstandingMutex = none) : s.monitor.holder = none := by
  rw [State.monitor, hm]
  rfl

theorem LauncherStep.monitor (h : LauncherStep s e s') :
    PermitMonitor.Step UInt32.size s.monitor e.monitor s'.monitor := by
  cases h with
  | issue req hpc => exact monitor_idle rfl rfl (by rw [hpc]; rfl) rfl
  | allocate id hpc => exact monitor_idle rfl rfl (by rw [hpc]; rfl) rfl
  | create hpc => exact monitor_step (.spawn (monitor_taker hpc)) rfl rfl rfl List.map_append
  | lock hpc hm => exact .lock (monitor_taker hpc) (monitor_holder hm)
  | wait hpc h0 =>
    exact .sleep (monitor_taker hpc) (Nat.le_zero.mp (UInt32.le_iff_toNat_le.mp h0))
  | wakeSpuriously hpc => exact .wake (monitor_taker hpc)
  | relock hpc hm => exact .relock (monitor_taker hpc) (monitor_holder hm)
  | pass hpc h0 =>
    refine .pass (monitor_taker hpc) fun hzero => h0 ?_
    exact UInt32.le_iff_toNat_le.mpr (Nat.le_zero.mpr hzero)
  | take hpc =>
    exact monitor_step (.take (monitor_taker hpc)) (UInt32.toNat_sub _ _) rfl rfl rfl
  | unlock hpc => exact .unlock (monitor_taker hpc)
  | lockList hpc hm => exact monitor_idle rfl rfl (by rw [hpc]; rfl) rfl
  | detach hpc => exact monitor_idle rfl rfl (by rw [hpc]; rfl) rfl
  | clear hpc => exact monitor_idle rfl rfl (by rw [hpc]; rfl) rfl
  | unlockList hpc => exact monitor_idle rfl rfl (by rw [hpc]; rfl) rfl
  | next hpc ha => exact monitor_idle rfl rfl (by rw [hpc]; rfl) rfl
  | join hpc ha hid hx hexit => exact monitor_idle rfl rfl (by rw [hpc]; rfl) rfl
  | freeId hpc ha => exact monitor_idle rfl rfl (by rw [hpc]; rfl) rfl
  | free hpc => exact monitor_idle rfl rfl (by rw [hpc]; rfl) rfl
  | ret hpc => exact monitor_idle rfl rfl (by rw [hpc]; rfl) rfl
  | waitOutstanding hpc => exact monitor_idle rfl rfl (by rw [hpc]; rfl) rfl
  | retry hpc hne => exact .idle
  | waited hpc heq => exact monitor_idle rfl rfl (by rw [hpc]; rfl) rfl

theorem monitor_taker_ne (hl : s.launcher ≠ .sleeping) : s.monitor.taker ≠ .sleeping := by
  intro ht
  cases hlauncher : s.launcher with
  | sleeping => exact hl hlauncher
  | _ => simp [State.monitor, hlauncher, LauncherPc.taker] at ht

theorem ExecutorStep.monitor (h : ExecutorStep i s e s') :
    PermitMonitor.Step UInt32.size s.monitor e.monitor s'.monitor := by
  cases h with
  | execute hx ha => exact monitor_idle rfl rfl rfl (monitor_goto_same hx rfl)
  | executed hx => exact monitor_idle rfl rfl rfl (monitor_goto_same hx rfl)
  | lockList hx hm => exact monitor_idle rfl rfl rfl (monitor_goto_same hx rfl)
  | setNext hx => exact monitor_idle rfl rfl rfl (monitor_goto_same hx rfl)
  | publish hx => exact monitor_idle rfl rfl rfl (monitor_goto_same hx rfl)
  | unlockList hx => exact monitor_idle rfl rfl rfl (monitor_goto_same hx rfl)
  | lock hx hm =>
    exact monitor_step (.enter i (monitor_getElem hx) (monitor_holder hm)) rfl rfl rfl
      (monitor_goto i _ _)
  | increment hx =>
    exact monitor_step (.add i (monitor_getElem hx)) (UInt32.toNat_add _ _) rfl rfl
      (monitor_goto i _ _)
  | signal hx hl =>
    exact monitor_step (.signal i (monitor_getElem hx) (monitor_taker hl)) rfl rfl rfl
      (monitor_goto i _ _)
  | signalNobody hx hl =>
    exact monitor_step (.signalNobody i (monitor_getElem hx) (monitor_taker_ne hl)) rfl rfl rfl
      (monitor_goto i _ _)
  | unlock hx =>
    exact monitor_step (.leave i (monitor_getElem hx)) rfl rfl rfl (monitor_goto i _ _)
  | count hx => exact monitor_idle rfl rfl rfl (monitor_goto_same hx rfl)

theorem Step.monitor (h : Step s e s') :
    PermitMonitor.Step UInt32.size s.monitor e.monitor s'.monitor := by
  cases h with
  | launcher h => exact h.monitor
  | executor i h => exact h.monitor

/-- Every run of the launcher is a run of the monitor. -/
theorem refines_monitor {M : Int32} {tr : List (Event ρ)} (h : Runs M tr s) :
    Run (PermitMonitor.Step UInt32.size) (PermitMonitor.State.init M.toUInt32.toNat)
      (tr.map Event.monitor) s.monitor := by
  rw [← List.filterMap_eq_map]
  exact h.simulate State.monitor _ fun _ hstep => .inr ⟨_, rfl, hstep.monitor⟩

end Refinement

/-- `++*max_outstanding_` is done. -/
def ExecutorPc.returned : ExecutorPc ρ → Bool
  | .signalling => true
  | .unlocking => true
  | .counting => true
  | .exited => true
  | _ => false

def State.returned (s : State ρ) : Nat := s.executors.countP fun x => x.pc.returned

/-- The executors that have been created and have not returned a permit. -/
def State.outstanding (s : State ρ) : Nat := s.executors.countP fun x => !x.pc.returned

def taken (tr : List (Event ρ)) : Nat := tr.countP fun | .take => true | _ => false

section Counter
variable {M : Int32} {s s' : State ρ} {tr : List (Event ρ)} {e : Event ρ} {i : Nat}

theorem returned_returner (pc : ExecutorPc ρ) : pc.returner.returned = pc.returned := by
  cases pc <;> rfl

theorem monitor_returned (s : State ρ) : s.monitor.returned = s.returned := by
  rw [PermitMonitor.State.returned, State.monitor, List.countP_map]
  exact List.countP_congr fun x _ => by
    rw [Function.comp_apply, Executor.returner, returned_returner]

theorem monitor_outstanding (s : State ρ) : s.monitor.outstanding = s.outstanding := by
  rw [PermitMonitor.State.outstanding, State.monitor, List.countP_map]
  exact List.countP_congr fun x _ => by
    rw [Function.comp_apply, Executor.returner, returned_returner]

theorem monitor_taken (tr : List (Event ρ)) :
    PermitMonitor.taken (tr.map Event.monitor) = taken tr := by
  rw [PermitMonitor.taken, List.count_eq_countP, List.countP_map, taken]
  apply List.countP_congr
  intro e _
  cases e <;> simp [Event.monitor]

theorem limit_toNat (hM : 0 < M) : (M.toUInt32.toNat : Int) = M.toInt := by
  have hpos : 0 < M.toInt := Int32.lt_iff_toInt_lt.mp hM
  rw [Int32.toNat_toUInt32_of_le (Int32.le_of_lt hM), ← Int32.toNat_toInt]
  exact Int.toNat_of_nonneg (Int.le_of_lt hpos)

theorem limit_lt_size (hM : 0 < M) : M.toUInt32.toNat + 1 < UInt32.size := by
  have hnat := limit_toNat hM
  have hlt := M.toInt_lt
  rw [UInt32.size]
  omega

/-- What the monitor's invariant says about the launcher. -/
theorem permits_of_run (h : Runs M tr s) :
    PermitMonitor.Inv UInt32.size M.toUInt32.toNat (tr.map Event.monitor) s.monitor :=
  PermitMonitor.inv_of_run (UInt32.toNat_lt_size _) (refines_monitor h)

/-- The launcher is in `pthread_cond_wait`. -/
def State.InCondWait (s : State ρ) : Prop := s.launcher = .sleeping ∨ s.launcher = .waking

/-- The launcher has been woken, or an executor that has returned a permit is at its signal. -/
def State.WakeUpPending (s : State ρ) : Prop :=
  s.launcher = .waking ∨ ∃ (i : Nat) (x : Executor ρ), s.executors[i]? = some x ∧ x.pc = .signalling

/-- A sleeper without a wake-up finds no permit, and an executor has to return one. -/
theorem asleep_of_run (hM : 0 < M) (h : Runs M tr s) (hwait : s.InCondWait)
    (hno : ¬s.WakeUpPending) : s.maxOutstanding = 0 ∧
      ∃ (i : Nat) (x : Executor ρ), s.executors[i]? = some x ∧ x.pc.returned = false := by
  have inv := permits_of_run h
  have hasleep : s.launcher = .sleeping := hwait.resolve_right fun hw => hno (.inl hw)
  have hzero : s.maxOutstanding.toNat = 0 := by
    rcases inv.asleep (monitor_taker hasleep) with h0 | ⟨i, hi⟩
    · exact h0
    · rw [State.monitor, List.getElem?_map] at hi
      obtain ⟨x, hx, hpc⟩ := Option.map_eq_some_iff.mp hi
      refine absurd (.inr ⟨i, x, hx, ?_⟩) hno
      cases hp : x.pc <;> simp_all [Executor.returner, ExecutorPc.returner]
  refine ⟨UInt32.toNat_inj.mp hzero, ?_⟩
  have hout := inv.outstanding_add (limit_lt_size hM)
  rw [monitor_outstanding, monitor_taker hasleep] at hout
  have hpos : 0 < s.outstanding := by
    simp only [State.monitor, LauncherPc.taker, PermitMonitor.Taker.owed] at hout
    omega
  obtain ⟨x, hx, hret⟩ := List.countP_pos_iff.mp hpos
  obtain ⟨i, hi⟩ := List.getElem?_of_mem hx
  exact ⟨i, x, hi, by simpa using hret⟩

/-- The permit protocol: the counter is exact, it neither wraps nor runs high, and the
launcher never sleeps without somebody who will wake it. -/
theorem permit_protocol (hM : 0 < M) (h : Runs M tr s) :
    (s.maxOutstanding.toNat : Int) = M.toInt + s.returned - taken tr ∧
    (∀ s', Step s .take s' → s.maxOutstanding ≠ 0) ∧
    (s.maxOutstanding.toNat : Int) ≤ M.toInt + 1 ∧
    (s.InCondWait → ¬s.WakeUpPending → s.maxOutstanding = 0 ∧
      ∃ (i : Nat) (x : Executor ρ), s.executors[i]? = some x ∧ x.pc.returned = false) := by
  have inv := permits_of_run h
  have hnat := limit_toNat hM
  refine ⟨?_, ?_, ?_, asleep_of_run hM h⟩
  · have hbalance := inv.balance (limit_lt_size hM)
    rw [monitor_taken, monitor_returned] at hbalance
    simp only [State.monitor] at hbalance
    omega
  · intro s' hstep hzero
    cases hstep with
    | launcher hstep =>
      cases hstep with
      | take hpc => exact inv.taking (monitor_taker hpc) (UInt32.toNat_inj.mpr hzero)
    | executor i hstep => cases hstep
  · have hle := inv.permits_le (limit_lt_size hM)
    have howed := s.monitor.taker.owed_le
    simp only [State.monitor] at hle howed
    omega

/-- With a limit of 1: the second call has created its thread, the first one still runs. -/
theorem second_created : ∃ tr, ∃ s : State Unit, Runs 1 tr s ∧ s.launcher = .locking ∧
    s.maxOutstandingMutex = none ∧ s.maxOutstanding = 0 ∧
    s.executors = [⟨0, .created⟩, ⟨1, .created⟩] := by
  have run : Runs (ρ := Unit) 1 [] _ := .nil
  have run := run.snoc (.launcher (.issue () rfl))
  have run := run.snoc (.launcher (.allocate 0 rfl))
  have run := run.snoc (.launcher (.create rfl))
  have run := run.snoc (.launcher (.lock rfl rfl))
  have run := run.snoc (.launcher (.pass rfl (by decide)))
  have run := run.snoc (.launcher (.take rfl))
  have run := run.snoc (.launcher (.unlock rfl))
  have run := run.snoc (.launcher (.lockList rfl rfl))
  have run := run.snoc (.launcher (.detach rfl))
  have run := run.snoc (.launcher (.clear rfl))
  have run := run.snoc (.launcher (.unlockList rfl))
  have run := run.snoc (.launcher (.ret rfl))
  have run := run.snoc (.launcher (.issue () rfl))
  have run := run.snoc (.launcher (.allocate 0 rfl))
  have run := run.snoc (.launcher (.create rfl))
  exact ⟨_, _, run, rfl, rfl, rfl, rfl⟩

theorem permit_protocol_asleep : ∃ tr, ∃ s : State Unit, Runs 1 tr s ∧ s.launcher = .sleeping ∧
    s.maxOutstanding = 0 ∧ ∃ (i : Nat) (x : Executor Unit), s.executors[i]? = some x ∧
      x.pc.returned = false := by
  obtain ⟨tr, s, run, hpc, hmutex, hzero, hexec⟩ := second_created
  have run := run.snoc (.launcher (.lock hpc hmutex))
  have run := run.snoc (.launcher (.wait rfl (by rw [hzero]; decide)))
  refine ⟨_, _, run, rfl, (permit_protocol (by decide) run).2.2.2 (.inl rfl) ?_⟩
  rintro (hwoken | ⟨i, x, hx, hpc⟩)
  · cases hwoken
  · rw [hexec] at hx
    match i with
    | 0 => cases hx; cases hpc
    | 1 => cases hx; cases hpc

/-- `pthread_create` is called only while a permit is free. -/
def CarefulStep (s : State ρ) (e : Event ρ) (s' : State ρ) : Prop :=
  Step s e s' ∧ ∀ i, e = .create i → s.maxOutstanding ≠ 0

theorem covered_of_run (hM : 0 < M) (h : Run CarefulStep (State.init ρ M) tr s) :
    s.monitor.taker.owed ≤ s.monitor.permits := by
  apply h.invariant (I := fun _ s => s.monitor.taker.owed ≤ s.monitor.permits)
  · exact Nat.zero_le _
  · intro tr s e s' hr hcovered hstep
    have inv := permits_of_run (hr.mono And.left)
    refine inv.covered_step (limit_lt_size hM) hcovered hstep.1.monitor fun hspawn hzero => ?_
    cases e with
    | create i => exact hstep.2 i rfl (UInt32.toNat_inj.mp hzero)
    | _ => cases hspawn

def calls (tr : List (Event ρ)) : Nat := tr.countP fun | .issue _ => true | _ => false

@[simp] theorem calls_append (tr tr' : List (Event ρ)) : calls (tr ++ tr') = calls tr + calls tr' :=
  List.countP_append

/-- The call that has not come to its `pthread_create` yet. -/
def LauncherPc.uncreated : LauncherPc ρ → Nat
  | .issued _ => 1
  | .allocated _ _ => 1
  | _ => 0

theorem length_of_run (h : Runs M tr s) : s.executors.length + s.launcher.uncreated = calls tr := by
  refine h.invariant (I := fun tr s => s.executors.length + s.launcher.uncreated = calls tr) rfl ?_
  intro tr s e s' _ ih hstep
  rw [calls_append, ← ih]
  cases hstep with
  | launcher hstep =>
    cases hstep with
    | issue req hpc => simp [hpc, LauncherPc.uncreated, calls]
    | allocate id hpc => simp [hpc, LauncherPc.uncreated, calls]
    | create hpc => simp [hpc, LauncherPc.uncreated, calls]
    | retry hpc hne => rfl
    | _ hpc => simp [hpc, LauncherPc.uncreated, calls]
  | executor i hstep =>
    cases hstep with
    | signal hx hl => simp [State.goto, hl, LauncherPc.uncreated, calls]
    | _ hx => simp [State.goto, calls]

theorem outstanding_le (h : Runs M tr s) : s.outstanding ≤ calls tr :=
  calc s.outstanding
    _ ≤ s.executors.length := List.countP_le_length
    _ ≤ s.executors.length + s.launcher.uncreated := Nat.le_add_right _ _
    _ = calls tr := length_of_run h

/-- `k` calls have returned, and no executor has come to `Execute`. -/
structure Filled (M : Int32) (k : Nat) (tr : List (Event ρ)) (s : State ρ) : Prop where
  run : Runs M tr s
  count : calls tr = k
  idle : s.launcher = .idle
  mutex : s.maxOutstandingMutex = none
  listMutex : s.targListMutex = none
  list : s.targList = none
  permits : s.maxOutstanding.toNat + k = M.toUInt32.toNat
  waiting : s.outstanding = k

theorem outstanding_create (s : State ρ) (targ : ArgPtr) :
    (s.executors ++ [Executor.mk targ .created]).countP (fun x : Executor ρ => !x.pc.returned) =
      s.outstanding + 1 := List.countP_append

theorem Filled.call {k : Nat} (h : Filled M k tr s) (hk : k < M.toUInt32.toNat) (req : ρ) :
    ∃ (tr' : List (Event ρ)) (s' : State ρ), Filled M (k + 1) tr' s' := by
  have hpermits := h.permits
  have hfree : ¬s.maxOutstanding ≤ 0 := fun hle => by
    have hzero := UInt32.le_iff_toNat_le.mp hle
    rw [UInt32.toNat_zero] at hzero
    omega
  have run := h.run
  have run := run.snoc (.launcher (.issue req h.idle))
  have run := run.snoc (.launcher (.allocate 0 rfl))
  have run := run.snoc (.launcher (.create rfl))
  have run := run.snoc (.launcher (.lock rfl h.mutex))
  have run := run.snoc (.launcher (.pass rfl hfree))
  have run := run.snoc (.launcher (.take rfl))
  have run := run.snoc (.launcher (.unlock rfl))
  have run := run.snoc (.launcher (.lockList rfl h.listMutex))
  have run := run.snoc (.launcher (.detach rfl))
  have run := run.snoc (.launcher (.clear rfl))
  have run := run.snoc (.launcher (.unlockList rfl))
  have run := run.snoc (.launcher (.ret (congrArg LauncherPc.walking h.list)))
  refine ⟨_, _, run, ?_, rfl, rfl, rfl, rfl, ?_, ?_⟩
  · simp only [calls_append, h.count]
    rfl
  · have hone : (1 : UInt32) ≤ s.maxOutstanding := by
      rw [UInt32.le_iff_toNat_le, UInt32.toNat_one]
      omega
    rw [UInt32.toNat_sub_of_le _ _ hone, UInt32.toNat_one]
    omega
  · exact (outstanding_create s _).trans (congrArg Nat.succ h.waiting)

theorem exists_filled (M : Int32) (req : ρ) {k : Nat} (hk : k ≤ M.toUInt32.toNat) :
    ∃ (tr : List (Event ρ)) (s : State ρ), Filled M k tr s := by
  induction k with
  | zero => exact ⟨[], _, .nil, rfl, rfl, rfl, rfl, rfl, rfl, rfl⟩
  | succ k ih =>
    obtain ⟨tr, s, h⟩ := ih (Nat.le_of_succ_le hk)
    exact h.call hk req

/-- One call more than there are permits is enough to break the limit. -/
theorem exists_over (M : Int32) (req : ρ) : ∃ (tr : List (Event ρ)) (s : State ρ), Runs M tr s ∧
    calls tr = M.toUInt32.toNat + 1 ∧ s.outstanding = M.toUInt32.toNat + 1 := by
  obtain ⟨tr, s, h⟩ := exists_filled M req (Nat.le_refl M.toUInt32.toNat)
  have run := h.run
  have run := run.snoc (.launcher (.issue req h.idle))
  have run := run.snoc (.launcher (.allocate 0 rfl))
  have run := run.snoc (.launcher (.create rfl))
  refine ⟨_, _, run, ?_, ?_⟩
  · simp only [calls_append, h.count]
    rfl
  · exact (outstanding_create s _).trans (congrArg Nat.succ h.waiting)

/-- The limit is kept where threads are created for free permits only, and each time that
one is created without, it is broken. A client can rely on it if and only if it makes no more
calls than there are permits. -/
theorem limit_of_careful (hM : 0 < M) :
    (∀ {tr : List (Event ρ)} {s : State ρ}, Run CarefulStep (State.init ρ M) tr s →
      (s.outstanding : Int) ≤ M.toInt) ∧
    (∀ {tr : List (Event ρ)} {s s' : State ρ} {i : Nat}, Runs M tr s → Step s (.create i) s' →
      ((s'.outstanding : Int) ≤ M.toInt ↔ s.maxOutstanding ≠ 0)) ∧
    (Nonempty ρ → ∀ n : Nat, (∀ (tr : List (Event ρ)) (s : State ρ), Runs M tr s → calls tr ≤ n →
      (s.outstanding : Int) ≤ M.toInt) ↔ (n : Int) ≤ M.toInt) := by
  have hnat := limit_toNat hM
  refine ⟨?_, ?_, ?_⟩
  · intro tr s h
    have hout := (permits_of_run (h.mono And.left)).outstanding_add (limit_lt_size hM)
    have hcovered := covered_of_run hM h
    rw [monitor_outstanding] at hout
    omega
  · intro tr s s' i h hstep
    have hout := (permits_of_run (h.snoc hstep)).outstanding_add (limit_lt_size hM)
    rw [monitor_outstanding] at hout
    cases hstep with
    | launcher hstep =>
      cases hstep with
      | create hpc =>
        have hpermits : s.maxOutstanding ≠ 0 ↔ s.maxOutstanding.toNat ≠ 0 := by
          rw [ne_eq, ne_eq, ← UInt32.toNat_inj]
          rfl
        rw [hpermits]
        simp only [State.monitor, LauncherPc.taker, PermitMonitor.Taker.owed] at hout
        omega
    | executor i hstep => cases hstep
  · rintro ⟨req⟩ n
    constructor
    · intro hkeeps
      obtain ⟨tr, s, h, hcalls, hout⟩ := exists_over M req
      by_contra hn
      have hle := hkeeps tr s h (by omega)
      omega
    · intro hn tr s h hcalls
      have hle := outstanding_le h
      omega

end Counter

theorem limit_of_careful_one : ∃ tr, ∃ s : State Unit, Run CarefulStep (State.init Unit 1) tr s ∧
    s.outstanding = 1 ∧ (s.outstanding : Int) ≤ Int32.toInt 1 := by
  have run : Run CarefulStep (State.init Unit 1) [] _ := .nil
  have run := run.snoc ⟨.launcher (.issue () rfl), by simp⟩
  have run := run.snoc ⟨.launcher (.allocate 0 rfl), by simp⟩
  have run := run.snoc ⟨.launcher (.create rfl), fun _ _ => by decide⟩
  exact ⟨_, _, run, rfl, (limit_of_careful (by decide)).1 run⟩

/-- Two requests are outstanding where the constructor was told one. -/
theorem limit_exceeded : ∃ tr, ∃ s : State Unit, Runs 1 tr s ∧
    ¬(s.outstanding : Int) ≤ Int32.toInt 1 := by
  obtain ⟨tr, s, run, _, _, _, hexec⟩ := second_created
  refine ⟨tr, s, run, ?_⟩
  rw [State.outstanding, hexec]
  decide

end Cmsc624.A1.ThreadLauncher
