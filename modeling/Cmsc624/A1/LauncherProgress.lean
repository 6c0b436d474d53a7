import Cmsc624.A1.Barrier
import Cmsc624.A1.Reclaimed
import Cmsc624.Lib.Behaviour

/-!
# Progress of ThreadLauncher

The turns of the threads, some of which only poll: the loop of `WaitOutstanding`, and wake-ups
without a signal. All others use up a potential that the calls have to pay for, and one of them
is possible as long as a call or a request is unfinished. So with fair threads every call
returns and every executor exits.
-/

namespace Cmsc624.A1.ThreadLauncher

open Lib

set_option autoImplicit false

variable {ρ : Type}

/-- Whose turn it is, and what for. -/
inductive Turn (ρ : Type) where
  -- The launcher thread calls `ExecuteRequest` or `WaitOutstanding`.
  | call (e : Event ρ)
  | launcher (e : Event ρ)
  -- A pass of the loop in `WaitOutstanding`.
  | spin
  -- `pthread_cond_wait` returns without a signal.
  | wake
  | executor (i : Nat) (e : Event ρ)
  -- Anything outside of the launcher.
  | other

def Turn.event : Turn ρ → Option (Event ρ)
  | .call e => some e
  | .launcher e => some e
  | .spin => some .skip
  | .wake => some .skip
  | .executor _ e => some e
  | .other => none

/-- The turn that is a statement of the launcher thread at this place. -/
def LauncherPc.turn (e : Event ρ) : LauncherPc ρ → Turn ρ
  | .idle => .call e
  | .sleeping => .wake
  | .waiting => match e with
    | .waited => .launcher .waited
    | _ => .spin
  | _ => .launcher e

inductive TurnStep : State ρ → Turn ρ → State ρ → Prop where
  | launcher {s s' : State ρ} {e : Event ρ} (h : LauncherStep s e s') :
      TurnStep s (s.launcher.turn e) s'
  | executor {s s' : State ρ} {e : Event ρ} (i : Nat) (h : ExecutorStep i s e s') :
      TurnStep s (.executor i e) s'
  | other {s : State ρ} : TurnStep s .other s

def turnEvents (tr : List (Turn ρ)) : List (Event ρ) := tr.filterMap Turn.event

section Turns
variable {M : Int32} {tr : List (Turn ρ)} {s s' : State ρ} {e : Event ρ} {t : Turn ρ}

theorem LauncherStep.turn_event (h : LauncherStep s e s') :
    (s.launcher.turn e).event = some e := by
  cases h with
  | issue req hpc | allocate id hpc | create hpc | lock hpc hm | wait hpc h0 | wakeSpuriously hpc
  | relock hpc hm | pass hpc h0 | take hpc | unlock hpc | lockList hpc hm | detach hpc | clear hpc
  | unlockList hpc | next hpc ha | join hpc ha hid hx hexit | freeId hpc ha | free hpc | ret hpc
  | waitOutstanding hpc | retry hpc hne | waited hpc heq =>
    rw [hpc]
    rfl

theorem step_iff_turn : Step s e s' ↔ ∃ t, t.event = some e ∧ TurnStep s t s' := by
  constructor
  · intro h
    cases h with
    | launcher h => exact ⟨_, h.turn_event, .launcher h⟩
    | executor i h => exact ⟨_, rfl, .executor i h⟩
  · rintro ⟨t, ht, h⟩
    cases h with
    | launcher h =>
      obtain rfl := Option.some.inj (h.turn_event.symm.trans ht)
      exact .launcher h
    | executor i h =>
      obtain rfl := Option.some.inj ht
      exact .executor i h
    | other => cases ht

theorem TurnStep.step (h : TurnStep s t s') :
    (t.event = none ∧ s' = s) ∨ ∃ e, t.event = some e ∧ Step s e s' := by
  cases h with
  | launcher h => exact .inr ⟨_, h.turn_event, .launcher h⟩
  | executor i h => exact .inr ⟨_, rfl, .executor i h⟩
  | other => exact .inl ⟨rfl, rfl⟩

theorem run_of_turns (h : Run TurnStep (State.init ρ M) tr s) : Runs M (turnEvents tr) s :=
  h.simulate id Turn.event fun _ hstep => hstep.step

theorem turnEvents_append (tr tr' : List (Turn ρ)) :
    turnEvents (tr ++ tr') = turnEvents tr ++ turnEvents tr' := List.filterMap_append

theorem exists_turns {tr : List (Event ρ)} (h : Runs M tr s) :
    ∃ tr', Run TurnStep (State.init ρ M) tr' s ∧ turnEvents tr' = tr := by
  induction h with
  | nil => exact ⟨[], .nil, rfl⟩
  | snoc _ hstep ih =>
    obtain ⟨tr', hrun, htr⟩ := ih
    obtain ⟨t, ht, hturn⟩ := step_iff_turn.mp hstep
    refine ⟨_, hrun.snoc hturn, ?_⟩
    rw [turnEvents_append, htr]
    exact congrArg _ (List.filterMap_cons_some ht)

end Turns

def Turn.working : Turn ρ → Bool
  | .launcher _ => true
  | .executor _ _ => true
  | _ => false

/-- What a turn may add to the potential. -/
def Turn.credit : Turn ρ → Nat
  | .call (.issue _) => 31
  | .call _ => 1
  | .wake => 2
  | _ => 0

/-- The turns that an executor still takes; a signal and a linked block make work for the
launcher. -/
def ExecutorPc.rank : ExecutorPc ρ → Nat
  | .created => 17
  | .executing _ => 16
  | .lockingList => 15
  | .settingNext => 14
  | .publishing => 13
  | .unlockingList => 8
  | .locking => 7
  | .incrementing => 6
  | .signalling => 5
  | .unlocking => 2
  | .counting => 1
  | .exited => 0

/-- The turns that the launcher takes until its call returns, without those for the blocks. -/
def LauncherPc.rank : LauncherPc ρ → Nat
  | .issued _ => 31
  | .allocated _ _ => 30
  | .locking => 12
  | .waking => 12
  | .testing => 11
  | .sleeping => 10
  | .taking => 10
  | .unlocking => 9
  | .lockingList => 8
  | .detaching => 7
  | .clearing _ => 6
  | .unlockingList _ => 5
  | .walking _ => 4
  | .joining _ _ => 3
  | .freeingId _ _ => 2
  | .freeing _ _ => 1
  | .waiting => 1
  | .idle => 0

def blocks (tr : List (Event ρ)) : Nat :=
  (JoinList.listed (tr.map Event.joinList)).length +
    (JoinList.detached (tr.map Event.joinList)).length

def State.ranks (s : State ρ) : Nat := (s.executors.map fun x => x.pc.rank).sum

def potential (tr : List (Event ρ)) (s : State ρ) : Nat :=
  4 * blocks tr + s.launcher.rank + s.ranks

section Potential
variable {M : Int32} {tr : List (Event ρ)} {s s' : State ρ} {e : Event ρ} {t : Turn ρ} {i : Nat}
  {targ : ArgPtr} {x : Executor ρ} {pc : ExecutorPc ρ}

theorem blocks_concat (tr : List (Event ρ)) (e : Event ρ) :
    blocks (tr ++ [e]) =
      (e.joinList.relink (JoinList.lists (tr.map Event.joinList))).1.length +
        (e.joinList.relink (JoinList.lists (tr.map Event.joinList))).2.length := by
  rw [blocks, JoinList.listed, JoinList.detached, List.map_append, List.map_singleton,
    JoinList.lists_concat]

theorem ranks_goto (hx : s.executors[i]? = some x) (targ : ArgPtr) (pc : ExecutorPc ρ) :
    (s.goto i targ pc).ranks + x.pc.rank = s.ranks + pc.rank :=
  Threads.sum_map_set (fun x : Executor ρ => x.pc.rank) hx ⟨targ, pc⟩

theorem blocks_free (h : Runs M tr s) {temp : ArgPtr} {arg : Option ArgPtr}
    (hpc : s.launcher = .freeing temp arg) : blocks (tr ++ [.free temp]) + 1 = blocks tr := by
  have hheld : s.launcher.owner.Holds s.joinList.next _ := (joinList_of_run h).held
  rw [hpc] at hheld
  obtain ⟨d, hd, _⟩ := hheld
  have hdetached : (JoinList.lists (tr.map Event.joinList)).2 = temp :: d := hd
  rw [blocks_concat, blocks, JoinList.listed, JoinList.detached, hdetached]
  show _ + (JoinList.lists (tr.map Event.joinList)).2.tail.length + 1 = _
  rw [hdetached]
  rfl

theorem potential_launcher {pc' : LauncherPc ρ} {pc : LauncherPc ρ} (hpc : s.launcher = pc)
    (hpc' : s'.launcher = pc') (hexec : s'.executors = s.executors)
    (hblocks : blocks (tr ++ [e]) ≤ blocks tr)
    (hrank : pc'.rank + (pc.turn e).working.toNat ≤ pc.rank + (pc.turn e).credit) :
    potential (tr ++ [e]) s' + (s.launcher.turn e).working.toNat ≤
      potential tr s + (s.launcher.turn e).credit := by
  have hranks : s'.ranks = s.ranks := by
    rw [State.ranks, hexec]
    rfl
  rw [potential, potential, hranks, hpc', hpc]
  omega

theorem LauncherStep.potential (hrun : Runs M tr s) (h : LauncherStep s e s') :
    potential (tr ++ [e]) s' + (s.launcher.turn e).working.toNat ≤
      potential tr s + (s.launcher.turn e).credit := by
  cases h with
  | @free temp arg hpc =>
    have hblocks := blocks_free hrun hpc
    rw [ThreadLauncher.potential, ThreadLauncher.potential, hpc]
    show _ + 4 + s.ranks + 1 ≤ _ + 1 + s.ranks + 0
    omega
  | @create thread arg hpc =>
    have hblocks : blocks (tr ++ [.create s.executors.length]) = blocks tr := blocks_concat _ _
    have hranks : ((s.executors ++ [(⟨arg, .created⟩ : Executor ρ)]).map fun x => x.pc.rank).sum =
        s.ranks + 17 := by
      rw [List.map_append, List.sum_append]
      rfl
    rw [ThreadLauncher.potential, ThreadLauncher.potential, hpc, hblocks, State.ranks, hranks]
    show _ + 12 + (s.ranks + 17) + 1 ≤ _ + 30 + s.ranks + 0
    omega
  | clear hpc =>
    refine potential_launcher hpc rfl rfl ?_
      (by simp [LauncherPc.rank, LauncherPc.turn, Turn.working, Turn.credit])
    rw [blocks_concat]
    exact Nat.add_comm _ _ ▸ Nat.le_add_right _ _
  | retry hpc hne =>
    exact potential_launcher hpc hpc rfl (blocks_concat _ _).le
      (by simp [LauncherPc.rank, LauncherPc.turn, Turn.working, Turn.credit])
  | issue req hpc | allocate id hpc | lock hpc hm | wait hpc h0 | wakeSpuriously hpc
  | relock hpc hm | pass hpc h0 | take hpc | unlock hpc | lockList hpc hm | detach hpc
  | unlockList hpc | next hpc ha | join hpc ha hid hx hexit | freeId hpc ha | ret hpc
  | waitOutstanding hpc | waited hpc heq =>
    exact potential_launcher hpc rfl rfl (blocks_concat _ _).le
      (by simp [LauncherPc.rank, LauncherPc.turn, Turn.working, Turn.credit])

theorem potential_executor (hx : s.executors[i]? = some x) (hlauncher : s'.launcher = s.launcher)
    (hexec : s'.executors = (s.goto i targ pc).executors)
    (hblocks : blocks (tr ++ [e]) = blocks tr) (hrank : pc.rank < x.pc.rank) :
    potential (tr ++ [e]) s' < potential tr s := by
  have hranks : s'.ranks = (s.goto i targ pc).ranks := by
    rw [State.ranks, hexec]
    rfl
  have hgoto := ranks_goto hx targ pc
  rw [potential, potential, hranks, hlauncher, hblocks]
  omega

theorem ExecutorStep.potential (h : ExecutorStep i s e s') :
    potential (tr ++ [e]) s' < potential tr s := by
  cases h with
  | @publish targ hx =>
    have hgoto := ranks_goto hx targ .unlockingList
    have hblocks : blocks (tr ++ [.link targ]) = blocks tr + 1 := by
      rw [blocks_concat, blocks]
      exact Nat.add_right_comm _ _ _
    rw [ThreadLauncher.potential, ThreadLauncher.potential, hblocks]
    show _ + s.launcher.rank + (s.goto i targ .unlockingList).ranks < _
    simp only [ExecutorPc.rank] at hgoto
    omega
  | @signal targ hx hl =>
    have hgoto := ranks_goto hx targ .unlocking
    have hblocks : blocks (tr ++ [.skip]) = blocks tr := blocks_concat _ _
    rw [ThreadLauncher.potential, ThreadLauncher.potential, hblocks, hl]
    show _ + 12 + (s.goto i targ .unlocking).ranks < _ + 10 + _
    simp only [ExecutorPc.rank] at hgoto
    omega
  | execute hx ha | executed hx | lockList hx hm | setNext hx | unlockList hx | lock hx hm
  | increment hx | signalNobody hx hl | unlock hx | count hx =>
    exact potential_executor hx rfl rfl (blocks_concat _ _) (by simp [ExecutorPc.rank])

theorem TurnStep.potential {tr : List (Turn ρ)} (hrun : Runs M (turnEvents tr) s)
    (h : TurnStep s t s') :
    potential (turnEvents (tr ++ [t])) s' + t.working.toNat ≤
      potential (turnEvents tr) s + t.credit := by
  rw [turnEvents_append]
  cases h with
  | launcher h =>
    rw [turnEvents, turnEvents, List.filterMap_cons_some h.turn_event]
    exact h.potential hrun
  | executor i h => exact h.potential
  | other =>
    rw [turnEvents, turnEvents, List.filterMap_cons_none rfl, List.filterMap_nil, List.append_nil]
    exact le_rfl

/-- Apart from polling, a run is no longer than its calls and its wake-ups without a signal
allow. -/
theorem working_le {tr : List (Turn ρ)} (h : Run TurnStep (State.init ρ M) tr s) :
    potential (turnEvents tr) s + tr.countP Turn.working ≤ (tr.map Turn.credit).sum := by
  apply h.invariant (I := fun tr s =>
    potential (turnEvents tr) s + tr.countP Turn.working ≤ (tr.map Turn.credit).sum)
  · exact le_rfl
  · intro tr s t s' hr ih hstep
    have hpot := hstep.potential (run_of_turns hr)
    rw [List.countP_append, List.countP_singleton, List.map_append, List.sum_append]
    show _ ≤ _ + (t.credit + 0)
    cases hw : t.working <;> simp only [hw, Bool.toNat_true, Bool.toNat_false] at hpot ⊢ <;>
      simp only [if_true, Bool.false_eq_true, if_false] <;> omega

end Potential

/-- The launcher is in a call and is kept by nobody. -/
def State.LauncherReady (s : State ρ) : Prop :=
  match s.launcher with
  | .idle => False
  | .sleeping => False
  | .locking => s.maxOutstandingMutex = none
  | .waking => s.maxOutstandingMutex = none
  | .lockingList => s.targListMutex = none
  | .joining temp _ => ∃ targ, s.executors[temp]? = some ⟨targ, .exited⟩
  | .waiting => s.txnsExecuted % 2 ^ 64 = s.numRequests % 2 ^ 64
  | _ => True

/-- An executor at this place is kept by nobody. -/
def State.ExecutorReady (s : State ρ) : ExecutorPc ρ → Prop
  | .exited => False
  | .lockingList => s.targListMutex = none
  | .locking => s.maxOutstandingMutex = none
  | _ => True

/-- The threads that go on from `s` are not kept. -/
def State.ThreadReady (s : State ρ) : Thread → Prop
  | .launcher => s.LauncherReady
  | .executor i => ∃ x, s.executors[i]? = some x ∧ s.ExecutorReady x.pc

def State.Finished (s : State ρ) : Prop := ∀ x ∈ s.executors, x.pc = .exited

def Turn.ofThread : Thread → Turn ρ → Prop
  | .launcher, .launcher _ => True
  | .executor i, .executor j _ => i = j
  | _, _ => False

section Ready
variable {M : Int32} {tr : List (Event ρ)} {s s' : State ρ} {e : Event ρ} {t : Turn ρ} {i : Nat}
  {targ : ArgPtr} {x : Executor ρ} {th : Thread}

theorem launcher_enabled (h : Runs M tr s) (hready : s.LauncherReady) :
    Enabled TurnStep (Turn.ofThread .launcher) s := by
  suffices hstep : ∃ e s', LauncherStep s e s' ∧ s.launcher.turn e = .launcher e by
    obtain ⟨e, s', hstep, hturn⟩ := hstep
    exact ⟨_, s', hturn ▸ trivial, .launcher hstep⟩
  have hnum := numbered_of_run h
  unfold State.LauncherReady at hready
  cases hpc : s.launcher with
  | idle | sleeping =>
    rw [hpc] at hready
    exact hready.elim
  | issued req => exact ⟨_, _, .allocate 0 hpc, rfl⟩
  | allocated thread arg => exact ⟨_, _, .create hpc, rfl⟩
  | locking =>
    rw [hpc] at hready
    exact ⟨_, _, .lock hpc hready, rfl⟩
  | testing =>
    by_cases h0 : s.maxOutstanding ≤ 0
    · exact ⟨_, _, .wait hpc h0, rfl⟩
    · exact ⟨_, _, .pass hpc h0, rfl⟩
  | waking =>
    rw [hpc] at hready
    exact ⟨_, _, .relock hpc hready, rfl⟩
  | taking => exact ⟨_, _, .take hpc, rfl⟩
  | unlocking => exact ⟨_, _, .unlock hpc, rfl⟩
  | lockingList =>
    rw [hpc] at hready
    exact ⟨_, _, .lockList hpc hready, rfl⟩
  | detaching => exact ⟨_, _, .detach hpc, rfl⟩
  | clearing arg => exact ⟨_, _, .clear hpc, rfl⟩
  | unlockingList arg => exact ⟨_, _, .unlockList hpc, rfl⟩
  | walking arg =>
    cases arg with
    | none => exact ⟨_, _, .ret hpc, rfl⟩
    | some temp =>
      obtain ⟨_, a, ha⟩ := walked_allocated h (congrArg LauncherPc.temp hpc)
      exact ⟨_, _, .next hpc ha, rfl⟩
  | joining temp arg =>
    rw [hpc] at hready
    obtain ⟨targ, hx⟩ := hready
    obtain ⟨hlt, a, ha⟩ := walked_allocated h (congrArg LauncherPc.temp hpc)
    have hprogress : s.progress temp = 0 := progress_of_allocated ha hpc
    have hid := threadIds_of_run h temp hlt (by omega)
    rw [← hnum.args_id temp a ha] at hid
    exact ⟨_, _, .join hpc ha hid (by rwa [hnum.args_id temp a ha]) rfl, rfl⟩
  | freeingId temp arg =>
    obtain ⟨_, a, ha⟩ := walked_allocated h (congrArg LauncherPc.temp hpc)
    exact ⟨_, _, .freeId hpc ha, rfl⟩
  | freeing temp arg => exact ⟨_, _, .free hpc, rfl⟩
  | waiting =>
    rw [hpc] at hready
    exact ⟨_, _, .waited hpc hready, rfl⟩

theorem enabled_of_executor (h : ExecutorStep i s e s') :
    Enabled TurnStep (Turn.ofThread (.executor i)) s := ⟨.executor i e, s', rfl, .executor i h⟩

theorem exists_executorStep (h : Runs M tr s) (hx : s.executors[i]? = some x)
    (hready : s.ExecutorReady x.pc) : ∃ e s', ExecutorStep i s e s' := by
  obtain ⟨targ, pc⟩ := x
  cases pc with
  | created =>
    obtain ⟨a, ha⟩ := allocated_of_running h hx (by simp)
    exact ⟨_, _, .execute hx ha⟩
  | executing req => exact ⟨_, _, .executed hx⟩
  | lockingList => exact ⟨_, _, .lockList hx hready⟩
  | settingNext => exact ⟨_, _, .setNext hx⟩
  | publishing => exact ⟨_, _, .publish hx⟩
  | unlockingList => exact ⟨_, _, .unlockList hx⟩
  | locking => exact ⟨_, _, .lock hx hready⟩
  | incrementing => exact ⟨_, _, .increment hx⟩
  | signalling =>
    by_cases hl : s.launcher = .sleeping
    · exact ⟨_, _, .signal hx hl⟩
    · exact ⟨_, _, .signalNobody hx hl⟩
  | unlocking => exact ⟨_, _, .unlock hx⟩
  | counting => exact ⟨_, _, .count hx⟩
  | exited => exact hready.elim

theorem executor_enabled (h : Runs M tr s) (hx : s.executors[i]? = some x)
    (hready : s.ExecutorReady x.pc) : Enabled TurnStep (Turn.ofThread (.executor i)) s := by
  obtain ⟨e, s', hstep⟩ := exists_executorStep h hx hready
  exact enabled_of_executor hstep

theorem thread_enabled (h : Runs M tr s) (hready : s.ThreadReady th) :
    Enabled TurnStep (Turn.ofThread th) s := by
  cases th with
  | launcher => exact launcher_enabled h hready
  | executor i =>
    obtain ⟨x, hx, hready⟩ := hready
    exact executor_enabled h hx hready

theorem ready_of_permitHolder (h : Runs M tr s) (hm : s.maxOutstandingMutex = some th) :
    s.ThreadReady th := by
  have inv := permits_of_run h
  have hholder : s.monitor.holder = some th.party := congrArg (Option.map Thread.party) hm
  cases th with
  | launcher =>
    have hholds : s.launcher.taker.holds = true := inv.taker_holds.mp hholder
    show s.LauncherReady
    unfold State.LauncherReady
    cases hpc : s.launcher <;> simp_all [LauncherPc.taker, PermitMonitor.Taker.holds]
  | executor i =>
    obtain ⟨r, hr, hholds⟩ := (inv.returner_holds i).mp hholder
    rw [State.monitor, List.getElem?_map] at hr
    obtain ⟨x, hx, rfl⟩ := Option.map_eq_some_iff.mp hr
    refine ⟨x, hx, ?_⟩
    cases hpc : x.pc <;>
      simp_all [Executor.returner, ExecutorPc.returner, PermitMonitor.Returner.holds,
        State.ExecutorReady]

theorem ready_of_listHolder (h : Runs M tr s) (hm : s.targListMutex = some th) :
    s.ThreadReady th := by
  have inv := joinList_of_run h
  have hholder : s.joinList.holder = some th.listParty := congrArg (Option.map Thread.listParty) hm
  cases th with
  | launcher =>
    have hholds : s.launcher.owner.holds = true := inv.owner_holds.mp hholder
    show s.LauncherReady
    unfold State.LauncherReady
    cases hpc : s.launcher <;> simp_all [LauncherPc.owner, JoinList.Owner.holds]
  | executor i =>
    obtain ⟨r, hr, hholds⟩ := (inv.thread_holds i).mp hholder
    rw [State.joinList, List.getElem?_map] at hr
    obtain ⟨x, hx, rfl⟩ := Option.map_eq_some_iff.mp hr
    refine ⟨x, hx, ?_⟩
    cases hpc : x.pc <;>
      simp_all [Executor.stage, ExecutorPc.stage, JoinList.Stage.holds, State.ExecutorReady]

theorem counters_meet (h : Runs M tr s) (hexited : s.Finished) (hpc : s.launcher = .waiting) :
    s.txnsExecuted = s.numRequests := by
  have hnum := (numbered_of_run h).requests
  rw [hpc] at hnum
  rw [hnum, (executed_of_run h).counted, State.phases, List.countP_map]
  apply List.countP_eq_length.mpr
  intro x hx
  show x.pc.phase.isCounted = true
  rw [hexited x hx]
  rfl

theorem finished_of_counters (h : Runs M tr s) (hidle : s.launcher = .idle)
    (hall : s.txnsExecuted = s.numRequests) : s.Finished := by
  have hnum := (numbered_of_run h).requests
  rw [hidle] at hnum
  rw [hnum, (executed_of_run h).counted, State.phases, List.countP_map] at hall
  intro x hx
  have hcounted := List.countP_eq_length.mp hall x hx
  cases hpc : x.pc with
  | exited => rfl
  | _ =>
    rw [Function.comp_apply, hpc] at hcounted
    cases hcounted

theorem launcherReady_of_finished (hexited : s.Finished) (hready : s.ThreadReady th) :
    s.LauncherReady := by
  cases th with
  | launcher => exact hready
  | executor i =>
    obtain ⟨x, hx, hready⟩ := hready
    rw [hexited x (List.mem_of_getElem? hx)] at hready
    exact hready.elim

/-- When all executors have exited, nobody keeps the launcher. -/
theorem ready_of_finished (hM : 0 < M) (h : Runs M tr s) (hexited : s.Finished)
    (hbusy : s.launcher ≠ .idle) : s.LauncherReady := by
  have hlock : ¬s.maxOutstandingMutex = none → s.LauncherReady := by
    intro hne
    obtain ⟨th, hm⟩ := Option.ne_none_iff_exists'.mp hne
    exact launcherReady_of_finished hexited (ready_of_permitHolder h hm)
  have hlist : ¬s.targListMutex = none → s.LauncherReady := by
    intro hne
    obtain ⟨th, hm⟩ := Option.ne_none_iff_exists'.mp hne
    exact launcherReady_of_finished hexited (ready_of_listHolder h hm)
  unfold State.LauncherReady at hlock hlist ⊢
  cases hpc : s.launcher with
  | idle => exact absurd hpc hbusy
  | sleeping =>
    obtain ⟨_, i, x, hx, hreturned⟩ := asleep_of_run hM h (.inl hpc) (by
      rintro (hwoken | ⟨i, x, hx, hsignal⟩)
      · rw [hpc] at hwoken
        cases hwoken
      · rw [hexited x (List.mem_of_getElem? hx)] at hsignal
        cases hsignal)
    rw [hexited x (List.mem_of_getElem? hx)] at hreturned
    cases hreturned
  | locking | waking =>
    rw [hpc] at hlock
    exact by_contra fun hne => hne (hlock hne)
  | lockingList =>
    rw [hpc] at hlist
    exact by_contra fun hne => hne (hlist hne)
  | joining temp arg =>
    obtain ⟨hlt, _⟩ := walked_allocated h (congrArg LauncherPc.temp hpc)
    have hexit := hexited _ (List.getElem_mem hlt)
    refine ⟨s.executors[temp].targ, ?_⟩
    rw [List.getElem?_eq_getElem hlt, ← hexit]
  | waiting =>
    show s.txnsExecuted % 2 ^ 64 = s.numRequests % 2 ^ 64
    rw [counters_meet h hexited hpc]
  | _ => trivial

/-- No deadlock: while a call or a request is unfinished, some thread can go on. -/
theorem exists_ready (hM : 0 < M) (h : Runs M tr s) (hbusy : s.launcher ≠ .idle ∨ ¬s.Finished) :
    ∃ th, s.ThreadReady th := by
  by_cases hexited : s.Finished
  · exact ⟨.launcher, ready_of_finished hM h hexited (hbusy.resolve_right fun hno => hno hexited)⟩
  · unfold State.Finished at hexited
    push Not at hexited
    obtain ⟨x, hmem, hpc⟩ := hexited
    obtain ⟨i, hx⟩ := List.getElem?_of_mem hmem
    by_cases hready : s.ExecutorReady x.pc
    · exact ⟨.executor i, x, hx, hready⟩
    · -- it waits for a mutex, whose holder goes on
      cases hpc' : x.pc with
      | lockingList =>
        rw [hpc'] at hready
        obtain ⟨th, hm⟩ := Option.ne_none_iff_exists'.mp hready
        exact ⟨th, ready_of_listHolder h hm⟩
      | locking =>
        rw [hpc'] at hready
        obtain ⟨th, hm⟩ := Option.ne_none_iff_exists'.mp hready
        exact ⟨th, ready_of_permitHolder h hm⟩
      | exited => exact absurd hpc' hpc
      | _ =>
        rw [hpc'] at hready
        exact absurd trivial hready

end Ready

end Cmsc624.A1.ThreadLauncher
