import Cmsc624.A1.ThreadLauncher
import Cmsc624.Lib.JoinList

/-!
# The finished threads of ThreadLauncher

`targ_list_` with its mutex is a join list: an executor that has executed its request links
its `thread_arg` into it, and `ExecuteRequest` detaches the list, joins the threads and frees
the blocks. The number of a call is the number of its thread and of its blocks.
-/

namespace Cmsc624.A1.ThreadLauncher

open Lib

set_option autoImplicit false

variable {ρ : Type}

/-- A call has begun and has no thread yet. -/
def LauncherPc.pending : LauncherPc ρ → Nat
  | .issued _ => 1
  | .allocated _ _ => 1
  | _ => 0

/-- All that belongs to one call has the same number. -/
structure Numbered (s : State ρ) : Prop where
  requests : s.numRequests = s.executors.length + s.launcher.pending
  targs : s.executors.map Executor.targ = List.range s.executors.length
  allocated : ∀ thread arg, s.launcher = .allocated thread arg →
    thread = s.executors.length ∧ arg = s.executors.length ∧
      ∃ req, s.args arg = some ⟨req, arg, none⟩
  args_lt : ∀ p a, s.args p = some a →
    p < s.executors.length ∨ ∃ thread, s.launcher = .allocated thread p
  args_id : ∀ p a, s.args p = some a → a.threadId = p
  ids : ∀ p id, p < s.executors.length → s.threadIds p = some id → id = p

section Numbered
variable {s s' : State ρ} {e : Event ρ} {i : Nat} {targ : ArgPtr} {x : Executor ρ}
  {pc pc' : ExecutorPc ρ}

theorem Numbered.targ_eq (h : Numbered s) (hx : s.executors[i]? = some x) : x.targ = i := by
  obtain ⟨hi, rfl⟩ := List.getElem?_eq_some_iff.mp hx
  have hmap : (s.executors.map Executor.targ)[i]? = some s.executors[i].targ := by
    rw [List.getElem?_map, hx, Option.map_some]
  rw [h.targs, List.getElem?_range hi] at hmap
  exact (Option.some.inj hmap).symm

theorem goto_targs (hx : s.executors[i]? = some x) :
    (s.goto i x.targ pc).executors.map Executor.targ = s.executors.map Executor.targ := by
  obtain ⟨hi, rfl⟩ := List.getElem?_eq_some_iff.mp hx
  rw [State.goto, List.map_set]
  apply List.ext_getElem (by simp)
  intro j hj hj'
  rw [List.getElem_set]
  split
  · rename_i hij
    subst hij
    simp
  · rfl

theorem Numbered.init (M : Int32) : Numbered (State.init ρ M) where
  requests := rfl
  targs := rfl
  allocated _ _ h := by cases h
  args_lt _ _ h := by cases h
  args_id _ _ h := by cases h
  ids _ _ h := absurd h (Nat.not_lt_zero _)

theorem Numbered.keep (h : Numbered s)
    (hreq : s'.numRequests = s'.executors.length + s'.launcher.pending)
    (htargs : s'.executors.map Executor.targ = s.executors.map Executor.targ)
    (hargs : ∀ p a', s'.args p = some a' → ∃ a, s.args p = some a ∧ a'.threadId = a.threadId)
    (hids : ∀ p id, s'.threadIds p = some id → s.threadIds p = some id)
    (hpc : s'.launcher = s.launcher ∧ (∀ thread arg, s.launcher = .allocated thread arg →
        s'.args arg = s.args arg) ∨
      (∀ thread arg, s.launcher ≠ .allocated thread arg) ∧
        ∀ thread arg, s'.launcher ≠ .allocated thread arg) : Numbered s' := by
  have hlen : s'.executors.length = s.executors.length := by
    simpa using congrArg List.length htargs
  constructor
  · exact hreq
  · rw [htargs, h.targs, hlen]
  · intro thread arg halloc
    rcases hpc with ⟨hsame, hkeep⟩ | ⟨_, hnot⟩
    · rw [hsame] at halloc
      rw [hlen, hkeep thread arg halloc]
      exact h.allocated thread arg halloc
    · exact absurd halloc (hnot thread arg)
  · intro p a' ha'
    obtain ⟨a, ha, _⟩ := hargs p a' ha'
    rcases h.args_lt p a ha with hlt | ⟨thread, halloc⟩
    · exact .inl (hlen ▸ hlt)
    · rcases hpc with ⟨hsame, _⟩ | ⟨hnot, _⟩
      · exact .inr ⟨thread, hsame ▸ halloc⟩
      · exact absurd halloc (hnot thread p)
  · intro p a' ha'
    obtain ⟨a, ha, hid⟩ := hargs p a' ha'
    exact hid.trans (h.args_id p a ha)
  · intro p id hlt hid
    exact h.ids p id (hlen ▸ hlt) (hids p id hid)

/-- Nothing is allocated, and nothing is changed in what stays allocated. -/
def Shrinks {α : Type} (blocks blocks' : Nat → Option α) : Prop :=
  ∀ p a, blocks' p = some a → blocks p = some a

theorem Shrinks.refl {α : Type} (blocks : Nat → Option α) : Shrinks blocks blocks := fun _ _ h => h

theorem shrinks_dealloc {α : Type} (blocks : Nat → Option α) (p : Nat) :
    Shrinks blocks (dealloc blocks p) := by
  intro q a h
  by_cases hq : q = p
  · subst hq
    simp [dealloc] at h
  · rwa [dealloc, Function.update_of_ne hq] at h

/-- The launcher has a block for a thread that does not run yet. -/
def LauncherPc.HasNew : LauncherPc ρ → Prop
  | .allocated _ _ => True
  | _ => False

theorem Numbered.moveLauncher (h : Numbered s) {pc' : LauncherPc ρ} (hpc' : s'.launcher = pc')
    (hnew : ¬s.launcher.HasNew) (hnew' : ¬pc'.HasNew)
    (hreq : s'.numRequests = s.executors.length + pc'.pending) (hexec : s'.executors = s.executors)
    (hargs : Shrinks s.args s'.args) (hids : Shrinks s.threadIds s'.threadIds) : Numbered s' := by
  subst hpc'
  refine h.keep (hexec ▸ hreq) (congrArg _ hexec) (fun p a' ha' => ⟨a', hargs p a' ha', rfl⟩) hids
    (.inr ⟨?_, ?_⟩)
  · intro thread arg halloc
    exact hnew (by rw [halloc]; trivial)
  · intro thread arg halloc
    exact hnew' (by rw [halloc]; trivial)

theorem Numbered.last (h : Numbered s) {req : ρ} (hpc : s.launcher = .issued req) :
    s.numRequests - 1 = s.executors.length := by
  have hreq := h.requests
  rw [hpc] at hreq
  exact Nat.sub_eq_of_eq_add hreq

theorem Numbered.allocate (h : Numbered s) {req : ρ} (id : Nat) (hpc : s.launcher = .issued req) :
    Numbered { s with
      args := Function.update s.args (s.numRequests - 1) (some ⟨req, s.numRequests - 1, none⟩)
      threadIds := Function.update s.threadIds (s.numRequests - 1) (some id)
      launcher := .allocated (s.numRequests - 1) (s.numRequests - 1) } := by
  have hreq := h.requests
  rw [hpc] at hreq
  rw [h.last hpc]
  constructor
  · exact hreq
  · exact h.targs
  · intro thread arg halloc
    obtain ⟨rfl, rfl⟩ := LauncherPc.allocated.inj halloc
    exact ⟨rfl, rfl, req, Function.update_self _ _ _⟩
  · intro p a ha
    by_cases hp : p = s.executors.length
    · exact .inr ⟨s.executors.length, by rw [hp]⟩
    · have ha : s.args p = some a := by simpa [hp] using ha
      rcases h.args_lt p a ha with hlt | ⟨thread, halloc⟩
      · exact .inl hlt
      · rw [hpc] at halloc
        cases halloc
  · intro p a ha
    by_cases hp : p = s.executors.length
    · subst hp
      have ha : some (⟨req, s.executors.length, none⟩ : ThreadArg ρ) = some a := by simpa using ha
      rw [← Option.some.inj ha]
    · have ha : s.args p = some a := by simpa [hp] using ha
      exact h.args_id p a ha
  · intro p id' hlt hid
    have hid : s.threadIds p = some id' := by simpa [Nat.ne_of_lt hlt] using hid
    exact h.ids p id' hlt hid

theorem Numbered.create (h : Numbered s) {thread : IdPtr} {arg : ArgPtr}
    (hpc : s.launcher = .allocated thread arg) :
    Numbered { s with
      threadIds := Function.update s.threadIds thread (some s.executors.length)
      executors := s.executors ++ [⟨arg, .created⟩]
      launcher := .locking } := by
  obtain ⟨rfl, rfl, req, harg⟩ := h.allocated thread arg hpc
  have hreq := h.requests
  rw [hpc] at hreq
  constructor
  · rw [List.length_append]
    exact hreq
  · rw [List.map_append, h.targs, List.length_append]
    exact List.range_succ.symm
  · intro thread arg halloc
    cases halloc
  · intro p a ha
    left
    rw [List.length_append]
    rcases h.args_lt p a ha with hlt | ⟨thread, halloc⟩
    · exact Nat.lt_succ_of_lt hlt
    · rw [hpc] at halloc
      obtain ⟨_, rfl⟩ := LauncherPc.allocated.inj halloc
      exact Nat.lt_succ_self _
  · exact h.args_id
  · intro p id hlt hid
    by_cases hp : p = s.executors.length
    · subst hp
      exact (Option.some.inj (by simpa using hid)).symm
    · have hid : s.threadIds p = some id := by simpa [hp] using hid
      rw [List.length_append, List.length_singleton] at hlt
      exact h.ids p id (by omega) hid

theorem Numbered.launcherStep (h : Numbered s) (hstep : LauncherStep s e s') : Numbered s' := by
  have hreq := h.requests
  have hnew : ∀ {pc : LauncherPc ρ}, s.launcher = pc → ¬pc.HasNew → ¬s.launcher.HasNew :=
    fun hpc hno => hpc ▸ hno
  cases hstep with
  | issue req hpc =>
    rw [hpc] at hreq
    exact h.moveLauncher rfl (hnew hpc id) id (congrArg (· + 1) hreq) rfl (.refl _) (.refl _)
  | allocate id hpc => exact h.allocate id hpc
  | create hpc => exact h.create hpc
  | retry hpc hne => exact h
  | free hpc =>
    rw [hpc] at hreq
    exact h.moveLauncher rfl (hnew hpc id) id hreq rfl (shrinks_dealloc _ _) (.refl _)
  | freeId hpc ha =>
    rw [hpc] at hreq
    exact h.moveLauncher rfl (hnew hpc id) id hreq rfl (.refl _) (shrinks_dealloc _ _)
  | lock hpc | wait hpc | wakeSpuriously hpc | relock hpc | pass hpc | take hpc | unlock hpc
  | lockList hpc | detach hpc | clear hpc | unlockList hpc | next hpc | join hpc | ret hpc
  | waitOutstanding hpc | waited hpc =>
    rw [hpc] at hreq
    exact h.moveLauncher rfl (hnew hpc id) id hreq rfl (.refl _) (.refl _)

def setNext (args : ArgPtr → Option (ThreadArg ρ)) (targ : ArgPtr) (next : Option ArgPtr) :
    ArgPtr → Option (ThreadArg ρ) :=
  Function.update args targ ((args targ).map fun a => { a with next := next })

theorem setNext_some {args : ArgPtr → Option (ThreadArg ρ)} {next : Option ArgPtr} {p : ArgPtr}
    {a' : ThreadArg ρ} (h : setNext args targ next p = some a') :
    ∃ a, args p = some a ∧ a'.request = a.request ∧ a'.threadId = a.threadId := by
  by_cases hp : p = targ
  · subst hp
    rw [setNext, Function.update_self] at h
    obtain ⟨a, ha, rfl⟩ := Option.map_eq_some_iff.mp h
    exact ⟨a, ha, rfl, rfl⟩
  · rw [setNext, Function.update_of_ne hp] at h
    exact ⟨a', h, rfl, rfl⟩

theorem Numbered.moveExecutor (h : Numbered s) (hx : s.executors[i]? = some ⟨targ, pc'⟩)
    (hnum : s'.numRequests = s.numRequests) (hlauncher : s'.launcher = s.launcher)
    (hexec : s'.executors = (s.goto i targ pc).executors) (hids : s'.threadIds = s.threadIds)
    (hargs : s'.args = s.args ∨ s'.args = setNext s.args targ s.targList) : Numbered s' := by
  have hlen : s'.executors.length = s.executors.length := by
    rw [hexec, State.goto, List.length_set]
  refine h.keep ?_ ?_ ?_ (fun p id hid => hids ▸ hid) (.inl ⟨hlauncher, ?_⟩)
  · rw [hnum, hlen, hlauncher]
    exact h.requests
  · rw [hexec]
    exact goto_targs hx
  · intro p a' ha'
    rcases hargs with hsame | hset
    · exact ⟨a', hsame ▸ ha', rfl⟩
    · rw [hset] at ha'
      obtain ⟨a, ha, _, hid⟩ := setNext_some ha'
      exact ⟨a, ha, hid⟩
  · intro thread arg halloc
    rcases hargs with hsame | hset
    · rw [hsame]
    · obtain ⟨_, rfl, _⟩ := h.allocated thread arg halloc
      have htarg : targ = i := h.targ_eq hx
      have hi := (List.getElem?_eq_some_iff.mp hx).1
      rw [hset, setNext, Function.update_of_ne]
      rw [htarg]
      exact Nat.ne_of_gt hi

theorem Numbered.executorStep (h : Numbered s) (hstep : ExecutorStep i s e s') : Numbered s' := by
  cases hstep with
  | setNext hx => exact h.moveExecutor hx rfl rfl rfl rfl (.inr rfl)
  | @signal targ hx hl =>
    have hmoved : Numbered (s.goto i targ .unlocking) :=
      h.moveExecutor hx rfl rfl rfl rfl (.inl rfl)
    have hlauncher : (s.goto i targ .unlocking).launcher = .sleeping := hl
    have hreq := hmoved.requests
    rw [hlauncher] at hreq
    refine hmoved.moveLauncher rfl ?_ id hreq rfl (.refl _) (.refl _)
    intro hnew
    rw [hlauncher] at hnew
    exact hnew
  | execute hx | executed hx | lockList hx | publish hx | unlockList hx | lock hx | increment hx
  | signalNobody hx | unlock hx | count hx => exact h.moveExecutor hx rfl rfl rfl rfl (.inl rfl)

theorem Numbered.step (h : Numbered s) (hstep : Step s e s') : Numbered s' := by
  cases hstep with
  | launcher hstep => exact h.launcherStep hstep
  | executor i hstep => exact h.executorStep hstep

theorem numbered_of_run {M : Int32} {tr : List (Event ρ)} (h : Runs M tr s) : Numbered s :=
  h.stateInvariant (Numbered.init M) fun hnum hstep => hnum.step hstep

end Numbered

def Thread.listParty : Thread → JoinList.Party
  | .launcher => .owner
  | .executor i => .thread i

def LauncherPc.owner : LauncherPc ρ → JoinList.Owner
  | .allocated _ _ => .allocated
  | .detaching => .detaching
  | .clearing arg => .clearing arg
  | .unlockingList arg => .detached arg
  | .walking arg => .walking arg
  | .joining temp arg => .joining temp arg
  | .freeingId temp arg => .freeing temp arg
  | .freeing temp arg => .freeing temp arg
  | _ => .away

def ExecutorPc.stage : ExecutorPc ρ → JoinList.Stage
  | .created => .working
  | .executing _ => .working
  | .lockingList => .working
  | .settingNext => .linking
  | .publishing => .publishing
  | .unlockingList => .linked
  | .exited => .exited
  | _ => .finishing

def Executor.stage (x : Executor ρ) : JoinList.Stage := x.pc.stage

def nexts (args : ArgPtr → Option (ThreadArg ρ)) (p : ArgPtr) : Option (Option ArgPtr) :=
  (args p).map ThreadArg.next

def State.joinList (s : State ρ) : JoinList.State where
  next := nexts s.args
  head := s.targList
  holder := s.targListMutex.map Thread.listParty
  owner := s.launcher.owner
  threads := s.executors.map Executor.stage

def Event.joinList : Event ρ → JoinList.Event
  | .link p => .publish p
  | .detach => .detach
  | .join i => .join i
  | .free p => .free p
  | _ => .skip

section Refinement
variable {s s' : State ρ} {e : Event ρ} {i : Nat} {x : Executor ρ} {targ : ArgPtr}
  {pc : ExecutorPc ρ}

theorem joinList_getElem (hx : s.executors[i]? = some x) :
    s.joinList.threads[i]? = some x.stage := Threads.map_getElem? _ hx

theorem joinList_goto (i : Nat) (targ : ArgPtr) (pc : ExecutorPc ρ) :
    (s.goto i targ pc).executors.map Executor.stage = s.joinList.threads.set i pc.stage := by
  rw [State.goto, List.map_set]
  rfl

theorem joinList_goto_same (hx : s.executors[i]? = some x) (hpc : pc.stage = x.stage) :
    (s.goto i targ pc).executors.map Executor.stage = s.executors.map Executor.stage :=
  Threads.map_set_same hx hpc

theorem nexts_update (args : ArgPtr → Option (ThreadArg ρ)) (p : ArgPtr)
    (a : Option (ThreadArg ρ)) :
    nexts (Function.update args p a) = Function.update (nexts args) p (a.map ThreadArg.next) := by
  funext q
  by_cases hq : q = p
  · subst hq
    simp [nexts]
  · simp [nexts, hq]

theorem joinList_step {m : JoinList.State} {ev : JoinList.Event}
    (h : JoinList.Step s.joinList ev m) (hnext : nexts s'.args = m.next)
    (hhead : s'.targList = m.head) (hholder : s'.targListMutex.map Thread.listParty = m.holder)
    (howner : s'.launcher.owner = m.owner)
    (hthreads : s'.executors.map Executor.stage = m.threads) :
    JoinList.Step s.joinList ev s'.joinList := by
  have hsame : s'.joinList = m := by
    rw [State.joinList, hnext, hhead, hholder, howner, hthreads]
  rw [hsame]
  exact h

theorem joinList_idle (hargs : s'.args = s.args) (hhead : s'.targList = s.targList)
    (hmutex : s'.targListMutex = s.targListMutex) (howner : s'.launcher.owner = s.launcher.owner)
    (hthreads : s'.executors.map Executor.stage = s.executors.map Executor.stage) :
    JoinList.Step s.joinList .skip s'.joinList :=
  joinList_step .idle (congrArg nexts hargs) hhead (congrArg _ hmutex) howner hthreads

theorem joinList_owner {pc : LauncherPc ρ} (hpc : s.launcher = pc) :
    s.joinList.owner = pc.owner := by
  rw [State.joinList, hpc]

theorem joinList_holder (hm : s.targListMutex = none) : s.joinList.holder = none := by
  rw [State.joinList, hm]
  rfl

theorem LauncherStep.joinList (hnum : Numbered s) (h : LauncherStep s e s') :
    JoinList.Step s.joinList e.joinList s'.joinList := by
  cases h with
  | allocate id hpc =>
    have halloc := JoinList.Step.alloc (joinList_owner hpc)
    refine joinList_step halloc ?_ rfl rfl rfl rfl
    rw [nexts_update, hnum.last hpc]
    simp [State.joinList]
  | create hpc => exact joinList_step (.spawn (joinList_owner hpc)) rfl rfl rfl rfl List.map_append
  | lockList hpc hm => exact .lockOwner (joinList_owner hpc) (joinList_holder hm)
  | detach hpc => exact .read (joinList_owner hpc)
  | clear hpc => exact .clear (joinList_owner hpc)
  | unlockList hpc => exact .unlockOwner (joinList_owner hpc)
  | next hpc ha =>
    have hnext : s.joinList.next _ = some _ := congrArg (Option.map ThreadArg.next) ha
    exact .advance (joinList_owner hpc) hnext
  | @join temp arg a i x hpc ha hid hx hexit =>
    -- the block names the thread with its own number
    have hlt : temp < s.executors.length := by
      rcases hnum.args_lt temp a ha with hlt | ⟨thread, halloc⟩
      · exact hlt
      · rw [hpc] at halloc
        cases halloc
    rw [hnum.args_id temp a ha] at hid
    obtain rfl : i = temp := hnum.ids temp i hlt hid
    have hexited : s.joinList.threads[i]? = some .exited := by
      rw [joinList_getElem hx, Executor.stage, hexit]
      rfl
    exact .join (joinList_owner hpc) hexited
  | free hpc =>
    refine joinList_step (.free (joinList_owner hpc)) ?_ rfl rfl rfl rfl
    exact nexts_update _ _ _
  | ret hpc => exact .done (joinList_owner hpc)
  | retry hpc hne => exact .idle
  | issue req hpc | lock hpc hm | wait hpc h0 | wakeSpuriously hpc | relock hpc hm | pass hpc h0
  | take hpc | unlock hpc | freeId hpc ha | waitOutstanding hpc | waited hpc heq =>
    exact joinList_idle rfl rfl rfl (by rw [hpc]; rfl) rfl

theorem ExecutorStep.joinList (hnum : Numbered s) (h : ExecutorStep i s e s') :
    JoinList.Step s.joinList e.joinList s'.joinList := by
  cases h with
  | lockList hx hm =>
    exact joinList_step (.lock i (joinList_getElem hx) (joinList_holder hm)) rfl rfl rfl rfl
      (joinList_goto i _ _)
  | @setNext targ hx =>
    obtain rfl : targ = i := hnum.targ_eq hx
    refine joinList_step (.setNext targ (joinList_getElem hx)) ?_ rfl rfl rfl (joinList_goto _ _ _)
    rw [nexts_update, Option.map_map]
    show _ = Function.update (nexts s.args) targ ((nexts s.args targ).map fun _ => s.targList)
    rw [nexts, Option.map_map]
    rfl
  | @publish targ hx =>
    obtain rfl : targ = i := hnum.targ_eq hx
    exact joinList_step (.publish targ (joinList_getElem hx)) rfl rfl rfl rfl (joinList_goto _ _ _)
  | unlockList hx =>
    exact joinList_step (.unlock i (joinList_getElem hx)) rfl rfl rfl rfl (joinList_goto i _ _)
  | count hx =>
    exact joinList_step (.exit i (joinList_getElem hx)) rfl rfl rfl rfl (joinList_goto i _ _)
  | signal hx hl =>
    exact joinList_idle rfl rfl rfl (by rw [hl]; rfl) (joinList_goto_same hx rfl)
  | execute hx ha | executed hx | lock hx hm | increment hx | signalNobody hx hl | unlock hx =>
    exact joinList_idle rfl rfl rfl rfl (joinList_goto_same hx rfl)

theorem Step.joinList (hnum : Numbered s) (h : Step s e s') :
    JoinList.Step s.joinList e.joinList s'.joinList := by
  cases h with
  | launcher hstep => exact hstep.joinList hnum
  | executor i hstep => exact hstep.joinList hnum

/-- Every run of the launcher is a run of the join list. -/
theorem refines_joinList {M : Int32} {tr : List (Event ρ)} (h : Runs M tr s) :
    Run JoinList.Step JoinList.State.init (tr.map Event.joinList) s.joinList := by
  rw [← List.filterMap_eq_map]
  refine h.simulate State.joinList _ fun hr hstep => .inr ⟨_, rfl, ?_⟩
  exact hstep.joinList (numbered_of_run hr)

theorem joinList_of_run {M : Int32} {tr : List (Event ρ)} (h : Runs M tr s) :
    JoinList.Inv s.joinList (JoinList.listed (tr.map Event.joinList))
      (JoinList.detached (tr.map Event.joinList)) := JoinList.inv_of_run (refines_joinList h)

/-- Outside of the second `while` the launcher has no detached list. -/
theorem detached_of_away {M : Int32} {tr : List (Event ρ)} (h : Runs M tr s)
    (hpc : s.launcher.owner = .away) : JoinList.detached (tr.map Event.joinList) = [] := by
  have hheld : s.launcher.owner.Holds (nexts s.args) _ := (joinList_of_run h).held
  rw [hpc] at hheld
  exact hheld

end Refinement

end Cmsc624.A1.ThreadLauncher
