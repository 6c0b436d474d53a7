import Cmsc624.A1.Permits
import Cmsc624.A1.Reclaim
import Cmsc624.Lib.Tagged

/-!
# WaitOutstanding

Every call of `ExecuteRequest` has its request executed once, by its own thread, which counts
it afterwards. So the counters meet only when everything is executed; that they are compared
modulo 2^64 does no harm, because few threads at a time are executed and not counted.
-/

namespace Cmsc624.A1.ThreadLauncher

open Lib

set_option autoImplicit false

variable {ρ : Type}

/-- The requests passed to `ExecuteRequest`, in order; a call is known by its place here. -/
def issued (tr : List (Event ρ)) : List ρ :=
  tr.filterMap fun | .issue req => some req | _ => none

/-- The calls of `Execute`, with the calls of `ExecuteRequest` that they are for. -/
def executes (tr : List (Event ρ)) : List (Nat × ρ) :=
  tr.filterMap fun | .execute i req => some (i, req) | _ => none

def completions (tr : List (Event ρ)) : List (Nat × ρ) :=
  tr.filterMap fun | .executed i req => some (i, req) | _ => none

section Logs
variable (tr tr' : List (Event ρ))

@[simp] theorem issued_append : issued (tr ++ tr') = issued tr ++ issued tr' :=
  List.filterMap_append

@[simp] theorem executes_append : executes (tr ++ tr') = executes tr ++ executes tr' :=
  List.filterMap_append

@[simp] theorem completions_append : completions (tr ++ tr') = completions tr ++ completions tr' :=
  List.filterMap_append

end Logs

inductive Phase (ρ : Type) where
  | created
  | executing (req : ρ)
  | executed
  | counted

def Phase.begun : Phase ρ → Bool
  | .created => false
  | _ => true

def Phase.ended : Phase ρ → Bool
  | .executed => true
  | .counted => true
  | _ => false

def Phase.isCounted : Phase ρ → Bool
  | .counted => true
  | _ => false

def ExecutorPc.phase : ExecutorPc ρ → Phase ρ
  | .created => .created
  | .executing req => .executing req
  | .exited => .counted
  | _ => .executed

def State.phases (s : State ρ) : List (Phase ρ) := s.executors.map fun x => x.pc.phase

/-- The log has the requests of the threads that are past `f`, once each. -/
def Logged (f : Phase ρ → Bool) (iss : List ρ) (log : List (Nat × ρ)) (phases : List (Phase ρ)) :
    Prop :=
  ∀ i : Nat, onChannel log i = if phases[i]?.any f then iss[i]?.toList else []

section Logged
variable {f : Phase ρ → Bool} {iss : List ρ} {log : List (Nat × ρ)} {phases : List (Phase ρ)}
  {i : Nat} {x y : Phase ρ}

theorem Logged.set (h : Logged f iss log phases) (hx : phases[i]? = some x) (hf : f y = f x) :
    Logged f iss log (phases.set i y) := by
  intro j
  rw [h j, Threads.getElem?_set hx]
  by_cases hij : i = j
  · subst hij
    rw [if_pos rfl, hx, Option.any_some, Option.any_some, hf]
  · rw [if_neg hij]

theorem Logged.grow (h : Logged f iss log phases) (hx : phases[i]? = some x) {req : ρ}
    (hreq : iss[i]? = some req) (hfx : f x = false) (hfy : f y = true) :
    Logged f iss (log ++ [(i, req)]) (phases.set i y) := by
  intro j
  rw [onChannel_append, h j, Threads.getElem?_set hx]
  by_cases hij : i = j
  · subst hij
    rw [onChannel_self, hx, hreq, if_pos rfl]
    simp [hfx, hfy]
  · rw [onChannel_of_ne hij, if_neg hij, List.append_nil]

theorem Logged.concat (h : Logged f iss log phases) (hy : f y = false) :
    Logged f iss log (phases ++ [y]) := by
  intro j
  rw [h j, Threads.getElem?_concat]
  by_cases hj : j = phases.length
  · subst hj
    simp [hy]
  · rw [if_neg hj]

theorem Logged.issue (h : Logged f iss log phases) (hlen : phases.length ≤ iss.length) (req : ρ) :
    Logged f (iss ++ [req]) log phases := by
  intro j
  rw [h j]
  split
  · rename_i hany
    obtain ⟨z, hz, _⟩ := (Option.any_eq_true _ _).mp hany
    have hj := (List.getElem?_eq_some_iff.mp hz).1
    rw [List.getElem?_append_left (Nat.lt_of_lt_of_le hj hlen)]
  · rfl

end Logged

/-- Logs, blocks and counters of a run. -/
structure Executed (tr : List (Event ρ)) (s : State ρ) : Prop where
  issued_length : (issued tr).length = s.numRequests
  issuing : ∀ req, s.launcher = .issued req → (issued tr)[s.executors.length]? = some req
  block : ∀ p a, s.args p = some a → (issued tr)[p]? = some a.request
  running : ∀ (i : Nat) req, s.phases[i]? = some (.executing req) → (issued tr)[i]? = some req
  begun : Logged Phase.begun (issued tr) (executes tr) s.phases
  ended : Logged Phase.ended (issued tr) (completions tr) s.phases
  completed : (completions tr).length = s.phases.countP Phase.ended
  counted : s.txnsExecuted = s.phases.countP Phase.isCounted

section Executed
variable {M : Int32} {tr : List (Event ρ)} {s s' : State ρ} {e : Event ρ} {i : Nat}
  {targ : ArgPtr} {x : Executor ρ} {pc : ExecutorPc ρ}

theorem Executed.init (M : Int32) : Executed [] (State.init ρ M) where
  issued_length := rfl
  issuing _ h := by cases h
  block _ _ h := by cases h
  running _ _ h := by cases h
  begun _ := rfl
  ended _ := rfl
  completed := rfl
  counted := rfl

theorem phases_length (s : State ρ) : s.phases.length = s.executors.length := List.length_map _

theorem phases_getElem (hx : s.executors[i]? = some x) : s.phases[i]? = some x.pc.phase :=
  Threads.map_getElem? _ hx

theorem phases_goto (s : State ρ) (i : Nat) (targ : ArgPtr) (pc : ExecutorPc ρ) :
    (s.goto i targ pc).phases = s.phases.set i pc.phase := by
  rw [State.phases, State.goto, List.map_set]
  rfl

theorem phases_goto_same (hx : s.executors[i]? = some x) (hpc : pc.phase = x.pc.phase) :
    (s.goto i targ pc).phases = s.phases := Threads.map_set_same hx hpc

theorem Executed.quiet (h : Executed tr s) (hiss : issued [e] = []) (hexec : executes [e] = [])
    (hcomp : completions [e] = []) (hnum : s'.numRequests = s.numRequests)
    (htxns : s'.txnsExecuted = s.txnsExecuted) (hphases : s'.phases = s.phases)
    (hblock : ∀ p a, s'.args p = some a → (issued tr)[p]? = some a.request)
    (hissuing : ∀ req, s'.launcher = .issued req → s.launcher = .issued req) :
    Executed (tr ++ [e]) s' := by
  have hlen : s'.executors.length = s.executors.length := by
    rw [← phases_length, ← phases_length, hphases]
  constructor
  · rw [issued_append, hiss, List.append_nil, hnum]
    exact h.issued_length
  · intro req hreq
    rw [issued_append, hiss, List.append_nil, hlen]
    exact h.issuing req (hissuing req hreq)
  · rw [issued_append, hiss, List.append_nil]
    exact hblock
  · rw [issued_append, hiss, List.append_nil, hphases]
    exact h.running
  · rw [issued_append, executes_append, hiss, hexec, List.append_nil, List.append_nil, hphases]
    exact h.begun
  · rw [issued_append, completions_append, hiss, hcomp, List.append_nil, List.append_nil, hphases]
    exact h.ended
  · rw [completions_append, hcomp, List.append_nil, hphases]
    exact h.completed
  · rw [htxns, hphases]
    exact h.counted

theorem Executed.issue (h : Executed tr s) (hnum : Numbered s) (req : ρ)
    (hpc : s.launcher = .idle) :
    Executed (tr ++ [.issue req])
      { s with numRequests := s.numRequests + 1, launcher := .issued req } := by
  have hreq := hnum.requests
  rw [hpc] at hreq
  have hlen : s.phases.length = (issued tr).length := by
    rw [phases_length, h.issued_length, hreq]
    rfl
  have hissued : issued (tr ++ [.issue req]) = issued tr ++ [req] := issued_append _ _
  have hexec : executes (tr ++ [.issue req]) = executes tr := by simp [executes]
  have hcomp : completions (tr ++ [.issue req]) = completions tr := by simp [completions]
  have hold : ∀ (j : Nat) (q : ρ), (issued tr)[j]? = some q →
      (issued tr ++ [req])[j]? = some q := by
    intro j q hj
    rw [List.getElem?_append_left (List.getElem?_eq_some_iff.mp hj).1]
    exact hj
  constructor
  · rw [hissued, List.length_append, h.issued_length]
    rfl
  · intro q hq
    obtain rfl := LauncherPc.issued.inj hq
    rw [hissued]
    show (issued tr ++ [req])[s.executors.length]? = _
    rw [← phases_length, hlen]
    exact List.getElem?_concat_length
  · intro p a ha
    rw [hissued]
    exact hold p _ (h.block p a ha)
  · intro j q hj
    rw [hissued]
    exact hold j q (h.running j q hj)
  · rw [hissued, hexec]
    exact h.begun.issue (le_of_eq hlen) req
  · rw [hissued, hcomp]
    exact h.ended.issue (le_of_eq hlen) req
  · rw [hcomp]
    exact h.completed
  · exact h.counted

theorem Executed.create (h : Executed tr s) {thread : IdPtr} {arg : ArgPtr} :
    Executed (tr ++ [.create s.executors.length])
      { s with
        threadIds := Function.update s.threadIds thread (some s.executors.length)
        executors := s.executors ++ [⟨arg, .created⟩]
        launcher := .locking } := by
  have hissued : issued (tr ++ [.create s.executors.length]) = issued tr := by simp [issued]
  have hexec : executes (tr ++ [.create s.executors.length]) = executes tr := by simp [executes]
  have hcomp : completions (tr ++ [.create s.executors.length]) = completions tr := by
    simp [completions]
  have hphases : (s.executors ++ [(⟨arg, .created⟩ : Executor ρ)]).map (fun x => x.pc.phase) =
      s.phases ++ [.created] := List.map_append
  constructor
  · rw [hissued]
    exact h.issued_length
  · intro q hq
    cases hq
  · rw [hissued]
    exact h.block
  · intro j q hj
    rw [hissued]
    rw [State.phases, hphases, Threads.getElem?_concat] at hj
    split at hj
    · cases hj
    · exact h.running j q hj
  · rw [hissued, hexec, State.phases, hphases]
    exact h.begun.concat rfl
  · rw [hissued, hcomp, State.phases, hphases]
    exact h.ended.concat rfl
  · rw [hcomp, State.phases, hphases, List.countP_append]
    exact h.completed
  · rw [State.phases, hphases, List.countP_append]
    exact h.counted

theorem Executed.move (h : Executed tr s) (y : Phase ρ) (hphases : s'.phases = s.phases.set i y)
    (hiss : issued [e] = []) (hnum : s'.numRequests = s.numRequests)
    (hlauncher : s'.launcher = s.launcher) (hargs : s'.args = s.args)
    (hrunning : ∀ req, y = .executing req → (issued tr)[i]? = some req)
    (hbegun : Logged Phase.begun (issued tr) (executes tr ++ executes [e]) (s.phases.set i y))
    (hended : Logged Phase.ended (issued tr) (completions tr ++ completions [e]) (s.phases.set i y))
    (hcompleted : (completions tr).length + (completions [e]).length =
      (s.phases.set i y).countP Phase.ended)
    (hcounted : s'.txnsExecuted = (s.phases.set i y).countP Phase.isCounted) :
    Executed (tr ++ [e]) s' := by
  have hissued : issued (tr ++ [e]) = issued tr := by
    rw [issued_append, hiss, List.append_nil]
  have hlen : s'.executors.length = s.executors.length := by
    rw [← phases_length, ← phases_length, hphases, List.length_set]
  constructor
  · rw [hissued, hnum]
    exact h.issued_length
  · rw [hissued, hlauncher, hlen]
    exact h.issuing
  · rw [hissued, hargs]
    exact h.block
  · intro j q hj
    rw [hissued]
    rw [hphases] at hj
    by_cases hij : i = j
    · subst hij
      rw [List.getElem?_set_self'] at hj
      obtain ⟨_, _, hy⟩ := Option.map_eq_some_iff.mp hj
      exact hrunning q hy
    · rw [List.getElem?_set_ne hij] at hj
      exact h.running j q hj
  · rw [hissued, executes_append, hphases]
    exact hbegun
  · rw [hissued, completions_append, hphases]
    exact hended
  · rw [completions_append, List.length_append, hphases]
    exact hcompleted
  · rw [hphases]
    exact hcounted

theorem Executed.execute (h : Executed tr s) (hnum : Numbered s) {a : ThreadArg ρ}
    (hx : s.executors[i]? = some ⟨targ, .created⟩) (ha : s.args targ = some a) :
    Executed (tr ++ [.execute i a.request]) (s.goto i targ (.executing a.request)) := by
  have htarg : targ = i := hnum.targ_eq hx
  have hreq : (issued tr)[i]? = some a.request := h.block i a (htarg ▸ ha)
  have hphase := phases_getElem hx
  have hended := Threads.countP_set_same (p := Phase.ended) (y := .executing a.request) hphase rfl
  have hcount :=
    Threads.countP_set_same (p := Phase.isCounted) (y := .executing a.request) hphase rfl
  refine h.move (.executing a.request) (phases_goto s i targ _) rfl rfl rfl rfl ?_
    (h.begun.grow hphase hreq rfl rfl) ?_ (h.completed.trans hended.symm)
    (h.counted.trans hcount.symm)
  · intro req heq
    obtain rfl := Phase.executing.inj heq
    exact hreq
  · exact (List.append_nil (completions tr)).symm ▸ h.ended.set hphase rfl

theorem Executed.executed (h : Executed tr s) {req : ρ}
    (hx : s.executors[i]? = some ⟨targ, .executing req⟩) :
    Executed (tr ++ [.executed i req]) (s.goto i targ .lockingList) := by
  have hphase := phases_getElem hx
  have hreq : (issued tr)[i]? = some req := h.running i req hphase
  have hended : (s.phases.set i .executed).countP Phase.ended = s.phases.countP Phase.ended + 1 :=
    Threads.countP_set Phase.ended hphase .executed
  have hcount := Threads.countP_set_same (p := Phase.isCounted) (y := .executed) hphase rfl
  refine h.move .executed (phases_goto s i targ _) rfl rfl rfl rfl ?_ ?_
    (h.ended.grow hphase hreq rfl rfl) ?_ (h.counted.trans hcount.symm)
  · intro q heq
    cases heq
  · exact (List.append_nil (executes tr)).symm ▸ h.begun.set hphase rfl
  · rw [hended, ← h.completed]
    rfl

theorem Executed.count (h : Executed tr s) (hx : s.executors[i]? = some ⟨targ, .counting⟩) :
    Executed (tr ++ [.count i])
      { s.goto i targ .exited with txnsExecuted := s.txnsExecuted + 1 } := by
  have hphase := phases_getElem hx
  have hended := Threads.countP_set_same (p := Phase.ended) (y := .counted) hphase rfl
  have hcount : (s.phases.set i .counted).countP Phase.isCounted =
      s.phases.countP Phase.isCounted + 1 := Threads.countP_set Phase.isCounted hphase .counted
  refine h.move .counted (phases_goto s i targ _) rfl rfl rfl rfl ?_ ?_ ?_
    (h.completed.trans hended.symm) ?_
  · intro q heq
    cases heq
  · exact (List.append_nil (executes tr)).symm ▸ h.begun.set hphase rfl
  · exact (List.append_nil (completions tr)).symm ▸ h.ended.set hphase rfl
  · rw [hcount, ← h.counted]

theorem Executed.launcherStep (h : Executed tr s) (hnum : Numbered s)
    (hstep : LauncherStep s e s') : Executed (tr ++ [e]) s' := by
  cases hstep with
  | issue req hpc => exact h.issue hnum req hpc
  | create hpc => exact h.create
  | @allocate req id hpc =>
    refine h.quiet rfl rfl rfl rfl rfl rfl ?_ (by simp)
    intro p a ha
    rw [hnum.last hpc] at ha
    by_cases hp : p = s.executors.length
    · subst hp
      obtain rfl := Option.some.inj (by simpa using ha)
      exact h.issuing req hpc
    · exact h.block p a (by simpa [hp] using ha)
  | free hpc =>
    exact h.quiet rfl rfl rfl rfl rfl rfl (fun p a ha => h.block p a (shrinks_dealloc _ _ p a ha))
      (by simp)
  | retry hpc hne => exact h.quiet rfl rfl rfl rfl rfl rfl h.block fun _ hreq => hreq
  | lock hpc hm | wait hpc h0 | wakeSpuriously hpc | relock hpc hm | pass hpc h0 | take hpc
  | unlock hpc | lockList hpc hm | detach hpc | clear hpc | unlockList hpc | next hpc ha
  | join hpc ha hid hx hexit | freeId hpc ha | ret hpc | waitOutstanding hpc | waited hpc heq =>
    exact h.quiet rfl rfl rfl rfl rfl rfl h.block (by simp)

theorem Executed.executorStep (h : Executed tr s) (hnum : Numbered s)
    (hstep : ExecutorStep i s e s') : Executed (tr ++ [e]) s' := by
  cases hstep with
  | execute hx ha => exact h.execute hnum hx ha
  | executed hx => exact h.executed hx
  | count hx => exact h.count hx
  | setNext hx =>
    refine h.quiet rfl rfl rfl rfl rfl (phases_goto_same hx rfl) ?_ fun _ hreq => hreq
    intro p a' ha'
    obtain ⟨a, ha, hreq, _⟩ := setNext_some ha'
    rw [hreq]
    exact h.block p a ha
  | signal hx hl =>
    exact h.quiet rfl rfl rfl rfl rfl (phases_goto_same hx rfl) h.block (by simp)
  | lockList hx | publish hx | unlockList hx | lock hx | increment hx | signalNobody hx
  | unlock hx =>
    exact h.quiet rfl rfl rfl rfl rfl (phases_goto_same hx rfl) h.block fun _ hreq => hreq

theorem executed_of_run (h : Runs M tr s) : Executed tr s := by
  apply h.invariant (I := fun tr s => Executed tr s)
  · exact Executed.init M
  · intro tr s e s' hr hexec hstep
    have hnum := numbered_of_run hr
    cases hstep with
    | launcher hstep => exact hexec.launcherStep hnum hstep
    | executor i hstep => exact hexec.executorStep hnum hstep

end Executed

/-- The thread that was started last may not have its permit yet. -/
def LauncherPc.recent : LauncherPc ρ → Nat
  | .locking => 1
  | .testing => 1
  | .sleeping => 1
  | .waking => 1
  | .taking => 1
  | .unlocking => 1
  | .lockingList => 1
  | .detaching => 1
  | .clearing _ => 1
  | _ => 0

def State.unlisted (s : State ρ) : Nat := s.joinList.threads.countP fun x => !x.published

def listed (tr : List (Event ρ)) : List ArgPtr := JoinList.listed (tr.map Event.joinList)

section Backlog
variable {M : Int32} {tr : List (Event ρ)} {s s' : State ρ} {e : Event ρ} {i : Nat}
  {targ : ArgPtr} {x : Executor ρ} {pc : ExecutorPc ρ}

theorem listed_concat (tr : List (Event ρ)) (e : Event ρ) :
    listed (tr ++ [e]) = (e.joinList.relink (JoinList.lists (tr.map Event.joinList))).1 := by
  rw [listed, List.map_append, JoinList.listed, List.map_singleton, JoinList.lists_concat]

/-- A permit is returned after the block is linked. -/
theorem unlisted_le (s : State ρ) : s.unlisted ≤ s.outstanding := by
  rw [State.unlisted, State.joinList, List.countP_map, State.outstanding]
  apply List.countP_mono_left
  intro x _ hx
  cases hpc : x.pc <;>
    simp_all [Executor.stage, ExecutorPc.stage, JoinList.Stage.published, ExecutorPc.returned]

/-- Apart from the newest thread, the list and the threads on the way to it fit the limit. -/
def Backlog (M : Int32) (tr : List (Event ρ)) (s : State ρ) : Prop :=
  s.unlisted + (listed tr).length ≤ M.toUInt32.toNat + s.launcher.recent

theorem Backlog.keep (h : Backlog M tr s) (hlisted : listed (tr ++ [e]) = listed tr)
    (hunlisted : s'.unlisted = s.unlisted) (hrecent : s'.launcher.recent = s.launcher.recent) :
    Backlog M (tr ++ [e]) s' := by
  rw [Backlog, hlisted, hunlisted, hrecent]
  exact h

theorem unlisted_goto (hx : s.executors[i]? = some x)
    (hpc : pc.stage.published = x.pc.stage.published) :
    (s.goto i targ pc).unlisted = s.unlisted := by
  rw [State.unlisted, State.joinList, joinList_goto]
  apply Threads.countP_set_same (joinList_getElem hx)
  rw [hpc]
  rfl

theorem Backlog.launcherStep (h : Backlog M tr s) (hrun : Runs M tr s)
    (hstep : LauncherStep s e s') : Backlog M (tr ++ [e]) s' := by
  cases hstep with
  | @create thread arg hpc =>
    have hle : s.unlisted + (listed tr).length ≤ M.toUInt32.toNat := by
      rw [Backlog, hpc] at h
      exact h
    have hgrow : (s.executors ++ [(⟨arg, .created⟩ : Executor ρ)]).map Executor.stage =
        s.joinList.threads ++ [.working] := List.map_append
    rw [Backlog, listed_concat, State.unlisted, State.joinList, hgrow, List.countP_append]
    show s.unlisted + 1 + (listed tr).length ≤ M.toUInt32.toNat + 1
    omega
  | clear hpc =>
    have hout := (permits_of_run hrun).outstanding_le
    rw [monitor_outstanding, monitor_taker hpc] at hout
    have hle := unlisted_le s
    rw [Backlog, listed_concat]
    show s.unlisted + 0 ≤ M.toUInt32.toNat + 0
    exact le_trans hle hout
  | retry hpc hne => exact h.keep (listed_concat _ _) rfl rfl
  | issue req hpc | allocate id hpc | lock hpc hm | wait hpc h0 | wakeSpuriously hpc
  | relock hpc hm | pass hpc h0 | take hpc | unlock hpc | lockList hpc hm | detach hpc
  | unlockList hpc | next hpc ha | join hpc ha hid hx hexit | freeId hpc ha | free hpc | ret hpc
  | waitOutstanding hpc | waited hpc heq =>
    exact h.keep (listed_concat _ _) rfl (by rw [hpc]; rfl)

theorem Backlog.executorStep (h : Backlog M tr s) (hstep : ExecutorStep i s e s') :
    Backlog M (tr ++ [e]) s' := by
  cases hstep with
  | @publish targ hx =>
    have hcount := Threads.countP_set (fun x : JoinList.Stage => !x.published)
      (joinList_getElem hx) .linked
    have hunlisted : (s.goto i targ .unlockingList).unlisted + 1 = s.unlisted := by
      rw [State.unlisted, State.joinList, joinList_goto]
      exact hcount
    rw [Backlog] at h
    rw [Backlog, listed_concat]
    show (s.goto i targ .unlockingList).unlisted + ((listed tr).length + 1) ≤ _ + s.launcher.recent
    omega
  | signal hx hl =>
    exact h.keep (listed_concat _ _) (unlisted_goto hx rfl) (by rw [hl]; rfl)
  | execute hx ha | executed hx | lockList hx hm | setNext hx | unlockList hx | lock hx hm
  | increment hx | signalNobody hx | unlock hx | count hx =>
    exact h.keep (listed_concat _ _) (unlisted_goto hx rfl) rfl

theorem backlog_of_run (h : Runs M tr s) : Backlog M tr s := by
  apply h.invariant (I := fun tr s => Backlog M tr s)
  · exact Nat.zero_le _
  · intro tr s e s' hr hback hstep
    cases hstep with
    | launcher hstep => exact hback.launcherStep hr hstep
    | executor i hstep => exact hback.executorStep hstep

/-- While the launcher waits, its detached list is gone, so few threads are not counted. -/
theorem uncounted_lt (h : Runs M tr s) (hpc : s.launcher = .waiting) :
    s.numRequests < s.txnsExecuted + 2 ^ 64 := by
  have hinv := joinList_of_run h
  have hexec := executed_of_run h
  have hnum := (numbered_of_run h).requests
  have hback := backlog_of_run h
  have hdetached := detached_of_away h (congrArg LauncherPc.owner hpc)
  have hunfinished := JoinList.unfinished_le hinv
  rw [hdetached, List.append_nil] at hunfinished
  have hsplit : s.executors.length = s.txnsExecuted +
      s.joinList.threads.countP fun x => x ≠ .exited := by
    rw [hexec.counted, State.phases, State.joinList, List.countP_map, List.countP_map,
      List.length_eq_countP_add_countP fun x : Executor ρ => x.pc.phase.isCounted]
    congr 1
    apply List.countP_congr
    intro x _
    cases hx : x.pc <;>
      simp_all [Executor.stage, ExecutorPc.stage, ExecutorPc.phase, Phase.isCounted]
  rw [hpc] at hnum
  rw [Backlog, hpc] at hback
  have hlt := M.toUInt32.toNat_lt
  simp only [LauncherPc.pending, LauncherPc.recent] at hnum hback
  rw [listed, State.unlisted] at hback
  omega

end Backlog

section Barrier
variable {M : Int32} {tr tr' : List (Event ρ)} {s s₁ s' : State ρ} {i : Nat} {req : ρ}

theorem Logged.sublist {f : Phase ρ → Bool} {iss : List ρ} {log : List (Nat × ρ)}
    {phases : List (Phase ρ)} (h : Logged f iss log phases) (i : Nat) :
    (onChannel log i).Sublist iss[i]?.toList := by
  rw [h i]
  split
  · exact List.Sublist.refl _
  · exact List.nil_sublist _

theorem Logged.eq_nil {f : Phase ρ → Bool} {iss : List ρ} {log log' : List (Nat × ρ)}
    {phases : List (Phase ρ)} (h : Logged f iss (log ++ log') phases)
    (hdone : onChannel log i = [req]) (hreq : iss[i]? = some req) : onChannel log' i = [] := by
  have hsub := (h.sublist i).length_le
  rw [onChannel_append, hdone, hreq, List.length_append, Option.toList_some,
    List.length_singleton] at hsub
  exact List.eq_nil_of_length_eq_zero (by omega)

theorem executes_sublist (h : Runs M tr s) (i : Nat) :
    (onChannel (executes tr) i).Sublist (issued tr)[i]?.toList :=
  (executed_of_run h).begun.sublist i

theorem txnsExecuted_le (h : Runs M tr s) : s.txnsExecuted ≤ (completions tr).length := by
  have hexec := executed_of_run h
  rw [hexec.counted, hexec.completed]
  apply List.countP_mono_left
  intro x _ hx
  cases x with
  | counted => rfl
  | created | executing req | executed => cases hx

theorem completions_le (h : Runs M tr s) : (completions tr).length ≤ s.numRequests := by
  rw [(executed_of_run h).completed, (numbered_of_run h).requests]
  apply le_trans List.countP_le_length
  rw [phases_length]
  exact Nat.le_add_right _ _

/-- Where the counters meet, every thread has counted its request. -/
theorem counted_of_waited (h : Runs M tr s) (hstep : Step s .waited s₁)
    (hreq : (issued tr)[i]? = some req) : s.phases[i]? = some .counted := by
  have hexec := executed_of_run h
  have hnum := (numbered_of_run h).requests
  cases hstep with
  | executor j hstep => cases hstep
  | launcher hstep =>
    cases hstep with
    | waited hpc heq =>
      have hle := le_trans (txnsExecuted_le h) (completions_le h)
      have hlt := uncounted_lt h hpc
      have hall : s.txnsExecuted = s.numRequests := by omega
      rw [hpc] at hnum
      rw [hexec.counted, hnum] at hall
      have hcount : s.phases.countP Phase.isCounted = s.phases.length := by
        rw [phases_length]
        exact hall
      have hi : i < s.phases.length := by
        have hlt := (List.getElem?_eq_some_iff.mp hreq).1
        rw [hexec.issued_length, hnum] at hlt
        rw [phases_length]
        exact hlt
      have hlast := List.countP_eq_length.mp hcount _ (List.getElem_mem hi)
      rw [List.getElem?_eq_getElem hi]
      cases hx : s.phases[i] with
      | counted => rfl
      | created | executing req | executed =>
        rw [hx] at hlast
        cases hlast

theorem once_of_waited (h : Runs M tr s) (hstep : Step s .waited s₁)
    (hreq : (issued tr)[i]? = some req) :
    onChannel (executes tr) i = [req] ∧ onChannel (completions tr) i = [req] := by
  have hexec := executed_of_run h
  have hphase := counted_of_waited h hstep hreq
  constructor
  · rw [hexec.begun i, hphase, hreq]
    rfl
  · rw [hexec.ended i, hphase, hreq]
    rfl

/-- What was issued before a wait ended is not touched after it. -/
theorem untouched_of_waited (h : Runs M tr s) (hstep : Step s .waited s₁)
    (hreq : (issued tr)[i]? = some req) (hrun : Run Step s₁ tr' s') :
    onChannel (executes tr') i = [] ∧ onChannel (completions tr') i = [] := by
  obtain ⟨hbegun, hended⟩ := once_of_waited h hstep hreq
  have hexec := executed_of_run ((h.snoc hstep).trans hrun)
  have hkeep : (issued (tr ++ [.waited] ++ tr'))[i]? = some req := by
    rw [List.append_assoc, issued_append,
      List.getElem?_append_left (List.getElem?_eq_some_iff.mp hreq).1]
    exact hreq
  have hbefore : executes (tr ++ [Event.waited] ++ tr') = executes tr ++ executes tr' := by
    simp [executes]
  have hbefore' :
      completions (tr ++ [Event.waited] ++ tr') = completions tr ++ completions tr' := by
    simp [completions]
  constructor
  · exact (hbefore ▸ hexec.begun).eq_nil hbegun hkeep
  · exact (hbefore' ▸ hexec.ended).eq_nil hended hkeep

end Barrier

end Cmsc624.A1.ThreadLauncher
