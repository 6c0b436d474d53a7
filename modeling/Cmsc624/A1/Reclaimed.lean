import Cmsc624.A1.Reclaim

/-!
# Threads that are reclaimed

The launcher joins a finished thread, frees its `pthread_t` and then its `thread_arg`. In every
trace these three stand in this order and once only, and no thread uses its `thread_arg` after
that. A call of `ExecuteRequest` reclaims all threads that were linked when it began.
-/

namespace Cmsc624.A1.ThreadLauncher

open Lib

set_option autoImplicit false

variable {ρ : Type}

/-- The statements for one thread in the second `while` of `ExecuteRequest`. -/
inductive Reclaim where
  | join
  | freeId
  | free
  deriving DecidableEq

/-- What the event does with thread `i` or its blocks. -/
def Event.reclaim (i : Nat) : Event ρ → Option Reclaim
  | .join j => if j = i then some .join else none
  | .freeId p => if p = i then some .freeId else none
  | .free p => if p = i then some .free else none
  | _ => none

def reclaims (tr : List (Event ρ)) (i : Nat) : List Reclaim := tr.filterMap (Event.reclaim i)

def LauncherPc.progress (i : Nat) : LauncherPc ρ → Nat
  | .freeingId temp _ => if temp = i then 1 else 0
  | .freeing temp _ => if temp = i then 2 else 0
  | _ => 0

/-- The block that the launcher reads or frees next in the second `while`. -/
def LauncherPc.temp : LauncherPc ρ → Option ArgPtr
  | .walking arg => arg
  | .joining temp _ => some temp
  | .freeingId temp _ => some temp
  | .freeing temp _ => some temp
  | _ => none

/-- How many of the three statements were executed for thread `i`. -/
def State.progress (s : State ρ) (i : Nat) : Nat :=
  if i < s.executors.length ∧ s.args i = none then 3 else s.launcher.progress i

section Progress
variable {M : Int32} {tr tr' : List (Event ρ)} {s s' : State ρ} {e : Event ρ} {i : Nat}
  {x : Executor ρ} {temp : ArgPtr} {arg : Option ArgPtr}

theorem reclaims_concat (tr : List (Event ρ)) (e : Event ρ) (i : Nat) :
    reclaims (tr ++ [e]) i = reclaims tr i ++ (e.reclaim i).toList := by
  rw [reclaims, List.filterMap_append, ← reclaims]
  cases he : e.reclaim i with
  | none => rw [List.filterMap_cons_none he, List.filterMap_nil, Option.toList_none]
  | some r => rw [List.filterMap_cons_some he, List.filterMap_nil, Option.toList_some]

theorem progress_of_allocated {a : ThreadArg ρ} {pc : LauncherPc ρ} (ha : s.args i = some a)
    (hpc : s.launcher = pc) : s.progress i = pc.progress i := by
  rw [State.progress, if_neg, hpc]
  rintro ⟨_, hnone⟩
  rw [ha] at hnone
  cases hnone

theorem progress_of_joined {a : ThreadArg ρ} (hpc : s.launcher = .freeingId i arg)
    (ha : s.args i = some a) : s.progress i = 1 :=
  (progress_of_allocated ha hpc).trans (if_pos rfl)

theorem progress_of_freeing {a : ThreadArg ρ} (hpc : s.launcher = .freeing i arg)
    (ha : s.args i = some a) : s.progress i = 2 :=
  (progress_of_allocated ha hpc).trans (if_pos rfl)

theorem progress_of_freed (hi : i < s.executors.length) (ha : s.args i = none) :
    s.progress i = 3 := if_pos ⟨hi, ha⟩

theorem progress_congr (hfreed : (i < s'.executors.length ∧ s'.args i = none) ↔
      (i < s.executors.length ∧ s.args i = none))
    (hpc : s'.launcher.progress i = s.launcher.progress i) : s'.progress i = s.progress i := by
  rw [State.progress, State.progress, hpc]
  simp only [hfreed]

theorem walked_allocated (h : Runs M tr s) (htemp : s.launcher.temp = some temp) :
    temp < s.executors.length ∧ ∃ a, s.args temp = some a := by
  have hinv := joinList_of_run h
  have hheld : s.launcher.owner.Holds s.joinList.next _ := hinv.held
  obtain ⟨d, hd⟩ : ∃ d, JoinList.detached (tr.map Event.joinList) = temp :: d := by
    cases hpc : s.launcher with
    | walking arg =>
      rw [hpc] at htemp hheld
      obtain rfl : arg = some temp := htemp
      cases hd : JoinList.detached (tr.map Event.joinList) with
      | nil =>
        rw [hd] at hheld
        cases hheld
      | cons t d =>
        rw [hd] at hheld
        obtain rfl := Option.some.inj hheld.1
        exact ⟨d, rfl⟩
    | joining t arg | freeingId t arg | freeing t arg =>
      rw [hpc] at htemp hheld
      obtain rfl := Option.some.inj htemp
      obtain ⟨d, hd, _⟩ := hheld
      exact ⟨d, hd⟩
    | _ =>
      rw [hpc] at htemp
      cases htemp
  have hmem := List.mem_append_right (JoinList.listed (tr.map Event.joinList))
    (hd ▸ List.mem_cons_self)
  constructor
  · simpa [State.joinList] using hinv.lt_of_mem hmem
  · obtain ⟨n, hn⟩ := hinv.allocated_of_mem hmem
    obtain ⟨a, ha, _⟩ := Option.map_eq_some_iff.mp hn
    exact ⟨a, ha⟩

/-- The next of the three statements, or nothing of thread `i`. -/
def Advances (i : Nat) (s : State ρ) (e : Event ρ) (s' : State ρ) : Prop :=
  e.reclaim i = none ∧ s'.progress i = s.progress i ∨
    ∃ r, e.reclaim i = some r ∧ [Reclaim.join, .freeId, .free][s.progress i]? = some r ∧
      s'.progress i = s.progress i + 1

theorem Advances.quiet (hnone : e.reclaim i = none)
    (hfreed : (i < s'.executors.length ∧ s'.args i = none) ↔
      (i < s.executors.length ∧ s.args i = none))
    (hpc : s'.launcher.progress i = s.launcher.progress i) : Advances i s e s' :=
  .inl ⟨hnone, progress_congr hfreed hpc⟩

theorem LauncherStep.advances (hrun : Runs M tr s) (hstep : LauncherStep s e s') (i : Nat) :
    Advances i s e s' := by
  have hnum := numbered_of_run hrun
  cases hstep with
  | allocate id hpc =>
    refine .quiet rfl ?_ (by rw [hpc]; rfl)
    -- the new block is that of a thread to come
    rw [hnum.last hpc]
    apply and_congr_right
    intro hi
    show Function.update s.args s.executors.length _ i = none ↔ _
    rw [Function.update_of_ne (Nat.ne_of_lt hi)]
  | @create thread arg hpc =>
    refine .quiet rfl ?_ (by rw [hpc]; rfl)
    obtain ⟨_, rfl, req, harg⟩ := hnum.allocated thread arg hpc
    rw [List.length_append, List.length_singleton]
    constructor
    · rintro ⟨hi, hnone⟩
      refine ⟨?_, hnone⟩
      have hne : i ≠ s.executors.length := by
        rintro rfl
        rw [harg] at hnone
        cases hnone
      omega
    · rintro ⟨hi, hnone⟩
      exact ⟨Nat.lt_succ_of_lt hi, hnone⟩
  | @join temp arg a j x hpc ha hid hx hexit =>
    have hlt := (walked_allocated hrun (congrArg LauncherPc.temp hpc)).1
    rw [hnum.args_id temp a ha] at hid
    obtain rfl := hnum.ids temp j hlt hid
    by_cases hi : j = i
    · subst hi
      have hbefore : s.progress j = 0 := progress_of_allocated ha hpc
      refine .inr ⟨.join, if_pos rfl, ?_, ?_⟩
      · rw [hbefore]
        rfl
      · rw [hbefore]
        exact progress_of_joined rfl ha
    · refine .quiet (if_neg hi) Iff.rfl ?_
      rw [hpc]
      exact if_neg hi
  | @freeId temp arg a hpc ha =>
    have hid := hnum.args_id temp a ha
    by_cases hi : temp = i
    · subst hi
      have hbefore : s.progress temp = 1 := progress_of_joined hpc ha
      refine .inr ⟨.freeId, if_pos hid, ?_, ?_⟩
      · rw [hbefore]
        rfl
      · rw [hbefore]
        exact progress_of_freeing rfl ha
    · refine .quiet (if_neg (hid ▸ hi)) Iff.rfl ?_
      rw [hpc]
      exact (if_neg hi).trans (if_neg hi).symm
  | @free temp arg hpc =>
    obtain ⟨hlt, a, ha⟩ := walked_allocated hrun (congrArg LauncherPc.temp hpc)
    by_cases hi : temp = i
    · subst hi
      have hbefore : s.progress temp = 2 := progress_of_freeing hpc ha
      refine .inr ⟨.free, if_pos rfl, ?_, ?_⟩
      · rw [hbefore]
        rfl
      · rw [hbefore]
        exact progress_of_freed hlt (Function.update_self _ _ _)
    · refine .quiet (if_neg hi) ?_ ?_
      · show i < s.executors.length ∧ Function.update s.args temp none i = none ↔ _
        rw [Function.update_of_ne (Ne.symm hi)]
      · rw [hpc]
        exact (if_neg hi).symm
  | retry hpc hne => exact .quiet rfl Iff.rfl rfl
  | issue req hpc | lock hpc hm | wait hpc h0 | wakeSpuriously hpc | relock hpc hm | pass hpc h0
  | take hpc | unlock hpc | lockList hpc hm | detach hpc | clear hpc | unlockList hpc
  | next hpc ha | ret hpc | waitOutstanding hpc | waited hpc heq =>
    exact .quiet rfl Iff.rfl (by rw [hpc]; rfl)

theorem ExecutorStep.advances {k : Nat} (hstep : ExecutorStep k s e s') (i : Nat) :
    Advances i s e s' := by
  -- no executor is started or freed
  have hsame : ∀ {targ pc}, (i < (s.goto k targ pc).executors.length ∧ s.args i = none) ↔
      (i < s.executors.length ∧ s.args i = none) := by
    intro targ pc
    rw [State.goto, List.length_set]
  cases hstep with
  | @setNext targ hx =>
    refine .quiet rfl ?_ rfl
    have hargs : ThreadLauncher.setNext s.args targ s.targList i = none ↔ s.args i = none := by
      by_cases hi : i = targ
      · subst hi
        rw [ThreadLauncher.setNext, Function.update_self, Option.map_eq_none_iff]
      · rw [ThreadLauncher.setNext, Function.update_of_ne hi]
    rw [← hsame, ← hargs]
    rfl
  | signal hx hl => exact .quiet rfl hsame (by rw [hl]; rfl)
  | execute hx ha | executed hx | lockList hx hm | publish hx | unlockList hx | lock hx hm
  | increment hx | signalNobody hx hl | unlock hx | count hx => exact .quiet rfl hsame rfl

theorem Step.advances (hrun : Runs M tr s) (hstep : Step s e s') (i : Nat) :
    Advances i s e s' := by
  cases hstep with
  | launcher hstep => exact hstep.advances hrun i
  | executor k hstep => exact hstep.advances i

theorem reclaims_of_run (h : Runs M tr s) (i : Nat) :
    reclaims tr i = [Reclaim.join, .freeId, .free].take (s.progress i) := by
  apply h.invariant (I := fun tr s =>
    reclaims tr i = [Reclaim.join, .freeId, .free].take (s.progress i))
  · rfl
  · intro tr s e s' hr ih hstep
    rw [reclaims_concat, ih]
    rcases hstep.advances hr i with ⟨hnone, hsame⟩ | ⟨r, hsome, hnext, hmore⟩
    · rw [hnone, hsame, Option.toList_none, List.append_nil]
    · rw [hsome, hmore, List.take_add_one, hnext]

theorem threadIds_of_run (h : Runs M tr s) : ∀ i < s.executors.length, s.progress i < 2 →
    s.threadIds i = some i := by
  apply h.invariant (I := fun _ s => ∀ i < s.executors.length, s.progress i < 2 →
    s.threadIds i = some i)
  · intro i hi
    cases hi
  · intro tr s e s' hr ih hstep i hi hp
    have hbefore : s.progress i < 2 := by
      rcases hstep.advances hr i with ⟨_, hsame⟩ | ⟨r, _, _, hmore⟩ <;> omega
    have hnum := numbered_of_run hr
    cases hstep with
    | executor k hstep =>
      cases hstep <;> exact ih i (by simpa [State.goto] using hi) hbefore
    | launcher hstep =>
      cases hstep with
      | allocate id hpc =>
        have hne : i ≠ s.numRequests - 1 := by
          rw [hnum.last hpc]
          exact Nat.ne_of_lt hi
        exact (Function.update_of_ne hne _ _).trans (ih i hi hbefore)
      | @create thread arg hpc =>
        obtain ⟨rfl, _⟩ := hnum.allocated thread arg hpc
        by_cases hnew : i = s.executors.length
        · rw [hnew]
          exact Function.update_self _ _ _
        · rw [List.length_append, List.length_singleton] at hi
          exact (Function.update_of_ne hnew _ _).trans (ih i (by omega) hbefore)
      | @freeId temp arg a hpc ha =>
        have hid := hnum.args_id temp a ha
        have hne : i ≠ a.threadId := by
          rintro rfl
          rw [hid] at hp
          refine Nat.lt_irrefl 2 (Nat.lt_of_le_of_lt (Nat.le_of_eq (Eq.symm ?_)) hp)
          exact progress_of_freeing rfl ha
        exact (Function.update_of_ne hne _ _).trans (ih i hi hbefore)
      | _ => exact ih i hi hbefore

theorem exited_of_stage (hx : s.joinList.threads[i]? = some .exited) :
    ∃ targ, s.executors[i]? = some ⟨targ, .exited⟩ := by
  have hmap : (s.executors[i]?).map Executor.stage = some .exited := by
    rw [← List.getElem?_map]
    exact hx
  obtain ⟨⟨targ, pc⟩, hexec, hstage⟩ := Option.map_eq_some_iff.mp hmap
  cases pc with
  | exited => exact ⟨targ, hexec⟩
  | _ => cases hstage

/-- Only a thread that has exited is joined, and nothing of it is freed before that. -/
theorem exited_of_progress (h : Runs M tr s) (hp : 0 < s.progress i) :
    ∃ targ, s.executors[i]? = some ⟨targ, .exited⟩ := by
  have hinv := joinList_of_run h
  apply exited_of_stage
  unfold State.progress at hp
  split at hp
  · rename_i hfreed
    have hlen : i < s.joinList.threads.length := by simpa [State.joinList] using hfreed.1
    by_contra hne
    have hx := List.getElem?_eq_getElem hlen
    obtain ⟨n, hn⟩ := hinv.allocated_of_running hx fun hexit => hne (by rw [hx, hexit])
    obtain ⟨a, ha, _⟩ := Option.map_eq_some_iff.mp hn
    rw [hfreed.2] at ha
    cases ha
  · cases hpc : s.launcher with
    | freeingId temp arg | freeing temp arg =>
      rw [hpc, LauncherPc.progress] at hp
      split at hp
      · rename_i hi
        exact hi ▸ hinv.freeing temp arg (joinList_owner hpc)
      · cases hp
    | _ =>
      rw [hpc] at hp
      cases hp

/-- Where a thread has not exited, its `thread_arg` is allocated. -/
theorem allocated_of_running (h : Runs M tr s) (hx : s.executors[i]? = some x)
    (hrun : x.pc ≠ .exited) : ∃ a, s.args x.targ = some a := by
  have hstage : x.stage ≠ .exited := by
    intro hexit
    obtain ⟨targ, hx'⟩ := exited_of_stage ((joinList_getElem hx).trans (congrArg some hexit))
    obtain rfl := Option.some.inj (hx.symm.trans hx')
    exact hrun rfl
  obtain ⟨n, hn⟩ := (joinList_of_run h).allocated_of_running (joinList_getElem hx) hstage
  obtain ⟨a, ha, _⟩ := Option.map_eq_some_iff.mp hn
  rw [(numbered_of_run h).targ_eq hx]
  exact ⟨a, ha⟩

theorem at_freed : s.joinList.At i .freed ↔ i < s.executors.length ∧ s.args i = none := by
  show i < (s.executors.map Executor.stage).length ∧ (s.args i).map ThreadArg.next = none ↔ _
  rw [List.length_map, Option.map_eq_none_iff]

theorem reclaims_eq_all (h : Runs M tr s) :
    reclaims tr i = [.join, .freeId, .free] ↔ i < s.executors.length ∧ s.args i = none := by
  rw [reclaims_of_run h i]
  unfold State.progress
  split
  · rename_i hfreed
    exact iff_of_true rfl hfreed
  · rename_i hkept
    refine iff_of_false ?_ hkept
    have hlt : s.launcher.progress i < 3 := by
      unfold LauncherPc.progress
      split
      · split <;> omega
      · split <;> omega
      · omega
    intro hall
    have hlen := congrArg List.length hall
    simp only [List.length_take, List.length_cons, List.length_nil] at hlen
    omega

end Progress

/-- The launcher is in `ExecuteRequest`, before it has detached the list. -/
def LauncherPc.early : LauncherPc ρ → Bool
  | .issued _ => true
  | .allocated _ _ => true
  | .locking => true
  | .testing => true
  | .sleeping => true
  | .waking => true
  | .taking => true
  | .unlocking => true
  | .lockingList => true
  | .detaching => true
  | .clearing _ => true
  | _ => false

/-- Thread `i` has linked its block, and the block will be detached by this call, or was before. -/
def Detaching (i : Nat) (tr : List (Event ρ)) (s : State ρ) : Prop :=
  (∃ x, s.joinList.threads[i]? = some x ∧ x.published = true) ∧
    (s.launcher.early = true ∨ i ∉ JoinList.listed (tr.map Event.joinList))

section Calls
variable {M : Int32} {tr tr' : List (Event ρ)} {s s₁ s' : State ρ} {e : Event ρ} {i : Nat}
  {req : ρ}

theorem Step.early (hstep : Step s e s') (h : s.launcher.early = true) :
    s'.launcher.early = true ∨ e = .detach := by
  cases hstep with
  | launcher hstep =>
    cases hstep with
    | clear hpc => exact .inr rfl
    | unlockList hpc | next hpc | join hpc | freeId hpc | free hpc | ret hpc | waitOutstanding hpc
    | waited hpc =>
      rw [hpc] at h
      cases h
    | retry hpc hne => exact .inl h
    | _ => exact .inl rfl
  | executor k hstep =>
    cases hstep with
    | signal hx hl => exact .inl rfl
    | _ => exact .inl h

theorem Detaching.step (hrun : Runs M tr s) (h : Detaching i tr s) (hstep : Step s e s') :
    Detaching i (tr ++ [e]) s' := by
  obtain ⟨⟨x, hx, hpub⟩, hlist⟩ := h
  have hjoin := hstep.joinList (numbered_of_run hrun)
  refine ⟨hjoin.published hx hpub, ?_⟩
  rw [List.map_append, JoinList.listed, List.map_singleton, JoinList.lists_concat]
  rcases hlist with hearly | hnot
  · rcases hstep.early hearly with hstill | rfl
    · exact .inl hstill
    · exact .inr List.not_mem_nil
  · exact .inr (hjoin.unlisted hx hpub hnot)

theorem detaching_of_run (hrun : Runs M tr s) (h : Detaching i tr s) (hlater : Run Step s tr' s') :
    Runs M (tr ++ tr') s' ∧ Detaching i (tr ++ tr') s' := by
  induction hlater with
  | nil =>
    rw [List.append_nil]
    exact ⟨hrun, h⟩
  | snoc hr hstep ih =>
    rw [← List.append_assoc]
    exact ⟨ih.1.snoc hstep, ih.2.step ih.1 hstep⟩

/-- A call that has returned has freed what was linked when it began. -/
theorem reclaimed_of_call {x : Executor ρ} (hrun : Runs M tr s) (hcall : Step s (.issue req) s₁)
    (hlater : Run Step s₁ tr' s') (hidle : s'.launcher = .idle) (hx : s.executors[i]? = some x)
    (hpub : x.stage.published = true) :
    reclaims (tr ++ .issue req :: tr') i = [.join, .freeId, .free] := by
  have hbegun : Detaching i (tr ++ [.issue req]) s₁ := by
    refine ⟨?_, .inl ?_⟩
    · exact (hcall.joinList (numbered_of_run hrun)).published (joinList_getElem hx) hpub
    · cases hcall with
      | launcher hstep =>
        cases hstep
        rfl
      | executor k hstep => cases hstep
  obtain ⟨hall, ⟨y, hy, hypub⟩, hlist⟩ := detaching_of_run (hrun.snoc hcall) hbegun hlater
  rw [List.append_assoc, List.singleton_append] at hall hlist
  have hinv := joinList_of_run hall
  have hnot : i ∉ JoinList.listed ((tr ++ .issue req :: tr').map Event.joinList) := by
    rcases hlist with hearly | hnot
    · rw [hidle] at hearly
      cases hearly
    · exact hnot
  have hempty := detached_of_away hall (congrArg LauncherPc.owner hidle)
  rw [reclaims_eq_all hall, ← at_freed]
  rcases hinv.public_block i y hy hypub with hmem | ⟨hnone, _⟩
  · rw [hempty, List.append_nil] at hmem
    exact absurd hmem hnot
  · exact ⟨(List.getElem?_eq_some_iff.mp hy).1, hnone⟩

end Calls

/-- The two lists are finite, without cycles and disjoint. Each thread is joined after its end
and freed after that, all once and in this order, and until then its blocks are allocated. -/
structure Reclaims (tr : List (Event ρ)) (s : State ρ) : Prop where
  lists : ∃ l d, JoinList.Linked (nexts s.args) s.targList l ∧
    s.launcher.owner.Holds (nexts s.args) d ∧ (l ++ d).Nodup
  place : ∀ i < s.executors.length, ∃! place, s.joinList.At i place
  given : ∀ p a, s.args p = some a →
    p < s.executors.length ∨ ∃ thread, s.launcher = .allocated thread p
  once : ∀ i, reclaims tr i <+: [.join, .freeId, .free]
  freed : ∀ i, s.joinList.At i .freed ↔ reclaims tr i = [.join, .freeId, .free]
  joined : ∀ i, reclaims tr i ≠ [] → ∃ targ, s.executors[i]? = some ⟨targ, .exited⟩
  allocated : ∀ (i : Nat) (x : Executor ρ), s.executors[i]? = some x → x.pc ≠ .exited →
    ∃ a, s.args x.targ = some a
  walked : ∀ temp, s.launcher.temp = some temp → ∃ a, s.args temp = some a ∧
    (s.launcher.progress temp < 2 → s.threadIds a.threadId = some temp)

theorem reclaimed_once {M : Int32} {tr : List (Event ρ)} {s : State ρ} (h : Runs M tr s) :
    Reclaims tr s ∧
    ∀ req s₁ tr' s', Step s (.issue req) s₁ → Run Step s₁ tr' s' → s'.launcher = .idle →
      ∀ (i : Nat) (x : Executor ρ), s.executors[i]? = some x → x.stage.published = true →
        reclaims (tr ++ .issue req :: tr') i = [.join, .freeId, .free] := by
  have hinv := joinList_of_run h
  have hnum := numbered_of_run h
  refine ⟨⟨?_, ?_, ?_, ?_, ?_, ?_, ?_, ?_⟩, ?_⟩
  · exact ⟨_, _, hinv.linked, hinv.held, hinv.nodup⟩
  · intro i hi
    apply hinv.existsUnique_place
    simpa [State.joinList] using hi
  · exact hnum.args_lt
  · intro i
    rw [reclaims_of_run h i]
    exact ⟨_, List.take_append_drop _ _⟩
  · intro i
    rw [at_freed, reclaims_eq_all h]
  · intro i hne
    apply exited_of_progress h
    apply Nat.pos_of_ne_zero
    intro hzero
    rw [reclaims_of_run h i, hzero] at hne
    exact hne rfl
  · intro i x hx hrun
    exact allocated_of_running h hx hrun
  · intro temp htemp
    obtain ⟨hlt, a, ha⟩ := walked_allocated h htemp
    refine ⟨a, ha, fun hp => ?_⟩
    rw [hnum.args_id temp a ha]
    apply threadIds_of_run h temp hlt
    rw [progress_of_allocated ha rfl]
    exact hp
  · intro req s₁ tr' s' hcall hlater hidle i x hx hpub
    exact reclaimed_of_call h hcall hlater hidle hx hpub

/-- A first call, after which its thread comes to its end. -/
theorem one_exited : ∃ tr args ids,
    Runs 1 tr ⟨1, 1, Int32.toUInt32 1 - 1 + 1, none, none, some 0, args, ids, .idle,
      [⟨0, .exited⟩]⟩ ∧
    args 0 = some ⟨(), 0, none⟩ ∧ ids 0 = some 0 ∧ reclaims tr 0 = [] := by
  have hfree : ¬(1 : UInt32) ≤ 0 := by decide
  have run : Runs (ρ := Unit) 1 [] _ := .nil
  have run := run.snoc (.launcher (.issue () rfl))
  have run := run.snoc (.launcher (.allocate 0 rfl))
  have run := run.snoc (.launcher (.create rfl))
  have run := run.snoc (.launcher (.lock rfl rfl))
  have run := run.snoc (.launcher (.pass rfl hfree))
  have run := run.snoc (.launcher (.take rfl))
  have run := run.snoc (.launcher (.unlock rfl))
  have run := run.snoc (.launcher (.lockList rfl rfl))
  have run := run.snoc (.launcher (.detach rfl))
  have run := run.snoc (.launcher (.clear rfl))
  have run := run.snoc (.launcher (.unlockList rfl))
  have run := run.snoc (.launcher (.ret rfl))
  have run := run.snoc (.executor 0 (.execute rfl rfl))
  have run := run.snoc (.executor 0 (.executed rfl))
  have run := run.snoc (.executor 0 (.lockList rfl rfl))
  have run := run.snoc (.executor 0 (.setNext rfl))
  have run := run.snoc (.executor 0 (.publish rfl))
  have run := run.snoc (.executor 0 (.unlockList rfl))
  have run := run.snoc (.executor 0 (.lock rfl rfl))
  have run := run.snoc (.executor 0 (.increment rfl))
  have run := run.snoc (.executor 0 (.signalNobody rfl (fun h => by cases h)))
  have run := run.snoc (.executor 0 (.unlock rfl))
  have run := run.snoc (.executor 0 (.count rfl))
  refine ⟨_, _, _, run, ?_, ?_, ?_⟩
  · rfl
  · rfl
  · rfl

/-- The second call reclaims the thread of the first one. -/
theorem reclaimed_once_two : ∃ (tr tr' : List (Event Unit)) (s s₁ s' : State Unit),
    Runs 1 tr s ∧ Step s (.issue ()) s₁ ∧ Run Step s₁ tr' s' ∧ s'.launcher = .idle ∧
    reclaims tr 0 = [] ∧
    reclaims (tr ++ .issue () :: tr') 0 = [.join, .freeId, .free] := by
  obtain ⟨tr, args, ids, run, harg, hid, hnone⟩ := one_exited
  have hfree : ¬(Int32.toUInt32 1 - 1 + 1 : UInt32) ≤ 0 := by decide
  have later : Run Step (⟨2, 1, Int32.toUInt32 1 - 1 + 1, none, none, some 0, args, ids,
    .issued (), [⟨0, .exited⟩]⟩ : State Unit) [] _ := .nil
  have later := later.snoc (.launcher (.allocate 0 rfl))
  have later := later.snoc (.launcher (.create rfl))
  have later := later.snoc (.launcher (.lock rfl rfl))
  have later := later.snoc (.launcher (.pass rfl hfree))
  have later := later.snoc (.launcher (.take rfl))
  have later := later.snoc (.launcher (.unlock rfl))
  have later := later.snoc (.launcher (.lockList rfl rfl))
  have later := later.snoc (.launcher (.detach rfl))
  have later := later.snoc (.launcher (.clear rfl))
  have later := later.snoc (.launcher (.unlockList rfl))
  have later := later.snoc (.launcher (.next rfl harg))
  have later := later.snoc (.launcher (.join rfl harg hid rfl rfl))
  have later := later.snoc (.launcher (.freeId rfl harg))
  have later := later.snoc (.launcher (.free rfl))
  have later := later.snoc (.launcher (.ret rfl))
  have hcall := (reclaimed_once run).2 () _ _ _ (.launcher (.issue () rfl)) later rfl 0 _ rfl rfl
  exact ⟨tr, _, _, _, _, run, .launcher (.issue () rfl), later, rfl, hnone, hcall⟩

end Cmsc624.A1.ThreadLauncher
