import Cmsc624.A1.LauncherProgress

/-!
# A launcher with fair threads

The launcher thread goes on while it can, and no executor fails to get a mutex for ever. Then
every mutex is free again and again, every executor exits, and every call returns, however
often `pthread_cond_wait` returns without a signal.
-/

namespace Cmsc624.A1.ThreadLauncher

open Lib

set_option autoImplicit false

variable {ρ : Type}

section Turns
variable {s s' : State ρ} {e : Event ρ} {t : Turn ρ} {i : Nat} {x : Executor ρ} {th : Thread}

theorem ExecutorStep.moves (h : ExecutorStep i s e s') : ∃ x y, s.executors[i]? = some x ∧
    s'.executors = s.executors.set i y ∧ y.pc.rank < x.pc.rank := by
  cases h with
  | execute hx ha | executed hx | lockList hx hm | setNext hx | publish hx | unlockList hx
  | lock hx hm | increment hx | signal hx hl | signalNobody hx hl | unlock hx | count hx =>
    exact ⟨_, _, hx, rfl, by simp [ExecutorPc.rank]⟩

theorem LauncherStep.keeps_executor (h : LauncherStep s e s') (hx : s.executors[i]? = some x) :
    s'.executors[i]? = some x := by
  cases h with
  | create hpc =>
    have hlt := (List.getElem?_eq_some_iff.mp hx).1
    rw [List.getElem?_append_left hlt]
    exact hx
  | _ => exact hx

theorem turn_ne_executor (pc : LauncherPc ρ) (e : Event ρ) :
    ¬Turn.ofThread (.executor i) (pc.turn e) := by
  cases pc with
  | waiting =>
    cases e <;> exact id
  | _ => exact id

theorem TurnStep.executor_cases (h : TurnStep s t s') (hx : s.executors[i]? = some x) :
    (Turn.ofThread (.executor i) t ∧ ∃ y, s'.executors[i]? = some y ∧ y.pc.rank < x.pc.rank) ∨
      (¬Turn.ofThread (.executor i) t ∧ s'.executors[i]? = some x) := by
  cases h with
  | launcher h => exact .inr ⟨turn_ne_executor _ _, h.keeps_executor hx⟩
  | @executor _ e j h =>
    obtain ⟨z, y, hz, hexec, hlt⟩ := h.moves
    rw [hexec, Threads.getElem?_set hz]
    by_cases hij : j = i
    · subst hij
      obtain rfl := Option.some.inj (hx.symm.trans hz)
      exact .inl ⟨rfl, y, if_pos rfl, hlt⟩
    · exact .inr ⟨fun hi => hij hi.symm, (if_neg hij).trans hx⟩
  | other => exact .inr ⟨id, hx⟩

theorem Step.keeps_permitHolder (h : Step s e s') (hm : s.maxOutstandingMutex = some th) :
    s'.maxOutstandingMutex = some th ∨ s'.maxOutstandingMutex = none := by
  cases h with
  | launcher h =>
    cases h with
    | lock hpc hfree | relock hpc hfree =>
      rw [hfree] at hm
      cases hm
    | wait hpc h0 => exact .inr rfl
    | unlock hpc => exact .inr rfl
    | _ => exact .inl hm
  | executor i h =>
    cases h with
    | lock hx hfree =>
      rw [hfree] at hm
      cases hm
    | unlock hx => exact .inr rfl
    | _ => exact .inl hm

theorem Step.keeps_listHolder (h : Step s e s') (hm : s.targListMutex = some th) :
    s'.targListMutex = some th ∨ s'.targListMutex = none := by
  cases h with
  | launcher h =>
    cases h with
    | lockList hpc hfree =>
      rw [hfree] at hm
      cases hm
    | unlockList hpc => exact .inr rfl
    | _ => exact .inl hm
  | executor i h =>
    cases h with
    | lockList hx hfree =>
      rw [hfree] at hm
      cases hm
    | unlockList hx => exact .inr rfl
    | _ => exact .inl hm

theorem credit_of_ready (h : TurnStep s t s') (hready : s.LauncherReady) : t.credit = 0 := by
  cases h with
  | @launcher _ e h =>
    unfold State.LauncherReady at hready
    cases hpc : s.launcher with
    | idle | sleeping =>
      rw [hpc] at hready
      exact hready.elim
    | waiting => cases e <;> rfl
    | _ => rfl
  | executor i h => rfl
  | other => rfl

theorem working_of_thread (h : t.ofThread th) : t.working = true := by
  cases t with
  | launcher e | executor i e => rfl
  | _ => cases th <;> exact h.elim

theorem TurnStep.requests_cases (h : TurnStep s t s') : s'.numRequests = s.numRequests ∨
    s.launcher = .idle ∧ s'.numRequests = s.numRequests + 1 := by
  cases h with
  | launcher h =>
    cases h with
    | issue req hpc => exact .inr ⟨hpc, rfl⟩
    | _ => exact .inl rfl
  | executor i h => cases h <;> exact .inl rfl
  | other => exact .inl rfl

end Turns

/-- What is asked of the scheduler. -/
structure Fair {M : Int32} (b : Behaviour TurnStep (State.init ρ M)) : Prop where
  launcher : b.WeaklyFair (Turn.ofThread .launcher)
  executors : ∀ i, b.StronglyFair (Turn.ofThread (.executor i))

section Fair
variable {M : Int32} {b : Behaviour TurnStep (State.init ρ M)} {R : State ρ → Prop} {n i : Nat}

theorem runs_of_turns (b : Behaviour TurnStep (State.init ρ M)) (n : Nat) :
    Runs M (turnEvents (b.events n)) (b.state n) := run_of_turns (b.run n)

theorem Fair.launcher_leaves (hfair : Fair b)
    (hready : ∀ m, n ≤ m → R (b.state m) → (b.state m).LauncherReady) :
    ∃ m, n ≤ m ∧ ¬R (b.state m) := by
  apply hfair.launcher.leaves (r := fun m => potential (turnEvents (b.events m)) (b.state m))
  · intro m hm hR
    exact launcher_enabled (runs_of_turns b m) (hready m hm hR)
  · intro m hm hR _
    have hpot := (b.step m).potential (runs_of_turns b m)
    rw [← b.events_succ, credit_of_ready (b.step m) (hready m hm hR)] at hpot
    refine ⟨by omega, fun hturn => ?_⟩
    rw [working_of_thread hturn, Bool.toNat_true] at hpot
    omega

theorem Fair.executor_leaves (hfair : Fair b)
    (hsome : ∀ m, n ≤ m → R (b.state m) → ∃ x, (b.state m).executors[i]? = some x)
    (hready : ∀ m, n ≤ m → (∀ k, m ≤ k → R (b.state k) ∧
        (b.state k).executors[i]? = (b.state m).executors[i]?) →
      ∃ k, m ≤ k ∧ (b.state k).ThreadReady (.executor i)) :
    ∃ m, n ≤ m ∧ ¬R (b.state m) := by
  apply (hfair.executors i).leaves
    (r := fun m => ((b.state m).executors[i]?.map fun x => x.pc.rank).getD 0)
  · intro m hm hquiet
    have hsame : ∀ k, m ≤ k → (b.state k).executors[i]? = (b.state m).executors[i]? := by
      intro k hk
      induction k, hk using Nat.le_induction with
      | base => rfl
      | succ k hk ih =>
        obtain ⟨hR, hno⟩ := hquiet k hk
        obtain ⟨x, hx⟩ := hsome k (by omega) hR
        rcases (b.step k).executor_cases hx with ⟨hturn, _⟩ | ⟨_, hy⟩
        · exact absurd hturn hno
        · rw [hy, ← hx, ih]
    obtain ⟨k, hk, hthread⟩ := hready m hm fun k hk => ⟨(hquiet k hk).1, hsame k hk⟩
    exact ⟨k, hk, thread_enabled (runs_of_turns b k) hthread⟩
  · intro m hm hR _
    obtain ⟨x, hx⟩ := hsome m hm hR
    rcases (b.step m).executor_cases hx with ⟨_, y, hy, hlt⟩ | ⟨hno, hy⟩
    · simp only [hx, hy, Option.map_some, Option.getD_some]
      exact ⟨hlt.le, fun _ => hlt⟩
    · simp only [hx, hy, Option.map_some, Option.getD_some]
      exact ⟨le_rfl, fun hturn => absurd hturn hno⟩

/-- A mutex is free again and again. -/
theorem Fair.eventually_free (hfair : Fair b) {f : State ρ → Option Thread}
    (hkeep : ∀ {s e s' th}, Step s e s' → f s = some th → f s' = some th ∨ f s' = none)
    (hready : ∀ {tr s th}, Runs M tr s → f s = some th → s.ThreadReady th) (n : Nat) :
    ∃ m, n ≤ m ∧ f (b.state m) = none := by
  by_contra hheld
  push Not at hheld
  obtain ⟨th, hth⟩ := Option.ne_none_iff_exists'.mp (hheld n le_rfl)
  have hsame : ∀ m, n ≤ m → f (b.state m) = some th := by
    intro m hm
    induction m, hm using Nat.le_induction with
    | base => exact hth
    | succ m hm ih =>
      rcases (b.step m).step with ⟨_, hstays⟩ | ⟨e, _, hstep⟩
      · rw [hstays]
        exact ih
      · exact (hkeep hstep ih).resolve_right (hheld (m + 1) (by omega))
  have hthread : ∀ m, n ≤ m → (b.state m).ThreadReady th :=
    fun m hm => hready (runs_of_turns b m) (hsame m hm)
  cases th with
  | launcher =>
    obtain ⟨m, hm, hne⟩ := hfair.launcher_leaves (R := fun s => f s = some .launcher)
      fun m hm _ => hthread m hm
    exact hne (hsame m hm)
  | executor i =>
    obtain ⟨m, hm, hne⟩ := hfair.executor_leaves (i := i) (R := fun s => f s = some (.executor i))
      (fun m hm _ => (hthread m hm).imp fun x hx => hx.1) fun m hm _ => ⟨m, le_rfl, hthread m hm⟩
    exact hne (hsame m hm)

/-- Every executor exits. -/
theorem Fair.exits (hfair : Fair b) (hi : i < (b.state n).executors.length) :
    ∃ m x, n ≤ m ∧ (b.state m).executors[i]? = some x ∧ x.pc = .exited := by
  have hsome : ∀ m, n ≤ m → ∃ x, (b.state m).executors[i]? = some x := by
    intro m hm
    induction m, hm using Nat.le_induction with
    | base => exact ⟨_, List.getElem?_eq_getElem hi⟩
    | succ m hm ih =>
      obtain ⟨x, hx⟩ := ih
      rcases (b.step m).executor_cases hx with ⟨_, y, hy, _⟩ | ⟨_, hy⟩
      · exact ⟨y, hy⟩
      · exact ⟨x, hy⟩
  obtain ⟨m, hm, hexit⟩ := hfair.executor_leaves (n := n) (i := i)
    (R := fun s => ∀ x, s.executors[i]? = some x → x.pc ≠ .exited) (fun m hm _ => hsome m hm) (by
      intro m hm hquiet
      obtain ⟨x, hx⟩ := hsome m hm
      have hpc := (hquiet m le_rfl).1 x hx
      have hx : ∀ k, m ≤ k → (b.state k).executors[i]? = some x :=
        fun k hk => (hquiet k hk).2.trans hx
      cases hpc' : x.pc with
      | exited => exact absurd hpc' hpc
      | lockingList =>
        obtain ⟨k, hk, hfree⟩ := hfair.eventually_free Step.keeps_listHolder ready_of_listHolder m
        exact ⟨k, hk, x, hx k hk, hpc' ▸ hfree⟩
      | locking =>
        obtain ⟨k, hk, hfree⟩ :=
          hfair.eventually_free Step.keeps_permitHolder ready_of_permitHolder m
        exact ⟨k, hk, x, hx k hk, hpc' ▸ hfree⟩
      | _ => exact ⟨m, le_rfl, x, hx m le_rfl, hpc' ▸ trivial⟩)
  push Not at hexit
  obtain ⟨x, hx, hpc⟩ := hexit
  exact ⟨m, x, hm, hx, hpc⟩

theorem exited_forever {m k : Nat} {x : Executor ρ} (hx : (b.state m).executors[i]? = some x)
    (hpc : x.pc = .exited) (hk : m ≤ k) : (b.state k).executors[i]? = some x := by
  induction k, hk using Nat.le_induction with
  | base => exact hx
  | succ k hk ih =>
    rcases (b.step k).executor_cases ih with ⟨_, y, _, hlt⟩ | ⟨_, hy⟩
    · rw [hpc] at hlt
      exact absurd hlt (Nat.not_lt_zero _)
    · exact hy

theorem Fair.eventually_finished (hfair : Fair b) (k n : Nat) :
    ∃ N, n ≤ N ∧ ∀ m, N ≤ m → ∀ i x, i < k → (b.state m).executors[i]? = some x →
      x.pc = .exited := by
  induction k with
  | zero => exact ⟨n, le_rfl, fun m hm i x hi => absurd hi (Nat.not_lt_zero i)⟩
  | succ k ih =>
    obtain ⟨N, hN, hbefore⟩ := ih
    by_cases hstarted : ∃ m, k < (b.state m).executors.length
    · obtain ⟨m, hm⟩ := hstarted
      obtain ⟨m', y, _, hy, hpc⟩ := hfair.exits hm
      refine ⟨max N m', by omega, fun j hj i x hi hx => ?_⟩
      rcases Nat.lt_succ_iff_lt_or_eq.mp hi with hi | rfl
      · exact hbefore j (by omega) i x hi hx
      · obtain rfl := Option.some.inj (hx.symm.trans (exited_forever hy hpc (by omega)))
        exact hpc
    · push Not at hstarted
      refine ⟨N, hN, fun j hj i x hi hx => ?_⟩
      have hlt := (List.getElem?_eq_some_iff.mp hx).1
      have hle := hstarted j
      exact hbefore j hj i x (by omega) hx

/-- Every call returns. -/
theorem Fair.returns (hM : 0 < M) (hfair : Fair b) (n : Nat) :
    ∃ m, n ≤ m ∧ (b.state m).launcher = .idle := by
  by_contra hbusy
  push Not at hbusy
  have hrequests : ∀ m, n ≤ m → (b.state m).numRequests = (b.state n).numRequests := by
    intro m hm
    induction m, hm using Nat.le_induction with
    | base => rfl
    | succ m hm ih =>
      rcases (b.step m).requests_cases with hsame | ⟨hidle, _⟩
      · exact hsame.trans ih
      · exact absurd hidle (hbusy m hm)
  obtain ⟨N, hN, hexit⟩ := hfair.eventually_finished (b.state n).numRequests n
  have hfinished : ∀ m, N ≤ m → (b.state m).Finished := by
    intro m hm x hx
    obtain ⟨i, hi⟩ := List.getElem?_of_mem hx
    have hlt := (List.getElem?_eq_some_iff.mp hi).1
    have hnum := (numbered_of_run (runs_of_turns b m)).requests
    rw [hrequests m (by omega)] at hnum
    exact hexit m hm i x (by omega) hi
  obtain ⟨m, hm, hidle⟩ := hfair.launcher_leaves (n := N) (R := fun s => s.launcher ≠ .idle)
    fun m hm hne => ready_of_finished hM (runs_of_turns b m) (hfinished m hm) hne
  exact hidle (hbusy m (by omega))

theorem requests_mono {m : Nat} (hm : n ≤ m) :
    (b.state n).numRequests ≤ (b.state m).numRequests := by
  induction m, hm using Nat.le_induction with
  | base => exact le_rfl
  | succ m hm ih => rcases (b.step m).requests_cases with hsame | ⟨_, hmore⟩ <;> omega

/-- The request of every call is executed, once, and counted. -/
theorem Fair.executes (hM : 0 < M) (hfair : Fair b) {req : ρ}
    (hreq : (issued (turnEvents (b.events n)))[i]? = some req) :
    ∃ m, n ≤ m ∧ onChannel (completions (turnEvents (b.events m))) i = [req] := by
  have hi := (List.getElem?_eq_some_iff.mp hreq).1
  rw [(executed_of_run (runs_of_turns b n)).issued_length] at hi
  obtain ⟨m, hm, hidle⟩ := hfair.returns hM n
  have hnum := (numbered_of_run (runs_of_turns b m)).requests
  have hmono := requests_mono (b := b) hm
  rw [hidle] at hnum
  obtain ⟨k, x, hk, hx, hpc⟩ := hfair.exits (n := m) (i := i) (by
    simp only [LauncherPc.pending] at hnum
    omega)
  refine ⟨k, by omega, ?_⟩
  have hexec := executed_of_run (runs_of_turns b k)
  have hphase := phases_getElem hx
  obtain ⟨tr, htr⟩ := b.events_mono (show n ≤ k by omega)
  have hreq : (issued (turnEvents (b.events k)))[i]? = some req := by
    rw [htr, turnEvents_append, issued_append,
      List.getElem?_append_left (List.getElem?_eq_some_iff.mp hreq).1]
    exact hreq
  rw [hexec.ended i, hphase, hpc, hreq]
  rfl

end Fair

/-- The launcher never deadlocks and all but a bounded number of its turns are polling; with fair
threads every call returns and every request is executed. -/
theorem launcher_progress {M : Int32} (hM : 0 < M) :
    (∀ tr (s : State ρ), Run TurnStep (State.init ρ M) tr s →
      tr.countP Turn.working ≤ (tr.map Turn.credit).sum ∧
      (s.launcher = .idle ∧ s.Finished ∨
        ∃ t s', t.working = true ∧ TurnStep s t s')) ∧
    ∀ b : Behaviour TurnStep (State.init ρ M), Fair b → ∀ n,
      (∃ m, n ≤ m ∧ (b.state m).launcher = .idle) ∧
      ∀ (i : Nat) req, (issued (turnEvents (b.events n)))[i]? = some req →
        ∃ m, n ≤ m ∧ onChannel (completions (turnEvents (b.events m))) i = [req] := by
  constructor
  · intro tr s h
    refine ⟨(Nat.le_add_left _ _).trans (working_le h), ?_⟩
    by_cases hrest : s.launcher = .idle ∧ s.Finished
    · exact .inl hrest
    · obtain ⟨th, hready⟩ := exists_ready hM (run_of_turns h) (not_and_or.mp hrest)
      obtain ⟨t, s', hturn, hstep⟩ := thread_enabled (run_of_turns h) hready
      exact .inr ⟨t, s', working_of_thread hturn, hstep⟩
  · intro b hfair n
    exact ⟨hfair.returns hM n, fun i req hreq => hfair.executes hM hreq⟩

theorem not_enabled_at_rest {s : State ρ} (hidle : s.launcher = .idle) (hexited : s.Finished)
    (th : Thread) : ¬Enabled TurnStep (Turn.ofThread th) s := by
  rintro ⟨t, s', hturn, hstep⟩
  cases hstep with
  | launcher h =>
    rw [hidle] at hturn
    cases th <;> exact hturn
  | executor i h =>
    obtain ⟨x, y, hx, _, hlt⟩ := h.moves
    rw [hexited x (List.mem_of_getElem? hx)] at hlt
    exact Nat.not_lt_zero _ hlt
  | other => cases th <;> exact hturn

theorem exists_fair {M : Int32} {tr : List (Event ρ)} {s : State ρ} (h : Runs M tr s)
    (hidle : s.launcher = .idle) (hexited : s.Finished) :
    ∃ b : Behaviour TurnStep (State.init ρ M), Fair b ∧ ∃ n, turnEvents (b.events n) = tr ∧
      b.state n = s := by
  obtain ⟨tr', hrun, htr⟩ := exists_turns h
  obtain ⟨b, hevents, hstate, hfair⟩ := Behaviour.exists_of_rest hrun .other
  refine ⟨b, ⟨?_, fun i => ?_⟩, tr'.length, by rw [hevents, htr], hstate⟩
  · exact (hfair _ (not_enabled_at_rest hidle hexited _)).1
  · exact (hfair _ (not_enabled_at_rest hidle hexited _)).2

theorem launcher_progress_one : ∃ b : Behaviour TurnStep (State.init Unit 1), Fair b ∧
    ∃ n m, issued (turnEvents (b.events n)) = [()] ∧ n ≤ m ∧
      onChannel (completions (turnEvents (b.events m))) 0 = [()] := by
  obtain ⟨tr, args, ids, run, _⟩ := one_exited
  have hexited : ∀ x ∈ [(⟨0, .exited⟩ : Executor Unit)], x.pc = .exited := by simp
  obtain ⟨b, hfair, n, htr, _⟩ := exists_fair run rfl hexited
  have hissued : issued (turnEvents (b.events n)) = [()] := by
    rw [htr]
    obtain ⟨_, hone⟩ := List.length_eq_one_iff.mp (executed_of_run run).issued_length
    exact hone
  have hprogress := (launcher_progress (M := 1) (by decide)).2 b hfair n
  obtain ⟨m, hm, hdone⟩ := hprogress.2 0 () (by rw [hissued]; rfl)
  exact ⟨b, hfair, n, m, hissued, hm, hdone⟩

end Cmsc624.A1.ThreadLauncher
