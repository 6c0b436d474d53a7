import Cmsc624.A1.FairLauncher

/-!
# Programs that use a launcher

One thread of the program calls the launcher and does its own work between two calls. If that
thread is fair and the launcher has fair threads, no call keeps it for ever, and it leaves every
part of the program in which each of its turns brings it nearer to the end.
-/

namespace Cmsc624.A1.ThreadLauncher

open Lib

set_option autoImplicit false

variable {ρ σ ε π : Type}

def Turn.inside : Turn ρ → Bool
  | .call _ => false
  | .other => false
  | _ => true

section Turns
variable {l l' : State ρ} {e : Event ρ} {t : Turn ρ} {i : Nat}

theorem ExecutorStep.idle (h : ExecutorStep i l e l') (hidle : l.launcher = .idle) :
    l'.launcher = .idle := by
  cases h with
  | signal hx hl =>
    rw [hidle] at hl
    cases hl
  | _ => exact hidle

theorem turn_of_idle (e : Event ρ) (hidle : l.launcher = .idle) :
    l.launcher.turn e = .call e := by
  rw [hidle]
  rfl

theorem inside_of_busy (h : LauncherStep l e l') (hbusy : l.launcher ≠ .idle) :
    (l.launcher.turn e).inside = true := by
  cases h with
  | issue req hpc | waitOutstanding hpc => exact absurd hpc hbusy
  | allocate id hpc | create hpc | lock hpc hm | wait hpc h0 | wakeSpuriously hpc | relock hpc hm
  | pass hpc h0 | take hpc | unlock hpc | lockList hpc hm | detach hpc | clear hpc | unlockList hpc
  | next hpc ha | join hpc ha hid hx hexit | freeId hpc ha | free hpc | ret hpc | retry hpc hne
  | waited hpc heq =>
    rw [hpc]
    rfl

theorem inside_of_thread {th : Thread} (h : t.ofThread th) : t.inside = true := by
  cases t with
  | launcher e | executor i e => rfl
  | _ => cases th <;> exact h.elim

theorem TurnStep.executor_of_idle (h : TurnStep l t l') (hidle : l.launcher = .idle)
    (hinside : t.inside = true) : ∃ i e, t = .executor i e ∧ ExecutorStep i l e l' := by
  cases h with
  | launcher h =>
    rw [turn_of_idle _ hidle] at hinside
    cases hinside
  | executor i h => exact ⟨i, _, rfl, h⟩
  | other => cases hinside

theorem busy_of_enabled (h : Enabled TurnStep (Turn.ofThread .launcher) l) :
    l.launcher ≠ .idle := by
  intro hidle
  obtain ⟨t, l', hturn, hstep⟩ := h
  obtain ⟨i, e, rfl, _⟩ := hstep.executor_of_idle hidle (inside_of_thread hturn)
  exact hturn

end Turns

/-- What the steps of such a program have to do with the launcher. -/
structure Client (ρ σ ε π : Type) where
  Step : σ → ε → σ → Prop
  init : σ
  maxOutstanding : Int32
  launcher : σ → State ρ
  turn : ε → Turn ρ
  -- Where the calling thread is between two calls, and its turns.
  main : σ → π
  ofMain : ε → Prop
  launcher_init : launcher init = State.init ρ maxOutstanding
  launched : ∀ {s e s'}, Step s e s' → TurnStep (launcher s) (turn e) (launcher s')
  -- In a call the thread is the launcher thread.
  exists_main : ∀ {s}, Enabled TurnStep (Turn.ofThread .launcher) (launcher s) →
    Enabled Step ofMain s
  in_call : ∀ {s e s'}, Step s e s' → (launcher s).launcher ≠ .idle → ofMain e →
    (turn e).ofThread .launcher
  -- Between two calls its turns move it on, and nobody else calls the launcher.
  main_moves : ∀ {s e s'}, Step s e s' → (launcher s).launcher = .idle → ofMain e →
    main s' ≠ main s
  idle_or_moves : ∀ {s e s'}, Step s e s' → (launcher s).launcher = .idle →
    (launcher s').launcher = .idle ∨ main s' ≠ main s

namespace Client
variable {c : Client ρ σ ε π} {b : Behaviour c.Step c.init} {R : σ → Prop} {r : π → Nat} {n : Nat}

def launcherBehaviour (b : Behaviour c.Step c.init) :
    Behaviour TurnStep (State.init ρ c.maxOutstanding) where
  state n := c.launcher (b.state n)
  event n := c.turn (b.event n)
  start := by rw [b.start, c.launcher_init]
  step n := c.launched (b.step n)

/-- A launcher thread that is fair to its program is fair to the launcher. -/
theorem weaklyFair_launcher (hmain : b.WeaklyFair c.ofMain) :
    (launcherBehaviour b).WeaklyFair (Turn.ofThread .launcher) := by
  intro n hen
  obtain ⟨m, hm, hturn⟩ := hmain n fun m hm => c.exists_main (hen m hm)
  exact ⟨m, hm, c.in_call (b.step m) (busy_of_enabled (hen m hm)) hturn⟩

/-- No call keeps the calling thread, so it does not stay where its turns use up a rank. -/
theorem main_leaves (hM : 0 < c.maxOutstanding) (hfair : Fair (launcherBehaviour b))
    (hmain : b.WeaklyFair c.ofMain)
    (hen : ∀ m, n ≤ m → R (b.state m) → (c.launcher (b.state m)).launcher = .idle →
      Enabled c.Step c.ofMain (b.state m))
    (hrank : ∀ m, n ≤ m → R (b.state m) → c.main (b.state (m + 1)) = c.main (b.state m) ∨
      r (c.main (b.state (m + 1))) < r (c.main (b.state m))) :
    ∃ m, n ≤ m ∧ ¬R (b.state m) := by
  by_contra hstays
  push Not at hstays
  obtain ⟨N, hN, hsteady⟩ := eventually_steady (f := fun m => r (c.main (b.state m)))
    fun m hm => (hrank m hm (hstays m hm)).elim (fun hsame => by rw [hsame]) le_of_lt
  have hsame : ∀ m, N ≤ m → c.main (b.state (m + 1)) = c.main (b.state m) := by
    intro m hm
    refine (hrank m (by omega) (hstays m (by omega))).resolve_right fun hless => ?_
    rw [hsteady m hm, hsteady (m + 1) (by omega)] at hless
    exact Nat.lt_irrefl _ hless
  -- the call returns, and no other one is made
  obtain ⟨K, hK, hidle⟩ := hfair.returns hM N
  have hidle : ∀ m, K ≤ m → (c.launcher (b.state m)).launcher = .idle := by
    intro m hm
    induction m, hm using Nat.le_induction with
    | base => exact hidle
    | succ m hm ih =>
      exact (c.idle_or_moves (b.step m) ih).resolve_right fun hne => hne (hsame m (by omega))
  obtain ⟨m, hm, hturn⟩ := hmain K fun m hm =>
    hen m (by omega) (hstays m (by omega)) (hidle m hm)
  exact c.main_moves (b.step m) (hidle m hm) hturn (hsame m (by omega))

end Client

end Cmsc624.A1.ThreadLauncher
