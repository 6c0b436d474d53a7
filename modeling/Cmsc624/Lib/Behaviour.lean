import Cmsc624.Lib.Runs
import Mathlib.Order.OrderIsoNat

/-!
# Infinite runs and weak fairness

A behaviour never ends. It is weakly fair to a kind of steps if such a step is taken
again and again, or is not enabled again and again; it is strongly fair if such a step is
taken again and again, or is not enabled any more. Steps that use up a measure stop at some
moment (`eventually_steady`); what is left must be kept going by fairness.
-/

namespace Lib

universe u v w u' v'
variable {σ : Type u} {ε : Type v} {Step : σ → ε → σ → Prop} {s₀ s : σ} {A : ε → Prop}

/-- Infinite runs. -/
structure Behaviour (Step : σ → ε → σ → Prop) (s₀ : σ) where
  state : Nat → σ
  event : Nat → ε
  start : state 0 = s₀
  step : ∀ n, Step (state n) (event n) (state (n + 1))

def Enabled (Step : σ → ε → σ → Prop) (A : ε → Prop) (s : σ) : Prop := ∃ e s', A e ∧ Step s e s'

/-- A sequence that never grows comes to rest. -/
theorem eventually_steady {α : Type w} [PartialOrder α] [WellFoundedLT α] {f : Nat → α} {n : Nat}
    (hle : ∀ m, n ≤ m → f (m + 1) ≤ f m) : ∃ N, n ≤ N ∧ ∀ m, N ≤ m → f m = f N := by
  have hanti : Antitone fun k => f (n + k) :=
    antitone_nat_of_succ_le fun k => hle (n + k) (by omega)
  obtain ⟨k, hk⟩ := WellFoundedLT.antitone_chain_condition hanti
  refine ⟨n + k, by omega, ?_⟩
  intro m hm
  obtain ⟨j, rfl⟩ := Nat.exists_eq_add_of_le hm
  rw [Nat.add_assoc]
  exact (hk (k + j) (by omega)).symm

namespace Behaviour
variable (b : Behaviour Step s₀)

def events (n : Nat) : List ε := (List.range n).map b.event

theorem events_succ (n : Nat) : b.events (n + 1) = b.events n ++ [b.event n] := by
  simp [events, List.range_succ]

theorem mem_events {n m : Nat} (h : m < n) : b.event m ∈ b.events n :=
  List.mem_map_of_mem (List.mem_range.mpr h)

theorem events_mono {n m : Nat} (h : n ≤ m) : ∃ tr, b.events m = b.events n ++ tr := by
  induction m, h using Nat.le_induction with
  | base => exact ⟨[], (List.append_nil _).symm⟩
  | succ m hm ih =>
    obtain ⟨tr, htr⟩ := ih
    exact ⟨tr ++ [b.event m], by rw [b.events_succ, htr, List.append_assoc]⟩

theorem run (n : Nat) : Run Step s₀ (b.events n) (b.state n) := by
  induction n with
  | zero =>
    rw [b.start]
    exact .nil
  | succ n ih =>
    rw [b.events_succ]
    exact ih.snoc (b.step n)

def WeaklyFair (A : ε → Prop) : Prop :=
  ∀ n, (∀ m, n ≤ m → Enabled Step A (b.state m)) → ∃ m, n ≤ m ∧ A (b.event m)

def StronglyFair (A : ε → Prop) : Prop :=
  ∀ n, (∀ m, n ≤ m → ∃ k, m ≤ k ∧ Enabled Step A (b.state k)) → ∃ m, n ≤ m ∧ A (b.event m)

/-- What a behaviour of another system does in this one. -/
def map {σ' : Type u'} {ε' : Type v'} {Step' : σ' → ε' → σ' → Prop} (f : σ → σ') (g : ε → ε')
    (hstep : ∀ {s e s'}, Step s e s' → Step' (f s) (g e) (f s')) (b : Behaviour Step s₀) :
    Behaviour Step' (f s₀) where
  state n := f (b.state n)
  event n := g (b.event n)
  start := congrArg f b.start
  step n := hstep (b.step n)

variable {b}

/-- What the others leave alone is still so when the step is taken. -/
theorem WeaklyFair.first {β : Type w} (hfair : b.WeaklyFair A) (f : σ → β) {n : Nat}
    (hen : ∀ m, n ≤ m → Enabled Step A (b.state m))
    (hkeep : ∀ m, n ≤ m → ¬A (b.event m) → f (b.state (m + 1)) = f (b.state m)) :
    ∃ m, n ≤ m ∧ A (b.event m) ∧ f (b.state m) = f (b.state n) := by
  classical
  obtain ⟨k, hk, hA⟩ := hfair n hen
  induction hd : k - n using Nat.strong_induction_on generalizing k with
  | _ d ih =>
    by_cases hearlier : ∃ j, n ≤ j ∧ j < k ∧ A (b.event j)
    · obtain ⟨j, hj, hjk, hjA⟩ := hearlier
      exact ih (j - n) (by omega) j hj hjA rfl
    · refine ⟨k, hk, hA, ?_⟩
      have hsame : ∀ j, n ≤ j → j ≤ k → f (b.state j) = f (b.state n) := by
        intro j hj
        induction j, hj using Nat.le_induction with
        | base => exact fun _ => rfl
        | succ j hj ih' =>
          intro hjk
          rw [hkeep j hj fun hjA => hearlier ⟨j, hj, hjk, hjA⟩]
          exact ih' (by omega)
      exact hsame k hk le_rfl

theorem WeaklyFair.map {σ' : Type u'} {ε' : Type v'} {Step' : σ' → ε' → σ' → Prop} {f : σ → σ'}
    {g : ε → ε'} {hstep : ∀ {s e s'}, Step s e s' → Step' (f s) (g e) (f s')} {A' : ε' → Prop}
    (hfair : b.WeaklyFair fun e => A' (g e))
    (hback : ∀ n, Enabled Step' A' (f (b.state n)) →
      Enabled Step (fun e => A' (g e)) (b.state n)) :
    (b.map f g hstep).WeaklyFair A' :=
  fun n hen => hfair n fun m hm => hback m (hen m hm)

/-- Steps that use up a rank stop. -/
theorem eventually_quiet {r : Nat → Nat} {n : Nat}
    (hrank : ∀ m, n ≤ m → r (m + 1) ≤ r m ∧ (A (b.event m) → r (m + 1) < r m)) :
    ∃ N, n ≤ N ∧ ∀ m, N ≤ m → ¬A (b.event m) := by
  obtain ⟨N, hN, hsteady⟩ := eventually_steady fun m hm => (hrank m hm).1
  refine ⟨N, hN, ?_⟩
  intro m hm hA
  have hlt := (hrank m (by omega)).2 hA
  rw [hsteady m hm, hsteady (m + 1) (by omega)] at hlt
  exact Nat.lt_irrefl _ hlt

/-- A region is left if fair steps use up a rank there and are possible there. -/
theorem WeaklyFair.leaves (hfair : b.WeaklyFair A) {R : σ → Prop} {r : Nat → Nat} {n : Nat}
    (hen : ∀ m, n ≤ m → R (b.state m) → Enabled Step A (b.state m))
    (hrank : ∀ m, n ≤ m → R (b.state m) → R (b.state (m + 1)) →
      r (m + 1) ≤ r m ∧ (A (b.event m) → r (m + 1) < r m)) :
    ∃ m, n ≤ m ∧ ¬R (b.state m) := by
  by_contra hstays
  push Not at hstays
  obtain ⟨N, hN, hquiet⟩ := eventually_quiet fun m hm =>
    hrank m hm (hstays m hm) (hstays (m + 1) (by omega))
  obtain ⟨m, hm, hA⟩ := hfair N fun m hm => hen m (by omega) (hstays m (by omega))
  exact hquiet m hm hA

/-- Strong fairness asks for less: that such a step is possible again, while none is taken. -/
theorem StronglyFair.leaves (hfair : b.StronglyFair A) {R : σ → Prop} {r : Nat → Nat} {n : Nat}
    (hen : ∀ m, n ≤ m → (∀ k, m ≤ k → R (b.state k) ∧ ¬A (b.event k)) →
      ∃ k, m ≤ k ∧ Enabled Step A (b.state k))
    (hrank : ∀ m, n ≤ m → R (b.state m) → R (b.state (m + 1)) →
      r (m + 1) ≤ r m ∧ (A (b.event m) → r (m + 1) < r m)) :
    ∃ m, n ≤ m ∧ ¬R (b.state m) := by
  by_contra hstays
  push Not at hstays
  obtain ⟨N, hN, hquiet⟩ := eventually_quiet fun m hm =>
    hrank m hm (hstays m hm) (hstays (m + 1) (by omega))
  obtain ⟨m, hm, hA⟩ := hfair N fun m hm =>
    hen m (by omega) fun k hk => ⟨hstays k (by omega), hquiet k (by omega)⟩
  exact hquiet m hm hA

def cons {e : ε} (h : Step s₀ e s) (b : Behaviour Step s) : Behaviour Step s₀ where
  state
    | 0 => s₀
    | n + 1 => b.state n
  event
    | 0 => e
    | n + 1 => b.event n
  start := rfl
  step n := by
    cases n with
    | zero =>
      rw [← b.start] at h
      exact h
    | succ n => exact b.step n

/-- Fairness is a matter of the infinite rest. -/
theorem WeaklyFair.cons {e : ε} (h : Step s₀ e s) {b : Behaviour Step s} (hfair : b.WeaklyFair A) :
    (cons h b).WeaklyFair A := by
  intro n hen
  obtain ⟨m, hm, hA⟩ := hfair n fun m hm => hen (m + 1) (by omega)
  exact ⟨m + 1, by omega, hA⟩

theorem StronglyFair.cons {e : ε} (h : Step s₀ e s) {b : Behaviour Step s}
    (hfair : b.StronglyFair A) : (cons h b).StronglyFair A := by
  intro n hen
  obtain ⟨m, hm, hA⟩ := hfair n fun m hm => by
    obtain ⟨k, hk, hen⟩ := hen (m + 1) (by omega)
    cases k with
    | zero => omega
    | succ k => exact ⟨k, by omega, hen⟩
  exact ⟨m + 1, by omega, hA⟩

theorem exists_of_run {tr : List ε} (h : Run Step s₀ tr s) (b : Behaviour Step s) :
    ∃ b' : Behaviour Step s₀, b'.events tr.length = tr ∧
      (∀ k, b'.state (tr.length + k) = b.state k ∧ b'.event (tr.length + k) = b.event k) ∧
      (∀ A, b.WeaklyFair A → b'.WeaklyFair A) ∧ ∀ A, b.StronglyFair A → b'.StronglyFair A := by
  induction h with
  | nil => exact ⟨b, rfl, fun k => by simp, fun _ hA => hA, fun _ hA => hA⟩
  | @snoc tr s s' e hr hs ih =>
    obtain ⟨b', hev, hrest, hweak, hstrong⟩ := ih (cons hs b)
    refine ⟨b', ?_, fun k => ?_, fun A hA => hweak A (hA.cons hs), fun A hA =>
      hstrong A (hA.cons hs)⟩
    · rw [List.length_append, List.length_singleton, events_succ, hev]
      exact congrArg (tr ++ [·]) (hrest 0).2
    · rw [List.length_append, List.length_singleton, Nat.add_assoc, Nat.add_comm 1 k]
      exact hrest (k + 1)

/-- A run to a state where only `e` is left can go on fairly. -/
theorem exists_of_rest {tr : List ε} (h : Run Step s₀ tr s) {e : ε} (he : Step s e s) :
    ∃ b : Behaviour Step s₀, b.events tr.length = tr ∧ b.state tr.length = s ∧
      ∀ A, ¬Enabled Step A s → b.WeaklyFair A ∧ b.StronglyFair A := by
  let stay : Behaviour Step s := ⟨fun _ => s, fun _ => e, rfl, fun _ => he⟩
  obtain ⟨b, hevents, hrest, hweak, hstrong⟩ := exists_of_run h stay
  refine ⟨b, hevents, (hrest 0).1, fun A hA => ⟨hweak A ?_, hstrong A ?_⟩⟩
  · exact fun n hen => absurd (hen n le_rfl) hA
  · intro n hen
    obtain ⟨_, _, hk⟩ := hen n le_rfl
    exact absurd hk hA

end Behaviour

end Lib
