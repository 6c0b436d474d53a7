/-!
# Runs of a labelled transition relation

`Run Step s₀ tr s` is a finite run from `s₀` to `s`; `tr` lists its events, the
latest one at the end. A property of the trace and the state together is proved
once for the initial state and once for a step (`Run.invariant`).
-/

namespace Lib

universe u v u' v'
variable {σ : Type u} {ε : Type v} {Step : σ → ε → σ → Prop} {s₀ s s' : σ} {tr tr' : List ε}

/-- Finite runs, extended at the end. -/
inductive Run (Step : σ → ε → σ → Prop) (s₀ : σ) : List ε → σ → Prop where
  | nil : Run Step s₀ [] s₀
  | snoc {tr : List ε} {s s' : σ} {e : ε} :
      Run Step s₀ tr s → Step s e s' → Run Step s₀ (tr ++ [e]) s'

namespace Run

/-- The induction rule of all safety proofs: what holds at the start and is kept by
every step that a run can take holds along the run. -/
theorem invariant {I : List ε → σ → Prop} (init : I [] s₀)
    (step : ∀ {tr s e s'}, Run Step s₀ tr s → I tr s → Step s e s' → I (tr ++ [e]) s')
    (h : Run Step s₀ tr s) : I tr s := by
  induction h with
  | nil => exact init
  | snoc hr hs ih => exact step hr ih hs

theorem stateInvariant {I : σ → Prop} (init : I s₀)
    (step : ∀ {s e s'}, I s → Step s e s' → I s') (h : Run Step s₀ tr s) : I s :=
  h.invariant (I := fun _ s => I s) init fun _ hi hs => step hi hs

theorem here (_ : Run Step s₀ tr s) : Run Step s [] s := .nil

theorem single {e : ε} (h : Step s₀ e s) : Run Step s₀ [e] s := .snoc .nil h

theorem trans (h : Run Step s₀ tr s) (h' : Run Step s tr' s') : Run Step s₀ (tr ++ tr') s' := by
  induction h' with
  | nil => simpa using h
  | snoc _ hs ih => simpa using ih.snoc hs

theorem split {e : ε} (h : Run Step s₀ (tr ++ e :: tr') s) :
    ∃ m m', Run Step s₀ tr m ∧ Step m e m' ∧ Run Step m' tr' s := by
  generalize hl : tr ++ e :: tr' = l at h
  induction h generalizing tr' with
  | nil => simp at hl
  | @snoc l s s' f hr hs ih =>
    rcases List.eq_nil_or_concat tr' with rfl | ⟨tr'', x, rfl⟩
    · obtain ⟨rfl, hef⟩ := List.append_inj' hl rfl
      obtain rfl := List.singleton_inj.mp hef
      exact ⟨s, s', hr, hs, .nil⟩
    · have hassoc : (tr ++ e :: tr'') ++ [x] = l ++ [f] := by simpa using hl
      obtain ⟨rfl, hxf⟩ := List.append_inj' hassoc rfl
      obtain rfl := List.singleton_inj.mp hxf
      obtain ⟨m, m', hbefore, hm, hafter⟩ := ih rfl
      exact ⟨m, m', hbefore, hm, by simpa using hafter.snoc hs⟩

/-- A run of a system with fewer steps. -/
theorem mono {Step' : σ → ε → σ → Prop} (hle : ∀ {s e s'}, Step s e s' → Step' s e s')
    (h : Run Step s₀ tr s) : Run Step' s₀ tr s := by
  induction h with
  | nil => exact .nil
  | snoc _ hs ih => exact ih.snoc (hle hs)

/-- Every event of a run has a state before it and a state after it. -/
theorem split_event {e : ε} (h : Run Step s₀ tr s) (he : e ∈ tr) :
    ∃ tr₁ tr₂ m m', tr = tr₁ ++ e :: tr₂ ∧ Run Step s₀ tr₁ m ∧ Step m e m' ∧ Run Step m' tr₂ s := by
  induction h with
  | nil => simp at he
  | @snoc tr s s' f hr hs ih =>
    rcases List.mem_append.mp he with hold | hnew
    · obtain ⟨tr₁, tr₂, m, m', rfl, h₁, hm, h₂⟩ := ih hold
      exact ⟨tr₁, tr₂ ++ [f], m, m', by simp, h₁, hm, h₂.snoc hs⟩
    · obtain rfl := List.mem_singleton.mp hnew
      exact ⟨tr, [], s, s', by simp, hr, hs, .nil⟩

/-- The rule of all refinements: if `f` maps every step to a step of the other system, with
the event that `g` gives it, or to no step, then it maps runs to runs. -/
theorem simulate {σ' : Type u'} {ε' : Type v'} {Step' : σ' → ε' → σ' → Prop} (f : σ → σ')
    (g : ε → Option ε')
    (step : ∀ {tr s e s'}, Run Step s₀ tr s → Step s e s' →
      (g e = none ∧ f s' = f s) ∨ ∃ e', g e = some e' ∧ Step' (f s) e' (f s'))
    (h : Run Step s₀ tr s) : Run Step' (f s₀) (tr.filterMap g) (f s) := by
  induction h with
  | nil => exact .nil
  | snoc hr hs ih =>
    rw [List.filterMap_append]
    rcases step hr hs with ⟨hnone, hsame⟩ | ⟨e', hsome, hs'⟩
    · rw [List.filterMap_cons_none hnone, List.filterMap_nil, List.append_nil, hsame]
      exact ih
    · rw [List.filterMap_cons_some hsome, List.filterMap_nil]
      exact ih.snoc hs'

end Run

end Lib
