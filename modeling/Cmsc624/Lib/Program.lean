import Cmsc624.Lib.Runs

/-!
# Programs over a memory

A program reads and writes the cells of a memory one after the other and votes in the end.
What it does next may depend on everything that it has read. Two memories that a relation
keeps in step answer every program alike (`exec_simulate`).
-/

namespace Lib

set_option autoImplicit false

universe u v w x
variable {K : Type u} {V : Type v} {σ : Type w} {τ : Type x}

/-- A read may find nothing. -/
inductive Program (K : Type u) (V : Type v) where
  | read (key : K) (next : Option V → Program K V)
  | write (key : K) (value : V) (next : Program K V)
  | finish (vote : Bool)

inductive Access (K : Type u) (V : Type v) where
  | read (key : K) (result : Option V)
  | write (key : K) (value : V)

/-- What a memory in state `σ` answers; `none` is an access that it does not survive. -/
structure Memory (K : Type u) (V : Type v) (σ : Type w) where
  read : σ → K → Option (Option V)
  write : σ → K → V → Option σ

/-- What a program has done, how it voted, and the memory that it leaves. -/
structure Outcome (K : Type u) (V : Type v) (σ : Type w) where
  log : List (Access K V)
  vote : Bool
  memory : σ

def Outcome.after (a : Access K V) (o : Outcome K V σ) : Outcome K V σ :=
  { o with log := a :: o.log }

namespace Program

def exec (m : Memory K V σ) : Program K V → σ → Option (Outcome K V σ)
  | read key next, s => (m.read s key).bind fun result =>
      ((next result).exec m s).map (Outcome.after (.read key result))
  | write key value next, s => (m.write s key value).bind fun s' =>
      (next.exec m s').map (Outcome.after (.write key value))
  | finish vote, s => some ⟨[], vote, s⟩

/-- The program reads and writes such keys only. -/
def Within (canRead canWrite : K → Prop) : Program K V → Prop
  | read key next => canRead key ∧ ∀ result, (next result).Within canRead canWrite
  | write key _ next => canWrite key ∧ next.Within canRead canWrite
  | finish _ => True

inductive Step (m : Memory K V σ) : Program K V × σ → Access K V → Program K V × σ → Prop where
  | read {s : σ} {key : K} {next : Option V → Program K V} {result : Option V}
      (h : m.read s key = some result) :
      Step m (read key next, s) (.read key result) (next result, s)
  | write {s s' : σ} {key : K} {value : V} {next : Program K V}
      (h : m.write s key value = some s') :
      Step m (write key value next, s) (.write key value) (next, s')

section Rules
variable {m : Memory K V σ} {n : Memory K V τ} {canRead canWrite : K → Prop} {prog : Program K V}
  {s : σ} {t : τ}

/-- An execution is a run of its accesses. -/
theorem run_of_exec {o : Outcome K V σ} (h : prog.exec m s = some o) :
    Run (Step m) (prog, s) o.log (finish o.vote, o.memory) := by
  induction prog generalizing s o with
  | finish vote =>
    obtain rfl := Option.some.inj h
    exact .nil
  | read key next ih =>
    obtain ⟨result, hread, h⟩ := Option.bind_eq_some_iff.mp h
    obtain ⟨o', ho', rfl⟩ := Option.map_eq_some_iff.mp h
    exact (Run.single (Step.read hread)).trans (ih result ho')
  | write key value next ih =>
    obtain ⟨s', hwrite, h⟩ := Option.bind_eq_some_iff.mp h
    obtain ⟨o', ho', rfl⟩ := Option.map_eq_some_iff.mp h
    exact (Run.single (Step.write hwrite)).trans (ih ho')

/-- The simulation rule: two memories that answer alike, and stay in step, cannot be told
apart by a program. -/
theorem exec_simulate {R : σ → τ → Prop}
    (hread : ∀ s t key, R s t → canRead key →
      ∃ result, m.read s key = some result ∧ n.read t key = some result)
    (hwrite : ∀ s t key value, R s t → canWrite key →
      ∃ s' t', m.write s key value = some s' ∧ n.write t key value = some t' ∧ R s' t')
    (hprog : prog.Within canRead canWrite) (hst : R s t) :
    ∃ log vote s' t', prog.exec m s = some ⟨log, vote, s'⟩ ∧
      prog.exec n t = some ⟨log, vote, t'⟩ ∧ R s' t' := by
  induction prog generalizing s t with
  | finish vote => exact ⟨[], vote, s, t, rfl, rfl, hst⟩
  | read key next ih =>
    obtain ⟨result, hm, hn⟩ := hread s t key hst hprog.1
    obtain ⟨log, vote, s', t', hs', ht', hR⟩ := ih result (hprog.2 result) hst
    refine ⟨.read key result :: log, vote, s', t', ?_, ?_, hR⟩
    · rw [exec, hm, Option.bind_some, hs']
      rfl
    · rw [exec, hn, Option.bind_some, ht']
      rfl
  | write key value next ih =>
    obtain ⟨s₁, t₁, hm, hn, hR₁⟩ := hwrite s t key value hst hprog.1
    obtain ⟨log, vote, s', t', hs', ht', hR⟩ := ih hprog.2 hR₁
    refine ⟨.write key value :: log, vote, s', t', ?_, ?_, hR⟩
    · rw [exec, hm, Option.bind_some, hs']
      rfl
    · rw [exec, hn, Option.bind_some, ht']
      rfl

end Rules

end Program

/-- The writes of an execution, by key. -/
def writesOf (log : List (Access K V)) : List (K × V) :=
  log.filterMap fun | .read _ _ => none | .write key value => some (key, value)

end Lib
