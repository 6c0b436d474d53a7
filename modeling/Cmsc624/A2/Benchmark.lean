import Cmsc624.A2.Processor
import Cmsc624.Lib.Behaviour
import Mathlib.Tactic.ByContra
import Mathlib.Tactic.Push

/-!
# The Benchmark of the processor

One round of `Benchmark`: the main thread fills the processor with `active_txns`
transactions, submits a new one for each result it takes until the time is over, and takes
the rest of the results. What the processor does in between is a parameter (`Server`);
the modes are instances of it.
-/

namespace Cmsc624.A2

open Lib

set_option autoImplicit false

/-- What a step is to the main thread. -/
inductive ClientCall where
  | request (t : TxnPtr)
  | result (t : TxnPtr)

def ClientCall.requested : ClientCall → Option TxnPtr
  | .request t => some t
  | .result _ => none

def ClientCall.taken : ClientCall → Option TxnPtr
  | .request _ => none
  | .result t => some t

/-- A processor with its threads, as far as the main thread sees it. -/
structure Server (σ ε : Type) where
  Step : σ → ε → σ → Prop
  call : ε → Option ClientCall
  stopped : σ → Prop
  calls_stopped : ∀ {s e s'}, Step s e s' → call e ≠ none → stopped s' → stopped s

/-- Where the main thread is in the round. -/
inductive BenchPc where
  -- In the first loop, with `n` calls to go; none left: at the test of the clock.
  | filling (n : Nat)
  -- Before the `NewTxnRequest` in the `while`.
  | refilling
  -- In the last loop, with `n` calls to go; none left: at the deletes.
  | draining (n : Nat)

/-- Where `NewTxnRequest` is called, and what comes after it. -/
def BenchPc.submit : BenchPc → Option BenchPc
  | .filling (n + 1) => some (.filling n)
  | .refilling => some (.filling 0)
  | _ => none

/-- Where `GetTxnResult` is called; the test of the clock before it succeeds `k` times more. -/
def BenchPc.take (active : Nat) : BenchPc → Nat → Option (BenchPc × Nat)
  | .filling 0, k + 1 => some (.refilling, k)
  | .filling 0, 0 => if active = 0 then none else some (.draining (active - 1), 0)
  | .draining (n + 1), k => some (.draining n, k)
  | _, _ => none

structure Bench (σ : Type) where
  server : σ
  pc : BenchPc
  doneTxns : List TxnPtr
  txnCount : Int
  -- How often `GetTime() < start + 0.5` will still be true.
  timeLeft : Nat

variable {σ ε : Type} (srv : Server σ ε) (active : Nat)

/-- As the constructor of the processor leaves it. -/
def Bench.init (s : σ) (timeLeft : Nat) : Bench σ := ⟨s, .filling active, [], 0, timeLeft⟩

inductive BenchStep : Bench σ → ε → Bench σ → Prop where
  -- `delete p` comes after the last loop.
  | server {b : Bench σ} {e : ε} {s : σ} (hs : srv.Step b.server e s) (hcall : srv.call e = none)
      (hstop : srv.stopped s → b.pc = .draining 0) : BenchStep b e { b with server := s }
  | submit {b : Bench σ} {e : ε} {s : σ} {t : TxnPtr} {pc : BenchPc} (hpc : b.pc.submit = some pc)
      (hs : srv.Step b.server e s) (hcall : srv.call e = some (.request t)) :
      BenchStep b e { b with server := s, pc := pc }
  | take {b : Bench σ} {e : ε} {s : σ} {t : TxnPtr} {pc : BenchPc} {k : Nat} {c : Int}
      (hpc : b.pc.take active b.timeLeft = some (pc, k)) (hs : srv.Step b.server e s)
      (hcall : srv.call e = some (.result t)) (hcount : CInt.succ b.txnCount = some c) :
      BenchStep b e ⟨s, pc, b.doneTxns ++ [t], c, k⟩

def BenchPc.toSubmit (k : Nat) : BenchPc → Nat
  | .filling n => n + k
  | .refilling => 1 + k
  | .draining _ => 0

def BenchPc.toTake (active k : Nat) : BenchPc → Nat
  | .filling _ | .refilling => active + k
  | .draining n => n

def Server.requests (tr : List ε) : List TxnPtr :=
  tr.filterMap fun e => (srv.call e).bind ClientCall.requested

def Server.results (tr : List ε) : List TxnPtr :=
  tr.filterMap fun e => (srv.call e).bind ClientCall.taken

section Window
variable {srv active} {b b' : Bench σ} {tr : List ε} {e : ε} {s₀ : σ} {total k k' : Nat}
  {pc pc' : BenchPc}

theorem BenchStep.step (h : BenchStep srv active b e b') : srv.Step b.server e b'.server := by
  cases h <;> assumption

theorem BenchStep.quiet {s : σ} (hs : srv.Step b.server e s) (hcall : srv.call e = none)
    (hrunning : ¬srv.stopped s) : BenchStep srv active b e { b with server := s } :=
  .server hs hcall fun hstop => absurd hstop hrunning

/-- What the processor does in the round. -/
theorem server_of_run (h : Run (BenchStep srv active) (Bench.init active s₀ k) tr b) :
    Run srv.Step s₀ tr b.server := by
  induction h with
  | nil => exact .nil
  | snoc _ hs ih => exact ih.snoc hs.step

def serverBehaviour (b : Behaviour (BenchStep srv active) (Bench.init active s₀ k)) :
    Behaviour srv.Step s₀ := b.map Bench.server id BenchStep.step

theorem BenchPc.toSubmit_submit (active k : Nat) (h : pc.submit = some pc') :
    pc.toSubmit k = pc'.toSubmit k + 1 ∧ pc'.toTake active k = pc.toTake active k ∧
      pc'.toTake active k ≤ pc'.toSubmit k + active := by
  cases pc with
  | filling n =>
    cases n with
    | zero => cases h
    | succ n =>
      cases h
      refine ⟨?_, rfl, ?_⟩
      · simp only [toSubmit]
        omega
      · simp only [toSubmit, toTake]
        omega
  | refilling =>
    cases h
    refine ⟨?_, rfl, ?_⟩
    · simp only [toSubmit]
      omega
    · simp only [toSubmit, toTake]
      omega
  | draining n => cases h

theorem BenchPc.toTake_take (h : pc.take active k = some (pc', k')) :
    pc'.toSubmit k' = pc.toSubmit k ∧ pc.toTake active k = pc'.toTake active k' + 1 := by
  cases pc with
  | filling n =>
    cases n with
    | succ n => cases h
    | zero =>
      cases k with
      | succ k =>
        cases h
        refine ⟨?_, rfl⟩
        simp only [toSubmit]
        omega
      | zero =>
        by_cases hzero : active = 0
        · simp [take, hzero] at h
        · obtain ⟨rfl, rfl⟩ : .draining (active - 1) = pc' ∧ 0 = k' := by
            simpa [take, hzero] using h
          refine ⟨rfl, ?_⟩
          simp only [toTake]
          omega
  | refilling => cases h
  | draining n =>
    cases n with
    | zero => cases h
    | succ n =>
      cases h
      simp [toSubmit, toTake]

theorem Server.requests_concat : srv.requests (tr ++ [e]) =
    srv.requests tr ++ ((srv.call e).bind ClientCall.requested).toList := by
  unfold Server.requests
  rw [List.filterMap_append, List.filterMap_cons]
  cases (srv.call e).bind ClientCall.requested <;> rfl

theorem Server.results_concat : srv.results (tr ++ [e]) =
    srv.results tr ++ ((srv.call e).bind ClientCall.taken).toList := by
  unfold Server.results
  rw [List.filterMap_append, List.filterMap_cons]
  cases (srv.call e).bind ClientCall.taken <;> rfl

/-- Never more than `active` transactions are with the processor. -/
structure Bench.Window (srv : Server σ ε) (active total : Nat) (tr : List ε) (b : Bench σ) :
    Prop where
  done : b.doneTxns = srv.results tr
  count : b.txnCount = b.doneTxns.length
  stopped : srv.stopped b.server → b.pc = .draining 0
  submitted : (srv.requests tr).length + b.pc.toSubmit b.timeLeft = total
  taken : b.doneTxns.length + b.pc.toTake active b.timeLeft = total
  within : b.pc.toTake active b.timeLeft ≤ b.pc.toSubmit b.timeLeft + active

theorem Bench.Window.init (hs : ¬srv.stopped s₀) :
    (Bench.init active s₀ k).Window srv active (active + k) [] where
  done := rfl
  count := rfl
  stopped hstop := absurd hstop hs
  submitted := Nat.zero_add _
  taken := Nat.zero_add _
  within := by
    simp only [Bench.init, BenchPc.toTake, BenchPc.toSubmit]
    omega

theorem Bench.Window.not_stopped (w : b.Window srv active total tr)
    (hs : srv.Step b.server e b'.server) (hcall : srv.call e ≠ none)
    (hpc : b.pc ≠ .draining 0) : ¬srv.stopped b'.server :=
  fun hstop => hpc (w.stopped (srv.calls_stopped hs hcall hstop))

theorem Bench.Window.step (w : b.Window srv active total tr) (h : BenchStep srv active b e b') :
    b'.Window srv active total (tr ++ [e]) := by
  have hdone := w.done
  have hcount := w.count
  have hsubmitted := w.submitted
  have htaken := w.taken
  have hwithin := w.within
  have hstep := h.step
  cases h with
  | server hs hcall hstop =>
    constructor
    · simpa [Server.results_concat, hcall] using hdone
    · exact hcount
    · exact hstop
    · simpa [Server.requests_concat, hcall] using hsubmitted
    · exact htaken
    · exact hwithin
  | @submit _ t pc hpc hs hcall =>
    obtain ⟨hone, hsame, hle⟩ := BenchPc.toSubmit_submit active b.timeLeft hpc
    constructor
    · simpa [Server.results_concat, hcall, ClientCall.taken] using hdone
    · exact hcount
    · intro hstop
      refine absurd hstop (w.not_stopped hstep (by simp [hcall]) ?_)
      intro hend
      simp [hend, BenchPc.submit] at hpc
    · simp only [Server.requests_concat, hcall, Option.bind_some, ClientCall.requested,
        Option.toList_some, List.length_append, List.length_singleton]
      omega
    · rw [hsame]
      exact htaken
    · exact hle
  | @take _ t pc k c hpc hs hcall hc =>
    obtain ⟨hsame, hone⟩ := BenchPc.toTake_take hpc
    obtain ⟨_, rfl⟩ := CInt.succ_eq_some.mp hc
    constructor
    · rw [Server.results_concat, hcall, ← hdone]
      rfl
    · simp [hcount]
    · intro hstop
      refine absurd hstop (w.not_stopped hstep (by simp [hcall]) ?_)
      intro hend
      simp [hend, BenchPc.take] at hpc
    · rw [hsame]
      simpa [Server.requests_concat, hcall, ClientCall.requested] using hsubmitted
    · simp only [List.length_append, List.length_singleton]
      omega
    · simp only
      omega

theorem window_of_run (hs : ¬srv.stopped s₀)
    (h : Run (BenchStep srv active) (Bench.init active s₀ k) tr b) :
    b.Window srv active (active + k) tr :=
  h.invariant (I := fun tr b => b.Window srv active (active + k) tr) (Bench.Window.init hs)
    fun _ w hstep => w.step hstep

theorem Bench.Window.all_taken (w : b.Window srv active total tr) (hpc : b.pc = .draining 0) :
    (srv.requests tr).length = total ∧ b.doneTxns.length = total := by
  have hsubmitted := w.submitted
  have htaken := w.taken
  rw [hpc] at hsubmitted htaken
  exact ⟨hsubmitted, htaken⟩

theorem Bench.Window.active_le (w : b.Window srv active total tr) :
    (srv.requests tr).length ≤ b.doneTxns.length + active := by
  have hsubmitted := w.submitted
  have htaken := w.taken
  have hwithin := w.within
  omega

end Window

section End
variable {srv active} {b b' : Bench σ} {e : ε} {s₀ : σ} {timeLeft k : Nat} {pc : BenchPc}

def Server.CanSubmit (srv : Server σ ε) (s : σ) : Prop :=
  Enabled srv.Step (fun e => ∃ t, srv.call e = some (.request t)) s

def Server.CanTake (srv : Server σ ε) (s : σ) : Prop :=
  Enabled srv.Step (fun e => ∃ t, srv.call e = some (.result t)) s

def Bench.ahead (active : Nat) (b : Bench σ) : Nat :=
  b.pc.toSubmit b.timeLeft + b.pc.toTake active b.timeLeft

theorem BenchStep.call_or_quiet (h : BenchStep srv active b e b') :
    b'.ahead active < b.ahead active ∨
      (srv.call e = none ∧ b' = { b with server := b'.server }) := by
  cases h with
  | server hs hcall hstop => exact .inr ⟨hcall, rfl⟩
  | @submit _ t pc hpc hs hcall =>
    obtain ⟨hone, hsame, _⟩ := BenchPc.toSubmit_submit active b.timeLeft hpc
    left
    simp only [Bench.ahead]
    omega
  | @take _ t pc k c hpc hs hcall hc =>
    obtain ⟨hsame, hone⟩ := BenchPc.toTake_take hpc
    left
    simp only [Bench.ahead]
    omega

theorem BenchStep.ahead_le (h : BenchStep srv active b e b') :
    b'.ahead active ≤ b.ahead active := by
  rcases h.call_or_quiet with hlt | ⟨_, hsame⟩
  · exact Nat.le_of_lt hlt
  · rw [hsame]
    exact le_rfl

/-- Where no transaction is submitted, one is waited for, until the end. -/
theorem BenchPc.waits (h : pc.submit = none) (hne : pc ≠ .draining 0) (hactive : 0 < active) :
    pc.toSubmit k < pc.toTake active k ∧ ∃ pc' k', pc.take active k = some (pc', k') := by
  cases pc with
  | filling n =>
    cases n with
    | succ n => cases h
    | zero =>
      constructor
      · simp only [toSubmit, toTake]
        omega
      · cases k with
        | zero => exact ⟨_, _, if_neg (Nat.ne_of_gt hactive)⟩
        | succ k => exact ⟨_, _, rfl⟩
  | refilling => cases h
  | draining n =>
    cases n with
    | zero => exact absurd rfl hne
    | succ n => exact ⟨Nat.succ_pos n, _, _, rfl⟩

theorem no_call_of_drained {b : Bench σ} (hpc : b.pc = .draining 0) :
    ¬Enabled (BenchStep srv active) (fun e => srv.call e ≠ none) b := by
  rintro ⟨e, b', hcall, hs⟩
  cases hs with
  | server _ hnone _ => exact hcall hnone
  | submit hpc' _ _ => simp [hpc, BenchPc.submit] at hpc'
  | take hpc' _ _ _ => simp [hpc, BenchPc.take] at hpc'

/-- If the processor always takes requests, and has a result in the end for one who waits
for it, then the main thread gets through. -/
theorem eventually_drained (b : Behaviour (BenchStep srv active) (Bench.init active s₀ timeLeft))
    (hstart : ¬srv.stopped s₀) (hactive : 0 < active) (hmax : active + timeLeft < CInt.intMax)
    (hmain : b.WeaklyFair fun e => srv.call e ≠ none)
    (hsubmit : ∀ n, (srv.requests (b.events n)).length < active + timeLeft →
      srv.CanSubmit (b.state n).server)
    (htake : ∀ n, (∀ m, n ≤ m → srv.call (b.event m) = none ∧ ¬srv.stopped (b.state m).server ∧
        (srv.results (b.events m)).length < (srv.requests (b.events m)).length) →
      ∃ N, n ≤ N ∧ ∀ m, N ≤ m → srv.CanTake (b.state m).server) :
    ∃ n, (b.state n).pc = .draining 0 := by
  by_contra hnever
  push Not at hnever
  have w := fun m => window_of_run hstart (b.run m)
  -- the main thread makes only so many calls
  obtain ⟨n, _, hsteady⟩ := eventually_steady (f := fun m => (b.state m).ahead active) (n := 0)
    fun m _ => (b.step m).ahead_le
  have hquiet : ∀ m, n ≤ m → srv.call (b.event m) = none ∧
      b.state (m + 1) = { b.state m with server := (b.state (m + 1)).server } := by
    intro m hm
    apply (b.step m).call_or_quiet.resolve_left
    have hnow := hsteady m hm
    have hnext := hsteady (m + 1) (by omega)
    omega
  have hstays : ∀ m, n ≤ m → (b.state m).pc = (b.state n).pc ∧
      (b.state m).timeLeft = (b.state n).timeLeft := by
    intro m hm
    induction m, hm using Nat.le_induction with
    | base => exact ⟨rfl, rfl⟩
    | succ m hm ih =>
      rw [(hquiet m hm).2]
      exact ih
  cases hpc : (b.state n).pc.submit with
  | some pc =>
    obtain ⟨hone, _⟩ := BenchPc.toSubmit_submit active (b.state n).timeLeft hpc
    obtain ⟨m, hm, hcall⟩ := hmain n fun m hm => by
      have hsubmitted := (w m).submitted
      rw [(hstays m hm).1, (hstays m hm).2] at hsubmitted
      obtain ⟨e, s', ⟨t, ht⟩, hs⟩ := hsubmit m (by omega)
      exact ⟨e, _, by simp [ht], .submit (by rw [(hstays m hm).1, hpc]) hs ht⟩
    exact hcall (hquiet m hm).1
  | none =>
    obtain ⟨hlt, pc', k', hpc'⟩ := BenchPc.waits (k := (b.state n).timeLeft) hpc (hnever n) hactive
    obtain ⟨N, hN, hcan⟩ := htake n fun m hm => by
      have hsubmitted := (w m).submitted
      have htaken := (w m).taken
      rw [(hstays m hm).1, (hstays m hm).2] at hsubmitted htaken
      rw [(w m).done] at htaken
      exact ⟨(hquiet m hm).1, fun hstop => hnever m ((w m).stopped hstop), by omega⟩
    obtain ⟨m, hm, hcall⟩ := hmain N fun m hm => by
      have hcount : (b.state m).txnCount < CInt.intMax := by
        have htaken := (w m).taken
        rw [(w m).count]
        omega
      obtain ⟨e, s', ⟨t, ht⟩, hs⟩ := hcan m hm
      have htake' : (b.state m).pc.take active (b.state m).timeLeft = some (pc', k') := by
        rw [(hstays m (by omega)).1, (hstays m (by omega)).2, hpc']
      exact ⟨e, _, by simp [ht], .take htake' hs ht (CInt.succ_eq_some.mpr ⟨hcount, rfl⟩)⟩
    exact hcall (hquiet m (by omega)).1

end End

end Cmsc624.A2
