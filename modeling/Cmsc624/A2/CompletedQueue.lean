import Cmsc624.A2.SerialScheduler

/-!
# completed_txns_ in the serial scheduler

`ExecuteTxn` hands each transaction back through `completed_txns_`. `RunLockingScheduler`
takes it out there, `RunSerialScheduler` does not, so the queue keeps every transaction
that has been returned to a client.
-/

namespace Cmsc624.A2

open Lib

set_option autoImplicit false

/-- Completed (but not yet committed/aborted) transactions; between two iterations there is
none. -/
structure KeepsMeaning (p : Processor) : Prop where
  completed : ∀ t ∈ p.completedTxns,
    (p.txns t).status = .completedC ∨ (p.txns t).status = .completedA
  empty : p.completedTxns = []

/-- `Run` of the first request votes on the contents of the store. -/
def FirstVotes (code : TxnPtr → TxnCode) (p : Processor) : Prop :=
  ∃ t q b, p.txnRequests = t :: q ∧
    (code t).run (unrun (readAll p.storage.data (code t).keys)) = some b ∧ b.Voted

/-- What is left in the queue has been returned, and has its final status. -/
structure Leftover (p : Processor) : Prop where
  same : p.completedTxns = p.txnResults
  ended : ∀ t ∈ p.txnResults, (p.txns t).status = .committed ∨ (p.txns t).status = .aborted

section Serial
variable {code : TxnPtr → TxnCode} {p p' : Processor} {t : TxnPtr}

theorem commitOrAbort_ends (h : p.commitOrAbort t = some p') :
    p'.completedTxns = p.completedTxns ∧ p'.txnResults = p.txnResults ∧
      ((p'.txns t).status = .committed ∨ (p'.txns t).status = .aborted) ∧
      ∀ u, u ≠ t → p'.txns u = p.txns u := by
  unfold Processor.commitOrAbort at h
  split at h
  · obtain rfl := Option.some.inj h
    rw [Processor.applyWrites_eq]
    refine ⟨rfl, rfl, Or.inl (by simp), ?_⟩
    intro u hu
    exact Processor.modifyTxn_of_ne _ _ _ _ hu
  · obtain rfl := Option.some.inj h
    refine ⟨rfl, rfl, Or.inr (by simp), ?_⟩
    intro u hu
    exact Processor.modifyTxn_of_ne _ _ _ _ hu
  · cases h

theorem executeTxn_pushes {c : TxnCode} (h : p.executeTxn c t = some p') :
    p'.completedTxns = p.completedTxns ++ [t] ∧ p'.txnResults = p.txnResults ∧
      ∀ u, u ≠ t → p'.txns u = p.txns u := by
  unfold Processor.executeTxn at h
  rw [Processor.foldl_readKey] at h
  obtain ⟨p₁, h₁, rfl⟩ := Option.map_eq_some_iff.mp h
  obtain ⟨b, _, rfl⟩ := Processor.runTxn_eq_some.mp h₁
  refine ⟨rfl, rfl, ?_⟩
  intro u hu
  simp [Processor.modifyTxn_of_ne _ _ _ _ hu]

/-- One iteration leaves its transaction in both queues. -/
theorem Leftover.step (h : Leftover p) (hbody : Processor.serialBody code t p = some p') :
    Leftover p' := by
  unfold Processor.serialBody at hbody
  obtain ⟨p₂, h₂, rfl⟩ := Option.map_eq_some_iff.mp hbody
  obtain ⟨p₁, h₁, h₂⟩ := Option.bind_eq_some_iff.mp h₂
  obtain ⟨hpush, hresults, hothers⟩ := executeTxn_pushes h₁
  obtain ⟨hcompleted, hresults', hends, hothers'⟩ := commitOrAbort_ends h₂
  constructor
  · show p₂.completedTxns = p₂.txnResults ++ [t]
    rw [hcompleted, hpush, hresults', hresults, h.same]
  · intro u hu
    by_cases hut : u = t
    · subst hut
      exact hends
    · show (p₂.txns u).status = _ ∨ (p₂.txns u).status = _
      rw [hothers' u hut, hothers u hut]
      have hmem : u ∈ p₂.txnResults ++ [t] := hu
      rw [hresults', hresults] at hmem
      rcases List.mem_append.mp hmem with hold | hnew
      · exact h.ended u hold
      · exact absurd (List.mem_singleton.mp hnew) hut

theorem Leftover.run (n : Nat) (h : Leftover p)
    (hrun : Processor.runSerialScheduler code n p = some p') : Leftover p' := by
  induction n generalizing p with
  | zero =>
    obtain rfl := Option.some.inj hrun
    exact h
  | succ n ih =>
    unfold Processor.runSerialScheduler at hrun
    split at hrun
    · obtain rfl := Option.some.inj hrun
      exact h
    · split at hrun
      · exact ih h hrun
      · obtain ⟨p₁, hbody, hrest⟩ := Option.bind_eq_some_iff.mp hrun
        refine ih (Leftover.step ?_ hbody) hrest
        exact ⟨h.same, h.ended⟩

theorem commitOrAbort_of_not_voted (h : ¬(p.txns t).toBuffers.Voted) :
    p.commitOrAbort t = none := by
  unfold Processor.commitOrAbort
  split
  · rename_i hst
    exact absurd (Or.inl hst) h
  · rename_i hst
    exact absurd (Or.inr hst) h
  · rfl

/-- Without a vote the scheduler does not survive the transaction. -/
theorem serialBody_of_not_votes (hfresh : (p.txns t).Fresh)
    (h : ∀ b, (code t).run (unrun (readAll p.storage.data (code t).keys)) = some b → ¬b.Voted) :
    Processor.serialBody code t p = none := by
  rw [Processor.serialBody, Processor.executeTxn_eq p (code t) t hfresh]
  cases hb : (code t).run (unrun (readAll p.storage.data (code t).keys)) with
  | none => rfl
  | some b =>
    rw [Option.map_some, Option.bind_some, commitOrAbort_of_not_voted]
    · rfl
    · show ¬(Function.update p.txns t _ t).toBuffers.Voted
      rw [Function.update_self]
      exact h b hb

theorem keepsMeaning_of_not_votes (hcompleted : p.completedTxns = [])
    (hfresh : ∀ t ∈ p.txnRequests, (p.txns t).Fresh) (hvotes : ¬FirstVotes code p) (n : Nat)
    (hrun : Processor.runSerialScheduler code n p = some p') : KeepsMeaning p' := by
  have hself : KeepsMeaning p := by
    refine ⟨?_, hcompleted⟩
    intro t ht
    rw [hcompleted] at ht
    cases ht
  cases n with
  | zero =>
    obtain rfl := Option.some.inj hrun
    exact hself
  | succ n =>
    cases hq : p.txnRequests with
    | nil =>
      rw [runSerialScheduler_idle hq] at hrun
      obtain rfl := Option.some.inj hrun
      exact hself
    | cons t q =>
      cases hstop : p.stopped with
      | true =>
        rw [runSerialScheduler_of_stopped hstop] at hrun
        obtain rfl := Option.some.inj hrun
        exact hself
      | false =>
        have hbody : Processor.serialBody code t { p with txnRequests := q } = none := by
          apply serialBody_of_not_votes
          · exact hfresh t (hq ▸ List.mem_cons_self)
          · intro b hb hv
            exact hvotes ⟨t, q, b, hq, hb, hv⟩
        rw [Processor.runSerialScheduler_cons hstop hq, hbody] at hrun
        cases hrun

/-- The queue keeps its meaning only as long as nothing has been executed; it holds all
that has been returned. -/
theorem completed_meaning_iff (hcompleted : p.completedTxns = []) (hresults : p.txnResults = [])
    (hstop : p.stopped = false) (hfresh : ∀ t ∈ p.txnRequests, (p.txns t).Fresh) :
    ((∀ n p', Processor.runSerialScheduler code n p = some p' → KeepsMeaning p') ↔
      ¬FirstVotes code p) ∧
    ∀ n p', Processor.runSerialScheduler code n p = some p' → Leftover p' := by
  have hinit : Leftover p := by
    refine ⟨hcompleted.trans hresults.symm, ?_⟩
    intro t ht
    rw [hresults] at ht
    cases ht
  refine ⟨⟨?_, ?_⟩, fun n p' => hinit.run n⟩
  · rintro hkeeps ⟨t, q, b, hq, hb, hv⟩
    have hx : (p.txns t).Fresh := hfresh t (hq ▸ List.mem_cons_self)
    have hbody := Processor.serialBody_eq (p := { p with txnRequests := q }) hx hb hv
    have hrun : Processor.runSerialScheduler code 1 p =
        (Processor.serialBody code t { p with txnRequests := q }).bind
          (Processor.runSerialScheduler code 0) := Processor.runSerialScheduler_cons hstop hq
    rw [hbody, Option.bind_some] at hrun
    have hempty : p.completedTxns ++ [t] = [] := (hkeeps 1 _ hrun).empty
    rw [hcompleted] at hempty
    cases hempty
  · intro hvotes n p'
    exact keepsMeaning_of_not_votes hcompleted hfresh hvotes n

end Serial

def oneNoop : Processor :=
  { Processor.init (fun _ => ⟨unrun .empty, 0, 0⟩) ⟨fun _ => none⟩ with txnRequests := [0] }

theorem completed_meaning_noop :
    ∃ p', Processor.runSerialScheduler (fun _ => noop) 1 oneNoop = some p' ∧ Leftover p' ∧
      p'.txnResults = [0] := by
  have hrun : Processor.runSerialScheduler (fun _ => noop) 1 oneNoop = some _ := rfl
  refine ⟨_, hrun, (completed_meaning_iff (p := oneNoop) rfl rfl rfl ?_).2 1 _ hrun, rfl⟩
  intro t _
  rfl

/-- It has been committed and returned, and it is still in the queue. -/
theorem completed_stale : ∃ p', Processor.runSerialScheduler (fun _ => noop) 1 oneNoop = some p' ∧
    p'.completedTxns = [0] ∧ p'.txnResults = [0] ∧ (p'.txns 0).status = .committed ∧
    ¬KeepsMeaning p' := by
  refine ⟨_, rfl, rfl, rfl, rfl, ?_⟩
  intro h
  cases h.empty

end Cmsc624.A2
