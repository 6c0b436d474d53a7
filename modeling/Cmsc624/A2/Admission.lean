import Cmsc624.A2.LifeCycle

/-!
# Requests are admitted in the order of their ids

`NewTxnRequest` numbers the transactions and queues them in one critical section, and
the scheduler pops them from the front. So the order of submission, the order of the
unique ids and the order of admission are the same, whatever the lock manager does.
-/

namespace Cmsc624.A2

open Lib

set_option autoImplicit false

def requested (tr : List Event) : List TxnPtr :=
  tr.filterMap fun | .request t => some t | _ => none

def popped (tr : List Event) : List TxnPtr :=
  tr.filterMap fun | .pop t => some t | _ => none

@[simp] theorem requested_append (tr tr' : List Event) :
    requested (tr ++ tr') = requested tr ++ requested tr' := List.filterMap_append

@[simp] theorem popped_append (tr tr' : List Event) :
    popped (tr ++ tr') = popped tr ++ popped tr' := List.filterMap_append

theorem mem_requested {tr : List Event} {t : TxnPtr} : t ∈ requested tr ↔ Event.request t ∈ tr := by
  unfold requested
  rw [List.mem_filterMap]
  constructor
  · rintro ⟨e, he, hte⟩
    cases e <;> simp_all
  · exact fun h => ⟨_, h, rfl⟩

variable {lm : LockManager} {code : TxnPtr → TxnCode} {txns : TxnPtr → Txn} {storage : Storage}
  {ts : List TxnPtr} {tr : List Event} {s s' : State lm} {e : Event}

/-- What a step does to the request queue and to the ids. -/
inductive AdmissionEffect (s : State lm) (e : Event) (s' : State lm) : Prop where
  | request (t : TxnPtr) (a b : List TxnPtr) (he : e = .request t) (hc : s.clients = a ++ t :: b)
      (hc' : s'.clients = a ++ b) (hlt : s.nextUniqueId < CInt.intMax)
      (hnext : s'.nextUniqueId = s.nextUniqueId + 1) (hq : s'.txnRequests = s.txnRequests ++ [t])
      (hid : (s'.txns t).uniqueId = CInt.toUInt64 s.nextUniqueId)
      (hids : ∀ u, u ≠ t → (s'.txns u).uniqueId = (s.txns u).uniqueId)
  | pop (t : TxnPtr) (he : e = .pop t) (hq : s.txnRequests = t :: s'.txnRequests)
      (hc : s'.clients = s.clients) (hnext : s'.nextUniqueId = s.nextUniqueId)
      (hids : ∀ u, (s'.txns u).uniqueId = (s.txns u).uniqueId)
  | other (hreq : requested [e] = []) (hpop : popped [e] = [])
      (hq : s'.txnRequests = s.txnRequests) (hc : s'.clients = s.clients)
      (hnext : s'.nextUniqueId = s.nextUniqueId)
      (hids : ∀ u, (s'.txns u).uniqueId = (s.txns u).uniqueId)

theorem step_admission (h : Step code s e s') : AdmissionEffect s e s' := by
  cases h with
  | request hc hp =>
    obtain ⟨hlt, rfl⟩ := Processor.newTxnRequest_eq_some.mp hp
    exact .request _ _ _ rfl hc rfl hlt rfl rfl (by simp) fun u hu => by
      simp [Processor.modifyTxn_of_ne _ _ _ _ hu]
  | pop hpc hs hq => exact .pop _ rfl hq rfl rfl fun _ => rfl
  | run hrun hp =>
    obtain ⟨b, _, rfl⟩ := Processor.runTxn_eq_some.mp hp
    exact .other rfl rfl rfl rfl rfl fun _ => update_field Txn.uniqueId rfl
  | abort _ _ => exact .other rfl rfl rfl rfl rfl fun _ => update_field Txn.uniqueId rfl
  | mark _ => exact .other rfl rfl rfl rfl rfl fun _ => update_field Txn.uniqueId rfl
  | size _ => exact .other rfl rfl rfl rfl rfl fun _ => update_field Txn.uniqueId rfl
  | read _ => exact .other rfl rfl rfl rfl rfl fun _ => update_field Txn.uniqueId rfl
  | _ => exact .other rfl rfl rfl rfl rfl fun _ => rfl

/-- Submission, numbering and admission agree. -/
structure Admitted (ts : List TxnPtr) (tr : List Event) (s : State lm) : Prop where
  all : (s.clients ++ requested tr).Perm ts
  fifo : requested tr = popped tr ++ s.txnRequests
  next_eq : s.nextUniqueId = 1 + (requested tr).length
  next_le : s.nextUniqueId ≤ CInt.intMax
  below : ∀ t ∈ requested tr, ((s.txns t).uniqueId : Int) < s.nextUniqueId
  ascending : (requested tr).Pairwise fun t u => (s.txns t).uniqueId < (s.txns u).uniqueId

theorem Admitted.init : Admitted ts [] (State.init lm txns storage ts) where
  all := by simp [State.init, requested]
  fifo := rfl
  next_eq := rfl
  next_le := (by decide : (1 : Int) ≤ CInt.intMax)
  below := by simp [requested]
  ascending := .nil

theorem Admitted.notMem_of_client (adm : Admitted ts tr s) (hts : ts.Nodup) {t : TxnPtr}
    (ht : t ∈ s.clients) : t ∉ requested tr := fun hreq =>
  (List.nodup_append.mp (adm.all.nodup_iff.mpr hts)).2.2 t ht t hreq rfl

theorem Admitted.notMem_clients (adm : Admitted ts tr s) (hts : ts.Nodup) {t : TxnPtr}
    (ht : t ∈ requested tr) : t ∉ s.clients := fun hc => adm.notMem_of_client hts hc ht

theorem Admitted.requested_nodup (adm : Admitted ts tr s) (hts : ts.Nodup) :
    (requested tr).Nodup :=
  (List.nodup_append.mp (adm.all.nodup_iff.mpr hts)).2.1

theorem Admitted.mem_ts (adm : Admitted ts tr s) {t : TxnPtr} (ht : t ∈ requested tr) : t ∈ ts :=
  adm.all.mem_iff.mp (List.mem_append_right _ ht)

theorem Admitted.popped_sublist (adm : Admitted ts tr s) : (popped tr).Sublist (requested tr) := by
  rw [adm.fifo]
  exact List.sublist_append_left _ _

theorem Admitted.same_ids (adm : Admitted ts tr s) (hreq : requested [e] = [])
    (hfifo : requested tr = popped (tr ++ [e]) ++ s'.txnRequests) (hc : s'.clients = s.clients)
    (hnext : s'.nextUniqueId = s.nextUniqueId)
    (hids : ∀ u, (s'.txns u).uniqueId = (s.txns u).uniqueId) : Admitted ts (tr ++ [e]) s' where
  all := by simpa [hreq, hc] using adm.all
  fifo := by rw [requested_append, hreq, List.append_nil, hfifo]
  next_eq := by rw [hnext, adm.next_eq, requested_append, hreq, List.append_nil]
  next_le := hnext ▸ adm.next_le
  below := by simpa [hreq, hids, hnext] using adm.below
  ascending := by simpa [hreq, hids] using adm.ascending

theorem Admitted.step (adm : Admitted ts tr s) (hts : ts.Nodup) (h : Step code s e s') :
    Admitted ts (tr ++ [e]) s' := by
  cases step_admission h with
  | pop t he hq hc hnext hids =>
    subst he
    refine adm.same_ids rfl ?_ hc hnext hids
    rw [adm.fifo, hq]
    simp [popped]
  | other hreq hpop hq hc hnext hids =>
    refine adm.same_ids hreq ?_ hc hnext hids
    rw [adm.fifo, hq]
    simp [hpop]
  | request t a b he hc hc' hlt hnext hq hid hids =>
    subst he
    have hnew : t ∉ requested tr := adm.notMem_of_client hts (by simp [hc])
    have hsame : ∀ u ∈ requested tr, (s'.txns u).uniqueId = (s.txns u).uniqueId := by
      intro u hu
      exact hids u fun heq => hnew (heq ▸ hu)
    have hnum : ((s'.txns t).uniqueId : Int) = s.nextUniqueId := by
      rw [hid]
      refine CInt.toUInt64_of_le ?_ adm.next_le
      rw [adm.next_eq]
      omega
    have hreq : requested (tr ++ [.request t]) = requested tr ++ [t] := by simp [requested]
    constructor
    · rw [hreq, hc']
      refine List.Perm.trans ?_ adm.all
      rw [hc, List.perm_iff_count]
      intro x
      simp only [List.count_append, List.count_cons, List.count_nil]
      omega
    · rw [hreq, adm.fifo, hq]
      simp [popped]
    · rw [hnext, hreq, adm.next_eq, List.length_append, List.length_singleton]
      omega
    · rw [hnext]
      exact hlt
    · rw [hreq, hnext]
      intro u hu
      rcases List.mem_append.mp hu with hold | hu
      · rw [hsame u hold]
        have hlt := adm.below u hold
        omega
      · rw [List.mem_singleton.mp hu, hnum]
        exact Int.lt_succ _
    · rw [hreq]
      refine List.pairwise_append.mpr ⟨?_, List.pairwise_singleton _ _, ?_⟩
      · refine adm.ascending.imp_of_mem fun hx hy hlt => ?_
        rwa [hsame _ hx, hsame _ hy]
      · intro u hu v hv
        have hlt := adm.below u hu
        rw [List.mem_singleton.mp hv]
        rw [← hnum, ← hsame u hu] at hlt
        exact Int.ofNat_lt.mp hlt

theorem admitted_of_run (hts : ts.Nodup) (h : Runs code txns storage ts tr s) : Admitted ts tr s :=
  h.invariant Admitted.init fun _ adm hstep => adm.step hts hstep

end Cmsc624.A2
