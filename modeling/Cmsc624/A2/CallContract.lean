import Cmsc624.A2.Deadlock
import Cmsc624.A2.TxnTypes

/-!
# The calling contract of the lock manager

`lock_manager.h` requires that no pair of a transaction and a key is requested twice.
The scheduler requests every key of `readset_` and then every key of `writeset_`, and
releases them the same way. For transactions that would pass `CheckReadWriteSets` it
keeps the contract; for the others, which nothing keeps out, it does not.
-/

namespace Cmsc624.A2

open Lib

set_option autoImplicit false

/-- The pairs passed to `ReadLock` and `WriteLock`, in order. -/
def calls (tr : List Event) : List (TxnPtr × Key) :=
  tr.filterMap fun | .lock t c _ => some (t, c.key) | _ => none

def releases (tr : List Event) : List (TxnPtr × Key) :=
  tr.filterMap fun | .release t k _ => some (t, k) | _ => none

@[simp] theorem calls_append (tr tr' : List Event) :
    calls (tr ++ tr') = calls tr ++ calls tr' := List.filterMap_append

@[simp] theorem releases_append (tr tr' : List Event) :
    releases (tr ++ tr') = releases tr ++ releases tr' := List.filterMap_append

/-- What the request loops still have to call. -/
def SchedPc.toRequest : SchedPc → List (TxnPtr × Key)
  | .locking t rest _ => rest.map fun c => (t, c.key)
  | _ => []

def SchedPc.toRelease : SchedPc → List (TxnPtr × Key)
  | .releasing t rest => rest.map fun k => (t, k)
  | _ => []

def pairs (code : TxnPtr → TxnCode) (t : TxnPtr) : List (TxnPtr × Key) :=
  (code t).keys.map fun k => (t, k)

variable {lm : LockManager} {code : TxnPtr → TxnCode} {ts : List TxnPtr} {tr : List Event}
  {s s' : State lm} {e : Event} {txns : TxnPtr → Txn} {storage : Storage} {t : TxnPtr}

theorem toRequest_lockCalls (t : TxnPtr) (b : Bool) :
    (SchedPc.locking t (code t).lockCalls b).toRequest = pairs code t := by
  rw [SchedPc.toRequest, pairs, ← TxnCode.lockCalls_keys, List.map_map]
  rfl

theorem calls_eq (h : Runs code txns storage ts tr s) :
    calls tr ++ s.sched.toRequest = (popped tr).flatMap (pairs code) := by
  refine h.invariant (I := fun tr s => calls tr ++ s.sched.toRequest =
    (popped tr).flatMap (pairs code)) rfl fun {tr s e s'} _ ih hstep => ?_
  rw [calls_append, popped_append, List.flatMap_append, ← ih, List.append_assoc, List.append_assoc]
  congr 1
  cases hstep with
  | pop hpc hs hq =>
    rw [hpc, toRequest_lockCalls]
    simp [calls, popped, SchedPc.toRequest]
  | lock hpc => simp [calls, popped, SchedPc.toRequest, hpc]
  | request _ _ => simp [calls, popped]
  | result _ => simp [calls, popped]
  | stop => simp [calls, popped]
  | start _ => simp [calls, popped]
  | size _ => simp [calls, popped]
  | read _ => simp [calls, popped]
  | run _ _ => simp [calls, popped]
  | complete _ => simp [calls, popped]
  | dispatch hpc _ => simp [calls, popped]
  | _ hpc => simp [calls, popped, SchedPc.toRequest, hpc]

theorem releases_eq (h : Runs code txns storage ts tr s) :
    releases tr ++ s.sched.toRelease = (finished tr).flatMap (pairs code) := by
  refine h.invariant (I := fun tr s => releases tr ++ s.sched.toRelease =
    (finished tr).flatMap (pairs code)) rfl fun {tr s e s'} _ ih hstep => ?_
  rw [releases_append, finished_append, List.flatMap_append, ← ih, List.append_assoc,
    List.append_assoc]
  congr 1
  cases hstep with
  | abort hpc _ => simp [releases, finished, SchedPc.toRelease, hpc, pairs]
  | mark hpc => simp [releases, finished, SchedPc.toRelease, hpc, pairs]
  | release hpc => simp [releases, finished, SchedPc.toRelease, hpc]
  | request _ _ => simp [releases, finished]
  | result _ => simp [releases, finished]
  | stop => simp [releases, finished]
  | start _ => simp [releases, finished]
  | size _ => simp [releases, finished]
  | read _ => simp [releases, finished]
  | run _ _ => simp [releases, finished]
  | complete _ => simp [releases, finished]
  | dispatch hpc _ => simp [releases, finished]
  | _ hpc => simp [releases, finished, SchedPc.toRelease, hpc]

theorem flatMap_pairs_nodup (code : TxnPtr → TxnCode) {l : List TxnPtr} (hl : l.Nodup)
    (hcode : ∀ t ∈ l, (code t).checkReadWriteSets) : (l.flatMap (pairs code)).Nodup := by
  refine List.nodup_flatMap.mpr ⟨fun t ht => ?_, ?_⟩
  · exact (TxnCode.keys_nodup (hcode t ht)).map fun _ _ heq => (Prod.mk.inj heq).2
  · refine hl.imp fun hne => ?_
    intro x hx hx'
    obtain ⟨_, _, rfl⟩ := List.mem_map.mp hx
    obtain ⟨_, _, heq⟩ := List.mem_map.mp hx'
    exact hne (Prod.mk.inj heq).1.symm

structure CallContract (tr : List Event) : Prop where
  requested_once : (calls tr).Nodup
  released_once : (releases tr).Nodup
  released_requested : ∀ p ∈ releases tr, p ∈ calls tr
  -- When a transaction is delivered all its pairs have been released.
  all_released : ∀ t, Event.deliver t ∈ tr → ∀ k, (t, k) ∈ calls tr → (t, k) ∈ releases tr

theorem mem_pairs {t u : TxnPtr} {k : Key} (h : (t, k) ∈ pairs code u) :
    t = u ∧ k ∈ (code t).keys := by
  obtain ⟨j, hj, heq⟩ := List.mem_map.mp h
  obtain ⟨rfl, rfl⟩ := Prod.mk.inj heq
  exact ⟨rfl, hj⟩

theorem mem_flatMap_pairs {l : List TxnPtr} {t : TxnPtr} {k : Key} :
    (t, k) ∈ l.flatMap (pairs code) ↔ t ∈ l ∧ k ∈ (code t).keys := by
  rw [List.mem_flatMap]
  constructor
  · rintro ⟨u, hu, hk⟩
    obtain ⟨rfl, hkey⟩ := mem_pairs hk
    exact ⟨hu, hkey⟩
  · exact fun ⟨ht, hk⟩ => ⟨t, ht, List.mem_map_of_mem hk⟩

theorem calls_nodup (hts : ts.Nodup) (hcode : ∀ t ∈ ts, (code t).checkReadWriteSets)
    (h : Runs code txns storage ts tr s) : (calls tr).Nodup := by
  have adm := admitted_of_run hts h
  have hnodup := adm.popped_sublist.nodup (adm.requested_nodup hts)
  have hall := flatMap_pairs_nodup code hnodup fun t ht =>
    hcode t (adm.mem_ts (adm.popped_sublist.subset ht))
  rw [← calls_eq h] at hall
  exact (List.nodup_append.mp hall).1

theorem releases_nodup (spec : LateGrant lm) (hts : ts.Nodup)
    (hcode : ∀ t ∈ ts, (code t).checkReadWriteSets) (h : Runs code txns storage ts tr s) :
    (releases tr).Nodup := by
  have adm := admitted_of_run hts h
  obtain ⟨hnodup, hsub⟩ := finished_log spec hts hcode h
  have hall := flatMap_pairs_nodup code hnodup fun t ht =>
    hcode t (adm.mem_ts (adm.popped_sublist.subset (hsub t ht)))
  rw [← releases_eq h] at hall
  exact (List.nodup_append.mp hall).1

theorem delivered_stays (spec : LateGrant lm) (hts : ts.Nodup)
    (hcode : ∀ t ∈ ts, (code t).checkReadWriteSets) (h : Runs code txns storage ts tr s)
    (ht : Event.deliver t ∈ tr) : t ∈ s.txnResults ∨ t ∈ s.handed := by
  obtain ⟨tr₁, tr₂, m, m', rfl, h₁, hm, h₂⟩ := h.split_event ht
  have hres : t ∈ m'.txnResults := by
    cases hm with
    | deliver hpc => exact List.mem_append_right _ (List.mem_singleton_self t)
  exact ((custody_of_run spec hts hcode (h₁.snoc hm)).unchanged hcode (.inl hres) h₂).1

theorem sched_of_toRequest {pc : SchedPc} {k : Key} (h : (t, k) ∈ pc.toRequest) :
    ∃ rest b, pc = .locking t rest b := by
  cases pc with
  | locking u rest b =>
    obtain ⟨c, _, heq⟩ := List.mem_map.mp h
    exact ⟨rest, b, by rw [(Prod.mk.inj heq).1]⟩
  | _ => exact absurd h List.not_mem_nil

theorem sched_of_toRelease {pc : SchedPc} {k : Key} (h : (t, k) ∈ pc.toRelease) :
    ∃ rest, pc = .releasing t rest := by
  cases pc with
  | releasing u rest =>
    obtain ⟨j, _, heq⟩ := List.mem_map.mp h
    exact ⟨rest, by rw [(Prod.mk.inj heq).1]⟩
  | _ => exact absurd h List.not_mem_nil

theorem ended_of_finished (spec : LateGrant lm) (hts : ts.Nodup)
    (hcode : ∀ t ∈ ts, (code t).checkReadWriteSets) (h : Runs code txns storage ts tr s)
    (hfin : t ∈ finished tr) {pl : Place} (hmem : (t, pl) ∈ s.places) : pl.Ended :=
  (mem_finished_iff spec hts hcode h (.inl hmem)
    ((custody_of_run spec hts hcode h).known t (mem_names_of_mem hmem))).mp hfin

theorem contract_of_run (spec : LateGrant lm) (hts : ts.Nodup)
    (hcode : ∀ t ∈ ts, (code t).checkReadWriteSets) (h : Runs code txns storage ts tr s) :
    CallContract tr where
  requested_once := calls_nodup hts hcode h
  released_once := releases_nodup spec hts hcode h
  released_requested := by
    rintro ⟨t, k⟩ hp
    have hmem : (t, k) ∈ (finished tr).flatMap (pairs code) := by
      rw [← releases_eq h]
      exact List.mem_append_left _ hp
    obtain ⟨hfin, hk⟩ := mem_flatMap_pairs.mp hmem
    have hcall := mem_flatMap_pairs.mpr ⟨(finished_log spec hts hcode h).2 t hfin, hk⟩
    rw [← calls_eq h] at hcall
    refine (List.mem_append.mp hcall).resolve_right fun hreq => ?_
    obtain ⟨rest, b, hpc⟩ := sched_of_toRequest hreq
    exact ended_of_finished spec hts hcode h hfin (locking_mem_places.mpr ⟨b, hpc⟩)
  all_released := by
    intro t ht k hk
    have inv := custody_of_run spec hts hcode h
    obtain ⟨pl, hpl, hmem⟩ : ∃ pl, (pl = .result ∨ pl = .handed) ∧ (t, pl) ∈ s.places := by
      rcases delivered_stays spec hts hcode h ht with hr | hh
      · exact ⟨.result, .inl rfl, mem_places.mpr hr⟩
      · exact ⟨.handed, .inr rfl, mem_places.mpr hh⟩
    have hts' := inv.known t (mem_names_of_mem hmem)
    have hfin := (mem_finished_iff spec hts hcode h (.inl hmem) hts').mpr (ended_of_result hpl)
    have hcall : (t, k) ∈ (popped tr).flatMap (pairs code) := by
      rw [← calls_eq h]
      exact List.mem_append_left _ hk
    have hrel := mem_flatMap_pairs.mpr ⟨hfin, (mem_flatMap_pairs.mp hcall).2⟩
    rw [← releases_eq h] at hrel
    refine (List.mem_append.mp hrel).resolve_right fun hleft => ?_
    obtain ⟨rest, hpc⟩ := sched_of_toRelease hleft
    have hreleasing : (t, Place.releasing rest) ∈ s.places := mem_places.mpr hpc
    obtain rfl := inv.place_unique hreleasing hmem
    simp at hpl

/-- The scheduler keeps the contract in every run in which each transaction is submitted
once and has disjoint key sets, and then nobody is blocked behind its own request. -/
theorem contract_of_disjoint (hts : ts.Nodup) (hcode : ∀ t ∈ ts, (code t).checkReadWriteSets)
    (h : Runs code txns storage ts tr s) :
    (calls tr).Nodup ∧ (LateGrant lm → CallContract tr) ∧
      ∀ (ccMode : CCMode) (doc : Documented lm ccMode) (t : TxnPtr), ¬WaitsFor doc s t t :=
  ⟨calls_nodup hts hcode h, fun spec => contract_of_run spec hts hcode h, fun _ doc t hwait =>
    waitsFor_acyclic (twoPhase_of_run doc hts hcode h) (admitted_of_run hts h) t (.single hwait)⟩

theorem contract_of_disjoint_rmw : ∃ tr, ∃ s : State (queueLockManager .locking),
    s.txnResults = [0, 1] ∧ Event.release 0 6 [1] ∈ tr ∧ CallContract tr := by
  obtain ⟨tr, s, h, _, _, _, hrelease, hres⟩ := rmw_run
  exact ⟨tr, s, hres, hrelease, (contract_of_disjoint (by decide) (fun _ _ => by decide) h).2.1
    (queueDocumented .locking).lateGrant⟩

/-- The constructor of `RMW` takes overlapping sets, and nothing checks them: key 5 is
requested twice, and the transaction waits for itself. -/
theorem overlap_breaks_contract : ∃ tr, ∃ s : State (queueLockManager .locking),
    Runs (fun _ => rmw (.singleton 5) (.singleton 5)) (fun _ => ⟨unrun .empty, 0, 0⟩)
      ⟨fun _ => none⟩ [0] tr s ∧
    ¬(calls tr).Nodup ∧ WaitsFor (queueDocumented .locking) s 0 0 := by
  have run : Runs (fun _ => rmw (.singleton 5) (.singleton 5))
      (fun _ => ⟨unrun .empty, 0, 0⟩) ⟨fun _ => none⟩ [0] []
      (State.init (queueLockManager .locking) _ _ _) := .nil
  have run := run.snoc
    (.request (a := []) rfl (Processor.newTxnRequest_eq_some.mpr ⟨by decide, rfl⟩))
  have run := run.snoc (.pop rfl rfl rfl)
  have run := run.snoc (.lock rfl)
  have run := run.snoc (.lock rfl)
  refine ⟨_, _, run, ?_, ?_⟩
  · simp [calls]
  · refine ⟨5, ⟨.exclusive, 0⟩, ⟨.shared, 0⟩, ?_⟩
    decide

end Cmsc624.A2
