import Cmsc624.A2.Accounting
import Cmsc624.A2.Isolation

/-!
# Freedom from deadlock

All requests of a transaction are made in one pass of one thread, so every queue is in
the order of admission. Nobody waits in a circle, and the oldest transaction that still
has its locks has all of them.
-/

namespace Cmsc624.A2

open Lib

set_option autoImplicit false

variable {lm : LockManager} {code : TxnPtr → TxnCode} {ccMode : CCMode}
  {doc : Documented lm ccMode} {ts : List TxnPtr} {tr : List Event} {s : State lm}
  {txns : TxnPtr → Txn} {storage : Storage} {t u : TxnPtr}

/-- On some key `t` has a request that is not granted, and `u` one ahead of it. -/
def WaitsFor (doc : Documented lm ccMode) (s : State lm) (t u : TxnPtr) : Prop :=
  ∃ k r r', [r', r].Sublist (doc.table s.lockState k) ∧ r.txn = t ∧ r'.txn = u ∧
    r ∉ owners (doc.table s.lockState k)

theorem WaitsFor.lt (two : TwoPhase doc code ts tr s) (adm : Admitted ts tr s)
    (h : WaitsFor doc s t u) : (s.txns u).uniqueId < (s.txns t).uniqueId := by
  obtain ⟨k, r, r', hsub, rfl, rfl, _⟩ := h
  exact List.pairwise_iff_forall_sublist.mp (two.ascending adm k) hsub

/-- Waiting goes from larger ids to smaller ones. -/
theorem waitsFor_acyclic (two : TwoPhase doc code ts tr s) (adm : Admitted ts tr s) (t : TxnPtr) :
    ¬Relation.TransGen (WaitsFor doc s) t t := by
  have hlt : ∀ {u}, Relation.TransGen (WaitsFor doc s) t u →
      (s.txns u).uniqueId < (s.txns t).uniqueId := by
    intro u h
    induction h with
    | single h => exact h.lt two adm
    | tail _ h ih => exact (h.lt two adm).trans ih
  exact fun h => lt_irrefl _ (hlt h)

/-- The first popped transaction that has not ended. -/
def earliest (tr : List Event) : Option TxnPtr :=
  (popped tr).find? fun t => t ∉ finished tr

theorem exists_earliest (ht : t ∈ popped tr) (hfin : t ∉ finished tr) :
    ∃ u, earliest tr = some u := by
  refine Option.isSome_iff_exists.mp (List.find?_isSome.mpr ⟨t, ht, ?_⟩)
  simpa using hfin

theorem earliest_eq_some (adm : Admitted ts tr s) (h : earliest tr = some u) :
    u ∈ popped tr ∧ u ∉ finished tr ∧ ∀ t ∈ popped tr,
      (s.txns t).uniqueId < (s.txns u).uniqueId → t ∈ finished tr := by
  obtain ⟨hu, as, bs, hpop, has⟩ := List.find?_eq_some_iff_append.mp h
  refine ⟨by simp [hpop], by simpa using hu, fun t ht hlt => ?_⟩
  have hasc := adm.ascending.sublist adm.popped_sublist
  rw [hpop] at ht hasc
  rcases List.mem_append.mp ht with ht | ht
  · simpa using has t ht
  · have hbs := (List.pairwise_cons.mp (List.pairwise_append.mp hasc).2.1).1
    rcases List.mem_cons.mp ht with rfl | ht
    · exact absurd hlt (lt_irrefl _)
    · exact absurd hlt (lt_asymm (hbs t ht))

theorem notMem_table_of_finished (hts : ts.Nodup) (hcode : ∀ t ∈ ts, (code t).checkReadWriteSets)
    (h : Runs code txns storage ts tr s) (two : TwoPhase doc code ts tr s) (htop : s.sched = .top)
    {k : Key} {r : LockRequest} (hr : r ∈ doc.table s.lockState k) : r.txn ∉ finished tr := by
  obtain ⟨t, ht, call, _, ⟨pl, hat, ho⟩, _, rfl⟩ := (two.table k r).mp hr
  intro hfin
  have hend := (mem_finished_iff doc.lateGrant hts hcode h hat ht).mp hfin
  rcases hat with hmem | ⟨_, rfl⟩
  · rw [mem_places] at hmem
    cases pl <;> simp_all [Place.Owes, Place.Ended, State.Occupies]
  · exact hend

/-- The oldest transaction that has not ended is at the head of its queues. -/
theorem earliest_owns (hts : ts.Nodup) (hcode : ∀ t ∈ ts, (code t).checkReadWriteSets)
    (h : Runs code txns storage ts tr s) (two : TwoPhase doc code ts tr s) (htop : s.sched = .top)
    (hu : earliest tr = some u) {k : Key} {r : LockRequest} (hr : r ∈ doc.table s.lockState k)
    (hru : r.txn = u) : r ∈ owners (doc.table s.lockState k) := by
  have adm := admitted_of_run hts h
  obtain ⟨_, _, hfirst⟩ := earliest_eq_some adm hu
  obtain ⟨a, b, hq⟩ := List.append_of_mem hr
  have hasc := two.ascending adm k
  have hnil : a = [] := by
    refine List.eq_nil_iff_forall_not_mem.mpr fun r' hr' => ?_
    have hmem : r' ∈ doc.table s.lockState k := by
      rw [hq]
      exact List.mem_append_left _ hr'
    have hpop : r'.txn ∈ popped tr := (two.order k).subset (List.mem_map_of_mem hmem)
    rw [hq] at hasc
    have hlt := (List.pairwise_append.mp hasc).2.2 r' hr' r List.mem_cons_self
    rw [hru] at hlt
    exact notMem_table_of_finished hts hcode h two htop hmem (hfirst _ hpop hlt)
  rw [hq, hnil]
  exact LockQueue.head_mem_holders

/-- The locking scheduler does not deadlock. -/
theorem no_deadlock (doc : Documented lm ccMode) (hts : ts.Nodup)
    (hcode : ∀ t ∈ ts, (code t).checkReadWriteSets) (h : Runs code txns storage ts tr s)
    (htop : s.sched = .top) :
    (∀ t ∈ popped tr, t ∉ finished tr → ∃ u, earliest tr = some u ∧
      (∀ call ∈ (code u).lockCalls,
        call.request ccMode u ∈ owners (doc.table s.lockState call.key)) ∧
      ¬Waiting (doc.table s.lockState) u ∧
      (u ∈ s.pool ∨ (∃ pc, (u, pc) ∈ s.running) ∨ u ∈ s.completedTxns)) ∧
    ∀ t, ¬Relation.TransGen (WaitsFor doc s) t t := by
  have two := twoPhase_of_run doc hts hcode h
  have adm := admitted_of_run hts h
  have inv := custody_of_run doc.lateGrant hts hcode h
  refine ⟨fun t ht hfin => ?_, waitsFor_acyclic two adm⟩
  obtain ⟨u, hu⟩ := exists_earliest ht hfin
  obtain ⟨hpop, hno, _⟩ := earliest_eq_some adm hu
  obtain ⟨huts, pl, hat, howes⟩ := owes_of_popped doc hts hcode h hpop hno (by simp [htop])
  have hwait : ¬Waiting (doc.table s.lockState) u := by
    rintro ⟨k, r, hr, hru, hnot⟩
    exact hnot (earliest_owns hts hcode h two htop hu hr hru)
  refine ⟨u, hu, fun call hcall => ?_, hwait, ?_⟩
  · exact earliest_owns hts hcode h two htop hu (two.mem_table huts hcall hat (howes call)) rfl
  · have hready := readyTxns_at_top h (.inl htop)
    rcases hat with hmem | ⟨hnames, _⟩
    · have hmem := mem_places.mp hmem
      have howe := howes ⟨false, 0⟩
      cases pl with
      | pooled => exact .inl hmem
      | running pc => exact .inr (.inl ⟨pc, hmem⟩)
      | completed => exact .inr (.inr hmem)
      | _ => simp_all [Place.Owes, State.Occupies]
    · exact absurd ((inv.placed u huts).resolve_left hnames) hwait

/-- The second transaction waits for the first, which is in the pool. -/
theorem rmw_run_waits : ∃ tr, ∃ s : State (queueLockManager .locking),
    Runs (fun _ => rmw (.singleton 5) (.singleton 6)) (fun _ => ⟨unrun .empty, 0, 0⟩)
      ⟨fun _ => some 2⟩ [0, 1] tr s ∧ s.sched = .top ∧ 0 ∈ popped tr ∧ 0 ∉ finished tr ∧
      WaitsFor (queueDocumented .locking) s 1 0 := by
  have run : Runs (fun _ => rmw (.singleton 5) (.singleton 6))
      (fun _ => ⟨unrun .empty, 0, 0⟩) ⟨fun _ => some 2⟩ [0, 1] []
      (State.init (queueLockManager .locking) _ _ _) := .nil
  have run := run.snoc
    (.request (a := []) rfl (Processor.newTxnRequest_eq_some.mpr ⟨by decide, rfl⟩))
  have run := run.snoc
    (.request (a := []) rfl (Processor.newTxnRequest_eq_some.mpr ⟨by decide, rfl⟩))
  have run := run.snoc (.pop rfl rfl rfl)
  have run := run.snoc (.lock rfl)
  have run := run.snoc (.lock rfl)
  have run := run.snoc (.ready rfl)
  have run := run.snoc (.noCompleted rfl rfl)
  have run := run.snoc (.dispatch rfl rfl)
  have run := run.snoc (.noReady rfl rfl)
  have run := run.snoc (.pop rfl rfl rfl)
  have run := run.snoc (.lock rfl)
  have run := run.snoc (.lock rfl)
  have run := run.snoc (.park rfl)
  have run := run.snoc (.noCompleted rfl rfl)
  have run := run.snoc (.noReady rfl rfl)
  refine ⟨_, _, run, rfl, ?_, ?_, ?_⟩
  · simp [popped]
  · simp [finished]
  · refine ⟨6, ⟨.exclusive, 1⟩, ⟨.exclusive, 0⟩, ?_⟩
    decide

theorem no_deadlock_rmw : ∃ tr, ∃ s : State (queueLockManager .locking),
    WaitsFor (queueDocumented .locking) s 1 0 ∧
    (∃ u, earliest tr = some u ∧ ¬Waiting ((queueDocumented .locking).table s.lockState) u) ∧
    ∀ t, ¬Relation.TransGen (WaitsFor (queueDocumented .locking) s) t t := by
  obtain ⟨tr, s, h, htop, hpop, hfin, hwait⟩ := rmw_run_waits
  obtain ⟨hearliest, hacyclic⟩ := no_deadlock (queueDocumented .locking) (by decide)
    (fun _ _ => by decide) h htop
  obtain ⟨u, hu, _, hnot, _⟩ := hearliest 0 hpop hfin
  exact ⟨tr, s, hwait, ⟨u, hu, hnot⟩, hacyclic⟩

end Cmsc624.A2
