import Cmsc624.A2.Custody
import Cmsc624.A2.Admission
import Cmsc624.A2.TxnTypes

/-!
# No transaction is lost, duplicated or returned early

What a run has done with a transaction is read off its place: how often it was
started and committed, and what its status is. At the top of the scheduler's loop
every requested transaction is at exactly one station.
-/

namespace Cmsc624.A2

open Lib

set_option autoImplicit false

variable {lm : LockManager} {code : TxnPtr → TxnCode}

def View.counts (v : View) : Nat × Nat × Nat := (v.starts, v.commits, v.finishes)

def Place.beforeRun : Place → Prop
  | .running pc => pc ≠ .pushing
  | .client | .requested | .locking _ | .ready | .pooled => True
  | _ => False

/-- What a run has done with a transaction that was fresh at the start. -/
def View.Accounted (c : TxnCode) (v : View) : Prop :=
  match v.place with
  | .running .size => v.counts = (1, 0, 0) ∧ v.txn.Fresh
  | .running (.reading rest) =>
    v.counts = (1, 0, 0) ∧ rest <:+ c.keys ∧ ∃ reads, v.txn.toBuffers = unrun reads
  | .running .pushing => v.counts = (1, 0, 0) ∧ v.txn.toBuffers.Voted
  | .completed => v.counts = (1, 0, 0) ∧ v.txn.toBuffers.Voted
  | .deciding => v.counts = (1, 0, 0) ∧ v.txn.toBuffers.Voted
  | .applying rest => v.counts = (1, 0, 0) ∧ rest <:+ v.txn.writes.entries
  | .marking => v.counts = (1, 1, 0)
  | .releasing _ | .result | .handed =>
    (v.txn.status = .committed ∧ v.counts = (1, 1, 1)) ∨
      (v.txn.status = .aborted ∧ v.counts = (1, 0, 1))
  | _ => v.counts = (0, 0, 0) ∧ v.txn.Fresh

theorem ended_of_result {pl : Place} (h : pl = .result ∨ pl = .handed) : pl.Ended := by
  rcases h with rfl | rfl <;> trivial

section Accounted
variable {c : TxnCode} {read : Key → Option Value} {t : TxnPtr} {e : Event} {v v' : View}

theorem saveRead_unrun {b : Buffers} {reads : OrderedMap Key Value} (h : b = unrun reads)
    (k : Key) :
    ({ b with reads := saveRead read b.reads k } : Buffers) = unrun (saveRead read reads k) := by
  rw [h]
  rfl

theorem View.Accounted.step (h : v.Accounted c) (hc : c.AlwaysVotes)
    (hlife : Life c read t e v v') :
    v'.Accounted c := by
  obtain ⟨pl, x, com, st, fin, log⟩ := v
  cases hlife with
  | request id hv =>
    obtain rfl : pl = _ := hv
    exact h
  | pop hv =>
    obtain rfl : pl = _ := hv
    exact h
  | lock hv =>
    obtain rfl : pl = _ := hv
    exact h
  | ready hv =>
    obtain rfl : pl = _ := hv
    exact h
  | park hv => exact h
  | wake hu hw hv =>
    obtain rfl : pl = _ := hv
    exact h
  | dispatch hv =>
    obtain rfl : pl = _ := hv
    exact h
  | start hv =>
    obtain rfl : pl = _ := hv
    obtain ⟨hn, hx⟩ := h
    exact ⟨by simpa [View.counts] using hn, hx⟩
  | size n hv =>
    obtain rfl : pl = _ := hv
    exact ⟨h.1, List.suffix_refl _, .empty, h.2⟩
  | read hv =>
    obtain rfl : pl = _ := hv
    obtain ⟨hn, hrest, reads, hx⟩ := h
    exact ⟨hn, (List.suffix_cons _ _).trans hrest, _, saveRead_unrun hx _⟩
  | run hv hb =>
    obtain rfl : pl = _ := hv
    obtain ⟨hn, _, reads, hx⟩ := h
    obtain ⟨b', hb', hvotes⟩ := hc reads
    have heq : some b' = some _ := hb'.symm.trans ((congrArg c.run hx).symm.trans hb)
    exact ⟨hn, Option.some.inj heq ▸ hvotes⟩
  | complete hv =>
    obtain rfl : pl = _ := hv
    exact h
  | take hv =>
    obtain rfl : pl = _ := hv
    exact h
  | decide hv hst =>
    obtain rfl : pl = _ := hv
    exact ⟨h.1, List.suffix_refl _⟩
  | abort hv hst =>
    obtain rfl : pl = _ := hv
    exact .inr ⟨rfl, by simpa [View.counts] using h.1⟩
  | write hv =>
    obtain rfl : pl = _ := hv
    exact ⟨h.1, (List.suffix_cons _ _).trans h.2⟩
  | commit hv =>
    obtain rfl : pl = _ := hv
    simpa [View.Accounted, View.counts] using h.1
  | mark hv =>
    obtain rfl : pl = _ := hv
    exact .inl ⟨rfl, by simpa [View.Accounted, View.counts] using h⟩
  | release hv =>
    obtain rfl : pl = _ := hv
    exact h
  | deliver hv =>
    obtain rfl : pl = _ := hv
    exact h
  | hand hv =>
    obtain rfl : pl = _ := hv
    exact h

theorem View.Accounted.incomplete (h : v.Accounted c) (hpl : v.place.beforeRun) :
    v.txn.status = .incomplete := by
  obtain ⟨pl, x, com, st, fin, log⟩ := v
  have hfresh : x.Fresh → x.status = .incomplete := fun hx => congrArg Buffers.status hx
  cases pl with
  | running pc =>
    cases pc with
    | size => exact hfresh h.2
    | reading rest =>
      obtain ⟨_, _, reads, hx⟩ := h
      exact congrArg Buffers.status hx
    | pushing => exact absurd rfl hpl
  | client => exact hfresh h.2
  | requested => exact hfresh h.2
  | locking rest => exact hfresh h.2
  | ready => exact hfresh h.2
  | pooled => exact hfresh h.2
  | _ => exact hpl.elim

theorem View.Accounted.starts_le (h : v.Accounted c) : v.starts ≤ 1 := by
  obtain ⟨pl, x, com, st, fin, log⟩ := v
  unfold View.Accounted at h
  split at h
  all_goals simp only [View.counts, Prod.mk.injEq] at h
  all_goals grind

theorem Life.ended (h : Life c read t e v v') (hv : v.place = .result ∨ v.place = .handed) :
    (v'.place = .result ∨ v'.place = .handed) ∧ v'.txn = v.txn := by
  cases h with
  | hand _ => exact ⟨.inr rfl, rfl⟩
  | _ => simp_all

theorem View.Accounted.voted (h : v.Accounted c)
    (hpl : v.place = .running .pushing ∨ v.place = .completed) :
    v.txn.status = .completedC ∨ v.txn.status = .completedA := by
  obtain ⟨pl, x, com, st, fin, log⟩ := v
  rcases hpl with rfl | rfl
  · exact h.2
  · exact h.2

theorem View.Accounted.finished (h : v.Accounted c) (hpl : v.place.Ended) :
    (v.txn.status = .committed ∧ v.commits = 1) ∨ (v.txn.status = .aborted ∧ v.commits = 0) := by
  obtain ⟨pl, x, com, st, fin, log⟩ := v
  have hend : (x.status = .committed ∧ (st, com, fin) = (1, 1, 1)) ∨
      (x.status = .aborted ∧ (st, com, fin) = (1, 0, 1)) := by
    cases pl with
    | releasing rest => exact h
    | result => exact h
    | handed => exact h
    | _ => exact hpl.elim
  rcases hend with ⟨hst, hn⟩ | ⟨hst, hn⟩
  · obtain ⟨rfl, rfl, rfl⟩ : _ ∧ _ ∧ _ := by simpa using hn
    exact .inl ⟨hst, rfl⟩
  · obtain ⟨rfl, rfl, rfl⟩ : _ ∧ _ ∧ _ := by simpa using hn
    exact .inr ⟨hst, rfl⟩

theorem View.Accounted.commits_of_status (h : v.Accounted c)
    (hpl : v.place.beforeRun ∨ (v.place = .running .pushing ∨ v.place = .completed) ∨
      v.place.Ended) :
    (v.txn.status = .committed → v.commits = 1) ∧ (v.txn.status = .aborted → v.commits = 0) := by
  rcases hpl with hpl | hpl | hpl
  · simp [h.incomplete hpl]
  · rcases h.voted hpl with hst | hst <;> simp [hst]
  · rcases h.finished hpl with ⟨hst, hn⟩ | ⟨hst, hn⟩ <;> simp [hst, hn]

end Accounted

/-- Where a requested transaction can be while the scheduler is at the top of its loop. -/
inductive Station where
  | requests
  | waiting
  | pooled
  | executing
  | completed
  | results
  | handed
  deriving DecidableEq

def State.AtStation (spec : LateGrant lm) (s : State lm) (t : TxnPtr) : Station → Prop
  | .requests => t ∈ s.txnRequests
  | .waiting => spec.waits s.lockState t
  | .pooled => t ∈ s.pool
  | .executing => ∃ pc, (t, pc) ∈ s.running
  | .completed => t ∈ s.completedTxns
  | .results => t ∈ s.txnResults
  | .handed => t ∈ s.handed

def Place.station : Place → Option Station
  | .requested => some .requests
  | .pooled => some .pooled
  | .running _ => some .executing
  | .completed => some .completed
  | .result => some .results
  | .handed => some .handed
  | _ => none

theorem atStation_iff {spec : LateGrant lm} {s : State lm} {t : TxnPtr} {st : Station}
    (hst : st ≠ .waiting) :
    s.AtStation spec t st ↔ ∃ pl, (t, pl) ∈ s.places ∧ pl.station = some st := by
  simp only [mem_places]
  constructor
  · intro h
    cases st with
    | waiting => exact absurd rfl hst
    | executing =>
      obtain ⟨pc, hpc⟩ := h
      exact ⟨.running pc, hpc, rfl⟩
    | requests => exact ⟨.requested, h, rfl⟩
    | pooled => exact ⟨.pooled, h, rfl⟩
    | completed => exact ⟨.completed, h, rfl⟩
    | results => exact ⟨.result, h, rfl⟩
    | handed => exact ⟨.handed, h, rfl⟩
  · rintro ⟨pl, hmem, hpl⟩
    cases pl with
    | running pc =>
      obtain rfl : Station.executing = st := Option.some.inj hpl
      exact ⟨pc, hmem⟩
    | _ => cases hpl <;> exact hmem

section TopOfLoop
variable {spec : LateGrant lm} {ts : List TxnPtr} {tr : List Event} {s s' : State lm} {t : TxnPtr}
  {txns : TxnPtr → Txn} {storage : Storage}

/-- The dispatch loop leaves `ready_txns_` empty, and until the next collecting loop
nothing is put there. -/
theorem readyTxns_at_top (h : Runs code txns storage ts tr s) :
    s.sched = .top ∨ (∃ t rest b, s.sched = .locking t rest b) → s.readyTxns = [] := by
  refine h.stateInvariant (I := fun s =>
    s.sched = .top ∨ (∃ t rest b, s.sched = .locking t rest b) →
    s.readyTxns = []) (fun _ => rfl) ?_
  intro s e s' ih hstep
  cases hstep with
  | request hc hp =>
    obtain ⟨_, rfl⟩ := Processor.newTxnRequest_eq_some.mp hp
    exact ih
  | run hrun hp =>
    obtain ⟨_, _, rfl⟩ := Processor.runTxn_eq_some.mp hp
    exact ih
  | pop hpc hs hq => exact fun _ => ih (.inl hpc)
  | lock hpc => exact fun _ => ih (.inr ⟨_, _, _, hpc⟩)
  | noReady hpc hq => exact fun _ => hq
  | result hq => exact ih
  | stop => exact ih
  | start hpool => exact ih
  | size hrun => exact ih
  | read hrun => exact ih
  | complete hrun => exact ih
  | dispatch hpc hq =>
    rintro (htop | ⟨t, rest, b, hlock⟩)
    · simp [hpc] at htop
    · simp [hpc] at hlock
  | _ => rintro (htop | ⟨t, rest, b, hlock⟩) <;> contradiction

theorem accounted_of_run (spec : LateGrant lm) (hts : ts.Nodup)
    (hfresh : ∀ t ∈ ts, (txns t).Fresh) (hcode : ∀ t ∈ ts, (code t).checkReadWriteSets)
    (hvotes : ∀ t ∈ ts, (code t).AlwaysVotes) (h : Runs code txns storage ts tr s) (ht : t ∈ ts) :
    ∀ pl, s.At t pl → (view tr s t pl).Accounted (code t) :=
  follow_of_run spec hts hcode ht ⟨rfl, hfresh t ht⟩ (fun hv hlife => hv.step (hvotes t ht) hlife) h

theorem Custody.exists_station (inv : Custody spec code ts s) (htop : s.sched = .top)
    (hready : s.readyTxns = []) (ht : t ∈ ts) (hreq : t ∉ s.clients) :
    ∃ st, s.AtStation spec t st := by
  rcases inv.placed t ht with hmem | hw
  · obtain ⟨pl, hpl⟩ := mem_names.mp hmem
    rw [mem_places] at hpl
    cases pl with
    | requested => exact ⟨.requests, hpl⟩
    | pooled => exact ⟨.pooled, hpl⟩
    | running pc => exact ⟨.executing, pc, hpl⟩
    | completed => exact ⟨.completed, hpl⟩
    | result => exact ⟨.results, hpl⟩
    | handed => exact ⟨.handed, hpl⟩
    | client => exact absurd hpl hreq
    | ready => simp [State.Occupies, hready] at hpl
    | _ => simp [State.Occupies, htop] at hpl
  · exact ⟨.waiting, hw⟩

theorem Custody.station_unique (inv : Custody spec code ts s) (htop : s.sched = .top)
    {st st' : Station} (h : s.AtStation spec t st) (h' : s.AtStation spec t st') : st = st' := by
  have hno : ∀ {pl}, (t, pl) ∈ s.places → ¬spec.waits s.lockState t := fun hpl =>
    inv.not_waits (mem_names_of_mem hpl) (by simp [htop])
  by_cases hst : st = .waiting
  · by_cases hst' : st' = .waiting
    · rw [hst, hst']
    · obtain ⟨pl, hpl, _⟩ := (atStation_iff hst').mp h'
      subst hst
      exact absurd h (hno hpl)
  · obtain ⟨pl, hpl, hs⟩ := (atStation_iff hst).mp h
    by_cases hst' : st' = .waiting
    · subst hst'
      exact absurd h' (hno hpl)
    · obtain ⟨pl', hpl', hs'⟩ := (atStation_iff hst').mp h'
      obtain rfl := inv.place_unique hpl hpl'
      exact Option.some.inj (hs.symm.trans hs')

/-- No queue has a transaction twice, and no two have the same one. -/
theorem Custody.queues_nodup (inv : Custody spec code ts s) :
    (s.txnRequests ++ s.pool ++ s.running.map Prod.fst ++ s.completedTxns ++ s.txnResults ++
      s.handed).Nodup := by
  refine List.Sublist.nodup ?_ inv.nodup
  simp only [State.names, State.places, List.map_append, List.map_map, Function.comp_def,
    List.map_id', List.append_assoc]
  refine List.Sublist.trans ?_ (List.sublist_append_right _ _)
  refine List.Sublist.append_left (List.Sublist.trans ?_ (List.sublist_append_right _ _)) _
  exact List.sublist_append_right _ _

/-- What clients may rely on for a requested transaction. -/
structure State.Accounts (spec : LateGrant lm) (code : TxnPtr → TxnCode) (tr : List Event)
    (s : State lm) (t : TxnPtr) : Prop where
  one_station : ∃! st, s.AtStation spec t st
  one_place : (s.txnRequests ++ s.pool ++ s.running.map Prod.fst ++ s.completedTxns ++
    s.txnResults ++ s.handed).Nodup
  started_once : (started tr).count t ≤ 1
  before_run : t ∈ s.txnRequests ∨ spec.waits s.lockState t ∨ t ∈ s.pool ∨
    (∃ pc, (t, pc) ∈ s.running ∧ pc ≠ .pushing) → (s.txns t).status = .incomplete
  completed : t ∈ s.completedTxns →
    (s.txns t).status = .completedC ∨ (s.txns t).status = .completedA
  ended : t ∈ s.txnResults ∨ t ∈ s.handed →
    (s.txns t).status = .committed ∨ (s.txns t).status = .aborted
  unchanged : t ∈ s.txnResults ∨ t ∈ s.handed → ∀ tr' s', Run (Step code) s tr' s' →
    (t ∈ s'.txnResults ∨ t ∈ s'.handed) ∧ s'.txns t = s.txns t
  committed : (s.txns t).status = .committed → s.committedTxns.count t = 1
  aborted : (s.txns t).status = .aborted → s.committedTxns.count t = 0

theorem State.At.mem_places {pl : Place} (h : s.At t pl) (hpl : pl ≠ .locking []) :
    (t, pl) ∈ s.places := h.resolve_right fun hno => hpl hno.2

theorem State.At.at_top {pl : Place} (h : s.At t pl) (htop : s.sched = .top)
    (hready : s.readyTxns = []) (hreq : t ∉ s.clients) :
    pl.beforeRun ∨ (pl = .running .pushing ∨ pl = .completed) ∨ pl = .result ∨ pl = .handed := by
  rcases h with hmem | ⟨_, rfl⟩
  · rw [A2.mem_places] at hmem
    cases pl with
    | client => exact absurd hmem hreq
    | running pc => cases pc <;> simp [Place.beforeRun]
    | _ => simp_all [State.Occupies, Place.beforeRun]
  · exact .inl trivial

theorem Custody.unchanged (inv : Custody spec code ts s)
    (hcode : ∀ t ∈ ts, (code t).checkReadWriteSets) (ht : t ∈ s.txnResults ∨ t ∈ s.handed)
    (h : Run (Step code) s tr s') :
    (t ∈ s'.txnResults ∨ t ∈ s'.handed) ∧ s'.txns t = s.txns t := by
  have hend := inv.follow (t := t) hcode
    (P := fun v => (v.place = .result ∨ v.place = .handed) ∧ v.txn = s.txns t) ?_ ?_ h
  · obtain ⟨pl, hat⟩ := s'.exists_at t
    obtain ⟨hpl | hpl, htxn⟩ := hend pl hat
    · obtain rfl : pl = _ := hpl
      exact ⟨.inl (A2.mem_places.mp (hat.mem_places (by simp))), htxn⟩
    · obtain rfl : pl = _ := hpl
      exact ⟨.inr (A2.mem_places.mp (hat.mem_places (by simp))), htxn⟩
  · intro pl hat
    refine ⟨?_, rfl⟩
    rcases ht with hr | hh
    · exact .inl (inv.at_unique hat (.inl (A2.mem_places.mpr hr)))
    · exact .inr (inv.at_unique hat (.inl (A2.mem_places.mpr hh)))
  · rintro read e v v' ⟨hpl, htxn⟩ hlife
    obtain ⟨hpl', htxn'⟩ := hlife.ended hpl
    exact ⟨hpl', htxn'.trans htxn⟩

/-- No transaction is lost, duplicated or returned early. -/
theorem no_txn_lost (spec : LateGrant lm) (hts : ts.Nodup)
    (hfresh : ∀ t ∈ ts, (txns t).Fresh) (hcode : ∀ t ∈ ts, (code t).checkReadWriteSets)
    (hvotes : ∀ t ∈ ts, (code t).AlwaysVotes) (h : Runs code txns storage ts tr s)
    (htop : s.sched = .top) (ht : Event.request t ∈ tr) : s.Accounts spec code tr t := by
  have inv := custody_of_run spec hts hcode h
  have adm := admitted_of_run hts h
  have hts' := adm.mem_ts (mem_requested.mpr ht)
  have hreq := adm.notMem_clients hts (mem_requested.mpr ht)
  have hready := readyTxns_at_top h (.inl htop)
  have acc := accounted_of_run spec hts hfresh hcode hvotes h hts'
  obtain ⟨pl, hat⟩ := s.exists_at t
  have hacc := acc pl hat
  have hplaced : ∀ pl', s.Occupies t pl' → (view tr s t pl').Accounted (code t) :=
    fun pl' hq => acc pl' (.inl (A2.mem_places.mpr hq))
  have hcommits := hacc.commits_of_status <| (hat.at_top htop hready hreq).imp_right
    (Or.imp_right ended_of_result)
  constructor
  case one_station =>
    obtain ⟨st, hst⟩ := inv.exists_station htop hready hts' hreq
    exact ⟨st, hst, fun st' hst' => inv.station_unique htop hst' hst⟩
  case one_place => exact inv.queues_nodup
  case started_once => exact hacc.starts_le
  case before_run =>
    rintro (hq | hw | hq | ⟨pc, hq, hpc⟩)
    · exact (hplaced .requested hq).incomplete trivial
    · have hno : t ∉ s.names := fun hmem => inv.not_waits hmem (by simp [htop]) hw
      exact (acc (.locking []) (.inr ⟨hno, rfl⟩)).incomplete trivial
    · exact (hplaced .pooled hq).incomplete trivial
    · exact (hplaced (.running pc) hq).incomplete hpc
  case completed =>
    exact fun hq => (hplaced .completed hq).voted (.inr rfl)
  case ended =>
    rintro (hq | hq)
    · exact ((hplaced .result hq).finished trivial).imp And.left And.left
    · exact ((hplaced .handed hq).finished trivial).imp And.left And.left
  case unchanged => exact fun hq tr' s' h' => inv.unchanged hcode hq h'
  case committed => exact hcommits.1
  case aborted => exact hcommits.2

end TopOfLoop

/-- Two transactions that write the same key, from their submission to their results. The second
one is granted its lock when the first one releases it. -/
theorem rmw_run : ∃ tr, ∃ s : State (queueLockManager .locking),
    Runs (fun _ => rmw (.singleton 5) (.singleton 6)) (fun _ => ⟨unrun .empty, 0, 0⟩)
      ⟨fun _ => some 2⟩ [0, 1] tr s ∧ s.sched = .top ∧ s.Empty ∧
      requested tr = [0, 1] ∧ Event.release 0 6 [1] ∈ tr ∧ s.txnResults = [0, 1] := by
  have run : Runs (fun _ => rmw (.singleton 5) (.singleton 6)) (fun _ => ⟨unrun .empty, 0, 0⟩)
    ⟨fun _ => some 2⟩ [0, 1] [] (State.init (queueLockManager .locking) _ _ _) := .nil
  have run := run.snoc (.request (a := []) rfl
    (Processor.newTxnRequest_eq_some.mpr ⟨by decide, rfl⟩))
  have run := run.snoc (.request (a := []) rfl
    (Processor.newTxnRequest_eq_some.mpr ⟨by decide, rfl⟩))
  have run := run.snoc (.pop rfl rfl rfl)
  have run := run.snoc (.lock rfl)
  have run := run.snoc (.lock rfl)
  have run := run.snoc (.ready rfl)
  have run := run.snoc (.noCompleted rfl rfl)
  have run := run.snoc (.dispatch rfl rfl)
  have run := run.snoc (.noReady rfl rfl)
  have run := run.snoc (.pop rfl rfl rfl)
  have run := run.snoc (.lock rfl)
  have run := run.snoc (.lock rfl)
  have run := run.snoc (.park rfl)
  have run := run.snoc (.noCompleted rfl rfl)
  have run := run.snoc (.noReady rfl rfl)
  have run := run.snoc (.start (a := []) rfl)
  have run := run.snoc (.size (a := []) rfl)
  have run := run.snoc (.read (a := []) rfl)
  have run := run.snoc (.read (a := []) rfl)
  have run := run.snoc (.run (a := []) rfl (Processor.runTxn_eq_some.mpr ⟨_, rfl, rfl⟩))
  have run := run.snoc (.complete (a := []) rfl)
  have run := run.snoc (.noRequest rfl rfl rfl)
  have run := run.snoc (.take rfl rfl)
  have run := run.snoc (.decide rfl rfl)
  have run := run.snoc (.write rfl)
  have run := run.snoc (.commit rfl)
  have run := run.snoc (.mark rfl)
  have run := run.snoc (.release rfl)
  have run := run.snoc (.release rfl)
  have run := run.snoc (.deliver rfl)
  have run := run.snoc (.noCompleted rfl rfl)
  have run := run.snoc (.dispatch rfl rfl)
  have run := run.snoc (.noReady rfl rfl)
  have run := run.snoc (.start (a := []) rfl)
  have run := run.snoc (.size (a := []) rfl)
  have run := run.snoc (.read (a := []) rfl)
  have run := run.snoc (.read (a := []) rfl)
  have run := run.snoc (.run (a := []) rfl (Processor.runTxn_eq_some.mpr ⟨_, rfl, rfl⟩))
  have run := run.snoc (.complete (a := []) rfl)
  have run := run.snoc (.noRequest rfl rfl rfl)
  have run := run.snoc (.take rfl rfl)
  have run := run.snoc (.decide rfl rfl)
  have run := run.snoc (.write rfl)
  have run := run.snoc (.commit rfl)
  have run := run.snoc (.mark rfl)
  have run := run.snoc (.release rfl)
  have run := run.snoc (.release rfl)
  have run := run.snoc (.deliver rfl)
  have run := run.snoc (.noCompleted rfl rfl)
  have run := run.snoc (.noReady rfl rfl)
  exact ⟨_, _, run, rfl, ⟨rfl, rfl, rfl, rfl, rfl, rfl⟩, rfl,
    List.mem_of_getElem? (i := 28) rfl, rfl⟩
theorem no_txn_lost_rmw : ∃ tr, ∃ s : State (queueLockManager .locking), s.txnResults = [0, 1] ∧
    ∀ t ∈ [0, 1], s.Accounts (queueDocumented .locking).lateGrant
      (fun _ => rmw (.singleton 5) (.singleton 6)) tr t := by
  obtain ⟨tr, s, h, htop, _, hreq, _, hres⟩ := rmw_run
  refine ⟨tr, s, hres, ?_⟩
  rw [← hreq]
  intro t ht
  exact no_txn_lost _ (by decide) (fun _ _ => by rfl) (fun _ _ => by decide)
    (fun _ _ => (rmw_votes _ _).1) h htop (mem_requested.mp ht)

end Cmsc624.A2
