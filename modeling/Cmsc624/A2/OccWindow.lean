import Cmsc624.A2.Dispatch
import Cmsc624.A2.TxnTypes

/-!
# The validation window of ExecuteTxn

`ExecuteTxn` notes how many transactions have committed before it reads anything, and
the commit loop appends a transaction to `committed_txns_` after its last write. So
what committed before the noted index was in the store before the first read, and a
value that has changed since it was read was written by a transaction at or past that
index, or by the one that is being committed. No lock is used in the argument.
-/

namespace Cmsc624.A2

open Lib

set_option autoImplicit false

/-- The calls of `storage_->Write` for `t`. -/
def writeLog (tr : List Event) (t : TxnPtr) : List (Key × Value) :=
  tr.filterMap fun | .write u k v => if u = t then some (k, v) else none | _ => none

@[simp] theorem writeLog_append (tr tr' : List Event) (t : TxnPtr) :
    writeLog (tr ++ tr') t = writeLog tr t ++ writeLog tr' t := List.filterMap_append

theorem writeLog_write (u : TxnPtr) (k : Key) (v : Value) (t : TxnPtr) :
    writeLog [.write u k v] t = if u = t then [(k, v)] else [] := by
  unfold writeLog
  by_cases h : u = t <;> simp [h]

def Event.applyTo (data : Key → Option Value) : Event → Key → Option Value
  | .write _ k v => Function.update data k (some v)
  | _ => data

/-- The store with the logged calls of `storage_->Write` applied, the earliest first. -/
def Storage.withLog (storage : Storage) (tr : List Event) : Storage :=
  ⟨tr.foldl Event.applyTo storage.data⟩

theorem mem_readLog {tr : List Event} {t : TxnPtr} {k : Key} {v : Option Value} :
    (k, v) ∈ readLog tr t ↔ Event.read t k v ∈ tr := by
  unfold readLog
  rw [List.mem_filterMap]
  constructor
  · rintro ⟨e, he, heq⟩
    split at heq
    · split at heq
      · rename_i hu
        obtain ⟨rfl, rfl⟩ : _ ∧ _ := by simpa using heq
        exact hu ▸ he
      · cases heq
    · cases heq
  · intro h
    exact ⟨_, h, by simp⟩

/-- How far the reads of a dispatched transaction have come, and that it is appended to
`committed_txns_` after its `ApplyWrites`. -/
def View.Staged (c : TxnCode) (v : View) : Prop :=
  match v.place with
  | .pooled | .running .size => v.log = [] ∧ v.commits = 0
  | .running (.reading rest) => v.log.map Prod.fst ++ rest = c.keys ∧ v.commits = 0
  | .running .pushing | .completed | .deciding | .applying _ =>
    v.log.map Prod.fst = c.keys ∧ v.commits = 0
  | .marking | .releasing _ | .result | .handed => v.log.map Prod.fst = c.keys
  | _ => True

def Place.PastSize (pl : Place) : Prop :=
  pl.dispatched = true ∧ pl ≠ .pooled ∧ pl ≠ .running .size

def Place.ReadsDone : Place → Prop
  | .running (.reading rest) => rest = []
  | .running .size => False
  | .pooled => False
  | pl => pl.dispatched = true

theorem Place.ReadsDone.dispatched {pl : Place} (h : pl.ReadsDone) : pl.dispatched = true := by
  cases pl with
  | running pc => rfl
  | pooled => rfl
  | _ => exact h

theorem View.Staged.reads_done {c : TxnCode} {v : View} (h : v.Staged c)
    (hdone : v.place.ReadsDone) : v.log.map Prod.fst = c.keys := by
  obtain ⟨pl, x, com, st, fin, log⟩ := v
  cases pl with
  | running pc =>
    cases pc with
    | size => exact absurd hdone id
    | reading rest =>
      obtain rfl : rest = [] := hdone
      simpa using h.1
    | pushing => exact h.1
  | completed => exact h.1
  | deciding => exact h.1
  | applying rest => exact h.1
  | marking => exact h
  | releasing rest => exact h
  | result => exact h
  | handed => exact h
  | pooled => exact absurd hdone id
  | _ => cases hdone

section Life
variable {c : TxnCode} {read : Key → Option Value} {t : TxnPtr} {e : Event} {v v' : View}

theorem View.Staged.step (hd : v.place.dispatched = true) (h : v.Staged c)
    (hlife : Life c read t e v v') : v'.Staged c := by
  obtain ⟨pl, x, com, st, fin, log⟩ := v
  cases hlife with
  | start hv =>
    obtain rfl : pl = _ := hv
    exact h
  | size n hv =>
    obtain rfl : pl = _ := hv
    obtain ⟨rfl, hcom⟩ : log = [] ∧ com = 0 := h
    exact ⟨rfl, hcom⟩
  | read hv =>
    obtain rfl : pl = _ := hv
    refine ⟨?_, h.2⟩
    simpa using h.1
  | run hv hb =>
    obtain rfl : pl = _ := hv
    refine ⟨?_, h.2⟩
    simpa using h.1
  | complete hv =>
    obtain rfl : pl = _ := hv
    exact h
  | take hv =>
    obtain rfl : pl = _ := hv
    exact h
  | decide hv hst =>
    obtain rfl : pl = _ := hv
    exact h
  | abort hv hst =>
    obtain rfl : pl = _ := hv
    exact h.1
  | write hv =>
    obtain rfl : pl = _ := hv
    exact h
  | commit hv =>
    obtain rfl : pl = _ := hv
    exact h.1
  | mark hv =>
    obtain rfl : pl = _ := hv
    exact h
  | release hv =>
    obtain rfl : pl = _ := hv
    exact h
  | deliver hv =>
    obtain rfl : pl = _ := hv
    exact h
  | hand hv =>
    obtain rfl : pl = _ := hv
    exact h
  | _ => simp_all [Place.dispatched]

theorem Life.startIdx (h : Life c read t e v v') :
    (∃ n, e = .size t n ∧ v'.txn.occStartIdx = n) ∨
      (v'.txn.occStartIdx = v.txn.occStartIdx ∧ (v'.place.PastSize → v.place.PastSize)) := by
  obtain ⟨pl, x, com, st, fin, log⟩ := v
  cases h with
  | size n hv => exact .inl ⟨n, rfl, rfl⟩
  | request id hv =>
    obtain rfl : pl = _ := hv
    exact .inr ⟨rfl, fun h => absurd h.1 (by simp [Place.dispatched])⟩
  | dispatch hv => exact .inr ⟨rfl, fun h => absurd rfl h.2.1⟩
  | start hv => exact .inr ⟨rfl, fun h => absurd rfl h.2.2⟩
  | park hv => exact .inr ⟨rfl, id⟩
  | wake _ _ hv => exact .inr ⟨rfl, fun h => absurd h.1 (by simp [Place.dispatched])⟩
  | pop hv => exact .inr ⟨rfl, fun h => absurd h.1 (by simp [Place.dispatched])⟩
  | lock hv => exact .inr ⟨rfl, fun h => absurd h.1 (by simp [Place.dispatched])⟩
  | ready hv => exact .inr ⟨rfl, fun h => absurd h.1 (by simp [Place.dispatched])⟩
  | run hv _ =>
    obtain rfl : pl = _ := hv
    exact .inr ⟨rfl, fun _ => ⟨rfl, by simp, by simp⟩⟩
  | decide hv _ =>
    obtain rfl : pl = _ := hv
    exact .inr ⟨rfl, fun _ => ⟨rfl, by simp, by simp⟩⟩
  | abort hv _ =>
    obtain rfl : pl = _ := hv
    exact .inr ⟨rfl, fun _ => ⟨rfl, by simp, by simp⟩⟩
  | _ hv =>
    obtain rfl : pl = _ := hv
    exact .inr ⟨rfl, fun _ => ⟨rfl, by simp, by simp⟩⟩

end Life

section Steps
variable {lm : LockManager} {code : TxnPtr → TxnCode} {s s' : State lm} {e : Event} {t u : TxnPtr}
  {pl : Place}

/-- What a step does to the store and to `committed_txns_`. -/
inductive ApplyEffect (s : State lm) (e : Event) (s' : State lm) : Prop where
  | decide (u : TxnPtr) (hpc : s.sched = .deciding u)
      (hpc' : s'.sched = .applying u (s.txns u).writes.entries) (hlog : ∀ t, writeLog [e] t = [])
      (hcom : s'.committedTxns = s.committedTxns) (hst : s'.storage = s.storage)
  | write (u : TxnPtr) (x : Key × Value) (rest : List (Key × Value))
      (hpc : s.sched = .applying u (x :: rest)) (hpc' : s'.sched = .applying u rest)
      (he : e = .write u x.1 x.2) (hcom : s'.committedTxns = s.committedTxns)
      (hst : s'.storage.data = Function.update s.storage.data x.1 (some x.2))
  | commit (u : TxnPtr) (hpc : s.sched = .applying u []) (hpc' : s'.sched = .marking u)
      (hlog : ∀ t, writeLog [e] t = []) (hcom : s'.committedTxns = s.committedTxns ++ [u])
      (hst : s'.storage = s.storage)
  | other (hpc : ∀ u rest, s'.sched = .applying u rest ↔ s.sched = .applying u rest)
      (hlog : ∀ t, writeLog [e] t = []) (hcom : s'.committedTxns = s.committedTxns)
      (hst : s'.storage = s.storage)

theorem step_applyEffect (h : Step code s e s') : ApplyEffect s e s' := by
  cases h with
  | decide hpc _ => exact .decide _ hpc rfl (fun _ => rfl) rfl rfl
  | write hpc => exact .write _ _ _ hpc rfl rfl rfl rfl
  | commit hpc => exact .commit _ hpc rfl (fun _ => rfl) rfl rfl
  | request _ hp =>
    obtain ⟨_, rfl⟩ := Processor.newTxnRequest_eq_some.mp hp
    exact .other (fun _ _ => .rfl) (fun _ => rfl) rfl rfl
  | run _ hp =>
    obtain ⟨_, _, rfl⟩ := Processor.runTxn_eq_some.mp hp
    exact .other (fun _ _ => .rfl) (fun _ => rfl) rfl rfl
  | result _ => exact .other (fun _ _ => .rfl) (fun _ => rfl) rfl rfl
  | stop => exact .other (fun _ _ => .rfl) (fun _ => rfl) rfl rfl
  | start _ => exact .other (fun _ _ => .rfl) (fun _ => rfl) rfl rfl
  | size _ => exact .other (fun _ _ => .rfl) (fun _ => rfl) rfl rfl
  | read _ => exact .other (fun _ _ => .rfl) (fun _ => rfl) rfl rfl
  | complete _ => exact .other (fun _ _ => .rfl) (fun _ => rfl) rfl rfl
  | dispatch _ _ => exact .other (fun _ _ => .rfl) (fun _ => rfl) rfl rfl
  | _ hpc => exact .other (fun _ _ => by simp [hpc]) (fun _ => rfl) rfl rfl

theorem ApplyEffect.committed_grows (h : ApplyEffect s e s') :
    s.committedTxns <+: s'.committedTxns := by
  cases h with
  | decide _ _ _ _ hcom _ => exact hcom ▸ List.prefix_rfl
  | write _ _ _ _ _ _ hcom _ => exact hcom ▸ List.prefix_rfl
  | commit _ _ _ _ hcom _ => exact ⟨_, hcom.symm⟩
  | other _ _ hcom _ => exact hcom ▸ List.prefix_rfl

theorem writes_of_step (h : Step code s e s') :
    (u, .running (.reading [])) ∈ s.places ∨ (s'.txns u).writes = (s.txns u).writes := by
  cases h with
  | @run a b t p hrun hp =>
    obtain ⟨_, _, rfl⟩ := Processor.runTxn_eq_some.mp hp
    by_cases hu : u = t
    · left
      rw [mem_places, hu]
      simp [State.Occupies, hrun]
    · exact .inr (congrArg (fun x : Txn => x.writes) (Function.update_of_ne hu _ _))
  | request _ hp =>
    obtain ⟨_, rfl⟩ := Processor.newTxnRequest_eq_some.mp hp
    exact .inr (update_field (fun x => x.writes) rfl)
  | abort _ _ => exact .inr (update_field (fun x => x.writes) rfl)
  | mark _ => exact .inr (update_field (fun x => x.writes) rfl)
  | size _ => exact .inr (update_field (fun x => x.writes) rfl)
  | read _ => exact .inr (update_field (fun x => x.writes) rfl)
  | _ => exact .inr rfl

theorem startIdx_of_step (h : Step code s e s') :
    (u, .running .size) ∈ s.places ∨ (s'.txns u).occStartIdx = (s.txns u).occStartIdx := by
  cases h with
  | @size a b t hrun =>
    by_cases hu : u = t
    · left
      rw [mem_places, hu]
      simp [State.Occupies, hrun]
    · exact .inr (congrArg Txn.occStartIdx (Function.update_of_ne hu _ _))
  | run _ hp =>
    obtain ⟨_, _, rfl⟩ := Processor.runTxn_eq_some.mp hp
    exact .inr (update_field Txn.occStartIdx rfl)
  | request _ hp =>
    obtain ⟨_, rfl⟩ := Processor.newTxnRequest_eq_some.mp hp
    exact .inr (update_field Txn.occStartIdx rfl)
  | abort _ _ => exact .inr (update_field Txn.occStartIdx rfl)
  | mark _ => exact .inr (update_field Txn.occStartIdx rfl)
  | read _ => exact .inr (update_field Txn.occStartIdx rfl)
  | _ => exact .inr rfl

theorem writes_kept (hnodup : s.taken.Nodup) (h : Step code s e s') (hmem : (u, pl) ∈ s.places)
    (hd : pl.dispatched = true) (hne : pl ≠ .running (.reading [])) :
    (s'.txns u).writes = (s.txns u).writes :=
  (writes_of_step h).resolve_left fun hrun => hne (place_of_taken hnodup hmem hrun hd rfl)

theorem startIdx_kept (hnodup : s.taken.Nodup) (h : Step code s e s') (hmem : (u, pl) ∈ s.places)
    (hpast : pl.PastSize) : (s'.txns u).occStartIdx = (s.txns u).occStartIdx :=
  (startIdx_of_step h).resolve_left fun hrun =>
    hpast.2.2 (place_of_taken hnodup hmem hrun hpast.1 rfl)

theorem size_event {n : Int} (h : Step code s (.size t n) s') :
    n = s.committedSize ∧ s'.committedTxns = s.committedTxns := by
  cases h with
  | size _ => exact ⟨rfl, rfl⟩

theorem read_event {k : Key} {v : Option Value} (h : Step code s (.read t k v) s') :
    v = s.storage.read k ∧ ∃ rest, (t, .running (.reading (k :: rest))) ∈ s.places := by
  cases h with
  | @read a b t k rest hrun =>
    exact ⟨rfl, rest, mem_places.mpr (by simp [State.Occupies, hrun])⟩

theorem data_of_step (h : Step code s e s') : s'.storage.data = e.applyTo s.storage.data := by
  cases h with
  | request _ hp =>
    obtain ⟨_, rfl⟩ := Processor.newTxnRequest_eq_some.mp hp
    rfl
  | run _ hp =>
    obtain ⟨_, _, rfl⟩ := Processor.runTxn_eq_some.mp hp
    rfl
  | _ => rfl

end Steps

section Runs
variable {lm : LockManager} {code : TxnPtr → TxnCode} {txns : TxnPtr → Txn} {storage : Storage}
  {ts : List TxnPtr} {tr : List Event} {s s' : State lm} {e : Event} {t u : TxnPtr} {pl : Place}

theorem staged_of_run (h : Runs code txns storage ts tr s) (honce : (dispatched tr).Nodup) :
    ∀ t pl, (t, pl) ∈ s.places → pl.dispatched = true → (view tr s t pl).Staged (code t) := by
  refine follow_dispatched (P := fun t v => v.Staged (code t)) h honce ?_ ?_ ?_
  · intro t v id hv
    exact hv
  · rintro t ⟨pl, x, com, st, fin, log⟩ rfl rfl rfl
    exact ⟨rfl, rfl⟩
  · intro t read e v v' hd hv hlife
    exact hv.step hd hlife

theorem notMem_committed (hstaged : (view tr s u pl).Staged (code u))
    (hpl : pl = .running (.reading []) ∨ pl = .deciding ∨ ∃ rest, pl = .applying rest) :
    u ∉ s.committedTxns := by
  have hcount : s.committedTxns.count u = 0 := by
    rcases hpl with rfl | rfl | ⟨rest, rfl⟩
    · exact hstaged.2
    · exact hstaged.2
    · exact hstaged.2
  exact List.count_eq_zero.mp hcount

theorem place_of_committed (h : Runs code txns storage ts tr s) (honce : (dispatched tr).Nodup)
    (hu : u ∈ s.committedTxns) :
    ∃ pl, (u, pl) ∈ s.places ∧ pl.dispatched = true ∧ pl ≠ .running (.reading []) := by
  have hdis : u ∈ dispatched tr := by
    by_contra hno
    exact List.count_eq_zero.mp (undispatched h hno).2 hu
  obtain ⟨pl, hpl, hd⟩ := mem_taken.mp ((taken_of_run h).mem_iff.mpr hdis)
  refine ⟨pl, hpl, hd, ?_⟩
  rintro rfl
  exact notMem_committed (staged_of_run h honce u _ hpl hd) (.inl rfl) hu

/-- What has been written to the store, compared with `writes_` and `committed_txns_`. -/
structure Applied (tr : List Event) (s : State lm) : Prop where
  written : ∀ u ∈ s.committedTxns, writeLog tr u = (s.txns u).writes.entries
  writing : ∀ u rest, s.sched = .applying u rest → writeLog tr u ++ rest = (s.txns u).writes.entries
  unwritten : ∀ u, u ∉ s.committedTxns → (∀ rest, s.sched ≠ .applying u rest) → writeLog tr u = []

theorem Applied.step (app : Applied tr s) (h : Runs code txns storage ts tr s)
    (honce : (dispatched tr).Nodup) (hstep : Step code s e s') : Applied (tr ++ [e]) s' := by
  have hnodup := taken_nodup h honce
  have hcommitted : ∀ u ∈ s.committedTxns, (s'.txns u).writes = (s.txns u).writes := fun u hu => by
    obtain ⟨pl, hpl, hd, hne⟩ := place_of_committed h honce hu
    exact writes_kept hnodup hstep hpl hd hne
  have hplace : ∀ u pl, (u, pl) ∈ s.places → pl = .deciding ∨ (∃ rest, pl = .applying rest) →
      (s'.txns u).writes = (s.txns u).writes ∧ u ∉ s.committedTxns := fun u pl hpl hor => by
    have hd : pl.dispatched = true ∧ pl ≠ .running (.reading []) := by
      rcases hor with rfl | ⟨rest, rfl⟩ <;> simp [Place.dispatched]
    exact ⟨writes_kept hnodup hstep hpl hd.1 hd.2,
      notMem_committed (staged_of_run h honce u pl hpl hd.1) (.inr hor)⟩
  cases step_applyEffect hstep with
  | decide u hpc hpc' hlog hcom hst =>
    obtain ⟨hw, hno⟩ := hplace u .deciding (mem_places.mpr hpc) (.inl rfl)
    refine ⟨fun w hmem => ?_, fun w rest hw' => ?_, fun w hmem hsched => ?_⟩
    · rw [hcom] at hmem
      rw [writeLog_append, hlog, List.append_nil, hcommitted w hmem, app.written w hmem]
    · obtain ⟨rfl, rfl⟩ : u = w ∧ (s.txns u).writes.entries = rest := by
        simpa using hpc'.symm.trans hw'
      rw [writeLog_append, hlog, List.append_nil, hw, app.unwritten u hno (by simp [hpc]),
        List.nil_append]
    · rw [writeLog_append, hlog, List.append_nil]
      exact app.unwritten w (hcom ▸ hmem) (by simp [hpc])
  | write u x rest hpc hpc' he hcom hst =>
    subst he
    obtain ⟨hw, hno⟩ := hplace u (.applying (x :: rest)) (mem_places.mpr hpc) (.inr ⟨_, rfl⟩)
    have hlog : ∀ w, writeLog [Event.write u x.1 x.2] w = if u = w then [x] else [] :=
      fun w => writeLog_write u x.1 x.2 w
    refine ⟨fun w hmem => ?_, fun w rest' hw' => ?_, fun w hmem hsched => ?_⟩
    · rw [hcom] at hmem
      have hne : u ≠ w := fun heq => hno (heq ▸ hmem)
      rw [writeLog_append, hlog, if_neg hne, List.append_nil, hcommitted w hmem,
        app.written w hmem]
    · obtain ⟨rfl, rfl⟩ : u = w ∧ rest = rest' := by simpa using hpc'.symm.trans hw'
      rw [writeLog_append, hlog, if_pos rfl, hw, ← app.writing u _ hpc, List.append_assoc]
      rfl
    · have hne : u ≠ w := by
        rintro rfl
        exact hsched _ hpc'
      rw [writeLog_append, hlog, if_neg hne, List.append_nil]
      refine app.unwritten w (hcom ▸ hmem) fun rest' hw' => hne ?_
      simp only [hpc, SchedPc.applying.injEq] at hw'
      exact hw'.1
  | commit u hpc hpc' hlog hcom hst =>
    obtain ⟨hw, _⟩ := hplace u (.applying []) (mem_places.mpr hpc) (.inr ⟨_, rfl⟩)
    refine ⟨fun w hmem => ?_, fun w rest' hw' => ?_, fun w hmem hsched => ?_⟩
    · rw [writeLog_append, hlog, List.append_nil]
      rw [hcom] at hmem
      rcases List.mem_append.mp hmem with hold | hnew
      · rw [hcommitted w hold, app.written w hold]
      · obtain rfl := List.mem_singleton.mp hnew
        rw [hw, ← app.writing w [] hpc, List.append_nil]
    · rw [hpc'] at hw'
      cases hw'
    · rw [writeLog_append, hlog, List.append_nil]
      rw [hcom, List.mem_append, List.mem_singleton, not_or] at hmem
      refine app.unwritten w hmem.1 fun rest hw' => hmem.2 ?_
      simp only [hpc, SchedPc.applying.injEq] at hw'
      exact hw'.1.symm
  | other hpc hlog hcom hst =>
    refine ⟨fun w hmem => ?_, fun w rest hw' => ?_, fun w hmem hsched => ?_⟩
    · rw [hcom] at hmem
      rw [writeLog_append, hlog, List.append_nil, hcommitted w hmem, app.written w hmem]
    · have hold := (hpc w rest).mp hw'
      obtain ⟨hw, _⟩ := hplace w (.applying rest) (mem_places.mpr hold) (.inr ⟨_, rfl⟩)
      rw [writeLog_append, hlog, List.append_nil, hw, app.writing w rest hold]
    · rw [writeLog_append, hlog, List.append_nil]
      exact app.unwritten w (hcom ▸ hmem) fun rest hw' => hsched rest ((hpc w rest).mpr hw')

theorem applied_of_run (h : Runs code txns storage ts tr s) (honce : (dispatched tr).Nodup) :
    Applied tr s := by
  refine h.invariant (I := fun tr s => (dispatched tr).Nodup → Applied tr s) ?_ ?_ honce
  · intro _
    exact ⟨fun u hu => absurd hu List.not_mem_nil, fun u rest hpc => (by cases hpc),
      fun _ _ _ => rfl⟩
  · intro tr s e s' hr ih hstep honce'
    have hold := nodup_of_append honce'
    exact (ih hold).step hr hold hstep

theorem startIdx_le (h : Runs code txns storage ts tr s) (honce : (dispatched tr).Nodup)
    (hmem : (t, pl) ∈ s.places) (hpast : pl.PastSize) :
    (s.txns t).occStartIdx ≤ s.committedTxns.length := by
  refine h.invariant (I := fun tr s => (dispatched tr).Nodup → ∀ t pl, (t, pl) ∈ s.places →
    pl.PastSize → (s.txns t).occStartIdx ≤ s.committedTxns.length) ?_ ?_ honce t pl hmem hpast
  · intro _ t pl hmem hpast
    have hnil : State.taken (State.init lm txns storage ts) = [] :=
      List.perm_nil.mp (taken_of_run (.nil : Runs code txns storage ts [] _))
    have ht := mem_taken.mpr ⟨pl, hmem, hpast.1⟩
    rw [hnil] at ht
    exact absurd ht List.not_mem_nil
  · intro tr s e s' hr ih hstep honce t pl' hmem hpast
    have hold := ih (nodup_of_append honce)
    have hlen := (step_applyEffect hstep).committed_grows.length_le
    rcases taken_at_step tr (taken_nodup (hr.snoc hstep) honce) hstep hmem hpast.1 with
      ⟨hmem₀, id, hv⟩ | ⟨pl, hpl, hl⟩
    · have hidx : (s'.txns t).occStartIdx = (s.txns t).occStartIdx :=
        congrArg (fun v : View => v.txn.occStartIdx) hv
      have hle := hold t pl' hmem₀ hpast
      omega
    · rcases hl.startIdx with ⟨n, rfl, hn⟩ | ⟨hidx, hpast₀⟩
      · obtain ⟨hsize, hcom⟩ := size_event hstep
        have hidx : (s'.txns t).occStartIdx = s.committedSize := hn.trans hsize
        have hle : s.committedSize ≤ s.committedTxns.length := CInt.toInt_le (Int.natCast_nonneg _)
        rw [hidx, hcom]
        exact hle
      · have hidx' : (s'.txns t).occStartIdx = (s.txns t).occStartIdx := hidx
        have hle := hold t pl hpl (hpast₀ hpast)
        omega

theorem place_of_read (h : Runs code txns storage ts tr s) (honce : (dispatched tr).Nodup)
    {k : Key} {v : Option Value} (hread : Event.read t k v ∈ tr) :
    ∃ pl, (t, pl) ∈ s.places ∧ pl.PastSize := by
  have hlog : readLog tr t ≠ [] := List.ne_nil_of_mem (mem_readLog.mpr hread)
  have hdis : t ∈ dispatched tr := by
    by_contra hno
    exact hlog (undispatched h hno).1
  obtain ⟨pl, hpl, hd⟩ := mem_taken.mp ((taken_of_run h).mem_iff.mpr hdis)
  have hstaged := staged_of_run h honce t pl hpl hd
  refine ⟨pl, hpl, hd, ?_, ?_⟩
  · rintro rfl
    exact hlog hstaged.1
  · rintro rfl
    exact hlog hstaged.1

/-- What committed below the noted index was in the store before the first read. -/
theorem committed_before (h : Runs code txns storage ts tr s) (honce : (dispatched tr).Nodup) :
    ∀ tr₁ tr₂ t k v, tr = tr₁ ++ Event.read t k v :: tr₂ → ∀ (i : Nat) u,
      (i : Int) < (s.txns t).occStartIdx → s.committedTxns[i]? = some u →
        writeLog tr₁ u = (s.txns u).writes.entries := by
  refine h.invariant (I := fun tr s => (dispatched tr).Nodup → ∀ tr₁ tr₂ t k v,
    tr = tr₁ ++ Event.read t k v :: tr₂ → ∀ (i : Nat) u, (i : Int) < (s.txns t).occStartIdx →
      s.committedTxns[i]? = some u → writeLog tr₁ u = (s.txns u).writes.entries) ?_ ?_ honce
  · intro _ tr₁ tr₂ t k v heq
    simp at heq
  · intro tr s e s' hr ih hstep honce tr₁ tr₂ t k v heq i u hi hu
    have hold := nodup_of_append honce
    have hnodup := taken_nodup hr hold
    -- the read is an old event, or the step itself
    have hread : (∃ tr₂', tr₂ = tr₂' ++ [e] ∧ tr = tr₁ ++ Event.read t k v :: tr₂') ∨
        (tr₁ = tr ∧ e = .read t k v) := by
      rcases List.eq_nil_or_concat tr₂ with rfl | ⟨tr₂', a, rfl⟩
      · obtain ⟨rfl, he⟩ := List.append_inj' heq rfl
        exact .inr ⟨rfl, List.singleton_inj.mp he⟩
      · have hassoc : tr ++ [e] = (tr₁ ++ Event.read t k v :: tr₂') ++ [a] := by simpa using heq
        obtain ⟨rfl, he⟩ := List.append_inj' hassoc rfl
        exact .inl ⟨tr₂', by rw [List.singleton_inj.mp he]; simp, rfl⟩
    obtain ⟨pl, hpl, hpast⟩ : ∃ pl, (t, pl) ∈ s.places ∧ pl.PastSize := by
      rcases hread with ⟨tr₂', _, htr⟩ | ⟨_, rfl⟩
      · exact place_of_read hr hold (by rw [htr]; exact List.mem_append_right _ List.mem_cons_self)
      · obtain ⟨_, rest, hmem⟩ := read_event hstep
        exact ⟨_, hmem, rfl, by simp, by simp⟩
    have hidx := startIdx_kept hnodup hstep hpl hpast
    have hle := startIdx_le hr hold hpl hpast
    rw [hidx] at hi
    have hlt : i < s.committedTxns.length := by omega
    have hu₀ : s.committedTxns[i]? = some u := by
      obtain ⟨l, hl⟩ := (step_applyEffect hstep).committed_grows
      rwa [← hl, List.getElem?_append_left hlt] at hu
    have hmem := List.mem_of_getElem? hu₀
    obtain ⟨plu, hplu, hdu, hneu⟩ := place_of_committed hr hold hmem
    rw [writes_kept hnodup hstep hplu hdu hneu]
    rcases hread with ⟨tr₂', _, htr⟩ | ⟨rfl, _⟩
    · exact ih hold tr₁ tr₂' t k v htr i u hi hu₀
    · exact (applied_of_run hr hold).written u hmem

/-- A transaction that is past the noted index or being committed has written `k`. -/
def State.Overwritten (s : State lm) (t : TxnPtr) (k : Key) : Prop :=
  (∃ i : Nat, ∃ u, (s.txns t).occStartIdx ≤ i ∧ s.committedTxns[i]? = some u ∧
    k ∈ (s.txns u).writes.keys) ∨
  ∃ u rest, s.sched = .applying u rest ∧ rest.length < (s.txns u).writes.entries.length ∧
    k ∈ (s.txns u).writes.keys

theorem State.Overwritten.step {k : Key} (hover : s.Overwritten t k)
    (h : Runs code txns storage ts tr s) (honce : (dispatched tr).Nodup)
    (hstep : Step code s e s') (hmem : (t, pl) ∈ s.places) (hpast : pl.PastSize) :
    s'.Overwritten t k := by
  have hnodup := taken_nodup h honce
  have hidx := startIdx_kept hnodup hstep hmem hpast
  rcases hover with ⟨i, u, hi, hu, hk⟩ | ⟨u, rest, hpc, hlen, hk⟩
  · obtain ⟨plu, hplu, hdu, hneu⟩ := place_of_committed h honce (List.mem_of_getElem? hu)
    refine .inl ⟨i, u, hidx ▸ hi, ?_, ?_⟩
    · obtain ⟨l, hl⟩ := (step_applyEffect hstep).committed_grows
      rw [← hl, List.getElem?_append_left (List.getElem?_eq_some_iff.mp hu).1]
      exact hu
    · rwa [writes_kept hnodup hstep hplu hdu hneu]
  · have hplu : (u, Place.applying rest) ∈ s.places := mem_places.mpr hpc
    have hw := writes_kept hnodup hstep hplu rfl (by simp)
    cases step_applyEffect hstep with
    | decide w hpc' _ _ _ _ =>
      rw [hpc] at hpc'
      cases hpc'
    | write w x rest' hpc' hpc'' _ _ _ =>
      obtain ⟨rfl, rfl⟩ : u = w ∧ rest = x :: rest' := by simpa using hpc.symm.trans hpc'
      refine .inr ⟨u, rest', hpc'', ?_, hw.symm ▸ hk⟩
      rw [hw]
      exact (Nat.lt_succ_self _).trans hlen
    | commit w hpc' _ _ hcom _ =>
      -- the push gives `u` the index `committedTxns.length`, which no noted index exceeds
      obtain ⟨rfl, _⟩ : u = w ∧ rest = [] := by simpa using hpc.symm.trans hpc'
      have hle := startIdx_le h honce hmem hpast
      exact .inl ⟨s.committedTxns.length, u, hidx ▸ hle, by rw [hcom]; simp, hw.symm ▸ hk⟩
    | other hpc' _ _ _ =>
      exact .inr ⟨u, rest, (hpc' u rest).mpr hpc, hw.symm ▸ hlen, hw.symm ▸ hk⟩

/-- A value that was read is still in the store, or the window shows who overwrote it. -/
theorem read_or_overwritten (h : Runs code txns storage ts tr s) (honce : (dispatched tr).Nodup) :
    ∀ t k v, Event.read t k v ∈ tr → v = s.storage.read k ∨ s.Overwritten t k := by
  refine h.invariant (I := fun tr s => (dispatched tr).Nodup → ∀ t k v, Event.read t k v ∈ tr →
    v = s.storage.read k ∨ s.Overwritten t k) ?_ ?_ honce
  · intro _ t k v hmem
    simp at hmem
  · intro tr s e s' hr ih hstep honce t k v hread
    have hold := nodup_of_append honce
    have hstorage := step_applyEffect hstep
    rcases List.mem_append.mp hread with hread | hnew
    · obtain ⟨pl, hpl, hpast⟩ := place_of_read hr hold hread
      rcases ih hold t k v hread with hv | hover
      · cases hstorage with
        | decide _ _ _ _ _ hst => exact .inl (by rw [hst]; exact hv)
        | commit _ _ _ _ _ hst => exact .inl (by rw [hst]; exact hv)
        | other _ _ _ hst => exact .inl (by rw [hst]; exact hv)
        | write u x rest hpc hpc' he hcom hst =>
          have hplu : (u, Place.applying (x :: rest)) ∈ s.places := mem_places.mpr hpc
          have hw := writes_kept (taken_nodup hr hold) hstep hplu rfl (by simp)
          have hentries := (applied_of_run hr hold).writing u _ hpc
          by_cases hk : k = x.1
          · refine .inr (.inr ⟨u, rest, hpc', ?_, ?_⟩)
            · rw [hw, ← hentries, List.length_append, List.length_cons]
              omega
            · rw [hw, hk]
              exact List.mem_map_of_mem (hentries ▸ List.mem_append_right _ List.mem_cons_self)
          · left
            rw [hv, Storage.read, Storage.read, hst, Function.update_of_ne hk]
      · exact .inr (hover.step hr hold hstep hpl hpast)
    · obtain rfl := List.mem_singleton.mp hnew
      left
      cases hstep with
      | read _ => rfl

theorem storage_of_run (h : Runs code txns storage ts tr s) : s.storage = storage.withLog tr := by
  refine h.invariant (I := fun tr s => s.storage = storage.withLog tr) rfl ?_
  intro tr s e s' _ ih hstep
  have hdata : s.storage.data = tr.foldl Event.applyTo storage.data := congrArg Storage.data ih
  rw [Storage.withLog, List.foldl_append, ← hdata]
  exact congrArg Storage.mk (data_of_step hstep)

/-- What a read finds is what the writes before it have left. -/
theorem read_of_run (h : Runs code txns storage ts tr s) {tr₁ tr₂ : List Event} {k : Key}
    {v : Option Value} (heq : tr = tr₁ ++ Event.read t k v :: tr₂) :
    v = (storage.withLog tr₁).read k := by
  rw [heq] at h
  obtain ⟨s₁, s₂, hbefore, hread, _⟩ := h.split
  rw [← storage_of_run hbefore]
  exact (read_event hread).1

/-- Between the first write of an `ApplyWrites` and the push on `committed_txns_`. -/
def State.MidCommit (s : State lm) : Prop :=
  ∃ u rest, s.sched = .applying u rest ∧ rest.length < (s.txns u).writes.entries.length

/-- The optimistic validation window is sound. -/
theorem validation_window (h : Runs code txns storage ts tr s) (honce : (dispatched tr).Nodup)
    (t : TxnPtr) :
    (∀ tr₁ tr₂ k v, tr = tr₁ ++ Event.read t k v :: tr₂ → ∀ (i : Nat) u,
      (i : Int) < (s.txns t).occStartIdx → s.committedTxns[i]? = some u →
        writeLog tr₁ u = (s.txns u).writes.entries) ∧
    (∀ tr₁ tr₂ k v, tr = tr₁ ++ Event.read t k v :: tr₂ → v = (storage.withLog tr₁).read k) ∧
    s.storage = storage.withLog tr ∧
    (¬s.MidCommit → (∃ pl, (t, pl) ∈ s.places ∧ pl.ReadsDone) →
      (∀ (i : Nat) u, (s.txns t).occStartIdx ≤ i → s.committedTxns[i]? = some u →
        ∀ k ∈ (s.txns u).writes.keys, k ∉ (code t).keys) →
      readLog tr t = (code t).keys.map fun k => (k, s.storage.read k)) := by
  refine ⟨fun tr₁ tr₂ => committed_before h honce tr₁ tr₂ t,
    fun tr₁ tr₂ k v heq => read_of_run h heq, storage_of_run h,
    fun hmid ⟨pl, hpl, hdone⟩ hwindow => ?_⟩
  have hkeys : (readLog tr t).map Prod.fst = (code t).keys :=
    (staged_of_run h honce t pl hpl hdone.dispatched).reads_done hdone
  have hvalue : ∀ x ∈ readLog tr t, x.2 = s.storage.read x.1 := by
    rintro ⟨k, v⟩ hx
    have hk : k ∈ (code t).keys := hkeys ▸ List.mem_map_of_mem hx
    rcases read_or_overwritten h honce t k v (mem_readLog.mp hx) with hv | ⟨i, u, hi, hu, hw⟩ |
      ⟨u, rest, hpc, hlen, _⟩
    · exact hv
    · exact absurd hk (hwindow i u hi hu k hw)
    · exact absurd ⟨u, rest, hpc, hlen⟩ hmid
  rw [← hkeys, List.map_map]
  conv_lhs => rw [← List.map_id (readLog tr t)]
  exact List.map_congr_left fun x hx => Prod.ext rfl (hvalue x hx)

end Runs

/-- With a lock manager that grants everything, the second transaction starts to read when
the first has committed. -/
theorem rmw_run_window : ∃ tr, ∃ s : State stubLockManager,
    Runs (fun _ => rmw .empty (.singleton 6)) (fun _ => ⟨unrun .empty, 0, 0⟩)
      ⟨fun _ => some 2⟩ [0, 1] tr s ∧ (dispatched tr).Nodup ∧ s.sched = .marking 0 ∧
      (1, ExecPc.reading []) ∈ s.running ∧ s.committedTxns = [0] ∧ (s.txns 1).occStartIdx = 1 ∧
      ∃ tr₁, tr = tr₁ ++ [.read 1 6 (some 3)] := by
  have run : Runs (fun _ => rmw .empty (.singleton 6))
      (fun _ => ⟨unrun .empty, 0, 0⟩) ⟨fun _ => some 2⟩ [0, 1] []
      (State.init stubLockManager _ _ _) := .nil
  have run := run.snoc
    (.request (a := []) rfl (Processor.newTxnRequest_eq_some.mpr ⟨by decide, rfl⟩))
  have run := run.snoc
    (.request (a := []) rfl (Processor.newTxnRequest_eq_some.mpr ⟨by decide, rfl⟩))
  have run := run.snoc (.pop rfl rfl rfl)
  have run := run.snoc (.lock rfl)
  have run := run.snoc (.ready rfl)
  have run := run.snoc (.noCompleted rfl rfl)
  have run := run.snoc (.dispatch rfl rfl)
  have run := run.snoc (.noReady rfl rfl)
  have run := run.snoc (.pop rfl rfl rfl)
  have run := run.snoc (.lock rfl)
  have run := run.snoc (.ready rfl)
  have run := run.snoc (.noCompleted rfl rfl)
  have run := run.snoc (.dispatch rfl rfl)
  have run := run.snoc (.noReady rfl rfl)
  have run := run.snoc (.start (a := []) rfl)
  have run := run.snoc (.size (a := []) rfl)
  have run := run.snoc (.read (a := []) rfl)
  have run := run.snoc (.run (a := []) rfl (Processor.runTxn_eq_some.mpr ⟨_, rfl, rfl⟩))
  have run := run.snoc (.complete (a := []) rfl)
  have run := run.snoc (.noRequest rfl rfl rfl)
  have run := run.snoc (.take rfl rfl)
  have run := run.snoc (.decide rfl rfl)
  have run := run.snoc (.write rfl)
  have run := run.snoc (.commit rfl)
  have run := run.snoc (.start (a := []) rfl)
  have run := run.snoc (.size (a := []) rfl)
  have run := run.snoc (.read (a := []) rfl)
  refine ⟨_, _, run, by simp [dispatched], rfl, by simp, rfl, ?_, _, rfl⟩
  simp [Processor.committedSize, Processor.init, State.init, CInt.toInt]

theorem validation_window_rmw : ∃ tr tr₁, ∃ s : State stubLockManager,
    tr = tr₁ ++ [.read 1 6 (some 3)] ∧ writeLog tr₁ 0 = (s.txns 0).writes.entries ∧
    readLog tr 1 = [(6, s.storage.read 6)] := by
  obtain ⟨tr, s, h, honce, hpc, hrun, hcom, hidx, tr₁, heq⟩ := rmw_run_window
  obtain ⟨hbefore, _, _, hreads⟩ := validation_window h honce 1
  have hpl : (1, Place.running (.reading [])) ∈ s.places := mem_places.mpr hrun
  have hbelow : ((0 : Nat) : Int) < (s.txns 1).occStartIdx := by rw [hidx]; decide
  refine ⟨tr, tr₁, s, heq, hbefore tr₁ [] 6 (some 3) heq 0 0 hbelow (by rw [hcom]; rfl),
    hreads ?_ ⟨_, hpl, rfl⟩ ?_⟩
  · rintro ⟨u, rest, hpc', _⟩
    simp [hpc] at hpc'
  · intro i u hi hu
    have hlt := (List.getElem?_eq_some_iff.mp hu).1
    rw [hcom, List.length_singleton] at hlt
    omega

end Cmsc624.A2
