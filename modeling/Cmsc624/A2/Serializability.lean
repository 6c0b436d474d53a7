import Cmsc624.A2.Accounting
import Cmsc624.A2.Isolation
import Cmsc624.A2.SerialScheduler

/-!
# The locking modes agree with SERIAL

The invariant compares a run with `machine`, applied to the ended transactions in the
order in which they ended: the store is what they leave (`State.Stored`), and what a
transaction in flight has read is still what it would read now (`View.Matches`). Two
transactions that conflict end in the order of submission, so that order gives the
same, and it is the order in which `RunSerialScheduler` processes them.
-/

namespace Cmsc624.A2

open Lib

set_option autoImplicit false

/-- What a transaction has read and computed is what it gives on the contents `data`. -/
def View.Matches (c : TxnCode) (data : Key → Option Value) (v : View) : Prop :=
  match v.place with
  | .running .size => v.txn.Fresh ∧ v.log = []
  | .running (.reading rest) => ∃ done, done ++ rest = c.keys ∧
      v.txn.toBuffers = unrun (readAll data done) ∧ v.log = done.map fun k => (k, data k)
  | .running .pushing | .completed | .deciding =>
    c.run (unrun (readAll data c.keys)) = some v.txn.toBuffers ∧
      v.log = c.keys.map fun k => (k, data k)
  | .applying _ | .marking => (c.run (unrun (readAll data c.keys)) = some v.txn.toBuffers ∧
      v.log = c.keys.map fun k => (k, data k)) ∧ v.txn.status = .completedC
  | .releasing _ | .result | .handed => True
  | _ => v.txn.Fresh ∧ v.log = []

section Matches
variable {c : TxnCode} {read data data' : Key → Option Value} {t : TxnPtr} {e : Event}
  {v v' : View}

theorem log_congr {ks : List Key} (h : ∀ k ∈ ks, data k = data' k) :
    (ks.map fun k => (k, data k)) = ks.map fun k => (k, data' k) :=
  List.map_congr_left fun k hk => by rw [h k hk]

theorem View.Matches.congr (h : v.Matches c data)
    (hagree : v.place.InFlight → ∀ k ∈ c.keys, data k = data' k) : v.Matches c data' := by
  obtain ⟨pl, x, com, st, fin, log⟩ := v
  have hran : pl.InFlight → c.run (unrun (readAll data c.keys)) = some x.toBuffers ∧
      (log = c.keys.map fun k => (k, data k)) →
      c.run (unrun (readAll data' c.keys)) = some x.toBuffers ∧
      log = c.keys.map fun k => (k, data' k) := fun hpl hrun => by
    rw [← readAll_congr (hagree hpl), ← log_congr (hagree hpl)]
    exact hrun
  cases pl with
  | running pc =>
    cases pc with
    | size => exact h
    | reading rest =>
      obtain ⟨done, hdone, hx, hlog⟩ := h
      have hsub : ∀ k ∈ done, data k = data' k := fun k hk =>
        hagree ⟨trivial, id⟩ k (hdone ▸ List.mem_append_left _ hk)
      exact ⟨done, hdone, by rw [← readAll_congr hsub]; exact hx,
        by rw [← log_congr hsub]; exact hlog⟩
    | pushing => exact hran ⟨trivial, id⟩ h
  | completed => exact hran ⟨trivial, id⟩ h
  | deciding => exact hran ⟨trivial, id⟩ h
  | applying rest => exact ⟨hran ⟨trivial, id⟩ h.1, h.2⟩
  | marking => exact ⟨hran ⟨trivial, id⟩ h.1, h.2⟩
  | _ => exact h

/-- Every move but the ending keeps it, if the store shows `data` where the
transaction reads. -/
theorem View.Matches.step (h : v.Matches c data) (hlife : Life c read t e v v')
    (hread : ∀ k ∈ c.keys, v.place.InFlight → (∃ rest, v.place = .running rest) → read k = data k) :
    v'.Matches c data := by
  obtain ⟨pl, x, com, st, fin, log⟩ := v
  cases hlife with
  | request id hv =>
    obtain rfl : pl = _ := hv
    exact h
  | pop hv =>
    obtain rfl : pl = _ := hv
    exact h
  | lock hv =>
    obtain rfl : pl = _ := hv
    exact h
  | ready hv =>
    obtain rfl : pl = _ := hv
    exact h
  | park hv => exact h
  | wake hu hw hv =>
    obtain rfl : pl = _ := hv
    exact h
  | dispatch hv =>
    obtain rfl : pl = _ := hv
    exact h
  | start hv =>
    obtain rfl : pl = _ := hv
    exact h
  | size n hv =>
    obtain rfl : pl = _ := hv
    exact ⟨[], rfl, h.1, h.2⟩
  | @read _ k rest hv =>
    obtain rfl : pl = _ := hv
    obtain ⟨done, hdone, hx, hlog⟩ := h
    have hk : read k = data k := hread k (by simp [← hdone]) ⟨trivial, id⟩ ⟨_, rfl⟩
    refine ⟨done ++ [k], by simpa using hdone, ?_, ?_⟩
    · rw [readAll_append_singleton, ← saveRead_congr hk]
      exact saveRead_unrun hx k
    · have hlog' : log = done.map fun k => (k, data k) := hlog
      simp [hlog', hk]
  | run hv hb =>
    obtain rfl : pl = _ := hv
    obtain ⟨done, hdone, hx, hlog⟩ := h
    obtain rfl : done = c.keys := by simpa using hdone
    exact ⟨hx ▸ hb, hlog⟩
  | complete hv =>
    obtain rfl : pl = _ := hv
    exact h
  | take hv =>
    obtain rfl : pl = _ := hv
    exact h
  | decide hv hst =>
    obtain rfl : pl = _ := hv
    exact ⟨h, hst⟩
  | write hv =>
    obtain rfl : pl = _ := hv
    exact h
  | commit hv =>
    obtain rfl : pl = _ := hv
    exact h
  | _ => trivial

theorem View.Matches.run_eq (h : v.Matches c data)
    (hpl : v.place = .deciding ∨ (∃ rest, v.place = .applying rest) ∨ v.place = .marking) :
    c.run (unrun (readAll data c.keys)) = some v.txn.toBuffers ∧
      v.log = c.keys.map fun k => (k, data k) := by
  obtain ⟨pl, x, com, st, fin, log⟩ := v
  rcases hpl with rfl | ⟨rest, rfl⟩ | rfl
  · exact h
  · exact h.1
  · exact h.1

end Matches

/-- The store is `data`, but for the writes that the scheduler is applying. -/
def State.Stored {lm : LockManager} (data : Key → Option Value) (s : State lm) : Prop :=
  match s.sched with
  | .applying t rest => ∃ done, done ++ rest = (s.txns t).writes.entries ∧
      s.storage.data = assign done data
  | .marking t => s.storage.data = assign (s.txns t).writes.entries data
  | _ => s.storage.data = data

section Store
variable {lm : LockManager} {code : TxnPtr → TxnCode} {ts : List TxnPtr} {tr : List Event}
  {s s' : State lm} {e : Event} {data : Key → Option Value} {t : TxnPtr}

/-- The writes of the transaction in the scheduler's hands, which the store may show
already. -/
def SchedPc.writer : SchedPc → Option TxnPtr
  | .applying t _ => some t
  | .marking t => some t
  | _ => none

theorem State.stored_idle (hs : s.sched.writer = none) :
    s.Stored data ↔ s.storage.data = data := by
  unfold State.Stored
  cases h : s.sched <;> simp_all [SchedPc.writer]

theorem State.stored_applying {rest : List (Key × Value)} (hpc : s.sched = .applying t rest) :
    s.Stored data ↔ ∃ done, done ++ rest = (s.txns t).writes.entries ∧
      s.storage.data = assign done data := by
  unfold State.Stored
  rw [hpc]

theorem State.stored_marking (hpc : s.sched = .marking t) :
    s.Stored data ↔ s.storage.data = assign (s.txns t).writes.entries data := by
  unfold State.Stored
  rw [hpc]

theorem State.Stored.same (h : s.Stored data) (hpc : s'.sched = s.sched)
    (hst : s'.storage = s.storage)
    (hw : ∀ t, s.sched.writer = some t → (s'.txns t).writes = (s.txns t).writes) :
    s'.Stored data := by
  cases hs : s.sched with
  | applying t rest =>
    rw [State.stored_applying hs] at h
    rw [State.stored_applying (hpc.trans hs), hst, hw t (by rw [hs]; rfl)]
    exact h
  | marking t =>
    rw [State.stored_marking hs] at h
    rw [State.stored_marking (hpc.trans hs), hst, hw t (by rw [hs]; rfl)]
    exact h
  | _ =>
    rw [State.stored_idle (by rw [hs]; rfl)] at h
    rw [State.stored_idle (by rw [hpc, hs]; rfl), hst]
    exact h

theorem writer_places (h : s.sched.writer = some t) :
    ∃ pl, (t, pl) ∈ s.places ∧ pl.InFlight ∧ ((∃ rest, pl = .applying rest) ∨ pl = .marking) := by
  cases hs : s.sched with
  | applying u rest =>
    obtain rfl : u = t := by simpa [hs, SchedPc.writer] using h
    exact ⟨.applying rest, mem_places.mpr hs, ⟨trivial, id⟩, .inl ⟨rest, rfl⟩⟩
  | marking u =>
    obtain rfl : u = t := by simpa [hs, SchedPc.writer] using h
    exact ⟨.marking, mem_places.mpr hs, ⟨trivial, id⟩, .inr rfl⟩
  | _ => simp [hs, SchedPc.writer] at h

/-- A worker does not touch the transaction that the scheduler is committing. -/
theorem not_writer_of_running {spec : LateGrant lm} (inv : Custody spec code ts s) {pc : ExecPc}
    (hrun : (t, pc) ∈ s.running) : s.sched.writer ≠ some t := by
  intro hw
  have hmem : (t, Place.running pc) ∈ s.places := mem_places.mpr hrun
  obtain ⟨pl, hpl, _, hplace⟩ := writer_places hw
  obtain rfl := inv.place_unique hmem hpl
  simp at hplace

theorem State.Stored.step {spec : LateGrant lm} (h : s.Stored data)
    (inv : Custody spec code ts s) (hstep : Step code s e s')
    (hmatch : ∀ t pl, (t, pl) ∈ s.places → (view tr s t pl).Matches (code t) data) :
    s'.Stored ((machine code).exec (finished [e]) data) := by
  cases hstep with
  | request hc hp =>
    obtain ⟨_, rfl⟩ := Processor.newTxnRequest_eq_some.mp hp
    exact h.same rfl rfl fun _ _ => update_field (fun x => x.writes) rfl
  | result _ => exact h.same rfl rfl fun _ _ => rfl
  | stop => exact h.same rfl rfl fun _ _ => rfl
  | start _ => exact h.same rfl rfl fun _ _ => rfl
  | complete _ => exact h.same rfl rfl fun _ _ => rfl
  | dispatch hpc _ => exact h.same rfl rfl fun _ _ => rfl
  | size _ => exact h.same rfl rfl fun _ _ => update_field (fun x => x.writes) rfl
  | read _ => exact h.same rfl rfl fun _ _ => update_field (fun x => x.writes) rfl
  | @run a b t p hrun hp =>
    obtain ⟨_, _, rfl⟩ := Processor.runTxn_eq_some.mp hp
    refine h.same rfl rfl fun u hu => ?_
    have hne : u ≠ t := by
      rintro rfl
      have hmem : (u, ExecPc.reading []) ∈ s.running := by simp [hrun]
      exact not_writer_of_running inv hmem hu
    exact congrArg (fun x : Txn => x.writes) (Function.update_of_ne hne _ _)
  | @decide t hpc hst =>
    have hdata := (State.stored_idle (by rw [hpc]; rfl)).mp h
    exact (State.stored_applying rfl).mpr ⟨[], rfl, hdata⟩
  | @write t x rest hpc =>
    obtain ⟨done, hdone, hdata⟩ := (State.stored_applying hpc).mp h
    refine (State.stored_applying rfl).mpr ⟨done ++ [x], by simpa using hdone, ?_⟩
    rw [assign_append]
    exact congrArg (assign [x]) hdata
  | @commit t hpc =>
    obtain ⟨done, hdone, hdata⟩ := (State.stored_applying hpc).mp h
    rw [List.append_nil] at hdone
    rw [hdone] at hdata
    exact (State.stored_marking rfl).mpr hdata
  | @mark t hpc =>
    have hm := hmatch t .marking (mem_places.mpr hpc)
    have hdata := (State.stored_marking hpc).mp h
    have heffect := TxnCode.effect_of_run (hm.run_eq (.inr (.inr rfl))).1
    rw [if_pos hm.2] at heffect
    exact (State.stored_idle rfl).mpr (hdata.trans heffect.symm)
  | @abort t hpc hst =>
    have hm := hmatch t .deciding (mem_places.mpr hpc)
    have hdata := (State.stored_idle (by rw [hpc]; rfl)).mp h
    have heffect := TxnCode.effect_of_run (hm.run_eq (.inl rfl)).1
    rw [if_neg (by simp [view, hst])] at heffect
    exact (State.stored_idle rfl).mpr (hdata.trans heffect.symm)
  | _ hpc =>
    have hdata := (State.stored_idle (by rw [hpc]; rfl)).mp h
    exact (State.stored_idle rfl).mpr hdata

theorem State.Stored.exists_writes {u : TxnPtr} (h : s.Stored data)
    (hw : s.sched.writer = some u) : ∃ es, s.storage.data = assign es data ∧
      ∀ x ∈ es, x ∈ (s.txns u).writes.entries := by
  cases hs : s.sched with
  | applying t rest =>
    obtain rfl : t = u := by simpa [hs, SchedPc.writer] using hw
    obtain ⟨done, hdone, hdata⟩ := (State.stored_applying hs).mp h
    exact ⟨done, hdata, fun x hx => hdone ▸ List.mem_append_left _ hx⟩
  | marking t =>
    obtain rfl : t = u := by simpa [hs, SchedPc.writer] using hw
    exact ⟨_, (State.stored_marking hs).mp h, fun _ hx => hx⟩
  | _ => simp [hs, SchedPc.writer] at hw

/-- Whatever the scheduler is writing, a transaction in flight reads from the store what
the ended transactions left. -/
theorem read_agrees {ccMode : CCMode} {doc : Documented lm ccMode} (two : TwoPhase doc code ts tr s)
    (inv : Custody doc.lateGrant code ts s) (h : s.Stored data)
    (hdecl : ∀ t ∈ ts, (code t).WritesDeclared)
    (hmatch : ∀ t pl, (t, pl) ∈ s.places → (view tr s t pl).Matches (code t) data)
    {pc : ExecPc} (hrun : (t, pc) ∈ s.running) :
    ∀ k ∈ (code t).keys, s.storage.read k = data k := by
  intro k hk
  have ht : (t, Place.running pc) ∈ s.places := mem_places.mpr hrun
  cases hw : s.sched.writer with
  | none => exact congrFun ((State.stored_idle hw).mp h) k
  | some u =>
    obtain ⟨pl, hpl, hflight, hplace⟩ := writer_places hw
    have hne : u ≠ t := by
      rintro rfl
      exact not_writer_of_running inv hrun hw
    have hnoconf := two.no_conflict inv hne hpl ht hflight ⟨trivial, id⟩
    obtain ⟨es, hdata, hes⟩ := h.exists_writes hw
    have hran := ((hmatch u pl hpl).run_eq (.inr hplace)).1
    have hnot : k ∉ es.map Prod.fst := by
      intro hmem
      obtain ⟨x, hx, rfl⟩ := List.mem_map.mp hmem
      have hwrites := hdecl u (inv.known u (mem_names_of_mem hpl)) _ _ hran x.1
        (List.mem_map_of_mem (hes x hx))
      exact hnoconf ⟨x.1, .inl ⟨hwrites, hk⟩⟩
    rw [Storage.read, hdata, assign_of_notMem hnot]

end Store

def endedData (code : TxnPtr → TxnCode) (storage : Storage) (tr : List Event) :
    Key → Option Value :=
  (machine code).exec (finished tr) storage.data

/-- A run so far, compared with `machine` on the transactions in the order of their ends. -/
structure Serializing {lm : LockManager} (code : TxnPtr → TxnCode) (ts : List TxnPtr)
    (storage : Storage) (tr : List Event) (s : State lm) : Prop where
  stored : s.Stored (endedData code storage tr)
  matched : ∀ t ∈ ts, ∀ pl, s.At t pl →
    (view tr s t pl).Matches (code t) (endedData code storage tr)
  ended : ∀ o ∈ (machine code).outcomes (finished tr) storage.data, Settled code s.txns o ∧
    readLog tr o.1 = (code o.1).keys.map fun k => (k, o.2.lookup k)

section Runs
variable {lm : LockManager} {code : TxnPtr → TxnCode} {ccMode : CCMode} {ts : List TxnPtr}
  {tr : List Event} {s s' : State lm} {e : Event} {txns : TxnPtr → Txn} {storage : Storage}
  {t u : TxnPtr}

theorem endedData_append (code : TxnPtr → TxnCode) (storage : Storage) (tr : List Event)
    (e : Event) : endedData code storage (tr ++ [e]) =
      (machine code).exec (finished [e]) (endedData code storage tr) := by
  rw [endedData, finished_append, Machine.exec_append, endedData]

theorem Life.matches_of_finish {c : TxnCode} {read data : Key → Option Value} {st : TxnStatus}
    {v v' : View} (h : Life c read t (.finish u st) v v') : v'.Matches c data := by
  cases h with
  | abort _ _ => trivial
  | mark _ => trivial

theorem Life.same_of_ended {c : TxnCode} {read : Key → Option Value} {v v' : View}
    (h : Life c read t e v v') (hv : v.place.Ended) :
    v'.txn = v.txn ∧ v'.log = v.log := by
  cases h with
  | release _ => exact ⟨rfl, rfl⟩
  | deliver _ => exact ⟨rfl, rfl⟩
  | hand _ => exact ⟨rfl, rfl⟩
  | _ => simp_all [Place.Ended]

theorem endedData_agree (doc : Documented lm ccMode) (hts : ts.Nodup)
    (hcode : ∀ t ∈ ts, (code t).checkReadWriteSets) (hdecl : ∀ t ∈ ts, (code t).WritesDeclared)
    (h : Runs code txns storage ts tr s) (hstep : Step code s e s') (hne : e.txn ≠ some t)
    {pl : Place} (hat : s.At t pl) (hflight : pl.InFlight) :
    ∀ k ∈ (code t).keys, endedData code storage tr k = endedData code storage (tr ++ [e]) k := by
  intro k hk
  rw [endedData_append]
  rcases finished_singleton e with hnil | ⟨u, st, rfl, hfin⟩
  · rw [hnil]
    rfl
  · have hut : u ≠ t := fun heq => hne (by rw [heq]; rfl)
    have hu := finish_event doc.lateGrant hts hcode h hstep
    obtain ⟨huts, plu, hplu, hflightu⟩ := place_of_inFlight doc.lateGrant hts hcode h hu
    have ht : (t, pl) ∈ s.places := hat.mem_places fun heq => by
      rw [heq] at hflight
      exact hflight.1
    have hnoconf := (twoPhase_of_run doc hts hcode h).no_conflict
      (custody_of_run doc.lateGrant hts hcode h) hut hplu ht hflightu hflight
    rw [hfin]
    refine (effect_frame (hdecl u huts) _ fun hw => ?_).symm
    exact hnoconf ⟨k, .inl ⟨hw, hk⟩⟩

theorem Serializing.init (hts : ts.Nodup) (spec : LateGrant lm)
    (hfresh : ∀ t ∈ ts, (txns t).Fresh) :
    Serializing code ts storage [] (State.init lm txns storage ts) where
  stored := (State.stored_idle rfl).mpr rfl
  matched t ht pl hat := by
    have inv : Custody spec code ts (State.init lm txns storage ts) := Custody.init hts
    have hclient : (State.init lm txns storage ts).At t .client := .inl (mem_places.mpr ht)
    rw [inv.at_unique hat hclient]
    exact ⟨hfresh t ht, rfl⟩
  ended o ho := absurd ho List.not_mem_nil

theorem Serializing.step_matched (ser : Serializing code ts storage tr s)
    (doc : Documented lm ccMode) (hts : ts.Nodup)
    (hcode : ∀ t ∈ ts, (code t).checkReadWriteSets) (hdecl : ∀ t ∈ ts, (code t).WritesDeclared)
    (h : Runs code txns storage ts tr s) (hstep : Step code s e s') (ht : t ∈ ts) {pl' : Place}
    (hat' : s'.At t pl') :
    (view (tr ++ [e]) s' t pl').Matches (code t) (endedData code storage (tr ++ [e])) := by
  have inv := custody_of_run doc.lateGrant hts hcode h
  obtain ⟨pl, hat, ⟨hne, _, hsame⟩ | hlife⟩ := inv.at_step tr hstep hat'
  · rw [hsame]
    exact (ser.matched t ht pl hat).congr fun hflight =>
      endedData_agree doc hts hcode hdecl h hstep hne hat hflight
  · rcases finished_singleton e with hnil | ⟨u, st, rfl, _⟩
    · rw [endedData_append, hnil]
      refine (ser.matched t ht pl hat).step hlife fun k hk _ hrun => ?_
      obtain ⟨pc, hpc⟩ := hrun
      obtain rfl : pl = .running pc := hpc
      have hmem := mem_places.mp (hat.mem_places (by simp))
      exact read_agrees (twoPhase_of_run doc hts hcode h) inv ser.stored hdecl
        (fun u plu hu => ser.matched u (inv.known u (mem_names_of_mem hu)) plu (.inl hu)) hmem k hk
    · exact hlife.matches_of_finish

/-- The last statement before the release loops. -/
theorem finish_effect {st : TxnStatus} (h : Step code s (.finish u st) s') :
    ((s.sched = .deciding u ∧ (s.txns u).status = .completedA ∧ st = .aborted) ∨
      (s.sched = .marking u ∧ st = .committed)) ∧
    (s'.txns u).toBuffers = { (s.txns u).toBuffers with status := st } := by
  cases h with
  | abort hpc hst =>
    exact ⟨.inl ⟨hpc, hst, rfl⟩, congrArg Txn.toBuffers (Function.update_self u _ s.txns)⟩
  | mark hpc => exact ⟨.inr ⟨hpc, rfl⟩, congrArg Txn.toBuffers (Function.update_self u _ s.txns)⟩

/-- A transaction that ends has the reads and the result that `machine` gives. -/
theorem Serializing.settled_of_finish {st : TxnStatus} (ser : Serializing code ts storage tr s)
    (hu : u ∈ ts) (hstep : Step code s (.finish u st) s') :
    Settled code s'.txns (u, readAll (endedData code storage tr) (code u).keys) ∧
      readLog tr u = (code u).keys.map fun k =>
        (k, (readAll (endedData code storage tr) (code u).keys).lookup k) := by
  have hlog : ∀ k ∈ (code u).keys, endedData code storage tr k =
      (readAll (endedData code storage tr) (code u).keys).lookup k := fun k hk => by
    rw [lookup_readAll, if_pos hk]
  obtain ⟨⟨hpc, hst, rfl⟩ | ⟨hpc, rfl⟩, hbuf⟩ := finish_effect hstep
  · have hm := ser.matched u hu .deciding (.inl (mem_places.mpr hpc))
    obtain ⟨hrun, hlogu⟩ := hm.run_eq (.inl rfl)
    refine ⟨⟨_, hrun, ?_, .inr hst⟩, hlogu.trans (log_congr hlog)⟩
    rw [hbuf]
    simp [Buffers.decided, view, hst]
  · have hm := ser.matched u hu .marking (.inl (mem_places.mpr hpc))
    obtain ⟨hrun, hlogu⟩ := hm.run_eq (.inr (.inr rfl))
    have hst : (s.txns u).status = .completedC := hm.2
    refine ⟨⟨_, hrun, ?_, .inl hst⟩, hlogu.trans (log_congr hlog)⟩
    rw [hbuf]
    simp [Buffers.decided, view, hst]

theorem Serializing.step_ended (ser : Serializing code ts storage tr s)
    (spec : LateGrant lm) (hts : ts.Nodup) (hcode : ∀ t ∈ ts, (code t).checkReadWriteSets)
    (h : Runs code txns storage ts tr s) (hstep : Step code s e s') :
    ∀ o ∈ (machine code).outcomes (finished (tr ++ [e])) storage.data, Settled code s'.txns o ∧
      readLog (tr ++ [e]) o.1 = (code o.1).keys.map fun k => (k, o.2.lookup k) := by
  have inv := custody_of_run spec hts hcode h
  have adm := admitted_of_run hts h
  have hkeep : ∀ o ∈ (machine code).outcomes (finished tr) storage.data,
      Settled code s'.txns o ∧
        readLog (tr ++ [e]) o.1 = (code o.1).keys.map fun k => (k, o.2.lookup k) := by
    intro o ho
    have hfin : o.1 ∈ finished tr := by
      rw [← (machine code).outcomes_map_fst (finished tr) storage.data]
      exact List.mem_map_of_mem ho
    have hots := adm.mem_ts (adm.popped_sublist.subset ((finished_log spec hts hcode h).2 _ hfin))
    obtain ⟨pl', hat'⟩ := s'.exists_at o.1
    obtain ⟨pl, hat, hmove⟩ := inv.at_step tr hstep hat'
    have hend := (mem_finished_iff spec hts hcode h hat hots).mp hfin
    obtain ⟨htxn, hlog⟩ : s'.txns o.1 = s.txns o.1 ∧ readLog (tr ++ [e]) o.1 = readLog tr o.1 := by
      rcases hmove with ⟨_, _, hsame⟩ | hlife
      · exact ⟨congrArg View.txn hsame, congrArg View.log hsame⟩
      · exact hlife.same_of_ended hend
    rw [Settled, htxn, hlog]
    exact ser.ended o ho
  rcases finished_singleton e with hnil | ⟨u, st, rfl, hfin⟩
  · rw [finished_append, hnil, List.append_nil]
    exact hkeep
  · have hu := finish_event spec hts hcode h hstep
    have huts := (place_of_inFlight spec hts hcode h hu).1
    rw [finished_append, hfin, Machine.outcomes_append]
    intro o ho
    rcases List.mem_append.mp ho with ho | ho
    · exact hkeep o ho
    · obtain rfl := List.mem_singleton.mp ho
      have hlog : readLog (tr ++ [.finish u st]) u = readLog tr u := by simp [readLog]
      rw [hlog]
      exact ser.settled_of_finish huts hstep

theorem serializing_of_run (doc : Documented lm ccMode) (hts : ts.Nodup)
    (hfresh : ∀ t ∈ ts, (txns t).Fresh) (hcode : ∀ t ∈ ts, (code t).checkReadWriteSets)
    (hdecl : ∀ t ∈ ts, (code t).WritesDeclared) (h : Runs code txns storage ts tr s) :
    Serializing code ts storage tr s := by
  refine h.invariant (Serializing.init hts doc.lateGrant hfresh) fun {tr s e s'} hr ser hstep => ?_
  have inv := custody_of_run doc.lateGrant hts hcode hr
  refine ⟨?_, fun t ht pl hat => ser.step_matched doc hts hcode hdecl hr hstep ht hat,
    ser.step_ended doc.lateGrant hts hcode hr hstep⟩
  rw [endedData_append]
  exact ser.stored.step inv hstep fun t pl hmem =>
    ser.matched t (inv.known t (mem_names_of_mem hmem)) pl (.inl hmem)

end Runs

section Complete
variable {lm : LockManager} {code : TxnPtr → TxnCode} {ccMode : CCMode} {ts L : List TxnPtr}
  {tr : List Event} {s : State lm} {txns : TxnPtr → Txn} {storage : Storage}

theorem finished_of_delivered (spec : LateGrant lm) (hts : ts.Nodup)
    (hcode : ∀ t ∈ ts, (code t).checkReadWriteSets) (h : Runs code txns storage ts tr s)
    {t : TxnPtr} (ht : t ∈ ts) (hdone : t ∈ s.txnResults ∨ t ∈ s.handed) : t ∈ finished tr := by
  rcases hdone with hres | hhand
  · have hpl : (t, Place.result) ∈ s.places := mem_places.mpr hres
    exact (mem_finished_iff spec hts hcode h (.inl hpl) ht).mpr trivial
  · have hpl : (t, Place.handed) ∈ s.places := mem_places.mpr hhand
    exact (mem_finished_iff spec hts hcode h (.inl hpl) ht).mpr trivial

theorem writer_of_delivered (spec : LateGrant lm) (hts : ts.Nodup)
    (hcode : ∀ t ∈ ts, (code t).checkReadWriteSets) (h : Runs code txns storage ts tr s)
    (hdone : ∀ t ∈ ts, t ∈ s.txnResults ∨ t ∈ s.handed) : s.sched.writer = none := by
  have inv := custody_of_run spec hts hcode h
  rw [Option.eq_none_iff_forall_not_mem]
  intro t hw
  obtain ⟨pl, hpl, hflight, _⟩ := writer_places hw
  have ht := inv.known t (mem_names_of_mem hpl)
  have hend := (mem_finished_iff spec hts hcode h (.inl hpl) ht).mp
    (finished_of_delivered spec hts hcode h ht (hdone t ht))
  exact hflight.2 hend

theorem orders_of_delivered (spec : LateGrant lm) (hts : ts.Nodup)
    (hcode : ∀ t ∈ ts, (code t).checkReadWriteSets) (h : Runs code txns storage ts tr s)
    (hdone : ∀ t ∈ ts, t ∈ s.txnResults ∨ t ∈ s.handed) :
    (requested tr).Perm ts ∧ (finished tr).Perm (requested tr) := by
  have adm := admitted_of_run hts h
  obtain ⟨hnodup, hsub⟩ := finished_log spec hts hcode h
  have hfin : ∀ t ∈ ts, t ∈ finished tr := fun t ht =>
    finished_of_delivered spec hts hcode h ht (hdone t ht)
  have hreq : ∀ t ∈ finished tr, t ∈ requested tr := fun t ht =>
    adm.popped_sublist.subset (hsub t ht)
  refine ⟨(List.perm_ext_iff_of_nodup (adm.requested_nodup hts) hts).mpr fun t => ?_,
    (List.perm_ext_iff_of_nodup hnodup (adm.requested_nodup hts)).mpr fun t => ?_⟩
  · exact ⟨adm.mem_ts, fun ht => hreq t (hfin t ht)⟩
  · exact ⟨hreq t, fun ht => hfin t (adm.mem_ts ht)⟩

theorem requested_eq_of_sorted (hts : ts.Nodup) (h : Runs code txns storage ts tr s)
    (hperm : L.Perm (requested tr))
    (hsorted : L.Pairwise fun t u => (s.txns t).uniqueId < (s.txns u).uniqueId) :
    L = requested tr :=
  hperm.eq_of_pairwise (fun _ _ _ _ hab hba => absurd hab hba.asymm) hsorted
    (admitted_of_run hts h).ascending

theorem Settled.unique {txns' : TxnPtr → Txn} {o : TxnPtr × OrderedMap Key Value}
    (h : Settled code txns o) (h' : Settled code txns' o) :
    (txns o.1).toBuffers = (txns' o.1).toBuffers := by
  obtain ⟨b, hb, hend, _⟩ := h
  obtain ⟨b', hb', hend', _⟩ := h'
  obtain rfl : b = b' := Option.some_inj.mp (hb.symm.trans hb')
  rw [hend, hend']

theorem outcome_unique {l : List TxnPtr} {data : Key → Option Value} (hl : l.Nodup)
    {o o' : TxnPtr × OrderedMap Key Value} (ho : o ∈ (machine code).outcomes l data)
    (ho' : o' ∈ (machine code).outcomes l data) (heq : o.1 = o'.1) : o = o' := by
  have hnodup : (((machine code).outcomes l data).map Prod.fst).Nodup := by
    rwa [Machine.outcomes_map_fst]
  exact List.inj_on_of_nodup_map hnodup ho ho' heq

/-- A complete run of a locking mode agrees with `RunSerialScheduler` on the order of the
submissions: the same final store, and for every transaction the same final buffers
(reads, writes and status) and the same answers of the store. -/
theorem serializable (doc : Documented lm ccMode) (hts : ts.Nodup)
    (hfresh : ∀ t ∈ ts, (txns t).Fresh) (hcode : ∀ t ∈ ts, (code t).checkReadWriteSets)
    (hvotes : ∀ t ∈ ts, (code t).AlwaysVotes) (hdecl : ∀ t ∈ ts, (code t).WritesDeclared)
    (h : Runs code txns storage ts tr s) (hdone : ∀ t ∈ ts, t ∈ s.txnResults ∨ t ∈ s.handed)
    (hperm : L.Perm ts)
    (hsorted : L.Pairwise fun t u => (s.txns t).uniqueId < (s.txns u).uniqueId) :
    ∃ p₁ final, Processor.submit L (Processor.init txns storage) = some p₁ ∧
      (∀ n, L.length ≤ n → Processor.runSerialScheduler code n p₁ = some final) ∧
      s.storage.data = final.storage.data ∧
      ∀ t ∈ ts, (s.txns t).toBuffers = (final.txns t).toBuffers ∧
        ∀ l r, L = l ++ t :: r → ∃ before,
          Processor.runSerialScheduler code l.length p₁ = some before ∧
          readLog tr t = (code t).keys.map fun k => (k, before.storage.read k) := by
  have spec := doc.lateGrant
  have adm := admitted_of_run hts h
  obtain ⟨hreq, hfin⟩ := orders_of_delivered spec hts hcode h hdone
  obtain rfl := requested_eq_of_sorted hts h (hperm.trans hreq.symm) hsorted
  have hmem : ∀ t ∈ requested tr, t ∈ ts := fun t ht => adm.mem_ts ht
  have hnodup := adm.requested_nodup hts
  obtain ⟨p₁, hsub⟩ : ∃ p₁, Processor.submit (requested tr) (Processor.init txns storage) =
      some p₁ :=
    exists_submit (adm.next_eq ▸ adm.next_le)
  have hrun := @serialized_of_submit code (requested tr) txns storage p₁ hnodup
    (fun t ht => hfresh t (hmem t ht)) (fun t ht => hvotes t (hmem t ht)) hsub
  have hstorage : p₁.storage = storage := (submitted_of_submit hsub).storage
  obtain ⟨final, hfinal, hqf, hserf⟩ := hrun (List.append_nil (requested tr)).symm
  have hfoot := fun t (ht : t ∈ requested tr) => footprint (hdecl t (hmem t ht))
  obtain ⟨hexec, hout⟩ := (machine code).reorder hfin hnodup
    (fun a ha b hb hc => (hfoot a ha).independent (hfoot b hb) hc)
    (finished_order doc hts hcode h) storage.data
  have ser := serializing_of_run doc hts hfresh hcode hdecl h
  have hserial := hserf.outcomes
  rw [hstorage] at hserial
  refine ⟨p₁, final, hsub, fun n hn => runSerialScheduler_of_le hn hfinal hqf, ?_, fun t ht => ?_⟩
  · have hdata := (State.stored_idle (writer_of_delivered spec hts hcode h hdone)).mp ser.stored
    rw [hdata, endedData, hexec, hserf.data, hstorage]
  · have htreq : t ∈ requested tr := hreq.mem_iff.mpr ht
    obtain ⟨o, ho, rfl⟩ : ∃ o ∈ (machine code).outcomes (requested tr) storage.data, o.1 = t := by
      rw [← (machine code).outcomes_map_fst (requested tr) storage.data] at htreq
      exact List.mem_map.mp htreq
    obtain ⟨hset, hlog⟩ := ser.ended o (hout.mem_iff.mpr ho)
    refine ⟨hset.unique (hserial o ho), fun l r heq => ?_⟩
    obtain ⟨before, hbefore, _, hserb⟩ := hrun heq
    have hdata : before.storage.data = (machine code).exec l storage.data := by
      rw [hserb.data, hstorage]
    refine ⟨before, hbefore, hlog.trans ?_⟩
    have hlast : (o.1, readAll before.storage.data (code o.1).keys) ∈
        (machine code).outcomes (requested tr) storage.data := by
      rw [heq, Machine.outcomes_append, hdata]
      exact List.mem_append_right _ List.mem_cons_self
    have hreads : o.2 = readAll before.storage.data (code o.1).keys :=
      congrArg Prod.snd (outcome_unique hnodup ho hlast rfl)
    refine List.map_congr_left fun k hk => ?_
    rw [hreads, lookup_readAll, if_pos hk]
    rfl

theorem serializable_rmw : ∃ s : State (queueLockManager .locking), ∃ p₁ final,
    Processor.submit [0, 1] (Processor.init (fun _ => ⟨unrun .empty, 0, 0⟩) ⟨fun _ => some 2⟩) =
      some p₁ ∧
    Processor.runSerialScheduler (fun _ => rmw (.singleton 5) (.singleton 6)) 2 p₁ = some final ∧
    s.storage.data = final.storage.data ∧
    ∀ t ∈ [0, 1], (s.txns t).toBuffers = (final.txns t).toBuffers := by
  obtain ⟨tr, s, h, _, _, hreq, _, hres⟩ := rmw_run
  have hascending := (admitted_of_run (by decide) h).ascending
  rw [hreq] at hascending
  obtain ⟨p₁, final, hsub, hrun, hdata, hbuf⟩ := serializable (queueDocumented .locking)
    (by decide) (fun _ _ => by rfl) (fun _ _ => by decide) (fun _ _ => (rmw_votes _ _).1)
    (fun _ _ => (rmw_votes _ _).2) h (fun t ht => .inl (hres ▸ ht)) (.refl [0, 1])
    hascending
  exact ⟨s, p₁, final, hsub, hrun 2 le_rfl, hdata, fun t ht => (hbuf t ht).1⟩

end Complete

end Cmsc624.A2
