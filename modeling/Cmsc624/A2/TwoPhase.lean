import Cmsc624.A2.Custody
import Cmsc624.A2.Admission
import Cmsc624.Lib.ConflictOrder
import Mathlib.Logic.Relation

/-!
# Two-phase locking

With a lock manager that keeps the documented queues, the lock table has exactly the
requests that the places of the transactions say, and every queue is in the order of
admission. From this: transactions in flight do not conflict, the oldest one that
has not released its locks has them all, and nobody waits in a circle.
-/

namespace Cmsc624.A2

open Lib

set_option autoImplicit false

variable {lm : LockManager} {code : TxnPtr → TxnCode}

/-- At this place the request of the call is in the lock table. -/
def Place.Owes (pl : Place) (call : LockCall) : Prop :=
  match pl with
  | .client => False
  | .requested => False
  | .locking rest => call ∉ rest
  | .releasing rest => call.key ∈ rest
  | .result => False
  | .handed => False
  | _ => True

/-- What is left of a request or release loop is an end of it. -/
def Place.Wf (c : TxnCode) : Place → Prop
  | .locking rest => rest <:+ c.lockCalls
  | .releasing rest => rest <:+ c.keys
  | _ => True

section Life
variable {c : TxnCode} {read : Key → Option Value} {t : TxnPtr} {e : Event} {v v' : View}
  {call : LockCall}

theorem Life.wf (h : Life c read t e v v') (hwf : v.place.Wf c) : v'.place.Wf c := by
  cases h with
  | pop _ => exact List.suffix_refl _
  | lock hv =>
    rw [hv] at hwf
    exact (List.suffix_cons _ _).trans hwf
  | park _ => exact hwf
  | abort _ _ => exact List.suffix_refl _
  | mark _ => exact List.suffix_refl _
  | release hv =>
    rw [hv] at hwf
    exact (List.suffix_cons _ _).trans hwf
  | _ => trivial

/-- A request enters the table by its call and leaves it by its release. -/
theorem Life.owes (h : Life c read t e v v') (hc : c.checkReadWriteSets) (hwf : v.place.Wf c)
    (hcall : call ∈ c.lockCalls) : v'.place.Owes call ↔
      (v.place.Owes call ∨ ∃ b, e = .lock t call b) ∧ ¬∃ w, e = .release t call.key w := by
  have hkeys : call.key ∈ c.keys := by
    rw [← TxnCode.lockCalls_keys]
    exact List.mem_map_of_mem hcall
  cases h with
  | pop hv => simp [Place.Owes, hv, hcall]
  | @lock _ call' rest granted hv =>
    rw [hv] at hwf ⊢
    have hnodup : (call' :: rest).Nodup := by
      refine hwf.sublist.nodup (List.Nodup.of_map LockCall.key ?_)
      rw [TxnCode.lockCalls_keys]
      exact TxnCode.keys_nodup hc
    have hnew := (List.nodup_cons.mp hnodup).1
    by_cases heq : call = call'
    · subst heq
      simp [Place.Owes, hnew]
    · simp [Place.Owes, heq, Ne.symm heq]
  | @release _ k rest woken hv =>
    rw [hv] at hwf ⊢
    have hnew := (List.nodup_cons.mp (hwf.sublist.nodup (TxnCode.keys_nodup hc))).1
    by_cases heq : call.key = k
    · simp [Place.Owes, heq, hnew]
    · simp [Place.Owes, heq, Ne.symm heq]
  | wake hu _ hv => simp [Place.Owes, hv, hu]
  | park hv => simp [Place.Owes, hv]
  | abort hv _ => simp [Place.Owes, hv, hkeys]
  | mark hv => simp [Place.Owes, hv, hkeys]
  | _ => simp_all [Place.Owes]

theorem Life.pastReady (h : Life c read t e v v') :
    v'.place.PastReady ↔ v.place.PastReady ∨ t ∈ e.appended := by
  cases h <;> simp_all [Place.PastReady, Event.appended]

theorem Life.ended_iff (h : Life c read t e v v')
    (hv : 0 < v.finishes ↔ v.place.Ended) : 0 < v'.finishes ↔ v'.place.Ended := by
  cases h <;> simp_all [Place.Ended]

end Life

def State.Owes (s : State lm) (t : TxnPtr) (call : LockCall) : Prop :=
  ∃ pl, s.At t pl ∧ pl.Owes call

section Table
variable {ccMode : CCMode} {doc : Documented lm ccMode} {ts : List TxnPtr} {tr : List Event}
  {s s' : State lm} {e : Event} {txns : TxnPtr → Txn} {storage : Storage}

theorem wf_of_run (spec : LateGrant lm) (hts : ts.Nodup)
    (hcode : ∀ t ∈ ts, (code t).checkReadWriteSets) (h : Runs code txns storage ts tr s)
    {t : TxnPtr} (ht : t ∈ ts) : ∀ pl, s.At t pl → pl.Wf (code t) :=
  follow_of_run (P := fun v => v.place.Wf (code t)) spec hts hcode ht trivial
    (fun hv hlife => hlife.wf hv) h

theorem Custody.step_table (inv : Custody doc.lateGrant code ts s) (h : Step code s e s')
    (k : Key) (r : LockRequest) : r ∈ doc.table s'.lockState k ↔
      (r ∈ doc.table s.lockState k ∨
        ∃ t c b, e = .lock t c b ∧ c.key = k ∧ r = c.request ccMode t) ∧
      ¬∃ w, e = .release r.txn k w := by
  cases step_lockEffect h with
  | call t c rest b hpc he hpc' hst =>
    have hnew : ∀ r ∈ doc.table s.lockState c.key, r.txn ≠ t := fun r hr heq =>
      inv.not_requested hpc ⟨r, hr, heq⟩
    rw [hst, doc.call_table t c _ hnew, he]
    simp only [Event.lock.injEq, reduceCtorEq, exists_false, not_false_eq_true, and_true]
    by_cases hk : c.key = k
    · subst hk
      rw [Function.update_self, List.mem_append, List.mem_singleton]
      refine or_congr_right ⟨fun hr => ⟨t, c, _, ⟨rfl, rfl, rfl⟩, rfl, hr⟩, ?_⟩
      rintro ⟨_, _, _, ⟨rfl, rfl, _⟩, _, hr⟩
      exact hr
    · rw [Function.update_of_ne (Ne.symm hk)]
      refine ⟨.inl, fun hr => hr.resolve_right ?_⟩
      rintro ⟨_, _, _, ⟨rfl, rfl, _⟩, heq, _⟩
      exact hk heq
  | release t k' rest hpc he hpc' hst =>
    rw [hst, doc.release_table, he]
    simp only [Event.release.injEq, reduceCtorEq, false_and, exists_false, or_false]
    by_cases hk : k' = k
    · subst hk
      rw [Function.update_self, List.mem_filter]
      refine and_congr_right fun _ => ⟨?_, ?_⟩
      · rintro hne ⟨w, heq, _⟩
        exact (by simpa using hne : r.txn ≠ t) heq.symm
      · intro hno
        have hne : r.txn ≠ t := fun heq => hno ⟨_, heq.symm, rfl, rfl⟩
        simpa using hne
    · rw [Function.update_of_ne (Ne.symm hk)]
      exact ⟨fun hr => ⟨hr, fun ⟨_, _, heq, _⟩ => hk heq⟩, And.left⟩
  | none hwoken hlock hrelease hst =>
    rw [hst]
    simp [hlock, hrelease]

theorem Custody.step_owes (inv : Custody doc.lateGrant code ts s)
    (inv' : Custody doc.lateGrant code ts s') (hcode : ∀ t ∈ ts, (code t).checkReadWriteSets)
    (hwf : ∀ t ∈ ts, ∀ pl, s.At t pl → pl.Wf (code t)) (h : Step code s e s') {t : TxnPtr}
    (ht : t ∈ ts) {call : LockCall} (hcall : call ∈ (code t).lockCalls) :
    s'.Owes t call ↔
      (s.Owes t call ∨ ∃ b, e = .lock t call b) ∧ ¬∃ w, e = .release t call.key w := by
  obtain ⟨pl', hat'⟩ := s'.exists_at t
  obtain ⟨pl, hat, hmove⟩ := inv.at_step [] h hat'
  have howes : s.Owes t call ↔ pl.Owes call :=
    ⟨fun ⟨q, hq, ho⟩ => inv.at_unique hq hat ▸ ho, fun ho => ⟨pl, hat, ho⟩⟩
  have howes' : s'.Owes t call ↔ pl'.Owes call :=
    ⟨fun ⟨q, hq, ho⟩ => inv'.at_unique hq hat' ▸ ho, fun ho => ⟨pl', hat', ho⟩⟩
  rw [howes, howes']
  rcases hmove with ⟨htxn, _, hsame⟩ | hlife
  · obtain rfl : pl' = pl := congrArg View.place hsame
    have hlock : ∀ b, e ≠ .lock t call b := by
      rintro b rfl
      exact htxn rfl
    have hrel : ∀ w, e ≠ .release t call.key w := by
      rintro w rfl
      exact htxn rfl
    simp [hlock, hrel]
  · exact hlife.owes (hcode t ht) (hwf t ht pl hat) hcall

theorem popped_of_ne (h : ∀ t, e ≠ .pop t) : popped (tr ++ [e]) = popped tr := by
  cases e <;> simp_all [popped]

theorem popped_last (h : Runs code txns storage ts tr s) {t : TxnPtr} {rest : List LockCall}
    {b : Bool} (hpc : s.sched = .locking t rest b) : ∃ l, popped tr = l ++ [t] := by
  refine h.invariant (I := fun tr s => ∀ t rest b, s.sched = .locking t rest b →
    ∃ l, popped tr = l ++ [t]) (fun _ _ _ hu => by simp [State.init] at hu) ?_ t rest b hpc
  intro tr s e s' _ ih hstep u rest b hu
  cases step_lockEffect hstep with
  | call t c rest' b' hpc he hpc' hst =>
    obtain ⟨rfl, _⟩ : t = u ∧ _ := by simpa [hpc'] using hu
    rw [popped_of_ne (by simp [he])]
    exact ih _ _ _ hpc
  | release t k rest' hpc he hpc' hst => simp [hpc'] at hu
  | none hwoken hlock hrelease hst hnew hold =>
    rcases hnew u rest b hu with hsame | ⟨rfl, _⟩
    · rw [popped_of_ne ?_]
      · exact ih _ _ _ hsame
      · rintro t rfl
        cases hstep with
        | pop hpc => simp [hpc] at hsame
    · exact ⟨popped tr, by simp [popped]⟩

/-- The lock table as the places tell it, every queue in the order of admission. -/
structure TwoPhase (doc : Documented lm ccMode) (code : TxnPtr → TxnCode) (ts : List TxnPtr)
    (tr : List Event) (s : State lm) : Prop where
  table : ∀ k r, r ∈ doc.table s.lockState k ↔ ∃ t ∈ ts, ∃ call ∈ (code t).lockCalls,
    s.Owes t call ∧ call.key = k ∧ r = call.request ccMode t
  order : ∀ k, ((doc.table s.lockState k).map LockRequest.txn).Sublist (popped tr)

theorem TwoPhase.init (hts : ts.Nodup) :
    TwoPhase doc code ts [] (State.init lm txns storage ts) where
  table k r := by
    have hempty : doc.table (State.init lm txns storage ts).lockState k = [] := doc.init_table k
    rw [hempty]
    refine ⟨fun hr => absurd hr List.not_mem_nil, ?_⟩
    rintro ⟨t, ht, call, _, ⟨pl, hat, ho⟩, _⟩
    have inv : Custody doc.lateGrant code ts (State.init lm txns storage ts) :=
      Custody.init hts
    have hclient : (State.init lm txns storage ts).At t .client := .inl (mem_places.mpr ht)
    rw [inv.at_unique hat hclient] at ho
    exact ho.elim
  order k := by
    have hempty : doc.table (State.init lm txns storage ts).lockState k = [] := doc.init_table k
    rw [hempty]
    exact List.nil_sublist _

theorem sublist_concat {α : Type} {l l' : List α} {a : α} (h : l.Sublist (l' ++ [a]))
    (ha : a ∉ l) : l.Sublist l' := by
  obtain ⟨l₁, l₂, rfl, h₁, h₂⟩ := List.sublist_append_iff.mp h
  rcases List.sublist_singleton.mp h₂ with rfl | rfl
  · rwa [List.append_nil]
  · simp at ha

theorem TwoPhase.step_order (two : TwoPhase doc code ts tr s)
    (inv : Custody doc.lateGrant code ts s)
    (hlast : ∀ t rest b, s.sched = .locking t rest b → ∃ l, popped tr = l ++ [t])
    (h : Step code s e s') (k : Key) :
    ((doc.table s'.lockState k).map LockRequest.txn).Sublist (popped (tr ++ [e])) := by
  have hold : ((doc.table s.lockState k).map LockRequest.txn).Sublist (popped (tr ++ [e])) := by
    rw [popped_append]
    exact (two.order k).trans (List.sublist_append_left _ _)
  cases step_lockEffect h with
  | call t c rest b hpc he hpc' hst =>
    have hnew : ∀ r ∈ doc.table s.lockState c.key, r.txn ≠ t := fun r hr heq =>
      inv.not_requested hpc ⟨r, hr, heq⟩
    rw [hst, doc.call_table t c _ hnew]
    by_cases hk : k = c.key
    · subst hk
      obtain ⟨l, hl⟩ := hlast t _ b hpc
      rw [Function.update_self, List.map_append, popped_of_ne (by simp [he]), hl]
      refine List.Sublist.append (sublist_concat (hl ▸ two.order _) ?_) (List.Sublist.refl [t])
      simpa using hnew
    · rwa [Function.update_of_ne hk]
  | release t k' rest hpc he hpc' hst =>
    rw [hst, doc.release_table]
    by_cases hk : k = k'
    · subst hk
      rw [Function.update_self]
      exact (List.filter_sublist.map _).trans hold
    · rwa [Function.update_of_ne hk]
  | none hwoken hlock hrelease hst => rwa [hst]

theorem TwoPhase.step_mem (two : TwoPhase doc code ts tr s)
    (inv : Custody doc.lateGrant code ts s) (hcode : ∀ t ∈ ts, (code t).checkReadWriteSets)
    (hwf : ∀ t ∈ ts, ∀ pl, s.At t pl → pl.Wf (code t)) (h : Step code s e s') (k : Key)
    (r : LockRequest) : r ∈ doc.table s'.lockState k ↔ ∃ t ∈ ts, ∃ call ∈ (code t).lockCalls,
      s'.Owes t call ∧ call.key = k ∧ r = call.request ccMode t := by
  have inv' := inv.step hcode h
  rw [inv.step_table h, two.table]
  constructor
  · rintro ⟨⟨t, ht, call, hcall, ho, rfl, rfl⟩ | ⟨t, call, b, rfl, rfl, rfl⟩, hno⟩
    · exact ⟨t, ht, call, hcall,
        (inv.step_owes inv' hcode hwf h ht hcall).mpr ⟨.inl ho, hno⟩, rfl, rfl⟩
    · obtain ⟨rest, b, hpc⟩ := lock_event h
      have ht := inv.known t (mem_names_of_mem (locking_mem_places.mpr ⟨b, hpc⟩))
      have hcall := (inv.calls t _ b hpc).subset List.mem_cons_self
      exact ⟨t, ht, call, hcall,
        (inv.step_owes inv' hcode hwf h ht hcall).mpr ⟨.inr ⟨_, rfl⟩, hno⟩, rfl, rfl⟩
  · rintro ⟨t, ht, call, hcall, ho, rfl, rfl⟩
    obtain ⟨ho | ⟨b, rfl⟩, hno⟩ := (inv.step_owes inv' hcode hwf h ht hcall).mp ho
    · exact ⟨.inl ⟨t, ht, call, hcall, ho, rfl, rfl⟩, hno⟩
    · exact ⟨.inr ⟨t, call, b, rfl, rfl, rfl⟩, hno⟩

theorem twoPhase_of_run (doc : Documented lm ccMode) (hts : ts.Nodup)
    (hcode : ∀ t ∈ ts, (code t).checkReadWriteSets) (h : Runs code txns storage ts tr s) :
    TwoPhase doc code ts tr s := by
  refine h.invariant (TwoPhase.init hts) fun hr two hstep => ?_
  have inv := custody_of_run doc.lateGrant hts hcode hr
  exact ⟨two.step_mem inv hcode (fun t ht => wf_of_run doc.lateGrant hts hcode hr ht) hstep,
    two.step_order inv (fun t rest b hpc => popped_last hr hpc) hstep⟩

theorem Admitted.lt_of_sublist (adm : Admitted ts tr s) {t u : TxnPtr}
    (h : [t, u].Sublist (requested tr)) : (s.txns t).uniqueId < (s.txns u).uniqueId :=
  List.pairwise_iff_forall_sublist.mp adm.ascending h

theorem TwoPhase.ascending (two : TwoPhase doc code ts tr s) (adm : Admitted ts tr s) (k : Key) :
    (doc.table s.lockState k).Pairwise fun r r' =>
      (s.txns r.txn).uniqueId < (s.txns r'.txn).uniqueId := by
  have hasc := adm.ascending.sublist ((two.order k).trans adm.popped_sublist)
  rwa [List.pairwise_map] at hasc

theorem TwoPhase.ahead (two : TwoPhase doc code ts tr s) (adm : Admitted ts tr s) {k : Key}
    {r r' : LockRequest} (hr : r ∈ doc.table s.lockState k) (hr' : r' ∈ doc.table s.lockState k)
    (hlt : (s.txns r'.txn).uniqueId < (s.txns r.txn).uniqueId) :
    ∃ a b, doc.table s.lockState k = a ++ r :: b ∧ r' ∈ a ∧ r ∉ a := by
  obtain ⟨a, b, hq⟩ := List.append_of_mem hr
  have hasc := two.ascending adm k
  rw [hq] at hasc hr'
  obtain ⟨_, hb, hab⟩ := List.pairwise_append.mp hasc
  refine ⟨a, b, hq, ?_, fun ha => absurd (hab r ha r List.mem_cons_self) (lt_irrefl _)⟩
  rcases List.mem_append.mp hr' with ha | hrb
  · exact ha
  · rcases List.mem_cons.mp hrb with rfl | hb'
    · exact absurd hlt (lt_irrefl _)
    · exact absurd ((List.pairwise_cons.mp hb).1 r' hb') (lt_asymm hlt)

/-- A transaction that is in the hands of the processor waits for no lock. -/
theorem Custody.owners_of_place (inv : Custody doc.lateGrant code ts s) {t : TxnPtr} {pl : Place}
    (hpl : (t, pl) ∈ s.places) (hready : pl.PastReady) {k : Key} {r : LockRequest}
    (hr : r ∈ doc.table s.lockState k) (hrt : r.txn = t) :
    r ∈ owners (doc.table s.lockState k) := by
  have hno : ¬Waiting (doc.table s.lockState) t := by
    refine inv.not_waits (mem_names_of_mem hpl) fun rest hrest => ?_
    have hlock := locking_mem_places.mpr ⟨_, hrest⟩
    rw [inv.place_unique hpl hlock] at hready
    exact hready
  by_contra ho
  exact hno ⟨k, r, hr, hrt, ho⟩

theorem TwoPhase.mem_table (two : TwoPhase doc code ts tr s) {t : TxnPtr} (ht : t ∈ ts)
    {call : LockCall} (hcall : call ∈ (code t).lockCalls) {pl : Place} (hat : s.At t pl)
    (ho : pl.Owes call) : call.request ccMode t ∈ doc.table s.lockState call.key :=
  (two.table _ _).mpr ⟨t, ht, call, hcall, ⟨pl, hat, ho⟩, rfl, rfl⟩

end Table

/-- Conflicting transactions lock some key, and not both of them for reading. -/
theorem calls_of_conflict {t u : TxnPtr} (h : Conflict (uses code) (writes code) t u) :
    ∃ c ∈ (code t).lockCalls, ∃ c' ∈ (code u).lockCalls, c.key = c'.key ∧
      (c.write = true ∨ c'.write = true) := by
  have hwrite : ∀ {t k}, k ∈ writes code t → LockCall.mk true k ∈ (code t).lockCalls := fun hk =>
    List.mem_append_right _ (List.mem_map_of_mem hk)
  have huse : ∀ {t k}, k ∈ uses code t → ∃ c ∈ (code t).lockCalls, c.key = k := by
    intro t k hk
    have hmem : k ∈ (code t).lockCalls.map LockCall.key := by rwa [TxnCode.lockCalls_keys]
    exact List.mem_map.mp hmem
  obtain ⟨k, ⟨hw, hk⟩ | ⟨hk, hw⟩⟩ := h
  · obtain ⟨c', hc', rfl⟩ := huse hk
    exact ⟨_, hwrite hw, c', hc', rfl, .inl rfl⟩
  · obtain ⟨c, hc, rfl⟩ := huse hk
    exact ⟨c, hc, _, hwrite hw, rfl, .inr rfl⟩

theorem not_both_shared {ccMode : CCMode} {t u : TxnPtr} {c c' : LockCall}
    (h : c.write = true ∨ c'.write = true) (hs : (c.request ccMode t).shared = true)
    (hs' : (c'.request ccMode u).shared = true) : False := by
  rcases h with hw | hw
  · simp [LockRequest.shared, LockCall.request, LockCall.mode, hw] at hs
  · simp [LockRequest.shared, LockCall.request, LockCall.mode, hw] at hs'

/-- From the append to `ready_txns_` to the beginning of the release loops. -/
def Place.InFlight (pl : Place) : Prop := pl.PastReady ∧ ¬pl.Ended

theorem Place.InFlight.owes {pl : Place} (h : pl.InFlight) (call : LockCall) : pl.Owes call := by
  obtain ⟨hready, hend⟩ := h
  cases pl <;> simp_all [Place.PastReady, Place.Ended, Place.Owes]

section Isolation
variable {ccMode : CCMode} {doc : Documented lm ccMode} {ts : List TxnPtr} {tr : List Event}
  {s s' : State lm} {e : Event} {txns : TxnPtr → Txn} {storage : Storage} {t u : TxnPtr}
  {pl pl' : Place}

theorem TwoPhase.no_conflict (two : TwoPhase doc code ts tr s)
    (inv : Custody doc.lateGrant code ts s) (hne : t ≠ u) (ht : (t, pl) ∈ s.places)
    (hu : (u, pl') ∈ s.places) (hpl : pl.InFlight) (hpl' : pl'.InFlight) :
    ¬Conflict (uses code) (writes code) t u := by
  intro hconf
  obtain ⟨c, hc, c', hc', hkey, hw⟩ := calls_of_conflict hconf
  have hmem := two.mem_table (inv.known t (mem_names_of_mem ht)) hc (.inl ht) (hpl.owes _)
  have hmem' := two.mem_table (inv.known u (mem_names_of_mem hu)) hc' (.inl hu) (hpl'.owes _)
  rw [← hkey] at hmem'
  have hown := inv.owners_of_place ht hpl.1 hmem rfl
  have hown' := inv.owners_of_place hu hpl'.1 hmem' rfl
  have hreq : c.request ccMode t ≠ c'.request ccMode u := fun heq =>
    hne (congrArg LockRequest.txn heq)
  obtain ⟨hs, hs'⟩ := LockQueue.shared_of_holders hown hown' hreq
  exact not_both_shared hw hs hs'

/-- `t` is in flight after `tr`. -/
def InFlight (tr : List Event) (t : TxnPtr) : Prop := t ∈ appended tr ∧ t ∉ finished tr

theorem appended_of_event (htxn : e.txn ≠ some t) (hw : t ∉ e.woken) : t ∉ e.appended := by
  cases e <;> simp_all [Event.txn, Event.woken, Event.appended, eq_comm]

theorem mem_appended_iff (spec : LateGrant lm) (hts : ts.Nodup)
    (hcode : ∀ t ∈ ts, (code t).checkReadWriteSets) (h : Runs code txns storage ts tr s)
    (hat : s.At t pl) : t ∈ appended tr ↔ pl.PastReady := by
  refine h.invariant (I := fun tr s => ∀ pl, s.At t pl → (t ∈ appended tr ↔ pl.PastReady))
    ?_ ?_ pl hat
  · rintro pl (hmem | ⟨_, rfl⟩)
    · rw [mem_places] at hmem
      cases pl <;> simp_all [State.Occupies, State.init, Processor.init, appended, Place.PastReady]
    · simp [appended, Place.PastReady]
  · intro tr s e s' hr ih hstep pl' hat'
    have inv := custody_of_run spec hts hcode hr
    obtain ⟨pl, hat, hmove⟩ := inv.at_step tr hstep hat'
    rw [appended_append, appended_singleton, List.mem_append, ih pl hat]
    rcases hmove with ⟨htxn, hw, hsame⟩ | hlife
    · obtain rfl : pl' = pl := congrArg View.place hsame
      simp [appended_of_event htxn hw]
    · exact hlife.pastReady.symm

theorem mem_finished_iff (spec : LateGrant lm) (hts : ts.Nodup)
    (hcode : ∀ t ∈ ts, (code t).checkReadWriteSets) (h : Runs code txns storage ts tr s)
    (hat : s.At t pl) (ht : t ∈ ts) : t ∈ finished tr ↔ pl.Ended := by
  have hview := follow_of_run (P := fun v => 0 < v.finishes ↔ v.place.Ended) spec hts hcode ht
    (by simp [view, finished, Place.Ended]) (fun hv hlife => hlife.ended_iff hv) h pl hat
  exact List.count_pos_iff.symm.trans hview

theorem inFlight_iff (spec : LateGrant lm) (hts : ts.Nodup)
    (hcode : ∀ t ∈ ts, (code t).checkReadWriteSets) (h : Runs code txns storage ts tr s)
    (hat : s.At t pl) (ht : t ∈ ts) : InFlight tr t ↔ pl.InFlight := by
  rw [InFlight, mem_appended_iff spec hts hcode h hat, mem_finished_iff spec hts hcode h hat ht]
  rfl

theorem place_of_inFlight (spec : LateGrant lm) (hts : ts.Nodup)
    (hcode : ∀ t ∈ ts, (code t).checkReadWriteSets) (h : Runs code txns storage ts tr s)
    (ht : InFlight tr t) : t ∈ ts ∧ ∃ pl, (t, pl) ∈ s.places ∧ pl.InFlight := by
  have inv := custody_of_run spec hts hcode h
  obtain ⟨pl, hat⟩ := s.exists_at t
  have hready := (mem_appended_iff spec hts hcode h hat).mp ht.1
  rcases hat with hmem | ⟨_, rfl⟩
  · have hts' := inv.known t (mem_names_of_mem hmem)
    exact ⟨hts', pl, hmem, (inFlight_iff spec hts hcode h (.inl hmem) hts').mp ht⟩
  · exact hready.elim

theorem storage_of_step (h : Step code s e s') : s'.storage = s.storage ∨
    ∃ u x rest, e = .write u x.1 x.2 ∧ s.sched = .applying u (x :: rest) ∧
      s'.storage.data = Function.update s.storage.data x.1 (some x.2) := by
  cases h with
  | write hpc => exact .inr ⟨_, _, _, rfl, hpc, rfl⟩
  | request _ hp =>
    obtain ⟨_, rfl⟩ := Processor.newTxnRequest_eq_some.mp hp
    exact .inl rfl
  | run _ hp =>
    obtain ⟨_, _, rfl⟩ := Processor.runTxn_eq_some.mp hp
    exact .inl rfl
  | _ => exact .inl rfl

/-- `ApplyWrites` has only declared keys to write. -/
def State.Declared (code : TxnPtr → TxnCode) (s : State lm) : Prop :=
  ∀ u rest, s.sched = .applying u rest → ∀ x ∈ rest, x.1 ∈ (code u).writeset

theorem TwoPhase.write_disjoint (two : TwoPhase doc code ts tr s)
    (inv : Custody doc.lateGrant code ts s) (hdecl : s.Declared code) (ht : (t, pl) ∈ s.places)
    (hpl : pl.InFlight) {x : Key × Value} {rest : List (Key × Value)}
    (hpc : s.sched = .applying u (x :: rest)) (hne : u ≠ t) : x.1 ∉ (code t).keys := by
  intro hk
  have hu : (u, .applying (x :: rest)) ∈ s.places := mem_places.mpr hpc
  refine two.no_conflict inv hne hu ht ⟨trivial, id⟩ hpl ⟨x.1, .inl ⟨?_, hk⟩⟩
  exact hdecl u _ hpc x List.mem_cons_self

end Isolation

end Cmsc624.A2
