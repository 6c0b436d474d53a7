import Cmsc624.A2.TwoPhase
import Cmsc624.A2.TxnTypes

/-!
# Isolation, order of conflicts and freedom from deadlock

What two-phase locking gives the transactions: nobody else writes what a transaction
in flight uses, conflicting transactions end in the order of their ids, and there is
always one that waits for no lock.
-/

namespace Cmsc624.A2

open Lib

set_option autoImplicit false

variable {lm : LockManager} {code : TxnPtr → TxnCode}

/-- All keys written, and all keys `ApplyWrites` still has to write, are declared. -/
def View.Declared (c : TxnCode) (v : View) : Prop :=
  (∀ k ∈ v.txn.writes.keys, k ∈ c.writeset) ∧
    ∀ rest, v.place = .applying rest → ∀ x ∈ rest, x.1 ∈ c.writeset

theorem Life.declared {c : TxnCode} {read : Key → Option Value} {t : TxnPtr} {e : Event}
    {v v' : View} (h : Life c read t e v v') (hc : c.KeepsDeclared) (hv : v.Declared c) :
    v'.Declared c := by
  obtain ⟨hkeys, hrest⟩ := hv
  cases h with
  | run _ hb => exact ⟨hc _ _ hb hkeys, by simp⟩
  | decide _ _ =>
    refine ⟨hkeys, fun rest hr x hx => ?_⟩
    obtain rfl : _ = rest := by simpa using hr
    exact hkeys x.1 (List.mem_map_of_mem hx)
  | write hv =>
    refine ⟨hkeys, fun rest hr x hx => ?_⟩
    obtain rfl : _ = rest := by simpa using hr
    exact hrest _ hv x (List.mem_cons_of_mem _ hx)
  | park _ => exact ⟨hkeys, hrest⟩
  | _ => exact ⟨hkeys, by simp⟩

section Runs
variable {ccMode : CCMode} {ts : List TxnPtr} {tr tr' : List Event} {s s' : State lm} {e : Event}
  {txns : TxnPtr → Txn} {storage : Storage} {t u : TxnPtr}

theorem declared_of_run (spec : LateGrant lm) (hts : ts.Nodup)
    (hcode : ∀ t ∈ ts, (code t).checkReadWriteSets)
    (hdecl : ∀ t ∈ ts, ∀ k ∈ (txns t).writes.keys, k ∈ (code t).writeset)
    (hrun : ∀ t ∈ ts, (code t).KeepsDeclared) (h : Runs code txns storage ts tr s) :
    s.Declared code := by
  intro u rest hpc x hx
  have inv := custody_of_run spec hts hcode h
  have hmem : (u, Place.applying rest) ∈ s.places := mem_places.mpr hpc
  have hu := inv.known u (mem_names_of_mem hmem)
  have hview := follow_of_run (P := View.Declared (code u)) spec hts hcode hu
    ⟨hdecl u hu, by simp [view]⟩ (fun hv hlife => hlife.declared (hrun u hu) hv) h _ (.inl hmem)
  exact hview.2 rest rfl x hx

/-- While `t` is in flight, no other transaction writes a key that `t` uses. -/
theorem no_foreign_write (doc : Documented lm ccMode) (hts : ts.Nodup)
    (hcode : ∀ t ∈ ts, (code t).checkReadWriteSets) (h : Runs code txns storage ts tr s)
    (hdecl : s.Declared code) (ht : InFlight tr t) {k : Key} {v : Value}
    (hstep : Step code s (.write u k v) s') (hne : u ≠ t) : k ∉ (code t).keys := by
  have two := twoPhase_of_run doc hts hcode h
  have inv := custody_of_run doc.lateGrant hts hcode h
  obtain ⟨_, pl, hpl, hflight⟩ := place_of_inFlight doc.lateGrant hts hcode h ht
  cases hstep with
  | write hpc => exact two.write_disjoint inv hdecl hpl hflight hpc hne

theorem InFlight.of_append (ht : t ∈ appended tr) (h : InFlight (tr ++ tr') t) :
    InFlight tr t := by
  refine ⟨ht, fun hfin => h.2 ?_⟩
  rw [finished_append]
  exact List.mem_append_left _ hfin

theorem values_kept (doc : Documented lm ccMode) (hts : ts.Nodup)
    (hcode : ∀ t ∈ ts, (code t).checkReadWriteSets) (h : Runs code txns storage ts tr s)
    (hdecl : s.Declared code) (ht : InFlight tr t) (hstep : Step code s e s')
    (hown : ∀ k v, e ≠ .write t k v) {k : Key} (hk : k ∈ (code t).keys) :
    s'.storage.read k = s.storage.read k := by
  rcases storage_of_step hstep with hsame | ⟨u, x, rest, rfl, _, hdata⟩
  · rw [hsame]
  · have hne : u ≠ t := by
      rintro rfl
      exact hown _ _ rfl
    have hx := no_foreign_write doc hts hcode h hdecl ht hstep hne
    have hkx : k ≠ x.1 := fun heq => hx (heq ▸ hk)
    rw [Storage.read, hdata, Function.update_of_ne hkx]
    rfl

/-- Two-phase locking isolates the transactions in flight. -/
theorem isolation (doc : Documented lm ccMode) (hts : ts.Nodup)
    (hcode : ∀ t ∈ ts, (code t).checkReadWriteSets)
    (hdecl : ∀ t ∈ ts, ∀ k ∈ (txns t).writes.keys, k ∈ (code t).writeset)
    (hrun : ∀ t ∈ ts, (code t).KeepsDeclared) (h : Runs code txns storage ts tr s) :
    (∀ t u, t ≠ u → InFlight tr t → InFlight tr u → ¬Conflict (uses code) (writes code) t u) ∧
    ∀ t, InFlight tr t → ∀ tr' s', Run (Step code) s tr' s' → InFlight (tr ++ tr') t →
      (∀ u k v, u ≠ t → Event.write u k v ∈ tr' → k ∉ (code t).keys) ∧
      ((∀ k v, Event.write t k v ∉ tr') →
        ∀ k ∈ (code t).keys, s'.storage.read k = s.storage.read k) := by
  constructor
  · intro t u hne ht hu
    obtain ⟨_, pl, hpl, hflight⟩ := place_of_inFlight doc.lateGrant hts hcode h ht
    obtain ⟨_, pl', hpl', hflight'⟩ := place_of_inFlight doc.lateGrant hts hcode h hu
    exact (twoPhase_of_run doc hts hcode h).no_conflict (custody_of_run doc.lateGrant hts hcode h)
      hne hpl hpl' hflight hflight'
  · intro t ht tr' s' h' ht'
    induction h' with
    | nil => exact ⟨by simp, fun _ _ _ => rfl⟩
    | @snoc tr₁ s₁ s₂ e hr hstep ih =>
      rw [← List.append_assoc] at ht'
      have happ : t ∈ appended (tr ++ tr₁) := by
        rw [appended_append]
        exact List.mem_append_left _ ht.1
      have hflight := InFlight.of_append happ ht'
      have hrun₁ := h.trans hr
      have hdecl₁ := declared_of_run doc.lateGrant hts hcode hdecl hrun hrun₁
      obtain ⟨hwrites, hvalues⟩ := ih hflight
      constructor
      · intro u k v hne hmem
        rcases List.mem_append.mp hmem with hold | hnew
        · exact hwrites u k v hne hold
        · obtain rfl := List.mem_singleton.mp hnew
          exact no_foreign_write doc hts hcode hrun₁ hdecl₁ hflight hstep hne
      · intro hown k hk
        have hold := hvalues (fun k v hmem => hown k v (List.mem_append_left _ hmem)) k hk
        have he : ∀ k v, e ≠ .write t k v := fun k v heq => hown k v (by simp [heq])
        exact (values_kept doc hts hcode hrun₁ hdecl₁ hflight hstep he hk).trans hold

/-- Two transactions on different keys, both of them in flight; then the writes of the second one
are applied. -/
theorem rmw_run_in_flight : ∃ tr tr', ∃ s s' : State (queueLockManager .locking),
    Runs (fun t => rmw .empty (.singleton (.ofNat t))) (fun _ => ⟨unrun .empty, 0, 0⟩)
      ⟨fun _ => some 2⟩ [0, 1] tr s ∧ InFlight tr 0 ∧ InFlight tr 1 ∧
      Run (Step fun t => rmw .empty (.singleton (.ofNat t))) s tr' s' ∧ InFlight (tr ++ tr') 0 ∧
      (∃ v, Event.write 1 1 v ∈ tr') ∧ ∀ k v, Event.write 0 k v ∉ tr' := by
  have run : Runs (fun t => rmw .empty (.singleton (.ofNat t))) (fun _ => ⟨unrun .empty, 0, 0⟩)
    ⟨fun _ => some 2⟩ [0, 1] [] (State.init (queueLockManager .locking) _ _ _) := .nil
  have run := run.snoc (.request (a := []) rfl
    (Processor.newTxnRequest_eq_some.mpr ⟨by decide, rfl⟩))
  have run := run.snoc (.request (a := []) rfl
    (Processor.newTxnRequest_eq_some.mpr ⟨by decide, rfl⟩))
  have run := run.snoc (.pop rfl rfl rfl)
  have run := run.snoc (.lock rfl)
  have run := run.snoc (.ready rfl)
  have run := run.snoc (.noCompleted rfl rfl)
  have run := run.snoc (.dispatch rfl rfl)
  have run := run.snoc (.noReady rfl rfl)
  have run := run.snoc (.pop rfl rfl rfl)
  have run := run.snoc (.lock rfl)
  have run := run.snoc (.ready rfl)
  have more := run.here
  have more := more.snoc (.noCompleted rfl rfl)
  have more := more.snoc (.dispatch rfl rfl)
  have more := more.snoc (.noReady rfl rfl)
  have more := more.snoc (.start (a := [0]) rfl)
  have more := more.snoc (.size (a := []) rfl)
  have more := more.snoc (.read (a := []) rfl)
  have more := more.snoc (.run (a := []) rfl (Processor.runTxn_eq_some.mpr ⟨_, rfl, rfl⟩))
  have more := more.snoc (.complete (a := []) rfl)
  have more := more.snoc (.noRequest rfl rfl rfl)
  have more := more.snoc (.take rfl rfl)
  have more := more.snoc (.decide rfl rfl)
  have more := more.snoc (.write rfl)
  refine ⟨_, _, _, _, run, ?_, ?_, more, ?_, ?_, ?_⟩
  · simp [InFlight, appended, finished, Event.appended]
  · simp [InFlight, appended, finished, Event.appended]
  · simp [InFlight, appended, finished, Event.appended]
  · exact ⟨_, List.mem_append_right _ (List.mem_singleton_self _)⟩
  · intro k v
    simp

theorem isolation_rmw : ∃ tr tr' : List Event, ∃ s s' : State (queueLockManager .locking),
    InFlight tr 0 ∧ InFlight tr 1 ∧
    ¬Conflict (uses fun t => rmw .empty (.singleton (.ofNat t)))
      (writes fun t => rmw .empty (.singleton (.ofNat t))) 0 1 ∧
    (∃ v, Event.write 1 1 v ∈ tr') ∧ (∀ v, Event.write 1 0 v ∉ tr') ∧
    s'.storage.read 0 = s.storage.read 0 := by
  obtain ⟨tr, tr', s, s', h, h₀, h₁, h', hflight, hwrite, hown⟩ := rmw_run_in_flight
  obtain ⟨hconflict, hstays⟩ := isolation (queueDocumented .locking) (by decide)
    (fun _ _ _ _ => List.not_mem_nil) (fun _ _ _ hk => absurd hk List.not_mem_nil)
    (fun _ _ => rmw_keepsDeclared _ _) h
  obtain ⟨hforeign, hvalues⟩ := hstays 0 h₀ tr' s' h' hflight
  have hkey : (0 : Key) ∈ (rmw .empty (.singleton (.ofNat 0))).keys := by decide
  refine ⟨tr, tr', s, s', h₀, h₁, hconflict 0 1 (by decide) h₀ h₁, hwrite, ?_, ?_⟩
  · exact fun v hv => hforeign 1 0 v (by decide) hv hkey
  · exact hvalues hown 0 hkey

theorem owes_of_popped (doc : Documented lm ccMode) (hts : ts.Nodup)
    (hcode : ∀ t ∈ ts, (code t).checkReadWriteSets) (h : Runs code txns storage ts tr s)
    (hu : u ∈ popped tr) (hfin : u ∉ finished tr)
    (hlock : ∀ rest b, s.sched ≠ .locking u rest b) :
    u ∈ ts ∧ ∃ pl, s.At u pl ∧ ∀ call, pl.Owes call := by
  have adm := admitted_of_run hts h
  have hreq := adm.popped_sublist.subset hu
  have hts' := adm.mem_ts hreq
  refine ⟨hts', ?_⟩
  obtain ⟨pl, hat⟩ := s.exists_at u
  refine ⟨pl, hat, fun call => ?_⟩
  have hend : ¬pl.Ended := fun hpl =>
    hfin ((mem_finished_iff doc.lateGrant hts hcode h hat hts').mpr hpl)
  rcases hat with hmem | ⟨_, rfl⟩
  · rw [mem_places] at hmem
    cases pl with
    | client => exact absurd hmem (adm.notMem_clients hts hreq)
    | requested =>
      have hnodup := adm.requested_nodup hts
      rw [adm.fifo] at hnodup
      exact absurd rfl ((List.nodup_append.mp hnodup).2.2 u hu u hmem)
    | locking rest =>
      obtain ⟨b, hb⟩ := hmem
      exact absurd hb (hlock rest b)
    | _ => simp_all [Place.Owes, Place.Ended]
  · exact List.not_mem_nil

theorem popped_of_inFlight (spec : LateGrant lm) (hts : ts.Nodup)
    (hcode : ∀ t ∈ ts, (code t).checkReadWriteSets) (h : Runs code txns storage ts tr s)
    (ht : InFlight tr t) : t ∈ popped tr := by
  have adm := admitted_of_run hts h
  have inv := custody_of_run spec hts hcode h
  obtain ⟨hts', pl, hpl, hready, _⟩ := place_of_inFlight spec hts hcode h ht
  have hreq : t ∈ requested tr := by
    refine (List.mem_append.mp (adm.all.mem_iff.mpr hts')).resolve_left fun hc => ?_
    have hclient : (t, Place.client) ∈ s.places := mem_places.mpr hc
    rw [inv.place_unique hpl hclient] at hready
    exact hready
  rw [adm.fifo] at hreq
  refine (List.mem_append.mp hreq).resolve_right fun hq => ?_
  have hqueue : (t, Place.requested) ∈ s.places := mem_places.mpr hq
  rw [inv.place_unique hpl hqueue] at hready
  exact hready

/-- What was submitted before a transaction in flight was popped before it, and is not
asking for locks any more. -/
theorem popped_of_lt (hts : ts.Nodup) (h : Runs code txns storage ts tr s) (ht : t ∈ popped tr)
    (hu : u ∈ requested tr) (hlt : (s.txns u).uniqueId < (s.txns t).uniqueId) :
    u ∈ popped tr ∧ ∀ rest b, s.sched ≠ .locking u rest b := by
  have adm := admitted_of_run hts h
  have hasc := adm.ascending
  constructor
  · rw [adm.fifo] at hasc hu
    refine (List.mem_append.mp hu).resolve_right fun hq => ?_
    exact lt_asymm hlt ((List.pairwise_append.mp hasc).2.2 t ht u hq)
  · intro rest b hpc
    obtain ⟨l, hl⟩ := popped_last h hpc
    have hpop := adm.ascending.sublist adm.popped_sublist
    rw [hl] at hpop ht
    rcases List.mem_append.mp ht with ht | ht
    · exact lt_asymm hlt ((List.pairwise_append.mp hpop).2.2 t ht u (List.mem_singleton_self u))
    · rw [List.mem_singleton.mp ht] at hlt
      exact lt_irrefl _ hlt

/-- What was submitted before a transaction in flight, and conflicts with it, has ended. -/
theorem finished_of_conflict (doc : Documented lm ccMode) (hts : ts.Nodup)
    (hcode : ∀ t ∈ ts, (code t).checkReadWriteSets) (h : Runs code txns storage ts tr s)
    (ht : InFlight tr t) (hu : u ∈ requested tr)
    (hlt : (s.txns u).uniqueId < (s.txns t).uniqueId)
    (hconf : Conflict (uses code) (writes code) t u) : u ∈ finished tr := by
  by_contra hfin
  have two := twoPhase_of_run doc hts hcode h
  have inv := custody_of_run doc.lateGrant hts hcode h
  have adm := admitted_of_run hts h
  have hpop := popped_of_inFlight doc.lateGrant hts hcode h ht
  obtain ⟨hpop', hlock⟩ := popped_of_lt hts h hpop hu hlt
  obtain ⟨huts, pl', hat', howes⟩ := owes_of_popped doc hts hcode h hpop' hfin hlock
  obtain ⟨htts, pl, hpl, hflight⟩ := place_of_inFlight doc.lateGrant hts hcode h ht
  -- else its request would stand ahead of the one of `t`, which is granted
  obtain ⟨c, hc, c', hc', hkey, hw⟩ := calls_of_conflict hconf
  have hmem := two.mem_table htts hc (.inl hpl) (hflight.owes _)
  have hmem' := two.mem_table huts hc' hat' (howes _)
  rw [← hkey] at hmem'
  obtain ⟨a, b, hq, ha, hna⟩ := two.ahead adm hmem hmem' hlt
  have hown := inv.owners_of_place hpl hflight.1 hmem rfl
  rw [hq] at hown
  obtain ⟨hs, hs'⟩ := LockQueue.shared_of_ahead hown hna ha
  exact not_both_shared hw hs hs'

theorem finish_event {st : TxnStatus} (spec : LateGrant lm) (hts : ts.Nodup)
    (hcode : ∀ t ∈ ts, (code t).checkReadWriteSets) (h : Runs code txns storage ts tr s)
    (hstep : Step code s (.finish t st) s') : InFlight tr t := by
  have inv := custody_of_run spec hts hcode h
  have hplaced : ∀ pl, s.Occupies t pl → pl.InFlight → InFlight tr t := fun pl hocc hpl => by
    have hmem := mem_places.mpr hocc
    exact (inFlight_iff spec hts hcode h (.inl hmem) (inv.known t (mem_names_of_mem hmem))).mpr hpl
  cases hstep with
  | abort hpc _ => exact hplaced .deciding hpc ⟨trivial, id⟩
  | mark hpc => exact hplaced .marking hpc ⟨trivial, id⟩

theorem pair_sublist_concat {α : Type} {a b x : α} {l : List α} (h : [a, b].Sublist (l ++ [x]))
    (hne : b ≠ x) : [a, b].Sublist l := by
  obtain ⟨l₁, l₂, heq, h₁, h₂⟩ := List.sublist_append_iff.mp h
  rcases List.sublist_singleton.mp h₂ with rfl | rfl
  · rwa [heq, List.append_nil]
  · have hlast := congrArg List.getLast? heq
    simp at hlast
    exact absurd hlast hne

theorem mem_requested_of_inFlight (spec : LateGrant lm) (hts : ts.Nodup)
    (hcode : ∀ t ∈ ts, (code t).checkReadWriteSets) (h : Runs code txns storage ts tr s)
    (ht : InFlight tr t) : t ∈ requested tr :=
  (admitted_of_run hts h).popped_sublist.subset (popped_of_inFlight spec hts hcode h ht)

theorem finished_singleton (e : Event) :
    finished [e] = [] ∨ ∃ t st, e = .finish t st ∧ finished [e] = [t] := by
  cases e with
  | finish t st => exact .inr ⟨t, st, rfl, rfl⟩
  | _ => exact .inl rfl

theorem requested_singleton (e : Event) :
    requested [e] = [] ∨ ∃ t, e = .request t ∧ requested [e] = [t] := by
  cases e with
  | request t => exact .inr ⟨t, rfl, rfl⟩
  | _ => exact .inl rfl

theorem pair_requested_of_step (hts : ts.Nodup) (h : Runs code txns storage ts tr s)
    (hstep : Step code s e s') (ht : t ∈ requested tr)
    (hpair : [u, t].Sublist (requested (tr ++ [e]))) : [u, t].Sublist (requested tr) := by
  rw [requested_append] at hpair
  rcases requested_singleton e with hnil | ⟨x, rfl, hx⟩
  · rwa [hnil, List.append_nil] at hpair
  · rw [hx] at hpair
    refine pair_sublist_concat hpair ?_
    rintro rfl
    have hnodup := (admitted_of_run hts (h.snoc hstep)).requested_nodup hts
    rw [requested_append, hx] at hnodup
    exact (List.nodup_append.mp hnodup).2.2 t ht t (List.mem_singleton_self t) rfl

theorem finished_log (spec : LateGrant lm) (hts : ts.Nodup)
    (hcode : ∀ t ∈ ts, (code t).checkReadWriteSets) (h : Runs code txns storage ts tr s) :
    (finished tr).Nodup ∧ ∀ t ∈ finished tr, t ∈ popped tr := by
  refine h.invariant (I := fun tr _ => (finished tr).Nodup ∧ ∀ t ∈ finished tr, t ∈ popped tr)
    ⟨List.nodup_nil, by simp [finished]⟩ ?_
  rintro tr s e s' hr ⟨hnodup, hsub⟩ hstep
  have hgrow : popped tr ⊆ popped (tr ++ [e]) := by
    rw [popped_append]
    exact List.subset_append_left _ _
  rcases finished_singleton e with hnil | ⟨t, st, rfl, hfin⟩
  · rw [finished_append, hnil, List.append_nil]
    exact ⟨hnodup, fun t ht => hgrow (hsub t ht)⟩
  · have hflight := finish_event spec hts hcode hr hstep
    rw [finished_append, hfin]
    constructor
    · refine List.nodup_append.mpr ⟨hnodup, List.nodup_singleton t, ?_⟩
      rintro a ha b hb rfl
      exact hflight.2 (List.mem_singleton.mp hb ▸ ha)
    · intro a ha
      rcases List.mem_append.mp ha with ha | ha
      · exact hgrow (hsub a ha)
      · rw [List.mem_singleton.mp ha]
        exact hgrow (popped_of_inFlight spec hts hcode hr hflight)

/-- Of every pair of conflicting transactions the one submitted first ends first. The
induction carries that nothing ends before what it has to wait for. -/
theorem finished_order (doc : Documented lm ccMode) (hts : ts.Nodup)
    (hcode : ∀ t ∈ ts, (code t).checkReadWriteSets) (h : Runs code txns storage ts tr s) :
    Machine.SameOrder (Conflict (uses code) (writes code)) (finished tr) (requested tr) := by
  refine (h.invariant (I := fun tr _ => (∀ t ∈ finished tr, ∀ u, [u, t].Sublist (requested tr) →
      Conflict (uses code) (writes code) t u → u ∈ finished tr) ∧
    Machine.SameOrder (Conflict (uses code) (writes code)) (finished tr) (requested tr)) ?_ ?_).2
  · refine ⟨by simp [finished], ?_⟩
    intro a b _ hab
    simp [finished] at hab
  · rintro tr s e s' hr ⟨hwait, horder⟩ hstep
    have adm := admitted_of_run hts hr
    have hsub : ∀ a ∈ finished tr, a ∈ requested tr := fun a ha =>
      adm.popped_sublist.subset ((finished_log doc.lateGrant hts hcode hr).2 a ha)
    have hgrow : (requested tr).Sublist (requested (tr ++ [e])) := by
      rw [requested_append]
      exact List.sublist_append_left _ _
    have hold : ∀ t ∈ finished tr, ∀ u, [u, t].Sublist (requested (tr ++ [e])) →
        Conflict (uses code) (writes code) t u → u ∈ finished tr := fun t ht u hpair =>
      hwait t ht u (pair_requested_of_step hts hr hstep (hsub t ht) hpair)
    rcases finished_singleton e with hnil | ⟨t, st, rfl, hfin⟩
    · rw [finished_append, hnil, List.append_nil]
      exact ⟨hold, horder.mono hgrow⟩
    · have hflight := finish_event doc.lateGrant hts hcode hr hstep
      have hreq := mem_requested_of_inFlight doc.lateGrant hts hcode hr hflight
      rw [finished_append, hfin]
      constructor
      · intro a ha u hpair hconf
        rcases List.mem_append.mp ha with ha | ha
        · exact List.mem_append_left _ (hold a ha u hpair hconf)
        · obtain rfl := List.mem_singleton.mp ha
          have hpair' := pair_requested_of_step hts hr hstep hreq hpair
          exact List.mem_append_left _ (finished_of_conflict doc hts hcode hr hflight
            (hpair'.subset List.mem_cons_self) (adm.lt_of_sublist hpair') hconf)
      · refine (horder.mono hgrow).concat fun a ha hconf => ?_
        have hne : a ≠ t := fun heq => hflight.2 (heq ▸ ha)
        have hor := Machine.pair_sublist_or (hgrow.subset (hsub a ha)) (hgrow.subset hreq) hne
        exact hor.resolve_right fun hpair => hflight.2 (hold a ha t hpair hconf)

end Runs

end Cmsc624.A2
