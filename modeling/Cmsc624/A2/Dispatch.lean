import Cmsc624.A2.Custody

/-!
# Transactions that are dispatched at most once

From its dispatch on, a transaction is at one place, whatever the lock manager answers:
what the pool, the workers, the queues behind them and the scheduler's commit phase
hold are the dispatched transactions, each as often as it was dispatched. In a run that
dispatches nothing twice, a dispatched transaction can be followed place by place.
-/

namespace Cmsc624.A2

open Lib

set_option autoImplicit false

def dispatched (tr : List Event) : List TxnPtr :=
  tr.filterMap fun | .dispatch t => some t | _ => none

@[simp] theorem dispatched_append (tr tr' : List Event) :
    dispatched (tr ++ tr') = dispatched tr ++ dispatched tr' := List.filterMap_append

theorem nodup_of_append {tr tr' : List Event} (h : (dispatched (tr ++ tr')).Nodup) :
    (dispatched tr).Nodup := by
  rw [dispatched_append] at h
  exact (List.nodup_append.mp h).1

/-- In the pool or past it. -/
def Place.dispatched : Place → Bool
  | .client => false
  | .requested => false
  | .locking _ => false
  | .ready => false
  | _ => true

variable {lm : LockManager} {code : TxnPtr → TxnCode}

def takenOf (l : List (TxnPtr × Place)) : List TxnPtr :=
  (l.filter fun x => x.2.dispatched).map Prod.fst

def State.taken (s : State lm) : List TxnPtr := takenOf s.places

section Taken
variable {c : TxnCode} {read : Key → Option Value} {tr : List Event} {s s' : State lm} {e : Event}
  {t u : TxnPtr} {pl pl' : Place} {v v' : View} {l l' : List (TxnPtr × Place)}

theorem takenOf_perm (h : l.Perm l') : (takenOf l).Perm (takenOf l') :=
  (h.filter _).map _

theorem takenOf_cons (x : TxnPtr × Place) (l : List (TxnPtr × Place)) :
    takenOf (x :: l) = (if x.2.dispatched then [x.1] else []) ++ takenOf l := by
  unfold takenOf
  rw [List.filter_cons]
  split
  · rfl
  · rfl

theorem takenOf_ready (ts : List TxnPtr) : takenOf (ts.map (·, Place.ready) ++ l) = takenOf l := by
  simp [takenOf, List.filter_append, List.filter_map, Function.comp_def, Place.dispatched]

theorem mem_taken : t ∈ s.taken ↔ ∃ pl, (t, pl) ∈ s.places ∧ pl.dispatched = true := by
  simp [State.taken, takenOf]

theorem place_of_taken (hnodup : s.taken.Nodup) (h : (t, pl) ∈ s.places)
    (h' : (t, pl') ∈ s.places) (hd : pl.dispatched = true) (hd' : pl'.dispatched = true) :
    pl = pl' := by
  have hmem : (t, pl) ∈ s.places.filter fun x => x.2.dispatched := List.mem_filter.mpr ⟨h, hd⟩
  have hmem' : (t, pl') ∈ s.places.filter fun x => x.2.dispatched := List.mem_filter.mpr ⟨h', hd'⟩
  exact congrArg Prod.snd (List.inj_on_of_nodup_map hnodup hmem hmem' rfl)

theorem Life.dispatched (h : Life c read t e v v') :
    (e = .dispatch t ∧ v.place.dispatched = false ∧ v'.place.dispatched = true) ∨
      (dispatched [e] = [] ∧ v'.place.dispatched = v.place.dispatched) := by
  cases h with
  | dispatch hv => exact .inl ⟨rfl, by rw [hv]; rfl, rfl⟩
  | park hv => exact .inr ⟨rfl, rfl⟩
  | request _ hv => exact .inr ⟨rfl, by rw [hv]; rfl⟩
  | size _ hv => exact .inr ⟨rfl, by rw [hv]; rfl⟩
  | wake _ _ hv => exact .inr ⟨rfl, by rw [hv]; rfl⟩
  | run hv _ => exact .inr ⟨rfl, by rw [hv]; rfl⟩
  | decide hv _ => exact .inr ⟨rfl, by rw [hv]; rfl⟩
  | abort hv _ => exact .inr ⟨rfl, by rw [hv]; rfl⟩
  | _ hv => exact .inr ⟨rfl, by rw [hv]; rfl⟩

theorem Life.before_dispatch (h : Life c read t e v v') (hv' : v'.place.dispatched = false) :
    ∃ id, v' = { v with place := v'.place, txn := { v.txn with uniqueId := id } } := by
  cases h with
  | request id _ => exact ⟨id, rfl⟩
  | pop _ => exact ⟨v.txn.uniqueId, rfl⟩
  | lock _ => exact ⟨v.txn.uniqueId, rfl⟩
  | ready _ => exact ⟨v.txn.uniqueId, rfl⟩
  | park _ => exact ⟨v.txn.uniqueId, rfl⟩
  | wake _ _ _ => exact ⟨v.txn.uniqueId, rfl⟩
  | _ => cases hv'

theorem Life.of_dispatch (h : Life c read t (.dispatch u) v v') :
    v' = { v with place := .pooled } := by
  cases h with
  | dispatch _ => rfl

theorem dispatched_of_idle (h : e.txn = none) : dispatched [e] = [] := by
  cases e <;> first | rfl | cases h

theorem taken_step (hperm : s.taken.Perm (dispatched tr)) (h : Step code s e s') :
    s'.taken.Perm (dispatched (tr ++ [e])) := by
  rw [dispatched_append]
  obtain m | ⟨u, l, m⟩ | ⟨u, pu, pu', l, m⟩ := step_moves tr h
  · rw [dispatched_of_idle m.txn, List.append_nil, State.taken, m.places]
    exact hperm
  · have hbefore : s.taken.Perm _ := takenOf_perm m.before
    have hafter : s'.taken.Perm _ := takenOf_perm m.after
    rw [m.event]
    simpa [dispatched] using hafter.trans (hbefore.symm.trans hperm)
  · have hbefore : s.taken.Perm _ := takenOf_perm m.before
    have hafter : s'.taken.Perm _ := takenOf_perm m.after
    rw [takenOf_cons] at hbefore hafter
    rw [takenOf_ready] at hafter
    rcases m.life.dispatched with ⟨rfl, hv, hv'⟩ | ⟨hnil, hv⟩
    · have hpu : pu.dispatched = false := hv
      have hpu' : pu'.dispatched = true := hv'
      simp only [hpu, hpu', if_true, Bool.false_eq_true, if_false, List.nil_append]
        at hbefore hafter
      exact hafter.trans (List.perm_append_comm.trans ((hbefore.symm.trans hperm).append_right _))
    · have hpu : pu'.dispatched = pu.dispatched := hv
      rw [hpu] at hafter
      rw [hnil, List.append_nil]
      exact hafter.trans (hbefore.symm.trans hperm)

/-- A step leaves a dispatched transaction where it is and as it is, but for its id, or it
is a step of its life. -/
theorem taken_at_step (tr : List Event) (hnodup : s'.taken.Nodup) (h : Step code s e s')
    (hmem : (t, pl') ∈ s'.places) (hd : pl'.dispatched = true) :
    ((t, pl') ∈ s.places ∧ ∃ id, view (tr ++ [e]) s' t pl' =
      { view tr s t pl' with txn := { s.txns t with uniqueId := id } }) ∨
    ∃ pl, (t, pl) ∈ s.places ∧
      Life (code t) s.storage.read t e (view tr s t pl) (view (tr ++ [e]) s' t pl') := by
  obtain m | ⟨u, l, m⟩ | ⟨u, pu, pu', l, m⟩ := step_moves tr h
  · exact .inl ⟨m.places ▸ hmem, _, m.views t pl'⟩
  · have hold := m.before.mem_iff.mpr (List.mem_cons_of_mem _ (m.after.mem_iff.mp hmem))
    exact .inl ⟨hold, _, m.views t pl'⟩
  · rcases m.mem_places.mp hmem with ⟨rfl, rfl⟩ | ⟨rfl, _⟩ | hold
    · exact .inr ⟨pu, m.mem_before, m.life⟩
    · cases hd
    · refine .inl ⟨m.mem_of_mem_rest hold, ?_⟩
      by_cases htu : t = u
      · -- another copy of `t` moves, and it cannot be a dispatched one
        subst htu
        have hpu' : pu'.dispatched = false := by
          by_contra hne
          have hperm : s'.taken.Perm _ := takenOf_perm m.after
          rw [takenOf_cons, takenOf_ready, if_pos (by simpa using hne)] at hperm
          refine (List.nodup_cons.mp (hperm.nodup_iff.mp hnodup)).1 ?_
          exact List.mem_map.mpr ⟨(t, pl'), List.mem_filter.mpr ⟨hold, hd⟩, rfl⟩
        obtain ⟨id, hid⟩ := m.life.before_dispatch hpu'
        exact ⟨id, congrArg (fun v : View => { v with place := pl' }) hid⟩
      · exact ⟨_, m.others t pl' htu⟩

end Taken

section Runs
variable {txns : TxnPtr → Txn} {storage : Storage} {ts : List TxnPtr} {tr : List Event}
  {s s' : State lm} {t : TxnPtr} {pl : Place} {e : Event}

theorem taken_of_run (h : Runs code txns storage ts tr s) : s.taken.Perm (dispatched tr) := by
  refine h.invariant (I := fun tr s => s.taken.Perm (dispatched tr)) ?_
    fun _ hi hs => taken_step hi hs
  simp [State.taken, takenOf, State.places, State.init, Processor.init, SchedPc.places, dispatched,
    Place.dispatched, List.filter_map, Function.comp_def]

theorem taken_nodup (h : Runs code txns storage ts tr s) (honce : (dispatched tr).Nodup) :
    s.taken.Nodup := (taken_of_run h).nodup_iff.mpr honce

theorem undispatched (h : Runs code txns storage ts tr s) (ht : t ∉ dispatched tr) :
    readLog tr t = [] ∧ s.committedTxns.count t = 0 := by
  refine h.invariant (I := fun tr s => t ∉ dispatched tr →
    readLog tr t = [] ∧ s.committedTxns.count t = 0) ?_ ?_ ht
  · intro _
    exact ⟨rfl, rfl⟩
  · intro tr s e s' hr ih hstep ht'
    have ht₀ : t ∉ dispatched tr := fun hmem => ht' (by simp [hmem])
    obtain ⟨hlog, hcom⟩ := ih ht₀
    have hno : ∀ pl, (t, pl) ∈ s'.places → pl.dispatched = false := fun pl hmem => by
      by_contra hd
      refine ht' ((taken_of_run (hr.snoc hstep)).mem_iff.mp (mem_taken.mpr ⟨pl, hmem, ?_⟩))
      simpa using hd
    obtain m | ⟨u, l, m⟩ | ⟨u, pu, pu', l, m⟩ := step_moves tr hstep
    · have hv := m.views t .client
      exact ⟨(congrArg View.log hv).trans hlog, (congrArg View.commits hv).trans hcom⟩
    · have hv := m.views t .client
      exact ⟨(congrArg View.log hv).trans hlog, (congrArg View.commits hv).trans hcom⟩
    · by_cases htu : t = u
      · subst htu
        obtain ⟨id, hv⟩ := m.life.before_dispatch (hno pu' (m.mem_places.mpr (.inl ⟨rfl, rfl⟩)))
        exact ⟨(congrArg View.log hv).trans hlog, (congrArg View.commits hv).trans hcom⟩
      · have hv := m.others t .client htu
        exact ⟨(congrArg View.log hv).trans hlog, (congrArg View.commits hv).trans hcom⟩

/-- The rule for following the dispatched transactions: `P` is about the code, the view
and nothing else, so ids do not matter to it. -/
theorem follow_dispatched {P : TxnPtr → View → Prop} (h : Runs code txns storage ts tr s)
    (honce : (dispatched tr).Nodup)
    (hid : ∀ {t v} (id : Nat), P t v → P t { v with txn := { v.txn with uniqueId := id } })
    (hnew : ∀ {t v}, v.place = .pooled → v.log = [] → v.commits = 0 → P t v)
    (hlife : ∀ {t read e v v'}, v.place.dispatched = true → P t v →
      Life (code t) read t e v v' → P t v') :
    ∀ t pl, (t, pl) ∈ s.places → pl.dispatched = true → P t (view tr s t pl) := by
  refine h.invariant (I := fun tr s => (dispatched tr).Nodup → ∀ t pl, (t, pl) ∈ s.places →
    pl.dispatched = true → P t (view tr s t pl)) ?_ ?_ honce
  · intro _ t pl hmem hd
    have hnil : State.taken (State.init lm txns storage ts) = [] :=
      List.perm_nil.mp (taken_of_run (.nil : Runs code txns storage ts [] _))
    have ht := mem_taken.mpr ⟨pl, hmem, hd⟩
    rw [hnil] at ht
    exact absurd ht List.not_mem_nil
  · intro tr s e s' hr ih hstep honce t pl' hmem hd
    have hold := ih (nodup_of_append honce)
    rcases taken_at_step tr (taken_nodup (hr.snoc hstep) honce) hstep hmem hd with
      ⟨hmem₀, id, hv⟩ | ⟨pl, hpl, hl⟩
    · rw [hv]
      exact hid id (hold t pl' hmem₀ hd)
    · rcases hl.dispatched with ⟨rfl, _, _⟩ | ⟨_, hsame⟩
      · have hno : t ∉ dispatched tr := by
          rw [dispatched_append] at honce
          exact fun ht => (List.nodup_append.mp honce).2.2 t ht t (by simp [dispatched]) rfl
        obtain ⟨hlog, hcom⟩ := undispatched hr hno
        have hv := hl.of_dispatch
        exact hnew (congrArg View.place hv) ((congrArg View.log hv).trans hlog)
          ((congrArg View.commits hv).trans hcom)
      · have hd₀ : pl.dispatched = true := hsame.symm.trans hd
        exact hlife hd₀ (hold t pl hpl hd₀) hl

end Runs

end Cmsc624.A2
