import Cmsc624.A2.LifeCycle

/-!
# Custody of transactions in the locking scheduler

Every transaction is at exactly one place or kept back by the lock manager. The
invariant needs only what `LateGrant` says of the lock manager, and it makes every
call of the lock manager one that the interface allows.
-/

namespace Cmsc624.A2

open Lib

set_option autoImplicit false

variable {lm : LockManager} {code : TxnPtr → TxnCode}

def State.names (s : State lm) : List TxnPtr := s.places.map Prod.fst

/-- At this place a request for `k` is still to be made. -/
def Place.unrequested : Place → Key → Prop
  | .client, _ => True
  | .requested, _ => True
  | .locking rest, k => k ∈ rest.map LockCall.key
  | _, _ => False

theorem mem_names {s : State lm} {t : TxnPtr} : t ∈ s.names ↔ ∃ pl, (t, pl) ∈ s.places := by
  simp [State.names]

theorem mem_names_of_mem {s : State lm} {t : TxnPtr} {pl : Place} (h : (t, pl) ∈ s.places) :
    t ∈ s.names := mem_names.mpr ⟨pl, h⟩

/-- What a step does to the lock manager, and to the scheduler while it asks for locks. -/
inductive LockEffect (code : TxnPtr → TxnCode) (s : State lm) (e : Event) (s' : State lm) :
    Prop where
  | call (t : TxnPtr) (c : LockCall) (rest : List LockCall) (b : Bool)
      (hpc : s.sched = .locking t (c :: rest) b)
      (he : e = .lock t c (lm.call t c s.lockState).1)
      (hpc' : s'.sched = .locking t rest (b || !(lm.call t c s.lockState).1))
      (hst : s'.lockState = (lm.call t c s.lockState).2)
  | release (t : TxnPtr) (k : Key) (rest : List Key) (hpc : s.sched = .releasing t (k :: rest))
      (he : e = .release t k (lm.release t k s.lockState).1) (hpc' : s'.sched = .releasing t rest)
      (hst : s'.lockState = (lm.release t k s.lockState).2)
  | none (hwoken : e.woken = []) (hlock : ∀ t c b, e ≠ .lock t c b)
      (hrelease : ∀ t k w, e ≠ .release t k w) (hst : s'.lockState = s.lockState)
      (hnew : ∀ u rest b, s'.sched = .locking u rest b → s.sched = .locking u rest b ∨
        (e = .pop u ∧ s.sched = .top ∧ (u, .requested) ∈ s.places ∧ rest = (code u).lockCalls ∧
          b = false))
      (hold : ∀ u rest, s.sched = .locking u rest true → s'.sched = s.sched ∨ e = .park u)

theorem LockEffect.of_sched_eq {s s' : State lm} {e : Event} (hwoken : e.woken = [])
    (hlock : ∀ t c b, e ≠ .lock t c b) (hrelease : ∀ t k w, e ≠ .release t k w)
    (hst : s'.lockState = s.lockState) (hsched : s'.sched = s.sched) : LockEffect code s e s' :=
  .none hwoken hlock hrelease hst (fun _ _ _ hu => .inl (hsched ▸ hu)) fun _ _ _ => .inl hsched

theorem step_lockEffect {s s' : State lm} {e : Event} (h : Step code s e s') :
    LockEffect code s e s' := by
  cases h with
  | lock hpc => exact .call _ _ _ _ hpc rfl rfl rfl
  | release hpc => exact .release _ _ _ hpc rfl rfl rfl
  | pop hpc _ hq =>
    refine .none rfl (by simp) (by simp) rfl (fun u rest b hu => ?_)
      (fun u rest hu => by simp [hpc] at hu)
    obtain ⟨rfl, rfl, rfl⟩ : _ ∧ _ ∧ _ := by simpa using hu
    exact .inr ⟨rfl, hpc, by simp [State.places, hq], rfl, rfl⟩
  | park hpc =>
    refine .none rfl (by simp) (by simp) rfl (fun u rest b hu => by simp at hu)
      (fun u rest hu => .inr ?_)
    rw [hpc] at hu
    obtain ⟨rfl, _⟩ : _ ∧ _ := by simpa using hu
    rfl
  | request _ hp => exact .of_sched_eq rfl (by simp) (by simp) rfl rfl
  | result _ => exact .of_sched_eq rfl (by simp) (by simp) rfl rfl
  | stop => exact .of_sched_eq rfl (by simp) (by simp) rfl rfl
  | start _ => exact .of_sched_eq rfl (by simp) (by simp) rfl rfl
  | size _ => exact .of_sched_eq rfl (by simp) (by simp) rfl rfl
  | read _ => exact .of_sched_eq rfl (by simp) (by simp) rfl rfl
  | run _ _ => exact .of_sched_eq rfl (by simp) (by simp) rfl rfl
  | complete _ => exact .of_sched_eq rfl (by simp) (by simp) rfl rfl
  | dispatch _ _ => exact .of_sched_eq rfl (by simp) (by simp) rfl rfl
  | _ hpc =>
    exact .none rfl (by simp) (by simp) rfl (fun _ _ _ hu => by simp at hu) fun _ _ hu => by
      simp [hpc] at hu

/-- The custody invariant, for the transactions `ts` of the clients. -/
structure Custody (spec : LateGrant lm) (code : TxnPtr → TxnCode) (ts : List TxnPtr)
    (s : State lm) : Prop where
  nodup : s.names.Nodup
  known : ∀ t ∈ s.names, t ∈ ts
  waits_known : ∀ t, spec.waits s.lockState t → t ∈ ts
  placed : ∀ t ∈ ts, t ∈ s.names ∨ spec.waits s.lockState t
  -- Only the transaction whose requests are being made is both at a place and waiting.
  unplaced : ∀ t, spec.waits s.lockState t → t ∈ s.names → ∃ rest, s.sched = .locking t rest true
  blocked : ∀ t rest b, s.sched = .locking t rest b → (b = true ↔ spec.waits s.lockState t)
  calls : ∀ t rest b, s.sched = .locking t rest b → rest <:+ (code t).lockCalls
  requested : ∀ t k, spec.requested s.lockState t k → ∀ pl, (t, pl) ∈ s.places → ¬pl.unrequested k

section Names
variable {tr : List Event} {s s' : State lm} {e : Event} {t u : TxnPtr} {pl pl' : Place}
  {l : List (TxnPtr × Place)}

theorem Moves.names_before (m : Moves code tr s e s' t pl pl' l) :
    s.names.Perm (t :: l.map Prod.fst) := m.before.map Prod.fst

theorem Moves.names_after (m : Moves code tr s e s' t pl pl' l) :
    s'.names.Perm (t :: (e.woken ++ l.map Prod.fst)) := by
  have h := m.after.map Prod.fst
  simpa [State.names, Function.comp_def] using h

theorem Moves.mem_names (m : Moves code tr s e s' t pl pl' l) :
    u ∈ s'.names ↔ u ∈ s.names ∨ u ∈ e.woken := by
  rw [m.names_before.mem_iff, m.names_after.mem_iff]
  simp only [List.mem_cons, List.mem_append]
  tauto

theorem Moves.mem_places (m : Moves code tr s e s' t pl pl' l) {q : Place} :
    (u, q) ∈ s'.places ↔ (u = t ∧ q = pl') ∨ (q = .ready ∧ u ∈ e.woken) ∨ (u, q) ∈ l := by
  rw [m.after.mem_iff]
  simp only [List.mem_cons, List.mem_append, List.mem_map, Prod.mk.injEq]
  constructor
  · rintro (h | ⟨_, hw, rfl, rfl⟩ | h)
    · exact .inl h
    · exact .inr (.inl ⟨rfl, hw⟩)
    · exact .inr (.inr h)
  · rintro (h | ⟨rfl, hw⟩ | h)
    · exact .inl h
    · exact .inr (.inl ⟨u, hw, rfl, rfl⟩)
    · exact .inr (.inr h)

theorem Moves.mem_before (m : Moves code tr s e s' t pl pl' l) : (t, pl) ∈ s.places :=
  m.before.mem_iff.mpr List.mem_cons_self

theorem Moves.mem_of_mem_rest (m : Moves code tr s e s' t pl pl' l) {q : Place}
    (h : (u, q) ∈ l) : (u, q) ∈ s.places := m.before.mem_iff.mpr (List.mem_cons_of_mem _ h)

theorem Parks.mem_names (m : Parks tr s e s' t l) : u ∈ s.names ↔ u = t ∨ u ∈ s'.names := by
  rw [State.names, State.names, (m.before.map Prod.fst).mem_iff, (m.after.map Prod.fst).mem_iff]
  simp

theorem Idle.names (m : Idle tr s e s') : s'.names = s.names := by
  rw [State.names, State.names, m.places]

end Names

theorem mem_names_of_step {s s' : State lm} {e : Event} {u : TxnPtr} (h : Step code s e s')
    (hu : u ∈ s'.names) : u ∈ s.names ∨ u ∈ e.woken := by
  obtain m | ⟨t, l, m⟩ | ⟨t, pl, pl', l, m⟩ := step_moves [] h
  · exact .inl (by rwa [← m.names])
  · exact .inl (m.mem_names.mpr (.inr hu))
  · exact m.mem_names.mp hu

theorem mem_names_of_woken {s s' : State lm} {e : Event} {u : TxnPtr} (h : Step code s e s')
    (hu : u ∈ e.woken) : u ∈ s'.names := by
  obtain m | ⟨t, l, m⟩ | ⟨t, pl, pl', l, m⟩ := step_moves [] h
  · have happ := m.appended
    cases e <;> simp_all [Event.woken, Event.appended]
  · rw [m.event] at hu
    exact absurd hu List.not_mem_nil
  · exact m.mem_names.mpr (.inr hu)

theorem Life.unrequested {c : TxnCode} {read : Key → Option Value} {t : TxnPtr} {e : Event}
    {v v' : View} (h : Life c read t e v v') {k : Key} (hk : v'.place.unrequested k) :
    v.place.unrequested k := by
  cases h with
  | request _ hv => rw [hv]; trivial
  | pop hv => rw [hv]; trivial
  | lock hv => rw [hv]; exact List.mem_cons_of_mem _ hk
  | park hv => exact hk
  | _ => exact hk.elim

section Preservation
variable {spec : LateGrant lm} {ts : List TxnPtr} {tr : List Event} {s s' : State lm} {e : Event}

theorem Custody.init {txns : TxnPtr → Txn} {storage : Storage} (hts : ts.Nodup) :
    Custody spec code ts (State.init lm txns storage ts) where
  nodup := by simpa [State.names, State.places, State.init, Processor.init, SchedPc.places,
    Function.comp_def] using hts
  known := by simp [State.names, State.places, State.init, Processor.init, SchedPc.places]
  waits_known t h := absurd h (spec.init_waits t)
  placed t ht := by
    simp [State.names, State.places, State.init, Processor.init, SchedPc.places, ht]
  unplaced t h := absurd h (spec.init_waits t)
  blocked t rest b h := by simp [State.init] at h
  calls t rest b h := by simp [State.init] at h
  requested t k h := absurd h (spec.init_requested t k)

/-- A placed transaction waits only while its own requests are being made. -/
theorem Custody.not_waits (inv : Custody spec code ts s) {t : TxnPtr} (ht : t ∈ s.names)
    (hs : ∀ rest, s.sched ≠ .locking t rest true) : ¬spec.waits s.lockState t := by
  intro hw
  obtain ⟨rest, hrest⟩ := inv.unplaced t hw ht
  exact hs rest hrest

/-- The interface allows every call that the scheduler makes. -/
theorem Custody.not_requested (inv : Custody spec code ts s) {t : TxnPtr} {c : LockCall}
    {rest : List LockCall} {b : Bool} (hpc : s.sched = .locking t (c :: rest) b) :
    ¬spec.requested s.lockState t c.key := fun hreq =>
  inv.requested t c.key hreq _ (locking_mem_places.mpr ⟨b, hpc⟩) (by simp [Place.unrequested])

theorem Custody.woken_notMem (inv : Custody spec code ts s) (h : Step code s e s') :
    e.woken.Nodup ∧ ∀ u ∈ e.woken, spec.waits s.lockState u ∧ u ∉ s.names := by
  cases step_lockEffect h with
  | call t c rest b hpc he => rw [he]; exact ⟨List.nodup_nil, by simp [Event.woken]⟩
  | none hwoken => rw [hwoken]; exact ⟨List.nodup_nil, by simp⟩
  | release t k rest hpc he =>
    rw [he]
    refine ⟨spec.release_nodup t k s.lockState, fun u hu => ?_⟩
    have hw := spec.release_woken t k s.lockState u hu
    refine ⟨hw, fun hmem => ?_⟩
    obtain ⟨rest, hrest⟩ := inv.unplaced u hw hmem
    simp [hpc] at hrest

theorem Custody.step_nodup (inv : Custody spec code ts s) (h : Step code s e s') :
    s'.names.Nodup := by
  obtain m | ⟨t, l, m⟩ | ⟨t, pl, pl', l, m⟩ := step_moves [] h
  · rw [m.names]
    exact inv.nodup
  · have hold := (m.before.map Prod.fst).nodup_iff.mp inv.nodup
    exact (m.after.map Prod.fst).nodup_iff.mpr (List.nodup_cons.mp hold).2
  · obtain ⟨hwoken, hnew⟩ := inv.woken_notMem h
    have hold := m.names_before.nodup_iff.mp inv.nodup
    refine m.names_after.nodup_iff.mpr (List.perm_middle.nodup_iff.mp ?_)
    refine List.nodup_append.mpr ⟨hwoken, hold, ?_⟩
    rintro a ha b hb rfl
    exact (hnew a ha).2 (m.names_before.mem_iff.mpr hb)

theorem Custody.step_known (inv : Custody spec code ts s) (h : Step code s e s') :
    ∀ t ∈ s'.names, t ∈ ts := by
  intro u hu
  rcases mem_names_of_step h hu with hold | hw
  · exact inv.known u hold
  · exact inv.waits_known u ((inv.woken_notMem h).2 u hw).1

theorem Custody.step_waits (inv : Custody spec code ts s) (h : Step code s e s') (u : TxnPtr) :
    spec.waits s'.lockState u ↔
      (spec.waits s.lockState u ∧ u ∉ e.woken) ∨ ∃ c, e = .lock u c false := by
  cases step_lockEffect h with
  | call t c rest b hpc he hpc' hst =>
    rw [hst, spec.call_waits t c _ (inv.not_requested hpc), he]
    simp only [Event.woken, List.not_mem_nil, not_false_eq_true, and_true, Event.lock.injEq]
    refine or_congr_right ⟨?_, ?_⟩
    · rintro ⟨rfl, hans⟩
      exact ⟨c, rfl, rfl, hans⟩
    · rintro ⟨_, rfl, rfl, hans⟩
      exact ⟨rfl, hans⟩
  | release t k rest hpc he hpc' hst =>
    have hmem : (t, Place.releasing (k :: rest)) ∈ s.places := by
      simp [State.places, SchedPc.places, hpc]
    have ht : ¬spec.waits s.lockState t := inv.not_waits (mem_names_of_mem hmem) (by simp [hpc])
    rw [hst, spec.release_waits t k _ ht, he]
    simp [Event.woken]
  | none hwoken hlock hrelease hst =>
    rw [hst, hwoken]
    simp [hlock]

theorem lock_event {u : TxnPtr} {c : LockCall} {b : Bool} (h : Step code s (.lock u c b) s') :
    ∃ rest b, s.sched = .locking u (c :: rest) b := by
  cases h with
  | lock hpc => exact ⟨_, _, hpc⟩

theorem Custody.park_notMem (inv : Custody spec code ts s) {u : TxnPtr}
    (h : Step code s (.park u) s') : u ∉ s'.names := by
  cases h with
  | park hpc =>
    have hold := ((Parks.of_sched [] hpc).before.map Prod.fst).nodup_iff.mp inv.nodup
    exact (List.nodup_cons.mp hold).1

theorem Custody.step_waits_known (inv : Custody spec code ts s) (h : Step code s e s') :
    ∀ t, spec.waits s'.lockState t → t ∈ ts := by
  intro u hu
  rcases (inv.step_waits h u).mp hu with ⟨hold, _⟩ | ⟨c, rfl⟩
  · exact inv.waits_known u hold
  · obtain ⟨rest, b, hpc⟩ := lock_event h
    exact inv.known u (mem_names_of_mem (locking_mem_places.mpr ⟨b, hpc⟩))

theorem Custody.step_placed (inv : Custody spec code ts s) (h : Step code s e s') :
    ∀ t ∈ ts, t ∈ s'.names ∨ spec.waits s'.lockState t := by
  intro u hu
  have hkept : spec.waits s.lockState u → u ∈ e.woken ∨ spec.waits s'.lockState u := by
    intro hw
    by_cases hwoken : u ∈ e.woken
    · exact .inl hwoken
    · exact .inr ((inv.step_waits h u).mpr (.inl ⟨hw, hwoken⟩))
  obtain m | ⟨t, l, m⟩ | ⟨t, pl, pl', l, m⟩ := step_moves [] h
  · rw [m.names, m.lockState]
    exact inv.placed u hu
  · rw [m.lockState]
    rcases inv.placed u hu with hold | hw
    · rcases m.mem_names.mp hold with rfl | hnew
      · exact .inr ((inv.blocked u [] true m.sched).mp rfl)
      · exact .inl hnew
    · exact .inr hw
  · rw [m.mem_names]
    rcases inv.placed u hu with hold | hw
    · exact .inl (.inl hold)
    · exact (hkept hw).imp_left .inr

theorem Custody.step_unplaced (inv : Custody spec code ts s) (h : Step code s e s') :
    ∀ t, spec.waits s'.lockState t → t ∈ s'.names → ∃ rest, s'.sched = .locking t rest true := by
  intro u hu hmem
  cases step_lockEffect h with
  | call t c rest b hpc he hpc' hst =>
    rcases (inv.step_waits h u).mp hu with ⟨hw, _⟩ | ⟨c', hc'⟩
    · have hold := (mem_names_of_step h hmem).resolve_right (by simp [he, Event.woken])
      obtain ⟨rest', hrest'⟩ := inv.unplaced u hw hold
      obtain ⟨rfl, rfl, rfl⟩ : _ ∧ _ ∧ _ := by simpa [hpc] using hrest'
      exact ⟨rest, by simpa using hpc'⟩
    · rw [he] at hc'
      obtain ⟨rfl, rfl, hans⟩ : _ ∧ _ ∧ _ := by simpa using hc'
      exact ⟨rest, by simpa [hans] using hpc'⟩
  | release t k rest hpc he hpc' hst =>
    obtain ⟨hw, hwoken⟩ | ⟨c, rfl⟩ := (inv.step_waits h u).mp hu
    · obtain ⟨rest', hrest'⟩ := inv.unplaced u hw ((mem_names_of_step h hmem).resolve_right hwoken)
      simp [hpc] at hrest'
    · cases he
  | none hwoken hlock hrelease hst hnew hold =>
    obtain ⟨hw, _⟩ | ⟨c, hc⟩ := (inv.step_waits h u).mp hu
    · have hmem' := (mem_names_of_step h hmem).resolve_right (by simp [hwoken])
      obtain ⟨rest, hrest⟩ := inv.unplaced u hw hmem'
      rcases hold u rest hrest with hsame | rfl
      · exact ⟨rest, hsame.trans hrest⟩
      · exact absurd hmem (inv.park_notMem h)
    · exact absurd hc (hlock u c false)

theorem Custody.step_blocked (inv : Custody spec code ts s) (h : Step code s e s') :
    ∀ t rest b, s'.sched = .locking t rest b → (b = true ↔ spec.waits s'.lockState t) := by
  intro u rest b hu
  rw [inv.step_waits h u]
  cases step_lockEffect h with
  | call t c rest' b' hpc he hpc' hst =>
    obtain ⟨rfl, rfl, rfl⟩ : _ ∧ _ ∧ _ := by simpa [hpc'] using hu
    simp [he, Event.woken, inv.blocked _ _ _ hpc]
  | release t k rest' hpc he hpc' hst => simp [hpc'] at hu
  | none hwoken hlock hrelease hst hnew hold =>
    simp only [hwoken, List.not_mem_nil, not_false_eq_true, and_true, hlock, exists_false, or_false]
    rcases hnew u rest b hu with hsame | ⟨_, hpc, hmem, rfl, rfl⟩
    · exact inv.blocked u rest b hsame
    · have hno := inv.not_waits (mem_names_of_mem hmem) (by simp [hpc])
      simp [hno]

theorem Custody.step_calls (inv : Custody spec code ts s) (h : Step code s e s') :
    ∀ t rest b, s'.sched = .locking t rest b → rest <:+ (code t).lockCalls := by
  intro u rest b hu
  cases step_lockEffect h with
  | call t c rest' b' hpc he hpc' hst =>
    obtain ⟨rfl, rfl, rfl⟩ : _ ∧ _ ∧ _ := by simpa [hpc'] using hu
    exact (List.suffix_cons c _).trans (inv.calls _ _ _ hpc)
  | release t k rest' hpc he hpc' hst => simp [hpc'] at hu
  | none hwoken hlock hrelease hst hnew hold =>
    rcases hnew u rest b hu with hsame | ⟨_, _, _, rfl, _⟩
    · exact inv.calls u rest b hsame
    · exact List.suffix_refl _

theorem Custody.place_unique (inv : Custody spec code ts s) {t : TxnPtr} {pl pl' : Place}
    (h : (t, pl) ∈ s.places) (h' : (t, pl') ∈ s.places) : pl = pl' :=
  congrArg Prod.snd (List.inj_on_of_nodup_map inv.nodup h h' rfl)

theorem Custody.call_notMem_rest (inv : Custody spec code ts s)
    (hcode : ∀ t ∈ ts, (code t).checkReadWriteSets) {t : TxnPtr} {c : LockCall}
    {rest : List LockCall} {b : Bool} (hpc : s.sched = .locking t (c :: rest) b) :
    c.key ∉ rest.map LockCall.key := by
  have ht := inv.known t (mem_names_of_mem (locking_mem_places.mpr ⟨b, hpc⟩))
  have hkeys : ((code t).lockCalls.map LockCall.key).Nodup := by
    rw [TxnCode.lockCalls_keys]
    exact TxnCode.keys_nodup (hcode t ht)
  have hsub := ((inv.calls t _ b hpc).sublist.map LockCall.key).nodup hkeys
  exact (List.nodup_cons.mp hsub).1

theorem unrequested_of_step {u : TxnPtr} {pl' : Place} {k : Key} (h : Step code s e s')
    (hmem : (u, pl') ∈ s'.places) (hk : pl'.unrequested k) :
    ∃ pl, (u, pl) ∈ s.places ∧ pl.unrequested k := by
  obtain m | ⟨t, l, m⟩ | ⟨t, pl, pl₁, l, m⟩ := step_moves [] h
  · exact ⟨pl', by rwa [← m.places], hk⟩
  · exact ⟨pl', m.before.mem_iff.mpr (List.mem_cons_of_mem _ (m.after.mem_iff.mp hmem)), hk⟩
  · rcases m.mem_places.mp hmem with ⟨rfl, rfl⟩ | ⟨rfl, _⟩ | hold
    · exact ⟨pl, m.mem_before, m.life.unrequested hk⟩
    · exact hk.elim
    · exact ⟨pl', m.mem_of_mem_rest hold, hk⟩

theorem Custody.step_requested (inv : Custody spec code ts s)
    (hcode : ∀ t ∈ ts, (code t).checkReadWriteSets) (h : Step code s e s') :
    ∀ t k, spec.requested s'.lockState t k → ∀ pl, (t, pl) ∈ s'.places → ¬pl.unrequested k := by
  intro u k hreq pl' hmem hk
  have hkept : ¬spec.requested s.lockState u k := by
    intro hold
    obtain ⟨pl, hpl, hk⟩ := unrequested_of_step h hmem hk
    exact inv.requested u k hold pl hpl hk
  cases step_lockEffect h with
  | call t c rest b hpc he hpc' hst =>
    rw [hst] at hreq
    rcases spec.call_requested t c _ (inv.not_requested hpc) u k hreq with hold | ⟨rfl, rfl⟩
    · exact hkept hold
    · have hnodup := inv.step_nodup h
      have hlocking := locking_mem_places.mpr ⟨_, hpc'⟩
      obtain rfl : pl' = .locking rest :=
        congrArg Prod.snd (List.inj_on_of_nodup_map hnodup hmem hlocking rfl)
      exact inv.call_notMem_rest hcode hpc hk
  | release t k' rest hpc he hpc' hst =>
    rw [hst] at hreq
    exact hkept (spec.release_requested t k' _ u k hreq)
  | none hwoken hlock hrelease hst => exact hkept (hst ▸ hreq)

theorem Custody.step (inv : Custody spec code ts s)
    (hcode : ∀ t ∈ ts, (code t).checkReadWriteSets) (h : Step code s e s') :
    Custody spec code ts s' where
  nodup := inv.step_nodup h
  known := inv.step_known h
  waits_known := inv.step_waits_known h
  placed := inv.step_placed h
  unplaced := inv.step_unplaced h
  blocked := inv.step_blocked h
  calls := inv.step_calls h
  requested := inv.step_requested hcode h

theorem custody_of_run {txns : TxnPtr → Txn} {storage : Storage} (spec : LateGrant lm)
    (hts : ts.Nodup) (hcode : ∀ t ∈ ts, (code t).checkReadWriteSets)
    (h : Runs code txns storage ts tr s) : Custody spec code ts s :=
  h.stateInvariant (Custody.init hts) fun inv hstep => inv.step hcode hstep

end Preservation

/-- `t` is at `pl`, where one kept back by the lock manager has made all its requests. -/
def State.At (s : State lm) (t : TxnPtr) (pl : Place) : Prop :=
  (t, pl) ∈ s.places ∨ (t ∉ s.names ∧ pl = .locking [])

section Follow
variable {spec : LateGrant lm} {ts : List TxnPtr} {tr : List Event} {s s₀ s' : State lm} {e : Event}
  {t : TxnPtr} {pl : Place}

theorem State.exists_at (s : State lm) (t : TxnPtr) : ∃ pl, s.At t pl := by
  by_cases h : t ∈ s.names
  · obtain ⟨pl, hpl⟩ := mem_names.mp h
    exact ⟨pl, .inl hpl⟩
  · exact ⟨_, .inr ⟨h, rfl⟩⟩

theorem woken_event (h : t ∈ e.woken) :
    ∃ u k woken, e = .release u k woken ∧ t ∈ woken := by
  cases e with
  | release u k woken => exact ⟨u, k, woken, rfl, h⟩
  | _ => simp [Event.woken] at h

/-- A step leaves the transactions it does not work on alone, or it is a step of their life. -/
theorem Custody.at_step (inv : Custody spec code ts s) (tr : List Event) (h : Step code s e s')
    (hat : s'.At t pl) :
    ∃ pl₀, s.At t pl₀ ∧
      ((e.txn ≠ some t ∧ t ∉ e.woken ∧ view (tr ++ [e]) s' t pl = view tr s t pl₀) ∨
        Life (code t) s.storage.read t e (view tr s t pl₀) (view (tr ++ [e]) s' t pl)) := by
  have hwoken : t ∈ e.woken → t ∉ s.names ∧ t ∈ s'.names := fun hw =>
    ⟨((inv.woken_notMem h).2 t hw).2, mem_names_of_woken h hw⟩
  -- nothing moves, or `u` goes to the lock manager, or `u` moves and some are woken
  obtain m | ⟨u, l, m⟩ | ⟨u, pu, pu', l, m⟩ := step_moves tr h
  · refine ⟨pl, ?_, .inl ⟨by simp [m.txn], fun hw => ?_, m.views t pl⟩⟩
    · rwa [State.At, ← m.names, ← m.places]
    · exact (hwoken hw).1 (m.names ▸ (hwoken hw).2)
  · by_cases htu : t = u
    · subst htu
      have hnodup := (m.before.map Prod.fst).nodup_iff.mp inv.nodup
      have hno : t ∉ s'.names := fun hmem =>
        (List.nodup_cons.mp hnodup).1 ((m.after.map Prod.fst).mem_iff.mp hmem)
      obtain rfl : pl = .locking [] := (hat.resolve_left fun hmem => hno (mem_names_of_mem hmem)).2
      refine ⟨_, .inl (m.before.mem_iff.mpr List.mem_cons_self), .inr ?_⟩
      rw [m.views, m.event]
      exact .park rfl
    · refine ⟨pl, ?_, .inl ⟨by simp [m.event, Event.txn, Ne.symm htu],
        by simp [m.event, Event.woken], m.views t pl⟩⟩
      rcases hat with hmem | ⟨hno, rfl⟩
      · exact .inl (m.before.mem_iff.mpr (List.mem_cons_of_mem _ (m.after.mem_iff.mp hmem)))
      · exact .inr ⟨fun hold => (m.mem_names.mp hold).elim htu hno, rfl⟩
  · have hother : t ∉ s.names → t ≠ u := fun hno heq =>
      hno (heq ▸ mem_names_of_mem m.mem_before)
    have hevent : t ≠ u → e.txn ≠ some t := fun htu => by simp [m.txn, Ne.symm htu]
    rcases hat with hmem | ⟨hno, rfl⟩
    · rcases m.mem_places.mp hmem with ⟨rfl, rfl⟩ | ⟨rfl, hw⟩ | hold
      · exact ⟨pu, .inl m.mem_before, .inr m.life⟩
      · have hwait := ((inv.woken_notMem h).2 t hw).2
        refine ⟨_, .inr ⟨hwait, rfl⟩, .inr ?_⟩
        rw [m.others t .ready (hother hwait)]
        obtain ⟨u', k, woken, rfl, hmem⟩ := woken_event hw
        obtain rfl : u' = u := Option.some.inj m.txn
        exact .wake (hother hwait).symm hmem rfl
      · have htu : t ≠ u := by
          rintro rfl
          have hnodup := m.names_before.nodup_iff.mp inv.nodup
          exact (List.nodup_cons.mp hnodup).1 (List.mem_map_of_mem hold)
        have hmem := m.mem_of_mem_rest hold
        exact ⟨pl, .inl hmem, .inl ⟨hevent htu, fun hw => (hwoken hw).1 (mem_names_of_mem hmem),
          m.others t pl htu⟩⟩
    · have hno' : t ∉ s.names := fun hold => hno (m.mem_names.mpr (.inl hold))
      exact ⟨_, .inr ⟨hno', rfl⟩, .inl ⟨hevent (hother hno'), fun hw => hno (hwoken hw).2,
        m.others t _ (hother hno')⟩⟩

/-- The rule for one transaction: what every move of its life keeps holds along a run. -/
theorem Custody.follow {P : View → Prop} (inv : Custody spec code ts s₀)
    (hcode : ∀ t ∈ ts, (code t).checkReadWriteSets) (hinit : ∀ pl, s₀.At t pl → P (view [] s₀ t pl))
    (hlife : ∀ {read e v v'}, P v → Life (code t) read t e v v' → P v')
    (h : Run (Step code) s₀ tr s) : ∀ pl, s.At t pl → P (view tr s t pl) := by
  refine (h.invariant (I := fun tr s => Custody spec code ts s ∧
    ∀ pl, s.At t pl → P (view tr s t pl)) ⟨inv, hinit⟩ ?_).2
  rintro tr s e s' _ ⟨inv, hP⟩ hstep
  refine ⟨inv.step hcode hstep, fun pl hat => ?_⟩
  obtain ⟨pl₀, hat₀, ⟨_, _, hsame⟩ | hlife'⟩ := inv.at_step tr hstep hat
  · exact hsame ▸ hP pl₀ hat₀
  · exact hlife (hP pl₀ hat₀) hlife'

theorem Custody.at_unique (inv : Custody spec code ts s) {pl' : Place} (h : s.At t pl)
    (h' : s.At t pl') : pl = pl' := by
  rcases h with hmem | ⟨hno, rfl⟩
  · rcases h' with hmem' | ⟨hno', _⟩
    · exact inv.place_unique hmem hmem'
    · exact absurd (mem_names_of_mem hmem) hno'
  · rcases h' with hmem' | ⟨_, rfl⟩
    · exact absurd (mem_names_of_mem hmem') hno
    · rfl

theorem follow_of_run {P : View → Prop} {txns : TxnPtr → Txn} {storage : Storage}
    (spec : LateGrant lm) (hts : ts.Nodup) (hcode : ∀ t ∈ ts, (code t).checkReadWriteSets)
    (ht : t ∈ ts) (hinit : P (view [] (State.init lm txns storage ts) t .client))
    (hlife : ∀ {read e v v'}, P v → Life (code t) read t e v v' → P v')
    (h : Runs code txns storage ts tr s) : ∀ pl, s.At t pl → P (view tr s t pl) := by
  have inv : Custody spec code ts (State.init lm txns storage ts) := Custody.init hts
  refine inv.follow hcode (fun pl hat => ?_) hlife h
  have hclient : (State.init lm txns storage ts).At t .client := .inl (mem_places.mpr ht)
  rwa [inv.at_unique hat hclient]

end Follow

end Cmsc624.A2
