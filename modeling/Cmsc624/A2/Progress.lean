import Cmsc624.A2.Isolation
import Mathlib.Algebra.GroupWithZero.Nat
import Mathlib.Algebra.Order.BigOperators.Group.List
import Mathlib.Algebra.Order.Group.Nat

/-!
# The work of a run is bounded

Each transaction has a bounded number of statements before it, from its submission to
the moment a client takes its result. They are the potential of a state, which every
statement made for a transaction uses up; everything else that the system does is polling
by the scheduler.
-/

namespace Cmsc624.A2

open Lib

set_option autoImplicit false

/-- The number of statements made for a transaction from this place to its end. -/
def Place.rank (c : TxnCode) : Place → Nat
  | .handed => 0
  | .result => 1
  | .releasing rest => 2 + rest.length
  | .marking => 3 + c.keys.length
  | .applying rest => 4 + c.keys.length + rest.length
  | .deciding => 5 + c.keys.length + c.writeset.toList.length
  | .completed => 6 + c.keys.length + c.writeset.toList.length
  | .running .pushing => 7 + c.keys.length + c.writeset.toList.length
  | .running (.reading rest) => 8 + c.keys.length + c.writeset.toList.length + rest.length
  | .running .size => 9 + 2 * c.keys.length + c.writeset.toList.length
  | .pooled => 10 + 2 * c.keys.length + c.writeset.toList.length
  | .ready => 11 + 2 * c.keys.length + c.writeset.toList.length
  | .locking rest => 12 + 2 * c.keys.length + c.writeset.toList.length + rest.length
  | .requested => 14 + 3 * c.keys.length + c.writeset.toList.length
  | .client => 15 + 3 * c.keys.length + c.writeset.toList.length

/-- By how much the rank falls. `park` leaves the transaction where it is; the step counts
as one that `pop` made possible. -/
def Event.drop : Event → Nat
  | .pop _ => 2
  | .park _ | .stop | .tau => 0
  | _ => 1

def Event.working (e : Event) : Bool := e.txn.isSome

def Event.dropOf (e : Event) (t : TxnPtr) : Nat := if e.txn = some t then e.drop else 0

theorem Event.dropOf_self {e : Event} {t : TxnPtr} (h : e.txn = some t) : e.dropOf t = e.drop :=
  if_pos h

theorem Event.dropOf_of_ne {e : Event} {t : TxnPtr} (h : e.txn ≠ some t) : e.dropOf t = 0 :=
  if_neg h

theorem TxnCode.lockCalls_length (c : TxnCode) : c.lockCalls.length = c.keys.length := by
  rw [← c.lockCalls_keys, List.length_map]

theorem View.Declared.writes_length {c : TxnCode} {v : View} (h : v.Declared c) :
    v.txn.writes.entries.length ≤ c.writeset.toList.length := by
  have hnodup : v.txn.writes.keys.Nodup := v.txn.writes.keySet.nodup
  have hle := (List.subperm_of_subset hnodup h.1).length_le
  rwa [OrderedMap.keys, List.length_map] at hle

/-- A move of a transaction makes its rank fall; being woken does so too. -/
theorem Life.rank {c : TxnCode} {read : Key → Option Value} {t : TxnPtr} {e : Event} {v v' : View}
    (h : Life c read t e v v') (hd : v.Declared c) :
    v'.place.rank c + e.dropOf t ≤ v.place.rank c := by
  cases h with
  | pop hv =>
    rw [hv, Event.dropOf_self rfl]
    simp only [Place.rank, Event.drop, c.lockCalls_length]
    omega
  | decide hv hst =>
    have hle := hd.writes_length
    rw [hv, Event.dropOf_self rfl]
    simp only [Place.rank, Event.drop]
    omega
  | wake hu hw hv =>
    rw [hv, Event.dropOf_of_ne (by simpa [Event.txn] using hu)]
    simp only [Place.rank, List.length_nil]
    omega
  | park hv =>
    rw [Event.dropOf_self rfl]
    exact le_rfl
  | request id hv =>
    rw [hv, Event.dropOf_self rfl]
    simp only [Place.rank, Event.drop]
    omega
  | size n hv =>
    rw [hv, Event.dropOf_self rfl]
    simp only [Place.rank, Event.drop]
    omega
  | run hv hb =>
    rw [hv, Event.dropOf_self rfl]
    simp only [Place.rank, Event.drop, List.length_nil]
    omega
  | abort hv hst =>
    rw [hv, Event.dropOf_self rfl]
    simp only [Place.rank, Event.drop]
    omega
  | _ hv =>
    rw [hv, Event.dropOf_self rfl]
    simp only [Place.rank, Event.drop, List.length_cons, List.length_nil]
    omega

variable {lm : LockManager} {code : TxnPtr → TxnCode}

def State.place (s : State lm) (t : TxnPtr) : Place :=
  match s.places.find? (·.1 = t) with
  | some x => x.2
  | none => .locking []

theorem State.at_place (s : State lm) (t : TxnPtr) : s.At t (s.place t) := by
  unfold State.place
  cases hfind : s.places.find? (·.1 = t) with
  | some x =>
    have hx : x.1 = t := by simpa using List.find?_some hfind
    refine .inl ?_
    rw [← hx]
    exact List.mem_of_find?_eq_some hfind
  | none =>
    refine .inr ⟨fun hmem => ?_, rfl⟩
    obtain ⟨pl, hpl⟩ := mem_names.mp hmem
    simpa using List.find?_eq_none.mp hfind _ hpl

/-- Between `pop` and `park` or `ready`. -/
def SchedPc.asking : SchedPc → Nat
  | .locking _ _ _ => 1
  | _ => 0

/-- A bound on the statements that are still to be made for transactions. -/
def State.potential (code : TxnPtr → TxnCode) (ts : List TxnPtr) (s : State lm) : Nat :=
  (ts.map fun t => (s.place t).rank (code t)).sum + s.sched.asking

theorem step_asking {s s' : State lm} {e : Event} (h : Step code s e s') :
    s'.sched.asking + e.working.toNat ≤ s.sched.asking + e.drop := by
  cases h with
  | pop hpc hs hq => simp [SchedPc.asking, Event.working, Event.txn, Event.drop]
  | park hpc => simp [SchedPc.asking, Event.working, Event.txn, Event.drop, hpc]
  | lock hpc => simp [SchedPc.asking, Event.working, Event.txn, Event.drop, hpc]
  | request hc hp => exact le_rfl
  | result hq => exact le_rfl
  | stop => exact le_rfl
  | start hpool => exact le_rfl
  | size hrun => exact le_rfl
  | read hrun => exact le_rfl
  | run hrun hp => exact le_rfl
  | complete hrun => exact le_rfl
  | dispatch hpc hq => exact le_rfl
  | _ hpc => simp [SchedPc.asking, Event.working, Event.txn, Event.drop]

section Runs
variable {spec : LateGrant lm} {ts : List TxnPtr} {tr : List Event} {s s' : State lm} {e : Event}
  {txns : TxnPtr → Txn} {storage : Storage} {t : TxnPtr}

theorem txn_known (inv : Custody spec code ts s) (h : Step code s e s') (he : e.txn = some t) :
    t ∈ ts := by
  obtain m | ⟨u, l, m⟩ | ⟨u, pl, pl', l, m⟩ := step_moves [] h
  · simp [m.txn] at he
  · obtain rfl : u = t := by simpa [m.event, Event.txn] using he
    exact inv.known u (mem_names_of_mem (m.before.mem_iff.mpr List.mem_cons_self))
  · obtain rfl : u = t := Option.some.inj (m.txn.symm.trans he)
    exact inv.known u (mem_names_of_mem m.mem_before)

theorem rank_of_step (inv : Custody spec code ts s)
    (hd : ∀ pl, s.At t pl → (view tr s t pl).Declared (code t)) (h : Step code s e s') :
    (s'.place t).rank (code t) + e.dropOf t ≤ (s.place t).rank (code t) := by
  obtain ⟨pl, hat, ⟨hne, _, hsame⟩ | hlife⟩ := inv.at_step tr h (s'.at_place t)
  · have hpl := congrArg View.place hsame
    rw [Event.dropOf_of_ne hne, inv.at_unique (s.at_place t) hat]
    exact le_of_eq (congrArg (Place.rank (code t)) hpl)
  · rw [inv.at_unique (s.at_place t) hat]
    exact hlife.rank (hd pl hat)

/-- Each statement made for a transaction uses up potential, and no other one adds any. -/
theorem potential_of_step (inv : Custody spec code ts s)
    (hd : ∀ t ∈ ts, ∀ pl, s.At t pl → (view tr s t pl).Declared (code t))
    (h : Step code s e s') :
    s'.potential code ts + e.working.toNat ≤ s.potential code ts := by
  have hrank : ∀ t ∈ ts,
      (s'.place t).rank (code t) + e.dropOf t ≤ (s.place t).rank (code t) :=
    fun t ht => rank_of_step inv (hd t ht) h
  have hsum : ∀ l : List TxnPtr, l ⊆ ts → (l.map fun t => (s'.place t).rank (code t)).sum ≤
      (l.map fun t => (s.place t).rank (code t)).sum := by
    intro l hl
    exact List.sum_le_sum fun t ht => (Nat.le_add_right _ _).trans (hrank t (hl ht))
  have hask := step_asking h
  unfold State.potential
  cases he : e.txn with
  | none =>
    have hdrop : e.drop = 0 := by
      cases e <;> first | rfl | cases he
    have hall := hsum ts (List.Subset.refl ts)
    omega
  | some t =>
    -- the transaction that the step works on pays for it
    obtain ⟨a, b, hab⟩ := List.append_of_mem (txn_known inv h he)
    have ha := hsum a (by simp [hab])
    have hb := hsum b (by simp [hab])
    have ht := hrank t (txn_known inv h he)
    rw [Event.dropOf_self he] at ht
    simp only [hab, List.map_append, List.map_cons, List.sum_append, List.sum_cons]
    omega

/-- The number of statements that a run can make for these transactions. -/
def budget (code : TxnPtr → TxnCode) (ts : List TxnPtr) : Nat :=
  (ts.map fun t => 15 + 3 * (code t).keys.length + (code t).writeset.toList.length).sum

theorem potential_init (spec : LateGrant lm) (hts : ts.Nodup) :
    (State.init lm txns storage ts).potential code ts = budget code ts := by
  have inv : Custody spec code ts (State.init lm txns storage ts) := Custody.init hts
  refine congrArg List.sum (List.map_congr_left fun t ht => ?_)
  have hclient : (State.init lm txns storage ts).At t .client := .inl (mem_places.mpr ht)
  rw [inv.at_unique (State.at_place _ t) hclient]
  rfl

/-- What the transactions of the clients are to begin with. -/
structure Submittable (code : TxnPtr → TxnCode) (txns : TxnPtr → Txn) (ts : List TxnPtr) :
    Prop where
  nodup : ts.Nodup
  sets : ∀ t ∈ ts, (code t).checkReadWriteSets
  fresh : ∀ t ∈ ts, (txns t).Fresh
  votes : ∀ t ∈ ts, (code t).AlwaysVotes
  declared : ∀ t ∈ ts, (code t).KeepsDeclared

theorem Submittable.of_types (types : TxnPtr → TxnType) (hts : ts.Nodup)
    (hfresh : ∀ t ∈ ts, (txns t).Fresh) (hsets : ∀ t ∈ ts, (types t).Separate) :
    Submittable (fun t => (types t).code) txns ts where
  nodup := hts
  sets t ht := (types t).checkReadWriteSets_iff.mpr (hsets t ht)
  fresh := hfresh
  votes t _ := (types t).votes.1
  declared t _ := (types t).keepsDeclared

theorem Submittable.declared_of_run (sub : Submittable code txns ts) (spec : LateGrant lm)
    (h : Runs code txns storage ts tr s) (ht : t ∈ ts) :
    ∀ pl, s.At t pl → (view tr s t pl).Declared (code t) := by
  have hwrites : (txns t).writes = .empty := congrArg Buffers.writes (sub.fresh t ht)
  refine follow_of_run spec sub.nodup sub.sets ht ⟨?_, by simp [view]⟩
    (fun hv hlife => hlife.declared (sub.declared t ht) hv) h
  intro k hk
  have hk : k ∈ (txns t).writes.keys := hk
  simp [hwrites] at hk

/-- However the threads run, no more statements are made for transactions than the budget
has; what goes on after that is polling. -/
theorem working_le (spec : LateGrant lm) (sub : Submittable code txns ts)
    (h : Runs code txns storage ts tr s) :
    tr.countP Event.working + s.potential code ts ≤ budget code ts := by
  refine h.invariant (I := fun tr s =>
    tr.countP Event.working + s.potential code ts ≤ budget code ts) ?_ ?_
  · rw [potential_init spec sub.nodup]
    simp
  · intro tr s e s' hr ih hs
    have inv := custody_of_run spec sub.nodup sub.sets hr
    have hstep := potential_of_step inv (fun t ht => sub.declared_of_run spec hr ht) hs
    have hone : [e].countP Event.working = e.working.toNat := by
      cases hw : e.working <;> simp [hw]
    rw [List.countP_append, hone]
    omega

end Runs

end Cmsc624.A2
