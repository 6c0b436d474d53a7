import Cmsc624.Lib.Runs
import Cmsc624.Lib.Threads

/-!
# A monitor that hands out permits

One taker and any number of returners share a counter under a mutex with a condition
variable. In every round the taker first starts a returner and then takes a permit; it sleeps
while there is none. A returner gives its permit back once and signals. The counter is a
machine number, and sleeping threads may wake without a signal.
-/

namespace Lib.PermitMonitor

set_option autoImplicit false

/-- Where the taker is; from `locking` on it owes a permit for the returner just started. -/
inductive Taker where
  | away
  | locking
  | testing
  | sleeping
  | waking
  | taking
  | unlocking
  deriving DecidableEq

inductive Returner where
  | working
  | adding
  | signalling
  | unlocking
  | gone
  deriving DecidableEq

inductive Party where
  | taker
  | returner (i : Nat)
  deriving DecidableEq

structure State where
  permits : Nat
  holder : Option Party
  taker : Taker
  returners : List Returner

def State.init (permits : Nat) : State := ⟨permits, none, .away, []⟩

inductive Event where
  | spawn
  | take
  | giveBack
  | skip
  deriving DecidableEq

/-- One step of the taker or of a returner; the counter is reduced modulo `size`. -/
inductive Step (size : Nat) : State → Event → State → Prop where
  -- Anything that the monitor does not see.
  | idle {s : State} : Step size s .skip s
  | spawn {s : State} (ht : s.taker = .away) :
      Step size s .spawn { s with taker := .locking, returners := s.returners ++ [.working] }
  | lock {s : State} (ht : s.taker = .locking) (hm : s.holder = none) :
      Step size s .skip { s with taker := .testing, holder := some .taker }
  | sleep {s : State} (ht : s.taker = .testing) (h0 : s.permits = 0) :
      Step size s .skip { s with taker := .sleeping, holder := none }
  | wake {s : State} (ht : s.taker = .sleeping) : Step size s .skip { s with taker := .waking }
  | relock {s : State} (ht : s.taker = .waking) (hm : s.holder = none) :
      Step size s .skip { s with taker := .testing, holder := some .taker }
  | pass {s : State} (ht : s.taker = .testing) (h0 : s.permits ≠ 0) :
      Step size s .skip { s with taker := .taking }
  | take {s : State} (ht : s.taker = .taking) :
      Step size s .take
        { s with permits := (size - 1 + s.permits) % size, taker := .unlocking }
  | unlock {s : State} (ht : s.taker = .unlocking) :
      Step size s .skip { s with taker := .away, holder := none }
  | enter {s : State} (i : Nat) (hr : s.returners[i]? = some .working) (hm : s.holder = none) :
      Step size s .skip
        { s with returners := s.returners.set i .adding, holder := some (.returner i) }
  | add {s : State} (i : Nat) (hr : s.returners[i]? = some .adding) :
      Step size s .giveBack
        { s with
          permits := (s.permits + 1) % size
          returners := s.returners.set i .signalling }
  | signal {s : State} (i : Nat) (hr : s.returners[i]? = some .signalling)
      (ht : s.taker = .sleeping) :
      Step size s .skip { s with taker := .waking, returners := s.returners.set i .unlocking }
  | signalNobody {s : State} (i : Nat) (hr : s.returners[i]? = some .signalling)
      (ht : s.taker ≠ .sleeping) :
      Step size s .skip { s with returners := s.returners.set i .unlocking }
  | leave {s : State} (i : Nat) (hr : s.returners[i]? = some .unlocking) :
      Step size s .skip { s with returners := s.returners.set i .gone, holder := none }

def Returner.returned : Returner → Bool
  | .working => false
  | .adding => false
  | _ => true

def Returner.holds : Returner → Bool
  | .adding => true
  | .signalling => true
  | .unlocking => true
  | _ => false

def Taker.holds : Taker → Bool
  | .testing => true
  | .taking => true
  | .unlocking => true
  | _ => false

/-- The permits that the taker still has to take. -/
def Taker.owed : Taker → Nat
  | .away => 0
  | .unlocking => 0
  | _ => 1

def State.returned (s : State) : Nat := s.returners.countP Returner.returned

def State.outstanding (s : State) : Nat := s.returners.countP fun x => !x.returned

def taken (tr : List Event) : Nat := tr.count .take

theorem taken_concat (tr : List Event) (e : Event) :
    taken (tr ++ [e]) = taken tr + if e = .take then 1 else 0 := by
  rw [taken, List.count_append, List.count_singleton, ← taken]
  simp only [beq_iff_eq]

/-- Counter, mutex and sleeper of a run that began with `m` permits. -/
structure Inv (size m : Nat) (tr : List Event) (s : State) : Prop where
  counter : s.permits = (m + s.returned - taken tr) % size
  taken_le : taken tr ≤ m + s.returned
  spawned : s.returners.length = taken tr + s.taker.owed
  taker_holds : s.holder = some .taker ↔ s.taker.holds = true
  returner_holds : Threads.Holds Returner.holds s.returners fun i => s.holder = some (.returner i)
  taking : s.taker = .taking → s.permits ≠ 0
  asleep : s.taker = .sleeping → s.permits = 0 ∨ ∃ i : Nat, s.returners[i]? = some .signalling

section Inv
variable {size m : Nat} {tr : List Event} {s s' : State} {e : Event} {i : Nat} {x y : Returner}

theorem Inv.init (hm : m < size) : Inv size m [] (State.init m) where
  counter := (Nat.mod_eq_of_lt hm).symm
  taken_le := Nat.zero_le _
  spawned := rfl
  taker_holds := by simp [State.init, Taker.holds]
  returner_holds i := by simp [State.init]
  taking h := by cases h
  asleep h := by cases h

theorem Inv.returned_le (h : Inv size m tr s) : s.returned ≤ taken tr + s.taker.owed := by
  rw [← h.spawned]
  exact List.countP_le_length

theorem Taker.owed_le (t : Taker) : t.owed ≤ 1 := by
  cases t <;> simp [Taker.owed]

theorem length_eq_add (s : State) : s.returners.length = s.returned + s.outstanding := by
  rw [List.length_eq_countP_add_countP Returner.returned, State.returned, State.outstanding]
  simp

/-- Whatever the size of the counter, no more permits are out than there are, but for one. -/
theorem Inv.outstanding_le (h : Inv size m tr s) : s.outstanding ≤ m + s.taker.owed := by
  have := length_eq_add s
  have := h.spawned
  have := h.taken_le
  omega

/-- A counter with room for one permit more than there are is exact. -/
theorem Inv.balance (hm : m + 1 < size) (h : Inv size m tr s) :
    s.permits + taken tr = m + s.returned := by
  have hle := h.taken_le
  have hret := h.returned_le
  have howed := s.taker.owed_le
  have hcounter := h.counter
  rw [Nat.mod_eq_of_lt (by omega)] at hcounter
  omega

theorem Inv.permits_le (hm : m + 1 < size) (h : Inv size m tr s) :
    s.permits ≤ m + s.taker.owed := by
  have := h.balance hm
  have := h.returned_le
  omega

theorem Inv.holder_of_signalling (h : Inv size m tr s) (hi : s.returners[i]? = some .signalling) :
    s.holder = some (.returner i) := (h.returner_holds i).mpr ⟨_, hi, rfl⟩

theorem Inv.holder_of_mem (h : Inv size m tr s) (hx : s.returners[i]? = some x)
    (hholds : x.holds = true) : s.holder = some (.returner i) :=
  (h.returner_holds i).mpr ⟨x, hx, hholds⟩

theorem Inv.holder_of_taker (h : Inv size m tr s) (hholds : s.taker.holds = true) :
    s.holder = some .taker := h.taker_holds.mpr hholds

theorem Inv.moveTaker (h : Inv size m tr s) {t : Taker} {p : Option Party}
    (howed : t.owed = s.taker.owed)
    (htaker : p = some .taker ↔ t.holds = true)
    (hother : ∀ i, p = some (.returner i) ↔ s.holder = some (.returner i))
    (htaking : t = .taking → s.permits ≠ 0) (hasleep : t = .sleeping → s.permits = 0) :
    Inv size m (tr ++ [.skip]) { s with taker := t, holder := p } where
  counter := by
    rw [taken_concat]
    exact h.counter
  taken_le := by
    rw [taken_concat]
    exact h.taken_le
  spawned := by
    rw [taken_concat]
    show s.returners.length = _ + t.owed
    rw [howed]
    exact h.spawned
  taker_holds := htaker
  returner_holds i := (hother i).trans (h.returner_holds i)
  taking := htaking
  asleep ht := .inl (hasleep ht)

theorem Inv.moveReturner (h : Inv size m tr s) (hx : s.returners[i]? = some x) {t : Taker}
    {p : Option Party} (hret : y.returned = x.returned) (howed : t.owed = s.taker.owed)
    (htaker : p = some .taker ↔ t.holds = true) (hself : p = some (.returner i) ↔ y.holds = true)
    (hother : ∀ j, j ≠ i → (p = some (.returner j) ↔ s.holder = some (.returner j)))
    (htaking : t = .taking → s.permits ≠ 0) (hasleep : t = .sleeping → s.permits = 0) :
    Inv size m (tr ++ [.skip])
      { s with taker := t, holder := p, returners := s.returners.set i y } where
  counter := by
    rw [taken_concat]
    show s.permits = (m + (s.returners.set i y).countP Returner.returned - _) % size
    rw [Threads.countP_set_same hx hret]
    exact h.counter
  taken_le := by
    rw [taken_concat]
    show _ ≤ m + (s.returners.set i y).countP Returner.returned
    rw [Threads.countP_set_same hx hret]
    exact h.taken_le
  spawned := by
    rw [taken_concat, List.length_set]
    show s.returners.length = _ + t.owed
    rw [howed]
    exact h.spawned
  taker_holds := htaker
  returner_holds := h.returner_holds.set hx hself hother
  taking := htaking
  asleep ht := .inl (hasleep ht)

/-- While another party has the mutex, or nobody, no signal is due. -/
theorem Inv.permits_of_asleep (h : Inv size m tr s) (ht : s.taker = .sleeping)
    (hno : ∀ j : Nat, s.returners[j]? ≠ some .signalling) : s.permits = 0 := by
  rcases h.asleep ht with h0 | ⟨j, hj⟩
  · exact h0
  · exact absurd hj (hno j)

theorem Inv.step (hsize : 0 < size) (h : Inv size m tr s) (hstep : Step size s e s') :
    Inv size m (tr ++ [e]) s' := by
  cases hstep with
  | idle =>
    refine { h with counter := ?_, taken_le := ?_, spawned := ?_ }
    · rw [taken_concat]
      exact h.counter
    · rw [taken_concat]
      exact h.taken_le
    · rw [taken_concat]
      exact h.spawned
  | spawn ht =>
    have hspawned := h.spawned
    constructor
    · rw [taken_concat]
      show s.permits = (m + (s.returners ++ [Returner.working]).countP Returner.returned - _) % size
      rw [List.countP_append]
      exact h.counter
    · rw [taken_concat]
      show _ ≤ m + (s.returners ++ [Returner.working]).countP Returner.returned
      rw [List.countP_append]
      exact h.taken_le
    · rw [taken_concat, List.length_append, hspawned, ht]
      rfl
    · have hfree := h.taker_holds
      rw [ht] at hfree
      exact hfree
    · exact h.returner_holds.concat rfl
    · intro htaking
      cases htaking
    · intro hasleep
      cases hasleep
  | lock ht hfree =>
    refine h.moveTaker (by rw [ht]; rfl) (by simp [Taker.holds]) ?_ (by simp) (by simp)
    simp [hfree]
  | relock ht hfree =>
    refine h.moveTaker (by rw [ht]; rfl) (by simp [Taker.holds]) ?_ (by simp) (by simp)
    simp [hfree]
  | sleep ht h0 =>
    have hholder := h.holder_of_taker (by rw [ht]; rfl)
    refine h.moveTaker (by rw [ht]; rfl) (by simp [Taker.holds]) ?_ (by simp) fun _ => h0
    simp [hholder]
  | wake ht =>
    have hfree := h.taker_holds
    rw [ht] at hfree
    exact h.moveTaker (by rw [ht]; rfl) hfree (fun _ => Iff.rfl) (by simp) (by simp)
  | pass ht h0 =>
    have hholder := h.taker_holds
    rw [ht] at hholder
    exact h.moveTaker (by rw [ht]; rfl) hholder (fun _ => Iff.rfl) (fun _ => h0) (by simp)
  | unlock ht =>
    have hholder := h.holder_of_taker (by rw [ht]; rfl)
    refine h.moveTaker (by rw [ht]; rfl) (by simp [Taker.holds]) ?_ (by simp) (by simp)
    simp [hholder]
  | take ht =>
    have hpos := h.taking ht
    have hspawned := h.spawned
    have hholder := h.taker_holds
    rw [ht] at hspawned hholder
    rw [h.counter] at hpos
    -- the counter is not 0, so what it counts is not
    have hlt : taken tr < m + s.returned := by
      by_contra hge
      rw [Nat.sub_eq_zero_of_le (Nat.le_of_not_lt hge), Nat.zero_mod] at hpos
      exact hpos rfl
    constructor
    · rw [taken_concat, if_pos rfl]
      show (size - 1 + s.permits) % size = (m + s.returned - (taken tr + 1)) % size
      have hsum : size - 1 + (m + s.returned - taken tr) =
          m + s.returned - (taken tr + 1) + size := by omega
      rw [h.counter, Nat.add_mod_mod, hsum, Nat.add_mod_right]
    · rw [taken_concat, if_pos rfl]
      exact hlt
    · rw [taken_concat, if_pos rfl]
      exact hspawned
    · exact hholder
    · exact h.returner_holds
    · intro htaking
      cases htaking
    · intro hasleep
      cases hasleep
  | enter i hr hfree =>
    have hno : ∀ j : Nat, s.returners[j]? ≠ some .signalling := fun j hj => by
      have := h.holder_of_signalling hj
      rw [hfree] at this
      cases this
    refine h.moveReturner hr rfl rfl ?_ (by simp [Returner.holds]) ?_ h.taking
      fun hasleep => h.permits_of_asleep hasleep hno
    · rw [← h.taker_holds, hfree]
      simp
    · intro j hj
      simp [hfree, Ne.symm hj]
  | add i hr =>
    have hholder := h.holder_of_mem hr rfl
    have hcount : (s.returners.set i .signalling).countP Returner.returned = s.returned + 1 :=
      Threads.countP_set Returner.returned hr .signalling
    have hle := h.taken_le
    constructor
    · rw [taken_concat]
      show (s.permits + 1) % size =
        (m + (s.returners.set i .signalling).countP Returner.returned - taken tr) % size
      have hsum : m + (s.returned + 1) - taken tr = m + s.returned - taken tr + 1 := by omega
      rw [hcount, h.counter, Nat.mod_add_mod, hsum]
    · rw [taken_concat]
      show taken tr ≤ m + (s.returners.set i .signalling).countP Returner.returned
      omega
    · rw [taken_concat, List.length_set]
      exact h.spawned
    · exact h.taker_holds
    · exact h.returner_holds.set hr (by simp [hholder, Returner.holds]) fun _ _ => Iff.rfl
    · intro htaking
      have htaker := h.holder_of_taker (show s.taker.holds = true by rw [htaking]; rfl)
      rw [hholder] at htaker
      cases htaker
    · intro _
      refine .inr ⟨i, ?_⟩
      rw [Threads.getElem?_set hr, if_pos rfl]
  | signal i hr ht =>
    have hholder := h.holder_of_mem hr rfl
    refine h.moveReturner hr rfl (by rw [ht]; rfl) ?_ (by simp [hholder, Returner.holds])
      (fun _ _ => Iff.rfl) (by simp) (by simp)
    simp [hholder, Taker.holds]
  | signalNobody i hr ht =>
    have hholder := h.holder_of_mem hr rfl
    exact h.moveReturner hr rfl rfl h.taker_holds (by simp [hholder, Returner.holds])
      (fun _ _ => Iff.rfl) h.taking fun hasleep => absurd hasleep ht
  | leave i hr =>
    have hholder := h.holder_of_mem hr rfl
    have hno : ∀ j : Nat, s.returners[j]? ≠ some .signalling := fun j hj => by
      obtain rfl : i = j := by simpa [hholder] using h.holder_of_signalling hj
      rw [hr] at hj
      cases hj
    refine h.moveReturner hr rfl rfl ?_ (by simp [Returner.holds]) ?_ h.taking
      fun hasleep => h.permits_of_asleep hasleep hno
    · rw [← h.taker_holds, hholder]
      simp
    · intro j hj
      simp [hholder, Ne.symm hj]

theorem inv_of_run (hm : m < size) (h : Run (Step size) (State.init m) tr s) : Inv size m tr s :=
  h.invariant (Inv.init hm) fun _ inv hstep => inv.step (Nat.zero_lt_of_lt hm) hstep

/-- The permits that are out are those missing from the counter, and the one that is owed. -/
theorem Inv.outstanding_add (hm : m + 1 < size) (h : Inv size m tr s) :
    s.permits + s.outstanding = m + s.taker.owed := by
  have := length_eq_add s
  have := h.balance hm
  have := h.spawned
  omega

theorem Inv.permits_le_of_mem (hm : m + 1 < size) (h : Inv size m tr s)
    (hx : s.returners[i]? = some x) (hret : x.returned = false) : s.permits ≤ m := by
  have hpos : 0 < s.outstanding :=
    List.countP_pos_iff.mpr ⟨x, List.mem_of_getElem? hx, by simp [hret]⟩
  have := h.outstanding_add hm
  have := s.taker.owed_le
  omega

/-- A taker that starts a returner only when there is a permit for it finds that permit later. -/
theorem Inv.covered_step (hm : m + 1 < size) (h : Inv size m tr s) (hc : s.taker.owed ≤ s.permits)
    (hstep : Step size s e s') (hcareful : e = .spawn → s.permits ≠ 0) :
    s'.taker.owed ≤ s'.permits := by
  cases hstep with
  | idle => exact hc
  | spawn ht => exact Nat.one_le_iff_ne_zero.mpr (hcareful rfl)
  | lock ht hfree => exact (ht ▸ hc :)
  | sleep ht h0 => exact (ht ▸ hc :)
  | wake ht => exact (ht ▸ hc :)
  | relock ht hfree => exact (ht ▸ hc :)
  | pass ht h0 => exact (ht ▸ hc :)
  | take ht => exact Nat.zero_le _
  | unlock ht => exact Nat.zero_le _
  | enter i hr hfree => exact hc
  | add i hr =>
    have hle := h.permits_le_of_mem hm hr rfl
    have hbump : (s.permits + 1) % size = s.permits + 1 := Nat.mod_eq_of_lt (by omega)
    show s.taker.owed ≤ (s.permits + 1) % size
    omega
  | signal i hr ht => exact (ht ▸ hc :)
  | signalNobody i hr ht => exact hc
  | leave i hr => exact hc

end Inv

end Lib.PermitMonitor
