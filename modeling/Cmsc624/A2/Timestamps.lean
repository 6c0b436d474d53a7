import Cmsc624.A2.Numbering
import Mathlib.Algebra.Group.Nat.Defs

/-!
# The timestamps of transactions

A transaction's number is an `int` in `next_unique_id_`, a `uint64` in `unique_id_`, and an
`int` again where `ApplyWrites` passes it to `Write`. A scheduler of any mode applies the writes
of transactions that it has popped, while clients submit more.
-/

namespace Cmsc624.A2.Timestamps

open Lib Intake

set_option autoImplicit false

/-- The arguments of a call of `Storage::Write`, and for which pop of `txn_requests_` it is. -/
structure WriteCall where
  pop : Nat
  txn : TxnPtr
  key : Key
  value : Value
  txnUniqueId : Int

structure State where
  intake : Intake.State
  pops : Nat
  -- What is popped and not returned to its client.
  held : List (Nat × TxnPtr)
  -- In `ApplyWrites`, with the writes to go.
  applying : Option ((Nat × TxnPtr) × List (Key × Value))

def State.init (uniqueId : TxnPtr → Nat) : State where
  intake := Intake.State.init uniqueId
  pops := 0
  held := []
  applying := none

inductive Event where
  | intake (e : Intake.Event)
  | write (c : WriteCall)
  | skip

inductive Step : State → Event → State → Prop where
  -- A client does not submit what it has not got back.
  | intake {s : State} {e : Intake.Event} {i : Intake.State} (h : Intake.Step s.intake e i)
      (hpop : ∀ t id, e ≠ .pop t id) (howned : ∀ t, e = .call t → t ∉ s.held.map Prod.snd) :
      Step s (.intake e) { s with intake := i }
  | pop {s : State} {t : TxnPtr} {id : Nat} {i : Intake.State}
      (h : Intake.Step s.intake (.pop t id) i) :
      Step s (.intake (.pop t id))
        { s with intake := i, pops := s.pops + 1, held := s.held ++ [(s.pops, t)] }
  | applyWrites {s : State} {x : Nat × TxnPtr} (writes : OrderedMap Key Value) (hx : x ∈ s.held)
      (hfree : s.applying = none) :
      Step s .skip { s with applying := some (x, writes.entries) }
  | write {s : State} {x : Nat × TxnPtr} {e : Key × Value} {rest : List (Key × Value)}
      (hx : s.applying = some (x, e :: rest)) :
      Step s (.write (writePass (WriteCall.mk x.1 x.2) (s.intake.uniqueId x.2) e))
        { s with applying := some (x, rest) }
  | applied {s : State} {x : Nat × TxnPtr} (hx : s.applying = some (x, [])) :
      Step s .skip { s with applying := none }
  -- A client gets the transaction back.
  | result {s : State} {a b : List (Nat × TxnPtr)} {x : Nat × TxnPtr} (hx : s.held = a ++ x :: b)
      (hfree : s.applying = none) : Step s .skip { s with held := a ++ b }

abbrev Runs (uniqueId : TxnPtr → Nat) : List Event → State → Prop :=
  Run Step (State.init uniqueId)

def intakes (tr : List Event) : List Intake.Event :=
  tr.filterMap fun | .intake e => some e | _ => none

def writeCalls (tr : List Event) : List WriteCall :=
  tr.filterMap fun | .write c => some c | _ => none

/-- Every call has the number that its transaction was given, and those for later submitted
transactions have greater ones. -/
def Growing (tr : List Event) : Prop :=
  (∀ c ∈ writeCalls tr, ∃ n : Nat, (assigned (intakes tr))[c.pop]? = some (c.txn, n) ∧
    c.txnUniqueId = n) ∧
  ∀ c ∈ writeCalls tr, ∀ d ∈ writeCalls tr, c.pop < d.pop → c.txnUniqueId < d.txnUniqueId

section Logs
variable (tr tr' : List Event)

@[simp] theorem intakes_append : intakes (tr ++ tr') = intakes tr ++ intakes tr' :=
  List.filterMap_append

@[simp] theorem writeCalls_append : writeCalls (tr ++ tr') = writeCalls tr ++ writeCalls tr' :=
  List.filterMap_append

theorem popped_append (es es' : List Intake.Event) :
    Intake.popped (es ++ es') = Intake.popped es ++ Intake.popped es' := List.filterMap_append

end Logs

section Owned
variable {s s' : Intake.State} {e : Intake.Event} {i : Nat} {t u : TxnPtr}

/-- Only a new call takes a transaction from its owner. -/
theorem owned_of_step (h : Intake.Step s e s') (howned : s.Owned u) (hcall : e ≠ .call u) :
    s'.Owned u := by
  have hmove : ∀ {i : Nat} {t : TxnPtr} {pc pc' : CallPc}, s.calls[i]? = some ⟨t, pc⟩ →
      (pc'.unpushed = true → pc.unpushed = true) →
      ∀ c ∈ s.calls.set i ⟨t, pc'⟩, c.pc.unpushed = true → c.txn ≠ u := by
    intro i t pc pc' hc hkeep c hmem hun
    rcases List.mem_or_eq_of_mem_set hmem with hold | rfl
    · exact howned.2 c hold hun
    · exact howned.2 ⟨t, pc⟩ (List.mem_of_getElem? hc) (hkeep hun)
  cases h with
  | call t ht =>
    refine ⟨howned.1, ?_⟩
    intro c hmem hun
    rcases List.mem_append.mp hmem with hold | hnew
    · exact howned.2 c hold hun
    · obtain rfl := List.mem_singleton.mp hnew
      rintro rfl
      exact hcall rfl
  | lock hc hm => exact ⟨howned.1, hmove hc id⟩
  | assign hc => exact ⟨howned.1, hmove hc id⟩
  | increment hc hnext => exact ⟨howned.1, hmove hc id⟩
  | lockQueue hc hm => exact ⟨howned.1, hmove hc id⟩
  | @push i t hc =>
    refine ⟨?_, hmove hc fun _ => rfl⟩
    intro hmem
    rcases List.mem_append.mp hmem with hold | hnew
    · exact howned.1 hold
    · exact howned.2 _ (List.mem_of_getElem? hc) rfl (List.mem_singleton.mp hnew).symm
  | unlockQueue hc => exact ⟨howned.1, hmove hc id⟩
  | unlock hc => exact ⟨howned.1, hmove hc id⟩
  | pop hpc => exact ⟨fun hmem => howned.1 (List.mem_of_mem_tail hmem), howned.2⟩
  | popLock hpc hm | front hpc hq | empty hpc hq | popUnlock hpc => exact howned

/-- The number of a transaction is assigned in its own call only. -/
theorem uniqueId_of_owned (h : Intake.Step s e s') (howned : s.Owned u) :
    s'.uniqueId u = s.uniqueId u := by
  cases h with
  | @assign i t hc =>
    have hne := howned.2 _ (List.mem_of_getElem? hc) rfl
    exact Function.update_of_ne (Ne.symm hne) _ _
  | _ => rfl

end Owned

/-- The numbers of the transactions that the scheduler holds are those they were popped with. -/
structure Kept (tr : List Event) (s : State) : Prop where
  pops : s.pops = (Intake.popped (intakes tr)).length
  owned : ∀ x ∈ s.held, s.intake.Owned x.2
  number : ∀ x ∈ s.held, (Intake.popped (intakes tr))[x.1]? = some (x.2, s.intake.uniqueId x.2)
  applying : ∀ x w, s.applying = some (x, w) → x ∈ s.held
  written : ∀ c ∈ writeCalls tr, ∃ n, (Intake.popped (intakes tr))[c.pop]? = some (c.txn, n) ∧
    c.txnUniqueId = CInt.toInt n

section Kept
variable {uniqueId : TxnPtr → Nat} {tr : List Event} {s s' : State} {e : Event}

theorem intake_run {s₀ : State} (h : Run Step s₀ tr s) :
    Run Intake.Step s₀.intake (intakes tr) s.intake := by
  apply h.simulate State.intake fun | .intake e => some e | _ => none
  intro tr s e s' _ hstep
  cases hstep with
  | intake h hpop howned => exact Or.inr ⟨_, rfl, h⟩
  | pop h => exact Or.inr ⟨_, rfl, h⟩
  | applyWrites w hx hfree | write hx | applied hx | result hx hfree => exact Or.inl ⟨rfl, rfl⟩

theorem Kept.init (uniqueId : TxnPtr → Nat) : Kept [] (State.init uniqueId) where
  pops := rfl
  owned _ h := by cases h
  number _ h := by cases h
  applying _ _ h := by cases h
  written _ h := by cases h

theorem Kept.intake (h : Kept tr s) {e : Intake.Event} {i : Intake.State}
    (hstep : Intake.Step s.intake e i) (hpop : ∀ t id, e ≠ .pop t id)
    (howned : ∀ t, e = .call t → t ∉ s.held.map Prod.snd) :
    Kept (tr ++ [.intake e]) { s with intake := i } := by
  have hpopped : Intake.popped (intakes (tr ++ [.intake e])) = Intake.popped (intakes tr) := by
    rw [intakes_append, popped_append]
    cases e with
    | pop t id => exact absurd rfl (hpop t id)
    | _ => exact List.append_nil _
  have hcalls : writeCalls (tr ++ [.intake e]) = writeCalls tr :=
    (writeCalls_append _ _).trans (List.append_nil _)
  constructor
  · rw [hpopped]
    exact h.pops
  · intro x hx
    apply owned_of_step hstep (h.owned x hx)
    intro hcall
    exact howned x.2 hcall (List.mem_map_of_mem hx)
  · intro x hx
    rw [hpopped, h.number x hx]
    congr 2
    exact (uniqueId_of_owned hstep (h.owned x hx)).symm
  · exact h.applying
  · rw [hcalls, hpopped]
    exact h.written

theorem Kept.pop (h : Kept tr s) (hrun : Intake.Runs uniqueId (intakes tr) s.intake)
    {t : TxnPtr} {id : Nat} {i : Intake.State} (hstep : Intake.Step s.intake (.pop t id) i) :
    Kept (tr ++ [.intake (.pop t id)])
      { s with intake := i, pops := s.pops + 1, held := s.held ++ [(s.pops, t)] } := by
  have hpopped : Intake.popped (intakes (tr ++ [.intake (.pop t id)])) =
      Intake.popped (intakes tr) ++ [(t, id)] := by
    rw [intakes_append, popped_append]
    rfl
  have hcalls : writeCalls (tr ++ [.intake (.pop t id)]) = writeCalls tr :=
    (writeCalls_append _ _).trans (List.append_nil _)
  have hold : ∀ (k : Nat) y, (Intake.popped (intakes tr))[k]? = some y →
      (Intake.popped (intakes tr) ++ [(t, id)])[k]? = some y := by
    intro k y hk
    rw [List.getElem?_append_left (List.getElem?_eq_some_iff.mp hk).1]
    exact hk
  -- the popped transaction is in no call, and it was in the queue once
  obtain ⟨howned, hid⟩ : i.Owned t ∧ i.uniqueId t = id := by
    have hex := exclusive_of_run hrun
    have hsorted := queue_increasing (ordered_of_run hrun)
    cases hstep with
    | pop hpc =>
      obtain ⟨q, hq⟩ := hex.front t hpc
      refine ⟨⟨?_, ?_⟩, rfl⟩
      · rw [hq] at hsorted
        show t ∉ s.intake.requests.tail
        rw [hq]
        intro hmem
        rw [List.cons_append, List.map_cons] at hsorted
        have hlt := List.rel_of_pairwise_cons hsorted
          (List.mem_map_of_mem (List.mem_append_left _ hmem))
        exact Nat.lt_irrefl _ hlt
      · rintro c hc hun rfl
        obtain ⟨k, hk⟩ := List.getElem?_of_mem hc
        apply hex.absent k c hk hun
        rw [hq]
        exact List.mem_cons_self
  constructor
  · rw [hpopped, List.length_append, ← h.pops]
    rfl
  · intro x hx
    rcases List.mem_append.mp hx with hbefore | hnew
    · exact owned_of_step hstep (h.owned x hbefore) nofun
    · obtain rfl := List.mem_singleton.mp hnew
      exact howned
  · intro x hx
    rw [hpopped]
    rcases List.mem_append.mp hx with hbefore | hnew
    · rw [hold x.1 _ (h.number x hbefore)]
      congr 2
      exact (uniqueId_of_owned hstep (h.owned x hbefore)).symm
    · obtain rfl := List.mem_singleton.mp hnew
      show _ = some (t, i.uniqueId t)
      rw [h.pops, List.getElem?_concat_length, hid]
  · intro x w hx
    exact List.mem_append_left _ (h.applying x w hx)
  · intro c hc
    rw [hcalls] at hc
    obtain ⟨n, hn, heq⟩ := h.written c hc
    exact ⟨n, hpopped.symm ▸ hold _ _ hn, heq⟩

theorem Kept.write (h : Kept tr s) {x : Nat × TxnPtr} {e : Key × Value} {rest : List (Key × Value)}
    (hx : s.applying = some (x, e :: rest)) :
    Kept (tr ++ [.write (writePass (WriteCall.mk x.1 x.2) (s.intake.uniqueId x.2) e)])
      { s with applying := some (x, rest) } := by
  have hheld := h.applying x _ hx
  have hsame : intakes (tr ++ [.write (writePass (WriteCall.mk x.1 x.2)
      (s.intake.uniqueId x.2) e)]) = intakes tr := (intakes_append _ _).trans (List.append_nil _)
  constructor
  · rw [hsame]
    exact h.pops
  · exact h.owned
  · rw [hsame]
    exact h.number
  · intro y w hy
    obtain ⟨rfl, _⟩ := Prod.mk.inj (Option.some.inj hy)
    exact hheld
  · rw [hsame]
    intro c hc
    rw [writeCalls_append] at hc
    rcases List.mem_append.mp hc with hbefore | hnew
    · exact h.written c hbefore
    · obtain rfl := List.mem_singleton.mp hnew
      exact ⟨_, h.number x hheld, rfl⟩

theorem Kept.quiet (h : Kept tr s) {held : List (Nat × TxnPtr)}
    {applying : Option ((Nat × TxnPtr) × List (Key × Value))} (hheld : ∀ x ∈ held, x ∈ s.held)
    (happlying : ∀ x w, applying = some (x, w) → x ∈ held) :
    Kept (tr ++ [.skip]) { s with held := held, applying := applying } := by
  have hsame : intakes (tr ++ [.skip]) = intakes tr :=
    (intakes_append _ _).trans (List.append_nil _)
  have hcalls : writeCalls (tr ++ [.skip]) = writeCalls tr :=
    (writeCalls_append _ _).trans (List.append_nil _)
  constructor
  · rw [hsame]
    exact h.pops
  · exact fun x hx => h.owned x (hheld x hx)
  · rw [hsame]
    exact fun x hx => h.number x (hheld x hx)
  · exact happlying
  · rw [hsame, hcalls]
    exact h.written

theorem kept_of_run (h : Runs uniqueId tr s) : Kept tr s := by
  apply h.invariant (I := fun tr s => Kept tr s)
  · exact Kept.init uniqueId
  · intro tr s e s' hrun hkept hstep
    cases hstep with
    | intake h hpop howned => exact hkept.intake h hpop howned
    | pop h => exact hkept.pop (intake_run hrun) h
    | @applyWrites x w hx hfree =>
      apply hkept.quiet (fun _ hy => hy)
      intro y w hy
      obtain ⟨rfl, _⟩ := Prod.mk.inj (Option.some.inj hy)
      exact hx
    | write hx => exact hkept.write hx
    | applied hx => exact hkept.quiet (fun _ hy => hy) nofun
    | @result a b x hx hfree =>
      apply hkept.quiet
      · intro y hy
        rw [hx]
        rcases List.mem_append.mp hy with hleft | hright
        · exact List.mem_append_left _ hleft
        · exact List.mem_append_right _ (List.mem_cons_of_mem _ hright)
      · intro y w hy
        rw [hfree] at hy
        cases hy

/-- A number that an `int` counter has given survives both conversions. -/
theorem toInt_of_mem {es : List Intake.Event} {i : Intake.State} (h : Ordered es i)
    {x : TxnPtr × Nat} (hx : x ∈ assigned es) : CInt.toInt x.2 = x.2 := by
  have hmem : x.2 ∈ (assigned es).map Prod.snd := List.mem_map_of_mem hx
  rw [h.ids, List.mem_range'_1] at hmem
  have hle : i.count ≤ i.nextUniqueId := by
    unfold Intake.State.count
    split
    · exact le_refl _
    · omega
  have hcount := h.count
  have hbound := h.bound
  exact CInt.toInt_of_le (by omega) (by omega)

theorem growing_of_run (h : Runs uniqueId tr s) : Growing tr := by
  have hord := ordered_of_run (intake_run h)
  have hkept := kept_of_run h
  have hcall : ∀ c ∈ writeCalls tr, ∃ n : Nat,
      (assigned (intakes tr))[c.pop]? = some (c.txn, n) ∧ c.txnUniqueId = n := by
    intro c hc
    obtain ⟨n, hn, heq⟩ := hkept.written c hc
    have hassigned : (assigned (intakes tr))[c.pop]? = some (c.txn, n) := by
      rw [hord.log, List.getElem?_append_left (List.getElem?_eq_some_iff.mp hn).1]
      exact hn
    have hint := toInt_of_mem hord (x := (c.txn, n)) (List.mem_of_getElem? hassigned)
    exact ⟨n, hassigned, heq.trans hint⟩
  refine ⟨hcall, ?_⟩
  intro c hc d hd hlt
  obtain ⟨n, hn, heq⟩ := hcall c hc
  obtain ⟨m, hm, heq'⟩ := hcall d hd
  obtain ⟨hi, hget⟩ := List.getElem?_eq_some_iff.mp hn
  obtain ⟨hj, hget'⟩ := List.getElem?_eq_some_iff.mp hm
  have hids := List.pairwise_map.mp (ids_increasing hord)
  have hless := List.pairwise_iff_getElem.mp hids c.pop d.pop hi hj hlt
  rw [hget, hget'] at hless
  rw [heq, heq']
  exact Int.ofNat_lt.mpr hless

theorem exists_run {es : List Intake.Event} {i : Intake.State} (h : Intake.Runs uniqueId es i) :
    ∃ tr s, Runs uniqueId tr s ∧ intakes tr = es ∧ s.intake = i ∧ s.held = [] ∧
      s.applying = none := by
  induction h with
  | nil => exact ⟨[], _, .nil, rfl, rfl, rfl, rfl⟩
  | @snoc es i i' e _ hstep ih =>
    obtain ⟨tr, s, run, rfl, rfl, hheld, hfree⟩ := ih
    by_cases hpop : ∃ t id, e = .pop t id
    · obtain ⟨t, id, rfl⟩ := hpop
      have run := run.snoc (.pop hstep)
      have run := run.snoc (.result (a := s.held) (b := []) rfl hfree)
      refine ⟨_, _, run, ?_, rfl, ?_, hfree⟩
      · rw [intakes_append, intakes_append]
        exact List.append_nil _
      · exact (List.append_nil _).trans hheld
    · have run := run.snoc (.intake hstep (fun t id he => hpop ⟨t, id, he⟩) (by simp [hheld]))
      exact ⟨_, _, run, intakes_append _ _, rfl, hheld, hfree⟩

/-- The call after the largest number that an `int` has room for. -/
theorem overflow_of_many (uniqueId : TxnPtr → Nat) : ∃ tr s, Runs uniqueId tr s ∧
    (called (intakes tr)).length = 2 ^ 31 - 1 ∧ ¬s.intake.NoOverflow := by
  have hfew : ((2 ^ 31 - 2 : Nat) : Int) < CInt.intMax := by decide
  obtain ⟨es, i, run, hlen, hrest⟩ := rested_of_few uniqueId hfew
  obtain ⟨es₁, i₁, run₁, hcalled, hcalls, _, hnext, _⟩ := hrest.numbered
  obtain ⟨tr, s, hrun, hes, rfl, _⟩ := exists_run (run.trans run₁)
  refine ⟨tr, s, hrun, ?_, ?_⟩
  · have hall : called (es ++ es₁) = called es ++ called es₁ := List.filterMap_append
    rw [hes, hall, hcalled, List.length_append, hlen]
    rfl
  · intro hno
    have hc : s.intake.calls[i.calls.length]? = some ⟨2 ^ 31 - 2, .incrementing⟩ := by
      rw [hcalls]
      exact List.getElem?_concat_length
    obtain ⟨next, hsucc⟩ := hno _ _ hc
    have hlt := (CInt.succ_eq_some.mp hsucc).1
    rw [hnext] at hlt
    exact absurd hlt (by decide)

/-- The counter never overflows and the arguments of `Write` grow in all runs of fewer than
2^31 - 1 calls of `NewTxnRequest`, and in no longer ones. -/
theorem timestamps_grow (uniqueId : TxnPtr → Nat) :
    (∀ {tr s}, Runs uniqueId tr s → ((called (intakes tr)).length : Int) < CInt.intMax →
      s.intake.NoOverflow ∧ Growing tr) ∧
    ∀ n : Nat, (∀ tr s, Runs uniqueId tr s → (called (intakes tr)).length ≤ n →
      s.intake.NoOverflow ∧ Growing tr) ↔ (n : Int) < CInt.intMax := by
  have hfew : ∀ {tr s}, Runs uniqueId tr s → ((called (intakes tr)).length : Int) < CInt.intMax →
      s.intake.NoOverflow ∧ Growing tr := by
    intro tr s h hcalls
    have hrun := intake_run h
    exact ⟨noOverflow_of_few (ordered_of_run hrun) (exclusive_of_run hrun) hcalls,
      growing_of_run h⟩
  refine ⟨hfew, ?_⟩
  intro n
  constructor
  · intro hall
    by_contra hn
    obtain ⟨tr, s, run, hlen, hover⟩ := overflow_of_many uniqueId
    have hle : 2 ^ 31 - 1 ≤ n := by
      unfold CInt.intMax at hn
      omega
    exact hover (hall tr s run (hlen ▸ hle)).1
  · intro hn tr s h hle
    exact hfew h (by omega)

end Kept

/-- With 2^31 - 1 calls, the last increment has no defined result. -/
theorem counter_overflows : ∃ tr s, Runs (fun _ => 0) tr s ∧
    (called (intakes tr)).length = 2 ^ 31 - 1 ∧ ¬(s.intake.NoOverflow ∧ Growing tr) := by
  obtain ⟨tr, s, run, hlen, hover⟩ := overflow_of_many fun _ => 0
  exact ⟨tr, s, run, hlen, fun h => hover h.1⟩

end Cmsc624.A2.Timestamps
