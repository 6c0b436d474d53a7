import Cmsc624.A2.Processor
import Cmsc624.Lib.Runs
import Cmsc624.Lib.Threads

/-!
# The calls of NewTxnRequest

Clients call `NewTxnRequest` concurrently, statement by statement, while the scheduler pops
from `txn_requests_`. `mutex_` is held from the assignment of the id to the end of the
push; the queue has a mutex of its own, which is the only one that `Pop` takes.
-/

namespace Cmsc624.A2.Intake

open Lib

set_option autoImplicit false

inductive CallPc where
  -- Before `mutex_.Lock()`.
  | locking
  -- Before `txn->unique_id_ = next_unique_id_`.
  | assigning
  | incrementing
  -- In `txn_requests_.Push`.
  | lockingQueue
  | pushing
  | unlockingQueue
  -- Before `mutex_.Unlock()`.
  | unlocking
  | returned

structure Call where
  txn : TxnPtr
  pc : CallPc

inductive PopPc where
  -- Not in `Pop`.
  | idle
  | testing
  -- Before `queue_.pop()`; `*result` is set.
  | popping (t : TxnPtr)
  | unlockingQueue

inductive Party where
  | call (i : Nat)
  | scheduler

structure State where
  nextUniqueId : Int
  uniqueId : TxnPtr → Nat
  requests : List TxnPtr
  -- The holder of `mutex_`, and of the mutex of the queue.
  mutex : Option Nat
  queueMutex : Option Party
  calls : List Call
  scheduler : PopPc

def State.init (uniqueId : TxnPtr → Nat) : State where
  nextUniqueId := 1
  uniqueId := uniqueId
  requests := []
  mutex := none
  queueMutex := none
  calls := []
  scheduler := .idle

def State.goto (s : State) (i : Nat) (t : TxnPtr) (pc : CallPc) : State :=
  { s with calls := s.calls.set i ⟨t, pc⟩ }

def CallPc.unpushed : CallPc → Bool
  | .locking => true
  | .assigning => true
  | .incrementing => true
  | .lockingQueue => true
  | .pushing => true
  | _ => false

/-- The client owns the transaction: it is not on its way to the scheduler. -/
def State.Owned (s : State) (t : TxnPtr) : Prop :=
  t ∉ s.requests ∧ ∀ c ∈ s.calls, c.pc.unpushed = true → c.txn ≠ t

inductive Event where
  | call (t : TxnPtr)
  | assign (t : TxnPtr) (id : Nat)
  | push (t : TxnPtr)
  | pop (t : TxnPtr) (id : Nat)
  | skip

inductive Step : State → Event → State → Prop where
  | call {s : State} (t : TxnPtr) (ht : s.Owned t) :
      Step s (.call t) { s with calls := s.calls ++ [⟨t, .locking⟩] }
  | lock {s : State} {i : Nat} {t : TxnPtr} (hc : s.calls[i]? = some ⟨t, .locking⟩)
      (hm : s.mutex = none) : Step s .skip { s.goto i t .assigning with mutex := some i }
  | assign {s : State} {i : Nat} {t : TxnPtr} (hc : s.calls[i]? = some ⟨t, .assigning⟩) :
      Step s (.assign t (CInt.toUInt64 s.nextUniqueId))
        { s.goto i t .incrementing with
          uniqueId := Function.update s.uniqueId t (CInt.toUInt64 s.nextUniqueId) }
  -- There is no step when `next_unique_id_++` overflows.
  | increment {s : State} {i : Nat} {t : TxnPtr} {next : Int}
      (hc : s.calls[i]? = some ⟨t, .incrementing⟩) (hnext : CInt.succ s.nextUniqueId = some next) :
      Step s .skip { s.goto i t .lockingQueue with nextUniqueId := next }
  | lockQueue {s : State} {i : Nat} {t : TxnPtr} (hc : s.calls[i]? = some ⟨t, .lockingQueue⟩)
      (hm : s.queueMutex = none) :
      Step s .skip { s.goto i t .pushing with queueMutex := some (.call i) }
  | push {s : State} {i : Nat} {t : TxnPtr} (hc : s.calls[i]? = some ⟨t, .pushing⟩) :
      Step s (.push t) { s.goto i t .unlockingQueue with requests := s.requests ++ [t] }
  | unlockQueue {s : State} {i : Nat} {t : TxnPtr} (hc : s.calls[i]? = some ⟨t, .unlockingQueue⟩) :
      Step s .skip { s.goto i t .unlocking with queueMutex := none }
  | unlock {s : State} {i : Nat} {t : TxnPtr} (hc : s.calls[i]? = some ⟨t, .unlocking⟩) :
      Step s .skip { s.goto i t .returned with mutex := none }
  | popLock {s : State} (hpc : s.scheduler = .idle) (hm : s.queueMutex = none) :
      Step s .skip { s with queueMutex := some .scheduler, scheduler := .testing }
  | front {s : State} {t : TxnPtr} {q : List TxnPtr} (hpc : s.scheduler = .testing)
      (hq : s.requests = t :: q) : Step s .skip { s with scheduler := .popping t }
  | empty {s : State} (hpc : s.scheduler = .testing) (hq : s.requests = []) :
      Step s .skip { s with scheduler := .unlockingQueue }
  | pop {s : State} {t : TxnPtr} (hpc : s.scheduler = .popping t) :
      Step s (.pop t (s.uniqueId t))
        { s with requests := s.requests.tail, scheduler := .unlockingQueue }
  | popUnlock {s : State} (hpc : s.scheduler = .unlockingQueue) :
      Step s .skip { s with queueMutex := none, scheduler := .idle }

abbrev Runs (uniqueId : TxnPtr → Nat) : List Event → State → Prop :=
  Run Step (State.init uniqueId)

def called (tr : List Event) : List TxnPtr :=
  tr.filterMap fun | .call t => some t | _ => none

def assigned (tr : List Event) : List (TxnPtr × Nat) :=
  tr.filterMap fun | .assign t id => some (t, id) | _ => none

def pushed (tr : List Event) : List TxnPtr :=
  tr.filterMap fun | .push t => some t | _ => none

def popped (tr : List Event) : List (TxnPtr × Nat) :=
  tr.filterMap fun | .pop t id => some (t, id) | _ => none

def CallPc.critical : CallPc → Bool
  | .locking => false
  | .returned => false
  | _ => true

/-- The id is assigned and not yet in the queue. -/
def CallPc.pending : CallPc → Bool
  | .incrementing => true
  | .lockingQueue => true
  | .pushing => true
  | _ => false

def CallPc.numbered : CallPc → Bool
  | .locking => false
  | .assigning => false
  | _ => true

def State.inside (s : State) : Option Call := s.mutex.bind fun i => s.calls[i]?

def State.pending (s : State) : List TxnPtr :=
  ((s.inside.filter fun c => c.pc.pending).map Call.txn).toList

/-- The counter still has the id that was given last. -/
def CallPc.uncounted : CallPc → Bool
  | .incrementing => true
  | _ => false

def State.count (s : State) : Int :=
  if s.inside.any fun c => c.pc.uncounted then s.nextUniqueId else s.nextUniqueId - 1

/-- One call is in the critical section, and the processor has a transaction once. -/
structure Exclusive (s : State) : Prop where
  mutex : Threads.Holds (fun c : Call => c.pc.critical) s.calls fun i => s.mutex = some i
  absent : ∀ (i : Nat) c, s.calls[i]? = some c → c.pc.unpushed = true → c.txn ∉ s.requests
  apart : ∀ (i j : Nat) c d, s.calls[i]? = some c → s.calls[j]? = some d →
    c.pc.unpushed = true → d.pc.unpushed = true → c.txn = d.txn → i = j
  front : ∀ t, s.scheduler = .popping t → ∃ q, s.requests = t :: q

section Exclusive
variable {uniqueId : TxnPtr → Nat} {tr : List Event} {s s' : State} {e : Event} {i : Nat}
  {t : TxnPtr} {pc pc' : CallPc}

theorem goto_getElem (hc : s.calls[i]? = some ⟨t, pc⟩) (pc' : CallPc) (j : Nat) :
    (s.goto i t pc').calls[j]? = if i = j then some ⟨t, pc'⟩ else s.calls[j]? :=
  Threads.getElem?_set hc _ j

theorem Exclusive.move (h : Exclusive s) (hc : s.calls[i]? = some ⟨t, pc⟩)
    (hcalls : s'.calls = (s.goto i t pc').calls)
    (hkeep : pc'.unpushed = true → pc.unpushed = true)
    (hreq : s'.requests = s.requests ∨
      s'.requests = s.requests ++ [t] ∧ pc.unpushed = true ∧ pc'.unpushed = false)
    (hsched : s'.scheduler = s.scheduler)
    (hself : s'.mutex = some i ↔ pc'.critical = true)
    (hother : ∀ j, j ≠ i → (s'.mutex = some j ↔ s.mutex = some j)) : Exclusive s' := by
  constructor
  · rw [hcalls]
    exact h.mutex.set hc hself hother
  · intro j c hj hun
    rw [hcalls, goto_getElem hc] at hj
    have hold : c.txn ∉ s.requests := by
      split at hj
      · obtain rfl := Option.some.inj hj
        exact h.absent i ⟨t, pc⟩ hc (hkeep hun)
      · exact h.absent j c hj hun
    rcases hreq with hreq | ⟨hreq, hpc, hpc'⟩
    · rw [hreq]
      exact hold
    · rw [hreq, List.mem_append, List.mem_singleton]
      rintro (hmem | heq)
      · exact hold hmem
      · split at hj
        · obtain rfl := Option.some.inj hj
          rw [hpc'] at hun
          cases hun
        · rename_i hij
          exact hij (h.apart i j _ c hc hj hpc hun heq.symm)
  · intro j k c d hj hk hcun hdun heq
    rw [hcalls, goto_getElem hc] at hj hk
    split at hj
    · rename_i hij
      obtain rfl := Option.some.inj hj
      split at hk
      · rename_i hik
        exact hij.symm.trans hik
      · exact hij.symm.trans (h.apart i k _ d hc hk (hkeep hcun) hdun heq)
    · split at hk
      · rename_i hik
        obtain rfl := Option.some.inj hk
        exact (h.apart j i c _ hj hc hcun (hkeep hdun) heq).trans hik
      · exact h.apart j k c d hj hk hcun hdun heq
  · intro u hu
    obtain ⟨q, hq⟩ := h.front u (hsched ▸ hu)
    rcases hreq with hreq | ⟨hreq, _⟩
    · exact ⟨q, hreq.trans hq⟩
    · exact ⟨q ++ [t], by rw [hreq, hq]; rfl⟩

theorem Exclusive.moveScheduler (h : Exclusive s) (hcalls : s'.calls = s.calls)
    (hmutex : s'.mutex = s.mutex) (hreq : ∀ u ∈ s'.requests, u ∈ s.requests)
    (hfront : ∀ t, s'.scheduler = .popping t → ∃ q, s'.requests = t :: q) : Exclusive s' := by
  constructor
  · rw [hcalls, hmutex]
    exact h.mutex
  · rw [hcalls]
    intro i c hi hun hmem
    exact h.absent i c hi hun (hreq _ hmem)
  · rw [hcalls]
    exact h.apart
  · exact hfront

theorem Exclusive.call (h : Exclusive s) (ht : s.Owned t) :
    Exclusive { s with calls := s.calls ++ [⟨t, .locking⟩] } := by
  constructor
  · exact h.mutex.concat rfl
  · intro i c hi hun
    rw [Threads.getElem?_concat] at hi
    split at hi
    · obtain rfl := Option.some.inj hi
      exact ht.1
    · exact h.absent i c hi hun
  · intro i j c d hi hj hcun hdun heq
    rw [Threads.getElem?_concat] at hi hj
    split at hi
    · rename_i hilast
      obtain rfl := Option.some.inj hi
      split at hj
      · rename_i hjlast
        exact hilast.trans hjlast.symm
      · exact absurd heq.symm (ht.2 d (List.mem_of_getElem? hj) hdun)
    · split at hj
      · obtain rfl := Option.some.inj hj
        exact absurd heq (ht.2 c (List.mem_of_getElem? hi) hcun)
      · exact h.apart i j c d hi hj hcun hdun heq
  · exact h.front

theorem Exclusive.holder (h : Exclusive s) (hc : s.calls[i]? = some ⟨t, pc⟩)
    (hpc : pc.critical = true) : s.mutex = some i := (h.mutex i).mpr ⟨_, hc, hpc⟩

theorem Exclusive.moveInside (h : Exclusive s) (hc : s.calls[i]? = some ⟨t, pc⟩)
    (hpc : pc.critical = true) (hpc' : pc'.critical = true)
    (hcalls : s'.calls = (s.goto i t pc').calls) (hmutex : s'.mutex = s.mutex)
    (hkeep : pc'.unpushed = true → pc.unpushed = true)
    (hreq : s'.requests = s.requests ∨
      s'.requests = s.requests ++ [t] ∧ pc.unpushed = true ∧ pc'.unpushed = false)
    (hsched : s'.scheduler = s.scheduler) : Exclusive s' := by
  apply h.move hc hcalls hkeep hreq hsched
  · rw [hmutex, h.holder hc hpc, hpc']
    exact iff_of_true rfl rfl
  · intro j _
    rw [hmutex]

theorem Exclusive.step (h : Exclusive s) (hstep : Step s e s') : Exclusive s' := by
  cases hstep with
  | call t ht => exact h.call ht
  | @lock i t hc hm =>
    refine h.move hc rfl id (Or.inl rfl) rfl ⟨fun _ => rfl, fun _ => rfl⟩ ?_
    intro j hj
    rw [hm]
    exact iff_of_false (fun h => hj (Option.some.inj h).symm) nofun
  | assign hc => exact h.moveInside hc rfl rfl rfl rfl id (Or.inl rfl) rfl
  | increment hc hnext => exact h.moveInside hc rfl rfl rfl rfl id (Or.inl rfl) rfl
  | lockQueue hc hm => exact h.moveInside hc rfl rfl rfl rfl id (Or.inl rfl) rfl
  | push hc =>
    exact h.moveInside hc rfl rfl rfl rfl (fun _ => rfl) (Or.inr ⟨rfl, rfl, rfl⟩) rfl
  | unlockQueue hc => exact h.moveInside hc rfl rfl rfl rfl id (Or.inl rfl) rfl
  | @unlock i t hc =>
    have hm := h.holder hc rfl
    refine h.move hc rfl id (Or.inl rfl) rfl (iff_of_false nofun nofun) ?_
    intro j hj
    rw [hm]
    exact iff_of_false nofun fun h => hj (Option.some.inj h).symm
  | popLock hpc hm => exact h.moveScheduler rfl rfl (fun _ hu => hu) nofun
  | @front t q hpc hq =>
    refine h.moveScheduler rfl rfl (fun _ hu => hu) ?_
    intro u hu
    obtain rfl := PopPc.popping.inj hu
    exact ⟨q, hq⟩
  | empty hpc hq => exact h.moveScheduler rfl rfl (fun _ hu => hu) nofun
  | pop hpc => exact h.moveScheduler rfl rfl (fun _ hu => List.mem_of_mem_tail hu) nofun
  | popUnlock hpc => exact h.moveScheduler rfl rfl (fun _ hu => hu) nofun

theorem exclusive_of_run (h : Runs uniqueId tr s) : Exclusive s := by
  apply h.stateInvariant (I := Exclusive)
  · constructor
    · intro i
      exact iff_of_false nofun fun ⟨_, hc, _⟩ => nomatch hc
    · exact fun _ _ hc => nomatch hc
    · exact fun _ _ _ _ hc => nomatch hc
    · exact fun _ hc => nomatch hc
  · intro s e s' h hstep
    exact h.step hstep

end Exclusive

/-- The log of the numbering is the log of `Pop`, then the queue, then the call between its
numbering and its push. -/
structure Ordered (tr : List Event) (s : State) : Prop where
  log : assigned tr = popped tr ++ (s.requests ++ s.pending).map fun t => (t, s.uniqueId t)
  ids : (assigned tr).map Prod.snd = List.range' 1 (assigned tr).length
  count : s.count = (assigned tr).length
  bound : s.nextUniqueId ≤ CInt.intMax
  fifo : pushed tr = (popped tr).map Prod.fst ++ s.requests
  numbered : (assigned tr).length = s.calls.countP fun c => c.pc.numbered
  called_length : (called tr).length = s.calls.length

section Ordered
variable {uniqueId : TxnPtr → Nat} {tr : List Event} {s s' : State} {e : Event} {i : Nat}
  {t : TxnPtr} {pc pc' : CallPc}

theorem Exclusive.inside (h : Exclusive s) (hc : s.calls[i]? = some ⟨t, pc⟩)
    (hpc : pc.critical = true) : s.inside = some ⟨t, pc⟩ := by
  rw [State.inside, h.holder hc hpc, Option.bind_some]
  exact hc

theorem inside_goto (hc : s.calls[i]? = some ⟨t, pc⟩) (hcalls : s'.calls = (s.goto i t pc').calls)
    (hm : s'.mutex = some i) : s'.inside = some ⟨t, pc'⟩ := by
  rw [State.inside, hm, Option.bind_some, hcalls, goto_getElem hc, if_pos rfl]

theorem pending_inside (h : s.inside = some ⟨t, pc⟩) :
    s.pending = if pc.pending then [t] else [] := by
  rw [State.pending, h, Option.filter_some]
  split
  · rfl
  · rfl

theorem count_inside (h : s.inside = some ⟨t, pc⟩) :
    s.count = if pc.uncounted then s.nextUniqueId else s.nextUniqueId - 1 := by
  rw [State.count, h]
  rfl

theorem Ordered.init (uniqueId : TxnPtr → Nat) : Ordered [] (State.init uniqueId) where
  log := rfl
  ids := rfl
  count := rfl
  bound := by
    show (1 : Int) ≤ CInt.intMax
    decide
  fifo := rfl
  numbered := rfl
  called_length := rfl

theorem Ordered.quiet (h : Ordered tr s) (hreq : s'.requests = s.requests)
    (hids : s'.uniqueId = s.uniqueId) (hpending : s'.pending = s.pending)
    (hcount : s'.count = s.count) (hbound : s'.nextUniqueId ≤ CInt.intMax)
    (hnumbered : (s'.calls.countP fun c => c.pc.numbered) =
      s.calls.countP fun c => c.pc.numbered)
    (hlength : s'.calls.length = s.calls.length) : Ordered (tr ++ [.skip]) s' := by
  have hassigned : assigned (tr ++ [.skip]) = assigned tr := by simp [assigned]
  have hpopped : popped (tr ++ [.skip]) = popped tr := by simp [popped]
  have hpushed : pushed (tr ++ [.skip]) = pushed tr := by simp [pushed]
  have hcalled : called (tr ++ [.skip]) = called tr := by simp [called]
  constructor
  · rw [hassigned, hpopped, hreq, hids, hpending]
    exact h.log
  · rw [hassigned]
    exact h.ids
  · rw [hassigned, hcount]
    exact h.count
  · exact hbound
  · rw [hpushed, hpopped, hreq]
    exact h.fifo
  · rw [hassigned, hnumbered]
    exact h.numbered
  · rw [hcalled, hlength]
    exact h.called_length

theorem Ordered.quietInside (h : Ordered tr s) (hc : s.calls[i]? = some ⟨t, pc⟩)
    (hcalls : s'.calls = (s.goto i t pc').calls) (hm : s'.mutex = some i)
    (hreq : s'.requests = s.requests) (hids : s'.uniqueId = s.uniqueId)
    (hpending : s.pending = if pc'.pending then [t] else [])
    (hcount : s.count = if pc'.uncounted then s'.nextUniqueId else s'.nextUniqueId - 1)
    (hbound : s'.nextUniqueId ≤ CInt.intMax) (hnumbered : pc'.numbered = pc.numbered) :
    Ordered (tr ++ [.skip]) s' := by
  have hinside := inside_goto hc hcalls hm
  refine h.quiet hreq hids ?_ ?_ hbound ?_ ?_
  · rw [hpending, pending_inside hinside]
  · rw [hcount, count_inside hinside]
  · rw [hcalls]
    exact Threads.countP_set_same hc hnumbered
  · rw [hcalls]
    exact List.length_set

theorem Ordered.assign (h : Ordered tr s) (hex : Exclusive s)
    (hc : s.calls[i]? = some ⟨t, .assigning⟩) :
    Ordered (tr ++ [.assign t (CInt.toUInt64 s.nextUniqueId)])
      { s.goto i t .incrementing with
        uniqueId := Function.update s.uniqueId t (CInt.toUInt64 s.nextUniqueId) } := by
  have hinside := hex.inside hc rfl
  have hpending : s.pending = [] := pending_inside hinside
  have hcount : s.count = s.nextUniqueId - 1 := count_inside hinside
  have hlen := h.count
  rw [hcount] at hlen
  have hid : CInt.toUInt64 s.nextUniqueId = 1 + (assigned tr).length := by
    have hcast := CInt.toUInt64_of_le (by omega) h.bound
    omega
  have hassigned : assigned (tr ++ [.assign t (CInt.toUInt64 s.nextUniqueId)]) =
      assigned tr ++ [(t, CInt.toUInt64 s.nextUniqueId)] := List.filterMap_append
  have hkeep : (s.requests.map fun u =>
      (u, Function.update s.uniqueId t (CInt.toUInt64 s.nextUniqueId) u)) =
        s.requests.map fun u => (u, s.uniqueId u) := by
    apply List.map_congr_left
    intro u hu
    have hne : u ≠ t := fun heq => hex.absent i _ hc rfl (heq ▸ hu)
    rw [Function.update_of_ne hne]
  have hinside' : State.inside
      { s.goto i t .incrementing with
        uniqueId := Function.update s.uniqueId t (CInt.toUInt64 s.nextUniqueId) } =
      some ⟨t, .incrementing⟩ := inside_goto hc rfl (hex.holder hc rfl)
  have hpending' : State.pending
      { s.goto i t .incrementing with
        uniqueId := Function.update s.uniqueId t (CInt.toUInt64 s.nextUniqueId) } = [t] :=
    pending_inside hinside'
  have hpopped : popped (tr ++ [.assign t (CInt.toUInt64 s.nextUniqueId)]) = popped tr := by
    simp [popped]
  have hpushed : pushed (tr ++ [.assign t (CInt.toUInt64 s.nextUniqueId)]) = pushed tr := by
    simp [pushed]
  constructor
  · have hlog := h.log
    rw [hpending, List.append_nil] at hlog
    rw [hassigned, hpopped, hpending', hlog]
    show _ = popped tr ++ List.map _ (s.requests ++ [t])
    rw [List.map_append, List.map_singleton, List.append_assoc]
    show _ = popped tr ++ ((s.requests.map fun u =>
      (u, Function.update s.uniqueId t (CInt.toUInt64 s.nextUniqueId) u)) ++
        [(t, Function.update s.uniqueId t (CInt.toUInt64 s.nextUniqueId) t)])
    rw [hkeep, Function.update_self]
  · rw [hassigned, List.map_append, List.map_singleton, List.length_append, List.length_singleton,
      List.range'_1_concat, h.ids, hid]
  · rw [hassigned, count_inside hinside', List.length_append]
    show s.nextUniqueId = _
    rw [List.length_singleton]
    omega
  · exact h.bound
  · rw [hpushed, hpopped]
    exact h.fifo
  · have hcountP : ((s.goto i t .incrementing).calls.countP fun c => c.pc.numbered) =
        (s.calls.countP fun c => c.pc.numbered) + 1 :=
      Threads.countP_set (fun c : Call => c.pc.numbered) hc ⟨t, .incrementing⟩
    rw [hassigned, List.length_append, h.numbered]
    exact hcountP.symm
  · have hlength : (s.goto i t .incrementing).calls.length = s.calls.length := List.length_set
    simpa [called, hlength] using h.called_length

theorem Ordered.push (h : Ordered tr s) (hex : Exclusive s)
    (hc : s.calls[i]? = some ⟨t, .pushing⟩) :
    Ordered (tr ++ [.push t])
      { s.goto i t .unlockingQueue with requests := s.requests ++ [t] } := by
  have hinside := hex.inside hc rfl
  have hinside' : State.inside
      { s.goto i t .unlockingQueue with requests := s.requests ++ [t] } =
      some ⟨t, .unlockingQueue⟩ := inside_goto hc rfl (hex.holder hc rfl)
  have hpending : s.pending = [t] := pending_inside hinside
  have hpending' : State.pending
      { s.goto i t .unlockingQueue with requests := s.requests ++ [t] } = [] :=
    pending_inside hinside'
  have hassigned : assigned (tr ++ [.push t]) = assigned tr := by simp [assigned]
  have hpopped : popped (tr ++ [.push t]) = popped tr := by simp [popped]
  constructor
  · rw [hassigned, hpopped, h.log, hpending, hpending', List.append_nil]
    rfl
  · rw [hassigned]
    exact h.ids
  · have hcount := h.count
    rw [count_inside hinside] at hcount
    rw [hassigned, count_inside hinside']
    exact hcount
  · exact h.bound
  · have hpushed : pushed (tr ++ [.push t]) = pushed tr ++ [t] := List.filterMap_append
    rw [hpushed, hpopped, h.fifo, List.append_assoc]
  · have hcountP : ((s.goto i t .unlockingQueue).calls.countP fun c => c.pc.numbered) =
        s.calls.countP fun c => c.pc.numbered := Threads.countP_set_same hc rfl
    rw [hassigned, h.numbered]
    exact hcountP.symm
  · have hlength : (s.goto i t .unlockingQueue).calls.length = s.calls.length := List.length_set
    simpa [called, hlength] using h.called_length

theorem Ordered.pop (h : Ordered tr s) (hex : Exclusive s) (hpc : s.scheduler = .popping t) :
    Ordered (tr ++ [.pop t (s.uniqueId t)])
      { s with requests := s.requests.tail, scheduler := .unlockingQueue } := by
  obtain ⟨q, hq⟩ := hex.front t hpc
  have hassigned : assigned (tr ++ [.pop t (s.uniqueId t)]) = assigned tr := by simp [assigned]
  have hpopped : popped (tr ++ [.pop t (s.uniqueId t)]) = popped tr ++ [(t, s.uniqueId t)] :=
    List.filterMap_append
  constructor
  · rw [hassigned, hpopped, h.log, hq, List.append_assoc]
    rfl
  · rw [hassigned]
    exact h.ids
  · rw [hassigned]
    exact h.count
  · exact h.bound
  · have hpushed : pushed (tr ++ [.pop t (s.uniqueId t)]) = pushed tr := by simp [pushed]
    rw [hpushed, hpopped, h.fifo, hq, List.map_append, List.append_assoc]
    rfl
  · rw [hassigned]
    exact h.numbered
  · simpa [called] using h.called_length

theorem Ordered.call (h : Ordered tr s) (hex : Exclusive s) :
    Ordered (tr ++ [.call t]) { s with calls := s.calls ++ [⟨t, .locking⟩] } := by
  have hassigned : assigned (tr ++ [.call t]) = assigned tr := by simp [assigned]
  have hinside : State.inside { s with calls := s.calls ++ [⟨t, .locking⟩] } = s.inside := by
    cases hm : s.mutex with
    | none => rw [State.inside, State.inside, hm]; rfl
    | some i =>
      obtain ⟨c, hc, _⟩ := (hex.mutex i).mp hm
      rw [State.inside, State.inside, hm, Option.bind_some, Option.bind_some, hc]
      show (s.calls ++ [_])[i]? = some c
      rw [List.getElem?_append_left (List.getElem?_eq_some_iff.mp hc).1]
      exact hc
  have hpopped : popped (tr ++ [.call t]) = popped tr := by simp [popped]
  have hpushed : pushed (tr ++ [.call t]) = pushed tr := by simp [pushed]
  constructor
  · rw [hassigned, hpopped, State.pending, hinside]
    exact h.log
  · rw [hassigned]
    exact h.ids
  · rw [hassigned, State.count, hinside]
    exact h.count
  · exact h.bound
  · rw [hpushed, hpopped]
    exact h.fifo
  · rw [hassigned, h.numbered, List.countP_append]
    rfl
  · have hcalled : called (tr ++ [.call t]) = called tr ++ [t] := List.filterMap_append
    rw [hcalled, List.length_append, List.length_append, h.called_length]
    rfl

theorem Ordered.step (h : Ordered tr s) (hex : Exclusive s) (hstep : Step s e s') :
    Ordered (tr ++ [e]) s' := by
  cases hstep with
  | call t ht => exact h.call hex
  | lock hc hm =>
    have hinside : s.inside = none := by rw [State.inside, hm]; rfl
    refine h.quietInside hc rfl rfl rfl rfl ?_ ?_ h.bound rfl
    · rw [State.pending, hinside]
      rfl
    · rw [State.count, hinside]
      rfl
  | assign hc => exact h.assign hex hc
  | increment hc hnext =>
    obtain ⟨hlt, rfl⟩ := CInt.succ_eq_some.mp hnext
    have hinside := hex.inside hc rfl
    refine h.quietInside hc rfl (hex.holder hc rfl) rfl rfl (pending_inside hinside :) ?_
      (Int.add_one_le_of_lt hlt) rfl
    have hcount : s.count = s.nextUniqueId := count_inside hinside
    rw [hcount]
    exact (Int.add_sub_cancel _ _).symm
  | lockQueue hc hm =>
    have hinside := hex.inside hc rfl
    exact h.quietInside hc rfl (hex.holder hc rfl) rfl rfl (pending_inside hinside :)
      (count_inside hinside :) h.bound rfl
  | push hc => exact h.push hex hc
  | unlockQueue hc =>
    have hinside := hex.inside hc rfl
    exact h.quietInside hc rfl (hex.holder hc rfl) rfl rfl (pending_inside hinside :)
      (count_inside hinside :) h.bound rfl
  | unlock hc =>
    have hinside := hex.inside hc rfl
    refine h.quiet rfl rfl (pending_inside hinside).symm (count_inside hinside).symm h.bound ?_ ?_
    · exact Threads.countP_set_same hc rfl
    · exact List.length_set
  | pop hpc => exact h.pop hex hpc
  | popLock hpc hm | front hpc hq | empty hpc hq | popUnlock hpc =>
    exact h.quiet rfl rfl rfl rfl h.bound rfl rfl

theorem ordered_of_run (h : Runs uniqueId tr s) : Ordered tr s := by
  apply h.invariant (I := fun tr s => Ordered tr s)
  · exact Ordered.init uniqueId
  · intro tr s e s' hr hord hstep
    exact hord.step (exclusive_of_run hr) hstep

/-- The increment that the call will make is defined. -/
def State.NoOverflow (s : State) : Prop :=
  ∀ (i : Nat) t, s.calls[i]? = some ⟨t, .incrementing⟩ →
    ∃ next, CInt.succ s.nextUniqueId = some next

theorem ids_increasing (h : Ordered tr s) : ((assigned tr).map Prod.snd).Pairwise (· < ·) := by
  rw [h.ids]
  exact List.pairwise_lt_range'

/-- The ids in the queue and after it, in the order of the log. -/
theorem queue_increasing (h : Ordered tr s) :
    ((s.requests ++ s.pending).map s.uniqueId).Pairwise (· < ·) := by
  have hids := ids_increasing h
  rw [h.log, List.map_append, List.map_map] at hids
  exact (List.pairwise_append.mp hids).2.1

theorem id_le (h : Ordered tr s) (ht : t ∈ s.requests ++ s.pending) :
    s.uniqueId t ≤ (assigned tr).length := by
  have hmem : s.uniqueId t ∈ (assigned tr).map Prod.snd := by
    rw [h.log, List.map_append, List.map_map]
    exact List.mem_append_right _ (List.mem_map_of_mem ht)
  rw [h.ids, List.mem_range'_1] at hmem
  omega

theorem id_lt_next (h : Ordered tr s) (ht : t ∈ s.requests) :
    (s.uniqueId t : Int) < s.nextUniqueId := by
  have hcount := h.count
  unfold State.count at hcount
  split at hcount
  · -- The call inside has taken a later id already.
    rename_i huncounted
    obtain ⟨c, hinside, hpc⟩ := (Option.any_eq_true _ _).mp huncounted
    have hpending : s.pending = [c.txn] := by
      rw [State.pending, hinside, Option.filter_some]
      cases hc : c.pc with
      | incrementing => rfl
      | locking | assigning | lockingQueue | pushing | unlockingQueue | unlocking | returned =>
        rw [hc] at hpc
        cases hpc
    have hsorted := queue_increasing h
    rw [hpending, List.map_append] at hsorted
    have hlt := (List.pairwise_append.mp hsorted).2.2 _ (List.mem_map_of_mem ht) (s.uniqueId c.txn)
      (List.mem_singleton_self _)
    have hmem : c.txn ∈ s.requests ++ s.pending := by
      rw [hpending]
      exact List.mem_append_right _ (List.mem_singleton_self _)
    have hle := id_le h hmem
    omega
  · have hle := id_le h (List.mem_append_left _ ht)
    omega

theorem noOverflow_of_few (h : Ordered tr s) (hex : Exclusive s)
    (hcalls : ((called tr).length : Int) < CInt.intMax) : s.NoOverflow := by
  intro i t hc
  have hcount := h.count
  rw [count_inside (hex.inside hc rfl)] at hcount
  have hle : (assigned tr).length ≤ (called tr).length := by
    rw [h.numbered, h.called_length]
    exact List.countP_le_length
  have hnext : s.nextUniqueId = (assigned tr).length := hcount
  exact ⟨_, CInt.succ_eq_some.mpr ⟨by omega, rfl⟩⟩

/-- Numbering agrees with the order of the queue. -/
theorem numbering_agrees (h : Runs uniqueId tr s)
    (hcalls : ((called tr).length : Int) < CInt.intMax) :
    (assigned tr).map Prod.snd = List.range' 1 (assigned tr).length ∧
    (s.requests.map s.uniqueId).Pairwise (· < ·) ∧
    (∀ t ∈ s.requests, (s.uniqueId t : Int) < s.nextUniqueId) ∧
    ((popped tr).map Prod.snd).Pairwise (· < ·) ∧
    pushed tr = (popped tr).map Prod.fst ++ s.requests ∧
    (assigned tr = popped tr ++ (s.requests ++ s.pending).map fun t => (t, s.uniqueId t)) ∧
    s.NoOverflow := by
  have hord := ordered_of_run h
  have hids := ids_increasing hord
  have hqueue := queue_increasing hord
  rw [hord.log, List.map_append] at hids
  rw [List.map_append] at hqueue
  exact ⟨hord.ids, (List.pairwise_append.mp hqueue).1, fun t => id_lt_next hord,
    (List.pairwise_append.mp hids).1, hord.fifo, hord.log,
    noOverflow_of_few hord (exclusive_of_run h) hcalls⟩

end Ordered

section Calls
variable {uniqueId : TxnPtr → Nat} {tr : List Event} {s : State} {i : Nat} {t : TxnPtr} {next : Int}
  {pc : CallPc}

theorem goto_self (hc : s.calls[i]? = some ⟨t, pc⟩) (pc' : CallPc) :
    (s.goto i t pc').calls[i]? = some ⟨t, pc'⟩ := by
  rw [goto_getElem hc, if_pos rfl]

theorem call_numbered (hc : s.calls[i]? = some ⟨t, .locking⟩) (hm : s.mutex = none) :
    ∃ tr' s', Run Step s tr' s' ∧ called tr' = [] ∧
      s'.calls = s.calls.set i ⟨t, .incrementing⟩ ∧ s'.queueMutex = s.queueMutex ∧
      s'.nextUniqueId = s.nextUniqueId ∧ s'.requests = s.requests ∧
      s'.scheduler = s.scheduler := by
  have run := Run.single (Step.lock hc hm)
  have run := run.snoc (.assign (goto_self hc .assigning))
  refine ⟨_, _, run, ?_, ?_, rfl, rfl, rfl, rfl⟩
  · rfl
  · exact List.set_set ..

theorem call_finished (hc : s.calls[i]? = some ⟨t, .incrementing⟩) (hm : s.queueMutex = none)
    (hnext : CInt.succ s.nextUniqueId = some next) :
    ∃ tr' s', Run Step s tr' s' ∧ called tr' = [] ∧
      s'.calls = s.calls.set i ⟨t, .returned⟩ ∧ s'.mutex = none ∧ s'.queueMutex = none ∧
      s'.nextUniqueId = next ∧ s'.requests = s.requests ++ [t] ∧
      s'.scheduler = s.scheduler := by
  have hc₁ := goto_self hc .lockingQueue
  have hc₂ := goto_self hc₁ .pushing
  have hc₃ := goto_self hc₂ .unlockingQueue
  have hc₄ := goto_self hc₃ .unlocking
  have run := Run.single (Step.increment hc hnext)
  have run := run.snoc (.lockQueue hc₁ hm)
  have run := run.snoc (.push hc₂)
  have run := run.snoc (.unlockQueue hc₃)
  have run := run.snoc (.unlock hc₄)
  refine ⟨_, _, run, ?_, ?_, rfl, rfl, rfl, rfl, rfl⟩
  · rfl
  · simp [State.goto]

theorem pop_finished {q : List TxnPtr} (hpc : s.scheduler = .idle) (hm : s.queueMutex = none)
    (hq : s.requests = t :: q) :
    ∃ tr' s', Run Step s tr' s' ∧ called tr' = [] ∧ popped tr' = [(t, s.uniqueId t)] ∧
      s'.requests = q := by
  have run := Run.single (Step.popLock hpc hm)
  have run := run.snoc (.front rfl hq)
  have run := run.snoc (.pop rfl)
  have run := run.snoc (.popUnlock rfl)
  exact ⟨_, _, run, rfl, rfl, congrArg List.tail hq⟩

/-- The processor has accepted `k` transactions, and no call is under way. -/
structure Rested (k : Nat) (s : State) : Prop where
  mutex : s.mutex = none
  queueMutex : s.queueMutex = none
  next : s.nextUniqueId = k + 1
  returned : ∀ c ∈ s.calls, c.pc = .returned
  requests : s.requests = List.range k
  scheduler : s.scheduler = .idle

theorem Rested.owned {k : Nat} (h : Rested k s) : s.Owned k := by
  constructor
  · rw [h.requests]
    exact List.not_mem_range_self
  · intro c hc hun
    rw [h.returned c hc] at hun
    cases hun

theorem Rested.numbered {k : Nat} (h : Rested k s) : ∃ tr' s', Run Step s tr' s' ∧
    called tr' = [k] ∧ s'.calls = s.calls ++ [⟨k, .incrementing⟩] ∧ s'.queueMutex = none ∧
    s'.nextUniqueId = k + 1 ∧ s'.requests = s.requests ∧ s'.scheduler = .idle := by
  have hc : (s.calls ++ [(⟨k, .locking⟩ : Call)])[s.calls.length]? = some ⟨k, .locking⟩ :=
    List.getElem?_concat_length
  have run := Run.single (Step.call k h.owned)
  obtain ⟨tr', s', run', hcalled, hcalls, hqm, hnext, hreq, hsched⟩ :=
    call_numbered (s := { s with calls := s.calls ++ [⟨k, .locking⟩] }) hc h.mutex
  refine ⟨_, s', run.trans run', ?_, ?_, hqm.trans h.queueMutex, hnext.trans h.next, hreq,
    hsched.trans h.scheduler⟩
  · rw [called, List.filterMap_append]
    exact congrArg ([k] ++ ·) hcalled
  · rw [hcalls]
    simp

theorem rested_of_few (uniqueId : TxnPtr → Nat) {k : Nat} (hk : (k : Int) < CInt.intMax) :
    ∃ tr s, Runs uniqueId tr s ∧ (called tr).length = k ∧ Rested k s := by
  induction k with
  | zero => exact ⟨[], _, .nil, rfl, rfl, rfl, rfl, nofun, rfl, rfl⟩
  | succ k ih =>
    push_cast at hk
    obtain ⟨tr, s, run, hlen, hrest⟩ := ih (by omega)
    obtain ⟨tr₁, s₁, run₁, hcalled₁, hcalls₁, hqm₁, hnext₁, hreq₁, hsched₁⟩ := hrest.numbered
    have hc : s₁.calls[s.calls.length]? = some ⟨k, .incrementing⟩ := by
      rw [hcalls₁]
      exact List.getElem?_concat_length
    have hsucc : CInt.succ s₁.nextUniqueId = some ((k : Int) + 1 + 1) :=
      CInt.succ_eq_some.mpr ⟨by omega, by rw [hnext₁]⟩
    obtain ⟨tr₂, s₂, run₂, hcalled₂, hcalls₂, hm₂, hqm₂, hnext₂, hreq₂, hsched₂⟩ :=
      call_finished hc hqm₁ hsucc
    refine ⟨_, s₂, (run.trans run₁).trans run₂, ?_, hm₂, hqm₂, ?_, ?_, ?_, hsched₂.trans hsched₁⟩
    · have hall : called (tr ++ tr₁ ++ tr₂) = called tr ++ called tr₁ ++ called tr₂ := by
        simp [called]
      rw [hall, hcalled₁, hcalled₂, List.append_nil, List.length_append, hlen]
      rfl
    · rw [hnext₂]
      push_cast
      rfl
    · intro c hc
      rw [hcalls₂, hcalls₁] at hc
      have hset : (s.calls ++ [(⟨k, .incrementing⟩ : Call)]).set s.calls.length ⟨k, .returned⟩ =
          s.calls ++ [⟨k, .returned⟩] := by simp
      rw [hset] at hc
      rcases List.mem_append.mp hc with hold | hnew
      · exact hrest.returned c hold
      · rw [List.mem_singleton.mp hnew]
    · rw [hreq₂, hreq₁, hrest.requests, List.range_succ]

end Calls

/-- Two transactions are submitted, and the first one is popped. -/
theorem numbering_agrees_two : ∃ tr s, Runs (fun _ => 0) tr s ∧ (called tr).length = 2 ∧
    0 ∈ (popped tr).map Prod.fst ∧ s.requests = [1] ∧
    (assigned tr).map Prod.snd = List.range' 1 (assigned tr).length ∧
    pushed tr = (popped tr).map Prod.fst ++ s.requests ∧
    assigned tr = popped tr ++ (s.requests ++ s.pending).map fun t => (t, s.uniqueId t) := by
  have htwo : ((2 : Nat) : Int) < CInt.intMax := by decide
  obtain ⟨tr, s, run, hlen, hrest⟩ := rested_of_few (fun _ => 0) htwo
  obtain ⟨tr', s', run', hcalled, hpop, hreq⟩ :=
    pop_finished hrest.scheduler hrest.queueMutex hrest.requests
  have hall : (called (tr ++ tr')).length = 2 := by
    rw [called, List.filterMap_append, List.length_append]
    exact congrArg₂ (· + ·) hlen (congrArg List.length hcalled)
  have hpopped : popped (tr ++ tr') = popped tr ++ popped tr' := List.filterMap_append
  obtain ⟨hids, _, _, _, hfifo, hlog, _⟩ :=
    numbering_agrees (run.trans run') (by rw [hall]; exact htwo)
  refine ⟨_, s', run.trans run', hall, ?_, hreq, hids, hfifo, hlog⟩
  rw [hpopped, hpop, List.map_append]
  exact List.mem_append_right _ (List.mem_singleton_self 0)

end Cmsc624.A2.Intake
