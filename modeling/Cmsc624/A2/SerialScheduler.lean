import Cmsc624.A2.Processor
import Cmsc624.A2.TxnMachine
import Cmsc624.A2.TxnTypes

/-!
# RunSerialScheduler

The scheduler of the mode SERIAL executes, commits and returns one transaction after
the other. It is a sequential transaction machine: what it leaves in the store and in
each transaction is what `machine` gives in the order of the requests.
-/

namespace Cmsc624.A2

open Lib

set_option autoImplicit false

namespace Processor

/-- From the commit/abort decision to the final status; `none` is `DIE`. -/
def commitOrAbort (p : Processor) (t : TxnPtr) : Option Processor :=
  match (p.txns t).status with
  | .completedC => some (((p.applyWrites t).pushCommitted t).setStatus t .committed)
  | .completedA => some (p.setStatus t .aborted)
  | _ => none

/-- The body of the loop for a popped transaction. -/
def serialBody (code : TxnPtr → TxnCode) (t : TxnPtr) (p : Processor) : Option Processor :=
  ((p.executeTxn (code t) t).bind fun p => p.commitOrAbort t).map fun p => p.pushResult t

/-- The first `n` iterations of `while (!stopped_)`. -/
def runSerialScheduler (code : TxnPtr → TxnCode) : Nat → Processor → Option Processor
  | 0, p => some p
  | n + 1, p =>
    if p.stopped then some p
    else
      match p.txnRequests with
      | [] => runSerialScheduler code n p
      | t :: q => (serialBody code t { p with txnRequests := q }).bind (runSerialScheduler code n)

theorem runSerialScheduler_nil {code : TxnPtr → TxnCode} {p : Processor} {n : Nat}
    (hq : p.txnRequests = []) : runSerialScheduler code (n + 1) p =
      if p.stopped then some p else runSerialScheduler code n p := by
  rw [runSerialScheduler, hq]

theorem runSerialScheduler_cons {code : TxnPtr → TxnCode} {p : Processor} {t : TxnPtr}
    {q : List TxnPtr} {n : Nat} (hstop : p.stopped = false) (hq : p.txnRequests = t :: q) :
    runSerialScheduler code (n + 1) p =
      (serialBody code t { p with txnRequests := q }).bind (runSerialScheduler code n) := by
  rw [runSerialScheduler, if_neg (by simp [hstop]), hq]

def submit (ts : List TxnPtr) (p : Processor) : Option Processor :=
  ts.foldlM newTxnRequest p

theorem foldl_readKey (t : TxnPtr) (ks : List Key) (p : Processor) :
    ks.foldl (fun p k => p.readKey t k) p =
      p.modifyTxn t fun x => { x with reads := ks.foldl (saveRead p.storage.read) x.reads } := by
  induction ks generalizing p with
  | nil => simp [modifyTxn]
  | cons k ks ih =>
    rw [List.foldl_cons, ih]
    simp [modifyTxn]

theorem executeTxn_eq (p : Processor) (c : TxnCode) (t : TxnPtr) (hfresh : (p.txns t).Fresh) :
    p.executeTxn c t = (c.run (unrun (readAll p.storage.data c.keys))).map fun b =>
      { p with
        txns := Function.update p.txns t ⟨b, (p.txns t).uniqueId, p.committedSize⟩
        completedTxns := p.completedTxns ++ [t] } := by
  have hreads : ({ (p.txns t).toBuffers with
      reads := c.keys.foldl (saveRead p.storage.read) (p.txns t).reads } : Buffers) =
        unrun (readAll p.storage.data c.keys) := by
    rw [hfresh]
    rfl
  rw [executeTxn, foldl_readKey, recordStart, runTxn, modifyTxn_self, modifyTxn_self,
    modifyTxn_storage, hreads, Option.map_map]
  congr 1
  funext b
  simp [modifyTxn]

theorem applyWrites_eq (p : Processor) (t : TxnPtr) :
    p.applyWrites t =
      { p with storage := ⟨assign (p.txns t).writes.entries p.storage.data⟩ } := by
  suffices h : ∀ (es : List (Key × Value)) (p : Processor),
      es.foldl (fun p e => p.writeKey t e) p = { p with storage := ⟨assign es p.storage.data⟩ } from
    h _ p
  intro es
  induction es with
  | nil => intro p; rfl
  | cons e es ih => intro p; rw [List.foldl_cons, ih]; rfl

/-- The loop body on a fresh transaction that votes. -/
theorem serialBody_eq {code : TxnPtr → TxnCode} {t : TxnPtr} {p : Processor} {b : Buffers}
    (hfresh : (p.txns t).Fresh)
    (hb : (code t).run (unrun (readAll p.storage.data (code t).keys)) = some b)
    (hv : b.Voted) :
    serialBody code t p = some { p with
      txns := Function.update p.txns t ⟨b.decided, (p.txns t).uniqueId, p.committedSize⟩
      storage := ⟨(code t).effect p.storage.data⟩
      completedTxns := p.completedTxns ++ [t]
      committedTxns := p.committedTxns ++ (if b.status = .completedC then [t] else [])
      txnResults := p.txnResults ++ [t] } := by
  rw [serialBody, executeTxn_eq p (code t) t hfresh, hb, TxnCode.effect_of_run hb]
  rcases hv with hst | hst
  · simp [commitOrAbort, hst, applyWrites_eq, modifyTxn, Buffers.decided]
  · simp [commitOrAbort, hst, modifyTxn, Buffers.decided]

end Processor

/-- The transaction ran on these reads and has ended accordingly. -/
def Settled (code : TxnPtr → TxnCode) (txns : TxnPtr → Txn) (o : TxnPtr × OrderedMap Key Value) :
    Prop :=
  ∃ b, (code o.1).run (unrun o.2) = some b ∧ (txns o.1).toBuffers = b.decided ∧ b.Voted

/-- What `l`, processed from `p₀` on, leaves behind. -/
structure Serialized (code : TxnPtr → TxnCode) (p₀ : Processor) (l : List TxnPtr)
    (p : Processor) : Prop where
  requests : p₀.txnRequests = l ++ p.txnRequests
  stopped : p.stopped = false
  data : p.storage.data = (machine code).exec l p₀.storage.data
  results : p.txnResults = l
  committed : p.committedTxns = l.filter fun t => (p.txns t).status = .committed
  others : ∀ t, t ∉ l → p.txns t = p₀.txns t
  -- Every transaction read the store as it was then and ran on that.
  outcomes : ∀ o ∈ (machine code).outcomes l p₀.storage.data, Settled code p.txns o
  starts : ∀ l₁ t l₂, l = l₁ ++ t :: l₂ → (p.txns t).occStartIdx =
    (l₁.filter fun u => (p.txns u).status = .committed).length

theorem Serialized.init {code : TxnPtr → TxnCode} {p : Processor} (hstop : p.stopped = false)
    (hres : p.txnResults = []) (hcom : p.committedTxns = []) : Serialized code p [] p where
  requests := rfl
  stopped := hstop
  data := rfl
  results := hres
  committed := hcom
  others _ _ := rfl
  outcomes o ho := absurd ho List.not_mem_nil
  starts l₁ t l₂ h := by simp at h

section Serial
variable {code : TxnPtr → TxnCode} {p₀ p : Processor} {l : List TxnPtr} {t : TxnPtr} {b : Buffers}

theorem filter_committed_update {x : Txn} (ht : t ∉ l) :
    (l.filter fun u => (Function.update p.txns t x u).status = .committed) =
      l.filter fun u => (p.txns u).status = .committed := by
  refine List.filter_congr fun u hu => ?_
  have hne : u ≠ t := fun heq => ht (heq ▸ hu)
  rw [Function.update_of_ne hne]

theorem decided_status (hv : b.Voted) :
    b.decided.status = .committed ↔ b.status = .completedC := by
  rcases hv with hst | hst <;> simp [Buffers.decided, hst]

theorem Serialized.step {q : List TxnPtr} (h : Serialized code p₀ l p)
    (hq : p.txnRequests = t :: q) (hnew : t ∉ l) (hlen : l.length ≤ CInt.intMax)
    (hfresh : (p₀.txns t).Fresh) (hvotes : (code t).AlwaysVotes) :
    ∃ p', Processor.serialBody code t { p with txnRequests := q } = some p' ∧
      p'.txnRequests = q ∧ Serialized code p₀ (l ++ [t]) p' := by
  obtain ⟨b, hb, hv⟩ := hvotes (readAll p.storage.data (code t).keys)
  have hx : (p.txns t).Fresh := (h.others t hnew) ▸ hfresh
  have hbody := Processor.serialBody_eq (p := { p with txnRequests := q }) hx hb hv
  refine ⟨_, hbody, rfl, ?_⟩
  have hcount : p.committedSize = (l.filter fun u => (p.txns u).status = .committed).length := by
    rw [Processor.committedSize, h.committed]
    refine CInt.toInt_of_le (Int.natCast_nonneg _) ?_
    have hle := List.length_filter_le (fun u => decide ((p.txns u).status = .committed)) l
    omega
  have hkeep : ∀ u, u ≠ t → Function.update p.txns t
      ⟨b.decided, (p.txns t).uniqueId, p.committedSize⟩ u = p.txns u := fun u hu =>
    Function.update_of_ne hu _ _
  constructor
  · rw [h.requests, hq, List.append_assoc]
    rfl
  · exact h.stopped
  · rw [Machine.exec_append, ← h.data]
    rfl
  · exact congrArg (· ++ [t]) h.results
  · show p.committedTxns ++ _ = _
    rw [List.filter_append, filter_committed_update hnew, ← h.committed]
    by_cases hst : b.status = .completedC <;> simp [hst, Buffers.decided]
  · intro u hu
    have hul : u ∉ l ∧ u ≠ t := by simpa using hu
    exact (hkeep u hul.2).trans (h.others u hul.1)
  · intro o ho
    rw [Machine.outcomes_append, ← h.data] at ho
    rcases List.mem_append.mp ho with hold | hlast
    · have hol : o.1 ∈ l := by
        rw [← (machine code).outcomes_map_fst l p₀.storage.data]
        exact List.mem_map_of_mem hold
      obtain ⟨b', hb', hend, hv'⟩ := h.outcomes o hold
      have hne : o.1 ≠ t := fun heq => hnew (heq ▸ hol)
      exact ⟨b', hb', (congrArg Txn.toBuffers (hkeep o.1 hne)).trans hend, hv'⟩
    · obtain rfl := List.mem_singleton.mp hlast
      refine ⟨b, hb, ?_, hv⟩
      exact congrArg Txn.toBuffers (Function.update_self t _ p.txns)
  · intro l₁ u l₂ heq
    rcases List.eq_nil_or_concat l₂ with rfl | ⟨l₂', a, rfl⟩
    · obtain ⟨rfl, htu⟩ := List.append_inj' heq rfl
      obtain rfl := List.singleton_inj.mp htu
      rw [filter_committed_update hnew, ← hcount]
      have hself := Function.update_self t
        (⟨b.decided, (p.txns t).uniqueId, p.committedSize⟩ : Txn) p.txns
      exact (congrArg Txn.occStartIdx hself :)
    · have hassoc : l ++ [t] = (l₁ ++ u :: l₂') ++ [a] := by simpa using heq
      obtain ⟨rfl, _⟩ := List.append_inj' hassoc rfl
      have hnew₁ : t ∉ l₁ := fun ht => hnew (List.mem_append_left _ ht)
      have hne : u ≠ t := fun hut => hnew (hut ▸ List.mem_append_right l₁ List.mem_cons_self)
      rw [filter_committed_update hnew₁, ← h.starts l₁ u l₂' rfl]
      exact congrArg Txn.occStartIdx (hkeep u hne)

theorem Serialized.run (h : Serialized code p₀ l p) (hnodup : p₀.txnRequests.Nodup)
    (hlen : p₀.txnRequests.length ≤ CInt.intMax)
    (hfresh : ∀ t ∈ p₀.txnRequests, (p₀.txns t).Fresh)
    (hvotes : ∀ t ∈ p₀.txnRequests, (code t).AlwaysVotes) (q₁ q₂ : List TxnPtr)
    (hq : p.txnRequests = q₁ ++ q₂) :
    ∃ p', Processor.runSerialScheduler code q₁.length p = some p' ∧
      p'.txnRequests = q₂ ∧ Serialized code p₀ (l ++ q₁) p' := by
  induction q₁ generalizing l p with
  | nil => exact ⟨p, rfl, hq, by simpa using h⟩
  | cons t q₁ ih =>
    have hreq : p₀.txnRequests = l ++ t :: (q₁ ++ q₂) := by rw [h.requests, hq, List.cons_append]
    have hmem : t ∈ p₀.txnRequests := by
      rw [hreq]
      exact List.mem_append_right l List.mem_cons_self
    have hnew : t ∉ l := fun ht =>
      (List.nodup_append.mp (hreq ▸ hnodup)).2.2 t ht t List.mem_cons_self rfl
    have hle : (l.length : Int) ≤ CInt.intMax := by
      refine le_trans ?_ hlen
      rw [hreq, List.length_append]
      omega
    obtain ⟨p₁, hbody, hq₁, hser⟩ := h.step hq hnew hle (hfresh t hmem) (hvotes t hmem)
    obtain ⟨p', hrun, hq', hser'⟩ := ih hser hq₁
    refine ⟨p', ?_, hq', by simpa using hser'⟩
    rw [List.length_cons, Processor.runSerialScheduler_cons h.stopped hq, hbody, Option.bind_some,
      hrun]

theorem runSerialScheduler_idle (hq : p.txnRequests = []) (n : Nat) :
    Processor.runSerialScheduler code n p = some p := by
  induction n with
  | zero => rfl
  | succ n ih => rw [Processor.runSerialScheduler_nil hq, ih, ite_self]

theorem runSerialScheduler_of_stopped (hstop : p.stopped = true) (n : Nat) :
    Processor.runSerialScheduler code n p = some p := by
  cases n with
  | zero => rfl
  | succ n => rw [Processor.runSerialScheduler, if_pos hstop]

theorem runSerialScheduler_add (m n : Nat) (p : Processor) :
    Processor.runSerialScheduler code (m + n) p =
      (Processor.runSerialScheduler code m p).bind (Processor.runSerialScheduler code n) := by
  induction m generalizing p with
  | zero => rw [Nat.zero_add]; rfl
  | succ m ih =>
    rw [Nat.succ_add]
    by_cases hstop : p.stopped = true
    · simp only [runSerialScheduler_of_stopped hstop, Option.bind_some]
    · have hstop' : p.stopped = false := by simpa using hstop
      cases hq : p.txnRequests with
      | nil =>
        rw [Processor.runSerialScheduler_nil hq, Processor.runSerialScheduler_nil hq, if_neg hstop,
          if_neg hstop, ih]
      | cons t q =>
        rw [Processor.runSerialScheduler_cons hstop' hq,
          Processor.runSerialScheduler_cons hstop' hq,
          Option.bind_assoc]
        congr 1
        funext p'
        exact ih p'

structure Submitted (ts : List TxnPtr) (p p₁ : Processor) : Prop where
  requests : p₁.txnRequests = p.txnRequests ++ ts
  buffers : ∀ t, (p₁.txns t).toBuffers = (p.txns t).toBuffers
  next : p₁.nextUniqueId = p.nextUniqueId + ts.length
  next_le : p.nextUniqueId ≤ CInt.intMax → p₁.nextUniqueId ≤ CInt.intMax
  storage : p₁.storage = p.storage
  results : p₁.txnResults = p.txnResults
  committed : p₁.committedTxns = p.committedTxns
  stopped : p₁.stopped = p.stopped

theorem submitted_of_submit {ts : List TxnPtr} {p p₁ : Processor}
    (h : Processor.submit ts p = some p₁) : Submitted ts p p₁ := by
  induction ts generalizing p with
  | nil =>
    obtain rfl : p = p₁ := by simpa [Processor.submit] using h
    exact ⟨by simp, fun _ => rfl, by simp, id, rfl, rfl, rfl, rfl⟩
  | cons t ts ih =>
    obtain ⟨p', hp', hrest⟩ : ∃ p', p.newTxnRequest t = some p' ∧
        Processor.submit ts p' = some p₁ := by
      simpa [Processor.submit, List.foldlM_cons, Option.bind_eq_some_iff] using h
    have hsub := ih hrest
    obtain ⟨hlt, rfl⟩ := Processor.newTxnRequest_eq_some.mp hp'
    refine ⟨?_, fun u => ?_, ?_, fun _ => hsub.next_le (Int.add_one_le_of_lt hlt), hsub.storage,
      hsub.results, hsub.committed, hsub.stopped⟩
    · rw [hsub.requests, List.append_assoc]
      rfl
    · rw [hsub.buffers]
      by_cases hu : u = t
      · subst hu
        simp
      · simp [Processor.modifyTxn_of_ne _ _ _ _ hu]
    · rw [hsub.next, List.length_cons]
      push_cast
      omega

theorem exists_submit {ts : List TxnPtr} {p : Processor}
    (h : p.nextUniqueId + ts.length ≤ CInt.intMax) : ∃ p₁, Processor.submit ts p = some p₁ := by
  induction ts generalizing p with
  | nil => exact ⟨p, rfl⟩
  | cons t ts ih =>
    rw [List.length_cons] at h
    push_cast at h
    have hlt : p.nextUniqueId < CInt.intMax := by omega
    obtain ⟨p', hp', hnext⟩ : ∃ p', p.newTxnRequest t = some p' ∧
        p'.nextUniqueId = p.nextUniqueId + 1 :=
      ⟨_, Processor.newTxnRequest_eq_some.mpr ⟨hlt, rfl⟩, rfl⟩
    obtain ⟨p₁, hp₁⟩ := ih (p := p') (by omega)
    exact ⟨p₁, by rw [Processor.submit, List.foldlM_cons, hp']; exact hp₁⟩

/-- The contents of the store after the committed transactions of the list. -/
def contents (txns : TxnPtr → Txn) (data : Key → Option Value) (l : List TxnPtr) :
    Key → Option Value :=
  assign ((l.filter fun t => (txns t).status = .committed).flatMap fun t =>
    (txns t).writes.entries) data

theorem exec_eq_contents {txns : TxnPtr → Txn} {data : Key → Option Value} {l : List TxnPtr}
    (h : ∀ o ∈ (machine code).outcomes l data, Settled code txns o) :
    (machine code).exec l data = contents txns data l := by
  induction l generalizing data with
  | nil => rfl
  | cons t l ih =>
    obtain ⟨b, hb, hend, hv⟩ := h _ List.mem_cons_self
    have hstatus : (txns t).status = .committed ↔ b.status = .completedC := by
      rw [← decided_status hv, ← hend]
    have hwrites : (txns t).writes = b.decided.writes := congrArg Buffers.writes hend
    rw [Machine.exec_cons, ih fun o ho => h o (List.mem_cons_of_mem _ ho)]
    show contents txns ((code t).effect data) l = _
    rw [TxnCode.effect_of_run hb]
    by_cases hst : b.status = .completedC
    · have hcom := hstatus.mpr hst
      simp [contents, hst, hcom, hwrites, assign_append, Buffers.decided]
    · have hcom : (txns t).status ≠ .committed := fun hc => hst (hstatus.mp hc)
      simp [contents, hst, hcom]

/-- What the loop body did with `t`, from the state `before` to the state `after` of a
run that ends in `final`: `Run` was given `reads` and left `vote`. -/
structure Processed (code : TxnPtr → TxnCode) (t : TxnPtr) (before after final : Processor)
    (reads : OrderedMap Key Value) (vote : Buffers) : Prop where
  lookup : ∀ k, reads.lookup k = if k ∈ (code t).keys then before.storage.read k else none
  run : (code t).run (unrun reads) = some vote
  voted : vote.Voted
  buffers : (final.txns t).reads = vote.reads ∧ (final.txns t).writes = vote.writes
  committed : (final.txns t).status = .committed ↔ vote.status = .completedC
  aborted : (final.txns t).status = .aborted ↔ vote.status = .completedA
  applied : vote.status = .completedC → ∀ k,
    after.storage.read k = (vote.writes.lookup k).or (before.storage.read k)
  undone : vote.status = .completedA → after.storage = before.storage

theorem Settled.processed {before after final : Processor} {t : TxnPtr}
    (h : Settled code final.txns (t, readAll before.storage.data (code t).keys))
    (hdata : after.storage.data = (code t).effect before.storage.data) :
    ∃ vote,
      Processed code t before after final (readAll before.storage.data (code t).keys) vote := by
  obtain ⟨b, hb, hend, hv⟩ := h
  have hfinal : (final.txns t).toBuffers = b.decided := hend
  have hstatus : (final.txns t).status = b.decided.status := congrArg Buffers.status hfinal
  have heffect : after.storage.data =
      if b.status = .completedC then assign b.writes.entries before.storage.data
      else before.storage.data := by
    rw [hdata, TxnCode.effect_of_run hb]
  refine ⟨b, lookup_readAll _ _, hb, hv,
    ⟨(congrArg Buffers.reads hfinal :), (congrArg Buffers.writes hfinal :)⟩,
    ?_, ?_, fun hst k => ?_, fun hst => ?_⟩
  · rw [hstatus, decided_status hv]
  · rw [hstatus]
    rcases hv with hst | hst <;> simp [Buffers.decided, hst]
  · rw [if_pos hst] at heffect
    rw [Storage.read, heffect]
    exact OrderedMap.assign_entries _ _ k
  · rw [if_neg (by simp [hst])] at heffect
    exact congrArg Storage.mk heffect

/-- The loop on the submitted list, stopped after any part of it. -/
theorem serialized_of_submit {ts : List TxnPtr} {txns : TxnPtr → Txn} {storage : Storage}
    {p₁ : Processor} (hts : ts.Nodup) (hfresh : ∀ t ∈ ts, (txns t).Fresh)
    (hvotes : ∀ t ∈ ts, (code t).AlwaysVotes)
    (hsub : Processor.submit ts (Processor.init txns storage) = some p₁) {l r : List TxnPtr}
    (heq : ts = l ++ r) : ∃ p, Processor.runSerialScheduler code l.length p₁ = some p ∧
      p.txnRequests = r ∧ Serialized code p₁ l p := by
  have hs := submitted_of_submit hsub
  have hreq : p₁.txnRequests = ts := hs.requests
  have hser : Serialized code p₁ [] p₁ := Serialized.init hs.stopped hs.results hs.committed
  have hnodup : p₁.txnRequests.Nodup := hreq ▸ hts
  have hlen : (p₁.txnRequests.length : Int) ≤ CInt.intMax := by
    have hle := hs.next_le (by decide : (1 : Int) ≤ CInt.intMax)
    have hnext : p₁.nextUniqueId = 1 + ts.length := hs.next
    rw [hreq]
    omega
  have hfresh' : ∀ t ∈ p₁.txnRequests, (p₁.txns t).Fresh := fun t ht =>
    (hs.buffers t).trans (hfresh t (hreq ▸ ht))
  have hvotes' : ∀ t ∈ p₁.txnRequests, (code t).AlwaysVotes := fun t ht => hvotes t (hreq ▸ ht)
  exact hser.run hnodup hlen hfresh' hvotes' l r (hreq.trans heq)

theorem runSerialScheduler_of_le {n m : Nat} {q : Processor} (hn : n ≤ m)
    (h : Processor.runSerialScheduler code n p = some q) (hq : q.txnRequests = []) :
    Processor.runSerialScheduler code m p = some q := by
  obtain ⟨k, rfl⟩ := Nat.exists_eq_add_of_le hn
  rw [runSerialScheduler_add, h, Option.bind_some, runSerialScheduler_idle hq]

/-- RunSerialScheduler is a sequential transaction machine with all-or-nothing effects. -/
theorem serial_machine {ts : List TxnPtr} {txns : TxnPtr → Txn} {storage : Storage}
    {p₁ : Processor} (hts : ts.Nodup) (hfresh : ∀ t ∈ ts, (txns t).Fresh)
    (hvotes : ∀ t ∈ ts, (code t).AlwaysVotes)
    (hsub : Processor.submit ts (Processor.init txns storage) = some p₁) :
    ∃ final, (∀ n, ts.length ≤ n → Processor.runSerialScheduler code n p₁ = some final) ∧
      final.txnResults = ts ∧
      final.committedTxns = ts.filter (fun t => (final.txns t).status = .committed) ∧
      ∀ l t r, ts = l ++ t :: r → ∃ before after reads vote,
        Processor.runSerialScheduler code l.length p₁ = some before ∧
        Processor.runSerialScheduler code (l.length + 1) p₁ = some after ∧
        before.storage.data = contents final.txns storage.data l ∧
        Processed code t before after final reads vote ∧
        (final.txns t).occStartIdx =
          (l.filter fun u => (final.txns u).status = .committed).length := by
  have hrun := @serialized_of_submit code ts txns storage p₁ hts hfresh hvotes hsub
  have hstorage : p₁.storage = storage := (submitted_of_submit hsub).storage
  obtain ⟨final, hfin, hqf, hserf⟩ := hrun (List.append_nil ts).symm
  refine ⟨final, fun n hn => runSerialScheduler_of_le hn hfin hqf, hserf.results, hserf.committed,
    fun l t r heq => ?_⟩
  obtain ⟨before, hbefore, _, hserb⟩ := hrun heq
  obtain ⟨after, hafter, _, hsera⟩ := hrun (l := l ++ [t]) (r := r) (by rw [heq]; simp)
  have hsettled := hserf.outcomes
  rw [heq, Machine.outcomes_append] at hsettled
  have hdata : before.storage.data = (machine code).exec l p₁.storage.data := hserb.data
  have hdata' : after.storage.data = (code t).effect before.storage.data := by
    rw [hsera.data, Machine.exec_append, ← hdata]
    rfl
  have hset : Settled code final.txns (t, readAll before.storage.data (code t).keys) := by
    rw [hdata]
    exact hsettled _ (List.mem_append_right _ List.mem_cons_self)
  obtain ⟨vote, hproc⟩ := hset.processed hdata'
  refine ⟨before, after, _, vote, hbefore, by simpa using hafter, ?_, hproc,
    hserf.starts l t r heq⟩
  rw [hdata, hstorage]
  refine exec_eq_contents fun o ho => hsettled o (List.mem_append_left _ ?_)
  rwa [hstorage]

theorem serial_machine_rmw : ∃ p₁ final,
    Processor.submit [0, 1] (Processor.init (fun _ => ⟨unrun .empty, 0, 0⟩) ⟨fun _ => some 2⟩) =
      some p₁ ∧
    Processor.runSerialScheduler (fun _ => rmw (.singleton 5) (.singleton 6)) 2 p₁ = some final ∧
    final.txnResults = [0, 1] := by
  obtain ⟨p₁, hsub⟩ : ∃ p₁, Processor.submit [0, 1]
      (Processor.init (fun _ => ⟨unrun .empty, 0, 0⟩) ⟨fun _ => some 2⟩) = some p₁ :=
    exists_submit (by decide)
  obtain ⟨final, hrun, hres, _⟩ := serial_machine (by decide) (fun _ _ => by rfl)
    (fun _ _ => (rmw_votes (.singleton 5) (.singleton 6)).1) hsub
  exact ⟨p₁, final, hsub, hrun 2 le_rfl, hres⟩

end Serial

end Cmsc624.A2
