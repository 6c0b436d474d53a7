import Cmsc624.A2.Overlay

/-!
# What the shipped transaction types mean

Noop, Put, Expect and RMW as functions on the contents of the store. A serial history over
the store of `InitStorage` is a fold of these functions, and each transaction is committed
or aborted as its meaning says.
-/

namespace Cmsc624.A2

open Lib

set_option autoImplicit false

namespace Storage

/-- The first `n` passes of the loop of `InitStorage`. -/
def initKeys (n : Nat) (s : Storage) : Storage :=
  (List.range n).foldl (fun s i => s.write (UInt64.ofNat i) 0 0) s

def initStorage (s : Storage) : Storage := initKeys 1000000 s

/-- No `int` of the loop is converted to the key of another one. -/
theorem initKeys_data {n : Nat} (hn : n ≤ 2 ^ 64) (s : Storage) (k : Key) :
    (initKeys n s).data k = if k.toNat < n then some 0 else s.data k := by
  induction n with
  | zero => rfl
  | succ n ih =>
    have hstep : initKeys (n + 1) s = (initKeys n s).write (UInt64.ofNat n) 0 0 := by
      rw [initKeys, List.range_succ, List.foldl_append]
      rfl
    have hnat : (UInt64.ofNat n).toNat = n := UInt64.toNat_ofNat_of_lt' hn
    rw [hstep, write_data]
    by_cases hk : k = UInt64.ofNat n
    · rw [hk, Function.update_self, hnat, if_pos (Nat.lt_succ_self n)]
    · have hne : k.toNat ≠ n := fun h => hk (UInt64.toNat_inj.mp (h.trans hnat.symm))
      rw [Function.update_of_ne hk, ih (Nat.le_of_succ_le hn)]
      by_cases hlt : k.toNat < n
      · rw [if_pos hlt, if_pos (Nat.lt_succ_of_lt hlt)]
      · rw [if_neg hlt, if_neg (by omega)]

end Storage

/-- The contents that `InitStorage` leaves in a new store. -/
def initialData (k : Key) : Option Value := if k.toNat < 1000000 then some 0 else none

theorem initStorage_data : (Storage.initStorage ⟨fun _ => none⟩).data = initialData := by
  funext k
  rw [Storage.initStorage, Storage.initKeys_data (by decide), initialData]

namespace TxnType

/-- What the transaction makes of the contents of the store. -/
def meaning : TxnType → (Key → Option Value) → Key → Option Value
  | .noop, data => data
  | .put m, data => fun k => (m.lookup k).or (data k)
  | .expect _, data => data
  | .rmw _ writeset, data => fun k =>
      if k ∈ writeset then some ((data k).getD 0 + 1) else data k

def commits : TxnType → (Key → Option Value) → Bool
  | .expect m, data => m.entries.all fun e => data e.1 = some e.2
  | _, _ => true

def Writes (k : Key) : TxnType → Prop
  | .put m => k ∈ m.keySet
  | .rmw _ writeset => k ∈ writeset
  | _ => False

def putProgram : List (Key × Value) → Program Key Value
  | [] => .finish true
  | e :: es => .write e.1 e.2 (putProgram es)

def expectProgram : List (Key × Value) → Program Key Value
  | [] => .finish true
  | e :: es => .read e.1 fun result => if result = some e.2 then expectProgram es else .finish false

def incrementProgram : List Key → Program Key Value
  | [] => .finish true
  | k :: ks => .read k fun result => .write k (result.getD 0 + 1) (incrementProgram ks)

/-- The loop over the read set, and then the one over the write set. -/
def rmwProgram : List Key → List Key → Program Key Value
  | [], ks => incrementProgram ks
  | k :: rs, ks => .read k fun _ => rmwProgram rs ks

def readset : TxnType → OrderedSet Key
  | .expect m => m.keySet
  | .rmw readset _ => readset
  | _ => .empty

def writeset : TxnType → OrderedSet Key
  | .put m => m.keySet
  | .rmw _ writeset => writeset
  | _ => .empty

def program : TxnType → Program Key Value
  | .noop => .finish true
  | .put m => putProgram m.entries
  | .expect m => expectProgram m.entries
  | .rmw readset writeset => rmwProgram readset.toList writeset.toList

end TxnType

section Programs
variable {readset writeset : OrderedSet Key} {b : Buffers}

theorem put_code_run (writeset : OrderedSet Key) (es : List (Key × Value)) (b : Buffers) :
    (es.foldlM (fun (b : Buffers) e => b.write writeset e.1 e.2) b).map Buffers.commit =
      (programCode .empty writeset (TxnType.putProgram es)).run b := by
  induction es generalizing b with
  | nil => rfl
  | cons e es ih =>
    rw [TxnType.putProgram, programCode_write, List.foldlM_cons]
    show Option.map _ (Option.bind _ _) = _
    rw [Option.map_bind]
    apply Option.bind_congr
    intro b' _
    exact ih b'

theorem expect_code_run (readset : OrderedSet Key) (es : List (Key × Value)) (b : Buffers) :
    expectRun readset es b = (programCode readset .empty (TxnType.expectProgram es)).run b := by
  induction es with
  | nil => rfl
  | cons e es ih =>
    rw [TxnType.expectProgram, programCode_read, expectRun]
    apply Option.bind_congr
    intro result _
    split
    · exact ih
    · rfl

theorem increment_code_run (ks : List Key) (b : Buffers) :
    (ks.foldlM (increment readset writeset) b).map Buffers.commit =
      (programCode readset writeset (TxnType.incrementProgram ks)).run b := by
  induction ks generalizing b with
  | nil => rfl
  | cons k ks ih =>
    rw [TxnType.incrementProgram, programCode_read, List.foldlM_cons]
    show Option.map _ (Option.bind (Option.bind _ _) _) = _
    rw [Option.bind_assoc, Option.map_bind]
    apply Option.bind_congr
    intro result _
    rw [Function.comp_apply, Option.map_bind, programCode_write]
    apply Option.bind_congr
    intro b' _
    exact ih b'

theorem rmw_code_run (rs ks : List Key) (b : Buffers) :
    ((rs.foldlM (lookAt readset writeset) b).bind fun b =>
      (ks.foldlM (increment readset writeset) b).map Buffers.commit) =
      (programCode readset writeset (TxnType.rmwProgram rs ks)).run b := by
  induction rs generalizing b with
  | nil => exact increment_code_run ks b
  | cons k rs ih =>
    rw [TxnType.rmwProgram, programCode_read, List.foldlM_cons]
    show Option.bind (Option.bind _ _) _ = _
    rw [Option.bind_assoc, lookAt, Option.bind_map]
    apply Option.bind_congr
    intro result _
    exact ih b

theorem TxnType.code_eq (type : TxnType) :
    type.code = programCode type.readset type.writeset type.program := by
  cases type with
  | noop => rfl
  | put m => exact congrArg (TxnCode.mk _ _) (funext (put_code_run m.keySet m.entries))
  | expect m => exact congrArg (TxnCode.mk _ _) (funext (expect_code_run m.keySet m.entries))
  | rmw readset writeset =>
    exact congrArg (TxnCode.mk _ _) (funext (rmw_code_run readset.toList writeset.toList))

theorem put_declared {es : List (Key × Value)} (h : ∀ e ∈ es, e.1 ∈ writeset) :
    Declared readset writeset (TxnType.putProgram es) := by
  induction es with
  | nil => trivial
  | cons e es ih => exact ⟨h e List.mem_cons_self, ih fun x hx => h x (List.mem_cons_of_mem e hx)⟩

theorem expect_declared {es : List (Key × Value)} (h : ∀ e ∈ es, e.1 ∈ readset) :
    Declared readset writeset (TxnType.expectProgram es) := by
  induction es with
  | nil => trivial
  | cons e es ih =>
    refine ⟨Or.inl (h e List.mem_cons_self), fun result => ?_⟩
    show Declared readset writeset
      (if result = some e.2 then TxnType.expectProgram es else .finish false)
    split
    · exact ih fun x hx => h x (List.mem_cons_of_mem e hx)
    · trivial

theorem increment_declared {ks : List Key} (h : ∀ k ∈ ks, k ∈ writeset) :
    Declared readset writeset (TxnType.incrementProgram ks) := by
  induction ks with
  | nil => trivial
  | cons k ks ih =>
    have hk := h k List.mem_cons_self
    exact ⟨Or.inr hk, fun _ => ⟨hk, ih fun x hx => h x (List.mem_cons_of_mem k hx)⟩⟩

theorem rmw_declared {rs ks : List Key} (hr : ∀ k ∈ rs, k ∈ readset)
    (hw : ∀ k ∈ ks, k ∈ writeset) :
    Declared readset writeset (TxnType.rmwProgram rs ks) := by
  induction rs with
  | nil => exact increment_declared hw
  | cons k rs ih =>
    refine ⟨Or.inl (hr k List.mem_cons_self), fun _ => ?_⟩
    exact ih fun x hx => hr x (List.mem_cons_of_mem k hx)

theorem TxnType.program_declared (type : TxnType) :
    Declared type.readset type.writeset type.program := by
  cases type with
  | noop => trivial
  | put m => exact put_declared fun e he => List.mem_map_of_mem he
  | expect m => exact expect_declared fun e he => List.mem_map_of_mem he
  | rmw readset writeset => exact rmw_declared (fun _ h => h) fun _ h => h

theorem put_direct (es : List (Key × Value)) (data : Key → Option Value) : ∃ log,
    (TxnType.putProgram es).exec (inPlace 0) ⟨data⟩ = some ⟨log, true, ⟨assign es data⟩⟩ := by
  induction es generalizing data with
  | nil => exact ⟨[], rfl⟩
  | cons e es ih =>
    obtain ⟨log, hlog⟩ := ih (Function.update data e.1 (some e.2))
    have hwrite : (inPlace 0).write ⟨data⟩ e.1 e.2 =
        some ⟨Function.update data e.1 (some e.2)⟩ := rfl
    exact ⟨_, by rw [TxnType.putProgram, Program.exec, hwrite, Option.bind_some, hlog]; rfl⟩

theorem expect_direct (es : List (Key × Value)) (data : Key → Option Value) : ∃ log,
    (TxnType.expectProgram es).exec (inPlace 0) ⟨data⟩ =
      some ⟨log, es.all fun e => data e.1 = some e.2, ⟨data⟩⟩ := by
  induction es with
  | nil => exact ⟨[], rfl⟩
  | cons e es ih =>
    obtain ⟨log, hlog⟩ := ih
    have hread : (inPlace 0).read ⟨data⟩ e.1 = some (data e.1) := rfl
    rw [TxnType.expectProgram, Program.exec, hread, Option.bind_some, List.all_cons]
    by_cases he : data e.1 = some e.2
    · rw [if_pos he, hlog, decide_eq_true he, Bool.true_and]
      exact ⟨_, rfl⟩
    · rw [if_neg he, decide_eq_false he, Bool.false_and]
      exact ⟨_, rfl⟩

theorem increment_direct {ks : List Key} (hks : ks.Nodup) (data : Key → Option Value) : ∃ log,
    (TxnType.incrementProgram ks).exec (inPlace 0) ⟨data⟩ = some ⟨log, true,
      ⟨fun k => if k ∈ ks then some ((data k).getD 0 + 1) else data k⟩⟩ := by
  induction ks generalizing data with
  | nil => exact ⟨[], rfl⟩
  | cons k ks ih =>
    obtain ⟨hk, hks⟩ := List.nodup_cons.mp hks
    obtain ⟨log, hlog⟩ := ih hks (Function.update data k (some ((data k).getD 0 + 1)))
    have hread : (inPlace 0).read ⟨data⟩ k = some (data k) := rfl
    have hwrite : (inPlace 0).write ⟨data⟩ k ((data k).getD 0 + 1) =
        some ⟨Function.update data k (some ((data k).getD 0 + 1))⟩ := rfl
    have hdata : (fun j => if j ∈ ks then
          some ((Function.update data k (some ((data k).getD 0 + 1)) j).getD 0 + 1)
        else Function.update data k (some ((data k).getD 0 + 1)) j) =
        fun j => if j ∈ k :: ks then some ((data j).getD 0 + 1) else data j := by
      funext j
      by_cases hj : j = k
      · subst hj
        rw [if_neg hk, if_pos List.mem_cons_self, Function.update_self]
      · rw [Function.update_of_ne hj]
        simp [hj]
    rw [hdata] at hlog
    rw [TxnType.incrementProgram, Program.exec, hread, Option.bind_some, Program.exec, hwrite,
      Option.bind_some, hlog]
    exact ⟨_, rfl⟩

theorem rmw_direct (rs : List Key) {ks : List Key} (hks : ks.Nodup) (data : Key → Option Value) :
    ∃ log, (TxnType.rmwProgram rs ks).exec (inPlace 0) ⟨data⟩ = some ⟨log, true,
      ⟨fun k => if k ∈ ks then some ((data k).getD 0 + 1) else data k⟩⟩ := by
  induction rs with
  | nil => exact increment_direct hks data
  | cons k rs ih =>
    obtain ⟨log, hlog⟩ := ih
    have hread : (inPlace 0).read ⟨data⟩ k = some (data k) := rfl
    rw [TxnType.rmwProgram, Program.exec, hread, Option.bind_some, hlog]
    exact ⟨_, rfl⟩

theorem TxnType.direct (type : TxnType) (data : Key → Option Value) : ∃ log,
    type.program.exec (inPlace 0) ⟨data⟩ =
      some ⟨log, type.commits data, ⟨type.meaning data⟩⟩ := by
  cases type with
  | noop => exact ⟨[], rfl⟩
  | put m =>
    have hassign : assign m.entries data = (TxnType.put m).meaning data :=
      funext (m.assign_entries data)
    rw [← hassign]
    exact put_direct m.entries data
  | expect m => exact expect_direct m.entries data
  | rmw readset writeset => exact rmw_direct readset.toList writeset.nodup data

theorem TxnType.meaning_of_abort {type : TxnType} {data : Key → Option Value}
    (h : type.commits data = false) : type.meaning data = data := by
  cases type with
  | expect m => rfl
  | noop | put m | rmw readset writeset => cases h

/-- `Run` after the reads of `ExecuteTxn` votes as it should, and has the effect it should. -/
theorem TxnType.run_spec (type : TxnType) (data : Key → Option Value) : ∃ b,
    type.code.run (unrun (readAll data type.code.keys)) = some b ∧
    b.status = (if type.commits data then .completedC else .completedA) ∧
    type.code.effect data = type.meaning data := by
  obtain ⟨log, vote, b, s, hbuffered, hdirect, hover⟩ :=
    exec_direct type.program_declared 0 ⟨data⟩
  obtain ⟨log', hlog⟩ := type.direct data
  obtain ⟨-, rfl, rfl⟩ := Outcome.mk.inj (Option.some.inj (hlog.symm.trans hdirect))
  have hrun : type.code.run (unrun (readAll data type.code.keys)) =
      some (if type.commits data then b.commit else b.abort) := by
    rw [type.code_eq, programCode_run, hbuffered]
    rfl
  refine ⟨_, hrun, ?_, ?_⟩
  · split
    · rfl
    · rfl
  · rw [TxnCode.effect_of_run hrun]
    cases hcommits : type.commits data with
    | true => exact hover.applied
    | false => exact (TxnType.meaning_of_abort hcommits).symm

end Programs

/-- The contents of the store after the transactions of the list. -/
def reference (type : TxnPtr → TxnType) (l : List TxnPtr) (data : Key → Option Value) :
    Key → Option Value :=
  l.foldl (fun data t => (type t).meaning data) data

/-- The status of a transaction that runs on these contents. -/
def TxnType.ending (type : TxnType) (data : Key → Option Value) : TxnStatus :=
  if type.commits data then .committed else .aborted

/-- What the scheduler has made of the first transactions `l` of the queue. -/
structure Referenced (type : TxnPtr → TxnType) (data : Key → Option Value) (l q : List TxnPtr)
    (p : Processor) : Prop where
  requests : p.txnRequests = q
  stopped : p.stopped = false
  data_eq : p.storage.data = reference type l data
  status : ∀ l₁ t l₂, l = l₁ ++ t :: l₂ →
    (p.txns t).status = (type t).ending (reference type l₁ data)
  fresh : ∀ t ∈ q, (p.txns t).Fresh

section Serial
variable {type : TxnPtr → TxnType} {data : Key → Option Value} {l q : List TxnPtr} {t : TxnPtr}
  {p : Processor} {m : OrderedMap Key Value} {k : Key}

theorem Referenced.step (h : Referenced type data l (t :: q) p) (ht : t ∉ l) (hq : t ∉ q) :
    ∃ p', Processor.serialBody (fun t => (type t).code) t { p with txnRequests := q } = some p' ∧
      Referenced type data (l ++ [t]) q p' := by
  obtain ⟨b, hb, hstatus, heffect⟩ := (type t).run_spec p.storage.data
  have hv : b.Voted := by
    rw [Buffers.Voted, hstatus]
    split
    · exact Or.inl rfl
    · exact Or.inr rfl
  have hfresh : (p.txns t).Fresh := h.fresh t List.mem_cons_self
  have hbody : Processor.serialBody (fun t => (type t).code) t { p with txnRequests := q } = _ :=
    Processor.serialBody_eq (p := { p with txnRequests := q }) hfresh hb hv
  refine ⟨_, hbody, rfl, h.stopped, ?_, ?_, ?_⟩
  · show (type t).code.effect p.storage.data = _
    rw [heffect, h.data_eq, reference, reference, List.foldl_append]
    rfl
  · intro l₁ u l₂ heq
    show (Function.update p.txns t _ u).status = _
    rcases List.eq_nil_or_concat l₂ with rfl | ⟨l₂', a, rfl⟩
    · obtain ⟨rfl, htu⟩ := List.append_inj' heq rfl
      obtain rfl := List.singleton_inj.mp htu
      rw [Function.update_self, ← h.data_eq]
      show b.decided.status = _
      rw [Buffers.decided, hstatus, TxnType.ending]
      cases (type t).commits p.storage.data with
      | true => rfl
      | false => rfl
    · have hassoc : l ++ [t] = (l₁ ++ u :: l₂') ++ [a] := by simpa using heq
      obtain ⟨rfl, _⟩ := List.append_inj' hassoc rfl
      have hne : u ≠ t := fun hut => ht (hut ▸ List.mem_append_right l₁ List.mem_cons_self)
      rw [Function.update_of_ne hne]
      exact h.status l₁ u l₂' rfl
  · intro u hu
    have hne : u ≠ t := fun hut => hq (hut ▸ hu)
    show (Function.update p.txns t _ u).Fresh
    rw [Function.update_of_ne hne]
    exact h.fresh u (List.mem_cons_of_mem t hu)

theorem Referenced.run (h : Referenced type data l q p) (hnodup : (l ++ q).Nodup) (n : Nat) :
    ∃ p', Processor.runSerialScheduler (fun t => (type t).code) n p = some p' ∧
      Referenced type data (l ++ q.take n) (q.drop n) p' := by
  induction n generalizing l q p with
  | zero =>
    rw [List.take_zero, List.append_nil]
    exact ⟨p, rfl, h⟩
  | succ n ih =>
    cases q with
    | nil =>
      refine ⟨p, runSerialScheduler_idle h.requests _, ?_⟩
      rw [List.take_nil, List.append_nil]
      exact h
    | cons t q =>
      have hsplit := List.nodup_append.mp hnodup
      have ht : t ∉ l := fun htl => hsplit.2.2 t htl t List.mem_cons_self rfl
      obtain ⟨p₁, hbody, h₁⟩ := h.step ht (List.nodup_cons.mp hsplit.2.1).1
      have hassoc : l ++ t :: q = (l ++ [t]) ++ q := by rw [List.append_assoc]; rfl
      obtain ⟨p', hrun, h'⟩ := ih h₁ (hassoc ▸ hnodup)
      rw [List.append_assoc] at h'
      refine ⟨p', ?_, h'⟩
      rw [Processor.runSerialScheduler_cons h.stopped h.requests, hbody, Option.bind_some, hrun]

theorem meaning_of_not_writes {type : TxnType} (h : ¬type.Writes k) :
    type.meaning data k = data k := by
  cases type with
  | noop => rfl
  | expect m => rfl
  | put m =>
    have hnone : m.lookup k = none := lookupEntry_eq_none_iff.mpr h
    show (m.lookup k).or (data k) = data k
    rw [hnone]
    rfl
  | rmw readset writeset => exact if_neg h

theorem reference_of_not_writes (h : ∀ t ∈ l, ¬(type t).Writes k) :
    reference type l data k = data k := by
  induction l generalizing data with
  | nil => rfl
  | cons t l ih =>
    rw [reference, List.foldl_cons]
    have hrest := @ih ((type t).meaning data) fun u hu => h u (List.mem_cons_of_mem t hu)
    exact hrest.trans (meaning_of_not_writes (h t List.mem_cons_self))

/-- What was put is expected as long as nobody has written it. -/
theorem commits_after_put (ht : type t = .put m)
    (h : ∀ u ∈ l, ∀ k ∈ m.keySet, ¬(type u).Writes k) :
    (TxnType.expect m).commits (reference type l ((type t).meaning data)) = true := by
  show m.entries.all _ = true
  rw [List.all_eq_true]
  intro e he
  have hkey : e.1 ∈ m.keySet := List.mem_map_of_mem he
  rw [decide_eq_true_iff, reference_of_not_writes fun u hu => h u hu e.1 hkey, ht]
  show (m.lookup e.1).or (data e.1) = some e.2
  rw [OrderedMap.lookup, lookupEntry_of_mem m.sorted he]
  rfl

theorem take_split {i n : Nat} (hin : i < n) (ht : q[i]? = some t) :
    q.take n = q.take i ++ t :: (q.take n).drop (i + 1) := by
  have hi : i < (q.take n).length := by
    have hlt := (List.getElem?_eq_some_iff.mp ht).1
    rw [List.length_take]
    omega
  have hget : (q.take n)[i] = t := by
    rw [List.getElem_take]
    exact (List.getElem?_eq_some_iff.mp ht).2
  have hdrop := List.drop_eq_getElem_cons hi
  rw [hget] at hdrop
  have htake : (q.take n).take i = q.take i := by
    rw [List.take_take, Nat.min_eq_left (Nat.le_of_lt hin)]
  rw [← hdrop, ← htake]
  exact (List.take_append_drop i (q.take n)).symm

theorem mem_between {i j : Nat} (ht : t ∈ (q.take j).drop (i + 1)) :
    ∃ l, i < l ∧ l < j ∧ q[l]? = some t := by
  obtain ⟨l, hl⟩ := List.getElem?_of_mem ht
  rw [List.getElem?_drop] at hl
  have hlt : i + 1 + l < j := by
    have hlt := (List.getElem?_eq_some_iff.mp hl).1
    rw [List.length_take] at hlt
    omega
  rw [List.getElem?_take_of_lt hlt] at hl
  exact ⟨i + 1 + l, by omega, hlt, hl⟩

/-- Serial histories of the shipped types over the store of `InitStorage`. -/
theorem serial_reference {ts : List TxnPtr} (hts : ts.Nodup) (hq : p.txnRequests = ts)
    (hstorage : p.storage = Storage.initStorage ⟨fun _ => none⟩) (hstop : p.stopped = false)
    (hfresh : ∀ t ∈ ts, (p.txns t).Fresh) (n : Nat) :
    ∃ p', Processor.runSerialScheduler (fun t => (type t).code) n p = some p' ∧
      p'.storage.data = reference type (ts.take n) initialData ∧
      (∀ (i : Nat) t, i < n → ts[i]? = some t → (p'.txns t).status =
        if (type t).commits (reference type (ts.take i) initialData) then .committed
        else .aborted) ∧
      ∀ (i j : Nat) t u m, i < j → j < n → ts[i]? = some t → ts[j]? = some u →
        type t = .put m → type u = .expect m →
        (∀ (l : Nat) v, i < l → l < j → ts[l]? = some v → ∀ k ∈ m.keySet, ¬(type v).Writes k) →
        (p'.txns u).status = .committed := by
  have hinit : Referenced type initialData [] ts p := by
    refine ⟨hq, hstop, ?_, ?_, hfresh⟩
    · rw [hstorage, initStorage_data]
      rfl
    · intro l₁ t l₂ h
      cases List.append_eq_nil_iff.mp h.symm with
      | intro _ hcons => cases hcons
  obtain ⟨p', hrun, hp'⟩ := hinit.run hts n
  rw [List.nil_append] at hp'
  have hstatus : ∀ (i : Nat) t, i < n → ts[i]? = some t →
      (p'.txns t).status = (type t).ending (reference type (ts.take i) initialData) := by
    intro i t hi ht
    exact hp'.status _ t _ (take_split hi ht)
  refine ⟨p', hrun, hp'.data_eq, hstatus, ?_⟩
  intro i j t u m hij hj ht hu hput hexpect hbetween
  rw [hstatus j u hj hu, TxnType.ending, hexpect, take_split hij ht, reference, List.foldl_append,
    List.foldl_cons]
  refine if_pos (commits_after_put hput ?_)
  intro v hv
  obtain ⟨l, hil, hlj, hl⟩ := mem_between hv
  exact hbetween l v hil hlj hl

end Serial

/-- A Put and an Expect of the same pair. -/
theorem serial_reference_put : ∃ p p' : Processor, ∃ m : OrderedMap Key Value,
    let type : TxnPtr → TxnType := fun t => if t = 0 then .put m else .expect m
    Processor.runSerialScheduler (fun t => (type t).code) 2 p = some p' ∧
      (p'.txns 0).status = .committed ∧ (p'.txns 1).status = .committed := by
  let m : OrderedMap Key Value := OrderedMap.empty.insert 3 7
  let type : TxnPtr → TxnType := fun t => if t = 0 then .put m else .expect m
  obtain ⟨store, hstore⟩ : ∃ store, store = Storage.initStorage ⟨fun _ => none⟩ := ⟨_, rfl⟩
  let p : Processor :=
    { Processor.init (fun _ => ⟨unrun .empty, 0, 0⟩) store with txnRequests := [0, 1] }
  obtain ⟨p', hrun, _, hstatus, hafter⟩ :=
    @serial_reference type p [0, 1] (by decide) rfl hstore rfl (fun _ _ => rfl) 2
  refine ⟨p, p', m, hrun, hstatus 0 0 (by decide) rfl, ?_⟩
  apply hafter 0 1 0 1 m (by decide) (by decide) rfl rfl rfl rfl
  intro l v hl hl'
  omega

end Cmsc624.A2
