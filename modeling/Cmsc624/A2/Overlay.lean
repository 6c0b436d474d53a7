import Cmsc624.A2.SerialScheduler
import Cmsc624.Lib.Program
import Cmsc624.Lib.Tagged

/-!
# Buffered execution

`Run` of any transaction is a program of calls of `Txn::Read` and `Txn::Write`. On the
buffers of the transaction, filled by `ExecuteTxn`, it does what it would do on the store
itself, and `ApplyWrites` leaves the store that it would leave.
-/

namespace Cmsc624.A2

open Lib

set_option autoImplicit false

/-- `Txn::Read` and `Txn::Write` during `Run`. -/
def buffered (readset writeset : OrderedSet Key) : Memory Key Value Buffers where
  read b key := b.read readset writeset key
  write b key value := b.write writeset key value

def inPlace (txnUniqueId : Int) : Memory Key Value Storage where
  read s key := some (s.read key)
  write s key value := some (s.write key value txnUniqueId)

/-- A transaction whose `Run` is the program. -/
def programCode (readset writeset : OrderedSet Key) (prog : Program Key Value) : TxnCode where
  readset := readset
  writeset := writeset
  run b := (prog.exec (buffered readset writeset) b).map fun o =>
    if o.vote then o.memory.commit else o.memory.abort

/-- The program reads declared keys and writes keys of the write set. -/
def Declared (readset writeset : OrderedSet Key) : Program Key Value → Prop :=
  Program.Within (fun key => key ∈ readset ∨ key ∈ writeset) (· ∈ writeset)

def lastWrite (log : List (Access Key Value)) (key : Key) : Option Value :=
  (onChannel (writesOf log) key).getLast?

/-- The buffers over the old contents of the store show its contents in place. -/
structure Overlays (readset writeset : OrderedSet Key) (old : Key → Option Value) (b : Buffers)
    (s : Storage) : Prop where
  incomplete : b.status = .incomplete
  reads : ∀ key, key ∈ readset ∨ key ∈ writeset → b.reads.lookup key = s.data key
  writes : ∀ key, (b.writes.lookup key).or (old key) = s.data key

structure Buffered (writeset : OrderedSet Key) (log : List (Access Key Value)) (b : Buffers) :
    Prop where
  incomplete : b.status = .incomplete
  declared : ∀ key ∈ b.writes.keys, key ∈ writeset
  last : ∀ key, b.writes.lookup key = lastWrite log key
  agree : ∀ key ∈ b.writes.keys, b.reads.lookup key = b.writes.lookup key

section Overlay
variable {readset writeset : OrderedSet Key} {old : Key → Option Value} {b b' : Buffers}
  {s : Storage} {key : Key} {value : Value} {log : List (Access Key Value)}
  {prog : Program Key Value}

theorem Buffers.read_of_incomplete (hb : b.status = .incomplete)
    (hkey : key ∈ readset ∨ key ∈ writeset) :
    b.read readset writeset key = some (b.reads.lookup key) := by
  unfold Buffers.read
  rw [if_neg (by tauto), if_neg (not_not_intro hb)]

theorem Buffers.write_of_incomplete (hb : b.status = .incomplete) (hkey : key ∈ writeset)
    (value : Value) : b.write writeset key value =
      some { b with writes := b.writes.insert key value, reads := b.reads.insert key value } := by
  unfold Buffers.write
  rw [if_neg (not_not_intro hkey), if_neg (not_not_intro hb)]

theorem Processor.executeTxn_run {p : Processor} {c : TxnCode} {t : TxnPtr}
    (hfresh : (p.txns t).Fresh) (hrun : c.run (unrun (readAll p.storage.data c.keys)) = some b) :
    ∃ p₁, p.executeTxn c t = some p₁ ∧ (p₁.txns t).toBuffers = b ∧ p₁.storage = p.storage := by
  have hexec := Processor.executeTxn_eq p c t hfresh
  rw [hrun, Option.map_some] at hexec
  refine ⟨_, hexec, ?_, rfl⟩
  show (Function.update p.txns t _ t).toBuffers = b
  rw [Function.update_self]

theorem overlays_unrun (readset writeset : OrderedSet Key) (s : Storage) :
    Overlays readset writeset s.data
      (unrun (readAll s.data (readset.toList ++ writeset.toList))) s where
  incomplete := rfl
  reads key hkey := by
    have hmem : key ∈ readset.toList ++ writeset.toList := List.mem_append.mpr hkey
    rw [unrun, lookup_readAll, if_pos hmem]
  writes _ := rfl

theorem Overlays.write (h : Overlays readset writeset old b s) (key : Key) (value : Value)
    (id : Int) : Overlays readset writeset old
      { b with writes := b.writes.insert key value, reads := b.reads.insert key value }
      (s.write key value id) where
  incomplete := h.incomplete
  reads j hj := by
    rw [OrderedMap.lookup_insert, Storage.write_data]
    by_cases hkey : key = j
    · rw [if_pos hkey, hkey, Function.update_self]
    · rw [if_neg hkey, Function.update_of_ne (Ne.symm hkey)]
      exact h.reads j hj
  writes j := by
    rw [OrderedMap.lookup_insert, Storage.write_data]
    by_cases hkey : key = j
    · rw [if_pos hkey, hkey, Function.update_self]
      rfl
    · rw [if_neg hkey, Function.update_of_ne (Ne.symm hkey)]
      exact h.writes j

/-- Both executions of a declared program, access by access. -/
theorem exec_overlays (hprog : Declared readset writeset prog) (id : Int)
    (h : Overlays readset writeset old b s) : ∃ log vote b' s',
      prog.exec (buffered readset writeset) b = some ⟨log, vote, b'⟩ ∧
      prog.exec (inPlace id) s = some ⟨log, vote, s'⟩ ∧ Overlays readset writeset old b' s' := by
  apply Program.exec_simulate (R := Overlays readset writeset old) ?_ ?_ hprog h
  · intro b s key h hkey
    have hread := Buffers.read_of_incomplete h.incomplete hkey
    rw [h.reads key hkey] at hread
    exact ⟨s.read key, hread, rfl⟩
  · intro b s key value h hkey
    exact ⟨_, _, Buffers.write_of_incomplete h.incomplete hkey value, rfl, h.write key value id⟩

theorem Overlays.applied (h : Overlays readset writeset old b s) :
    assign b.writes.entries old = s.data := by
  funext key
  rw [OrderedMap.assign_entries]
  exact h.writes key

theorem lastWrite_read (log : List (Access Key Value)) (key j : Key) (result : Option Value) :
    lastWrite (log ++ [.read key result]) j = lastWrite log j := by
  simp [lastWrite, writesOf]

theorem lastWrite_write (log : List (Access Key Value)) (key j : Key) (value : Value) :
    lastWrite (log ++ [.write key value]) j = if key = j then some value else lastWrite log j := by
  have hwrites : writesOf (log ++ [.write key value]) = writesOf log ++ [(key, value)] :=
    List.filterMap_append
  rw [lastWrite, hwrites, onChannel_append]
  by_cases hkey : key = j
  · rw [if_pos hkey, hkey, onChannel_self, List.getLast?_append]
    rfl
  · rw [if_neg hkey, onChannel_of_ne hkey, List.append_nil]
    rfl

theorem Buffered.init (writeset : OrderedSet Key) (reads : OrderedMap Key Value) :
    Buffered writeset [] (unrun reads) where
  incomplete := rfl
  declared _ h := by cases h
  last _ := rfl
  agree _ h := by cases h

theorem Buffered.write (h : Buffered writeset log b) (hkey : key ∈ writeset) (value : Value) :
    Buffered writeset (log ++ [.write key value])
      { b with writes := b.writes.insert key value, reads := b.reads.insert key value } where
  incomplete := h.incomplete
  declared j hj := by
    rcases OrderedMap.mem_keys_insert hj with rfl | hj
    · exact hkey
    · exact h.declared j hj
  last j := by
    rw [lastWrite_write, OrderedMap.lookup_insert, h.last j]
  agree j hj := by
    rw [OrderedMap.lookup_insert, OrderedMap.lookup_insert]
    by_cases hkj : key = j
    · rw [if_pos hkj, if_pos hkj]
    · rw [if_neg hkj, if_neg hkj]
      exact h.agree j ((OrderedMap.mem_keys_insert hj).resolve_left (Ne.symm hkj))

theorem buffered_of_run {reads : OrderedMap Key Value} {q : Program Key Value × Buffers}
    (h : Run (Program.Step (buffered readset writeset)) (prog, unrun reads) log q) :
    Buffered writeset log q.2 := by
  apply h.invariant (I := fun log q => Buffered writeset log q.2)
  · exact Buffered.init writeset reads
  · intro log q a q' _ hbuf hstep
    cases hstep with
    | read _ =>
      constructor
      · exact hbuf.incomplete
      · exact hbuf.declared
      · intro j
        rw [lastWrite_read]
        exact hbuf.last j
      · exact hbuf.agree
    | @write b b' key value next hwrite =>
      have hwrite : b.write writeset key value = some b' := hwrite
      have hkey : key ∈ writeset := by
        by_contra hnot
        rw [Buffers.write, if_pos hnot] at hwrite
        cases hwrite
      have hsome := Buffers.write_of_incomplete hbuf.incomplete hkey value
      obtain rfl := Option.some.inj (hsome.symm.trans hwrite)
      exact hbuf.write hkey value

theorem programCode_run (prog : Program Key Value) (b : Buffers) :
    (programCode readset writeset prog).run b =
      (prog.exec (buffered readset writeset) b).map fun o =>
        if o.vote then o.memory.commit else o.memory.abort := rfl

theorem programCode_read (key : Key) (next : Option Value → Program Key Value) (b : Buffers) :
    (programCode readset writeset (.read key next)).run b =
      (b.read readset writeset key).bind fun result =>
        (programCode readset writeset (next result)).run b := by
  rw [programCode_run, Program.exec, Option.map_bind]
  apply Option.bind_congr
  intro result _
  rw [Function.comp_apply, Option.map_map]
  rfl

theorem programCode_write (key : Key) (value : Value) (next : Program Key Value) (b : Buffers) :
    (programCode readset writeset (.write key value next)).run b =
      (b.write writeset key value).bind (programCode readset writeset next).run := by
  rw [programCode_run, Program.exec, Option.map_bind]
  apply Option.bind_congr
  intro b' _
  rw [Function.comp_apply, Option.map_map]
  rfl

/-- `Run` after the reads of `ExecuteTxn`, next to the same program on the store. -/
theorem exec_direct (hprog : Declared readset writeset prog) (id : Int) (s : Storage) :
    ∃ log vote b s', prog.exec (buffered readset writeset)
        (unrun (readAll s.data (programCode readset writeset prog).keys)) = some ⟨log, vote, b⟩ ∧
      prog.exec (inPlace id) s = some ⟨log, vote, s'⟩ ∧
      Overlays readset writeset s.data b s' :=
  exec_overlays hprog id (overlays_unrun readset writeset s)

/-- Buffered execution equals execution in place. -/
theorem buffered_equals_direct (hprog : Declared readset writeset prog) (id : Int)
    {p : Processor} {t : TxnPtr} (hfresh : (p.txns t).Fresh) : ∃ log vote b s p₁,
    prog.exec (buffered readset writeset)
      (unrun (readAll p.storage.data (programCode readset writeset prog).keys)) =
        some ⟨log, vote, b⟩ ∧
    prog.exec (inPlace id) p.storage = some ⟨log, vote, s⟩ ∧
    p.executeTxn (programCode readset writeset prog) t = some p₁ ∧
    (p₁.txns t).toBuffers = (if vote then b.commit else b.abort) ∧
    p₁.storage = p.storage ∧ (vote = true → (p₁.applyWrites t).storage = s) ∧
    Run (Program.Step (buffered readset writeset))
      (prog, unrun (readAll p.storage.data (programCode readset writeset prog).keys)) log
      (.finish vote, b) ∧
    ∀ acts q, Run (Program.Step (buffered readset writeset))
      (prog, unrun (readAll p.storage.data (programCode readset writeset prog).keys)) acts q →
        Buffered writeset acts q.2 := by
  obtain ⟨log, vote, b, s, hbuffered, hdirect, hover⟩ := exec_direct hprog id p.storage
  have hrun : (programCode readset writeset prog).run
      (unrun (readAll p.storage.data (programCode readset writeset prog).keys)) =
        some (if vote then b.commit else b.abort) := by
    rw [programCode_run, hbuffered]
    rfl
  obtain ⟨p₁, hexec, hbuffers, hstorage⟩ := Processor.executeTxn_run hfresh hrun
  have hstepwise := Program.run_of_exec hbuffered
  refine ⟨log, vote, b, s, p₁, hbuffered, hdirect, hexec, hbuffers, hstorage, ?_, hstepwise, ?_⟩
  · intro hvote
    rw [if_pos hvote] at hbuffers
    rw [Processor.applyWrites_eq, hbuffers, hstorage]
    exact congrArg Storage.mk hover.applied
  · intro acts q hacts
    exact buffered_of_run hacts

end Overlay

/-- A key that is absent, written and read again. -/
theorem buffered_equals_direct_reread : ∃ p p₁ : Processor,
    let prog : Program Key Value := .read 5 fun old =>
      .write 5 (old.getD 0 + 1) (.read 5 fun new => .finish (new = some 1))
    p.executeTxn (programCode .empty (.singleton 5) prog) 0 = some p₁ ∧
    p.storage.data 5 = none ∧ (p₁.applyWrites 0).storage.data 5 = some 1 := by
  let prog : Program Key Value := .read 5 fun old =>
    .write 5 (old.getD 0 + 1) (.read 5 fun new => .finish (new = some 1))
  let p := Processor.init (fun _ => ⟨unrun .empty, 0, 0⟩) ⟨fun _ => none⟩
  have hprog : Declared .empty (.singleton 5) prog := by
    refine ⟨Or.inr (by decide), fun _ => ⟨by decide, Or.inr (by decide), fun _ => trivial⟩⟩
  obtain ⟨log, vote, b, s, p₁, _, hdirect, hexec, _, _, happly, _, _⟩ :=
    buffered_equals_direct (p := p) (t := 0) hprog 0 rfl
  have hall : prog.exec (inPlace 0) p.storage = some ⟨_, true, _⟩ := rfl
  obtain ⟨_, rfl, rfl⟩ := Outcome.mk.inj (Option.some.inj (hdirect.symm.trans hall))
  refine ⟨p, p₁, hexec, rfl, ?_⟩
  rw [happly rfl]
  rfl

end Cmsc624.A2
