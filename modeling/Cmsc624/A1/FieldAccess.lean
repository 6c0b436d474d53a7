import Cmsc624.A1.CorrectnessTest
import Cmsc624.Lib.Cells

/-!
# Txn word by word

`Lock` and `Unlock` are empty, so nothing keeps threads out of each other's records:
`*rec_ptr += updates[i]` is a load and a store, and other threads take steps in between.
-/

namespace Cmsc624.A1

open Lib

set_option autoImplicit false

/-- Where a `rec_ptr` leads: to a field of record number `key`. -/
structure RecPtr where
  db : DbPtr
  key : Nat
  field : Fin nfields
  deriving DecidableEq

abbrev Access := Cells.Event Nat RecPtr UInt64

/-- `*rec_ptr`. A pointer out of the database is never followed. -/
def Heap.word (heap : Heap) (p : RecPtr) : UInt64 :=
  (heap p.db).records[p.key]?.elim 0 fun r => r.field p.field

def Heap.setWord (heap : Heap) (p : RecPtr) (w : UInt64) : Heap :=
  Function.update heap p.db ⟨(heap p.db).records.modify p.key fun r => r.setField p.field w⟩

def Heap.Has (heap : Heap) (p : RecPtr) : Prop := p.key < (heap p.db).dbSize

/-- Where a thread is in `Txn`: the pass of its loop, the pass of the loop of `DoWrite`, and the
word that it has loaded and not stored yet, with its `rec_ptr`. -/
structure TxnPc where
  pass : Nat
  field : Fin nfields
  loaded : Option (RecPtr × UInt64)

namespace TxnPc

def start : TxnPc := ⟨0, ⟨0, by decide⟩, none⟩

def next (pc : TxnPc) : TxnPc :=
  if h : pc.field.val + 1 < nfields then ⟨pc.pass, ⟨pc.field.val + 1, h⟩, none⟩
  else ⟨pc.pass + 1, ⟨0, by decide⟩, none⟩

end TxnPc

namespace Request

/-- The key of pass `i`; `none` after the last pass, and when the assertion fails. -/
def keyAt (q : Request) (i : Nat) : Option UInt64 := do
  let key ← q.writeset[i]?
  if i = 0 ∨ q.writeset[i - 1]? ≠ some key then some key else none

def fieldAdditions (q : Request) (key : UInt64) : List (RecPtr × UInt64) :=
  (List.finRange nfields).map fun j => (⟨q.db, key.toNat, j⟩, q.updates j)

def wordAdditions (q : Request) : List (RecPtr × UInt64) := q.writeset.flatMap q.fieldAdditions

def behind (q : Request) (pc : TxnPc) : List (RecPtr × UInt64) :=
  (q.writeset.take pc.pass).flatMap q.fieldAdditions ++
    (q.writeset[pc.pass]?.toList.flatMap q.fieldAdditions).take pc.field

def ahead (q : Request) (pc : TxnPc) : Nat :=
  2 * (q.wordAdditions.length - (q.behind pc).length) - (if pc.loaded.isSome then 1 else 0)

def Touches (q : Request) (p : RecPtr) : Prop :=
  p.db = q.db ∧ ∃ key ∈ q.writeset, key.toNat = p.key

/-- Both try to access the same record. -/
def Conflict (q q' : Request) : Prop := q.db = q'.db ∧ ∃ key ∈ q.writeset, key ∈ q'.writeset

end Request

/-- One access of thread `i`, in `Txn` of the request `q`. -/
inductive TxnStep (i : Nat) (q : Request) : Heap → TxnPc → Access → Heap → TxnPc → Prop where
  | load {heap : Heap} {pc : TxnPc} {key : UInt64} (hfree : pc.loaded = none)
      (hkey : q.keyAt pc.pass = some key) (hp : heap.Has ⟨q.db, key.toNat, pc.field⟩) :
      TxnStep i q heap pc (.load i ⟨q.db, key.toNat, pc.field⟩) heap
        { pc with
          loaded := some (⟨q.db, key.toNat, pc.field⟩, heap.word ⟨q.db, key.toNat, pc.field⟩) }
  | store {heap : Heap} {pc : TxnPc} {p : RecPtr} {w : UInt64} (hloaded : pc.loaded = some (p, w))
      (hp : heap.Has p) :
      TxnStep i q heap pc (.store ⟨i, p, w, heap.word p, q.updates pc.field⟩)
        (heap.setWord p (w + q.updates pc.field)) pc.next

/-- `heap'` is `heap` with all updates of these requests. -/
def Updated (heap heap' : Heap) (reqs : List Request) : Prop :=
  ∀ db, heap' db = (heap db).addAll (allAdditions (reqs.filter fun q => q.db = db))

/-- The databases with the places of all threads in `Txn`. -/
structure Memory where
  heap : Heap
  pcs : Nat → TxnPc

inductive Memory.Step : Memory → Access → Memory → Prop where
  | txn {m : Memory} {i : Nat} {q : Request} {e : Access} {heap : Heap} {pc : TxnPc}
      (h : TxnStep i q m.heap (m.pcs i) e heap pc) :
      Step m e ⟨heap, Function.update m.pcs i pc⟩

section Words
variable {heap heap' heap'' : Heap} {p p' : RecPtr} {w : UInt64}

theorem word_setWord (hp : heap.Has p) :
    (heap.setWord p w).word p' = if p' = p then w else heap.word p' := by
  obtain ⟨db, key, j⟩ := p
  obtain ⟨db', key', j'⟩ := p'
  have hget : (heap db).records[key]? = some _ := List.getElem?_eq_getElem hp
  unfold Heap.word Heap.setWord
  by_cases hdb : db' = db
  · subst hdb
    simp only [Function.update_self, List.getElem?_modify]
    by_cases hkey : key = key'
    · subst hkey
      simp only [hget, if_true, Option.map_eq_map, Option.map_some, Option.elim_some,
        Record.setField_field, RecPtr.mk.injEq, true_and, eq_comm]
    · have hne : ¬(key' = key) := fun h => hkey h.symm
      simp only [hkey, if_false, Option.map_eq_map, Option.map_id', RecPtr.mk.injEq, hne,
        false_and, and_false]
  · simp only [Function.update_of_ne hdb, RecPtr.mk.injEq, hdb, false_and, if_false]

/-- The same databases but for the words in their fields. -/
structure Heap.Similar (heap heap' : Heap) : Prop where
  dbSize_eq : ∀ db, (heap' db).dbSize = (heap db).dbSize
  outside : ∀ (db k : Nat) r r', (heap db).records[k]? = some r →
    (heap' db).records[k]? = some r' → ∀ i, ¬Record.InField i → r'.bytes i = r.bytes i

theorem Heap.Similar.refl (heap : Heap) : heap.Similar heap where
  dbSize_eq _ := rfl
  outside db k r r' hr hr' i _ := by
    obtain rfl := Option.some.inj (hr.symm.trans hr')
    rfl

theorem Heap.Similar.trans (h : heap.Similar heap') (h' : heap'.Similar heap'') :
    heap.Similar heap'' where
  dbSize_eq db := (h'.dbSize_eq db).trans (h.dbSize_eq db)
  outside db k r r'' hr hr'' i hi := by
    have hlt : k < (heap' db).dbSize := by
      rw [h.dbSize_eq db]
      exact (List.getElem?_eq_some_iff.mp hr).1
    have hr' := List.getElem?_eq_getElem hlt
    exact (h'.outside db k _ r'' hr' hr'' i hi).trans (h.outside db k r _ hr hr' i hi)

theorem similar_setWord (heap : Heap) (p : RecPtr) (w : UInt64) :
    heap.Similar (heap.setWord p w) where
  dbSize_eq db := by
    unfold Heap.setWord
    by_cases hdb : db = p.db
    · subst hdb
      rw [Function.update_self]
      exact List.length_modify _ _ _
    · rw [Function.update_of_ne hdb]
  outside db k r r' hr hr' i hi := by
    unfold Heap.setWord at hr'
    by_cases hdb : db = p.db
    · subst hdb
      rw [Function.update_self] at hr'
      simp only [List.getElem?_modify, hr] at hr'
      split at hr'
      · obtain rfl := Option.some.inj hr'
        exact Record.setField_outside hi _ _ _
      · obtain rfl := Option.some.inj hr'
        rfl
    · rw [Function.update_of_ne hdb, hr] at hr'
      obtain rfl := Option.some.inj hr'
      rfl

theorem Heap.Similar.has (h : heap.Similar heap') : heap'.Has p ↔ heap.Has p := by
  rw [Heap.Has, h.dbSize_eq, ← Heap.Has]

/-- A database is its size, the words of its fields and the bytes between them. -/
theorem Heap.Similar.eq_addAll_iff (h : heap.Similar heap') (db : DbPtr)
    (l : List (UInt64 × Updates)) : heap' db = (heap db).addAll l ↔
      ∀ k < (heap db).dbSize, ∀ j,
        heap'.word ⟨db, k, j⟩ = heap.word ⟨db, k, j⟩ + Database.total l k j := by
  constructor
  · intro heq k hk j
    have hget : (heap db).records[k]? = some _ := List.getElem?_eq_getElem hk
    simp only [Heap.word, heq, Database.addAll_record, hget, Option.map_some, Option.elim_some,
      Record.vadd_def, Record.doWrite_field]
  · intro hwords
    suffices hrec : (heap' db).records = ((heap db).addAll l).records from
      congrArg Database.mk hrec
    apply List.ext_getElem?
    intro k
    rw [Database.addAll_record]
    by_cases hk : k < (heap db).dbSize
    · have hk' : k < (heap' db).dbSize := by
        rw [h.dbSize_eq db]
        exact hk
      have hget : (heap db).records[k]? = some _ := List.getElem?_eq_getElem hk
      have hget' : (heap' db).records[k]? = some _ := List.getElem?_eq_getElem hk'
      rw [hget, hget', Option.map_some, Record.vadd_def]
      congr 1
      apply Record.ext_fields
      · intro j
        have hword := hwords k hk j
        simp only [Heap.word, hget, hget', Option.elim_some] at hword
        rw [hword, Record.doWrite_field]
      · intro i hi
        rw [h.outside db k _ _ hget hget' i hi, Record.doWrite_outside hi]
    · have hk' : (heap' db).records.length ≤ k := by
        have hsize := h.dbSize_eq db
        unfold Database.dbSize at hsize hk
        omega
      unfold Database.dbSize at hk
      rw [List.getElem?_eq_none hk', List.getElem?_eq_none (by omega)]
      rfl

end Words

namespace Request
variable {q : Request} {pc : TxnPc} {key : UInt64}

theorem keyAt_eq_some {i : Nat} (h : q.keyAt i = some key) : q.writeset[i]? = some key := by
  unfold keyAt at h
  obtain ⟨k, hk, hif⟩ := Option.bind_eq_some_iff.mp h
  split at hif
  · obtain rfl := Option.some.inj hif
    exact hk
  · cases hif

theorem keyAt_of_valid {size i : Nat} (h : q.Valid size) (hkey : q.writeset[i]? = some key) :
    q.keyAt i = some key := by
  unfold keyAt
  simp only [hkey, Option.bind_eq_bind, Option.bind_some]
  rw [if_pos (h.assertion hkey)]

theorem fieldAdditions_length (q : Request) (key : UInt64) :
    (q.fieldAdditions key).length = nfields := by
  rw [fieldAdditions, List.length_map, List.length_finRange]

theorem fieldAdditions_getElem (q : Request) (key : UInt64) (j : Fin nfields) :
    (q.fieldAdditions key)[j.val]? = some (⟨q.db, key.toNat, j⟩, q.updates j) := by
  rw [fieldAdditions, List.getElem?_map, List.getElem?_eq_getElem (by simp)]
  simp

theorem behind_start (q : Request) : q.behind .start = [] := rfl

theorem behind_done (hpass : pc.pass = q.writeset.length) : q.behind pc = q.wordAdditions := by
  rw [behind, hpass, List.take_length, List.getElem?_eq_none (le_refl _), Option.toList_none,
    List.flatMap_nil, List.take_nil, List.append_nil, wordAdditions]

/-- A store puts one more word behind the thread. -/
theorem behind_next (hkey : q.writeset[pc.pass]? = some key) :
    q.behind pc.next = q.behind pc ++ [(⟨q.db, key.toNat, pc.field⟩, q.updates pc.field)] := by
  have htake : (q.fieldAdditions key).take (pc.field + 1) = (q.fieldAdditions key).take pc.field ++
      [(⟨q.db, key.toNat, pc.field⟩, q.updates pc.field)] := by
    rw [List.take_add_one, fieldAdditions_getElem, Option.toList_some]
  have hpc : q.behind pc = (q.writeset.take pc.pass).flatMap q.fieldAdditions ++
      (q.fieldAdditions key).take pc.field := by
    rw [behind, hkey, Option.toList_some, List.flatMap_singleton]
  rw [hpc, List.append_assoc, ← htake]
  unfold TxnPc.next
  split
  · rw [behind, hkey, Option.toList_some, List.flatMap_singleton]
  · rename_i hlast
    -- the last field of the record
    have hall : (q.fieldAdditions key).length ≤ pc.field + 1 := by
      rw [fieldAdditions_length]
      omega
    rw [behind, List.take_zero, List.append_nil, List.take_add_one, hkey, Option.toList_some,
      List.flatMap_append, List.flatMap_singleton, List.take_of_length_le hall]

theorem behind_prefix (q : Request) (pc : TxnPc) : q.behind pc <+: q.wordAdditions := by
  have hsplit : q.wordAdditions = (q.writeset.take pc.pass).flatMap q.fieldAdditions ++
      (q.writeset.drop pc.pass).flatMap q.fieldAdditions := by
    rw [wordAdditions, ← List.flatMap_append, List.take_append_drop]
  rw [hsplit, behind, List.prefix_append_right_inj]
  cases hkey : q.writeset[pc.pass]? with
  | none =>
    rw [Option.toList_none, List.flatMap_nil, List.take_nil]
    exact List.nil_prefix
  | some key =>
    obtain ⟨hlt, rfl⟩ := List.getElem?_eq_some_iff.mp hkey
    rw [List.drop_eq_getElem_cons hlt, List.flatMap_cons, Option.toList_some,
      List.flatMap_singleton]
    exact (List.take_prefix _ _).trans (List.prefix_append _ _)

theorem behind_length_lt (hkey : q.writeset[pc.pass]? = some key) :
    (q.behind pc).length < q.wordAdditions.length := by
  have hle := (q.behind_prefix pc.next).length_le
  rw [behind_next hkey, List.length_append, List.length_singleton] at hle
  exact hle

end Request

theorem TxnPc.next_loaded (pc : TxnPc) : pc.next.loaded = none := by
  unfold TxnPc.next
  split
  · rfl
  · rfl

/-- A word that is loaded is the one that the place in `Txn` says. -/
structure TxnPc.Within (pc : TxnPc) (q : Request) : Prop where
  pass_le : pc.pass ≤ q.writeset.length
  loaded : ∀ p w, pc.loaded = some (p, w) →
    ∃ key, q.writeset[pc.pass]? = some key ∧ p = ⟨q.db, key.toNat, pc.field⟩

theorem TxnPc.Within.free {pc : TxnPc} {q : Request} (h : pc.Within q)
    (hdone : pc.pass = q.writeset.length) : pc.loaded = none := by
  cases hloaded : pc.loaded with
  | none => rfl
  | some x =>
    obtain ⟨key, hkey, _⟩ := h.loaded x.1 x.2 hloaded
    rw [hdone, List.getElem?_eq_none (le_refl _)] at hkey
    cases hkey

namespace TxnStep
variable {i : Nat} {q : Request} {heap heap' : Heap} {pc pc' : TxnPc} {e : Access}

theorem thread_eq (h : TxnStep i q heap pc e heap' pc') : e.thread = i := by
  cases h with
  | load hfree hkey hp => rfl
  | store hloaded hp => rfl

theorem similar (h : TxnStep i q heap pc e heap' pc') : heap.Similar heap' := by
  cases h with
  | load hfree hkey hp => exact Heap.Similar.refl heap
  | store hloaded hp => exact similar_setWord heap _ _

theorem frame (h : TxnStep i q heap pc e heap' pc') {db : DbPtr} (hdb : db ≠ e.cell.db) :
    heap' db = heap db := by
  cases h with
  | load hfree hkey hp => rfl
  | store hloaded hp => exact Function.update_of_ne hdb _ _

theorem has (h : TxnStep i q heap pc e heap' pc') : heap.Has e.cell := by
  cases h with
  | load hfree hkey hp => exact hp
  | store hloaded hp => exact hp

theorem touches (h : TxnStep i q heap pc e heap' pc') (hpc : pc.Within q) : q.Touches e.cell := by
  cases h with
  | @load key hfree hkey hp =>
    exact ⟨rfl, key, List.mem_of_getElem? (Request.keyAt_eq_some hkey), rfl⟩
  | @store p w hloaded hp =>
    obtain ⟨key, hkey, rfl⟩ := hpc.loaded p w hloaded
    exact ⟨rfl, key, List.mem_of_getElem? hkey, rfl⟩

theorem within (h : TxnStep i q heap pc e heap' pc') (hpc : pc.Within q) : pc'.Within q := by
  cases h with
  | @load key hfree hkey hp =>
    refine ⟨hpc.pass_le, ?_⟩
    intro p w hloaded
    obtain ⟨rfl, _⟩ := Prod.mk.inj (Option.some.inj hloaded)
    exact ⟨key, Request.keyAt_eq_some hkey, rfl⟩
  | @store p w hloaded hp =>
    obtain ⟨key, hkey, _⟩ := hpc.loaded p w hloaded
    have hlt := (List.getElem?_eq_some_iff.mp hkey).1
    unfold TxnPc.next
    split
    · exact ⟨hpc.pass_le, nofun⟩
    · exact ⟨hlt, nofun⟩

theorem behind_eq (h : TxnStep i q heap pc e heap' pc') (hpc : pc.Within q) :
    q.behind pc' = q.behind pc ++ onChannel (Cells.added [e]) i := by
  cases h with
  | load hfree hkey hp => exact (List.append_nil _).symm
  | @store p w hloaded hp =>
    obtain ⟨key, hkey, rfl⟩ := hpc.loaded p w hloaded
    rw [Request.behind_next hkey]
    congr 1
    exact (onChannel_self _ _).symm

theorem added_other {j : Nat} (h : TxnStep i q heap pc e heap' pc') (hij : i ≠ j) :
    onChannel (Cells.added [e]) j = [] := by
  cases h with
  | load hfree hkey hp => rfl
  | store hloaded hp => exact onChannel_of_ne hij _

theorem ahead_eq (h : TxnStep i q heap pc e heap' pc') (hpc : pc.Within q) :
    q.ahead pc' + 1 = q.ahead pc := by
  cases h with
  | @load key hfree hkey hp =>
    have hlt := Request.behind_length_lt (Request.keyAt_eq_some hkey)
    unfold Request.ahead
    rw [hfree]
    show 2 * (_ - (q.behind pc).length) - 1 + 1 = 2 * _ - 0
    omega
  | @store p w hloaded hp =>
    obtain ⟨key, hkey, _⟩ := hpc.loaded p w hloaded
    have hlt := Request.behind_length_lt hkey
    unfold Request.ahead
    rw [Request.behind_next hkey, pc.next_loaded, hloaded, List.length_append,
      List.length_singleton]
    show 2 * _ - 0 + 1 = 2 * _ - 1
    omega

end TxnStep

/-- A thread in `Txn` of a valid request always has a next access. -/
theorem exists_txnStep {q : Request} {heap : Heap} {pc : TxnPc} (i : Nat)
    (hvalid : q.Valid (heap q.db).dbSize) (hpc : pc.Within q) (hlt : pc.pass < q.writeset.length) :
    ∃ e heap' pc', TxnStep i q heap pc e heap' pc' := by
  have hkey := List.getElem?_eq_getElem hlt
  have hrange := hvalid.in_range _ (List.getElem_mem hlt)
  cases hloaded : pc.loaded with
  | none => exact ⟨_, _, _, .load hloaded (Request.keyAt_of_valid hvalid hkey) hrange⟩
  | some x =>
    obtain ⟨p, w⟩ := x
    obtain ⟨key, hkey', rfl⟩ := hpc.loaded p w hloaded
    obtain rfl := Option.some.inj (hkey'.symm.trans hkey)
    exact ⟨_, _, _, .store hloaded hrange⟩

/-- What the library sees of the memory: words, and who has loaded which. -/
def Memory.cells (m : Memory) : Cells.State Nat RecPtr UInt64 :=
  ⟨m.heap.word, fun i => (m.pcs i).loaded⟩

namespace Memory
variable {m m' : Memory} {e : Access} {tr : List Access}

theorem Step.similar (h : Step m e m') : m.heap.Similar m'.heap := by
  cases h with
  | txn h => exact h.similar

theorem Step.cells (h : Step m e m') : Cells.Step m.cells e m'.cells := by
  obtain ⟨heap, pcs⟩ := m
  cases h with
  | @txn i q e heap' pc h =>
    have hheld : (fun j => (Function.update pcs i pc j).loaded) =
        Function.update (fun j => (pcs j).loaded) i pc.loaded := by
      funext j
      exact Function.apply_update (fun _ pc => pc.loaded) pcs i pc j
    show Cells.Step ⟨heap.word, fun j => (pcs j).loaded⟩ e ⟨heap'.word, _⟩
    rw [hheld]
    cases h with
    | load hfree hkey hp => exact .load _ hfree
    | @store p w hloaded hp =>
      have hword : (heap.setWord p (w + q.updates (pcs i).field)).word =
          Function.update heap.word p (w + q.updates (pcs i).field) := by
        funext p'
        rw [word_setWord hp, Function.update_apply]
      rw [hword, TxnPc.next_loaded]
      exact .store _ hloaded

theorem similar_of_run (h : Run Step m tr m') : m.heap.Similar m'.heap := by
  induction h with
  | nil => exact Heap.Similar.refl m.heap
  | snoc _ hstep ih => exact ih.trans hstep.similar

theorem cells_of_run (h : Run Step m tr m') : Run Cells.Step m.cells tr m'.cells := by
  induction h with
  | nil => exact .nil
  | snoc _ hstep ih => exact ih.snoc hstep.cells

theorem frame_of_run (h : Run Step m tr m') {db : DbPtr} (hdb : ∀ e ∈ tr, db ≠ e.cell.db) :
    m'.heap db = m.heap db := by
  induction h with
  | nil => rfl
  | @snoc tr m m' e _ hstep ih =>
    have hold := ih fun f hf => hdb f (List.mem_append_left _ hf)
    cases hstep with
    | txn hstep =>
      exact (hstep.frame (hdb e (List.mem_append_right _ (List.mem_singleton_self e)))).trans hold

theorem has_of_run (h : Run Step m tr m') : ∀ e ∈ tr, m.heap.Has e.cell := by
  induction h with
  | nil =>
    intro e he
    cases he
  | snoc hrun hstep ih =>
    intro e he
    rcases List.mem_append.mp he with hold | hnew
    · exact ih e hold
    · obtain rfl := List.mem_singleton.mp hnew
      cases hstep with
      | txn hstep => exact (similar_of_run hrun).has.mp hstep.has

end Memory

section Sums
variable {heap : Heap} {m m' : Memory} {tr : List Access}

theorem sumAt_fieldAdditions (q : Request) (key : UInt64) (p : RecPtr) :
    Cells.sumAt p (q.fieldAdditions key) =
      if q.db = p.db ∧ key.toNat = p.key then q.updates p.field else 0 := by
  by_cases hrec : q.db = p.db ∧ key.toNat = p.key
  · have hone : ∀ j, j ≠ p.field → j ∈ List.finRange nfields →
        (if (⟨q.db, key.toNat, j⟩ : RecPtr) = p then q.updates j else 0) = 0 := by
      intro j hj _
      rw [if_neg fun h => hj (congrArg RecPtr.field h)]
    rw [if_pos hrec, Cells.sumAt, Request.fieldAdditions, List.map_map]
    refine (List.sum_map_eq_nsmul_single p.field _ hone).trans ?_
    have hp : (⟨q.db, key.toNat, p.field⟩ : RecPtr) = p := by
      rw [hrec.1, hrec.2]
    rw [(List.nodup_finRange nfields).count, if_pos (List.mem_finRange p.field), if_pos hp,
      one_nsmul]
  · rw [if_neg hrec]
    apply Cells.sumAt_eq_zero
    intro x hx hp
    obtain ⟨j, _, rfl⟩ := List.mem_map.mp hx
    exact absurd ⟨congrArg RecPtr.db hp, congrArg RecPtr.key hp⟩ hrec

theorem sumAt_wordAdditions (q : Request) (p : RecPtr) :
    Cells.sumAt p q.wordAdditions =
      if q.db = p.db then Database.total q.additions p.key p.field else 0 := by
  rw [Request.wordAdditions, Request.additions]
  induction q.writeset with
  | nil =>
    split
    · rfl
    · rfl
  | cons key keys ih =>
    rw [List.flatMap_cons, Cells.sumAt_append, ih, sumAt_fieldAdditions, List.map_cons,
      Database.total_cons, Pi.add_apply]
    by_cases hdb : q.db = p.db
    · by_cases hkey : key.toNat = p.key
      · simp only [hdb, hkey, and_self, if_true]
      · simp only [hdb, hkey, and_false, if_false, if_true, Pi.zero_apply]
    · simp only [hdb, false_and, if_false, add_zero]

theorem sumAt_flatMap (reqs : List Request) (p : RecPtr) :
    Cells.sumAt p (reqs.flatMap Request.wordAdditions) =
      Database.total (allAdditions (reqs.filter fun q => q.db = p.db)) p.key p.field := by
  induction reqs with
  | nil => rfl
  | cons q reqs ih =>
    rw [List.flatMap_cons, Cells.sumAt_append, ih, sumAt_wordAdditions, List.filter_cons]
    by_cases hdb : q.db = p.db
    · simp only [hdb, if_true, decide_true]
      exact (congrFun (Database.total_append _ _ _) _).symm
    · simp [hdb]

/-- When all additions of the requests have been stored, the databases have all of them if and
only if nothing is lost at any word. -/
theorem updated_iff_lost {reqs : List Request} (h : Run Memory.Step m tr m')
    (hall : ((Cells.added tr).map Prod.snd).Perm (reqs.flatMap Request.wordAdditions)) :
    Updated m.heap m'.heap reqs ↔ ∀ p, Cells.lost tr p = 0 := by
  have hsim := Memory.similar_of_run h
  have hword : ∀ p : RecPtr, m'.heap.word p = m.heap.word p +
      Database.total (allAdditions (reqs.filter fun q => q.db = p.db)) p.key p.field -
        Cells.lost tr p := by
    intro p
    rw [← sumAt_flatMap, ← Cells.sumAt_perm hall]
    exact Cells.mem_of_run (Memory.cells_of_run h) p
  constructor
  · intro heq p
    by_cases hp : m.heap.Has p
    · have hadd := (hsim.eq_addAll_iff p.db _).mp (heq p.db) p.key hp p.field
      rw [hword p] at hadd
      exact sub_eq_self.mp hadd
    · apply Cells.lost_of_unstored
      intro x hx hcell
      exact hp (hcell ▸ Memory.has_of_run h _ (Cells.mem_of_stores hx))
  · intro hlost db
    apply (hsim.eq_addAll_iff db _).mpr
    intro k _ j
    rw [hword ⟨db, k, j⟩, hlost, sub_zero]

/-- Threads whose requests do not conflict share no word. -/
theorem separate_of_touched {reqs : List Request}
    (htouched : ∀ e ∈ tr, ∃ q, reqs[e.thread]? = some q ∧ q.Touches e.cell)
    (hsep : reqs.Pairwise fun q q' => ¬q.Conflict q') : Cells.Separate tr := by
  have hlt : ∀ e ∈ tr, ∀ e' ∈ tr, e.cell = e'.cell → ¬e.thread < e'.thread := by
    intro e he e' he' hcell hless
    obtain ⟨q, hq, hdb, key, hkey, hrec⟩ := htouched e he
    obtain ⟨q', hq', hdb', key', hkey', hrec'⟩ := htouched e' he'
    obtain ⟨hi, rfl⟩ := List.getElem?_eq_some_iff.mp hq
    obtain ⟨hj, rfl⟩ := List.getElem?_eq_some_iff.mp hq'
    have hsame : key = key' := by
      apply UInt64.toNat_inj.mp
      rw [hrec, hrec', hcell]
    subst hsame
    apply List.pairwise_iff_getElem.mp hsep e.thread e'.thread hi hj hless
    exact ⟨hdb.symm.trans ((congrArg RecPtr.db hcell).trans hdb'), key, hkey, hkey'⟩
  intro e he e' he' hcell
  exact le_antisymm (Nat.not_lt.mp (hlt e' he' e he hcell.symm))
    (Nat.not_lt.mp (hlt e he e' he' hcell))

end Sums

/-- A run of `Txn` in which no other thread takes a step. -/
abbrev TxnRun (i : Nat) (q : Request) : Heap × TxnPc → List Access → Heap × TxnPc → Prop :=
  Run fun x e y => TxnStep i q x.1 x.2 e y.1 y.2

section Alone
variable {i : Nat} {q : Request} {heap heap' : Heap} {pc pc' : TxnPc} {tr : List Access}
  {x y : Heap × TxnPc}

theorem memory_of_txnRun (pcs : Nat → TxnPc) (h : TxnRun i q x tr y) :
    Run Memory.Step ⟨x.1, Function.update pcs i x.2⟩ tr ⟨y.1, Function.update pcs i y.2⟩ := by
  induction h with
  | nil => exact .nil
  | @snoc tr y z e _ hstep ih =>
    have hself : TxnStep i q y.1 (Function.update pcs i y.2 i) e z.1 z.2 := by
      rw [Function.update_self]
      exact hstep
    have hmem := Memory.Step.txn (m := ⟨y.1, Function.update pcs i y.2⟩) hself
    rw [Function.update_idem] at hmem
    exact ih.snoc hmem

theorem alone_of_txnRun (h : TxnRun i q x tr y) : ∀ e ∈ tr, e.thread = i := by
  induction h with
  | nil =>
    intro e he
    cases he
  | snoc _ hstep ih =>
    intro e he
    rcases List.mem_append.mp he with hold | hnew
    · exact ih e hold
    · obtain rfl := List.mem_singleton.mp hnew
      exact hstep.thread_eq

theorem within_of_txnRun (h : TxnRun i q x tr y) (hpc : x.2.Within q) : y.2.Within q :=
  h.stateInvariant (I := fun x => x.2.Within q) hpc fun hw hstep => hstep.within hw

theorem behind_of_txnRun (h : TxnRun i q x tr y) (hpc : x.2.Within q) :
    q.behind y.2 = q.behind x.2 ++ onChannel (Cells.added tr) i := by
  induction h with
  | nil => exact (List.append_nil _).symm
  | snoc h hstep ih =>
    rw [hstep.behind_eq (within_of_txnRun h hpc), ih, Cells.added_append, onChannel_append,
      List.append_assoc]

/-- A valid request comes to its end when its thread runs alone. -/
theorem exists_txnRun (i : Nat) (hvalid : q.Valid (heap q.db).dbSize) (hpc : pc.Within q) :
    ∃ tr heap' pc', TxnRun i q (heap, pc) tr (heap', pc') ∧ pc'.pass = q.writeset.length := by
  suffices hmore : ∀ n heap pc, q.ahead pc = n → q.Valid (heap q.db).dbSize → pc.Within q →
      ∃ tr heap' pc', TxnRun i q (heap, pc) tr (heap', pc') ∧ pc'.pass = q.writeset.length from
    hmore _ heap pc rfl hvalid hpc
  intro n
  induction n with
  | zero =>
    intro heap pc hn hvalid hpc
    rcases Nat.lt_or_eq_of_le hpc.pass_le with hlt | heq
    · obtain ⟨e, heap₁, pc₁, hstep⟩ := exists_txnStep i hvalid hpc hlt
      have hless := hstep.ahead_eq hpc
      omega
    · exact ⟨[], heap, pc, .nil, heq⟩
  | succ n ih =>
    intro heap pc hn hvalid hpc
    rcases Nat.lt_or_eq_of_le hpc.pass_le with hlt | heq
    · obtain ⟨e, heap₁, pc₁, hstep⟩ := exists_txnStep i hvalid hpc hlt
      have hless := hstep.ahead_eq hpc
      have hvalid₁ : q.Valid (heap₁ q.db).dbSize := by
        rw [hstep.similar.dbSize_eq]
        exact hvalid
      obtain ⟨tr, heap', pc', hrun, hpass⟩ := ih heap₁ pc₁ (by omega) hvalid₁ (hstep.within hpc)
      exact ⟨[e] ++ tr, heap', pc', (Run.single hstep).trans hrun, hpass⟩
    · exact ⟨[], heap, pc, .nil, heq⟩

/-- A thread that has nothing loaded and runs alone loses nothing. -/
theorem careful_of_txnRun (h : TxnRun i q x tr y) (hfree : x.2.loaded = none) :
    Cells.Careful tr := by
  have hrun := memory_of_txnRun (fun _ => x.2) h
  refine Cells.careful_of_alone (t := i) ?_ (Memory.cells_of_run hrun) (alone_of_txnRun h)
  unfold Memory.cells
  simp only [Function.update_self]
  exact hfree

theorem start_within (q : Request) : TxnPc.start.Within q := ⟨Nat.zero_le _, nofun⟩

theorem added_of_txnRun (h : TxnRun i q (heap, .start) tr (heap', pc'))
    (hdone : pc'.pass = q.writeset.length) : (Cells.added tr).map Prod.snd = q.wordAdditions := by
  have hbehind := behind_of_txnRun h (start_within q)
  rw [Request.behind_start, List.nil_append, onChannel_eq_map] at hbehind
  · exact hbehind.symm.trans (Request.behind_done hdone)
  · intro x hx
    obtain ⟨y, hy, rfl⟩ := List.mem_map.mp hx
    exact alone_of_txnRun h _ (Cells.mem_of_stores hy)

theorem word_of_txnRun (h : TxnRun i q (heap, .start) tr (heap', pc'))
    (hdone : pc'.pass = q.writeset.length) (p : RecPtr) :
    heap'.word p = heap.word p + Cells.sumAt p q.wordAdditions := by
  have hcells := Memory.cells_of_run (memory_of_txnRun (fun _ => .start) h)
  have hmem := Cells.mem_of_run hcells p
  rw [added_of_txnRun h hdone, Cells.lost_of_careful (careful_of_txnRun h rfl), sub_zero] at hmem
  exact hmem

/-- Without other threads the accesses have the effect of `Execute`. -/
theorem execute_of_txnRun (hvalid : q.Valid (heap q.db).dbSize)
    (h : TxnRun i q (heap, .start) tr (heap', pc')) (hdone : pc'.pass = q.writeset.length) :
    Request.execute heap q = some heap' := by
  have hrun := memory_of_txnRun (fun _ => .start) h
  have hall : ((Cells.added tr).map Prod.snd).Perm ([q].flatMap Request.wordAdditions) := by
    rw [added_of_txnRun h hdone, List.flatMap_singleton]
  have hlost := Cells.lost_of_careful (careful_of_txnRun h rfl)
  have hheap := (updated_iff_lost hrun hall).mpr hlost
  rw [Request.execute_of_valid hvalid]
  congr 1
  funext db
  refine (Eq.trans ?_ (hheap db).symm)
  by_cases hsame : q.db = db
  · subst hsame
    simp [allAdditions]
  · rw [Function.update_of_ne (Ne.symm hsame)]
    simp [hsame, allAdditions, Database.addAll]

end Alone

/-- A request that adds 1 to every field of the only record. -/
def oneKey : Request := ⟨0, false, [0], fun _ => 1⟩

def oneRecord : Heap := fun _ => ⟨[⟨fun _ => 0⟩]⟩

theorem oneKey_valid : oneKey.Valid (oneRecord oneKey.db).dbSize :=
  ⟨by simp [oneKey, oneRecord, Database.dbSize], List.isChain_singleton 0⟩

end Cmsc624.A1
