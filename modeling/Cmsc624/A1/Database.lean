import Cmsc624.A1.Record
import Mathlib.Algebra.BigOperators.Group.List.Basic

/-!
# The database of records

`Copy` and `Compare`, and what a list of writes does to a database: every record gets
the sum of the updates for its key, so the order of the writes does not matter.
-/

namespace Cmsc624.A1

set_option autoImplicit false

structure Database where
  records : List Record

namespace Database

def dbSize (db : Database) : Nat := db.records.length

/-- One pass of the loop of `Compare`: `memcmp` on record `i`. -/
def sameRecord (db1 db2 : Database) (i : Nat) : Bool := db1.records[i]? = db2.records[i]?

/-- `Database::Compare`: `some false` when it reports that the records do not match, `none`
when its assertion fails. -/
def compare (db1 db2 : Database) : Option Bool :=
  if db1.dbSize = db2.dbSize then some ((List.range db1.dbSize).all (sameRecord db1 db2)) else none

/-- One pass of the loop of `Copy`: `memcpy` of record `i`. -/
def copyRecord (src dst : Database) (i : Nat) : Database :=
  match src.records[i]? with
  | some r => ⟨dst.records.set i r⟩
  | none => dst

/-- `Database::Copy`; `none` when its assertion fails. -/
def copy (dst src : Database) : Option Database :=
  if dst.dbSize = src.dbSize then some ((List.range dst.dbSize).foldl (copyRecord src) dst)
  else none

/-- `GetRecord` and `DoWrite` on the record it leads to. The source does not check the
key; `none` stands for a key outside of the database. -/
def write (db : Database) (key : UInt64) (updates : Updates) : Option Database :=
  (db.records[key.toNat]?).map fun r => ⟨db.records.set key.toNat (r.doWrite updates)⟩

section Copy
variable {dst src db1 db2 : Database}

theorem foldl_copyRecord (src dst : Database) (n : Nat) (hn : n ≤ src.dbSize) (k : Nat)
    (hsize : dst.dbSize = src.dbSize) :
    ((List.range n).foldl (copyRecord src) dst).records[k]? =
      if k < n then src.records[k]? else dst.records[k]? := by
  suffices h : ((List.range n).foldl (copyRecord src) dst).dbSize = src.dbSize ∧
      ((List.range n).foldl (copyRecord src) dst).records[k]? =
        if k < n then src.records[k]? else dst.records[k]? from h.2
  induction n with
  | zero => exact ⟨hsize, rfl⟩
  | succ n ih =>
    obtain ⟨hlen, hget⟩ := ih (Nat.le_of_succ_le hn)
    rw [List.range_succ, List.foldl_append, List.foldl_cons, List.foldl_nil]
    have hsrc : src.records[n]? = some src.records[n] := List.getElem?_eq_getElem hn
    rw [copyRecord, hsrc]
    constructor
    · rw [dbSize, List.length_set]
      exact hlen
    · rw [List.getElem?_set]
      split
      · rename_i hnk
        subst hnk
        have hlt : n < ((List.range n).foldl (copyRecord src) dst).records.length := by
          rw [dbSize] at hlen
          omega
        rw [if_pos hlt, if_pos (Nat.lt_succ_self n), hsrc]
      · rename_i hnk
        rw [hget]
        have hiff : k < n + 1 ↔ k < n := by omega
        simp only [hiff]

theorem copy_eq {db : Database} (h : copy dst src = some db) : db = src := by
  unfold copy at h
  split at h
  · rename_i hsize
    obtain rfl := Option.some_inj.mp h
    suffices hrec : ((List.range dst.dbSize).foldl (copyRecord src) dst).records = src.records from
      congrArg Database.mk hrec
    apply List.ext_getElem?
    intro k
    rw [foldl_copyRecord src dst _ (le_of_eq hsize) k hsize]
    split
    · rfl
    · rename_i hk
      rw [dbSize, dbSize] at hsize
      rw [dbSize] at hk
      rw [List.getElem?_eq_none (by omega), List.getElem?_eq_none (by omega)]
  · cases h

/-- `Compare` accepts a database against itself, and nothing else. -/
theorem compare_eq_true : compare db1 db2 = some true ↔ db1 = db2 := by
  constructor
  · intro h
    unfold compare at h
    split at h
    · rename_i hsize
      have hall := List.all_eq_true.mp (Option.some_inj.mp h)
      suffices hrec : db1.records = db2.records from congrArg Database.mk hrec
      apply List.ext_getElem?
      intro k
      by_cases hk : k < db1.dbSize
      · have hsame := hall k (List.mem_range.mpr hk)
        exact of_decide_eq_true hsame
      · rw [dbSize, dbSize] at hsize
        rw [dbSize] at hk
        rw [List.getElem?_eq_none (by omega), List.getElem?_eq_none (by omega)]
    · cases h
  · rintro rfl
    simp [compare, sameRecord]

end Copy

/-- A write that has nothing to do when the key is outside of the database. -/
def add (db : Database) (x : UInt64 × Updates) : Database :=
  ⟨db.records.modify x.1.toNat fun r => r.doWrite x.2⟩

def addAll (db : Database) (l : List (UInt64 × Updates)) : Database := l.foldl add db

def total (l : List (UInt64 × Updates)) (k : Nat) : Updates :=
  (l.map fun x => if x.1.toNat = k then x.2 else 0).sum

section Writes
variable {db : Database} {l l' : List (UInt64 × Updates)}

@[simp] theorem add_dbSize (db : Database) (x : UInt64 × Updates) : (db.add x).dbSize = db.dbSize :=
  List.length_modify _ _ _

@[simp] theorem addAll_dbSize (db : Database) (l : List (UInt64 × Updates)) :
    (db.addAll l).dbSize = db.dbSize := by
  induction l generalizing db with
  | nil => rfl
  | cons x l ih => exact (ih (db.add x)).trans (add_dbSize db x)

theorem addAll_concat (db : Database) (l : List (UInt64 × Updates)) (x : UInt64 × Updates) :
    db.addAll (l ++ [x]) = (db.addAll l).add x := List.foldl_append

theorem addAll_append (db : Database) (l l' : List (UInt64 × Updates)) :
    db.addAll (l ++ l') = (db.addAll l).addAll l' := List.foldl_append

theorem write_eq_some {key : UInt64} {u : Updates} {db' : Database} :
    db.write key u = some db' ↔ key.toNat < db.dbSize ∧ db' = db.add (key, u) := by
  unfold write
  rw [Option.map_eq_some_iff]
  constructor
  · rintro ⟨r, hr, rfl⟩
    obtain ⟨hlt, rfl⟩ := List.getElem?_eq_some_iff.mp hr
    refine ⟨hlt, ?_⟩
    rw [add, List.modify_eq_set_getElem?]
    simp [hr]
  · rintro ⟨hlt, rfl⟩
    refine ⟨_, List.getElem?_eq_getElem hlt, ?_⟩
    rw [add, List.modify_eq_set_getElem?]
    simp [List.getElem?_eq_getElem hlt]

theorem total_nil (k : Nat) : total [] k = 0 := rfl

theorem total_cons (x : UInt64 × Updates) (l : List (UInt64 × Updates)) (k : Nat) :
    total (x :: l) k = (if x.1.toNat = k then x.2 else 0) + total l k := by
  rw [total, List.map_cons, List.sum_cons, ← total]

theorem total_append (l l' : List (UInt64 × Updates)) (k : Nat) :
    total (l ++ l') k = total l k + total l' k := by
  rw [total, List.map_append, List.sum_append, ← total, ← total]

theorem add_record (db : Database) (x : UInt64 × Updates) (k : Nat) :
    (db.add x).records[k]? =
      (db.records[k]?).map fun r => (if x.1.toNat = k then x.2 else 0) +ᵥ r := by
  rw [add, List.getElem?_modify]
  split
  · simp only [Record.vadd_def]
    rw [Option.map_eq_map]
  · simp only [zero_vadd]
    rw [Option.map_eq_map, Option.map_id']

theorem addAll_record (db : Database) (l : List (UInt64 × Updates)) (k : Nat) :
    (db.addAll l).records[k]? = (db.records[k]?).map fun r => total l k +ᵥ r := by
  induction l generalizing db with
  | nil =>
    rw [addAll, List.foldl_nil]
    simp only [total_nil, zero_vadd, Option.map_id']
  | cons x l ih =>
    rw [addAll, List.foldl_cons, ← addAll, ih (db.add x), add_record, Option.map_map]
    apply Option.map_congr
    intro r _
    rw [Function.comp_apply, total_cons, add_comm, add_vadd]

theorem total_perm (h : l.Perm l') (k : Nat) : total l k = total l' k :=
  (h.map _).sum_eq

theorem addAll_perm (h : l.Perm l') : db.addAll l = db.addAll l' := by
  suffices hrec : (db.addAll l).records = (db.addAll l').records from congrArg Database.mk hrec
  apply List.ext_getElem?
  intro k
  rw [addAll_record, addAll_record, total_perm h]

end Writes

end Database

end Cmsc624.A1
