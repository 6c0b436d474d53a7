import Cmsc624.Lib.ByteWord
import Mathlib.Algebra.Group.Action.Defs
import Mathlib.Algebra.Group.Pi.Basic

/-!
# Records and DoWrite

A record is 1000 bytes; a field of it is the 64-bit word at the start of every 100 bytes.
`DoWrite` adds to the fields. On records the additions are an action of the group of
update vectors, so only their sum matters.
-/

namespace Cmsc624.A1

open Lib

set_option autoImplicit false

def recordSize : Nat := 1000

def fieldSize : Nat := 100

def nfields : Nat := recordSize / fieldSize

/-- The array `updates_`. -/
abbrev Updates := Fin nfields → UInt64

structure Record where
  bytes : Bytes recordSize
  deriving DecidableEq

theorem nfields_pos : 0 < nfields := by decide

theorem field_bound (j : Fin nfields) : j.val * fieldSize + 8 ≤ recordSize := by
  have hj : j.val < 10 := j.isLt
  simp only [fieldSize, recordSize]
  omega

namespace Record

/-- The word at byte `FIELD_SIZE * j`. -/
def field (r : Record) (j : Fin nfields) : UInt64 :=
  r.bytes.load (j.val * fieldSize) (field_bound j)

def setField (r : Record) (j : Fin nfields) (w : UInt64) : Record :=
  ⟨r.bytes.store (j.val * fieldSize) w⟩

/-- One pass of the loop of `DoWrite`. -/
def addField (updates : Updates) (r : Record) (j : Fin nfields) : Record :=
  ⟨r.bytes.store (j.val * fieldSize) (r.field j + updates j)⟩

/-- `Request::DoWrite`. -/
def doWrite (r : Record) (updates : Updates) : Record :=
  (List.finRange nfields).foldl (addField updates) r

def InField (i : Fin recordSize) : Prop :=
  ∃ j : Fin nfields, j.val * fieldSize ≤ i.val ∧ i.val < j.val * fieldSize + 8

section Fields
variable {r r' : Record} {u v : Updates}

theorem fields_disjoint {i j : Fin nfields} (h : i ≠ j) :
    j.val * fieldSize + 8 ≤ i.val * fieldSize ∨ i.val * fieldSize + 8 ≤ j.val * fieldSize := by
  have hne : i.val ≠ j.val := fun heq => h (Fin.ext heq)
  simp only [fieldSize]
  omega

theorem setField_field (r : Record) (i j : Fin nfields) (w : UInt64) :
    (r.setField i w).field j = if i = j then w else r.field j := by
  split
  · rename_i h
    subst h
    exact Bytes.load_store_self _ _
  · rename_i h
    exact Bytes.load_store_of_disjoint _ (fields_disjoint h) _

theorem setField_outside {i : Fin recordSize} (h : ¬InField i) (r : Record) (j : Fin nfields)
    (w : UInt64) : (r.setField j w).bytes i = r.bytes i := by
  apply Bytes.store_outside
  intro hin
  exact h ⟨j, hin⟩

/-- An addition is a load and a store. -/
theorem addField_eq (u : Updates) (r : Record) (j : Fin nfields) :
    r.addField u j = r.setField j (r.field j + u j) := rfl

theorem addField_field (u : Updates) (r : Record) (i j : Fin nfields) :
    (r.addField u i).field j = if i = j then r.field j + u j else r.field j := by
  rw [addField_eq, setField_field]
  split
  · rename_i h
    rw [h]
  · rfl

theorem addField_outside {i : Fin recordSize} (h : ¬InField i) (u : Updates) (r : Record)
    (j : Fin nfields) : (r.addField u j).bytes i = r.bytes i := by
  rw [addField_eq, setField_outside h]

theorem foldl_addField_field {l : List (Fin nfields)} (hl : l.Nodup) (u : Updates) (r : Record)
    (j : Fin nfields) :
    (l.foldl (addField u) r).field j = if j ∈ l then r.field j + u j else r.field j := by
  induction l generalizing r with
  | nil => rfl
  | cons i l ih =>
    obtain ⟨hi, hl⟩ := List.nodup_cons.mp hl
    rw [List.foldl_cons, ih hl, addField_field]
    by_cases hij : i = j
    · subst hij
      simp [hi]
    · simp [hij, Ne.symm hij]

@[simp] theorem doWrite_field (r : Record) (u : Updates) (j : Fin nfields) :
    (r.doWrite u).field j = r.field j + u j := by
  rw [doWrite, foldl_addField_field (List.nodup_finRange nfields), if_pos (List.mem_finRange j)]

theorem doWrite_outside {i : Fin recordSize} (h : ¬InField i) (r : Record) (u : Updates) :
    (r.doWrite u).bytes i = r.bytes i := by
  suffices hall : ∀ (l : List (Fin nfields)) (r : Record),
      (l.foldl (addField u) r).bytes i = r.bytes i from hall _ r
  intro l
  induction l with
  | nil =>
    intro r
    rfl
  | cons j l ih =>
    intro r
    rw [List.foldl_cons, ih, addField_outside h]

/-- A record is its fields and the bytes between them. -/
theorem ext_fields (hfields : ∀ j, r.field j = r'.field j)
    (hother : ∀ i, ¬InField i → r.bytes i = r'.bytes i) : r = r' := by
  suffices h : r.bytes = r'.bytes by
    cases r
    cases r'
    exact congrArg Record.mk h
  funext i
  by_cases hi : InField i
  · obtain ⟨j, hle, hlt⟩ := hi
    exact Bytes.eq_of_load (field_bound j) (hfields j) hle hlt
  · exact hother i hi

theorem doWrite_zero (r : Record) : r.doWrite 0 = r := by
  apply ext_fields
  · intro j
    rw [doWrite_field, Pi.zero_apply, add_zero]
  · intro i hi
    exact doWrite_outside hi r 0

theorem doWrite_add (r : Record) (u v : Updates) : r.doWrite (u + v) = (r.doWrite v).doWrite u := by
  apply ext_fields
  · intro j
    rw [doWrite_field, doWrite_field, doWrite_field, Pi.add_apply, add_assoc, add_comm (v j)]
  · intro i hi
    rw [doWrite_outside hi, doWrite_outside hi, doWrite_outside hi]

end Fields

/-- The update vectors act on the records. -/
instance instAddAction : AddAction Updates Record where
  vadd u r := r.doWrite u
  zero_vadd := doWrite_zero
  add_vadd u v r := doWrite_add r u v

theorem vadd_def (u : Updates) (r : Record) : u +ᵥ r = r.doWrite u := rfl

end Record

end Cmsc624.A1
