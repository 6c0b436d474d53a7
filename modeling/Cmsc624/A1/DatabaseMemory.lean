import Cmsc624.A1.Database
import Cmsc624.Lib.PageLedger
import Cmsc624.Lib.Runs

/-!
# Create and Destroy

What `Database::Create` maps and what `Database::Destroy` gives back. The lock array is mapped
with the size of a mutex and given back with the size of a semaphore, so part of it stays as
soon as the two lengths differ in pages.
-/

namespace Cmsc624.A1

open Lib

set_option autoImplicit false

structure Mutex where
  pshared : Bool
  locked : Bool
  deriving DecidableEq

/-- The sizes on x86-64 Linux. -/
def sizeofDatabase : Nat := 24

def sizeofRecord : Nat := recordSize

def sizeofMutex : Nat := 40

def sizeofSem : Nat := 32

/-- A database with its memory: the mapped pages, the address of the object, its fields, and
what the two arrays hold. -/
structure Mapped where
  ledger : PageLedger
  object : Nat
  numRecords : UInt32
  records : Nat
  locks : Nat
  contents : Database
  mutexes : List Mutex
  contents_size : contents.dbSize = numRecords.toNat
  mutexes_length : mutexes.length = numRecords.toNat

/-- `PTHREAD_MUTEX_INITIALIZER`, or `pthread_mutex_init` with `PTHREAD_PROCESS_SHARED`. -/
def initMutex (semFlag : Nat) : Mutex := ⟨semFlag != 0, false⟩

/-- One pass of the loop of `InitRecord`; `rand` lists the results of `rand()`, and those from
`calls` on are for this record. -/
def initField (rand : Nat → Int32) (calls : Nat) (r : Record) (j : Fin nfields) : Record :=
  ⟨r.bytes.store (j.val * fieldSize) (rand (calls + j)).toInt64.toUInt64⟩

def initRecord (rand : Nat → Int32) (calls : Nat) (r : Record) : Record :=
  (List.finRange nfields).foldl (initField rand calls) r

/-- Anonymous pages are mapped with zeros in them. -/
def zeroRecord : Record := ⟨fun _ => 0⟩

/-- `Database::Create`, where the kernel maps at the addresses `dbMem`, `recordMem` and
`mutexMem`; `none` when an assertion fails. -/
def create (rand : Nat → Int32) (dbMem recordMem mutexMem : Nat) (recordNum : UInt32)
    (multiProcess : Bool) (ledger : PageLedger) : Option Mapped := do
  guard (recordSize % fieldSize = 0)
  let ledger ← ledger.mmap dbMem sizeofDatabase
  let ledger ← ledger.mmap recordMem (sizeofRecord * recordNum.toNat)
  let ledger ← ledger.mmap mutexMem (sizeofMutex * recordNum.toNat)
  let semFlag := if multiProcess then 1 else 0
  some {
    ledger := ledger
    object := dbMem
    numRecords := recordNum
    records := recordMem
    locks := mutexMem
    contents := ⟨(List.range recordNum.toNat).map fun i => initRecord rand (nfields * i) zeroRecord⟩
    mutexes := (List.range recordNum.toNat).map fun _ => initMutex semFlag
    contents_size := by rw [Database.dbSize, List.length_map, List.length_range]
    mutexes_length := by rw [List.length_map, List.length_range] }

namespace Mapped

/-- `Database::LockRecord`; `none` when the assertion fails, or the caller waits. -/
def lockRecord (s : Mapped) (key : UInt64) : Option Mapped := do
  let m ← s.mutexes[key.toNat]?
  if m.locked then none
  else some { s with
    mutexes := s.mutexes.set key.toNat { m with locked := true }
    mutexes_length := by rw [List.length_set, s.mutexes_length] }

/-- `Database::UnlockRecord`; `none` when the assertion fails. -/
def unlockRecord (s : Mapped) (key : UInt64) : Option Mapped := do
  let m ← s.mutexes[key.toNat]?
  some { s with
    mutexes := s.mutexes.set key.toNat { m with locked := false }
    mutexes_length := by rw [List.length_set, s.mutexes_length] }

/-- `Database::GetRecord`, the address of a record. The key is not checked. -/
def getRecord (s : Mapped) (key : UInt64) : Nat := s.records + sizeofRecord * key.toNat

/-- What the caller makes of a record that it has got; `none` when there is no such record. -/
def changeRecord (s : Mapped) (key : UInt64) (change : Record → Record) : Option Mapped := do
  let r ← s.contents.records[key.toNat]?
  some { s with
    contents := ⟨s.contents.records.set key.toNat (change r)⟩
    contents_size := by
      rw [← s.contents_size, Database.dbSize, Database.dbSize, List.length_set] }

/-- `Database::Destroy`; `none` when an assertion fails. `pthread_mutex_destroy` unmaps
nothing, and its result is not looked at. -/
def destroy (s : Mapped) : Option PageLedger := do
  let ledger ← s.ledger.munmap s.locks (sizeofSem * s.numRecords.toNat)
  let ledger ← ledger.munmap s.records (sizeofRecord * s.numRecords.toNat)
  ledger.munmap s.object sizeofDatabase

end Mapped

inductive Use where
  | lockRecord (key : UInt64)
  | unlockRecord (key : UInt64)
  | getRecord (key : UInt64) (record : Nat)
  | changeRecord (key : UInt64) (change : Record → Record)

def Use.Step (s : Mapped) : Use → Mapped → Prop
  | .lockRecord key, s' => s.lockRecord key = some s'
  | .unlockRecord key, s' => s.unlockRecord key = some s'
  | .getRecord key record, s' => s.getRecord key = record ∧ s' = s
  | .changeRecord key change, s' => s.changeRecord key change = some s'

/-- What `Destroy` looks at is as it was. -/
structure Mapped.SameMemory (s s' : Mapped) : Prop where
  ledger : s'.ledger = s.ledger
  object : s'.object = s.object
  numRecords : s'.numRecords = s.numRecords
  records : s'.records = s.records
  locks : s'.locks = s.locks

section Uses
variable {s s' s'' : Mapped} {u : Use} {uses : List Use}

theorem Use.Step.sameMemory (h : u.Step s s') : s.SameMemory s' := by
  cases u with
  | lockRecord key =>
    obtain ⟨m, _, h⟩ := Option.bind_eq_some_iff.mp h
    split at h
    · cases h
    · obtain rfl := Option.some.inj h
      exact ⟨rfl, rfl, rfl, rfl, rfl⟩
  | unlockRecord key =>
    obtain ⟨m, _, h⟩ := Option.bind_eq_some_iff.mp h
    obtain rfl := Option.some.inj h
    exact ⟨rfl, rfl, rfl, rfl, rfl⟩
  | getRecord key record =>
    obtain ⟨_, rfl⟩ := h
    exact ⟨rfl, rfl, rfl, rfl, rfl⟩
  | changeRecord key change =>
    obtain ⟨r, _, h⟩ := Option.bind_eq_some_iff.mp h
    obtain rfl := Option.some.inj h
    exact ⟨rfl, rfl, rfl, rfl, rfl⟩

theorem Mapped.SameMemory.trans (h : s.SameMemory s') (h' : s'.SameMemory s'') :
    s.SameMemory s'' := by
  constructor
  · rw [h'.ledger, h.ledger]
  · rw [h'.object, h.object]
  · rw [h'.numRecords, h.numRecords]
  · rw [h'.records, h.records]
  · rw [h'.locks, h.locks]

theorem sameMemory_of_uses (h : Run Use.Step s uses s') : s.SameMemory s' := by
  apply h.stateInvariant (I := s.SameMemory) ⟨rfl, rfl, rfl, rfl, rfl⟩
  intro m u m' hm hu
  exact hm.trans hu.sameMemory

theorem destroy_congr (h : s.SameMemory s') : s'.destroy = s.destroy := by
  unfold Mapped.destroy
  rw [h.ledger, h.object, h.numRecords, h.records, h.locks]

/-- A lock can be taken exactly when it is one of the database and nobody has it. -/
theorem lockRecord_isSome {key : UInt64} : (s.lockRecord key).isSome ↔
    ∃ m, s.mutexes[key.toNat]? = some m ∧ m.locked = false := by
  cases h : s.mutexes[key.toNat]? with
  | none => simp [Mapped.lockRecord, h]
  | some m => cases hm : m.locked <;> simp [Mapped.lockRecord, h, hm]

theorem changeRecord_isSome {key : UInt64} {change : Record → Record} :
    (s.changeRecord key change).isSome ↔ key.toNat < s.numRecords.toNat := by
  rw [← s.contents_size, Database.dbSize]
  cases h : s.contents.records[key.toNat]? with
  | none =>
    have hlen := List.getElem?_eq_none_iff.mp h
    simp [Mapped.changeRecord, hlen]
  | some r =>
    have hlen := (List.getElem?_eq_some_iff.mp h).1
    simp [Mapped.changeRecord, hlen]

end Uses

section Ledger
variable {rand : Nat → Int32} {dbMem recordMem mutexMem : Nat} {recordNum : UInt32}
  {multiProcess : Bool} {ledger : PageLedger} {s s' : Mapped} {uses : List Use}

theorem create_maps
    (h : create rand dbMem recordMem mutexMem recordNum multiProcess ledger = some s) :
    (s.object = dbMem ∧ s.numRecords = recordNum ∧ s.records = recordMem ∧ s.locks = mutexMem) ∧
      ∃ ledger₁ ledger₂, ledger.mmap dbMem sizeofDatabase = some ledger₁ ∧
        ledger₁.mmap recordMem (sizeofRecord * recordNum.toNat) = some ledger₂ ∧
        ledger₂.mmap mutexMem (sizeofMutex * recordNum.toNat) = some s.ledger := by
  unfold create at h
  obtain ⟨_, _, h⟩ := Option.bind_eq_some_iff.mp h
  obtain ⟨ledger₁, hobject, h⟩ := Option.bind_eq_some_iff.mp h
  obtain ⟨ledger₂, hrecords, h⟩ := Option.bind_eq_some_iff.mp h
  obtain ⟨ledger₃, hlocks, h⟩ := Option.bind_eq_some_iff.mp h
  obtain rfl := Option.some.inj h
  exact ⟨⟨rfl, rfl, rfl, rfl⟩, ledger₁, ledger₂, hobject, hrecords, hlocks⟩

/-- Where the kernel finds the three ranges, `Create` succeeds, and nobody has a lock. -/
theorem create_of_maps (rand : Nat → Int32) (multiProcess : Bool)
    {ledger₁ ledger₂ ledger₃ : PageLedger}
    (hobject : ledger.mmap dbMem sizeofDatabase = some ledger₁)
    (hrecords : ledger₁.mmap recordMem (sizeofRecord * recordNum.toNat) = some ledger₂)
    (hlocks : ledger₂.mmap mutexMem (sizeofMutex * recordNum.toNat) = some ledger₃) :
    ∃ s, create rand dbMem recordMem mutexMem recordNum multiProcess ledger = some s ∧
      ∀ m ∈ s.mutexes, m = ⟨multiProcess, false⟩ := by
  have hsizes : (guard (recordSize % fieldSize = 0) : Option Unit) = some () := rfl
  unfold create
  simp only [hsizes, Option.bind_eq_bind, Option.bind_some, hobject, hrecords, hlocks]
  refine ⟨_, rfl, fun m hm => ?_⟩
  obtain ⟨i, _, rfl⟩ := List.mem_map.mp hm
  cases multiProcess <;> rfl

/-- The pages of the lock array that `Destroy` leaves. -/
def leftLocks (mutexMem : Nat) (recordNum : UInt32) : Finset Nat :=
  PageLedger.left mutexMem (sizeofMutex * recordNum.toNat) (sizeofSem * recordNum.toNat)

theorem leftLocks_eq_empty : leftLocks mutexMem recordNum = ∅ ↔
    recordNum.toNat ≤ 102 ∨ 129 ≤ recordNum.toNat ∧ recordNum.toNat ≤ 204 ∨
      257 ≤ recordNum.toNat ∧ recordNum.toNat ≤ 307 ∨
      385 ≤ recordNum.toNat ∧ recordNum.toNat ≤ 409 := by
  rw [leftLocks, PageLedger.left_eq_empty]
  simp only [PageLedger.pageCount, PageLedger.pageSize, sizeofMutex, sizeofSem, Nat.reduceSub]
  -- 128 semaphores fill a page; from the fifth page on the mutexes need a page more
  have hpages : (32 * recordNum.toNat + 4095) / 4096 ≤ 1 ∨
      (32 * recordNum.toNat + 4095) / 4096 = 2 ∨ (32 * recordNum.toNat + 4095) / 4096 = 3 ∨
      (32 * recordNum.toNat + 4095) / 4096 = 4 ∨ 5 ≤ (32 * recordNum.toNat + 4095) / 4096 := by
    omega
  rcases hpages with h | h | h | h | h <;> omega

/-- `Destroy` gives back the object and the records, and of the locks all but some pages. -/
theorem destroy_of_create
    (h : create rand dbMem recordMem mutexMem recordNum multiProcess ledger = some s) :
    s.destroy = some (ledger ∪ leftLocks mutexMem recordNum) ∧
      Disjoint (leftLocks mutexMem recordNum) ledger := by
  obtain ⟨⟨hobject, hnum, hrecords, hlocks⟩, ledger₁, ledger₂, hmap₁, hmap₂, hmap₃⟩ :=
    create_maps h
  have hpos : 0 < sizeofSem * recordNum.toNat := by
    have hlen := (PageLedger.mmap_eq_some.mp hmap₃).1.2.1
    simp only [sizeofMutex, sizeofSem] at hlen ⊢
    omega
  have hcount : PageLedger.pageCount (sizeofSem * recordNum.toNat) ≤
      PageLedger.pageCount (sizeofMutex * recordNum.toNat) := by
    simp only [PageLedger.pageCount, PageLedger.pageSize, sizeofMutex, sizeofSem]
    omega
  have hdisjoint₂ : Disjoint (leftLocks mutexMem recordNum) ledger₂ :=
    PageLedger.left_disjoint hmap₃ _
  have hdisjoint₁ := hdisjoint₂.mono_right (PageLedger.mmap_subset hmap₂)
  refine ⟨?_, hdisjoint₁.mono_right (PageLedger.mmap_subset hmap₁)⟩
  unfold Mapped.destroy
  rw [hnum, hobject, hrecords, hlocks, PageLedger.munmap_last hmap₃ hpos hcount, ← leftLocks]
  calc
    _ = (ledger₂ ∪ leftLocks mutexMem recordNum).munmap recordMem
          (sizeofRecord * recordNum.toNat) >>= fun l => l.munmap dbMem sizeofDatabase := rfl
    _ = (ledger₁ ∪ leftLocks mutexMem recordNum).munmap dbMem sizeofDatabase := by
      rw [PageLedger.munmap_earlier hmap₂ hdisjoint₂]
      rfl
    _ = some (ledger ∪ leftLocks mutexMem recordNum) :=
      PageLedger.munmap_earlier hmap₁ hdisjoint₁

/-- The pages before `Create` are back after `Destroy` exactly when the lock array has as many
pages with the size of a semaphore as with that of a mutex. Otherwise the pages behind stay. -/
theorem destroy_restores_iff
    (hcreate : create rand dbMem recordMem mutexMem recordNum multiProcess ledger = some s)
    (huses : Run Use.Step s uses s') :
    (s'.destroy = some ledger ↔
      recordNum.toNat ≤ 102 ∨ 129 ≤ recordNum.toNat ∧ recordNum.toNat ≤ 204 ∨
        257 ≤ recordNum.toNat ∧ recordNum.toNat ≤ 307 ∨
        385 ≤ recordNum.toNat ∧ recordNum.toNat ≤ 409) ∧
      s'.destroy = some (ledger ∪ leftLocks mutexMem recordNum) := by
  obtain ⟨heq, hdisjoint⟩ := destroy_of_create hcreate
  have hsame := destroy_congr (sameMemory_of_uses huses)
  refine ⟨?_, hsame.trans heq⟩
  rw [hsame, heq, Option.some_inj, Finset.union_eq_left, ← leftLocks_eq_empty]
  constructor
  · intro hsub
    exact Finset.disjoint_self_iff_empty _ |>.mp (hdisjoint.mono_right hsub)
  · intro hempty
    rw [hempty]
    exact Finset.empty_subset _

end Ledger

/-- One record, which is changed under its lock. -/
theorem destroy_restores_one : ∃ s s', create (fun _ => 7) 4096 8192 12288 1 true {5} = some s ∧
    Run Use.Step s [.lockRecord 0, .getRecord 0 8192, .changeRecord 0 fun _ => zeroRecord] s' ∧
    s'.destroy = some {5} := by
  have hobject : PageLedger.mmap {5} 4096 sizeofDatabase = some {5, 1} := by decide
  have hrecords : PageLedger.mmap {5, 1} 8192 (sizeofRecord * (1 : UInt32).toNat) =
    some {5, 1, 2} := by decide
  have hlocks : PageLedger.mmap {5, 1, 2} 12288 (sizeofMutex * (1 : UInt32).toNat) =
    some {5, 1, 2, 3} := by decide
  obtain ⟨s, hs, hfree⟩ := create_of_maps (fun _ => 7) true hobject hrecords hlocks
  obtain ⟨_, hnum, haddr, _⟩ := (create_maps hs).1
  have hlen : 0 < s.mutexes.length := by
    rw [s.mutexes_length, hnum]
    decide
  have hfirst : (s.lockRecord 0).isSome := by
    have hm := hfree _ (List.getElem_mem hlen)
    exact lockRecord_isSome.mpr ⟨_, List.getElem?_eq_getElem hlen, by rw [hm]⟩
  obtain ⟨s₁, hlock⟩ := Option.isSome_iff_exists.mp hfirst
  have hrun : Run Use.Step s [.lockRecord 0] s₁ := .single hlock
  have hsame := sameMemory_of_uses hrun
  have hget : Use.Step s₁ (.getRecord 0 8192) s₁ :=
    ⟨by rw [Mapped.getRecord, hsame.records, haddr]; rfl, rfl⟩
  have hkey : (0 : UInt64).toNat < s₁.numRecords.toNat := by
    rw [hsame.numRecords, hnum]
    decide
  obtain ⟨s₂, hchange⟩ := Option.isSome_iff_exists.mp
    (changeRecord_isSome.mpr hkey : (s₁.changeRecord 0 fun _ => zeroRecord).isSome)
  have hstep : Use.Step s₁ (.changeRecord 0 fun _ => zeroRecord) s₂ := hchange
  have hrun := (hrun.snoc hget).snoc hstep
  exact ⟨s, s₂, hs, hrun, (destroy_restores_iff hs hrun).1.mpr (by decide)⟩

/-- With 103 records the second page of the locks stays. -/
theorem destroy_leaves_page : ∃ s, create (fun _ => 7) 4096 8192 114688 103 false ∅ = some s ∧
    Run Use.Step s [] s ∧ s.destroy = some {29} ∧ s.destroy ≠ some ∅ := by
  have hobject : PageLedger.mmap ∅ 4096 sizeofDatabase = some {1} := by decide
  have hrecords : PageLedger.mmap {1} 8192 (sizeofRecord * (103 : UInt32).toNat) =
    some (Finset.Ico 1 28) := by decide
  have hlocks : PageLedger.mmap (Finset.Ico 1 28) 114688 (sizeofMutex * (103 : UInt32).toNat) =
    some (Finset.Ico 1 30) := by decide
  obtain ⟨s, hs, _⟩ := create_of_maps (fun _ => 7) false hobject hrecords hlocks
  have hleft : ∅ ∪ leftLocks 114688 103 = {29} := by decide
  have heq := (destroy_of_create hs).1
  rw [hleft] at heq
  refine ⟨s, hs, .nil, heq, ?_⟩
  rw [heq]
  decide

end Cmsc624.A1
