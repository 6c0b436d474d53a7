import Mathlib.Order.Interval.Finset.Nat

/-!
# A ledger of mapped pages

`mmap` adds the pages of a range, `munmap` takes the pages of a range away. A range that is
given back with another length leaves pages behind as soon as the page counts differ.
-/

namespace Lib

set_option autoImplicit false

/-- The numbers of the pages that are mapped. -/
abbrev PageLedger := Finset Nat

namespace PageLedger

def pageSize : Nat := 4096

/-- The length in pages, rounded up. -/
def pageCount (len : Nat) : Nat := (len + (pageSize - 1)) / pageSize

def pages (addr len : Nat) : Finset Nat :=
  Finset.Ico (addr / pageSize) (addr / pageSize + pageCount len)

/-- `mmap` of `len` bytes, for which the kernel has chosen `addr`; `none` when it cannot have
chosen that, or the length is 0. -/
def mmap (ledger : PageLedger) (addr len : Nat) : Option PageLedger :=
  if addr % pageSize = 0 ∧ 0 < len ∧ Disjoint ledger (pages addr len) then
    some (ledger ∪ pages addr len)
  else none

/-- `munmap`; `none` when it reports an error. Pages that are not mapped are no error. -/
def munmap (ledger : PageLedger) (addr len : Nat) : Option PageLedger :=
  if addr % pageSize = 0 ∧ 0 < len then some (ledger \ pages addr len) else none

section Ledger
variable {ledger ledger' : PageLedger} {addr len len' : Nat}

theorem mmap_eq_some : ledger.mmap addr len = some ledger' ↔
    (addr % pageSize = 0 ∧ 0 < len ∧ Disjoint ledger (pages addr len)) ∧
      ledger' = ledger ∪ pages addr len := by
  unfold mmap
  split
  · rename_i h
    simp [h, eq_comm]
  · rename_i h
    simp [h]

theorem pages_subset : pages addr len ⊆ pages addr len' ↔ pageCount len ≤ pageCount len' := by
  constructor
  · intro h
    by_contra hlt
    have hpage : addr / pageSize + pageCount len' ∈ pages addr len := by
      apply Finset.mem_Ico.mpr
      omega
    have hin := Finset.mem_Ico.mp (h hpage)
    omega
  · intro h
    apply Finset.Ico_subset_Ico_right
    exact Nat.add_le_add_left h _

/-- The pages that stay when the range is given back with the length `len'`. -/
def left (addr len len' : Nat) : Finset Nat := pages addr len \ pages addr len'

theorem left_eq_empty : left addr len len' = ∅ ↔ pageCount len ≤ pageCount len' := by
  rw [left, Finset.sdiff_eq_empty_iff_subset, pages_subset]

theorem left_disjoint (h : ledger.mmap addr len = some ledger') (len' : Nat) :
    Disjoint (left addr len len') ledger := by
  obtain ⟨⟨_, _, hfree⟩, _⟩ := mmap_eq_some.mp h
  exact (hfree.mono_right Finset.sdiff_subset).symm

theorem mmap_subset (h : ledger.mmap addr len = some ledger') : ledger ⊆ ledger' := by
  obtain ⟨_, rfl⟩ := mmap_eq_some.mp h
  exact Finset.subset_union_left

/-- Giving back the range that was mapped last, with a length that covers no more. -/
theorem munmap_last (h : ledger.mmap addr len = some ledger') (hpos : 0 < len')
    (hle : pageCount len' ≤ pageCount len) :
    ledger'.munmap addr len' = some (ledger ∪ left addr len len') := by
  obtain ⟨⟨haligned, _, hfree⟩, rfl⟩ := mmap_eq_some.mp h
  have hless := hfree.mono_right (pages_subset.mpr hle)
  rw [munmap, if_pos ⟨haligned, hpos⟩, Finset.union_sdiff_distrib, hless.sdiff_eq_left, left]

/-- Giving back a range after which only `stays` came. -/
theorem munmap_earlier {stays : Finset Nat} (h : ledger.mmap addr len = some ledger')
    (hstays : Disjoint stays ledger') :
    (ledger' ∪ stays).munmap addr len = some (ledger ∪ stays) := by
  obtain ⟨⟨haligned, hpos, hfree⟩, rfl⟩ := mmap_eq_some.mp h
  have hother := hstays.mono_right Finset.subset_union_right
  rw [munmap, if_pos ⟨haligned, hpos⟩, Finset.union_sdiff_distrib, Finset.union_sdiff_right,
    hfree.sdiff_eq_left, hother.sdiff_eq_left]

end Ledger

end PageLedger

end Lib
