import Mathlib.Data.Finset.Card
import Mathlib.Data.Finset.Image

/-!
# Sampling without replacement by rejection

A sampler draws values from a stream and takes those that it has not taken before, until it
has as many as it wants. What it has taken and what it still wants add up to the same number,
so a pool with that many values is never used up.
-/

namespace Lib.Sampling

set_option autoImplicit false

universe u
variable {α : Type u}

/-- What was taken, and how many values are still wanted. -/
structure State (α : Type u) where
  taken : Finset α
  wanted : Nat

def State.total (s : State α) : Nat := s.taken.card + s.wanted

/-- A pool that is large enough has always a value that would be taken. -/
theorem exists_accepted {s : State α} {pool : Finset α} (hs : s.total ≤ pool.card)
    (hw : 0 < s.wanted) : ∃ a ∈ pool, a ∉ s.taken := by
  apply Finset.exists_mem_notMem_of_card_lt_card
  unfold State.total at hs
  omega

variable [DecidableEq α]

def State.draw (s : State α) (a : α) : State α :=
  if s.wanted = 0 ∨ a ∈ s.taken then s else ⟨insert a s.taken, s.wanted - 1⟩

def State.after (s : State α) (stream : Nat → α) : Nat → State α
  | 0 => s
  | n + 1 => (s.after stream n).draw (stream n)

section Draw
variable {s : State α} {a : α} {pool : Finset α} {stream : Nat → α} {m n : Nat}

theorem draw_rejected (h : s.wanted = 0 ∨ a ∈ s.taken) : s.draw a = s := if_pos h

theorem draw_accepted (hw : 0 < s.wanted) (ha : a ∉ s.taken) :
    s.draw a = ⟨insert a s.taken, s.wanted - 1⟩ := by
  apply if_neg
  rintro (hzero | hin)
  · exact Nat.ne_of_gt hw hzero
  · exact ha hin

theorem draw_total (s : State α) (a : α) : (s.draw a).total = s.total := by
  by_cases h : s.wanted = 0 ∨ a ∈ s.taken
  · rw [draw_rejected h]
  · obtain ⟨hw, ha⟩ := not_or.mp h
    rw [draw_accepted (Nat.pos_of_ne_zero hw) ha]
    simp only [State.total, Finset.card_insert_of_notMem ha]
    omega

theorem subset_draw (s : State α) (a : α) : s.taken ⊆ (s.draw a).taken := by
  unfold State.draw
  split
  · exact Finset.Subset.refl _
  · exact Finset.subset_insert _ _

theorem draw_subset (hs : s.taken ⊆ pool) (ha : a ∈ pool) : (s.draw a).taken ⊆ pool := by
  unfold State.draw
  split
  · exact hs
  · exact Finset.insert_subset ha hs

theorem after_total (s : State α) (stream : Nat → α) (n : Nat) :
    (s.after stream n).total = s.total := by
  induction n with
  | zero => rfl
  | succ n ih => exact (draw_total _ _).trans ih

theorem after_subset (hs : s.taken ⊆ pool) (hstream : ∀ n, stream n ∈ pool) (n : Nat) :
    (s.after stream n).taken ⊆ pool := by
  induction n with
  | zero => exact hs
  | succ n ih => exact draw_subset ih (hstream n)

theorem after_mono (s : State α) (stream : Nat → α) (hmn : m ≤ n) :
    (s.after stream m).taken ⊆ (s.after stream n).taken := by
  induction hmn with
  | refl => exact Finset.Subset.refl _
  | step _ ih => exact ih.trans (subset_draw _ _)

theorem wanted_mono (s : State α) (stream : Nat → α) (hmn : m ≤ n) :
    (s.after stream n).wanted ≤ (s.after stream m).wanted := by
  have hcard := Finset.card_le_card (after_mono s stream hmn)
  have hm := after_total s stream m
  have hn := after_total s stream n
  unfold State.total at hm hn
  omega

/-- As long as a value is wanted, a stream in which all values recur brings a new one. -/
theorem wanted_decreases (hpool : s.total ≤ pool.card)
    (hrecur : ∀ a ∈ pool, ∀ n, ∃ m, n ≤ m ∧ stream m = a) (hw : 0 < (s.after stream n).wanted) :
    ∃ m, (s.after stream m).wanted < (s.after stream n).wanted := by
  have htotal := after_total s stream n
  obtain ⟨a, ha, hnew⟩ := exists_accepted (by rw [htotal]; exact hpool) hw
  obtain ⟨m, hnm, hm⟩ := hrecur a ha n
  have hle := wanted_mono s stream hnm
  by_cases heq : (s.after stream m).wanted = (s.after stream n).wanted
  · -- nothing was taken in between
    have hsame : (s.after stream n).taken = (s.after stream m).taken := by
      apply Finset.eq_of_subset_of_card_le (after_mono s stream hnm)
      have htotal' := after_total s stream m
      unfold State.total at htotal htotal'
      omega
    refine ⟨m + 1, ?_⟩
    rw [State.after, hm, draw_accepted (by omega) (hsame ▸ hnew)]
    show (s.after stream m).wanted - 1 < _
    omega
  · exact ⟨m, by omega⟩

/-- A sampler comes to its end on a stream in which all values of a large enough pool recur. -/
theorem exists_done (hpool : s.total ≤ pool.card)
    (hrecur : ∀ a ∈ pool, ∀ n, ∃ m, n ≤ m ∧ stream m = a) :
    ∃ n, (s.after stream n).wanted = 0 := by
  suffices h : ∀ k n, (s.after stream n).wanted = k → ∃ n, (s.after stream n).wanted = 0 from
    h _ 0 rfl
  intro k
  induction k using Nat.strongRecOn with
  | _ k ih =>
    intro n hk
    by_cases hzero : k = 0
    · exact ⟨n, hk.trans hzero⟩
    · obtain ⟨m, hm⟩ := wanted_decreases hpool hrecur (Nat.pos_of_ne_zero (hk ▸ hzero))
      exact ih _ (hk ▸ hm) m rfl

theorem after_of_injective (hs : s.taken = ∅) (hn : n ≤ s.wanted)
    (hinj : ∀ i j, i < n → j < n → stream i = stream j → i = j) :
    s.after stream n = ⟨(Finset.range n).image stream, s.wanted - n⟩ := by
  induction n with
  | zero =>
    rw [State.after, Finset.range_zero, Finset.image_empty, Nat.sub_zero, ← hs]
  | succ n ih =>
    have ih := ih (by omega) fun i j hi hj => hinj i j (by omega) (by omega)
    have hnew : stream n ∉ (s.after stream n).taken := by
      rw [ih]
      intro hmem
      obtain ⟨i, hi, heq⟩ := Finset.mem_image.mp hmem
      have hlt := Finset.mem_range.mp hi
      have := hinj i n (by omega) (by omega) heq
      omega
    have hw : 0 < (s.after stream n).wanted := by
      rw [ih]
      show 0 < s.wanted - n
      omega
    rw [State.after, draw_accepted hw hnew, ih, Finset.range_add_one, Finset.image_insert,
      Nat.sub_sub]

end Draw

end Lib.Sampling
