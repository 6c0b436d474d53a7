import Mathlib.Algebra.GroupWithZero.Nat
import Mathlib.Data.List.Induction

/-!
# Tables of threads

A thread table is the list of the threads' program counters, in the order of creation. One
step replaces one entry, or adds one at the end.
-/

namespace Lib.Threads

set_option autoImplicit false

universe u v
variable {α : Type u} {β : Type v} {l : List α} {i j : Nat} {x y : α} {p : α → Bool} {f : α → β}

theorem getElem?_set (hx : l[i]? = some x) (y : α) (j : Nat) :
    (l.set i y)[j]? = if i = j then some y else l[j]? := by
  obtain ⟨hi, _⟩ := List.getElem?_eq_some_iff.mp hx
  rw [List.getElem?_set]
  simp only [hi, if_true]

theorem getElem?_concat (l : List α) (y : α) (j : Nat) :
    (l ++ [y])[j]? = if j = l.length then some y else l[j]? := by
  by_cases hj : j = l.length
  · rw [if_pos hj, hj, List.getElem?_concat_length]
  · rw [if_neg hj]
    by_cases hlt : j < l.length
    · rw [List.getElem?_append_left hlt]
    · have hgt : l.length + 1 ≤ j := by omega
      rw [List.getElem?_eq_none (by simpa using hgt), List.getElem?_eq_none (by omega)]

theorem map_getElem? (f : α → β) (hx : l[i]? = some x) : (l.map f)[i]? = some (f x) := by
  rw [List.getElem?_map, hx, Option.map_some]

/-- A view of the table that does not tell the new entry from the old one. -/
theorem map_set_same (hx : l[i]? = some x) (hf : f y = f x) : (l.set i y).map f = l.map f := by
  rw [List.map_set, hf]
  obtain ⟨hi, hget⟩ := List.getElem?_eq_some_iff.mp (map_getElem? f hx)
  rw [← hget, List.set_getElem_self]

theorem countP_set (p : α → Bool) (hx : l[i]? = some x) (y : α) :
    (l.set i y).countP p + (if p x then 1 else 0) = l.countP p + if p y then 1 else 0 := by
  obtain ⟨hi, rfl⟩ := List.getElem?_eq_some_iff.mp hx
  rw [List.countP_set hi]
  have hpos : p l[i] = true → 0 < l.countP p := fun hp =>
    List.countP_pos_iff.mpr ⟨l[i], List.getElem_mem hi, hp⟩
  split
  · rename_i hp
    have := hpos hp
    omega
  · omega

theorem countP_set_same (hx : l[i]? = some x) (hp : p y = p x) :
    (l.set i y).countP p = l.countP p := by
  have := countP_set p hx y
  rw [hp] at this
  exact Nat.add_right_cancel this

theorem sum_map_set (f : α → Nat) (hx : l[i]? = some x) (y : α) :
    ((l.set i y).map f).sum + f x = (l.map f).sum + f y := by
  induction l generalizing i with
  | nil => cases hx
  | cons z l ih =>
    cases i with
    | zero =>
      obtain rfl := Option.some.inj hx
      simp only [List.set_cons_zero, List.map_cons, List.sum_cons]
      omega
    | succ i =>
      have htail := ih hx
      simp only [List.set_cons_succ, List.map_cons, List.sum_cons]
      omega

theorem mem_filter_range :
    i ∈ (List.range l.length).filter (fun j => l[j]?.any p) ↔ ∃ x, l[i]? = some x ∧ p x = true := by
  rw [List.mem_filter, List.mem_range, Option.any_eq_true]
  constructor
  · rintro ⟨_, hany⟩
    exact hany
  · rintro ⟨x, hx, hp⟩
    exact ⟨(List.getElem?_eq_some_iff.mp hx).1, x, hx, hp⟩

theorem countP_eq_length_filter (p : α → Bool) (l : List α) :
    l.countP p = ((List.range l.length).filter fun j => l[j]?.any p).length := by
  rw [← List.countP_eq_length_filter]
  induction l using List.reverseRecOn with
  | nil => rfl
  | append_singleton l x ih =>
    rw [List.countP_append, List.length_append, List.length_singleton, List.range_succ,
      List.countP_append, ih]
    congr 1
    · apply List.countP_congr
      intro j hj
      rw [List.getElem?_append_left (List.mem_range.mp hj)]
    · simp

/-- The threads `H` are those whose program counter is in the critical section `p`. -/
def Holds (p : α → Bool) (l : List α) (H : Nat → Prop) : Prop :=
  ∀ j : Nat, H j ↔ ∃ z, l[j]? = some z ∧ p z = true

variable {H H' : Nat → Prop}

theorem Holds.set (h : Holds p l H) (hx : l[i]? = some x) (hself : H' i ↔ p y = true)
    (hother : ∀ j, j ≠ i → (H' j ↔ H j)) : Holds p (l.set i y) H' := by
  intro j
  rw [getElem?_set hx]
  by_cases hj : j = i
  · subst hj
    simp [hself]
  · rw [hother j hj, h j, if_neg (Ne.symm hj)]

theorem Holds.concat (h : Holds p l H) (hy : p y = false) : Holds p (l ++ [y]) H := by
  intro j
  rw [h j, getElem?_concat]
  split
  · rename_i hj
    subst hj
    simp [hy]
  · rfl

end Lib.Threads
