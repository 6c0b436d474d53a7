import Mathlib.Algebra.BigOperators.Group.Finset.Piecewise
import Mathlib.Algebra.Order.Group.Multiset

/-!
# Logs of several channels

A log whose entries are tagged with a channel is the sum of the logs of the channels, up
to the order between channels.
-/

namespace Lib

open scoped BigOperators

universe u v
variable {ι : Type u} [DecidableEq ι] {α : Type v}

/-- The entries of channel `i`, in order. -/
def onChannel (l : List (ι × α)) (i : ι) : List α :=
  l.filterMap fun x => if x.1 = i then some x.2 else none

@[simp] theorem onChannel_nil (i : ι) : onChannel ([] : List (ι × α)) i = [] := rfl

@[simp] theorem onChannel_append (l l' : List (ι × α)) (i : ι) :
    onChannel (l ++ l') i = onChannel l i ++ onChannel l' i := List.filterMap_append

theorem onChannel_cons (x : ι × α) (l : List (ι × α)) (i : ι) :
    onChannel (x :: l) i = (if x.1 = i then [x.2] else []) ++ onChannel l i := by
  unfold onChannel
  rw [List.filterMap_cons]
  by_cases hx : x.1 = i
  · simp only [hx, if_true, List.singleton_append]
  · simp only [hx, if_false, List.nil_append]

theorem onChannel_self (i : ι) (a : α) : onChannel [(i, a)] i = [a] := by
  simp [onChannel_cons]

theorem onChannel_of_ne {i j : ι} (h : j ≠ i) (a : α) : onChannel [(j, a)] i = [] := by
  simp [onChannel_cons, h]

theorem onChannel_eq_map {l : List (ι × α)} {i : ι} (h : ∀ x ∈ l, x.1 = i) :
    onChannel l i = l.map Prod.snd := by
  unfold onChannel
  rw [← List.filterMap_eq_map]
  apply List.filterMap_congr
  intro x hx
  rw [if_pos (h x hx), Function.comp_apply]

theorem sum_onChannel [Fintype ι] (l : List (ι × α)) :
    ∑ i, (onChannel l i : Multiset α) = (l.map Prod.snd : List α) := by
  induction l with
  | nil =>
    apply Finset.sum_eq_zero
    intro i _
    rfl
  | cons x l ih =>
    have hsplit : ∀ i, (onChannel (x :: l) i : Multiset α) =
        (if x.1 = i then {x.2} else 0) + (onChannel l i : Multiset α) := by
      intro i
      rw [onChannel_cons, ← Multiset.coe_add]
      split
      · rfl
      · rfl
    rw [Finset.sum_congr rfl fun i _ => hsplit i, Finset.sum_add_distrib, ih, Finset.sum_ite_eq]
    simp

/-- Two logs with the same channels differ in the order between channels only. -/
theorem perm_of_onChannel [DecidableEq α] {l l' : List (ι × α)}
    (h : ∀ i, onChannel l i = onChannel l' i) : l.Perm l' := by
  have hcount : ∀ (l : List (ι × α)) (i : ι) (a : α), (onChannel l i).count a = l.count (i, a) := by
    intro l i a
    induction l with
    | nil => rfl
    | cons x l ih =>
      obtain ⟨j, b⟩ := x
      rw [onChannel_cons, List.count_append, ih, List.count_cons]
      by_cases hj : j = i
      · by_cases hb : b = a
        · simp [hj, hb, Nat.add_comm]
        · simp [hj, hb]
      · simp [hj]
  rw [List.perm_iff_count]
  rintro ⟨i, a⟩
  rw [← hcount, ← hcount, h i]

theorem onChannel_flatMap {l : List ι} (hl : l.Nodup) (xs : ι → List α) (i : ι) :
    onChannel (l.flatMap fun j => (xs j).map (j, ·)) i = if i ∈ l then xs i else [] := by
  have hone : ∀ j, onChannel ((xs j).map (j, ·)) i = if j = i then xs i else [] := by
    intro j
    unfold onChannel
    rw [List.filterMap_map]
    by_cases hj : j = i
    · subst hj
      simp
    · simp [hj]
  induction l with
  | nil => rfl
  | cons j l ih =>
    obtain ⟨hj, hl⟩ := List.nodup_cons.mp hl
    rw [List.flatMap_cons, onChannel_append, hone, ih hl]
    by_cases hji : j = i
    · subst hji
      simp [hj]
    · simp [hji, Ne.symm hji]

theorem flatMap_range_getElem {β : Type*} (xs : List β) (f : β → List α) :
    ((List.range xs.length).flatMap fun i => xs[i]?.toList.flatMap f) = xs.flatMap f := by
  induction xs using List.reverseRecOn with
  | nil => rfl
  | append_singleton xs x ih =>
    have hold : ((List.range xs.length).flatMap fun i => (xs ++ [x])[i]?.toList.flatMap f) =
        (List.range xs.length).flatMap fun i => xs[i]?.toList.flatMap f := by
      apply List.flatMap_congr
      intro i hi
      rw [List.getElem?_append_left (List.mem_range.mp hi)]
    rw [List.length_append, List.length_singleton, List.range_succ, List.flatMap_append, hold, ih,
      List.flatMap_append, List.flatMap_singleton, List.getElem?_concat_length]
    rfl

/-- A log whose channels are the entries of a list holds what the entries hold together. -/
theorem perm_of_channels [DecidableEq α] {β : Type*} {l : List (Nat × α)} {xs : List β}
    {f : β → List α} (h : ∀ i, onChannel l i = xs[i]?.toList.flatMap f) :
    (l.map Prod.snd).Perm (xs.flatMap f) := by
  have hperm : l.Perm ((List.range xs.length).flatMap fun i =>
      (xs[i]?.toList.flatMap f).map (i, ·)) := by
    apply perm_of_onChannel
    intro i
    rw [h i, onChannel_flatMap List.nodup_range]
    split
    · rfl
    · rename_i hi
      rw [List.mem_range, Nat.not_lt] at hi
      rw [List.getElem?_eq_none hi]
      rfl
  refine (hperm.map Prod.snd).trans (List.Perm.of_eq ?_)
  rw [List.map_flatMap, ← flatMap_range_getElem xs f]
  simp only [List.map_map, Function.comp_def, List.map_id']

end Lib
