import Mathlib.Data.List.TakeWhile

/-!
# First-come first-served queues of shared and exclusive requests

A queue of lock requests, oldest first. Its holders are the first request alone when
that one is exclusive, and otherwise the longest prefix of shared requests. A request
appended at the end never changes who holds the lock already, and removing a request
never takes the lock from another holder.
-/

namespace Lib.LockQueue

universe u
variable {ρ : Type u} (shared : ρ → Bool)

def holders : List ρ → List ρ
  | [] => []
  | r :: q => if shared r then r :: q.takeWhile shared else [r]

/-- Whether a request appended to the queue is granted at once. -/
def grantable (q : List ρ) (r : ρ) : Bool := q.isEmpty || (shared r && q.all shared)

variable {shared} {q q' : List ρ} {r r' : ρ}

@[simp] theorem holders_nil : holders shared [] = [] := rfl

theorem holders_cons (r : ρ) (q : List ρ) :
    holders shared (r :: q) = if shared r then r :: q.takeWhile shared else [r] := rfl

theorem holders_prefixOf (q : List ρ) : holders shared q <+: q := by
  cases q with
  | nil => exact List.prefix_rfl
  | cons r q =>
    rw [holders_cons]
    split
    · exact (List.prefix_cons_inj r).mpr (List.takeWhile_prefix shared)
    · exact (List.prefix_cons_inj r).mpr List.nil_prefix

theorem mem_of_mem_holders (h : r ∈ holders shared q) : r ∈ q := (holders_prefixOf q).subset h

theorem head_mem_holders : r ∈ holders shared (r :: q) := by
  rw [holders_cons]
  split <;> exact List.mem_cons_self

theorem takeWhile_append_singleton (p : ρ → Bool) (q : List ρ) (r : ρ) :
    (q ++ [r]).takeWhile p = if p r && q.all p then q.takeWhile p ++ [r] else q.takeWhile p := by
  induction q with
  | nil => cases h : p r <;> simp [h]
  | cons a q ih =>
    cases ha : p a with
    | false => simp [ha]
    | true =>
      simp only [List.cons_append, List.takeWhile_cons, ha, ite_true, ih, List.all_cons,
        Bool.true_and]
      split <;> rfl

/-- The whole effect of appending a request. -/
theorem holders_append (q : List ρ) (r : ρ) :
    holders shared (q ++ [r]) =
      if grantable shared q r then holders shared q ++ [r] else holders shared q := by
  cases q with
  | nil => cases h : shared r <;> simp [holders, grantable, h]
  | cons a q =>
    cases ha : shared a with
    | false => simp [holders, grantable, ha]
    | true =>
      simp only [List.cons_append, holders, ha, ite_true, takeWhile_append_singleton, grantable,
        List.isEmpty_cons, Bool.false_or, List.all_cons, Bool.true_and]
      split <;> rfl

theorem shared_of_ahead {a b : List ρ} (h : r ∈ holders shared (a ++ r :: b)) (hr : r ∉ a)
    (hr' : r' ∈ a) : shared r ∧ shared r' := by
  cases a with
  | nil => simp at hr'
  | cons x a =>
    have hx : r ≠ x := fun heq => hr (heq ▸ List.mem_cons_self)
    rw [List.cons_append, holders_cons] at h
    split at h
    · rename_i hsx
      have hmem := (List.mem_cons.mp h).resolve_left hx
      have hall : ∀ y ∈ a, shared y := by
        by_contra hno
        rw [List.takeWhile_append] at hmem
        split at hmem
        · rename_i hlen
          have heq := (List.takeWhile_prefix shared).eq_of_length hlen
          exact hno fun y hy => List.mem_takeWhile_imp (heq.symm ▸ hy)
        · exact hr (List.mem_cons_of_mem x ((List.takeWhile_prefix shared).subset hmem))
      refine ⟨List.mem_takeWhile_imp hmem, ?_⟩
      rcases List.mem_cons.mp hr' with rfl | hy
      · exact hsx
      · exact hall r' hy
    · exact absurd (List.mem_singleton.mp h) hx

theorem shared_of_holders (h : r ∈ holders shared q) (h' : r' ∈ holders shared q) (hne : r ≠ r') :
    shared r ∧ shared r' := by
  cases q with
  | nil => simp at h
  | cons a q =>
    rw [holders_cons] at h h'
    split at h
    · rename_i ha
      rw [if_pos ha] at h'
      have hall : ∀ x ∈ a :: q.takeWhile shared, shared x := by
        intro x hx
        rcases List.mem_cons.mp hx with rfl | hx
        · exact ha
        · exact List.mem_takeWhile_imp hx
      exact ⟨hall r h, hall r' h'⟩
    · rename_i ha
      rw [if_neg ha] at h'
      exact absurd ((List.mem_singleton.mp h).trans (List.mem_singleton.mp h').symm) hne

theorem mem_takeWhile_filter {p : ρ → Bool} (h : r ∈ q.takeWhile shared) (hr : p r) :
    r ∈ (q.filter p).takeWhile shared := by
  induction q with
  | nil => simp at h
  | cons a q ih =>
    rw [List.takeWhile_cons] at h
    split at h
    · rename_i ha
      rcases List.mem_cons.mp h with rfl | h
      · simp [hr, ha]
      · rw [List.filter_cons]
        split
        · rw [List.takeWhile_cons, if_pos ha]
          exact List.mem_cons_of_mem a (ih h)
        · exact ih h
    · simp at h

theorem mem_holders_filter {p : ρ → Bool} (h : r ∈ holders shared q) (hr : p r) :
    r ∈ holders shared (q.filter p) := by
  cases q with
  | nil => simp at h
  | cons a q =>
    rw [holders_cons] at h
    split at h
    · rename_i ha
      have hlong : r ∈ (a :: q).takeWhile shared := by rwa [List.takeWhile_cons, if_pos ha]
      have hkept := mem_takeWhile_filter hlong hr
      cases hf : (a :: q).filter p with
      | nil => simp [hf] at hkept
      | cons x xs =>
        rw [hf, List.takeWhile_cons] at hkept
        rw [holders_cons]
        split at hkept
        · rename_i hx
          rwa [if_pos hx]
        · simp at hkept
    · obtain rfl := List.mem_singleton.mp h
      rw [List.filter_cons, if_pos hr]
      exact head_mem_holders

end Lib.LockQueue
