import Mathlib.Data.List.Basic
import Mathlib.Data.Set.Basic

/-!
# Reordering actions that do not conflict

A machine runs actions one by one; each changes the state and returns a result. Two
orders of the same actions that agree on every conflicting pair lead to the same
state and give every action the same result. On key-value stores conflicts are read
off footprints: the keys an action may write and the keys it may look at.
-/

namespace Lib

universe u v w
variable {A : Type u} {S : Type v} {R : Type w}

structure Machine (A : Type u) (S : Type v) (R : Type w) where
  effect : A → S → S
  result : A → S → R

namespace Machine
variable (m : Machine A S R)

def exec (as : List A) (s : S) : S := as.foldl (fun s a => m.effect a s) s

/-- Every action with the result it returned, in the order of execution. -/
def outcomes : List A → S → List (A × R)
  | [], _ => []
  | a :: as, s => (a, m.result a s) :: outcomes as (m.effect a s)

@[simp] theorem exec_nil (s : S) : m.exec [] s = s := rfl

@[simp] theorem exec_cons (a : A) (as : List A) (s : S) :
    m.exec (a :: as) s = m.exec as (m.effect a s) := rfl

theorem exec_append (as bs : List A) (s : S) : m.exec (as ++ bs) s = m.exec bs (m.exec as s) :=
  List.foldl_append

theorem outcomes_append (as bs : List A) (s : S) :
    m.outcomes (as ++ bs) s = m.outcomes as s ++ m.outcomes bs (m.exec as s) := by
  induction as generalizing s with
  | nil => rfl
  | cons a as ih => simp only [List.cons_append, outcomes, ih, exec_cons]

@[simp] theorem outcomes_map_fst (as : List A) (s : S) : (m.outcomes as s).map Prod.fst = as := by
  induction as generalizing s with
  | nil => rfl
  | cons a as ih => simp only [outcomes, List.map_cons, ih]

structure Independent (a b : A) : Prop where
  commute : ∀ s, m.effect a (m.effect b s) = m.effect b (m.effect a s)
  left : ∀ s, m.result a (m.effect b s) = m.result a s
  right : ∀ s, m.result b (m.effect a s) = m.result b s

section MoveToFront
variable {m} {a : A} {as : List A}

theorem exec_effect (h : ∀ b ∈ as, m.Independent b a) (s : S) :
    m.exec as (m.effect a s) = m.effect a (m.exec as s) := by
  induction as generalizing s with
  | nil => rfl
  | cons b bs ih =>
    rw [exec_cons, exec_cons, (h b List.mem_cons_self).commute]
    exact ih (fun c hc => h c (List.mem_cons_of_mem b hc)) _

theorem outcomes_effect (h : ∀ b ∈ as, m.Independent b a) (s : S) :
    m.outcomes as (m.effect a s) = m.outcomes as s := by
  induction as generalizing s with
  | nil => rfl
  | cons b bs ih =>
    have hb := h b List.mem_cons_self
    rw [outcomes, outcomes, hb.left, hb.commute]
    rw [ih (fun c hc => h c (List.mem_cons_of_mem b hc))]

theorem result_exec (h : ∀ b ∈ as, m.Independent b a) (s : S) :
    m.result a (m.exec as s) = m.result a s := by
  induction as generalizing s with
  | nil => rfl
  | cons b bs ih =>
    rw [exec_cons, ih (fun c hc => h c (List.mem_cons_of_mem b hc))]
    exact (h b List.mem_cons_self).right s

end MoveToFront

/-- Every conflicting pair comes in the order that `ys` has it in. -/
def SameOrder (conflict : A → A → Prop) (xs ys : List A) : Prop :=
  ∀ a b, conflict a b → [a, b].Sublist xs → [a, b].Sublist ys

theorem SameOrder.mono {conflict : A → A → Prop} {xs ys zs : List A}
    (h : SameOrder conflict xs ys) (hsub : ys.Sublist zs) : SameOrder conflict xs zs :=
  fun a b hc hab => (h a b hc hab).trans hsub

/-- An action may be appended to the first order if all it conflicts with there comes
before it in the second. -/
theorem SameOrder.concat {conflict : A → A → Prop} {xs ys : List A} {b : A}
    (h : SameOrder conflict xs ys) (hb : ∀ a ∈ xs, conflict a b → [a, b].Sublist ys) :
    SameOrder conflict (xs ++ [b]) ys := by
  intro a c hc hac
  obtain ⟨l₁, l₂, heq, h₁, h₂⟩ := List.sublist_append_iff.mp hac
  rcases List.sublist_singleton.mp h₂ with rfl | rfl
  · exact h a c hc (by rwa [heq, List.append_nil])
  · obtain ⟨rfl, rfl⟩ : l₁ = [a] ∧ b = c := by
      have hpair : [a] ++ [c] = l₁ ++ [b] := heq
      obtain ⟨hl, hbc⟩ := List.append_inj' hpair rfl
      exact ⟨hl.symm, (List.singleton_inj.mp hbc).symm⟩
    exact hb a (List.singleton_sublist.mp h₁) hc

theorem pair_sublist_or {a b : A} {l : List A} (ha : a ∈ l) (hb : b ∈ l) (hne : a ≠ b) :
    [a, b].Sublist l ∨ [b, a].Sublist l := by
  obtain ⟨p, q, rfl⟩ := List.append_of_mem ha
  rcases List.mem_append.mp hb with hp | hq
  · refine .inr (List.Sublist.append (List.singleton_sublist.mpr hp) ?_)
    exact List.singleton_sublist.mpr List.mem_cons_self
  · have hq' := (List.mem_cons.mp hq).resolve_left hne.symm
    refine .inl ((List.Sublist.cons_cons a (List.singleton_sublist.mpr hq')).trans ?_)
    exact List.sublist_append_right _ _

theorem sublist_tail_of_ne {a b y : A} {ys : List A} (h : [a, b].Sublist (y :: ys))
    (hne : a ≠ y) : [a, b].Sublist ys := by
  cases h with
  | cons _ h => exact h
  | cons_cons _ _ => exact absurd rfl hne

/-- Two executions that agree on the order of conflicting actions are equivalent. The
induction is on the second order: its first action is moved to the front of the first. -/
theorem reorder {conflict : A → A → Prop} {xs ys : List A} (hperm : xs.Perm ys)
    (hnodup : ys.Nodup) (hind : ∀ a ∈ ys, ∀ b ∈ ys, ¬conflict a b → m.Independent a b)
    (horder : SameOrder conflict xs ys) (s : S) :
    m.exec xs s = m.exec ys s ∧ (m.outcomes xs s).Perm (m.outcomes ys s) := by
  induction ys generalizing xs s with
  | nil => rw [hperm.eq_nil]; exact ⟨rfl, .rfl⟩
  | cons y ys ih =>
    obtain ⟨p, q, rfl⟩ := List.append_of_mem (hperm.mem_iff.mpr List.mem_cons_self)
    obtain ⟨hy, hys⟩ := List.nodup_cons.mp hnodup
    have hpq : (p ++ q).Perm ys := (List.perm_middle.symm.trans hperm).cons_inv
    have hne : ∀ a ∈ p ++ q, a ≠ y := fun a ha heq => hy (heq ▸ hpq.mem_iff.mp ha)
    -- what stands before `y` in the first order stands after it in the second
    have hp : ∀ b ∈ p, m.Independent b y := by
      intro b hb
      have hbq : b ∈ p ++ q := List.mem_append_left q hb
      refine hind b (List.mem_cons_of_mem y (hpq.mem_iff.mp hbq)) y List.mem_cons_self ?_
      intro hc
      have hbefore : [b, y].Sublist (p ++ y :: q) :=
        List.Sublist.append (List.singleton_sublist.mpr hb)
          (List.singleton_sublist.mpr List.mem_cons_self)
      have hin := sublist_tail_of_ne (horder b y hc hbefore) (hne b hbq)
      exact hy (hin.subset (by simp))
    have horder' : SameOrder conflict (p ++ q) ys := by
      intro a b hc hab
      have hlong : [a, b].Sublist (p ++ y :: q) :=
        hab.trans (List.Sublist.append (.refl p) (List.sublist_cons_self y q))
      exact sublist_tail_of_ne (horder a b hc hlong) (hne a (hab.subset List.mem_cons_self))
    obtain ⟨hexec, hout⟩ := ih hpq hys
      (fun a ha b hb => hind a (List.mem_cons_of_mem y ha) b (List.mem_cons_of_mem y hb))
      horder' (m.effect y s)
    constructor
    · rw [exec_cons, ← hexec, exec_append, exec_append, exec_cons, exec_effect hp]
    · have hmove : m.outcomes (p ++ y :: q) s =
          m.outcomes p s ++ (y, m.result y s) :: m.outcomes q (m.exec p (m.effect y s)) := by
        rw [outcomes_append, outcomes, result_exec hp, exec_effect hp]
      rw [hmove]
      refine List.perm_middle.trans (.cons _ ?_)
      rwa [outcomes_append, outcomes_effect hp] at hout

end Machine

section Footprint
variable {K : Type u} {V : Type w}

/-- `uses a` are the keys action `a` may look at, `writes a` those it may change; what it
does is a function of the former. -/
structure Footprint (m : Machine A (K → V) R) (uses writes : A → Set K) (a : A) : Prop where
  writes_subset : writes a ⊆ uses a
  frame : ∀ s k, k ∉ writes a → m.effect a s k = s k
  local_effect : ∀ s s', (∀ k ∈ uses a, s k = s' k) →
    ∀ k ∈ writes a, m.effect a s k = m.effect a s' k
  local_result : ∀ s s', (∀ k ∈ uses a, s k = s' k) → m.result a s = m.result a s'

/-- One of the two actions may write a key that the other uses. -/
def Conflict (uses writes : A → Set K) (a b : A) : Prop :=
  ∃ k, (k ∈ writes a ∧ k ∈ uses b) ∨ (k ∈ uses a ∧ k ∈ writes b)

theorem Conflict.symm {uses writes : A → Set K} {a b : A} (h : Conflict uses writes a b) :
    Conflict uses writes b a := by
  obtain ⟨k, hk | hk⟩ := h
  · exact ⟨k, .inr hk.symm⟩
  · exact ⟨k, .inl hk.symm⟩

namespace Footprint
variable {m : Machine A (K → V) R} {uses writes : A → Set K} {a b : A}

theorem agree_of_not_conflict (fb : Footprint m uses writes b)
    (h : ¬Conflict uses writes a b) (s : K → V) : ∀ k ∈ uses a, m.effect b s k = s k :=
  fun k hk => fb.frame s k fun hw => h ⟨k, .inr ⟨hk, hw⟩⟩

theorem independent (fa : Footprint m uses writes a) (fb : Footprint m uses writes b)
    (h : ¬Conflict uses writes a b) : m.Independent a b where
  left s := fa.local_result _ _ (fb.agree_of_not_conflict h s)
  right s := fb.local_result _ _ (fa.agree_of_not_conflict (fun hc => h hc.symm) s)
  commute s := by
    have hab := fb.agree_of_not_conflict h
    have hba := fa.agree_of_not_conflict fun hc => h hc.symm
    funext k
    by_cases ha : k ∈ writes a
    · have hb : k ∉ writes b := fun hb => h ⟨k, .inl ⟨ha, fb.writes_subset hb⟩⟩
      rw [fb.frame _ k hb]
      exact fa.local_effect _ _ (hab s) k ha
    · rw [fa.frame _ k ha]
      by_cases hb : k ∈ writes b
      · exact (fb.local_effect _ _ (hba s) k hb).symm
      · rw [fb.frame _ k hb, fb.frame _ k hb, fa.frame _ k ha]

end Footprint

end Footprint

end Lib
