import Mathlib.Order.Lattice
import Mathlib.Data.List.Basic
import Mathlib.Data.List.Sort
import Mathlib.Logic.Function.Basic

/-!
# Ordered sets and maps as strictly increasing lists

An ordered container is the list its iterator walks, together with the proof that
the keys increase strictly. Lookup and insertion are the linear ones; what matters
here is the order of iteration and the contents, not the cost.
-/

namespace Lib

universe u v
variable {α : Type u} {β : Type v} [LinearOrder α]

@[ext] structure OrderedSet (α : Type u) [LinearOrder α] where
  toList : List α
  sorted : toList.Pairwise (· < ·)

namespace OrderedSet

def empty : OrderedSet α := ⟨[], .nil⟩

def singleton (a : α) : OrderedSet α := ⟨[a], List.pairwise_singleton _ a⟩

instance instMembership : Membership α (OrderedSet α) := ⟨fun s a => a ∈ s.toList⟩

theorem nodup (s : OrderedSet α) : s.toList.Nodup := s.sorted.imp ne_of_lt

def Disjoint (s t : OrderedSet α) : Prop := ∀ a ∈ s, a ∉ t

instance decidableMem (a : α) (s : OrderedSet α) : Decidable (a ∈ s) :=
  inferInstanceAs (Decidable (a ∈ s.toList))

instance decidableDisjoint (s t : OrderedSet α) : Decidable (s.Disjoint t) :=
  inferInstanceAs (Decidable (∀ a ∈ s.toList, a ∉ t.toList))

/-- `insert`, which changes nothing when the element is there. -/
def insert (a : α) (s : OrderedSet α) : OrderedSet α :=
  if h : a ∈ s.toList then s
  else
    ⟨s.toList.orderedInsert (· ≤ ·) a, by
      have hle := (s.sorted.imp le_of_lt).orderedInsert a s.toList
      have hnodup := (s.toList.perm_orderedInsert (· ≤ ·) a).nodup_iff.mpr
        (List.nodup_cons.mpr ⟨h, s.nodup⟩)
      exact (hle.and hnodup).imp fun hab => lt_of_le_of_ne hab.1 hab.2⟩

theorem mem_insert {a b : α} {s : OrderedSet α} : b ∈ s.insert a ↔ b = a ∨ b ∈ s := by
  unfold insert
  split
  · rename_i h
    exact ⟨.inr, fun hb => hb.elim (fun heq => heq ▸ h) id⟩
  · exact List.mem_orderedInsert _

theorem length_insert {a : α} {s : OrderedSet α} (h : a ∉ s) :
    (s.insert a).toList.length = s.toList.length + 1 := by
  unfold insert
  split
  · contradiction
  · exact List.orderedInsert_length _ _ _

end OrderedSet

/-- Insertion into a list of entries sorted by key; an entry with the same key is replaced. -/
def insertEntry (k : α) (b : β) : List (α × β) → List (α × β)
  | [] => [(k, b)]
  | e :: es =>
    if k < e.1 then (k, b) :: e :: es
    else if e.1 < k then e :: insertEntry k b es
    else (k, b) :: es

def lookupEntry (k : α) : List (α × β) → Option β
  | [] => none
  | e :: es => if e.1 = k then some e.2 else lookupEntry k es

theorem mem_insertEntry {k : α} {b : β} {e : α × β} {es : List (α × β)}
    (h : e ∈ insertEntry k b es) : e = (k, b) ∨ e ∈ es := by
  induction es with
  | nil => exact .inl (by simpa [insertEntry] using h)
  | cons d ds ih =>
    unfold insertEntry at h
    split at h
    · exact List.mem_cons.mp h
    · split at h
      · rcases List.mem_cons.mp h with rfl | h
        · exact .inr List.mem_cons_self
        · exact (ih h).imp_right (List.mem_cons_of_mem d)
      · exact (List.mem_cons.mp h).imp_right (List.mem_cons_of_mem d)

theorem insertEntry_sorted (k : α) (b : β) {es : List (α × β)}
    (h : es.Pairwise fun x y => x.1 < y.1) :
    (insertEntry k b es).Pairwise fun x y => x.1 < y.1 := by
  induction es with
  | nil => exact List.pairwise_singleton _ _
  | cons d ds ih =>
    obtain ⟨hd, hds⟩ := List.pairwise_cons.mp h
    unfold insertEntry
    split
    · rename_i hlt
      refine List.pairwise_cons.mpr ⟨fun e he => ?_, h⟩
      rcases List.mem_cons.mp he with rfl | he
      · exact hlt
      · exact lt_trans hlt (hd e he)
    · rename_i hnot
      split
      · rename_i hlt
        refine List.pairwise_cons.mpr ⟨fun e he => ?_, ih hds⟩
        rcases mem_insertEntry he with rfl | he
        · exact hlt
        · exact hd e he
      · rename_i hnot'
        have heq : d.1 = k := le_antisymm (not_lt.mp hnot) (not_lt.mp hnot')
        exact List.pairwise_cons.mpr ⟨fun e he => heq ▸ hd e he, hds⟩

theorem lookupEntry_insertEntry (k j : α) (b : β) (es : List (α × β)) :
    lookupEntry j (insertEntry k b es) = if k = j then some b else lookupEntry j es := by
  induction es with
  | nil => rfl
  | cons d ds ih =>
    unfold insertEntry
    split
    · rfl
    · rename_i hnot
      split
      · rename_i hlt
        simp only [lookupEntry, ih]
        by_cases hkj : k = j
        · subst hkj
          simp [ne_of_lt hlt]
        · simp [hkj]
      · rename_i hnot'
        have heq : d.1 = k := le_antisymm (not_lt.mp hnot) (not_lt.mp hnot')
        simp only [lookupEntry, heq]
        split <;> rfl

theorem lookupEntry_eq_none_iff {k : α} {es : List (α × β)} :
    lookupEntry k es = none ↔ k ∉ es.map Prod.fst := by
  induction es with
  | nil => simp [lookupEntry]
  | cons d ds ih =>
    unfold lookupEntry
    split
    · rename_i heq
      simp [heq]
    · rename_i hne
      simp [ih, Ne.symm hne]

theorem lookupEntry_of_mem {e : α × β} {es : List (α × β)} (hes : es.Pairwise fun x y => x.1 < y.1)
    (he : e ∈ es) : lookupEntry e.1 es = some e.2 := by
  induction es with
  | nil => cases he
  | cons d ds ih =>
    obtain ⟨hd, hds⟩ := List.pairwise_cons.mp hes
    rcases List.mem_cons.mp he with rfl | he
    · exact if_pos rfl
    · rw [lookupEntry, if_neg (ne_of_lt (hd e he))]
      exact ih hds he

/-- A finite map, iterated in the order of its keys. -/
@[ext] structure OrderedMap (α : Type u) (β : Type v) [LinearOrder α] where
  entries : List (α × β)
  sorted : entries.Pairwise fun x y => x.1 < y.1

namespace OrderedMap

def empty : OrderedMap α β := ⟨[], .nil⟩

def insert (k : α) (b : β) (m : OrderedMap α β) : OrderedMap α β :=
  ⟨insertEntry k b m.entries, insertEntry_sorted k b m.sorted⟩

def lookup (m : OrderedMap α β) (k : α) : Option β := lookupEntry k m.entries

def keys (m : OrderedMap α β) : List α := m.entries.map Prod.fst

def keySet (m : OrderedMap α β) : OrderedSet α := ⟨m.keys, List.pairwise_map.mpr m.sorted⟩

@[simp] theorem entries_empty : (empty : OrderedMap α β).entries = [] := rfl

@[simp] theorem keys_empty : (empty : OrderedMap α β).keys = [] := rfl

@[simp] theorem lookup_empty (k : α) : (empty : OrderedMap α β).lookup k = none := rfl

theorem lookup_insert (m : OrderedMap α β) (k j : α) (b : β) :
    (m.insert k b).lookup j = if k = j then some b else m.lookup j :=
  lookupEntry_insertEntry k j b m.entries

theorem mem_keys_insert {m : OrderedMap α β} {k j : α} {b : β} (h : j ∈ (m.insert k b).keys) :
    j = k ∨ j ∈ m.keys := by
  obtain ⟨e, he, rfl⟩ := List.mem_map.mp h
  rcases mem_insertEntry he with rfl | he
  · exact .inl rfl
  · exact .inr (List.mem_map_of_mem he)

end OrderedMap

section Assign
variable {α : Type u} {β : Type v} [DecidableEq α]

/-- The entries written to a partial function, in order. -/
def assign (es : List (α × β)) (f : α → Option β) : α → Option β :=
  es.foldl (fun f e => Function.update f e.1 (some e.2)) f

@[simp] theorem assign_nil (f : α → Option β) : assign [] f = f := rfl

@[simp] theorem assign_cons (e : α × β) (es : List (α × β)) (f : α → Option β) :
    assign (e :: es) f = assign es (Function.update f e.1 (some e.2)) := rfl

theorem assign_append (es es' : List (α × β)) (f : α → Option β) :
    assign (es ++ es') f = assign es' (assign es f) := List.foldl_append

theorem assign_of_notMem {es : List (α × β)} {f : α → Option β} {k : α}
    (h : k ∉ es.map Prod.fst) : assign es f k = f k := by
  induction es generalizing f with
  | nil => rfl
  | cons e es ih =>
    simp only [List.map_cons, List.mem_cons, not_or] at h
    rw [assign_cons, ih h.2, Function.update_of_ne h.1]

/-- What an assigned key ends with does not depend on what was there before. -/
theorem assign_congr {es : List (α × β)} {f g : α → Option β} {k : α}
    (h : k ∈ es.map Prod.fst ∨ f k = g k) : assign es f k = assign es g k := by
  induction es generalizing f g with
  | nil => exact h.resolve_left (by simp)
  | cons e es ih =>
    rw [assign_cons, assign_cons]
    apply ih
    by_cases he : k = e.1
    · exact .inr (by simp [he])
    · refine h.imp (fun hk => ?_) (fun hk => by simpa [Function.update_of_ne he] using hk)
      exact (List.mem_cons.mp hk).resolve_left he

end Assign

/-- Writing out a map overrides what the map has. -/
theorem OrderedMap.assign_entries {α : Type u} {β : Type v} [LinearOrder α] (m : OrderedMap α β)
    (f : α → Option β) (k : α) : assign m.entries f k = (m.lookup k).or (f k) := by
  obtain ⟨es, hes⟩ := m
  show assign es f k = (lookupEntry k es).or (f k)
  induction es generalizing f with
  | nil => rfl
  | cons e es ih =>
    obtain ⟨he, hes⟩ := List.pairwise_cons.mp hes
    rw [assign_cons, ih _ hes, lookupEntry]
    by_cases hk : e.1 = k
    · subst hk
      have hnone : lookupEntry e.1 es = none := by
        rw [lookupEntry_eq_none_iff]
        intro hmem
        obtain ⟨d, hd, hde⟩ := List.mem_map.mp hmem
        exact lt_irrefl _ (hde ▸ he d hd)
      simp [hnone]
    · simp [hk, Function.update_of_ne (Ne.symm hk)]

end Lib
