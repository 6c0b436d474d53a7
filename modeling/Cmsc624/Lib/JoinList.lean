import Cmsc624.Lib.Runs
import Cmsc624.Lib.Threads
import Mathlib.Logic.Function.Basic

/-!
# Finished threads in a linked list

An owner starts threads, each with a block of its own. A thread that has done its work links
its block into a shared list and goes on to its end; the owner detaches the whole list, and
walks it: it joins each thread and frees its block. Block and thread have the same number.
-/

namespace Lib.JoinList

set_option autoImplicit false

/-- Where the owner is; the pointers are those that it still has in local variables. -/
inductive Owner where
  | away
  | allocated
  | detaching
  | clearing (p : Option Nat)
  | detached (p : Option Nat)
  | walking (p : Option Nat)
  | joining (t : Nat) (p : Option Nat)
  | freeing (t : Nat) (p : Option Nat)

inductive Stage where
  | working
  | linking
  | publishing
  | linked
  | finishing
  | exited
  deriving DecidableEq

inductive Party where
  | owner
  | thread (i : Nat)
  deriving DecidableEq

/-- `next` is the link in each block, `none` where no block is allocated. -/
structure State where
  next : Nat → Option (Option Nat)
  head : Option Nat
  holder : Option Party
  owner : Owner
  threads : List Stage

def State.init : State := ⟨fun _ => none, none, none, .away, []⟩

inductive Event where
  | publish (i : Nat)
  | detach
  | join (i : Nat)
  | free (i : Nat)
  | skip

/-- One step of the owner or of a thread. -/
inductive Step : State → Event → State → Prop where
  -- Anything that the list does not see.
  | idle {s : State} : Step s .skip s
  | alloc {s : State} (ho : s.owner = .away) :
      Step s .skip
        { s with
          next := Function.update s.next s.threads.length (some none)
          owner := .allocated }
  | spawn {s : State} (ho : s.owner = .allocated) :
      Step s .skip { s with threads := s.threads ++ [.working], owner := .away }
  | lockOwner {s : State} (ho : s.owner = .away) (hm : s.holder = none) :
      Step s .skip { s with holder := some .owner, owner := .detaching }
  | read {s : State} (ho : s.owner = .detaching) :
      Step s .skip { s with owner := .clearing s.head }
  | clear {s : State} {p : Option Nat} (ho : s.owner = .clearing p) :
      Step s .detach { s with head := none, owner := .detached p }
  | unlockOwner {s : State} {p : Option Nat} (ho : s.owner = .detached p) :
      Step s .skip { s with holder := none, owner := .walking p }
  | advance {s : State} {t : Nat} {p : Option Nat} (ho : s.owner = .walking (some t))
      (hn : s.next t = some p) : Step s .skip { s with owner := .joining t p }
  | join {s : State} {t : Nat} {p : Option Nat} (ho : s.owner = .joining t p)
      (ht : s.threads[t]? = some .exited) : Step s (.join t) { s with owner := .freeing t p }
  | free {s : State} {t : Nat} {p : Option Nat} (ho : s.owner = .freeing t p) :
      Step s (.free t) { s with next := Function.update s.next t none, owner := .walking p }
  | done {s : State} (ho : s.owner = .walking none) : Step s .skip { s with owner := .away }
  | lock {s : State} (i : Nat) (ht : s.threads[i]? = some .working) (hm : s.holder = none) :
      Step s .skip
        { s with threads := s.threads.set i .linking, holder := some (.thread i) }
  | setNext {s : State} (i : Nat) (ht : s.threads[i]? = some .linking) :
      Step s .skip
        { s with
          next := Function.update s.next i ((s.next i).map fun _ => s.head)
          threads := s.threads.set i .publishing }
  | publish {s : State} (i : Nat) (ht : s.threads[i]? = some .publishing) :
      Step s (.publish i) { s with head := some i, threads := s.threads.set i .linked }
  | unlock {s : State} (i : Nat) (ht : s.threads[i]? = some .linked) :
      Step s .skip { s with threads := s.threads.set i .finishing, holder := none }
  | exit {s : State} (i : Nat) (ht : s.threads[i]? = some .finishing) :
      Step s .skip { s with threads := s.threads.set i .exited }

/-- From `h` on, the links lead through these blocks to the end. -/
def Linked (next : Nat → Option (Option Nat)) : Option Nat → List Nat → Prop
  | h, [] => h = none
  | h, i :: l => h = some i ∧ ∃ n, next i = some n ∧ Linked next n l

def Owner.Holds (next : Nat → Option (Option Nat)) : Owner → List Nat → Prop
  | .detached p, l => Linked next p l
  | .walking p, l => Linked next p l
  | .joining t p, l => ∃ l', l = t :: l' ∧ (∃ n, next t = some n) ∧ Linked next p l'
  | .freeing t p, l => ∃ l', l = t :: l' ∧ (∃ n, next t = some n) ∧ Linked next p l'
  | _, l => l = []

/-- The shared list and the detached one, after an event. -/
def Event.relink : List Nat × List Nat → Event → List Nat × List Nat
  | (l, d), .publish i => (i :: l, d)
  | (l, _), .detach => ([], l)
  | (l, d), .free _ => (l, d.tail)
  | (l, d), _ => (l, d)

def lists (tr : List Event) : List Nat × List Nat := tr.foldl Event.relink ([], [])

def listed (tr : List Event) : List Nat := (lists tr).1

def detached (tr : List Event) : List Nat := (lists tr).2

def Stage.published : Stage → Bool
  | .linked => true
  | .finishing => true
  | .exited => true
  | _ => false

def Stage.holds : Stage → Bool
  | .linking => true
  | .publishing => true
  | .linked => true
  | _ => false

def Owner.holds : Owner → Bool
  | .detaching => true
  | .clearing _ => true
  | .detached _ => true
  | _ => false

/-- Every block of a started thread is with its thread, in one of the lists, or freed. -/
structure Inv (s : State) (l d : List Nat) : Prop where
  linked : Linked s.next s.head l
  held : s.owner.Holds s.next d
  clearing : ∀ p, s.owner = .clearing p → p = s.head
  nodup : (l ++ d).Nodup
  owner_holds : s.holder = some .owner ↔ s.owner.holds = true
  thread_holds : Threads.Holds Stage.holds s.threads fun i => s.holder = some (.thread i)
  -- Only published blocks are in the lists, and they are there until they are freed.
  members : ∀ i ∈ l ++ d, ∃ x, s.threads[i]? = some x ∧ x.published = true
  private_block : ∀ (i : Nat) (x : Stage), s.threads[i]? = some x → x.published = false →
    ∃ n, s.next i = some n
  public_block : ∀ (i : Nat) (x : Stage), s.threads[i]? = some x → x.published = true →
    i ∈ l ++ d ∨ s.next i = none ∧ x = .exited
  publishing : ∀ i : Nat, s.threads[i]? = some .publishing → s.next i = some s.head
  freeing : ∀ t p, s.owner = .freeing t p → s.threads[t]? = some .exited
  allocated : s.owner = .allocated → s.next s.threads.length = some none

section Inv
variable {next next' : Nat → Option (Option Nat)} {s s' : State} {e : Event} {l d : List Nat}
  {i : Nat} {x y : Stage}

theorem linked_congr {h : Option Nat} (heq : ∀ i ∈ l, next' i = next i) (hl : Linked next h l) :
    Linked next' h l := by
  induction l generalizing h with
  | nil => exact hl
  | cons i l ih =>
    obtain ⟨rfl, n, hn, hrest⟩ := hl
    refine ⟨rfl, n, ?_, ih (fun j hj => heq j (List.mem_cons_of_mem i hj)) hrest⟩
    rw [heq i List.mem_cons_self, hn]

theorem holds_congr {o : Owner} (heq : ∀ i ∈ d, next' i = next i) (hd : o.Holds next d) :
    o.Holds next' d := by
  have htail : ∀ t p, (∃ d', d = t :: d' ∧ (∃ n, next t = some n) ∧ Linked next p d') →
      ∃ d', d = t :: d' ∧ (∃ n, next' t = some n) ∧ Linked next' p d' := by
    rintro t p ⟨d', rfl, hn, hd'⟩
    refine ⟨d', rfl, ?_, linked_congr (fun i hi => heq i (List.mem_cons_of_mem t hi)) hd'⟩
    rw [heq t List.mem_cons_self]
    exact hn
  cases o with
  | detached p => exact linked_congr heq hd
  | walking p => exact linked_congr heq hd
  | joining t p => exact htail t p hd
  | freeing t p => exact htail t p hd
  | _ => exact hd

theorem Inv.init : Inv State.init [] [] where
  linked := rfl
  held := rfl
  clearing p h := by cases h
  nodup := .nil
  owner_holds := by simp [State.init, Owner.holds]
  thread_holds i := by simp [State.init]
  members i hi := absurd hi List.not_mem_nil
  private_block i x hx := by cases hx
  public_block i x hx := by cases hx
  publishing i hi := by cases hi
  freeing t p h := by cases h
  allocated h := by cases h

theorem Inv.notMem_of_private (h : Inv s l d) (hx : s.threads[i]? = some x)
    (hp : x.published = false) : i ∉ l ++ d := by
  intro hi
  obtain ⟨z, hz, hpub⟩ := h.members i hi
  obtain rfl : x = z := Option.some.inj (hx.symm.trans hz)
  rw [hp] at hpub
  cases hpub

theorem Inv.lt_of_mem (h : Inv s l d) (hi : i ∈ l ++ d) : i < s.threads.length := by
  obtain ⟨x, hx, _⟩ := h.members i hi
  exact (List.getElem?_eq_some_iff.mp hx).1

theorem Inv.moveOwner (h : Inv s l d) {o : Owner} {q : Option Party} (hheld : o.Holds s.next d)
    (hclearing : ∀ p, o = .clearing p → p = s.head) (howner : q = some .owner ↔ o.holds = true)
    (hthread : ∀ i, q = some (.thread i) ↔ s.holder = some (.thread i))
    (hfreeing : ∀ t p, o = .freeing t p → s.threads[t]? = some .exited)
    (halloc : o ≠ .allocated) : Inv { s with owner := o, holder := q } l d where
  linked := h.linked
  held := hheld
  clearing := hclearing
  nodup := h.nodup
  owner_holds := howner
  thread_holds i := (hthread i).trans (h.thread_holds i)
  members := h.members
  private_block := h.private_block
  public_block := h.public_block
  publishing := h.publishing
  freeing := hfreeing
  allocated ho := absurd ho halloc

theorem Inv.moveThread (h : Inv s l d) (hx : s.threads[i]? = some x) {q : Option Party}
    (hpub : y.published = x.published) (hy : y ≠ .publishing) (hexit : x ≠ .exited)
    (howner : q = some .owner ↔ s.holder = some .owner)
    (hself : q = some (.thread i) ↔ y.holds = true)
    (hother : ∀ j, j ≠ i → (q = some (.thread j) ↔ s.holder = some (.thread j))) :
    Inv { s with threads := s.threads.set i y, holder := q } l d := by
  have hget := Threads.getElem?_set hx y
  constructor
  · exact h.linked
  · exact h.held
  · exact h.clearing
  · exact h.nodup
  · exact howner.trans h.owner_holds
  · exact h.thread_holds.set hx hself hother
  · intro j hj
    obtain ⟨z, hz, hzpub⟩ := h.members j hj
    rw [hget]
    split
    · rename_i hij
      subst hij
      obtain rfl : x = z := Option.some.inj (hx.symm.trans hz)
      exact ⟨y, rfl, hpub.trans hzpub⟩
    · exact ⟨z, hz, hzpub⟩
  · intro j z hz hzpub
    rw [hget] at hz
    split at hz
    · rename_i hij
      subst hij
      obtain rfl := Option.some.inj hz
      exact h.private_block i x hx (hpub.symm.trans hzpub)
    · exact h.private_block j z hz hzpub
  · intro j z hz hzpub
    rw [hget] at hz
    split at hz
    · rename_i hij
      subst hij
      obtain rfl := Option.some.inj hz
      rcases h.public_block i x hx (hpub.symm.trans hzpub) with hmem | ⟨_, hex⟩
      · exact .inl hmem
      · exact absurd hex hexit
    · exact h.public_block j z hz hzpub
  · intro j hj
    rw [hget] at hj
    split at hj
    · exact absurd (Option.some.inj hj) hy
    · exact h.publishing j hj
  · intro t p ho
    rw [hget]
    split
    · rename_i hit
      subst hit
      have hex := h.freeing i p ho
      exact absurd (Option.some.inj (hx.symm.trans hex)) hexit
    · exact h.freeing t p ho
  · intro ho
    rw [List.length_set]
    exact h.allocated ho

theorem Inv.update_next (h : Inv s l d) (hi : i ∉ l ++ d) (n : Option (Option Nat)) :
    Linked (Function.update s.next i n) s.head l ∧
      s.owner.Holds (Function.update s.next i n) d := by
  have hkeep : ∀ j ∈ l ++ d, Function.update s.next i n j = s.next j := by
    intro j hj
    apply Function.update_of_ne
    rintro rfl
    exact hi hj
  exact ⟨linked_congr (fun j hj => hkeep j (List.mem_append_left d hj)) h.linked,
    holds_congr (fun j hj => hkeep j (List.mem_append_right l hj)) h.held⟩

theorem Inv.alloc (h : Inv s l d) (ho : s.owner = .away) :
    Inv { s with
      next := Function.update s.next s.threads.length (some none)
      owner := .allocated } l d := by
  have hnew : s.threads.length ∉ l ++ d := fun hi => Nat.lt_irrefl _ (h.lt_of_mem hi)
  obtain ⟨hlinked, hheld⟩ := h.update_next hnew (some none)
  have hkeep : ∀ i x, s.threads[i]? = some x →
      Function.update s.next s.threads.length (some none) i = s.next i := by
    intro i x hx
    apply Function.update_of_ne
    exact Nat.ne_of_lt (List.getElem?_eq_some_iff.mp hx).1
  have howner := h.owner_holds
  rw [ho] at hheld howner
  constructor
  · exact hlinked
  · exact hheld
  · intro p hp
    cases hp
  · exact h.nodup
  · exact howner
  · exact h.thread_holds
  · exact h.members
  · intro i x hx hpub
    obtain ⟨n, hn⟩ := h.private_block i x hx hpub
    exact ⟨n, (hkeep i x hx).trans hn⟩
  · intro i x hx hpub
    rcases h.public_block i x hx hpub with hmem | ⟨hnone, hexit⟩
    · exact .inl hmem
    · exact .inr ⟨(hkeep i x hx).trans hnone, hexit⟩
  · intro i hi
    exact (hkeep i _ hi).trans (h.publishing i hi)
  · intro t p hp
    cases hp
  · intro _
    exact Function.update_self _ _ _

theorem Inv.spawn (h : Inv s l d) (ho : s.owner = .allocated) :
    Inv { s with threads := s.threads ++ [.working], owner := .away } l d := by
  have hget := Threads.getElem?_concat s.threads .working
  have hheld := h.held
  have howner := h.owner_holds
  rw [ho] at hheld howner
  -- an entry is the new one, or one that was there
  have hcases : ∀ (i : Nat) (x : Stage), (s.threads ++ [.working])[i]? = some x →
      i = s.threads.length ∧ x = .working ∨ s.threads[i]? = some x := by
    intro i x hx
    rw [hget] at hx
    split at hx
    · rename_i hi
      exact .inl ⟨hi, (Option.some.inj hx).symm⟩
    · exact .inr hx
  constructor
  · exact h.linked
  · exact hheld
  · intro p hp
    cases hp
  · exact h.nodup
  · exact howner
  · exact h.thread_holds.concat rfl
  · intro i hi
    obtain ⟨x, hx, hpub⟩ := h.members i hi
    refine ⟨x, ?_, hpub⟩
    rw [hget, if_neg (Nat.ne_of_lt (h.lt_of_mem hi))]
    exact hx
  · intro i x hx hpub
    rcases hcases i x hx with ⟨rfl, rfl⟩ | hold
    · exact ⟨none, h.allocated ho⟩
    · exact h.private_block i x hold hpub
  · intro i x hx hpub
    rcases hcases i x hx with ⟨rfl, rfl⟩ | hold
    · cases hpub
    · exact h.public_block i x hold hpub
  · intro i hi
    rcases hcases i _ hi with ⟨_, hstage⟩ | hold
    · cases hstage
    · exact h.publishing i hold
  · intro t p hp
    cases hp
  · intro hp
    cases hp

theorem Inv.clear (h : Inv s l d) {p : Option Nat} (ho : s.owner = .clearing p) :
    Inv { s with head := none, owner := .detached p } [] l := by
  have howner := h.owner_holds
  have hd : d = [] := by
    have hheld := h.held
    rw [ho] at hheld
    exact hheld
  subst hd
  rw [ho] at howner
  have happ : ∀ i, i ∈ l ++ [] ↔ i ∈ [] ++ l := fun i => by simp
  constructor
  · rfl
  · rw [h.clearing p ho]
    exact h.linked
  · intro q hq
    cases hq
  · simpa using h.nodup
  · exact howner
  · exact h.thread_holds
  · intro i hi
    exact h.members i ((happ i).mpr hi)
  · exact h.private_block
  · intro i x hx hpub
    exact (h.public_block i x hx hpub).imp_left (happ i).mp
  · intro i hi
    -- the owner has the mutex, so no thread is at its link
    have hthread := (h.thread_holds i).mpr ⟨_, hi, rfl⟩
    rw [howner.mpr rfl] at hthread
    cases hthread
  · intro t q hq
    cases hq
  · intro hq
    cases hq

theorem Inv.free (h : Inv s l d) {t : Nat} {p : Option Nat} (ho : s.owner = .freeing t p) :
    Inv { s with next := Function.update s.next t none, owner := .walking p } l d.tail := by
  have hexit := h.freeing t p ho
  have hheld := h.held
  have howner := h.owner_holds
  rw [ho] at hheld howner
  obtain ⟨d', rfl, _, hd'⟩ := hheld
  have hperm : (l ++ t :: d').Perm (t :: (l ++ d')) := List.perm_middle
  obtain ⟨ht, hnodup⟩ := List.nodup_cons.mp (hperm.nodup_iff.mp h.nodup)
  have hkeep : ∀ i, i ≠ t → Function.update s.next t none i = s.next i := fun i hi =>
    Function.update_of_ne hi _ _
  have hne : ∀ i ∈ l ++ d', i ≠ t := by
    rintro i hi rfl
    exact ht hi
  constructor
  · exact linked_congr (fun i hi => hkeep i (hne i (List.mem_append_left d' hi))) h.linked
  · exact linked_congr (fun i hi => hkeep i (hne i (List.mem_append_right l hi))) hd'
  · intro q hq
    cases hq
  · exact hnodup
  · exact howner
  · exact h.thread_holds
  · intro i hi
    exact h.members i (hperm.mem_iff.mpr (List.mem_cons_of_mem t hi))
  · intro i x hx hpub
    have hit : i ≠ t := by
      rintro rfl
      obtain rfl : x = .exited := Option.some.inj (hx.symm.trans hexit)
      cases hpub
    obtain ⟨n, hn⟩ := h.private_block i x hx hpub
    exact ⟨n, (hkeep i hit).trans hn⟩
  · intro i x hx hpub
    by_cases hit : i = t
    · subst hit
      obtain rfl : x = .exited := Option.some.inj (hx.symm.trans hexit)
      exact .inr ⟨Function.update_self _ _ _, rfl⟩
    · rcases h.public_block i x hx hpub with hmem | ⟨hnone, hx⟩
      · exact .inl ((List.mem_cons.mp (hperm.mem_iff.mp hmem)).resolve_left hit)
      · exact .inr ⟨(hkeep i hit).trans hnone, hx⟩
  · intro i hi
    have hit : i ≠ t := by
      rintro rfl
      cases hi.symm.trans hexit
    exact (hkeep i hit).trans (h.publishing i hi)
  · intro u q hq
    cases hq
  · intro hq
    cases hq

theorem Inv.setNext (h : Inv s l d) (hx : s.threads[i]? = some .linking) :
    Inv { s with
      next := Function.update s.next i ((s.next i).map fun _ => s.head)
      threads := s.threads.set i .publishing } l d := by
  obtain ⟨n, hn⟩ := h.private_block i _ hx rfl
  have hself : ((s.next i).map fun _ => s.head) = some s.head := by rw [hn, Option.map_some]
  rw [hself]
  have hnot := h.notMem_of_private hx rfl
  have hget := Threads.getElem?_set hx .publishing
  obtain ⟨hlinked, hheld⟩ := h.update_next hnot (some s.head)
  have hkeep : ∀ j, i ≠ j → Function.update s.next i (some s.head) j = s.next j := fun j hj =>
    Function.update_of_ne (Ne.symm hj) _ _
  have hcases : ∀ (j : Nat) (x : Stage), (s.threads.set i .publishing)[j]? = some x →
      i = j ∧ x = .publishing ∨ i ≠ j ∧ s.threads[j]? = some x := by
    intro j x hj
    rw [hget] at hj
    split at hj
    · rename_i hij
      exact .inl ⟨hij, (Option.some.inj hj).symm⟩
    · rename_i hij
      exact .inr ⟨hij, hj⟩
  constructor
  · exact hlinked
  · exact hheld
  · exact h.clearing
  · exact h.nodup
  · exact h.owner_holds
  · refine h.thread_holds.set hx ?_ fun _ _ => Iff.rfl
    exact (iff_true_right rfl).mpr ((h.thread_holds i).mpr ⟨_, hx, rfl⟩)
  · intro j hj
    obtain ⟨x, hjx, hpub⟩ := h.members j hj
    refine ⟨x, ?_, hpub⟩
    rw [hget, if_neg]
    · exact hjx
    · rintro rfl
      exact hnot hj
  · intro j x hj hpub
    rcases hcases j x hj with ⟨rfl, _⟩ | ⟨hne, hold⟩
    · exact ⟨s.head, Function.update_self _ _ _⟩
    · obtain ⟨n, hn⟩ := h.private_block j x hold hpub
      exact ⟨n, (hkeep j hne).trans hn⟩
  · intro j x hj hpub
    rcases hcases j x hj with ⟨_, rfl⟩ | ⟨hne, hold⟩
    · cases hpub
    · rcases h.public_block j x hold hpub with hmem | ⟨hnone, hexit⟩
      · exact .inl hmem
      · exact .inr ⟨(hkeep j hne).trans hnone, hexit⟩
  · intro j hj
    rcases hcases j _ hj with ⟨rfl, _⟩ | ⟨hne, hold⟩
    · exact Function.update_self _ _ _
    · exact (hkeep j hne).trans (h.publishing j hold)
  · intro t p ho
    have hexit := h.freeing t p ho
    rw [hget, if_neg]
    · exact hexit
    · rintro rfl
      cases hx.symm.trans hexit
  · intro ho
    have hlt := (List.getElem?_eq_some_iff.mp hx).1
    rw [List.length_set]
    exact (hkeep _ (Nat.ne_of_lt hlt)).trans (h.allocated ho)

theorem Inv.publish (h : Inv s l d) (hx : s.threads[i]? = some .publishing) :
    Inv { s with head := some i, threads := s.threads.set i .linked } (i :: l) d := by
  have hnot := h.notMem_of_private hx rfl
  have hholder : s.holder = some (.thread i) := (h.thread_holds i).mpr ⟨_, hx, rfl⟩
  have hget := Threads.getElem?_set hx .linked
  -- the mutex is with thread `i`
  have hother : ∀ j, s.threads[j]? = some .publishing → i = j := by
    intro j hj
    have hthread := (h.thread_holds j).mpr ⟨_, hj, rfl⟩
    rw [hholder] at hthread
    exact Party.thread.inj (Option.some.inj hthread)
  constructor
  · exact ⟨rfl, s.head, h.publishing i hx, h.linked⟩
  · exact h.held
  · intro p ho
    have howner := h.owner_holds.mpr (by rw [ho]; rfl)
    rw [hholder] at howner
    cases howner
  · exact List.nodup_cons.mpr ⟨hnot, h.nodup⟩
  · exact h.owner_holds
  · refine h.thread_holds.set hx ?_ fun _ _ => Iff.rfl
    exact (iff_true_right rfl).mpr hholder
  · intro j hj
    rw [hget]
    split
    · exact ⟨.linked, rfl, rfl⟩
    · rename_i hij
      exact h.members j ((List.mem_cons.mp hj).resolve_left (Ne.symm hij))
  · intro j x hj hpub
    rw [hget] at hj
    split at hj
    · obtain rfl := Option.some.inj hj
      cases hpub
    · exact h.private_block j x hj hpub
  · intro j x hj hpub
    rw [hget] at hj
    split at hj
    · rename_i hij
      exact .inl (hij ▸ List.mem_cons_self)
    · exact (h.public_block j x hj hpub).imp_left (List.mem_cons_of_mem i)
  · intro j hj
    rw [hget] at hj
    split at hj
    · cases hj
    · rename_i hij
      exact absurd (hother j hj) hij
  · intro t p ho
    have hexit := h.freeing t p ho
    rw [hget, if_neg]
    · exact hexit
    · rintro rfl
      cases hx.symm.trans hexit
  · intro ho
    rw [List.length_set]
    exact h.allocated ho

theorem Inv.step (h : Inv s l d) (hstep : Step s e s') :
    Inv s' (e.relink (l, d)).1 (e.relink (l, d)).2 := by
  have hheld := h.held
  have howner := h.owner_holds
  cases hstep with
  | idle => exact h
  | alloc ho => exact h.alloc ho
  | spawn ho => exact h.spawn ho
  | lockOwner ho hm =>
    rw [ho] at hheld
    exact h.moveOwner hheld (by simp) (by simp [Owner.holds]) (by simp [hm]) (by simp) (by simp)
  | read ho =>
    rw [ho] at hheld howner
    exact h.moveOwner hheld (by simp) howner (fun _ => Iff.rfl) (by simp) (by simp)
  | clear ho => exact h.clear ho
  | unlockOwner ho =>
    rw [ho] at hheld howner
    refine h.moveOwner hheld (by simp) (by simp [Owner.holds]) ?_ (by simp) (by simp)
    simp [howner.mpr rfl]
  | @advance t p ho hn =>
    rw [ho] at hheld howner
    have hjoin : (Owner.joining t p).Holds s.next d := by
      cases d with
      | nil => cases hheld
      | cons i d =>
        obtain ⟨hi, n, hn', hrest⟩ := hheld
        obtain rfl := Option.some.inj hi
        obtain rfl : p = n := Option.some.inj (hn.symm.trans hn')
        exact ⟨d, rfl, ⟨p, hn⟩, hrest⟩
    exact h.moveOwner hjoin (by simp) howner (fun _ => Iff.rfl) (by simp) (by simp)
  | @join t p ho ht =>
    rw [ho] at hheld howner
    refine h.moveOwner hheld (by simp) howner (fun _ => Iff.rfl) ?_ (by simp)
    intro u q hfree
    obtain ⟨rfl, _⟩ := Owner.freeing.inj hfree
    exact ht
  | free ho => exact h.free ho
  | done ho =>
    rw [ho] at hheld howner
    have hd : d = [] := by
      cases d with
      | nil => rfl
      | cons i d =>
        obtain ⟨hi, _⟩ := hheld
        cases hi
    exact h.moveOwner hd (by simp) howner (fun _ => Iff.rfl) (by simp) (by simp)
  | lock i ht hm =>
    refine h.moveThread ht rfl (by simp) (by simp) (by simp [hm]) (by simp [Stage.holds]) ?_
    intro j hj
    simp [hm, Ne.symm hj]
  | setNext i ht => exact h.setNext ht
  | publish i ht => exact h.publish ht
  | unlock i ht =>
    have hholder : s.holder = some (.thread i) := (h.thread_holds i).mpr ⟨_, ht, rfl⟩
    refine h.moveThread ht rfl (by simp) (by simp) (by simp [hholder]) (by simp [Stage.holds]) ?_
    intro j hj
    simp [hholder, Ne.symm hj]
  | exit i ht =>
    refine h.moveThread ht rfl (by simp) (by simp) Iff.rfl ?_ fun _ _ => Iff.rfl
    refine (h.thread_holds i).trans ?_
    simp [ht, Stage.holds]

end Inv

/-- The threads that have not come to their end are still private, or in a list. -/
theorem unfinished_le {s : State} {l d : List Nat} (h : Inv s l d) :
    s.threads.countP (fun x => x ≠ .exited) ≤
      s.threads.countP (fun x => !x.published) + (l ++ d).length := by
  have hsplit : s.threads.countP (fun x => x ≠ .exited) =
      s.threads.countP (fun x => !x.published) +
        s.threads.countP (fun x => x.published && x ≠ .exited) := by
    induction s.threads with
    | nil => rfl
    | cons x xs ih =>
      simp only [List.countP_cons, ih]
      cases x <;> simp [Stage.published] <;> omega
  have hlisted : s.threads.countP (fun x => x.published && x ≠ .exited) ≤ (l ++ d).length := by
    rw [Threads.countP_eq_length_filter]
    apply List.Nodup.length_le_of_subset
    · exact List.nodup_range.filter _
    · intro i hi
      obtain ⟨x, hx, hpub⟩ := Threads.mem_filter_range.mp hi
      have hand := Bool.and_eq_true_iff.mp hpub
      rcases h.public_block i x hx hand.1 with hmem | ⟨_, hexit⟩
      · exact hmem
      · simp [hexit] at hand
  omega

theorem lists_concat (tr : List Event) (e : Event) : lists (tr ++ [e]) = e.relink (lists tr) := by
  rw [lists, List.foldl_append]
  rfl

theorem inv_of_run {tr : List Event} {s : State} (h : Run Step State.init tr s) :
    Inv s (listed tr) (detached tr) := by
  apply h.invariant (I := fun tr s => Inv s (listed tr) (detached tr))
  · exact Inv.init
  · intro tr s e s' _ inv hstep
    rw [listed, detached, lists_concat]
    exact inv.step hstep

inductive Place where
  | owned
  | listed
  | detached
  | freed

def State.At (s : State) (i : Nat) : Place → Prop
  | .owned => ∃ x, s.threads[i]? = some x ∧ x.published = false
  | .listed => ∃ l, Linked s.next s.head l ∧ i ∈ l
  | .detached => ∃ d, s.owner.Holds s.next d ∧ i ∈ d
  | .freed => i < s.threads.length ∧ s.next i = none

section Places
variable {next : Nat → Option (Option Nat)} {s s' : State} {e : Event} {l l' d d' : List Nat}
  {i : Nat} {x : Stage}

theorem linked_unique {h : Option Nat} (hl : Linked next h l) (hl' : Linked next h l') :
    l = l' := by
  induction l generalizing h l' with
  | nil =>
    obtain rfl : h = none := hl
    cases l' with
    | nil => rfl
    | cons j l' =>
      obtain ⟨hj, _⟩ := hl'
      cases hj
  | cons i l ih =>
    obtain ⟨rfl, n, hn, hrest⟩ := hl
    cases l' with
    | nil => cases hl'
    | cons j l' =>
      obtain ⟨hj, n', hn', hrest'⟩ := hl'
      obtain rfl := Option.some.inj hj
      obtain rfl : n = n' := Option.some.inj (hn.symm.trans hn')
      rw [ih hrest hrest']

theorem holds_unique {o : Owner} (hd : o.Holds next d) (hd' : o.Holds next d') : d = d' := by
  have htail : ∀ t p, (∃ r, d = t :: r ∧ (∃ n, next t = some n) ∧ Linked next p r) →
      (∃ r, d' = t :: r ∧ (∃ n, next t = some n) ∧ Linked next p r) → d = d' := by
    rintro t p ⟨r, rfl, _, hr⟩ ⟨r', rfl, _, hr'⟩
    rw [linked_unique hr hr']
  cases o with
  | detached p => exact linked_unique hd hd'
  | walking p => exact linked_unique hd hd'
  | joining t p => exact htail t p hd hd'
  | freeing t p => exact htail t p hd hd'
  | _ => exact Eq.trans hd (Eq.symm hd')

theorem linked_allocated {h : Option Nat} (hl : Linked next h l) (hi : i ∈ l) :
    ∃ n, next i = some n := by
  induction l generalizing h with
  | nil => cases hi
  | cons j l ih =>
    obtain ⟨_, n, hn, hrest⟩ := hl
    rcases List.mem_cons.mp hi with rfl | hi
    · exact ⟨n, hn⟩
    · exact ih hrest hi

theorem holds_allocated {o : Owner} (hd : o.Holds next d) (hi : i ∈ d) : ∃ n, next i = some n := by
  have htail : ∀ t p, (∃ r, d = t :: r ∧ (∃ n, next t = some n) ∧ Linked next p r) →
      ∃ n, next i = some n := by
    rintro t p ⟨r, rfl, ht, hr⟩
    rcases List.mem_cons.mp hi with rfl | hi
    · exact ht
    · exact linked_allocated hr hi
  cases o with
  | detached p => exact linked_allocated hd hi
  | walking p => exact linked_allocated hd hi
  | joining t p => exact htail t p hd
  | freeing t p => exact htail t p hd
  | _ =>
    obtain rfl : d = [] := hd
    cases hi

theorem Inv.at_listed (h : Inv s l d) : s.At i .listed ↔ i ∈ l := by
  constructor
  · rintro ⟨l', hl', hi⟩
    rwa [linked_unique h.linked hl']
  · intro hi
    exact ⟨l, h.linked, hi⟩

theorem Inv.at_detached (h : Inv s l d) : s.At i .detached ↔ i ∈ d := by
  constructor
  · rintro ⟨d', hd', hi⟩
    rwa [holds_unique h.held hd']
  · intro hi
    exact ⟨d, h.held, hi⟩

theorem Inv.allocated_of_mem (h : Inv s l d) (hi : i ∈ l ++ d) : ∃ n, s.next i = some n := by
  rcases List.mem_append.mp hi with hl | hd
  · exact linked_allocated h.linked hl
  · exact holds_allocated h.held hd

/-- Only a thread at its end may find its block freed. -/
theorem Inv.allocated_of_running (h : Inv s l d) (hx : s.threads[i]? = some x)
    (hrun : x ≠ .exited) : ∃ n, s.next i = some n := by
  cases hpub : x.published with
  | false => exact h.private_block i x hx hpub
  | true =>
    rcases h.public_block i x hx hpub with hmem | ⟨_, hexit⟩
    · exact h.allocated_of_mem hmem
    · exact absurd hexit hrun

/-- What tells the places apart. -/
theorem Inv.at_facts (h : Inv s l d) {place : Place} (hat : s.At i place) :
    (i ∈ l ↔ place = .listed) ∧ (i ∈ d ↔ place = .detached) ∧
      (s.next i = none ↔ place = .freed) := by
  have hallocated : i ∈ l ++ d → s.next i ≠ none := by
    intro hi hnone
    obtain ⟨n, hn⟩ := h.allocated_of_mem hi
    rw [hnone] at hn
    cases hn
  have hdisjoint : i ∈ l → i ∉ d := fun hl hd => (List.nodup_append.mp h.nodup).2.2 i hl i hd rfl
  cases place with
  | owned =>
    obtain ⟨x, hx, hpriv⟩ := hat
    have hnot := h.notMem_of_private hx hpriv
    obtain ⟨n, hn⟩ := h.private_block i x hx hpriv
    simp only [List.mem_append, not_or] at hnot
    simp [hnot, hn]
  | listed =>
    have hl := h.at_listed.mp hat
    simp [hl, hdisjoint hl, hallocated (List.mem_append_left d hl)]
  | detached =>
    have hd := h.at_detached.mp hat
    have hl : i ∉ l := fun hl => hdisjoint hl hd
    simp [hd, hl, hallocated (List.mem_append_right l hd)]
  | freed =>
    have hnot : i ∉ l ++ d := fun hi => hallocated hi hat.2
    simp only [List.mem_append, not_or] at hnot
    simp [hnot, hat.2]

theorem Inv.exists_place (h : Inv s l d) (hi : i < s.threads.length) : ∃ place, s.At i place := by
  have hx := List.getElem?_eq_getElem hi
  cases hpub : s.threads[i].published with
  | false => exact ⟨.owned, _, hx, hpub⟩
  | true =>
    rcases h.public_block i _ hx hpub with hmem | ⟨hnone, _⟩
    · rcases List.mem_append.mp hmem with hl | hd
      · exact ⟨.listed, h.at_listed.mpr hl⟩
      · exact ⟨.detached, h.at_detached.mpr hd⟩
    · exact ⟨.freed, hi, hnone⟩

/-- The block of every started thread is at exactly one place. -/
theorem Inv.existsUnique_place (h : Inv s l d) (hi : i < s.threads.length) :
    ∃! place, s.At i place := by
  obtain ⟨place, hat⟩ := h.exists_place hi
  refine ⟨place, hat, fun place' hat' => ?_⟩
  obtain ⟨hlisted, hdetached, hfreed⟩ := h.at_facts hat
  obtain ⟨hlisted', hdetached', hfreed'⟩ := h.at_facts hat'
  cases place <;> cases place' <;> simp_all

/-- A block is published for good. -/
theorem Step.published (hstep : Step s e s') (hx : s.threads[i]? = some x)
    (hpub : x.published = true) : ∃ y, s'.threads[i]? = some y ∧ y.published = true := by
  -- thread `j` goes from `y` to `z`
  have hset : ∀ (j : Nat) (y z : Stage), s.threads[j]? = some y →
      (y.published = true → z.published = true) →
      ∃ w, (s.threads.set j z)[i]? = some w ∧ w.published = true := by
    intro j y z hy hz
    rw [Threads.getElem?_set hy]
    split
    · rename_i hij
      subst hij
      obtain rfl : x = y := Option.some.inj (hx.symm.trans hy)
      exact ⟨z, rfl, hz hpub⟩
    · exact ⟨x, hx, hpub⟩
  cases hstep with
  | spawn ho =>
    refine ⟨x, ?_, hpub⟩
    have hlt := (List.getElem?_eq_some_iff.mp hx).1
    rw [Threads.getElem?_concat, if_neg (Nat.ne_of_lt hlt)]
    exact hx
  | lock j ht hm => exact hset j _ _ ht fun h => by cases h
  | setNext j ht => exact hset j _ _ ht fun h => by cases h
  | publish j ht => exact hset j _ _ ht fun _ => rfl
  | unlock j ht => exact hset j _ _ ht fun _ => rfl
  | exit j ht => exact hset j _ _ ht fun _ => rfl
  | _ => exact ⟨x, hx, hpub⟩

theorem Step.unlisted (hstep : Step s e s') (hx : s.threads[i]? = some x)
    (hpub : x.published = true) (hi : i ∉ l) : i ∉ (e.relink (l, d)).1 := by
  cases hstep with
  | publish j ht =>
    have hne : i ≠ j := by
      rintro rfl
      obtain rfl : x = .publishing := Option.some.inj (hx.symm.trans ht)
      cases hpub
    intro hmem
    exact hi ((List.mem_cons.mp hmem).resolve_left hne)
  | clear ho => exact List.not_mem_nil
  | _ => exact hi

end Places

end Lib.JoinList
