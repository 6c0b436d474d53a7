import Cmsc624.A2.Txn

/-!
# The transaction types of txn_types.h

`Txn::Read` and `Txn::Write` on the buffers, and the four classes written with them.
Every one of them votes and writes declared keys only, from whatever was read.
-/

namespace Cmsc624.A2

open Lib

set_option autoImplicit false

namespace Buffers
variable (b : Buffers)

/-- `Txn::Read`: the value if it returns true; the outer `none` is `DIE`. -/
def read (readset writeset : OrderedSet Key) (key : Key) : Option (Option Value) :=
  if key ∉ readset ∧ key ∉ writeset then none
  else if b.status ≠ .incomplete then some none
  else some (b.reads.lookup key)

/-- `Txn::Write`; `none` is `DIE`. -/
def write (writeset : OrderedSet Key) (key : Key) (value : Value) : Option Buffers :=
  if key ∉ writeset then none
  else if b.status ≠ .incomplete then some b
  else some { b with writes := b.writes.insert key value, reads := b.reads.insert key value }

def commit : Buffers := { b with status := .completedC }

def abort : Buffers := { b with status := .completedA }

end Buffers

def noop : TxnCode where
  readset := .empty
  writeset := .empty
  run b := some b.commit

/-- The loop of `Expect::Run` over the rest of `m_`. -/
def expectRun (readset : OrderedSet Key) : List (Key × Value) → Buffers → Option Buffers
  | [], b => some b.commit
  | e :: es, b => (b.read readset .empty e.1).bind fun result =>
      if result = some e.2 then expectRun readset es b else some b.abort

/-- Commits iff all keys of `m` have the given values. -/
def expect (m : OrderedMap Key Value) : TxnCode where
  readset := m.keySet
  writeset := .empty
  run := expectRun m.keySet m.entries

def put (m : OrderedMap Key Value) : TxnCode where
  readset := .empty
  writeset := m.keySet
  run b := (m.entries.foldlM (fun (b : Buffers) e => b.write m.keySet e.1 e.2) b).map Buffers.commit

/-- One pass of the first loop of `RMW::Run`; what is read is not used. -/
def lookAt (readset writeset : OrderedSet Key) (b : Buffers) (key : Key) : Option Buffers :=
  (b.read readset writeset key).map fun _ => b

/-- One pass of the second loop of `RMW::Run`. -/
def increment (readset writeset : OrderedSet Key) (b : Buffers) (key : Key) : Option Buffers :=
  (b.read readset writeset key).bind fun result => b.write writeset key (result.getD 0 + 1)

/-- Reads `readset` and increments what is in `writeset`. The busy loop is left out. -/
def rmw (readset writeset : OrderedSet Key) : TxnCode where
  readset := readset
  writeset := writeset
  run b := (readset.toList.foldlM (lookAt readset writeset) b).bind fun b =>
    (writeset.toList.foldlM (increment readset writeset) b).map Buffers.commit

/-- `Run` is under way and has written declared keys only. -/
structure Underway (writeset : OrderedSet Key) (b : Buffers) : Prop where
  incomplete : b.status = .incomplete
  writes_declared : ∀ k ∈ b.writes.keys, k ∈ writeset

/-- `Run` has returned: it voted and wrote declared keys only. -/
structure Ends (c : TxnCode) (b : Buffers) : Prop where
  voted : b.Voted
  writes_declared : ∀ k ∈ b.writes.keys, k ∈ c.writeset

section Votes
variable {readset writeset : OrderedSet Key} {b : Buffers}

theorem underway_unrun (writeset : OrderedSet Key) (reads : OrderedMap Key Value) :
    Underway writeset (unrun reads) where
  incomplete := rfl
  writes_declared := by simp [unrun]

theorem Underway.commit {c : TxnCode} (h : Underway c.writeset b) : Ends c b.commit :=
  ⟨.inl rfl, h.writes_declared⟩

theorem Underway.abort {c : TxnCode} (h : Underway c.writeset b) : Ends c b.abort :=
  ⟨.inr rfl, h.writes_declared⟩

theorem votes_of_ends {c : TxnCode} (h : ∀ reads, ∃ b, c.run (unrun reads) = some b ∧ Ends c b) :
    c.AlwaysVotes ∧ c.WritesDeclared := by
  constructor
  · intro reads
    obtain ⟨b, hb, hends⟩ := h reads
    exact ⟨b, hb, hends.voted⟩
  · intro reads b hb
    obtain ⟨b', hb', hends⟩ := h reads
    obtain rfl : b' = b := Option.some.inj (hb'.symm.trans hb)
    exact hends.writes_declared

theorem Buffers.read_declared (b : Buffers) (readset writeset : OrderedSet Key) (key : Key)
    (h : key ∈ readset ∨ key ∈ writeset) :
    ∃ result, b.read readset writeset key = some result := by
  unfold Buffers.read
  rw [if_neg (by tauto)]
  split
  · exact ⟨_, rfl⟩
  · exact ⟨_, rfl⟩

theorem Underway.write {key : Key} (h : Underway writeset b) (hkey : key ∈ writeset)
    (value : Value) : ∃ b', b.write writeset key value = some b' ∧ Underway writeset b' := by
  unfold Buffers.write
  rw [if_neg (not_not_intro hkey), if_neg (not_not_intro h.incomplete)]
  refine ⟨_, rfl, h.incomplete, fun k hk => ?_⟩
  rcases OrderedMap.mem_keys_insert hk with rfl | hk
  · exact hkey
  · exact h.writes_declared k hk

/-- A loop whose every pass keeps `P` runs to its end and keeps it. -/
theorem foldlM_of_forall {α : Type} {P : Buffers → Prop} {f : Buffers → α → Option Buffers}
    {l : List α} (hf : ∀ b, P b → ∀ a ∈ l, ∃ b', f b a = some b' ∧ P b') (hb : P b) :
    ∃ b', l.foldlM f b = some b' ∧ P b' := by
  induction l generalizing b with
  | nil => exact ⟨b, rfl, hb⟩
  | cons a l ih =>
    obtain ⟨b', hb', hP⟩ := hf b hb a List.mem_cons_self
    rw [List.foldlM_cons, hb']
    exact ih (fun b hb x hx => hf b hb x (List.mem_cons_of_mem a hx)) hP

theorem noop_votes : noop.AlwaysVotes ∧ noop.WritesDeclared :=
  votes_of_ends fun reads => ⟨_, rfl, Underway.commit (underway_unrun _ reads)⟩

theorem expectRun_ends {m : OrderedMap Key Value} {es : List (Key × Value)}
    (hes : ∀ e ∈ es, e.1 ∈ m.keySet) (hb : Underway .empty b) :
    ∃ b', expectRun m.keySet es b = some b' ∧ Ends (expect m) b' := by
  induction es with
  | nil => exact ⟨_, rfl, hb.commit⟩
  | cons e es ih =>
    obtain ⟨result, hresult⟩ := Buffers.read_declared b m.keySet .empty e.1
      (.inl (hes e List.mem_cons_self))
    simp only [expectRun, hresult, Option.bind_some]
    split
    · exact ih fun e' he' => hes e' (List.mem_cons_of_mem e he')
    · exact ⟨_, rfl, hb.abort⟩

theorem expect_votes (m : OrderedMap Key Value) :
    (expect m).AlwaysVotes ∧ (expect m).WritesDeclared :=
  votes_of_ends fun reads =>
    expectRun_ends (fun _ he => List.mem_map_of_mem he) (underway_unrun _ reads)

theorem put_votes (m : OrderedMap Key Value) : (put m).AlwaysVotes ∧ (put m).WritesDeclared := by
  refine votes_of_ends fun reads => ?_
  obtain ⟨b', hb', hunder⟩ := foldlM_of_forall (P := Underway m.keySet)
    (f := fun b e => b.write m.keySet e.1 e.2) (l := m.entries)
    (fun b hb e he => hb.write (List.mem_map_of_mem he) e.2) (underway_unrun _ reads)
  exact ⟨b'.commit, by simp only [put, hb', Option.map_some], hunder.commit⟩

theorem lookAt_underway (readset : OrderedSet Key) {key : Key} (h : Underway writeset b)
    (hkey : key ∈ readset) :
    ∃ b', lookAt readset writeset b key = some b' ∧ Underway writeset b' := by
  obtain ⟨result, hresult⟩ := Buffers.read_declared b readset writeset key (.inl hkey)
  exact ⟨b, by rw [lookAt, hresult, Option.map_some], h⟩

theorem increment_underway (readset : OrderedSet Key) {key : Key} (h : Underway writeset b)
    (hkey : key ∈ writeset) :
    ∃ b', increment readset writeset b key = some b' ∧ Underway writeset b' := by
  obtain ⟨result, hresult⟩ := Buffers.read_declared b readset writeset key (.inr hkey)
  rw [increment, hresult]
  exact h.write hkey _

theorem rmw_votes (readset writeset : OrderedSet Key) :
    (rmw readset writeset).AlwaysVotes ∧ (rmw readset writeset).WritesDeclared := by
  refine votes_of_ends fun reads => ?_
  obtain ⟨b₁, hb₁, hunder₁⟩ := foldlM_of_forall (l := readset.toList)
    (fun b hb key hkey => lookAt_underway readset hb hkey)
    (underway_unrun writeset reads)
  obtain ⟨b₂, hb₂, hunder₂⟩ := foldlM_of_forall (l := writeset.toList)
    (fun b hb key hkey => increment_underway readset hb hkey) hunder₁
  refine ⟨b₂.commit, ?_, hunder₂.commit⟩
  simp only [rmw, hb₁, Option.bind_some, hb₂, Option.map_some]

end Votes

section Keeps
variable {readset writeset : OrderedSet Key}

def Buffers.Declared (writeset : OrderedSet Key) (b : Buffers) : Prop :=
  ∀ k ∈ b.writes.keys, k ∈ writeset

theorem Buffers.Declared.write {b b' : Buffers} {key : Key} {value : Value}
    (hb : b.Declared writeset) (h : b.write writeset key value = some b') :
    b'.Declared writeset := by
  unfold Buffers.write at h
  split at h
  · cases h
  · rename_i hkey
    split at h
    · obtain rfl := Option.some_inj.mp h
      exact hb
    · obtain rfl := Option.some_inj.mp h
      intro k hk
      rcases OrderedMap.mem_keys_insert hk with rfl | hk
      · exact not_not.mp hkey
      · exact hb k hk

theorem foldlM_keeps {α : Type} {P : Buffers → Prop} {f : Buffers → α → Option Buffers}
    (hf : ∀ b b' a, P b → f b a = some b' → P b') {l : List α} {b b' : Buffers} (hb : P b)
    (h : l.foldlM f b = some b') : P b' := by
  induction l generalizing b with
  | nil =>
    obtain rfl : b = b' := Option.some_inj.mp h
    exact hb
  | cons a l ih =>
    rw [List.foldlM_cons] at h
    obtain ⟨b₁, hb₁, hrest⟩ := Option.bind_eq_some_iff.mp h
    exact ih (hf b b₁ a hb hb₁) hrest

theorem noop_keepsDeclared : noop.KeepsDeclared := by
  intro b b' h hb
  obtain rfl : b.commit = b' := Option.some_inj.mp h
  exact hb

theorem expect_keepsDeclared (m : OrderedMap Key Value) : (expect m).KeepsDeclared := by
  suffices h : ∀ es b b', expectRun m.keySet es b = some b' → b'.writes = b.writes from
    fun b b' hrun hb => by rw [h m.entries b b' hrun]; exact hb
  intro es b b' hrun
  induction es with
  | nil => rw [← Option.some_inj.mp hrun]; rfl
  | cons e es ih =>
    obtain ⟨result, _, hrest⟩ := Option.bind_eq_some_iff.mp hrun
    split at hrest
    · exact ih hrest
    · rw [← Option.some_inj.mp hrest]; rfl

theorem put_keepsDeclared (m : OrderedMap Key Value) : (put m).KeepsDeclared := by
  intro b b' h hb
  obtain ⟨b₁, hb₁, rfl⟩ := Option.map_eq_some_iff.mp h
  have hput : b₁.Declared m.keySet := foldlM_keeps (fun b b' e hb => hb.write) hb hb₁
  exact hput

theorem rmw_keepsDeclared (readset writeset : OrderedSet Key) :
    (rmw readset writeset).KeepsDeclared := by
  intro b b' h hb
  obtain ⟨b₁, hb₁, hrest⟩ := Option.bind_eq_some_iff.mp h
  obtain ⟨b₂, hb₂, rfl⟩ := Option.map_eq_some_iff.mp hrest
  have hlook : b₁.Declared writeset := by
    refine foldlM_keeps (fun b b' k hb hk => ?_) hb hb₁
    obtain ⟨_, _, rfl⟩ := Option.map_eq_some_iff.mp hk
    exact hb
  have hincrement : b₂.Declared writeset := by
    refine foldlM_keeps (fun b b' k hb hk => ?_) hlook hb₂
    obtain ⟨_, _, hwrite⟩ := Option.bind_eq_some_iff.mp hk
    exact hb.write hwrite
  exact hincrement

end Keeps

inductive TxnType where
  | noop
  | put (m : OrderedMap Key Value)
  | expect (m : OrderedMap Key Value)
  | rmw (readset writeset : OrderedSet Key)

namespace TxnType

def code : TxnType → TxnCode
  | .noop => A2.noop
  | .put m => A2.put m
  | .expect m => A2.expect m
  | .rmw readset writeset => A2.rmw readset writeset

/-- The caller of the constructor of `RMW` chose separate sets. -/
def Separate : TxnType → Prop
  | .rmw readset writeset => writeset.Disjoint readset
  | _ => True

variable (type : TxnType)

theorem votes : type.code.AlwaysVotes ∧ type.code.WritesDeclared := by
  cases type with
  | noop => exact noop_votes
  | put m => exact put_votes m
  | expect m => exact expect_votes m
  | rmw readset writeset => exact rmw_votes readset writeset

theorem keepsDeclared : type.code.KeepsDeclared := by
  cases type with
  | noop => exact noop_keepsDeclared
  | put m => exact put_keepsDeclared m
  | expect m => exact expect_keepsDeclared m
  | rmw readset writeset => exact rmw_keepsDeclared readset writeset

/-- Only an `RMW` can have overlapping sets. -/
theorem checkReadWriteSets_iff : type.code.checkReadWriteSets ↔ type.Separate := by
  cases type with
  | noop => exact iff_of_true (by decide) trivial
  | put m => exact iff_of_true (fun _ _ => List.not_mem_nil) trivial
  | expect m => exact iff_of_true (fun _ hk => absurd hk List.not_mem_nil) trivial
  | rmw readset writeset => exact Iff.rfl

end TxnType

end Cmsc624.A2
