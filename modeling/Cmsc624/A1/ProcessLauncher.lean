import Cmsc624.A1.RunTest
import Mathlib.Data.Fintype.Card

/-!
# ProcessLauncher

Every request gets a process of its own. `fork` copies the private memory, in which the requests
and the launcher are; the databases and the counter of executed requests are mapped shared. The
launcher does not wait for a permit, and a child that ends gives none back: both are left open
in the source.
-/

namespace Cmsc624.A1.ProcessLauncher

open Lib

set_option autoImplicit false

/-- A `Request*`. -/
abbrev ReqPtr := Nat

/-- The memory of one process. The counter is exact; `WaitOutstanding` sees 64 bits of it. -/
structure Private where
  requests : ReqPtr → Request
  numRequests : Nat

inductive ParentPc where
  -- Between two calls.
  | idle
  -- In `ExecuteRequest`, before `fork`.
  | forking (req : ReqPtr)
  -- In the loop of `WaitOutstanding`.
  | waiting

inductive ChildPc where
  -- In `Execute`.
  | executing
  | counting
  | exiting
  | exited

/-- Its memory is what `fork` has copied: none of its statements writes there. -/
structure Child where
  pid : Int32
  memory : Private
  req : ReqPtr
  pc : ChildPc
  txn : TxnPc

structure State where
  heap : Heap
  txnsExecuted : Nat
  parent : Private
  pc : ParentPc
  children : List Child

def State.init (requests : ReqPtr → Request) (heap : Heap) : State where
  heap := heap
  txnsExecuted := 0
  parent := ⟨requests, 0⟩
  pc := .idle
  children := []

def Child.request (c : Child) : Request := c.memory.requests c.req

/-- The id of a process is free again when it has exited: `SIGCHLD` is ignored. -/
def ChildPc.live : ChildPc → Bool
  | .exited => false
  | _ => true

def ChildPc.counted : ChildPc → Bool
  | .exiting => true
  | .exited => true
  | _ => false

def State.put (s : State) (i : Nat) (c : Child) : State :=
  { s with children := s.children.set i c }

inductive Event where
  -- With the request as it is in the memory of the parent.
  | fork (req : Request)
  | access (e : Access)
  | waited
  | skip

inductive ParentStep : State → Event → State → Prop where
  -- The caller changes a request, as by `SetDatabase`.
  | store {s : State} (p : ReqPtr) (q : Request) (hpc : s.pc = .idle) :
      ParentStep s .skip
        { s with parent := { s.parent with requests := Function.update s.parent.requests p q } }
  | issue {s : State} (req : ReqPtr) (hpc : s.pc = .idle) :
      ParentStep s .skip
        { s with
          parent := { s.parent with numRequests := s.parent.numRequests + 1 }
          pc := .forking req }
  | fork {s : State} {req : ReqPtr} {pid : Int32} (hpc : s.pc = .forking req) (hpos : 0 < pid)
      (hfree : ∀ c ∈ s.children, c.pc.live = true → c.pid ≠ pid) :
      ParentStep s (.fork (s.parent.requests req))
        { s with pc := .idle, children := s.children ++ [⟨pid, s.parent, req, .executing, .start⟩] }
  | waitOutstanding {s : State} (hpc : s.pc = .idle) :
      ParentStep s .skip { s with pc := .waiting }
  | retry {s : State} (hpc : s.pc = .waiting)
      (hne : s.txnsExecuted % 2 ^ 64 ≠ s.parent.numRequests % 2 ^ 64) : ParentStep s .skip s
  | waited {s : State} (hpc : s.pc = .waiting)
      (heq : s.txnsExecuted % 2 ^ 64 = s.parent.numRequests % 2 ^ 64) :
      ParentStep s .waited { s with pc := .idle }

/-- One statement of child `i`; `Lock` and `Unlock` are empty. -/
inductive ChildStep (i : Nat) : State → Event → State → Prop where
  | txn {s : State} {c : Child} {e : Access} {heap : Heap} {txn : TxnPc}
      (hc : s.children[i]? = some c) (hpc : c.pc = .executing)
      (htxn : TxnStep i c.request s.heap c.txn e heap txn) :
      ChildStep i s (.access e) { s.put i { c with txn := txn } with heap := heap }
  -- `Execute` returns after the last pass.
  | executed {s : State} {c : Child} (hc : s.children[i]? = some c) (hpc : c.pc = .executing)
      (hdone : c.txn.pass = c.request.writeset.length) :
      ChildStep i s .skip (s.put i { c with pc := .counting })
  | count {s : State} {c : Child} (hc : s.children[i]? = some c) (hpc : c.pc = .counting) :
      ChildStep i s .skip
        { s.put i { c with pc := .exiting } with txnsExecuted := s.txnsExecuted + 1 }
  | exit {s : State} {c : Child} (hc : s.children[i]? = some c) (hpc : c.pc = .exiting) :
      ChildStep i s .skip (s.put i { c with pc := .exited })

def AnyChild (s : State) (e : Event) (s' : State) : Prop := ∃ i, ChildStep i s e s'

inductive Step : State → Event → State → Prop where
  | parent {s s' : State} {e : Event} (h : ParentStep s e s') : Step s e s'
  | child {s s' : State} {e : Event} (h : AnyChild s e s') : Step s e s'

abbrev Runs (requests : ReqPtr → Request) (heap : Heap) : List Event → State → Prop :=
  Run Step (State.init requests heap)

/-- The requests as they were when `fork` copied them; a child is known by its place here. -/
def forked (tr : List Event) : List Request := tr.filterMap fun | .fork req => some req | _ => none

def accesses (tr : List Event) : List Access := tr.filterMap fun | .access e => some e | _ => none

def ParentPc.pending : ParentPc → Nat
  | .forking _ => 1
  | _ => 0

/-- Where it is in `Txn` fits its request, and it leaves `Execute` after the last pass. -/
structure Child.Sound (c : Child) : Prop where
  within : c.txn.Within c.request
  done : c.pc ≠ .executing → c.txn.pass = c.request.writeset.length

def Child.behind (c : Child) : List (RecPtr × UInt64) := c.request.behind c.txn

structure Inv (tr : List Event) (s : State) : Prop where
  requests : forked tr = s.children.map Child.request
  sound : ∀ c ∈ s.children, c.Sound
  channel : ∀ i, onChannel (Cells.added (accesses tr)) i =
    s.children[i]?.toList.flatMap Child.behind
  touched : ∀ e ∈ accesses tr, ∃ req, (forked tr)[e.thread]? = some req ∧ req.Touches e.cell
  issued : s.parent.numRequests = s.children.length + s.pc.pending
  counted : s.txnsExecuted = s.children.countP fun c => c.pc.counted
  pids : ((s.children.filter fun c => c.pc.live).map Child.pid).Nodup

section Logs
variable (tr tr' : List Event)

@[simp] theorem forked_append : forked (tr ++ tr') = forked tr ++ forked tr' :=
  List.filterMap_append

@[simp] theorem accesses_append : accesses (tr ++ tr') = accesses tr ++ accesses tr' :=
  List.filterMap_append

@[simp] theorem accesses_map_access (xs : List Access) : accesses (xs.map .access) = xs := by
  unfold accesses
  rw [List.filterMap_map]
  exact List.filterMap_some

end Logs

section Inv
variable {requests : ReqPtr → Request} {heap : Heap} {tr tr' : List Event} {s s' : State}
  {e : Event} {i : Nat} {c c' : Child}

theorem Inv.init (requests : ReqPtr → Request) (heap : Heap) :
    Inv [] (State.init requests heap) where
  requests := rfl
  sound _ h := by cases h
  channel _ := rfl
  touched _ h := by cases h
  issued := rfl
  counted := rfl
  pids := List.nodup_nil

theorem put_getElem (hc : s.children[i]? = some c) (j : Nat) :
    (s.put i c').children[j]? = if i = j then some c' else s.children[j]? :=
  Threads.getElem?_set hc _ j

theorem put_self (hc : s.children[i]? = some c) : (s.put i c').children[i]? = some c' :=
  (put_getElem hc i).trans (if_pos rfl)

theorem put_same (hc : s.children[i]? = some c) : s.put i c = s := by
  obtain ⟨hi, rfl⟩ := List.getElem?_eq_some_iff.mp hc
  unfold State.put
  rw [List.set_getElem_self]

theorem live_sublist {l : List Child} (hc : l[i]? = some c) (hpid : c'.pid = c.pid)
    (hlive : c.pc.live = true) :
    (((l.set i c').filter fun c => c.pc.live).map Child.pid).Sublist
      ((l.filter fun c => c.pc.live).map Child.pid) := by
  induction l generalizing i with
  | nil => cases hc
  | cons d l ih =>
    cases i with
    | zero =>
      obtain rfl := Option.some.inj hc
      rw [List.set_cons_zero, List.filter_cons, List.filter_cons, if_pos hlive]
      split
      · rw [List.map_cons, List.map_cons, hpid]
      · exact List.sublist_cons_self _ _
    | succ i =>
      rw [List.set_cons_succ, List.filter_cons, List.filter_cons]
      split
      · exact (ih hc).cons_cons _
      · exact ih hc

theorem Inv.sound_getElem (h : Inv tr s) (hc : s.children[i]? = some c) : c.Sound :=
  h.sound c (List.mem_of_getElem? hc)

theorem Inv.forked_getElem (h : Inv tr s) (hc : s.children[i]? = some c) :
    (forked tr)[i]? = some c.request := by
  rw [h.requests, List.getElem?_map, hc, Option.map_some]

theorem Inv.putChild (h : Inv tr s) (d : Child) (hc : s.children[i]? = some c)
    (hlive : c.pc.live = true) (hpid : d.pid = c.pid) (hreq : d.request = c.request)
    (hsound : d.Sound) (hforked : forked [e] = [])
    (hadded : d.behind = c.behind ++ onChannel (Cells.added (accesses [e])) i)
    (hother : ∀ j, i ≠ j → onChannel (Cells.added (accesses [e])) j = [])
    (htouched : ∀ x ∈ accesses [e], x.thread = i ∧ c.request.Touches x.cell)
    (hparent : s'.parent = s.parent) (hpc : s'.pc = s.pc)
    (hchildren : s'.children = (s.put i d).children)
    (hcounted : s'.txnsExecuted = (s.put i d).children.countP fun c => c.pc.counted) :
    Inv (tr ++ [e]) s' where
  requests := by
    rw [forked_append, hforked, List.append_nil, h.requests, hchildren]
    exact (Threads.map_set_same hc hreq).symm
  sound x hx := by
    rw [hchildren] at hx
    rcases List.mem_or_eq_of_mem_set hx with hold | rfl
    · exact h.sound x hold
    · exact hsound
  channel j := by
    rw [accesses_append, Cells.added_append, onChannel_append, h.channel j, hchildren,
      put_getElem hc]
    by_cases hij : i = j
    · subst hij
      simp [hc, hadded]
    · rw [hother j hij, if_neg hij, List.append_nil]
  touched x hx := by
    rw [forked_append, hforked, List.append_nil]
    rw [accesses_append] at hx
    rcases List.mem_append.mp hx with hold | hnew
    · exact h.touched x hold
    · obtain ⟨hthread, htouch⟩ := htouched x hnew
      exact ⟨c.request, hthread ▸ h.forked_getElem hc, htouch⟩
  issued := by
    rw [hparent, hpc, hchildren, State.put, List.length_set]
    exact h.issued
  counted := by
    rw [hchildren]
    exact hcounted
  pids := by
    rw [hchildren]
    exact h.pids.sublist (live_sublist hc hpid hlive)

theorem Inv.counted_put (h : Inv tr s) (hc : s.children[i]? = some c)
    (hcounted : c'.pc.counted = c.pc.counted) :
    s.txnsExecuted = (s.put i c').children.countP fun c => c.pc.counted :=
  h.counted.trans (Threads.countP_set_same (p := fun c => c.pc.counted) hc hcounted).symm

theorem Inv.childStep (h : Inv tr s) (hstep : ChildStep i s e s') : Inv (tr ++ [e]) s' := by
  cases hstep with
  | @txn c x heap' txn hc hpc htxn =>
    have hsound := h.sound_getElem hc
    refine h.putChild { c with txn := txn } hc (by rw [hpc]; rfl) rfl rfl
      ⟨htxn.within hsound.within, fun hne => absurd hpc hne⟩ rfl (htxn.behind_eq hsound.within)
      (fun j => htxn.added_other) ?_ rfl rfl rfl (h.counted_put hc rfl)
    intro y hy
    obtain rfl := List.mem_singleton.mp hy
    exact ⟨htxn.thread_eq, htxn.touches hsound.within⟩
  | @executed c hc hpc hdone =>
    exact h.putChild { c with pc := .counting } hc (by rw [hpc]; rfl) rfl rfl
      ⟨(h.sound_getElem hc).within, fun _ => hdone⟩ rfl (List.append_nil _).symm
      (fun _ _ => rfl) nofun rfl rfl rfl (h.counted_put hc (by rw [hpc]; rfl))
  | @count c hc hpc =>
    have hset := Threads.countP_set (fun c => c.pc.counted) hc { c with pc := .exiting }
    rw [hpc] at hset
    exact h.putChild { c with pc := .exiting } hc (by rw [hpc]; rfl) rfl rfl
      ⟨(h.sound_getElem hc).within, fun _ => (h.sound_getElem hc).done (by rw [hpc]; nofun)⟩ rfl
      (List.append_nil _).symm (fun _ _ => rfl) nofun rfl rfl rfl
      ((congrArg (· + 1) h.counted).trans hset.symm)
  | @exit c hc hpc =>
    exact h.putChild { c with pc := .exited } hc (by rw [hpc]; rfl) rfl rfl
      ⟨(h.sound_getElem hc).within, fun _ => (h.sound_getElem hc).done (by rw [hpc]; nofun)⟩ rfl
      (List.append_nil _).symm (fun _ _ => rfl) nofun rfl rfl rfl
      (h.counted_put hc (by rw [hpc]; rfl))

theorem Inv.rest (h : Inv tr s) (hforked : forked [e] = []) (haccesses : accesses [e] = [])
    (hchildren : s'.children = s.children) (htxns : s'.txnsExecuted = s.txnsExecuted)
    (hissued : s'.parent.numRequests = s.children.length + s'.pc.pending) :
    Inv (tr ++ [e]) s' where
  requests := by
    rw [forked_append, hforked, List.append_nil, hchildren]
    exact h.requests
  sound := by
    rw [hchildren]
    exact h.sound
  channel i := by
    rw [accesses_append, haccesses, List.append_nil, hchildren]
    exact h.channel i
  touched := by
    rw [accesses_append, haccesses, List.append_nil, forked_append, hforked, List.append_nil]
    exact h.touched
  issued := by
    rw [hchildren]
    exact hissued
  counted := by
    rw [htxns, hchildren]
    exact h.counted
  pids := by
    rw [hchildren]
    exact h.pids

theorem Inv.forkChild (h : Inv tr s) {req : ReqPtr} {pid : Int32} (hpc : s.pc = .forking req)
    (hfree : ∀ c ∈ s.children, c.pc.live = true → c.pid ≠ pid) :
    Inv (tr ++ [.fork (s.parent.requests req)])
      { s with
        pc := .idle
        children := s.children ++ [⟨pid, s.parent, req, .executing, .start⟩] } where
  requests := by
    rw [forked_append, h.requests, List.map_append]
    rfl
  sound c hc := by
    rcases List.mem_append.mp hc with hold | hnew
    · exact h.sound c hold
    · obtain rfl := List.mem_singleton.mp hnew
      exact ⟨start_within _, fun hne => absurd rfl hne⟩
  channel i := by
    rw [accesses_append, Cells.added_append, onChannel_append, h.channel i]
    refine (List.append_nil _).trans ?_
    show _ = (s.children ++ [_])[i]?.toList.flatMap _
    rw [Threads.getElem?_concat]
    split
    · rename_i hi
      rw [List.getElem?_eq_none (by omega)]
      rfl
    · rfl
  touched x hx := by
    rw [accesses_append] at hx
    obtain ⟨q, hq, htouch⟩ := h.touched x ((List.mem_append.mp hx).resolve_right nofun)
    refine ⟨q, ?_, htouch⟩
    rw [forked_append, List.getElem?_append_left (List.getElem?_eq_some_iff.mp hq).1]
    exact hq
  issued := by
    have hissued := h.issued
    rw [hpc] at hissued
    rw [List.length_append]
    exact hissued
  counted := by
    rw [List.countP_append, h.counted]
    rfl
  pids := by
    rw [List.filter_append, List.map_append]
    have hnew : pid ∉ (s.children.filter fun c => c.pc.live).map Child.pid := by
      rw [List.mem_map]
      rintro ⟨c, hc, hsame⟩
      obtain ⟨hmem, hlive⟩ := List.mem_filter.mp hc
      exact hfree c hmem hlive hsame
    have hconcat := h.pids.concat hnew
    rw [List.concat_eq_append] at hconcat
    exact hconcat

theorem Inv.parentStep (h : Inv tr s) (hstep : ParentStep s e s') : Inv (tr ++ [e]) s' := by
  cases hstep with
  | store p q hpc => exact h.rest rfl rfl rfl rfl h.issued
  | issue req hpc =>
    have hissued := h.issued
    rw [hpc] at hissued
    exact h.rest rfl rfl rfl rfl (congrArg (· + 1) hissued)
  | fork hpc hpos hfree => exact h.forkChild hpc hfree
  | waitOutstanding hpc =>
    have hissued := h.issued
    rw [hpc] at hissued
    exact h.rest rfl rfl rfl rfl hissued
  | retry hpc hne => exact h.rest rfl rfl rfl rfl h.issued
  | waited hpc heq =>
    have hissued := h.issued
    rw [hpc] at hissued
    exact h.rest rfl rfl rfl rfl hissued

theorem inv_of_run (h : Runs requests heap tr s) : Inv tr s := by
  apply h.invariant (I := fun tr s => Inv tr s)
  · exact Inv.init requests heap
  · intro tr s e s' _ hinv hstep
    cases hstep with
    | parent hstep => exact hinv.parentStep hstep
    | child hstep =>
      obtain ⟨i, hstep⟩ := hstep
      exact hinv.childStep hstep

/-- The databases, and where every child is in `Txn`. -/
def State.memory (s : State) : Memory := ⟨s.heap, fun i => s.children[i]?.elim .start Child.txn⟩

theorem memory_pcs (hc : s.children[i]? = some c) : s.memory.pcs i = c.txn := by
  show s.children[i]?.elim TxnPc.start Child.txn = c.txn
  rw [hc]
  rfl

theorem memory_put (hc : s.children[i]? = some c) :
    (s.put i c').memory = ⟨s.heap, Function.update s.memory.pcs i c'.txn⟩ := by
  unfold State.memory
  congr 1
  funext j
  rw [put_getElem hc, Function.update_apply]
  by_cases hij : i = j
  · rw [if_pos hij, if_pos hij.symm]
    rfl
  · rw [if_neg hij, if_neg (Ne.symm hij)]

theorem memory_put_same (hc : s.children[i]? = some c) (htxn : c'.txn = c.txn) :
    (s.put i c').memory = s.memory := by
  rw [memory_put hc, htxn]
  have hsame := memory_pcs hc
  rw [← hsame, Function.update_eq_self]
  rfl

theorem memory_run (h : Runs requests heap tr s) :
    Run Memory.Step (State.init requests heap).memory (accesses tr) s.memory := by
  apply h.simulate State.memory fun | .access e => some e | _ => none
  intro tr s e s' _ hstep
  cases hstep with
  | parent hstep =>
    cases hstep with
    | fork hpc hpos hfree =>
      refine Or.inl ⟨rfl, ?_⟩
      unfold State.memory
      congr 1
      funext j
      rw [Threads.getElem?_concat]
      split
      · rename_i hj
        rw [hj, List.getElem?_eq_none (le_refl _)]
        rfl
      · rfl
    | store p q hpc | issue req hpc | waitOutstanding hpc | retry hpc hne | waited hpc heq =>
      exact Or.inl ⟨rfl, rfl⟩
  | child hstep =>
    obtain ⟨i, hstep⟩ := hstep
    cases hstep with
    | @txn c x heap' txn hc hpc htxn =>
      refine Or.inr ⟨x, rfl, ?_⟩
      have hput : (s.put i { c with txn := txn }).memory.pcs = Function.update s.memory.pcs i txn :=
        congrArg Memory.pcs (memory_put hc)
      have hmem := Memory.Step.txn (m := s.memory) ((memory_pcs hc).symm ▸ htxn)
      rw [← hput] at hmem
      exact hmem
    | executed hc hpc hdone => exact Or.inl ⟨rfl, memory_put_same hc rfl⟩
    | count hc hpc => exact Or.inl ⟨rfl, memory_put_same hc rfl⟩
    | exit hc hpc => exact Or.inl ⟨rfl, memory_put_same hc rfl⟩

/-- A process is not counted twice under one id, so few are live at a time. -/
theorem Inv.live_le (h : Inv tr s) : (s.children.countP fun c => c.pc.live) ≤ 2 ^ 32 := by
  have hinj : Function.Injective fun pid : Int32 => pid.toBitVec.toFin := by
    intro pid pid' hsame
    exact Int32.toBitVec_inj.mp (BitVec.toFin_inj.mp hsame)
  have hcard := (h.pids.map hinj).length_le_card
  rw [List.length_map, List.length_map, ← List.countP_eq_length_filter, Fintype.card_fin] at hcard
  exact hcard

theorem Inv.all_counted (h : Inv tr s) (hpc : s.pc = .waiting)
    (heq : s.txnsExecuted % 2 ^ 64 = s.parent.numRequests % 2 ^ 64) :
    ∀ c ∈ s.children, c.pc.counted = true := by
  have hissued := h.issued
  rw [hpc] at hissued
  change _ = s.children.length + 0 at hissued
  have hcounted := h.counted
  have hsplit : s.children.length = (s.children.countP fun c => c.pc.counted) +
      s.children.countP fun c => !c.pc.counted := by
    rw [List.length_eq_countP_add_countP fun c : Child => c.pc.counted]
    simp
  have hmono : (s.children.countP fun c => !c.pc.counted) ≤
      s.children.countP fun c => c.pc.live := by
    apply List.countP_mono_left
    intro c _ hc
    cases hpc : c.pc with
    | executing => rfl
    | counting => rfl
    | exiting => rfl
    | exited =>
      rw [hpc] at hc
      cases hc
  have hle := h.live_le
  have hnone : (s.children.countP fun c => !c.pc.counted) = 0 := by omega
  intro c hc
  have := List.countP_eq_zero.mp hnone c hc
  simpa using this

theorem children_of_waited (hstep : Step s .waited s') :
    s'.children = s.children ∧ s'.heap = s.heap := by
  cases hstep with
  | parent hstep => cases hstep with | waited _ _ => exact ⟨rfl, rfl⟩
  | child hstep =>
    obtain ⟨i, hstep⟩ := hstep
    cases hstep

theorem counted_of_waited (h : Inv tr s) (hstep : Step s .waited s') :
    ∀ c ∈ s.children, c.pc.counted = true := by
  cases hstep with
  | parent hstep => cases hstep with | waited hpc heq => exact h.all_counted hpc heq
  | child hstep =>
    obtain ⟨i, hstep⟩ := hstep
    cases hstep

theorem added_of_waited (h : Inv tr s) (hstep : Step s .waited s') (hc : s.children[i]? = some c) :
    onChannel (Cells.added (accesses tr)) i = c.request.wordAdditions := by
  have hcounted := counted_of_waited h hstep c (List.mem_of_getElem? hc)
  have hdone := (h.sound_getElem hc).done (by
    intro hpc
    rw [hpc] at hcounted
    cases hcounted)
  rw [h.channel i, hc, Option.toList_some, List.flatMap_singleton, Child.behind,
    Request.behind_done hdone]

/-- After a wait the databases have the updates of the processes before it if and only if no
addition is lost. -/
theorem updated_of_waited (h : Runs requests heap tr s) (hstep : Step s .waited s') :
    Updated heap s'.heap (forked tr) ↔ ∀ p, Cells.lost (accesses tr) p = 0 := by
  classical
  have hinv := inv_of_run h
  rw [(children_of_waited hstep).2]
  apply updated_iff_lost (memory_run h)
  rw [hinv.requests, List.flatMap_map]
  apply perm_of_channels
  intro i
  cases hc : s.children[i]? with
  | none =>
    rw [hinv.channel i, hc]
    rfl
  | some c => rw [added_of_waited hinv hstep hc, Option.toList_some, List.flatMap_singleton]

theorem careful_of_separate (h : Runs requests heap tr s)
    (hsep : (forked tr).Pairwise fun q q' => ¬q.Conflict q') : Cells.Careful (accesses tr) := by
  apply Cells.careful_of_separate (fun _ _ => rfl) (Memory.cells_of_run (memory_run h))
  exact separate_of_touched (inv_of_run h).touched hsep

theorem counted_of_step (hstep : Step s e s') (hc : s.children[i]? = some c)
    (hcounted : c.pc.counted = true) :
    (∀ x, e = .access x → x.thread ≠ i) ∧
      ∃ c', s'.children[i]? = some c' ∧ c'.pc.counted = true := by
  cases hstep with
  | parent hstep =>
    cases hstep with
    | fork hpc hpos hfree =>
      refine ⟨nofun, c, ?_, hcounted⟩
      rw [List.getElem?_append_left (List.getElem?_eq_some_iff.mp hc).1]
      exact hc
    | store p q hpc | issue req hpc | waitOutstanding hpc | retry hpc hne | waited hpc heq =>
      exact ⟨nofun, c, hc, hcounted⟩
  | child hstep =>
    obtain ⟨j, hstep⟩ := hstep
    have hput : ∀ {d d' : Child}, s.children[j]? = some d →
        (d.pc.counted = true → d'.pc.counted = true) →
        ∃ c', (s.put j d').children[i]? = some c' ∧ c'.pc.counted = true := by
      intro d d' hd hkeep
      rw [put_getElem hd]
      by_cases hji : j = i
      · subst hji
        obtain rfl := Option.some.inj (hc.symm.trans hd)
        exact ⟨d', if_pos rfl, hkeep hcounted⟩
      · exact ⟨c, (if_neg hji).trans hc, hcounted⟩
    cases hstep with
    | @txn d y heap' txn hd hpc htxn =>
      refine ⟨?_, hput hd id⟩
      rintro x hx hthread
      obtain rfl := Event.access.inj hx
      rw [htxn.thread_eq] at hthread
      subst hthread
      obtain rfl := Option.some.inj (hc.symm.trans hd)
      rw [hpc] at hcounted
      cases hcounted
    | @executed d hd hpc hdone => exact ⟨nofun, hput hd (by rw [hpc]; nofun)⟩
    | @count d hd hpc => exact ⟨nofun, hput hd fun _ => rfl⟩
    | @exit d hd hpc => exact ⟨nofun, hput hd fun _ => rfl⟩

/-- A child that was waited for does not access a record any more. -/
theorem untouched_of_waited (h : Runs requests heap tr s) (hstep : Step s .waited s')
    (hi : i < (forked tr).length) {s'' : State} (hrun : Run Step s' tr' s'') :
    ∀ e ∈ accesses tr', e.thread ≠ i := by
  have hinv := inv_of_run h
  rw [hinv.requests, List.length_map] at hi
  have hcounted := counted_of_waited hinv hstep _ (List.getElem_mem hi)
  have hc : s'.children[i]? = some s.children[i] := by
    rw [(children_of_waited hstep).1, List.getElem?_eq_getElem hi]
  suffices hall : (∀ e ∈ accesses tr', e.thread ≠ i) ∧
      ∃ c, s''.children[i]? = some c ∧ c.pc.counted = true from hall.1
  induction hrun with
  | nil => exact ⟨nofun, _, hc, hcounted⟩
  | snoc _ hmore ih =>
    obtain ⟨hold, c, hc, hcounted⟩ := ih
    obtain ⟨hnew, hlater⟩ := counted_of_step hmore hc hcounted
    refine ⟨?_, hlater⟩
    intro x hx
    rw [accesses_append] at hx
    rcases List.mem_append.mp hx with hbefore | hlast
    · exact hold x hbefore
    · obtain ⟨f, hf, hsome⟩ := List.mem_filterMap.mp hlast
      obtain rfl := List.mem_singleton.mp hf
      cases f with
      | access y =>
        obtain rfl := Option.some.inj hsome
        exact hnew y rfl
      | _ => cases hsome

/-- The statements that the child has before it. -/
def Child.remaining (c : Child) : Nat :=
  match c.pc with
  | .executing => c.request.ahead c.txn + 3
  | .counting => 2
  | .exiting => 1
  | .exited => 0

def State.remaining (s : State) : Nat := (s.children.map Child.remaining).sum

theorem remaining_put (d : Child) (hc : s.children[i]? = some c)
    (hless : d.remaining + 1 = c.remaining) : (s.put i d).remaining + 1 = s.remaining := by
  have hsum := Threads.sum_map_set Child.remaining hc d
  show ((s.children.set i d).map Child.remaining).sum + 1 = s.remaining
  unfold State.remaining
  omega

theorem ChildStep.remaining (hinv : Inv tr s) (h : ChildStep i s e s') :
    s'.remaining + 1 = s.remaining := by
  cases h with
  | @txn c x heap' txn hc hpc htxn =>
    apply remaining_put { c with txn := txn } hc
    have hless := htxn.ahead_eq (hinv.sound_getElem hc).within
    unfold Child.remaining
    simp only [hpc]
    show c.request.ahead txn + 3 + 1 = _
    omega
  | @executed c hc hpc hdone =>
    apply remaining_put { c with pc := .counting } hc
    have hnone : c.request.ahead c.txn = 0 := by
      rw [Request.ahead, Request.behind_done hdone]
      omega
    unfold Child.remaining
    simp only [hpc]
    omega
  | @count c hc hpc =>
    apply remaining_put { c with pc := .exiting } hc
    rw [Child.remaining, Child.remaining, hpc]
  | @exit c hc hpc =>
    apply remaining_put { c with pc := .exited } hc
    rw [Child.remaining, Child.remaining, hpc]

theorem AnyChild.quiet (h : AnyChild s e s') : s'.pc = s.pc ∧ s'.parent = s.parent ∧
    forked [e] = [] := by
  obtain ⟨i, h⟩ := h
  cases h with
  | txn hc hpc htxn => exact ⟨rfl, rfl, rfl⟩
  | executed hc hpc hdone => exact ⟨rfl, rfl, rfl⟩
  | count hc hpc => exact ⟨rfl, rfl, rfl⟩
  | exit hc hpc => exact ⟨rfl, rfl, rfl⟩

theorem quiet_of_run (h : Run AnyChild s tr' s') : s'.pc = s.pc ∧ s'.parent = s.parent ∧
    forked tr' = [] := by
  induction h with
  | nil => exact ⟨rfl, rfl, rfl⟩
  | snoc _ hstep ih =>
    obtain ⟨hpc, hparent, hforked⟩ := hstep.quiet
    rw [forked_append, hforked, List.append_nil]
    exact ⟨hpc.trans ih.1, hparent.trans ih.2.1, ih.2.2⟩

theorem remaining_of_run (h : Runs requests heap tr s) (hrun : Run AnyChild s tr' s') :
    tr'.length + s'.remaining = s.remaining := by
  induction hrun with
  | nil => exact Nat.zero_add _
  | snoc hbefore hstep ih =>
    have hinv := inv_of_run (h.trans (hbefore.mono .child))
    obtain ⟨i, hstep⟩ := hstep
    have hless := hstep.remaining hinv
    rw [List.length_append, List.length_singleton]
    omega

theorem valid_of_child (h : Runs requests heap tr s)
    (hvalid : ∀ req ∈ forked tr, req.Valid (heap req.db).dbSize) (hc : s.children[i]? = some c) :
    c.request.Valid (s.heap c.request.db).dbSize := by
  have hsize : (s.heap c.request.db).dbSize = (heap c.request.db).dbSize :=
    (Memory.similar_of_run (memory_run h)).dbSize_eq _
  rw [hsize]
  exact hvalid _ (List.mem_of_getElem? ((inv_of_run h).forked_getElem hc))

/-- A child that executes a valid request always has a next statement. -/
theorem exists_childStep (h : Runs requests heap tr s)
    (hvalid : ∀ req ∈ forked tr, req.Valid (heap req.db).dbSize) (hc : s.children[i]? = some c)
    (hlive : c.pc.live = true) : ∃ e s', ChildStep i s e s' := by
  have hinv := inv_of_run h
  cases hpc : c.pc with
  | executing =>
    have hwithin := (hinv.sound_getElem hc).within
    rcases Nat.lt_or_eq_of_le hwithin.pass_le with hlt | hdone
    · obtain ⟨e, heap', txn, htxn⟩ := exists_txnStep i (valid_of_child h hvalid hc) hwithin hlt
      exact ⟨_, _, .txn hc hpc htxn⟩
    · exact ⟨_, _, .executed hc hpc hdone⟩
  | counting => exact ⟨_, _, .count hc hpc⟩
  | exiting => exact ⟨_, _, .exit hc hpc⟩
  | exited =>
    rw [hpc] at hlive
    cases hlive

theorem exists_waited (h : Inv tr s) (hpc : s.pc = .waiting) (hnone : s.remaining = 0) :
    ∃ s', Step s .waited s' := by
  have hall : (s.children.countP fun c => c.pc.counted) = s.children.length := by
    apply List.countP_eq_length.mpr
    intro c hc
    have hzero := List.sum_eq_zero_iff_forall_eq_nat.mp hnone _ (List.mem_map_of_mem hc)
    unfold Child.remaining at hzero
    cases hpc : c.pc with
    | exited => rfl
    | exiting => rfl
    | counting =>
      rw [hpc] at hzero
      cases hzero
    | executing =>
      rw [hpc] at hzero
      cases hzero
  have hissued := h.issued
  rw [hpc] at hissued
  have heq : s.txnsExecuted = s.parent.numRequests := (h.counted.trans hall).trans hissued.symm
  exact ⟨_, .parent (.waited hpc (by rw [heq]))⟩

theorem run_of_txnRun {xs : List Access} {y : Heap × TxnPc} (hc : s.children[i]? = some c)
    (hpc : c.pc = .executing) (htxn : TxnRun i c.request (s.heap, c.txn) xs y) :
    Run AnyChild s (xs.map .access) { s.put i { c with txn := y.2 } with heap := y.1 } := by
  induction htxn with
  | nil =>
    rw [put_same hc]
    exact .nil
  | @snoc xs y z e _ hstep ih =>
    have hmore : AnyChild { s.put i { c with txn := y.2 } with heap := y.1 } (.access e) _ :=
      ⟨i, .txn (put_self hc) hpc hstep⟩
    unfold State.put at hmore
    simp only [List.set_set] at hmore
    rw [List.map_append]
    exact ih.snoc hmore

/-- After `Execute` a child comes to its end without an access to a record. -/
theorem exists_exited_of_done (hc : s.children[i]? = some c) (hpc : c.pc ≠ .executing) :
    ∃ tr' s', Run AnyChild s tr' s' ∧ s'.children = s.children.set i { c with pc := .exited } ∧
      accesses tr' = [] := by
  have hexit : ∀ {s : State} {c : Child}, s.children[i]? = some c → c.pc = .exiting →
      AnyChild s .skip (s.put i { c with pc := .exited }) := fun hc hpc => ⟨i, .exit hc hpc⟩
  cases hcase : c.pc with
  | executing => exact absurd hcase hpc
  | counting =>
    have run : Run AnyChild s [.skip] _ := .single ⟨i, .count hc hcase⟩
    have run := run.snoc (hexit (put_self hc) rfl)
    exact ⟨_, _, run, List.set_set _, rfl⟩
  | exiting => exact ⟨_, _, .single (hexit hc hcase), rfl, rfl⟩
  | exited =>
    refine ⟨[], s, .nil, ?_, rfl⟩
    rw [← hcase]
    exact (congrArg State.children (put_same hc)).symm

/-- A child that is scheduled alone executes the rest of its request. -/
theorem exists_exited (h : Runs requests heap tr s)
    (hvalid : ∀ req ∈ forked tr, req.Valid (heap req.db).dbSize) (hc : s.children[i]? = some c) :
    ∃ tr' s' d, Run AnyChild s tr' s' ∧ s'.children = s.children.set i d ∧ d.pc = .exited ∧
      (c.txn.loaded = none → Cells.Careful (accesses tr') ∧ d.txn.loaded = none) := by
  by_cases hpc : c.pc = .executing
  · have hwithin := ((inv_of_run h).sound_getElem hc).within
    obtain ⟨xs, heap', txn, htxn, hdone⟩ := exists_txnRun i (valid_of_child h hvalid hc) hwithin
    obtain ⟨t, run, ht⟩ : ∃ t, Run AnyChild s (xs.map .access ++ [.skip]) t ∧
        t.children = s.children.set i { c with pc := .counting, txn := txn } :=
      ⟨_, (run_of_txnRun hc hpc htxn).snoc ⟨i, .executed (put_self hc) hpc hdone⟩, List.set_set _⟩
    have hcounting : t.children[i]? = some { c with pc := .counting, txn := txn } := by
      rw [ht]
      exact put_self hc
    obtain ⟨tr', s', hrun, hchildren, hnone⟩ := exists_exited_of_done hcounting nofun
    refine ⟨_, s', { c with pc := .exited, txn := txn }, run.trans hrun, ?_, rfl, ?_⟩
    · rw [hchildren, ht, List.set_set]
    · intro hfree
      refine ⟨?_, (within_of_txnRun htxn hwithin).free hdone⟩
      rw [accesses_append, accesses_append, accesses_map_access, hnone, List.append_nil]
      exact (careful_of_txnRun htxn hfree).append nofun
  · obtain ⟨tr', s', hrun, hchildren, hnone⟩ := exists_exited_of_done hc hpc
    refine ⟨tr', s', { c with pc := .exited }, hrun, hchildren, rfl, fun hfree => ⟨?_, hfree⟩⟩
    rw [hnone]
    exact nofun

/-- The children can be scheduled one after the other. -/
theorem exists_finished (h : Runs requests heap tr s)
    (hvalid : ∀ req ∈ forked tr, req.Valid (heap req.db).dbSize) :
    ∃ tr' s', Run AnyChild s tr' s' ∧ s'.remaining = 0 ∧
      ((∀ c ∈ s.children, c.txn.loaded = none) → Cells.Careful (accesses tr')) := by
  suffices hfirst : ∀ n ≤ s.children.length, ∃ tr' s', Run AnyChild s tr' s' ∧
      s'.children.length = s.children.length ∧
      (∀ i < n, ∀ c, s'.children[i]? = some c → c.pc = .exited) ∧
      ((∀ c ∈ s.children, c.txn.loaded = none) →
        Cells.Careful (accesses tr') ∧ ∀ c ∈ s'.children, c.txn.loaded = none) by
    obtain ⟨tr', s', hrun, hlength, hexited, hcareful⟩ := hfirst _ le_rfl
    refine ⟨tr', s', hrun, ?_, fun hfree => (hcareful hfree).1⟩
    apply List.sum_eq_zero_iff_forall_eq_nat.mpr
    intro x hx
    obtain ⟨c, hc, rfl⟩ := List.mem_map.mp hx
    obtain ⟨i, hi⟩ := List.getElem?_of_mem hc
    have hlt := (List.getElem?_eq_some_iff.mp hi).1
    rw [Child.remaining, hexited i (hlength ▸ hlt) c hi]
  intro n
  induction n with
  | zero => exact fun _ => ⟨[], s, .nil, rfl, nofun, fun hfree => ⟨nofun, hfree⟩⟩
  | succ n ih =>
    intro hn
    obtain ⟨tr', s', hrun, hlength, hexited, hcareful⟩ := ih (by omega)
    have hlater := h.trans (hrun.mono .child)
    have hc : s'.children[n]? = some _ := List.getElem?_eq_getElem (by omega)
    obtain ⟨tr'', s'', d, hmore, hchildren, hd, hfree⟩ := exists_exited hlater (by
      rw [forked_append, (quiet_of_run hrun).2.2, List.append_nil]
      exact hvalid) hc
    refine ⟨tr' ++ tr'', s'', hrun.trans hmore, ?_, ?_, ?_⟩
    · rw [hchildren, List.length_set, hlength]
    · intro i hi c hget
      rw [hchildren, Threads.getElem?_set hc] at hget
      split at hget
      · obtain rfl := Option.some.inj hget
        exact hd
      · exact hexited i (by omega) c hget
    · intro hnone
      obtain ⟨hbefore, hloaded⟩ := hcareful hnone
      obtain ⟨hlast, hdnone⟩ := hfree (hloaded _ (List.mem_of_getElem? hc))
      rw [accesses_append]
      refine ⟨hbefore.append hlast, ?_⟩
      intro c hmem
      rw [hchildren] at hmem
      rcases List.mem_or_eq_of_mem_set hmem with hold | rfl
      · exact hloaded c hold
      · exact hdnone

end Inv

/-- Two requests are issued, and the first one is changed before its process has done anything. -/
theorem two_forked (requests : ReqPtr → Request) (other : Request) (heap : Heap) : ∃ tr s,
    Runs requests heap tr s ∧ forked tr = [requests 0, requests 1] ∧ s.pc = .waiting ∧
      s.parent.requests 0 = other ∧ (∀ c ∈ s.children, c.txn.loaded = none) ∧
      accesses tr = [] := by
  have run : Runs requests heap [] _ := .nil
  have run := run.snoc (.parent (.issue 0 rfl))
  have run := run.snoc (.parent (@ParentStep.fork _ 0 7 rfl (by decide) nofun))
  have run := run.snoc (.parent (.store 0 other rfl))
  have run := run.snoc (.parent (.issue 1 rfl))
  have run := run.snoc (.parent (@ParentStep.fork _ 1 8 rfl (by decide) (by
    intro c hc _
    obtain rfl := List.mem_singleton.mp hc
    exact (by decide : (7 : Int32) ≠ 8))))
  have run := run.snoc (.parent (.waitOutstanding rfl))
  refine ⟨_, _, run, rfl, rfl, ?_, ?_, rfl⟩
  · exact Function.update_self 0 other requests
  · intro c hc
    rcases List.mem_append.mp hc with hfirst | hsecond
    · obtain rfl := List.mem_singleton.mp hfirst
      rfl
    · obtain rfl := List.mem_singleton.mp hsecond
      rfl

theorem two_finished {requests : ReqPtr → Request} (other : Request) {heap : Heap}
    (hvalid : ∀ p, (requests p).Valid (heap (requests p).db).dbSize) : ∃ tr s tr' s',
    Runs requests heap tr s ∧ forked tr = [requests 0, requests 1] ∧ s.pc = .waiting ∧
      s.parent.requests 0 = other ∧ Run AnyChild s tr' s' ∧ s'.remaining = 0 ∧
      Cells.Careful (accesses (tr ++ tr')) := by
  obtain ⟨tr, s, run, hforked, hpc, hother, hfree, hnone⟩ := two_forked requests other heap
  obtain ⟨tr', s', hrun, hzero, hcareful⟩ := exists_finished run (by
    rw [hforked]
    simp [hvalid])
  refine ⟨tr, s, tr', s', run, hforked, hpc, hother, hrun, hzero, ?_⟩
  rw [accesses_append, hnone]
  exact hcareful hfree

theorem two_waited {requests : ReqPtr → Request} (other : Request) {heap : Heap}
    (hvalid : ∀ p, (requests p).Valid (heap (requests p).db).dbSize) : ∃ tr s s₁,
    Runs requests heap tr s ∧ forked tr = [requests 0, requests 1] ∧ Step s .waited s₁ ∧
      s.parent.requests 0 = other ∧ Cells.Careful (accesses tr) := by
  obtain ⟨tr, s, tr', s', run, hforked, hpc, hother, hrun, hzero, hcareful⟩ :=
    two_finished other hvalid
  obtain ⟨hsame, hparent, hquiet⟩ := quiet_of_run hrun
  have run := run.trans (hrun.mono .child)
  obtain ⟨s₁, hstep⟩ := exists_waited (inv_of_run run) (hsame.trans hpc) hzero
  refine ⟨_, s', s₁, run, ?_, hstep, ?_, hcareful⟩
  · rw [forked_append, hquiet, List.append_nil, hforked]
  · rw [hparent, hother]

/-- Whatever the caller does to its requests later on, a child executes the request as it was at
the `fork`, and `WaitOutstanding` is a barrier. The words of the databases have what the children
have added, less what was lost between a load and a store. -/
theorem snapshots_written {requests : ReqPtr → Request} {heap : Heap} {tr : List Event} {s : State}
    (h : Runs requests heap tr s) :
    (∀ p, s.heap.word p = heap.word p +
      Cells.sumAt p ((Cells.added (accesses tr)).map Prod.snd) - Cells.lost (accesses tr) p) ∧
    (∀ (i : Nat) req, (forked tr)[i]? = some req →
      onChannel (Cells.added (accesses tr)) i <+: req.wordAdditions) ∧
    ((forked tr).Pairwise (fun q q' => ¬q.Conflict q') → Cells.Careful (accesses tr)) ∧
    ∀ s₁, Step s .waited s₁ →
      (∀ (i : Nat) req, (forked tr)[i]? = some req →
        onChannel (Cells.added (accesses tr)) i = req.wordAdditions ∧
        ∀ tr' s', Run Step s₁ tr' s' → ∀ e ∈ accesses tr', e.thread ≠ i) ∧
      (Cells.Careful (accesses tr) → Updated heap s₁.heap (forked tr)) ∧
      (Updated heap s₁.heap (forked tr) ↔ ∀ p, Cells.lost (accesses tr) p = 0) := by
  have hinv := inv_of_run h
  have hchild : ∀ (i : Nat) req, (forked tr)[i]? = some req →
      ∃ c, s.children[i]? = some c ∧ c.request = req := by
    intro i req hreq
    rw [hinv.requests, List.getElem?_map] at hreq
    exact Option.map_eq_some_iff.mp hreq
  refine ⟨Cells.mem_of_run (Memory.cells_of_run (memory_run h)), ?_, careful_of_separate h, ?_⟩
  · intro i req hreq
    obtain ⟨c, hc, rfl⟩ := hchild i req hreq
    rw [hinv.channel i, hc, Option.toList_some, List.flatMap_singleton]
    exact c.request.behind_prefix c.txn
  · intro s₁ hstep
    have hupdated := updated_of_waited h hstep
    refine ⟨?_, fun hcareful => hupdated.mpr (Cells.lost_of_careful hcareful), hupdated⟩
    intro i req hreq
    obtain ⟨c, hc, rfl⟩ := hchild i req hreq
    refine ⟨added_of_waited hinv hstep hc, ?_⟩
    intro tr' s' hrun
    exact untouched_of_waited h hstep (List.getElem?_eq_some_iff.mp hreq).1 hrun

/-- Two requests for the same record, whose processes run one after the other. -/
theorem snapshots_written_two : ∃ (other : Request) (tr : List Event) (s s₁ : State),
    Runs (fun _ => oneKey) oneRecord tr s ∧ Step s .waited s₁ ∧
      s.parent.requests 0 = other ∧ other.writeset = [] ∧
      s₁.heap 0 = (oneRecord 0).addAll [(0, fun _ => 1), (0, fun _ => 1)] := by
  obtain ⟨tr, s, s₁, run, hforked, hstep, hother, hcareful⟩ :=
    two_waited ⟨0, false, [], 0⟩ fun _ => oneKey_valid
  obtain ⟨_, _, _, hwaited⟩ := snapshots_written run
  have hheap := (hwaited s₁ hstep).2.1 hcareful 0
  rw [hforked] at hheap
  exact ⟨_, tr, s, s₁, run, hstep, hother, rfl, hheap⟩

/-- While the parent waits, the children have a fixed number of statements before them: none of
them is ever stuck, and after the last one `WaitOutstanding` returns. -/
theorem children_finish {requests : ReqPtr → Request} {heap : Heap} {tr : List Event} {s : State}
    (h : Runs requests heap tr s) (hpc : s.pc = .waiting)
    (hvalid : ∀ req ∈ forked tr, req.Valid (heap req.db).dbSize) {tr' : List Event} {s' : State}
    (hrun : Run AnyChild s tr' s') :
    tr'.length + s'.remaining = s.remaining ∧
    (∀ (i : Nat) c, s'.children[i]? = some c → c.pc.live = true → ∃ e s'', ChildStep i s' e s'') ∧
    (s'.remaining = 0 → ∃ s'', Step s' .waited s'') := by
  have hlater := h.trans (hrun.mono .child)
  obtain ⟨hsame, _, hforked⟩ := quiet_of_run hrun
  refine ⟨remaining_of_run h hrun, ?_, exists_waited (inv_of_run hlater) (hsame.trans hpc)⟩
  intro i c hc hlive
  apply exists_childStep hlater ?_ hc hlive
  rw [forked_append, hforked, List.append_nil]
  exact hvalid

theorem children_finish_two : ∃ (tr tr' : List Event) (s s' s'' : State),
    Runs (fun _ => oneKey) oneRecord tr s ∧ s.children.length = 2 ∧ s.pc = .waiting ∧
      Run AnyChild s tr' s' ∧ tr'.length = s.remaining ∧ Step s' .waited s'' := by
  obtain ⟨tr, s, tr', s', run, hforked, hpc, _, hrun, hzero, _⟩ :=
    two_finished oneKey fun _ => oneKey_valid
  have hall : ∀ q ∈ forked tr, q.Valid (oneRecord q.db).dbSize := by
    rw [hforked]
    simp [oneKey_valid]
  have htwo : s.children.length = 2 := by
    rw [← List.length_map Child.request, ← (inv_of_run run).requests, hforked]
    rfl
  obtain ⟨hlength, _, hwaited⟩ := children_finish run hpc hall hrun
  obtain ⟨s'', hstep⟩ := hwaited hzero
  rw [hzero] at hlength
  exact ⟨tr, tr', s, s', s'', run, htwo, hpc, hrun, hlength, hstep⟩

/-- `run_test` with a `ProcessLauncher`. The requests may be directed to the copy as soon as their
processes exist. -/
theorem processes_compare {args : GenArgs} {rand : Nat → Int32} {n : Nat} {gen : Generating}
    {simple : DbPtr} {heap : Heap} {copied : Database} {requests : ReqPtr → Request}
    (hgen : args.after rand n = some gen) (hsize : (heap args.db).dbSize = args.dbSize.toNat)
    (hne : args.db ≠ simple) (hcopy : Database.copy (heap simple) (heap args.db) = some copied)
    {tr : List Event} {s : State} (h : Runs requests (Function.update heap simple copied) tr s)
    (hforked : forked tr <+: gen.ret) :
    (∀ (i : Nat) c, s.children[i]? = some c → c.pc.live = true → ∃ e s', ChildStep i s e s') ∧
    ∀ s₁, Step s .waited s₁ → forked tr = gen.ret →
      ∃ final, replay gen.ret simple s₁.heap = some final ∧ final args.db = s₁.heap args.db ∧
        (Database.compare (final args.db) (final simple) = some true ↔
          ∀ p, Cells.lost (accesses tr) p = 0) ∧
        (Cells.Careful (accesses tr) →
          Database.compare (final args.db) (final simple) = some true) := by
  obtain rfl := Database.copy_eq hcopy
  have hvalid := GenArgs.valid_of_mem hgen hsize
  constructor
  · intro i c hc hlive
    apply exists_childStep h ?_ hc hlive
    intro q hq
    obtain ⟨hdb, hreq⟩ := hvalid q (hforked.subset hq)
    rw [hdb, Function.update_of_ne hne]
    exact hreq
  · intro s₁ hstep hall
    have hother : ∀ p ≠ args.db, s₁.heap p = Function.update heap simple (heap args.db) p := by
      intro p hp
      rw [(children_of_waited hstep).2]
      refine Memory.frame_of_run (memory_run h) fun e he hsame => ?_
      obtain ⟨req, hreq, htouch⟩ := (inv_of_run h).touched e he
      have hmem := hvalid req (hforked.subset (List.mem_of_getElem? hreq))
      exact hp (hsame.trans (htouch.1.trans hmem.1))
    obtain ⟨final, hreplay, hsame, hcompare⟩ :=
      compare_after hne hvalid (Function.update_of_ne hne _ _) (Function.update_self _ _ _) hother
    rw [← hall, updated_of_waited h hstep] at hcompare
    exact ⟨final, hreplay, hsame, hcompare,
      fun hcareful => hcompare.mpr (Cells.lost_of_careful hcareful)⟩

theorem processes_compare_two : ∃ (req req' : Request) (requests : ReqPtr → Request)
    (tr : List Event) (s s₁ : State) (final : Heap), req.Conflict req' ∧
      Runs requests (Function.update fifty 1 (fifty 0)) tr s ∧ forked tr = [req, req'] ∧
      s.parent.requests 0 = req.setDatabase 1 ∧ Step s .waited s₁ ∧
      replay [req, req'] 1 s₁.heap = some final ∧
      Database.compare (final 0) (final 1) = some true := by
  obtain ⟨n, gen, req, req', hgen, hret, hconflict⟩ := GenArgs.two_generated
  have hvalid : ∀ q ∈ gen.ret, q.Valid (Function.update fifty 1 (fifty 0) q.db).dbSize := by
    intro q hq
    rw [fifty_update]
    exact (GenArgs.valid_of_mem hgen rfl q hq).2
  obtain ⟨tr, s, s₁, run, hforked, hstep, hother, hcareful⟩ :=
    @two_waited (fun p => if p = 0 then req else req') (req.setDatabase 1) _ (by
      intro p
      split
      · exact hvalid req (by simp [hret])
      · exact hvalid req' (by simp [hret]))
  have hall : forked tr = gen.ret := hforked.trans hret.symm
  have hcompares :=
    processes_compare hgen (by rfl) Nat.zero_ne_one fifty_copy run (hall ▸ List.prefix_rfl)
  obtain ⟨final, hreplay, _, _, hcompare⟩ := hcompares.2 s₁ hstep hall
  rw [hret] at hreplay
  exact ⟨req, req', _, tr, s, s₁, final, hconflict, run, hforked, hother, hstep, hreplay,
    hcompare hcareful⟩

end Cmsc624.A1.ProcessLauncher
