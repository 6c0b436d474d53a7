import Cmsc624.A1.Generation
import Cmsc624.A1.Launched

/-!
# run_test with a ThreadLauncher

The requests come from `generate_requests`, the executors of a `ThreadLauncher` run them, and
after `WaitOutstanding` they are repeated on the copy.
-/

namespace Cmsc624.A1

open Lib

set_option autoImplicit false

section Replay
variable {reqs : List Request} {test simple : DbPtr} {heap : Heap} {db : Database}

/-- `Updated` for requests on one database, where the others have not changed. -/
theorem updated_iff (hdb : ∀ q ∈ reqs, q.db = test) {written : Heap}
    (hother : ∀ p ≠ test, written p = heap p) :
    Updated heap written reqs ↔ written test = (heap test).addAll (allAdditions reqs) := by
  have hall : reqs.filter (fun q => q.db = test) = reqs := by
    apply List.filter_eq_self.mpr
    intro q hq
    exact decide_eq_true (hdb q hq)
  constructor
  · intro h
    have htest := h test
    rwa [hall] at htest
  · intro h p
    by_cases hp : p = test
    · subst hp
      rw [hall]
      exact h
    · have hnone : reqs.filter (fun q => q.db = p) = [] := by
        apply List.filter_eq_nil_iff.mpr
        intro q hq hsame
        exact hp ((of_decide_eq_true hsame).symm.trans (hdb q hq))
      rw [hnone]
      exact hother p hp

/-- The second half of `run_test`, after requests that have only accessed the one of two equal
databases: `Compare` tells whether it has all of their updates. -/
theorem compare_after (hne : test ≠ simple) (hvalid : ∀ q ∈ reqs, q.db = test ∧ q.Valid db.dbSize)
    {written : Heap} (htest : heap test = db) (hsimple : heap simple = db)
    (hother : ∀ p ≠ test, written p = heap p) :
    ∃ final, replay reqs simple written = some final ∧ final test = written test ∧
      (Database.compare (final test) (final simple) = some true ↔ Updated heap written reqs) := by
  have hcopy : written simple = db := (hother simple (Ne.symm hne)).trans hsimple
  have hreplay : replay reqs simple written = _ :=
    replay_of_valid (by rw [hcopy]; exact fun q hq => (hvalid q hq).2)
  refine ⟨_, hreplay, Function.update_of_ne hne _ _, ?_⟩
  rw [Function.update_of_ne hne, Function.update_self, Database.compare_eq_true, hcopy,
    updated_iff (fun q hq => (hvalid q hq).1) hother, htest]

end Replay

namespace GenArgs
variable {args : GenArgs} {rand : Nat → Int32} {s : Generating} {n : Nat} {q : Request}

theorem shape_of_mem (h : args.after rand n = some s) (hq : q ∈ s.ret) : ∃ i, args.Shape i q := by
  obtain ⟨i, hi⟩ := List.getElem?_of_mem hq
  exact ⟨i, (sound_of_after h).shape i q hi⟩

theorem valid_of_mem {size : Nat} (h : args.after rand n = some s)
    (hsize : size = args.dbSize.toNat) : ∀ q ∈ s.ret, q.db = args.db ∧ q.Valid size := by
  intro q hq
  obtain ⟨i, hshape⟩ := shape_of_mem h hq
  exact ⟨hshape.db, hsize ▸ hshape.valid⟩

/-- With as few keys as a request needs, every request has all of them. -/
theorem Shape.mem_writeset {i : Nat} (h : args.Shape i q) (hsize : args.dbSize.toNat = txnSz)
    {key : UInt64} (hkey : key.toNat < args.dbSize.toNat) : key ∈ q.writeset := by
  by_contra hnot
  have hle := length_le_dbSize (List.nodup_cons.mpr ⟨hnot, h.nodup⟩)
    (List.forall_mem_cons.mpr ⟨hkey, h.in_range⟩)
  rw [List.length_cons, h.size, hsize] at hle
  exact Nat.not_succ_le_self _ hle

/-- Two requests on a database of 50 records: they have all keys in common. -/
theorem two_generated : ∃ n s q q',
    after ⟨0, 50, false, 2⟩ (fun m => Int32.ofNat (m % 50)) n = some s ∧ s.ret = [q, q'] ∧
      q.Conflict q' := by
  have henough : txnSz ≤ (GenArgs.mk 0 50 false 2).dbSize.toNat := Nat.le_refl 50
  obtain ⟨n, s, hs, hpc⟩ := exists_returned (n := 0) henough (recurs_fifty 2) rfl
  have hlength := (sound_of_after hs).fits
  unfold Fits at hlength
  rw [hpc] at hlength
  obtain ⟨q, q', hret⟩ := List.length_eq_two.mp hlength
  obtain ⟨i, hq⟩ := shape_of_mem hs (q := q) (by simp [hret])
  obtain ⟨j, hq'⟩ := shape_of_mem hs (q := q') (by simp [hret])
  have hzero : (0 : UInt64).toNat < (GenArgs.mk 0 50 false 2).dbSize.toNat := by decide
  exact ⟨n, s, q, q', hs, hret, hq.db.trans hq'.db.symm, 0, hq.mem_writeset rfl hzero,
    hq'.mem_writeset rfl hzero⟩

end GenArgs

/-- All databases have 50 records of zeros. -/
def fifty : Heap := fun _ => ⟨List.replicate 50 ⟨fun _ => 0⟩⟩

theorem fifty_copy : Database.copy (fifty 1) (fifty 0) = some (fifty 0) := by
  have hsame : Database.copy (fifty 1) (fifty 0) = some _ := if_pos rfl
  rw [hsame, Database.copy_eq hsame]

theorem fifty_update : Function.update fifty 1 (fifty 0) = fifty := Function.update_eq_self 1 fifty

namespace ThreadLauncher

/-- With the requests that `generate_requests` returns no assertion of an executor fails. After
the wait the two databases compare equal if and only if no addition was lost. -/
theorem run_test_compares {args : GenArgs} {rand : Nat → Int32} {n : Nat} {gen : Generating}
    {simple : DbPtr} {heap : Heap} {copied : Database} {M : Int32}
    (hgen : args.after rand n = some gen) (hsize : (heap args.db).dbSize = args.dbSize.toNat)
    (hne : args.db ≠ simple) (hcopy : Database.copy (heap simple) (heap args.db) = some copied) :
    (∀ tr s, System.Runs M (Function.update heap simple copied) tr s →
      issued (events tr) <+: gen.ret → ∀ (i : Nat) targ req,
        s.launcher.executors[i]? = some ⟨targ, .executing req⟩ →
        (s.pcs i).pass < req.writeset.length →
          ∃ e s', System.Step s (.access e) s' ∧ e.thread = i) ∧
    ∀ tr s s₁, System.Runs M (Function.update heap simple copied) tr s →
      System.Step s (.launcher .waited) s₁ → issued (events tr) = gen.ret →
      ∃ final, replay gen.ret simple s₁.heap = some final ∧ final args.db = s₁.heap args.db ∧
        (Database.compare (final args.db) (final simple) = some true ↔
          ∀ p, Cells.lost (accesses tr) p = 0) ∧
        (Cells.Careful (accesses tr) →
          Database.compare (final args.db) (final simple) = some true) := by
  obtain rfl := Database.copy_eq hcopy
  have hvalid := GenArgs.valid_of_mem hgen hsize
  constructor
  · intro tr s hrun hissued i targ req hx hlt
    have hreq := issued_of_executing hrun hx
    obtain ⟨hdb, hmem⟩ := hvalid req (hissued.subset (List.mem_of_getElem? hreq))
    have hreqs : req.Valid (s.heap req.db).dbSize := by
      rw [dbSize_of_run hrun, hdb, Function.update_of_ne hne]
      exact hmem
    obtain ⟨e, heap', pc', htxn⟩ :=
      exists_txnStep i hreqs ((passed_of_run hrun).within i req hreq) hlt
    exact ⟨e, _, .txn hx htxn, htxn.thread_eq⟩
  · intro tr s s₁ hrun hstep hissued
    have hother : ∀ p ≠ args.db, s₁.heap p = Function.update heap simple (heap args.db) p := by
      intro p hp
      rw [(launcher_of_waited hstep).2]
      apply Memory.frame_of_run (memory_run hrun)
      intro e he hsame
      obtain ⟨req, hreq, htouch⟩ := (passed_of_run hrun).touched e he
      have hmem := hvalid req (hissued ▸ List.mem_of_getElem? hreq)
      exact hp (hsame.trans (htouch.1.trans hmem.1))
    obtain ⟨final, hreplay, hsame, hcompare⟩ :=
      compare_after hne hvalid (Function.update_of_ne hne _ _) (Function.update_self _ _ _) hother
    rw [← hissued, updated_of_waited hrun hstep] at hcompare
    exact ⟨final, hreplay, hsame, hcompare,
      fun hcareful => hcompare.mpr (Cells.lost_of_careful hcareful)⟩

theorem run_test_compares_two : ∃ (req req' : Request) (heap : Heap) (tr : List Action)
    (s s₁ : System) (final : Heap), req.Conflict req' ∧ issued (events tr) = [req, req'] ∧
      System.Runs 2 heap tr s ∧ System.Step s (.launcher .waited) s₁ ∧
      replay [req, req'] 1 s₁.heap = some final ∧
      Database.compare (final 0) (final 1) = some true := by
  obtain ⟨n, gen, req, req', hgen, hret, hconflict⟩ := GenArgs.two_generated
  have hvalid : ∀ q ∈ gen.ret, q.Valid (Function.update fifty 1 (fifty 0) q.db).dbSize := by
    intro q hq
    rw [fifty_update]
    exact (GenArgs.valid_of_mem hgen rfl q hq).2
  obtain ⟨tr, s, s₁, run, hissued, hstep, hcareful⟩ :=
    two_waited (hvalid req (by simp [hret])) (hvalid req' (by simp [hret]))
  have hcompares := run_test_compares (M := 2) hgen (by rfl) Nat.zero_ne_one fifty_copy
  obtain ⟨final, hreplay, _, _, hcompare⟩ :=
    hcompares.2 tr s s₁ run hstep (hissued.trans hret.symm)
  rw [hret] at hreplay
  exact ⟨req, req', _, tr, s, s₁, final, hconflict, hissued, run, hstep, hreplay,
    hcompare hcareful⟩

end ThreadLauncher

end Cmsc624.A1
