import Cmsc624.A1.CorrectnessTest
import Cmsc624.Lib.Sampling

/-!
# Generated requests

`generate_requests` draws the keys of each request without repetition and then its updates,
all from one stream of `rand()`. One step of the model uses one value of the stream. Each
write set is a sampler of its own.
-/

namespace Cmsc624.A1

open Lib

set_option autoImplicit false

def txnSz : Nat := 50

def highPriorityFreq : Nat := 1000

/-- The arguments of `generate_requests`, with the `DBSize()` of the database. -/
structure GenArgs where
  db : DbPtr
  dbSize : UInt64
  highPriority : Bool
  numRequests : UInt32

/-- In which loop of `generate_single_request` it is; `i` is the length of the array that the
loop fills. -/
inductive GenPc where
  | picking (seen : Finset UInt64) (writeset : List UInt64)
  | drawing (writeset updates : List UInt64)
  | returned

structure Generating where
  ret : List Request
  pc : GenPc

namespace GenArgs

/-- `((uint64_t)rand()) % max`; `none` is the division by 0. -/
def gen (args : GenArgs) (value : Int32) : Option UInt64 :=
  if args.dbSize = 0 then none else some (value.toInt64.toUInt64 % args.dbSize)

/-- The head of the loop of `generate_requests`. -/
def forRequests (args : GenArgs) (ret : List Request) : Generating :=
  if ret.length < args.numRequests.toNat then ⟨ret, .picking ∅ []⟩ else ⟨ret, .returned⟩

/-- The head of the loop over `writeset`. -/
def forWriteset (ret : List Request) (seen : Finset UInt64) (writeset : List UInt64) :
    Generating :=
  if writeset.length < txnSz then ⟨ret, .picking seen writeset⟩ else ⟨ret, .drawing writeset []⟩

/-- The request that `generate_single_request` returns. -/
def request (args : GenArgs) (i : Nat) (writeset updates : List UInt64) : Request where
  db := args.db
  isHighPriority := args.highPriority && i % highPriorityFreq == 0
  writeset := writeset
  updates j := updates.getD j 0

/-- The head of the loop over `updates`. -/
def forUpdates (args : GenArgs) (ret : List Request) (writeset updates : List UInt64) :
    Generating :=
  if updates.length < nfields then ⟨ret, .drawing writeset updates⟩
  else args.forRequests (ret ++ [args.request ret.length writeset updates])

def pick (args : GenArgs) (value : Int32) (s : Generating) : Option Generating :=
  match s.pc with
  | .picking seen writeset => (args.gen value).map fun key =>
      if key ∈ seen then s else forWriteset s.ret (insert key seen) (writeset ++ [key])
  | .drawing writeset updates =>
      some (args.forUpdates s.ret writeset (updates ++ [value.toInt64.toUInt64]))
  | .returned => some s

def after (args : GenArgs) (rand : Nat → Int32) : Nat → Option Generating
  | 0 => some (args.forRequests [])
  | n + 1 => (args.after rand n).bind (args.pick (rand n))

structure Shape (args : GenArgs) (i : Nat) (q : Request) : Prop where
  db : q.db = args.db
  priority : q.isHighPriority = (args.highPriority && i % highPriorityFreq == 0)
  size : q.writeset.length = txnSz
  nodup : q.writeset.Nodup
  in_range : ∀ key ∈ q.writeset, key.toNat < args.dbSize.toNat

theorem Shape.valid {args : GenArgs} {i : Nat} {q : Request} (h : args.Shape i q) :
    q.Valid args.dbSize.toNat where
  in_range := h.in_range
  adjacent := h.nodup.isChain

/-- What was generated so far has its shape, and so has what is being generated. -/
def Fits (args : GenArgs) (s : Generating) : Prop :=
  match s.pc with
  | .picking seen writeset => s.ret.length < args.numRequests.toNat ∧
      (∀ key, key ∈ seen ↔ key ∈ writeset) ∧ writeset.length < txnSz ∧ writeset.Nodup ∧
      ∀ key ∈ writeset, key.toNat < args.dbSize.toNat
  | .drawing writeset updates => s.ret.length < args.numRequests.toNat ∧
      updates.length < nfields ∧ writeset.length = txnSz ∧ writeset.Nodup ∧
      ∀ key ∈ writeset, key.toNat < args.dbSize.toNat
  | .returned => s.ret.length = args.numRequests.toNat

structure Sound (args : GenArgs) (s : Generating) : Prop where
  shape : ∀ (i : Nat) (q : Request), s.ret[i]? = some q → args.Shape i q
  fits : args.Fits s

section Sound
variable {args : GenArgs} {rand : Nat → Int32} {s s' : Generating} {ret : List Request}
  {seen : Finset UInt64} {writeset updates : List UInt64} {key : UInt64} {value : Int32}
  {n : Nat}

theorem gen_lt (h : args.gen value = some key) : key.toNat < args.dbSize.toNat := by
  unfold gen at h
  split at h
  · cases h
  · rename_i hne
    obtain rfl := Option.some.inj h
    rw [UInt64.toNat_mod]
    apply Nat.mod_lt
    apply Nat.pos_of_ne_zero
    intro hzero
    exact hne (UInt64.toNat_inj.mp hzero)

theorem forRequests_sound (hret : ∀ (i : Nat) (q : Request), ret[i]? = some q → args.Shape i q)
    (hle : ret.length ≤ args.numRequests.toNat) : args.Sound (args.forRequests ret) := by
  unfold forRequests
  split
  · rename_i hlt
    refine ⟨hret, hlt, fun _ => by simp, Nat.zero_lt_succ 49, List.nodup_nil, ?_⟩
    intro key hkey
    cases hkey
  · rename_i hge
    exact ⟨hret, Nat.le_antisymm hle (Nat.le_of_not_lt hge)⟩

theorem Sound.pick (h : args.Sound s) (hpick : args.pick value s = some s') : args.Sound s' := by
  obtain ⟨ret, pc⟩ := s
  cases pc with
  | returned =>
    obtain rfl := Option.some.inj hpick
    exact h
  | picking seen writeset =>
    obtain ⟨hlt, hseen, hlength, hnodup, hrange⟩ := h.fits
    obtain ⟨key, hkey, rfl⟩ := Option.map_eq_some_iff.mp hpick
    by_cases hin : key ∈ seen
    · rw [if_pos hin]
      exact h
    · rw [if_neg hin]
      have hnew : key ∉ writeset := fun hmem => hin ((hseen key).mpr hmem)
      have hnodup' : (writeset ++ [key]).Nodup := List.nodup_append.mpr
        ⟨hnodup, List.nodup_singleton key, fun a ha b hb hab =>
          hnew (List.mem_singleton.mp hb ▸ hab ▸ ha)⟩
      have hrange' : ∀ k ∈ writeset ++ [key], k.toNat < args.dbSize.toNat := by
        intro k hk
        rcases List.mem_append.mp hk with hold | hlast
        · exact hrange k hold
        · rw [List.mem_singleton.mp hlast]
          exact gen_lt hkey
      unfold forWriteset
      split
      · rename_i hmore
        refine ⟨h.shape, hlt, ?_, hmore, hnodup', hrange'⟩
        intro k
        rw [Finset.mem_insert, List.mem_append, List.mem_singleton, hseen, or_comm]
      · rename_i hall
        refine ⟨h.shape, hlt, Nat.zero_lt_succ 9, Nat.le_antisymm ?_ (Nat.le_of_not_lt hall),
          hnodup', hrange'⟩
        rw [List.length_append]
        exact hlength
  | drawing writeset updates =>
    obtain ⟨hlt, hlength, hsize, hnodup, hrange⟩ := h.fits
    obtain rfl := Option.some.inj hpick
    unfold forUpdates
    split
    · rename_i hmore
      exact ⟨h.shape, hlt, hmore, hsize, hnodup, hrange⟩
    · apply forRequests_sound
      · intro i q hq
        by_cases hi : i < ret.length
        · rw [List.getElem?_append_left hi] at hq
          exact h.shape i q hq
        · have hlast : i = ret.length := by
            have hbound := (List.getElem?_eq_some_iff.mp hq).1
            simp only [List.length_append, List.length_singleton] at hbound
            omega
          subst hlast
          rw [List.getElem?_concat_length] at hq
          obtain rfl := Option.some.inj hq
          exact ⟨rfl, rfl, hsize, hnodup, hrange⟩
      · rw [List.length_append]
        exact hlt

theorem sound_of_after (h : args.after rand n = some s) : args.Sound s := by
  induction n generalizing s with
  | zero =>
    obtain rfl := Option.some.inj h
    exact forRequests_sound (fun _ _ hq => by cases hq) (Nat.zero_le _)
  | succ n ih =>
    obtain ⟨m, hm, hpick⟩ := Option.bind_eq_some_iff.mp h
    exact (ih hm).pick hpick

end Sound

/-- The keys that the stream leads to, from call `n` of `rand()` on. -/
def keysFrom (args : GenArgs) (rand : Nat → Int32) (n k : Nat) : UInt64 :=
  (rand (n + k)).toInt64.toUInt64 % args.dbSize

/-- The loop over `writeset` as a sampler. -/
def sampler (writeset : List UInt64) : Sampling.State UInt64 :=
  ⟨writeset.toFinset, txnSz - writeset.length⟩

def pool (args : GenArgs) : Finset UInt64 :=
  (Finset.range args.dbSize.toNat).image UInt64.ofNat

/-- Every key is drawn again and again. -/
def Recurs (args : GenArgs) (rand : Nat → Int32) : Prop :=
  ∀ key : UInt64, key.toNat < args.dbSize.toNat →
    ∀ n, ∃ m, n ≤ m ∧ args.gen (rand m) = some key

section Returns
variable {args : GenArgs} {rand : Nat → Int32} {ret : List Request} {seen : Finset UInt64}
  {writeset updates : List UInt64} {key : UInt64} {value : Int32} {n k : Nat}

theorem mem_pool : key ∈ args.pool ↔ key.toNat < args.dbSize.toNat := by
  rw [pool, Finset.mem_image]
  constructor
  · rintro ⟨k, hk, rfl⟩
    have hlt := Finset.mem_range.mp hk
    have hmax := args.dbSize.toNat_lt
    rw [UInt64.toNat_ofNat', Nat.mod_eq_of_lt (by omega)]
    exact hlt
  · intro hlt
    refine ⟨key.toNat, Finset.mem_range.mpr hlt, ?_⟩
    rw [UInt64.ofNat_toNat]

theorem card_pool (args : GenArgs) : args.pool.card = args.dbSize.toNat := by
  rw [pool, Finset.card_image_of_injOn, Finset.card_range]
  intro i hi j hj heq
  have hi := Finset.mem_range.mp (Finset.mem_coe.mp hi)
  have hj := Finset.mem_range.mp (Finset.mem_coe.mp hj)
  have hmax := args.dbSize.toNat_lt
  have hval := congrArg UInt64.toNat heq
  rw [UInt64.toNat_ofNat', UInt64.toNat_ofNat'] at hval
  omega

theorem gen_keysFrom (hdb : 0 < args.dbSize.toNat) (rand : Nat → Int32) (n k : Nat) :
    args.gen (rand (n + k)) = some (args.keysFrom rand n k) := by
  apply if_neg
  intro hzero
  rw [hzero] at hdb
  exact Nat.lt_irrefl 0 hdb

theorem length_le_dbSize (hnodup : writeset.Nodup)
    (hrange : ∀ key ∈ writeset, key.toNat < args.dbSize.toNat) :
    writeset.length ≤ args.dbSize.toNat := by
  rw [← List.toFinset_card_of_nodup hnodup, ← card_pool]
  apply Finset.card_le_card
  intro key hkey
  exact mem_pool.mpr (hrange key (List.mem_toFinset.mp hkey))

/-- What the loop does with a key is what the sampler does with it. -/
theorem Sound.pick_sampler (h : args.Sound ⟨ret, .picking seen writeset⟩)
    (hkey : args.gen value = some key) :
    (0 < ((sampler writeset).draw key).wanted ∧ ∃ seen' writeset',
      args.pick value ⟨ret, .picking seen writeset⟩ = some ⟨ret, .picking seen' writeset'⟩ ∧
      sampler writeset' = (sampler writeset).draw key) ∨
    ((sampler writeset).draw key).wanted = 0 ∧ ∃ writeset',
      args.pick value ⟨ret, .picking seen writeset⟩ = some ⟨ret, .drawing writeset' []⟩ := by
  obtain ⟨_, hseen, hlength, _, _⟩ := h.fits
  have hpos : 0 < (sampler writeset).wanted := Nat.sub_pos_of_lt hlength
  simp only [GenArgs.pick, hkey, Option.map_some]
  by_cases hin : key ∈ seen
  · have hdraw : (sampler writeset).draw key = sampler writeset :=
      Sampling.draw_rejected (.inr (List.mem_toFinset.mpr ((hseen key).mp hin)))
    rw [if_pos hin, hdraw]
    exact .inl ⟨hpos, seen, writeset, rfl, rfl⟩
  · have hdraw : (sampler writeset).draw key = sampler (writeset ++ [key]) := by
      rw [Sampling.draw_accepted hpos fun hmem => hin ((hseen key).mpr (List.mem_toFinset.mp hmem))]
      simp [sampler, Nat.sub_sub]
    rw [if_neg hin, hdraw, forWriteset]
    split
    · rename_i hmore
      exact .inl ⟨Nat.sub_pos_of_lt hmore, _, _, rfl, rfl⟩
    · rename_i hall
      exact .inr ⟨Nat.sub_eq_zero_of_le (Nat.le_of_not_lt hall), _, rfl⟩

theorem picking_after (hdb : 0 < args.dbSize.toNat)
    (hn : args.after rand n = some ⟨ret, .picking seen writeset⟩)
    (hw : 0 < ((sampler writeset).after (args.keysFrom rand n) k).wanted) :
    ∃ seen' writeset', args.after rand (n + k) = some ⟨ret, .picking seen' writeset'⟩ ∧
      sampler writeset' = (sampler writeset).after (args.keysFrom rand n) k := by
  induction k with
  | zero => exact ⟨seen, writeset, hn, rfl⟩
  | succ k ih =>
    have hmono := Sampling.wanted_mono (sampler writeset) (args.keysFrom rand n) (Nat.le_succ k)
    obtain ⟨seen₁, writeset₁, hafter, hsampler⟩ := ih (Nat.lt_of_lt_of_le hw hmono)
    have hstep := (sound_of_after hafter).pick_sampler (gen_keysFrom hdb rand n k)
    rw [hsampler] at hstep
    rw [Sampling.State.after] at hw ⊢
    rcases hstep with ⟨_, seen₂, writeset₂, hpick, hsame⟩ | ⟨hzero, _⟩
    · refine ⟨seen₂, writeset₂, ?_, hsame⟩
      rw [← Nat.add_assoc, after, hafter, Option.bind_some, hpick]
    · omega

theorem exists_drawing (hsize : txnSz ≤ args.dbSize.toNat) (hrecur : args.Recurs rand)
    (hn : args.after rand n = some ⟨ret, .picking seen writeset⟩) :
    ∃ m writeset', args.after rand m = some ⟨ret, .drawing writeset' []⟩ := by
  obtain ⟨_, _, hlength, hnodup, _⟩ := (sound_of_after hn).fits
  have hdb : 0 < args.dbSize.toNat := Nat.lt_of_lt_of_le (Nat.zero_lt_succ 49) hsize
  have hpool : (sampler writeset).total ≤ args.pool.card := by
    rw [card_pool, Sampling.State.total, sampler, List.toFinset_card_of_nodup hnodup]
    show writeset.length + (txnSz - writeset.length) ≤ _
    omega
  have hkeys : ∀ key ∈ args.pool, ∀ k, ∃ m, k ≤ m ∧ args.keysFrom rand n m = key := by
    intro key hkey k
    obtain ⟨m, hle, hm⟩ := hrecur key (mem_pool.mp hkey) (n + k)
    obtain ⟨d, rfl⟩ := Nat.exists_eq_add_of_le hle
    refine ⟨k + d, Nat.le_add_right k d, ?_⟩
    rw [Nat.add_assoc, gen_keysFrom hdb] at hm
    exact Option.some.inj hm
  obtain ⟨k, hk⟩ := Sampling.exists_done hpool hkeys
  induction k with
  | zero =>
    have hpos : 0 < (sampler writeset).wanted := Nat.sub_pos_of_lt hlength
    rw [Sampling.State.after] at hk
    omega
  | succ k ih =>
    by_cases hzero : ((sampler writeset).after (args.keysFrom rand n) k).wanted = 0
    · exact ih hzero
    · -- this draw is the last one
      obtain ⟨seen₁, writeset₁, hafter, hsampler⟩ :=
        picking_after hdb hn (Nat.pos_of_ne_zero hzero)
      have hstep := (sound_of_after hafter).pick_sampler (gen_keysFrom hdb rand n k)
      rw [hsampler] at hstep
      rw [Sampling.State.after] at hk
      rcases hstep with ⟨hpos, _⟩ | ⟨_, writeset₂, hpick⟩
      · omega
      · refine ⟨n + k + 1, writeset₂, ?_⟩
        rw [after, hafter, Option.bind_some, hpick]

theorem exists_request (hn : args.after rand n = some ⟨ret, .drawing writeset updates⟩) :
    ∃ m q, args.after rand m = some (args.forRequests (ret ++ [q])) := by
  suffices h : ∀ k n updates, nfields - updates.length = k →
      args.after rand n = some ⟨ret, .drawing writeset updates⟩ →
      ∃ m q, args.after rand m = some (args.forRequests (ret ++ [q])) from h _ _ _ rfl hn
  intro k
  induction k with
  | zero =>
    intro n updates hk hn
    obtain ⟨_, hlength, _⟩ := (sound_of_after hn).fits
    omega
  | succ k ih =>
    intro n updates hk hn
    have hnext : args.after rand (n + 1) = some
        (args.forUpdates ret writeset (updates ++ [(rand n).toInt64.toUInt64])) := by
      rw [after, hn, Option.bind_some, pick]
    unfold forUpdates at hnext
    split at hnext
    · refine ih _ _ ?_ hnext
      rw [List.length_append, List.length_singleton]
      omega
    · exact ⟨_, _, hnext⟩

theorem exists_returned (hsize : txnSz ≤ args.dbSize.toNat) (hrecur : args.Recurs rand)
    (hn : args.after rand n = some (args.forRequests ret)) :
    ∃ m s, args.after rand m = some s ∧ s.pc = .returned := by
  suffices h : ∀ k n ret, args.numRequests.toNat - ret.length = k →
      args.after rand n = some (args.forRequests ret) →
      ∃ m s, args.after rand m = some s ∧ s.pc = .returned from h _ _ _ rfl hn
  intro k
  induction k with
  | zero =>
    intro n ret hk hn
    refine ⟨n, _, hn, ?_⟩
    rw [forRequests, if_neg (by omega)]
  | succ k ih =>
    intro n ret hk hn
    rw [forRequests, if_pos (by omega)] at hn
    obtain ⟨m, writeset, hm⟩ := exists_drawing hsize hrecur hn
    obtain ⟨m', q, hm'⟩ := exists_request hm
    refine ih m' _ ?_ hm'
    rw [List.length_append, List.length_singleton]
    omega

theorem exists_after (hne : args.dbSize ≠ 0) (rand : Nat → Int32) (n : Nat) :
    ∃ s, args.after rand n = some s := by
  induction n with
  | zero => exact ⟨_, rfl⟩
  | succ n ih =>
    obtain ⟨⟨ret, pc⟩, hs⟩ := ih
    rw [after, hs, Option.bind_some]
    cases pc with
    | picking seen writeset =>
      rw [pick, gen, if_neg hne]
      exact ⟨_, rfl⟩
    | drawing writeset updates => exact ⟨_, rfl⟩
    | returned => exact ⟨_, rfl⟩

/-- With too few keys the first request is never complete. -/
theorem picking_of_small (hsize : args.dbSize.toNat < txnSz) (hreq : 0 < args.numRequests.toNat)
    {s : Generating} (hn : args.after rand n = some s) :
    ∃ seen writeset, s = ⟨[], .picking seen writeset⟩ := by
  induction n generalizing s with
  | zero =>
    obtain rfl := Option.some.inj hn
    exact ⟨∅, [], if_pos hreq⟩
  | succ n ih =>
    have hsound := sound_of_after hn
    obtain ⟨m, hm, hpick⟩ := Option.bind_eq_some_iff.mp hn
    obtain ⟨seen, writeset, rfl⟩ := ih hm
    obtain ⟨key, _, rfl⟩ := Option.map_eq_some_iff.mp hpick
    split
    · exact ⟨seen, writeset, rfl⟩
    · rename_i hnew
      rw [if_neg hnew, forWriteset] at hsound
      unfold forWriteset
      split
      · exact ⟨_, _, rfl⟩
      · rename_i hall
        rw [if_neg hall] at hsound
        obtain ⟨_, _, hlength, hnodup, hrange⟩ := hsound.fits
        have hle := length_le_dbSize hnodup hrange
        omega

end Returns

/-- Every request that is generated has its own `TXN_SZ` distinct keys of the database; the first
key of an empty database is a division by 0; and on a stream that keeps bringing every key all
requests are generated exactly when there are enough keys for one. -/
theorem generate_requests (args : GenArgs) (rand : Nat → Int32) :
    (∀ n s, args.after rand n = some s →
      (∀ (i : Nat) (q : Request), s.ret[i]? = some q → args.Shape i q) ∧
      (s.pc = .returned → s.ret.length = args.numRequests.toNat)) ∧
    (0 < args.numRequests.toNat →
      ((∃ n, args.after rand n = none) ↔ args.dbSize = 0)) ∧
    (args.Recurs rand →
      ((∃ n s, args.after rand n = some s ∧ s.pc = .returned) ↔
        args.numRequests.toNat = 0 ∨ txnSz ≤ args.dbSize.toNat)) := by
  refine ⟨?_, fun hreq => ⟨?_, ?_⟩, ?_⟩
  · intro n s hs
    have hsound := sound_of_after hs
    refine ⟨hsound.shape, fun hpc => ?_⟩
    have hfits := hsound.fits
    unfold Fits at hfits
    rw [hpc] at hfits
    exact hfits
  · rintro ⟨n, hnone⟩
    by_contra hne
    obtain ⟨s, hs⟩ := exists_after hne rand n
    rw [hs] at hnone
    cases hnone
  · intro hempty
    have hfirst : args.after rand 0 = some ⟨[], .picking ∅ []⟩ := congrArg some (if_pos hreq)
    refine ⟨1, ?_⟩
    rw [after, hfirst, Option.bind_some, pick, gen, if_pos hempty]
    rfl
  · intro hrecur
    constructor
    · rintro ⟨n, s, hs, hpc⟩
      by_contra hnot
      obtain ⟨hreq, hsize⟩ := not_or.mp hnot
      obtain ⟨_, _, rfl⟩ := picking_of_small (by omega) (Nat.pos_of_ne_zero hreq) hs
      cases hpc
    · rintro (hnone | hsize)
      · refine ⟨0, _, rfl, ?_⟩
        rw [forRequests, if_neg (by rw [hnone]; exact Nat.lt_irrefl 0)]
      · exact exists_returned (n := 0) hsize hrecur rfl

/-- The keys of 50 records in turn. -/
theorem recurs_fifty (num : UInt32) :
    Recurs ⟨0, 50, false, num⟩ fun m => Int32.ofNat (m % 50) := by
  intro key hkey n
  have hkey : key.toNat < 50 := hkey
  have hall : ∀ k < 50, (Int32.ofNat k).toInt64.toUInt64 % 50 = UInt64.ofNat k := by decide
  refine ⟨50 * n + key.toNat, by omega, ?_⟩
  show some ((Int32.ofNat ((50 * n + key.toNat) % 50)).toInt64.toUInt64 % 50) = some key
  rw [Nat.mul_add_mod, Nat.mod_eq_of_lt hkey, hall _ hkey, UInt64.ofNat_toNat]

theorem generate_requests_one :
    (∃ n s, after ⟨0, 50, false, 1⟩ (fun m => Int32.ofNat (m % 50)) n = some s ∧
      s.pc = .returned ∧ s.ret.length = 1) ∧
    ∃ n, after ⟨0, 0, false, 1⟩ (fun _ => 0) n = none := by
  refine ⟨?_, ((generate_requests ⟨0, 0, false, 1⟩ _).2.1 Nat.one_pos).mpr rfl⟩
  obtain ⟨hall, _, hreturns⟩ := generate_requests ⟨0, 50, false, 1⟩ fun m => Int32.ofNat (m % 50)
  obtain ⟨n, s, hs, hpc⟩ := (hreturns (recurs_fifty 1)).mpr (.inr (Nat.le_refl 50))
  exact ⟨n, s, hs, hpc, (hall n s hs).2 hpc⟩

end GenArgs

end Cmsc624.A1
