import Cmsc624.A2.TxnTypes
import Cmsc624.Lib.Sampling
import Mathlib.Algebra.Group.Int.Defs

/-!
# Random read and write sets

The constructor of `RMW` that draws its two key sets. Both loops together are one sampler
without replacement; the `DCHECK` keeps it from using up the keys as long as the sum in it
does not overflow.
-/

namespace Cmsc624.A2

open Lib

set_option autoImplicit false

/-- The arguments of `RMW(int dbsize, int readsetsize, int writesetsize, double time)`; the
time is not used here. -/
structure RmwArgs where
  dbsize : Int32
  readsetsize : Int32
  writesetsize : Int32

/-- In which `do` loop the constructor is, and the `i` of the `for` around it. -/
inductive PickPc where
  | reading (i : Nat)
  | writing (i : Nat)
  | returned

structure Picking where
  readset : OrderedSet Key
  writeset : OrderedSet Key
  pc : PickPc

/-- The `do` loop would not draw again after this key. -/
def Picking.Accepts (s : Picking) (key : Key) : Prop :=
  match s.pc with
  | .reading _ => key ∉ s.readset
  | .writing _ => ¬(key ∈ s.readset ∨ key ∈ s.writeset)
  | .returned => False

namespace RmwArgs

/-- The condition of the `DCHECK`; the sum is that of `int`, modulo 2^32. -/
def Checked (args : RmwArgs) : Prop := args.dbsize ≥ args.readsetsize + args.writesetsize

instance decidableChecked (args : RmwArgs) : Decidable args.Checked :=
  inferInstanceAs (Decidable (_ ≥ _))

/-- `rand() % dbsize` as a `Key`; `none` is the division by 0. -/
def key (args : RmwArgs) (value : Int32) : Option Key :=
  if args.dbsize = 0 then none else some (value % args.dbsize).toInt64.toUInt64

def forWrite (args : RmwArgs) (i : Nat) (readset writeset : OrderedSet Key) : Picking :=
  if i < args.writesetsize.toInt then ⟨readset, writeset, .writing i⟩
  else ⟨readset, writeset, .returned⟩

def forRead (args : RmwArgs) (i : Nat) (readset : OrderedSet Key) : Picking :=
  if i < args.readsetsize.toInt then ⟨readset, .empty, .reading i⟩
  else args.forWrite 0 readset .empty

def start (args : RmwArgs) : Option Picking :=
  if args.Checked then some (args.forRead 0 .empty) else none

def pick (args : RmwArgs) (value : Int32) (s : Picking) : Option Picking :=
  match s.pc with
  | .reading i => (args.key value).map fun key =>
      if key ∈ s.readset then s else args.forRead (i + 1) (s.readset.insert key)
  | .writing i => (args.key value).map fun key =>
      if key ∈ s.readset ∨ key ∈ s.writeset then s
      else args.forWrite (i + 1) s.readset (s.writeset.insert key)
  | .returned => some s

def after (args : RmwArgs) (rand : Nat → Int32) : Nat → Option Picking
  | 0 => args.start
  | n + 1 => (args.after rand n).bind (args.pick (rand n))

/-- What the check is for: no draw is in vain for ever, and what is returned is as large as
asked for. -/
structure Enough (args : RmwArgs) (rand : Nat → Int32) : Prop where
  accepts : ∀ n s, args.after rand n = some s → s.pc ≠ .returned →
    ∃ key : Key, key.toNat < args.dbsize.toInt ∧ s.Accepts key
  returns : (∀ key : Key, key.toNat < args.dbsize.toInt →
      ∀ n, ∃ m, n ≤ m ∧ args.key (rand m) = some key) →
    ∃ n s, args.after rand n = some s ∧ s.pc = .returned
  sets : ∀ n s, args.after rand n = some s → s.pc = .returned →
    s.readset.toList.length = args.readsetsize.toInt ∧
    s.writeset.toList.length = args.writesetsize.toInt ∧ s.readset.Disjoint s.writeset ∧
    ∀ key, key ∈ s.readset ∨ key ∈ s.writeset → key.toNat < args.dbsize.toInt

def wanted (args : RmwArgs) : PickPc → Nat
  | .reading i => (args.readsetsize.toInt - i).toNat + args.writesetsize.toInt.toNat
  | .writing i => (args.writesetsize.toInt - i).toNat
  | .returned => 0

def sampler (args : RmwArgs) (s : Picking) : Sampling.State Key :=
  ⟨s.readset.toList.toFinset ∪ s.writeset.toList.toFinset, args.wanted s.pc⟩

/-- The sets have as many keys as the loops have come to. -/
def Counted (args : RmwArgs) (s : Picking) : Prop :=
  match s.pc with
  | .reading i => i < args.readsetsize.toInt ∧ s.readset.toList.length = i ∧ s.writeset = .empty
  | .writing i => i < args.writesetsize.toInt ∧
      s.readset.toList.length = args.readsetsize.toInt ∧ s.writeset.toList.length = i
  | .returned => s.readset.toList.length = args.readsetsize.toInt ∧
      s.writeset.toList.length = args.writesetsize.toInt

structure Picked (args : RmwArgs) (s : Picking) : Prop where
  counted : args.Counted s
  disjoint : s.readset.Disjoint s.writeset

section Picked
variable {args : RmwArgs} {rand : Nat → Int32} {s s' : Picking} {key : Key} {n i : Nat}
  {readset writeset : OrderedSet Key}

theorem disjoint_empty (readset : OrderedSet Key) : readset.Disjoint .empty :=
  fun _ _ => List.not_mem_nil

theorem mem_taken : key ∈ (args.sampler s).taken ↔ key ∈ s.readset ∨ key ∈ s.writeset := by
  rw [sampler, Finset.mem_union, List.mem_toFinset, List.mem_toFinset]
  rfl

theorem forWrite_picked (hread : readset.toList.length = args.readsetsize.toInt)
    (hwrite : writeset.toList.length = i) (hi : i ≤ args.writesetsize.toInt)
    (hdisjoint : readset.Disjoint writeset) :
    args.Picked (args.forWrite i readset writeset) ∧
      args.sampler (args.forWrite i readset writeset) =
        ⟨readset.toList.toFinset ∪ writeset.toList.toFinset,
          (args.writesetsize.toInt - i).toNat⟩ := by
  unfold forWrite
  split
  · rename_i hlt
    exact ⟨⟨⟨hlt, hread, hwrite⟩, hdisjoint⟩, rfl⟩
  · rename_i hge
    have hzero : (args.writesetsize.toInt - i).toNat = 0 := by omega
    rw [hzero]
    refine ⟨⟨⟨hread, ?_⟩, hdisjoint⟩, rfl⟩
    show (writeset.toList.length : Int) = _
    omega

theorem forRead_picked (hwrite : 0 ≤ args.writesetsize.toInt)
    (hread : readset.toList.length = i) (hi : i ≤ args.readsetsize.toInt) :
    args.Picked (args.forRead i readset) ∧ args.sampler (args.forRead i readset) =
      ⟨readset.toList.toFinset ∪ ∅,
        (args.readsetsize.toInt - i).toNat + args.writesetsize.toInt.toNat⟩ := by
  unfold forRead
  split
  · rename_i hlt
    exact ⟨⟨⟨hlt, hread, rfl⟩, disjoint_empty readset⟩, rfl⟩
  · rename_i hge
    have hall : readset.toList.length = args.readsetsize.toInt := by omega
    have hzero : (args.readsetsize.toInt - i).toNat = 0 := by omega
    have hfirst : (args.writesetsize.toInt - (0 : Nat)).toNat = args.writesetsize.toInt.toNat := by
      omega
    obtain ⟨hpicked, hsampler⟩ := forWrite_picked (i := 0) hall rfl hwrite (disjoint_empty readset)
    refine ⟨hpicked, hsampler.trans ?_⟩
    rw [hzero, hfirst, Nat.zero_add]
    rfl

theorem toFinset_insert (key : Key) (set : OrderedSet Key) :
    (set.insert key).toList.toFinset = insert key set.toList.toFinset := by
  ext k
  rw [Finset.mem_insert, List.mem_toFinset, List.mem_toFinset]
  exact OrderedSet.mem_insert

theorem Picked.pickRead (h : args.Picked ⟨readset, writeset, .reading i⟩)
    (hwrite : 0 ≤ args.writesetsize.toInt) {value : Int32} (hkey : args.key value = some key) :
    ∃ s', args.pick value ⟨readset, writeset, .reading i⟩ = some s' ∧ args.Picked s' ∧
      args.sampler s' = (args.sampler ⟨readset, writeset, .reading i⟩).draw key := by
  obtain ⟨hlt, hlength, hempty⟩ := h.counted
  obtain rfl : writeset = .empty := hempty
  simp only [RmwArgs.pick, hkey, Option.map_some]
  by_cases hin : key ∈ readset
  · rw [if_pos hin]
    refine ⟨_, rfl, h, ?_⟩
    rw [Sampling.draw_rejected (.inr (mem_taken.mpr (.inl hin)))]
  · rw [if_neg hin]
    have hlonger : (readset.insert key).toList.length = i + 1 := by
      rw [OrderedSet.length_insert hin]
      exact congrArg (· + 1) hlength
    obtain ⟨hpicked, hsampler⟩ := forRead_picked (i := i + 1) hwrite hlonger (by omega)
    refine ⟨_, rfl, hpicked, ?_⟩
    have hnew : key ∉ (args.sampler ⟨readset, .empty, .reading i⟩).taken := by
      rw [mem_taken]
      rintro (hread | hnone)
      · exact hin hread
      · cases hnone
    have hpos : 0 < (args.sampler ⟨readset, .empty, .reading i⟩).wanted := by
      show 0 < (args.readsetsize.toInt - i).toNat + _
      omega
    have hless : (args.readsetsize.toInt - (i + 1 : Nat)).toNat +
        args.writesetsize.toInt.toNat =
        (args.readsetsize.toInt - i).toNat + args.writesetsize.toInt.toNat - 1 := by
      omega
    rw [hsampler, Sampling.draw_accepted hpos hnew, hless, toFinset_insert, Finset.insert_union]
    rfl

theorem Picked.pickWrite (h : args.Picked ⟨readset, writeset, .writing i⟩) {value : Int32}
    (hkey : args.key value = some key) :
    ∃ s', args.pick value ⟨readset, writeset, .writing i⟩ = some s' ∧ args.Picked s' ∧
      args.sampler s' = (args.sampler ⟨readset, writeset, .writing i⟩).draw key := by
  obtain ⟨hlt, hread, hlength⟩ := h.counted
  simp only [RmwArgs.pick, hkey, Option.map_some]
  by_cases hin : key ∈ readset ∨ key ∈ writeset
  · rw [if_pos hin]
    refine ⟨_, rfl, h, ?_⟩
    rw [Sampling.draw_rejected (.inr (mem_taken.mpr hin))]
  · rw [if_neg hin]
    obtain ⟨hnotRead, hnotWrite⟩ := not_or.mp hin
    have hdisjoint : readset.Disjoint (writeset.insert key) := by
      intro k hk hmem
      rcases OrderedSet.mem_insert.mp hmem with rfl | hold
      · exact hnotRead hk
      · exact h.disjoint k hk hold
    have hlonger : (writeset.insert key).toList.length = i + 1 := by
      rw [OrderedSet.length_insert hnotWrite]
      exact congrArg (· + 1) hlength
    obtain ⟨hpicked, hsampler⟩ := forWrite_picked hread hlonger (by omega) hdisjoint
    refine ⟨_, rfl, hpicked, ?_⟩
    have hnew : key ∉ (args.sampler ⟨readset, writeset, .writing i⟩).taken := by
      rw [mem_taken]
      exact hin
    have hpos : 0 < (args.sampler ⟨readset, writeset, .writing i⟩).wanted := by
      show 0 < (args.writesetsize.toInt - i).toNat
      omega
    have hless : (args.writesetsize.toInt - (i + 1 : Nat)).toNat =
        (args.writesetsize.toInt - i).toNat - 1 := by
      omega
    rw [hsampler, Sampling.draw_accepted hpos hnew, hless, toFinset_insert, Finset.union_insert]
    rfl

theorem Picked.pick (h : args.Picked s) (hwrite : 0 ≤ args.writesetsize.toInt) {value : Int32}
    (hkey : args.key value = some key) :
    ∃ s', args.pick value s = some s' ∧ args.Picked s' ∧
      args.sampler s' = (args.sampler s).draw key := by
  obtain ⟨readset, writeset, pc⟩ := s
  cases pc with
  | reading i => exact h.pickRead hwrite hkey
  | writing i => exact h.pickWrite hkey
  | returned => exact ⟨_, rfl, h, (Sampling.draw_rejected (.inl rfl)).symm⟩

theorem Picked.wanted_eq_zero (h : args.Picked s) :
    (args.sampler s).wanted = 0 ↔ s.pc = .returned := by
  obtain ⟨readset, writeset, pc⟩ := s
  have hcounted := h.counted
  cases pc with
  | reading i =>
    have hlt : (i : Int) < args.readsetsize.toInt := hcounted.1
    refine iff_of_false ?_ (fun hpc => by cases hpc)
    show (args.readsetsize.toInt - i).toNat + _ ≠ 0
    omega
  | writing i =>
    have hlt : (i : Int) < args.writesetsize.toInt := hcounted.1
    refine iff_of_false ?_ (fun hpc => by cases hpc)
    show (args.writesetsize.toInt - i).toNat ≠ 0
    omega
  | returned => exact iff_of_true rfl rfl

/-- As long as it draws, the loops accept what the sampler has not taken. -/
theorem Picked.accepts_iff (h : args.Picked s) (hpc : s.pc ≠ .returned) :
    s.Accepts key ↔ key ∉ (args.sampler s).taken := by
  rw [mem_taken]
  obtain ⟨readset, writeset, pc⟩ := s
  cases pc with
  | reading i =>
    obtain ⟨_, _, hempty⟩ := h.counted
    obtain rfl : writeset = .empty := hempty
    show key ∉ readset ↔ ¬(key ∈ readset ∨ key ∈ ([] : List Key))
    simp
  | writing i => exact Iff.rfl
  | returned => exact absurd rfl hpc

end Picked

def pool (args : RmwArgs) : Finset Key :=
  (Finset.range args.dbsize.toInt.toNat).image UInt64.ofNat

def keys (args : RmwArgs) (rand : Nat → Int32) (n : Nat) : Key :=
  (rand n % args.dbsize).toInt64.toUInt64

def sampler₀ (args : RmwArgs) : Sampling.State Key :=
  ⟨∅, args.readsetsize.toInt.toNat + args.writesetsize.toInt.toNat⟩

section Keys
variable {args : RmwArgs} {rand : Nat → Int32} {s : Picking} {key : Key} {n : Nat}

theorem mem_pool : key ∈ args.pool ↔ key.toNat < args.dbsize.toInt := by
  rw [pool, Finset.mem_image]
  constructor
  · rintro ⟨k, hk, rfl⟩
    have hlt := Finset.mem_range.mp hk
    have hmax := args.dbsize.toInt_lt
    rw [UInt64.toNat_ofNat']
    omega
  · intro hlt
    refine ⟨key.toNat, Finset.mem_range.mpr (by omega), ?_⟩
    rw [UInt64.ofNat_toNat]

theorem card_pool (args : RmwArgs) : args.pool.card = args.dbsize.toInt.toNat := by
  rw [pool, Finset.card_image_of_injOn, Finset.card_range]
  intro i hi j hj heq
  have hi := Finset.mem_range.mp (Finset.mem_coe.mp hi)
  have hj := Finset.mem_range.mp (Finset.mem_coe.mp hj)
  have hmax := args.dbsize.toInt_lt
  have hval := congrArg UInt64.toNat heq
  rw [UInt64.toNat_ofNat', UInt64.toNat_ofNat'] at hval
  omega

theorem keys_toNat (hrand : 0 ≤ rand n) (hdb : 0 < args.dbsize.toInt) :
    ((args.keys rand n).toNat : Int) = (rand n).toInt % args.dbsize.toInt := by
  have hvalue : 0 ≤ (rand n).toInt := Int32.le_iff_toInt_le.mp hrand
  have hmod : (rand n % args.dbsize).toInt = (rand n).toInt % args.dbsize.toInt := by
    rw [Int32.toInt_mod, Int.tmod_eq_emod_of_nonneg hvalue]
  have hnonneg := Int.emod_nonneg (rand n).toInt (Int.ne_of_gt hdb)
  have hwide : 0 ≤ (rand n % args.dbsize).toInt64 := by
    rw [Int64.le_iff_toInt_le, Int32.toInt_toInt64, hmod]
    exact hnonneg
  rw [keys, Int64.toNat_toUInt64_of_le hwide, Int64.toNatClampNeg, Int32.toInt_toInt64, hmod]
  exact Int.toNat_of_nonneg hnonneg

theorem keys_mem_pool (hrand : 0 ≤ rand n) (hdb : 0 < args.dbsize.toInt) :
    args.keys rand n ∈ args.pool := by
  rw [mem_pool, keys_toNat hrand hdb]
  exact Int.emod_lt_of_pos _ hdb

/-- The run of the constructor is a run of the sampler, unless it divides by 0. -/
theorem after_picked (rand : Nat → Int32) (hcheck : args.Checked)
    (hread : 0 ≤ args.readsetsize.toInt) (hwrite : 0 ≤ args.writesetsize.toInt)
    (hdb : args.dbsize = 0 → args.sampler₀.wanted = 0) (n : Nat) :
    ∃ s, args.after rand n = some s ∧ args.Picked s ∧
      args.sampler s = args.sampler₀.after (args.keys rand) n := by
  induction n with
  | zero =>
    have hempty : (OrderedSet.empty : OrderedSet Key).toList.length = 0 := rfl
    obtain ⟨hpicked, hsampler⟩ := forRead_picked hwrite hempty hread
    have hfirst : (args.readsetsize.toInt - (0 : Nat)).toNat = args.readsetsize.toInt.toNat := by
      omega
    refine ⟨_, if_pos hcheck, hpicked, hsampler.trans ?_⟩
    rw [hfirst]
    rfl
  | succ n ih =>
    obtain ⟨s, hs, hpicked, hsampler⟩ := ih
    by_cases hzero : args.dbsize = 0
    · -- it has returned without a draw
      have hnone : (args.sampler s).wanted = 0 := by
        have hle := Sampling.wanted_mono args.sampler₀ (args.keys rand) (Nat.zero_le n)
        rw [hsampler]
        exact Nat.le_zero.mp (hle.trans (Nat.le_of_eq (hdb hzero)))
      have hpc := hpicked.wanted_eq_zero.mp hnone
      refine ⟨s, ?_, hpicked, ?_⟩
      · rw [after, hs, Option.bind_some, pick, hpc]
      · rw [Sampling.State.after, ← hsampler, Sampling.draw_rejected (.inl hnone)]
    · have hkey : args.key (rand n) = some (args.keys rand n) := if_neg hzero
      obtain ⟨s', hs', hpicked', hsampler'⟩ := hpicked.pick hwrite hkey
      refine ⟨s', ?_, hpicked', ?_⟩
      · rw [after, hs, Option.bind_some, hs']
      · rw [Sampling.State.after, ← hsampler, hsampler']

end Keys

section Enough
variable {args : RmwArgs} {rand : Nat → Int32}

/-- The sum of the `DCHECK` is the sum of the two sizes. -/
theorem Checked.le_of_fits (h : args.Checked) (hread : 0 ≤ args.readsetsize.toInt)
    (hwrite : 0 ≤ args.writesetsize.toInt)
    (hfits : args.readsetsize.toInt + args.writesetsize.toInt < 2 ^ 31) :
    args.readsetsize.toInt + args.writesetsize.toInt ≤ args.dbsize.toInt := by
  have hle := Int32.le_iff_toInt_le.mp h
  rw [Int32.toInt_add, Int.bmod_eq_of_le (by omega) (by omega)] at hle
  exact hle

theorem enough_of_fits (hcheck : args.Checked) (hread : 0 ≤ args.readsetsize.toInt)
    (hwrite : 0 ≤ args.writesetsize.toInt)
    (hfits : args.readsetsize.toInt + args.writesetsize.toInt < 2 ^ 31)
    (hrand : ∀ n, 0 ≤ rand n) : args.Enough rand := by
  have hsum := hcheck.le_of_fits hread hwrite hfits
  have hdb : args.dbsize = 0 → args.sampler₀.wanted = 0 := by
    intro hzero
    have hint : args.dbsize.toInt = 0 := by rw [hzero]; rfl
    show args.readsetsize.toInt.toNat + args.writesetsize.toInt.toNat = 0
    omega
  have hpool : args.sampler₀.total ≤ args.pool.card := by
    rw [card_pool]
    show 0 + (args.readsetsize.toInt.toNat + args.writesetsize.toInt.toNat) ≤ _
    omega
  have hrun := after_picked rand hcheck hread hwrite hdb
  constructor
  · intro n s hs hpc
    obtain ⟨s', hs', hpicked, hsampler⟩ := hrun n
    obtain rfl := Option.some.inj (hs.symm.trans hs')
    have htotal : (args.sampler s).total ≤ args.pool.card := by
      rw [hsampler, Sampling.after_total]
      exact hpool
    have hw : 0 < (args.sampler s).wanted :=
      Nat.pos_of_ne_zero fun hzero => hpc (hpicked.wanted_eq_zero.mp hzero)
    obtain ⟨key, hkey, hnew⟩ := Sampling.exists_accepted htotal hw
    exact ⟨key, mem_pool.mp hkey, (hpicked.accepts_iff hpc).mpr hnew⟩
  · intro hrecur
    have hkeys : ∀ key ∈ args.pool, ∀ n, ∃ m, n ≤ m ∧ args.keys rand m = key := by
      intro key hkey n
      obtain ⟨m, hnm, hm⟩ := hrecur key (mem_pool.mp hkey) n
      refine ⟨m, hnm, ?_⟩
      unfold RmwArgs.key at hm
      split at hm
      · cases hm
      · exact Option.some.inj hm
    obtain ⟨n, hn⟩ := Sampling.exists_done hpool hkeys
    obtain ⟨s, hs, hpicked, hsampler⟩ := hrun n
    exact ⟨n, s, hs, hpicked.wanted_eq_zero.mp (hsampler ▸ hn)⟩
  · intro n s hs hpc
    obtain ⟨s', hs', hpicked, hsampler⟩ := hrun n
    obtain rfl := Option.some.inj (hs.symm.trans hs')
    have hcounted := hpicked.counted
    unfold Counted at hcounted
    rw [hpc] at hcounted
    refine ⟨hcounted.1, hcounted.2, hpicked.disjoint, ?_⟩
    intro key hkey
    by_cases hpos : 0 < args.dbsize.toInt
    · have hsub := Sampling.after_subset (s := args.sampler₀) (Finset.empty_subset args.pool)
        (fun n => keys_mem_pool (hrand n) hpos) n
      rw [← hsampler] at hsub
      exact mem_pool.mp (hsub (mem_taken.mpr hkey))
    · -- nothing was asked for
      rcases hkey with hmem | hmem
      · have hsome := List.length_pos_of_mem (show key ∈ s.readset.toList from hmem)
        omega
      · have hsome := List.length_pos_of_mem (show key ∈ s.writeset.toList from hmem)
        omega

end Enough

def roundRobin (args : RmwArgs) (n : Nat) : Int32 := Int32.ofNat (n % args.dbsize.toInt.toNat)

section Overflow
variable {args : RmwArgs} {n : Nat}

theorem roundRobin_toInt (hdb : 0 < args.dbsize.toInt) (n : Nat) :
    (args.roundRobin n).toInt = n % args.dbsize.toInt := by
  have hlt := Nat.mod_lt n (Int.pos_iff_toNat_pos.mp hdb)
  have hmax := args.dbsize.toInt_lt
  rw [roundRobin, Int32.toInt_ofNat_of_lt (by omega), Int.natCast_emod,
    Int.toNat_of_nonneg (Int.le_of_lt hdb)]

theorem roundRobin_nonneg (hdb : 0 < args.dbsize.toInt) (n : Nat) : 0 ≤ args.roundRobin n := by
  rw [Int32.le_iff_toInt_le, roundRobin_toInt hdb]
  exact Int.emod_nonneg _ (Int.ne_of_gt hdb)

theorem keys_roundRobin (hdb : 0 < args.dbsize.toInt) (hn : n < args.dbsize.toInt) :
    (args.keys args.roundRobin n).toNat = n := by
  have hkey := keys_toNat (roundRobin_nonneg hdb n) hdb
  rw [roundRobin_toInt hdb, Int.emod_emod_of_dvd _ (Int.dvd_refl _),
    Int.emod_eq_of_lt (Int.natCast_nonneg n) hn] at hkey
  exact Int.ofNat.inj hkey

/-- With `dbsize` keys taken and another one wanted, nothing is accepted. -/
theorem exhausted (hcheck : args.Checked) (hread : 0 ≤ args.readsetsize.toInt)
    (hwrite : 0 ≤ args.writesetsize.toInt) (hdb : 0 < args.dbsize.toInt)
    (hmore : args.dbsize.toInt < args.readsetsize.toInt + args.writesetsize.toInt) :
    ∃ s, args.after args.roundRobin args.dbsize.toInt.toNat = some s ∧ s.pc ≠ .returned ∧
      ∀ key : Key, key.toNat < args.dbsize.toInt → ¬s.Accepts key := by
  have hne : args.dbsize = 0 → args.sampler₀.wanted = 0 := by
    intro hzero
    rw [hzero] at hdb
    cases hdb
  obtain ⟨s, hs, hpicked, hsampler⟩ :=
    after_picked args.roundRobin hcheck hread hwrite hne args.dbsize.toInt.toNat
  have hinj : ∀ i j, i < args.dbsize.toInt.toNat → j < args.dbsize.toInt.toNat →
      args.keys args.roundRobin i = args.keys args.roundRobin j → i = j := by
    intro i j hi hj heq
    rw [← keys_roundRobin hdb (by omega : (i : Int) < args.dbsize.toInt), heq,
      keys_roundRobin hdb (by omega)]
  have henough : args.dbsize.toInt.toNat ≤ args.sampler₀.wanted := by
    show _ ≤ args.readsetsize.toInt.toNat + args.writesetsize.toInt.toNat
    omega
  rw [Sampling.after_of_injective rfl henough hinj] at hsampler
  have hpc : s.pc ≠ .returned := by
    intro hret
    have hzero := hpicked.wanted_eq_zero.mpr hret
    rw [hsampler] at hzero
    have hzero : args.readsetsize.toInt.toNat + args.writesetsize.toInt.toNat -
      args.dbsize.toInt.toNat = 0 := hzero
    omega
  refine ⟨s, hs, hpc, ?_⟩
  intro key hkey
  rw [hpicked.accepts_iff hpc, not_not, hsampler]
  apply Finset.mem_image.mpr
  refine ⟨key.toNat, Finset.mem_range.mpr (by omega), ?_⟩
  exact UInt64.toNat_inj.mp (keys_roundRobin hdb hkey)

/-- Where the sum overflows, some stream leads to a draw that is in vain for ever. -/
theorem exists_not_enough (hcheck : args.Checked) (hread : 0 ≤ args.readsetsize.toInt)
    (hwrite : 0 ≤ args.writesetsize.toInt)
    (hoverflow : 2 ^ 31 ≤ args.readsetsize.toInt + args.writesetsize.toInt) :
    ∃ rand : Nat → Int32, (∀ n, 0 ≤ rand n) ∧ ¬args.Enough rand := by
  have hmax := args.dbsize.toInt_lt
  by_cases hdb : 0 < args.dbsize.toInt
  · refine ⟨args.roundRobin, roundRobin_nonneg hdb, ?_⟩
    intro henough
    obtain ⟨s, hs, hpc, hvain⟩ := exhausted hcheck hread hwrite hdb (by omega)
    obtain ⟨key, hkey, haccepts⟩ := henough.accepts _ s hs hpc
    exact hvain key hkey haccepts
  · -- there is no key at all, and the first draw waits for one
    refine ⟨fun _ => 0, fun _ => Int32.le_refl 0, ?_⟩
    intro henough
    have hempty : (OrderedSet.empty : OrderedSet Key).toList.length = 0 := rfl
    obtain ⟨hpicked, hsampler⟩ := forRead_picked hwrite hempty hread
    have hpc : (args.forRead 0 .empty).pc ≠ .returned := by
      intro hret
      have hzero := hpicked.wanted_eq_zero.mpr hret
      rw [hsampler] at hzero
      have hzero : (args.readsetsize.toInt - (0 : Nat)).toNat +
        args.writesetsize.toInt.toNat = 0 := hzero
      omega
    obtain ⟨key, hkey, _⟩ := henough.accepts 0 _ (if_pos hcheck) hpc
    omega

end Overflow

/-- The `DCHECK` is enough for the loops exactly when its sum does not overflow. -/
theorem enough_iff {args : RmwArgs} (hread : 0 ≤ args.readsetsize) (hwrite : 0 ≤ args.writesetsize)
    (hcheck : args.Checked) :
    (∀ rand : Nat → Int32, (∀ n, 0 ≤ rand n) → args.Enough rand) ↔
      args.readsetsize.toInt + args.writesetsize.toInt < 2 ^ 31 := by
  have hread : 0 ≤ args.readsetsize.toInt := Int32.le_iff_toInt_le.mp hread
  have hwrite : 0 ≤ args.writesetsize.toInt := Int32.le_iff_toInt_le.mp hwrite
  constructor
  · intro hall
    by_contra hge
    obtain ⟨rand, hrand, hnot⟩ := exists_not_enough hcheck hread hwrite (by omega)
    exact hnot (hall rand hrand)
  · intro hfits rand hrand
    exact enough_of_fits hcheck hread hwrite hfits hrand

theorem roundRobin_recurs {key : Key} (hkey : key.toNat < 3) (n : Nat) :
    ∃ m, n ≤ m ∧ RmwArgs.key ⟨3, 1, 2⟩ (roundRobin ⟨3, 1, 2⟩ m) = some key := by
  have hall : ∀ k < 3, RmwArgs.key ⟨3, 1, 2⟩ (Int32.ofNat k) = some (UInt64.ofNat k) := by decide
  refine ⟨3 * n + key.toNat, by omega, ?_⟩
  show RmwArgs.key ⟨3, 1, 2⟩ (Int32.ofNat ((3 * n + key.toNat) % 3)) = some key
  rw [Nat.mul_add_mod, Nat.mod_eq_of_lt hkey, hall _ hkey, UInt64.ofNat_toNat]

theorem enough_three : ∃ n s, after ⟨3, 1, 2⟩ (roundRobin ⟨3, 1, 2⟩) n = some s ∧
    s.pc = .returned ∧ s.readset.toList.length = 1 ∧ s.writeset.toList.length = 2 := by
  have henough : Enough ⟨3, 1, 2⟩ (roundRobin ⟨3, 1, 2⟩) :=
    (enough_iff (by decide) (by decide) (by decide)).mpr (by decide) _
      (roundRobin_nonneg (by decide))
  obtain ⟨n, s, hs, hpc⟩ := henough.returns fun key hkey => roundRobin_recurs (Int.ofNat_lt.mp hkey)
  obtain ⟨hread, hwrite, _, _⟩ := henough.sets n s hs hpc
  exact ⟨n, s, hs, hpc, Int.ofNat.inj hread, Int.ofNat.inj hwrite⟩

/-- 2^31 - 1 keys to read and one to write pass the check with `dbsize` 1. -/
theorem check_overflows : RmwArgs.Checked ⟨1, 2147483647, 1⟩ ∧
    ¬RmwArgs.Enough ⟨1, 2147483647, 1⟩ fun _ => 0 := by
  have hcheck : RmwArgs.Checked ⟨1, 2147483647, 1⟩ := by decide
  have hstream : roundRobin ⟨1, 2147483647, 1⟩ = fun _ => 0 := by
    funext n
    show Int32.ofNat (n % 1) = 0
    rw [Nat.mod_one]
    rfl
  obtain ⟨s, hs, hpc, hvain⟩ :=
    exhausted hcheck (by decide) (by decide) (by decide) (by decide)
  rw [hstream] at hs
  refine ⟨hcheck, fun henough => ?_⟩
  obtain ⟨key, hkey, haccepts⟩ := henough.accepts _ s hs hpc
  exact hvain key hkey haccepts

end RmwArgs

end Cmsc624.A2
