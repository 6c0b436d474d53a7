import Cmsc624.Lib.ByteWord

/-!
# Byte-addressed memory

Regions, loads of numbers and words, stores and `memcpy`. What is read from a region
depends on the bytes of it only.
-/

namespace Lib

set_option autoImplicit false

abbrev ByteMemory := Nat → UInt8

structure Region where
  base : Nat
  size : Nat
  deriving DecidableEq

namespace Region
variable {a i n : Nat} {R S T : Region}

instance instMembership : Membership Nat Region where
  mem R a := R.base ≤ a ∧ a < R.base + R.size

instance instDecidableMem (a : Nat) (R : Region) : Decidable (a ∈ R) :=
  inferInstanceAs (Decidable (R.base ≤ a ∧ a < R.base + R.size))

theorem mem_iff : a ∈ R ↔ R.base ≤ a ∧ a < R.base + R.size := Iff.rfl

theorem add_mem (hi : i < n) : a + i ∈ (⟨a, n⟩ : Region) :=
  ⟨Nat.le_add_right a i, Nat.add_lt_add_left hi a⟩

def Inside (R S : Region) : Prop := S.base ≤ R.base ∧ R.base + R.size ≤ S.base + S.size

def Apart (R S : Region) : Prop :=
  R.size = 0 ∨ S.size = 0 ∨ R.base + R.size ≤ S.base ∨ S.base + S.size ≤ R.base

instance instDecidableInside (R S : Region) : Decidable (R.Inside S) :=
  inferInstanceAs (Decidable (_ ∧ _))

instance instDecidableApart (R S : Region) : Decidable (R.Apart S) :=
  inferInstanceAs (Decidable (_ ∨ _ ∨ _ ∨ _))

theorem apart_iff : R.Apart S ↔ ∀ a ∈ R, a ∉ S := by
  constructor
  · intro h a hR hS
    rw [mem_iff] at hR hS
    unfold Apart at h
    omega
  · intro h
    by_contra hn
    unfold Apart at hn
    apply h (max R.base S.base)
    · rw [mem_iff]
      omega
    · rw [mem_iff]
      omega

theorem Apart.symm (h : R.Apart S) : S.Apart R := by
  unfold Apart at h ⊢
  omega

theorem Inside.mem (h : R.Inside S) (ha : a ∈ R) : a ∈ S := by
  rw [mem_iff] at ha ⊢
  unfold Inside at h
  omega

theorem Inside.trans (h : R.Inside S) (h' : S.Inside T) : R.Inside T := by
  unfold Inside at h h' ⊢
  omega

theorem Apart.mono (h : S.Apart T) (hin : R.Inside S) : R.Apart T := by
  rw [apart_iff] at h ⊢
  intro a ha
  exact h a (hin.mem ha)

end Region

namespace ByteMemory
variable {m m' m'' : ByteMemory} {R S : Region} {a b dst src n k i : Nat}

/-- The memories have the same bytes in the region. -/
def AgreeOn (m m' : ByteMemory) (R : Region) : Prop := ∀ a ∈ R, m a = m' a

/-- The second memory differs from the first one in the region only. -/
def ChangedIn (m m' : ByteMemory) (R : Region) : Prop := ∀ a, a ∉ R → m' a = m a

/-- The `n` bytes of the first memory from `a` on are those of the second from `b` on. -/
def Alike (m' m : ByteMemory) (a b n : Nat) : Prop := ∀ i < n, m' (a + i) = m (b + i)

/-- The little-endian number in the `k` bytes from `a` on. -/
def number (m : ByteMemory) (a k : Nat) : Nat :=
  Nat.ofDigits 256 (List.ofFn fun b : Fin k => (m (a + b)).toNat)

def word (m : ByteMemory) (a : Nat) : UInt64 := UInt64.ofNat (m.number a 8)

/-- The array of `n` words at `a`. -/
def words (m : ByteMemory) (a n : Nat) : List UInt64 :=
  List.ofFn fun i : Fin n => m.word (a + 8 * i)

def storeWord (m : ByteMemory) (a : Nat) (w : UInt64) : ByteMemory := fun b =>
  if b ∈ (⟨a, 8⟩ : Region) then Bytes.byteOf w (b - a) else m b

/-- What `memcpy` does to regions that do not overlap. -/
def copied (m : ByteMemory) (dst src n : Nat) : ByteMemory := fun a =>
  if a ∈ (⟨dst, n⟩ : Region) then m (src + (a - dst)) else m a

/-- `memcpy`, which is undefined on regions that overlap. -/
def memcpy (m : ByteMemory) (dst src n : Nat) : Option ByteMemory :=
  if Region.Apart ⟨dst, n⟩ ⟨src, n⟩ then some (m.copied dst src n) else none

theorem memcpy_of_apart (h : Region.Apart ⟨dst, n⟩ ⟨src, n⟩) :
    m.memcpy dst src n = some (m.copied dst src n) := if_pos h

theorem ChangedIn.trans (h : ChangedIn m m' R) (h' : ChangedIn m' m'' R) : ChangedIn m m'' R :=
  fun a ha => (h' a ha).trans (h a ha)

theorem ChangedIn.mono (h : ChangedIn m m' R) (hin : R.Inside S) : ChangedIn m m' S :=
  fun a ha => h a fun hR => ha (hin.mem hR)

theorem ChangedIn.agreeOn (h : ChangedIn m m' R) (hapart : R.Apart S) : AgreeOn m' m S :=
  fun a ha => h a (Region.apart_iff.mp hapart.symm a ha)

theorem AgreeOn.trans (h : AgreeOn m m' R) (h' : AgreeOn m' m'' R) : AgreeOn m m'' R :=
  fun a ha => (h a ha).trans (h' a ha)

theorem storeWord_changedIn (m : ByteMemory) (a : Nat) (w : UInt64) :
    ChangedIn m (m.storeWord a w) ⟨a, 8⟩ := fun _ hb => if_neg hb

theorem copied_changedIn (m : ByteMemory) (dst src n : Nat) :
    ChangedIn m (m.copied dst src n) ⟨dst, n⟩ := fun _ hb => if_neg hb

theorem copied_alike (m : ByteMemory) (dst src n : Nat) :
    Alike (m.copied dst src n) m dst src n := by
  intro i hi
  rw [copied, if_pos (Region.add_mem hi), Nat.add_sub_cancel_left]

theorem AgreeOn.alike (h : AgreeOn m' m ⟨a, n⟩) : Alike m' m a a n :=
  fun _ hi => h _ (Region.add_mem hi)

theorem Alike.mono (h : Alike m m' a b n) (hk : k ≤ n) : Alike m m' a b k :=
  fun i hi => h i (Nat.lt_of_lt_of_le hi hk)

/-- `memcpy` of an array that is what it was in `m''`. -/
theorem Alike.trans (h : Alike m m' a b n) (h' : AgreeOn m' m'' ⟨b, n⟩) : Alike m m'' a b n :=
  fun i hi => (h i hi).trans (h'.alike i hi)

theorem Alike.after (ha : Alike m' m a b n) (h : AgreeOn m'' m' ⟨a, n⟩) : Alike m'' m a b n :=
  fun i hi => (h.alike i hi).trans (ha i hi)

theorem ChangedIn.alike (h : ChangedIn m' m'' R) (ha : Alike m' m a b n)
    (hapart : R.Apart ⟨a, n⟩) : Alike m'' m a b n := ha.after (h.agreeOn hapart)

theorem Alike.number (h : Alike m' m a b n) (ho : i + k ≤ n) :
    m'.number (a + i) k = m.number (b + i) k := by
  apply congrArg (Nat.ofDigits 256)
  apply congrArg List.ofFn
  funext j
  have hj := j.isLt
  rw [Nat.add_assoc, Nat.add_assoc, h (i + j) (by omega)]

theorem Alike.word (h : Alike m' m a b n) (ho : i + 8 ≤ n) :
    m'.word (a + i) = m.word (b + i) := by
  rw [ByteMemory.word, ByteMemory.word, h.number ho]

theorem Alike.words (h : Alike m' m a b (8 * n)) : m'.words a n = m.words b n := by
  apply congrArg List.ofFn
  funext i
  have hi := i.isLt
  apply h.word
  omega

theorem AgreeOn.word_eq (h : AgreeOn m' m ⟨a, 8⟩) : m'.word a = m.word a :=
  h.alike.word (i := 0) (Nat.le_refl 8)

@[simp] theorem word_storeWord (m : ByteMemory) (a : Nat) (w : UInt64) :
    (m.storeWord a w).word a = w := by
  have hbyte : ∀ b : Fin 8, (m.storeWord a w (a + b)).toNat = w.toNat / 256 ^ b.val % 256 := by
    intro b
    rw [storeWord, if_pos (Region.add_mem b.isLt), Nat.add_sub_cancel_left, Bytes.byteOf_toNat]
  rw [word, number, funext hbyte, Bytes.ofDigits_ofFn, Nat.mod_eq_of_lt (Bytes.word_lt w),
    UInt64.ofNat_toNat]

end ByteMemory

end Lib
