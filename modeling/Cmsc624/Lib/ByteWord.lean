import Mathlib.Data.Nat.Digits.Defs
import Mathlib.Data.UInt

/-!
# 64-bit words in byte arrays

Little-endian loads and stores at any offset. An array is determined by the words at
some places and the bytes outside of them.
-/

namespace Lib

abbrev Bytes (n : Nat) := Fin n → UInt8

namespace Bytes
variable {n o o' : Nat} {r r' : Bytes n}

/-- Byte number `b` of the representation of `w`, the least significant one first. -/
def byteOf (w : UInt64) (b : Nat) : UInt8 := UInt8.ofNat (w.toNat / 256 ^ b)

/-- The numbers in the eight bytes from `o` on. -/
def digitsAt (r : Bytes n) (o : Nat) (h : o + 8 ≤ n) : List Nat :=
  List.ofFn fun b : Fin 8 => (r ⟨o + b, by omega⟩).toNat

def load (r : Bytes n) (o : Nat) (h : o + 8 ≤ n) : UInt64 :=
  UInt64.ofNat (Nat.ofDigits 256 (r.digitsAt o h))

/-- The array with `w` written at byte `o`. -/
def store (r : Bytes n) (o : Nat) (w : UInt64) : Bytes n := fun i =>
  if o ≤ i.val ∧ i.val < o + 8 then byteOf w (i.val - o) else r i

theorem store_outside {i : Fin n} (h : ¬(o ≤ i.val ∧ i.val < o + 8)) (w : UInt64) :
    r.store o w i = r i := if_neg h

theorem store_inside {i : Fin n} (h : o ≤ i.val ∧ i.val < o + 8) (w : UInt64) :
    r.store o w i = byteOf w (i.val - o) := if_pos h

theorem byteOf_toNat (w : UInt64) (b : Nat) : (byteOf w b).toNat = w.toNat / 256 ^ b % 256 := by
  rw [byteOf, UInt8.toNat_ofNat']

theorem ofDigits_ofFn (m k : Nat) :
    Nat.ofDigits 256 (List.ofFn fun b : Fin k => m / 256 ^ b.val % 256) = m % 256 ^ k := by
  induction k with
  | zero => simp [Nat.mod_one]
  | succ k ih =>
    rw [List.ofFn_succ', List.concat_eq_append, Nat.ofDigits_append, Nat.ofDigits_singleton,
      List.length_ofFn, Nat.mod_pow_succ]
    simp only [Fin.val_castSucc, Fin.val_last]
    rw [ih]

theorem word_lt (w : UInt64) : w.toNat < 256 ^ 8 := by
  have h := w.toNat_lt
  omega

theorem load_store_self (h : o + 8 ≤ n) (w : UInt64) : (r.store o w).load o h = w := by
  have hdigits : (r.store o w).digitsAt o h =
      List.ofFn fun b : Fin 8 => w.toNat / 256 ^ b.val % 256 := by
    apply congrArg List.ofFn
    funext b
    rw [store_inside ⟨by simp, by simp⟩, byteOf_toNat]
    simp
  rw [load, hdigits, ofDigits_ofFn, Nat.mod_eq_of_lt (word_lt w), UInt64.ofNat_toNat]

theorem load_congr (h : o + 8 ≤ n) (heq : ∀ i : Fin n, o ≤ i.val → i.val < o + 8 → r i = r' i) :
    r.load o h = r'.load o h := by
  have hdigits : r.digitsAt o h = r'.digitsAt o h := by
    apply congrArg List.ofFn
    funext b
    rw [heq ⟨o + b, by omega⟩ (by simp) (by simp)]
  rw [load, load, hdigits]

theorem load_store_of_disjoint (h : o + 8 ≤ n) (hd : o + 8 ≤ o' ∨ o' + 8 ≤ o) (w : UInt64) :
    (r.store o' w).load o h = r.load o h := by
  apply load_congr h
  intro i hi hi'
  apply store_outside
  omega

theorem eq_of_load (h : o + 8 ≤ n) (heq : r.load o h = r'.load o h) {i : Fin n} (hi : o ≤ i.val)
    (hi' : i.val < o + 8) : r i = r' i := by
  have hbound : ∀ q : Bytes n, ∀ d ∈ q.digitsAt o h, d < 256 := by
    intro q d hd
    obtain ⟨b, rfl⟩ := List.mem_ofFn.mp hd
    exact UInt8.toNat_lt _
  have hlength : ∀ q : Bytes n, (q.digitsAt o h).length = 8 := fun q => List.length_ofFn
  have hsmall : ∀ q : Bytes n, Nat.ofDigits 256 (q.digitsAt o h) < 2 ^ 64 := by
    intro q
    have hlt := Nat.ofDigits_lt_base_pow_length (by decide : 1 < 256) (hbound q)
    rw [hlength q] at hlt
    omega
  have hnat : Nat.ofDigits 256 (r.digitsAt o h) = Nat.ofDigits 256 (r'.digitsAt o h) := by
    have hto := congrArg UInt64.toNat heq
    rwa [load, load, UInt64.toNat_ofNat_of_lt' (hsmall r), UInt64.toNat_ofNat_of_lt' (hsmall r')]
      at hto
  have hdigits := Nat.ofDigits_inj_of_len_eq (by decide : 1 < 256)
    ((hlength r).trans (hlength r').symm) (hbound r) (hbound r') hnat
  have hbyte := congrFun (List.ofFn_injective hdigits) ⟨i.val - o, by omega⟩
  have hi₀ : (⟨o + (i.val - o), by omega⟩ : Fin n) = i := Fin.ext (by simp; omega)
  rw [hi₀] at hbyte
  exact UInt8.toNat_inj.mp hbyte

end Bytes

end Lib
