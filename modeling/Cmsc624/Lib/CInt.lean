import Mathlib.Algebra.Group.Int.Defs

/-!
# The C integer conversions

Values of `int` and of the 64-bit types are mathematical integers; a conversion to a
narrower type is the two's complement one, and arithmetic that leaves `int` has no
defined behaviour.
-/

namespace Lib.CInt

def intMax : Int := 2 ^ 31 - 1

/-- `n + 1` computed on `int`; `none` when it overflows. -/
def succ (n : Int) : Option Int := if n < intMax then some (n + 1) else none

/-- Conversion of a 64-bit value to `int`. -/
def toInt (n : Int) : Int := (n + 2 ^ 31) % 2 ^ 32 - 2 ^ 31

/-- Conversion of an `int` to `uint64_t`. -/
def toUInt64 (n : Int) : Nat := (n % 2 ^ 64).toNat

theorem succ_eq_some {n m : Int} : succ n = some m ↔ n < intMax ∧ m = n + 1 := by
  unfold succ
  split
  · simp_all [eq_comm]
  · rename_i hge
    simp [hge]

theorem toInt_of_le {n : Int} (h₀ : 0 ≤ n) (h : n ≤ intMax) : toInt n = n := by
  unfold toInt
  unfold intMax at h
  omega

theorem toInt_le {n : Int} (h₀ : 0 ≤ n) : toInt n ≤ n := by
  unfold toInt
  omega

theorem toUInt64_of_le {n : Int} (h₀ : 0 ≤ n) (h : n ≤ intMax) : (toUInt64 n : Int) = n := by
  unfold toUInt64
  unfold intMax at h
  omega

end Lib.CInt
