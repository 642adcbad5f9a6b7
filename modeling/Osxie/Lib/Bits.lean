import Mathlib.Algebra.Order.Ring.Nat
import Mathlib.Data.Nat.Bits

/-!
# Bits of natural numbers

What a mask leaves of a number, as arithmetic.
-/

namespace Osxie

open Nat

/-- Some bits in the middle. -/
theorem and_mask (v k n : Nat) : v &&& (2 ^ n - 1) * 2 ^ k = v / 2 ^ k % 2 ^ n * 2 ^ k := by
  rw [← shiftRight_eq_div_pow, ← shiftLeft_eq, ← shiftLeft_eq]
  refine eq_of_testBit_eq fun i => ?_
  simp only [testBit_and, testBit_shiftLeft, testBit_two_pow_sub_one, testBit_mod_two_pow, testBit_shiftRight]
  by_cases h : k ≤ i
  · rw [Nat.add_sub_cancel' h]
    cases v.testBit i <;> simp
  · simp [h]

/-- A number of `w` bits without the lowest ones. -/
theorem and_two_pow_sub {v w k : Nat} (hv : v < 2 ^ w) (hk : k ≤ w) : v &&& (2 ^ w - 2 ^ k) = v / 2 ^ k * 2 ^ k := by
  have hmask : 2 ^ w - 2 ^ k = (2 ^ (w - k) - 1) * 2 ^ k := by
    rw [Nat.sub_mul, ← Nat.pow_add, Nat.sub_add_cancel hk, Nat.one_mul]
  have hdiv : v / 2 ^ k < 2 ^ (w - k) := by
    rw [Nat.div_lt_iff_lt_mul (Nat.two_pow_pos k), ← Nat.pow_add, Nat.sub_add_cancel hk]
    exact hv
  rw [hmask, and_mask, mod_eq_of_lt hdiv]

end Osxie
