import Mathlib.Algebra.Order.Ring.Int

/-!
# Ticks and fixed-point numbers

`Microseconds` adds whole seconds to the microseconds of the current second. `Frac2Fix` multiplies by 2^14 where it has to divide.
-/

namespace Osxie.Carbon

/-- `Microseconds` at a clock of `time` nanoseconds. -/
def microseconds (time : Nat) : Nat :=
  let tickCount := time / 1000000000
  let time := time - tickCount * 1000000000
  tickCount + time / 1000

theorem microseconds_eq (t : Nat) : microseconds t = t / 1000000000 + t % 1000000000 / 1000 := by
  simp only [microseconds]
  omega

/-- The tick count is the number of microseconds in the first second only, and it grows with the clock there only. -/
theorem microseconds_right_iff (t bound : Nat) : (microseconds t = t / 1000 ↔ t < 1000000000) ∧
    ((∀ t₁ t₂, t₁ ≤ t₂ → t₂ < bound → microseconds t₁ ≤ microseconds t₂) ↔ bound ≤ 1000000000) := by
  simp only [microseconds_eq]
  refine ⟨by omega, fun h => ?_, by omega⟩
  by_contra hbound
  exact absurd (h 999999999 1000000000 (by decide) (by omega)) (by decide)

/-- The microseconds go back from one tick to the next. -/
theorem microseconds_decrease : microseconds 1000000000 < microseconds 999999999 := by decide

/-- `int32_t(t)`. -/
def int32 (t : Int) : Int := t.bmod (2 ^ 32)

/-- `checkNumberBounds`. The source compares as `float`, which rounds no multiple of 2^14 across a bound. -/
def checkNumberBounds (t : Int) : Int :=
  if t < -2 ^ 31 then -2 ^ 31 else if t > 2 ^ 31 then 2 ^ 31 - 1 else int32 t

def fix2Frac (f : Int) : Int := int32 (f * 2 ^ 14)

def fix2Long (f : Int) : Int := f / 2 ^ 16

def long2Fix (v : Int) : Int := checkNumberBounds (v * 0x10000)

/-- `Frac2Fix`. The product is an `int`: `none` where it overflows, which is undefined. -/
def frac2Fix (f : Int) : Option Int :=
  if int32 (f * 0x4000) = f * 0x4000 then checkNumberBounds (f * 0x4000) else none

theorem int32_eq_self_iff {t : Int} : int32 t = t ↔ -2 ^ 31 ≤ t ∧ t < 2 ^ 31 := by
  rw [int32, Int.bmod_def]
  omega

theorem frac2Fix_eq_some_iff {f y : Int} : frac2Fix f = some y ↔ int32 (f * 0x4000) = f * 0x4000 ∧ y = f * 0x4000 := by
  unfold frac2Fix checkNumberBounds
  split
  · rename_i h
    have := int32_eq_self_iff.mp h
    rw [if_neg (by omega), if_neg (by omega), h]
    simp [eq_comm]
  · simp_all

/-- `Fix2Frac` and `Frac2Fix` are right for zero only, and `Long2Fix` for every number but 32768. -/
theorem conversions_right_iff (x f v : Int) :
    (-0x20000 ≤ x → x < 0x20000 → (frac2Fix (fix2Frac x) = some x ↔ x = 0)) ∧
      ((∃ y, frac2Fix f = some y ∧ (y * 0x4000 - f).natAbs ≤ 0x4000) ↔ f = 0) ∧
      ((if -32768 ≤ v ∧ v ≤ 32767 then fix2Long (long2Fix v) = v
        else long2Fix v = if 0 < v then 2 ^ 31 - 1 else -2 ^ 31) ↔ v ≠ 32768) := by
  refine ⟨?_, ?_, ?_⟩
  · intro hle hlt
    rw [fix2Frac, int32_eq_self_iff.mpr (by omega), frac2Fix_eq_some_iff, int32_eq_self_iff]
    omega
  · simp only [frac2Fix_eq_some_iff, int32_eq_self_iff]
    constructor
    · rintro ⟨y, h, hle⟩
      omega
    · rintro rfl
      exact ⟨0, by decide⟩
  · unfold fix2Long long2Fix checkNumberBounds
    split
    · rw [if_neg (by omega), int32_eq_self_iff.mpr (by omega)]
      omega
    · rw [int32, Int.bmod_def]
      omega

/-- One comes back as 2^28, and 2^15 becomes negative. -/
theorem frac2Fix_not_inverse : frac2Fix (fix2Frac 1) = some 0x10000000 ∧ long2Fix 32768 = -2 ^ 31 := by decide

end Osxie.Carbon
