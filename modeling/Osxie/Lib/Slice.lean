import Mathlib.Algebra.Order.Ring.Int
import Mathlib.Data.List.Basic

/-!
# Slices of concatenations

A slice of a list is what is left of it from a position on, up to a length. Reading a list piece by piece puts slices together
(`slice_add`); a piece that lies inside one of the lists a concatenation is made of is a slice of that one (`slice_flatMap`).
-/

namespace Osxie

open List Option

variable {α β : Type}

def slice (l : List α) (offset count : Nat) : List α := (l.drop offset).take count

@[simp]
theorem slice_zero (l : List α) (offset : Nat) : slice l offset 0 = [] := take_zero

variable {l : List α} (g : Nat → α) (offset count : Nat)

theorem length_slice {offset count : Nat} (h : offset + count ≤ l.length) : (slice l offset count).length = count := by
  rw [slice, length_take, length_drop]
  omega

/-- A slice goes on where another one ends. -/
theorem slice_add (l : List α) (offset m n : Nat) : slice l offset (m + n) = slice l offset m ++ slice l (offset + m) n := by
  rw [slice, take_add, drop_drop]
  rfl

/-- A slice of a slice. -/
theorem slice_slice {a m b n : Nat} (h : b + n ≤ m) : slice (slice l a m) b n = slice l (a + b) n := by
  rw [slice, slice, drop_take, drop_drop, take_take, Nat.min_eq_left (by omega)]
  rfl

/-- A slice inside the second of two lists. -/
theorem slice_append_right (l l' : List α) (offset count : Nat) :
    slice (l ++ l') (l.length + offset) count = slice l' offset count := by
  rw [slice, drop_append, drop_eq_nil_of_le (by omega), Nat.add_sub_cancel_left]
  rfl

/-- A slice inside the first of two lists. -/
theorem slice_append_left {offset count : Nat} (h : offset + count ≤ l.length) (l' : List α) :
    slice (l ++ l') offset count = slice l offset count := by
  rw [slice, drop_append_of_le_length (by omega), take_append_of_le_length (by rw [length_drop]; omega)]
  rfl

/-- A slice inside one of the lists of a concatenation. -/
theorem slice_flatMap {f : α → List β} {k : Nat} {x : α} (hx : l[k]? = some x) (offset count : Nat)
    (h : offset + count ≤ (f x).length) :
    slice (l.flatMap f) (((l.take k).flatMap f).length + offset) count = slice (f x) offset count := by
  obtain ⟨hk, rfl⟩ := List.getElem?_eq_some_iff.1 hx
  have hsplit : l.flatMap f = (l.take k).flatMap f ++ (f l[k] ++ (l.drop (k + 1)).flatMap f) := by
    conv_lhs => rw [← take_append_drop k l, drop_eq_getElem_cons hk, flatMap_append, flatMap_cons]
  rw [hsplit, slice_append_right, slice_append_left h]

/-- The values of a function from a position on, so many. -/
def span : List α := (range' offset count).map g

@[simp]
theorem length_span : (span g offset count).length = count := by
  simp [span]

theorem slice_span {a m b n : Nat} (h : b + n ≤ m) : slice (span g a m) b n = span g (a + b) n := by
  rw [slice, span, ← map_drop, ← map_take, drop_range', Nat.mul_one, take_range'_of_length_ge (by omega)]
  rfl

end Osxie
