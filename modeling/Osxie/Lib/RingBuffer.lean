import Mathlib.Data.List.Range

/-!
# Ring buffers

A buffer of `n` slots with the positions of the next element to read and of the next slot to write. It is empty when the two are
the same, so one slot is always free. `contents` are the elements between them, the oldest one first. To write the free slot
changes nothing of them; `push` then appends what is in that slot, and `pop` removes the first one.
-/

namespace Osxie

open List Option Nat

structure RingBuffer (α : Type) (n : Nat) where
  slots : Nat → α
  head : Nat
  tail : Nat
  head_lt : head < n
  tail_lt : tail < n

namespace RingBuffer

variable {α : Type} {n : Nat}

def new (slots : Nat → α) (h : 0 < n) : RingBuffer α n := ⟨slots, 0, 0, h, h⟩

variable (r : RingBuffer α n)

def Empty : Prop := r.head = r.tail

def Full : Prop := (r.tail + 1) % n = r.head

instance : Decidable r.Empty := inferInstanceAs (Decidable (_ = _))

instance : Decidable r.Full := inferInstanceAs (Decidable (_ = _))

def front : α := r.slots r.head

def write (a : α) : RingBuffer α n := { r with slots := Function.update r.slots r.tail a }

/-- The element in the next slot is put in the ring. -/
def push : RingBuffer α n where
  slots := r.slots
  head := r.head
  tail := (r.tail + 1) % n
  head_lt := r.head_lt
  tail_lt := mod_lt _ (zero_lt_of_lt r.head_lt)

def pop : RingBuffer α n where
  slots := r.slots
  head := (r.head + 1) % n
  tail := r.tail
  head_lt := mod_lt _ (zero_lt_of_lt r.head_lt)
  tail_lt := r.tail_lt

/-- How far a position is from another one, going up and around. -/
def distance (n i j : Nat) : Nat := if i ≤ j then j - i else j + n - i

def length : Nat := distance n r.head r.tail

def contents : List α := (range r.length).map fun k => r.slots ((r.head + k) % n)

/-- The position after a position. -/
theorem succ_mod_eq {i : Nat} (h : i < n) : (i + 1) % n = if i + 1 = n then 0 else i + 1 := by
  split
  · rename_i heq
    rw [heq, mod_self]
  · exact mod_eq_of_lt (by omega)

/-- A position counted from another one. -/
theorem add_mod_eq {i k : Nat} (hi : i < n) (hk : k < n) : (i + k) % n = if i + k < n then i + k else i + k - n := by
  split
  · rename_i hlt
    exact mod_eq_of_lt hlt
  · rw [mod_eq_sub_mod (by omega), mod_eq_of_lt (by omega)]

variable (r : RingBuffer α n)

theorem length_lt : r.length < n := by
  have := r.tail_lt
  unfold length distance
  split <;> omega

theorem length_contents : r.contents.length = r.length := by rw [contents, length_map, length_range]

theorem empty_iff : r.Empty ↔ r.contents = [] := by
  rw [← length_eq_zero_iff, length_contents]
  have := r.head_lt
  unfold Empty length distance
  split <;> omega

theorem full_iff : r.Full ↔ r.contents.length + 1 = n := by
  rw [length_contents]
  have := r.head_lt
  have := r.tail_lt
  unfold Full length distance
  rw [succ_mod_eq r.tail_lt]
  split <;> split <;> omega

variable {r}

theorem contents_write (r : RingBuffer α n) (a : α) : (r.write a).contents = r.contents := by
  have hhd := r.head_lt
  have hoth : ∀ k < r.length, (r.head + k) % n ≠ r.tail := by
    intro k hk
    have hlt := lt_trans hk r.length_lt
    rw [add_mod_eq hhd hlt]
    unfold length distance at hk
    split at hk <;> split <;> omega
  apply map_congr_left
  intro k hk
  exact Function.update_of_ne (hoth k (mem_range.1 hk)) a r.slots

theorem contents_push (h : ¬r.Full) : r.push.contents = r.contents ++ [r.slots r.tail] := by
  have hhd := r.head_lt
  have htl := r.tail_lt
  have hlen : r.push.length = r.length + 1 := by
    unfold Full at h
    rw [succ_mod_eq htl] at h
    show distance n r.head ((r.tail + 1) % n) = distance n r.head r.tail + 1
    rw [succ_mod_eq htl]
    unfold distance
    split at h <;> split_ifs <;> omega
  have hla : (r.head + r.length) % n = r.tail := by
    rw [add_mod_eq hhd r.length_lt]
    unfold length distance
    split <;> split <;> omega
  unfold contents
  rw [hlen, range_succ, map_append]
  congr 1
  show [r.slots ((r.head + r.length) % n)] = [r.slots r.tail]
  rw [hla]

theorem contents_pop (h : ¬r.Empty) : r.contents = r.front :: r.pop.contents := by
  have hhd := r.head_lt
  have htl := r.tail_lt
  have hlen : r.length = r.pop.length + 1 := by
    unfold Empty at h
    show distance n r.head r.tail = distance n ((r.head + 1) % n) r.tail + 1
    rw [succ_mod_eq hhd]
    unfold distance
    split <;> split <;> split <;> omega
  unfold contents
  rw [hlen, List.range_succ_eq_map, List.map_cons, List.map_map]
  congr 1
  · rw [Nat.add_zero, Nat.mod_eq_of_lt hhd]
    rfl
  · apply map_congr_left
    intro k _
    show r.slots ((r.head + (k + 1)) % n) = r.slots (((r.head + 1) % n + k) % n)
    rw [mod_add_mod]
    congr 2
    omega

end RingBuffer

end Osxie
