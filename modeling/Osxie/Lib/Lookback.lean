import Mathlib.Algebra.Order.Ring.Int
import Mathlib.Data.List.Basic

/-!
# Copies from behind

A dictionary coder repeats what it has produced: it appends elements, each of them the one that lies a fixed distance behind the
end at that moment, so that a copy may repeat elements it has just appended. `copyBack` is such a copy; it is none when there is
no element so far behind.
-/

namespace Osxie

open List Option

variable {α : Type}

/-- The element that lies `distance` before the last one. -/
def lookback (w : List α) (distance : Nat) : Option α := w.reverse[distance]?

/-- Appends `n` elements from behind, one after the other. -/
def copyBack (distance : Nat) : Nat → List α → Option (List α)
  | 0, w => some w
  | n + 1, w => (lookback w distance).bind fun a => copyBack distance n (w ++ [a])

variable {distance : Nat} {w : List α}

theorem lookback_append (h : distance < w.length) (pre : List α) : lookback (pre ++ w) distance = lookback w distance := by
  unfold lookback
  rw [reverse_append, getElem?_append_left (by rwa [length_reverse])]

theorem exists_lookback (h : distance < w.length) : ∃ a, lookback w distance = some a :=
  ⟨_, getElem?_eq_getElem (by rwa [length_reverse])⟩

theorem lt_of_lookback {a : α} (h : lookback w distance = some a) : distance < w.length := by
  obtain ⟨hlt, _⟩ := List.getElem?_eq_some_iff.1 h
  rwa [length_reverse] at hlt

/-- A copy keeps what was there, and is as long as it should be. -/
theorem copyBack_eq_some {distance n : Nat} {w w' : List α} (h : copyBack distance n w = some w') :
    w <+: w' ∧ w'.length = w.length + n := by
  induction n generalizing w with
  | zero =>
    cases h
    exact ⟨prefix_rfl, rfl⟩
  | succ n ih =>
    obtain ⟨a, _, hcopy⟩ := bind_eq_some_iff.1 h
    obtain ⟨hpre, hlen⟩ := ih hcopy
    refine ⟨(prefix_append w [a]).trans hpre, ?_⟩
    rw [hlen, length_append, length_singleton]
    omega

/-- What lies further back than the distance does not matter. -/
theorem copyBack_append (n : Nat) (h : distance < w.length) (pre : List α) :
    copyBack distance n (pre ++ w) = (copyBack distance n w).map (pre ++ ·) := by
  induction n generalizing w with
  | zero => rfl
  | succ n ih =>
    obtain ⟨a, ha⟩ := exists_lookback h
    have hlt : distance < (w ++ [a]).length := by
      rw [length_append]
      omega
    simp only [copyBack, lookback_append h, ha, bind_some, append_assoc]
    exact ih hlt

/-- A copy of the last element. -/
theorem copyBack_zero (n : Nat) {a : α} (h : lookback w 0 = some a) : copyBack 0 n w = some (w ++ replicate n a) := by
  induction n generalizing w with
  | zero => rw [copyBack, replicate_zero, append_nil]
  | succ n ih =>
    have hla : lookback (w ++ [a]) 0 = some a := by simp [lookback]
    rw [copyBack, h, bind_some, ih hla, append_assoc, replicate_succ, singleton_append]

end Osxie
