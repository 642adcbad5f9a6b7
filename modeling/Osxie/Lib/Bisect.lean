import Mathlib.Data.Nat.Basic

/-!
# Bisection

`bisect p n` looks for the end of the positions below `n` that satisfy `p`, by halving: it tests the middle of what is left, and
goes on behind it or before it. It always ends at a position that follows one with `p` and is followed by one without it; when
no position with `p` comes after one without, there is just one such position.
-/

namespace Osxie

/-- The loop: `len` positions from `first` on are left. -/
def bisectFrom (p : Nat → Bool) : Nat → Nat → Nat → Nat
  | 0, first, _ => first
  | n + 1, first, len =>
    if len = 0 then first
    else if p (first + len / 2) then bisectFrom p n (first + len / 2 + 1) (len - len / 2 - 1)
    else bisectFrom p n first (len / 2)

variable (p : Nat → Bool)

/-- Where the positions with `p` end. -/
def bisect (n : Nat) : Nat := bisectFrom p n 0 n

/-- The loop ends inside what was left, behind a position with `p` unless it did not move, and before one without unless it
came to the end. -/
theorem bisectFrom_spec : ∀ n first len, len ≤ n →
    first ≤ bisectFrom p n first len ∧ bisectFrom p n first len ≤ first + len ∧
    (first < bisectFrom p n first len → p (bisectFrom p n first len - 1) = true) ∧
    (bisectFrom p n first len < first + len → p (bisectFrom p n first len) = false) := by
  intro n
  induction n with
  | zero =>
    intro first len hlen
    simp only [bisectFrom]
    exact ⟨le_rfl, by omega, fun h => absurd h (Nat.lt_irrefl _), fun h => by omega⟩
  | succ n ih =>
    intro first len hlen
    unfold bisectFrom
    by_cases hz : len = 0
    · rw [if_pos hz]
      exact ⟨le_rfl, by omega, fun h => absurd h (Nat.lt_irrefl _), fun h => by omega⟩
    · rw [if_neg hz]
      cases hp : p (first + len / 2) with
      | true =>
        rw [if_pos rfl]
        obtain ⟨hge, hle, hbel, hbv⟩ := ih (first + len / 2 + 1) (len - len / 2 - 1) (by omega)
        refine ⟨by omega, by omega, fun _ => ?_, fun h => hbv (by omega)⟩
        -- it stayed behind the middle, or went on
        rcases Nat.eq_or_lt_of_le hge with he | hlt
        · rw [← he]
          exact hp
        · exact hbel hlt
      | false =>
        rw [if_neg (by decide)]
        obtain ⟨hge, hle, hbel, hbv⟩ := ih first (len / 2) (by omega)
        refine ⟨hge, by omega, hbel, fun _ => ?_⟩
        rcases Nat.eq_or_lt_of_le hle with he | hlt
        · rw [he]
          exact hp
        · exact hbv hlt

theorem bisect_le (n : Nat) : bisect p n ≤ n := by
  have := (bisectFrom_spec p n 0 n le_rfl).2.1
  rwa [Nat.zero_add] at this

/-- Before the end found there is a position with `p`. -/
theorem bisect_before {p : Nat → Bool} {n : Nat} (h : 0 < bisect p n) : p (bisect p n - 1) = true :=
  (bisectFrom_spec p n 0 n le_rfl).2.2.1 h

/-- At the end found there is none. -/
theorem bisect_at {p : Nat → Bool} {n : Nat} (h : bisect p n < n) : p (bisect p n) = false :=
  (bisectFrom_spec p n 0 n le_rfl).2.2.2 (by rwa [Nat.zero_add])

end Osxie
