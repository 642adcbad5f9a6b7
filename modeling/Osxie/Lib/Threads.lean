import Mathlib.Algebra.BigOperators.Group.Finset.Piecewise
import Mathlib.Data.Fintype.Basic

/-!
# Threads that share a word

Any number of threads share one word of memory, and each of them is at some place in its program. A step of a thread changes
the word and its own place (`set`); the other threads stay where they are (`pc_set_cases`, `exists_set`). A thread that sleeps
does not step; it is moved on by another one, which wakes one sleeper (`move`) or all of them (`moveAll`).
-/

namespace Osxie

open Finset

/-- A word, and where each thread is. -/
structure Threads (τ ω π : Type) where
  word : ω
  pc : τ → π

namespace Threads

variable {τ ω π : Type} [DecidableEq τ] {s : Threads τ ω π}

def set (s : Threads τ ω π) (t : τ) (access : ω × π) : Threads τ ω π := ⟨access.1, Function.update s.pc t access.2⟩

def move (s : Threads τ ω π) (t : τ) (p : π) : Threads τ ω π := s.set t (s.word, p)

def moveAll (s : Threads τ ω π) (f : π → π) : Threads τ ω π := ⟨s.word, fun t => f (s.pc t)⟩

@[simp]
theorem word_set (t : τ) (a : ω × π) : (s.set t a).word = a.1 := rfl

omit [DecidableEq τ] in
@[simp]
theorem pc_moveAll (f : π → π) (t : τ) : (s.moveAll f).pc t = f (s.pc t) := rfl

@[simp]
theorem pc_set_self (t : τ) (a : ω × π) : (s.set t a).pc t = a.2 := Function.update_self ..

variable {t : τ} {a : ω × π}

theorem pc_set_of_ne {u : τ} (h : u ≠ t) (a : ω × π) : (s.set t a).pc u = s.pc u := Function.update_of_ne h ..

/-- Where a thread is after a step: it is the one that stepped, or where it was. -/
theorem pc_set_cases (s : Threads τ ω π) (t : τ) (a : ω × π) (u : τ) :
    u = t ∧ (s.set t a).pc u = a.2 ∨ u ≠ t ∧ (s.set t a).pc u = s.pc u := by
  by_cases h : u = t
  · subst h
    exact .inl ⟨rfl, pc_set_self ..⟩
  · exact .inr ⟨h, pc_set_of_ne h a⟩

/-- What holds of all threads after a step: of the one that stepped where it is now, of the others where they were. -/
theorem forall_set (s : Threads τ ω π) (P : τ → π → Prop) (ht : P t a.2) (h : ∀ u ≠ t, P u (s.pc u)) (u : τ) :
    P u ((s.set t a).pc u) :=
  (Function.forall_update_iff _ _).2 ⟨ht, h⟩ u

/-- A move between other places than `r` does not concern who is at `r`. -/
theorem pc_move_iff {u : τ} {p q r : π} (ht : s.pc t = p) (hp : p ≠ r) (hq : q ≠ r) : (s.move t q).pc u = r ↔ s.pc u = r :=
  s.forall_set (fun u p => p = r ↔ s.pc u = r) (iff_of_false hq (ht ▸ hp)) (fun _ _ => .rfl) u

/-- At most one thread has a property, as before, if no other had it when the one that stepped comes to have it. -/
theorem one_set {P : π → Prop} (h : ∀ u v, P (s.pc u) → P (s.pc v) → u = v) (ht : P a.2 → ∀ u, P (s.pc u) → u = t) (u v : τ)
    (hu : P ((s.set t a).pc u)) (hv : P ((s.set t a).pc v)) : u = v := by
  have hbef := s.forall_set (fun u p => P p → u = t ∧ P a.2 ∨ P (s.pc u)) (fun hp => .inl ⟨rfl, hp⟩)
    fun u _ hp => .inr hp
  rcases hbef u hu with ⟨rfl, hp⟩ | hu
  · exact (hbef v hv).elim (fun hv => hv.1.symm) fun hv => (ht hp v hv).symm
  · exact (hbef v hv).elim (fun hv => hv.1 ▸ ht hv.2 u hu) (h u v hu)

/-- What holds of some thread before a step holds of some thread after it, if it is not lost by the one that stepped. -/
theorem exists_set {P : π → Prop} (h : ∃ u, P (s.pc u)) (ht : P (s.pc t) → P a.2) : ∃ u, P ((s.set t a).pc u) := by
  obtain ⟨u, hu⟩ := h
  rcases s.pc_set_cases t a u with ⟨rfl, hpc⟩ | ⟨-, hpc⟩
  · exact ⟨u, by rw [hpc]; exact ht hu⟩
  · exact ⟨u, by rwa [hpc]⟩

/-- What holds of some thread after a step holds of the one that stepped, or held of some thread before. -/
theorem exists_of_set {P : π → Prop} (h : ∃ u, P ((s.set t a).pc u)) : P a.2 ∨ ∃ u, P (s.pc u) := by
  obtain ⟨u, hu⟩ := h
  rcases s.pc_set_cases t a u with ⟨rfl, hpc⟩ | ⟨-, hpc⟩
  · exact .inl (hpc ▸ hu)
  · exact .inr ⟨u, hpc ▸ hu⟩

/-! ## Counting -/

variable [Fintype τ]

/-- How many threads are at a place with a property. -/
def count (s : Threads τ ω π) (P : π → Bool) : Nat := (univ.filter fun t => P (s.pc t)).card

/-- A step changes a sum over the threads by what it changes for the thread that stepped. -/
theorem sum_set (s : Threads τ ω π) (t : τ) (a : ω × π) (f : π → Nat) :
    ∑ u, f ((s.set t a).pc u) + f (s.pc t) = ∑ u, f (s.pc u) + f a.2 := by
  have hrs : ∑ u ∈ univ.erase t, f ((s.set t a).pc u) = ∑ u ∈ univ.erase t, f (s.pc u) := by
    refine sum_congr rfl fun u hu => ?_
    rw [pc_set_of_ne (ne_of_mem_erase hu)]
  rw [← add_sum_erase _ (fun u => f ((s.set t a).pc u)) (mem_univ t),
    ← add_sum_erase _ (fun u => f (s.pc u)) (mem_univ t), pc_set_self]
  omega

omit [DecidableEq τ] in
theorem count_eq_sum (s : Threads τ ω π) (P : π → Bool) : s.count P = ∑ u, (P (s.pc u)).toNat := by
  rw [count, card_filter]
  refine sum_congr rfl fun u _ => ?_
  cases P (s.pc u) <;> rfl

/-- A step changes the count by what it changes for the thread that stepped. -/
theorem count_set (s : Threads τ ω π) (t : τ) (a : ω × π) (P : π → Bool) :
    (s.set t a).count P + (P (s.pc t)).toNat = s.count P + (P a.2).toNat := by
  rw [count_eq_sum, count_eq_sum]
  exact s.sum_set t a fun p => (P p).toNat

omit [DecidableEq τ] in
/-- A property that no thread comes to have holds of no more threads. -/
theorem count_mono {s' : Threads τ ω π} {P P' : π → Bool} (h : ∀ t, P' (s'.pc t) → P (s.pc t)) : s'.count P' ≤ s.count P := by
  refine card_le_card fun t ht => ?_
  rw [mem_filter] at ht ⊢
  exact ⟨ht.1, h t ht.2⟩

omit [DecidableEq τ] in
/-- Moves that do not change the property do not change the count. -/
theorem count_congr {s' : Threads τ ω π} {P : π → Bool} (h : ∀ t, P (s'.pc t) = P (s.pc t)) : s'.count P = s.count P := by
  unfold count
  simp only [h]

omit [DecidableEq τ] in
theorem count_eq_zero {P : π → Bool} : s.count P = 0 ↔ ∀ t, P (s.pc t) = false := by
  simp [count, filter_eq_empty_iff]

end Threads

end Osxie
