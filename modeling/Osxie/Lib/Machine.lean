import Mathlib.Algebra.Order.Ring.Int
import Mathlib.Data.List.Basic

/-!
# Machines that take steps

A machine is an initial state and a partial step: `step s a` is the state after the action `a`, and none when the action cannot
be taken in `s`. An interleaving of several parties is a list of actions, each naming the party that moves.

`Reaches ok s` says that `s` is reached from the initial state by steps that each meet the condition `ok` in the state before
the step; `Reachable s` puts no condition. What holds initially, and is kept by every step that meets the condition, holds of
every state reached (`Reaches.invariant`). `exists_reaches_of_runOk` turns the evaluation of a concrete list of actions into a
state reached.
-/

namespace Osxie

open Option

universe u v

/-- A machine: where it starts, and the state after an action that can be taken. -/
structure Machine (σ : Type u) (α : Type v) where
  init : σ
  step : σ → α → Option σ

/-- A step with a guard was taken: the guard holds, and this is the state after it. -/
theorem of_guarded {σ : Type*} {p : Prop} [Decidable p] {x s : σ} (h : (if p then some x else none) = some s) : p ∧ x = s := by
  rw [ite_none_right_eq_some] at h
  exact ⟨h.1, some.inj h.2⟩

namespace Machine

variable {σ : Type u} {α : Type v} (M : Machine σ α)

/-- The states reached from the initial state by steps that each meet `ok` in the state before the step. -/
inductive Reaches (ok : σ → α → Prop) : σ → Prop where
  | init : Reaches ok M.init
  | step {s s' : σ} (a : α) : Reaches ok s → ok s a → M.step s a = some s' → Reaches ok s'

def Reachable (s : σ) : Prop := M.Reaches (fun _ _ => True) s

/-- The state after a list of actions, when each of them can be taken and meets `ok`. -/
def runOk (ok : σ → α → Prop) [∀ s a, Decidable (ok s a)] : σ → List α → Option σ
  | s, [] => some s
  | s, a :: as => if ok s a then (M.step s a).bind (fun s' => runOk ok s' as) else none

/-- The state after a list of actions, when each of them can be taken. -/
def run : σ → List α → Option σ := M.runOk (fun _ _ => True)

variable {M}

variable {ok : σ → α → Prop} {as : List α} {P : σ → Prop}

/-- The invariant rule: what holds initially and is kept by every step that meets the condition holds of every state reached. -/
theorem Reaches.invariant {I : σ → Prop} (h0 : I M.init) (hst : ∀ {s a s'}, I s → ok s a → M.step s a = some s' → I s')
    {s : σ} (h : M.Reaches ok s) : I s := by
  induction h with
  | init => exact h0
  | step a _ hok hs ih => exact hst ih hok hs

/-- A list of actions that runs from a state reached ends in a state reached. -/
theorem Reaches.runOk [∀ s a, Decidable (ok s a)] :
    ∀ {as : List α} {s s' : σ}, M.Reaches ok s → M.runOk ok s as = some s' → M.Reaches ok s'
  | [], s, s', hs, h => by
    simp only [Machine.runOk, some.injEq] at h
    exact h ▸ hs
  | a :: as, s, s', hs, h => by
    simp only [Machine.runOk] at h
    split at h
    · rename_i hok
      obtain ⟨s₁, h₁, h₂⟩ := bind_eq_some_iff.1 h
      exact Reaches.runOk (.step a hs hok h₁) h₂
    · cases h

/-- A run takes its first action, and goes on. -/
theorem run_cons {a : α} {s s' : σ} (h : M.step s a = some s') : M.run s (a :: as) = M.run s' as := by
  simp [Machine.run, Machine.runOk, h]

/-- A run that goes on from where another one ends. -/
theorem run_append {as bs : List α} {s s' s'' : σ} (h : M.run s as = some s') (h' : M.run s' bs = some s'') :
    M.run s (as ++ bs) = some s'' := by
  induction as generalizing s with
  | nil =>
    cases h
    exact h'
  | cons a as ih =>
    obtain ⟨s₁, h₁, h₂⟩ := bind_eq_some_iff.1 h
    rw [List.cons_append, run_cons h₁]
    exact ih h₂

/-- What the steps of a run keep holds at its end. -/
theorem run_keeps {s s' : σ} (hst : ∀ {s a s'}, a ∈ as → P s → M.step s a = some s' → P s') (hs : P s)
    (h : M.run s as = some s') : P s' := by
  induction as generalizing s with
  | nil =>
    cases h
    exact hs
  | cons a as ih =>
    obtain ⟨s₁, h₁, h₂⟩ := bind_eq_some_iff.1 h
    exact ih (fun ha => hst (List.mem_cons_of_mem _ ha)) (hst List.mem_cons_self hs h₁) h₂

/-- A list of actions that runs from the initial state ends in a state reached. -/
theorem reaches_of_runOk [∀ s a, Decidable (ok s a)] {s : σ} (h : M.runOk ok M.init as = some s) : M.Reaches ok s :=
  Reaches.runOk .init h

/-- A concrete list of actions runs, and its last state satisfies `P`. -/
theorem exists_of_runOk [∀ s a, Decidable (ok s a)] {s₀ : σ} [DecidablePred P]
    (h : (M.runOk ok s₀ as).any (fun s => decide (P s)) = true) : ∃ s, M.runOk ok s₀ as = some s ∧ P s := by
  obtain ⟨s, hs, hp⟩ := (any_eq_true ..).1 h
  exact ⟨s, hs, of_decide_eq_true hp⟩

/-- A concrete list of actions whose last state satisfies `P` shows a state reached that satisfies it. -/
theorem exists_reaches_of_runOk (ok : σ → α → Prop) [∀ s a, Decidable (ok s a)] (as : List α) [DecidablePred P]
    (h : (M.runOk ok M.init as).any (fun s => decide (P s)) = true) : ∃ s, M.Reaches ok s ∧ P s := by
  obtain ⟨s, hs, hp⟩ := exists_of_runOk h
  exact ⟨s, reaches_of_runOk hs, hp⟩

theorem exists_reachable_of_run (as : List α) [DecidablePred P] (h : (M.run M.init as).any (fun s => decide (P s)) = true) :
    ∃ s, M.Reachable s ∧ P s :=
  exists_reaches_of_runOk _ as h

end Machine

end Osxie
