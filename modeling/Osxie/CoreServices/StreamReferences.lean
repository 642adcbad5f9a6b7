import Mathlib.Data.List.Basic

/-!
# References of an event stream

`_dispatchEvents` takes a reference to the stream for each batch of events, and `_doCallback` releases one at its end. A block
on a queue is performed once; a run loop source that is signalled twice is performed once, and one that is not valid never.
-/

namespace Osxie.CoreServices

/-- What of an `FSEventsImpl` concerns its references: whether it has a queue and its run loop source is valid, the references
that `_dispatchEvents` has taken and `_doCallback` has not released, the blocks that are queued, whether the source is signalled,
and the callbacks that have begun. -/
structure StreamReferences where
  queue : Bool
  valid : Bool
  references : Nat
  queued : Nat
  signalled : Bool
  underway : Nat

inductive StreamAction where
  | readEvents
  | setDispatchQueue (queue : Bool)
  | invalidate
  | performBlock
  | performSource
  | release

namespace StreamReferences

def new : StreamReferences := ⟨false, true, 0, 0, false, 0⟩

variable (s : StreamReferences)

def dispatchEvents : StreamReferences :=
  if s.queue then { s with references := s.references + 1, queued := s.queued + 1 }
  else { s with references := s.references + 1, signalled := s.signalled || s.valid }

/-- A step; nothing happens where it cannot be taken. -/
def step : StreamAction → StreamReferences
  | .readEvents => s.dispatchEvents
  | .setDispatchQueue queue => { s with queue := queue }
  | .invalidate => { s with queue := false, valid := false, signalled := false }
  | .performBlock => if 0 < s.queued then { s with queued := s.queued - 1, underway := s.underway + 1 } else s
  | .performSource => if s.signalled then { s with signalled := false, underway := s.underway + 1 } else s
  | .release => if 0 < s.underway then { s with underway := s.underway - 1, references := s.references - 1 } else s

/-- The callbacks that are still to be performed, or to end. -/
def toCome : Nat := s.queued + s.signalled.toNat + s.underway

/-- No callback is to come for a reference: its signal finds the source signalled or not valid, or is lost with the source. -/
def loses : StreamAction → Bool
  | .readEvents => !s.queue && (s.signalled || !s.valid)
  | .invalidate => s.signalled
  | _ => false

/-- The references that are lost in a run. -/
def lost (s : StreamReferences) : List StreamAction → Nat
  | [] => 0
  | a :: actions => (s.loses a).toNat + (s.step a).lost actions

/-- A step adds to the references that were lost before what it loses itself. -/
theorem step_references {s : StreamReferences} {n : Nat} (h : s.references = s.toCome + n) (a : StreamAction) :
    (s.step a).references = (s.step a).toCome + (n + (s.loses a).toNat) := by
  obtain ⟨queue, valid, references, queued, signalled, underway⟩ := s
  simp only [toCome] at h
  cases a with
  | readEvents =>
    simp only [step, dispatchEvents, loses, toCome]
    cases queue <;> cases valid <;> cases signalled <;> simp at h ⊢ <;> omega
  | setDispatchQueue => exact h
  | invalidate =>
    simp only [step, loses, toCome, h, Bool.toNat_false]
    omega
  | performBlock | release =>
    simp only [step, loses, toCome, Bool.toNat_false]
    split <;> simp only <;> omega
  | performSource => cases signalled <;> simp [step, loses, toCome] at h ⊢ <;> omega

/-- By induction over the run, with the references that were lost before. -/
theorem run_references {s : StreamReferences} {n : Nat} (h : s.references = s.toCome + n) (actions : List StreamAction) :
    (actions.foldl step s).references = (actions.foldl step s).toCome + (n + s.lost actions) := by
  induction actions generalizing s n with
  | nil => exact h
  | cons a actions ih =>
    rw [List.foldl_cons, ih (step_references h a), lost]
    omega

/-- The references balance if and only if none is lost. -/
theorem references_eq_toCome_iff (actions : List StreamAction) :
    (actions.foldl step new).references = (actions.foldl step new).toCome ↔ new.lost actions = 0 := by
  have hrun := run_references (s := new) (n := 0) rfl actions
  omega

/-- Two batches are read before the run loop performs its source. -/
theorem references_ne_toCome :
    let s := [.readEvents, .readEvents, .performSource, .release].foldl step new
    s.references = 1 ∧ s.toCome = 0 := by
  decide

end StreamReferences

end Osxie.CoreServices
