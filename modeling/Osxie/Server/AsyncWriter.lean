import Osxie.Lib.Machine

/-!
# The asynchronous writer

`AsyncWriter` keeps what its descriptor does not accept yet in `_buffer`, and a reference to itself for as long as there is
something in it. `write` and the handler of the monitor's `Writable` event both call `_trySendLocked` with `_mutex` held, whose
loop calls `write(2)` until the buffer is empty or the descriptor has reported `EAGAIN`.

A step is a call of `write`, an event, or one result of `write(2)`; no call or event takes `_mutex` while the loop runs. The
descriptor, the monitor and the destructor, which runs when nothing refers to the writer, are left out.
-/

namespace Osxie.Server

/-- What `write(2)` reports: how many bytes it accepted, or an error. `EWOULDBLOCK` is `EAGAIN`. -/
inductive WriteResult where
  | written (count : Nat)
  | eintr
  | eagain
  | error
deriving DecidableEq

def WriteResult.count : WriteResult → Nat
  | .written count => count
  | _ => 0

/-- `_trySendLocked`: before its `write(2)`, or how the last call of it ended. -/
inductive TrySend where
  | sending
  | returned
  | threw
deriving DecidableEq

/-- The writer, with what its descriptor accepted, what was passed to `write`, and whether `EAGAIN` was reported since the last
`Writable` event. -/
structure AsyncWriter where
  buffer : List UInt8 := []
  canSend : Bool := true
  keepMeAliveUntilEmpty : Bool := false
  trySend : TrySend := .returned
  accepted : List UInt8 := []
  passed : List UInt8 := []
  blocked : Bool := false
deriving DecidableEq

inductive AsyncWriterAction where
  | write (data : List UInt8)
  /-- the monitor reports events -/
  | event (hangUp writable : Bool)
  /-- `write(2)` returns to `_trySendLocked` -/
  | result (r : WriteResult)
deriving DecidableEq

namespace AsyncWriter

variable (w : AsyncWriter)

/-- The condition of the loop, which `continue` goes to as well. -/
def again : AsyncWriter := { w with trySend := if w.canSend then .sending else .returned }

/-- `_trySendLocked` after its `write(2)`. -/
def sent : WriteResult → AsyncWriter
  | .written count =>
    let w := { w with buffer := w.buffer.drop count, accepted := w.accepted ++ w.buffer.take count }
    if w.buffer = [] then { w with keepMeAliveUntilEmpty := false, trySend := .returned } else w.again
  | .eintr => w.again
  | .eagain => { w with canSend := false, blocked := true }.again
  | .error => { w with trySend := .threw }

def step : AsyncWriterAction → Option AsyncWriter
  | .write data =>
    if data = [] then some w
    else if w.trySend = .sending then none
    else some { w with
      buffer := w.buffer ++ data, keepMeAliveUntilEmpty := true, trySend := .sending, passed := w.passed ++ data }
  | .event hangUp writable =>
    if hangUp || !writable then some w
    else if w.trySend = .sending then none
    else some { w with canSend := true, trySend := .sending, blocked := false }
  | .result r => if w.trySend = .sending ∧ r.count ≤ w.buffer.length then some (w.sent r) else none

/-- A writer that was just made, and who uses it. -/
def machine : Machine AsyncWriter AsyncWriterAction := ⟨{}, step⟩

/-- The stream is the data passed to `write`; the writer refers to itself while something is left; and when `_trySendLocked`
returns with something left, a `Writable` event is still to come. -/
structure KeepsStream (w : AsyncWriter) : Prop where
  stream : w.accepted ++ w.buffer = w.passed
  keepMeAlive : w.keepMeAliveUntilEmpty = true ↔ w.buffer ≠ []
  blocked : w.trySend = .returned → w.buffer ≠ [] → w.blocked = true

/-- `_canSend` is false only after an `EAGAIN` that no event has followed. -/
def Inv : Prop := w.KeepsStream ∧ (w.canSend = false → w.blocked = true)

variable {w w' : AsyncWriter}

theorem Inv.again (h : w.Inv) : w.again.Inv := by
  refine ⟨⟨h.1.stream, h.1.keepMeAlive, fun hr _ => h.2 ?_⟩, h.2⟩
  simpa [AsyncWriter.again] using hr

theorem Inv.sent (h : w.Inv) (r : WriteResult) : (w.sent r).Inv := by
  cases r with
  | written count =>
    have hstored : (w.accepted ++ w.buffer.take count) ++ w.buffer.drop count = w.passed := by
      rw [List.append_assoc, List.take_append_drop, h.1.stream]
    simp only [AsyncWriter.sent]
    split
    · rename_i hemp
      exact ⟨⟨hstored, by simp [hemp], fun _ hne => absurd hemp hne⟩, h.2⟩
    · rename_i hlf
      -- what is left was in the buffer before, so the writer already refers to itself
      have hlv : w.keepMeAliveUntilEmpty = true := h.1.keepMeAlive.2 fun he => hlf (by simp [he])
      refine ⟨⟨hstored, iff_of_true hlv hlf, fun hr _ => h.2 ?_⟩, h.2⟩
      simpa [AsyncWriter.again] using hr
  | eintr => exact h.again
  | eagain => exact Inv.again ⟨⟨h.1.stream, h.1.keepMeAlive, fun _ _ => rfl⟩, fun _ => rfl⟩
  | error => exact ⟨⟨h.1.stream, h.1.keepMeAlive, by simp [AsyncWriter.sent]⟩, h.2⟩

theorem Inv.step (h : w.Inv) {a : AsyncWriterAction} (hs : w.step a = some w') : w'.Inv := by
  cases a with
  | write data =>
    simp only [AsyncWriter.step] at hs
    split at hs
    · cases hs
      exact h
    · obtain ⟨-, hs⟩ := Option.ite_none_left_eq_some.1 hs
      cases hs
      rename_i hda
      exact ⟨⟨by simp [← h.1.stream], by simp [hda], by simp⟩, h.2⟩
  | event hangUp writable =>
    simp only [AsyncWriter.step] at hs
    split at hs
    · cases hs
      exact h
    · obtain ⟨-, hs⟩ := Option.ite_none_left_eq_some.1 hs
      cases hs
      exact ⟨⟨h.1.stream, h.1.keepMeAlive, by simp⟩, by simp⟩
  | result r =>
    obtain ⟨-, rfl⟩ := of_guarded hs
    exact h.sent r

/-- Whatever is written and whatever `write(2)` reports, the byte stream is kept. -/
theorem keepsStream_of_reachable (h : machine.Reachable w) : w.KeepsStream := by
  have hinv : w.Inv := by
    refine h.invariant ?_ fun hinv _ hs => hinv.step hs
    exact ⟨⟨rfl, by simp [machine], by simp [machine]⟩, by simp [machine]⟩
  exact hinv.1

/-- A write of two bytes is accepted in part, interrupted, blocked, and sent by the next event. -/
theorem keepsStream_of_blocked : ∃ w, machine.Reachable w ∧ w.KeepsStream ∧ w.accepted = [1, 2] ∧ w.buffer = [] := by
  refine (Machine.exists_reachable_of_run [.write [1, 2], .result (.written 1), .result .eintr,
    .result .eagain, .event false true, .result (.written 1)] ?_).imp fun w h => ⟨h.1, keepsStream_of_reachable h.1, h.2⟩
  decide +kernel

end AsyncWriter

end Osxie.Server
