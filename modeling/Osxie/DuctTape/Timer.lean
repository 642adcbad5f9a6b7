import Osxie.Lib.Machine

/-!
# Timers and the timerfd

The server has one timer queue and one timerfd. An insertion arms the timerfd (`timer_queue_assign`) and then puts the timer in
the queue; a cancellation takes the timer out, then locks the queue again, reads the new head and arms the timerfd with its
deadline, overriding; an expiration is read by the main loop, which has a microthread run `dtape_timer_fired`: it calls the
timers that are due and arms the timerfd, overriding, with the least deadline left. The queue has a lock and the timerfd
another; no operation holds both throughout.

Any number of callers interleave; one step is what happens under one hold of one of the locks. The deadline of a timerfd that
has expired and was not read yet stands in `timerFD` like that of one that is armed: setting the timerfd replaces either.
-/

namespace Osxie.DuctTape

/-- Where a caller is in an operation on the timers. -/
inductive TimerPc where
  | idle
  /-- timer_call_enter after `timer_queue_assign`, before the enqueue -/
  | inserting (timer deadline : Nat)
  /-- timer_call_cancel on a queued timer, before it takes it out of the queue -/
  | dequeuing (timer : Nat)
  /-- timer_call_cancel between its two holds of the queue lock -/
  | dequeued
  /-- timer_call_cancel in `timer_queue_cancel` with the new head's deadline, holding the queue lock -/
  | cancelling (newDeadline : Nat)
  /-- dtape_timer_fired in `timer_queue_expire` -/
  | expiring
  /-- dtape_timer_fired with the deadline that `timer_queue_expire` returned -/
  | fired (nextDeadline : Nat)
deriving DecidableEq

/-- The timer queue, the timerfd and the callers. `fires` are the expirations that were read and whose `dtape_timer_fired` has
not started yet, each with the deadline the timerfd had. -/
structure Timers where
  queue : List (Nat × Nat)
  queueLock : Option Nat
  currentTimerDeadline : Nat
  timerFD : Option Nat
  fires : List Nat
  pc : Nat → TimerPc

namespace Timers

def uint64Max : Nat := 2 ^ 64 - 1

def init : Timers where
  queue := []
  queueLock := none
  currentTimerDeadline := 0
  timerFD := none
  fires := []
  pc _ := .idle

variable (s : Timers) (deadline : Nat)

/-- `dtape_hook_timer_arm`. -/
def arm (override : Bool) : Timers :=
  let deadline := if deadline = uint64Max then 0 else deadline
  if override = false ∧ s.currentTimerDeadline ≠ 0 ∧ s.currentTimerDeadline ≤ deadline then s
  else { s with currentTimerDeadline := deadline, timerFD := if deadline = 0 then none else some deadline }

variable (queue : List (Nat × Nat))

def least : Nat := queue.foldr (fun e d => min e.2 d) uint64Max

def dequeue (timer : Nat) : List (Nat × Nat) := queue.filter (fun e => e.1 ≠ timer)

/-- The queue with a timer at a deadline, moved there if it was queued. -/
def enqueue (timer deadline : Nat) : List (Nat × Nat) := (timer, deadline) :: dequeue queue timer

def goto (n : Nat) (pc : TimerPc) : Timers := { s with pc := Function.update s.pc n pc }

inductive TimerAction where
  /-- a caller starts timer_call_enter, as far as `timer_queue_assign` -/
  | insert (n timer deadline : Nat)
  /-- a caller starts timer_call_cancel on a queued timer -/
  | cancel (n timer : Nat)
  /-- the main loop reads an expiration of the timerfd -/
  | read
  /-- a microthread starts dtape_timer_fired for an expiration -/
  | start (n deadline : Nat)
  /-- `timer_queue_expire` takes out the first timer, which is due -/
  | expire (n timer : Nat)
  | advance (n : Nat)
deriving DecidableEq

/-- One step. A deadline is an unsigned 64-bit number. -/
def step : TimerAction → Option Timers
  | .insert n timer deadline =>
    if s.pc n = .idle ∧ deadline ≤ uint64Max then some ((s.arm deadline false).goto n (.inserting timer deadline)) else none
  | .cancel n timer =>
    if s.pc n = .idle ∧ timer ∈ s.queue.map Prod.fst then some (s.goto n (.dequeuing timer)) else none
  | .read =>
    match s.timerFD with
    | some deadline => some { s with timerFD := none, fires := s.fires ++ [deadline] }
    | none => none
  | .start n deadline =>
    if s.pc n = .idle ∧ deadline ∈ s.fires then some ({ s with fires := s.fires.erase deadline }.goto n .expiring) else none
  | .expire n timer =>
    if s.pc n = .expiring ∧ s.queueLock = none ∧ (timer, least s.queue) ∈ s.queue then
      some { s with queue := dequeue s.queue timer }
    else none
  | .advance n =>
    match s.pc n with
    | .idle => none
    | .inserting timer deadline =>
      if s.queueLock = none then some ({ s with queue := enqueue s.queue timer deadline }.goto n .idle) else none
    | .dequeuing timer =>
      if s.queueLock = none then some ({ s with queue := dequeue s.queue timer }.goto n .dequeued) else none
    | .dequeued =>
      if s.queueLock = none then some ({ s with queueLock := some n }.goto n (.cancelling (least s.queue))) else none
    | .cancelling newDeadline => some ({ s.arm newDeadline true with queueLock := none }.goto n .idle)
    | .expiring => if s.queueLock = none then some (s.goto n (.fired (least s.queue))) else none
    | .fired nextDeadline => some ((s.arm nextDeadline true).goto n .idle)

def machine : Machine Timers TimerAction where
  init := init
  step := step

/-! ## Cover -/

/-- The timerfd is armed, or has expired and was not handled yet, at a deadline no later than the given one. -/
def Covers : Prop := ∃ d, (s.timerFD = some d ∨ d ∈ s.fires) ∧ d ≤ deadline

/-- Whenever no operation is in progress and the queue is not empty, the timerfd covers the earliest deadline. -/
def Covered : Prop := (∀ n, s.pc n = .idle) → s.queue ≠ [] → s.Covers (least s.queue)

/-- No queued timer and no timer that an insertion is about to queue has a deadline before the given one. -/
def NoneBefore : Prop :=
  (∀ e ∈ s.queue, deadline ≤ e.2) ∧ ∀ n timer d, s.pc n = .inserting timer d → deadline ≤ d

/-- An insertion has a deadline other than 0 and UINT64_MAX; and when an operation overrides the timerfd with the deadline it read
from the queue, no queued timer and no timer about to be queued has an earlier one. -/
def Undisturbed : TimerAction → Prop
  | .insert _ _ deadline => deadline ≠ 0 ∧ deadline ≠ uint64Max
  | .advance n =>
    match s.pc n with
    | .cancelling newDeadline => s.NoneBefore newDeadline
    | .fired nextDeadline => s.NoneBefore nextDeadline
    | _ => True
  | _ => True

end Timers

end Osxie.DuctTape
