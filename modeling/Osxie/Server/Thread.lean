import Mathlib.Data.List.Basic

/-!
# Threads and their calls

The state of a `Thread` that scheduling, interrupts and replies are about, and the parts of its functions that run under the
thread's lock. `doWork` is cut into what it does when it is entered, when it looks for something to run, and when the
microthread is back at the top (the label `doneWorking`). An exception that the server does not catch is an error of the part
that throws it.

The stacks and contexts of the microthread, its address and its duct-taped thread are left out.
-/

namespace Osxie.Server

/-- The number of a call, as far as threads distinguish them. -/
inductive CallNumber where
  | interruptEnter
  | interruptExit
  | other
deriving DecidableEq

structure Call where
  id : Nat
  number : CallNumber
deriving DecidableEq

structure Reply where
  call : Call
deriving DecidableEq

structure InterruptContext where
  interruptedCall : Option Call
  savedReply : Option Reply
deriving DecidableEq

inductive DeferralState where
  | notDeferred
  | deferredNotPending
  | deferredPending
deriving DecidableEq

/-- A thread. Of the continuation callbacks only their presence is kept; `interrupts` has the top of the stack first. -/
structure Thread where
  pendingCall : Option Call
  activeCall : Option Call
  pendingInterrupts : List Call
  interrupts : List InterruptContext
  pendingSavedReply : Option Reply
  interruptedForSignal : Bool
  pendingCallOverride : Bool
  continuationCallback : Bool
  interruptedContinuation : Bool
  suspended : Bool
  running : Bool
  terminating : Bool
  dead : Bool
  deferralState : DeferralState
  deferReplyForS2C : Bool
  deferredReply : Option Reply
deriving DecidableEq

namespace Thread

def new : Thread where
  pendingCall := none
  activeCall := none
  pendingInterrupts := []
  interrupts := []
  pendingSavedReply := none
  interruptedForSignal := false
  pendingCallOverride := false
  continuationCallback := false
  interruptedContinuation := false
  suspended := false
  running := false
  terminating := false
  dead := false
  deferralState := .notDeferred
  deferReplyForS2C := false
  deferredReply := none

variable (t : Thread) (call : Call)

def interruptEnterPending : Bool :=
  match t.pendingCall with
  | some call => call.number = .interruptEnter
  | none => false

/-- `Thread::setPendingCall`, for a call that was received. -/
def setPendingCall : Except String Thread :=
  if t.pendingCall.isSome then
    if call.number = .interruptEnter then
      .ok { t with pendingInterrupts := t.pendingInterrupts ++ [call] }
    else
      .error "Thread's pending call overwritten while active"
  else
    .ok { t with pendingCall := some call }

def makePendingCallActive : Thread :=
  { t with activeCall := t.pendingCall, pendingCall := none }

/-- What the first part of `doWork` comes to. -/
inductive Entry where
  | returns
  | doneWorking
  | entered
deriving DecidableEq

/-- `Thread::doWork`, up to where the microthread is running. -/
def enter : Thread × Entry :=
  if t.deferralState ≠ .notDeferred then
    ({ t with deferralState := .deferredPending }, .returns)
  else if t.running then
    (t, .returns)
  else if t.terminating then
    (t, .doneWorking)
  else if t.dead ∧ t.activeCall = none then
    ({ t with terminating := true }, .doneWorking)
  else
    ({ t with running := true }, .entered)

/-- What the tests at the start of `doWork` do to a thread: a request is noted, or dropped, or the thread is terminating, or it is
taken. -/
theorem enter_cases :
    t.deferralState ≠ .notDeferred ∧ t.enter = ({ t with deferralState := .deferredPending }, .returns) ∨
    t.deferralState = .notDeferred ∧ t.running = true ∧ t.enter = (t, .returns) ∨
    t.deferralState = .notDeferred ∧ t.running = false ∧
      (t.enter = ({ t with terminating := true }, .doneWorking) ∨ t.enter = ({ t with running := true }, .entered)) := by
  unfold enter
  split
  · exact .inl ⟨‹_›, rfl⟩
  rename_i hdef
  have hdef : t.deferralState = .notDeferred := Decidable.not_not.1 hdef
  split
  · exact .inr (.inl ⟨hdef, ‹_›, rfl⟩)
  rename_i hrun
  refine .inr (.inr ⟨hdef, by simpa using hrun, ?_⟩)
  split
  · rename_i hterm
    exact .inl (by rw [← hterm])
  split
  · exact .inl rfl
  · exact .inr rfl

/-- The pending interrupt_enter gets a context, which takes the active call and the continuation. -/
def emplaceInterrupt : Thread :=
  { t with
    interrupts := ⟨t.activeCall, none⟩ :: t.interrupts
    interruptedContinuation := t.continuationCallback
    continuationCallback := false
    activeCall := none }

/-- What the second part of `doWork` comes to. -/
inductive Dispatch where
  | resumes
  | doneWorking
  | starts
deriving DecidableEq

/-- `Thread::doWork`, the part that looks for something to run. A continuation is taken when the microthread resumes with it. -/
def examine : Except String (Thread × Dispatch) :=
  let t := if ¬t.pendingCallOverride ∧ t.interruptEnterPending then t.emplaceInterrupt else t
  if t.continuationCallback ∧ t.pendingCall.isSome then
    .error "Thread has both a pending call and a pending continuation"
  else if t.suspended ∧ (t.pendingCallOverride ∨ t.pendingCall = none) then
    .ok ({ t with suspended := false, continuationCallback := false }, .resumes)
  else if t.pendingCall = none then
    .ok (t, .doneWorking)
  else
    .ok ({ t with suspended := false }, .starts)

/-- `Thread::suspend`: the microthread goes back to the top. -/
def suspend (continuationCallback : Bool) : Thread :=
  { t with suspended := true, continuationCallback := continuationCallback || t.continuationCallback }

/-- `Thread::notifyDead`, and whether it schedules the thread: it does so through `resume` when a call is active. -/
def notifyDead : Thread × Bool :=
  if t.dead then
    (t, false)
  else if t.activeCall = none then
    ({ t with dead := true, terminating := true }, false)
  else
    ({ t with dead := true }, t.suspended)

/-- `Thread::terminate` of a kernel thread, and whether it schedules the thread: one that is running finds itself terminating
when it is back at the top. -/
def terminate : Thread × Bool :=
  if t.running then ({ t with terminating := true }, false) else Thread.notifyDead { t with terminating := true }

/-- `Thread::doWork` from the label `doneWorking`, and whether it schedules the thread. -/
def doneWorking : Except String (Thread × Bool) :=
  let t := { t with running := false }
  let t := if t.dead ∧ t.activeCall = none ∧ ¬t.terminating then { t with terminating := true } else t
  if t.terminating ∧ ¬t.dead then
    .ok t.notifyDead
  else
    match t.pendingInterrupts with
    | [] => .ok (t, false)
    | call :: pendingInterrupts =>
      if ¬t.terminating ∧ ¬t.dead then
        if t.pendingCall.isSome then
          .error "Need to schedule interrupt for processing, but thread has pending call"
        else
          .ok ({ t with pendingCall := some call, pendingInterrupts := pendingInterrupts }, true)
      else
        .ok (t, false)

/-- `Thread::_deferLocked`, without its wait. -/
def defer : Thread :=
  if t.deferralState = .notDeferred then { t with deferralState := .deferredNotPending } else t

/-- `Thread::_undeferLocked`, and whether it schedules the thread. -/
def undefer : Thread × Bool := ({ t with deferralState := .notDeferred }, t.deferralState = .deferredPending)

/-! ## Replies and interrupts -/

/-- The call a reply is expected for: the interrupted one while the thread is interrupted for a signal, and the active one
otherwise. -/
def expectedCall : Option Call :=
  if t.interruptedForSignal then t.interrupts.head?.bind (·.interruptedCall) else t.activeCall

def deactivateCall : Except String Thread :=
  if t.expectedCall ≠ some call then
    .error "Upon deactivating the active call found active/interrupted call != expected call"
  else if t.interruptedForSignal then
    .ok { t with interrupts := t.interrupts.modifyHead fun c => { c with interruptedCall := none } }
  else
    .ok { t with activeCall := none }

/-- `Thread::pushCallReply`, and the reply it sends if it is not saved or deferred. -/
def pushCallReply : Except String (Thread × Option Reply) := do
  let t ← t.deactivateCall call
  if t.interruptedForSignal then
    if (t.interrupts.head?.bind (·.savedReply)).isSome then
      .error "New reply would overwrite existing saved reply"
    else
      .ok ({ t with interrupts := t.interrupts.modifyHead fun c => { c with savedReply := some ⟨call⟩ } }, none)
  else if t.deferReplyForS2C then
    .ok ({ t with deferredReply := some ⟨call⟩ }, none)
  else if t.dead then
    .ok (t, none)
  else
    .ok (t, some ⟨call⟩)

/-- The part of `Call::callFromMessage` that saves a reply the client has pushed back. -/
def savePushedReply (reply : Reply) : Except String Thread :=
  if t.interruptEnterPending then
    .ok { t with pendingSavedReply := some reply }
  else
    match t.interrupts with
    | [] => .error "Client tried to push reply outside of interrupt"
    | context :: contexts =>
      if context.savedReply.isSome then
        .error "Client-pushed reply overwriting existing saved reply"
      else
        .ok { t with interrupts := { context with savedReply := some reply } :: contexts }

/-- `Thread::_handleInterruptEnterForCurrentThread` up to where the interrupted call is resumed. A call that was interrupted
without a continuation is resumed on its own stack, with the override. -/
def beginInterrupt : Except String Thread :=
  let resumed := { t with
    interruptedForSignal := true
    interruptedContinuation := false
    pendingCallOverride := !t.interruptedContinuation && (t.interrupts.head?.bind (·.interruptedCall)).isSome }
  match t.pendingSavedReply with
  | none => .ok resumed
  | some reply =>
    if (t.interrupts.head?.bind (·.savedReply)).isSome then
      .error "Pending saved reply would overwrite saved reply"
    else
      .ok { resumed with
        interrupts := t.interrupts.modifyHead fun c => { c with savedReply := some reply }
        pendingSavedReply := none }

/-- The rest of `Thread::_handleInterruptEnterForCurrentThread`. -/
def endInterrupt : Thread :=
  { t with
    interruptedForSignal := false
    pendingCallOverride := false
    interrupts := t.interrupts.modifyHead fun c => { c with interruptedCall := none } }

/-- The part of `InterruptExit::processCall` after its reply, and the saved reply it sends. -/
def popInterrupt : Thread × Option Reply :=
  ({ t with interrupts := t.interrupts.tail }, t.interrupts.head?.bind (·.savedReply))

/-- The part of `_s2cPerform` that sends a deferred reply. -/
def endDeferReply : Thread × Option Reply :=
  if t.deferReplyForS2C then
    ({ t with deferReplyForS2C := false, deferredReply := none }, t.deferredReply)
  else
    (t, none)

end Thread

end Osxie.Server
