import Mathlib.Data.List.ReduceOption
import Osxie.Lib.Machine
import Osxie.Server.Thread

/-!
# Interrupted calls

One client thread and the server. The client follows the generated wrappers: it makes one call at a time and waits for its
reply. A signal is handled between interrupt_enter and interrupt_exit; while it waits for the reply of interrupt_enter the
client pushes every other reply it receives back to the server, with push_reply, and waits until the server has taken it.
Signals and calls nest.

The receive loop and the worker that runs the thread interleave: every part of the code that runs under the thread's lock is one
step. A worker may try to run the thread at any time. A reply goes to the client directly, or is deferred for an S2C call, or is
saved in the context of the interrupt and sent after the reply of interrupt_exit.
-/

namespace Osxie.Server

inductive Packet where
  | call (call : Call)
  | pushReply (reply : Reply)
deriving DecidableEq

/-- What the client thread is doing: nothing with the server, or waiting for the reply of a call, of interrupt_enter (and then
perhaps for the server to take a reply it has pushed), or of interrupt_exit. -/
inductive Activity where
  | idle
  | waiting (call : Call)
  | entering (call : Call)
  | pushing (call : Call) (reply : Reply)
  | exiting (call : Call)
deriving DecidableEq

inductive Program where
  /-- `processCall` of a call that is not about interrupts, before its reply -/
  | serving (call : Call)
  /-- `InterruptEnter::processCall`, before `_handleInterruptEnterForCurrentThread` -/
  | entering (call : Call)
  /-- there, with the interrupted call resumed -/
  | handling (call : Call)
  /-- and before its reply -/
  | answering (call : Call)
  /-- `InterruptExit::processCall`, before its reply -/
  | exiting (call : Call)
  /-- and after it -/
  | popping
  /-- back to the top -/
  | finished
deriving DecidableEq

def Program.start (call : Call) : Program :=
  match call.number with
  | .interruptEnter => .entering call
  | .interruptExit => .exiting call
  | .other => .serving call

/-- Where the worker that runs the thread is in `doWork`. -/
inductive Place where
  | outside
  | entered
  | starting
  | inMicrothread
  | atTop
deriving DecidableEq

/-- The client thread and the server. `frames` are the activities of the client that were interrupted, innermost first, each
with the call it was waiting for; `pipe` is the byte that ends a push_reply. `program` is kept while the microthread is
suspended. `issued` are the calls the client has made and `answered` those whose reply it has taken; it is `confused` by a
reply it does not expect. -/
structure Session where
  client : Activity
  frames : List (Option Call)
  toServer : List Packet
  toClient : List Reply
  pipe : Bool
  thread : Thread
  place : Place
  program : Program
  issued : List Call
  answered : List Call
  confused : Bool
  aborted : Option String
deriving DecidableEq

inductive SessionAction where
  | call
  /-- the client gets a signal, and makes the interrupt_enter call -/
  | signal
  /-- the client has handled the signal, and makes the interrupt_exit call -/
  | exit
  | clientReceive
  /-- the client goes on after a push_reply -/
  | clientPushed
  | receive
  | work
  /-- the microthread does what its program has next -/
  | run
  | suspend (continuationCallback : Bool)
  /-- an S2C call of another thread defers the replies -/
  | deferReplies
  /-- and ends -/
  | endDeferReplies
deriving DecidableEq

namespace Session

/-- A client thread that has made no call. -/
def init : Session where
  client := .idle
  frames := []
  toServer := []
  toClient := []
  pipe := false
  thread := .new
  place := .outside
  program := .finished
  issued := []
  answered := []
  confused := false
  aborted := none

variable (s : Session)

def throw (message : String) : Session :=
  { s with aborted := some message }

/-- The part of a step that may throw. -/
def attempt {α : Type} (s : Session) (r : Except String α) (f : α → Session) : Session :=
  match r with
  | .error message => s.throw message
  | .ok a => f a

def newCall (number : CallNumber) : Call := ⟨s.issued.length, number⟩

variable (call : Call) (packets : List Packet) (client : Activity) (frames : List (Option Call))

def issue : Session :=
  { s with client := client, frames := frames, toServer := s.toServer ++ [.call call], issued := s.issued ++ [call] }

def take (toClient : List Reply) : Session :=
  { s with client := client, frames := frames, toClient := toClient, answered := s.answered ++ [call] }

def push (reply : Reply) (toClient : List Reply) : Session :=
  { s with client := .pushing call reply, toClient := toClient, toServer := s.toServer ++ [.pushReply reply] }

/-- What the client goes back to when an interrupt is over. -/
def resumedActivity : Option Call → Activity
  | some call => .waiting call
  | none => .idle

/-- The client's side of the generated wrappers, on a reply. -/
def clientReceive : Option Session :=
  match s.client, s.toClient with
  | .waiting call, reply :: toClient =>
    some (if reply.call = call then s.take call .idle s.frames toClient else { s with confused := true })
  | .entering call, reply :: toClient =>
    some (if reply.call = call then s.take call .idle s.frames toClient else s.push call reply toClient)
  | .exiting call, reply :: toClient =>
    some (if reply.call = call then s.take call (resumedActivity (s.frames.head?.bind id)) s.frames.tail toClient
      else { s with confused := true })
  | _, _ => none

/-- `Call::callFromMessage`. -/
def receive : Option Session :=
  match s.toServer with
  | [] => none
  | .call call :: toServer =>
    some (s.attempt (s.thread.setPendingCall call) fun t => { s with thread := t, toServer := toServer })
  | .pushReply reply :: toServer =>
    some (s.attempt (s.thread.savePushedReply reply) fun t => { s with thread := t, toServer := toServer, pipe := true })

def doneWorking (s : Session) (t : Thread) : Session :=
  s.attempt t.doneWorking fun (t, _) => { s with thread := t, place := .outside }

/-- `Thread::doWork` up to the next step of another party. -/
def work : Option Session :=
  match s.place with
  | .outside =>
    match s.thread.enter with
    | (t, .returns) => some { s with thread := t }
    | (t, .doneWorking) => some (s.doneWorking t)
    | (t, .entered) => some { s with thread := t, place := .entered }
  | .entered =>
    some (s.attempt s.thread.examine fun
      | (t, .resumes) => { s with thread := t, place := .inMicrothread }
      | (t, .doneWorking) => s.doneWorking t
      -- the suspended program, if any, stays with the stack that the interrupt has saved
      | (t, .starts) => { s with thread := t, place := .starting, program := .finished })
  | .starting =>
    match s.thread.pendingCall with
    | some call => some { s with thread := s.thread.makePendingCallActive, place := .inMicrothread, program := .start call }
    | none => none
  | .atTop => some (s.doneWorking s.thread)
  | .inMicrothread => none

def reply (program : Program) : Session :=
  s.attempt (s.thread.pushCallReply call) fun (t, sent) =>
    { s with thread := t, toClient := s.toClient ++ sent.toList, program := program }

/-- What the microthread does next. An interrupted call that is resumed replies before the interrupt goes on. -/
def run : Option Session :=
  if s.place = .inMicrothread then
    match s.program with
    | .serving call => some (s.reply call .finished)
    | .entering call =>
      some (s.attempt s.thread.beginInterrupt fun t => { s with thread := t, program := .handling call })
    | .handling call =>
      match s.thread.expectedCall with
      | some interrupted => some (s.reply interrupted (.handling call))
      | none => some { s with thread := s.thread.endInterrupt, program := .answering call }
    | .answering call => some (s.reply call .finished)
    | .exiting call => some (s.reply call .popping)
    | .popping =>
      let (t, sent) := s.thread.popInterrupt
      some { s with thread := t, toClient := s.toClient ++ sent.toList, program := .finished }
    | .finished => some { s with place := .atTop }
  else none

/-- The microthread suspends, in a call that has not replied. -/
def suspend (s : Session) (continuationCallback : Bool) : Option Session :=
  match s.place, s.program with
  | .inMicrothread, .popping => none
  | .inMicrothread, .finished => none
  | .inMicrothread, _ => some { s with thread := s.thread.suspend continuationCallback, place := .atTop }
  | _, _ => none

/-- One step of a server that is up and a client that is not confused. -/
def act : SessionAction → Option Session
  | .call =>
    let call := s.newCall .other
    if s.client = .idle then some (s.issue call (.waiting call) s.frames) else none
  | .signal =>
    let call := s.newCall .interruptEnter
    match s.client with
    | .idle => some (s.issue call (.entering call) (none :: s.frames))
    | .waiting interrupted => some (s.issue call (.entering call) (some interrupted :: s.frames))
    | _ => none
  | .exit =>
    let call := s.newCall .interruptExit
    if s.client = .idle ∧ s.frames ≠ [] then some (s.issue call (.exiting call) s.frames) else none
  | .clientReceive => s.clientReceive
  | .clientPushed =>
    match s.client with
    | .pushing call _ => if s.pipe then some { s with client := .entering call, pipe := false } else none
    | _ => none
  | .receive => s.receive
  | .work => s.work
  | .run => s.run
  | .suspend continuationCallback => s.suspend continuationCallback
  | .deferReplies =>
    if s.thread.activeCall.isSome then some { s with thread := { s.thread with deferReplyForS2C := true } } else none
  | .endDeferReplies =>
    let (t, sent) := s.thread.endDeferReply
    some { s with thread := t, toClient := s.toClient ++ sent.toList }

def step (a : SessionAction) : Option Session :=
  if s.aborted.isSome ∨ s.confused then none else s.act a

def machine : Machine Session SessionAction where
  init := init
  step := step

/-! ## Every call has one reply -/

def callsOf : List Call :=
  packets.filterMap fun
    | .call call => some call
    | .pushReply _ => none

def pushesOf : List Call :=
  packets.filterMap fun
    | .call _ => none
    | .pushReply reply => some reply.call

/-- The calls that are to be processed, in the order of their processing. -/
def requests : List Call :=
  s.thread.activeCall.toList ++ s.thread.pendingCall.toList ++ s.thread.pendingInterrupts ++ callsOf s.toServer

/-- The calls whose replies are on their way to the client, or deferred. -/
def outgoing : List Call := (s.toClient ++ s.thread.deferredReply.toList).map (·.call)

end Session

/-- What an interrupt context holds: the call that was interrupted, or the reply to it. -/
def InterruptContext.calls (c : InterruptContext) : List Call := c.interruptedCall.toList ++ c.savedReply.toList.map (·.call)

namespace Session

/-- Every call that is somewhere between the client and the server, or its reply: to be processed, interrupted or saved,
pushed back, on its way to the client. -/
def inFlight (s : Session) : List Call :=
  s.requests ++ s.outgoing ++ (s.thread.pendingSavedReply.toList.map (·.call) ++ pushesOf s.toServer) ++
    s.thread.interrupts.flatMap InterruptContext.calls

/-- No exception was thrown (so that no pushed reply was rejected), the client got no reply it does not expect, and every call
made is either in flight exactly once or was answered exactly once. Once the server has nothing left to do, every reply has
been sent, but those to the calls in which the client is still interrupted. -/
structure DeliveredOnce (s : Session) : Prop where
  up : s.aborted = none
  expected : s.confused = false
  once : (s.inFlight ++ s.answered).Perm s.issued
  distinct : s.issued.Nodup
  sent : ∀ frame, s.client = resumedActivity frame → s.requests = [] → s.program = .finished →
    (s.outgoing ++ s.frames.reduceOption ++ s.answered).Perm s.issued

/-- The races to be excluded. A pushed reply is received while the interrupt_enter it belongs to is still queued behind
another call; a reply is deferred for an S2C call while another one is, or the reply of interrupt_exit is; and `doWork` comes
to its end with a pending call and a queued interrupt_enter. -/
def Undisturbed (s : Session) : SessionAction → Prop
  | .receive => s.thread.pendingInterrupts = [] ∨ pushesOf (s.toServer.take 1) = []
  | .run => s.thread.deferReplyForS2C = true →
      match s.program with
      | .answering _ => s.thread.deferredReply = none
      | .exiting _ => False
      | _ => True
  | .work => s.place = .atTop → s.thread.pendingInterrupts = [] ∨ s.thread.pendingCall = none
  | _ => True

instance (s : Session) (a : SessionAction) : Decidable (Undisturbed s a) := by
  cases a with
  | run =>
    unfold Undisturbed
    dsimp only
    split <;> infer_instance
  | _ => unfold Undisturbed; infer_instance

end Session

end Osxie.Server
