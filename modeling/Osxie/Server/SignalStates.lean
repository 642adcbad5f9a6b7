import Osxie.Server.Dispatch

/-!
# The two stacks of an interrupted thread

An interrupt has an entry on two stacks: its context in `Thread::_interrupts`, and a user state of the duct-taped thread, in
which `thread_get_state` and `thread_set_state` find its registers. `doWork` emplaces the context when it schedules the
interrupt_enter; `dtape_thread_sigexc_enter2` inserts the user state when the interrupted call is through. The call
interrupt_exit takes both away again: `dtape_thread_sigexc_exit` before its reply, and the context after it. At the bottom of
the user states is `default_state`, a member of the thread itself.

The server is that of `Session`, with a client that may send any call at any time.
-/

namespace Osxie.DuctTape

/-- The list `user_states`: the states that were allocated, the first of the list first, and `default_state`, while it is in the
list. -/
structure UserStates (ρ : Type) where
  allocated : List ρ
  defaultState : Option ρ
deriving DecidableEq

namespace UserStates

variable {ρ : Type}

def toList (u : UserStates ρ) : List ρ := u.allocated ++ u.defaultState.toList

variable (u : UserStates ρ)

/-- `thread_get_state`, which reads the first state. -/
def getState : Option ρ := u.toList.head?

/-- `thread_set_state`, which writes the first state. -/
def setState (registers : ρ) : UserStates ρ :=
  match u.allocated with
  | _ :: allocated => { u with allocated := registers :: allocated }
  | [] => { u with defaultState := u.defaultState.map fun _ => registers }

/-- `dtape_thread_sigexc_enter2`, which inserts a cleared state. -/
def sigexcEnter2 [Zero ρ] (u : UserStates ρ) : UserStates ρ := { u with allocated := 0 :: u.allocated }

/-- `dtape_thread_sigexc_exit`, which removes and frees the first state, whichever it is. -/
def sigexcExit : UserStates ρ :=
  match u.allocated with
  | _ :: allocated => { u with allocated := allocated }
  | [] => { u with defaultState := none }

end UserStates

end Osxie.DuctTape

namespace Osxie.Server

open DuctTape

/-- The server and the user states of the thread. `entered` are the registers that were current when the interrupts in
progress were entered, innermost first, and `exits` pairs those of every interrupt that is over with the registers its
interrupt_exit left. -/
structure SignalStates (ρ : Type) where
  session : Session
  userStates : UserStates ρ
  entered : List ρ
  exits : List (Option ρ × Option ρ)
  poppedEmpty : Bool
deriving DecidableEq

inductive SignalAction (ρ : Type) where
  | send (number : CallNumber)
  | pushReply (reply : Reply)
  | receive
  | work
  | run
  | suspend (continuationCallback : Bool)
  | deferReplies
  | endDeferReplies
  | setState (registers : ρ)
deriving DecidableEq

namespace SignalStates

variable {ρ : Type}

/-- A thread that has made no call. -/
def init [Zero ρ] : SignalStates ρ where
  session := .init
  userStates := ⟨[], some 0⟩
  entered := []
  exits := []
  poppedEmpty := false

/-- `_handleInterruptEnterForCurrentThread` is at its end. -/
def enters [Zero ρ] (s : SignalStates ρ) : SignalStates ρ :=
  { s with userStates := s.userStates.sigexcEnter2, entered := s.userStates.getState.toList ++ s.entered }

variable (s : SignalStates ρ)

/-- `InterruptExit::processCall` begins. -/
def leaves : SignalStates ρ :=
  { s with
    userStates := s.userStates.sigexcExit
    entered := s.entered.tail
    exits := s.exits ++ [(s.entered.head?, s.userStates.sigexcExit.getState)]
    poppedEmpty := s.poppedEmpty || s.userStates.toList.isEmpty }

def run [Zero ρ] (s : SignalStates ρ) : Option (SignalStates ρ) :=
  s.session.run.map fun session =>
    match s.session.program with
    | .handling _ => if s.session.thread.expectedCall = none then { s.enters with session := session }
      else { s with session := session }
    | .exiting _ => { s.leaves with session := session }
    | .popping => { s with session := session, poppedEmpty := s.poppedEmpty || s.session.thread.interrupts.isEmpty }
    | _ => { s with session := session }

def act [Zero ρ] (s : SignalStates ρ) : SignalAction ρ → Option (SignalStates ρ)
  | .send number =>
    let call := s.session.newCall number
    some { s with session := s.session.issue call s.session.client s.session.frames }
  | .pushReply reply => some { s with session := { s.session with toServer := s.session.toServer ++ [.pushReply reply] } }
  | .receive => s.session.receive.map fun session => { s with session := session }
  | .work => s.session.work.map fun session => { s with session := session }
  | .run => s.run
  | .suspend continuationCallback => (s.session.suspend continuationCallback).map fun session => { s with session := session }
  | .deferReplies => (s.session.act .deferReplies).map fun session => { s with session := session }
  | .endDeferReplies => (s.session.act .endDeferReplies).map fun session => { s with session := session }
  | .setState registers => some { s with userStates := s.userStates.setState registers }

/-- One step. There is none after an exception, and none after a stack was popped when it was empty or `default_state` was
freed. -/
def step [Zero ρ] (s : SignalStates ρ) (a : SignalAction ρ) : Option (SignalStates ρ) :=
  if s.session.aborted.isSome ∨ s.poppedEmpty ∨ s.userStates.defaultState.isNone then none else s.act a

def machine [Zero ρ] : Machine (SignalStates ρ) (SignalAction ρ) where
  init := init
  step := step

/-! ## The two stacks -/

/-- The program is in `_handleInterruptEnterForCurrentThread`. -/
def inEnter : Program → Bool
  | .entering _ | .handling _ => true
  | _ => false

/-- An interrupt_enter has been scheduled, and its user state is not inserted yet. -/
def entering (s : Session) : Bool := inEnter s.program || (s.place = .starting && s.thread.interruptEnterPending)

/-- The user state of an interrupt_exit has been removed, and its context is not popped yet. -/
def leaving (s : Session) : Bool := s.program = .popping

/-- The discipline of the two stacks. They have the same depth, but for an interrupt call that is being processed and has
touched only one of them. -/
structure Disciplined (s : SignalStates ρ) : Prop where
  depth : s.session.thread.interrupts.length =
    s.userStates.allocated.length + (entering s.session).toNat + (leaving s.session).toNat
  popped : s.poppedEmpty = false
  kept : s.userStates.defaultState.isSome = true
  restored : ∀ p ∈ s.exits, p.1 = p.2

/-- How a client thread sends its calls. Every interrupt_exit follows an interrupt_enter of its own, and a call is sent when
all earlier ones are answered; only an interrupt_enter is also sent while one ordinary call is not. -/
def Matched : SignalAction ρ → Prop
  | .send .interruptEnter => s.session.requests = [] ∨ s.session.requests.map (·.number) = [.other]
  | .send .interruptExit =>
    s.session.requests = [] ∧
      s.session.issued.countP (·.number = .interruptExit) < s.session.issued.countP (·.number = .interruptEnter)
  | .send .other => s.session.requests = []
  | _ => True

instance (a : SignalAction ρ) : Decidable (Matched s a) := by
  unfold Matched
  split <;> infer_instance

/-- An interrupt_exit that matches no interrupt_enter removes and frees `default_state`. -/
theorem stacks_disciplined_false : ¬∀ s, (machine (ρ := Nat)).Reachable s → Disciplined s := by
  intro h
  obtain ⟨s, hs, hgo⟩ := Machine.exists_reachable_of_run (M := machine (ρ := Nat))
    [.send .interruptExit, .receive, .work, .work, .work, .run] (P := fun s => s.userStates.defaultState = none) (by decide)
  have hkept := (h s hs).kept
  rw [hgo] at hkept
  cases hkept

end SignalStates

end Osxie.Server
