import Osxie.Lib.Flow
import Osxie.Lib.Machine
import Osxie.Shellspawn.Commands

/-!
# The loop of a running shell

`shellLoop` of osxie.c polls the socket to shellspawn, the user's terminal and the master of the pseudo-terminal. It copies from
the master to standard output, and from the terminal to the master, both through one buffer; when the socket has the exit status
of the shell, the process exits with it. Without a pseudo-terminal only the socket is polled. `signalHandler` can run at any
time, and forwards the signal to shellspawn.

The loop is a machine with one system call a step; its result, any that the call can have, is part of the action. Other steps
are the terminal's input, the output of the pseudo-terminal, the end of the shell and signals. Left out are the size of the
window and the text of `errno`.
-/

namespace Osxie.Startup

open Shellspawn

/-- The errors that the loop tells apart. -/
inductive Errno where
  | eintr
  | other
deriving DecidableEq

/-- What `poll` says of each descriptor: of the bits that the loop tests, whether one is set. -/
structure Revents where
  socket : Bool
  stdin : Bool
  master : Bool
deriving DecidableEq

/-- Where the loop is: at which system call. -/
inductive LoopPlace where
  | poll
  | readMaster
  | writeStdout (rd : Nat)
  | ioctl
  | readStdin (rd : Nat)
  | writeMaster (rd : Nat)
  | readSocket
  /-- The loop was left with `break`. -/
  | returned
  | exited (status : Int) (message : String)
deriving DecidableEq

def LoopPlace.looping : LoopPlace → Bool
  | .returned | .exited _ _ => false
  | _ => true

structure ShellLoop where
  place : LoopPlace
  revents : Revents
  buf : List UInt8
  input : Flow UInt8
  output : Flow UInt8
  sent : List UInt8
  /-- The container was told to go down. -/
  killed : Bool
  running : Bool
deriving DecidableEq

namespace ShellLoop

def bufSize : Nat := 4096

/-- Where the loop starts, with the shell running. -/
def new : ShellLoop :=
  { place := .poll, revents := ⟨false, false, false⟩, buf := List.replicate bufSize 0, input := .new, output := .new, sent := [],
    killed := false, running := true }

variable (s : ShellLoop)

/-- The start of the buffer is overwritten. -/
def fill (bytes : List UInt8) : ShellLoop := { s with buf := bytes ++ s.buf.drop bytes.length }

/-! ## The tests of the loop -/

def testSocket : ShellLoop := { s with place := if s.revents.socket then .readSocket else .poll }

def testStdin : ShellLoop := if s.revents.stdin then { s with place := .ioctl } else s.testSocket

def testMaster : ShellLoop := if s.revents.master then { s with place := .readMaster } else s.testStdin

/-! ## System calls -/

def exit (status : Int) (message : String) : ShellLoop := { s with place := .exited status message }

variable (proxied : Bool)

/-- `poll` has returned. Without a pseudo-terminal the other descriptors are not polled. -/
def polled (s : ShellLoop) : Option Errno → Revents → ShellLoop
  | some .other, _ => { s with place := .returned }
  | _, revents => testMaster { s with revents := if proxied then revents else { revents with stdin := false, master := false } }

/-- `read` of the master has returned; none for an error. -/
def masterRead : Option Nat → ShellLoop
  | none | some 0 => s.testStdin
  | some rd => { s.fill (s.output.waiting.take rd) with output := s.output.read rd, place := .writeStdout rd }

/-- `write` to standard output has returned; its result is not looked at. -/
def stdoutWritten (rd accepted : Nat) : ShellLoop :=
  let s := { s with output := s.output.write ((s.buf.take rd).take accepted) }
  if rd = bufSize then { s with place := .readMaster } else s.testStdin

/-- `ioctl` has returned; none for an error. -/
def ioctlDone : Option Nat → ShellLoop
  | none => s.exit 1 "ioctl"
  | some rd => { s with place := .readStdin (min rd bufSize) }

/-- `read` of the terminal has returned; none for an error. -/
def stdinRead : Option Nat → ShellLoop
  | none | some 0 => s.exit 1 "read"
  | some rd => { s.fill (s.input.waiting.take rd) with input := s.input.read rd, place := .writeMaster rd }

/-- `write` to the master has returned; its result is not looked at. -/
def masterWritten (rd accepted : Nat) : ShellLoop :=
  let s := { s with input := s.input.write ((s.buf.take rd).take accepted) }
  if rd = bufSize then { s with place := .ioctl } else s.testSocket

def enoent : Int := 2

/-- `read` of the socket has returned; none if it is not an exit status. -/
def socketRead : Option Int → ShellLoop
  | none => s.exit 1 ""
  | some exitStatus =>
    if exitStatus < 0 then s.exit (if -exitStatus = enoent then 127 else 126) "osxie: cannot execute: " else s.exit exitStatus ""

/-! ## Signals -/

def sigint : Nat := 2
def sigterm : Nat := 15

/-- Without a terminal SIGINT is turned into SIGTERM. -/
def translated (signo : Nat) : Nat := if !proxied && signo = sigint then sigterm else signo

def signalCommand (signo : Nat) : Shellspawn.Command :=
    pushShellspawnCommandData .signal (leBytes 4 (translated proxied signo))

/-- `accepted` is how much of the command the socket accepts. -/
def signalHandler (s : ShellLoop) (signo accepted : Nat) : ShellLoop :=
  let command := (signalCommand proxied signo).bytes
  let s := { s with sent := s.sent ++ command.take accepted }
  if accepted ≠ command.length then s.exit 1 "Error sending command to shellspawn: "
  else { s with killed := s.killed || translated proxied signo = sigterm }

/-! ## Steps -/

inductive Action where
  | typed (bytes : List UInt8)
  | printed (bytes : List UInt8)
  | shellEnds
  | signal (signo accepted : Nat)
  | poll (error : Option Errno) (revents : Revents)
  | readMaster (result : Option Nat)
  | writeStdout (accepted : Nat)
  | ioctl (result : Option Nat)
  | readStdin (result : Option Nat)
  | writeMaster (accepted : Nat)
  | readSocket (result : Option Int)
deriving DecidableEq

/-- A call returns no more than was asked for and is there. -/
def Returns (asked : Nat) (f : Flow UInt8) : Option Nat → Prop
  | none => True
  | some n => n ≤ asked ∧ n ≤ f.waiting.length

instance (asked : Nat) (f : Flow UInt8) (result : Option Nat) : Decidable (Returns asked f result) := by
  cases result <;> unfold Returns <;> infer_instance

def step (s : ShellLoop) : Action → Option ShellLoop
  | .typed bytes => some { s with input := s.input.supply bytes }
  | .printed bytes => some { s with output := s.output.supply bytes }
  | .shellEnds => some { s with running := false }
  | .signal signo accepted =>
    if s.place.looping ∧ accepted ≤ (signalCommand proxied signo).bytes.length then some
      (s.signalHandler proxied signo accepted) else none
  | .poll error revents => if s.place = .poll then some (s.polled proxied error revents) else none
  | .readMaster result => if s.place = .readMaster ∧ Returns bufSize s.output result then some (s.masterRead result) else none
  | .writeStdout accepted =>
    match s.place with
    | .writeStdout rd => if accepted ≤ rd then some (s.stdoutWritten rd accepted) else none
    | _ => none
  | .ioctl result => if s.place = .ioctl ∧ Returns s.input.waiting.length s.input result then some (s.ioctlDone result) else none
  | .readStdin result =>
    match s.place with
    | .readStdin rd => if Returns rd s.input result then some (s.stdinRead result) else none
    | _ => none
  | .writeMaster accepted =>
    match s.place with
    | .writeMaster rd => if accepted ≤ rd then some (s.masterWritten rd accepted) else none
    | _ => none
  | .readSocket result => if s.place = .readSocket then some (s.socketRead result) else none

def machine : Machine ShellLoop Action where
  init := new
  step := step proxied

end ShellLoop

end Osxie.Startup
