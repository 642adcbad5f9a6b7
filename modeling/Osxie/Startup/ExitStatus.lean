import Osxie.Startup.ShellLoop

/-!
# The exit status of a program

The daemon learns through a pipe that `execv` has failed. Otherwise it registers for the exit of the program, and waits for it.
Errors are reported to the client as negative numbers.
-/

namespace Osxie.Startup

open ShellLoop

/-- What `waitpid` says of the program. -/
inductive WaitStatus
  | exited (code : Nat)
  | signaled (signal : Nat)

/-- What the daemon's loop meets before the exit. -/
inductive KEvent
  | interrupted
  | signal
  /-- less than a command is read: the loop is left, and the program killed -/
  | shortCommand
  /-- `kevent` fails, or a command is not as the loop knows it -/
  | failed (errno : Nat)

/-- What becomes of a program. The registration may fail, with ESRCH, if the program has ended before it. -/
inductive Spawned
  | failed (errno : Nat)
  | ended (wstatus : WaitStatus) (registered : Bool) (events : List KEvent)

def esrch : Nat := 3
def eio : Nat := 5

def errorStatus (errno : Nat) : Int := if errno = 0 then -eio else -errno

/-- The loop of the daemon; no event is left when the program has exited. -/
def reportedStatus (wstatus : WaitStatus) : List KEvent → Int
  | .interrupted :: events | .signal :: events => reportedStatus wstatus events
  | .failed errno :: _ => errorStatus errno
  | .shortCommand :: _ | [] =>
    match wstatus with
    | .signaled signal => 128 + signal
    | .exited code => code

namespace Spawned

def spawnShell : Spawned → Int
  | failed errno => errorStatus errno
  | ended wstatus registered events => if registered then reportedStatus wstatus events else errorStatus esrch

/-- The exit status for an error of `execv`. -/
def errorExit (errno : Nat) : Int := if (errno : Int) = enoent then 127 else 126

/-- The exit status that the client is to have. -/
def expected : Spawned → Int
  | failed errno => errorExit errno
  | ended (.exited code) _ _ => code
  | ended (.signaled signal) _ _ => 128 + signal

def loopError : List KEvent → Option Nat
  | .interrupted :: events | .signal :: events => loopError events
  | .failed errno :: _ => some errno
  | .shortCommand :: _ | [] => none

/-- The error that is reported in place of a program's own status. -/
def reportedError : Spawned → Option Nat
  | failed _ => none
  | ended _ registered events => if registered then loopError events else some esrch

theorem place_errorStatus (s : ShellLoop) (errno : Nat) :
    ∃ message, (s.socketRead (some (errorStatus errno))).place = .exited (errorExit errno) message := by
  by_cases hz : errno = 0
  · simp [hz, errorStatus, eio, socketRead, exit, errorExit, enoent]
  · have hpos := Nat.pos_of_ne_zero hz
    simp [hz, hpos, errorStatus, socketRead, exit, errorExit]

/-- The loop reports an error it meets, and the program's status otherwise. -/
theorem reportedStatus_eq (wstatus : WaitStatus) (registered : Bool) (events : List KEvent) :
    reportedStatus wstatus events = ((loopError events).map errorStatus).getD (ended wstatus registered events).expected := by
  induction events with
  | nil => cases wstatus <;> rfl
  | cons event events ih => cases event <;> cases wstatus <;> first | exact ih | rfl

/-- The client exits with the status of the program exactly if no error is reported in its place, or one with the same status. -/
theorem exits_expected_iff (p : Spawned) (s : ShellLoop) :
    (∃ message, (s.socketRead (some p.spawnShell)).place = .exited p.expected message) ↔
      ∀ errno ∈ p.reportedError, p.expected = errorExit errno := by
  cases p with
  | failed errno => exact ⟨fun _ => nofun, fun _ => place_errorStatus s errno⟩
  | ended wstatus registered events =>
    have hst : (ended wstatus registered events).spawnShell = ((ended wstatus registered events).reportedError.map errorStatus).getD
        (ended wstatus registered events).expected := by
      cases registered with
      | true => exact reportedStatus_eq wstatus true events
      | false => rfl
    have hnonneg : ¬(ended wstatus registered events).expected < 0 := by
      cases wstatus <;> simp only [expected] <;> omega
    rw [hst]
    cases (ended wstatus registered events).reportedError with
    | none => simp [socketRead, exit, hnonneg]
    | some errno =>
      obtain ⟨message, hplace⟩ := place_errorStatus s errno
      simp [hplace, eq_comm]

theorem ended_not_registered : (ended (.exited 0) false []).expected = 0 ∧
    (ShellLoop.new.socketRead (some (ended (.exited 0) false []).spawnShell)).place = .exited 126 "osxie: cannot execute: " := by
  decide

end Spawned

end Osxie.Startup
