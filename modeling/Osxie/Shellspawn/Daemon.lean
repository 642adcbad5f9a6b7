import Osxie.Lib.Machine
import Osxie.Shellspawn.Commands

/-!
# The shellspawn daemon

`spawnShell` of shellspawn.c reads the commands of a client, a `recvmsg` for the four bytes of the header and a `read` for the
data, and obeys each before it reads the next one. If one of the calls returns less than was asked for, the daemon reports an
error to the client. At `SHELLSPAWN_GO` the program is executed.

The client and the daemon are a machine. A step moves some bytes of the client's writes to the socket, or is a receive of the
daemon, which returns any number of the bytes on the socket, up to what was asked for. Left out is what does not depend on the
commands: pipes, the session and the terminal, the fork, and waiting for the program.
-/

namespace Osxie.Shellspawn

open CString

/-! ## Obeying commands -/

/-- What the daemon has set for the program so far. -/
structure Spawn where
  /-- `alloc_exec`; a shell if there is none. -/
  exec : Option CString
  argv : List CString
  /-- The values of the variables by name. -/
  env : List UInt8 → Option (List UInt8)
  directory : CString
  ids : Option (Nat × Nat)

def bash : CString := literal "/bin/bash"

def Spawn.path (d : Spawn) : CString := d.exec.getD bash

def assignment (var : CString) : Option (List UInt8 × List UInt8) :=
  match var.bytes.dropWhile (· ≠ equal) with
  | [] => none
  | _ :: value => if nameOf var = [] then none else some (nameOf var, value)

/-- `putenv` refuses a string that has no name or no `=`. -/
def putenv (env : List UInt8 → Option (List UInt8)) (var : CString) : List UInt8 → Option (List UInt8) :=
  match assignment var with
  | none => env
  | some (name, value) => Function.update env name (some value)

/-- Where the daemon starts: the shell, and its own variables and directory. -/
def Spawn.new (env : List UInt8 → Option (List UInt8)) (directory : CString) : Spawn :=
  { exec := none, argv := [bash, literal "--login"], env, directory, ids := none }

inductive Place where
  /-- At `recvmsg`, for a header. -/
  | command
  /-- At `read`, for the data of a command; `control` came with the header. -/
  | param (cmd : Nat) (length : Nat) (control : Option (List Nat))
  | executed (fds : List Nat)
  | error
deriving DecidableEq

/-- `enters` are the directories that `chdir` can enter. -/
def Spawn.chdir (enters : CString → Bool) (d : Spawn) (path : CString) : Spawn :=
    if enters path then { d with directory := path } else d

/-- The `switch` over a command other than `SHELLSPAWN_GO`. -/
def Spawn.obey (enters : CString → Bool) (d : Spawn) : CommandType → Option (List UInt8) → Spawn
  | .addArg, some param => { d with argv := d.argv ++ [ofBuffer param] }
  | .setEnv, some param => { d with env := putenv d.env (ofBuffer param) }
  | .chdir, some param => d.chdir enters (ofBuffer param)
  | .setUidGid, some param =>
    if param.length < 8 then d else { d with ids := some (ofLeBytes (param.take 4), ofLeBytes ((param.drop 4).take 4)) }
  | .setExec, param => { d with exec := param.map ofBuffer, argv := [] }
  | _, _ => d

/-- The checks of `SHELLSPAWN_GO`: three descriptors came with the command. -/
def goPlace : Option (List Nat) → Place
  | some fds => if fds.length = 3 then .executed fds else .error
  | none => .error

/-! ## The two parties -/

structure Connection where
  /-- The bytes that the client has yet to write. -/
  unsent : List Cell
  stream : List Cell
  spawn : Spawn
  place : Place

namespace Connection

variable (enters : CString → Bool) (s : Connection)

/-- The whole command has been received. -/
def handle (cmd : Nat) (param : Option (List UInt8))
    (control : Option (List Nat)) : Connection :=
  match CommandType.ofCode cmd with
  | some .go => { s with place := goPlace control }
  | some type => { s with spawn := s.spawn.obey enters type param, place := .command }
  | none => { s with place := .command }

def requested : Nat :=
  match s.place with
  | .command => 4
  | .param _ length _ => length
  | .executed _ | .error => 0

inductive Action where
  | write (n : Nat)
  /-- The daemon's call returns so many bytes. -/
  | receive (n : Nat)
deriving DecidableEq

def received (cells : List Cell) : Connection :=
  let bytes := cells.map Cell.byte
  match s.place with
  | .command =>
    if cells.length ≠ 4 then { s with place := .error }
    else
      let cmd := ofLeBytes (bytes.take 2)
      let length := ofLeBytes (bytes.drop 2)
      let control := cells.findSome? Cell.control
      if length ≠ 0 then { s with place := .param cmd length control } else s.handle enters cmd none control
  | .param cmd length control =>
    if cells.length ≠ length then { s with place := .error } else s.handle enters cmd (some bytes) control
  | .executed _ | .error => s

def step : Action → Option Connection
  | .write n =>
    if 0 < n ∧ n ≤ s.unsent.length then some { s with unsent := s.unsent.drop n, stream := s.stream ++ s.unsent.take n } else none
  | .receive n =>
    if 0 < n ∧ n ≤ s.requested ∧ n ≤ s.stream.length then
      some ({ s with stream := s.stream.drop n }.received enters (s.stream.take n))
    else none

/-- A client sends a request; the daemon starts with its own variables and directory. -/
def machine (env : List UInt8 → Option (List UInt8)) (directory : CString) (r : Request) :
    Machine Connection Action where
  init := { unsent := r.commands.flatMap Command.cells, stream := [], spawn := .new env directory, place := .command }
  step := step enters

end Connection

end Osxie.Shellspawn
