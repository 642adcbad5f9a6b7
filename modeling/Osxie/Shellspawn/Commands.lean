import Mathlib.Data.List.TakeWhile
import Osxie.Lib.LittleEndian

/-!
# The commands of shellspawn

A client asks the shellspawn daemon for a program with a sequence of commands on a stream socket: the variables, the arguments,
the directory, the IDs, and `SHELLSPAWN_GO`, which has the descriptors of the program with it. A `struct shellspawn_cmd` is the
type and the length of the data, two bytes each, and the data; longer data is sent whole with the low bits of its length.

The functions of the `osxie` command that send are here with what they send, in order. Strings are bytes without a NUL, and what
does not fit in a buffer is cut off.
-/

namespace Osxie.Shellspawn

open List

/-! ## Strings of C -/

/-- A string, without the NUL that ends it. -/
structure CString where
  bytes : List UInt8
  noNul : 0 ∉ bytes
deriving DecidableEq

namespace CString

/-- The string that starts a buffer. -/
def ofBuffer (buffer : List UInt8) : CString where
  bytes := buffer.takeWhile (· ≠ 0)
  noNul h := by simpa using mem_takeWhile_imp h

def literal (s : String) : CString := ofBuffer (s.toList.map fun c => UInt8.ofNat c.toNat)

/-- `snprintf` into a buffer of `size` bytes. -/
def snprintf (size : Nat) (text : List UInt8) : CString := ofBuffer (text.take (size - 1))

def withNul (s : CString) : List UInt8 := s.bytes ++ [0]

/-- A string that was sent with its NUL is what the buffer starts with. -/
@[simp]
theorem ofBuffer_withNul (s : CString) : ofBuffer s.withNul = s := by
  obtain ⟨bytes, noNul⟩ := s
  have hall : ∀ b ∈ bytes, decide (b ≠ 0) = true := fun b hb => decide_eq_true fun h0 => noNul (h0 ▸ hb)
  simp only [ofBuffer, withNul, mk.injEq]
  rw [takeWhile_append_of_pos hall]
  simp

/-- What fits in a buffer fits with its NUL. -/
theorem length_snprintf {size : Nat} (hsz : 0 < size) (text : List UInt8) : (snprintf size text).withNul.length ≤ size := by
  have htake : (snprintf size text).bytes.length ≤ (text.take (size - 1)).length := ( takeWhile_prefix _).length_le
  rw [length_take] at htake
  rw [withNul, length_append, length_singleton]
  omega

end CString

open CString

/-! ## Commands -/

inductive CommandType where
  | addArg
  | setEnv
  | chdir
  | go
  | signal
  | setUidGid
  | setExec
deriving DecidableEq

namespace CommandType

def code : CommandType → Nat
  | addArg => 1
  | setEnv => 2
  | chdir => 3
  | go => 4
  | signal => 5
  | setUidGid => 6
  | setExec => 7

def ofCode : Nat → Option CommandType
  | 1 => some addArg
  | 2 => some setEnv
  | 3 => some chdir
  | 4 => some go
  | 5 => some signal
  | 6 => some setUidGid
  | 7 => some setExec
  | _ => none

theorem ofCode_code (type : CommandType) : ofCode type.code = some type := by cases type <;> rfl

theorem code_lt (type : CommandType) : type.code < 256 ^ 2 := by cases type <;> decide

end CommandType

/-- The descriptors of a program: standard input, output and error. -/
structure Fds where
  stdin : Nat
  stdout : Nat
  stderr : Nat
deriving DecidableEq

def Fds.toList (fds : Fds) : List Nat := [fds.stdin, fds.stdout, fds.stderr]

/-- A command, and the descriptors that are sent with it. -/
structure Command where
  type : CommandType
  data : List UInt8
  control : Option (List Nat) := none
deriving DecidableEq

variable (type : CommandType) (workingDirectory : CString)

def pushShellspawnCommandData (data : List UInt8) : Command := { type, data }

def pushShellspawnCommand : Option CString → Command
  | none => pushShellspawnCommandData type []
  | some value => pushShellspawnCommandData type value.withNul

def pushShellspawnCommandFDs (fds : Fds) : Command := { type, data := [], control := some fds.toList }

/-- A byte on the socket; descriptors travel with the first byte of their message. -/
structure Cell where
  byte : UInt8
  control : Option (List Nat) := none
deriving DecidableEq

def Cell.plain (byte : UInt8) : Cell := { byte }

namespace Command

variable (c : Command)

def header : List UInt8 := leBytes 2 c.type.code ++ leBytes 2 c.data.length

def bytes : List UInt8 := c.header ++ c.data

def headerCells : List Cell :=
  match c.header with
  | [] => []
  | byte :: bytes => ⟨byte, c.control⟩ :: bytes.map Cell.plain

def cells : List Cell := c.headerCells ++ c.data.map Cell.plain

/-- The length of the data is what the header says. -/
def Fits : Prop := c.data.length < 256 ^ 2

instance : Decidable c.Fits := inferInstanceAs (Decidable (_ < _))

end Command

/-! ## The request of the osxie command -/

inductive Program where
  /-- A shell, for a command line if there are arguments. -/
  | shell (argv : Option { argv : List CString // argv ≠ [] })
  | binary (binary : CString) (argv : List CString)

structure Request where
  login : CString
  environ : List CString
  program : Program
  workingDirectory : CString
  originalUid : Nat
  originalGid : Nat
  fds : Fds

def systemRoot : CString := literal "/Volumes/SystemRoot"

/-- The bytes `'` and `=` and the blank. -/
def quote : UInt8 := 39
def equal : UInt8 := 61
def blank : UInt8 := 32

/-- Each quote is replaced by `'\''`. -/
def escapeQuotes (src : List UInt8) : List UInt8 := src.flatMap fun b => if b = quote then [quote, 92, quote, quote] else [b]

/-- One more argument in the buffer of `spawnShell`. -/
def appendArgument (buffer : List UInt8) (arg : CString) : List UInt8 :=
  (if buffer = [] then [] else buffer ++ [blank]) ++ [quote] ++ escapeQuotes arg.bytes ++ [quote]

def commandLine (argv : List CString) : CString := ofBuffer (argv.foldl appendArgument [])

/-- The name of a variable: what comes before the first `=`. -/
def nameOf (var : CString) : List UInt8 := var.bytes.takeWhile (· ≠ equal)

def skipVars : List CString := [literal "PATH", literal "TMPDIR", literal "HOME"]

def skipIt (var : CString) : Bool := skipVars.any fun skipped => skipped.bytes = nameOf var

def fixedVars : List CString :=
  [literal "PATH=/usr/bin:/bin:/usr/sbin:/sbin:/usr/local/bin", literal "TMPDIR=/private/tmp", literal "LP_NUM_THREADS=1",
    literal "GALLIUM_NTHREADS=1"]

def homeVar (login : CString) : CString := snprintf 4096 ((literal "HOME=/Users/").bytes ++ login.bytes)

def setupShellspawnEnv (login : CString) (environ : List CString) : List Command :=
  fixedVars.map (fun var => pushShellspawnCommand .setEnv (some var)) ++ [pushShellspawnCommand .setEnv (some (homeVar login))] ++
    (environ.filter (!skipIt ·)).map fun var => pushShellspawnCommand .setEnv (some var)

def containerDirectory : CString := snprintf 4096 (systemRoot.bytes ++ workingDirectory.bytes)

def setupWorkingDir : Command :=
    pushShellspawnCommand .chdir (some (containerDirectory workingDirectory))

def setupIDs (originalUid originalGid : Nat) : Command :=
  pushShellspawnCommandData .setUidGid (leBytes 4 originalUid ++ leBytes 4 originalGid)

def addArgs (args : List CString) : List Command := args.map fun arg => pushShellspawnCommand .addArg (some arg)

/-- The arguments that `spawnShell` and `spawnBinary` send. -/
def Program.commands : Program → List Command
  | .shell none => []
  | .shell (some argv) => addArgs [literal "-c", commandLine argv]
  | .binary path argv => pushShellspawnCommand .setExec (some path) :: addArgs argv

namespace Request

variable (r : Request)

/-- Everything before `SHELLSPAWN_GO`. -/
def setup : List Command :=
  setupShellspawnEnv r.login r.environ ++ r.program.commands ++ [setupWorkingDir r.workingDirectory,
    setupIDs r.originalUid r.originalGid]

/-- `spawnShell` or `spawnBinary`. -/
def commands : List Command := r.setup ++ [pushShellspawnCommandFDs .go r.fds]

end Request

end Osxie.Shellspawn
