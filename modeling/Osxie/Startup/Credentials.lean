import Mathlib.Logic.Function.Basic
import Osxie.Lib.Exits

/-!
# The credentials of the osxie command

The `osxie` binary is setuid root. `main` keeps the IDs of the user who called it and becomes root; `setupPrefix`,
`spawnInitProcess` and `main` itself change the effective IDs around what they create for the user. No result of those calls is
looked at, and by Linux' rules a call that is not allowed leaves the IDs as they are.

The state has the IDs, the files and a log: what was created with which effective IDs, and the effective IDs a function has
returned with. What the machine answers otherwise (who may create which file, the passwd entry, the init process) is a `Host`,
and anything. The contents of the files, the options, the environment, the commands sent to shellspawn and the text of `errno`
are left out.
-/

namespace Osxie.Startup

open Prog

structure Creds where
  ruid : Nat
  euid : Nat
  suid : Nat
  rgid : Nat
  egid : Nat
  sgid : Nat
deriving DecidableEq

namespace Creds

def privileged (c : Creds) : Bool := c.euid = 0

def setuid (uid : Nat) (c : Creds) : Creds :=
  if c.privileged then { c with ruid := uid, euid := uid, suid := uid }
  else if uid = c.ruid ∨ uid = c.suid then { c with euid := uid }
  else c

def setgid (gid : Nat) (c : Creds) : Creds :=
  if c.privileged then { c with rgid := gid, egid := gid, sgid := gid }
  else if gid = c.rgid ∨ gid = c.sgid then { c with egid := gid }
  else c

def seteuid (uid : Nat) (c : Creds) : Creds :=
  if c.privileged ∨ uid = c.ruid ∨ uid = c.suid then { c with euid := uid } else c

def setegid (gid : Nat) (c : Creds) : Creds :=
  if c.privileged ∨ gid = c.rgid ∨ gid = c.sgid then { c with egid := gid } else c

end Creds

/-- The functions that create something. -/
inductive Caller where
  | setupPrefix
  | setupWorkdir
  | spawnInitProcess
  | setupShellspawnEnv
deriving DecidableEq

inductive Event where
  | created (caller : Caller) (path : String) (euid egid : Nat)
  | returned (caller : Caller) (euid egid : Nat)
deriving DecidableEq

structure Node where
  isDir : Bool
  uid : Nat
deriving DecidableEq

structure World where
  creds : Creds
  files : String → Option Node
  log : List Event

inductive InitProcess where
  | noFile
  /-- The file does not name an init process of the user. -/
  | stale
  | running (pid : Nat)
deriving DecidableEq

inductive SpawnFailure where
  | pipe
  | unshare
  | fork
  | readPipe
  | childExited
deriving DecidableEq

inductive BootFailure where
  | died
  | timedOut
deriving DecidableEq

inductive Command where
  | shutdown
  | shell
  /-- A program to run; `found` if it is a file. -/
  | program (name : String) (found : Bool)
deriving DecidableEq

/-- What the machine answers. -/
structure Host where
  /-- `DPREFIX`, or the default. -/
  prefixPath : Option String
  /-- `stat` gets to the path. -/
  reaches : Creds → String → Bool
  /-- A file that does not exist can be created, or one that does be opened for writing. -/
  permits : Creds → String → Bool
  /-- `getpwuid`. -/
  passwdName : Nat → Option String
  getlogin : Option String
  initProcess : InitProcess
  spawnFailure : Option SpawnFailure
  bootFailure : Option BootFailure
  connects : Bool
  command : Command

abbrev Proc := Prog World

variable (host : Host) (caller : Caller) (path : String)

/-! ## Calls of the kernel -/

def setCreds (f : Creds → Creds) : Proc Unit := modify fun w => { w with creds := f w.creds }

/-- A new file or directory belongs to the effective user. -/
def create (isDir : Bool) : Proc Unit := modify fun w =>
  { w with
    files := Function.update w.files path (some ⟨isDir, w.creds.euid⟩)
    log := w.log ++ [.created caller path w.creds.euid w.creds.egid] }

def unlink : Proc Unit := modify fun w => { w with files := Function.update w.files path none }

def returned (caller : Caller) : Proc Unit := modify fun w =>
  { w with log := w.log ++ [.returned caller w.creds.euid w.creds.egid] }

/-- `fopen` for writing, and whether it succeeds. -/
def fopenWrite : Proc Bool := do
  let w ← get
  if host.permits w.creds path then
    match w.files path with
    | some node => pure !node.isDir
    | none =>
      create caller path false
      pure true
  else pure false

/-! ## The functions of osxie.c -/

def createDir : Proc Unit := do
  let w ← get
  if host.reaches w.creds path then
    match w.files path with
    | some node => if node.isDir then pure () else exit 1 (path ++ " already exists and is a file. Remove the file.")
    | none => if host.permits w.creds path then create caller path true else exit 1 ("Cannot create " ++ path)
  else exit 1 ("Cannot access " ++ path)

variable (prefixPath : String) (originalUid : Nat)

def checkPrefixDir : Proc Bool := do
  let w ← get
  if host.reaches w.creds prefixPath then
    match w.files prefixPath with
    | some node =>
      if node.isDir then
        pure (host.reaches w.creds (prefixPath ++ "/Volumes") && (w.files (prefixPath ++ "/Volumes")).any (·.isDir))
      else exit 1 (prefixPath ++ " is a file. Remove the file.")
    | none => pure false
  else exit 1 ("Cannot access " ++ prefixPath)

def checkPrefixOwner : Proc Unit := do
  let w ← get
  if host.reaches w.creds prefixPath then
    match w.files prefixPath with
    | some node =>
      if originalUid ≠ 0 ∧ node.uid ≠ originalUid then exit 1 "You do not own the prefix directory." else pure ()
    | none => pure ()
  else exit 1 "You do not own the prefix directory."

def dirs : List String :=
  ["/Volumes", "/Applications", "/Users", "/usr", "/usr/local", "/usr/local/share", "/private", "/private/var", "/private/var/log",
    "/private/var/db", "/private/etc", "/var", "/var/run", "/var/tmp", "/var/log"]

def etcFiles : List String := ["/private/etc/passwd", "/private/etc/master.passwd", "/private/etc/group"]

def setupPrefix (prefixPath : String) (originalUid originalGid : Nat) : Proc Unit := do
  setCreds (Creds.seteuid originalUid)
  setCreds (Creds.setegid originalGid)
  createDir host .setupPrefix prefixPath
  dirs.forM fun dir => createDir host .setupPrefix (prefixPath ++ "/" ++ dir)
  match host.passwdName originalUid with
  | none => exit 1 "Failed to find Linux /etc/passwd entry for current user"
  | some name =>
    etcFiles.forM fun file => do
      let opened ← fopenWrite host .setupPrefix (prefixPath ++ "/" ++ file)
      if opened then pure () else exit 1 ("Failed to open " ++ file ++ " within the prefix")
    createDir host .setupPrefix (prefixPath ++ "/" ++ "/Users/" ++ name)
    setCreds (Creds.seteuid 0)
    setCreds (Creds.setegid 0)
    returned .setupPrefix

/-- The prefix without the slashes at its end. -/
def trimSlashes : String := String.ofList (path.toList.reverse.dropWhile (· = '/')).reverse

def setupWorkdir (prefixPath : String) : Proc Unit := createDir host .setupWorkdir (trimSlashes prefixPath ++ ".workdir")

def SpawnFailure.message : SpawnFailure → String
  | .pipe => "Cannot create a pipe for synchronization"
  | .unshare => "Cannot unshare UTS and IPC namespaces to create osxie-init"
  | .fork => "Cannot fork() to create osxie-init"
  | .readPipe => "Failed to read from pipe (child may have failed)"
  | .childExited => "Child exited without signaling readiness"

def spawnInitProcess (prefixPath : String) (originalUid originalGid : Nat) : Proc Unit := do
  match host.spawnFailure with
  | some failure => exit 1 failure.message
  | none =>
    setCreds (Creds.seteuid originalUid)
    setCreds (Creds.setegid originalGid)
    let _ ← fopenWrite host .spawnInitProcess (prefixPath ++ "/.init.pid")
    setCreds (Creds.seteuid 0)
    setCreds (Creds.setegid 0)
    returned .spawnInitProcess

def getInitProcess : Proc Bool := do
  match host.initProcess with
  | .noFile => pure false
  | .stale =>
    unlink (prefixPath ++ "/.init.pid")
    pure false
  | .running _ => pure true

def connectToShellspawn : Proc Unit := do
  setCreds (Creds.seteuid 0)
  setCreds (Creds.seteuid originalUid)
  if host.connects then pure () else exit 1 "Error connecting to shellspawn in the container"

/-- The part that makes the home directory. -/
def setupShellspawnEnv (prefixPath : String) : Proc Unit := do
  let w ← get
  match (host.passwdName w.creds.euid).or host.getlogin with
  | none => exit 1 "Cannot determine your user name"
  | some login => createDir host .setupShellspawnEnv (prefixPath ++ "/Users/" ++ login)

def startContainer (originalUid originalGid : Nat) : Proc Unit := do
  unlink (prefixPath ++ "/var/run/shellspawn.sock")
  setupWorkdir host prefixPath
  spawnInitProcess host prefixPath originalUid originalGid
  match host.bootFailure with
  | some .died => exit 1 "The container init process died while the container was starting."
  | some .timedOut => exit 1 "Timed out waiting for shellspawn in the container."
  | none => pure ()

/-- `spawnShell` and `spawnBinary`, up to the environment. -/
def spawn : Proc Unit := do
  connectToShellspawn host originalUid
  setupShellspawnEnv host prefixPath

/-- `main`, when it has become root. -/
def asRoot (originalUid originalGid : Nat) : Proc Unit := do
  match host.prefixPath with
  | none => exit 1 "Cannot detect your home directory!"
  | some prefixPath =>
    if prefixPath.length > 255 then exit 1 "Prefix path too long"
    else
      let ready ← checkPrefixDir host prefixPath
      unlessDone ready (setupPrefix host prefixPath originalUid originalGid)
      checkPrefixOwner host prefixPath originalUid
      let running ← getInitProcess host prefixPath
      match host.command with
      | .shutdown => if running then pure () else exit 1 "Osxie container is not running"
      | command =>
        unlessDone running (startContainer host prefixPath originalUid originalGid)
        setCreds (Creds.seteuid originalUid)
        match command with
        | .program name false => exit 1 ("'" ++ name ++ "' is not a supported command or a file.")
        | _ => spawn host prefixPath originalUid

def main : Proc Unit := do
  let w ← get
  if w.creds.euid = 0 then
    setCreds (Creds.setuid 0)
    setCreds (Creds.setgid 0)
    asRoot host w.creds.ruid w.creds.rgid
  else exit 1 "Sorry, the binary is not setuid root, which is mandatory."

/-- A user runs the setuid binary. -/
def login (uid gid : Nat) (files : String → Option Node) : World := ⟨⟨uid, 0, 0, gid, gid, gid⟩, files, []⟩

end Osxie.Startup
