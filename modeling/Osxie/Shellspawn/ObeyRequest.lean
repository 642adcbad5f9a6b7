import Mathlib.Data.List.Induction
import Osxie.Shellspawn.Daemon

/-!
# A daemon that obeys a request has set what the client asks for

What a request asks for is said in terms of the request: the program, the argument vector, the value that is sent last for each
name, the directory and the IDs (`Spawn.Matches`).
-/

namespace Osxie.Shellspawn

open List Option
open CString Spawn

/-! ## What a request asks for -/

namespace Program

/-- The program that is executed, if it is not the shell. -/
def exec : Program → Option CString
  | .shell _ => none
  | .binary path _ => some path

def path (p : Program) : CString := p.exec.getD bash

/-- The argument vector: that of a login shell before what the client sends for it. -/
def argv : Program → List CString
  | .shell none => [bash, literal "--login"]
  | .shell (some argv) => [bash, literal "--login", literal "-c", commandLine argv]
  | .binary _ argv => argv

/-- The strings that are sent for the program are short enough. -/
def Fits : Program → Prop
  | .shell none => True
  | .shell (some argv) => (commandLine argv).withNul.length < 256 ^ 2
  | .binary path argv => path.withNul.length < 256 ^ 2 ∧ ∀ arg ∈ argv, arg.withNul.length < 256 ^ 2

end Program

namespace Request

variable (r : Request)

def sentVars : List CString := fixedVars ++ [homeVar r.login] ++ r.environ.filter (!skipIt ·)

def lastSent (name : List UInt8) : Option (List UInt8) :=
  r.sentVars.reverse.findSome? fun var => (assignment var).bind fun (n, value) => if n = name then some value else none

/-- Every string that is sent is short enough for its length to fit the header. -/
def Fits : Prop := (∀ var ∈ r.environ.filter (!skipIt ·), var.withNul.length < 256 ^ 2) ∧ r.program.Fits

end Request

/-! ## Obeying a request -/

namespace Spawn

variable (enters : CString → Bool)

/-- The data of a command as the daemon gets it. -/
def param (c : Command) : Option (List UInt8) := if c.data = [] then none else some c.data

def obeyAll (d : Spawn) (cs : List Command) : Spawn := cs.foldl (fun d c => d.obey enters c.type (param c)) d

theorem obeyAll_append (d : Spawn) (cs cs' : List Command) :
    d.obeyAll enters (cs ++ cs') = (d.obeyAll enters cs).obeyAll enters cs' :=
  foldl_append

theorem param_string (type : CommandType) (s : CString) : param (pushShellspawnCommand type (some s)) = some s.withNul := by
  rw [param, if_neg]
  · rfl
  · exact append_ne_nil_of_right_ne_nil _ (cons_ne_nil _ _)

/-- Variables go to the environment, and nothing else. -/
theorem obeyAll_setEnv (vars : List CString) (d : Spawn) :
    d.obeyAll enters (vars.map fun var => pushShellspawnCommand .setEnv (some var)) =
      { d with env := vars.foldl putenv d.env } := by
  induction vars generalizing d with
  | nil => rfl
  | cons var vars ih =>
    have hby : d.obey enters .setEnv (param (pushShellspawnCommand .setEnv (some var))) = { d with env := putenv d.env var } := by
      rw [param_string, obey, ofBuffer_withNul]
    exact (congrArg (obeyAll enters · _) hby).trans (ih _)

/-- Arguments are added at the end. -/
theorem obeyAll_addArgs (args : List CString) (d : Spawn) :
    d.obeyAll enters (addArgs args) = { d with argv := d.argv ++ args } := by
  induction args generalizing d with
  | nil => rw [append_nil]; rfl
  | cons arg args ih =>
    have hby : d.obey enters .addArg (param (pushShellspawnCommand .addArg (some arg))) = { d with argv := d.argv ++ [arg] } := by
      rw [param_string, obey, ofBuffer_withNul]
    refine (congrArg (obeyAll enters · _) hby).trans ((ih _).trans ?_)
    rw [append_assoc, singleton_append]

/-- The program's commands set its path and its arguments. -/
theorem obeyAll_program (p : Program) (env : List UInt8 → Option (List UInt8)) (directory : CString) :
    (new env directory).obeyAll enters p.commands = { new env directory with exec := p.exec, argv := p.argv } := by
  match p with
  | .shell none => rfl
  | .shell (some argv) =>
    rw [Program.commands, obeyAll_addArgs]
    rfl
  | .binary path argv =>
    have hby : (new env directory).obey enters .setExec (param (pushShellspawnCommand .setExec (some path))) =
        { new env directory with exec := some path, argv := [] } := by
      rw [param_string, obey, map_some, ofBuffer_withNul]
    exact (congrArg (obeyAll enters · _) hby).trans (obeyAll_addArgs enters argv _)

/-- The last commands before the start set the directory and the IDs. -/
theorem obeyAll_directory {enters} {workingDirectory : CString} (hent : enters (containerDirectory workingDirectory) = true)
    (uid gid : Nat) (d : Spawn) :
    d.obeyAll enters [setupWorkingDir workingDirectory, setupIDs uid gid] =
      { d with directory := containerDirectory workingDirectory, ids := some (uid % 256 ^ 4, gid % 256 ^ 4) } := by
  have hchdir : d.obey enters .chdir (param (setupWorkingDir workingDirectory)) =
      { d with directory := containerDirectory workingDirectory } := by
    rw [setupWorkingDir, param_string, obey, ofBuffer_withNul, chdir, if_pos hent]
  show (d.obey enters .chdir (param (setupWorkingDir workingDirectory))).obey enters .setUidGid
    (some (leBytes 4 uid ++ leBytes 4 gid)) = _
  rw [hchdir, obey, if_neg (by simp), take_left' (length_leBytes 4 uid), drop_left' (length_leBytes 4 uid),
    take_of_length_le (Nat.le_of_eq (length_leBytes 4 gid)), ofLeBytes_leBytes, ofLeBytes_leBytes]

end Spawn

/-- The value that was put last for a name stays. -/
theorem foldl_putenv (vars : List CString) (env : List UInt8 → Option (List UInt8)) (name : List UInt8) :
    vars.foldl putenv env name = (vars.reverse.findSome? fun var =>
      (assignment var).bind fun (n, value) => if n = name then some value else none).or (env name) := by
  induction vars using reverseRecOn with
  | nil => rfl
  | append_singleton vars var ih =>
    rw [foldl_append, foldl_cons, foldl_nil, reverse_append, reverse_singleton, singleton_append, findSome?_cons, putenv]
    cases hvar : assignment var with
    | none => exact ih
    | some nv =>
      obtain ⟨n, value⟩ := nv
      simp only [bind_some]
      by_cases hn : n = name
      · subst hn
        rw [if_pos rfl, Function.update_self]
        rfl
      · rw [if_neg hn, Function.update_of_ne (Ne.symm hn)]
        exact ih

/-- What the daemon has set is what the request asks for. -/
structure Spawn.Matches (d : Spawn) (r : Request) : Prop where
  path : d.path = r.program.path
  argv : d.argv = r.program.argv
  env : ∀ {name value}, r.lastSent name = some value → d.env name = some value
  directory : d.directory = containerDirectory r.workingDirectory
  ids : d.ids = some (r.originalUid % 256 ^ 4, r.originalGid % 256 ^ 4)

theorem Request.setupShellspawnEnv_eq (r : Request) :
    setupShellspawnEnv r.login r.environ = r.sentVars.map fun var => pushShellspawnCommand .setEnv (some var) := by
  rfl

/-- A daemon that has obeyed everything before `SHELLSPAWN_GO` has set what the request asks for. -/
theorem Request.matches_setup (r : Request) {enters : CString → Bool}
    (hent : enters (containerDirectory r.workingDirectory) = true)
    (env : List UInt8 → Option (List UInt8)) (directory : CString) :
    ((new env directory).obeyAll enters r.setup).Matches r := by
  have hset : (new env directory).obeyAll enters r.setup =
      { exec := r.program.exec, argv := r.program.argv, env := r.sentVars.foldl putenv env,
        directory := containerDirectory r.workingDirectory, ids := some (r.originalUid % 256 ^ 4, r.originalGid % 256 ^ 4) } := by
    have henv : (new env directory).obeyAll enters (setupShellspawnEnv r.login r.environ) =
        new (r.sentVars.foldl putenv env) directory :=
      (congrArg _ r.setupShellspawnEnv_eq).trans (obeyAll_setEnv enters r.sentVars _)
    rw [setup, obeyAll_append, obeyAll_append, henv, obeyAll_program, obeyAll_directory hent]
    rfl
  rw [hset]
  refine ⟨rfl, rfl, fun {name value} h => ?_, rfl, rfl⟩
  dsimp only
  rw [foldl_putenv, show r.sentVars.reverse.findSome? _ = some value from h]
  rfl

end Osxie.Shellspawn
