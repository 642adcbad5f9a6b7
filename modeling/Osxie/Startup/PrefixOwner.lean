import Osxie.Startup.Credentials

/-!
# What the osxie command creates belongs to group 0

`setupPrefix` and `spawnInitProcess` give up the user ID first, and then the group ID; a process that is not privileged any more
can choose only its real and its saved group, and both are 0 since `main`. So everything is created with the user's ID and with
group 0 (`At`).
-/

namespace Osxie.Startup

open Prog Triple Creds List

/-- A file that a function creates for the user has the user's IDs, and a function returns with the IDs of root. -/
def Event.Owned (uid gid : Nat) : Event → Prop
  | .created .setupWorkdir _ _ _ => True
  | .created _ _ euid egid => euid = uid ∧ egid = gid
  | .returned _ euid egid => euid = 0 ∧ egid = 0

instance (uid gid : Nat) (e : Event) : Decidable (e.Owned uid gid) := by
  unfold Event.Owned
  split <;> infer_instance

/-- Everything so far was created for its owner. -/
def Owned (uid gid : Nat) (w : World) : Prop := ∀ e ∈ w.log, e.Owned uid gid

instance (uid gid : Nat) (w : World) : Decidable (Owned uid gid w) := decidableBAll _ w.log

/-! ## The IDs -/

def root : Creds := ⟨0, 0, 0, 0, 0, 0⟩

/-- The IDs when the user ID has been given up. -/
def dropped (uid : Nat) : Creds := { root with euid := uid }

variable {uid gid : Nat}

theorem seteuid_root (uid : Nat) : root.seteuid uid = dropped uid := rfl

/-- The group ID cannot be given up after the user ID. -/
theorem setegid_dropped (huid : uid ≠ 0) (gid : Nat) : (dropped uid).setegid gid = dropped uid := by
  unfold setegid
  split
  · rename_i h
    simp only [privileged, dropped, root, huid, decide_false, Bool.false_eq_true, false_or, or_self] at h
    rw [h]
    rfl
  · rfl

theorem seteuid_zero_dropped (uid : Nat) : (dropped uid).seteuid 0 = root := by
  unfold seteuid
  rw [if_pos (.inr (.inl rfl))]
  rfl

/-! ## What is created -/

/-- The IDs, and the log so far. -/
def At (uid : Nat) (c : Creds) (w : World) : Prop := w.creds = c ∧ Owned uid 0 w

variable {c : Creds} {caller : Caller}

theorem at_setCreds (f : Creds → Creds) : Triple (At uid c) (setCreds f) (fun _ => At uid (f c)) (Owned uid 0) :=
  modify fun _ ⟨hc, hlog⟩ => ⟨congrArg f hc, hlog⟩

/-- A function creates something for the user only when the user ID has been given up. -/
theorem at_create (hc : caller = .setupWorkdir ∨ c = dropped uid) (path : String) (isDir : Bool) :
    Triple (At uid c) (create caller path isDir) (fun _ => At uid c) (Owned uid 0) := by
  refine modify fun w ⟨hcr, hlog⟩ => ⟨hcr, fun e he => ?_⟩
  rcases mem_append.1 he with he | he
  · exact hlog e he
  · rw [mem_singleton] at he
    subst he
    rcases hc with rfl | rfl
    · trivial
    · rw [hcr]
      cases caller <;> trivial

theorem at_unlink (path : String) : Triple (At uid c) (unlink path) (fun _ => At uid c) (Owned uid 0) := modify fun _ h => h

theorem at_returned (caller : Caller) : Triple (At uid root) (returned caller) (fun _ => At uid root) (Owned uid 0) := by
  refine modify fun w ⟨hcr, hlog⟩ => ⟨hcr, fun e he => ?_⟩
  rcases mem_append.1 he with he | he
  · exact hlog e he
  · rw [mem_singleton] at he
    subst he
    rw [hcr]
    exact ⟨rfl, rfl⟩

variable {α : Type} {Q : α → World → Prop}

/-- The process exits with what it has created so far. -/
theorem at_exit {code : Nat} {message : String} : Triple (At uid c) (Prog.exit code message) Q (Owned uid 0) :=
  exit fun _ h => h.2

theorem at_pure (a : α) : Triple (At uid c) (pure a) (fun _ => At uid c) (Owned uid 0) := pure fun _ h => h

/-- A program that looks at the state and goes on in it. -/
theorem at_get {f : World → Proc α} (h : ∀ w, w.creds = c → Triple (At uid c) (f w) Q (Owned uid 0)) :
    Triple (At uid c) (Prog.get >>= f) Q (Owned uid 0) :=
  get_bind fun w hw => (h w hw.1).weaken (fun _ heq => heq ▸ hw) fun _ _ => id

variable (host : Host)

theorem at_fopenWrite (hc : caller = .setupWorkdir ∨ c = dropped uid) (path : String) :
    Triple (At uid c) (fopenWrite host caller path) (fun _ => At uid c) (Owned uid 0) := by
  refine at_get fun w _ => ?_
  split
  · split
    · exact at_pure _
    · exact (at_create hc path false).bind fun _ => at_pure true
  · exact at_pure false

theorem at_createDir (hc : caller = .setupWorkdir ∨ c = dropped uid) (path : String) :
    Triple (At uid c) (createDir host caller path) (fun _ => At uid c) (Owned uid 0) := by
  refine at_get fun w _ => ?_
  split
  · split
    · split
      · exact at_pure ()
      · exact at_exit
    · split
      · exact at_create hc path true
      · exact at_exit
  · exact at_exit

theorem at_checkPrefixDir (prefixPath : String) :
    Triple (At uid c) (checkPrefixDir host prefixPath) (fun _ => At uid c) (Owned uid 0) := by
  refine at_get fun w _ => ?_
  split
  · split
    · split
      · exact at_pure _
      · exact at_exit
    · exact at_pure false
  · exact at_exit

theorem at_checkPrefixOwner (prefixPath : String) (originalUid : Nat) :
    Triple (At uid c) (checkPrefixOwner host prefixPath originalUid) (fun _ => At uid c) (Owned uid 0) := by
  refine at_get fun w _ => ?_
  split
  · split
    · split
      · exact at_exit
      · exact at_pure ()
    · exact at_pure ()
  · exact at_exit

/-! ## The functions -/

variable (huid : uid ≠ 0) (gid : Nat) (prefixPath : String)

/-- The IDs are given up for the user. -/
theorem at_drop (huid : uid ≠ 0) (gid : Nat) {m : Proc α} (hm : Triple (At uid (dropped uid)) m Q (Owned uid 0)) :
    Triple (At uid root) (do setCreds (seteuid uid); setCreds (setegid gid); m) Q (Owned uid 0) := by
  refine (at_setCreds _).bind fun _ => (at_setCreds _).bind fun _ => ?_
  rw [seteuid_root, setegid_dropped huid]
  exact hm

/-- The IDs are taken back, and the function returns. -/
theorem at_restore (caller : Caller) : Triple (At uid (dropped uid))
    (do setCreds (seteuid 0); setCreds (setegid 0); returned caller) (fun _ => At uid root) (Owned uid 0) := by
  refine (at_setCreds _).bind fun _ => (at_setCreds _).bind fun _ => ?_
  rw [seteuid_zero_dropped]
  exact at_returned caller

include huid

theorem at_setupPrefix : Triple (At uid root) (setupPrefix host prefixPath uid gid) (fun _ => At uid root) (Owned uid 0) := by
  refine at_drop huid gid ((at_createDir host (.inr rfl) _).bind fun _ => (forM fun dir _ => ?_).bind fun _ => ?_)
  · exact at_createDir host (.inr rfl) _
  split
  · exact at_exit
  · refine (forM fun file _ => (at_fopenWrite host (.inr rfl) _).bind fun opened => ?_).bind fun _ =>
      (at_createDir host (.inr rfl) _).bind fun _ => at_restore .setupPrefix
    split
    · exact at_pure ()
    · exact at_exit

theorem at_spawnInitProcess : Triple (At uid root) (spawnInitProcess host prefixPath uid gid) (fun _ => At uid root)
    (Owned uid 0) := by
  unfold spawnInitProcess
  split
  · exact at_exit
  · exact at_drop huid gid ((at_fopenWrite host (.inr rfl) _).bind fun _ => at_restore .spawnInitProcess)

theorem at_startContainer : Triple (At uid root) (startContainer host prefixPath uid gid) (fun _ => At uid root) (Owned uid 0) := by
  refine (at_unlink _).bind fun _ => (at_createDir host (.inl rfl) _).bind fun _ =>
    (at_spawnInitProcess host huid gid prefixPath).bind fun _ => ?_
  split
  · exact at_exit
  · exact at_exit
  · exact at_pure ()

omit huid

theorem at_getInitProcess : Triple (At uid c) (getInitProcess host prefixPath) (fun _ => At uid c) (Owned uid 0) := by
  unfold getInitProcess
  split
  · exact at_pure false
  · exact (at_unlink _).bind fun _ => at_pure false
  · exact at_pure true

theorem at_spawn : Triple (At uid (dropped uid)) (spawn host prefixPath uid) (fun _ => At uid (dropped uid)) (Owned uid 0) := by
  have hcon : Triple (At uid (dropped uid)) (connectToShellspawn host uid) (fun _ => At uid (dropped uid)) (Owned uid 0) := by
    refine (at_setCreds _).bind fun _ => (at_setCreds _).bind fun _ => ?_
    rw [seteuid_zero_dropped]
    split
    · exact at_pure ()
    · exact at_exit
  refine hcon.bind fun _ => at_get fun w _ => ?_
  split
  · exact at_exit
  · exact at_createDir host (.inr rfl) _

include huid

theorem at_asRoot : Triple (At uid root) (asRoot host uid gid) (fun _ => Owned uid 0) (Owned uid 0) := by
  unfold asRoot
  split
  · exact at_exit
  split
  · exact at_exit
  refine (at_checkPrefixDir host _).bind fun _ => (unlessDone (at_setupPrefix host huid gid _)).bind fun _ =>
    (at_checkPrefixOwner host _ uid).bind fun _ => (at_getInitProcess host _).bind fun running => ?_
  split
  · split
    · exact pure fun _ h => h.2
    · exact at_exit
  · refine (unlessDone (at_startContainer host huid gid _)).bind fun _ => (at_setCreds _).bind fun _ => ?_
    split
    · exact at_exit
    · exact (at_spawn host _).weaken (fun _ => id) fun _ _ h => h.2

/-- Everything that `main` creates for the user is created with the user's ID and with group 0. -/
theorem owned_main (files : String → Option Node) : Owned uid 0 (main host (login uid gid files)).state := by
  refine outcome (get_bind fun w hw => ?_) rfl
  subst hw
  refine (modify (Q := fun _ w => w.creds = (login uid gid files).creds.setuid 0 ∧ w.log = []) fun w hw => ?_).bind fun _ =>
    (modify fun w hw => ?_).bind fun _ => at_asRoot host huid gid
  · subst hw
    exact ⟨rfl, rfl⟩
  · refine ⟨by rw [hw.1]; rfl, fun e he => ?_⟩
    rw [hw.2] at he
    cases he

omit huid

/-- A machine without a prefix; `permits` says where the user can create it. -/
def freshHost (permits : String → Bool) : Host where
  prefixPath := some "/home/user/.osxie"
  reaches _ _ := true
  permits _ path := permits path
  passwdName _ := some "user"
  getlogin := none
  initProcess := .noFile
  spawnFailure := none
  bootFailure := none
  connects := true
  command := .shell

/-- The prefix can be created, and nothing in it. -/
theorem main_onlyPrefix (uid gid : Nat) :
    (main (freshHost (· == "/home/user/.osxie")) (login uid gid fun _ => none)).state.log =
      [.created .setupPrefix "/home/user/.osxie" ((dropped uid).setegid gid).euid ((dropped uid).setegid gid).egid] :=
  rfl

/-- What a user's calls of `osxie` create has the user's IDs exactly if the user's group is 0. -/
theorem prefix_owned_iff (huid : uid ≠ 0) (gid : Nat) :
    (∀ host files, Owned uid gid (main host (login uid gid files)).state) ↔ gid = 0 := by
  constructor
  · intro h
    have hcre := h _ _ _ (main_onlyPrefix uid gid ▸ mem_cons_self)
    rw [setegid_dropped huid] at hcre
    exact hcre.2.symm
  · intro hgid host files
    subst hgid
    exact owned_main host huid 0 files

/-- A user of group 0, and one of group 1000. -/
theorem prefix_owned_iff_user : (∀ host files, Owned 1000 0 (main host (login 1000 0 files)).state) ∧
    ¬∀ host files, Owned 1000 1000 (main host (login 1000 1000 files)).state :=
  ⟨(prefix_owned_iff (by decide) 0).2 rfl, mt (prefix_owned_iff (by decide) 1000).1 (by decide)⟩

/-- User 1000 of group 1000 sets up a new prefix. -/
theorem fresh_prefix_not_owned : ¬Owned 1000 1000 (main (freshHost fun _ => true) (login 1000 1000 fun _ => none)).state := by
  decide +kernel

end Osxie.Startup
