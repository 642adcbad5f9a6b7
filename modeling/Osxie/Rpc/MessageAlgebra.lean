import Mathlib.Data.List.Perm.Basic
import Osxie.Lib.Machine
import Osxie.Rpc.Message

/-!
# What a message owns

What a whole sequence of operations of `Message` does to the descriptors the message owns and to its credentials. The
specification is the one of the header file: a push adds a descriptor, an extraction takes out the one it returns,
`replaceDescriptors` leaves the given ones, and the credentials have nothing to do with the descriptors. -1 is not a descriptor.
-/

namespace Osxie.Rpc

open List Option Message

namespace Message

/-- The loop of `extractDescriptor`: the slots with the first one that holds the descriptor emptied. -/
def emptyFirst (descriptor : Int) : List Int → Option (List Int)
  | [] => none
  | fd :: fds => if fd ≠ descriptor then (emptyFirst descriptor fds).map (fd :: ·) else some (-1 :: fds)

/-- Takes out the given descriptor: the descriptor, or -1 if it was not found, and the message without it. -/
def extractDescriptor (descriptor : Int) (m : Message) : Int × Message :=
  match emptyFirst descriptor m.slots with
  | some slots => (descriptor, { m with slots := slots })
  | none => (-1, m)

/-- Gives the message the descriptors of a list in place of its own. -/
def replaceDescriptors (uninit : Nat → Nat → Int) (newDescriptors : List Int) (m : Message) : Message :=
  let resized := m.ensureDescriptorHeader uninit newDescriptors.length
  { resized with slots := newDescriptors ++ resized.slots.drop newDescriptors.length }

variable (ourCreds : Credentials)

/-- Gives a message that has none the server's own credentials; the descriptors are copied. -/
def ensureCredentialsHeader (m : Message) : Message :=
  match m.credentials with
  | some _ => m
  | none => { m with credentials := some ourCreds }

def copyCredentialsOut (m : Message) : Option Credentials := m.credentials

def copyCredentialsIn (ourCreds inputCredentials : Credentials) (m : Message) : Message :=
  { m.ensureCredentialsHeader ourCreds with credentials := some inputCredentials }

/-- The setters: they copy the credentials out, change one field and copy them in. -/
def setCredential (change : Credentials → Credentials) (m : Message) : Message :=
  let ensured := m.ensureCredentialsHeader ourCreds
  ensured.copyCredentialsIn ourCreds (change (ensured.copyCredentialsOut.getD ourCreds))

def setPID (pid : Int) : Message → Message := setCredential ourCreds ({ · with pid := pid })

def setUID (uid : Int) : Message → Message := setCredential ourCreds ({ · with uid := uid })

def setGID (gid : Int) : Message → Message := setCredential ourCreds ({ · with gid := gid })

def pid (m : Message) : Int := (m.copyCredentialsOut.map (·.pid)).getD (-1)

/-- The UID; without credentials it is -1, as a `uid_t`. -/
def uid (m : Message) : Int := (m.copyCredentialsOut.map (·.uid)).getD (2 ^ 32 - 1)

/-- The GID; without credentials it is -1, as a `gid_t`. -/
def gid (m : Message) : Int := (m.copyCredentialsOut.map (·.gid)).getD (2 ^ 32 - 1)

end Message

/-- The operations on a message. Those that may allocate carry what the new memory holds. -/
inductive MessageOp where
  | pushDescriptor (uninit : Nat → Nat → Int) (descriptor : Int)
  | extractDescriptor (descriptor : Int)
  | extractDescriptorAtIndex (index : Nat)
  | replaceDescriptors (uninit : Nat → Nat → Int) (newDescriptors : List Int)
  | setPID (pid : Int)
  | setUID (uid : Int)
  | setGID (gid : Int)
  | copyCredentialsIn (inputCredentials : Credentials)

variable (ourCreds : Credentials)

namespace MessageOp

/-- What an operation returns, if anything, and the message after it. -/
def apply (m : Message) : MessageOp → Option Int × Message
  | pushDescriptor uninit descriptor => (none, m.pushDescriptor uninit descriptor)
  | extractDescriptor descriptor => let r := m.extractDescriptor descriptor; (some r.1, r.2)
  | extractDescriptorAtIndex index => let r := m.extractDescriptorAtIndex index; (some r.1, r.2)
  | replaceDescriptors uninit newDescriptors => (none, m.replaceDescriptors uninit newDescriptors)
  | setPID pid => (none, m.setPID ourCreds pid)
  | setUID uid => (none, m.setUID ourCreds uid)
  | setGID gid => (none, m.setGID ourCreds gid)
  | copyCredentialsIn inputCredentials => (none, m.copyCredentialsIn ourCreds inputCredentials)

/-- The credentials that an operation sets, over those set before. -/
def sets (c : Credentials) : MessageOp → Credentials
  | setPID pid => { c with pid := pid }
  | setUID uid => { c with uid := uid }
  | setGID gid => { c with gid := gid }
  | copyCredentialsIn inputCredentials => inputCredentials
  | _ => c

/-- What an operation is to do to the descriptors, given what it returned and the message after it. -/
def Specified (m : Message) (r : Option Int × Message) : MessageOp → Prop
  | pushDescriptor _ descriptor => r.2.descriptors.Perm (present [descriptor] ++ m.descriptors)
  | extractDescriptor descriptor =>
    if descriptor ∈ m.descriptors then r.1 = some descriptor ∧ m.descriptors.Perm (descriptor :: r.2.descriptors)
    else r.1 = some (-1) ∧ r.2.descriptors = m.descriptors
  | extractDescriptorAtIndex index =>
    match m.descriptors[index]? with
    | some descriptor => r.1 = some descriptor ∧ m.descriptors.Perm (descriptor :: r.2.descriptors)
    | none => r.1 = some (-1) ∧ r.2.descriptors = m.descriptors
  | replaceDescriptors _ newDescriptors => r.2.descriptors = present newDescriptors
  | setPID _ | setUID _ | setGID _ | copyCredentialsIn _ => r.2.descriptors = m.descriptors

/-- A push finds an empty slot, or a message without slots. -/
def HasRoom (m : Message) : MessageOp → Prop
  | pushDescriptor _ _ => m.slots = [] ∨ -1 ∈ m.slots
  | _ => True

instance (m : Message) (op : MessageOp) : Decidable (op.HasRoom m) := by
  cases op <;> unfold HasRoom <;> infer_instance

end MessageOp

structure MessageInUse where
  message : Message
  lastSet : Credentials
deriving DecidableEq

namespace MessageInUse

/-- A message from its construction on, used by a process of the given credentials. -/
def machine (descriptorSpace : Nat) : Machine MessageInUse MessageOp where
  init := ⟨new ourCreds descriptorSpace, ourCreds⟩
  step s op := some ⟨(op.apply ourCreds s.message).2, op.sets s.lastSet⟩

end MessageInUse

/-! ## The descriptors -/

namespace Message

variable {m : Message}

theorem present_append (a b : List Int) : present (a ++ b) = present a ++ present b := filter_append ..

variable {slots emptied : List Int}

/-- With an empty slot, a descriptor is added to those there are. -/
theorem present_fillEmpty (h : -1 ∈ slots) (descriptor : Int) :
    ∃ filled, fillEmpty descriptor slots = some filled ∧ (present filled).Perm (present [descriptor] ++ present slots) := by
  induction slots with
  | nil => cases h
  | cons fd fds ih =>
    by_cases hfd : fd = -1
    · subst hfd
      refine ⟨descriptor :: fds, by simp [fillEmpty], ?_⟩
      rw [← present_append]
      exact .refl _
    · obtain ⟨filled, hfil, hpm⟩ := ih ((mem_cons.1 h).resolve_left fun heq => hfd heq.symm)
      refine ⟨fd :: filled, by simp [fillEmpty, hfd, hfil], ?_⟩
      rw [present_cons hfd, present_cons hfd]
      exact (hpm.cons fd).trans perm_middle.symm

theorem pushDescriptor_perm (uninit : Nat → Nat → Int) (descriptor : Int) (h : m.slots = [] ∨ -1 ∈ m.slots) :
    (m.pushDescriptor uninit descriptor).descriptors.Perm (present [descriptor] ++ m.descriptors) := by
  rcases h with hnil | hemp
  · have hslots := slots_pushDescriptor_full uninit descriptor (by rw [hnil]; nofun)
    have hspace : m.descriptorSpace = 0 := by rw [descriptorSpace, hnil, length_nil]
    rw [descriptors, descriptors, hslots, hspace, hnil, present_nil, append_nil]
    exact .refl _
  · obtain ⟨filled, hfil, hpm⟩ := present_fillEmpty hemp descriptor
    rw [pushDescriptor, hfil]
    exact hpm

variable {descriptor : Int}

/-- A full message loses its descriptors when the new memory looks empty. -/
theorem hasRoom_of_pushDescriptor_perm
    (h : ∀ uninit, (m.pushDescriptor uninit descriptor).descriptors.Perm (present [descriptor] ++ m.descriptors)) :
    m.slots = [] ∨ -1 ∈ m.slots := by
  by_contra hfu
  obtain ⟨hne, hemp⟩ := not_or.1 hfu
  have hall : ∀ fd ∈ m.slots, fd ≠ -1 := fun fd hfd heq => hemp (heq ▸ hfd)
  have hlen := (h fun _ _ => -1).length_eq
  have hlist : present ((range m.descriptorSpace).map fun _ => (-1 : Int)) = [] := by
    refine filter_eq_nil_iff.2 fun fd hfd => ?_
    obtain ⟨_, _, rfl⟩ := mem_map.1 hfd
    simp
  have hkept : m.descriptors = m.slots := filter_eq_self.2 fun fd hfd => by simpa using hall fd hfd
  rw [descriptors, slots_pushDescriptor_full _ _ hall, present_append, hlist, hkept, nil_append, length_append] at hlen
  exact hne (length_eq_zero_iff.1 (by omega))

theorem emptyFirst_eq_none : emptyFirst descriptor slots = none ↔ descriptor ∉ slots := by
  induction slots with
  | nil => simp [emptyFirst]
  | cons fd fds ih =>
    by_cases hfd : fd = descriptor
    · simp [emptyFirst, hfd]
    · simp [emptyFirst, hfd, ih, Ne.symm hfd]

theorem perm_of_emptyFirst (h : emptyFirst descriptor slots = some emptied) :
    (present slots).Perm (present [descriptor] ++ present emptied) := by
  induction slots generalizing emptied with
  | nil => cases h
  | cons fd fds ih =>
    by_cases hfd : fd = descriptor
    · obtain rfl : -1 :: fds = emptied := by simpa [emptyFirst, hfd] using h
      rw [hfd, ← present_append]
      exact .refl _
    · obtain ⟨rest, hrs, rfl⟩ : ∃ rest, emptyFirst descriptor fds = some rest ∧ fd :: rest = emptied := by
        simpa [emptyFirst, hfd] using h
      have hsplit : ∀ l, present (fd :: l) = present [fd] ++ present l := present_append [fd]
      rw [hsplit fds, hsplit rest]
      exact ((ih hrs).append_left _).trans (perm_append_comm_assoc ..)

/-- A descriptor that is there is taken out. -/
theorem extractDescriptor_of_mem (h : descriptor ∈ m.descriptors) :
    (m.extractDescriptor descriptor).1 = descriptor ∧
      m.descriptors.Perm (descriptor :: (m.extractDescriptor descriptor).2.descriptors) := by
  obtain ⟨hmem, hpres⟩ := mem_filter.1 h
  obtain ⟨emptied, hmp⟩ := ne_none_iff_exists'.1 fun hno => emptyFirst_eq_none.1 hno hmem
  have hpm := perm_of_emptyFirst hmp
  rw [present_cons (by simpa using hpres)] at hpm
  rw [extractDescriptor, hmp]
  exact ⟨rfl, hpm⟩

/-- The first slot that holds -1 is set to -1. -/
theorem eq_of_emptyFirst_neg_one (h : emptyFirst (-1) slots = some emptied) : emptied = slots := by
  induction slots generalizing emptied with
  | nil => cases h
  | cons fd fds ih =>
    by_cases hfd : fd = -1
    · simpa [emptyFirst, hfd, eq_comm] using h
    · obtain ⟨rest, hrs, rfl⟩ : ∃ rest, emptyFirst (-1) fds = some rest ∧ fd :: rest = emptied := by
        simpa [emptyFirst, hfd] using h
      rw [ih hrs]

/-- One that is not there, or -1, changes nothing. -/
theorem extractDescriptor_of_notMem (h : descriptor ∉ m.descriptors) :
    (m.extractDescriptor descriptor).1 = -1 ∧ (m.extractDescriptor descriptor).2.descriptors = m.descriptors := by
  unfold extractDescriptor
  split
  · rename_i emptied hmp
    have hmem : descriptor ∈ m.slots := by
      by_contra hnot
      rw [emptyFirst_eq_none.2 hnot] at hmp
      cases hmp
    obtain rfl : descriptor = -1 := by
      by_contra hne
      exact h (mem_filter.2 ⟨hmem, by simpa using hne⟩)
    refine ⟨rfl, ?_⟩
    exact congrArg present (eq_of_emptyFirst_neg_one hmp)
  · exact ⟨rfl, rfl⟩

variable (uninit : Nat → Nat → Int)

theorem slots_replaceDescriptors (newDescriptors : List Int) :
    (m.replaceDescriptors uninit newDescriptors).slots = newDescriptors := by
  have hlen : (m.ensureDescriptorHeader uninit newDescriptors.length).slots.length = newDescriptors.length := by
    unfold ensureDescriptorHeader
    split
    · assumption
    · simp
  simp only [replaceDescriptors]
  rw [drop_of_length_le (Nat.le_of_eq hlen), append_nil]

theorem slots_ensureCredentialsHeader : (m.ensureCredentialsHeader ourCreds).slots = m.slots := by
  unfold ensureCredentialsHeader
  split <;> rfl

theorem slots_copyCredentialsIn (ourCreds c : Credentials) : (m.copyCredentialsIn ourCreds c).slots = m.slots :=
  slots_ensureCredentialsHeader ourCreds

theorem slots_setCredential (change : Credentials → Credentials) :
    (m.setCredential ourCreds change).slots = m.slots :=
  (slots_copyCredentialsIn ourCreds _).trans (slots_ensureCredentialsHeader ourCreds)

/-! ## The credentials -/

theorem credentials_ensureDescriptorHeader (newSpace : Nat) :
    (m.ensureDescriptorHeader uninit newSpace).credentials = m.credentials := by
  unfold ensureDescriptorHeader
  split <;> rfl

theorem credentials_pushDescriptor (descriptor : Int) :
    (m.pushDescriptor uninit descriptor).credentials = m.credentials := by
  unfold pushDescriptor
  split
  · rfl
  · exact credentials_ensureDescriptorHeader ..

theorem credentials_extractDescriptor (descriptor : Int) : (m.extractDescriptor descriptor).2.credentials = m.credentials := by
  unfold extractDescriptor
  split <;> rfl

theorem credentials_setCredential {c : Credentials} (h : m.credentials = some c) (ourCreds : Credentials)
    (change : Credentials → Credentials) : (m.setCredential ourCreds change).credentials = some (change c) := by
  simp [setCredential, copyCredentialsIn, copyCredentialsOut, ensureCredentialsHeader, h]

end Message

/-! ## Sequences of operations -/

namespace MessageOp

variable {m : Message}

/-- An operation that has room does what it is to do. -/
theorem specified_of_hasRoom {op : MessageOp} (h : op.HasRoom m) :
    op.Specified m (op.apply ourCreds m) := by
  cases op with
  | pushDescriptor uninit descriptor => exact pushDescriptor_perm uninit descriptor h
  | extractDescriptor descriptor =>
    simp only [Specified]
    split
    · rename_i hmem
      obtain ⟨h1, h2⟩ := extractDescriptor_of_mem hmem
      exact ⟨congrArg some h1, h2⟩
    · rename_i hmem
      obtain ⟨h1, h2⟩ := extractDescriptor_of_notMem hmem
      exact ⟨congrArg some h1, h2⟩
  | extractDescriptorAtIndex index =>
    have h1 := extractDescriptorAtIndex_fst index m
    have h2 := descriptors_extractDescriptorAtIndex index m
    simp only [Specified]
    split
    · rename_i descriptor hget
      obtain ⟨hlt, hdesc⟩ := List.getElem?_eq_some_iff.1 hget
      rw [hget] at h1
      refine ⟨congrArg some h1, ?_⟩
      show m.descriptors.Perm (descriptor :: (m.extractDescriptorAtIndex index).2.descriptors)
      rw [h2, ← hdesc]
      exact (getElem_cons_eraseIdx_perm hlt).symm
    · rename_i hget
      rw [hget] at h1
      exact ⟨congrArg some h1, h2.trans (eraseIdx_of_length_le (getElem?_eq_none_iff.1 hget))⟩
  | replaceDescriptors uninit newDescriptors => exact congrArg present (slots_replaceDescriptors ..)
  | setPID pid | setUID uid | setGID gid => exact congrArg present (slots_setCredential ..)
  | copyCredentialsIn c => exact congrArg present (slots_copyCredentialsIn ..)

/-- Whatever else it does, an operation leaves the credentials that it sets, or those there were. -/
theorem credentials_apply {c : Credentials} (h : m.credentials = some c) (op : MessageOp) :
    (op.apply ourCreds m).2.credentials = some (op.sets c) := by
  cases op with
  | pushDescriptor uninit descriptor => exact (credentials_pushDescriptor ..).trans h
  | extractDescriptor descriptor => exact (credentials_extractDescriptor ..).trans h
  | extractDescriptorAtIndex index => exact h
  | replaceDescriptors uninit newDescriptors => exact (credentials_ensureDescriptorHeader ..).trans h
  | setPID pid | setUID uid | setGID gid => exact credentials_setCredential h ..
  | copyCredentialsIn c => rfl

end MessageOp

namespace MessageInUse

variable {ourCreds : Credentials} {descriptorSpace : Nat} {s : MessageInUse}

/-- The credentials of a message are the ones last set, whatever happens to its descriptors. -/
theorem credentials_of_reaches {ok : MessageInUse → MessageOp → Prop} (h : (machine ourCreds descriptorSpace).Reaches ok s) :
    s.message.credentials = some s.lastSet := by
  refine h.invariant (I := fun s => s.message.credentials = some s.lastSet) rfl ?_
  intro s op s' hs _ hst
  cases hst
  exact op.credentials_apply ourCreds hs

/-- After any operations that had room, the credentials read back what was last set, and every operation that has room changes
the descriptors as it is to; a push does so, whatever the new memory holds, only if it has room. -/
theorem message_algebra (h : (machine ourCreds descriptorSpace).Reaches (fun s op => op.HasRoom s.message) s) :
    (∀ op : MessageOp, op.HasRoom s.message → op.Specified s.message (op.apply ourCreds s.message)) ∧
      (∀ descriptor, (∀ uninit, (MessageOp.pushDescriptor uninit descriptor).Specified s.message
          ((MessageOp.pushDescriptor uninit descriptor).apply ourCreds s.message)) →
        s.message.slots = [] ∨ -1 ∈ s.message.slots) ∧
      s.message.pid = s.lastSet.pid ∧ s.message.uid = s.lastSet.uid ∧ s.message.gid = s.lastSet.gid := by
  have hcr := credentials_of_reaches h
  refine ⟨fun op hrm => op.specified_of_hasRoom ourCreds hrm, fun _ => hasRoom_of_pushDescriptor_perm, ?_⟩
  simp [pid, uid, gid, copyCredentialsOut, hcr]

/-- Two slots: a descriptor is put in, taken out and put in again, and the PID is set. -/
theorem message_algebra_two : ∃ s, (machine ⟨1, 0, 0⟩ 2).Reaches (fun s op => op.HasRoom s.message) s ∧
    (s.message.descriptors = [6, 5] ∧ s.message.pid = 9) ∧
    (∀ op : MessageOp, op.HasRoom s.message → op.Specified s.message (op.apply ⟨1, 0, 0⟩ s.message)) := by
  refine (Machine.exists_reaches_of_runOk (M := machine ⟨1, 0, 0⟩ 2) (fun s op => op.HasRoom s.message)
    [.pushDescriptor (fun _ _ => 0) 4, .pushDescriptor (fun _ _ => 0) 5, .extractDescriptor 4, .setPID 9,
      .pushDescriptor (fun _ _ => 0) 6] ?_).imp fun s h => ⟨h.1, h.2, (message_algebra h.1).1⟩
  decide +kernel

/-- A message with room for one descriptor, which it holds, is given another one. New memory that holds zeros makes the message
own descriptor 0, in place of the one it had. -/
theorem message_algebra_full : ∃ s, (machine ⟨1, 0, 0⟩ 1).Reachable s ∧ s.message.descriptors = [5] ∧
    (s.message.pushDescriptor (fun _ _ => 0) 6).descriptors = [0, 6] ∧
    ¬(MessageOp.pushDescriptor (fun _ _ => 0) 6).Specified s.message
      ((MessageOp.pushDescriptor (fun _ _ => 0) 6).apply ⟨1, 0, 0⟩ s.message) := by
  obtain ⟨s, hs, hone, hlist⟩ := Machine.exists_reachable_of_run (M := machine ⟨1, 0, 0⟩ 1) [.pushDescriptor (fun _ _ => 0) 5]
    (P := fun s => s.message.descriptors = [5] ∧ (s.message.pushDescriptor (fun _ _ => 0) 6).descriptors = [0, 6])
    (by decide +kernel)
  refine ⟨s, hs, hone, hlist, fun hspec => ?_⟩
  have hpm : [0, 6].Perm (present [6] ++ [5]) := hlist ▸ hone ▸ hspec
  exact absurd hpm (by decide)

end MessageInUse

end Osxie.Rpc
