import Mathlib.Algebra.Order.Ring.Int
import Mathlib.Data.List.Basic

/-!
# Messages and their descriptors

A `Message` of the server carries credentials and descriptors in its control data. The descriptors stand in the slots of one
SCM_RIGHTS header; a slot that holds -1 is empty. `descriptors` are the ones present, in order.

`pushDescriptor` takes the first empty slot, and otherwise asks `ensureDescriptorHeader` for one slot more. That function
allocates the control data anew and copies the credentials, but sets only the slots past the old ones: the old slots then hold
whatever the allocated memory held before. It is a parameter here, `uninit n i` for slot `i` of a header of `n` slots.
-/

namespace Osxie.Rpc

open List Option

structure Credentials where
  pid : Int
  uid : Int
  gid : Int
deriving DecidableEq

structure Message where
  credentials : Option Credentials
  slots : List Int
deriving DecidableEq

namespace Message

/-- A new message: the server's own credentials, and room for the given number of descriptors. -/
def new (ourCreds : Credentials) (descriptorSpace : Nat) : Message := ⟨some ourCreds, replicate descriptorSpace (-1)⟩

/-- The number of slots. -/
def descriptorSpace (m : Message) : Nat := m.slots.length

/-- The descriptors a list of slots holds. -/
def present (slots : List Int) : List Int := slots.filter (· ≠ -1)

def descriptors (m : Message) : List Int := present m.slots

variable (uninit : Nat → Nat → Int)

/-- Gives the header the given number of slots. The old slots are not copied. -/
def ensureDescriptorHeader (newSpace : Nat) (m : Message) : Message :=
  if m.descriptorSpace = newSpace then m
  else
    { m with slots := (range newSpace).map (fun i => if i < m.descriptorSpace then uninit newSpace i else -1) }

/-- Puts a descriptor in the first empty slot, if there is one. -/
def fillEmpty (descriptor : Int) : List Int → Option (List Int)
  | [] => none
  | fd :: fds => if fd ≠ -1 then (fillEmpty descriptor fds).map (fd :: ·) else some (descriptor :: fds)

def pushDescriptor (descriptor : Int) (m : Message) : Message :=
  match fillEmpty descriptor m.slots with
  | some slots => { m with slots := slots }
  | none =>
    let grown := m.ensureDescriptorHeader uninit (m.descriptorSpace + 1)
    { grown with slots := grown.slots.set m.descriptorSpace descriptor }

/-- The loop of `extractDescriptorAtIndex`: the slots from here on, with the number of descriptors passed so far. -/
def extractLoop (index : Nat) : Nat → List Int → Int × List Int
  | _, [] => (-1, [])
  | presentIndex, fd :: fds =>
    if fd = -1 then
      let r := extractLoop index presentIndex fds
      (r.1, fd :: r.2)
    else if presentIndex ≠ index then
      let r := extractLoop index (presentIndex + 1) fds
      (r.1, fd :: r.2)
    else
      (fd, -1 :: fds)

variable (index : Nat) (m : Message)

/-- Takes out the descriptor at an index among those present: the descriptor, or -1, and the message without it. -/
def extractDescriptorAtIndex : Int × Message :=
  let r := extractLoop index 0 m.slots
  (r.1, { m with slots := r.2 })

/-! ## What is present -/

@[simp] theorem present_nil : present [] = [] := rfl

@[simp] theorem present_cons_empty (fds : List Int) : present (-1 :: fds) = present fds := rfl

theorem present_cons {fd : Int} (h : fd ≠ -1) (fds : List Int) : present (fd :: fds) = fd :: present fds := by
  simp [present, h]

/-- The loop returns the descriptor at the index among those present, and takes out that one alone. -/
theorem extractLoop_spec {presentIndex : Nat} (hle : presentIndex ≤ index) (slots : List Int) :
    (extractLoop index presentIndex slots).1 = ((present slots)[index - presentIndex]?).getD (-1) ∧
      present (extractLoop index presentIndex slots).2 = (present slots).eraseIdx (index - presentIndex) := by
  induction slots generalizing presentIndex with
  | nil => simp [extractLoop]
  | cons fd fds ih =>
    by_cases hfd : fd = -1
    · obtain ⟨h1, h2⟩ := ih hle
      subst hfd
      exact ⟨h1, h2⟩
    · by_cases hidx : presentIndex = index
      · subst hidx
        simp [extractLoop, hfd, present_cons hfd]
      · obtain ⟨h1, h2⟩ := @ih (presentIndex + 1) (by omega)
        have hsucc : index - presentIndex = (index - (presentIndex + 1)) + 1 := by omega
        simp only [extractLoop, hfd, if_false, ne_eq, hidx, not_false_eq_true, if_true, present_cons hfd, hsucc,
          getElem?_cons_succ, eraseIdx_cons_succ, h1, h2, and_self]

theorem extractDescriptorAtIndex_fst :
    (m.extractDescriptorAtIndex index).1 = (m.descriptors[index]?).getD (-1) :=
  (extractLoop_spec index (Nat.zero_le index) m.slots).1

theorem descriptors_extractDescriptorAtIndex :
    (m.extractDescriptorAtIndex index).2.descriptors = m.descriptors.eraseIdx index :=
  (extractLoop_spec index (Nat.zero_le index) m.slots).2

/-! ## Growth -/

/-- Without an empty slot there is nothing to fill. -/
theorem fillEmpty_eq_none {slots : List Int} (h : ∀ fd ∈ slots, fd ≠ -1) (descriptor : Int) :
    fillEmpty descriptor slots = none := by
  induction slots with
  | nil => rfl
  | cons fd fds ih =>
    obtain ⟨hfd, hfiles⟩ := forall_mem_cons.1 h
    simp [fillEmpty, hfd, ih hfiles]

/-- One slot more: the old slots hold what the new memory held, and the new one is empty. -/
theorem slots_ensureDescriptorHeader_succ :
    (m.ensureDescriptorHeader uninit (m.descriptorSpace + 1)).slots =
      (range m.descriptorSpace).map (uninit (m.descriptorSpace + 1)) ++ [-1] := by
  have hne : m.descriptorSpace ≠ m.descriptorSpace + 1 := by omega
  simp only [ensureDescriptorHeader, if_neg hne]
  rw [range_succ, map_append]
  congr 1
  · apply map_congr_left
    intro i hi
    simp [mem_range.1 hi]
  · simp

/-- A push on a message without an empty slot leaves the new descriptor last, after whatever the new memory held. -/
theorem slots_pushDescriptor_full (descriptor : Int) {m : Message} (h : ∀ fd ∈ m.slots, fd ≠ -1) :
    (m.pushDescriptor uninit descriptor).slots =
      (range m.descriptorSpace).map (uninit (m.descriptorSpace + 1)) ++ [descriptor] := by
  simp only [pushDescriptor, fillEmpty_eq_none h, slots_ensureDescriptorHeader_succ]
  simp

end Message

end Osxie.Rpc
