import Osxie.Server.Registry
import Osxie.Server.Thread

/-!
# Receiving a datagram

`Call::callFromMessage`: the server finds the process and the thread that the header of a datagram names, makes them if it does
not know them, and hands the datagram on: a reply to an S2C call, a reply that is pushed back, or a call. The header is written
by the client; the PID and the address of the sender are reported by the kernel.

The registries are those of `Registry`; what can change of an object is in a record of its own. An exception ends the call, and
what was changed until then stays changed. The contents of a call are left out.
-/

namespace Osxie.Server

open Registry
open Function (update update_self)

/-- A process, by the object and the fields that never change. -/
structure ProcessObject where
  object : Nat
  id : Int
  nsid : Int
deriving DecidableEq

/-- A thread, by the object and the fields that never change. -/
structure ThreadObject where
  object : Nat
  id : Int
  nsid : Int
deriving DecidableEq

instance : Entry ProcessObject Int Int := ⟨ProcessObject.id, ProcessObject.nsid⟩

instance : Entry ThreadObject Int Int := ⟨ThreadObject.id, ThreadObject.nsid⟩

/-- The number of a request: a call has the name and the size of its structure, and may be an unmanaged one. -/
inductive RequestNumber where
  | invalid
  | s2c
  | pushReply
  | call (name : String) (number : CallNumber) (size : Nat) (unmanaged : Bool)
deriving DecidableEq

/-- The flag `DSERVER_CALL_UNMANAGED_FLAG` of the number. -/
def RequestNumber.unmanaged : RequestNumber → Bool
  | .call _ _ _ unmanaged => unmanaged
  | _ => false

/-- A datagram. `pid` and `address` are the sender's, as the kernel reports them; `headerPid` and `headerTid` stand in the
header. `reply` is the reply that a push_reply points to, if its pipe and the client's memory can be read. -/
structure Datagram (A : Type) where
  id : Nat
  pid : Int
  address : A
  size : Nat
  number : RequestNumber
  headerPid : Int
  headerTid : Int
  pipe : Bool
  reply : Option Reply
deriving DecidableEq

/-- The size of `dserver_rpc_callhdr_t`. -/
def headerSize : Nat := 16

structure ThreadRecord (A : Type) where
  address : A
  thread : Thread
  s2cReply : Option Nat
deriving DecidableEq

/-- The server, as far as receiving a datagram is concerned. `processThreads` is `Process::_threads`; `asyncCalls` are the
unmanaged calls that `kernelAsync` was given. -/
structure Receiver (A : Type) where
  processes : Registry ProcessObject Int Int
  threads : Registry ThreadObject Int Int
  processThreads : ProcessObject → AList (fun _ : Int => ThreadObject)
  records : ThreadObject → ThreadRecord A
  asyncCalls : List Call

/-- What a constructor comes to; `callFromMessage` catches a `std::system_error`. -/
inductive Made (α : Type) where
  | made (a : α)
  | systemError
  | throws (message : String)
deriving DecidableEq

namespace Receiver

variable {A : Type} (s : Receiver A) (d : Datagram A) (p : ProcessObject) (t : ThreadObject) (thread : Made (Nat × Int))

/-- A thread that nothing of the server refers to. -/
def NewThread : Prop :=
  ¬s.threads.Registered t ∧ ∀ p n, (s.processThreads p).lookup n ≠ some t

/-- What the constructors of the process and the thread come to. A thread that is made is a new object. -/
structure Factories (s : Receiver A) (d : Datagram A) where
  process : Made Nat
  thread : Made (Nat × Int)
  fresh : ∀ object tid, thread = .made (object, tid) → s.NewThread ⟨object, tid, d.headerTid⟩

/-- The entry a factory makes; `none` is what `registerIfAbsent` is given after a `std::system_error`. -/
def entryFactory {α E : Type} (f : α → E) : Made α → Option E
  | .made a => some (f a)
  | _ => none

def findProcess (process : Made Nat) : Except String (Option ProcessObject × Receiver A) :=
  match s.processes.lookupEntryByNSID d.headerPid, process with
  | none, .throws message => .error message
  | _, _ =>
    let (found, processes) := s.processes.registerIfAbsent d.headerPid
      (entryFactory (fun object => ⟨object, d.pid, d.headerPid⟩) process)
    .ok (found, { s with processes := processes })

def setAddress (address : A) : Receiver A :=
  { s with records := update s.records t { s.records t with address := address } }

/-- A thread that is made gets its address, and is registered with its process. -/
def addThread (address : A) : Receiver A :=
  { s with
    records := update s.records t { address := address, thread := .new, s2cReply := none }
    processThreads := update s.processThreads p ((s.processThreads p).insert t.nsid t) }

def findThread : Except String (Option ThreadObject × Receiver A) :=
  match s.threads.lookupEntryByNSID d.headerTid, thread with
  | none, .throws message => .error message
  | none, .made (object, tid) =>
    let t : ThreadObject := ⟨object, tid, d.headerTid⟩
    let (found, threads) := s.threads.registerIfAbsent d.headerTid (some t)
    .ok (found, { s.addThread p t d.address with threads := threads })
  | found, _ => .ok (found, s)

def deliver : Receiver A × Except String (Option Call) :=
  let record := s.records t
  match d.number with
  | .invalid => (s, .error "Invalid call number")
  | .s2c =>
    if record.s2cReply.isSome then
      (s, .error "Received S2C reply but thread already had one pending")
    else
      ({ s with records := update s.records t { record with s2cReply := some d.id } }, .ok none)
  | .pushReply =>
    if ¬d.pipe then
      (s, .error "Failed to extract reply-push synchronization pipe")
    else
      match d.reply with
      | none => (s, .error "Failed to read client-pushed reply body")
      | some reply =>
        match record.thread.savePushedReply reply with
        | .error message => (s, .error message)
        | .ok thread => ({ s with records := update s.records t { record with thread := thread } }, .ok none)
  | .call name number size _ =>
    if d.size < size then
      (s, .error ("Message buffer was too small for dserver_call_" ++ name ++ "_t"))
    else
      match record.thread.setPendingCall ⟨d.id, number⟩ with
      | .error message => (s, .error message)
      | .ok thread =>
        ({ s with records := update s.records t { record with thread := thread } }, .ok (some ⟨d.id, number⟩))

/-- An unmanaged call is processed by `kernelAsync`. -/
def processUnmanaged : Receiver A × Except String (Option Call) :=
  match d.number with
  | .call name number size _ =>
    if d.size < size then
      (s, .error ("Message buffer was too small for dserver_call_" ++ name ++ "_t"))
    else
      ({ s with asyncCalls := s.asyncCalls ++ [⟨d.id, number⟩] }, .ok none)
  | _ => (s, .error "Invalid call number")

/-- The request of a process and a thread that were found: the address is recorded, and then the PIDs are compared. -/
def receiveFrom : Receiver A × Except String (Option Call) :=
  let s := s.setAddress t d.address
  if p.id ≠ d.pid then
    (s, .error "System-reported message PID != osxieserver-recorded PID")
  else
    s.deliver d t

def receiveManaged : Receiver A × Except String (Option Call) :=
  match s.findThread d p thread with
  | .error message => (s, .error message)
  | .ok (none, s) => (s, .ok none)
  | .ok (some t, s) => s.receiveFrom d p t

variable (f : Factories s d)

/-- `Call::callFromMessage`: the state, and the call to be scheduled or the exception. -/
def callFromMessage : Receiver A × Except String (Option Call) :=
  if d.size < headerSize then
    (s, .error "Message buffer was too small for call header")
  else if d.number = .invalid then
    (s, .error "Invalid call number")
  else if d.number.unmanaged then
    s.processUnmanaged d
  else
    match s.findProcess d f.process with
    | .error message => (s, .error message)
    | .ok (none, s) => (s, .ok none)
    | .ok (some p, s) => s.receiveManaged d p f.thread

/-! ## Records unchanged -/

/-- The records of a process and of every thread that is registered are what they were. -/
structure Unchanged (s s' : Receiver A) (p : ProcessObject) : Prop where
  process : s'.processThreads p = s.processThreads p
  threads : ∀ t, s.threads.Registered t → s'.records t = s.records t

/-- The datagram does not get to the thread it names, or says nothing new about it: it is refused at once or names no thread,
the address recorded for the thread is the sender's already, or the thread is not known and cannot be made. -/
def Harmless : Prop :=
  d.size < headerSize ∨ d.number = .invalid ∨ d.number.unmanaged = true ∨
    match s.threads.lookupEntryByNSID d.headerTid with
    | some t => (s.records t).address = d.address
    | none => ∀ object tid, f.thread ≠ .made (object, tid)

/-! ## When the records are unchanged -/

theorem Unchanged.refl : s.Unchanged s p := ⟨rfl, fun _ _ => rfl⟩

/-- An unmanaged call has no thread. -/
theorem unchanged_processUnmanaged : s.Unchanged (s.processUnmanaged d).1 p := by
  unfold processUnmanaged
  split
  · split
    · exact .refl s p
    · exact ⟨rfl, fun _ _ => rfl⟩
  · exact .refl s p

variable {s d p t}

/-- A process that is known is found, whatever the factory would make. -/
theorem findProcess_of_known (hp : s.processes.lookupEntryByNSID d.headerPid = some p) (process : Made Nat) :
    s.findProcess d process = .ok (some p, s) := by
  have hlk : s.processes.nsmap.lookup d.headerPid = some p := hp
  unfold findProcess
  rw [hp]
  simp only [registerIfAbsent, hlk]

/-- A thread that is known is found, whatever process it belongs to. -/
theorem findThread_of_known (ht : s.threads.lookupEntryByNSID d.headerTid = some t) (thread : Made (Nat × Int)) :
    s.findThread d p thread = .ok (some t, s) := by
  unfold findThread
  rw [ht]

/-- A datagram from another process goes no further than the address. -/
theorem receiveFrom_of_ne (hne : p.id ≠ d.pid) (t : ThreadObject) :
    s.receiveFrom d p t = (s.setAddress t d.address, .error "System-reported message PID != osxieserver-recorded PID") := by
  unfold receiveFrom
  rw [if_pos hne]

/-- The address of a registered thread stays what it was exactly when the datagram comes from there. -/
theorem unchanged_setAddress_iff (ht : s.threads.Registered t) (address : A) :
    s.Unchanged (s.setAddress t address) p ↔ (s.records t).address = address := by
  constructor
  · intro h
    have hrec := h.threads t ht
    have hset : (s.setAddress t address).records t = { s.records t with address := address } := update_self _ _ _
    rw [hset] at hrec
    exact (congrArg ThreadRecord.address hrec).symm
  · intro h
    refine ⟨rfl, fun t' _ => ?_⟩
    rw [← h]
    by_cases heq : t' = t
    · subst heq
      exact update_self _ _ _
    · exact Function.update_of_ne heq _ _

/-- A thread that is made changes the threads of its process. -/
theorem not_unchanged_addThread (hnew : s.NewThread t) (address : A) {s' : Receiver A}
    (hs' : s'.processThreads = (s.addThread p t address).processThreads) : ¬s.Unchanged s' p := by
  intro h
  have hthread := h.process
  have hadd : (s.addThread p t address).processThreads p = (s.processThreads p).insert t.nsid t := update_self _ _ _
  rw [hs', hadd] at hthread
  have hlk : (s.processThreads p).lookup t.nsid = some t := by
    rw [← hthread]
    exact AList.lookup_insert _
  exact hnew.2 p t.nsid hlk

/-- Past the lookup of the process, the records stay unchanged exactly when the thread is known at that address, or cannot be
made. -/
theorem unchanged_receiveManaged_iff (hne : p.id ≠ d.pid) (f : Factories s d) :
    s.Unchanged (s.receiveManaged d p f.thread).1 p ↔
    match s.threads.lookupEntryByNSID d.headerTid with
    | some t => (s.records t).address = d.address
    | none => ∀ object tid, f.thread ≠ .made (object, tid) := by
  unfold receiveManaged
  cases ht : s.threads.lookupEntryByNSID d.headerTid with
  | some t =>
    rw [findThread_of_known ht]
    simp only [receiveFrom_of_ne hne]
    exact unchanged_setAddress_iff (.inr (.inl ⟨_, ht⟩)) _
  | none =>
    have hlk : s.threads.nsmap.lookup d.headerTid = none := ht
    unfold findThread
    cases hf : f.thread with
    | made entry =>
      obtain ⟨object, tid⟩ := entry
      simp only [ht, registerIfAbsent, hlk, receiveFrom_of_ne hne]
      refine iff_of_false (not_unchanged_addThread (f.fresh object tid hf) d.address rfl) ?_
      intro h
      exact h object tid rfl
    | systemError | throws message =>
      simp only [ht]
      exact iff_of_true (.refl s p) nofun

/-- A datagram of another process leaves the records of the process it names and of every registered thread unchanged exactly
when it is harmless. -/
theorem sender_isolated_iff_harmless (hp : s.processes.lookupEntryByNSID d.headerPid = some p)
    (hne : p.id ≠ d.pid) :
    s.Unchanged (s.callFromMessage d f).1 p ↔ s.Harmless d f := by
  unfold callFromMessage Harmless
  by_cases hsz : d.size < headerSize
  · rw [if_pos hsz]
    exact iff_of_true (.refl s p) (.inl hsz)
  rw [if_neg hsz]
  by_cases hinv : d.number = .invalid
  · rw [if_pos hinv]
    exact iff_of_true (.refl s p) (.inr (.inl hinv))
  rw [if_neg hinv]
  by_cases hunm : d.number.unmanaged = true
  · rw [if_pos hunm]
    exact iff_of_true (unchanged_processUnmanaged s d p) (.inr (.inr (.inl hunm)))
  rw [findProcess_of_known hp]
  simp only [hsz, hinv, hunm, Bool.false_eq_true, false_or]
  exact unchanged_receiveManaged_iff hne f

/-- A server with one process, of PID 100, and its thread, which is reached at address 1. -/
def oneThread : Receiver Nat where
  processes := (new fun _ => 0).store ⟨0, 100, 10⟩
  threads := (new fun _ => 0).store ⟨1, 101, 11⟩
  processThreads _ := ∅
  records _ := { address := 1, thread := .new, s2cReply := none }
  asyncCalls := []

/-- A datagram of a process with PID 200, from address 2, that names the thread of the other process. -/
def forgedDatagram : Datagram Nat where
  id := 0
  pid := 200
  address := 2
  size := 16
  number := .call "uidgid" .other 16 false
  headerPid := 10
  headerTid := 11
  pipe := false
  reply := none

def noFactories (s : Receiver A) (d : Datagram A) : Factories s d where
  process := .systemError
  thread := .systemError
  fresh := nofun

/-- A process can redirect the replies of any thread to itself. -/
theorem sender_isolated_false : ¬∀ (s : Receiver Nat) (d : Datagram Nat) (f : Factories s d) (p : ProcessObject),
    s.processes.lookupEntryByNSID d.headerPid = some p → p.id ≠ d.pid → s.Unchanged (s.callFromMessage d f).1 p := by
  intro h
  have hunch := h oneThread forgedDatagram (noFactories _ _) ⟨0, 100, 10⟩ rfl (by decide)
  have hrec := hunch.threads ⟨1, 101, 11⟩ (.inr (.inl ⟨11, rfl⟩))
  have haddr : (2 : Nat) = 1 := congrArg ThreadRecord.address hrec
  cases haddr

/-- The forged datagram is not harmless; from the thread's own address it would be. -/
theorem sender_isolated_iff_harmless_oneThread :
    oneThread.processes.lookupEntryByNSID forgedDatagram.headerPid = some ⟨0, 100, 10⟩ ∧ (100 : Int) ≠ forgedDatagram.pid ∧
      oneThread.Unchanged (oneThread.callFromMessage { forgedDatagram with address := 1 } (noFactories _ _)).1 ⟨0, 100, 10⟩ :=
  ⟨rfl, by decide, (sender_isolated_iff_harmless (noFactories _ _) rfl (by decide)).2 (.inr (.inr (.inr rfl)))⟩

end Receiver

end Osxie.Server
