import Osxie.Lib.LittleEndian
import Osxie.Rpc.Descriptors
import Osxie.Server.Receive

/-!
# Datagrams that are too short

What `Call::callFromMessage` does with the bytes of a datagram. A datagram is malformed if the server does not know its number,
or if it is shorter than the structure that its number requires. The size of the header and the number are checked at once; the
size of the call is checked last, when the process and the thread have been looked up or made, the process is monitored, and the
address of the thread has been recorded.

The structures are read where they would be: for a short datagram, some of their bytes are whatever stands in memory after it
(`beyond`). A checkin is read that way when its process or its thread is made, and a push_reply whenever it gets that far.
-/

namespace Osxie.Server

open Receiver Function Registry Rpc Option

/-! ## The numbers -/

/-- A call of the generator's table. -/
structure GeneratedCall where
  accepted : Rpc.Accepted
  unmanaged : Bool

namespace GeneratedCall

def name (c : GeneratedCall) : String := c.accepted.signature.name

/-- The size of `dserver_rpc_call_<name>_t`. -/
def size (c : GeneratedCall) : Nat := c.accepted.decls.callSize

/-- The number of a call, by its place in the table, with `DSERVER_CALL_UNMANAGED_FLAG`. -/
def code (c : GeneratedCall) (idx : Nat) : Nat := if c.unmanaged then 0x80000000 + idx else idx

end GeneratedCall

def CallNumber.ofName : String → CallNumber
  | "interrupt_enter" => .interruptEnter
  | "interrupt_exit" => .interruptExit
  | _ => .other

/-- The request that a number in the header stands for. The calls of the table are counted from 1. -/
def requestNumber (calls : List GeneratedCall) (code : Nat) : RequestNumber :=
  if code = 0x52cca11 then .s2c
  else if code = 0xbadca11 then .pushReply
  else
    match (calls.zipIdx 1).find? fun c => c.1.code c.2 = code with
    | some (c, _) => .call c.name (.ofName c.name) c.size c.unmanaged
    | none => .invalid

/-- The size of the structure that a request is read as. -/
def RequestNumber.required : RequestNumber → Nat
  | .invalid | .s2c => headerSize
  | .pushReply => 32
  | .call _ _ size _ => size

/-! ## The bytes -/

/-- A datagram as it was received: the sender's PID and address, the bytes and the control data. -/
structure Wire (A : Type) where
  id : Nat
  pid : Int
  address : A
  data : List UInt8
  control : Rpc.Message

def field (bytes : List UInt8) (offset size : Nat) : Nat := ofLeBytes ((bytes.drop offset).take size)

def int32 (n : Nat) : Int := if n < 2 ^ 31 then n else n - 2 ^ 32

/-- What the constructors of the process and the thread come to, given the lifetime pipe and the stack hint, and what can be read
from the memory of the client. A thread that is made is a new object. -/
structure Surroundings {A : Type} (s : Receiver A) (headerTid : Int) where
  process : Int → Made Nat
  thread : Nat → Made (Nat × Int)
  readMemory : Nat → Nat → Option Reply
  fresh : ∀ hint object tid, thread hint = .made (object, tid) → s.NewThread ⟨object, tid, headerTid⟩

namespace Wire

variable {A : Type} (calls : List GeneratedCall) (w : Wire A)

def number : RequestNumber := requestNumber calls (field w.data 0 4)

def headerPid : Int := int32 (field w.data 4 4)

def headerTid : Int := int32 (field w.data 8 4)

def isCheckin : Bool :=
  match w.number calls with
  | .call name _ _ _ => name = "checkin"
  | _ => false

/-- The pipe that the constructor of a process is given. -/
def lifetimePipe (beyond : List UInt8) : Int :=
  if w.isCheckin calls then
    let index := int32 (field (w.data ++ beyond) 32 4)
    if index ≠ -1 then (w.control.extractDescriptorAtIndex (toSizeT index)).1 else -1
  else -1

/-- The stack hint that the constructor of a thread is given. -/
def stackHint (beyond : List UInt8) : Nat := if w.isCheckin calls then field (w.data ++ beyond) 24 8 else 0

/-- The last descriptor is the pipe of a push_reply. -/
def hasPipe : Bool := 0 ≤ (w.control.extractDescriptorAtIndex (toSizeT (w.control.descriptors.length - 1))).1

def pushedReply (readMemory : Nat → Nat → Option Reply) (beyond : List UInt8) : Option Reply :=
  readMemory (field (w.data ++ beyond) 16 8) (field (w.data ++ beyond) 24 8)

variable {s : Receiver A} (env : Surroundings s w.headerTid) (beyond : List UInt8)

def datagram : Datagram A where
  id := w.id
  pid := w.pid
  address := w.address
  size := w.data.length
  number := w.number calls
  headerPid := w.headerPid
  headerTid := w.headerTid
  pipe := w.hasPipe
  reply := w.pushedReply env.readMemory beyond

def factories : Receiver.Factories s (w.datagram calls env beyond) where
  process := env.process (w.lifetimePipe calls beyond)
  thread := env.thread (w.stackHint calls beyond)
  fresh := env.fresh _

/-- The number is not known, or the datagram is shorter than what the number requires. -/
def Malformed : Prop := w.data.length < headerSize ∨ w.number calls = .invalid ∨ w.data.length < (w.number calls).required

end Wire

/-- The offsets of the members of a checkin that are read early. -/
example : (structures checkin).toOption.map (fun s => (rpcMemberOffsets .lp64 callhdr s.call, s.callSize)) =
    some ([[0, 4, 8, 12], [16, 24, 32]], 40) := by
  decide +kernel

/-! ## The server -/

/-- The server, with the processes that it monitors. -/
structure Monitoring (A : Type) where
  receiver : Receiver A
  monitored : List ProcessObject

namespace Monitoring

variable {A : Type} (calls : List GeneratedCall) (s : Receiver A)

/-- The process that the factory makes and that `monitorProcess` is called for. -/
def newProcess (d : Datagram A) (process : Made Nat) : Option ProcessObject :=
  match s.processes.lookupEntryByNSID d.headerPid, process with
  | none, .made object => some ⟨object, d.pid, d.headerPid⟩
  | _, _ => none

/-- `Call::callFromMessage`, with the monitor of a process that is made. -/
def callFromMessage (s : Monitoring A) (d : Datagram A) (f : Receiver.Factories s.receiver d) :
    Monitoring A × Except String (Option Call) :=
  let r := s.receiver.callFromMessage d f
  let monitored :=
    if d.size < headerSize ∨ d.number = .invalid ∨ d.number.unmanaged then s.monitored
    else s.monitored ++ (newProcess s.receiver d f.process).toList
  (⟨r.1, monitored⟩, r.2)

/-! ## Refusal without effect -/

/-- The datagram is refused: by an exception, or because there is no such process or thread. -/
def Refused (d : Datagram A) (result : Except String (Option Call)) : Prop :=
  (∃ message, result = .error message) ∨
    result = .ok none ∧ (s.processes.lookupEntryByNSID d.headerPid = none ∨ s.threads.lookupEntryByNSID d.headerTid = none)

/-- Whatever stands in memory after the datagram, it is refused and changes nothing. -/
def RejectedWithoutEffect (s : Monitoring A) (w : Wire A)
    (env : Surroundings s.receiver w.headerTid) : Prop :=
  ∀ beyond, Refused s.receiver (w.datagram calls env beyond)
      (s.callFromMessage (w.datagram calls env beyond) (w.factories calls env beyond)).2 ∧
    (s.callFromMessage (w.datagram calls env beyond) (w.factories calls env beyond)).1 = s

/-- A thread that a reply can be pushed to. -/
def CanSave (t : Thread) : Prop :=
  t.interruptEnterPending = true ∨ ∃ context contexts, t.interrupts = context :: contexts ∧ context.savedReply = none

/-- The datagram does no harm: it is refused at once; or its process or its thread is not known and cannot be made; or they are
known, the address of the thread is the sender's already, and a push_reply finds no place for its reply, or none to save. -/
def Harmless (w : Wire A) (env : Surroundings s w.headerTid) : Prop :=
  w.data.length < headerSize ∨ w.number calls = .invalid ∨ (w.number calls).unmanaged = true ∨
    match s.processes.lookupEntryByNSID w.headerPid with
    | none => ∀ beyond object, env.process (w.lifetimePipe calls beyond) ≠ .made object
    | some p =>
      match s.threads.lookupEntryByNSID w.headerTid with
      | none => ∀ beyond entry, env.thread (w.stackHint calls beyond) ≠ .made entry
      | some t => (s.records t).address = w.address ∧
          (w.number calls = .pushReply → p.id = w.pid → w.hasPipe = true →
            (∃ beyond reply, w.pushedReply env.readMemory beyond = some reply) → ¬CanSave (s.records t).thread)

end Monitoring

/-! ## What receiving changes -/

namespace Receiver

variable {A : Type} {s : Receiver A} {d : Datagram A} {p : ProcessObject} {t : ThreadObject}

/-- The record of a thread is updated with what it is. -/
theorem update_records_self (s : Receiver A) (t : ThreadObject) :
    { s with records := update s.records t (s.records t) } = s := by
  rw [update_eq_self]

/-- A request that is handed to a thread changes its record alone, and not the address. -/
theorem deliver_effect (s : Receiver A) (d : Datagram A) (t : ThreadObject) :
    ∃ record, (s.deliver d t).1 = { s with records := update s.records t record } ∧
      record.address = (s.records t).address := by
  have hsm : ∃ record, s = { s with records := update s.records t record } ∧
      record.address = (s.records t).address := ⟨s.records t, (update_records_self s t).symm, rfl⟩
  unfold deliver
  cases d.number with
  | invalid => exact hsm
  | s2c =>
    dsimp only
    split
    · exact hsm
    · exact ⟨_, rfl, rfl⟩
  | pushReply =>
    dsimp only
    split
    · exact hsm
    · split
      · exact hsm
      · split
        · exact hsm
        · exact ⟨_, rfl, rfl⟩
  | call name number size unmanaged =>
    dsimp only
    split
    · exact hsm
    · split
      · exact hsm
      · exact ⟨_, rfl, rfl⟩

/-- The address of the thread is the sender's afterwards. -/
theorem receiveFrom_effect (s : Receiver A) (d : Datagram A) (p : ProcessObject) (t : ThreadObject) :
    ∃ record, (s.receiveFrom d p t).1 = { s with records := update s.records t record } ∧
      record.address = d.address := by
  unfold receiveFrom
  split
  · exact ⟨_, rfl, rfl⟩
  · obtain ⟨record, hst, hdd⟩ := (s.setAddress t d.address).deliver_effect d t
    refine ⟨record, ?_, ?_⟩
    · rw [hst]
      simp only [setAddress, update_idem]
    · rw [hdd]
      simp only [setAddress, update_self]

/-- A malformed request that has no known number, no whole header or no thread is refused before anything is looked up. -/
theorem callFromMessage_at_once (f : Factories s d)
    (hm : d.size < headerSize ∨ d.number = .invalid ∨ d.size < d.number.required)
    (h : d.size < headerSize ∨ d.number = .invalid ∨ d.number.unmanaged = true) :
    ∃ message, s.callFromMessage d f = (s, .error message) := by
  unfold callFromMessage
  by_cases hsz : d.size < headerSize
  · exact ⟨_, if_pos hsz⟩
  rw [if_neg hsz]
  by_cases hinv : d.number = .invalid
  · exact ⟨_, if_pos hinv⟩
  have hunm := (h.resolve_left hsz).resolve_left hinv
  have hsh := (hm.resolve_left hsz).resolve_left hinv
  rw [if_pos hunm]
  unfold processUnmanaged
  cases hnm : d.number with
  | call name number size unmanaged =>
    rw [hnm] at hsh
    exact ⟨_, if_pos hsh⟩
  | invalid => exact absurd hnm hinv
  | s2c | pushReply =>
    rw [hnm] at hunm
    cases hunm

/-- A thread that is made is registered. -/
theorem lookup_receiveManaged_made {entry : Nat × Int} {thread : Made (Nat × Int)} (hthread : thread = .made entry)
    (ht : s.threads.lookupEntryByNSID d.headerTid = none) :
    (s.receiveManaged d p thread).1.threads.lookupEntryByNSID d.headerTid ≠ none := by
  obtain ⟨object, tid⟩ := entry
  have hlk : s.threads.nsmap.lookup d.headerTid = none := ht
  unfold receiveManaged findThread
  simp only [ht, hthread, registerIfAbsent, hlk]
  obtain ⟨record, hst, _⟩ := receiveFrom_effect
    { s.addThread p ⟨object, tid, d.headerTid⟩ d.address with threads := s.threads.store ⟨object, tid, d.headerTid⟩ } d p
    ⟨object, tid, d.headerTid⟩
  rw [hst]
  show (s.threads.nsmap.insert d.headerTid _).lookup d.headerTid ≠ none
  simp

/-- Past the lookup of the process, the processes stay as they are. -/
theorem processes_receiveManaged (s : Receiver A) (d : Datagram A) (p : ProcessObject) (thread : Made (Nat × Int)) :
    (s.receiveManaged d p thread).1.processes = s.processes := by
  have hfr : ∀ (s : Receiver A) t, (s.receiveFrom d p t).1.processes = s.processes := by
    intro s t
    obtain ⟨record, hst, _⟩ := s.receiveFrom_effect d p t
    rw [hst]
  unfold receiveManaged findThread
  cases ht : s.threads.lookupEntryByNSID d.headerTid with
  | some t => exact hfr s t
  | none =>
    cases thread with
    | made entry =>
      have hlk : s.threads.nsmap.lookup d.headerTid = none := ht
      simp only [registerIfAbsent, hlk]
      exact hfr _ _
    | systemError | throws message => rfl

end Receiver

namespace Monitoring

variable {A : Type} {calls : List GeneratedCall} {s : Monitoring A} {w : Wire A} {env : Surroundings s.receiver w.headerTid}

/-- A managed request whose header was accepted. -/
structure Managed (d : Datagram A) : Prop where
  size : ¬d.size < headerSize
  valid : d.number ≠ .invalid
  managed : ¬d.number.unmanaged = true

variable {d : Datagram A} {p : ProcessObject}

/-- A request that is refused at once. -/
theorem refused_at_once (f : Receiver.Factories s.receiver d)
    (hm : d.size < headerSize ∨ d.number = .invalid ∨ d.size < d.number.required)
    (h : d.size < headerSize ∨ d.number = .invalid ∨ d.number.unmanaged = true) :
    Refused s.receiver d (s.callFromMessage d f).2 ∧ (s.callFromMessage d f).1 = s := by
  obtain ⟨message, hmes⟩ := callFromMessage_at_once f hm h
  simp only [callFromMessage, if_pos h, hmes]
  exact ⟨.inl ⟨message, rfl⟩, trivial⟩

theorem canSave_iff (t : Thread) (reply : Reply) : CanSave t ↔ ∃ t', t.savePushedReply reply = .ok t' := by
  unfold CanSave Thread.savePushedReply
  cases t.interruptEnterPending with
  | true => simp
  | false =>
    cases hinterrupts : t.interrupts with
    | nil => simp
    | cons context contexts => cases hsav : context.savedReply <;> simp [hsav]

/-- What becomes of a push_reply that gets as far as the thread. -/
theorem deliver_pushReply {r : Receiver A} {t : ThreadObject} (hnm : d.number = .pushReply) :
    (d.pipe = true → ∀ reply, d.reply = some reply → CanSave (r.records t).thread → (r.deliver d t).2 = .ok none) ∧
      ((d.pipe = true → ∀ reply, d.reply = some reply → ¬CanSave (r.records t).thread) →
        ∃ message, r.deliver d t = (r, .error message)) := by
  unfold deliver
  rw [hnm]
  dsimp only
  constructor
  · intro hpp reply hrep hsv
    obtain ⟨t', ht'⟩ := (canSave_iff _ reply).1 hsv
    rw [if_neg (not_not.2 hpp), hrep]
    simp only [ht']
  · intro h
    by_cases hpp : d.pipe = true
    · rw [if_neg (not_not.2 hpp)]
      cases hrep : d.reply with
      | none => exact ⟨_, rfl⟩
      | some reply =>
        dsimp only
        cases hsv : (r.records t).thread.savePushedReply reply with
        | error message => exact ⟨message, rfl⟩
        | ok t' => exact absurd ((canSave_iff _ reply).2 ⟨t', hsv⟩) (h hpp reply hrep)
    · rw [if_pos hpp]
      exact ⟨_, rfl⟩

section

variable (f : Receiver.Factories s.receiver d) (h : Managed d)

include h

/-- What the server does with a managed request. -/
theorem callFromMessage_managed : s.callFromMessage d f =
    (⟨(s.receiver.callFromMessage d f).1, s.monitored ++ (newProcess s.receiver d f.process).toList⟩,
      (s.receiver.callFromMessage d f).2) := by
  have hnot : ¬(d.size < headerSize ∨ d.number = .invalid ∨ d.number.unmanaged = true) := by
    rintro (hsz | hinv | hunm)
    · exact h.size hsz
    · exact h.valid hinv
    · exact h.managed hunm
  simp only [callFromMessage, if_neg hnot]

theorem receiver_managed : s.receiver.callFromMessage d f =
    match s.receiver.findProcess d f.process with
    | .error message => (s.receiver, .error message)
    | .ok (none, r) => (r, .ok none)
    | .ok (some p, r) => r.receiveManaged d p f.thread := by
  exact (if_neg h.size).trans ((if_neg h.valid).trans (if_neg h.managed))

/-- A request of a process that is not known. -/
theorem refused_iff_of_no_process (hp : s.receiver.processes.lookupEntryByNSID d.headerPid = none) :
    Refused s.receiver d (s.callFromMessage d f).2 ∧ (s.callFromMessage d f).1 = s ↔ ∀ object, f.process ≠ .made object := by
  have hlk : s.receiver.processes.nsmap.lookup d.headerPid = none := hp
  rw [callFromMessage_managed f h, receiver_managed f h]
  constructor
  · rintro ⟨-, hsm⟩ object hmd
    have hfi : s.receiver.findProcess d f.process = .ok (some ⟨object, d.pid, d.headerPid⟩,
        { s.receiver with processes := s.receiver.processes.store ⟨object, d.pid, d.headerPid⟩ }) := by
      simp only [hmd, findProcess, entryFactory, registerIfAbsent, hp, hlk]
    rw [hfi] at hsm
    have hprocesses := congrArg (fun m => m.receiver.processes) hsm
    rw [processes_receiveManaged] at hprocesses
    have hnew : (s.receiver.processes.store ⟨object, d.pid, d.headerPid⟩).nsmap.lookup d.headerPid ≠ none := by
      show (s.receiver.processes.nsmap.insert d.headerPid _).lookup d.headerPid ≠ none
      simp
    dsimp only at hprocesses
    rw [hprocesses] at hnew
    exact hnew hlk
  · intro hno
    cases hmd : f.process with
    | made object => exact absurd hmd (hno object)
    | systemError =>
      simp only [findProcess, entryFactory, registerIfAbsent, newProcess, hp, hlk, toList_none, List.append_nil]
      exact ⟨.inr ⟨rfl, .inl hp⟩, trivial⟩
    | throws message =>
      simp only [findProcess, newProcess, hp, toList_none, List.append_nil]
      exact ⟨.inl ⟨message, rfl⟩, trivial⟩

section

variable (hp : s.receiver.processes.lookupEntryByNSID d.headerPid = some p)

include hp

/-- A request whose process is known. -/
theorem callFromMessage_known : s.callFromMessage d f =
    (⟨(s.receiver.receiveManaged d p f.thread).1, s.monitored⟩, (s.receiver.receiveManaged d p f.thread).2) := by
  have hno : newProcess s.receiver d f.process = none := by simp only [newProcess, hp]
  rw [callFromMessage_managed f h, receiver_managed f h, findProcess_of_known hp, hno, toList_none, List.append_nil]

/-- A request of a process that is known and a thread that is not. -/
theorem refused_iff_of_no_thread (ht : s.receiver.threads.lookupEntryByNSID d.headerTid = none) :
    Refused s.receiver d (s.callFromMessage d f).2 ∧ (s.callFromMessage d f).1 = s ↔ ∀ entry, f.thread ≠ .made entry := by
  rw [callFromMessage_known f h hp]
  constructor
  · rintro ⟨-, hsm⟩ entry hmd
    have hnew := lookup_receiveManaged_made (p := p) hmd ht
    have hst : (s.receiver.receiveManaged d p f.thread).1 = s.receiver := congrArg Monitoring.receiver hsm
    rw [hst] at hnew
    exact hnew ht
  · intro hno
    cases hmd : f.thread with
    | made entry => exact absurd hmd (hno entry)
    | systemError =>
      simp only [receiveManaged, findThread, ht]
      exact ⟨.inr ⟨rfl, .inr ht⟩, trivial⟩
    | throws message =>
      simp only [receiveManaged, findThread, ht]
      exact ⟨.inl ⟨message, rfl⟩, trivial⟩

/-- A request of a process and a thread that are known. -/
theorem refused_iff_of_known (hsh : d.size < d.number.required) {t : ThreadObject}
    (ht : s.receiver.threads.lookupEntryByNSID d.headerTid = some t) :
    Refused s.receiver d (s.callFromMessage d f).2 ∧ (s.callFromMessage d f).1 = s ↔
      (s.receiver.records t).address = d.address ∧ (d.number = .pushReply → p.id = d.pid → d.pipe = true →
        ∀ reply, d.reply = some reply → ¬CanSave (s.receiver.records t).thread) := by
  rw [callFromMessage_known f h hp]
  simp only [receiveManaged, findThread_of_known ht]
  -- with the address recorded already, what matters is the PID and then the thread
  have hdel (hdd : (s.receiver.records t).address = d.address) : s.receiver.receiveFrom d p t =
      if p.id ≠ d.pid then (s.receiver, .error "System-reported message PID != osxieserver-recorded PID")
      else s.receiver.deliver d t := by
    have hset : s.receiver.setAddress t d.address = s.receiver := by
      rw [← hdd]
      exact update_records_self s.receiver t
    simp only [receiveFrom, hset]
  constructor
  · rintro ⟨hres, hst⟩
    have hdd : (s.receiver.records t).address = d.address := by
      obtain ⟨record, hrecord, hdd⟩ := s.receiver.receiveFrom_effect d p t
      have hreceived := congrArg (fun r => (records r t).address) (hrecord.symm.trans (congrArg Monitoring.receiver hst))
      simp only [update_self] at hreceived
      exact hreceived.symm.trans hdd
    refine ⟨hdd, fun hnm hpid hpp reply hrep hsv => ?_⟩
    rw [hdel hdd, if_neg (not_not.2 hpid)] at hres
    have hok := (deliver_pushReply hnm).1 hpp reply hrep hsv
    rcases hres with ⟨message, herror⟩ | ⟨-, hno | hno⟩
    · rw [herror] at hok
      cases hok
    · rw [hno] at hp
      cases hp
    · rw [hno] at ht
      cases ht
  · rintro ⟨hdd, hpu⟩
    have herror : ∃ message, s.receiver.receiveFrom d p t = (s.receiver, .error message) := by
      rw [hdel hdd]
      by_cases hpid : p.id = d.pid
      · rw [if_neg (not_not.2 hpid)]
        cases hnm : d.number with
        | invalid => exact absurd hnm h.valid
        | s2c =>
          rw [hnm] at hsh
          exact absurd hsh h.size
        | pushReply => exact (deliver_pushReply hnm).2 (hpu hnm hpid)
        | call name number size unmanaged =>
          rw [hnm] at hsh
          unfold deliver
          rw [hnm]
          exact ⟨_, if_pos hsh⟩
      · rw [if_pos hpid]
        exact ⟨_, rfl⟩
    obtain ⟨message, hmes⟩ := herror
    rw [hmes]
    exact ⟨.inl ⟨message, rfl⟩, rfl⟩

end

end

/-- A malformed datagram is refused without an effect, whatever stands in memory after it, exactly if it does no harm. -/
theorem rejected_iff_harmless (hm : w.Malformed calls) :
    RejectedWithoutEffect calls s w env ↔ Harmless calls s.receiver w env := by
  unfold Harmless
  by_cases hrl : w.data.length < headerSize ∨ w.number calls = .invalid ∨ (w.number calls).unmanaged = true
  · refine iff_of_true (fun beyond => refused_at_once _ hm hrl) ?_
    rcases hrl with h | h | h
    · exact .inl h
    · exact .inr (.inl h)
    · exact .inr (.inr (.inl h))
  · obtain ⟨hsz, hrl⟩ := not_or.1 hrl
    obtain ⟨hval, hunm⟩ := not_or.1 hrl
    have hman : ∀ beyond, Managed (w.datagram calls env beyond) := fun _ => ⟨hsz, hval, hunm⟩
    simp only [hsz, hval, hunm, Bool.false_eq_true, false_or]
    cases hp : s.receiver.processes.lookupEntryByNSID w.headerPid with
    | none => exact forall_congr' fun beyond => refused_iff_of_no_process _ (hman beyond) hp
    | some p =>
      cases ht : s.receiver.threads.lookupEntryByNSID w.headerTid with
      | none => exact forall_congr' fun beyond => refused_iff_of_no_thread _ (hman beyond) hp ht
      | some t =>
        have hsh := (hm.resolve_left hsz).resolve_left hval
        have hiff := fun beyond => refused_iff_of_known (w.factories calls env beyond) (hman beyond) hp hsh ht
        constructor
        · intro h
          refine ⟨((hiff []).1 (h [])).1, ?_⟩
          rintro hnm hpid hpp ⟨beyond, reply, hrep⟩
          exact ((hiff beyond).1 (h beyond)).2 hnm hpid hpp reply hrep
        · rintro ⟨hdd, hpu⟩ beyond
          exact (hiff beyond).2 ⟨hdd, fun hnm hpid hpp reply hrep => hpu hnm hpid hpp ⟨beyond, reply, hrep⟩⟩

def checkinTable : List GeneratedCall :=
  [⟨⟨checkin, ⟨[⟨.bool, "is_fork", 0⟩, ⟨.uint64, "stack_hint", 8⟩, ⟨.int32, "lifetime_listener_pipe", 0⟩], []⟩, rfl⟩, false⟩]

/-- The header of a checkin, and nothing more. -/
def shortCheckin (address : Nat) : Wire Nat where
  id := 0
  pid := 100
  address := address
  data := [1, 0, 0, 0, 10, 0, 0, 0, 11, 0, 0, 0, 2, 0, 0, 0]
  control := ⟨none, []⟩

theorem shortCheckin_malformed (address : Nat) : (shortCheckin address).Malformed checkinTable :=
  .inr (.inr (by simp only [shortCheckin, Wire.number]; decide +kernel))

def nobody : Monitoring Nat where
  receiver := {
    processes := .new fun _ => 0
    threads := .new fun _ => 0
    processThreads _ := ∅
    records _ := { address := 1, thread := .new, s2cReply := none }
    asyncCalls := [] }
  monitored := []

def makers : Surroundings nobody.receiver (shortCheckin 2).headerTid where
  process _ := .made 0
  thread _ := .made (1, 101)
  readMemory _ _ := none
  fresh hint object tid _ := by
    refine ⟨?_, nofun⟩
    rintro (⟨_, h⟩ | ⟨_, h⟩ | ⟨_, h⟩) <;> cases h

/-- The server knows the process and the thread, and the sender's address. -/
def oneThreadMonitored : Monitoring Nat := ⟨oneThread, []⟩

def noMakers : Surroundings oneThreadMonitored.receiver (shortCheckin 1).headerTid where
  process _ := .systemError
  thread _ := .systemError
  readMemory _ _ := none
  fresh := nofun

/-- The short checkin of a thread that is known, from its own address. -/
theorem rejected_iff_harmless_known : (shortCheckin 1).Malformed checkinTable ∧
    RejectedWithoutEffect checkinTable oneThreadMonitored (shortCheckin 1) noMakers := by
  refine ⟨shortCheckin_malformed 1, (rejected_iff_harmless (shortCheckin_malformed 1)).2 (.inr (.inr (.inr ?_)))⟩
  refine ⟨rfl, fun hpu => ?_⟩
  exact absurd hpu (by decide +kernel)

/-- The short checkin of a process that is not known: it is refused, but its process is registered and monitored, and its thread
is registered. -/
theorem shortCheckin_not_rejected : (shortCheckin 2).Malformed checkinTable ∧
    (nobody.callFromMessage ((shortCheckin 2).datagram checkinTable makers [])
      ((shortCheckin 2).factories checkinTable makers [])).1.monitored = [⟨0, 100, 10⟩] ∧
    ¬RejectedWithoutEffect checkinTable nobody (shortCheckin 2) makers := by
  have hmon : (nobody.callFromMessage ((shortCheckin 2).datagram checkinTable makers [])
      ((shortCheckin 2).factories checkinTable makers [])).1.monitored = [⟨0, 100, 10⟩] := by decide +kernel
  refine ⟨shortCheckin_malformed 2, hmon, fun h => ?_⟩
  rw [(h []).2] at hmon
  cases hmon

end Monitoring

end Osxie.Server
