import Mathlib.Data.List.Forall2
import Mathlib.Data.List.TakeDrop
import Osxie.Rpc.Message

/-!
# The message queue

`MessageQueue::sendMany` and `MessageQueue::receiveMany`, which both hold the lock of the queue throughout. The system calls are
given by their outcomes; when there is no outcome left the call is still going on.

`sendMany` hands the kernel up to 16 messages from the front of the queue; the ones that the kernel took are removed, and their
callbacks are run. The peer of the first message may be dead, and then that message is dropped.

`receiveMany` returns only upon an EAGAIN.
-/

namespace Osxie.Server

open List Option Prod Int

/-- An `Address`: `sun_path`, and the size of the address as it was reported. -/
structure Address where
  sunPath : List UInt8
  rawSize : Nat
deriving DecidableEq

/-- A new address, of `sizeof(struct sockaddr_un)` bytes. -/
def Address.new : Address := ⟨replicate 108 0, 110⟩

/-- A `Message`: its data, the address, the control data, and the callback for when it has been sent, by a number. -/
structure SocketMessage where
  data : List UInt8
  address : Address
  control : Rpc.Message
  sendNotificationCallback : Option Nat
deriving DecidableEq

/-- The error codes that the loops tell apart. -/
inductive SocketError where
  | eagain
  | eintr
  | epipe
  | econnrefused
  | other (code : Nat)
deriving DecidableEq

def batchSize : Nat := 16

/-! ## Sending -/

/-- What the kernel is given of a message. -/
structure SendHeader where
  name : Option Address
  data : List UInt8
  control : Rpc.Message
deriving DecidableEq

variable (m : SocketMessage) (call : SendCall) (queue : List SocketMessage) (fate : Fate)

/-- The header of a message in a batch: it carries the whole data and control data, and the address unless that is of null
bytes. -/
def SocketMessage.sendHeader : SendHeader where
  name := if m.address.sunPath.all (· = 0) then none else some m.address
  data := m.data
  control := m.control

inductive SendOutcome where
  | sent (count : Nat)
  | error (errno : SocketError)
deriving DecidableEq

structure SendCall where
  batch : List SendHeader
  outcome : SendOutcome
deriving DecidableEq

/-- The kernel takes at least one message, and no more than it was given. -/
def SendCall.Valid : Prop :=
  match call.outcome with
  | .sent count => 1 ≤ count ∧ count ≤ call.batch.length
  | .error _ => True

inductive QueueStatus where
  | returned (more : Bool)
  | threw (errno : SocketError) (what : String)
  | running
deriving DecidableEq

/-- A call of `sendMany`: the queue, the callbacks that were run and the calls of `sendmmsg` that were made. -/
structure SendResult where
  queue : List SocketMessage
  callbacks : List Nat
  calls : List SendCall
  status : QueueStatus
deriving DecidableEq

/-- The rest of the loop, after a call and its callbacks. -/
def SendResult.after (r : SendResult) (call : SendCall) (callbacks : List Nat) : SendResult :=
  { r with callbacks := callbacks ++ r.callbacks, calls := call :: r.calls }

/-- The loop over the messages that the kernel took: each is removed, and then its callback is run. -/
def notifySent : Nat → List SocketMessage → List SocketMessage × List Nat
  | 0, queue => (queue, [])
  | _ + 1, [] => ([], [])
  | count + 1, message :: queue =>
    let r := notifySent count queue
    (r.1, message.sendNotificationCallback.toList ++ r.2)

def sendmmsg (outcome : SendOutcome) : SendCall :=
  ⟨(queue.take batchSize).map SocketMessage.sendHeader, outcome⟩

def sendMany : List SendOutcome → List SocketMessage → SendResult
  | _, [] => ⟨[], [], [], .returned true⟩
  | [], queue => ⟨queue, [], [], .running⟩
  | outcome :: outcomes, queue =>
    let call := sendmmsg queue outcome
    match outcome with
    | .error .eagain => ⟨queue, [], [call], .returned false⟩
    | .error .eintr => (sendMany outcomes queue).after call []
    | .error .epipe | .error .econnrefused => (sendMany outcomes queue.tail).after call []
    | .error (.other code) => ⟨queue, [], [call], .threw (.other code) "Failed to send messages through socket"⟩
    | .sent count =>
      let r := notifySent count queue
      (sendMany outcomes r.1).after call r.2

/-! ## The accounts -/

def SendCall.accepted : List SendHeader :=
  match call.outcome with
  | .sent count => call.batch.take count
  | .error _ => []

/-- The head of a batch that was refused because its peer is dead. -/
def SendCall.refused : List SendHeader :=
  match call.outcome with
  | .error .epipe | .error .econnrefused => call.batch.head?.toList
  | _ => []

/-- The fate of a message that is not queued any more. -/
inductive Fate where
  | accepted
  | dropped
deriving DecidableEq

def withFate (log : List (SocketMessage × Fate)) : List SocketMessage := (log.filter (·.2 = fate)).map fst

/-- The accounts of a call of `sendMany`. The log has every message that is not queued any more, once and in order: the ones the
kernel took, whose callbacks were run once, and the ones that headed a batch that was refused. The call returns false exactly
when the last thing it saw was EAGAIN, and true only when nothing is left; when it throws, the batch that failed is still at
the front of the queue. Every outcome but EINTR takes a message out of the queue or ends the call, so it does not go on. -/
structure Accounted (outcomes : List SendOutcome) (queue : List SocketMessage) (r : SendResult)
    (log : List (SocketMessage × Fate)) : Prop where
  whole : log.map fst ++ r.queue = queue
  accepted : r.calls.flatMap SendCall.accepted = (withFate .accepted log).map SocketMessage.sendHeader
  dropped : r.calls.flatMap SendCall.refused = (withFate .dropped log).map SocketMessage.sendHeader
  callbacks : r.callbacks = (withFate .accepted log).filterMap SocketMessage.sendNotificationCallback
  again : r.status = .returned false ↔ r.calls.getLast?.map SendCall.outcome = some (.error .eagain)
  emptied : r.status = .returned true → r.queue = []
  threw : ∀ errno what, r.status = .threw errno what → r.calls.getLast? = some (sendmmsg r.queue (.error errno))
  running : r.status = .running → outcomes.countP (· ≠ .error .eintr) < queue.length

theorem notifySent_eq (count : Nat) (queue : List SocketMessage) :
    notifySent count queue =
      (queue.drop count, (queue.take count).filterMap SocketMessage.sendNotificationCallback) := by
  induction count generalizing queue with
  | zero => rfl
  | succ count ih =>
    cases queue with
    | nil => rfl
    | cons message queue =>
      rw [notifySent, ih, take_succ_cons, filterMap_cons]
      cases message.sendNotificationCallback <;> rfl

theorem withFate_append (a b : List (SocketMessage × Fate)) :
    withFate fate (a ++ b) = withFate fate a ++ withFate fate b := by
  rw [withFate, filter_append, map_append]
  rfl

theorem withFate_map (messages : List SocketMessage) : withFate fate (messages.map (·, fate)) = messages := by
  induction messages with
  | nil => rfl
  | cons message messages ih => simpa [withFate] using ih

theorem withFate_map_ne {fate other : Fate} (h : other ≠ fate) (messages : List SocketMessage) :
    withFate fate (messages.map (·, other)) = [] := by
  induction messages with
  | nil => rfl
  | cons message messages ih => simp [withFate, h]

variable {outcomes : List SendOutcome} {pending : List SocketPacket}

/-- The accounts of a round and of the rest of the loop add up. `handled` is what the round took out of the queue. -/
theorem Accounted.after {queue rest : List SocketMessage} {r : SendResult} {log : List (SocketMessage × Fate)}
    (h : Accounted outcomes rest r log) (call : SendCall) {callbacks : List Nat} (handled : List (SocketMessage × Fate))
    (hwhole : handled.map fst ++ rest = queue)
    (hacc : call.accepted = (withFate .accepted handled).map SocketMessage.sendHeader)
    (hdrop : call.refused = (withFate .dropped handled).map SocketMessage.sendHeader)
    (hcal : callbacks = (withFate .accepted handled).filterMap SocketMessage.sendNotificationCallback)
    (hgn : call.outcome ≠ .error .eagain) (hpg : call.outcome = .error .eintr ∨ handled ≠ []) :
    Accounted (call.outcome :: outcomes) queue (r.after call callbacks) (handled ++ log) where
  whole := by
    rw [← hwhole, ← h.whole, map_append, append_assoc]
    rfl
  accepted := by
    rw [withFate_append, map_append, ← hacc, ← h.accepted]
    rfl
  dropped := by
    rw [withFate_append, map_append, ← hdrop, ← h.dropped]
    rfl
  callbacks := by
    rw [withFate_append, filterMap_append, ← hcal, ← h.callbacks]
    rfl
  again := by
    refine h.again.trans ?_
    cases hcl : r.calls with
    | nil => simpa [SendResult.after, hcl] using hgn
    | cons next calls => simp [SendResult.after, hcl, getLast?_cons_cons]
  emptied := h.emptied
  threw errno what hthread := by
    have hla := h.threw errno what hthread
    cases hcl : r.calls with
    | nil =>
      rw [hcl] at hla
      cases hla
    | cons next calls =>
      simpa [SendResult.after, hcl, getLast?_cons_cons] using hla
  running hrun := by
    have hcount := h.running hrun
    have hlen : handled.length + rest.length = queue.length := by
      rw [← hwhole, length_append, length_map]
    rcases hpg with hinterrupts | hne
    · rw [hinterrupts, countP_cons_of_neg (by simp)]
      omega
    · have := length_pos_iff.2 hne
      rw [countP_cons]
      split <;> omega

/-- What the kernel took is the front of the queue. -/
theorem accepted_sendmmsg {count : Nat} (h : count ≤ batchSize) (queue : List SocketMessage) :
    (sendmmsg queue (.sent count)).accepted = (queue.take count).map SocketMessage.sendHeader := by
  show ((queue.take batchSize).map SocketMessage.sendHeader).take count = _
  rw [← map_take, take_take, Nat.min_eq_left h]

/-- A round in which the kernel took some messages. -/
theorem sendMany_sent (count : Nat) (outcomes : List SendOutcome) (message : SocketMessage) (queue : List SocketMessage) :
    sendMany (.sent count :: outcomes) (message :: queue) =
      (sendMany outcomes ((message :: queue).drop count)).after (sendmmsg (message :: queue) (.sent count))
        (((message :: queue).take count).filterMap SocketMessage.sendNotificationCallback) := by
  show (sendMany outcomes (notifySent count (message :: queue)).1).after _ (notifySent count (message :: queue)).2 = _
  rw [notifySent_eq]

/-- A call that makes no system call, on an empty queue. -/
theorem accounted_nil (outcomes : List SendOutcome) : Accounted outcomes [] (sendMany outcomes []) [] := by
  have hnil : sendMany outcomes [] = ⟨[], [], [], .returned true⟩ := by cases outcomes <;> rfl
  rw [hnil]
  exact ⟨rfl, rfl, rfl, rfl, by simp, fun _ => rfl, nofun, nofun⟩

/-- Every call of `sendMany` has its accounts. -/
theorem exists_accounted {queue : List SocketMessage} (h : ∀ call ∈ (sendMany outcomes queue).calls, call.Valid) :
    ∃ log, Accounted outcomes queue (sendMany outcomes queue) log := by
  induction outcomes generalizing queue with
  | nil =>
    cases queue with
    | nil => exact ⟨[], accounted_nil []⟩
    | cons message queue => exact ⟨[], rfl, rfl, rfl, rfl, by simp [sendMany], nofun, nofun, fun _ => by simp⟩
  | cons outcome outcomes ih =>
    cases queue with
    | nil => exact ⟨[], accounted_nil _⟩
    | cons message queue =>
      cases outcome with
      | sent count =>
        rw [sendMany_sent] at h ⊢
        obtain ⟨hval, hrs⟩ := forall_mem_cons.1 h
        obtain ⟨log, hlog⟩ := ih hrs
        obtain ⟨hpos, hle⟩ : 1 ≤ count ∧ count ≤ (((message :: queue).take batchSize).map SocketMessage.sendHeader).length := hval
        have hbatch : count ≤ batchSize := by
          rw [length_map, length_take] at hle
          omega
        refine ⟨((message :: queue).take count).map (·, .accepted) ++ log, ?_⟩
        refine hlog.after (sendmmsg (message :: queue) (.sent count)) _ ?_ ?_ ?_ ?_ nofun (.inr ?_)
        · rw [List.map_map]
          exact (congrArg (· ++ _) (map_id _)).trans (take_append_drop count _)
        · rw [withFate_map, accepted_sendmmsg hbatch]
        · rw [withFate_map_ne (by decide : Fate.accepted ≠ Fate.dropped)]
          rfl
        · rw [withFate_map]
        · obtain ⟨count, rfl⟩ := Nat.exists_eq_add_of_le' hpos
          simp
      | error errno =>
        cases errno with
        | eagain => exact ⟨[], rfl, rfl, rfl, rfl, by simp [sendMany, sendmmsg], nofun, nofun, nofun⟩
        | eintr =>
          obtain ⟨log, hlog⟩ := ih (forall_mem_cons.1 h).2
          exact ⟨_, hlog.after (sendmmsg _ (.error .eintr)) [] rfl rfl rfl rfl nofun (.inl rfl)⟩
        | epipe | econnrefused =>
          obtain ⟨log, hlog⟩ := ih (forall_mem_cons.1 h).2
          exact ⟨_, hlog.after (sendmmsg (message :: queue) (.error _)) [(message, .dropped)] rfl rfl rfl rfl nofun (.inr nofun)⟩
        | other code =>
          refine ⟨[], rfl, rfl, rfl, rfl, by simp [sendMany, sendmmsg], nofun, ?_, nofun⟩
          rintro _ _ ⟨⟩
          rfl

/-- Whatever `sendmmsg` returns, every message is still queued, was taken by the kernel once and its callback run once, or was
dropped at the head of a batch that was refused; the ones the kernel took are in the order of the queue. -/
theorem sendMany_accounted (outcomes : List SendOutcome) (queue : List SocketMessage)
    (h : ∀ call ∈ (sendMany outcomes queue).calls, call.Valid) :
    ∃ log, Accounted outcomes queue (sendMany outcomes queue) log ∧ (withFate .accepted log).Sublist queue := by
  obtain ⟨log, hlog⟩ := exists_accounted h
  refine ⟨log, hlog, ?_⟩
  rw [← hlog.whole]
  exact (filter_sublist.map fst).trans (sublist_append_left _ _)

def threeMessages : List SocketMessage :=
  [⟨[1], .new, ⟨none, []⟩, some 1⟩, ⟨[2], .new, ⟨none, []⟩, some 2⟩, ⟨[3], .new, ⟨none, []⟩, some 3⟩]

/-- The first of three messages has a dead peer, the second one is taken, and then the socket is full. -/
def threeOutcomes : List SendOutcome := [.error .epipe, .error .eintr, .sent 1, .error .eagain]

theorem sendMany_accounted_three : (sendMany threeOutcomes threeMessages).callbacks = [2] ∧
    ∃ log, Accounted threeOutcomes threeMessages (sendMany threeOutcomes threeMessages) log ∧
      (withFate .accepted log).Sublist threeMessages :=
  ⟨rfl, sendMany_accounted _ _ (by
    intro call hca
    simp only [threeOutcomes, threeMessages, sendMany, SendResult.after, notifySent, mem_cons, not_mem_nil, or_false,
      tail_cons] at hca
    rcases hca with rfl | rfl | rfl | rfl
    · trivial
    · trivial
    · exact ⟨le_rfl, by decide⟩
    · trivial)⟩

/-! ## Receiving -/

def cmsgSpace (length : Nat) : Nat := (length + 7) / 8 * 8 + 16

/-- The size of the control data of a message: the credentials, and one `int` for each slot. -/
def controlLen (m : Rpc.Message) : Nat :=
  (if m.credentials.isSome then cmsgSpace 12 else 0) + (if m.slots = [] then 0 else cmsgSpace (4 * m.descriptorSpace))

/-- A message made with the default room, for receiving. -/
def SocketMessage.new (ourCreds : Rpc.Credentials) : SocketMessage := ⟨replicate 256 0, .new, .new ourCreds 4, none⟩

/-- What a packet carries: its data, the descriptors as the receiver is to get them, and the address of the sender. -/
structure SocketPacket where
  data : List UInt8
  descriptors : List Nat
  address : Address
deriving DecidableEq

/-- A header as `recvmmsg` leaves it, with the buffer that it points to. -/
structure ReceivedHeader where
  buffer : List UInt8
  msgLen : Nat
  name : Address
  control : Rpc.Message
deriving DecidableEq

/-- The kernel puts a packet in a message. What does not fit is cut; the socket of a kqchan does not ask for credentials, and all
of the control data is room for descriptors. -/
def SocketMessage.fill (p : SocketPacket) : ReceivedHeader where
  buffer := p.data.take m.data.length ++ m.data.drop p.data.length
  msgLen := min p.data.length m.data.length
  name := p.address
  control := ⟨none, (p.descriptors.take ((controlLen m.control - 16) / 4)).map ofNat⟩

/-- The message that is appended to the queue. -/
def ReceivedHeader.message (h : ReceivedHeader) : SocketMessage := ⟨h.buffer.take h.msgLen, h.name, h.control, none⟩

inductive RecvOutcome where
  | received (headers : List ReceivedHeader)
  | error (errno : SocketError)
deriving DecidableEq

/-- A call of `receiveMany`: the queue, whether the arrival callback was called, and what became of the call. -/
structure RecvResult where
  queue : List SocketMessage
  notified : Bool
  status : QueueStatus
deriving DecidableEq

def receiveMany : List RecvOutcome → List SocketMessage → RecvResult
  | [], queue => ⟨queue, false, .running⟩
  | .received headers :: outcomes, queue => receiveMany outcomes (queue ++ headers.map ReceivedHeader.message)
  | .error .eagain :: _, queue => ⟨queue, !queue.isEmpty, .returned false⟩
  | .error .eintr :: outcomes, queue => receiveMany outcomes queue
  | .error errno :: _, queue => ⟨queue, false, .threw errno "Failed to receive messages through socket"⟩

/-- What a closed socket reports when it has no packet any more. -/
def endOfStream : SocketPacket := ⟨[], [], ⟨Address.new.sunPath, 0⟩⟩

/-- `recvmmsg` on a sequenced-packet socket: the first packets that are pending. When there are fewer than were asked for, a
socket whose peer has closed its end goes on with the end of the stream; one that is open stops, with EAGAIN if it had none. -/
def recvmmsg (ourCreds : Rpc.Credentials) (closed : Bool) (pending : List SocketPacket) : RecvOutcome :=
  let taken := pending.take batchSize
  let packets := if closed then taken ++ replicate (batchSize - taken.length) endOfStream else taken
  if packets = [] then .error .eagain else .received (packets.map (SocketMessage.new ourCreds).fill)

/-- The outcomes of so many calls of `recvmmsg`. The peer closes its end after `closes` of them. -/
def recvOutcomes (ourCreds : Rpc.Credentials) : Nat → Nat → List SocketPacket → List RecvOutcome
  | 0, _, _ => []
  | calls + 1, closes, pending =>
    recvmmsg ourCreds (closes = 0) pending :: recvOutcomes ourCreds calls (closes - 1) (pending.drop batchSize)

def SocketMessage.Carries (p : SocketPacket) : Prop :=
  m.data = p.data ∧ m.control.descriptors = p.descriptors.map ofNat ∧ m.address = p.address

/-- A packet that a message with the default room can hold. -/
def SocketPacket.Fits (p : SocketPacket) : Prop := p.data.length ≤ 256 ∧ p.descriptors.length ≤ 12

def SocketPacket.received (ourCreds : Rpc.Credentials) (p : SocketPacket) : SocketMessage :=
  ((SocketMessage.new ourCreds).fill p).message

variable {ourCreds : Rpc.Credentials} (p : SocketPacket)

theorem SocketPacket.data_received : (p.received ourCreds).data = p.data.take 256 := by
  simp only [SocketPacket.received, ReceivedHeader.message, SocketMessage.fill, SocketMessage.new, length_replicate]
  rw [take_append_of_le_length (by rw [length_take]; omega), take_take]
  rcases Nat.le_total p.data.length 256 with hle | hle
  · rw [Nat.min_eq_left hle, Nat.min_eq_left hle, take_of_length_le le_rfl, take_of_length_le hle]
  · rw [Nat.min_eq_right hle, Nat.min_self]

theorem SocketPacket.descriptors_received :
    (p.received ourCreds).control.descriptors = (p.descriptors.take 12).map ofNat := by
  have hrm : (controlLen (SocketMessage.new ourCreds).control - 16) / 4 = 12 := by
    have hcr : (SocketMessage.new ourCreds).control.credentials.isSome = true := rfl
    have hslots : (SocketMessage.new ourCreds).control.slots ≠ [] := cons_ne_nil (-1) _
    have hspec : (SocketMessage.new ourCreds).control.descriptorSpace = 4 := length_replicate
    rw [controlLen, if_pos hcr, if_neg hslots, hspec]
    rfl
  show Rpc.Message.present ((p.descriptors.take ((controlLen (SocketMessage.new ourCreds).control - 16) / 4)).map ofNat) = _
  rw [hrm]
  refine filter_eq_self.2 fun fd hfd => ?_
  obtain ⟨n, _, rfl⟩ := mem_map.1 hfd
  exact decide_eq_true (nofun)

/-- A packet arrives as it is exactly if it fits. -/
theorem SocketPacket.carries_received_iff : (p.received ourCreds).Carries p ↔ p.Fits := by
  unfold SocketMessage.Carries SocketPacket.Fits
  rw [p.data_received, p.descriptors_received, take_eq_self_iff, (map_injective_iff.2 fun _ _ => ofNat.inj).eq_iff,
    take_eq_self_iff]
  exact ⟨fun h => ⟨h.1, h.2.1⟩, fun h => ⟨h.1, h.2, rfl⟩⟩

/-- An open socket that has packets hands out the first ones. -/
theorem recvmmsg_open (h : pending ≠ []) :
    recvmmsg ourCreds false pending = .received ((pending.take batchSize).map (SocketMessage.new ourCreds).fill) := by
  have htak : pending.take batchSize ≠ [] := by
    rw [ne_eq, take_eq_nil_iff]
    exact not_or.2 ⟨by decide, h⟩
  simp [recvmmsg, htak]

/-- A closed socket always has something to hand out. -/
theorem recvmmsg_closed (ourCreds : Rpc.Credentials) (pending : List SocketPacket) :
    ∃ headers, recvmmsg ourCreds true pending = .received headers := by
  unfold recvmmsg
  dsimp only
  rw [if_pos rfl]
  split
  · rename_i hnil
    have hlen := congrArg length hnil
    rw [length_append, length_replicate, length_nil] at hlen
    have hsz : batchSize = 16 := rfl
    omega
  · exact ⟨_, rfl⟩

/-- A round with an open socket that has packets. -/
theorem receiveMany_round (calls closes : Nat) (h : pending ≠ []) (queue : List SocketMessage) :
    receiveMany (recvOutcomes ourCreds (calls + 1) (closes + 1) pending) queue =
      receiveMany (recvOutcomes ourCreds calls closes (pending.drop batchSize))
        (queue ++ (pending.take batchSize).map (SocketPacket.received ourCreds)) := by
  have hopen : recvmmsg ourCreds (closes + 1 = 0) pending =
      .received ((pending.take batchSize).map (SocketMessage.new ourCreds).fill) := recvmmsg_open h
  rw [recvOutcomes, hopen, receiveMany, List.map_map]
  rfl

/-- The rounds that are left are enough for the packets that are left, if they were before a round. -/
theorem rounds_drop (h : pending ≠ []) (closes : Nat) :
    (pending.drop batchSize).length + batchSize ≤ batchSize * closes ↔
      pending.length + batchSize ≤ batchSize * (closes + 1) := by
  have hpos := length_pos_iff.2 h
  rw [length_drop, show batchSize = 16 from rfl]
  omega

theorem append_received (pending : List SocketPacket) :
    queue ++ (pending.take batchSize).map (SocketPacket.received ourCreds) ++
      (pending.drop batchSize).map (SocketPacket.received ourCreds) = queue ++ pending.map (SocketPacket.received ourCreds) := by
  rw [append_assoc, ← map_append, take_append_drop]

/-- A call that finds the socket open and empty has appended what was pending, and returns. -/
theorem receiveMany_of_open (ourCreds : Rpc.Credentials) {closes : Nat} (h : pending.length + batchSize ≤ batchSize * closes)
    (queue : List SocketMessage) :
    receiveMany (recvOutcomes ourCreds closes closes pending) queue =
      ⟨queue ++ pending.map (SocketPacket.received ourCreds), !(queue ++ pending.map (SocketPacket.received ourCreds)).isEmpty,
        .returned false⟩ := by
  induction closes generalizing pending queue with
  | zero => exact absurd h (by rw [show batchSize = 16 from rfl]; omega)
  | succ closes ih =>
    cases pending with
    | nil =>
      rw [map_nil, append_nil]
      rfl
    | cons packet packets =>
      have hne := cons_ne_nil packet packets
      rw [receiveMany_round closes closes hne, ih ((rounds_drop hne closes).2 h), append_received]

/-- A call returns only if it has found the socket open and empty, after having appended what was pending. -/
theorem open_of_returned {calls closes : Nat} {queue : List SocketMessage} {more : Bool}
    (h : (receiveMany (recvOutcomes ourCreds calls closes pending) queue).status = .returned more) :
    pending.length + batchSize ≤ batchSize * closes ∧
      (receiveMany (recvOutcomes ourCreds calls closes pending) queue).queue =
        queue ++ pending.map (SocketPacket.received ourCreds) := by
  induction calls generalizing closes pending queue with
  | zero => cases h
  | succ calls ih =>
    cases closes with
    | zero =>
      -- the end of the stream is received like a packet, and the loop goes on
      obtain ⟨headers, hhd⟩ := recvmmsg_closed ourCreds pending
      have hclos : recvmmsg ourCreds (decide (0 = 0)) pending = .received headers := hhd
      rw [recvOutcomes, hclos] at h
      exact absurd (ih h).1 (by rw [show batchSize = 16 from rfl]; omega)
    | succ closes =>
      cases pending with
      | nil =>
        refine ⟨?_, by rw [map_nil, append_nil]; rfl⟩
        exact Nat.le_mul_of_pos_right _ (Nat.succ_pos closes)
      | cons packet packets =>
        have hne := cons_ne_nil packet packets
        rw [receiveMany_round calls closes hne] at h ⊢
        obtain ⟨henough, hque⟩ := ih h
        exact ⟨(rounds_drop hne closes).1 henough, hque.trans (append_received queue _)⟩

/-- The call returns after finitely many calls of `recvmmsg`, and has appended exactly the packets that were pending. -/
def ReceivesAll (ourCreds : Rpc.Credentials) (closes : Nat) (pending : List SocketPacket) (queue : List SocketMessage) : Prop :=
  ∃ calls more messages, (receiveMany (recvOutcomes ourCreds calls closes pending) queue).status = .returned more ∧
    (receiveMany (recvOutcomes ourCreds calls closes pending) queue).queue = queue ++ messages ∧
    List.Forall₂ SocketMessage.Carries messages pending

/-- `receiveMany` does what it is to exactly if every packet fits in a message with the default room, and the peer closes its
end only after a call of `recvmmsg` that finds the socket empty. -/
theorem receiveMany_returns_iff (ourCreds : Rpc.Credentials) (closes : Nat) (pending : List SocketPacket)
    (queue : List SocketMessage) :
    ReceivesAll ourCreds closes pending queue ↔
      (∀ p ∈ pending, p.Fits) ∧ pending.length + batchSize ≤ batchSize * closes := by
  have hcar : List.Forall₂ SocketMessage.Carries (pending.map (SocketPacket.received ourCreds)) pending ↔
      ∀ p ∈ pending, p.Fits := by
    rw [forall₂_map_left_iff, forall₂_same]
    exact forall₂_congr fun p _ => p.carries_received_iff
  constructor
  · rintro ⟨calls, more, messages, hstate, hque, hall⟩
    obtain ⟨henough, happ⟩ := open_of_returned hstate
    obtain rfl := append_cancel_left (hque.symm.trans happ)
    exact ⟨hcar.1 hall, henough⟩
  · rintro ⟨hft, henough⟩
    have hdn := receiveMany_of_open ourCreds henough queue
    exact ⟨closes, false, _, by rw [hdn], by rw [hdn], hcar.2 hft⟩

/-- One packet is pending, and the peer has closed its end: whatever the number of calls, `receiveMany` does not return. -/
theorem receiveMany_endless :
    (∀ calls more, (receiveMany (recvOutcomes ⟨1, 0, 0⟩ calls 0 [⟨[1], [], .new⟩]) []).status ≠ .returned more) ∧
      ¬ReceivesAll ⟨1, 0, 0⟩ 0 [⟨[1], [], .new⟩] [] := by
  have hendl : ∀ calls more, (receiveMany (recvOutcomes ⟨1, 0, 0⟩ calls 0 [⟨[1], [], .new⟩]) []).status ≠ .returned more := by
    intro calls more h
    exact absurd (open_of_returned h).1 (by decide)
  refine ⟨hendl, ?_⟩
  rintro ⟨calls, more, _, hstate, _, _⟩
  exact hendl calls more hstate

end Osxie.Server
