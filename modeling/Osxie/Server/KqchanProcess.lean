import Mathlib.Data.List.Forall2
import Osxie.Server.Kqchan

/-!
# The events of a process

A `Kqchan::Process` queues the events of the process it watches and hands them out one read at a time. Its peer learns of an
event in one of three ways: `_notify` sends a notification when it queues the event, a notification that comes up during a read
is deferred until the reply is out, and every reply carries a callback that looks for further events once the reply is sent.

`_notify` may be called by any thread; the requests, at any time and of any kind, are processed by the main loop; `sendMany`
hands up to 16 messages to the socket and then takes them off the outbox, running their callbacks; the checks for further events
run on microthreads. `_notify` and `setup` hold `_mutex` from when they look at the queue until they are done with the
notification.

The peer and its process are alive. The channels of child processes are left out, but for their presence in an event and in a
reply.
-/

namespace Osxie.Server

open List Option Notifications List.Sublist

def noteFork : BitVec 32 := 0x40000000#32

/-- The channel follows the process across forks. -/
def noteTrack : BitVec 32 := 0x00000001#32

/-- The channel could not follow the child. -/
def noteTrackErr : BitVec 32 := 0x00000002#32

/-- `Kqchan::Process::Event`. Of the channel of a child only its presence is kept. -/
structure ProcEvent where
  events : BitVec 32
  data : BitVec 64
  newKqchan : Bool
deriving DecidableEq

/-- `dserver_kqchan_reply_proc_read_t`, with whether the socket of a child's channel is attached. -/
structure ProcReadReply where
  code : Nat
  fflags : BitVec 32
  data : BitVec 64
  socket : Bool
deriving DecidableEq

inductive ProcMessage where
  | notification
  | readReply (reply : ProcReadReply)
  | modifyReply
deriving DecidableEq

/-- The replies look for further events when they have been sent. -/
def ProcMessage.callback : ProcMessage → Bool
  | .notification => false
  | _ => true

inductive ProcRequest where
  | read
  | modify (flags : BitVec 32)
deriving DecidableEq

/-- Where a caller of `_sendNotification` is: before it, or with a notification to push. -/
inductive SendPlace where
  | sending
  | pushing
deriving DecidableEq

/-- Where the main loop is in a request. A read goes through the queue with the reply it has so far; `event` is what the reply
reports. -/
inductive RequestPlace where
  | reading (reply : ProcReadReply)
  | replying (reply : ProcReadReply) (event : Option ProcEvent)
  | flushing
  | pushingDeferred
  | modified
deriving DecidableEq

/-- A process channel. `transmitted` counts the messages at the front of the outbox that the socket has taken; `checks` the
checks for further events that have not looked at the queue, `checksSending` and `checksPushing` those that have found some.
What was notified, taken off the queue and reported is recorded, the messages that were sent (`delivered`), and how many
notifications were sent since a read was accepted. -/
structure ProcessChannel where
  notifications : Notifications
  flags : BitVec 32
  events : List ProcEvent
  socket : Bool
  setUp : Bool
  mutex : Option SendPlace
  request : Option RequestPlace
  checks : Nat
  checksSending : Nat
  checksPushing : Nat
  outbox : List ProcMessage
  transmitted : Nat
  delivered : List ProcMessage
  inbox : List ProcRequest
  notified : List ProcEvent
  taken : List ProcEvent
  reported : List ProcEvent
  unacknowledged : Nat
deriving DecidableEq

/-- Who moves. `childFound` says whether the child of a fork is registered, `childFails` whether the setup of its channel
throws. -/
inductive ProcessChannelAction where
  | notify (events : BitVec 32) (data : BitVec 64) (childFound : Bool)
  | holderSends
  | holderPushes
  | openSocket
  | finishSetup
  | peerRequests (request : ProcRequest)
  | beginRequest
  | readNext (childFails : Bool)
  | pushReply
  | flush
  | pushDeferred
  | transmit (n : Nat)
  | popSent
  | check
  | checkSends
  | checkPushes
deriving DecidableEq

variable (flags : BitVec 32)

namespace ProcessChannel

def init : ProcessChannel where
  notifications := .new
  flags := flags
  events := []
  socket := false
  setUp := false
  mutex := none
  request := none
  checks := 0
  checksSending := 0
  checksPushing := 0
  outbox := []
  transmitted := 0
  delivered := []
  inbox := []
  notified := []
  taken := []
  reported := []
  unacknowledged := 0

/-- What `Kqchan::Process::_read` answers with before it looks at the queue. -/
def emptyReply : ProcReadReply where
  code := 0
  fflags := 0
  data := 0
  socket := false

/-- The reply of `Kqchan::Process::_read` for an event that the peer is interested in. -/
def eventReply (reply : ProcReadReply) (flags : BitVec 32) (event : ProcEvent) (childFails : Bool) : ProcReadReply :=
  let reply := { reply with data := event.data, fflags := event.events &&& flags }
  if flags &&& noteTrack ≠ 0 then
    if event.newKqchan then
      if childFails then { reply with fflags := reply.fflags ||| noteTrackErr } else { reply with socket := true }
    else if event.events &&& noteFork ≠ 0 then
      { reply with fflags := reply.fflags ||| noteTrackErr }
    else
      reply
  else
    reply

variable (s : ProcessChannel)

/-- `Kqchan::Process::_notify`, up to the notification. -/
def notify (event : ProcEvent) : ProcessChannel :=
  { s with
    events := s.events ++ [event]
    notified := s.notified ++ [event]
    mutex := if s.socket then some .sending else none }

/-- The section of `Kqchan::Process::setup`. -/
def finishSetup : ProcessChannel :=
  { s with setUp := true, mutex := if s.events = [] then none else some .sending }

def pushNotification : ProcessChannel :=
  { s with outbox := s.outbox ++ [.notification] }

/-- What a caller of `_sendNotification` does next when the mutex has told it whether to push. -/
def afterSend (push : Bool) : Option SendPlace :=
  if push then some .pushing else none

/-- A request of the inbox is begun: a read acknowledges what has been sent, a modification sets the flags. -/
def beginRequest (inbox : List ProcRequest) : ProcRequest → ProcessChannel
  | .read =>
    { s with
      inbox := inbox
      notifications := s.notifications.acceptRead
      request := some (.reading emptyReply)
      unacknowledged := 0 }
  | .modify flags => { s with inbox := inbox, flags := flags, request := some .modified }

/-- One pass of the loop of `Kqchan::Process::_read`. -/
def readNext (reply : ProcReadReply) (childFails : Bool) : ProcessChannel :=
  match s.events with
  | [] => { s with request := some (.replying { reply with code := 0xdead } none) }
  | event :: events =>
    let s := { s with events := events, taken := s.taken ++ [event] }
    if event.events &&& s.flags = 0 then
      { s with request := some (.reading { reply with data := event.data, fflags := 0 }) }
    else
      { s with request := some (.replying (eventReply reply s.flags event childFails) (some event)) }

/-- One step. The outbox has a lock of its own, which `sendMany` holds until it has taken off what was sent. -/
def step : ProcessChannelAction → Option ProcessChannel
  | .notify events data childFound =>
    if s.mutex = none then some (s.notify ⟨events, data, events = noteFork ∧ childFound⟩) else none
  | .holderSends =>
    if s.mutex = some .sending then
      let (notifications, push) := s.notifications.sendNotification
      some { s with notifications := notifications, mutex := afterSend push }
    else none
  | .holderPushes =>
    if s.mutex = some .pushing ∧ s.transmitted = 0 then some { s.pushNotification with mutex := none } else none
  | .openSocket => if s.socket = false then some { s with socket := true } else none
  | .finishSetup => if s.socket ∧ ¬s.setUp ∧ s.mutex = none then some s.finishSetup else none
  | .peerRequests request => if s.setUp then some { s with inbox := s.inbox ++ [request] } else none
  | .beginRequest =>
    match s.inbox with
    | [] => none
    | request :: inbox =>
      if s.request = none ∧ (request = .read ∨ s.mutex = none) then some (s.beginRequest inbox request) else none
  | .readNext childFails =>
    match s.request with
    | some (.reading reply) => if s.mutex = none then some (s.readNext reply childFails) else none
    | _ => none
  | .pushReply =>
    if s.transmitted = 0 then
      match s.request with
      | some (.replying reply event) =>
        some { s with
          request := some .flushing
          outbox := s.outbox ++ [.readReply reply]
          reported := s.reported ++ event.toList }
      | some .modified => some { s with request := none, outbox := s.outbox ++ [.modifyReply] }
      | _ => none
    else none
  | .flush =>
    if s.request = some .flushing then
      let (notifications, push) := s.notifications.sendDeferredNotification
      some { s with notifications := notifications, request := if push then some .pushingDeferred else none }
    else none
  | .pushDeferred =>
    if s.request = some .pushingDeferred ∧ s.transmitted = 0 then some { s.pushNotification with request := none } else none
  | .transmit n =>
    if s.transmitted = 0 ∧ 0 < n ∧ n ≤ 16 ∧ n ≤ s.outbox.length then
      some { s with transmitted := n, unacknowledged := s.unacknowledged + (s.outbox.take n).count .notification }
    else none
  | .popSent =>
    match s.outbox with
    | [] => none
    | message :: outbox =>
      if 0 < s.transmitted then
        some { s with
          outbox := outbox
          transmitted := s.transmitted - 1
          delivered := s.delivered ++ [message]
          checks := s.checks + message.callback.toNat }
      else none
  | .check =>
    if 0 < s.checks then
      some { s with checks := s.checks - 1, checksSending := s.checksSending + (!s.events.isEmpty).toNat }
    else none
  | .checkSends =>
    if 0 < s.checksSending then
      let (notifications, push) := s.notifications.sendNotification
      some { s with
        notifications := notifications
        checksSending := s.checksSending - 1
        checksPushing := s.checksPushing + push.toNat }
    else none
  | .checkPushes =>
    if 0 < s.checksPushing ∧ s.transmitted = 0 then
      some { s.pushNotification with checksPushing := s.checksPushing - 1 }
    else none

def machine : Machine ProcessChannel ProcessChannelAction where
  init := init flags
  step := step

/-! ## No event is lost -/

/-- `setup` has been through its section, the outbox is empty, no request is processed, and no check is outstanding. -/
structure Idle (s : ProcessChannel) : Prop where
  setUp : s.setUp = true
  outbox : s.outbox = []
  request : s.request = none
  checks : s.checks = 0 ∧ s.checksSending = 0 ∧ s.checksPushing = 0

/-- A reply carries an event: its data, and its flags as far as they are asked for, with the mark of a child that could not be
followed; a socket is attached only for a child's channel. -/
structure Carries (reply : ProcReadReply) (event : ProcEvent) : Prop where
  code : reply.code = 0
  data : reply.data = event.data
  fflags : ∃ flags, event.events &&& flags ≠ 0 ∧
    (reply.fflags = event.events &&& flags ∨ reply.fflags = event.events &&& flags ||| noteTrackErr)
  socket : reply.socket = true → event.newKqchan = true

/-- The replies to reads that carry an event, from the first that was sent to the last in the outbox. -/
def eventReplies : List ProcReadReply :=
  (s.delivered ++ s.outbox).filterMap fun
    | .readReply reply => if reply.code = 0 then some reply else none
    | _ => none

end ProcessChannel

/-! ## The invariant -/

/-- The request has taken an event that is not reported yet, or goes on taking events. -/
def RequestPlace.takes : RequestPlace → Bool
  | .reading _ | .replying _ _ => true
  | _ => false

def RequestPlace.defers : RequestPlace → Bool
  | .reading _ | .replying _ _ | .flushing => true
  | _ => false

def RequestPlace.reports : RequestPlace → List ProcEvent
  | .replying _ event => event.toList
  | _ => []

/-- The reply of a read says that there is no event, or carries the one that it reports. -/
def RequestPlace.Fits : RequestPlace → Prop
  | .reading reply => reply.code = 0 ∧ reply.socket = false
  | .replying reply none => reply.code ≠ 0
  | .replying reply (some event) => ProcessChannel.Carries reply event
  | .flushing | .pushingDeferred | .modified => True

namespace ProcessChannel

/-- A notification that was committed to is deferred, about to be pushed, in the outbox, or sent and not acknowledged. -/
def Committed (s : ProcessChannel) : Prop :=
  s.notifications.deferredNotification = true ∨ s.mutex = some .pushing ∨ s.request = some .pushingDeferred ∨
    0 < s.checksPushing ∨ .notification ∈ s.outbox.drop s.transmitted ∨ 0 < s.unacknowledged

/-- The peer has been notified or will be: by the notification that was committed to, or by someone who has not looked at the
queue for the last time. -/
def WillNotify (s : ProcessChannel) : Prop :=
  s.notifications.canSendNotification = false ∨ s.request.any RequestPlace.takes = true ∨ (∃ m ∈ s.outbox, m.callback = true) ∨
    0 < s.checks ∨ 0 < s.checksSending ∨ s.mutex = some .sending

/-- What every step of a process channel keeps. -/
structure Inv (s : ProcessChannel) : Prop where
  queued : s.taken ++ s.events = s.notified
  reported : (s.reported ++ (s.request.map RequestPlace.reports).getD []).Sublist s.taken
  deferring : s.notifications.deferNotification = s.request.any RequestPlace.defers
  deferred : s.notifications.deferredNotification = true → s.notifications.deferNotification = true
  opened : s.setUp = true → s.socket = true
  committed : s.notifications.canSendNotification = false → s.Committed
  covered : s.setUp = true → s.events ≠ [] → s.WillNotify
  fits : ∀ place, s.request = some place → place.Fits
  carried : Forall₂ Carries s.eventReplies s.reported

variable {s : ProcessChannel}

theorem inv_init : Inv (init flags) where
  queued := rfl
  reported := refl _
  deferring := rfl
  deferred := nofun
  opened := nofun
  committed := nofun
  covered := nofun
  fits := nofun
  carried := .nil

/-- A message that carries no event leaves the replies that do. -/
theorem eventReplies_append {message : ProcMessage} (hm : ∀ reply, message = .readReply reply → reply.code ≠ 0) :
    { s with outbox := s.outbox ++ [message] }.eventReplies = s.eventReplies := by
  unfold eventReplies
  rw [← append_assoc, filterMap_append]
  cases message with
  | notification | modifyReply => simp
  | readReply reply => simp [hm reply rfl]

/-- A reply that carries an event is the last of them. -/
theorem eventReplies_append_event {reply : ProcReadReply} (hr : reply.code = 0) :
    { s with outbox := s.outbox ++ [ProcMessage.readReply reply] }.eventReplies = s.eventReplies ++ [reply] := by
  unfold eventReplies
  rw [← append_assoc, filterMap_append]
  simp [hr]

/-- What was committed to is not with the holder of the mutex, if there is none. -/
theorem Committed.setMutex (h : s.Committed) (hm : s.mutex = none) (mutex : Option SendPlace) :
    { s with mutex := mutex }.Committed := by
  rcases h with hd | hp | hrs
  · exact .inl hd
  · rw [hm] at hp
    cases hp
  · exact .inr (.inr hrs)

/-- What was committed to is not with the request, unless it is about to push it. -/
theorem Committed.setRequest (h : s.Committed) (hr : s.request ≠ some .pushingDeferred) (request : Option RequestPlace) :
    { s with request := request }.Committed := by
  rcases h with hd | hm | hp | hrs
  · exact .inl hd
  · exact .inr (.inl hm)
  · exact absurd hp hr
  · exact .inr (.inr (.inr hrs))

/-- The request is not the one that will notify, unless it is to take events or to reply. -/
theorem WillNotify.setRequest (h : s.WillNotify) (hr : s.request.any RequestPlace.takes = false) (request : Option RequestPlace) :
    { s with request := request }.WillNotify := by
  rcases h with hc | ht | hrs
  · exact .inl hc
  · exact absurd (hr.symm.trans ht) Bool.false_ne_true
  · exact .inr (.inr hrs)

theorem Inv.notify (h : Inv s) (hm : s.mutex = none) (event : ProcEvent) : Inv (s.notify event) :=
  { h with
    queued := by simp [ProcessChannel.notify, ← h.queued]
    committed := fun hc => (h.committed hc).setMutex hm _
    covered := fun hs _ => by
      have hsc : s.socket = true := h.opened hs
      simp [WillNotify, ProcessChannel.notify, hsc] }

theorem Inv.finishSetup (h : Inv s) (hsc : s.socket = true) (hm : s.mutex = none) : Inv s.finishSetup :=
  { h with
    opened := fun _ => hsc
    committed := fun hc => (h.committed hc).setMutex hm _
    covered := fun _ he => by
      have he : s.events ≠ [] := he
      simp [WillNotify, ProcessChannel.finishSetup, he] }

/-- After `_sendNotification` a notification is committed to, if the caller goes on to push the one it was given. -/
theorem Inv.committed_send (h : Inv s) :
    s.Committed ∨ s.notifications.sendNotification.1.deferredNotification = true ∨ s.notifications.sendNotification.2 = true := by
  rcases s.notifications.sendNotification_cases with ⟨hc, _⟩ | ⟨_, hd, _⟩ | ⟨_, hp⟩
  · exact .inl (h.committed hc)
  · exact .inr (.inl hd)
  · exact .inr (.inr hp)

/-- What `_sendNotification` has deferred is deferred while a read is. -/
theorem Inv.deferred_send (h : Inv s) (hd : s.notifications.sendNotification.1.deferredNotification = true) :
    s.notifications.sendNotification.1.deferNotification = true := by
  rw [sendNotification_defer]
  rcases s.notifications.sendNotification_cases with ⟨_, heq⟩ | ⟨hdefer, _⟩ | ⟨heq, _⟩
  · rw [heq] at hd
    exact h.deferred hd
  · exact hdefer
  · rw [heq] at hd
    exact h.deferred hd

theorem Inv.holderSends (h : Inv s) (hm : s.mutex = some .sending) :
    Inv { s with notifications := s.notifications.sendNotification.1, mutex := afterSend s.notifications.sendNotification.2 } :=
  { h with
    deferring := by simpa using h.deferring
    deferred := h.deferred_send
    committed := fun _ => by
      rcases h.committed_send with (hd | hp | hrs) | hd | hp
      · exact .inl (sendNotification_deferred hd)
      · rw [hm] at hp
        cases hp
      · exact .inr (.inr hrs)
      · exact .inl hd
      · exact .inr (.inl (by simp [afterSend, hp]))
    covered := fun _ _ => .inl (sendNotification_canSend _) }

theorem Inv.checkSends (h : Inv s) :
    Inv { s with
      notifications := s.notifications.sendNotification.1
      checksSending := s.checksSending - 1
      checksPushing := s.checksPushing + s.notifications.sendNotification.2.toNat } :=
  { h with
    deferring := by simpa using h.deferring
    deferred := h.deferred_send
    committed := fun _ => by
      rcases h.committed_send with (hd | hm | hr | hp | hrs) | hd | hp
      · exact .inl (sendNotification_deferred hd)
      · exact .inr (.inl hm)
      · exact .inr (.inr (.inl hr))
      · exact .inr (.inr (.inr (.inl (Nat.add_pos_left hp _))))
      · exact .inr (.inr (.inr (.inr hrs)))
      · exact .inl hd
      · exact .inr (.inr (.inr (.inl (by simp [hp]))))
    covered := fun _ _ => .inl (sendNotification_canSend _) }

/-! ### Messages -/

/-- A notification that has just been pushed has not been sent. -/
theorem notification_mem_drop (ht : s.transmitted = 0) :
    ProcMessage.notification ∈ (s.outbox ++ [ProcMessage.notification]).drop s.transmitted := by
  simp [ht]

/-- A push keeps the replies in the outbox. -/
theorem WillNotify.push (h : s.WillNotify) (message : ProcMessage) : { s with outbox := s.outbox ++ [message] }.WillNotify := by
  rcases h with hc | hr | ⟨m, hm, hcb⟩ | hrs
  · exact .inl hc
  · exact .inr (.inl hr)
  · exact .inr (.inr (.inl ⟨m, mem_append_left _ hm, hcb⟩))
  · exact .inr (.inr (.inr hrs))

/-- A push keeps the notification that was committed to. -/
theorem Committed.push (h : s.Committed) (message : ProcMessage) (ht : s.transmitted = 0) :
    { s with outbox := s.outbox ++ [message] }.Committed := by
  rcases h with hd | hm | hr | hp | ho | hu
  · exact .inl hd
  · exact .inr (.inl hm)
  · exact .inr (.inr (.inl hr))
  · exact .inr (.inr (.inr (.inl hp)))
  · simp only [ht, drop_zero] at ho
    exact .inr (.inr (.inr (.inr (.inl (by simp [ht, ho])))))
  · exact .inr (.inr (.inr (.inr (.inr hu))))

/-- A request that has just been given a place. -/
theorem fits_of_eq {place : RequestPlace} (hfit : place.Fits) (place' : RequestPlace) (heq : some place = some place') :
    place'.Fits :=
  some.inj heq ▸ hfit

section

variable (h : Inv s)

include h

theorem Inv.carried_notification : Forall₂ Carries s.pushNotification.eventReplies s.reported := by
  have happ : s.pushNotification.eventReplies = s.eventReplies := eventReplies_append nofun
  rw [happ]
  exact h.carried

theorem Inv.holderPushes (hm : s.mutex = some .pushing) (ht : s.transmitted = 0) :
    Inv { s.pushNotification with mutex := none } :=
  { h with
    committed := fun _ => .inr (.inr (.inr (.inr (.inl (notification_mem_drop ht)))))
    carried := h.carried_notification
    covered := fun hs he => by
      rcases (h.covered hs he).push .notification with hc | hr | ho | hk | hks | hm'
      · exact .inl hc
      · exact .inr (.inl hr)
      · exact .inr (.inr (.inl ho))
      · exact .inr (.inr (.inr (.inl hk)))
      · exact .inr (.inr (.inr (.inr (.inl hks))))
      · rw [show s.mutex = some .sending from hm'] at hm
        cases hm }

theorem Inv.checkPushes (ht : s.transmitted = 0) : Inv { s.pushNotification with checksPushing := s.checksPushing - 1 } :=
  { h with
    committed := fun _ => .inr (.inr (.inr (.inr (.inl (notification_mem_drop ht)))))
    covered := fun hs he => (h.covered hs he).push .notification
    carried := h.carried_notification }

theorem Inv.pushDeferred (hr : s.request = some .pushingDeferred) (ht : s.transmitted = 0) :
    Inv { s.pushNotification with request := none } :=
  { h with
    reported := by simpa [hr, pushNotification, RequestPlace.reports] using h.reported
    deferring := by simpa [hr, pushNotification, RequestPlace.defers] using h.deferring
    committed := fun _ => .inr (.inr (.inr (.inr (.inl (notification_mem_drop ht)))))
    covered := fun hs he => ((h.covered hs he).push .notification).setRequest (by rw [hr]; rfl) _
    fits := nofun
    carried := h.carried_notification }

theorem Inv.transmit {n : Nat} (ht : s.transmitted = 0) :
    Inv { s with transmitted := n, unacknowledged := s.unacknowledged + (s.outbox.take n).count .notification } :=
  { h with
    committed := fun hc => by
      rcases h.committed hc with hd | hm | hr | hp | ho | hu
      · exact .inl hd
      · exact .inr (.inl hm)
      · exact .inr (.inr (.inl hr))
      · exact .inr (.inr (.inr (.inl hp)))
      · -- a notification of the outbox is among those sent now, or stays behind them
        rw [ht, ← take_append_drop n s.outbox] at ho
        rcases mem_append.1 ho with hsn | hlf
        · exact .inr (.inr (.inr (.inr (.inr (Nat.add_pos_right _ (count_pos_iff.2 hsn))))))
        · exact .inr (.inr (.inr (.inr (.inl hlf))))
      · exact .inr (.inr (.inr (.inr (.inr (Nat.add_pos_left hu _))))) }

theorem Inv.popSent {message : ProcMessage} {outbox : List ProcMessage} (ho : s.outbox = message :: outbox)
    (ht : 0 < s.transmitted) :
    Inv { s with
      outbox := outbox
      transmitted := s.transmitted - 1
      delivered := s.delivered ++ [message]
      checks := s.checks + message.callback.toNat } :=
  { h with
    carried := by
      have hcar := h.carried
      unfold eventReplies at hcar ⊢
      rwa [append_assoc, singleton_append, ← ho]
    committed := fun hc => by
      have hdrop : s.outbox.drop s.transmitted = outbox.drop (s.transmitted - 1) := by
        rw [ho, show s.transmitted = s.transmitted - 1 + 1 by omega, drop_succ_cons, Nat.add_sub_cancel]
      have hcom := h.committed hc
      rw [Committed, hdrop] at hcom
      exact hcom
    covered := fun hs he => by
      rcases h.covered hs he with hc | hr | ⟨m, hm, hcb⟩ | hk | hrs
      · exact .inl hc
      · exact .inr (.inl hr)
      · rcases mem_cons.1 (ho ▸ hm) with rfl | hm
        · exact .inr (.inr (.inr (.inl (by simp [hcb]))))
        · exact .inr (.inr (.inl ⟨m, hm, hcb⟩))
      · exact .inr (.inr (.inr (.inl (Nat.add_pos_left hk _))))
      · exact .inr (.inr (.inr (.inr hrs))) }

/-- A check that finds no event may end: there is nothing to notify of. -/
theorem Inv.check : Inv { s with checks := s.checks - 1, checksSending := s.checksSending + (!s.events.isEmpty).toNat } :=
  { h with
    covered := fun _ he => by
      have hfound : 0 < (!s.events.isEmpty).toNat := by
        rw [isEmpty_eq_false_iff.2 he]
        exact Nat.one_pos
      exact .inr (.inr (.inr (.inr (.inl (Nat.add_pos_right _ hfound))))) }

/-! ### Requests -/

/-- A request that is begun takes back no notification but those a read acknowledges. -/
theorem Inv.beginRequest (hr : s.request = none) (inbox : List ProcRequest) (request : ProcRequest) :
    Inv (s.beginRequest inbox request) := by
  have hrep := h.reported
  have hdef := h.deferring
  simp only [hr, map_none, getD_none, append_nil, any_none] at hrep hdef
  cases request with
  | read =>
    exact { h with
      reported := by simpa [ProcessChannel.beginRequest, RequestPlace.reports] using hrep
      deferring := rfl
      deferred := fun _ => rfl
      committed := nofun
      covered := fun _ _ => .inr (.inl rfl)
      fits := fits_of_eq ⟨rfl, rfl⟩ }
  | modify flags =>
    exact { h with
      reported := by simpa [ProcessChannel.beginRequest, RequestPlace.reports] using hrep
      deferring := hdef
      committed := fun hc => (h.committed hc).setRequest (by rw [hr]; nofun) _
      covered := fun hs he => (h.covered hs he).setRequest (by rw [hr]; rfl) _
      fits := fits_of_eq trivial }

omit h in
/-- The reply for an event that the peer is interested in carries it. -/
theorem carries_eventReply {reply : ProcReadReply} (hr : reply.code = 0 ∧ reply.socket = false) {flags : BitVec 32}
    {event : ProcEvent} (he : event.events &&& flags ≠ 0) (childFails : Bool) :
    Carries (eventReply reply flags event childFails) event := by
  obtain ⟨hcode, hsocket⟩ := hr
  have hnone : reply.socket = true → event.newKqchan = true := fun hs => absurd (hsocket.symm.trans hs) Bool.false_ne_true
  unfold eventReply
  dsimp only
  split
  · split
    · rename_i hnew
      split
      · exact ⟨hcode, rfl, ⟨flags, he, .inr rfl⟩, hnone⟩
      · exact ⟨hcode, rfl, ⟨flags, he, .inl rfl⟩, fun _ => hnew⟩
    · split
      · exact ⟨hcode, rfl, ⟨flags, he, .inr rfl⟩, hnone⟩
      · exact ⟨hcode, rfl, ⟨flags, he, .inl rfl⟩, hnone⟩
  · exact ⟨hcode, rfl, ⟨flags, he, .inl rfl⟩, hnone⟩

/-- A read that goes on through the queue takes its events in order. -/
theorem Inv.readNext {reply : ProcReadReply} (hr : s.request = some (.reading reply)) (childFails : Bool) :
    Inv (s.readNext reply childFails) := by
  have hrep := h.reported
  have hdef := h.deferring
  simp only [hr, map_some, getD_some, RequestPlace.reports, append_nil, any_some] at hrep hdef
  have hfit : reply.code = 0 ∧ reply.socket = false := h.fits _ hr
  have hcom : ∀ request, s.notifications.canSendNotification = false → { s with request := request }.Committed :=
    fun request hc => (h.committed hc).setRequest (by rw [hr]; nofun) request
  unfold ProcessChannel.readNext
  split
  · rename_i hev
    exact { h with
      reported := by simpa [RequestPlace.reports] using hrep
      deferring := hdef
      committed := hcom _
      covered := fun _ he => absurd hev he
      fits := fits_of_eq (show 0xdead ≠ 0 by decide) }
  · rename_i event events hev
    have hque : s.taken ++ [event] ++ events = s.notified := by
      rw [← h.queued, hev, append_assoc]
      rfl
    dsimp only
    split
    · exact { h with
        queued := hque
        reported := by simpa [RequestPlace.reports] using hrep.trans (sublist_append_left _ _)
        deferring := hdef
        committed := hcom _
        covered := fun _ _ => .inr (.inl rfl)
        fits := fits_of_eq hfit }
    · rename_i hint
      exact { h with
        queued := hque
        reported := hrep.append (refl [event])
        deferring := hdef
        committed := hcom _
        covered := fun _ _ => .inr (.inl rfl)
        fits := fits_of_eq (carries_eventReply hfit hint childFails) }

/-- The reply to a read reports the event it was made from, and looks for further events. -/
theorem Inv.pushReadReply {reply : ProcReadReply} {event : Option ProcEvent} (hr : s.request = some (.replying reply event))
    (ht : s.transmitted = 0) :
    Inv { s with
      request := some .flushing
      outbox := s.outbox ++ [.readReply reply]
      reported := s.reported ++ event.toList } :=
  { h with
    reported := by simpa [hr, RequestPlace.reports] using h.reported
    deferring := by simpa [hr, RequestPlace.defers] using h.deferring
    committed := fun hc => ((h.committed hc).push (.readReply reply) ht).setRequest (by rw [hr]; nofun) _
    covered := fun _ _ => .inr (.inr (.inl ⟨.readReply reply, by simp, rfl⟩))
    fits := fits_of_eq trivial
    carried := by
      have hfit := h.fits _ hr
      cases event with
      | none =>
        rw [toList_none, append_nil]
        have happ : { s with outbox := s.outbox ++ [ProcMessage.readReply reply] }.eventReplies = s.eventReplies :=
          eventReplies_append fun reply' heq => by cases heq; exact hfit
        exact happ ▸ h.carried
      | some event =>
        have happ := eventReplies_append_event (s := s) hfit.code
        exact happ ▸ rel_append h.carried (.cons hfit .nil) }

theorem Inv.pushModifyReply (hr : s.request = some .modified) (ht : s.transmitted = 0) :
    Inv { s with request := none, outbox := s.outbox ++ [.modifyReply] } :=
  { h with
    reported := by simpa [hr, RequestPlace.reports] using h.reported
    deferring := by simpa [hr, RequestPlace.defers] using h.deferring
    committed := fun hc => ((h.committed hc).push .modifyReply ht).setRequest (by rw [hr]; nofun) _
    covered := fun _ _ => .inr (.inr (.inl ⟨.modifyReply, by simp, rfl⟩))
    fits := nofun
    carried := by
      have happ : { s with outbox := s.outbox ++ [ProcMessage.modifyReply] }.eventReplies = s.eventReplies :=
        eventReplies_append nofun
      exact happ ▸ h.carried }

/-- The flush hands the deferred notification on. -/
theorem Inv.flush (hr : s.request = some .flushing) :
    Inv { s with
      notifications := s.notifications.sendDeferredNotification.1
      request := if s.notifications.sendDeferredNotification.2 then some .pushingDeferred else none } := by
  have hrep := h.reported
  simp only [hr, map_some, getD_some, RequestPlace.reports, append_nil] at hrep
  have hcov : ∀ {r : Option RequestPlace}, s.setUp = true → s.events ≠ [] →
      { s with notifications := s.notifications.sendDeferredNotification.1, request := r }.WillNotify := by
    intro r hs he
    rcases (h.covered hs he).setRequest (by rw [hr]; rfl) r with hc | hrs
    · exact .inl hc
    · exact .inr hrs
  cases hd : s.notifications.deferredNotification with
  | true =>
    simp only [sendDeferredNotification, hd, if_true]
    exact { h with
      reported := by simpa [RequestPlace.reports] using hrep
      deferring := rfl
      deferred := by simp
      committed := fun _ => .inr (.inr (.inl rfl))
      covered := hcov
      fits := fits_of_eq trivial }
  | false =>
    simp only [sendDeferredNotification, hd, Bool.false_eq_true, if_false]
    exact { h with
      reported := by simpa using hrep
      deferring := rfl
      deferred := by simp
      committed := fun hc => by
        rcases (h.committed hc).setRequest (by rw [hr]; simp) none with hd' | hrs
        · rw [hd] at hd'
          cases hd'
        · exact .inr hrs
      covered := hcov
      fits := by simp }

/-! ## No lost event -/

/-- Every step keeps the invariant. -/
theorem Inv.step {a : ProcessChannelAction} {s' : ProcessChannel} (hs : s.step a = some s') : Inv s' := by
  cases a with
  | notify events data childFound =>
    obtain ⟨hm, rfl⟩ := of_guarded hs
    exact h.notify hm _
  | holderSends =>
    obtain ⟨hm, rfl⟩ := of_guarded hs
    exact h.holderSends hm
  | holderPushes =>
    obtain ⟨⟨hm, ht⟩, rfl⟩ := of_guarded hs
    exact h.holderPushes hm ht
  | openSocket =>
    obtain ⟨_, rfl⟩ := of_guarded hs
    exact { h with opened := fun _ => rfl }
  | finishSetup =>
    obtain ⟨⟨hsc, _, hm⟩, rfl⟩ := of_guarded hs
    exact h.finishSetup hsc hm
  | peerRequests request =>
    obtain ⟨_, rfl⟩ := of_guarded hs
    exact { h with }
  | beginRequest =>
    simp only [ProcessChannel.step] at hs
    split at hs
    · cases hs
    · obtain ⟨⟨hr, _⟩, rfl⟩ := of_guarded hs
      exact h.beginRequest hr _ _
  | readNext childFails =>
    simp only [ProcessChannel.step] at hs
    split at hs
    · rename_i reply hr
      obtain ⟨_, rfl⟩ := of_guarded hs
      exact h.readNext hr childFails
    · cases hs
  | pushReply =>
    obtain ⟨ht, hs⟩ := ite_none_right_eq_some.1 hs
    split at hs
    · rename_i reply event hr
      exact some.inj hs ▸ h.pushReadReply hr ht
    · rename_i hr
      exact some.inj hs ▸ h.pushModifyReply hr ht
    · cases hs
  | flush =>
    obtain ⟨hr, rfl⟩ := of_guarded hs
    exact h.flush hr
  | pushDeferred =>
    obtain ⟨⟨hr, ht⟩, rfl⟩ := of_guarded hs
    exact h.pushDeferred hr ht
  | transmit n =>
    obtain ⟨⟨ht, _⟩, rfl⟩ := of_guarded hs
    exact h.transmit ht
  | popSent =>
    simp only [ProcessChannel.step] at hs
    split at hs
    · cases hs
    rename_i message outbox ho
    obtain ⟨ht, rfl⟩ := of_guarded hs
    exact h.popSent ho ht
  | check =>
    obtain ⟨_, rfl⟩ := of_guarded hs
    exact h.check
  | checkSends =>
    obtain ⟨_, rfl⟩ := of_guarded hs
    exact h.checkSends
  | checkPushes =>
    obtain ⟨⟨_, ht⟩, rfl⟩ := of_guarded hs
    exact h.checkPushes ht

end

/-- An exit and a fork before the channel is set up, and a read of the first: the second is found when the reply has been
sent, and notified of. -/
def readFirst : List ProcessChannelAction :=
  [.notify 0x80000000#32 0 false, .notify noteFork 7 false, .openSocket, .finishSetup, .holderSends, .holderPushes, .transmit 1,
    .popSent, .peerRequests .read, .beginRequest, .readNext false, .pushReply, .flush, .transmit 1, .popSent, .check, .checkSends,
    .checkPushes, .transmit 1, .popSent]

/-- No event is lost in any state: those not taken are queued in order, and while there is one, the peer is notified or is to be. -/
theorem events_queued {flags : BitVec 32} (h : (machine flags).Reachable s) : s.taken ++ s.events = s.notified ∧
    (s.setUp → s.events ≠ [] → s.WillNotify) ∧ (s.notifications.canSendNotification = false → s.Committed) := by
  have hinv : Inv s := h.invariant (inv_init flags) fun hinv _ => hinv.step
  exact ⟨hinv.queued, hinv.covered, hinv.committed⟩

/-- One of two events has been taken, and the reply to the read is not made yet. -/
theorem events_queued_reading : ∃ s, (machine 0xffffffff#32).run (init 0xffffffff#32) (readFirst.take 11) = some s ∧
    (s.taken = [⟨0x80000000#32, 0, false⟩] ∧ s.events = [⟨noteFork, 7, false⟩] ∧ s.setUp = true) ∧ s.WillNotify := by
  refine (Machine.exists_of_runOk ?_).imp fun s h => ⟨h.1, h.2, ?_⟩
  · decide
  · exact (events_queued (Machine.reaches_of_runOk h.1)).2.1 h.2.2.2 (by rw [h.2.2.1]; nofun)

end ProcessChannel

end Osxie.Server
