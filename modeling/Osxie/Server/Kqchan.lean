import Osxie.Lib.Machine

/-!
# Kqueue channels

A `Kqchan` tells its peer by a notification that there is something to read; the peer reads, and the reply carries the event.
The server commits to a notification under `_notificationMutex`, but pushes it to the outbox after the mutex is dropped, and a
read request may be served by another thread. `Notifications` is what the mutex guards.

`Channel` is a channel with its peer. `_sendNotification` may be called by any thread at any time. The requests of a Mach port
are served by microthreads (`kernelAsync`), those of a process one after the other by the main loop. A notification is
unacknowledged from when the server commits to it until it accepts the read that answers it; `log` records the order in which
reads are accepted, and their replies and the notifications pushed to the outbox.

The contents of the messages, the monitor of the socket and the hang-up of the peer are left out.
-/

namespace Osxie.Server

open List Option Bool

/-- The part of a `Kqchan` that `_notificationMutex` guards. All notifications are the same message, so that of the deferred one
only its presence is kept. -/
structure Notifications where
  canSendNotification : Bool
  deferNotification : Bool
  deferredNotification : Bool
deriving DecidableEq

namespace Notifications

def new : Notifications where
  canSendNotification := true
  deferNotification := false
  deferredNotification := false

variable (n : Notifications)

/-- `Kqchan::_sendNotification` under the mutex, and whether it goes on to push the notification. -/
def sendNotification : Notifications × Bool :=
  if ¬n.canSendNotification then
    (n, false)
  else if n.deferNotification then
    ({ n with canSendNotification := false, deferredNotification := true }, false)
  else
    ({ n with canSendNotification := false }, true)

/-- Once `_sendNotification` is through the mutex, no other notification may be sent. -/
@[simp] theorem sendNotification_canSend : n.sendNotification.1.canSendNotification = false := by
  unfold sendNotification
  split
  · simpa using ‹¬n.canSendNotification = true›
  · split <;> rfl

/-- `_sendNotification` leaves the deferral as it is. -/
@[simp] theorem sendNotification_defer : n.sendNotification.1.deferNotification = n.deferNotification := by
  unfold sendNotification
  split
  · rfl
  · split <;> rfl

/-- A notification is on its way already, is deferred now, or is to be pushed. -/
theorem sendNotification_cases :
    n.canSendNotification = false ∧ n.sendNotification = (n, false) ∨
      n.deferNotification = true ∧ n.sendNotification.1.deferredNotification = true ∧ n.sendNotification.2 = false ∨
      n.sendNotification.1.deferredNotification = n.deferredNotification ∧ n.sendNotification.2 = true := by
  by_cases hcan : n.canSendNotification = true
  · by_cases hdefer : n.deferNotification = true
    · exact .inr (.inl (by simp [sendNotification, hcan, hdefer]))
    · exact .inr (.inr (by simp [sendNotification, hcan, hdefer]))
  · exact .inl ⟨by simpa using hcan, by simp [sendNotification, hcan]⟩

/-- A notification that is deferred stays so. -/
theorem sendNotification_deferred {n : Notifications} (hd : n.deferredNotification = true) :
    n.sendNotification.1.deferredNotification = true := by
  rcases n.sendNotification_cases with ⟨_, heq⟩ | ⟨_, hd', _⟩ | ⟨heq, _⟩
  · rw [heq]
    exact hd
  · exact hd'
  · rw [heq]
    exact hd

/-- `Kqchan::_sendDeferredNotification` under the mutex, and whether it goes on to push the notification. -/
def sendDeferredNotification : Notifications × Bool :=
  ({ n with deferNotification := false, deferredNotification := false }, n.deferredNotification)

/-- The part of both `_read`s that accepts the request. -/
def acceptRead : Notifications :=
  { n with canSendNotification := true, deferNotification := true }

end Notifications

inductive KqchanKind where
  | machPort
  | process
deriving DecidableEq

inductive KqchanMessage where
  | notification
  | readReply
  | modifyReply
deriving DecidableEq

inductive KqchanRequest where
  | read
  | modify
deriving DecidableEq

/-- How far a read request is served: until its reply is pushed, and until the deferred notification is sent. -/
inductive ReadPlace where
  | accepted
  | replied
deriving DecidableEq

/-- What the order of the messages is about. -/
inductive KqchanEvent where
  | acceptsRead
  | pushesReadReply
  | pushesNotification
deriving DecidableEq

/-- The message that an event puts in the outbox. -/
def KqchanEvent.message : KqchanEvent → Option KqchanMessage
  | .acceptsRead => none
  | .pushesReadReply => some .readReply
  | .pushesNotification => some .notification

/-- A channel and its peer. `pushing` counts the notifications that are between the mutex and the outbox, `received` are the
messages that the peer has received, `unread` counts the notifications among them that it has not read, and `ignored` the reads
that were dropped. -/
structure Channel where
  notifications : Notifications
  pushing : Nat
  reads : List ReadPlace
  modifies : Nat
  outbox : List KqchanMessage
  toPeer : List KqchanMessage
  received : List KqchanMessage
  unread : Nat
  awaiting : Option KqchanRequest
  toServer : List KqchanRequest
  ignored : Nat
  aborted : Option String
  log : List KqchanEvent
deriving DecidableEq

/-- Who moves. `notify` is a call of `_sendNotification` by any thread; `reply` and `flush` name the read request, by its
position among those being served. -/
inductive ChannelAction where
  | notify
  | push
  | sendRead
  | sendModify
  | receive (threadFound : Bool)
  | ignoreRead
  | reply (i : Nat)
  | flush (i : Nat)
  | replyModify
  | send
  | peerReceive
deriving DecidableEq

namespace Channel

def init : Channel where
  notifications := .new
  pushing := 0
  reads := []
  modifies := 0
  outbox := []
  toPeer := []
  received := []
  unread := 0
  awaiting := none
  toServer := []
  ignored := 0
  aborted := none
  log := []

variable (s : Channel)

/-- The main loop may take the next request: it serves those of a process itself. -/
def mayReceive : KqchanKind → Bool
  | .machPort => true
  | .process => s.reads = [] ∧ s.modifies = 0

/-- Both `_sendNotification` and `_sendDeferredNotification` leave the mutex with at most one notification to push. -/
def leaveMutex : Notifications × Bool → Channel
  | (notifications, push) => { s with notifications := notifications, pushing := s.pushing + push.toNat }

def pushNotification : Channel :=
  { s with pushing := s.pushing - 1, outbox := s.outbox ++ [.notification], log := s.log ++ [.pushesNotification] }

/-- A read is accepted, and its request gone from those received. -/
def acceptRead (s : Channel) (toServer : List KqchanRequest) : Channel :=
  { s with
    toServer := toServer
    notifications := s.notifications.acceptRead
    reads := s.reads ++ [.accepted]
    log := s.log ++ [.acceptsRead] }

def pushReadReply (i : Nat) : Channel :=
  { s with reads := s.reads.set i .replied, outbox := s.outbox ++ [.readReply], log := s.log ++ [.pushesReadReply] }

variable (kind : KqchanKind)

/-- `_processMessages`, up to where the request is handed on. The thread of a Mach port's request has to be registered. -/
def receive (threadFound : Bool) : Option Channel :=
  match s.toServer with
  | [] => none
  | .read :: toServer =>
    let s := s.acceptRead toServer
    some (if kind = .machPort ∧ ¬threadFound then { s with aborted := some "No thread for Mach port kqchan read?" } else s)
  | .modify :: toServer =>
    let s := { s with toServer := toServer, modifies := s.modifies + 1 }
    some (if kind = .machPort ∧ ¬threadFound then { s with aborted := some "No thread for Mach port kqchan modification?" } else s)

def peerReceive : Option Channel :=
  match s.toPeer with
  | [] => none
  | .notification :: toPeer =>
    some { s with toPeer := toPeer, received := s.received ++ [.notification], unread := s.unread + 1 }
  | message :: toPeer => some { s with toPeer := toPeer, received := s.received ++ [message], awaiting := none }

def act : ChannelAction → Option Channel
  | .notify => some (s.leaveMutex s.notifications.sendNotification)
  | .push => if 0 < s.pushing then some s.pushNotification else none
  -- one read for each notification received, and one request at a time
  | .sendRead =>
    if s.awaiting = none ∧ 0 < s.unread then
      some { s with unread := s.unread - 1, awaiting := some .read, toServer := s.toServer ++ [.read] }
    else none
  | .sendModify =>
    if s.awaiting = none then some { s with awaiting := some .modify, toServer := s.toServer ++ [.modify] } else none
  | .receive threadFound => if s.mayReceive kind then s.receive kind threadFound else none
  -- a process that listens and has died is not answered
  | .ignoreRead =>
    if kind = .process ∧ s.mayReceive kind ∧ s.toServer.head? = some .read then
      some { s with toServer := s.toServer.tail, ignored := s.ignored + 1 }
    else none
  | .reply i => if s.reads[i]? = some .accepted then some (s.pushReadReply i) else none
  | .flush i =>
    if s.reads[i]? = some .replied then
      some ({ s with reads := s.reads.eraseIdx i }.leaveMutex s.notifications.sendDeferredNotification)
    else none
  | .replyModify =>
    if 0 < s.modifies then some { s with modifies := s.modifies - 1, outbox := s.outbox ++ [.modifyReply] } else none
  | .send =>
    match s.outbox with
    | [] => none
    | message :: outbox => some { s with outbox := outbox, toPeer := s.toPeer ++ [message] }
  | .peerReceive => s.peerReceive

def step (s : Channel) (a : ChannelAction) : Option Channel :=
  if s.aborted.isSome then none else s.act kind a

def machine : Machine Channel ChannelAction where
  init := init
  step := step kind

/-! ## Order and acknowledgement -/

/-- The messages of the channel, from the first that the peer received to the last in the outbox. -/
def messages : List KqchanMessage := s.received ++ s.toPeer ++ s.outbox

/-- The notifications that have left the mutex to be sent, and whose read has not been accepted. -/
def sent : Nat :=
  s.pushing + s.outbox.count .notification + s.toPeer.count .notification + s.unread + s.toServer.count .read + s.ignored

/-- The notifications that the server has committed to, and whose read it has not accepted. -/
def unacknowledged : Nat := s.notifications.deferredNotification.toNat + s.sent

/-- Whenever a notification is pushed, the reply to every read accepted before it has been pushed. -/
def InOrder (log : List KqchanEvent) : Prop :=
  ∀ before after, log = before ++ .pushesNotification :: after → before.count .acceptsRead = before.count .pushesReadReply

/-- A log that goes on with one event stays in order when a notification comes after the replies to all reads. -/
theorem InOrder.append {log : List KqchanEvent} (h : InOrder log) (e : KqchanEvent)
    (he : e = .pushesNotification → log.count .acceptsRead = log.count .pushesReadReply) : InOrder (log ++ [e]) := by
  intro before after hlog
  obtain rfl | ⟨after, last, rfl⟩ := eq_nil_or_concat after
  · obtain ⟨rfl, hla⟩ := append_inj' hlog rfl
    exact he (singleton_inj.1 hla)
  · rw [concat_eq_append, ← cons_append, ← append_assoc] at hlog
    exact h before after (append_inj' hlog rfl).1

/-! ## The invariant -/

/-- A notification is unacknowledged exactly while none may be sent. Notifications are deferred exactly while a read is
served, and then every other notification has been acknowledged. The log is what was put in the outbox, in that order. -/
structure Inv (s : Channel) : Prop where
  counted : s.unacknowledged = (!s.notifications.canSendNotification).toNat
  served : s.reads.length = s.notifications.deferNotification.toNat
  held : s.notifications.deferNotification = true → s.sent = 0
  direct : s.notifications.deferNotification = false → s.notifications.deferredNotification = false
  opened : s.log.count .acceptsRead = s.log.count .pushesReadReply + s.reads.count .accepted
  ordered : InOrder s.log
  logged : s.messages.filter (· ≠ .modifyReply) = s.log.filterMap KqchanEvent.message

variable {s : Channel}

theorem inv_init : Inv init where
  counted := rfl
  served := rfl
  held := nofun
  direct _ := rfl
  opened := rfl
  ordered before _ h := by cases before <;> cases h
  logged := rfl

variable {s' : Channel}

section

variable (h : Inv s)

include h

/-- While a notification is on its way nothing is deferred, and no read is served. -/
theorem Inv.not_deferring (hs : 0 < s.sent) : s.notifications.deferNotification = false ∧ s.reads = [] := by
  have hd : s.notifications.deferNotification = false := by
    by_contra hd
    have := h.held (by simpa using hd)
    omega
  refine ⟨hd, eq_nil_of_length_eq_zero ?_⟩
  rw [h.served, hd]
  rfl

/-- A notification on its way is the only one, and no other may be sent. -/
theorem Inv.sent_eq_one (hs : 0 < s.sent) :
    s.sent = 1 ∧ s.notifications.canSendNotification = false ∧ s.notifications.deferredNotification = false := by
  have hc := h.counted
  rw [unacknowledged, h.direct (h.not_deferring hs).1] at hc
  cases hcan : s.notifications.canSendNotification with
  | true =>
    rw [hcan] at hc
    simp only [Bool.toNat_false, Bool.not_true] at hc
    omega
  | false =>
    rw [hcan] at hc
    exact ⟨by simpa using hc, rfl, h.direct (h.not_deferring hs).1⟩

/-- A step that moves a notification on, or a message that is none, keeps the invariant. -/
theorem Inv.move (hn : s'.notifications = s.notifications) (hr : s'.reads = s.reads) (hl : s'.log = s.log)
    (hs : s'.sent = s.sent) (hm : s'.messages.filter (· ≠ .modifyReply) = s.messages.filter (· ≠ .modifyReply)) : Inv s' where
  counted := by rw [unacknowledged, hn, hs]; exact h.counted
  served := by rw [hn, hr]; exact h.served
  held := by rw [hn, hs]; exact h.held
  direct := by rw [hn]; exact h.direct
  opened := by rw [hl, hr]; exact h.opened
  ordered := by rw [hl]; exact h.ordered
  logged := by rw [hl, hm]; exact h.logged

theorem Inv.notify : Inv (s.leaveMutex s.notifications.sendNotification) := by
  have hc := h.counted
  unfold Notifications.sendNotification
  split
  · exact h.move rfl rfl rfl (by simp [leaveMutex, sent]) rfl
  · rename_i hcan
    rw [Decidable.not_not] at hcan
    rw [hcan] at hc
    split
    · rename_i hdefer
      -- the notification waits for the reply of the read that is served
      exact { h with
        counted := by
          have := h.held hdefer
          simp only [leaveMutex, unacknowledged, sent, Bool.toNat_false, Bool.toNat_true, Bool.not_false] at this ⊢
          omega
        held := fun _ => h.held hdefer
        direct := fun hd => absurd hdefer (by simp only [leaveMutex] at hd; simp [hd]) }
    · rename_i hdefer
      exact { h with
        counted := by
          simp only [leaveMutex, unacknowledged, sent, Bool.toNat_false, Bool.toNat_true, Bool.not_false, Bool.not_true] at hc ⊢
          omega
        held := fun hd => absurd hd hdefer }

/-- A message that is logged is put in the outbox. -/
theorem Inv.logged_append (message : KqchanMessage) (hne : message ≠ .modifyReply) {e : KqchanEvent}
    (he : e.message = some message) :
    (s.received ++ s.toPeer ++ (s.outbox ++ [message])).filter (· ≠ .modifyReply) =
      (s.log ++ [e]).filterMap KqchanEvent.message := by
  rw [← append_assoc, filter_append, filterMap_append, ← h.logged]
  simp [messages, he, hne]

theorem Inv.push (hp : 0 < s.pushing) : Inv s.pushNotification := by
  have hrd := (h.not_deferring (by unfold sent; omega)).2
  have hopen : s.log.count .acceptsRead = s.log.count .pushesReadReply := by
    rw [h.opened, hrd]
    rfl
  have hsn : s.pushNotification.sent = s.sent := by
    simp only [sent, pushNotification, count_append, count_singleton_self]
    omega
  exact { h with
    counted := by rw [unacknowledged, hsn]; exact h.counted
    held := by rw [hsn]; exact h.held
    opened := by simpa [pushNotification, count_append] using h.opened
    ordered := h.ordered.append _ fun _ => hopen
    logged := h.logged_append .notification nofun rfl }

/-- The read that is accepted acknowledges the one notification there is. -/
theorem Inv.acceptRead {toServer : List KqchanRequest} (hts : s.toServer = .read :: toServer) : Inv (s.acceptRead toServer) := by
  have hpos : 0 < s.sent := by
    simp only [sent, hts, count_cons_self]
    omega
  obtain ⟨_, hrd⟩ := h.not_deferring hpos
  obtain ⟨hone, _, hdef⟩ := h.sent_eq_one hpos
  have hze : s.pushing + s.outbox.count .notification + s.toPeer.count .notification + s.unread + toServer.count .read +
      s.ignored = 0 := by
    simp only [sent, hts, count_cons_self] at hone
    omega
  exact {
    counted := by
      simp only [Channel.acceptRead, unacknowledged, sent, Notifications.acceptRead, hdef, Bool.toNat_false, Bool.not_true, hze]
    served := by simp [Channel.acceptRead, hrd, Notifications.acceptRead]
    held := fun _ => hze
    direct := nofun
    opened := by simpa [Channel.acceptRead, count_append, hrd] using h.opened
    ordered := h.ordered.append _ nofun
    logged := by
      rw [Channel.acceptRead, filterMap_append, filterMap_cons_none rfl, filterMap_nil, append_nil]
      exact h.logged }

/-- The only read that is served. -/
theorem Inv.reads_eq {i : Nat} {place : ReadPlace} (hi : s.reads[i]? = some place) :
    i = 0 ∧ s.reads = [place] ∧ s.notifications.deferNotification = true := by
  obtain ⟨hlt, hget⟩ := List.getElem?_eq_some_iff.1 hi
  have hlen := h.served
  cases hd : s.notifications.deferNotification with
  | false =>
    rw [hd, toNat_false] at hlen
    omega
  | true =>
    rw [hd, toNat_true] at hlen
    obtain ⟨p, hp⟩ := length_eq_one_iff.1 hlen
    have hi0 : i = 0 := by omega
    subst hi0
    refine ⟨rfl, ?_, rfl⟩
    simp only [hp, getElem_cons_zero] at hget
    rw [hp, hget]

theorem Inv.reply {i : Nat} (hi : s.reads[i]? = some .accepted) : Inv (s.pushReadReply i) := by
  obtain ⟨rfl, hrd, _⟩ := h.reads_eq hi
  have hsn : (s.pushReadReply 0).sent = s.sent := by
    simp [pushReadReply, sent, count_append]
  exact { h with
    counted := by rw [unacknowledged, hsn]; exact h.counted
    served := by rw [pushReadReply, length_set]; exact h.served
    held := by rw [hsn]; exact h.held
    opened := by simpa [pushReadReply, count_append, hrd] using h.opened
    ordered := h.ordered.append _ nofun
    logged := h.logged_append .readReply nofun rfl }

theorem Inv.flush {i : Nat} (hi : s.reads[i]? = some .replied) :
    Inv ({ s with reads := s.reads.eraseIdx i }.leaveMutex s.notifications.sendDeferredNotification) := by
  obtain ⟨rfl, hrd, hdefer⟩ := h.reads_eq hi
  exact { h with
    counted := by
      have hc := h.counted
      simp only [unacknowledged, sent, leaveMutex, Notifications.sendDeferredNotification, toNat_false] at hc ⊢
      omega
    served := by simp [leaveMutex, Notifications.sendDeferredNotification, hrd]
    held := nofun
    direct := fun _ => rfl
    opened := by simpa [leaveMutex, hrd] using h.opened }

theorem Inv.receive {kind : KqchanKind} {threadFound : Bool} (hs : s.receive kind threadFound = some s') : Inv s' := by
  unfold Channel.receive at hs
  split at hs
  · cases hs
  · rename_i toServer hts
    have hacc := h.acceptRead hts
    cases hs
    split
    · exact { hacc with }
    · exact hacc
  · rename_i toServer hts
    cases hs
    split <;> exact h.move rfl rfl rfl (by simp [sent, hts]) rfl

theorem Inv.peerReceive (hs : s.peerReceive = some s') : Inv s' := by
  unfold Channel.peerReceive at hs
  split at hs
  · cases hs
  · rename_i toPeer htp
    cases hs
    refine h.move rfl rfl rfl ?_ (by simp [messages, htp])
    simp only [sent, htp, count_cons_self]
    omega
  · rename_i message toPeer hne htp
    cases hs
    refine h.move rfl rfl rfl ?_ (by simp [messages, htp])
    have : message ≠ .notification := hne
    simp [sent, htp, count_cons_of_ne this]

/-- Every step keeps the invariant. -/
theorem Inv.act {kind : KqchanKind} {a : ChannelAction} (hs : s.act kind a = some s') : Inv s' := by
  cases a with
  | notify => exact some.inj hs ▸ h.notify
  | push =>
    obtain ⟨hp, rfl⟩ := of_guarded hs
    exact h.push hp
  | sendRead =>
    obtain ⟨⟨_, hu⟩, rfl⟩ := of_guarded hs
    refine h.move rfl rfl rfl ?_ rfl
    simp only [sent, count_append, count_singleton_self]
    omega
  | sendModify | replyModify =>
    obtain ⟨_, rfl⟩ := of_guarded hs
    exact h.move rfl rfl rfl (by simp [sent, count_append]) (by simp [messages])
  | receive threadFound => exact h.receive (ite_none_right_eq_some.1 hs).2
  | ignoreRead =>
    obtain ⟨⟨_, _, hhd⟩, rfl⟩ := of_guarded hs
    obtain ⟨toServer, hts⟩ := head?_eq_some_iff.1 hhd
    refine h.move rfl rfl rfl ?_ rfl
    simp only [sent, hts, tail_cons, count_cons_self]
    omega
  | reply i =>
    obtain ⟨hi, rfl⟩ := of_guarded hs
    exact h.reply hi
  | flush i =>
    obtain ⟨hi, rfl⟩ := of_guarded hs
    exact h.flush hi
  | send =>
    simp only [Channel.act] at hs
    split at hs <;> cases hs
    rename_i message outbox hout
    refine h.move rfl rfl rfl ?_ (by simp [messages, hout])
    simp only [sent, hout, count_cons, count_append, count_nil]
    omega
  | peerReceive => exact h.peerReceive hs

end

theorem inv_of_reachable {kind : KqchanKind} (h : (machine kind).Reachable s) : Inv s := by
  refine Machine.Reaches.invariant inv_init ?_ h
  intro s a s' hinv _ hst
  exact hinv.act (ite_none_left_eq_some.1 hst).2

/-- At any time at most one notification is unacknowledged, and none is pushed to the outbox between when a read is accepted
and when its reply is pushed, whatever the order in which the threads of the server and the peer move. -/
theorem notifications_in_order {kind : KqchanKind} (h : (machine kind).Reachable s) : s.unacknowledged ≤ 1 ∧ InOrder s.log := by
  have hinv := inv_of_reachable h
  exact ⟨hinv.counted ▸ toNat_le _, hinv.ordered⟩

/-- The log that is in order is that of the messages: those in the outbox, after those on their way and those received. -/
theorem messages_logged {kind : KqchanKind} (h : (machine kind).Reachable s) :
    s.messages.filter (· ≠ .modifyReply) = s.log.filterMap KqchanEvent.message :=
  (inv_of_reachable h).logged

/-- An event during a read of a Mach port: the second notification is deferred, and pushed after the reply. -/
def notifyDuringRead : List ChannelAction :=
  [.notify, .push, .send, .peerReceive, .sendRead, .receive true, .notify, .reply 0, .flush 0, .push]

/-- The second notification comes after the reply. -/
theorem notifications_in_order_deferred :
    ∃ s, (machine .machPort).run init notifyDuringRead = some s ∧
      s.log = [.pushesNotification, .acceptsRead, .pushesReadReply, .pushesNotification] ∧
      s.unacknowledged ≤ 1 ∧ InOrder s.log := by
  refine (Machine.exists_of_runOk ?_).imp fun s h => ⟨h.1, h.2, notifications_in_order (Machine.reaches_of_runOk h.1)⟩
  decide

/-- The log counts the replies to reads that were put in the outbox. -/
theorem Inv.count_readReply (h : Inv s) : s.messages.count .readReply = s.log.count .pushesReadReply := by
  have hlog (log : List KqchanEvent) : (log.filterMap KqchanEvent.message).count .readReply = log.count .pushesReadReply := by
    induction log with
    | nil => rfl
    | cons e log ih => cases e <;> simp [filterMap_cons, KqchanEvent.message, ih]
  rw [← hlog, ← h.logged]
  exact (count_filter (by decide)).symm

/-- Every read that is accepted is answered once: its reply is in the outbox, on its way or received, or still to be made.
Notifications are deferred exactly while a read is served, and then every other notification has been acknowledged. -/
theorem reads_answered {kind : KqchanKind} (h : (machine kind).Reachable s) :
    s.log.count .acceptsRead = s.messages.count .readReply + s.reads.count .accepted ∧
      s.reads.length = s.notifications.deferNotification.toNat ∧ (s.notifications.deferNotification → s.sent = 0) := by
  have hinv := inv_of_reachable h
  exact ⟨by rw [hinv.count_readReply]; exact hinv.opened, hinv.served, hinv.held⟩

/-- The peer has received the reply to its first read, and its second one is being served. -/
theorem reads_answered_second :
    ∃ s, (machine .machPort).run init (notifyDuringRead ++ [.send, .send, .peerReceive, .peerReceive, .sendRead, .receive true]) =
        some s ∧
      (s.received = [.notification, .readReply, .notification] ∧ s.reads = [.accepted]) ∧
      s.log.count .acceptsRead = s.messages.count .readReply + s.reads.count .accepted := by
  refine (Machine.exists_of_runOk ?_).imp fun s h => ⟨h.1, h.2, (reads_answered (Machine.reaches_of_runOk h.1)).1⟩
  decide

end Channel

end Osxie.Server
