import Osxie.Server.Conversation

/-!
# What the receive loop and the worker do to a conversation

A call that is received becomes pending or, if it is an interrupt_enter, is queued; a reply that is pushed back is saved. The
worker takes the thread, interrupts the call that was suspended or starts a new one, and puts the thread back. None of this sends
a reply, and each step keeps the invariant of the session: `Inv.receive` and `Inv.work`.
-/

namespace Osxie.Server

open List Option Thread Bool Program
open InterruptContext (calls)

/-! ## What the thread does when nothing is in the way -/

namespace Thread

/-- What of a thread concerns the conversation. -/
def conversing (t : Thread) :=
  (t.activeCall, t.pendingCall, t.pendingInterrupts, t.interrupts, t.pendingSavedReply, t.deferredReply)

variable {t : Thread} {c : Call}

theorem setPendingCall_of_none (hp : t.pendingCall = none) (c : Call) :
    t.setPendingCall c = .ok { t with pendingCall := some c } := by
  unfold setPendingCall
  rw [hp]
  rfl

theorem setPendingCall_of_enter (hp : t.pendingCall.isSome = true) (hc : c.number = .interruptEnter) :
    t.setPendingCall c = .ok { t with pendingInterrupts := t.pendingInterrupts ++ [c] } := by
  unfold setPendingCall
  rw [if_pos hp, if_pos hc]

theorem interruptEnterPending_of_none (hp : t.pendingCall = none) : t.interruptEnterPending = false := by
  unfold interruptEnterPending
  rw [hp]

theorem interruptEnterPending_of_some (hp : t.pendingCall = some c) :
    t.interruptEnterPending = decide (c.number = .interruptEnter) := by
  unfold interruptEnterPending
  rw [hp]

variable {contexts : List InterruptContext} {context : InterruptContext}

theorem savePushedReply_of_cons (hp : t.interruptEnterPending = false) (hstack : t.interrupts = context :: contexts)
    (hno : context.savedReply = none) (r : Reply) :
    t.savePushedReply r = .ok { t with interrupts := { context with savedReply := some r } :: contexts } := by
  unfold savePushedReply
  rw [if_neg (by rw [hp]; exact false_ne_true), hstack]
  exact if_neg (by rw [hno]; exact false_ne_true)

theorem Live.enter (h : t.Live) (hrun : t.running = false) : t.enter = ({ t with running := true }, .entered) := by
  unfold Thread.enter
  simp [h.1, h.2.1, h.2.2, hrun]

theorem Live.doneWorking_nil (h : t.Live) (hq : t.pendingInterrupts = []) :
    t.doneWorking = .ok ({ t with running := false }, false) := by
  unfold doneWorking
  simp [h.1, h.2.1, hq]

theorem Live.doneWorking_cons (h : t.Live) {q : Call} {queue : List Call} (hq : t.pendingInterrupts = q :: queue)
    (hp : t.pendingCall = none) :
    t.doneWorking = .ok ({ t with running := false, pendingCall := some q, pendingInterrupts := queue }, true) := by
  unfold doneWorking
  simp [h.1, h.2.1, hq, hp]

theorem examine_resumes (hp : t.pendingCall = none) (hsu : t.suspended = true) :
    t.examine = .ok ({ t with suspended := false, continuationCallback := false }, .resumes) := by
  unfold examine
  simp [interruptEnterPending_of_none hp, hp, hsu]

theorem examine_doneWorking (hp : t.pendingCall = none) (hsu : t.suspended = false) : t.examine = .ok (t, .doneWorking) := by
  unfold examine
  simp [interruptEnterPending_of_none hp, hp, hsu]

theorem beginInterrupt_of_saved {r : Reply} (hsav : t.pendingSavedReply = some r)
    (hstack : t.interrupts = context :: contexts) (hint : context.interruptedCall = none) (hno : context.savedReply = none) :
    t.beginInterrupt = .ok { t with
      interruptedForSignal := true
      interruptedContinuation := false
      pendingCallOverride := false
      interrupts := ⟨none, some r⟩ :: contexts
      pendingSavedReply := none } := by
  unfold beginInterrupt
  simp [hsav, hstack, hint, hno]

/-- A pending interrupt_enter starts on top of what was suspended, if anything. -/
theorem examine_enter (hp : t.pendingCall = some c) (hc : c.number = .interruptEnter) (hover : t.pendingCallOverride = false) :
    t.examine = .ok ({ t.emplaceInterrupt with suspended := false }, .starts) := by
  unfold examine
  simp [interruptEnterPending_of_some hp, hc, hp, hover, emplaceInterrupt]

theorem examine_starts (hp : t.pendingCall = some c) (hc : c.number ≠ .interruptEnter) (hsu : t.suspended = false)
    (hcont : t.continuationCallback = false) : t.examine = .ok ({ t with suspended := false }, .starts) := by
  unfold examine
  simp [interruptEnterPending_of_some hp, hc, hp, hsu, hcont]

end Thread

namespace Program

variable {p : Program} {c : Call}

theorem inInterrupt_of_enter (hft : p.Fits) (hca : p.call = some c) (hc : c.number = .interruptEnter) : p.inInterrupt = true := by
  cases p with
  | entering _ | handling _ | answering _ => rfl
  | serving _ | exiting _ =>
    cases hca
    exact absurd (hft.symm.trans hc) nofun
  | popping | finished => cases hca

theorem eq_serving_of_other (hft : p.Fits) (hca : p.call = some c) (hc : c.number = .other) : p = .serving c := by
  cases p with
  | serving _ =>
    cases hca
    rfl
  | entering _ | handling _ | answering _ | exiting _ =>
    cases hca
    exact absurd (hft.symm.trans hc) nofun
  | popping | finished => cases hca

theorem start_of_enter (hc : c.number = .interruptEnter) : start c = .entering c := by
  unfold start
  rw [hc]

theorem start_spec (c : Call) : (start c).Fits ∧ (start c).call = some c ∧ (start c).isHandling = false ∧ start c ≠ .popping ∧
    (start c).inInterrupt = decide (c.number = .interruptEnter) := by
  obtain ⟨id, number⟩ := c
  cases number with
  | interruptEnter | interruptExit | other => exact ⟨rfl, rfl, rfl, nofun, rfl⟩

theorem ended_spec (h : p = .finished ∨ p = .popping) : p.call = none ∧ p.Fits ∧ p.isHandling = false := by
  rcases h with rfl | rfl
  · exact ⟨rfl, trivial, rfl⟩
  · exact ⟨rfl, trivial, rfl⟩

end Program

namespace Session

/-- The server moves, and the client does not. -/
structure SameClient (s s' : Session) : Prop where
  client : s'.client = s.client
  frames : s'.frames = s.frames
  issued : s'.issued = s.issued
  answered : s'.answered = s.answered

/-- What the client's side consists of. -/
def clientSide (s : Session) : Activity × List (Option Call) × List Call × List Call := (s.client, s.frames, s.issued, s.answered)

variable {s s' : Session}

theorem sameClient_of_eq (h : s'.clientSide = s.clientSide) : SameClient s s' := by
  simp only [clientSide, Prod.mk.injEq] at h
  exact ⟨h.1, h.2.1, h.2.2.1, h.2.2.2⟩

theorem Inv.ofServer (h : s.Inv) (hsm : s'.clientSide = s.clientSide) (hrdy : s'.Ready) {base : List (Option Call)}
    {flux : Option InterruptContext} {order gone : List Call} (hc : s'.Conversation base flux order gone) : s'.Inv where
  ready := hrdy
  conversation := ⟨_, _, _, _, hc⟩
  fresh := by rw [(sameClient_of_eq hsm).issued]; exact h.fresh
  distinct := by rw [(sameClient_of_eq hsm).issued]; exact h.distinct

theorem Awaits.congr {base : List (Option Call)} {order : List Call} (h : s.Awaits base order) (hsm : s'.clientSide = s.clientSide)
    (hrq : ∀ x, s.client = .exiting x → s'.requests = s.requests) : s'.Awaits base order := by
  unfold Awaits at h ⊢
  rw [(sameClient_of_eq hsm).client, (sameClient_of_eq hsm).frames]
  split at h
  case h_5 x hcl =>
    rw [hrq x hcl]
    exact h
  all_goals exact h

theorem emplaced_congr (hsm : s'.clientSide = s.clientSide) (hrq : s'.requests = s.requests)
    (hpg : s'.program.inInterrupt = s.program.inInterrupt)
    (hstar : s'.place = .starting ∧ s'.thread.interruptEnterPending = true ↔
      s.place = .starting ∧ s.thread.interruptEnterPending = true) :
    s'.emplaced = s.emplaced := by
  have hand : (decide (s'.place = .starting) && s'.thread.interruptEnterPending) =
      (decide (s.place = .starting) && s.thread.interruptEnterPending) := by
    rw [Bool.eq_iff_iff]
    simpa using hstar
  unfold emplaced
  rw [(sameClient_of_eq hsm).client, hrq, hpg, hand]

theorem sublist_left {α : Type} {l a b : List α} (h : l.Sublist (a ++ b)) (hnot : ∀ c ∈ l, c ∉ b) : l.Sublist a := by
  obtain ⟨front, back, rfl, hfront, hback⟩ := sublist_append_iff.1 h
  have hnil : back = [] := eq_nil_iff_forall_not_mem.2 fun c hc => hnot c (mem_append_right _ hc) (hback.subset hc)
  rw [hnil, append_nil]
  exact hfront

namespace Conversation

variable {s s' : Session} {base : List (Option Call)} {flux : Option InterruptContext} {order gone : List Call}

variable (h : s.Conversation base flux order gone)

include h

/-- What the server holds moves from one place to another. -/
theorem moved (flux' : Option InterruptContext) (hsm : s'.clientSide = s.clientSide)
    (hstack : s'.thread.interrupts = flux'.toList ++ base.map settled) (hmp : flux'.isSome = s'.emplaced)
    (hhe : (s'.held flux').Perm (s.held flux)) (hpackets : s'.Packets) (hrq : s'.requests = s.requests)
    (htg : s'.outgoing = s.outgoing)
    (hque : ∀ c ∈ s'.thread.pendingInterrupts, c ∈ s.thread.pendingInterrupts ∨ c.number = .interruptEnter)
    (hunr : ∀ context, flux' = some context → context.interruptedCall.isSome = true → s'.Unresolved)
    (hnn : s'.thread.pendingSavedReply.isSome = true → s'.Unentered)
    (hpp : s'.program = .popping → s.program = .popping ∧ (s.thread.deferredReply = none → s'.thread.deferredReply = none)) :
    s'.Conversation base flux' order gone where
  awaits := h.awaits.congr hsm fun _ _ => hrq
  stack := hstack
  emplaced := hmp
  split := by rw [hrq]; exact h.split
  tokens := by rw [htg]; exact h.tokens.trans (hhe.symm.append_left _)
  replies := by rw [htg]; exact h.replies
  account := by rw [(sameClient_of_eq hsm).answered, (sameClient_of_eq hsm).issued]; exact h.account
  packets := hpackets
  held_other := fun c hc => h.held_other c (hhe.mem_iff.1 hc)
  frames_other := by rw [(sameClient_of_eq hsm).frames]; exact h.frames_other
  queued := fun c hc => (hque c hc).elim (h.queued c) id
  interrupted := hunr
  saved := hnn
  popping := by
    intro hp
    obtain ⟨hp', hdef⟩ := hpp hp
    obtain ⟨hno, hexit⟩ := h.popping hp'
    rw [htg]
    exact ⟨hdef hno, hexit⟩

/-- What does not concern the conversation. -/
theorem same (hsm : s'.clientSide = s.clientSide) (hpu : pushesOf s'.toServer = pushesOf s.toServer) (hpackets : s'.Packets)
    (hinterrupts : s'.thread.interrupts = s.thread.interrupts)
    (hsav : s'.thread.pendingSavedReply = s.thread.pendingSavedReply) (hrq : s'.requests = s.requests)
    (htg : s'.outgoing = s.outgoing) (hmp : s'.emplaced = s.emplaced)
    (hque : ∀ c ∈ s'.thread.pendingInterrupts, c ∈ s.thread.pendingInterrupts ∨ c.number = .interruptEnter)
    (hunr : ∀ context, flux = some context → context.interruptedCall.isSome = true → s.Unresolved → s'.Unresolved)
    (hnn : s.thread.pendingSavedReply.isSome = true → s.Unentered → s'.Unentered)
    (hpp : s'.program = .popping → s.program = .popping ∧ (s.thread.deferredReply = none → s'.thread.deferredReply = none)) :
    s'.Conversation base flux order gone := by
  refine h.moved flux hsm (hinterrupts.trans h.stack) (h.emplaced.trans hmp.symm) ?_ hpackets hrq htg hque ?_ ?_ hpp
  · unfold held
    rw [hsav, hpu]
  · exact fun context hfl hso => hunr context hfl hso (h.interrupted context hfl hso)
  · rw [hsav]
    exact fun hso => hnn hso (h.saved hso)

/-- The worker moves on, and no interrupt is about to start before or after. -/
theorem goto {t : Thread} {old place : Place} (hold : s.place = old) (hpl : old ≠ .starting) (hpl' : place ≠ .starting)
    (hsam : t.conversing = s.thread.conversing) : Conversation { s with thread := t, place := place } base flux order gone := by
  subst hold
  simp only [Thread.conversing, Prod.mk.injEq] at hsam
  obtain ⟨hact, hpen, hqu, hinterrupts, hsav, hdefer⟩ := hsam
  have hrq : requests { s with thread := t, place := place } = s.requests := by
    simp only [requests, hact, hpen, hqu]
  refine h.same rfl rfl h.packets hinterrupts hsav hrq ?_ ?_ ?_ ?_ ?_ ?_
  · simp only [outgoing, hdefer]
  · exact emplaced_congr rfl hrq rfl (iff_of_false (fun hx => hpl' hx.1) fun hx => hpl hx.1)
  · exact fun c hc => .inl (hqu ▸ hc)
  · exact fun _ _ _ hx => hx.imp_left fun hx => absurd hx.1 hpl
  · intro _ hx
    unfold Unentered interruptEnterPending at hx ⊢
    simp only [hpen]
    exact hx
  · exact fun hp => ⟨hp, fun hx => hdefer.trans hx⟩

variable {rest : List Call}

/-- Two calls are to be processed only when a call is interrupted before it is processed. -/
theorem second {c e : Call} (hreq : s.requests = c :: e :: rest) :
    c.number = .other ∧ e.number = .interruptEnter ∧ rest = [] ∧ gone = [] := by
  cases h.front hreq with
  | other hc hgo hrs =>
    obtain ⟨hnil, -⟩ | ⟨e', heq, he⟩ := hrs
    · cases hnil
    · cases heq
      exact ⟨hc, he, rfl, hgo⟩
  | enter _ hrs | exit _ hrs => cases hrs

/-- A client that leaves an interrupt has no other call to be processed. -/
theorem not_exiting {c : Call} (hreq : s.requests = c :: rest) (hc : c.number ≠ .interruptExit) (x : Call) :
    s.client ≠ .exiting x := by
  intro hcl
  have hawa := h.awaits
  unfold Awaits at hawa
  rw [hcl] at hawa
  obtain ⟨hx, ⟨-, -, -, hr⟩ | ⟨-, -, -, hr⟩⟩ := hawa
  · rw [hreq] at hr
    exact hc ((cons.inj hr).1 ▸ hx)
  · rw [hreq] at hr
    cases hr

/-- Between two microthreads nothing is in the course of an interrupt while a call is to be processed. -/
theorem flux_eq_none {p : Program} (hpg : s.program = p) (hin : p.inInterrupt = false) (hpl : s.place ≠ .starting)
    (hreq : s.requests ≠ []) : flux = none := by
  have hmp := h.emplaced
  unfold Session.emplaced at hmp
  rw [hpg, hin, decide_eq_false hpl, decide_eq_false hreq, Bool.and_false] at hmp
  exact isSome_eq_false_iff.1 hmp |> isNone_iff_eq_none.1

/-- An interrupt_enter is the last call to be processed. -/
theorem last {before after : List Call} {e : Call} (hreq : s.requests = before ++ e :: after) (he : e.number = .interruptEnter) :
    after = [] := by
  cases before with
  | nil =>
    cases after with
    | nil => rfl
    | cons c after =>
      have hoth := (h.second hreq).1
      rw [he] at hoth
      cases hoth
  | cons c before =>
    cases before with
    | nil => exact (h.second hreq).2.2.1
    | cons c' before => exact absurd (h.second hreq).2.2.1 (by simp)

/-- The client waits for one call that is not about interrupts at most. -/
theorem countP_order_le : order.countP (·.number = .other) ≤ 1 := by
  have hawa := h.awaits
  unfold Awaits at hawa
  split at hawa
  · rw [hawa.2]
    exact Nat.zero_le _
  · rw [hawa.2.1]
    exact countP_le_length
  · obtain ⟨f, -, rfl, he⟩ := hawa
    cases f <;> simp [he, countP_cons]
    split <;> omega
  · obtain ⟨-, rfl, he⟩ := hawa
    simp [he, countP_cons]
    split <;> omega
  · obtain ⟨hx, ⟨-, -, rfl, -⟩ | ⟨f, -, rfl, -⟩⟩ := hawa
    · exact countP_le_length
    · cases f <;> simp [hx, countP_cons]
      split <;> omega

/-- The server holds one call or reply at most for the interrupt that is being entered or left. -/
theorem length_held_le : (s.held flux).length ≤ 1 := by
  have hall : (s.held flux).countP (·.number = .other) = (s.held flux).length :=
    countP_eq_length.2 fun c hc => decide_eq_true (h.held_other c hc)
  have htok := h.tokens.countP_eq (fun c => decide (c.number = .other))
  have horder := h.countP_order_le
  rw [h.split] at horder
  simp only [countP_append] at htok horder
  omega

end Conversation

/-- The worker is about to start an interrupt. -/
theorem Ready.emplaceInterrupt {s : Session} (h : s.Ready) (hpl : s.place = .entered) {p : Call}
    (hp : s.thread.pendingCall = some p)
    (hhd : s.program.isHandling = false) : Ready { s with
      thread := { s.thread.emplaceInterrupt with suspended := false }, place := .starting, program := .finished } :=
  { h with
    active := rfl
    fits := trivial
    handling := h.handling.trans hhd
    running := iff_of_true (h.running.2 (by rw [hpl]; nofun)) nofun
    off := nofun
    on := .inr (.inr rfl)
    starting := fun _ => isSome_iff_exists.2 ⟨p, hp⟩
    continuation := nofun
    override := fun hx => absurd (h.override hx) (by rw [hhd]; exact false_ne_true) }

/-! ## The receive loop -/

theorem Packets.of_call {c : Call} {toServer : List Packet} (h : s.Packets) (htoS : s.toServer = .call c :: toServer)
    (hcli : s'.client = s.client) (hpipe : s'.pipe = s.pipe) (htoS' : s'.toServer = toServer) : s'.Packets := by
  unfold Packets at h ⊢
  rw [hcli, hpipe, htoS']
  rw [htoS] at h
  split at h
  · obtain h | ⟨hfalse, calls, hcal⟩ := h
    · exact .inl h
    · cases calls with
      | nil => cases hcal
      | cons c' calls => exact .inr ⟨hfalse, calls, (cons.inj hcal).2⟩
  · exact h

namespace Inv

variable {s : Session}

section

variable (h : s.Inv)

include h

variable {toServer : List Packet} {p : Call}

/-- A call that is received becomes the pending one, or is an interrupt_enter and is queued. -/
theorem receiveCall {c : Call} (htoS : s.toServer = .call c :: toServer) :
    ∃ t, s.thread.setPendingCall c = .ok t ∧ Inv { s with thread := t, toServer := toServer } := by
  obtain ⟨base, flux, order, gone, hc⟩ := h.conversation
  have hreq : s.requests = s.thread.activeCall.toList ++ s.thread.pendingCall.toList ++ s.thread.pendingInterrupts ++
      c :: callsOf toServer := by
    unfold requests
    rw [htoS, callsOf_call]
  have hpu : pushesOf toServer = pushesOf s.toServer := by rw [htoS, pushesOf_call]
  obtain hp | ⟨p, hp⟩ := eq_none_or_eq_some s.thread.pendingCall
  · have hqu : s.thread.pendingInterrupts = [] := by
      cases hq : s.thread.pendingInterrupts with
      | nil => rfl
      | cons q queue =>
        rw [hq, append_assoc] at hreq
        have hnil := hc.last hreq (hc.queued q (by rw [hq]; exact mem_cons_self))
        exact absurd hnil (by simp)
    have hpl : s.place ≠ .starting := by
      intro hx
      have hso := h.ready.starting hx
      rw [hp] at hso
      cases hso
    have hrq : requests { s with thread := { s.thread with pendingCall := some c }, toServer := toServer } = s.requests := by
      rw [hreq, hp]
      simp [requests, hqu]
    refine ⟨_, setPendingCall_of_none hp c, h.ofServer rfl { h.ready with starting := fun _ => rfl }
      (hc.same rfl hpu (hc.packets.of_call htoS rfl rfl rfl) rfl rfl hrq rfl ?_
        (fun _ => .inl) ?_ ?_ fun hpop => ⟨hpop, id⟩)⟩
    · exact emplaced_congr rfl hrq rfl (iff_of_false (fun hx => hpl hx.1) (fun hx => hpl hx.1))
    · intro context _ _ hx
      exact hx.imp_left fun hx => absurd hx.1 hpl
    · intro _ hx
      exact hx.imp_left fun hx => absurd hx (by rw [interruptEnterPending_of_none hp]; exact false_ne_true)
  · have hent : c.number = .interruptEnter := by
      rw [hp] at hreq
      cases ha : s.thread.activeCall with
      | none =>
        rw [ha] at hreq
        cases hq : s.thread.pendingInterrupts with
        | nil =>
          rw [hq] at hreq
          exact (hc.second hreq).2.1
        | cons q queue =>
          rw [hq] at hreq
          exact absurd (hc.second hreq).2.2.1 (by simp)
      | some a =>
        rw [ha] at hreq
        exact absurd (hc.second hreq).2.2.1 (by simp)
    have hrq : requests { s with
        thread := { s.thread with pendingInterrupts := s.thread.pendingInterrupts ++ [c] }
        toServer := toServer } = s.requests := by
      rw [hreq]
      simp [requests]
    refine ⟨_, setPendingCall_of_enter (by rw [hp]; rfl) hent, h.ofServer rfl { h.ready with }
      (hc.same rfl hpu (hc.packets.of_call htoS rfl rfl rfl) rfl rfl hrq rfl
        (emplaced_congr rfl hrq rfl Iff.rfl) ?_ (fun _ _ _ => id) (fun _ => id) fun hpop => ⟨hpop, id⟩)⟩
    intro q hq
    rcases mem_append.1 hq with hq | hq
    · exact .inl hq
    · exact .inr (mem_singleton.1 hq ▸ hent)

/-- The reply that the client pushes back is the only thing the server holds. It is saved for the interrupt_enter that is
pending, or else in its context. -/
theorem receivePush {r : Reply} (htoS : s.toServer = .pushReply r :: toServer) (hqu : s.thread.pendingInterrupts = []) :
    ∃ t, s.thread.savePushedReply r = .ok t ∧ Inv { s with thread := t, toServer := toServer, pipe := true } := by
  obtain ⟨base, flux, order, gone, hc⟩ := h.conversation
  obtain ⟨e, hcl, rfl⟩ : ∃ e, s.client = .pushing e r ∧ toServer = [] := by
    have hp := hc.packets
    unfold Packets at hp
    rw [htoS] at hp
    split at hp
    · rename_i e r' hcl
      obtain ⟨-, hp⟩ | ⟨-, calls, hp⟩ := hp
      · cases hp
      cases calls with
      | nil =>
        cases hp
        exact ⟨e, hcl, rfl⟩
      | cons c calls => cases hp
    · cases hp.2
  -- the server holds nothing else
  have hlen := hc.length_held_le
  simp only [held, htoS, pushesOf_pushReply, pushesOf_nil, length_append, length_cons, length_nil] at hlen
  have hsav : s.thread.pendingSavedReply = none := by
    cases hx : s.thread.pendingSavedReply with
    | none => rfl
    | some r' =>
      rw [hx] at hlen
      simp at hlen
  have hfl : flux.toList.flatMap calls = [] := eq_nil_of_length_eq_zero (by omega)
  have hhe : s.held flux = [r.call] := by
    simp [held, hfl, hsav, htoS]
  have hgo : gone ≠ [] := by
    rintro rfl
    have hx := (hc.nothing rfl).2
    rw [hhe] at hx
    cases hx
  have hrq : s.requests = s.thread.activeCall.toList ++ s.thread.pendingCall.toList := by
    simp [requests, hqu, htoS]
  cases hpd : s.thread.interruptEnterPending with
  | true =>
    refine ⟨_, if_pos hpd, h.ofServer rfl { h.ready with }
      (hc.moved flux rfl hc.stack ?_ ?_ ?_ ?_ rfl (fun _ => .inl) hc.interrupted
        (fun _ => .inl hpd) fun hp => ⟨hp, id⟩)⟩
    · refine hc.emplaced.trans (Eq.symm (emplaced_congr rfl ?_ rfl Iff.rfl))
      simp [requests, htoS]
    · rw [hhe]
      simp [held, hfl]
    · rw [show (_ : Session).client = _ from hcl]
      exact .inl ⟨rfl, rfl⟩
    · simp [requests, htoS]
  | false =>
    have hmp : s.emplaced = true := by
      cases hreq : s.requests with
      | nil => simp [emplaced, hreq, hcl, Activity.isEntering]
      | cons c rest =>
        cases hc.front hreq with
        | other _ hnil | exit _ _ _ _ _ hnil => exact absurd hnil hgo
        | enter hent hrs =>
          rw [hrq, hrs] at hreq
          cases ha : s.thread.activeCall with
          | none =>
            have hp : s.thread.pendingCall = some c := by simpa [ha] using hreq
            rw [interruptEnterPending_of_some hp, hent] at hpd
            cases hpd
          | some a =>
            rw [ha] at hreq
            obtain rfl : a = c := (cons.inj hreq).1
            unfold emplaced
            rw [inInterrupt_of_enter h.ready.fits (h.ready.active.symm.trans ha) hent]
            rfl
    obtain ⟨context, rfl⟩ : ∃ context, flux = some context := isSome_iff_exists.1 (hc.emplaced.trans hmp)
    obtain ⟨hint, hno⟩ : context.interruptedCall = none ∧ context.savedReply = none := by
      simpa [calls] using hfl
    have hstack : s.thread.interrupts = context :: base.map settled := hc.stack
    refine ⟨_, savePushedReply_of_cons hpd hstack hno r, h.ofServer rfl { h.ready with }
      (hc.moved (some { context with savedReply := some r }) rfl rfl ?_ ?_ ?_ ?_ rfl (fun _ => .inl) ?_
        hc.saved fun hp => ⟨hp, id⟩)⟩
    · refine hc.emplaced.trans (Eq.symm (emplaced_congr rfl ?_ rfl Iff.rfl))
      simp [requests, htoS]
    · rw [hhe]
      simp [held, calls, hint, hsav]
    · rw [show (_ : Session).client = _ from hcl]
      exact .inl ⟨rfl, rfl⟩
    · simp [requests, htoS]
    · intro _ hx hso
      cases hx
      rw [show (_ : InterruptContext).interruptedCall = _ from hint] at hso
      cases hso

theorem receive (hok : Undisturbed s .receive) (hs : s.receive = some s') : s'.Inv := by
  unfold Session.receive at hs
  split at hs
  · cases hs
  · rename_i c toServer htoS
    obtain ⟨t, ht, hinv⟩ := h.receiveCall htoS
    rw [ht] at hs
    cases hs
    exact hinv
  · rename_i r toServer htoS
    have hqu : s.thread.pendingInterrupts = [] := by
      refine hok.resolve_right ?_
      rw [htoS]
      nofun
    obtain ⟨t, ht, hinv⟩ := h.receivePush htoS hqu
    rw [ht] at hs
    cases hs
    exact hinv

/-! ## The worker -/

/-- `doWork` comes to its end. -/
theorem doneWorking (hpl : s.place = .entered ∨ s.place = .atTop)
    (hqu : s.thread.pendingInterrupts = [] ∨ s.thread.pendingCall = none) : (s.doneWorking s.thread).Inv := by
  obtain ⟨base, flux, order, gone, hc⟩ := h.conversation
  have hin : s.place ≠ .inMicrothread := by rcases hpl with hx | hx <;> rw [hx] <;> simp
  have hsta : s.place ≠ .starting := by rcases hpl with hx | hx <;> rw [hx] <;> simp
  have hrdy : Ready { s with thread := { s.thread with running := false }, place := .outside } :=
    { h.ready with
      running := iff_of_false (by simp) (fun hx => hx rfl)
      off := fun hx => ⟨nofun, nofun, (h.ready.off hx).2.2⟩
      on := .inr (h.ready.on.resolve_left hin)
      starting := by simp }
  unfold Session.doneWorking
  cases hq : s.thread.pendingInterrupts with
  | nil =>
    rw [h.ready.live.doneWorking_nil hq]
    exact h.ofServer rfl hrdy (hc.goto rfl hsta nofun rfl)
  | cons q queue =>
    have hp : s.thread.pendingCall = none := hqu.resolve_left (by rw [hq]; exact cons_ne_nil _ _)
    rw [h.ready.live.doneWorking_cons hq hp]
    have hrq : requests { s with
        thread := { s.thread with running := false, pendingCall := some q, pendingInterrupts := queue }, place := .outside } =
          s.requests := by
      simp [requests, hq, hp]
    refine h.ofServer rfl { hrdy with starting := by rintro ⟨⟩ }
      (hc.same rfl rfl hc.packets rfl rfl hrq rfl ?_ ?_ ?_ ?_ fun hp => ⟨hp, id⟩)
    · exact emplaced_congr rfl hrq rfl (iff_of_false (by rintro ⟨⟨⟩, _⟩) fun hx => hsta hx.1)
    · intro c hmem
      rw [hq]
      exact .inl (mem_cons_of_mem _ hmem)
    · exact fun _ _ _ hx => hx.imp_left fun hx => absurd hx.1 hsta
    · exact fun _ hx => hx.imp_left fun hx => absurd hx (by rw [interruptEnterPending_of_none hp]; exact false_ne_true)

section

variable (hpl : s.place = .entered)

include hpl

/-- The interrupt_enter that is pending interrupts a call that was suspended before its reply. -/
theorem interruptCall {x : Call} (hp : s.thread.pendingCall = some p) (hx : s.thread.activeCall = some x) :
    s.thread.pendingCallOverride = false ∧ p.number = .interruptEnter ∧ Inv { s with
      thread := { s.thread.emplaceInterrupt with suspended := false }, place := .starting, program := .finished } := by
  obtain ⟨base, flux, order, gone, hc⟩ := h.conversation
  have hreq : s.requests = x :: p :: (s.thread.pendingInterrupts ++ callsOf s.toServer) := by
    simp [requests, hp, hx]
  obtain ⟨hoth, hent, hrs, rfl⟩ := hc.second hreq
  have hpg : s.program = .serving x := eq_serving_of_other h.ready.fits (h.ready.active.symm.trans hx) hoth
  obtain rfl : flux = none := hc.flux_eq_none hpg rfl (by rw [hpl]; simp) (hreq ▸ cons_ne_nil _ _)
  obtain ⟨hout, hhe⟩ := hc.nothing rfl
  obtain ⟨hsav, hpu⟩ : s.thread.pendingSavedReply = none ∧ pushesOf s.toServer = [] := by
    simpa [held] using hhe
  have hove : s.thread.pendingCallOverride = false := by
    refine eq_false_iff.2 fun hx => ?_
    have hhd := h.ready.override hx
    rw [hpg] at hhd
    cases hhd
  have hpd : s.thread.interruptEnterPending = true := by
    rw [interruptEnterPending_of_some hp, hent]
    rfl
  refine ⟨hove, hent, h.ofServer rfl ?_
    (show Conversation _ base (some ⟨some x, none⟩) order [x] from
      ⟨?_, ?_, ?_, ?_, ?_, ?_, hc.account, hc.packets, ?_, hc.frames_other, hc.queued, ?_, ?_,
      (by simp)⟩)⟩
  · exact h.ready.emplaceInterrupt hpl hp (by rw [hpg]; rfl)
  · exact hc.awaits.congr rfl fun y hy => absurd hy (hc.not_exiting hreq (by rw [hoth]; simp) y)
  · have hstack : s.thread.interrupts = base.map settled := hc.stack
    simp [emplaceInterrupt, hx, hstack]
  · simp [Session.emplaced, interruptEnterPending, emplaceInterrupt, hp, hent]
  · rw [hc.split, hreq]
    simp [requests, emplaceInterrupt, hp]
  · have htok : [x].Perm (s.outgoing ++ ([x] ++ (s.thread.pendingSavedReply.toList.map (·.call) ++ pushesOf s.toServer))) := by
      rw [hout, hsav, hpu]
      exact List.Perm.refl _
    exact htok
  · exact hc.replies
  · intro c hmem
    have hmem' : c = x := by
      simpa [held, emplaceInterrupt, hsav, hpu, calls] using hmem
    rw [hmem', hoth]
  · exact fun _ _ _ => .inl ⟨rfl, hpd⟩
  · exact fun _ => .inl hpd

omit hpl in
/-- Between two microthreads nothing is active that is not suspended. -/
theorem finished_of_none (hin : s.place ≠ .inMicrothread) (hx : s.thread.activeCall = none) :
    s.program = .finished ∧ s.thread.suspended = false ∧ s.thread.continuationCallback = false ∧
      s.thread.pendingCallOverride = false := by
  have hno : s.program.call = none := h.ready.active ▸ hx
  have hsu : s.thread.suspended = false := by
    refine eq_false_iff.2 fun hs => ?_
    have hso := (h.ready.off hs).2.2
    rw [hno] at hso
    cases hso
  have hpg : s.program = .finished := by
    rcases h.ready.on with hin' | hs | hp
    · exact absurd hin' hin
    · rw [hsu] at hs
      cases hs
    · exact hp
  refine ⟨hpg, hsu, ?_, ?_⟩
  · refine eq_false_iff.2 fun hs => ?_
    rw [h.ready.continuation hs] at hsu
    cases hsu
  · refine eq_false_iff.2 fun hs => ?_
    have hhd := h.ready.override hs
    rw [hpg] at hhd
    cases hhd

/-- The interrupt_enter that is pending interrupts no call. -/
theorem interruptNothing (hp : s.thread.pendingCall = some p) (hx : s.thread.activeCall = none)
    (hent : p.number = .interruptEnter) : Inv { s with
      thread := { s.thread.emplaceInterrupt with suspended := false }, place := .starting, program := .finished } := by
  obtain ⟨base, flux, order, gone, hc⟩ := h.conversation
  obtain ⟨hpg, -⟩ := h.finished_of_none (by rw [hpl]; simp) hx
  obtain rfl : flux = none := by
    refine hc.flux_eq_none hpg rfl (by rw [hpl]; simp) ?_
    simp [requests, hp]
  have hpd : s.thread.interruptEnterPending = true := by
    rw [interruptEnterPending_of_some hp, hent]
    rfl
  refine h.ofServer rfl ?_
    (hc.moved (some ⟨none, none⟩) rfl ?_ ?_ (List.Perm.refl _) hc.packets ?_ rfl (fun _ => .inl)
      (by simp) (fun _ => .inl hpd) (by simp))
  · exact h.ready.emplaceInterrupt hpl hp (by rw [hpg]; rfl)
  · have hstack : s.thread.interrupts = base.map settled := hc.stack
    simp [emplaceInterrupt, hx, hstack]
  · simp [Session.emplaced, interruptEnterPending, emplaceInterrupt, hp, hent]
  · simp [requests, emplaceInterrupt, hx]

/-- A call that is pending starts a microthread. -/
theorem startCall (hp : s.thread.pendingCall = some p) (hx : s.thread.activeCall = none) (hoth : p.number ≠ .interruptEnter) :
    Inv { s with thread := { s.thread with suspended := false }, place := .starting, program := .finished } := by
  obtain ⟨base, flux, order, gone, hc⟩ := h.conversation
  obtain ⟨hpg, hsu, hcon, hove⟩ := h.finished_of_none (by rw [hpl]; nofun) hx
  have hpd : s.thread.interruptEnterPending = false := by
    rw [interruptEnterPending_of_some hp]
    exact decide_eq_false hoth
  have hpd' : ¬s.thread.interruptEnterPending = true := eq_false_iff.1 hpd
  refine h.ofServer rfl ?_ (hc.same rfl rfl hc.packets rfl rfl rfl rfl ?_ (fun _ => .inl) ?_ ?_ nofun)
  · exact { h.ready with
      active := hx
      fits := trivial
      handling := h.ready.handling.trans (by rw [hpg])
      running := iff_of_true (h.ready.running.2 (by rw [hpl]; nofun)) nofun
      off := nofun
      on := .inr (.inr rfl)
      starting := fun _ => isSome_iff_exists.2 ⟨p, hp⟩
      continuation := fun hx => absurd hx (eq_false_iff.1 hcon)
      override := fun hx => absurd hx (eq_false_iff.1 hove) }
  · exact emplaced_congr rfl rfl (by rw [hpg]) (iff_of_false (fun hx => hpd' hx.2) (fun hx => hpd' hx.2))
  · intro _ _ _ hx
    unfold Unresolved at hx ⊢
    rw [hpg, hpl] at hx
    exact hx.imp_left fun hx => nomatch hx.1
  · intro _ hx
    unfold Unentered at hx
    rw [hpg] at hx
    exact .inl (hx.resolve_right nofun)

/-- The microthread that was suspended goes on. -/
theorem resume : Inv { s with
    thread := { s.thread with suspended := false, continuationCallback := false }, place := .inMicrothread } := by
  obtain ⟨base, flux, order, gone, hc⟩ := h.conversation
  refine h.ofServer rfl ?_ (hc.goto hpl nofun nofun rfl)
  exact { h.ready with
    running := iff_of_true (h.ready.running.2 (by rw [hpl]; nofun)) nofun
    off := nofun
    on := .inl rfl
    starting := nofun
    continuation := nofun }

end

/-- A worker takes the thread. -/
theorem enter (hpl : s.place = .outside) :
    s.thread.enter = ({ s.thread with running := true }, .entered) ∧
      Inv { s with thread := { s.thread with running := true }, place := .entered } := by
  obtain ⟨base, flux, order, gone, hc⟩ := h.conversation
  have hrun : s.thread.running = false := eq_false_iff.2 fun hx => h.ready.running.1 hx hpl
  refine ⟨h.ready.live.enter hrun, h.ofServer rfl ?_ (hc.goto hpl nofun nofun rfl)⟩
  exact { h.ready with
    running := iff_of_true rfl nofun
    off := fun hx => ⟨nofun, nofun, (h.ready.off hx).2.2⟩
    on := .inr (h.ready.on.resolve_left (by rw [hpl]; nofun))
    starting := nofun }

/-- The microthread makes the pending call active. -/
theorem makePendingCallActive (hpl : s.place = .starting) (hp : s.thread.pendingCall = some p) :
    Inv { s with thread := s.thread.makePendingCallActive, place := .inMicrothread, program := .start p } := by
  obtain ⟨base, flux, order, gone, hc⟩ := h.conversation
  have hsu : s.thread.suspended = false := eq_false_iff.2 fun hs => (h.ready.off hs).1 hpl
  have hpg : s.program = .finished := by
    rcases h.ready.on with hin | hs | hp
    · rw [hpl] at hin
      cases hin
    · rw [hsu] at hs
      cases hs
    · exact hp
  have hact : s.thread.activeCall = none := by rw [h.ready.active, hpg]; rfl
  have hrq : requests { s with thread := s.thread.makePendingCallActive, place := .inMicrothread, program := .start p } =
      s.requests := by
    simp [requests, Thread.makePendingCallActive, hact]
  obtain ⟨hft, hca, hhd, hpp, hinIn⟩ := start_spec p
  have hpd : s.thread.interruptEnterPending = decide (p.number = .interruptEnter) := interruptEnterPending_of_some hp
  refine h.ofServer rfl ?_
    (hc.same rfl rfl hc.packets rfl rfl hrq rfl ?_
      (fun _ => .inl) ?_ ?_ fun hx => absurd hx hpp)
  · exact { h.ready with
      active := hp.trans hca.symm
      fits := hft
      handling := h.ready.handling.trans (by rw [hpg, hhd]; rfl)
      running := iff_of_true (h.ready.running.2 (by rw [hpl]; simp)) (by simp)
      off := fun hx => absurd hx (eq_false_iff.1 hsu)
      on := .inl rfl
      starting := by simp
      override := fun hx => absurd (h.ready.override hx) (by rw [hpg]; decide) }
  · unfold emplaced
    rw [hrq, hpg, hpl, hpd]
    simp only [hinIn]
    simp [inInterrupt]
  · intro _ _ _ hx
    unfold Unresolved at hx
    rw [hpg, hpd] at hx
    obtain ⟨-, hent⟩ | ⟨_, hx⟩ | ⟨_, hx⟩ := hx
    · exact .inr (.inl ⟨p, start_of_enter (of_decide_eq_true hent)⟩)
    · cases hx
    · cases hx
  · intro _ hx
    unfold Unentered at hx
    rw [hpg, hpd] at hx
    obtain hent | ⟨_, hx⟩ := hx
    · exact .inr ⟨p, start_of_enter (of_decide_eq_true hent)⟩
    · cases hx

theorem work (hok : Undisturbed s .work) (hs : s.work = some s') : s'.Inv := by
  unfold Session.work at hs
  generalize hpl : s.place = place at hs
  cases place with
  | outside =>
    obtain ⟨hent, hinv⟩ := h.enter hpl
    rw [hent] at hs
    cases hs
    exact hinv
  | entered =>
    obtain hp | ⟨p, hp⟩ := eq_none_or_eq_some s.thread.pendingCall
    · cases hsu : s.thread.suspended with
      | true =>
        rw [examine_resumes hp hsu] at hs
        cases hs
        exact h.resume hpl
      | false =>
        rw [examine_doneWorking hp hsu] at hs
        cases hs
        exact h.doneWorking (.inl hpl) (.inr hp)
    · obtain hx | ⟨x, hx⟩ := eq_none_or_eq_some s.thread.activeCall
      · obtain ⟨-, hsu, hcon, hove⟩ := h.finished_of_none (by rw [hpl]; nofun) hx
        by_cases hent : p.number = .interruptEnter
        · rw [examine_enter hp hent hove] at hs
          cases hs
          exact h.interruptNothing hpl hp hx hent
        · rw [examine_starts hp hent hsu hcon] at hs
          cases hs
          exact h.startCall hpl hp hx hent
      · obtain ⟨hove, hent, hinv⟩ := h.interruptCall hpl hp hx
        rw [examine_enter hp hent hove] at hs
        cases hs
        exact hinv
  | starting =>
    obtain ⟨p, hp⟩ := isSome_iff_exists.1 (h.ready.starting hpl)
    simp only [hp] at hs
    cases hs
    exact h.makePendingCallActive hpl hp
  | inMicrothread =>
    cases hs
  | atTop =>
    cases hs
    exact h.doneWorking (.inr hpl) (hok hpl)

end

end Inv

end Session

end Osxie.Server
