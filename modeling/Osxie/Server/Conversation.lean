import Mathlib.Data.List.Perm.Basic
import Osxie.Server.Interrupt

/-!
# The conversation of a client thread and the server

The invariant of a session, and what the client does to it. The calls the client waits for are in an order (`order`): the
interrupted call before the interrupt_enter that interrupts it, the interrupt_exit before the call it returns to. What is left
to be processed is the end of that order; each call before it (`gone`) has been replied to or interrupted, and is in exactly one
place, on its way to the client or held by the server. Below the interrupt that is being entered or left, each context of the
server holds the reply to the call the client waits for in the frame of the same depth.
-/

namespace Osxie.Server

open List Option InterruptContext

/-! ## Places and programs -/

namespace Program

def call : Program → Option Call
  | .serving c | .entering c | .handling c | .answering c | .exiting c => some c
  | .popping | .finished => none

/-- The number of a call and the program that processes it agree. -/
def Fits : Program → Prop
  | .serving c => c.number = .other
  | .entering c | .handling c | .answering c => c.number = .interruptEnter
  | .exiting c => c.number = .interruptExit
  | .popping | .finished => True

def isHandling : Program → Bool
  | .handling _ => true
  | _ => false

/-- The top context of the server belongs to an interrupt that is being entered or left. -/
def inInterrupt : Program → Bool
  | .entering _ | .handling _ | .answering _ | .popping => true
  | .serving _ | .exiting _ | .finished => false

end Program

def Activity.isEntering : Activity → Bool
  | .entering _ | .pushing _ _ => true
  | .idle | .waiting _ | .exiting _ => false

/-- The context of an interrupt that was entered: it holds the reply to the interrupted call. -/
def settled (frame : Option Call) : InterruptContext := ⟨none, frame.map Reply.mk⟩

/-- A thread that is neither dead nor terminating nor deferred. -/
def Thread.Live (t : Thread) : Prop := t.dead = false ∧ t.terminating = false ∧ t.deferralState = .notDeferred

namespace Session

/-- How the worker, the microthread and the thread's flags are related. -/
structure Ready (s : Session) : Prop where
  active : s.thread.activeCall = s.program.call
  fits : s.program.Fits
  handling : s.thread.interruptedForSignal = s.program.isHandling
  running : s.thread.running = true ↔ s.place ≠ .outside
  off : s.thread.suspended = true → s.place ≠ .starting ∧ s.place ≠ .inMicrothread ∧ s.program.call.isSome = true
  on : s.place = .inMicrothread ∨ s.thread.suspended = true ∨ s.program = .finished
  starting : s.place = .starting → s.thread.pendingCall.isSome = true
  continuation : s.thread.continuationCallback = true → s.thread.suspended = true
  override : s.thread.pendingCallOverride = true → s.program.isHandling = true
  live : s.thread.Live
  deferred : s.thread.deferredReply.isSome = true → s.thread.deferReplyForS2C = true
  up : s.aborted = none
  expected : s.confused = false

theorem suspend_some {s s' : Session} {continuationCallback : Bool} (h : s.suspend continuationCallback = some s') :
    s.place = .inMicrothread ∧ s.program.call.isSome = true ∧
      s' = { s with thread := s.thread.suspend continuationCallback, place := .atTop } := by
  unfold suspend at h
  split at h
  · cases h
  · cases h
  · rename_i hpl hpop hfin
    refine ⟨hpl, ?_, (Option.some.inj h).symm⟩
    cases hpg : s.program with
    | popping => exact absurd hpg hpop
    | finished => exact absurd hpg hfin
    | serving _ | entering _ | handling _ | answering _ | exiting _ => rfl
  · cases h

theorem Ready.congr {s s' : Session} (h : s.Ready) (hthread : s'.thread = s.thread) (hpl : s'.place = s.place)
    (hpg : s'.program = s.program) (hup : s'.aborted = s.aborted) (hexp : s'.confused = s.confused) : s'.Ready := by
  obtain ⟨h1, h2, h3, h4, h5, h6, h7, h8, h9, h10, h11, h12, h13⟩ := h
  constructor <;> simp only [hthread, hpl, hpg, hup, hexp] <;> assumption

/-- What the program says about the thread. -/
theorem Ready.at_program {s : Session} (h : s.Ready) {p : Program} (hpg : s.program = p) :
    s.thread.activeCall = p.call ∧ p.Fits ∧ s.thread.interruptedForSignal = p.isHandling := by
  subst hpg
  exact ⟨h.active, h.fits, h.handling⟩

variable (s : Session) (base : List (Option Call)) (p q : List Packet)

/-- The client, its frames below the interrupt it is entering or leaving, and the calls it waits for in their order. -/
def Awaits (order : List Call) : Prop :=
  match s.client with
  | .idle => s.frames = base ∧ order = []
  | .waiting c => s.frames = base ∧ order = [c] ∧ c.number = .other
  | .entering e => ∃ f, s.frames = f :: base ∧ order = f.toList ++ [e] ∧ e.number = .interruptEnter
  | .pushing e r => s.frames = some r.call :: base ∧ order = [r.call, e] ∧ e.number = .interruptEnter
  | .exiting x => x.number = .interruptExit ∧
      ((s.frames = base ∧ base ≠ [] ∧ order = [x] ∧ s.requests = [x]) ∨
        ∃ f, s.frames = f :: base ∧ order = x :: f.toList ∧ s.requests = [])

/-- The top context of the server is not settled. -/
def emplaced : Bool :=
  s.program.inInterrupt || (s.place = .starting && s.thread.interruptEnterPending) || (s.client.isEntering && s.requests = [])

/-- The calls that are held by the server, or pushed back to it, for the interrupt that is being entered or left. -/
def held (flux : Option InterruptContext) : List Call :=
  flux.toList.flatMap calls ++ (s.thread.pendingSavedReply.toList.map (·.call) ++ pushesOf s.toServer)

/-- The context of the interrupt may hold the interrupted call: it has not been resumed and replied. -/
def Unresolved : Prop :=
  (s.place = .starting ∧ s.thread.interruptEnterPending = true) ∨ (∃ c, s.program = .entering c) ∨ ∃ c, s.program = .handling c

/-- A reply that was pushed back may wait for its context. -/
def Unentered : Prop := s.thread.interruptEnterPending = true ∨ ∃ c, s.program = .entering c

/-- The datagrams to the server: calls, and after them the reply that is pushed back and not taken yet. -/
def Packets : Prop :=
  match s.client with
  | .pushing _ r =>
    (s.pipe = true ∧ pushesOf s.toServer = []) ∨ (s.pipe = false ∧
      ∃ calls : List Call, s.toServer = calls.map .call ++ [.pushReply r])
  | _ => s.pipe = false ∧ pushesOf s.toServer = []

/-- The conversation. `flux` is the top context of the server while it is not settled. -/
structure Conversation (s : Session) (base : List (Option Call)) (flux : Option InterruptContext) (order gone : List Call) :
    Prop where
  awaits : s.Awaits base order
  stack : s.thread.interrupts = flux.toList ++ base.map settled
  emplaced : flux.isSome = s.emplaced
  split : order = gone ++ s.requests
  tokens : gone.Perm (s.outgoing ++ s.held flux)
  replies : s.outgoing.Sublist order
  account : (order ++ base.reduceOption ++ s.answered).Perm s.issued
  packets : s.Packets
  held_other : ∀ c ∈ s.held flux, c.number = .other
  frames_other : ∀ c, some c ∈ s.frames → c.number = .other
  queued : ∀ c ∈ s.thread.pendingInterrupts, c.number = .interruptEnter
  interrupted : ∀ context, flux = some context → context.interruptedCall.isSome = true → s.Unresolved
  saved : s.thread.pendingSavedReply.isSome = true → s.Unentered
  popping : s.program = .popping → s.thread.deferredReply = none ∧ ∀ c ∈ s.outgoing, c.number = .interruptExit

structure Inv (s : Session) : Prop where
  ready : s.Ready
  conversation : ∃ base flux order gone, s.Conversation base flux order gone
  fresh : ∀ c ∈ s.issued, c.id < s.issued.length
  distinct : s.issued.Nodup

theorem inv_init : init.Inv where
  ready := by
    refine ⟨rfl, trivial, rfl, ?_, nofun, .inr (.inr rfl), nofun, nofun, nofun, ⟨rfl, rfl, rfl⟩, nofun, rfl, rfl⟩
    exact iff_of_false nofun (fun h => h rfl)
  conversation := by
    refine ⟨[], none, [], [], ⟨rfl, rfl⟩, rfl, rfl, rfl, List.Perm.refl _, List.Sublist.refl _, List.Perm.refl _, ⟨rfl, rfl⟩,
      nofun, nofun, nofun, nofun, nofun, nofun⟩
  fresh := nofun
  distinct := nodup_nil

/-! ## What follows from it -/

theorem settled_calls (frame : Option Call) : (settled frame).calls = frame.toList := by
  cases frame <;> rfl

/-- A context without an interrupted call holds what its saved reply says. -/
theorem eq_settled {context : InterruptContext} {frame : Option Call} (hint : context.interruptedCall = none)
    (hsav : (context.savedReply.toList.map (·.call)).Perm frame.toList) : context = settled frame := by
  obtain ⟨interruptedCall, savedReply⟩ := context
  cases hint
  cases savedReply with
  | none =>
    cases frame with
    | none => rfl
    | some x => exact absurd hsav.length_eq nofun
  | some r =>
    cases frame with
    | none => exact absurd hsav.length_eq nofun
    | some x =>
      obtain rfl : r.call = x := singleton_perm_singleton.1 hsav
      rfl

theorem flatMap_settled : (base.map settled).flatMap calls = base.reduceOption := by
  induction base with
  | nil => rfl
  | cons frame base ih =>
    rw [map_cons, flatMap_cons, ih]
    cases frame <;> rfl

/-! ## The order of the calls -/

@[simp] theorem callsOf_append : callsOf (p ++ q) = callsOf p ++ callsOf q := filterMap_append

@[simp] theorem pushesOf_append : pushesOf (p ++ q) = pushesOf p ++ pushesOf q := filterMap_append

@[simp] theorem callsOf_nil : callsOf [] = [] := rfl

@[simp] theorem pushesOf_nil : pushesOf [] = [] := rfl

@[simp] theorem callsOf_call (c : Call) (p : List Packet) : callsOf (.call c :: p) = c :: callsOf p := rfl

@[simp] theorem pushesOf_call (c : Call) (p : List Packet) : pushesOf (.call c :: p) = pushesOf p := rfl

@[simp] theorem callsOf_pushReply (r : Reply) (p : List Packet) : callsOf (.pushReply r :: p) = callsOf p := rfl

@[simp] theorem pushesOf_pushReply (r : Reply) (p : List Packet) : pushesOf (.pushReply r :: p) = r.call :: pushesOf p := rfl

/-- Datagrams without pushed replies are calls. -/
theorem eq_map_of_pushesOf {packets : List Packet} (h : pushesOf packets = []) : packets = (callsOf packets).map .call := by
  induction packets with
  | nil => rfl
  | cons p packets ih =>
    cases p with
    | call c => rw [callsOf_call, map_cons, ← ih h]
    | pushReply r => cases h

namespace Conversation

variable {s : Session} {base : List (Option Call)} {flux : Option InterruptContext} {order gone : List Call}

variable {c e : Call} {frames : List (Option Call)}

section

variable (h : s.Conversation base flux order gone)

include h

theorem nodup (hd : s.issued.Nodup) : order.Nodup := by
  have hall : (order ++ base.reduceOption ++ s.answered).Nodup := h.account.nodup_iff.2 hd
  exact (nodup_append.1 (nodup_append.1 hall).1).1

/-- What the client waits for, by what it is doing. -/
theorem awaits_at {client : Activity} (hcl : s.client = client) : { s with client := client }.Awaits base order := by
  subst hcl
  exact h.awaits

theorem awaits_exiting {x : Call} (hcl : s.client = .exiting x) :
    x.number = .interruptExit ∧
    ((s.frames = base ∧ base ≠ [] ∧ order = [x] ∧ s.requests = [x]) ∨
      ∃ f, s.frames = f :: base ∧ order = x :: f.toList ∧ s.requests = []) := h.awaits_at hcl

end

/-- The interrupted call is not in the context once the interrupt_enter is past it. -/
theorem interruptedCall_eq_none {context : InterruptContext} (h : s.Conversation base (some context) order gone)
    (hnot : ¬s.Unresolved) : context.interruptedCall = none := by
  by_contra hso
  exact hnot (h.interrupted context rfl (isSome_iff_ne_none.2 hso))

section

variable (h : s.Conversation base flux order gone)

include h

/-- No reply waits for its context once the interrupt_enter has begun. -/
theorem pendingSavedReply_eq_none (hnot : ¬s.Unentered) : s.thread.pendingSavedReply = none := by
  by_contra hso
  exact hnot (h.saved (isSome_iff_ne_none.2 hso))

/-- If nothing has gone, nothing is on its way back. -/
theorem nothing (hg : gone = []) : s.outgoing = [] ∧ s.held flux = [] := by
  have htok := h.tokens
  rw [hg] at htok
  exact append_eq_nil_iff.1 htok.nil_eq.symm

/-- While the client enters an interrupt it waits for the interrupted call, if any, and for the interrupt_enter. -/
theorem entering (hent : s.client.isEntering = true) :
    ∃ e f, s.frames = f :: base ∧ order = f.toList ++ [e] ∧ e.number = .interruptEnter := by
  cases hcl : s.client with
  | entering e =>
    obtain ⟨f, hf, ho, he⟩ := h.awaits_at hcl
    exact ⟨e, f, hf, ho, he⟩
  | pushing e r =>
    obtain ⟨hf, ho, he⟩ := h.awaits_at hcl
    exact ⟨e, some r.call, hf, ho, he⟩
  | idle | waiting _ | exiting _ =>
    rw [hcl] at hent
    cases hent

/-- What the next call to be processed can be: an ordinary call, which is the first one the client waits for; an
interrupt_enter, the last one; or an interrupt_exit, the only one. -/
inductive Front (s : Session) (base : List (Option Call)) (gone : List Call) (c : Call) (rest : List Call) : Prop where
  | other (hc : c.number = .other) (hgo : gone = [])
      (hrs : (rest = [] ∧ s.client.isEntering = false) ∨ ∃ e, rest = [e] ∧ e.number = .interruptEnter)
  | enter (hc : c.number = .interruptEnter) (hrs : rest = []) (hcli : s.client.isEntering = true) (f : Option Call)
      (hfr : s.frames = f :: base) (hgo : gone = f.toList)
  | exit (hc : c.number = .interruptExit) (hrs : rest = []) (hcli : s.client = .exiting c) (hfr : s.frames = base)
      (hbs : base ≠ []) (hgo : gone = [])

theorem front {rest : List Call} (hreq : s.requests = c :: rest) : Front s base gone c rest := by
  have hsplit := h.split
  rw [hreq] at hsplit
  by_cases hent : s.client.isEntering = true
  · obtain ⟨e, f, hfr, ho, he⟩ := h.entering hent
    rw [ho] at hsplit
    cases f with
    | none =>
      cases gone with
      | nil =>
        obtain ⟨rfl, rfl⟩ : e = c ∧ rest = [] := by simpa [eq_comm] using hsplit
        exact .enter he rfl hent none hfr rfl
      | cons g gone => simp at hsplit
    | some x =>
      have hx : x.number = .other := h.frames_other x (by rw [hfr]; exact mem_cons_self)
      cases gone with
      | nil =>
        obtain ⟨rfl, rfl⟩ : x = c ∧ rest = [e] := by simpa [eq_comm] using hsplit
        exact .other hx rfl (.inr ⟨e, rfl, he⟩)
      | cons g gone =>
        cases gone with
        | nil =>
          obtain ⟨rfl, rfl, rfl⟩ : x = g ∧ e = c ∧ rest = [] := by simpa [eq_comm] using hsplit
          exact .enter he rfl hent (some x) hfr rfl
        | cons g' gone => simp at hsplit
  · cases hcl : s.client with
    | idle =>
      rw [(h.awaits_at hcl).2] at hsplit
      simp at hsplit
    | waiting c' =>
      obtain ⟨-, ho, hc'⟩ := h.awaits_at hcl
      rw [ho] at hsplit
      cases gone with
      | nil =>
        obtain ⟨rfl, rfl⟩ : c' = c ∧ rest = [] := by simpa [eq_comm] using hsplit
        exact .other hc' rfl (.inl ⟨rfl, Bool.not_eq_true _ ▸ hent⟩)
      | cons g gone => simp at hsplit
    | entering _ | pushing _ _ =>
      rw [hcl] at hent
      exact absurd rfl hent
    | exiting x =>
      obtain ⟨hx, ⟨hfr, hbs, ho, hr⟩ | ⟨f, -, -, hr⟩⟩ := h.awaits_exiting hcl
      · rw [hreq] at hr
        obtain ⟨rfl, rfl⟩ : c = x ∧ rest = [] := by simpa using hr
        rw [ho] at hsplit
        have hgo : gone = [] := by
          cases gone with
          | nil => rfl
          | cons g gone => simp at hsplit
        exact .exit hx rfl hcl hfr hbs hgo
      · rw [hreq] at hr
        cases hr

/-- A frame of the client is not about an interrupt_enter. -/
theorem enter_notMem {f : Option Call} (hfr : s.frames = f :: frames) (he : e.number = .interruptEnter) : e ∉ f.toList := by
  intro hmem
  have hoth := h.frames_other e (by rw [hfr, ← mem_toList.1 hmem]; exact mem_cons_self)
  rw [he] at hoth
  cases hoth

/-- Once an interrupt_enter has gone there is nothing left to be processed. -/
theorem requests_eq_nil_of_gone (he : e.number = .interruptEnter) (hgo : e ∈ gone) : s.requests = [] := by
  cases hreq : s.requests with
  | nil => rfl
  | cons c rest =>
    cases h.front hreq with
    | other _ hnil _ | exit _ _ _ _ _ hnil =>
      rw [hnil] at hgo
      cases hgo
    | enter _ _ _ f hfr hf =>
      rw [hf] at hgo
      exact absurd hgo (h.enter_notMem hfr he)

/-- A client that does not push a reply back has none on its way to the server. -/
theorem packets_of_not_pushing (hnot : ∀ e r, s.client ≠ .pushing e r) : s.pipe = false ∧ pushesOf s.toServer = [] := by
  have hp := h.packets
  unfold Packets at hp
  split at hp
  · rename_i hcl
    exact absurd hcl (hnot _ _)
  · exact hp

theorem packets_of_not_entering (hent : s.client.isEntering = false) : s.pipe = false ∧ pushesOf s.toServer = [] := by
  refine h.packets_of_not_pushing fun e r hcl => ?_
  rw [hcl] at hent
  cases hent

/-- The client makes a call. -/
theorem issue {client : Activity} (hent : s.client.isEntering = false)
    (hawa : (s.issue c client frames).Awaits base (order ++ [c])) (hcli : ∀ e r, client ≠ .pushing e r)
    (hfr : ∀ c, some c ∈ frames → c.number = .other) :
    (s.issue c client frames).Conversation base flux (order ++ [c]) gone := by
  have hrq : (s.issue c client frames).requests = s.requests ++ [c] := by
    simp [requests, Session.issue]
  have hpackets := h.packets_of_not_entering hent
  have hpu : pushesOf (s.toServer ++ [.call c]) = pushesOf s.toServer := by simp
  have hhe : (s.issue c client frames).held flux = s.held flux := by
    unfold held
    rw [← hpu]
    rfl
  refine ⟨hawa, h.stack, ?_, ?_, ?_, ?_, ?_, ?_, ?_, hfr, h.queued, h.interrupted, h.saved, h.popping⟩
  · rw [h.emplaced]
    unfold Session.emplaced
    rw [hrq, hent, decide_eq_false (append_ne_nil_of_right_ne_nil _ (cons_ne_nil _ _)), Bool.and_false]
    rfl
  · rw [hrq, h.split, append_assoc]
  · rw [hhe]
    exact h.tokens
  · exact h.replies.trans (sublist_append_left _ _)
  · have hacc := h.account
    rw [perm_iff_count] at hacc ⊢
    intro x
    have hx := hacc x
    simp only [Session.issue, count_append] at hx ⊢
    omega
  · unfold Packets
    split
    · rename_i hcl
      exact absurd hcl (hcli _ _)
    · exact ⟨hpackets.1, hpu.trans hpackets.2⟩
  · rw [hhe]
    exact h.held_other

end

/-- The client takes the first reply it waits for, and goes on outside of the interrupt. -/
theorem take (h : s.Conversation base flux (c :: order) (c :: gone)) {r : Reply} {toClient : List Reply} {client : Activity}
    (htc : s.toClient = r :: toClient) (hr : r.call = c) (hent : s.client.isEntering = false)
    (hent' : client.isEntering = false) (hawa : (s.take c client frames toClient).Awaits base order)
    (hfr : ∀ c, some c ∈ frames → c.number = .other) :
    (s.take c client frames toClient).Conversation base flux order gone := by
  have hout : s.outgoing = c :: (s.take c client frames toClient).outgoing := by
    simp [outgoing, Session.take, htc, hr]
  have hpackets := h.packets_of_not_entering hent
  refine ⟨hawa, h.stack, ?_, ?_, ?_, ?_, ?_, ?_, h.held_other, hfr, h.queued, h.interrupted, h.saved, ?_⟩
  · rw [h.emplaced]
    unfold Session.emplaced
    rw [hent]
    rw [show (s.take c client frames toClient).client.isEntering = false from hent']
    rfl
  · exact (cons.inj h.split).2
  · have htok := h.tokens
    rw [hout] at htok
    exact htok.cons_inv
  · have hrp := h.replies
    rw [hout] at hrp
    exact cons_sublist_cons.1 hrp
  · have hacc := h.account
    rw [perm_iff_count] at hacc ⊢
    intro x
    have hx := hacc x
    simp only [Session.take, count_append, count_cons, count_nil] at hx ⊢
    omega
  · unfold Packets
    split
    · rename_i hcl
      rw [show client = _ from hcl] at hent'
      cases hent'
    · exact hpackets
  · intro hp
    obtain ⟨hdef, hxt⟩ := h.popping hp
    rw [hout] at hxt
    exact ⟨hdef, fun c hc => hxt c (mem_cons_of_mem _ hc)⟩

end Conversation

namespace Inv

variable {s : Session}

variable {r : Reply} {toClient : List Reply} {e : Call}

variable (h : s.Inv)

include h

/-- The calls the client makes are new. -/
theorem newCall (number : CallNumber) :
    (∀ c ∈ s.issued ++ [s.newCall number], c.id < (s.issued ++ [s.newCall number]).length) ∧
      (s.issued ++ [s.newCall number]).Nodup := by
  refine ⟨?_, ?_⟩
  · intro c hc
    rw [length_append]
    rcases mem_append.1 hc with hc | hc
    · exact Nat.lt_succ_of_lt (h.fresh c hc)
    · rw [mem_singleton.1 hc]
      exact Nat.lt_succ_self _
  · refine nodup_append.2 ⟨h.distinct, pairwise_singleton _ _, ?_⟩
    intro a ha b hb hab
    rw [mem_singleton.1 hb] at hab
    have hlt := h.fresh a ha
    rw [hab] at hlt
    exact Nat.lt_irrefl _ hlt

/-- The client moves, and the server does not. -/
theorem ofClient {s' : Session} (hthread : s'.thread = s.thread) (hpl : s'.place = s.place)
    (hpg : s'.program = s.program) (hup : s'.aborted = s.aborted) (hexp : s'.confused = s.confused)
    (hiss : s'.issued = s.issued) (hc : ∃ base flux order gone, s'.Conversation base flux order gone) : s'.Inv where
  ready := h.ready.congr hthread hpl hpg hup hexp
  conversation := hc
  fresh := by rw [hiss]; exact h.fresh
  distinct := by rw [hiss]; exact h.distinct

theorem issue {number : CallNumber} {client : Activity} {frames : List (Option Call)} {base : List (Option Call)}
    {flux : Option InterruptContext} {order gone : List Call}
    (hc : (s.issue (s.newCall number) client frames).Conversation base flux order gone) :
    (s.issue (s.newCall number) client frames).Inv where
  ready := h.ready.congr rfl rfl rfl rfl rfl
  conversation := ⟨base, flux, order, gone, hc⟩
  fresh := (h.newCall number).1
  distinct := (h.newCall number).2

theorem call (hcl : s.client = .idle) : (s.issue (s.newCall .other) (.waiting (s.newCall .other)) s.frames).Inv := by
  obtain ⟨base, flux, order, gone, hc⟩ := h.conversation
  obtain ⟨hfr, rfl⟩ := hc.awaits_at hcl
  exact h.issue (hc.issue (by rw [hcl]; rfl) ⟨hfr, rfl, rfl⟩ nofun hc.frames_other)

/-- A signal interrupts the client in a call, or outside of one. -/
theorem signal {f : Option Call} (hcl : s.client = resumedActivity f) :
    (s.issue (s.newCall .interruptEnter) (.entering (s.newCall .interruptEnter)) (f :: s.frames)).Inv := by
  obtain ⟨base, flux, order, gone, hc⟩ := h.conversation
  cases f with
  | none =>
    obtain ⟨hfr, rfl⟩ := hc.awaits_at hcl
    refine h.issue (hc.issue (by rw [hcl]; rfl) ⟨none, congrArg _ hfr, rfl, rfl⟩ nofun ?_)
    intro c hmem
    exact hc.frames_other c (by simpa using hmem)
  | some x =>
    obtain ⟨hfr, rfl, hx⟩ := hc.awaits_at hcl
    refine h.issue (hc.issue (by rw [hcl]; rfl) ⟨some x, congrArg _ hfr, rfl, rfl⟩ nofun ?_)
    intro c hmem
    rcases mem_cons.1 hmem with hmem | hmem
    · cases hmem
      exact hx
    · exact hc.frames_other c hmem

/-- The client is done with the signal. -/
theorem exit (hcl : s.client = .idle) (hne : s.frames ≠ []) :
    (s.issue (s.newCall .interruptExit) (.exiting (s.newCall .interruptExit)) s.frames).Inv := by
  obtain ⟨base, flux, order, gone, hc⟩ := h.conversation
  obtain ⟨hfr, rfl⟩ := hc.awaits_at hcl
  have hrq : s.requests = [] := (append_eq_nil_iff.1 hc.split.symm).2
  refine h.issue (hc.issue (by rw [hcl]; rfl) ⟨rfl, .inl ⟨hfr, hfr ▸ hne, rfl, ?_⟩⟩ nofun hc.frames_other)
  have hall := hrq
  unfold requests at hall
  simp only [append_eq_nil_iff] at hall
  simp [requests, Session.issue, hall]

/-! ## Replies to the client -/

omit h in
theorem outgoing_cons (h : s.toClient = r :: toClient) :
    s.outgoing = r.call :: (toClient ++ s.thread.deferredReply.toList).map (·.call) := by
  simp [outgoing, h]

/-- The reply to the call of a client that waits for it is the only thing on its way. -/
theorem receiveWaiting {c : Call} (hcl : s.client = .waiting c) (htc : s.toClient = r :: toClient) :
    r.call = c ∧ (s.take c .idle s.frames toClient).Inv := by
  obtain ⟨base, flux, order, gone, hc⟩ := h.conversation
  obtain ⟨hfr, rfl, -⟩ := hc.awaits_at hcl
  have hout := outgoing_cons htc
  have hr : r.call = c := by
    have hrp := hc.replies
    rw [hout] at hrp
    exact (cons.inj ((sublist_singleton.1 hrp).resolve_left nofun)).1
  have hsplit := hc.split
  cases gone with
  | nil =>
    have hnil := (hc.nothing rfl).1
    rw [hout] at hnil
    cases hnil
  | cons g gone =>
    obtain rfl : c = g := (cons.inj hsplit).1
    have hent : s.client.isEntering = false := by rw [hcl]; rfl
    exact ⟨hr, h.ofClient rfl rfl rfl rfl rfl rfl ⟨_, _, _, _, hc.take htc hr hent rfl ⟨hfr, rfl⟩ hc.frames_other⟩⟩

/-- The client that leaves an interrupt receives the reply of interrupt_exit first, and then waits for the interrupted call
again. -/
theorem receiveExiting {x : Call} (hcl : s.client = .exiting x) (htc : s.toClient = r :: toClient) :
    r.call = x ∧ (s.take x (resumedActivity (s.frames.head?.bind id)) s.frames.tail toClient).Inv := by
  obtain ⟨base, flux, order, gone, hc⟩ := h.conversation
  have hent : s.client.isEntering = false := by rw [hcl]; rfl
  have hout := outgoing_cons htc
  have hnd := hc.nodup h.distinct
  obtain ⟨hx, ⟨-, -, rfl, hrq⟩ | ⟨f, hfr, rfl, hrq⟩⟩ := hc.awaits_exiting hcl
  · -- the interrupt_exit has not been processed, and there is nothing to receive
    have hgo : gone = [] := by
      have hsplit := hc.split
      rw [hrq] at hsplit
      cases gone with
      | nil => rfl
      | cons g gone => simp at hsplit
    have hnil := (hc.nothing hgo).1
    rw [hout] at hnil
    cases hnil
  · obtain rfl : x :: f.toList = gone := by
      have hsplit := hc.split
      rw [hrq, append_nil] at hsplit
      exact hsplit
    have hmem : x ∈ s.outgoing := by
      rcases mem_append.1 (hc.tokens.mem_iff.1 mem_cons_self) with hmem | hmem
      · exact hmem
      · have hoth := hc.held_other x hmem
        rw [hx] at hoth
        cases hoth
    have hr : r.call = x := by
      rcases sublist_cons_iff.1 hc.replies with hsub | ⟨rest, heq, -⟩
      · exact absurd (hsub.subset hmem) (nodup_cons.1 hnd).1
      · rw [hout] at heq
        exact (cons.inj heq).1
    refine ⟨hr, h.ofClient rfl rfl rfl rfl rfl rfl ⟨base, flux, f.toList, f.toList, ?_⟩⟩
    rw [hfr]
    have hbs : ∀ c, some c ∈ base → c.number = .other := by
      intro c hmem
      exact hc.frames_other c (by rw [hfr]; exact mem_cons_of_mem _ hmem)
    cases f with
    | none => exact hc.take htc hr hent rfl ⟨rfl, rfl⟩ hbs
    | some c => exact hc.take htc hr hent rfl ⟨rfl, rfl, hc.frames_other c (by rw [hfr]; exact mem_cons_self)⟩ hbs

omit h in
theorem requests_eq_nil (h : s.requests = []) :
    s.thread.activeCall = none ∧ s.thread.pendingCall = none ∧ s.thread.pendingInterrupts = [] ∧ callsOf s.toServer = [] := by
  unfold requests at h
  simpa [and_assoc] using h

/-- When the reply of interrupt_enter is on its way, no other program is left to run. -/
theorem finished_of_outgoing (he : e.number = .interruptEnter) (hmem : e ∈ s.outgoing) (hact : s.thread.activeCall = none) :
    s.program = .finished := by
  obtain ⟨base, flux, order, gone, hc⟩ := h.conversation
  have hca : s.program.call = none := h.ready.active ▸ hact
  cases hp : s.program with
  | finished => rfl
  | popping =>
    have hxt := (hc.popping hp).2 e hmem
    rw [he] at hxt
    cases hxt
  | serving c | entering c | handling c | answering c | exiting c =>
    rw [hp] at hca
    cases hca

/-- The client that enters an interrupt receives the reply of interrupt_enter when everything else it waits for is saved. -/
theorem receiveEntered (hcl : s.client = .entering e) (htc : s.toClient = r :: toClient) (hr : r.call = e) :
    (s.take e .idle s.frames toClient).Inv := by
  obtain ⟨base, flux, order, gone, hc⟩ := h.conversation
  obtain ⟨f, hfr, rfl, he⟩ := hc.awaits_at hcl
  have hout := outgoing_cons htc
  rw [hr] at hout
  have hmem : e ∈ s.outgoing := by rw [hout]; exact mem_cons_self
  have hrq : s.requests = [] := hc.requests_eq_nil_of_gone he (hc.tokens.mem_iff.2 (mem_append_left _ hmem))
  obtain rfl : f.toList ++ [e] = gone := by
    have hsplit := hc.split
    rw [hrq, append_nil] at hsplit
    exact hsplit
  obtain ⟨hact, hpen, -, -⟩ := requests_eq_nil hrq
  have hpd : s.thread.interruptEnterPending = false := by
    unfold Thread.interruptEnterPending
    rw [hpen]
  have hpg : s.program = .finished := h.finished_of_outgoing he hmem hact
  have hpu := hc.packets_of_not_pushing (by rw [hcl]; nofun)
  have hsav : s.thread.pendingSavedReply = none := hc.pendingSavedReply_eq_none (by simp [Unentered, hpd, hpg])
  obtain ⟨context, rfl⟩ : ∃ context, flux = some context := by
    refine isSome_iff_exists.1 (hc.emplaced.trans ?_)
    simp [Session.emplaced, hcl, hrq, Activity.isEntering]
  have hint : context.interruptedCall = none := hc.interruptedCall_eq_none (by simp [Unresolved, hpd, hpg])
  have hhe : s.held (some context) = context.savedReply.toList.map (·.call) := by
    simp [held, hsav, hpu.2, calls, hint]
  -- what has gone is the interrupt_enter, whose reply is received, and the interrupted call, whose reply is saved
  have hrs : (s.take e .idle s.frames toClient).outgoing = [] := by
    obtain ⟨front, back, heq, hfront, hback⟩ := sublist_append_iff.1 (hout ▸ hc.replies)
    cases front with
    | nil =>
      rw [← heq.trans (nil_append _)] at hback
      exact (cons.inj ((sublist_singleton.1 hback).resolve_left nofun)).2
    | cons c front =>
      obtain rfl : e = c := (cons.inj heq).1
      exact absurd (hfront.subset mem_cons_self) (hc.enter_notMem hfr he)
  have hcont : context = settled f := by
    refine eq_settled hint ?_
    have htok := hc.tokens
    rw [hout, show (toClient ++ s.thread.deferredReply.toList).map (·.call) = [] from hrs, hhe] at htok
    exact ((perm_append_comm.trans htok).cons_inv).symm
  refine h.ofClient rfl rfl rfl rfl rfl rfl ⟨f :: base, none, [], [], ⟨hfr, rfl⟩, ?_, ?_, hrq.symm, ?_, ?_, ?_,
    hpu, ?_,
    hc.frames_other, hc.queued, nofun, ?_, ?_⟩
  · rw [hcont] at hc
    exact hc.stack
  · simp [Session.emplaced, Session.take, hpg, hpd, Program.inInterrupt, Activity.isEntering]
  · rw [hrs]
    simp [held, Session.take, hsav, hpu.2]
  · rw [hrs]
  · have hacc := hc.account
    rw [perm_iff_count] at hacc ⊢
    intro c
    have hx := hacc c
    have hcons : (f :: base).reduceOption = f.toList ++ base.reduceOption := by cases f <;> rfl
    rw [hcons]
    simp only [Session.take, count_append, count_nil] at hx ⊢
    omega
  · simp [held, Session.take, hsav, hpu.2]
  · simp [Session.take, hsav]
  · intro hp
    rw [show s.program = _ from hp] at hpg
    cases hpg

/-- The client pushes back the reply to the call it was interrupted in. -/
theorem push (hcl : s.client = .entering e) (htc : s.toClient = r :: toClient) (hr : r.call ≠ e) : (s.push e r toClient).Inv := by
  obtain ⟨base, flux, order, gone, hc⟩ := h.conversation
  obtain ⟨f, hfr, rfl, he⟩ := hc.awaits_at hcl
  have hout : s.outgoing = r.call :: (s.push e r toClient).outgoing := outgoing_cons htc
  obtain rfl : f = some r.call := by
    have hmem : r.call ∈ f.toList ++ [e] := hc.replies.subset (by rw [hout]; exact mem_cons_self)
    rcases mem_append.1 hmem with hmem | hmem
    · exact mem_toList.1 hmem
    · exact absurd (mem_singleton.1 hmem) hr
  have hrq : (s.push e r toClient).requests = s.requests := by simp [requests, Session.push]
  have hpu := hc.packets_of_not_pushing (by rw [hcl]; nofun)
  have hhe : (s.push e r toClient).held flux = s.held flux ++ [r.call] := by
    simp [held, Session.push]
  refine h.ofClient rfl rfl rfl rfl rfl rfl ⟨base, flux, [r.call, e], gone, ⟨hfr, rfl, he⟩, hc.stack, ?_, ?_, ?_, ?_,
    hc.account,
    .inr ⟨hpu.1, callsOf s.toServer, ?_⟩, ?_, hc.frames_other, hc.queued, hc.interrupted, hc.saved, ?_⟩
  · rw [hc.emplaced]
    unfold Session.emplaced
    rw [hrq, hcl]
    rfl
  · rw [hrq]
    exact hc.split
  · have htok := hc.tokens
    rw [hout] at htok
    rw [hhe]
    rw [perm_iff_count] at htok ⊢
    intro c
    have hx := htok c
    simp only [count_append, count_cons, count_nil] at hx ⊢
    omega
  · have hrp := hc.replies
    rw [hout] at hrp
    exact (sublist_cons_self _ _).trans hrp
  · exact congrArg (· ++ [Packet.pushReply r]) (eq_map_of_pushesOf hpu.2)
  · rw [hhe]
    intro c hmem
    rcases mem_append.1 hmem with hmem | hmem
    · exact hc.held_other c hmem
    · rw [mem_singleton.1 hmem]
      exact hc.frames_other r.call (by rw [hfr]; exact mem_cons_self)
  · intro hp
    obtain ⟨hdef, hxt⟩ := hc.popping hp
    rw [hout] at hxt
    exact ⟨hdef, fun c hmem => hxt c (mem_cons_of_mem _ hmem)⟩

/-- The server has taken the reply that was pushed back. -/
theorem pushed (hcl : s.client = .pushing e r) (hpipe : s.pipe = true) : Inv { s with client := .entering e, pipe := false } := by
  obtain ⟨base, flux, order, gone, hc⟩ := h.conversation
  obtain ⟨hfr, rfl, he⟩ := hc.awaits_at hcl
  have hpu : pushesOf s.toServer = [] := by
    have hp := hc.packets
    unfold Packets at hp
    rw [hcl] at hp
    rcases hp with hp | hp
    · exact hp.2
    · rw [hpipe] at hp
      cases hp.1
  refine h.ofClient rfl rfl rfl rfl rfl rfl ⟨base, flux, [r.call, e], gone, ⟨some r.call, hfr, rfl, he⟩, hc.stack, ?_, hc.split,
    hc.tokens, hc.replies, hc.account, ⟨rfl, hpu⟩, hc.held_other, hc.frames_other, hc.queued, hc.interrupted, hc.saved,
      hc.popping⟩
  rw [hc.emplaced]
  unfold Session.emplaced
  rw [hcl]
  rfl

end Inv

end Session

end Osxie.Server
