import Osxie.Server.Dispatch

/-!
# Every reply is delivered once

What the microthread does to a conversation, and the result: every call is answered once, the replies that were pushed back
included, and the server throws nothing.
-/

namespace Osxie.Server

open List Option Session Thread Bool Program Machine
open InterruptContext (calls)

namespace Session

/-! ## The microthread -/

/-- The reply to a call that is active is sent, or deferred for an S2C call. -/
def replied (s : Session) (call : Call) (program : Program) : Session :=
  { s with
    thread := { s.thread with
      activeCall := none
      deferredReply := if s.thread.deferReplyForS2C then some ⟨call⟩ else s.thread.deferredReply }
    toClient := s.toClient ++ if s.thread.deferReplyForS2C then [] else [⟨call⟩]
    program := program }

section Replied

variable {s : Session} {c : Call} {program : Program}

theorem reply_eq_replied (hact : s.thread.activeCall = some c) (hsg : s.thread.interruptedForSignal = false)
    (hlive : s.thread.Live) : s.reply c program = s.replied c program := by
  have hexp : s.thread.expectedCall = some c := by
    unfold expectedCall
    rw [hsg]
    exact hact
  have hdeac : s.thread.deactivateCall c = .ok { s.thread with activeCall := none } := by
    unfold deactivateCall
    rw [if_neg (not_not.2 hexp), if_neg (eq_false_iff.1 hsg)]
  unfold reply pushCallReply replied
  rw [hdeac]
  cases hdefer : s.thread.deferReplyForS2C <;> simp [bind, Except.bind, attempt, hsg, hdefer, hlive.1]

theorem requests_replied (hact : s.thread.activeCall = some c) (program : Program) :
    s.requests = c :: (s.replied c program).requests := by
  simp [requests, replied, hact]

theorem outgoing_replied (hdef : s.thread.deferredReply = none) (c : Call) (program : Program) :
    (s.replied c program).outgoing = s.outgoing ++ [c] := by
  cases hdefer : s.thread.deferReplyForS2C <;> simp [outgoing, replied, hdefer, hdef]

theorem Ready.replied (h : s.Ready) (hpl : s.place = .inMicrothread) (hsg : s.thread.interruptedForSignal = false)
    (hpg : program = .finished ∨ program = .popping) : (s.replied c program).Ready := by
  have hspec := ended_spec hpg
  refine { h with
    active := hspec.1.symm
    fits := hspec.2.1
    handling := hsg.trans hspec.2.2.symm
    off := fun hx => absurd hpl (h.off hx).2.1
    on := .inl hpl
    override := fun hx => absurd (h.override hx) (by rw [← h.handling, hsg]; exact false_ne_true)
    deferred := ?_ }
  intro hx
  cases hdefer : s.thread.deferReplyForS2C with
  | true => exact hdefer
  | false =>
    simp only [Session.replied, hdefer, false_eq_true, if_false] at hx
    rw [h.deferred hx] at hdefer
    cases hdefer

end Replied

namespace Conversation

variable {s : Session} {base : List (Option Call)} {flux : Option InterruptContext} {order gone : List Call}

variable (h : s.Conversation base flux order gone)

include h

/-- An interrupt_exit comes before the call it returns to. -/
theorem exits_first : ∃ exits others, order = exits ++ others ∧
    (∀ c ∈ exits, c.number = .interruptExit) ∧ ∀ c ∈ others, c.number ≠ .interruptExit := by
  have hawa := h.awaits
  have hfr := h.frames_other
  unfold Awaits at hawa
  split at hawa
  · exact ⟨[], [], hawa.2, nofun, nofun⟩
  · rename_i c _
    exact ⟨[], [c], hawa.2.1, nofun, by simp [hawa.2.2]⟩
  · rename_i e _
    obtain ⟨f, hf, ho, he⟩ := hawa
    refine ⟨[], f.toList ++ [e], ho, nofun, ?_⟩
    cases f <;> simp_all
  · rename_i e r _
    obtain ⟨hf, ho, he⟩ := hawa
    exact ⟨[], [r.call, e], ho, nofun, by simp_all⟩
  · rename_i x _
    obtain ⟨hx, ⟨-, -, ho, -⟩ | ⟨f, hf, ho, -⟩⟩ := hawa
    · exact ⟨[x], [], ho, by simp [hx], nofun⟩
    · refine ⟨[x], f.toList, ho, by simp [hx], ?_⟩
      cases f <;> simp_all

/-- The replies on their way back are in the order of their calls. -/
theorem outgoing_sublist (hd : s.issued.Nodup) : s.outgoing.Sublist gone := by
  have hnd := h.nodup hd
  have hrepl := h.replies
  rw [h.split] at hnd hrepl
  refine sublist_left hrepl fun c hc hmem => ?_
  have hgo : c ∈ gone := h.tokens.mem_iff.2 (mem_append_left _ hc)
  exact (nodup_append.1 hnd).2.2 c hgo c hmem rfl

/-- The reply to the next call goes out after the others. -/
theorem replied (hd : s.issued.Nodup) {c : Call} (hact : s.thread.activeCall = some c) (hc : c.number ≠ .interruptExit)
    (hdef : s.thread.deferredReply = none) (hemplaced : s.emplaced = (s.replied c .finished).emplaced)
    (hflux : ∀ context, flux = some context → context.interruptedCall = none)
    (hsav : s.thread.pendingSavedReply.isSome = true → s.thread.interruptEnterPending = true) :
    (s.replied c .finished).Conversation base flux order (gone ++ [c]) := by
  have hreq := requests_replied hact .finished
  have hout := outgoing_replied hdef c .finished
  refine ⟨?_, h.stack, h.emplaced.trans hemplaced, ?_, ?_, ?_, h.account, h.packets, h.held_other, h.frames_other, h.queued, ?_, ?_,
    nofun⟩
  · exact h.awaits.congr rfl fun x hx => absurd hx (h.not_exiting hreq hc x)
  · rw [append_assoc, singleton_append, ← hreq]
    exact h.split
  · rw [hout, append_assoc]
    exact (h.tokens.append_right _).trans (by rw [append_assoc]; exact perm_append_comm.append_left _)
  · rw [hout, h.split, hreq]
    exact (h.outgoing_sublist hd).append (singleton_sublist.2 mem_cons_self)
  · intro context hx hso
    rw [hflux context hx] at hso
    cases hso
  · exact fun hx => .inl (hsav hx)

end Conversation

namespace Inv

variable {s : Session}

variable {s' : Session}

section

variable (h : s.Inv)

include h

section

variable (hpl : s.place = .inMicrothread)

include hpl

/-- An ordinary call replies. -/
theorem serve {c : Call} (hpg : s.program = .serving c) : (s.reply c .finished).Inv := by
  obtain ⟨base, flux, order, gone, hc⟩ := h.conversation
  obtain ⟨hact, hthread, hsg⟩ : s.thread.activeCall = some c ∧ c.number = .other ∧ s.thread.interruptedForSignal = false :=
    h.ready.at_program hpg
  have hreq := requests_replied hact .finished
  rw [reply_eq_replied hact hsg h.ready.live]
  cases hc.front hreq with
  | enter hx | exit hx =>
    rw [hthread] at hx
    cases hx
  | other _ hgo hrs =>
    obtain ⟨hout, hhe⟩ := hc.nothing hgo
    obtain ⟨hdef, hsav⟩ : s.thread.deferredReply = none ∧ s.thread.pendingSavedReply = none := by
      refine ⟨?_, ?_⟩
      · simp_all [outgoing]
      · simp_all [held]
    obtain rfl : flux = none := hc.flux_eq_none hpg rfl (by rw [hpl]; simp) (hreq ▸ cons_ne_nil _ _)
    refine h.ofServer rfl (h.ready.replied hpl hsg (.inl rfl))
      (hc.replied h.distinct hact (by rw [hthread]; simp) hdef ?_ (by simp) ?_)
    · rw [← hc.emplaced]
      obtain ⟨-, hent⟩ | ⟨e, hrs, -⟩ := hrs
      · simp [emplaced, replied, inInterrupt, hpl, hent]
      · simp only [emplaced, hrs]
        simp [replied, inInterrupt, hpl]
    · rw [hsav]
      simp

/-- An interrupt_enter replies. -/
theorem answer {e : Call} (hpg : s.program = .answering e) (hdef : s.thread.deferredReply = none) :
    (s.reply e .finished).Inv := by
  obtain ⟨base, flux, order, gone, hc⟩ := h.conversation
  obtain ⟨hact, hinterrupts, hsg⟩ : s.thread.activeCall = some e ∧ e.number = .interruptEnter ∧ s.thread.interruptedForSignal = false :=
    h.ready.at_program hpg
  have hreq := requests_replied hact .finished
  rw [reply_eq_replied hact hsg h.ready.live]
  cases hc.front hreq with
  | other hx | exit hx =>
    rw [hinterrupts] at hx
    cases hx
  | enter _ hrs hent =>
    refine h.ofServer rfl (h.ready.replied hpl hsg (.inl rfl)) (hc.replied h.distinct hact (by rw [hinterrupts]; simp) hdef ?_ ?_ ?_)
    · simp only [emplaced, hrs]
      simp [replied, hpg, inInterrupt, hent]
    · rintro context rfl
      exact hc.interruptedCall_eq_none (by simp [Unresolved, hpl, hpg])
    · intro hso
      refine (hc.saved hso).resolve_right ?_
      rw [hpg]
      simp

/-- An interrupt_exit replies, and the interrupt that was settled is left. -/
theorem leave {x : Call} (hpg : s.program = .exiting x) (hdefer : s.thread.deferReplyForS2C = false) :
    (s.reply x .popping).Inv := by
  obtain ⟨base, flux, order, gone, hc⟩ := h.conversation
  obtain ⟨hact, hxt, hsg⟩ : s.thread.activeCall = some x ∧ x.number = .interruptExit ∧ s.thread.interruptedForSignal = false :=
    h.ready.at_program hpg
  have hreq := requests_replied hact .popping
  rw [reply_eq_replied hact hsg h.ready.live]
  cases hc.front hreq with
  | other hx | enter hx =>
    rw [hxt] at hx
    cases hx
  | exit _ hrs hcli hfr hbase hgo =>
    obtain ⟨hout, hhe⟩ := hc.nothing hgo
    obtain ⟨hdef, hsav, hpu⟩ : s.thread.deferredReply = none ∧ s.thread.pendingSavedReply = none ∧ pushesOf s.toServer = [] := by
      refine ⟨?_, ?_, ?_⟩
      · simp_all [outgoing]
      · simp_all [held]
      · simp_all [held]
    obtain rfl : flux = none := hc.flux_eq_none hpg rfl (by rw [hpl]; simp) (hreq ▸ cons_ne_nil _ _)
    obtain ⟨f, base, rfl⟩ := exists_cons_of_ne_nil hbase
    have hout' : (s.replied x .popping).outgoing = [x] := by rw [outgoing_replied hdef, hout]; rfl
    have hhe' : (s.replied x .popping).held (some (settled f)) = f.toList := by
      simp [held, replied, hsav, hpu, settled_calls]
    obtain rfl : order = [x] := by rw [hc.split, hgo, hreq, hrs]; rfl
    refine h.ofServer rfl (h.ready.replied hpl hsg (.inr rfl))
      (show Conversation _ base (some (settled f)) (x :: f.toList) (x :: f.toList) from
      ⟨?_, hc.stack, rfl, ?_, ?_, ?_, ?_, hc.packets, ?_, hc.frames_other, hc.queued, ?_, ?_, ?_⟩)
    · unfold Awaits
      rw [show (s.replied x .popping).client = _ from hcli]
      exact ⟨hxt, .inr ⟨f, hfr, rfl, hrs⟩⟩
    · rw [hrs, append_nil]
    · rw [hout', hhe']
      exact List.Perm.refl _
    · rw [hout']
      exact singleton_sublist.2 mem_cons_self
    · have hcons : (f :: base).reduceOption = f.toList ++ base.reduceOption := by cases f <;> rfl
      have hacc := hc.account
      rw [hcons] at hacc
      exact hacc
    · rw [hhe']
      intro c hmem
      exact hc.frames_other c (by rw [hfr, ← mem_toList.1 hmem]; exact mem_cons_self)
    · intro context hx hso
      cases hx
      cases hso
    · exact fun hso => absurd (show s.thread.pendingSavedReply.isSome = true from hso) (by rw [hsav]; simp)
    · intro _
      refine ⟨?_, ?_⟩
      · simp [replied, hdefer, hdef]
      · rw [hout']
        exact fun c hmem => mem_singleton.1 hmem ▸ hxt

omit hpl in
/-- In an interrupt that is being entered or left, the top context is there. -/
theorem context (hpg : s.program.inInterrupt = true) :
    ∃ base context order gone, s.Conversation base (some context) order gone ∧
    s.thread.interrupts = context :: base.map settled := by
  obtain ⟨base, flux, order, gone, hc⟩ := h.conversation
  obtain ⟨context, rfl⟩ : ∃ context, flux = some context := by
    refine isSome_iff_exists.1 (hc.emplaced.trans ?_)
    simp [emplaced, hpg]
  exact ⟨base, context, order, gone, hc, hc.stack⟩

/-- The context of the interrupt that is left goes, and the reply it has saved is sent. -/
theorem pop (hpg : s.program = .popping) : Inv { s with
    thread := s.thread.popInterrupt.1, toClient := s.toClient ++ s.thread.popInterrupt.2.toList, program := .finished } := by
  obtain ⟨base, context, order, gone, hc, hstack⟩ := h.context (by rw [hpg]; rfl)
  obtain ⟨hdef, hexits⟩ := hc.popping hpg
  have hint : context.interruptedCall = none := hc.interruptedCall_eq_none (by simp [Unresolved, hpl, hpg])
  have hpop : s.thread.popInterrupt = ({ s.thread with interrupts := base.map settled }, context.savedReply) := by
    unfold popInterrupt
    rw [hstack]
    rfl
  rw [hpop]
  have hout : outgoing { s with
      thread := { s.thread with interrupts := base.map settled }
      toClient := s.toClient ++ context.savedReply.toList
      program := .finished } =
        s.outgoing ++ context.savedReply.toList.map (·.call) := by
    simp [outgoing, hdef]
  refine h.ofServer rfl ?_ (show Conversation _ base none order gone from
    ⟨?_, rfl, ?_, hc.split, ?_, ?_, hc.account, hc.packets, ?_,
    hc.frames_other, hc.queued, by simp, ?_, by simp⟩)
  · exact { h.ready with
      active := h.ready.active.trans (by rw [hpg]; rfl)
      fits := trivial
      handling := h.ready.handling.trans (by rw [hpg]; rfl)
      off := fun hx => absurd hpl (h.ready.off hx).2.1
      on := .inl hpl
      override := fun hx => absurd (h.ready.override hx) (by rw [hpg]; decide) }
  · exact hc.awaits.congr rfl fun _ _ => rfl
  · -- an interrupt_enter that was processed would be neither an interrupt_exit nor held
    have hnot : ¬(s.client.isEntering = true ∧ s.requests = []) := by
      rintro ⟨hent, hrq⟩
      obtain ⟨e, f, -, ho, he⟩ := hc.entering hent
      have hsplit := hc.split
      rw [hrq, append_nil, ho] at hsplit
      have hmem : e ∈ gone := by simp [← hsplit]
      rcases mem_append.1 (hc.tokens.mem_iff.1 hmem) with hmem | hmem
      · exact absurd (he.symm.trans (hexits e hmem)) (by simp)
      · exact absurd (he.symm.trans (hc.held_other e hmem)) (by simp)
    have hfalse : (s.client.isEntering && decide (s.requests = [])) = false := by
      simpa using hnot
    exact (by rw [hpl, hfalse]; rfl : false = (false || (decide (s.place = .starting) && s.thread.interruptEnterPending) ||
      (s.client.isEntering && decide (s.requests = []))))
  · rw [hout]
    simpa [held, calls, hint] using hc.tokens
  · rw [hout]
    obtain ⟨exits, others, ho, hexits', hoth⟩ := hc.exits_first
    have hfront : s.outgoing.Sublist exits := sublist_left (ho ▸ hc.replies) fun c hmem hmem' => hoth c hmem' (hexits c hmem)
    cases hsav : context.savedReply with
    | none =>
      rw [ho]
      exact (append_nil s.outgoing).symm ▸ hfront.trans (sublist_append_left _ _)
    | some r =>
      have hhe : r.call ∈ s.held (some context) := by simp [held, calls, hsav]
      have hmem : r.call ∈ order := by
        rw [hc.split]
        exact mem_append_left _ (hc.tokens.mem_iff.2 (mem_append_right _ hhe))
      rw [ho] at hmem ⊢
      refine hfront.append (singleton_sublist.2 ((mem_append.1 hmem).resolve_left fun hmem => ?_))
      exact absurd ((hexits' _ hmem).symm.trans (hc.held_other _ hhe)) (by simp)
  · intro c hmem
    exact hc.held_other c (mem_append_right _ hmem)
  · intro hso
    refine .inl ((hc.saved hso).resolve_right ?_)
    rw [hpg]
    simp

end

/-- The interrupt takes the reply that was pushed back before, and resumes the interrupted call. -/
theorem beginInterrupt {e : Call} (hpg : s.program = .entering e) :
    ∃ t, s.thread.beginInterrupt = .ok t ∧ Inv { s with thread := t, program := .handling e } := by
  obtain ⟨base, context, order, gone, hc, hstack⟩ := h.context (by rw [hpg]; rfl)
  have hrdy : Ready { s with thread := { s.thread with interruptedForSignal := true }, program := .handling e } :=
    { h.ready with
      active := h.ready.active.trans (by rw [hpg]; rfl)
      fits := (h.ready.at_program hpg).2.1
      handling := rfl
      off := fun hx => ⟨(h.ready.off hx).1, (h.ready.off hx).2.1, rfl⟩
      on := h.ready.on.imp_right fun hx => .inl (hx.resolve_right (by rw [hpg]; simp))
      override := fun _ => rfl }
  obtain hsav | ⟨r, hsav⟩ := eq_none_or_eq_some s.thread.pendingSavedReply
  · unfold Thread.beginInterrupt
    rw [hsav]
    refine ⟨_, rfl, h.ofServer rfl { hrdy with override := fun _ => rfl }
      (hc.same rfl rfl hc.packets rfl hsav.symm rfl rfl ?_ (fun _ => .inl)
        (fun _ _ _ _ => .inr (.inr ⟨e, rfl⟩)) ?_ (by simp))⟩
    · exact emplaced_congr rfl rfl (by rw [hpg]; rfl) Iff.rfl
    · rw [hsav]
      simp
  · obtain ⟨hint, hno⟩ : context.interruptedCall = none ∧ context.savedReply = none := by
      have hlen := hc.length_held_le
      simp only [held, hsav, length_append, toList_some, map_singleton, length_singleton] at hlen
      have hnil : [context].flatMap calls = [] := eq_nil_of_length_eq_zero (by omega)
      simpa [calls] using hnil
    refine ⟨_, beginInterrupt_of_saved hsav hstack hint hno,
      h.ofServer rfl { hrdy with override := by simp }
      (hc.moved (some ⟨none, some r⟩) rfl rfl ?_ ?_ hc.packets rfl rfl (fun _ => .inl) ?_ (by simp)
        (by simp))⟩
    · refine hc.emplaced.trans (Eq.symm (emplaced_congr rfl rfl ?_ Iff.rfl))
      rw [hpg]
      rfl
    · simp [held, calls, hint, hno, hsav]
    · intro context hx hso
      cases hx
      cases hso

/-- The interrupted call replies, and the reply is saved. -/
theorem saveReply {e x : Call} (hpg : s.program = .handling e) (hx : s.thread.expectedCall = some x) :
    (s.reply x (.handling e)).Inv := by
  obtain ⟨base, context, order, gone, hc, hstack⟩ := h.context (by rw [hpg]; rfl)
  have hsg : s.thread.interruptedForSignal = true := (h.ready.at_program hpg).2.2
  have hint : context.interruptedCall = some x := by
    unfold expectedCall at hx
    simpa [hsg, hstack] using hx
  have hno : context.savedReply = none := by
    have hlen := hc.length_held_le
    cases hsav : context.savedReply with
    | none => rfl
    | some r =>
      simp [held, calls, hint, hsav] at hlen
  have hrep : s.thread.pushCallReply x = .ok ({ s.thread with interrupts := ⟨none, some ⟨x⟩⟩ :: base.map settled }, none) := by
    unfold pushCallReply deactivateCall
    simp [hx, hsg, hstack, hno, bind, Except.bind]
  unfold reply
  rw [hrep]
  refine h.ofServer rfl ?_
    (hc.moved (some ⟨none, some ⟨x⟩⟩) rfl rfl ?_ ?_ hc.packets rfl ?_ (fun _ => .inl) ?_ ?_ (by simp [attempt]))
  · rw [← hpg]
    exact { h.ready with }
  · refine hc.emplaced.trans (Eq.symm (emplaced_congr rfl rfl ?_ Iff.rfl))
    rw [hpg]
    rfl
  · simp [held, attempt, calls, hint, hno]
  · simp [outgoing, attempt]
  · intro context hx hso
    cases hx
    cases hso
  · intro hso
    refine .inl ((hc.saved hso).resolve_right ?_)
    rw [hpg]
    simp

/-- The interrupted call is done, and the interrupt_enter replies next. -/
theorem endInterrupt {e : Call} (hpg : s.program = .handling e) (hx : s.thread.expectedCall = none) :
    Inv { s with thread := s.thread.endInterrupt, program := .answering e } := by
  obtain ⟨base, context, order, gone, hc, hstack⟩ := h.context (by rw [hpg]; rfl)
  have hsg : s.thread.interruptedForSignal = true := (h.ready.at_program hpg).2.2
  have hint : context.interruptedCall = none := by
    unfold expectedCall at hx
    simpa [hsg, hstack] using hx
  have hinter : s.thread.endInterrupt.interrupts = s.thread.interrupts := by
    obtain ⟨interruptedCall, savedReply⟩ := context
    cases hint
    simp [Thread.endInterrupt, hstack]
  refine h.ofServer rfl ?_ (hc.same rfl rfl hc.packets hinter rfl rfl rfl ?_ (fun _ => .inl) ?_ ?_ nofun)
  · exact { h.ready with
      active := h.ready.active.trans (by rw [hpg]; rfl)
      fits := (h.ready.at_program hpg).2.1
      handling := rfl
      off := fun hx => ⟨(h.ready.off hx).1, (h.ready.off hx).2.1, rfl⟩
      on := h.ready.on.imp_right fun hx => .inl (hx.resolve_right (by rw [hpg]; nofun))
      override := nofun }
  · exact emplaced_congr rfl rfl (by rw [hpg]; rfl) Iff.rfl
  · intro _ hx hso
    cases hx
    rw [hint] at hso
    cases hso
  · intro _ hx
    refine .inl (hx.resolve_right ?_)
    rw [hpg]
    nofun

/-- The microthread is back at the top. -/
theorem finish (hpl : s.place = .inMicrothread) (hpg : s.program = .finished) : Inv { s with place := .atTop } := by
  obtain ⟨base, flux, order, gone, hc⟩ := h.conversation
  refine h.ofServer rfl ?_ (hc.goto hpl nofun nofun rfl)
  exact { h.ready with
    running := iff_of_true (h.ready.running.2 (by rw [hpl]; nofun)) nofun
    off := fun hx => absurd hpl (h.ready.off hx).2.1
    on := .inr (.inr hpg)
    starting := nofun }

theorem run (hok : Undisturbed s .run) (hs : s.run = some s') : s'.Inv := by
  obtain ⟨hpl, hs⟩ := ite_none_right_eq_some.1 hs
  generalize hpg : s.program = program at hs
  cases program with
  | serving c =>
    cases hs
    exact h.serve hpl hpg
  | entering e =>
    obtain ⟨t, ht, hinv⟩ := h.beginInterrupt hpg
    simp only [ht, attempt] at hs
    cases hs
    exact hinv
  | handling e =>
    obtain hx | ⟨x, hx⟩ := eq_none_or_eq_some s.thread.expectedCall
    · simp only [hx] at hs
      cases hs
      exact h.endInterrupt hpg hx
    · simp only [hx] at hs
      cases hs
      exact h.saveReply hpg hx
  | answering e =>
    cases hs
    refine h.answer hpl hpg ?_
    by_contra hso
    have hdefer := h.ready.deferred (isSome_iff_ne_none.2 hso)
    have hok' := hok hdefer
    rw [hpg] at hok'
    exact hso hok'
  | exiting x =>
    cases hs
    refine h.leave hpl hpg (eq_false_iff.2 fun hdefer => ?_)
    have hok' := hok hdefer
    rw [hpg] at hok'
    exact hok'
  | popping =>
    cases hs
    exact h.pop hpl hpg
  | finished =>
    cases hs
    exact hpg ▸ h.finish hpl hpg

/-- The microthread suspends in a call that has not replied. -/
theorem suspend {continuationCallback : Bool} (hs : s.suspend continuationCallback = some s') : s'.Inv := by
  obtain ⟨base, flux, order, gone, hc⟩ := h.conversation
  obtain ⟨hpl, hso, rfl⟩ := suspend_some hs
  refine h.ofServer rfl ?_ (hc.goto hpl nofun nofun rfl)
  exact { h.ready with
    running := iff_of_true (h.ready.running.2 (by rw [hpl]; nofun)) nofun
    off := fun _ => ⟨nofun, nofun, hso⟩
    on := .inr (.inl rfl)
    starting := nofun
    continuation := fun _ => rfl }

theorem deferReplies : Inv { s with thread := { s.thread with deferReplyForS2C := true } } := by
  obtain ⟨base, flux, order, gone, hc⟩ := h.conversation
  exact h.ofServer rfl { h.ready with deferred := fun _ => rfl }
    (hc.same rfl rfl hc.packets rfl rfl rfl rfl rfl (fun _ => .inl) (fun _ _ _ => id) (fun _ => id)
      fun hp => ⟨hp, id⟩)

/-- The reply that was deferred is sent after the others. -/
theorem endDeferReplies : Inv { s with
    thread := s.thread.endDeferReply.1, toClient := s.toClient ++ s.thread.endDeferReply.2.toList } := by
  obtain ⟨base, flux, order, gone, hc⟩ := h.conversation
  unfold endDeferReply
  cases hdefer : s.thread.deferReplyForS2C with
  | false =>
    refine h.ofServer rfl { h.ready with }
      (hc.same rfl rfl hc.packets rfl rfl rfl ?_ rfl (fun _ => .inl) (fun _ _ _ => id) (fun _ => id)
        fun hp => ⟨hp, id⟩)
    simp [outgoing]
  | true =>
    refine h.ofServer rfl { h.ready with deferred := by simp }
      (hc.same rfl rfl hc.packets rfl rfl rfl ?_ rfl (fun _ => .inl) (fun _ _ _ => id) (fun _ => id)
        fun hp => ⟨hp, fun _ => rfl⟩)
    simp [outgoing]

/-! ## Every step -/

theorem clientReceive (hs : s.clientReceive = some s') : s'.Inv := by
  unfold Session.clientReceive at hs
  split at hs
  · rename_i c r toClient hcl htc
    obtain ⟨hr, hinv⟩ := h.receiveWaiting hcl htc
    rw [if_pos hr] at hs
    cases hs
    exact hinv
  · rename_i e r toClient hcl htc
    by_cases hr : r.call = e
    · rw [if_pos hr] at hs
      cases hs
      exact h.receiveEntered hcl htc hr
    · rw [if_neg hr] at hs
      cases hs
      exact h.push hcl htc hr
  · rename_i x r toClient hcl htc
    obtain ⟨hr, hinv⟩ := h.receiveExiting hcl htc
    rw [if_pos hr] at hs
    cases hs
    exact hinv
  · cases hs

theorem act {a : SessionAction} (hok : Undisturbed s a) (hs : s.act a = some s') : s'.Inv := by
  cases a with
  | call =>
    obtain ⟨hcl, rfl⟩ := of_guarded hs
    exact h.call hcl
  | signal =>
    simp only [Session.act] at hs
    split at hs
    · rename_i hcl
      cases hs
      exact h.signal hcl
    · rename_i x hcl
      cases hs
      exact h.signal hcl
    · cases hs
  | exit =>
    obtain ⟨⟨hcl, hne⟩, rfl⟩ := of_guarded hs
    exact h.exit hcl hne
  | clientReceive => exact h.clientReceive hs
  | clientPushed =>
    simp only [Session.act] at hs
    split at hs
    · rename_i hcl
      obtain ⟨hpipe, rfl⟩ := of_guarded hs
      exact h.pushed hcl hpipe
    · cases hs
  | receive => exact h.receive hok hs
  | work => exact h.work hok hs
  | run => exact h.run hok hs
  | suspend continuationCallback => exact h.suspend hs
  | deferReplies =>
    obtain ⟨-, rfl⟩ := of_guarded hs
    exact h.deferReplies
  | endDeferReplies =>
    cases hs
    exact h.endDeferReplies

/-! ## What follows -/

theorem once : (s.inFlight ++ s.answered).Perm s.issued := by
  obtain ⟨base, flux, order, gone, hc⟩ := h.conversation
  have hflig : s.inFlight.Perm (order ++ base.reduceOption) := by
    unfold inFlight
    rw [hc.stack, flatMap_append, flatMap_settled, hc.split]
    have htok := hc.tokens
    unfold held at htok
    rw [perm_iff_count] at htok ⊢
    intro c
    have hc' := htok c
    simp only [count_append] at hc' ⊢
    omega
  exact (hflig.append_right _).trans hc.account

/-- When the server has nothing left to do, it holds only the replies to the calls in which the client is interrupted. -/
theorem sent {frame : Option Call} (hcl : s.client = resumedActivity frame) (hreq : s.requests = [])
    (hpg : s.program = .finished) : (s.outgoing ++ s.frames.reduceOption ++ s.answered).Perm s.issued := by
  obtain ⟨base, flux, order, gone, hc⟩ := h.conversation
  obtain ⟨-, hpen, -, -⟩ := requests_eq_nil hreq
  have hpd := interruptEnterPending_of_none hpen
  obtain ⟨hent, hfr⟩ : s.client.isEntering = false ∧ s.frames = base := by
    have hawa := hc.awaits
    unfold Awaits at hawa
    rw [hcl] at hawa ⊢
    cases frame <;> exact ⟨rfl, hawa.1⟩
  obtain rfl : flux = none := by
    have hemplaced := hc.emplaced
    rw [emplaced, hpg, hpd, hent, Bool.and_false] at hemplaced
    exact not_isSome_iff_eq_none.1 (eq_false_iff.1 hemplaced)
  have hsav : s.thread.pendingSavedReply = none := hc.pendingSavedReply_eq_none (by simp [Unentered, hpd, hpg])
  have hhe : s.held none = [] := by
    simp [held, hsav, (hc.packets_of_not_entering hent).2]
  have horder : order.Perm s.outgoing := by
    have htok := hc.tokens
    rw [hhe, append_nil] at htok
    rw [hc.split, hreq, append_nil]
    exact htok
  rw [hfr]
  exact ((horder.symm.append_right _).append_right _).trans hc.account

end

end Inv

/-- If no pushed reply overtakes its interrupt_enter, replies are not deferred one over another or in front of an
interrupt_exit, and `doWork` does not end with a pending call and a queued interrupt_enter, every reply is delivered exactly
once. -/
theorem replies_delivered_of_undisturbed {s : Session} (h : machine.Reaches Undisturbed s) : s.DeliveredOnce := by
  have hinv : s.Inv := by
    refine Machine.Reaches.invariant inv_init ?_ h
    intro s a s' hs hok hst
    exact hs.act hok (ite_none_left_eq_some.1 hst).2
  exact ⟨hinv.ready.up, hinv.ready.expected, hinv.once, hinv.distinct, fun _ => hinv.sent⟩

/-- A call replies; a signal reaches the client before it takes the reply. It pushes the reply back, and takes it after the
interrupt. -/
def pushedReply : List SessionAction :=
  [.call, .receive, .work, .work, .work, .run, .signal, .clientReceive, .receive, .receive, .clientPushed, .run, .work, .work,
    .work, .work, .run, .run, .run, .clientReceive, .exit, .receive, .run, .work, .work, .work, .work, .run, .clientReceive,
      .run, .clientReceive]

/-- The client has taken the replies of interrupt_enter, interrupt_exit and then of the interrupted call. -/
theorem pushedReply_delivered : ∃ s, machine.runOk Undisturbed init pushedReply = some s ∧
    s.answered = [⟨1, .interruptEnter⟩, ⟨2, .interruptExit⟩, ⟨0, .other⟩] ∧ s.DeliveredOnce := by
  refine (exists_of_runOk ?_).imp
    fun s h => ⟨h.1, h.2, replies_delivered_of_undisturbed (reaches_of_runOk h.1)⟩
  decide

/-- The interrupt_enter is received while the call it interrupts is pending, and queued. The call replies, the client pushes
the reply back, and the server receives it before the microthread is back at the top. -/
def overtakingPush : List SessionAction :=
  [.call, .receive, .signal, .receive, .work, .work, .work, .run, .clientReceive, .receive]

/-- There is no interrupt to save the reply for, and the exception is not caught. -/
theorem replies_delivered_false : ¬∀ s, machine.Reachable s → s.DeliveredOnce := by
  intro h
  obtain ⟨s, hs, habor⟩ := exists_reachable_of_run (M := machine) overtakingPush
    (P := fun s => s.aborted = some "Client tried to push reply outside of interrupt") (by decide)
  have hup := (h s hs).up
  rw [habor] at hup
  cases hup

end Session

end Osxie.Server
