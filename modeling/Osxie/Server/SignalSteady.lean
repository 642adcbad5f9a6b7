import Osxie.Server.SignalStates

/-!
# The server, with one call at a time

The client has one call out at a time, but for an interrupt_enter that it may send while it waits for an ordinary call. What
the server is then like between two steps is `Steady`. Every step of the server keeps it; what a step does besides to the
unanswered calls and to the contexts of the thread is `Keeps`.
-/

namespace Osxie.Server

open List Option Thread Program

namespace SignalStates

/-- The calls of a client thread that are not answered: an ordinary call and an interrupt_enter that interrupts it, or one
call. -/
def OneAtATime (calls : List Call) : Prop :=
  calls = [] ∨ (∃ c, calls = [c]) ∨ ∃ c e, calls = [c, e] ∧ c.number = .other ∧ e.number = .interruptEnter

theorem OneAtATime.tail {c : Call} {calls : List Call} (h : OneAtATime (c :: calls)) : OneAtATime calls := by
  rcases h with h | ⟨d, h⟩ | ⟨d, e, h, _, _⟩
  · cases h
  · cases h
    exact .inl rfl
  · cases h
    exact .inr (.inl ⟨e, rfl⟩)

/-- Behind another call there is at most an interrupt_enter, and that call is an ordinary one. -/
theorem OneAtATime.second {c d : Call} {calls : List Call} (h : OneAtATime (c :: d :: calls)) :
    c.number = .other ∧ d.number = .interruptEnter ∧ calls = [] := by
  rcases h with h | ⟨e, h⟩ | ⟨e, f, h, he, hf⟩
  · cases h
  · cases h
  · cases h
    exact ⟨he, hf, rfl⟩

/-- How the worker, the microthread and the calls that are not answered are related. -/
structure Steady (s : Session) : Prop where
  active : s.thread.activeCall = s.program.call
  fits : s.program.Fits
  handling : s.thread.interruptedForSignal = s.program.isHandling
  off : s.thread.suspended = true → s.place ≠ .starting ∧ s.place ≠ .inMicrothread ∧ s.program.call.isSome = true
  on : s.place = .inMicrothread ∨ s.thread.suspended = true ∨ s.program = .finished
  starting : s.place = .starting → s.thread.pendingCall.isSome = true
  override : s.thread.pendingCallOverride = true → s.program.isHandling = true
  queued : ∀ c ∈ s.thread.pendingInterrupts, c.number = .interruptEnter
  oneAtATime : OneAtATime s.requests

def answering (s : Session) : Bool :=
  match s.program with
  | .answering _ => true
  | _ => false

def numbered (number : CallNumber) (calls : List Call) : Nat := calls.countP (·.number = number)

@[simp] theorem numbered_append (number : CallNumber) (l l' : List Call) :
    numbered number (l ++ l') = numbered number l + numbered number l' := countP_append

theorem numbered_cons_self {number : CallNumber} {c : Call} (hc : c.number = number) (l : List Call) :
    numbered number (c :: l) = numbered number l + 1 :=
  countP_cons_of_pos (by simpa using hc)

theorem numbered_cons_of_ne {number : CallNumber} {c : Call} (hc : c.number ≠ number) (l : List Call) :
    numbered number (c :: l) = numbered number l :=
  countP_cons_of_neg (by simpa using hc)

/-- A step of the server that keeps its two stacks in step: it answers no interrupt call, and a context comes or goes with the
scheduling of an interrupt_enter or the end of an interrupt_exit. -/
structure Keeps (s s' : Session) : Prop where
  steady : Steady s'
  issued : s'.issued = s.issued
  requests : ∀ number ≠ .other, numbered number s'.requests = numbered number s.requests
  answering : answering s' = answering s
  depth : s'.thread.interrupts.length + (entering s).toNat + (leaving s).toNat =
    s.thread.interrupts.length + (entering s').toNat + (leaving s').toNat

/-- Two threads are alike in what the discipline is about. -/
structure Alike (t t' : Thread) : Prop where
  active : t'.activeCall = t.activeCall
  signal : t'.interruptedForSignal = t.interruptedForSignal
  suspended : t'.suspended = t.suspended
  pending : t'.pendingCall = t.pendingCall
  override : t'.pendingCallOverride = t.pendingCallOverride
  queue : t'.pendingInterrupts = t.pendingInterrupts
  depth : t'.interrupts.length = t.interrupts.length

section Server

variable {s : Session}

variable {s' : Session} {p : Call} {t : Thread} {toServer : List Packet} {c : Call}

/-- A step that leaves the place, the program and the unanswered calls as they are. -/
theorem Keeps.of_same (hste : Steady s') (hiss : s'.issued = s.issued) (hreq : s'.requests = s.requests)
    (hpg : s'.program = s.program) (hent : entering s' = entering s)
    (hdep : s'.thread.interrupts.length = s.thread.interrupts.length) : Keeps s s' where
  steady := hste
  issued := hiss
  requests _ _ := by rw [hreq]
  answering := by simp only [SignalStates.answering, hpg]
  depth := by simp only [hdep, hent, leaving, hpg]

variable (h : Steady s)

include h

theorem Steady.fits_at {p : Program} (hpg : s.program = p) : p.Fits := hpg ▸ h.fits

/-- An exception changes nothing but that the server is down. -/
theorem Steady.throw (message : String) : Keeps s (s.throw message) := .of_same { h with } rfl rfl rfl rfl rfl

/-- With a call pending, what is active is an ordinary call that an interrupt_enter interrupts. -/
theorem Steady.active_of_pending (hp : s.thread.pendingCall = some p) :
    s.thread.activeCall = none ∨ ∃ x, s.thread.activeCall = some x ∧ x.number = .other ∧ p.number = .interruptEnter := by
  cases hx : s.thread.activeCall with
  | none => exact .inl rfl
  | some x =>
    have hone := h.oneAtATime
    simp only [Session.requests, hx, hp, toList_some, cons_append] at hone
    exact .inr ⟨x, rfl, hone.second.1, hone.second.2.1⟩

/-- Outside of the microthread a program without an active call is finished. -/
theorem Steady.finished_of_none (hpl : s.place ≠ .inMicrothread) (hx : s.thread.activeCall = none) :
    s.program = .finished ∧ s.thread.suspended = false := by
  have hca : s.program.call = none := h.active.symm.trans hx
  have hsu : s.thread.suspended = false := by
    by_contra hs
    have := (h.off (by simpa using hs)).2.2
    rw [hca] at this
    cases this
  rcases h.on with hin | hs | hf
  · exact absurd hin hpl
  · rw [hsu] at hs
    cases hs
  · exact ⟨hf, hsu⟩

/-- With a call pending, no interrupt call is being processed outside of the microthread. -/
theorem Steady.program_of_pending (hpl : s.place ≠ .inMicrothread) (hp : s.thread.pendingCall = some p) :
    s.program = .finished ∨ ∃ x, s.program = .serving x ∧ p.number = .interruptEnter := by
  rcases h.active_of_pending hp with hx | ⟨x, hx, hoth, hnt⟩
  · exact .inl (h.finished_of_none hpl hx).1
  · exact .inr ⟨x, eq_serving_of_other h.fits (h.active.symm.trans hx) hoth, hnt⟩

/-- A step of the thread that touches none of what is related. -/
theorem Steady.thread (ht : Alike s.thread t) {toClient : List Reply} {pipe : Bool}
    (hcal : Session.callsOf toServer = Session.callsOf s.toServer) :
    Keeps s { s with thread := t, toServer := toServer, toClient := toClient, pipe := pipe } := by
  have hreq :
      ({ s with thread := t, toServer := toServer, toClient := toClient, pipe := pipe } : Session).requests = s.requests := by
    simp only [Session.requests, ht.active, ht.pending, ht.queue, hcal]
  refine .of_same ?_ rfl hreq rfl ?_ ht.depth
  · exact { h with
      active := ht.active.trans h.active
      handling := ht.signal.trans h.handling
      off := fun hs => h.off (ht.suspended.symm.trans hs)
      on := by rw [ht.suspended]; exact h.on
      starting := by rw [ht.pending]; exact h.starting
      override := by rw [ht.override]; exact h.override
      queued := by rw [ht.queue]; exact h.queued
      oneAtATime := hreq ▸ h.oneAtATime }
  · simp only [entering, interruptEnterPending, ht.pending]

/-! ### The receive loop -/

/-- A call that finds none pending finds none queued either. -/
theorem Steady.queue_eq_nil (hts : s.toServer = .call c :: toServer) (hp : s.thread.pendingCall = none) :
    s.thread.pendingInterrupts = [] := by
  cases hq : s.thread.pendingInterrupts with
  | nil => rfl
  | cons q queue =>
    have hqent : q.number = .interruptEnter := h.queued q (by simp [hq])
    have hone := h.oneAtATime
    cases hx : s.thread.activeCall with
    | none =>
      simp only [Session.requests, hx, hp, hq, hts, toList_none, nil_append, Session.callsOf_call] at hone
      cases queue with
      | nil =>
        rw [hone.second.1] at hqent
        cases hqent
      | cons q' queue => exact absurd hone.second.2.2 (by simp)
    | some x =>
      simp only [Session.requests, hx, hp, hq, hts, toList_none, toList_some, append_nil, cons_append,
        nil_append, Session.callsOf_call] at hone
      exact absurd hone.second.2.2 (by simp)

theorem Steady.receiveCall (hts : s.toServer = .call c :: toServer) :
    Keeps s (s.attempt (s.thread.setPendingCall c) fun t => { s with thread := t, toServer := toServer }) := by
  unfold setPendingCall
  split
  · split
    · rename_i hc
      -- the interrupt_enter is queued behind the call that is pending
      have hreq : ({ s with
          thread := { s.thread with pendingInterrupts := s.thread.pendingInterrupts ++ [c] }
          toServer := toServer } : Session).requests = s.requests := by
        simp [Session.requests, hts]
      refine .of_same ?_ rfl hreq rfl rfl rfl
      refine { h with queued := fun d hd => ?_, oneAtATime := hreq ▸ h.oneAtATime }
      rcases mem_append.1 hd with hd | hd
      · exact h.queued d hd
      · rw [mem_singleton.1 hd]
        exact hc
    · exact h.throw _
  · rename_i hp
    have hp : s.thread.pendingCall = none := by simpa using hp
    have hstar : s.place ≠ .starting := fun hx => by
      have := h.starting hx
      rw [hp] at this
      cases this
    have hreq : ({ s with thread := { s.thread with pendingCall := some c }, toServer := toServer } : Session).requests =
        s.requests := by
      simp [Session.requests, hts, hp, h.queue_eq_nil hts hp]
    refine .of_same ?_ rfl hreq rfl ?_ rfl
    · exact { h with starting := fun _ => rfl, oneAtATime := hreq ▸ h.oneAtATime }
    · simp [entering, Session.attempt, hstar]

omit h in
theorem alike_savePushedReply {t t' : Thread} {r : Reply} (ht : t.savePushedReply r = .ok t') : Alike t t' := by
  unfold savePushedReply at ht
  split at ht
  · cases ht
    exact ⟨rfl, rfl, rfl, rfl, rfl, rfl, rfl⟩
  · split at ht
    · cases ht
    rename_i context contexts hstack
    split at ht <;> cases ht
    exact ⟨rfl, rfl, rfl, rfl, rfl, rfl, by simp [hstack]⟩

theorem Steady.receive (hs : s.receive = some s') : Keeps s s' := by
  unfold Session.receive at hs
  split at hs
  · cases hs
  · rename_i c toServer hts
    exact some.inj hs ▸ h.receiveCall hts
  · rename_i r toServer hts
    cases hs
    cases ht : s.thread.savePushedReply r with
    | error message => exact h.throw message
    | ok t => exact h.thread (alike_savePushedReply ht) (by simp [hts])

/-! ### The worker -/

omit h in
/-- What is done from `doneWorking` on moves at most a queued interrupt_enter to where it is pending. -/
theorem doneWorking_spec {t t' : Thread} {scheduled : Bool} (ht : t.doneWorking = .ok (t', scheduled)) :
    t'.activeCall = t.activeCall ∧ t'.interruptedForSignal = t.interruptedForSignal ∧ t'.suspended = t.suspended ∧
      t'.pendingCallOverride = t.pendingCallOverride ∧ t'.interrupts = t.interrupts ∧
      t'.pendingCall.toList ++ t'.pendingInterrupts = t.pendingCall.toList ++ t.pendingInterrupts ∧
      ∀ c ∈ t'.pendingInterrupts, c ∈ t.pendingInterrupts := by
  unfold doneWorking notifyDead at ht
  dsimp only at ht
  repeat' split at ht
  all_goals cases ht
  all_goals simp_all

/-- The worker moves outside of the microthread. -/
theorem Steady.goto (hin : s.place ≠ .inMicrothread) (hst : s.place ≠ .starting) (place : Place) (hst' : place ≠ .starting)
    (hin' : place ≠ .inMicrothread) (hact : t.activeCall = s.thread.activeCall)
    (hsg : t.interruptedForSignal = s.thread.interruptedForSignal) (hsu : t.suspended = s.thread.suspended)
    (hove : t.pendingCallOverride = s.thread.pendingCallOverride) (hdep : t.interrupts = s.thread.interrupts)
    (hpen : t.pendingCall.toList ++ t.pendingInterrupts = s.thread.pendingCall.toList ++ s.thread.pendingInterrupts)
    (hque : ∀ c ∈ t.pendingInterrupts, c ∈ s.thread.pendingInterrupts) : Keeps s { s with thread := t, place := place } := by
  have hreq : ({ s with thread := t, place := place } : Session).requests = s.requests := by
    simp only [Session.requests]
    rw [hact, append_assoc s.thread.activeCall.toList t.pendingCall.toList, hpen, ← append_assoc]
  refine .of_same ?_ rfl hreq rfl ?_ (by rw [hdep])
  · exact { h with
      active := hact.trans h.active
      handling := hsg.trans h.handling
      off := fun hs => ⟨hst', hin', (h.off (hsu.symm.trans hs)).2.2⟩
      on := by
        rw [hsu]
        exact .inr (h.on.resolve_left hin)
      starting := fun hx => absurd hx hst'
      override := by rw [hove]; exact h.override
      queued := fun c hc => h.queued c (hque c hc)
      oneAtATime := hreq ▸ h.oneAtATime }
  · simp [entering, hst, hst']

theorem Steady.doneWorking (hin : s.place ≠ .inMicrothread) (hst : s.place ≠ .starting)
    (ht : t = s.thread ∨ t = { s.thread with terminating := true }) : Keeps s (s.doneWorking t) := by
  unfold Session.doneWorking
  cases hd : t.doneWorking with
  | error message => exact h.throw message
  | ok r =>
    obtain ⟨h1, h2, h3, h4, h5, h6, h7⟩ := doneWorking_spec hd
    rcases ht with rfl | rfl
    · exact h.goto hin hst .outside nofun nofun h1 h2 h3 h4 h5 h6 h7
    · exact h.goto hin hst .outside nofun nofun h1 h2 h3 h4 h5 h6 h7

section

variable (hpl : s.place = .entered)

include hpl

/-- A pending interrupt_enter gets its context when it is scheduled; no interrupt call is under way then. -/
theorem Steady.emplace (hp : s.thread.pendingCall = some p) (hc : p.number = .interruptEnter) :
    Keeps s { s with
      thread := { s.thread.emplaceInterrupt with suspended := false }
      place := .starting
      program := .finished } := by
  have hpg := h.program_of_pending (by rw [hpl]; simp) hp
  have hset : s.program.isHandling = false ∧ inEnter s.program = false ∧ leaving s = false ∧ answering s = false := by
    rcases hpg with hf | ⟨x, hx, _⟩
    · simp [leaving, answering, hf, isHandling, inEnter]
    · simp [leaving, answering, hx, isHandling, inEnter]
  have hpd : ({ s.thread.emplaceInterrupt with suspended := false } : Thread).interruptEnterPending = true := by
    simp [interruptEnterPending, emplaceInterrupt, hp, hc]
  have hreq : s.requests = s.thread.activeCall.toList ++ ({ s with
      thread := { s.thread.emplaceInterrupt with suspended := false }
      place := .starting
      program := .finished } : Session).requests := by
    simp [Session.requests, emplaceInterrupt]
  refine ⟨?_, rfl, ?_, ?_, ?_⟩
  · exact { h with
      active := rfl
      fits := trivial
      handling := h.handling.trans hset.1
      off := by simp
      on := .inr (.inr rfl)
      starting := fun _ => by simp [emplaceInterrupt, hp]
      override := fun hx => by
        rw [h.override hx] at hset
        cases hset.1
      oneAtATime := by
        have hone := h.oneAtATime
        rw [hreq] at hone
        cases hx : s.thread.activeCall with
        | none =>
          rw [hx] at hone
          exact hone
        | some x =>
          rw [hx] at hone
          exact hone.tail }
  · intro number hnumber
    rw [hreq]
    rcases h.active_of_pending hp with hx | ⟨x, hx, hoth, _⟩
    · rw [hx]
      rfl
    · rw [hx]
      exact (numbered_cons_of_ne (by rw [hoth]; exact hnumber.symm) _).symm
  · exact hset.2.2.2.symm
  · simp only [entering, leaving, hset.2.1, hpl, hpd]
    have hleav := hset.2.2.1
    simp only [leaving] at hleav
    simp [hleav, emplaceInterrupt, inEnter]

theorem Steady.startCall (hp : s.thread.pendingCall = some p) (hc : p.number ≠ .interruptEnter) :
    Keeps s { s with thread := { s.thread with suspended := false }, place := .starting, program := .finished } := by
  have hin : s.place ≠ .inMicrothread := by
    rw [hpl]
    nofun
  have hact : s.thread.activeCall = none := by
    rcases h.active_of_pending hp with hx | ⟨_, _, _, hnt⟩
    · exact hx
    · exact absurd hnt hc
  obtain ⟨hpg, _⟩ := h.finished_of_none hin hact
  refine .of_same ?_ rfl rfl hpg.symm ?_ rfl
  · exact { h with
      active := hact
      fits := trivial
      handling := by rw [h.handling, hpg]
      off := nofun
      on := .inr (.inr rfl)
      starting := fun _ => by simp [hp]
      override := fun hx => by
        have := h.override hx
        rw [hpg] at this
        cases this }
  · simp [entering, hpl, hpg, inEnter, interruptEnterPending, hp, hc]

theorem Steady.resume :
    Keeps s { s with
      thread := { s.thread with suspended := false, continuationCallback := false }
      place := .inMicrothread } := by
  refine .of_same ?_ rfl rfl rfl ?_ rfl
  · exact { h with off := nofun, on := .inl rfl, starting := nofun }
  · simp [entering, hpl]

/-- `doWork` looks for something to run. -/
theorem Steady.examine : Keeps s (s.attempt s.thread.examine fun
      | (t, .resumes) => { s with thread := t, place := .inMicrothread }
      | (t, .doneWorking) => s.doneWorking t
      | (t, .starts) => { s with thread := t, place := .starting, program := .finished }) := by
  have hin : s.place ≠ .inMicrothread := by
    rw [hpl]
    nofun
  obtain hp | ⟨p, hp⟩ := eq_none_or_eq_some s.thread.pendingCall
  · cases hs : s.thread.suspended with
    | true =>
      rw [examine_resumes hp hs]
      exact h.resume hpl
    | false =>
      rw [examine_doneWorking hp hs]
      exact h.doneWorking hin (by rw [hpl]; nofun) (.inl rfl)
  · by_cases hc : p.number = .interruptEnter
    · have hvr : s.thread.pendingCallOverride = false := by
        by_contra hvr
        have hhd := h.override (by simpa using hvr)
        rcases h.program_of_pending hin hp with hf | ⟨x, hx, _⟩
        · rw [hf] at hhd
          cases hhd
        · rw [hx] at hhd
          cases hhd
      rw [examine_enter hp hc hvr]
      exact h.emplace hpl hp hc
    · have hact : s.thread.activeCall = none := by
        rcases h.active_of_pending hp with hx | ⟨_, _, _, hnt⟩
        · exact hx
        · exact absurd hnt hc
      have hs := (h.finished_of_none hin hact).2
      cases hcont : s.thread.continuationCallback with
      | true =>
        have : s.thread.examine = .error "Thread has both a pending call and a pending continuation" := by
          unfold Thread.examine
          simp [interruptEnterPending_of_some hp, hc, hp, hcont]
        rw [this]
        exact h.throw _
      | false =>
        rw [examine_starts hp hc hs hcont]
        exact h.startCall hpl hp hc

end

theorem Steady.makePendingCallActive (hpl : s.place = .starting) (hp : s.thread.pendingCall = some p) :
    Keeps s { s with thread := s.thread.makePendingCallActive, place := .inMicrothread, program := .start p } := by
  have hs : s.thread.suspended = false := by
    by_contra hs
    exact (h.off (by simpa using hs)).1 hpl
  have hpg : s.program = .finished := by
    rcases h.on with hin | hs' | hf
    · rw [hpl] at hin
      cases hin
    · rw [hs] at hs'
      cases hs'
    · exact hf
  have hact : s.thread.activeCall = none := by rw [h.active, hpg]; rfl
  obtain ⟨hft, hca, hhd, hpop, _⟩ := start_spec p
  have hreq : ({ s with
      thread := s.thread.makePendingCallActive
      place := .inMicrothread
      program := .start p } : Session).requests = s.requests := by
    simp [Session.requests, Thread.makePendingCallActive, hp, hact]
  refine ⟨?_, rfl, fun _ _ => by rw [hreq], ?_, ?_⟩
  · exact { h with
      active := by simp [Thread.makePendingCallActive, hp, hca]
      fits := hft
      handling := by
        rw [hhd]
        have := h.handling
        rw [hpg] at this
        exact this
      off := fun hx => by
        rw [show s.thread.makePendingCallActive.suspended = s.thread.suspended from rfl, hs] at hx
        cases hx
      on := .inl rfl
      starting := by simp
      override := fun hx => by
        have := h.override hx
        rw [hpg] at this
        cases this
      oneAtATime := hreq ▸ h.oneAtATime }
  · obtain ⟨id, number⟩ := p
    cases number <;> simp [answering, hpg, start]
  · obtain ⟨id, number⟩ := p
    cases number <;>
      simp [entering, leaving, hpg, hpl, inEnter, start, interruptEnterPending, hp, makePendingCallActive]

theorem Steady.work (hs : s.work = some s') : Keeps s s' := by
  unfold Session.work at hs
  generalize hpl : s.place = place at hs
  cases place with
  | outside =>
    have hin : s.place ≠ .inMicrothread := by
      rw [hpl]
      nofun
    have hst : s.place ≠ .starting := by
      rw [hpl]
      nofun
    rcases s.thread.enter_cases with ⟨-, ht⟩ | ⟨-, -, ht⟩ | ⟨-, -, ht | ht⟩ <;> simp only [ht, some.injEq] at hs
    · have hlk : Alike s.thread { s.thread with deferralState := .deferredPending } := ⟨rfl, rfl, rfl, rfl, rfl, rfl, rfl⟩
      exact hs ▸ hpl ▸ h.thread hlk rfl
    · exact hs ▸ hpl ▸ h.thread ⟨rfl, rfl, rfl, rfl, rfl, rfl, rfl⟩ rfl
    · exact hs ▸ h.doneWorking hin hst (.inr rfl)
    · exact hs ▸ h.goto hin hst .entered nofun nofun rfl rfl rfl rfl rfl rfl fun _ hc => hc
  | entered =>
    cases hs
    exact h.examine hpl
  | starting =>
    obtain ⟨p, hp⟩ := isSome_iff_exists.1 (h.starting hpl)
    simp only [hp, some.injEq] at hs
    exact hs ▸ h.makePendingCallActive hpl hp
  | atTop =>
    cases hs
    exact h.doneWorking (by rw [hpl]; nofun) (by rw [hpl]; nofun) (.inl rfl)
  | inMicrothread =>
    cases hs

/-! ### The microthread -/

theorem Steady.suspend {continuationCallback : Bool} (hs : s.suspend continuationCallback = some s') : Keeps s s' := by
  obtain ⟨hpl, hca, rfl⟩ := Session.suspend_some hs
  refine .of_same ?_ rfl rfl rfl ?_ rfl
  · exact { h with off := fun _ => ⟨nofun, nofun, hca⟩, on := .inr (.inl rfl), starting := nofun }
  · simp [entering, hpl]

omit h in
/-- The reply to the active call is never refused. -/
theorem pushCallReply_active (hact : t.activeCall = some c) (hsg : t.interruptedForSignal = false) :
    ∃ deferred sent, t.pushCallReply c = .ok ({ t with activeCall := none, deferredReply := deferred }, sent) := by
  have hexp : t.expectedCall = some c := by
    unfold expectedCall
    rw [hsg]
    exact hact
  have hdeac : t.deactivateCall c = .ok { t with activeCall := none } := by
    unfold deactivateCall
    rw [if_neg (not_not.2 hexp), if_neg (Bool.eq_false_iff.1 hsg)]
  unfold pushCallReply
  rw [hdeac]
  simp only [bind, Except.bind, hsg, Bool.false_eq_true, if_false]
  split
  · exact ⟨_, _, rfl⟩
  · split
    · exact ⟨_, _, rfl⟩
    · exact ⟨_, _, rfl⟩

omit h in
/-- The reply to an interrupted call goes to the context. -/
theorem alike_pushCallReply {t t' : Thread} {sent : Option Reply} (hsg : t.interruptedForSignal = true)
    (ht : t.pushCallReply c = .ok (t', sent)) : Alike t t' := by
  unfold pushCallReply deactivateCall at ht
  by_cases hexp : t.expectedCall = some c
  · simp only [hexp, hsg, bind, Except.bind, ne_eq, not_true_eq_false, if_false, if_true] at ht
    split at ht <;> cases ht
    exact ⟨rfl, hsg.symm, rfl, rfl, rfl, rfl, by simp⟩
  · simp only [bind, Except.bind, ne_eq, hexp, not_false_eq_true, if_true] at ht
    cases ht

omit h in
theorem alike_endDeferReply (t : Thread) : Alike t t.endDeferReply.1 := by
  unfold endDeferReply
  split
  · exact ⟨rfl, rfl, rfl, rfl, rfl, rfl, rfl⟩
  · exact ⟨rfl, rfl, rfl, rfl, rfl, rfl, rfl⟩

variable (hpl : s.place = .inMicrothread)

include hpl

/-- The active call has been replied to, and the microthread goes on. -/
theorem Steady.replied (hca : s.program.call = some c) (hsg : s.program.isHandling = false) (program : Program)
    (hpg : program = .finished ∨ program = .popping) :
    ∃ deferred sent, s.reply c program = { s with
        thread := { s.thread with activeCall := none, deferredReply := deferred }
        toClient := sent
        program := program } ∧
      s.requests = c :: (s.reply c program).requests ∧ Steady (s.reply c program) := by
  have hact : s.thread.activeCall = some c := h.active.trans hca
  obtain ⟨deferred, sent, hpu⟩ := pushCallReply_active hact (h.handling.trans hsg)
  have hrep : s.reply c program = { s with
      thread := { s.thread with activeCall := none, deferredReply := deferred }
      toClient := s.toClient ++ sent.toList
      program := program } := by
    unfold Session.reply
    rw [hpu]
    rfl
  have hreq : s.requests = c :: (s.reply c program).requests := by
    rw [hrep]
    simp [Session.requests, hact]
  refine ⟨deferred, s.toClient ++ sent.toList, hrep, hreq, ?_⟩
  have hone := h.oneAtATime
  rw [hreq] at hone
  have hspec := ended_spec hpg
  rw [hrep] at hone ⊢
  exact { h with
    active := hspec.1.symm
    fits := hspec.2.1
    handling := (h.handling.trans hsg).trans hspec.2.2.symm
    off := fun hx => absurd hpl (h.off hx).2.1
    on := .inl hpl
    starting := fun hx => by
      rw [show s.place = .starting from hx] at hpl
      cases hpl
    override := fun hx => by
      have := h.override hx
      rw [hsg] at this
      cases this
    oneAtATime := hone.tail }

theorem Steady.serve (hpg : s.program = .serving c) : Keeps s (s.reply c .finished) := by
  have hoth : c.number = .other := h.fits_at hpg
  obtain ⟨deferred, sent, hrep, hreq, hste⟩ := h.replied hpl (by rw [hpg]; rfl) (by rw [hpg]; rfl) _ (.inl rfl)
  refine ⟨hste, by rw [hrep], fun number hnumber => ?_, by rw [hrep]; simp [answering, hpg], ?_⟩
  · rw [hreq]
    exact (numbered_cons_of_ne (by rw [hoth]; exact hnumber.symm) _).symm
  · rw [hrep]
    simp [entering, leaving, hpg, hpl, inEnter]

theorem Steady.beginInterrupt {e : Call} (hpg : s.program = .entering e) :
    Keeps s (s.attempt s.thread.beginInterrupt fun t => { s with thread := t, program := .handling e }) := by
  have hact : s.thread.activeCall = some e := by rw [h.active, hpg]; rfl
  have hft : e.number = .interruptEnter := h.fits_at hpg
  cases hbg : s.thread.beginInterrupt with
  | error message => exact h.throw message
  | ok t =>
    obtain ⟨ha, hsig, hsus, hpd, hque, hdep⟩ : t.activeCall = s.thread.activeCall ∧ t.interruptedForSignal = true ∧
        t.suspended = s.thread.suspended ∧ t.pendingCall = s.thread.pendingCall ∧
        t.pendingInterrupts = s.thread.pendingInterrupts ∧ t.interrupts.length = s.thread.interrupts.length := by
      unfold Thread.beginInterrupt at hbg
      split at hbg
      · cases hbg
        exact ⟨rfl, rfl, rfl, rfl, rfl, rfl⟩
      · split at hbg <;> cases hbg
        exact ⟨rfl, rfl, rfl, rfl, rfl, by simp⟩
    have hreq : ({ s with thread := t, program := .handling e } : Session).requests = s.requests := by
      simp only [Session.requests, ha, hpd, hque]
    refine ⟨?_, rfl, fun _ _ => by rw [← hreq]; rfl, ?_, ?_⟩
    · exact {
        active := ha.trans hact
        fits := hft
        handling := hsig
        off := fun hx => absurd hpl (h.off (hsus.symm.trans hx)).2.1
        on := .inl hpl
        starting := fun hx => by
          rw [show s.place = .starting from hx] at hpl
          cases hpl
        override := fun _ => rfl
        queued := fun c hc => h.queued c (hque ▸ hc)
        oneAtATime := hreq ▸ h.oneAtATime }
    · simp [answering, hpg, Session.attempt]
    · simp [entering, leaving, hpg, inEnter, Session.attempt, hdep]

omit hpl in
theorem Steady.saveReply {e : Call} (hpg : s.program = .handling e) (x : Call) : Keeps s (s.reply x (.handling e)) := by
  have hsg : s.thread.interruptedForSignal = true := by rw [h.handling, hpg]; rfl
  unfold Session.reply
  cases hpu : s.thread.pushCallReply x with
  | error message => exact h.throw message
  | ok r =>
    exact hpg ▸ h.thread (alike_pushCallReply hsg hpu) rfl

theorem Steady.pop (hpg : s.program = .popping) (hstack : s.thread.interrupts ≠ []) :
    Keeps s { s with
      thread := s.thread.popInterrupt.1
      toClient := s.toClient ++ s.thread.popInterrupt.2.toList
      program := .finished } := by
  have hact : s.thread.activeCall = none := by rw [h.active, hpg]; rfl
  refine ⟨?_, rfl, fun _ _ => rfl, by simp [answering, hpg], ?_⟩
  · exact { h with
      active := hact
      fits := trivial
      handling := by rw [show s.thread.popInterrupt.1.interruptedForSignal = s.thread.interruptedForSignal from rfl,
        h.handling, hpg]; rfl
      off := fun hx => absurd hpl (h.off hx).2.1
      on := .inl hpl
      override := fun hx => by
        have := h.override hx
        rw [hpg] at this
        cases this }
  · have hpos := length_pos_iff.2 hstack
    simp only [entering, leaving, hpg, hpl, inEnter, popInterrupt, length_tail]
    simp
    omega

theorem Steady.finish (hpg : s.program = .finished) : Keeps s { s with place := .atTop, program := .finished } := by
  refine .of_same ?_ rfl rfl hpg.symm (by simp [entering, hpl, hpg]) rfl
  rw [← hpg]
  exact { h with
    off := fun hx => absurd hpl (h.off hx).2.1
    on := .inr (.inr hpg)
    starting := nofun }

end Server

end SignalStates

end Osxie.Server
