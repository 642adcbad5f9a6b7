import Osxie.Server.S2C

/-!
# What an S2C call leaves behind

One invocation of `Thread::_s2cPerform`, while the client makes calls, their replies are pushed, and the receive path works. It
takes the perform semaphore, may make the thread defer its replies, and may send the client a signal, upon which the client
makes an s2c_perform call and waits for the interrupt-exit semaphore. On its way out it is to undo all of that.
-/

namespace Osxie.Server

open List Option S2C

/-- One invocation, which is invocation 0, and what became of the client: the s2c_perform calls that it has made, and those that
have been released. `deferred` are the replies that were deferred. -/
structure S2CExecution where
  s2c : S2C
  calls : Nat
  released : Nat
  deferred : List Nat

namespace S2CExecution

variable (invocation : Nat → S2CInvocation)

/-- The invocation begins, in any state in which the perform semaphore is 1 and no reply is deferred. -/
def start (s : S2C) : S2CExecution where
  s2c := { s with
    performSemaphore := 1
    deferReplyForS2C := false
    deferredReply := none
    signals := 0
    aborted := none
    pc := fun _ => .performWait }
  calls := 0
  released := 0
  deferred := []

/-- One step of the invocation, of the client or of the server. The client makes an s2c_perform call for each signal. -/
def step (s : S2CExecution) (a : S2CAction) : Option S2CExecution :=
  let next := s.s2c.step invocation a
  match a with
  | .perform _ => none
  | .advance i | .interrupt i | .noSignal i | .signalFails i => if i = 0 then next.map fun s2c => { s with s2c := s2c } else none
  | .s2cPerform => if s.calls < s.s2c.signals then next.map fun s2c => { s with s2c := s2c, calls := s.calls + 1 } else none
  | .s2cPerformed =>
    if s.released < s.calls then next.map fun s2c => { s with s2c := s2c, released := s.released + 1 } else none
  | .pushCallReply reply =>
    next.map fun s2c => { s with
      s2c := s2c
      deferred := if s.s2c.deferReplyForS2C then s.deferred ++ [reply] else s.deferred }
  | .activate | .answer _ _ | .receive | .raise => next.map fun s2c => { s with s2c := s2c }

def machine (s : S2C) : Machine S2CExecution S2CAction where
  init := start s
  step := step invocation

/-! ## What is restored -/

def performErrors : List String :=
  ["Must be in a microthread (any microthread) to wait for S2C reply",
    "S2C reply semaphore incremented, but no reply present",
    "Invalid S2C reply: unxpected size",
    "Invalid S2C reply: unexpected S2C reply number"]

variable (s : S2CExecution)

def Left : Prop :=
  (∃ reply, s.s2c.pc 0 = .returned reply) ∨ s.s2c.pc 0 = .signalFailed ∨ ∃ message ∈ performErrors, s.s2c.aborted = some message

/-- The thread is as it was: the perform semaphore is 1, no reply is deferred, those that were have been sent, and the interrupt-exit
semaphore has been raised for every s2c_perform call that the invocation has made the client make. -/
structure Restored (exits : Nat) (s : S2CExecution) : Prop where
  perform : s.s2c.performSemaphore = 1
  defers : s.s2c.deferReplyForS2C = false
  none_deferred : s.s2c.deferredReply = none
  sent : ∀ reply ∈ s.deferred, reply ∈ s.s2c.repliesSent
  released : exits + s.s2c.signals ≤ s.s2c.interruptExitSemaphore + s.released

/-- The invocation is at a place from where every exit restores the thread: it is not about to send a signal, it has sent none, and
the replies of the thread are not deferred, or it has undone that already. -/
def Clean : Prop :=
  match s.s2c.pc 0 with
  | .checking => False
  | .enterWait | .sending _ | .replyWait _ | .extracting _ => s.s2c.signals = 0 ∧ s.s2c.deferReplyForS2C = false
  | _ => True

/-- No reply is pushed while another one is deferred. -/
def KeepsDeferred : S2CAction → Prop
  | .pushCallReply _ => s.s2c.deferReplyForS2C = true → s.s2c.deferredReply = none
  | _ => True

instance (a : S2CAction) : Decidable (KeepsDeferred s a) := by
  rcases a <;> unfold KeepsDeferred <;> infer_instance

/-! ## The invariant -/

/-- The perform semaphore, the signals that were sent, and how often the interrupt-exit semaphore was raised. -/
structure Balance (exits : Nat) (s : S2CExecution) (perform signals raised : Nat) : Prop where
  perform : s.s2c.performSemaphore = perform
  signals : s.s2c.signals = signals
  exits : s.s2c.interruptExitSemaphore + s.released = exits + raised

/-- What has been done at a place of the invocation, and not been undone. -/
def Placed (exits : Nat) (s : S2CExecution) : S2CPc → Prop
  | .idle | .returned _ | .signalFailed => True
  | .performWait => Balance exits s 1 0 0 ∧ s.s2c.deferReplyForS2C = false
  | .checking => Balance exits s 0 0 0 ∧ s.s2c.deferReplyForS2C = false
  | .enterWait => (∃ n ≤ 1, Balance exits s 0 n 0) ∧ s.s2c.deferReplyForS2C = false
  | .sending usingInterrupt | .replyWait usingInterrupt | .extracting usingInterrupt =>
    (∃ n ≤ usingInterrupt.toNat, Balance exits s 0 n 0) ∧ (usingInterrupt = true → s.s2c.deferReplyForS2C = false)
  | .leaving usingInterrupt _ => (∃ n ≤ usingInterrupt.toNat, Balance exits s 0 n 0) ∧ s.s2c.deferReplyForS2C = false
  | .resuming _ => (∃ n ≤ 1, Balance exits s 1 n 0) ∧ s.s2c.deferReplyForS2C = false
  | .validating _ => (∃ n raised, n ≤ raised ∧ Balance exits s 1 n raised) ∧ s.s2c.deferReplyForS2C = false

/-- The replies that were deferred have been sent, but for one, and where the invocation is. -/
structure Inv (exits : Nat) (s : S2CExecution) : Prop where
  handed : ∀ reply ∈ s.deferred, reply ∈ s.s2c.repliesSent ∨ s.s2c.deferredReply = some reply
  undeferred : s.s2c.deferReplyForS2C = false → s.s2c.deferredReply = none
  placed : s.s2c.aborted = none → Placed exits s (s.s2c.pc 0)

theorem inv_start (s : S2C) : Inv s.interruptExitSemaphore (start s) where
  handed := nofun
  undeferred _ := rfl
  placed _ := ⟨⟨rfl, rfl, rfl⟩, rfl⟩

variable {invocation} {exits : Nat} {s s' : S2CExecution}

/-- A place says nothing but the balance and whether replies are deferred. -/
theorem Placed.imp {pc : S2CPc} (h : Placed exits s pc) (hdefer : s'.s2c.deferReplyForS2C = s.s2c.deferReplyForS2C)
    (hbal : ∀ perform signals raised, Balance exits s perform signals raised → Balance exits s' perform signals raised) :
    Placed exits s' pc := by
  cases pc with
  | idle | returned reply | signalFailed => trivial
  | performWait | checking => exact ⟨hbal _ _ _ h.1, hdefer.trans h.2⟩
  | enterWait | leaving u reply | resuming reply =>
    obtain ⟨⟨n, hn, hb⟩, hd⟩ := h
    exact ⟨⟨n, hn, hbal _ _ _ hb⟩, hdefer.trans hd⟩
  | sending u | replyWait u | extracting u =>
    obtain ⟨⟨n, hn, hb⟩, hd⟩ := h
    exact ⟨⟨n, hn, hbal _ _ _ hb⟩, fun hu => hdefer.trans (hd hu)⟩
  | validating reply =>
    obtain ⟨⟨n, raised, hn, hb⟩, hd⟩ := h
    exact ⟨⟨n, raised, hn, hbal _ _ _ hb⟩, hdefer.trans hd⟩

/-- What the client and the receive path leave alone. -/
structure Frame (s s' : S2C) : Prop where
  perform : s'.performSemaphore = s.performSemaphore
  signals : s'.signals = s.signals
  exits : s'.interruptExitSemaphore = s.interruptExitSemaphore
  defers : s'.deferReplyForS2C = s.deferReplyForS2C
  deferredReply : s'.deferredReply = s.deferredReply
  sent : s'.repliesSent = s.repliesSent
  pc : s'.pc = s.pc
  aborted : ∀ message ∈ performErrors, s'.aborted = some message → s.aborted = some message

variable {s2c : S2C} {a : S2CAction}

section

variable (h : Inv exits s)

include h

theorem Inv.frame (hno : s.s2c.aborted = none) (hf : Frame s.s2c s2c) (calls : Nat) :
    Inv exits { s with s2c := s2c, calls := calls } where
  handed reply hrep := by
    rw [hf.sent, hf.deferredReply]
    exact h.handed reply hrep
  undeferred hd := hf.deferredReply.trans (h.undeferred (hf.defers.symm.trans hd))
  placed _ := by
    rw [hf.pc]
    refine (h.placed hno).imp hf.defers fun _ _ _ hb => ?_
    refine ⟨hf.perform.trans hb.perform, hf.signals.trans hb.signals, ?_⟩
    rw [hf.exits]
    exact hb.exits

omit h in
/-- A step of the thread, of a server that is up. -/
theorem act_of_step {next : S2C → S2CExecution} (h : (s.s2c.step invocation a).map next = some s') :
    ∃ s2c, s.s2c.aborted = none ∧ s.s2c.act invocation a = some s2c ∧ next s2c = s' := by
  obtain ⟨s2c, hs2c, heq⟩ := map_eq_some_iff.1 h
  obtain ⟨hno, hact⟩ := ite_none_left_eq_some.1 hs2c
  exact ⟨s2c, by simpa using hno, hact, heq⟩

omit h in
theorem act_of_guarded {p : Prop} [Decidable p] {next : S2C → S2CExecution}
    (h : (if p then (s.s2c.step invocation a).map next else none) = some s') :
    p ∧ ∃ s2c, s.s2c.aborted = none ∧ s.s2c.act invocation a = some s2c ∧ next s2c = s' :=
  (ite_none_right_eq_some.1 h).imp_right act_of_step

/-- A reply is pushed. -/
theorem Inv.pushCallReply (hno : s.s2c.aborted = none) {reply : Nat}
    (hkeeps : s.s2c.deferReplyForS2C = true → s.s2c.deferredReply = none)
    (hact : s.s2c.act invocation (.pushCallReply reply) = some s2c) :
    Inv exits { s with
      s2c := s2c
      deferred := if s.s2c.deferReplyForS2C then s.deferred ++ [reply] else s.deferred } := by
  obtain ⟨-, hact⟩ := ite_none_right_eq_some.1 hact
  cases hd : s.s2c.deferReplyForS2C with
  | true =>
    rw [hd] at hact
    cases hact
    refine ⟨?_, nofun, fun _ => ?_⟩
    · intro r hr
      rcases mem_append.1 hr with hr | hr
      · rcases h.handed r hr with hsn | hdef
        · exact .inl hsn
        · rw [hkeeps hd] at hdef
          cases hdef
      · rw [mem_singleton.1 hr]
        exact .inr rfl
    · exact (h.placed hno).imp hd.symm fun _ _ _ hb => { hb with }
  | false =>
    rw [hd] at hact
    cases hact
    refine ⟨?_, fun _ => h.undeferred hd, fun _ => ?_⟩
    · intro r hr
      rcases h.handed r hr with hsn | hdef
      · exact .inl (mem_append_left _ hsn)
      · exact .inr hdef
    · exact (h.placed hno).imp hd.symm fun _ _ _ hb => { hb with }

/-- The invocation goes to another place, and the replies stay as they are. -/
theorem Inv.move (hdef : s2c.deferredReply = s.s2c.deferredReply) (hsn : s2c.repliesSent = s.s2c.repliesSent)
    (hund : s2c.deferReplyForS2C = false → s.s2c.deferReplyForS2C = false)
    (hpl : s2c.aborted = none → Placed exits { s with s2c := s2c } (s2c.pc 0)) : Inv exits { s with s2c := s2c } where
  handed reply hrep := by
    rw [hsn, hdef]
    exact h.handed reply hrep
  undeferred hd := hdef.trans (h.undeferred (hund hd))
  placed := hpl

theorem Inv.advance (hno : s.s2c.aborted = none) (hact : s.s2c.advance invocation 0 = some s2c) :
    Inv exits { s with s2c := s2c } := by
  have hpl := h.placed hno
  unfold S2C.advance at hact
  generalize s.s2c.pc 0 = pc at hact hpl
  cases pc with
  | idle | returned reply | signalFailed => cases hact
  | performWait =>
    obtain ⟨hb, hd⟩ := hpl
    obtain ⟨-, rfl⟩ := of_guarded hact
    exact h.move rfl rfl id fun _ => ⟨⟨by show s.s2c.performSemaphore - 1 = 0; rw [hb.perform], hb.signals, hb.exits⟩, hd⟩
  | checking =>
    obtain ⟨hb, hd⟩ := hpl
    dsimp only at hact
    split at hact
    · cases hact
      exact h.move rfl rfl id fun _ => ⟨⟨1, le_rfl, hb.perform, congrArg (· + 1) hb.signals, hb.exits⟩, hd⟩
    · split at hact
      · cases hact
        exact h.move rfl rfl nofun fun _ => ⟨⟨0, Nat.zero_le _, { hb with }⟩, nofun⟩
      · cases hact
        exact h.move rfl rfl id fun _ => ⟨⟨0, Nat.zero_le _, { hb with }⟩, nofun⟩
  | enterWait =>
    obtain ⟨⟨n, hn, hb⟩, hd⟩ := hpl
    obtain ⟨-, rfl⟩ := of_guarded hact
    exact h.move rfl rfl id fun _ => ⟨⟨n, hn, { hb with }⟩, fun _ => hd⟩
  | sending u =>
    obtain ⟨⟨n, hn, hb⟩, hd⟩ := hpl
    dsimp only at hact
    split at hact
    · cases hact
      exact h.move rfl rfl id nofun
    · cases hact
      exact h.move rfl rfl id fun _ => ⟨⟨n, hn, { hb with }⟩, hd⟩
  | replyWait u =>
    obtain ⟨⟨n, hn, hb⟩, hd⟩ := hpl
    obtain ⟨-, rfl⟩ := of_guarded hact
    exact h.move rfl rfl id fun _ => ⟨⟨n, hn, { hb with }⟩, hd⟩
  | extracting u =>
    obtain ⟨⟨n, hn, hb⟩, hd⟩ := hpl
    dsimp only at hact
    split at hact
    · cases hact
      exact h.move rfl rfl id nofun
    · cases hact
      refine ⟨?_, fun _ => ?_, fun _ => ⟨⟨n, hn, { hb with }⟩, rfl⟩⟩
      · intro r hr
        refine .inl ?_
        show r ∈ if s.s2c.deferReplyForS2C then s.s2c.repliesSent ++ s.s2c.deferredReply.toList else s.s2c.repliesSent
        rcases h.handed r hr with hsn | hdef
        · split
          · exact mem_append_left _ hsn
          · exact hsn
        · rw [if_pos (by by_contra hx; rw [h.undeferred (by simpa using hx)] at hdef; cases hdef), hdef]
          exact mem_append_right _ (mem_singleton.2 rfl)
      · show (if s.s2c.deferReplyForS2C then none else s.s2c.deferredReply) = none
        split
        · rfl
        · rename_i hx
          exact h.undeferred (by simpa using hx)
  | leaving u reply =>
    obtain ⟨⟨n, hn, hb⟩, hd⟩ := hpl
    cases hact
    refine h.move rfl rfl id fun _ => ?_
    cases u with
    | true => exact ⟨⟨n, hn, congrArg (· + 1) hb.perform, hb.signals, hb.exits⟩, hd⟩
    | false => exact ⟨⟨n, 0, hn, congrArg (· + 1) hb.perform, hb.signals, hb.exits⟩, hd⟩
  | resuming reply =>
    obtain ⟨⟨n, hn, hb⟩, hd⟩ := hpl
    cases hact
    refine h.move rfl rfl id fun _ => ⟨⟨n, 1, hn, hb.perform, hb.signals, ?_⟩, hd⟩
    show s.s2c.interruptExitSemaphore + 1 + s.released = exits + 1
    have := hb.exits
    omega
  | validating reply =>
    dsimp only at hact
    split at hact
    · cases hact
      exact h.move rfl rfl id nofun
    · split at hact
      · cases hact
        exact h.move rfl rfl id nofun
      · cases hact
        exact h.move rfl rfl id fun _ => trivial

theorem Inv.interrupt (hact : s.s2c.interrupt 0 = some s2c) : Inv exits { s with s2c := s2c } := by
  unfold S2C.interrupt at hact
  split at hact
  · cases hact
    exact h.move rfl rfl id fun _ => trivial
  · cases hact
    exact h.move rfl rfl id fun _ => trivial
  · cases hact
    exact h.move rfl rfl id fun _ => trivial
  · cases hact

/-- The signal is not sent: the invocation waits for the client all the same, or leaves. -/
theorem Inv.unsignalled (hno : s.s2c.aborted = none) {pc : S2CPc} (hpc : pc = .enterWait ∨ pc = .signalFailed)
    (hact : s.s2c.unsignalled 0 pc = some s2c) : Inv exits { s with s2c := s2c } := by
  obtain ⟨⟨hcheck, -⟩, rfl⟩ := of_guarded hact
  have hpl := h.placed hno
  rw [hcheck] at hpl
  obtain ⟨hb, hd⟩ := hpl
  rcases hpc with rfl | rfl
  · exact h.move rfl rfl id fun _ => ⟨⟨0, Nat.zero_le _, { hb with }⟩, hd⟩
  · exact h.move rfl rfl id fun _ => trivial

omit h in
/-- What the receive path and the client do to the thread, but for the end of an s2c_perform call. -/
theorem frame_of_act {s2c s2c' : S2C} (hact : s2c.act invocation a = some s2c')
    (ha : a = .activate ∨ a = .s2cPerform ∨ (∃ number size, a = .answer number size) ∨ a = .receive ∨ a = .raise) :
    Frame s2c s2c' := by
  rcases ha with rfl | rfl | ⟨number, size, rfl⟩ | rfl | rfl
  · obtain ⟨-, hact⟩ := ite_none_left_eq_some.1 hact
    cases hact
    exact ⟨rfl, rfl, rfl, rfl, rfl, rfl, rfl, fun _ _ => id⟩
  · cases hact
    exact ⟨rfl, rfl, rfl, rfl, rfl, rfl, rfl, fun _ _ => id⟩
  · simp only [act] at hact
    split at hact <;> cases hact
    exact ⟨rfl, rfl, rfl, rfl, rfl, rfl, rfl, fun _ _ => id⟩
  · simp only [act, receive] at hact
    split at hact
    · cases hact
    obtain ⟨-, hact⟩ := ite_none_left_eq_some.1 hact
    split at hact
    · cases hact
      refine ⟨rfl, rfl, rfl, rfl, rfl, rfl, rfl, fun message hmes hx => ?_⟩
      cases hx
      exact absurd hmes (by decide)
    · cases hact
      exact ⟨rfl, rfl, rfl, rfl, rfl, rfl, rfl, fun _ _ => id⟩
  · obtain ⟨-, rfl⟩ := of_guarded hact
    exact ⟨rfl, rfl, rfl, rfl, rfl, rfl, rfl, fun _ _ => id⟩

/-- An s2c_perform call is released. -/
theorem Inv.s2cPerformed (hno : s.s2c.aborted = none) (hact : s.s2c.act invocation .s2cPerformed = some s2c) :
    Inv exits { s with s2c := s2c, released := s.released + 1 } := by
  obtain ⟨hpos, rfl⟩ := of_guarded hact
  refine ⟨h.handed, h.undeferred, fun _ => (h.placed hno).imp rfl fun _ _ _ hb => ⟨hb.perform, hb.signals, ?_⟩⟩
  show s.s2c.interruptExitSemaphore - 1 + (s.released + 1) = _
  have := hb.exits
  omega

/-- Every step keeps the invariant. -/
theorem Inv.step (hkeeps : KeepsDeferred s a) (hstep : s.step invocation a = some s') : Inv exits s' := by
  cases a with
  | perform i => cases hstep
  | advance i =>
    obtain ⟨rfl, s2c, hno, hact, rfl⟩ := act_of_guarded hstep
    exact h.advance hno hact
  | interrupt i =>
    obtain ⟨rfl, s2c, -, hact, rfl⟩ := act_of_guarded hstep
    exact h.interrupt hact
  | noSignal i | signalFails i =>
    obtain ⟨rfl, s2c, hno, hact, rfl⟩ := act_of_guarded hstep
    exact h.unsignalled hno (by simp) hact
  | s2cPerform =>
    obtain ⟨-, s2c, hno, hact, rfl⟩ := act_of_guarded hstep
    exact h.frame hno (frame_of_act hact (.inr (.inl rfl))) _
  | s2cPerformed =>
    obtain ⟨-, s2c, hno, hact, rfl⟩ := act_of_guarded hstep
    exact h.s2cPerformed hno hact
  | pushCallReply reply =>
    obtain ⟨s2c, hno, hact, rfl⟩ := act_of_step hstep
    exact h.pushCallReply hno hkeeps hact
  | activate | answer number size | receive | raise =>
    obtain ⟨s2c, hno, hact, rfl⟩ := act_of_step hstep
    exact h.frame hno (frame_of_act hact (by simp)) _

end

theorem inv_of_reaches {s0 : S2C} (h : (machine invocation s0).Reaches KeepsDeferred s) : Inv s0.interruptExitSemaphore s :=
  Machine.Reaches.invariant (inv_start s0) (fun hinv => hinv.step) h

/-! ## The exits -/

/-- A step of the client or of the receive path is not an exit. -/
theorem not_left_of_frame (hin : ¬Left s) (hf : Frame s.s2c s2c) (calls released : Nat) (deferred : List Nat) :
    ¬Left ⟨s2c, calls, released, deferred⟩ := by
  rintro (⟨reply, hpc⟩ | hpc | ⟨message, hmes, habor⟩)
  · exact hin (.inl ⟨reply, (congrFun hf.pc 0).symm.trans hpc⟩)
  · exact hin (.inr (.inl ((congrFun hf.pc 0).symm.trans hpc)))
  · exact hin (.inr (.inr ⟨message, hmes, hf.aborted message hmes habor⟩))

/-- What an exit does: it may raise the perform semaphore, and leaves everything else as it is. -/
structure Exits (s s' : S2CExecution) (raised : Nat) : Prop where
  perform : s'.s2c.performSemaphore = s.s2c.performSemaphore + raised
  defers : s'.s2c.deferReplyForS2C = s.s2c.deferReplyForS2C
  deferredReply : s'.s2c.deferredReply = s.s2c.deferredReply
  sent : s'.s2c.repliesSent = s.s2c.repliesSent
  deferred : s'.deferred = s.deferred
  signals : s'.s2c.signals = s.s2c.signals
  exits : s'.s2c.interruptExitSemaphore + s'.released = s.s2c.interruptExitSemaphore + s.released

/-- The places from where the invocation leaves. -/
def exitPlace (raised : Nat) : S2CPc → Prop
  | .performWait | .checking | .validating _ => raised = 0
  | .enterWait | .sending _ | .replyWait _ | .extracting _ => raised = 1
  | _ => False

/-- A step to another place is no exit. -/
theorem not_left_goto {pc : S2CPc} (hno : s2c.aborted = none) (hret : ∀ reply, pc ≠ .returned reply) (hsig : pc ≠ .signalFailed) :
    ¬Left { s with s2c := s2c.goto 0 pc } := by
  have hself : (s2c.goto 0 pc).pc 0 = pc := by simp [goto]
  rintro (⟨reply, hx⟩ | hx | ⟨message, -, hmes⟩)
  · exact hret reply (hself.symm.trans hx)
  · exact hsig (hself.symm.trans hx)
  · rw [show s2c.aborted = some message from hmes] at hno
    cases hno

theorem exits_of_advance (hno : s.s2c.aborted = none) (hact : s.s2c.advance invocation 0 = some s2c)
    (hleft : Left { s with s2c := s2c }) : ∃ raised, exitPlace raised (s.s2c.pc 0) ∧ Exits s { s with s2c := s2c } raised := by
  unfold advance at hact
  generalize s.s2c.pc 0 = pc at hact
  cases pc with
  | idle | returned reply | signalFailed => cases hact
  | performWait | enterWait | replyWait u =>
    obtain ⟨-, rfl⟩ := of_guarded hact
    exact absurd hleft (not_left_goto hno nofun nofun)
  | checking =>
    dsimp only at hact
    repeat' split at hact
    all_goals
      cases hact
      exact absurd hleft (not_left_goto hno nofun nofun)
  | sending u | extracting u =>
    dsimp only at hact
    split at hact
    · cases hact
      exact ⟨1, rfl, rfl, rfl, rfl, rfl, rfl, rfl, rfl⟩
    · cases hact
      exact absurd hleft (not_left_goto hno nofun nofun)
  | leaving u reply =>
    cases hact
    cases u with
    | true | false => exact absurd hleft (not_left_goto hno nofun nofun)
  | resuming reply =>
    cases hact
    exact absurd hleft (not_left_goto hno nofun nofun)
  | validating reply =>
    dsimp only at hact
    repeat' split at hact
    all_goals
      cases hact
      exact ⟨0, rfl, rfl, rfl, rfl, rfl, rfl, rfl, rfl⟩

theorem exits_of_interrupt (hact : s.s2c.interrupt 0 = some s2c) :
    ∃ raised, exitPlace raised (s.s2c.pc 0) ∧ Exits s { s with s2c := s2c } raised := by
  unfold interrupt at hact
  split at hact
  · rename_i hpc
    cases hact
    exact ⟨0, by rw [hpc]; rfl, rfl, rfl, rfl, rfl, rfl, rfl, rfl⟩
  · rename_i hpc
    cases hact
    exact ⟨1, by rw [hpc]; rfl, rfl, rfl, rfl, rfl, rfl, rfl, rfl⟩
  · rename_i u hpc
    cases hact
    exact ⟨1, by rw [hpc]; rfl, rfl, rfl, rfl, rfl, rfl, rfl, rfl⟩
  · cases hact

theorem exits_of_left (hstep : s.step invocation a = some s') (hin : ¬Left s) (hleft : Left s') :
    s.s2c.aborted = none ∧ ∃ raised, exitPlace raised (s.s2c.pc 0) ∧ Exits s s' raised := by
  cases a with
  | perform i => cases hstep
  | advance i =>
    obtain ⟨rfl, s2c, hno, hact, rfl⟩ := act_of_guarded hstep
    exact ⟨hno, exits_of_advance hno hact hleft⟩
  | interrupt i =>
    obtain ⟨rfl, s2c, hno, hact, rfl⟩ := act_of_guarded hstep
    exact ⟨hno, exits_of_interrupt hact⟩
  | noSignal i =>
    obtain ⟨rfl, s2c, hno, hact, rfl⟩ := act_of_guarded hstep
    obtain ⟨-, rfl⟩ := of_guarded hact
    exact absurd hleft (not_left_goto hno nofun nofun)
  | signalFails i =>
    obtain ⟨rfl, s2c, hno, hact, rfl⟩ := act_of_guarded hstep
    obtain ⟨⟨hpc, -⟩, rfl⟩ := of_guarded hact
    exact ⟨hno, 0, by rw [hpc]; rfl, rfl, rfl, rfl, rfl, rfl, rfl, rfl⟩
  | s2cPerform =>
    obtain ⟨-, s2c, -, hact, rfl⟩ := act_of_guarded hstep
    exact absurd hleft (not_left_of_frame hin (frame_of_act hact (by simp)) _ _ _)
  | s2cPerformed =>
    obtain ⟨-, s2c, -, hact, rfl⟩ := act_of_guarded hstep
    obtain ⟨-, rfl⟩ := of_guarded hact
    exact absurd hleft hin
  | pushCallReply reply =>
    obtain ⟨s2c, -, hact, rfl⟩ := act_of_step hstep
    obtain ⟨-, hact⟩ := ite_none_right_eq_some.1 hact
    split at hact <;>
    · cases hact
      exact absurd hleft hin
  | activate | answer number size | receive | raise =>
    obtain ⟨s2c, -, hact, rfl⟩ := act_of_step hstep
    exact absurd hleft (not_left_of_frame hin (frame_of_act hact (by simp)) _ _ _)

/-- An exit restores the thread if it makes the perform semaphore 1 and nothing was left to be undone. -/
theorem restored_iff_of_exits (h : Inv exits s) {raised perform signals undone : Nat} (he : Exits s s' raised)
    (hb : Balance exits s perform signals undone) (hperf : perform + raised = 1) :
    Restored exits s' ↔ signals ≤ undone ∧ s.s2c.deferReplyForS2C = false := by
  have hxt := hb.exits
  constructor
  · intro hr
    have hrel := hr.released
    rw [he.signals, hb.signals, he.exits] at hrel
    exact ⟨by omega, he.defers.symm.trans hr.defers⟩
  · rintro ⟨hle, hd⟩
    have hund := h.undeferred hd
    refine ⟨?_, he.defers.trans hd, he.deferredReply.trans hund, ?_, ?_⟩
    · rw [he.perform, hb.perform, hperf]
    · intro reply hrep
      rw [he.deferred] at hrep
      rw [he.sent]
      rcases h.handed reply hrep with hsn | hdef
      · exact hsn
      · rw [hund] at hdef
        cases hdef
    · rw [he.signals, hb.signals, he.exits]
      omega

/-- However the invocation leaves, the thread is as it was exactly if the invocation was at a clean place. -/
theorem restored_iff_clean {s0 : S2C} {a : S2CAction} (h : (machine invocation s0).Reaches KeepsDeferred s)
    (hstep : s.step invocation a = some s') (hin : ¬Left s) (hleft : Left s') :
    Restored s0.interruptExitSemaphore s' ↔ Clean s := by
  have hinv := inv_of_reaches h
  obtain ⟨hno, raised, hplace, hxt⟩ := exits_of_left hstep hin hleft
  have hpl := hinv.placed hno
  unfold Clean
  generalize s.s2c.pc 0 = pc at hplace hpl
  cases pc with
  | performWait =>
    rw [restored_iff_of_exits hinv hxt hpl.1 (congrArg (1 + ·) hplace)]
    exact iff_of_true ⟨Nat.le_refl 0, hpl.2⟩ trivial
  | checking =>
    -- the exception of the signal: nothing raises the perform semaphore
    refine iff_of_false (fun hr => ?_) id
    have hperf := hr.perform
    rw [hxt.perform, hpl.1.perform, show raised = 0 from hplace] at hperf
    cases hperf
  | validating reply =>
    obtain ⟨⟨n, raised', hn, hb⟩, hd⟩ := hpl
    rw [restored_iff_of_exits hinv hxt hb (congrArg (1 + ·) hplace)]
    exact iff_of_true ⟨hn, hd⟩ trivial
  | enterWait | sending u | replyWait u | extracting u =>
    obtain ⟨⟨n, -, hb⟩, -⟩ := hpl
    rw [restored_iff_of_exits hinv hxt hb (congrArg (0 + ·) hplace)]
    dsimp only
    rw [hb.signals, Nat.le_zero]
  | idle | leaving u reply | resuming reply | returned reply | signalFailed => cases hplace

/-- Invocations from another thread, whose replies have number 1 and 24 bytes. -/
def fromAnotherThread : Nat → S2CInvocation := fun _ => ⟨true, false, 1, 24⟩

/-- The way to the wait for the reply, with a call active, to which the reply 5 is pushed meanwhile. -/
def deferring : List S2CAction := [.activate, .advance 0, .advance 0, .advance 0, .pushCallReply 5]

/-- The client answers, and the deferred reply is sent before the invocation returns. -/
theorem restored_iff_clean_answered :
    ∃ s s', (machine fromAnotherThread init).Reaches KeepsDeferred s ∧ s.step fromAnotherThread (.advance 0) = some s' ∧
      ¬Left s ∧ Left s' ∧ s'.deferred = [5] ∧ Restored 0 s' := by
  obtain ⟨s, hreach, hpc, hno, hdef⟩ := Machine.exists_reaches_of_runOk (M := machine fromAnotherThread init)
    KeepsDeferred (deferring ++ [.answer 1 24, .receive, .raise, .advance 0, .advance 0, .advance 0])
    (P := fun s => s.s2c.pc 0 = .validating ⟨0, 1, 24⟩ ∧ s.s2c.aborted = none ∧ s.deferred = [5]) (by decide +kernel)
  have hstep : s.step fromAnotherThread (.advance 0) = some { s with s2c := s.s2c.goto 0 (.returned (some ⟨0, 1, 24⟩)) } := by
    simp [step, S2C.step, S2C.act, S2C.advance, hno, hpc, fromAnotherThread]
  have hin : ¬Left s := by simp [Left, hpc, hno]
  have hleft : Left { s with s2c := s.s2c.goto 0 (.returned (some ⟨0, 1, 24⟩)) } := .inl ⟨some ⟨0, 1, 24⟩, by simp [goto]⟩
  have hclean : Clean s := by simp [Clean, hpc]
  exact ⟨s, _, hreach, hstep, hin, hleft, hdef, (restored_iff_clean hreach hstep hin hleft).2 hclean⟩

/-- The wait for the reply is interrupted: replies are deferred from then on, and the deferred one has not been sent. -/
theorem not_restored_interrupted :
    ∃ s s', (machine fromAnotherThread init).Reaches KeepsDeferred s ∧ s.step fromAnotherThread (.interrupt 0) = some s' ∧
      ¬Left s ∧ Left s' ∧ s'.s2c.deferReplyForS2C = true ∧ 5 ∈ s'.deferred ∧ 5 ∉ s'.s2c.repliesSent ∧ ¬Restored 0 s' := by
  obtain ⟨s, hreach, hpc, hno, hdefer, hdef, hsn⟩ := Machine.exists_reaches_of_runOk
    (M := machine fromAnotherThread init) KeepsDeferred deferring
    (P := fun s => s.s2c.pc 0 = .replyWait false ∧ s.s2c.aborted = none ∧ s.s2c.deferReplyForS2C = true ∧ s.deferred = [5] ∧
      s.s2c.repliesSent = []) (by decide +kernel)
  have hstep : s.step fromAnotherThread (.interrupt 0) = some { s with s2c := s.s2c.upPerform.goto 0 (.returned none) } := by
    simp [step, S2C.step, S2C.act, S2C.interrupt, hno, hpc]
  refine ⟨s, _, hreach, hstep, by simp [Left, hpc, hno], .inl ⟨none, by simp [goto]⟩, hdefer, ?_, ?_, ?_⟩
  · simp [hdef]
  · simp [goto, upPerform, hsn]
  · intro hr
    exact Bool.noConfusion (hdefer.symm.trans hr.defers)

end S2CExecution

end Osxie.Server
