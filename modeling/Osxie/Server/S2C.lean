import Osxie.Lib.Machine

/-!
# Server-to-client calls

`Thread::_s2cPerform` sends the client of a thread an S2C message and waits for the reply. It waits on three semaphores: one
that admits a single invocation at a time, one that the client raises (through its s2c_perform call) when it is ready to take an
S2C message outside of a call, and one that the receive path raises when it has put the client's reply in `_s2cReply`. An
invocation whose wait is interrupted returns without a reply.

This module models the invocations on one thread, the two directions of its socket, the client, which answers every S2C message
once and in order, and the receive path. An invocation that has to signal the client finds the thread dead and goes on without
the signal, or leaves by the exception of `sendSignal`; the hooks of the duct tape catch that one, as a `std::system_error`, so the
server goes on.
-/

namespace Osxie.Server

open List Option Function Nat Machine Inv

/-- What an invocation of `_s2cPerform` is made with: whether the caller is a microthread, and the thread itself, and what the
reply has to be. -/
structure S2CInvocation where
  inMicrothread : Bool
  isCurrentThread : Bool
  expectedReplyNumber : Nat
  expectedReplySize : Nat
deriving DecidableEq

/-- A reply of the client: the invocation whose message it answers, its number and its size. -/
structure S2CReply where
  answers : Nat
  number : Nat
  size : Nat
deriving DecidableEq

/-- Where an invocation of `_s2cPerform` is. -/
inductive S2CPc where
  | idle
  /-- waits for `_s2cPerformSempahore` -/
  | performWait
  /-- has to find out whether the client is waiting for a message -/
  | checking
  /-- waits for `_s2cInterruptEnterSemaphore` -/
  | enterWait
  | sending (usingInterrupt : Bool)
  /-- waits for `_s2cReplySempahore` -/
  | replyWait (usingInterrupt : Bool)
  | extracting (usingInterrupt : Bool)
  | leaving (usingInterrupt : Bool) (reply : S2CReply)
  | resuming (reply : S2CReply)
  | validating (reply : S2CReply)
  | returned (reply : Option S2CReply)
  /-- left by the exception of `sendSignal` -/
  | signalFailed
deriving DecidableEq

/-- What the receive path and the invocations share. An uncaught exception ends the server. -/
structure S2C where
  performSemaphore : Nat
  replySemaphore : Nat
  interruptEnterSemaphore : Nat
  interruptExitSemaphore : Nat
  s2cReply : Option S2CReply
  activeCall : Bool
  deferReplyForS2C : Bool
  deferredReply : Option Nat
  repliesSent : List Nat
  signals : Nat
  toClient : List Nat
  toServer : List S2CReply
  /-- the receive path has stored a reply and not raised the semaphore yet -/
  raising : Bool
  aborted : Option String
  pc : Nat → S2CPc

inductive S2CAction where
  | perform (i : Nat)
  /-- an invocation goes on; in a wait, the semaphore is lowered -/
  | advance (i : Nat)
  | interrupt (i : Nat)
  /-- an invocation finds that the thread is dead, and sends no signal -/
  | noSignal (i : Nat)
  /-- the signal of an invocation cannot be sent -/
  | signalFails (i : Nat)
  /-- the client makes a call, and it becomes the active one -/
  | activate
  | pushCallReply (reply : Nat)
  /-- the client makes the s2c_perform call, as it does when it gets the signal -/
  | s2cPerform
  /-- that call goes on -/
  | s2cPerformed
  | answer (number size : Nat)
  | receive
  | raise
deriving DecidableEq

namespace S2C

/-- A thread with no S2C call under way. -/
def init : S2C where
  performSemaphore := 1
  replySemaphore := 0
  interruptEnterSemaphore := 0
  interruptExitSemaphore := 0
  s2cReply := none
  activeCall := false
  deferReplyForS2C := false
  deferredReply := none
  repliesSent := []
  signals := 0
  toClient := []
  toServer := []
  raising := false
  aborted := none
  pc := fun _ => .idle

def goto (s : S2C) (i : Nat) (pc : S2CPc) : S2C :=
  { s with pc := update s.pc i pc }

def throw (s : S2C) (message : String) : S2C :=
  { s with aborted := some message }

/-- `dtape_semaphore_up(_s2cPerformSempahore)`. -/
def upPerform (s : S2C) : S2C :=
  { s with performSemaphore := s.performSemaphore + 1 }

/-- The part of `_s2cPerform` that extracts the reply, under the lock: the reply is taken, and a deferred one is sent. -/
def takeReply (s : S2C) : S2C :=
  { s with
    s2cReply := none
    deferReplyForS2C := false
    deferredReply := if s.deferReplyForS2C then none else s.deferredReply
    repliesSent := if s.deferReplyForS2C then s.repliesSent ++ s.deferredReply.toList else s.repliesSent }

variable (invocation : Nat → S2CInvocation) (s : S2C)

/-- `Thread::_s2cPerform`, up to the next step of another party. -/
def advance (i : Nat) : Option S2C :=
  match s.pc i with
  | .idle => none
  | .performWait =>
    if 0 < s.performSemaphore then some ({ s with performSemaphore := s.performSemaphore - 1 }.goto i .checking) else none
  | .checking =>
    if ¬s.activeCall then
      some ({ s with signals := s.signals + 1 }.goto i .enterWait)
    else if ¬(invocation i).isCurrentThread then
      some ({ s with deferReplyForS2C := true }.goto i (.sending false))
    else
      some (s.goto i (.sending false))
  | .enterWait =>
    if 0 < s.interruptEnterSemaphore then
      some ({ s with interruptEnterSemaphore := s.interruptEnterSemaphore - 1 }.goto i (.sending true))
    else none
  | .sending usingInterrupt =>
    if ¬(invocation i).inMicrothread then
      some (s.upPerform.throw "Must be in a microthread (any microthread) to wait for S2C reply")
    else
      some ({ s with toClient := s.toClient ++ [i] }.goto i (.replyWait usingInterrupt))
  | .replyWait usingInterrupt =>
    if 0 < s.replySemaphore then
      some ({ s with replySemaphore := s.replySemaphore - 1 }.goto i (.extracting usingInterrupt))
    else none
  | .extracting usingInterrupt =>
    match s.s2cReply with
    | none => some (s.upPerform.throw "S2C reply semaphore incremented, but no reply present")
    | some reply => some (s.takeReply.goto i (.leaving usingInterrupt reply))
  | .leaving usingInterrupt reply =>
    some (s.upPerform.goto i (if usingInterrupt then .resuming reply else .validating reply))
  | .resuming reply =>
    some ({ s with interruptExitSemaphore := s.interruptExitSemaphore + 1 }.goto i (.validating reply))
  | .validating reply =>
    if reply.size ≠ (invocation i).expectedReplySize then
      some (s.throw "Invalid S2C reply: unxpected size")
    else if reply.number ≠ (invocation i).expectedReplyNumber then
      some (s.throw "Invalid S2C reply: unexpected S2C reply number")
    else
      some (s.goto i (.returned (some reply)))
  | .returned _ | .signalFailed => none

/-- An interrupted wait: the invocation returns nothing, and admits the next one if it had been admitted. -/
def interrupt (i : Nat) : Option S2C :=
  match s.pc i with
  | .performWait => some (s.goto i (.returned none))
  | .enterWait | .replyWait _ => some (s.upPerform.goto i (.returned none))
  | _ => none

/-- The ends of `sendSignal` but for a signal that is sent: the invocation goes on at `pc`. -/
def unsignalled (i : Nat) (pc : S2CPc) : Option S2C :=
  if s.pc i = .checking ∧ ¬s.activeCall then some (s.goto i pc) else none

/-- `Call::callFromMessage` for an S2C reply: it is stored, and then the semaphore is raised. -/
def receive : Option S2C :=
  match s.toServer with
  | [] => none
  | reply :: toServer =>
    if s.raising then none
    else if s.s2cReply.isSome then some (s.throw "Received S2C reply but thread already had one pending")
    else some { s with toServer := toServer, s2cReply := some reply, raising := true }

def act : S2CAction → Option S2C
  | .perform i => if s.pc i = .idle then some (s.goto i .performWait) else none
  | .advance i => s.advance invocation i
  | .interrupt i => s.interrupt i
  | .noSignal i => s.unsignalled i .enterWait
  | .signalFails i => s.unsignalled i .signalFailed
  | .activate => if s.activeCall then none else some { s with activeCall := true }
  | .pushCallReply reply =>
    if s.activeCall then
      if s.deferReplyForS2C then some { s with activeCall := false, deferredReply := some reply }
      else some { s with activeCall := false, repliesSent := s.repliesSent ++ [reply] }
    else none
  | .s2cPerform => some { s with interruptEnterSemaphore := s.interruptEnterSemaphore + 1 }
  | .s2cPerformed =>
    if 0 < s.interruptExitSemaphore then some { s with interruptExitSemaphore := s.interruptExitSemaphore - 1 } else none
  | .answer number size =>
    match s.toClient with
    | [] => none
    | i :: toClient => some { s with toClient := toClient, toServer := s.toServer ++ [⟨i, number, size⟩] }
  | .receive => s.receive
  | .raise => if s.raising then some { s with raising := false, replySemaphore := s.replySemaphore + 1 } else none

def step (a : S2CAction) : Option S2C :=
  if s.aborted.isSome then none else s.act invocation a

/-- The invocations on one thread, any number of them, each interrupted anywhere or not. -/
def machine : Machine S2C S2CAction where
  init := init
  step := step invocation

/-! ## Replies and messages -/

/-- Every reply returned is the answer to the message of the invocation that returns it, and the receive path has found no
previous reply pending. -/
def RepliesMatch : Prop :=
  (∀ i reply, s.pc i = .returned (some reply) → reply.answers = i) ∧
    s.aborted ≠ some "Received S2C reply but thread already had one pending"

/-- No S2C message is unanswered, and no answer is on its way or waits to be extracted. -/
def Quiet : Prop := s.toClient = [] ∧ s.toServer = [] ∧ s.s2cReply = none

instance : Decidable s.Quiet := inferInstanceAs (Decidable (_ ∧ _ ∧ _))

def sends (i : Nat) : Bool :=
  match s.pc i with
  | .sending _ => true
  | _ => false

/-- A message is sent only when no other is outstanding. -/
def SendsQuietly : S2CAction → Prop
  | .advance i => s.sends i = true → s.Quiet
  | _ => True

instance (a : S2CAction) : Decidable (SendsQuietly s a) := by
  cases a <;> unfold SendsQuietly <;> infer_instance

/-! ## The invariant -/

/-- The invocations whose message is unanswered or whose answer has not been extracted. -/
def outstanding : List Nat := s.toClient ++ s.toServer.map (·.answers) ++ s.s2cReply.toList.map (·.answers)

/-- The stored reply is the invocation's to extract. -/
def Extractable (i : Nat) : Prop := s.s2cReply.map (·.answers) = some i ∧ s.replySemaphore = 0 ∧ s.raising = false

/-- What holds while an invocation is at a place: its message is the one outstanding while it waits for the reply, the stored
reply is the answer to it once it has lowered the semaphore, and so is the reply it has extracted. -/
def Placed (i : Nat) : S2CPc → Prop
  | .replyWait _ => s.outstanding = [i]
  | .extracting _ => s.Extractable i
  | .leaving _ reply | .resuming reply | .validating reply | .returned (some reply) => reply.answers = i
  | .idle | .performWait | .checking | .enterWait | .sending _ | .returned none | .signalFailed => True

/-- At most one message is outstanding, and the reply that is stored is accounted for by exactly one of the receive path about to
raise the semaphore, the semaphore, and an invocation about to extract it. -/
structure Inv (s : S2C) : Prop where
  single : s.outstanding.length ≤ 1
  raising : s.raising = true → s.s2cReply.isSome = true ∧ s.replySemaphore = 0
  raised : 0 < s.replySemaphore → s.s2cReply.isSome = true ∧ s.replySemaphore = 1
  placed : ∀ i, s.Placed i (s.pc i)
  not_pending : s.aborted ≠ some "Received S2C reply but thread already had one pending"

theorem inv_init : init.Inv where
  single := zero_le 1
  raising := nofun
  raised := nofun
  placed := fun _ => trivial
  not_pending := nofun

/-- The places depend on the state through what is outstanding and what is stored. -/
theorem Placed.imp {s s' : S2C} {i : Nat} {pc : S2CPc} (h : s.Placed i pc) (hout : s.outstanding = [i] → s'.outstanding = [i])
    (hext : s.Extractable i → s'.Extractable i) : s'.Placed i pc := by
  cases pc with
  | replyWait u => exact hout h
  | extracting u => exact hext h
  | idle | performWait | checking | enterWait | sending _ | leaving _ _ | resuming _ | validating _ | signalFailed => exact h
  | returned reply => cases reply <;> exact h

namespace Inv

variable {s s' : S2C} {i : Nat} {invocation : Nat → S2CInvocation}

section

variable (h : s.Inv)

include h

/-- Whatever leaves the messages, the stored reply and its semaphore alone keeps the invariant. -/
theorem congr (hout : s'.outstanding = s.outstanding) (hrep : s'.s2cReply = s.s2cReply)
    (hsem : s'.replySemaphore = s.replySemaphore) (hrs : s'.raising = s.raising) (hpc : s'.pc = s.pc)
    (habort : s'.aborted ≠ some "Received S2C reply but thread already had one pending") : s'.Inv where
  single := by rw [hout]; exact h.single
  raising := by rw [hrs, hrep, hsem]; exact h.raising
  raised := by rw [hrep, hsem]; exact h.raised
  placed := by
    intro i
    rw [hpc]
    refine (h.placed i).imp (fun hi => hout.trans hi) ?_
    unfold Extractable
    rw [hrep, hsem, hrs]
    exact id
  not_pending := habort

theorem upPerform : s.upPerform.Inv := h.congr rfl rfl rfl rfl rfl h.not_pending

theorem throw {message : String} (hne : message ≠ "Received S2C reply but thread already had one pending") :
    (s.throw message).Inv :=
  h.congr rfl rfl rfl rfl rfl (fun hx => hne (some.inj hx))

/-- An invocation moves, and nothing else changes. -/
theorem goto {pc : S2CPc} (hpc : s.Placed i pc) : (s.goto i pc).Inv where
  single := h.single
  raising := h.raising
  raised := h.raised
  placed := (forall_update_iff s.pc s.Placed).2 ⟨hpc, fun j _ => h.placed j⟩
  not_pending := h.not_pending

/-- The stored reply is the one outstanding message. -/
theorem outstanding_of_reply {reply : S2CReply} (hr : s.s2cReply = some reply) :
    s.toClient = [] ∧ s.toServer = [] ∧ s.outstanding = [reply.answers] := by
  have hlen := h.single
  simp only [outstanding, hr, length_append, length_map, toList_some, length_singleton] at hlen
  have hc : s.toClient = [] := length_eq_zero_iff.1 (by omega)
  have hs : s.toServer = [] := length_eq_zero_iff.1 (by omega)
  exact ⟨hc, hs, by simp [outstanding, hr, hc, hs]⟩

/-- A message is sent while no other is outstanding. -/
theorem send (hq : s.Quiet) (i : Nat) (usingInterrupt : Bool) :
    Inv ({ s with toClient := s.toClient ++ [i] }.goto i (.replyWait usingInterrupt)) := by
  obtain ⟨hc, hs, hr⟩ := hq
  have hout : s.outstanding = [] := by simp [outstanding, hc, hs, hr]
  have hout' : outstanding ({ s with toClient := s.toClient ++ [i] }) = [i] := by
    simp [outstanding, hc, hs, hr]
  refine ⟨?_, h.raising, h.raised, ?_, h.not_pending⟩
  · exact le_of_eq (congrArg length hout')
  · refine (forall_update_iff s.pc (Placed { s with toClient := s.toClient ++ [i] })).2 ⟨hout', ?_⟩
    intro j _
    refine (h.placed j).imp ?_ id
    intro hj
    rw [hout] at hj
    cases hj

/-- The invocation that waits lowers the semaphore: the stored reply answers its message. -/
theorem lower (hi : s.outstanding = [i]) (hsem : 0 < s.replySemaphore) (usingInterrupt : Bool) :
    Inv ({ s with replySemaphore := s.replySemaphore - 1 }.goto i (.extracting usingInterrupt)) := by
  obtain ⟨hso, hone⟩ := h.raised hsem
  obtain ⟨reply, hr⟩ := isSome_iff_exists.1 hso
  have hans : s.s2cReply.map (·.answers) = some i := by
    have hout := (h.outstanding_of_reply hr).2.2.symm.trans hi
    rw [hr]
    exact congrArg some (head_eq_of_cons_eq hout)
  have hze : s.replySemaphore - 1 = 0 := by omega
  have hnr : s.raising = false := by
    by_contra hx
    have := (h.raising (by simpa using hx)).2
    omega
  refine ⟨h.single, fun _ => ⟨hso, hze⟩, fun hx => absurd hze (ne_of_gt hx), ?_, h.not_pending⟩
  refine (forall_update_iff s.pc _).2 ⟨⟨hans, hze, hnr⟩, ?_⟩
  intro j _
  exact (h.placed j).imp id (fun hj => ⟨hj.1, hze, hnr⟩)

/-- The reply is extracted, and nothing is outstanding. -/
theorem extract (hi : s.Extractable i) {reply : S2CReply} (hr : s.s2cReply = some reply) (usingInterrupt : Bool) :
    Inv (s.takeReply.goto i (.leaving usingInterrupt reply)) := by
  obtain ⟨hans, hze, hnr⟩ := hi
  obtain ⟨hc, hs, hout⟩ := h.outstanding_of_reply hr
  have hri : reply.answers = i := by
    rw [hr] at hans
    exact some.inj hans
  have hout' : outstanding s.takeReply = [] := by simp [outstanding, takeReply, hc, hs]
  refine ⟨?_, ?_, fun hx => absurd hze (ne_of_gt hx), ?_, h.not_pending⟩
  · exact le_trans (le_of_eq (congrArg length hout')) (zero_le 1)
  · intro hx
    have : s.raising = true := hx
    rw [hnr] at this
    cases this
  · refine (forall_update_iff s.pc s.takeReply.Placed).2 ⟨hri, ?_⟩
    intro j hj
    refine (h.placed j).imp ?_ ?_
    · -- the only invocation whose message is outstanding is the one that extracts
      intro hout''
      exact absurd ((head_eq_of_cons_eq (hout.symm.trans hout'')).symm.trans hri) hj
    · intro hx
      exact absurd (some.inj (hx.1.symm.trans hans)) hj

/-- The receive path finds no reply stored, and stores the one it has received. -/
theorem receive (hs : s.receive = some s') : s'.Inv := by
  unfold S2C.receive at hs
  split at hs
  · cases hs
  rename_i reply toServer htoS
  obtain ⟨-, hs⟩ := ite_none_left_eq_some.1 hs
  cases hr : s.s2cReply with
  | some reply' =>
    -- the stored reply would be a second outstanding message
    have hnil := (h.outstanding_of_reply hr).2.1
    rw [htoS] at hnil
    cases hnil
  | none =>
    rw [hr] at hs
    cases hs
    have hsem : s.replySemaphore = 0 := by
      by_contra hx
      have hso := (h.raised (Nat.pos_of_ne_zero hx)).1
      rw [hr] at hso
      cases hso
    have hsing := h.single
    have hout : outstanding { s with toServer := toServer, s2cReply := some reply, raising := true } = s.outstanding := by
      simp only [outstanding, htoS, map_cons, length_append, length_cons] at hsing
      have hc : s.toClient = [] := length_eq_zero_iff.1 (by omega)
      have ht : toServer.map (·.answers) = [] := length_eq_zero_iff.1 (by omega)
      simp [outstanding, htoS, hr, hc, ht]
    refine ⟨hout ▸ hsing, fun _ => ⟨rfl, hsem⟩, fun hx => absurd hsem (ne_of_gt hx), ?_, h.not_pending⟩
    intro j
    refine (h.placed j).imp (fun hj => hout.trans hj) ?_
    intro hx
    have hx1 := hx.1
    rw [hr] at hx1
    cases hx1

/-- The receive path raises the semaphore. -/
theorem raise (hr : s.raising = true) : Inv { s with raising := false, replySemaphore := s.replySemaphore + 1 } := by
  obtain ⟨hso, hze⟩ := h.raising hr
  refine ⟨h.single, nofun, ?_, ?_, h.not_pending⟩
  · intro _
    exact ⟨hso, congrArg (· + 1) hze⟩
  · intro j
    refine (h.placed j).imp id ?_
    intro hx
    rw [Extractable, hr] at hx
    cases hx.2.2

/-- Every step of an invocation, with its message sent while no other is outstanding. -/
theorem advance (hq : s.sends i = true → s.Quiet) (hs : s.advance invocation i = some s') : s'.Inv := by
  have hi := h.placed i
  unfold S2C.advance at hs
  generalize hpc : s.pc i = pc at hs hi
  cases pc with
  | idle | returned reply | signalFailed =>
    cases hs
  | performWait | enterWait =>
    obtain ⟨-, rfl⟩ := of_guarded hs
    refine goto ?_ trivial
    exact h.congr rfl rfl rfl rfl rfl h.not_pending
  | checking =>
    simp only at hs
    repeat' split at hs
    all_goals
      cases hs
      refine goto ?_ trivial
      exact h.congr rfl rfl rfl rfl rfl h.not_pending
  | sending u =>
    simp only at hs
    split at hs
    · cases hs
      exact h.upPerform.throw (by decide)
    · cases hs
      exact h.send (hq (by simp [sends, hpc])) i u
  | replyWait u =>
    obtain ⟨hsem, rfl⟩ := of_guarded hs
    exact h.lower hi hsem u
  | extracting u =>
    simp only at hs
    split at hs
    · cases hs
      exact h.upPerform.throw (by decide)
    · rename_i reply hr
      cases hs
      exact h.extract hi hr u
  | leaving u reply =>
    cases hs
    refine h.upPerform.goto ?_
    cases u <;> exact hi
  | resuming reply =>
    cases hs
    refine goto ?_ hi
    exact h.congr rfl rfl rfl rfl rfl h.not_pending
  | validating reply =>
    simp only at hs
    split at hs
    · cases hs
      exact h.throw (by decide)
    · split at hs
      · cases hs
        exact h.throw (by decide)
      · cases hs
        exact h.goto hi

/-- An interrupted wait leaves what is outstanding as it is. -/
theorem interrupt (hs : s.interrupt i = some s') : s'.Inv := by
  unfold S2C.interrupt at hs
  split at hs
  · cases hs
    exact h.goto trivial
  · cases hs
    exact h.upPerform.goto trivial
  · cases hs
    exact h.upPerform.goto trivial
  · cases hs

theorem act {a : S2CAction} (hok : SendsQuietly s a) (hs : s.act invocation a = some s') : s'.Inv := by
  cases a with
  | perform i =>
    obtain ⟨-, rfl⟩ := of_guarded hs
    exact h.goto trivial
  | advance i => exact h.advance hok hs
  | interrupt i => exact h.interrupt hs
  | noSignal i | signalFails i =>
    obtain ⟨-, rfl⟩ := of_guarded hs
    exact h.goto trivial
  | activate =>
    obtain ⟨-, hs⟩ := ite_none_left_eq_some.1 hs
    cases hs
    exact h.congr rfl rfl rfl rfl rfl h.not_pending
  | pushCallReply reply =>
    obtain ⟨-, hs⟩ := ite_none_right_eq_some.1 hs
    split at hs
    · cases hs
      exact h.congr rfl rfl rfl rfl rfl h.not_pending
    · cases hs
      exact h.congr rfl rfl rfl rfl rfl h.not_pending
  | s2cPerform =>
    cases hs
    exact h.congr rfl rfl rfl rfl rfl h.not_pending
  | s2cPerformed =>
    obtain ⟨-, rfl⟩ := of_guarded hs
    exact h.congr rfl rfl rfl rfl rfl h.not_pending
  | answer number size =>
    simp only [S2C.act] at hs
    split at hs <;> cases hs
    rename_i i toClient htoCl
    refine h.congr ?_ rfl rfl rfl rfl h.not_pending
    have hlen := h.single
    simp only [outstanding, htoCl, length_append, length_cons, length_map] at hlen
    have hc : toClient = [] := length_eq_zero_iff.1 (by omega)
    have ht : s.toServer = [] := length_eq_zero_iff.1 (by omega)
    simp [outstanding, htoCl, hc, ht]
  | receive => exact h.receive hs
  | raise =>
    obtain ⟨hr, rfl⟩ := of_guarded hs
    exact h.raise hr

theorem repliesMatch : s.RepliesMatch := by
  refine ⟨?_, h.not_pending⟩
  intro i reply hpc
  have hi := h.placed i
  rw [hpc] at hi
  exact hi

end

end Inv

/-! ## Runs -/

/-- In every run in which messages are sent only while no other is outstanding, the replies match their messages and the
receive path never finds a reply pending. -/
theorem replies_match_of_quiet {invocation : Nat → S2CInvocation} {s : S2C} (h : (machine invocation).Reaches SendsQuietly s) :
    s.RepliesMatch := by
  have hinv : s.Inv := by
    refine Machine.Reaches.invariant inv_init ?_ h
    intro s a s' hs hok hst
    exact hs.act hok (ite_none_left_eq_some.1 hst).2
  exact hinv.repliesMatch

/-- An invocation made by the thread itself, as for its own mmap. -/
def ownInvocation : S2CInvocation where
  inMicrothread := true
  isCurrentThread := true
  expectedReplyNumber := 1
  expectedReplySize := 24

def performOnce (i : Nat) : List S2CAction :=
  [.perform i, .advance i, .advance i, .advance i, .answer 1 24, .receive, .raise, .advance i, .advance i, .advance i, .advance i]

/-- Two of them, one after the other while a third one waits, return the answers to their own messages. -/
theorem performOnce_replies_match : ∃ s, (machine fun _ => ownInvocation).runOk SendsQuietly init
      ([.activate, .perform 2] ++ performOnce 0 ++ performOnce 1) = some s ∧
    (s.pc 0 = .returned (some ⟨0, 1, 24⟩) ∧ s.pc 1 = .returned (some ⟨1, 1, 24⟩) ∧ s.pc 2 = .performWait) ∧ s.RepliesMatch := by
  refine (exists_of_runOk ?_).imp fun s h => ⟨h.1, h.2, replies_match_of_quiet (reaches_of_runOk h.1)⟩
  decide

/-- The wait of a first invocation for its reply is interrupted. A second one sends its message; then the client answers the
first. -/
def performAfterInterrupt : List S2CAction :=
  [.activate, .perform 0, .advance 0, .advance 0, .advance 0, .interrupt 0, .perform 1, .advance 1, .advance 1, .advance 1,
    .answer 1 24, .receive, .raise, .advance 1, .advance 1, .advance 1, .advance 1]

/-- The second invocation returns the answer to the message of the first. -/
theorem replies_match_false : ¬∀ invocation s, (machine invocation).Reachable s → s.RepliesMatch := by
  intro h
  obtain ⟨s, hs, hpc⟩ := exists_reachable_of_run (M := machine fun _ => ownInvocation) performAfterInterrupt
    (P := fun s => s.pc 1 = .returned (some ⟨0, 1, 24⟩)) (by decide)
  cases (h _ s hs).1 1 _ hpc

end S2C

end Osxie.Server
