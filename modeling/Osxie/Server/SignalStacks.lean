import Osxie.Server.SignalSteady

/-!
# The two stacks stay in step

Between two steps the user states and the contexts of a thread are as many, but for the interrupt that is being entered or left.
With a client that sends its interrupt calls in pairs this holds in every run.
-/

namespace Osxie.Server

open List Option
open DuctTape UserStates Session

namespace SignalStates

variable {ρ : Type}

/-- The invariant. Of the interrupt calls that were issued, those that are not answered yet make the difference between the
calls and the user states. -/
structure Inv (s : SignalStates ρ) : Prop where
  steady : Steady s.session
  depth : s.session.thread.interrupts.length =
    s.userStates.allocated.length + (entering s.session).toNat + (leaving s.session).toNat
  balance : numbered .interruptEnter s.session.issued + numbered .interruptExit s.session.requests + (answering s.session).toNat =
    numbered .interruptExit s.session.issued + s.userStates.allocated.length + numbered .interruptEnter s.session.requests
  matched : numbered .interruptExit s.session.issued ≤ numbered .interruptEnter s.session.issued
  popped : s.poppedEmpty = false
  kept : s.userStates.defaultState.isSome = true
  below : s.userStates.toList.tail = s.entered
  restored : ∀ p ∈ s.exits, p.1 = p.2

variable {s : SignalStates ρ}

section

variable (h : Inv s)

include h

theorem Inv.disciplined : Disciplined s where
  depth := h.depth
  popped := h.popped
  kept := h.kept
  restored := h.restored

omit h in
theorem inv_init [Zero ρ] : Inv (init : SignalStates ρ) where
  steady := by
    refine ⟨rfl, trivial, rfl, nofun, .inr (.inr rfl), nofun, nofun, nofun, .inl rfl⟩
  depth := rfl
  balance := rfl
  matched := le_rfl
  popped := rfl
  kept := rfl
  below := rfl
  restored := nofun

/-- A step of the server that keeps its stacks in step. -/
theorem Inv.keeps {session : Session} (hk : Keeps s.session session) : Inv { s with session := session } := by
  have hdep := hk.depth
  have hbal := h.balance
  have hent := hk.requests .interruptEnter nofun
  have hxt := hk.requests .interruptExit nofun
  exact { h with
    steady := hk.steady
    depth := by
      have := h.depth
      dsimp only
      omega
    balance := by
      rw [hk.issued, hk.answering, hent, hxt]
      exact hbal
    matched := by
      rw [hk.issued]
      exact h.matched }

/-- A call that is sent is one more to be answered. -/
theorem Inv.send {number : CallNumber} (hok : Matched s (.send number)) :
    Inv { s with session := s.session.issue (s.session.newCall number) s.session.client s.session.frames } := by
  have hnum : (s.session.newCall number).number = number := rfl
  generalize s.session.newCall number = call at hnum ⊢
  have hreq : (s.session.issue call s.session.client s.session.frames).requests = s.session.requests ++ [call] := by
    simp [requests, issue]
  have hone : OneAtATime (s.session.requests ++ [call]) := by
    cases number with
    | interruptEnter =>
      rcases hok with hnil | hoth
      · rw [hnil]
        exact .inr (.inl ⟨_, rfl⟩)
      · obtain ⟨c, hc, hcn⟩ := map_eq_singleton_iff.1 hoth
        rw [hc]
        exact .inr (.inr ⟨c, _, rfl, hcn, hnum⟩)
    | interruptExit =>
      rw [hok.1]
      exact .inr (.inl ⟨_, rfl⟩)
    | other =>
      rw [show s.session.requests = [] from hok]
      exact .inr (.inl ⟨_, rfl⟩)
  refine { h with steady := { h.steady with oneAtATime := hreq ▸ hone }, balance := ?_, matched := ?_ }
  · have hbal := h.balance
    simp only [hreq, numbered_append]
    simp only [issue, answering, numbered_append] at hbal ⊢
    omega
  · have hmatc := h.matched
    simp only [issue, numbered_append]
    cases number with
    | interruptEnter | other =>
      have : numbered .interruptExit [call] = 0 := by simp [numbered, hnum]
      omega
    | interruptExit =>
      have hlt : numbered .interruptExit s.session.issued < numbered .interruptEnter s.session.issued := hok.2
      have : numbered .interruptExit [call] = 1 := by simp [numbered, hnum]
      omega

omit h in
theorem toList_setState_tail (u : UserStates ρ) (registers : ρ) : (u.setState registers).toList.tail = u.toList.tail := by
  obtain ⟨allocated, defaultState⟩ := u
  cases allocated with
  | cons a allocated => rfl
  | nil =>
    cases defaultState with
    | none | some d => rfl

/-- Registers that are set are those of the innermost state. -/
theorem Inv.setState (registers : ρ) : Inv { s with userStates := s.userStates.setState registers } := by
  have hlen : (s.userStates.setState registers).allocated.length = s.userStates.allocated.length := by
    unfold UserStates.setState
    split
    · rename_i hx
      simp [hx]
    · rename_i hx
      simp [hx]
  refine { h with depth := ?_, balance := ?_, kept := ?_, below := ?_ }
  · rw [hlen]
    exact h.depth
  · rw [hlen]
    exact h.balance
  · have hkept := h.kept
    unfold UserStates.setState
    split
    · exact hkept
    · simpa using hkept
  · rw [toList_setState_tail]
    exact h.below

section

variable (hpl : s.session.place = .inMicrothread)

include hpl

/-- The user state of an interrupt is inserted above the registers that are current. -/
theorem Inv.enters [Zero ρ] {e : Call} (hpg : s.session.program = .handling e) :
    Inv { s.enters with session := { s.session with
      thread := s.session.thread.endInterrupt
      program := .answering e } } := by
  have hste := h.steady
  have hft := hste.fits_at hpg
  have hreq : ({ s.session with thread := s.session.thread.endInterrupt, program := .answering e } : Session).requests =
      s.session.requests := rfl
  have hdep := h.depth
  have hbal := h.balance
  simp only [entering, leaving, hpg, inEnter, answering] at hdep hbal
  refine { h with steady := ?_, depth := ?_, balance := ?_, below := ?_ }
  · exact { hste with
      active := by
        have := hste.active
        rw [hpg] at this
        exact this
      fits := hft
      handling := rfl
      off := fun hx => absurd hpl (hste.off hx).2.1
      on := .inl hpl
      override := by simp [Thread.endInterrupt] }
  · simp [entering, leaving, inEnter, hpl, Thread.endInterrupt, SignalStates.enters, sigexcEnter2] at hdep ⊢
    omega
  · simp [SignalStates.enters, sigexcEnter2, answering, hreq] at hbal ⊢
    omega
  · have hbel := h.below
    have hkept := h.kept
    obtain ⟨d, hd⟩ := isSome_iff_exists.1 hkept
    simp only [SignalStates.enters, UserStates.sigexcEnter2, UserStates.toList, UserStates.getState, cons_append,
      tail_cons, hd] at hbel ⊢
    rw [← hbel]
    cases s.userStates.allocated <;> rfl

theorem Inv.answer {e : Call} (hpg : s.session.program = .answering e) :
    Inv { s with session := s.session.reply e .finished } := by
  have hft : e.number = .interruptEnter := h.steady.fits_at hpg
  obtain ⟨deferred, sent, hrep, hreq, hste⟩ := h.steady.replied hpl (by rw [hpg]; rfl) (by rw [hpg]; rfl) .finished (.inl rfl)
  have hdep := h.depth
  have hbal := h.balance
  rw [hreq, numbered_cons_self hft, numbered_cons_of_ne (by rw [hft]; nofun)] at hbal
  simp only [entering, leaving, answering, hpg, hpl, inEnter] at hdep hbal
  refine { h with steady := hste, depth := ?_, balance := ?_, matched := ?_ }
  · rw [hrep]
    simpa [entering, leaving, hpl, inEnter] using hdep
  · have hiss : (s.session.reply e .finished).issued = s.session.issued := by rw [hrep]
    have hns : answering (s.session.reply e .finished) = false := by rw [hrep]; rfl
    simp only [hiss, hns, Bool.toNat_false, Bool.toNat_true] at hbal ⊢
    omega
  · rw [hrep]
    exact h.matched

omit hpl in
/-- An interrupt_exit that is processed finds the user state of its interrupt. -/
theorem Inv.allocated_ne_nil {x : Call} (hpg : s.session.program = .exiting x) :
    ∃ a allocated, s.userStates.allocated = a :: allocated := by
  have hft : x.number = .interruptExit := h.steady.fits_at hpg
  have hone := h.steady.oneAtATime
  have hact : s.session.thread.activeCall = some x := by rw [h.steady.active, hpg]; rfl
  have hreq : s.session.requests = [x] := by
    obtain ⟨rest, hrs⟩ : ∃ rest, s.session.requests = x :: rest := ⟨_, by simp only [requests, hact]; rfl⟩
    rw [hrs] at hone ⊢
    rcases hone with hx | ⟨c, hx⟩ | ⟨c, d, hx, hc, _⟩
    · cases hx
    · cases hx
      rfl
    · cases hx
      rw [hft] at hc
      cases hc
  have hbal := h.balance
  have hmatc := h.matched
  rw [hreq, numbered_cons_self hft, numbered_cons_of_ne (by rw [hft]; simp)] at hbal
  have hpos : 0 < s.userStates.allocated.length := by
    simp only [numbered, countP_nil] at hbal hmatc
    omega
  exact exists_cons_of_length_pos hpos

/-- The user state of an interrupt is removed, and the registers below it are current again. -/
theorem Inv.leaves {x : Call} (hpg : s.session.program = .exiting x) :
    Inv { s.leaves with session := s.session.reply x .popping } := by
  have hft : x.number = .interruptExit := h.steady.fits_at hpg
  obtain ⟨a, allocated, halloc⟩ := h.allocated_ne_nil hpg
  obtain ⟨d, hd⟩ := isSome_iff_exists.1 h.kept
  obtain ⟨deferred, sent, hrep, hreq, hste⟩ := h.steady.replied hpl (by rw [hpg]; rfl) (by rw [hpg]; rfl) .popping (.inr rfl)
  have hxt : s.userStates.sigexcExit = ⟨allocated, some d⟩ := by
    unfold sigexcExit
    rw [halloc, ← hd]
  have hbel : allocated ++ [d] = s.entered := by
    rw [← h.below]
    simp [UserStates.toList, halloc, hd]
  have hdep := h.depth
  have hbal := h.balance
  rw [hreq, numbered_cons_self hft, numbered_cons_of_ne (by rw [hft]; nofun)] at hbal
  simp only [entering, leaving, answering, hpg, hpl, inEnter, halloc, length_cons] at hdep hbal
  have hiss : (s.session.reply x .popping).issued = s.session.issued := by rw [hrep]
  exact {
    steady := hste
    depth := by
      rw [hrep]
      simp only [SignalStates.leaves, hxt, entering, leaving, hpl, inEnter] at hdep ⊢
      exact hdep
    balance := by
      have hns : answering (s.session.reply x .popping) = false := by rw [hrep]; rfl
      simp only [SignalStates.leaves, hxt, hiss, hns, Bool.toNat_false] at hbal ⊢
      omega
    matched := by
      simp only [hiss]
      exact h.matched
    popped := by simp [SignalStates.leaves, h.popped, UserStates.toList, halloc]
    kept := by simp [SignalStates.leaves, hxt]
    below := by
      simp only [SignalStates.leaves, hxt, UserStates.toList, toList_some]
      rw [hbel]
    restored := by
      intro p hp
      simp only [SignalStates.leaves, mem_append, mem_singleton] at hp
      rcases hp with hp | rfl
      · exact h.restored p hp
      · rw [hxt, ← hbel]
        rfl }

end

/-- What the microthread does keeps the stacks in step. -/
theorem Inv.run [Zero ρ] {s' : SignalStates ρ} (hs : s.run = some s') : Inv s' := by
  obtain ⟨session, hses, rfl⟩ := map_eq_some_iff.1 hs
  obtain ⟨hpl, hses⟩ := ite_none_right_eq_some.1 hses
  generalize hpg : s.session.program = program at hses
  cases program with
  | serving c =>
    cases hses
    exact h.keeps (h.steady.serve hpl hpg)
  | entering e =>
    cases hses
    exact h.keeps (h.steady.beginInterrupt hpl hpg)
  | handling e =>
    obtain hx | ⟨x, hx⟩ := eq_none_or_eq_some s.session.thread.expectedCall
    · simp only [hx, some.injEq] at hses
      simp only [hx, if_true]
      exact hses ▸ h.enters hpl hpg
    · simp only [hx, some.injEq] at hses
      simp only [hx, reduceCtorEq, if_false]
      exact h.keeps (hses ▸ h.steady.saveReply hpg x)
  | answering e =>
    cases hses
    exact h.answer hpl hpg
  | exiting x =>
    cases hses
    exact h.leaves hpl hpg
  | popping =>
    cases hses
    have hstack : s.session.thread.interrupts ≠ [] := by
      intro hnil
      have hdep := h.depth
      simp [leaving, hpg, hnil] at hdep
    have hpop : (s.poppedEmpty || s.session.thread.interrupts.isEmpty) = false := by
      rw [h.popped, isEmpty_eq_false_iff.2 hstack]
      rfl
    simp only [hpop]
    have hkeeps := h.keeps (h.steady.pop hpl hpg hstack)
    exact { hkeeps with popped := rfl }
  | finished =>
    cases hses
    exact h.keeps (h.steady.finish hpl hpg)

/-- Every step with a call that matches keeps the invariant. -/
theorem Inv.act [Zero ρ] {a : SignalAction ρ} (hok : Matched s a) {s' : SignalStates ρ} (hs : s.act a = some s') : Inv s' := by
  cases a with
  | send number => exact some.inj hs ▸ h.send hok
  | pushReply reply =>
    cases hs
    exact h.keeps (h.steady.thread ⟨rfl, rfl, rfl, rfl, rfl, rfl, rfl⟩ (by simp))
  | receive =>
    obtain ⟨session, hses, rfl⟩ := map_eq_some_iff.1 hs
    exact h.keeps (h.steady.receive hses)
  | work =>
    obtain ⟨session, hses, rfl⟩ := map_eq_some_iff.1 hs
    exact h.keeps (h.steady.work hses)
  | run => exact h.run hs
  | suspend continuationCallback =>
    obtain ⟨session, hses, rfl⟩ := map_eq_some_iff.1 hs
    exact h.keeps (h.steady.suspend hses)
  | deferReplies =>
    obtain ⟨session, hses, rfl⟩ := map_eq_some_iff.1 hs
    obtain ⟨_, rfl⟩ := of_guarded hses
    exact h.keeps (h.steady.thread (t := { s.session.thread with deferReplyForS2C := true })
      ⟨rfl, rfl, rfl, rfl, rfl, rfl, rfl⟩ rfl)
  | endDeferReplies =>
    cases hs
    exact h.keeps (h.steady.thread (alike_endDeferReply _) rfl)
  | setState registers => exact some.inj hs ▸ h.setState registers

end

/-- The two stacks keep their discipline in every run of a client that matches its interrupts and makes one call at a time. -/
theorem stacks_disciplined_of_matched [Zero ρ] (h : machine.Reaches Matched s) : Disciplined s := by
  have hinv : Inv s := by
    refine Machine.Reaches.invariant inv_init ?_ h
    intro s a s' hinv hok hst
    exact hinv.act hok (ite_none_left_eq_some.1 hst).2
  exact hinv.disciplined

/-- A call is suspended and interrupted, and the interrupt handler, whose registers are set, is interrupted itself. -/
def nestedInterrupts : List (SignalAction Nat) :=
  [.setState 1, .send .other, .receive, .work, .work, .work, .suspend false, .work, .send .interruptEnter, .receive, .work,
    .work, .work, .run, .run, .run, .run, .run, .work, .setState 2, .send .interruptEnter, .receive, .work, .work, .work,
    .run, .run, .run, .run, .work, .setState 3, .send .interruptExit, .receive, .work, .work, .work, .run, .run, .run, .work]

/-- The registers of the outer interrupt are current again after the inner one. -/
theorem nestedInterrupts_disciplined : ∃ s, machine.runOk Matched init nestedInterrupts = some s ∧ s.exits = [(some 2, some 2)] ∧
    s.session.thread.interrupts.length = 1 ∧ s.userStates = ⟨[2], some 1⟩ ∧ Disciplined s := by
  obtain ⟨s, hs, hexits, hlen, hstat⟩ : ∃ s, machine.runOk Matched init nestedInterrupts = some s ∧
      s.exits = [(some 2, some 2)] ∧ s.session.thread.interrupts.length = 1 ∧ s.userStates = ⟨[2], some 1⟩ :=
    Machine.exists_of_runOk (by decide)
  exact ⟨s, hs, hexits, hlen, hstat, stacks_disciplined_of_matched (Machine.reaches_of_runOk hs)⟩

end SignalStates

end Osxie.Server
