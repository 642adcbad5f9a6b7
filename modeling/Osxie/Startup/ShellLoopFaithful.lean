import Osxie.Startup.ShellLoop

/-!
# What the loop of a running shell copies, and when it exits

The loop copies everything in order, and stays, as long as the calls give it what it takes for granted (`AsExpected`).
-/

namespace Osxie.Startup.ShellLoop

open Machine Nat List

/-- While the shell runs the loop goes on, and what was written is the beginning of what was supplied, in both directions. -/
structure Faithful (s : ShellLoop) : Prop where
  looping : s.running = true → s.place.looping = true
  input : s.input.written <+: s.input.supplied
  output : s.output.written <+: s.output.supplied

/-- The call gives the loop something. -/
def Gives : Option Nat → Prop
  | some n => 0 < n
  | none => False

instance (result : Option Nat) : Decidable (Gives result) := by
  induction result <;> unfold Gives <;> infer_instance

/-- A call gives the loop what it takes for granted. -/
def AsExpected (proxied : Bool) (s : ShellLoop) : Action → Prop
  | .signal signo accepted => accepted = (signalCommand proxied signo).bytes.length
  | .poll error revents => s.running = true → error ≠ some .other ∧ revents.socket = false
  | .ioctl result | .readStdin result => s.running = true → Gives result
  | .writeStdout accepted => s.place = .writeStdout accepted
  | .writeMaster accepted => s.place = .writeMaster accepted
  | _ => True

instance (proxied : Bool) (s : ShellLoop) (act : Action) : Decidable (AsExpected proxied s act) := by
  cases act <;> unfold AsExpected <;> infer_instance

/-! ## The invariant -/

/-- The bytes of the buffer that are held for the master. -/
def heldInput (buf : List UInt8) : LoopPlace → List UInt8
  | .writeMaster rd => buf.take rd
  | _ => []

/-- The bytes of the buffer that are held for standard output. -/
def heldOutput (buf : List UInt8) : LoopPlace → List UInt8
  | .writeStdout rd => buf.take rd
  | _ => []

/-- Nothing is lost, the loop is left only when the shell has ended, and the socket is read only then. -/
structure Inv (s : ShellLoop) : Prop where
  input : s.input.Intact (heldInput s.buf s.place)
  output : s.output.Intact (heldOutput s.buf s.place)
  looping : s.running = true → s.place.looping = true
  socket : s.running = true → s.revents.socket = false ∧ s.place ≠ .readSocket

variable {s : ShellLoop} {proxied : Bool}

theorem Inv.faithful (h : s.Inv) : s.Faithful := ⟨h.looping, h.input.written_isPrefix, h.output.written_isPrefix⟩

structure Idle (s : ShellLoop) : Prop where
  input : s.input.Intact []
  output : s.output.Intact []
  socket : s.running = true → s.revents.socket = false

theorem Inv.idle (h : s.Inv) {place : LoopPlace} (hpl : s.place = place)
    (hhe : heldInput s.buf place = [] ∧ heldOutput s.buf place = []) : s.Idle := by
  subst hpl
  refine ⟨?_, ?_, fun hrn => (h.socket hrn).1⟩
  · rw [← hhe.1]
    exact h.input
  · rw [← hhe.2]
    exact h.output

/-- The loop goes on at a place where it holds nothing. -/
theorem Idle.goes (h : s.Idle) {place : LoopPlace} (hloop : s.running = true → place.looping = true ∧ place ≠ .readSocket)
    (hhe : heldInput s.buf place = [] ∧ heldOutput s.buf place = []) : ({ s with place := place } : ShellLoop).Inv where
  input := hhe.1.symm ▸ h.input
  output := hhe.2.symm ▸ h.output
  looping hrn := (hloop hrn).1
  socket hrn := ⟨h.socket hrn, (hloop hrn).2⟩

theorem Idle.testSocket (h : s.Idle) : s.testSocket.Inv := by
  unfold ShellLoop.testSocket
  split
  · rename_i hrdy
    refine h.goes (fun hrn => ?_) ⟨rfl, rfl⟩
    rw [h.socket hrn] at hrdy
    cases hrdy
  · exact h.goes (fun _ => ⟨rfl, nofun⟩) ⟨rfl, rfl⟩

theorem Idle.testStdin (h : s.Idle) : s.testStdin.Inv := by
  unfold ShellLoop.testStdin
  split
  · exact h.goes (fun _ => ⟨rfl, nofun⟩) ⟨rfl, rfl⟩
  · exact h.testSocket

theorem Idle.testMaster (h : s.Idle) : s.testMaster.Inv := by
  unfold ShellLoop.testMaster
  split
  · exact h.goes (fun _ => ⟨rfl, nofun⟩) ⟨rfl, rfl⟩
  · exact h.testStdin

/-! ## Steps -/

variable {rd : Nat} {result : Option Nat}

/-- What was read is at the start of the buffer. -/
theorem take_fill (s : ShellLoop) {bytes : List UInt8} (hlen : bytes.length = rd) : (s.fill bytes).buf.take rd = bytes :=
  take_left' hlen

section

variable (h : s.Inv)

include h

theorem Inv.polled (hpl : s.place = .poll) {error : Option Errno} {revents : Revents}
    (hok : AsExpected proxied s (.poll error revents)) : (s.polled proxied error revents).Inv := by
  have hid := h.idle hpl ⟨rfl, rfl⟩
  have hsock (hrn : s.running = true) :
      (if proxied then revents else { revents with stdin := false, master := false }).socket = false := by
    cases proxied <;> exact (hok hrn).2
  unfold ShellLoop.polled
  split
  · exact hid.goes (fun hrn => absurd rfl (hok hrn).1) ⟨rfl, rfl⟩
  · exact Idle.testMaster ⟨hid.input, hid.output, hsock⟩

theorem Inv.masterRead (hpl : s.place = .readMaster) (hret : Returns bufSize s.output result) : (s.masterRead result).Inv := by
  have hid := h.idle hpl ⟨rfl, rfl⟩
  unfold ShellLoop.masterRead
  split
  · exact hid.testStdin
  · exact hid.testStdin
  · rename_i rd _
    refine ⟨hid.input, ?_, fun _ => rfl, fun hrn => ⟨hid.socket hrn, nofun⟩⟩
    show (s.output.read rd).Intact ((s.fill (s.output.waiting.take rd)).buf.take rd)
    rw [take_fill s (length_take_of_le hret.2)]
    exact hid.output.read rd

theorem Inv.stdoutWritten (hpl : s.place = .writeStdout rd) : (s.stdoutWritten rd rd).Inv := by
  have hhe := h.output
  have hinp := h.input
  rw [hpl] at hhe hinp
  have hid : ({ s with output := s.output.write ((s.buf.take rd).take rd) } : ShellLoop).Idle := by
    refine ⟨hinp, ?_, fun hrn => (h.socket hrn).1⟩
    rw [take_take, min_self]
    exact hhe.write
  unfold ShellLoop.stdoutWritten
  split
  · exact hid.goes (fun _ => ⟨rfl, nofun⟩) ⟨rfl, rfl⟩
  · exact hid.testStdin

theorem Inv.ioctlDone (hpl : s.place = .ioctl) (hok : AsExpected proxied s (.ioctl result)) : (s.ioctlDone result).Inv := by
  have hid := h.idle hpl ⟨rfl, rfl⟩
  unfold ShellLoop.ioctlDone
  split
  · exact hid.goes (fun hrn => (hok hrn).elim) ⟨rfl, rfl⟩
  · exact hid.goes (fun _ => ⟨rfl, nofun⟩) ⟨rfl, rfl⟩

theorem Inv.stdinRead (hpl : s.place = .readStdin rd) (hret : Returns rd s.input result)
    (hok : AsExpected proxied s (.readStdin result)) : (s.stdinRead result).Inv := by
  have hid := h.idle hpl ⟨rfl, rfl⟩
  unfold ShellLoop.stdinRead
  split
  · exact hid.goes (fun hrn => (hok hrn).elim) ⟨rfl, rfl⟩
  · exact hid.goes (fun hrn => absurd (hok hrn) (lt_irrefl 0)) ⟨rfl, rfl⟩
  · rename_i n _
    refine ⟨?_, hid.output, fun _ => rfl, fun hrn => ⟨hid.socket hrn, nofun⟩⟩
    show (s.input.read n).Intact ((s.fill (s.input.waiting.take n)).buf.take n)
    rw [take_fill s (length_take_of_le hret.2)]
    exact hid.input.read n

theorem Inv.masterWritten (hpl : s.place = .writeMaster rd) : (s.masterWritten rd rd).Inv := by
  have hhe := h.input
  have houtp := h.output
  rw [hpl] at hhe houtp
  have hid : ({ s with input := s.input.write ((s.buf.take rd).take rd) } : ShellLoop).Idle := by
    refine ⟨?_, houtp, fun hrn => (h.socket hrn).1⟩
    rw [take_take, min_self]
    exact hhe.write
  unfold ShellLoop.masterWritten
  split
  · exact hid.goes (fun _ => ⟨rfl, nofun⟩) ⟨rfl, rfl⟩
  · exact hid.testSocket

/-- The socket is read only when the shell has ended. -/
theorem Inv.socketRead (hpl : s.place = .readSocket) (result : Option Int) : (s.socketRead result).Inv := by
  have hid := h.idle hpl ⟨rfl, rfl⟩
  have hxt (status : Int) (message : String) : (s.exit status message).Inv :=
    hid.goes (fun hrn => absurd hpl (h.socket hrn).2) ⟨rfl, rfl⟩
  unfold ShellLoop.socketRead
  split
  · exact hxt _ _
  · split
    · exact hxt _ _
    · exact hxt _ _

theorem Inv.signalHandler {signo accepted : Nat} (hok : AsExpected proxied s (.signal signo accepted)) :
    (s.signalHandler proxied signo accepted).Inv := by
  replace hok : accepted = (signalCommand proxied signo).bytes.length := hok
  unfold ShellLoop.signalHandler
  rw [if_neg (not_not_intro hok)]
  exact { h with }

theorem inv_step {act : Action} {s' : ShellLoop} (hok : AsExpected proxied s act) (hst : step proxied s act = some s') :
    s'.Inv := by
  cases act with
  | typed bytes =>
    cases hst
    exact ⟨h.input.supply bytes, h.output, h.looping, h.socket⟩
  | printed bytes =>
    cases hst
    exact ⟨h.input, h.output.supply bytes, h.looping, h.socket⟩
  | shellEnds =>
    cases hst
    exact ⟨h.input, h.output, nofun, nofun⟩
  | signal signo accepted =>
    obtain ⟨-, rfl⟩ := of_guarded hst
    exact h.signalHandler hok
  | poll error revents =>
    obtain ⟨hpl, rfl⟩ := of_guarded hst
    exact h.polled hpl hok
  | readMaster result =>
    obtain ⟨⟨hpl, hret⟩, rfl⟩ := of_guarded hst
    exact h.masterRead hpl hret
  | writeStdout accepted =>
    replace hok : s.place = .writeStdout accepted := hok
    simp only [step, hok] at hst
    obtain ⟨-, rfl⟩ := of_guarded hst
    exact h.stdoutWritten hok
  | ioctl result =>
    obtain ⟨⟨hpl, -⟩, rfl⟩ := of_guarded hst
    exact h.ioctlDone hpl hok
  | readStdin result =>
    simp only [step] at hst
    split at hst
    · rename_i rd hpl
      obtain ⟨hret, rfl⟩ := of_guarded hst
      exact h.stdinRead hpl hret hok
    · cases hst
  | writeMaster accepted =>
    replace hok : s.place = .writeMaster accepted := hok
    simp only [step, hok] at hst
    obtain ⟨-, rfl⟩ := of_guarded hst
    exact h.masterWritten hok
  | readSocket result =>
    obtain ⟨hpl, rfl⟩ := of_guarded hst
    exact h.socketRead hpl result

end

/-- In every run whose calls give the loop what it takes for granted, nothing is lost and the loop goes on as long as the
shell runs. -/
theorem faithful_of_asExpected {proxied : Bool} {s : ShellLoop} (h : (machine proxied).Reaches (AsExpected proxied) s) :
    s.Faithful := by
  have hinit : (machine proxied).init.Inv := ⟨rfl, rfl, fun _ => rfl, fun _ => ⟨rfl, LoopPlace.noConfusion⟩⟩
  exact (h.invariant hinit fun hs => inv_step hs).faithful

/-- The shell prints, the user types while a signal arrives, and the shell ends. -/
theorem faithful_of_asExpected_session : ∃ s, (machine true).Reaches (AsExpected true) s ∧ s.Faithful ∧
    s.output.written = [104, 105] ∧
    s.input.written = [108, 115] ∧ s.place = .exited 3 "" := by
  refine (exists_reaches_of_runOk (AsExpected true)
    [.printed [104, 105], .poll none ⟨false, false, true⟩, .readMaster (some 2), .writeStdout 2, .typed [108, 115], .signal 28 8,
      .poll (some .eintr) ⟨false, false, false⟩, .poll none ⟨false, true, false⟩, .ioctl (some 2), .readStdin (some 2),
      .writeMaster 2, .shellEnds, .poll none ⟨true, false, false⟩, .readSocket (some 3)] ?_).imp
    fun s h => ⟨h.1, faithful_of_asExpected h.1, h.2⟩
  decide +kernel

/-! ## Full buffers -/

/-- The calls for input that fills the buffer `k` times: everything is reported, read and accepted. -/
def drain : Nat → List Action
  | 0 => [.ioctl (some 0), .readStdin (some 0)]
  | k + 1 => .ioctl (some (bufSize * (k + 1))) :: .readStdin (some bufSize) :: .writeMaster bufSize :: drain k

theorem step_readStdin (hpl : s.place = .readStdin rd) (hret : Returns rd s.input result) :
    step proxied s (.readStdin result) = some (s.stdinRead result) := by
  simp only [step, hpl]
  exact if_pos hret

theorem step_writeMaster {rd accepted : Nat} (hpl : s.place = .writeMaster rd) (hle : accepted ≤ rd) :
    step proxied s (.writeMaster accepted) = some (s.masterWritten rd accepted) := by
  simp only [step, hpl]
  exact if_pos hle

/-- When the terminal has given full buffers only, the loop exits. -/
theorem run_drain (k : Nat) {s : ShellLoop} (hpl : s.place = .ioctl) (hlen : s.input.waiting.length = bufSize * k) :
    ∃ s', (machine true).run s (drain k) = some s' ∧ s'.running = s.running ∧ s'.place = .exited 1 "read" := by
  induction k generalizing s with
  | zero =>
    have hioctl : step true s (.ioctl (some 0)) = some (s.ioctlDone (some 0)) := if_pos ⟨hpl, zero_le _, zero_le _⟩
    have hrd : step true (s.ioctlDone (some 0)) (.readStdin (some 0)) = some ((s.ioctlDone (some 0)).stdinRead (some 0)) :=
      step_readStdin rfl ⟨zero_le _, zero_le _⟩
    refine ⟨(s.ioctlDone (some 0)).stdinRead (some 0), ?_, rfl, rfl⟩
    exact (run_cons hioctl).trans ((run_cons hrd).trans rfl)
  | succ k ih =>
    have hle : bufSize ≤ s.input.waiting.length := by
      rw [hlen]
      exact Nat.le_mul_of_pos_right bufSize (Nat.succ_pos k)
    let s₁ : ShellLoop := { s with place := .readStdin bufSize }
    have hioctl : step true s (.ioctl (some (bufSize * (k + 1)))) = some s₁ := by
      refine (if_pos ⟨hpl, hlen.ge, hlen.ge⟩).trans ?_
      rw [ioctlDone, min_eq_right (hlen ▸ hle)]
    let s₂ := s₁.stdinRead (some bufSize)
    have hrd : step true s₁ (.readStdin (some bufSize)) = some s₂ := step_readStdin rfl ⟨le_rfl, hle⟩
    have hwr : step true s₂ (.writeMaster bufSize) = some (s₂.masterWritten bufSize bufSize) := step_writeMaster rfl le_rfl
    have hlf : (s.input.waiting.drop bufSize).length = bufSize * k := by
      rw [length_drop, hlen, Nat.mul_succ, Nat.add_sub_cancel]
    obtain ⟨s', hrun, hrn, hexi⟩ := ih (s := s₂.masterWritten bufSize bufSize) rfl hlf
    exact ⟨s', (run_cons hioctl).trans ((run_cons hrd).trans ((run_cons hwr).trans hrun)), hrn, hexi⟩

/-- Whatever the user types, if it fills the buffer exactly a number of times the loop exits while the shell runs. -/
theorem exits_of_full (k : Nat) {typed : List UInt8} (hlen : typed.length = bufSize * (k + 1)) :
    ∃ s, (machine true).Reachable s ∧ s.running = true ∧ s.place = .exited 1 "read" := by
  have hpoll : (machine true).run new [.typed typed, .poll none ⟨false, true, false⟩] =
      some { new with input := Flow.new.supply typed, revents := ⟨false, true, false⟩, place := .ioctl } := rfl
  obtain ⟨s, hrun, hrn, hexi⟩ := run_drain (k + 1)
    (s := { new with input := Flow.new.supply typed, revents := ⟨false, true, false⟩, place := .ioctl }) rfl hlen
  exact ⟨s, reaches_of_runOk (run_append hpoll hrun), hrn, hexi⟩

/-- A paste of 4096 bytes makes the loop exit; and when the master refuses a byte, the byte is lost and the next one is
written. -/
theorem not_faithful : (∃ s, (machine true).Reachable s ∧ s.running = true ∧ s.place.looping = false) ∧
    ∃ s, (machine true).Reachable s ∧ ¬s.input.written <+: s.input.supplied := by
  constructor
  · obtain ⟨s, hs, hrn, hexi⟩ := exits_of_full 0 (length_replicate (a := 97))
    exact ⟨s, hs, hrn, hexi ▸ rfl⟩
  · obtain ⟨s, hs, hsup, hwrit⟩ := exists_reachable_of_run (M := machine true)
      [.typed [97], .poll none ⟨false, true, false⟩, .ioctl (some 1), .readStdin (some 1), .writeMaster 0,
        .typed [98], .poll none ⟨false, true, false⟩, .ioctl (some 1), .readStdin (some 1), .writeMaster 1]
      (P := fun s => s.input.supplied = [97, 98] ∧ s.input.written = [98]) (by decide +kernel)
    refine ⟨s, hs, ?_⟩
    rw [hsup, hwrit]
    decide

end Osxie.Startup.ShellLoop
