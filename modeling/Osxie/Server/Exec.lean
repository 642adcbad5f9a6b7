import Mathlib.Data.List.Count
import Osxie.Lib.Machine

/-!
# Exec and checkin

Before an execve the client checks out with a pipe whose other end closes on a successful exec. The main loop sees the hang-up
through epoll and then marks the process as pending replacement, if a Mach-O is executed. The new image checks in, and
`notifyCheckin` takes the mark as the sign that this checkin is an exec's and not that of a fork or a new thread; it clears the
mark. If something else than a Mach-O is executed, the hang-up is the death of the process: it is unregistered, and the next call
of the client makes a new `Process`.

The hang-up and the checkin reach the main loop by two ways. A turn of the loop first drains the listener socket, if epoll
reported it, then waits in epoll and dispatches the events it returned. The checkins received are processed by workers, in any
order. This module models one process.
-/

namespace Osxie.Server

open List Option Nat Machine

inductive Architecture where
  | invalid
  | i386
  | x86_64
  | arm32
  | arm64
deriving DecidableEq

/-- A checkin: whether it is the one that follows a successful exec of a Mach-O, and the architecture it names. -/
structure Checkin where
  exec : Bool
  architecture : Architecture
deriving DecidableEq

/-- What `notifyCheckin` reads and writes of a `Process`. -/
structure Process where
  pendingReplacement : Bool
  architecture : Architecture
deriving DecidableEq

/-- What `notifyCheckin` makes of a checkin: the task is replaced, or a fork or a thread has arrived, or it throws. -/
inductive CheckinOutcome where
  | replaced
  | arrived
  | error (message : String)
deriving DecidableEq

/-- `Process::notifyCheckin`, without the threads: in the exec case the main thread, which it looks for among them, is the one
that checks in. -/
def Process.notifyCheckin (p : Process) (architecture : Architecture) : CheckinOutcome × Process :=
  if p.pendingReplacement then
    (.replaced, { pendingReplacement := false, architecture := architecture })
  else if architecture ≠ p.architecture then
    (.error "Impossible: parent process architecture != child process architecture on fork", p)
  else
    (.arrived, { p with pendingReplacement := false })

/-- The listener pipe of a checkout: the flag `executing_macho`, and whether the `Process` that checked out is still registered. -/
structure Pipe where
  executingMacho : Bool
  live : Bool
deriving DecidableEq

/-- The pipe after the death of its `Process`. -/
def Pipe.orphan (p : Pipe) : Pipe := { p with live := false }

/-- The hang-up of a pipe: it was closed by a successful exec, or after a failed one, when a byte was written to it. -/
inductive HangUp where
  | closed (p : Pipe)
  | failed
deriving DecidableEq

def HangUp.orphan : HangUp → HangUp
  | .closed p => .closed p.orphan
  | .failed => .failed

/-- The client: running an image, between a successful exec of a Mach-O and the sending of its checkin, waiting for the reply to
that checkin, or replaced by something that is not a client. -/
inductive ExecClient where
  | running
  | execed
  | awaiting
  | gone
deriving DecidableEq

inductive LoopPhase where
  | drain
  | wait
  | dispatch
deriving DecidableEq

/-- One process, its client and the main loop. `checkouts` are the monitored pipes of checkouts whose exec is under way, `hungUp`
those that are closed, and `batch` the hang-ups that epoll returned. `dead` says that `process` was unregistered. `closed` is the
number of Mach-O pipes of the process that the last successful exec closed, 0 once its checkin is processed or there is a new
`Process`, and `handled` are the checkins `notifyCheckin` was called for, with what it made of them. -/
structure ExecState where
  client : ExecClient
  image : Architecture
  socket : List Checkin
  checkouts : List Pipe
  hungUp : List HangUp
  closed : Nat
  phase : LoopPhase
  canRead : Bool
  batch : List HangUp
  calls : List Checkin
  process : Process
  dead : Bool
  handled : List (Checkin × CheckinOutcome)
  aborted : Bool
deriving DecidableEq

inductive ExecAction where
  /-- a thread of the client, new or just forked, checks in -/
  | checkin
  /-- a thread checks out for an execve, and the server monitors its pipe -/
  | checkout (executingMacho : Bool)
  /-- such an exec of a Mach-O succeeds: the other threads are gone and the pipes are closed -/
  | exec (architecture : Architecture)
  /-- the new image checks in, and waits for the reply -/
  | execCheckin
  /-- an exec of something else succeeds -/
  | execNonMacho
  /-- an exec fails -/
  | execFails (p : Pipe)
  /-- the main loop receives a datagram and makes it the pending call of its thread, in a new process if there is none -/
  | receive
  /-- the main loop leaves the socket and enters epoll -/
  | drained
  /-- epoll has a hang-up among its events -/
  | report (h : HangUp)
  /-- epoll returns, with or without an event of the listener socket (which other clients send to as well) -/
  | epollReturns (canRead : Bool)
  | dispatch
  /-- the main loop is through with the events and starts its next turn -/
  | dispatched
  | process (c : Checkin)
deriving DecidableEq

namespace ExecState

variable (architecture : Architecture)

def init : ExecState where
  client := .running
  image := architecture
  socket := []
  checkouts := []
  hungUp := []
  closed := 0
  phase := .drain
  canRead := false
  batch := []
  calls := []
  process := ⟨false, architecture⟩
  dead := false
  handled := []
  aborted := false

variable (s : ExecState)

/-- A successful exec: it takes all the threads and closes all the pipes (they are close-on-exec). -/
def replaceImage (client : ExecClient) (image : Architecture) : ExecState :=
  { s with
    client := client
    image := image
    checkouts := []
    hungUp := s.hungUp ++ s.checkouts.map .closed
    closed := s.checkouts.count ⟨true, true⟩ }

/-- `Process::notifyDead`: the process is unregistered. Its threads, which take their pending calls with them, are too, and what
its pipes still report does nothing to the next process. -/
def notifyDead : ExecState :=
  { s with
    dead := true
    calls := []
    checkouts := s.checkouts.map Pipe.orphan
    hungUp := s.hungUp.map HangUp.orphan
    batch := s.batch.map HangUp.orphan }

/-- The callback of the monitor on a pipe. -/
def execListener : HangUp → ExecState
  | .closed ⟨true, true⟩ => { s with process := { s.process with pendingReplacement := true } }
  | .closed ⟨false, true⟩ => s.notifyDead
  | .closed ⟨_, false⟩ | .failed => s

/-- `callFromMessage` registers a new `Process` for a call of a client that has none, with the architecture of the call. -/
def registerIfAbsent (architecture : Architecture) : ExecState :=
  if s.dead then { s with dead := false, closed := 0, process := ⟨false, architecture⟩ } else s

/-- `Checkin::processCall`. An exception of `notifyCheckin` is caught nowhere and ends the server. The client goes on when it has
the reply. -/
def processCall (c : Checkin) : ExecState :=
  let r := s.process.notifyCheckin c.architecture
  { s with
    calls := s.calls.erase c
    process := r.2
    handled := s.handled ++ [(c, r.1)]
    client := if c.exec then .running else s.client
    closed := if c.exec then 0 else s.closed
    aborted := r.1 ≠ .replaced ∧ r.1 ≠ .arrived }

def act : ExecAction → Option ExecState
  | .checkin =>
    if s.client = .running then some { s with socket := s.socket ++ [⟨false, s.image⟩] } else none
  | .checkout executingMacho =>
    if s.client = .running then
      some { s.registerIfAbsent s.image with checkouts := s.checkouts ++ [⟨executingMacho, true⟩] }
    else none
  | .exec architecture =>
    if s.client = .running ∧ s.checkouts.any (·.executingMacho) then some (s.replaceImage .execed architecture) else none
  | .execCheckin =>
    if s.client = .execed then
      some { s with client := .awaiting, socket := s.socket ++ [⟨true, s.image⟩] }
    else none
  | .execNonMacho =>
    if s.client = .running ∧ s.checkouts.any (!·.executingMacho) then some (s.replaceImage .gone s.image) else none
  | .execFails p =>
    if s.client = .running ∧ p ∈ s.checkouts then
      some { s with checkouts := s.checkouts.erase p, hungUp := s.hungUp ++ [.failed] }
    else none
  | .receive =>
    match s.socket with
    | [] => none
    | c :: socket =>
      if s.phase = .drain ∧ s.canRead then
        some { s.registerIfAbsent c.architecture with socket := socket, calls := s.calls ++ [c] }
      else none
  | .drained =>
    if s.phase = .drain ∧ (s.canRead → s.socket = []) then some { s with phase := .wait, canRead := false } else none
  | .report h =>
    if s.phase = .wait ∧ h ∈ s.hungUp then
      some { s with hungUp := s.hungUp.erase h, batch := s.batch ++ [h] }
    else none
  | .epollReturns canRead =>
    if s.phase = .wait then some { s with phase := .dispatch, canRead := canRead } else none
  | .dispatch =>
    match s.batch with
    | [] => none
    | h :: batch =>
      if s.phase = .dispatch then some ({ s with batch := batch }.execListener h) else none
  | .dispatched =>
    if s.phase = .dispatch ∧ s.batch = [] then some { s with phase := .drain } else none
  | .process c => if c ∈ s.calls then some (s.processCall c) else none

def step (a : ExecAction) : Option ExecState :=
  if s.aborted then none else s.act a

/-- One process under any order of events. -/
def machine : Machine ExecState ExecAction where
  init := init architecture
  step := step

/-! ## Pairing -/

/-- Every checkin was handled as what it is: the task was replaced for those that follow a successful exec of a Mach-O, and for no
others. -/
def Paired : Prop := ∀ e ∈ s.handled, e.2 = .replaced ↔ e.1.exec = true

/-- The hang-ups of Mach-O pipes of the process that are still to be dispatched. -/
def toCome : Nat := s.hungUp.count (.closed ⟨true, true⟩) + s.batch.count (.closed ⟨true, true⟩)

/-- The order the mark relies on: the checkin of an exec is processed when all the hang-ups of that exec were dispatched, and no
other checkin of the process is processed between the first of them and that checkin. An exec of a Mach-O closes a Mach-O pipe of
the registered process, and until its checkin is processed the process does not die of another pipe that was closed with it. -/
def InOrder : ExecAction → Prop
  | .process c => if c.exec then s.toCome = 0 else s.toCome = s.closed
  | .exec _ => ⟨true, true⟩ ∈ s.checkouts
  | .dispatch => s.batch.head? = some (.closed ⟨false, true⟩) → s.client = .running ∨ s.client = .gone
  | _ => True

instance (a : ExecAction) : Decidable (InOrder s a) := by
  cases a <;> unfold InOrder <;> infer_instance

/-! ## The invariant -/

def execCheckins : Nat := s.socket.countP (·.exec) + s.calls.countP (·.exec)

/-- The mark says that the hang-ups of an exec have begun to be dispatched. A successful exec of a Mach-O, with at least one such
pipe, is under way exactly while the client is in it, and its checkin is on its way once. Nothing is left of a dead process. -/
structure Inv (s : ExecState) : Prop where
  mark : s.dead = false → (s.process.pendingReplacement = true ↔ s.toCome < s.closed)
  bound : s.toCome ≤ s.closed
  running : s.client = .running → s.closed = 0
  execing : s.client = .execed ∨ s.client = .awaiting → 0 < s.closed ∧ s.dead = false
  dead : s.dead = true → s.toCome = 0 ∧ s.calls = [] ∧ ⟨true, true⟩ ∉ s.checkouts
  once : s.execCheckins = if s.client = .awaiting then 1 else 0
  paired : s.Paired

theorem inv_init : (init architecture).Inv where
  mark := by simp [init, toCome]
  bound := le_refl 0
  running := fun _ => rfl
  execing := by simp [init]
  dead := nofun
  once := rfl
  paired := by simp [Paired, init]

/-- Registering a process leaves the datagrams and the calls alone. -/
theorem registerIfAbsent_queues : (s.registerIfAbsent architecture).socket = s.socket ∧
    (s.registerIfAbsent architecture).calls = s.calls := by
  unfold registerIfAbsent
  split <;> exact ⟨rfl, rfl⟩

/-- A call that is taken away counts one checkin of an exec less, if it was one. -/
theorem execs_erase {calls : List Checkin} {c : Checkin} (hc : c ∈ calls) :
    calls.countP (·.exec) = (calls.erase c).countP (·.exec) + if c.exec then 1 else 0 := by
  rw [(perm_cons_erase hc).countP_eq, countP_cons]

namespace Inv

variable {s : ExecState}

variable (h : s.Inv)

include h

/-- Whatever leaves the mark, the pipes and the checkins of execs alone keeps the invariant. -/
theorem congr {s' : ExecState} (hp : s'.process = s.process) (hd : s'.dead = s.dead) (hto : s'.toCome = s.toCome)
    (hcl : s'.closed = s.closed) (hcli : s'.client = s.client) (hexec : s'.execCheckins = s.execCheckins)
    (hh : s'.handled = s.handled) (hleft : s.dead = true → s'.calls = s.calls ∧ s'.checkouts ⊆ s.checkouts) : s'.Inv where
  mark := by rw [hd, hp, hto, hcl]; exact h.mark
  bound := by rw [hto, hcl]; exact h.bound
  running := by rw [hcli, hcl]; exact h.running
  execing := by rw [hcli, hcl, hd]; exact h.execing
  dead := by
    rw [hd]
    intro hx
    obtain ⟨hto', hcalls, hnot⟩ := h.dead hx
    obtain ⟨hc, hsub⟩ := hleft hx
    exact ⟨hto.trans hto', hc.trans hcalls, fun hmem => hnot (hsub hmem)⟩
  once := by rw [hexec, hcli]; exact h.once
  paired := by unfold Paired; rw [hh]; exact h.paired

/-- A call registers a process if there is none: it has no mark, and there is no hang-up of its pipes to come. -/
theorem registerIfAbsent (architecture : Architecture) :
    (s.registerIfAbsent architecture).Inv ∧ (s.registerIfAbsent architecture).dead = false := by
  unfold ExecState.registerIfAbsent
  split
  · rename_i hd
    have hto : s.toCome = 0 := (h.dead hd).1
    refine ⟨⟨fun _ => iff_of_false nofun (not_lt_zero _), le_of_eq hto, fun _ => rfl, ?_, nofun, h.once, h.paired⟩, rfl⟩
    intro hex
    have hal := (h.execing hex).2
    rw [hd] at hal
    cases hal
  · rename_i hd
    exact ⟨h, by simpa using hd⟩

/-- The process dies while no exec of a Mach-O is under way. -/
theorem notifyDead (hc : s.client = .running ∨ s.client = .gone) : s.notifyDead.Inv := by
  have horphan (hs : List HangUp) : (hs.map HangUp.orphan).count (.closed ⟨true, true⟩) = 0 := by
    rw [count_eq_zero]
    intro hmem
    obtain ⟨e, -, he⟩ := mem_map.1 hmem
    cases e with
    | closed p => cases congrArg Pipe.live (HangUp.closed.inj he)
    | failed => cases he
  have hto : s.notifyDead.toCome = 0 := by simp only [toCome, ExecState.notifyDead, horphan]
  have hidle : ¬(s.client = .execed ∨ s.client = .awaiting) := by
    rcases hc with hc | hc
    · simp [hc]
    · simp [hc]
  refine ⟨nofun, hto ▸ Nat.zero_le _, h.running, fun hex => absurd hex hidle, fun _ => ⟨hto, rfl, ?_⟩, ?_, h.paired⟩
  · intro hmem
    obtain ⟨p, -, hp⟩ := mem_map.1 hmem
    cases congrArg Pipe.live hp
  · have hnc := h.once
    have hna : s.client ≠ .awaiting := fun hx => hidle (.inr hx)
    rw [if_neg hna] at hnc
    have hzero : s.socket.countP (·.exec) = 0 := (Nat.add_eq_zero_iff.1 hnc).1
    exact hzero.trans (if_neg hna).symm

/-- A successful exec starts with no mark and no hang-up to come. -/
theorem replaceImage (hr : s.client = .running) {client : ExecClient} {image : Architecture}
    (hc : client = .execed ∧ ⟨true, true⟩ ∈ s.checkouts ∨ client = .gone) : (s.replaceImage client image).Inv := by
  have hcl := h.running hr
  have hto : s.toCome = 0 := le_zero.1 (hcl ▸ h.bound)
  have hto' : (s.replaceImage client image).toCome = s.checkouts.count ⟨true, true⟩ := by
    have hmap : (s.checkouts.map HangUp.closed).count (.closed ⟨true, true⟩) = s.checkouts.count ⟨true, true⟩ :=
      count_map_of_injective _ _ (fun _ _ heq => HangUp.closed.inj heq) _
    simp only [toCome] at hto
    simp only [toCome, ExecState.replaceImage, count_append, hmap]
    omega
  have hna : client ≠ .awaiting := by
    rcases hc with ⟨rfl, -⟩ | rfl
    · exact nofun
    · exact nofun
  refine ⟨?_, le_of_eq hto', ?_, ?_, ?_, ?_, h.paired⟩
  · intro hal
    have hp : ¬s.process.pendingReplacement = true := by
      rw [h.mark hal]
      omega
    refine iff_of_false hp ?_
    rw [hto']
    exact lt_irrefl _
  · intro hrun
    rcases hc with ⟨rfl, -⟩ | rfl
    · cases hrun
    · cases hrun
  · intro hex
    rcases hc with ⟨-, hmem⟩ | rfl
    · refine ⟨count_pos_iff.2 hmem, ?_⟩
      by_contra hd
      exact (h.dead (Bool.not_eq_false _ ▸ hd)).2.2 hmem
    · rcases hex with hex | hex
      · cases hex
      · cases hex
  · intro hd
    obtain ⟨-, hcalls, hnot⟩ := h.dead hd
    exact ⟨hto'.trans (count_eq_zero.2 hnot), hcalls, not_mem_nil⟩
  · have hnc := h.once
    rw [if_neg (by rw [hr]; exact nofun)] at hnc
    exact hnc.trans (if_neg hna).symm

/-- The checkin of the new image is sent. -/
theorem execCheckin (hc : s.client = .execed) :
    Inv { s with client := .awaiting, socket := s.socket ++ [⟨true, s.image⟩] } where
  mark := h.mark
  bound := h.bound
  running := nofun
  execing := fun _ => h.execing (.inl hc)
  dead := h.dead
  once := by
    have hnc := h.once
    rw [hc] at hnc
    simp only [execCheckins, reduceCtorEq, if_false] at hnc
    simp only [execCheckins, countP_append, countP_singleton, if_true]
    omega
  paired := h.paired

/-- A dispatched hang-up of a Mach-O pipe sets the mark, that of another pipe is the death of the process, and one that is not the
process's does nothing. -/
theorem dispatch {e : HangUp} {batch : List HangUp} (hb : s.batch = e :: batch)
    (hok : e = .closed ⟨false, true⟩ → s.client = .running ∨ s.client = .gone) :
    ({ s with batch := batch }.execListener e).Inv := by
  have hrest (he : e ≠ .closed ⟨true, true⟩) : Inv { s with batch := batch } := by
    refine h.congr rfl rfl ?_ rfl rfl rfl rfl (fun _ => ⟨rfl, Subset.refl _⟩)
    simp only [toCome, hb, count_cons_of_ne he]
  match e with
  | .closed ⟨true, true⟩ =>
    have hto : s.toCome = toCome ({ s with batch := batch }.execListener (.closed ⟨true, true⟩)) + 1 := by
      simp only [toCome, execListener, hb, count_cons_self]
      omega
    have hbound := h.bound
    refine ⟨fun _ => iff_of_true rfl ?_, ?_, h.running, h.execing, fun hd => ?_, h.once, h.paired⟩
    · show toCome _ < s.closed
      omega
    · show toCome _ ≤ s.closed
      omega
    · have := (h.dead hd).1
      omega
  | .closed ⟨false, true⟩ => exact (hrest nofun).notifyDead (hok rfl)
  | .closed ⟨true, false⟩ => exact hrest nofun
  | .closed ⟨false, false⟩ => exact hrest nofun
  | .failed => exact hrest nofun

/-- Received calls have a process. -/
theorem alive_of_mem {c : Checkin} (hc : c ∈ s.calls) : s.dead = false := by
  by_contra hd
  rw [(h.dead (by simpa using hd)).2.1] at hc
  exact not_mem_nil hc

/-- The checkin of an exec is processed after all its hang-ups: it is handled as an exec. -/
theorem processExec {c : Checkin} (hc : c ∈ s.calls) (he : c.exec = true) (hto : s.toCome = 0) : (s.processCall c).Inv := by
  have hal := h.alive_of_mem hc
  have hpos : 0 < s.calls.countP (·.exec) := countP_pos_iff.2 ⟨c, hc, he⟩
  have haw : s.client = .awaiting := by
    by_contra hne
    have hnc := h.once
    rw [if_neg hne] at hnc
    simp only [execCheckins] at hnc
    omega
  have hmk : s.process.pendingReplacement = true := by
    rw [h.mark hal, hto]
    exact (h.execing (.inr haw)).1
  have hr : s.process.notifyCheckin c.architecture = (.replaced, ⟨false, c.architecture⟩) := if_pos hmk
  have hto' : (s.processCall c).toCome = 0 := hto
  have hcl' : (s.processCall c).closed = 0 := if_pos he
  have hcli' : (s.processCall c).client = .running := if_pos he
  have hd (hd : (s.processCall c).dead = true) : False := Bool.eq_false_iff.1 hal hd
  refine ⟨fun _ => ?_, ?_, fun _ => hcl', ?_, fun hx => (hd hx).elim, ?_, ?_⟩
  · rw [hcl']
    simp [processCall, hr]
  · exact le_of_eq (hto'.trans hcl'.symm)
  · rw [hcli']
    rintro (hx | hx)
    · cases hx
    · cases hx
  · have hnc := h.once
    rw [haw] at hnc
    rw [hcli']
    simp only [execCheckins, if_true] at hnc
    have hrs := execs_erase hc
    rw [if_pos he] at hrs
    simp only [execCheckins, processCall, reduceCtorEq, if_false]
    omega
  · intro x hx
    simp only [processCall, mem_append, mem_singleton, hr] at hx
    rcases hx with hx | rfl
    · exact h.paired x hx
    · exact iff_of_true rfl he

/-- Another checkin is processed while no hang-up of an exec under way was dispatched: it is not handled as an exec. -/
theorem processOther {c : Checkin} (hc : c ∈ s.calls) (he : c.exec = false) (hto : s.toCome = s.closed) :
    (s.processCall c).Inv := by
  have hal := h.alive_of_mem hc
  have hmk : ¬s.process.pendingReplacement = true := by
    rw [h.mark hal, hto]
    exact lt_irrefl _
  have hr : (s.process.notifyCheckin c.architecture).1 ≠ .replaced ∧
      (s.process.notifyCheckin c.architecture).2.pendingReplacement = false := by
    simp only [Process.notifyCheckin, if_neg hmk]
    split
    · exact ⟨nofun, by simpa using hmk⟩
    · exact ⟨nofun, rfl⟩
  have hne : ¬c.exec = true := by simp [he]
  have hcl' : (s.processCall c).closed = s.closed := if_neg hne
  have hcli' : (s.processCall c).client = s.client := if_neg hne
  have hto' : (s.processCall c).toCome = s.closed := hto
  have hd (hd : (s.processCall c).dead = true) : False := Bool.eq_false_iff.1 hal hd
  refine ⟨fun _ => ?_, ?_, ?_, ?_, fun hx => (hd hx).elim, ?_, ?_⟩
  · rw [hto', hcl']
    exact iff_of_false (by simp [processCall, hr.2]) (lt_irrefl _)
  · exact le_of_eq (hto'.trans hcl'.symm)
  · rw [hcli', hcl']
    exact h.running
  · rw [hcli', hcl']
    exact h.execing
  · have hrs := execs_erase hc
    rw [if_neg hne, add_zero] at hrs
    rw [hcli', ← h.once]
    simp only [execCheckins, processCall, hrs]
  · intro x hx
    simp only [processCall, mem_append, mem_singleton] at hx
    rcases hx with hx | rfl
    · exact h.paired x hx
    · exact iff_of_false hr.1 hne

theorem act {s' : ExecState} {a : ExecAction} (hok : InOrder s a) (hs : s.act a = some s') : s'.Inv := by
  cases a with
  | checkin =>
    obtain ⟨-, rfl⟩ := of_guarded hs
    exact h.congr rfl rfl rfl rfl rfl (by simp [execCheckins]) rfl (fun _ => ⟨rfl, Subset.refl _⟩)
  | drained | epollReturns canRead | dispatched =>
    obtain ⟨-, rfl⟩ := of_guarded hs
    exact h.congr rfl rfl rfl rfl rfl rfl rfl (fun _ => ⟨rfl, Subset.refl _⟩)
  | checkout executingMacho =>
    obtain ⟨-, rfl⟩ := of_guarded hs
    obtain ⟨hreg, hal⟩ := h.registerIfAbsent s.image
    exact hreg.congr rfl rfl rfl rfl rfl rfl rfl (fun hd => absurd hd (Bool.eq_false_iff.1 hal))
  | exec architecture =>
    obtain ⟨⟨hr, -⟩, rfl⟩ := of_guarded hs
    exact h.replaceImage hr (.inl ⟨rfl, hok⟩)
  | execCheckin =>
    obtain ⟨hc, rfl⟩ := of_guarded hs
    exact h.execCheckin hc
  | execNonMacho =>
    obtain ⟨⟨hr, -⟩, rfl⟩ := of_guarded hs
    exact h.replaceImage hr (.inr rfl)
  | execFails p =>
    obtain ⟨-, rfl⟩ := of_guarded hs
    exact h.congr rfl rfl (by simp [toCome]) rfl rfl rfl rfl (fun _ => ⟨rfl, erase_subset⟩)
  | receive =>
    simp only [ExecState.act] at hs
    split at hs
    · cases hs
    rename_i c socket hsock
    obtain ⟨-, rfl⟩ := of_guarded hs
    obtain ⟨hreg, hal⟩ := h.registerIfAbsent c.architecture
    obtain ⟨hsocket, hcalls⟩ := s.registerIfAbsent_queues c.architecture
    refine hreg.congr rfl rfl rfl rfl rfl ?_ rfl (fun hd => absurd hd (Bool.eq_false_iff.1 hal))
    simp only [execCheckins, hsocket, hcalls, hsock, countP_append, countP_cons, countP_nil]
    omega
  | report e =>
    obtain ⟨⟨-, hmem⟩, rfl⟩ := of_guarded hs
    refine h.congr rfl rfl ?_ rfl rfl rfl rfl (fun _ => ⟨rfl, Subset.refl _⟩)
    have hrs := (perm_cons_erase hmem).count_eq (HangUp.closed ⟨true, true⟩)
    rw [count_cons] at hrs
    simp only [toCome, count_append, count_singleton]
    omega
  | dispatch =>
    simp only [ExecState.act] at hs
    split at hs
    · cases hs
    rename_i e batch hb
    obtain ⟨-, rfl⟩ := of_guarded hs
    refine h.dispatch hb fun he => hok ?_
    rw [hb, he]
    rfl
  | process c =>
    obtain ⟨hc, rfl⟩ := of_guarded hs
    by_cases he : c.exec = true
    · rw [InOrder, if_pos he] at hok
      exact h.processExec hc he hok
    · rw [InOrder, if_neg he] at hok
      exact h.processOther hc (by simpa using he) hok

end Inv

/-! ## Runs -/

/-- In every run in which the checkin of an exec is processed after the hang-ups of that exec, no other checkin between them, and
the process does not die of another pipe meanwhile, every checkin is handled as what it is. -/
theorem checkins_paired_of_inOrder {architecture : Architecture} {s : ExecState} (h : (machine architecture).Reaches InOrder s) :
    s.Paired := by
  have hinv : s.Inv := by
    refine Machine.Reaches.invariant (inv_init architecture) ?_ h
    intro s a s' hs hok hst
    exact hs.act hok (ite_none_left_eq_some.1 hst).2
  exact hinv.paired

/-- The checkin of a thread, and an exec whose hang-up is dispatched before its checkin is received. -/
def execThenCheckin : List ExecAction :=
  [.checkin, .checkout true, .drained, .epollReturns true, .dispatched, .receive, .process ⟨false, .x86_64⟩, .drained,
    .exec .arm64, .execCheckin, .report (.closed ⟨true, true⟩), .epollReturns true, .dispatch, .dispatched, .receive,
    .process ⟨true, .arm64⟩]

/-- The task is replaced by one of the new architecture. -/
theorem execThenCheckin_paired : ∃ s, (machine .x86_64).runOk InOrder (init .x86_64) execThenCheckin = some s ∧
    s.handled = [(⟨false, .x86_64⟩, .arrived), (⟨true, .arm64⟩, .replaced)] ∧ s.Paired := by
  refine (exists_of_runOk ?_).imp
    fun s h => ⟨h.1, h.2, checkins_paired_of_inOrder (reaches_of_runOk h.1)⟩
  decide

/-- The listener socket was reported because of other clients. The exec's pipe closes and its checkin arrives before the main loop
comes to drain the socket, and the checkin is processed before the hang-up is seen. -/
def execDuringDispatch : List ExecAction :=
  [.checkout true, .drained, .epollReturns true, .dispatched, .exec .x86_64, .execCheckin, .receive, .process ⟨true, .x86_64⟩]

/-- The exec is then taken for a fork. -/
theorem checkins_paired_false : ¬∀ architecture s, (machine architecture).Reachable s → s.Paired := by
  intro h
  obtain ⟨s, hs, hhd⟩ := exists_reachable_of_run (M := machine .x86_64) execDuringDispatch
    (P := fun s => s.handled = [(⟨true, .x86_64⟩, .arrived)]) (by decide)
  have hpair := h .x86_64 s hs (⟨true, .x86_64⟩, .arrived) (by rw [hhd]; exact mem_singleton_self _)
  cases hpair.2 rfl

/-- The other way: a second thread has checked out for something else than a Mach-O, so the exec closes both pipes, and the
process dies of the second one. The checkin of the exec goes to a new process. -/
example : ((machine .x86_64).run (init .x86_64) [.checkout true, .checkout false, .exec .x86_64, .execCheckin, .drained,
    .report (.closed ⟨true, true⟩), .report (.closed ⟨false, true⟩), .epollReturns true, .dispatch, .dispatch, .dispatched,
    .receive, .process ⟨true, .x86_64⟩]).map (·.handled) = some [(⟨true, .x86_64⟩, .arrived)] := by decide

end ExecState

end Osxie.Server
