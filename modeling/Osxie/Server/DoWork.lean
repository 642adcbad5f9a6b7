import Osxie.Lib.Machine
import Osxie.Server.Thread

/-!
# The work queue and its workers

The receive loop makes a call the pending one of its thread and then pushes the thread on the work queue. Workers pop threads
and run `doWork` on them; the microthread replies, suspends or ends, and goes back to the top. Any party may resume, defer,
undefer or impersonate threads in between.

A thread that has a pending call is attended to when it is queued, held by a worker that has still to examine the pending call
or to make it active, or deferred with its request kept.
-/

namespace Osxie.Server

open List Option Thread Function Machine

inductive Worker where
  | idle
  /-- has popped a thread, and not entered its `doWork` -/
  | holding (thread : Nat)
  /-- has passed the tests at the start of `doWork` -/
  | entered (thread : Nat)
  /-- switches to `microthreadWorker`, which makes the pending call active -/
  | starting (thread : Nat)
  | running (thread : Nat)
  /-- is back at the top -/
  | returning (thread : Nat)
deriving DecidableEq

/-- Where a microthread that impersonates is in `Thread::impersonate`: outside of it, waiting for the thread to stop running,
or about to release the old one. -/
inductive Impersonator where
  | outside (impersonating : Option Nat)
  | waiting (thread : Nat) (old : Option Nat)
  | releasing (old : Nat) (impersonating : Option Nat)
deriving DecidableEq

/-- The threads, the work queue and those who use them. `receiver` is the thread whose pending call the receive loop has set, and
which it has not pushed. -/
structure Scheduler where
  threads : Nat → Thread
  workQueue : List Nat
  workers : Nat → Worker
  receiver : Option Nat
  impersonators : Nat → Impersonator
  aborted : Option String

inductive SchedulerAction where
  /-- the receive loop makes a call the pending one of its thread -/
  | setPendingCall (thread : Nat) (call : Call)
  /-- and pushes the thread -/
  | push
  | pop (worker : Nat)
  /-- a worker goes on in `doWork`, outside of the microthread -/
  | advance (worker : Nat)
  | reply (worker : Nat)
  /-- the microthread sets or clears the override of the pending call -/
  | setPendingCallOverride (worker : Nat) (override : Bool)
  | suspend (worker : Nat) (continuationCallback : Bool)
  | finish (worker : Nat)
  | resume (thread : Nat)
  | terminate (thread : Nat)
  | notifyDead (thread : Nat)
  | defer (thread : Nat)
  | undefer (thread : Nat)
  | impersonate (impersonator : Nat) (thread : Option Nat)
  | impersonated (impersonator : Nat)
deriving DecidableEq

namespace Scheduler

def init : Scheduler where
  threads := fun _ => .new
  workQueue := []
  workers := fun _ => .idle
  receiver := none
  impersonators := fun _ => .outside none
  aborted := none

variable (s : Scheduler) (worker : Nat) (impersonator : Nat)

def setThread (thread : Nat) (t : Thread) : Scheduler :=
  { s with threads := update s.threads thread t }

def goto (place : Worker) : Scheduler :=
  { s with workers := update s.workers worker place }

/-- `Server::scheduleThread`, when it is called. -/
def schedule (thread : Nat) (scheduled : Bool) : Scheduler :=
  { s with workQueue := s.workQueue ++ if scheduled then [thread] else [] }

def throw (message : String) : Scheduler :=
  { s with aborted := some message }

/-- The worker comes to `doneWorking`, and is done. -/
def doneWorking (s : Scheduler) (worker thread : Nat) (t : Thread) : Scheduler :=
  match t.doneWorking with
  | .error message => s.throw message
  | .ok (t, scheduled) => ((s.setThread thread t).schedule thread scheduled).goto worker .idle

/-- `Thread::doWork` from its start. -/
def enter (s : Scheduler) (worker thread : Nat) : Scheduler :=
  match (s.threads thread).enter with
  | (t, .returns) => (s.setThread thread t).goto worker .idle
  | (t, .doneWorking) => s.doneWorking worker thread t
  | (t, .entered) => (s.setThread thread t).goto worker (.entered thread)

/-- `Thread::doWork` from where it looks for something to run. -/
def examine (s : Scheduler) (worker thread : Nat) : Scheduler :=
  match (s.threads thread).examine with
  | .error message => s.throw message
  | .ok (t, .resumes) => (s.setThread thread t).goto worker (.running thread)
  | .ok (t, .doneWorking) => s.doneWorking worker thread t
  | .ok (t, .starts) => (s.setThread thread t).goto worker (.starting thread)

/-- `Thread::doWork` up to the next step of another party. -/
def advance : Option Scheduler :=
  match s.workers worker with
  | .holding thread => some (s.enter worker thread)
  | .entered thread => some (s.examine worker thread)
  | .starting thread =>
    some ((s.setThread thread (s.threads thread).makePendingCallActive).goto worker (.running thread))
  | .returning thread => some (s.doneWorking worker thread (s.threads thread))
  | .idle | .running _ => none

/-- A step of the microthread a worker is in. -/
def microthread (f : Thread → Thread) (place : Nat → Worker) : Option Scheduler :=
  match s.workers worker with
  | .running thread => some ((s.setThread thread (f (s.threads thread))).goto worker (place thread))
  | _ => none

/-- `Thread::impersonate`, up to where it waits. -/
def impersonate (thread : Option Nat) : Option Scheduler :=
  match s.impersonators impersonator, thread with
  | .outside old, some thread =>
    some { s.setThread thread (s.threads thread).defer with
      impersonators := update s.impersonators impersonator (.waiting thread old) }
  | .outside (some old), none =>
    some { s with impersonators := update s.impersonators impersonator (.releasing old none) }
  | _, _ => none

/-- The rest of `Thread::impersonate`: the thread is taken when it is not running, and the old one is released. -/
def impersonated : Option Scheduler :=
  match s.impersonators impersonator with
  | .waiting thread old =>
    if (s.threads thread).running then none
    else
      let next := match old with
        | some old => .releasing old (some thread)
        | none => .outside (some thread)
      some { s.setThread thread { s.threads thread with running := true } with
        impersonators := update s.impersonators impersonator next }
  | .releasing old impersonating =>
    let (t, scheduled) := undefer { s.threads old with running := false }
    some { (s.setThread old t).schedule old scheduled with
      impersonators := update s.impersonators impersonator (.outside impersonating) }
  | .outside _ => none

/-- One step of a server that is up. -/
def act : SchedulerAction → Option Scheduler
  | .setPendingCall thread call =>
    if s.receiver = none then
      match (s.threads thread).setPendingCall call with
      | .error message => some (s.throw message)
      | .ok t => some { s.setThread thread t with receiver := some thread }
    else none
  | .push =>
    match s.receiver with
    | some thread => some { s.schedule thread true with receiver := none }
    | none => none
  | .pop worker =>
    match s.workers worker, s.workQueue with
    | .idle, thread :: workQueue => some ({ s with workQueue := workQueue }.goto worker (.holding thread))
    | _, _ => none
  | .advance worker => s.advance worker
  | .reply worker => s.microthread worker (fun t => { t with activeCall := none }) .running
  | .setPendingCallOverride worker override =>
    s.microthread worker (fun t => { t with pendingCallOverride := override }) .running
  | .suspend worker continuationCallback => s.microthread worker (·.suspend continuationCallback) .returning
  | .finish worker => s.microthread worker id .returning
  | .resume thread => some (s.schedule thread (s.threads thread).suspended)
  | .terminate thread =>
    let (t, scheduled) := (s.threads thread).terminate
    some ((s.setThread thread t).schedule thread scheduled)
  | .notifyDead thread =>
    let (t, scheduled) := (s.threads thread).notifyDead
    some ((s.setThread thread t).schedule thread scheduled)
  | .defer thread => some (s.setThread thread (s.threads thread).defer)
  | .undefer thread =>
    let (t, scheduled) := (s.threads thread).undefer
    some ((s.setThread thread t).schedule thread scheduled)
  | .impersonate impersonator thread => s.impersonate impersonator thread
  | .impersonated impersonator => s.impersonated impersonator

def step (a : SchedulerAction) : Option Scheduler :=
  if s.aborted.isSome then none else s.act a

def machine : Machine Scheduler SchedulerAction where
  init := init
  step := step

/-! ## No call is stranded -/

end Scheduler

def Thread.hasWork (t : Thread) : Bool := t.pendingCall.isSome && !t.dead && !t.terminating

/-- The worker has still to examine the pending call of the thread, or to make it active. -/
def Worker.attends (thread : Nat) : Worker → Bool
  | .holding t | .entered t | .starting t => t = thread
  | .idle | .running _ | .returning _ => false

namespace Scheduler

variable (s : Scheduler)

/-- The thread is queued or about to be pushed, or a worker attends to it, or its request is kept by the deferral. -/
def Attended (thread : Nat) : Prop :=
  thread ∈ s.workQueue ∨ s.receiver = some thread ∨ (∃ worker, (s.workers worker).attends thread = true) ∨
    (s.threads thread).deferralState = .deferredPending

/-- No accepted call is stranded. -/
def CallsAttended : Prop := ∀ thread, (s.threads thread).hasWork = true → s.Attended thread

/-- `doWork` drops a call: it finds the thread running, or resumes it from a suspension with its pending call overridden,
while it has a call to be started. -/
def Drops : Worker → Prop
  | .holding thread =>
    (s.threads thread).hasWork = true ∧ (s.threads thread).deferralState = .notDeferred ∧ (s.threads thread).running = true
  | .entered thread =>
    (s.threads thread).hasWork = true ∧ (s.threads thread).suspended = true ∧ (s.threads thread).pendingCallOverride = true
  | .idle | .starting _ | .running _ | .returning _ => False

instance (place : Worker) : Decidable (s.Drops place) := by
  cases place <;> unfold Drops <;> infer_instance

/-- No worker drops a call in the step. -/
def NotDropped : SchedulerAction → Prop
  | .advance worker => ¬s.Drops (s.workers worker)
  | _ => True

instance (a : SchedulerAction) : Decidable (NotDropped s a) := by
  cases a <;> unfold NotDropped <;> infer_instance

end Scheduler

/-! ## The parts of doWork -/

namespace Thread

variable {t t' : Thread}

theorem hasWork_of_pendingCall (h : t.pendingCall = none) : t.hasWork = false := by simp [hasWork, h]

/-- `notifyDead` leaves a thread without work. -/
theorem notifyDead_hasWork (t : Thread) : t.notifyDead.1.hasWork = false := by
  unfold notifyDead
  split
  · simp_all [hasWork]
  · split <;> simp [hasWork]

theorem terminate_hasWork (t : Thread) : t.terminate.1.hasWork = false := by
  unfold terminate
  split
  · simp [hasWork]
  · exact notifyDead_hasWork _

theorem notifyDead_keeps (t : Thread) :
    t.notifyDead.1.running = t.running ∧ t.notifyDead.1.deferralState = t.deferralState := by
  unfold notifyDead
  split
  · exact ⟨rfl, rfl⟩
  · split <;> exact ⟨rfl, rfl⟩

/-- The tests at the start of `doWork`: it returns with the request of a deferred thread kept, or because the thread is
running; it is done at once only with a thread that is terminating. -/
theorem enter_spec {e : Entry} (h : t.enter = (t', e)) :
    (e = .returns → t'.deferralState = .deferredPending ∨ t' = t ∧ t.deferralState = .notDeferred ∧ t.running = true) ∧
    (e ≠ .returns → t'.deferralState = t.deferralState) ∧
    (e = .doneWorking → t'.hasWork = false) ∧
    (e = .entered → t'.hasWork = t.hasWork) := by
  rcases t.enter_cases with ⟨-, he⟩ | ⟨hd, hr, he⟩ | ⟨-, -, he | he⟩ <;> rw [he] at h <;> cases h
  · exact ⟨fun _ => .inl rfl, fun hx => absurd rfl hx, nofun, nofun⟩
  · exact ⟨fun _ => .inr ⟨rfl, hd, hr⟩, fun hx => absurd rfl hx, nofun, nofun⟩
  · exact ⟨nofun, fun _ => rfl, fun _ => by simp [hasWork], nofun⟩
  · exact ⟨nofun, fun _ => rfl, nofun, fun _ => rfl⟩

/-- What `doWork` examines: `running`, the work of the thread and its deferral stay, and the thread is resumed or left alone
only if it has no call to be started, or is suspended with its pending call overridden. -/
theorem examine_spec {d : Dispatch} (h : t.examine = .ok (t', d)) :
    t'.running = t.running ∧ t'.hasWork = t.hasWork ∧ t'.deferralState = t.deferralState ∧
    (d = .resumes → t.suspended = true ∧ t.pendingCallOverride = true ∨ t.hasWork = false) ∧
    (d = .doneWorking → t.hasWork = false) := by
  have hkp : ∀ u : Thread, u = (if ¬t.pendingCallOverride ∧ t.interruptEnterPending then t.emplaceInterrupt else t) →
      u.running = t.running ∧ u.hasWork = t.hasWork ∧ u.deferralState = t.deferralState ∧ u.pendingCall = t.pendingCall ∧
        u.suspended = t.suspended ∧ u.pendingCallOverride = t.pendingCallOverride := by
    intro u hu
    split at hu
    · subst hu
      exact ⟨rfl, rfl, rfl, rfl, rfl, rfl⟩
    · subst hu
      exact ⟨rfl, rfl, rfl, rfl, rfl, rfl⟩
  unfold examine at h
  generalize hu : (if ¬t.pendingCallOverride ∧ t.interruptEnterPending then t.emplaceInterrupt else t) = u at h
  obtain ⟨hrun, hwk, hdef, hpd, hsu, hover⟩ := hkp u hu.symm
  simp only at h
  split at h
  · cases h
  split at h
  · rename_i hres
    cases h
    refine ⟨hrun, hwk, hdef, ?_, nofun⟩
    intro _
    rcases hres.2 with ho | hn
    · exact .inl ⟨hsu ▸ hres.1, hover ▸ ho⟩
    · exact .inr (hasWork_of_pendingCall (hpd ▸ hn))
  · split at h
    · rename_i hn
      cases h
      exact ⟨hrun, hwk, hdef, nofun, fun _ => hasWork_of_pendingCall (hpd ▸ hn)⟩
    · cases h
      exact ⟨hrun, hwk, hdef, nofun, nofun⟩

/-- After `doneWorking` the thread is not running, and has work only if it had, or is scheduled. -/
theorem doneWorking_spec {scheduled : Bool} (h : t.doneWorking = .ok (t', scheduled)) :
    t'.running = false ∧ t'.deferralState = t.deferralState ∧ (t'.hasWork = true → t.hasWork = true ∨ scheduled = true) := by
  unfold doneWorking at h
  simp only at h
  generalize hu : (if t.dead ∧ t.activeCall = none ∧ ¬t.terminating then { t with running := false, terminating := true }
    else { t with running := false }) = u at h
  have hkp : u.running = false ∧ u.deferralState = t.deferralState ∧ (u.hasWork = true → t.hasWork = true) := by
    split at hu
    · subst hu
      exact ⟨rfl, rfl, by simp [hasWork]⟩
    · subst hu
      exact ⟨rfl, rfl, id⟩
  obtain ⟨hrun, hdef, hwork⟩ := hkp
  split at h
  · have ht' : t' = u.notifyDead.1 := (congrArg Prod.fst (Except.ok.inj h)).symm
    rw [ht', u.notifyDead_keeps.1, u.notifyDead_keeps.2, notifyDead_hasWork]
    exact ⟨hrun, hdef, nofun⟩
  · split at h
    · cases h
      exact ⟨hrun, hdef, fun hwk => .inl (hwork hwk)⟩
    · split at h
      · split at h <;> cases h
        exact ⟨hrun, hdef, fun _ => .inr rfl⟩
      · cases h
        exact ⟨hrun, hdef, fun hwk => .inl (hwork hwk)⟩

end Thread

/-- A worker attends to one thread at a time. -/
theorem Worker.eq_of_attends {w : Worker} {x y : Nat} (hx : w.attends x = true) (hy : w.attends y = true) : y = x := by
  cases w with
  | holding t | entered t | starting t => exact (of_decide_eq_true hy).symm.trans (of_decide_eq_true hx)
  | idle | running _ | returning _ => cases hx

namespace Scheduler

variable {s : Scheduler}

/-! ## Steps -/

@[simp] theorem setThread_self (x : Nat) (t : Thread) : (s.setThread x t).threads x = t := by
  simp [setThread]

@[simp] theorem setThread_workers (x : Nat) (t : Thread) : (s.setThread x t).workers = s.workers := rfl

@[simp] theorem goto_threads (w : Nat) (place : Worker) : (s.goto w place).threads = s.threads := rfl

/-- What a thread is attended by does not depend on the other parts of its state. -/
theorem Attended.setThread {x y : Nat} {t : Thread} (h : s.Attended y)
    (hd : (s.threads x).deferralState = .deferredPending → t.deferralState = .deferredPending) : (s.setThread x t).Attended y := by
  rcases h with hq | hr | hw | hp
  · exact .inl hq
  · exact .inr (.inl hr)
  · exact .inr (.inr (.inl hw))
  · refine .inr (.inr (.inr ?_))
    by_cases hy : y = x
    · subst hy
      simpa [Scheduler.setThread] using hd hp
    · simpa [Scheduler.setThread, hy] using hp

theorem Attended.schedule {x y : Nat} {scheduled : Bool} (h : s.Attended y) : (s.schedule x scheduled).Attended y := by
  rcases h with hq | h
  · exact .inl (mem_append_left _ hq)
  · exact .inr h

theorem attended_schedule {x : Nat} : (s.schedule x true).Attended x := .inl (mem_append_right _ (mem_singleton_self x))

theorem Attended.goto {y worker : Nat} {place : Worker} (h : s.Attended y)
    (hw : (s.workers worker).attends y = true → place.attends y = true) : (s.goto worker place).Attended y := by
  rcases h with hq | hr | ⟨w, ha⟩ | hp
  · exact .inl hq
  · exact .inr (.inl hr)
  · refine .inr (.inr (.inl ⟨w, ?_⟩))
    by_cases hww : w = worker
    · subst hww
      simpa [Scheduler.goto] using hw ha
    · simpa [Scheduler.goto, hww] using ha
  · exact .inr (.inr (.inr hp))

namespace CallsAttended

variable {t : Thread} {place : Worker} {worker x : Nat} {s' : Scheduler}

section

variable (h : s.CallsAttended)

include h

/-- A thread changes, and is attended to if it has work. -/
theorem setThread (ht : t.hasWork = true → (s.setThread x t).Attended x) : (s.setThread x t).CallsAttended := by
  intro y hy
  by_cases hyx : y = x
  · subst hyx
    exact ht (by simpa [Scheduler.setThread] using hy)
  · have hy' : (s.threads y).hasWork = true := by simpa [Scheduler.setThread, hyx] using hy
    rcases h y hy' with hq | hr | hw | hp
    · exact .inl hq
    · exact .inr (.inl hr)
    · exact .inr (.inr (.inl hw))
    · exact .inr (.inr (.inr (by simpa [Scheduler.setThread, hyx] using hp)))

/-- A thread changes without getting work or losing a request its deferral keeps. -/
theorem keepThread (hwk : t.hasWork = true → (s.threads x).hasWork = true)
    (hd : (s.threads x).deferralState = .deferredPending → t.deferralState = .deferredPending) :
    (s.setThread x t).CallsAttended :=
  h.setThread (fun ht => (h x (hwk ht)).setThread hd)

variable {scheduled : Bool} {n : Nat}

theorem schedule : (s.schedule x scheduled).CallsAttended := by
  intro y hy
  exact (h y hy).schedule

/-- A worker moves, and attends to the same thread as before unless that is attended to otherwise or has no work. -/
theorem goto (hw : ∀ y, (s.workers worker).attends y = true → (s.threads y).hasWork = true → (s.goto worker place).Attended y) :
    (s.goto worker place).CallsAttended := by
  intro y hy
  by_cases ha : (s.workers worker).attends y = true
  · exact hw y ha hy
  · exact (h y hy).goto (fun hx => absurd hx ha)

/-- A thread loses its work, and may be scheduled. -/
theorem retire (ht : t.hasWork = false) : ((s.setThread x t).schedule x scheduled).CallsAttended := by
  refine (h.setThread ?_).schedule
  intro hx
  rw [ht] at hx
  cases hx

theorem defer (x : Nat) : (s.setThread x (s.threads x).defer).CallsAttended := by
  refine h.keepThread ?_ ?_
  · unfold Thread.defer
    split <;> exact id
  · intro hp
    rw [Thread.defer, if_neg (by rw [hp]; exact nofun)]
    exact hp

/-- The receive loop makes a call the pending one of its thread, and is about to push it. -/
theorem receive (hr : s.receiver = none) (x : Nat) (t : Thread) : CallsAttended { s.setThread x t with receiver := some x } := by
  intro y hy
  by_cases hyx : y = x
  · exact .inr (.inl (congrArg some hyx.symm))
  · have hthread : (s.setThread x t).threads y = s.threads y := by simp [Scheduler.setThread, hyx]
    have hy' : (s.threads y).hasWork = true := hthread ▸ hy
    rcases h y hy' with hq | hr' | hw | hp
    · exact .inl hq
    · rw [hr] at hr'
      cases hr'
    · exact .inr (.inr (.inl hw))
    · exact .inr (.inr (.inr (hthread.symm ▸ hp)))

theorem push (hr : s.receiver = some x) : CallsAttended { s.schedule x true with receiver := none } := by
  intro y hy
  rcases h y hy with hq | hr' | hwp
  · exact .inl (mem_append_left _ hq)
  · rw [hr] at hr'
    cases hr'
    exact .inl (mem_append_right _ (mem_singleton_self _))
  · exact .inr (.inr hwp)

/-- A worker takes the first thread of the queue. -/
theorem pop {workQueue : List Nat} (hw : s.workers worker = .idle) (hq : s.workQueue = x :: workQueue) :
    CallsAttended ({ s with workQueue := workQueue }.goto worker (.holding x)) := by
  intro y hy
  by_cases hyx : y = x
  · subst hyx
    exact .inr (.inr (.inl ⟨worker, by simp [Scheduler.goto, Worker.attends]⟩))
  · refine Attended.goto ?_ ?_
    · rcases h y hy with hq' | h'
      · rw [hq] at hq'
        exact .inl ((mem_cons.1 hq').resolve_left hyx)
      · exact .inr h'
    · rw [hw]
      exact nofun

/-- The deferral of a thread ends, and the request it kept is scheduled. -/
theorem undefer (hwk : t.hasWork = (s.threads x).hasWork) (hdef : t.deferralState = (s.threads x).deferralState) :
    ((s.setThread x t.undefer.1).schedule x t.undefer.2).CallsAttended := by
  have hset : ((s.schedule x t.undefer.2).setThread x t.undefer.1).CallsAttended := by
    refine h.schedule.setThread ?_
    intro hx
    by_cases hp : t.deferralState = .deferredPending
    · rw [show t.undefer.2 = true from decide_eq_true hp]
      exact .inl (mem_append_right _ (mem_singleton_self x))
    · refine (h x (hwk ▸ hx)).schedule.setThread ?_
      intro hpx
      exact absurd (hdef.trans hpx) hp
  exact hset

/-- A worker is done with a thread that it did not attend to any more, or that has no work. -/
theorem doneWorking (hown : ∀ y, (s.workers worker).attends y = true → y = x)
    (hdef : t.deferralState = (s.threads x).deferralState)
    (ht : t.hasWork = true → (s.threads x).hasWork = true ∧ (s.workers worker).attends x = false) :
    (s.doneWorking worker x t).CallsAttended := by
  unfold Scheduler.doneWorking
  split
  · exact h
  · rename_i t' scheduled heq
    obtain ⟨-, hd', hwk'⟩ := doneWorking_spec heq
    have hque : t'.hasWork = true → scheduled = false → (s.threads x).hasWork = true ∧ (s.workers worker).attends x = false := by
      intro hw' hs
      rcases hwk' hw' with hw | hs'
      · exact ht hw
      · rw [hs] at hs'
        cases hs'
    have hset : ((s.schedule x scheduled).setThread x t').CallsAttended := by
      refine h.schedule.setThread ?_
      intro hw'
      have hd : ((s.schedule x scheduled).threads x).deferralState = .deferredPending → t'.deferralState = .deferredPending := by
        rw [hd', hdef]
        exact id
      cases scheduled with
      | true => exact attended_schedule.setThread hd
      | false => exact (h x (hque hw' rfl).1).schedule.setThread hd
    refine hset.goto ?_
    intro y hy hyw
    have hyx : y = x := hown y hy
    subst hyx
    have hw' : t'.hasWork = true := by simpa using hyw
    cases scheduled with
    | true => exact .inl (mem_append_right _ (mem_singleton_self y))
    | false =>
      exact absurd hy (by simp [Scheduler.schedule, (hque hw' rfl).2])

/-- A step of the microthread of a worker, which does not attend to the thread any more. -/
theorem microthread {f : Thread → Thread} {place : Nat → Worker} (hs : s.microthread worker f place = some s')
    (hwk : ∀ t, (f t).hasWork = t.hasWork) (hdef : ∀ t, (f t).deferralState = t.deferralState) : s'.CallsAttended := by
  unfold Scheduler.microthread at hs
  split at hs <;> cases hs
  rename_i thread hw
  refine CallsAttended.goto (h.keepThread ?_ ?_) ?_
  · rw [hwk]
    exact id
  · rw [hdef]
    exact id
  · intro y hy
    rw [setThread_workers, hw] at hy
    cases hy

/-- A worker goes on with the thread it attends to. -/
theorem goOn (hx : (s.workers worker).attends x = true) (hwk : t.hasWork = (s.threads x).hasWork)
    (hdef : t.deferralState = (s.threads x).deferralState) (hpl : place.attends x = true) :
    ((s.setThread x t).goto worker place).CallsAttended := by
  refine CallsAttended.goto (h.keepThread ?_ ?_) ?_
  · rw [hwk]
    exact id
  · rw [hdef]
    exact id
  · intro y hy _
    refine .inr (.inr (.inl ⟨worker, ?_⟩))
    rw [Worker.eq_of_attends hx hy]
    simpa [Scheduler.goto] using hpl

/-- A worker leaves the thread it attends to, which has no work any more. -/
theorem leave (hx : (s.workers worker).attends x = true) (hno : t.hasWork = false) :
    ((s.setThread x t).goto worker place).CallsAttended := by
  refine CallsAttended.goto (h.setThread ?_) ?_
  · rw [hno]
    exact nofun
  · intro y hy hyw
    rw [Worker.eq_of_attends hx hy, setThread_self, hno] at hyw
    cases hyw

/-- A worker enters `doWork`. The request it held is kept by the deferral, or it goes on; that the thread is running is
excluded. -/
theorem enter (hw : s.workers worker = .holding x) (hok : ¬s.Drops (.holding x)) : (s.enter worker x).CallsAttended := by
  have hx : (s.workers worker).attends x = true := by
    rw [hw]
    exact decide_eq_true rfl
  unfold Scheduler.enter
  split
  · rename_i t heq
    have hkept : t.hasWork = true → t.deferralState = .deferredPending := by
      intro ht
      rcases (enter_spec heq).1 rfl with hpd | ⟨rfl, hnd, hrun⟩
      · exact hpd
      · exact absurd ⟨ht, hnd, hrun⟩ hok
    have hatt : t.hasWork = true → (s.setThread x t).Attended x :=
      fun ht => .inr (.inr (.inr (by simpa using hkept ht)))
    refine (h.setThread hatt).goto ?_
    intro y hy hyw
    obtain rfl : y = x := Worker.eq_of_attends hx hy
    rw [setThread_self] at hyw
    refine .inr (.inr (.inr ?_))
    rw [goto_threads, setThread_self]
    exact hkept hyw
  · rename_i t heq
    obtain ⟨-, hdef, hdn, -⟩ := enter_spec heq
    refine h.doneWorking (fun _ => Worker.eq_of_attends hx) (hdef nofun) ?_
    rw [hdn rfl]
    exact nofun
  · rename_i t heq
    obtain ⟨-, hdef, -, hwk⟩ := enter_spec heq
    exact h.goOn hx (hwk rfl) (hdef nofun) (decide_eq_true rfl)

/-- A worker looks for something to run. A pending call is started, unless it is overridden, which is excluded. -/
theorem examine (hw : s.workers worker = .entered x) (hok : ¬s.Drops (.entered x)) : (s.examine worker x).CallsAttended := by
  have hx : (s.workers worker).attends x = true := by
    rw [hw]
    exact decide_eq_true rfl
  unfold Scheduler.examine
  split
  · exact h
  · rename_i t heq
    obtain ⟨-, hwk, hdef, hres, -⟩ := examine_spec heq
    refine h.leave hx ?_
    rw [hwk]
    rcases hres rfl with ⟨hs, ho⟩ | hno
    · by_contra hx
      exact hok ⟨by simpa using hx, hs, ho⟩
    · exact hno
  · rename_i t heq
    obtain ⟨-, hwk, hdef, -, hdn⟩ := examine_spec heq
    refine h.doneWorking (fun _ => Worker.eq_of_attends hx) hdef ?_
    rw [hwk, hdn rfl]
    exact nofun
  · rename_i t heq
    obtain ⟨-, hwk, hdef, -, -⟩ := examine_spec heq
    exact h.goOn hx hwk hdef (decide_eq_true rfl)

/-- The pending call becomes active. -/
theorem start (hw : s.workers worker = .starting x) :
    ((s.setThread x (s.threads x).makePendingCallActive).goto worker (.running x)).CallsAttended := by
  refine h.leave ?_ rfl
  rw [hw]
  exact decide_eq_true rfl

/-- A step of a worker in `doWork`. -/
theorem advance (hok : ¬s.Drops (s.workers worker)) (hs : s.advance worker = some s') : s'.CallsAttended := by
  unfold Scheduler.advance at hs
  generalize hw : s.workers worker = place at hs hok
  cases place with
  | idle | running x =>
    cases hs
  | holding x =>
    cases hs
    exact h.enter hw hok
  | entered x =>
    cases hs
    exact h.examine hw hok
  | starting x =>
    cases hs
    exact h.start hw
  | returning x =>
    cases hs
    refine h.doneWorking ?_ rfl ?_
    · rw [hw]
      exact nofun
    · rw [hw]
      exact fun hx => ⟨hx, rfl⟩

theorem impersonate {thread : Option Nat} (hs : s.impersonate n thread = some s') : s'.CallsAttended := by
  unfold Scheduler.impersonate at hs
  split at hs
  · rename_i old x _
    cases hs
    exact h.defer x
  · cases hs
    exact h
  · cases hs

theorem impersonated (hs : s.impersonated n = some s') : s'.CallsAttended := by
  unfold Scheduler.impersonated at hs
  split at hs
  · obtain ⟨-, hs⟩ := ite_none_left_eq_some.1 hs
    cases hs
    exact h.keepThread id id
  · cases hs
    exact h.undefer rfl rfl
  · cases hs

theorem act {a : SchedulerAction} (hok : NotDropped s a) (hs : s.act a = some s') : s'.CallsAttended := by
  cases a with
  | setPendingCall x call =>
    obtain ⟨hr, hs⟩ := ite_none_right_eq_some.1 hs
    split at hs
    · cases hs
      exact h
    · rename_i t _
      cases hs
      exact h.receive hr x t
  | push =>
    simp only [Scheduler.act] at hs
    split at hs <;> cases hs
    rename_i x hr
    exact h.push hr
  | pop worker =>
    simp only [Scheduler.act] at hs
    split at hs <;> cases hs
    rename_i x workQueue hw hq
    exact h.pop hw hq
  | advance worker => exact h.advance hok hs
  | reply worker | setPendingCallOverride worker _ | suspend worker _ | finish worker =>
    simp only [Scheduler.act] at hs
    exact h.microthread hs (fun _ => rfl) (fun _ => rfl)
  | resume x =>
    cases hs
    exact h.schedule
  | terminate x =>
    cases hs
    exact h.retire (terminate_hasWork _)
  | notifyDead x =>
    cases hs
    exact h.retire (notifyDead_hasWork _)
  | defer x =>
    cases hs
    exact h.defer x
  | undefer x =>
    cases hs
    exact h.undefer rfl rfl
  | impersonate n thread => exact h.impersonate hs
  | impersonated n => exact h.impersonated hs

end

end CallsAttended

theorem callsAttended_init : init.CallsAttended := nofun

/-! ## Runs -/

/-- In every run in which no worker drops a call, no call is stranded. -/
theorem calls_attended_of_not_dropped {s : Scheduler} (h : machine.Reaches NotDropped s) : s.CallsAttended := by
  refine Machine.Reaches.invariant callsAttended_init ?_ h
  intro s a s' hs hok hst
  exact hs.act hok (ite_none_left_eq_some.1 hst).2

/-- Thread 0 makes a call, and makes another one when it has the reply; the first microthread has come to its end by then. -/
def twoCalls : List SchedulerAction :=
  [.setPendingCall 0 ⟨0, .other⟩, .push, .pop 0, .advance 0, .advance 0, .advance 0, .reply 0, .setPendingCall 0 ⟨1, .other⟩, .push,
    .finish 0, .advance 0, .pop 1, .advance 1]

/-- The second call is attended to by the second worker. -/
theorem twoCalls_attended : ∃ s, machine.runOk NotDropped init twoCalls = some s ∧ s.workers 1 = .entered 0 ∧ s.CallsAttended := by
  refine (exists_of_runOk ?_).imp
    fun s h => ⟨h.1, h.2, calls_attended_of_not_dropped (reaches_of_runOk h.1)⟩
  decide

/-- Here the second worker pops the thread while the first microthread has sent its reply but is not back at the top. -/
def callDuringReturn : List SchedulerAction :=
  [.setPendingCall 0 ⟨0, .other⟩, .push, .pop 0, .advance 0, .advance 0, .advance 0, .reply 0, .setPendingCall 0 ⟨1, .other⟩, .push,
    .pop 1, .advance 1, .finish 0, .advance 0]

/-- The second call stays pending, and nothing is left to start it. -/
theorem calls_attended_false : ¬∀ s, machine.Reachable s → s.CallsAttended := by
  intro h
  have hrun : ∃ s, machine.run machine.init callDuringReturn = some s ∧ (s.threads 0).hasWork = true ∧ s.workQueue = [] ∧
      s.receiver = none ∧ (s.threads 0).deferralState = .notDeferred ∧ ∀ w, s.workers w = .idle := by
    refine ⟨_, rfl, by decide, by decide, by decide, by decide, ?_⟩
    intro w
    match w with
    | 0 | 1 => rfl
    | w + 2 => rfl
  obtain ⟨s, hs, hwk, hq, hr, hd, hid⟩ := hrun
  rcases h s (reaches_of_runOk hs) 0 hwk with hx | hx | ⟨w, hx⟩ | hx
  · rw [hq] at hx
    cases hx
  · rw [hr] at hx
    cases hx
  · rw [hid w] at hx
    cases hx
  · rw [hd] at hx
    cases hx

end Scheduler

end Osxie.Server
