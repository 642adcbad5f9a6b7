import Mathlib.Data.List.Infix
import Osxie.Server.DoWork

/-!
# Impersonation, deferral and scheduling requests

A microthread that impersonates a thread defers it, waits until it is not running, and makes it running itself; when it stops,
the thread is not running and not deferred, and a request that `doWork` has noted meanwhile is scheduled again. `running` is
taken by one worker or one impersonator at a time (`Exclusive`). The deferral is one state, not a count: it may have been ended
by another impersonator or by `undefer`.
-/

namespace Osxie.Server

/-- The worker has passed the tests of the thread's `doWork`, and is not done. -/
def Worker.runs (thread : Nat) : Worker → Bool
  | .entered t | .starting t | .running t | .returning t => t = thread
  | .idle | .holding _ => false

/-- The microthread impersonates the thread: it has taken it, and not released it. -/
def Impersonator.holds (thread : Nat) : Impersonator → Prop
  | .outside impersonating => impersonating = some thread
  | .waiting _ old => old = some thread
  | .releasing old impersonating => old = thread ∨ impersonating = some thread

namespace Scheduler

variable (s : Scheduler) (thread : Nat)

def Impersonated : Prop := ∃ i, (s.impersonators i).holds thread

def Deferred : Prop := (s.threads thread).deferralState ≠ .notDeferred

/-- A worker gets past the tests of the thread's `doWork` in the step. -/
def RunsDoWork : SchedulerAction → Prop
  | .advance worker => s.workers worker = .holding thread ∧ (s.threads thread).enter.2 ≠ .returns
  | _ => False

end Scheduler

/-- The server, and the threads for which a request was made while they were impersonated or deferred, and `doWork` did not
run since. -/
structure Watched where
  scheduler : Scheduler
  requested : Nat → Prop

namespace Watched

def step (x : Watched) (a : SchedulerAction) : Option Watched :=
  (x.scheduler.step a).map fun s => ⟨s, fun thread =>
    (x.requested thread ∨
      thread ∈ s.workQueue.drop x.scheduler.workQueue.length ∧ (x.scheduler.Impersonated thread ∨ x.scheduler.Deferred thread)) ∧
    ¬x.scheduler.RunsDoWork thread a⟩

def machine : Machine Watched SchedulerAction where
  init := ⟨.init, fun _ => False⟩
  step := step

end Watched

structure Kept (x : Watched) : Prop where
  /-- While a thread is impersonated no worker runs it, and nobody else impersonates it. -/
  alone : ∀ i thread, (x.scheduler.impersonators i).holds thread →
    (∀ w, (x.scheduler.workers w).runs thread = false) ∧ ∀ j, (x.scheduler.impersonators j).holds thread → j = i
  /-- A request is noted by the deferral, or queued, or a worker has popped it. -/
  requests : ∀ thread, x.requested thread → (x.scheduler.threads thread).deferralState = .deferredPending ∨
    thread ∈ x.scheduler.workQueue ∨ ∃ w, x.scheduler.workers w = .holding thread
  /-- When the deferral has ended, `doWork` runs for it. -/
  runs : ∀ thread, x.requested thread → ¬x.scheduler.Deferred thread → (x.scheduler.threads thread).enter.2 ≠ .returns

namespace Scheduler

variable (s : Scheduler)

/-- The thread that the microthread waits for is deferred. -/
def WaitsDeferred : Impersonator → Prop
  | .waiting thread _ => s.Deferred thread
  | .outside _ | .releasing _ _ => True

/-- An impersonator that has waited takes a thread only while it is deferred, and a deferral is ended by `undefer` only while
the thread is not running. -/
def KeepsDeferral : SchedulerAction → Prop
  | .impersonated i => s.WaitsDeferred (s.impersonators i)
  | .undefer thread => (s.threads thread).running = false
  | _ => True

instance (thread : Nat) : Decidable (s.Deferred thread) := inferInstanceAs (Decidable (_ ≠ _))

instance (i : Impersonator) : Decidable (s.WaitsDeferred i) := by
  cases i <;> unfold WaitsDeferred <;> infer_instance

instance (a : SchedulerAction) : Decidable (s.KeepsDeferral a) := by
  rcases a <;> unfold KeepsDeferral <;> infer_instance

/-! ## What a step keeps -/

variable {s s' : Scheduler}

/-- A step that concerns neither who runs or impersonates a thread nor its deferral, and drops no request. -/
structure Quiet (s s' : Scheduler) : Prop where
  running : ∀ x, (s'.threads x).running = (s.threads x).running
  deferralState : ∀ x, (s'.threads x).deferralState = (s.threads x).deferralState
  runs : ∀ w x, (s'.workers w).runs x = (s.workers w).runs x
  holding : ∀ w x, s.workers w = .holding x → s'.workers w = .holding x
  impersonators : s'.impersonators = s.impersonators
  queue : s.workQueue <+: s'.workQueue

theorem Quiet.refl (s : Scheduler) : Quiet s s := ⟨fun _ => rfl, fun _ => rfl, fun _ _ => rfl, fun _ _ => id, rfl, List.prefix_rfl⟩

theorem Quiet.trans {s'' : Scheduler} (h : Quiet s s') (h' : Quiet s' s'') : Quiet s s'' where
  running x := (h'.running x).trans (h.running x)
  deferralState x := (h'.deferralState x).trans (h.deferralState x)
  runs w x := (h'.runs w x).trans (h.runs w x)
  holding w x hw := h'.holding w x (h.holding w x hw)
  impersonators := h'.impersonators.trans h.impersonators
  queue := h.queue.trans h'.queue

theorem quiet_schedule (s : Scheduler) (x : Nat) (scheduled : Bool) : Quiet s (s.schedule x scheduled) :=
  { Quiet.refl s with queue := List.prefix_append _ _ }

theorem quiet_setThread {x : Nat} {t : Thread} (hrun : t.running = (s.threads x).running)
    (hdef : t.deferralState = (s.threads x).deferralState) : Quiet s (s.setThread x t) :=
  { Quiet.refl s with
    running := fun y => by
      by_cases hy : y = x
      · subst hy
        rw [setThread_self, hrun]
      · simp [setThread, hy]
    deferralState := fun y => by
      by_cases hy : y = x
      · subst hy
        rw [setThread_self, hdef]
      · simp [setThread, hy] }

theorem quiet_goto {worker : Nat} {place : Worker} (hru : ∀ x, place.runs x = (s.workers worker).runs x)
    (hhold : ∀ x, s.workers worker ≠ .holding x) : Quiet s (s.goto worker place) :=
  { Quiet.refl s with
    runs := fun w x => by
      by_cases hw : w = worker
      · subst hw
        simp [goto, hru]
      · simp [goto, hw]
    holding := fun w x hx => by
      have hw : w ≠ worker := fun hw => hhold x (hw ▸ hx)
      simpa [goto, hw] using hx }

end Scheduler

namespace Thread

variable {t t' : Thread}

theorem setPendingCall_running {call : Call} (h : t.setPendingCall call = .ok t') :
    t'.running = t.running ∧ t'.deferralState = t.deferralState := by
  unfold setPendingCall at h
  split at h
  · split at h <;> cases h
    exact ⟨rfl, rfl⟩
  · cases h
    exact ⟨rfl, rfl⟩

theorem terminate_keeps (t : Thread) : t.terminate.1.running = t.running ∧ t.terminate.1.deferralState = t.deferralState := by
  unfold terminate
  split
  · exact ⟨rfl, rfl⟩
  · exact notifyDead_keeps _

end Thread

namespace Scheduler

variable {s s' : Scheduler}

/-! ## A thread is run or impersonated by one party -/

def Taken (s : Scheduler) (x : Nat) : Prop := (∃ w, (s.workers w).runs x = true) ∨ s.Impersonated x

/-- A thread that is taken is running, and taken by one party only. -/
structure Exclusive (s : Scheduler) : Prop where
  workers : ∀ v w x, (s.workers v).runs x = true → (s.workers w).runs x = true → v = w
  apart : ∀ w i x, (s.workers w).runs x = true → ¬(s.impersonators i).holds x
  one : ∀ i j x, (s.impersonators i).holds x → (s.impersonators j).holds x → i = j
  distinct : ∀ i old impersonating, s.impersonators i = .releasing old impersonating → impersonating ≠ some old
  running : ∀ x, s.Taken x → (s.threads x).running = true

variable (h : Exclusive s)

include h

/-- Nobody takes a thread. -/
theorem Exclusive.shrink (hwk : ∀ w x, (s'.workers w).runs x = true → (s.workers w).runs x = true)
    (himp : ∀ i x, (s'.impersonators i).holds x → (s.impersonators i).holds x)
    (hdistinct : ∀ i old impersonating, s'.impersonators i = .releasing old impersonating → impersonating ≠ some old)
    (hrun : ∀ x, s'.Taken x → (s.threads x).running = true → (s'.threads x).running = true) : Exclusive s' where
  workers v w x hv hw := h.workers v w x (hwk v x hv) (hwk w x hw)
  apart w i x hw hi := h.apart w i x (hwk w x hw) (himp i x hi)
  one i j x hi hj := h.one i j x (himp i x hi) (himp j x hj)
  distinct := hdistinct
  running x hx := hrun x hx (h.running x (hx.imp (fun ⟨w, hw⟩ => ⟨w, hwk w x hw⟩) fun ⟨i, hi⟩ => ⟨i, himp i x hi⟩))

theorem Exclusive.quiet (hq : Quiet s s') : Exclusive s' := by
  refine h.shrink (fun w x hw => hq.runs w x ▸ hw) (fun i x hi => hq.impersonators ▸ hi) (fun i old impersonating hi => ?_)
    fun x _ hx => (hq.running x).trans hx
  exact h.distinct i old impersonating (hq.impersonators ▸ hi)

/-- Nobody has taken a thread that is not running. -/
theorem Exclusive.not_taken {x : Nat} (hx : (s.threads x).running = false) : ¬s.Taken x := fun htak => by
  rw [h.running x htak] at hx
  cases hx

/-- Whoever takes a thread finds it not running, and makes it running. -/
theorem Exclusive.take {x : Nat} (hx : (s.threads x).running = false)
    (hwk : ∀ v w, (s'.workers v).runs x = true → (s'.workers w).runs x = true → v = w)
    (hpart : ∀ w i, (s'.workers w).runs x = true → ¬(s'.impersonators i).holds x)
    (hone : ∀ i j, (s'.impersonators i).holds x → (s'.impersonators j).holds x → i = j)
    (hru : ∀ w y, y ≠ x → (s'.workers w).runs y = true → (s.workers w).runs y = true)
    (himp : ∀ i y, y ≠ x → (s'.impersonators i).holds y → (s.impersonators i).holds y)
    (hdistinct : ∀ i old impersonating, s'.impersonators i = .releasing old impersonating → impersonating ≠ some old)
    (hrun : (s'.threads x).running = true) (hoth : ∀ y, y ≠ x → (s'.threads y).running = (s.threads y).running) :
    Exclusive s' where
  workers v w y hv hw := by
    by_cases hy : y = x
    · subst hy
      exact hwk v w hv hw
    · exact h.workers v w y (hru v y hy hv) (hru w y hy hw)
  apart w i y hw hi := by
    by_cases hy : y = x
    · subst hy
      exact hpart w i hw hi
    · exact h.apart w i y (hru w y hy hw) (himp i y hy hi)
  one i j y hi hj := by
    by_cases hy : y = x
    · subst hy
      exact hone i j hi hj
    · exact h.one i j y (himp i y hy hi) (himp j y hy hj)
  distinct := hdistinct
  running y hy := by
    by_cases hyx : y = x
    · subst hyx
      exact hrun
    · rw [hoth y hyx]
      exact h.running y (hy.imp (fun ⟨w, hw⟩ => ⟨w, hru w y hyx hw⟩) fun ⟨i, hi⟩ => ⟨i, himp i y hyx hi⟩)

end Scheduler

end Osxie.Server
