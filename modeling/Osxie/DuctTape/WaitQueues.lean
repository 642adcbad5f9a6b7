import Mathlib.Data.List.Nodup
import Osxie.Lib.Machine

/-!
# The wait queues of the duct tape

A microthread has one link, `mutex_link`, for the wait queues of all mutexes and condition variables. `dtape_mutex_lock` and
`dtape_condvar_wait` put it in a queue and suspend the microthread; `dtape_mutex_unlock` and `dtape_condvar_signal` take it out
before they resume the microthread. It is also resumed by others, which know nothing of the queues: `Thread::notifyDead` when a
call is active, and `thread_release`.

Any number of microthreads are at places of the four functions, and one step does one access to shared memory. A microthread
that was suspended goes on when a worker dispatches it. `Thread::resume` tests under its lock whether it is suspended, and then,
without the lock, pushes it on the work queue. An insertion of a link that is still queued, which corrupts the intrusive list,
puts it in the list a second time.
-/

namespace Osxie.DuctTape

open List Option Machine
open Function (update update_self update_of_ne)

namespace WaitQueues

/-- A wait queue, by the mutex or the condition variable it belongs to. -/
inductive QueueId where
  | mutex (m : Nat)
  | condvar (c : Nat)
deriving DecidableEq

/-- What a microthread waits for: a mutex, or a condition variable with a mutex to be locked afterwards. -/
inductive Wait where
  | mutex (m : Nat)
  | condvar (c : Nat) (m : Nat)
deriving DecidableEq

def Wait.queue : Wait → QueueId
  | .mutex m => .mutex m
  | .condvar c _ => .condvar c

/-- Where a microthread is: outside, suspended by something else, or before the named access. An unlock that
`dtape_condvar_wait` made carries the condition variable it goes on with; `count` is what is left of the count of a signal. -/
inductive Place where
  | idle
  | elsewhere
  | lockAssert (m : Nat)
  | lockAcquire (m : Nat)
  | lockTest (m : Nat)
  | lockWrite (m : Nat)
  | lockRelease (m : Nat)
  | enqueue (w : Wait)
  | suspend (w : Wait)
  | suspendRelease (w : Wait)
  | asleep (w : Wait)
  | waitAcquire (c : Nat) (m : Nat)
  | unlockAssert (m : Nat) (c : Option Nat)
  | unlockAcquire (m : Nat) (c : Option Nat)
  | unlockClear (m : Nat) (c : Option Nat)
  | unlockFirst (m : Nat) (c : Option Nat)
  | unlockResume (m : Nat) (c : Option Nat) (t : Nat)
  | unlockPush (m : Nat) (c : Option Nat) (t : Nat)
  | unlockRelease (m : Nat) (c : Option Nat)
  | signalAcquire (c : Nat) (count : Nat)
  | signalFirst (c : Nat) (count : Nat)
  | signalResume (c : Nat) (count : Nat) (t : Nat)
  | signalPush (c : Nat) (count : Nat) (t : Nat)
  | signalRelease (c : Nat)
deriving DecidableEq

namespace Place

/-- The wait that a microthread is blocked in: from the insertion of its link until it goes on. -/
def blockedIn : Place → Option Wait
  | .suspend w | .suspendRelease w | .asleep w => some w
  | _ => none

def suspended : Place → Bool
  | .elsewhere | .suspendRelease _ | .asleep _ => true
  | _ => false

/-- The microthread that is about to be resumed, its link being out of the queue. -/
def wakes : Place → Option Nat
  | .unlockResume _ _ t | .unlockPush _ _ t | .signalResume _ _ t | .signalPush _ _ t => some t
  | _ => none

/-- The microthread that was found suspended and is about to be pushed. -/
def pushes : Place → Option Nat
  | .unlockPush _ _ t | .signalPush _ _ t => some t
  | _ => none

end Place

/-- Where the microthread goes on after its wait. -/
def Wait.after : Wait → Place
  | .mutex m => .lockAcquire m
  | .condvar _ m => .lockAssert m

def unlockReturn (m : Nat) : Option Nat → Place
  | none => .idle
  | some c => .enqueue (.condvar c m)

end WaitQueues

open WaitQueues

/-- The mutexes, the condition variables and the microthreads. `scheduled` are the microthreads in the work queue, `resuming`
those that a resume from neither unlock nor signal has found suspended and not pushed yet. -/
structure WaitQueues where
  owner : Nat → Option Nat
  queueLock : QueueId → Option Nat
  queue : QueueId → List Nat
  scheduled : List Nat
  resuming : List Nat
  place : Nat → Place

namespace WaitQueues

/-- Everything is unlocked, and every microthread outside. -/
def init : WaitQueues where
  owner _ := none
  queueLock _ := none
  queue _ := []
  scheduled := []
  resuming := []
  place _ := .idle

variable (s : WaitQueues)

def goto (t : Nat) (place : Place) : WaitQueues :=
  { s with place := update s.place t place }

/-- A microthread takes a queue lock and goes on, if it is free. -/
def acquire (t : Nat) (q : QueueId) (place : Place) : Option WaitQueues :=
  if s.queueLock q = none then some ({ s with queueLock := update s.queueLock q (some t) }.goto t place) else none

/-- A queue lock is unlocked, and the microthread goes on. -/
def release (t : Nat) (q : QueueId) (place : Place) : WaitQueues :=
  { s with queueLock := update s.queueLock q none }.goto t place

def setOwner (m : Nat) (owner : Option Nat) : WaitQueues :=
  { s with owner := update s.owner m owner }

def setQueue (q : QueueId) (queue : List Nat) : WaitQueues :=
  { s with queue := update s.queue q queue }

def schedule (t : Nat) : WaitQueues :=
  { s with scheduled := s.scheduled ++ [t] }

/-- The test of a resume from neither unlock nor signal. -/
def resume (t : Nat) : WaitQueues :=
  if (s.place t).suspended then { s with resuming := s.resuming ++ [t] } else s

/-- A worker takes a microthread from the work queue: it goes on where it was suspended, or nothing happens if it is still
running. -/
def dispatch (t : Nat) : WaitQueues :=
  let s := { s with scheduled := s.scheduled.erase t }
  match s.place t with
  | .asleep w => s.goto t w.after
  | .elsewhere => s.goto t .idle
  | _ => s

/-- The next access of a microthread; none where it cannot go on. -/
def advance (t : Nat) : Option WaitQueues :=
  match s.place t with
  | .idle | .elsewhere | .asleep _ => none
  | .lockAssert m => if s.owner m = some t then none else some (s.goto t (.lockAcquire m))
  | .lockAcquire m => s.acquire t (.mutex m) (.lockTest m)
  | .lockTest m => some (s.goto t (if s.owner m = none ∨ s.owner m = some t then .lockWrite m else .enqueue (.mutex m)))
  | .lockWrite m => some ((s.setOwner m (some t)).goto t (.lockRelease m))
  | .lockRelease m => some (s.release t (.mutex m) .idle)
  | .enqueue w => some ((s.setQueue w.queue (s.queue w.queue ++ [t])).goto t (.suspend w))
  | .suspend w => some (s.goto t (.suspendRelease w))
  | .suspendRelease w => some (s.release t w.queue (.asleep w))
  | .waitAcquire c m => s.acquire t (.condvar c) (.unlockAssert m (some c))
  | .unlockAssert m c => if s.owner m = some t then some (s.goto t (.unlockAcquire m c)) else none
  | .unlockAcquire m c => s.acquire t (.mutex m) (.unlockClear m c)
  | .unlockClear m c => some ((s.setOwner m none).goto t (.unlockFirst m c))
  | .unlockFirst m c =>
    match s.queue (.mutex m) with
    | [] => some (s.goto t (.unlockRelease m c))
    | u :: queue => some ((s.setQueue (.mutex m) queue).goto t (.unlockResume m c u))
  | .unlockResume m c u => some (s.goto t (if (s.place u).suspended then .unlockPush m c u else .unlockRelease m c))
  | .unlockPush m c u => some ((s.schedule u).goto t (.unlockRelease m c))
  | .unlockRelease m c => some (s.release t (.mutex m) (unlockReturn m c))
  | .signalAcquire c count => s.acquire t (.condvar c) (.signalFirst c count)
  | .signalFirst c count =>
    match count, s.queue (.condvar c) with
    | 0, _ | _, [] => some (s.goto t (.signalRelease c))
    | count + 1, u :: queue => some ((s.setQueue (.condvar c) queue).goto t (.signalResume c count u))
  | .signalResume c count u => some (s.goto t (if (s.place u).suspended then .signalPush c count u else .signalFirst c count))
  | .signalPush c count u => some ((s.schedule u).goto t (.signalFirst c count))
  | .signalRelease c => some (s.release t (.condvar c) .idle)

/-- What can happen next: a microthread that is outside calls one of the functions or is suspended by something else, one that
is inside does its next access, anyone resumes a microthread (the test, and then the push), or a worker takes one from the work
queue. -/
inductive Action where
  | lock (t m : Nat)
  | unlock (t m : Nat)
  | wait (t c m : Nat)
  | signal (t c count : Nat)
  | suspend (t : Nat)
  | advance (t : Nat)
  | resume (t : Nat)
  | push (t : Nat)
  | dispatch (t : Nat)
deriving DecidableEq

def enter (t : Nat) (place : Place) : Option WaitQueues :=
  if s.place t = .idle then some (s.goto t place) else none

def step : Action → Option WaitQueues
  | .lock t m => s.enter t (.lockAssert m)
  | .unlock t m => s.enter t (.unlockAssert m none)
  | .wait t c m => s.enter t (.waitAcquire c m)
  | .signal t c count => s.enter t (.signalAcquire c count)
  | .suspend t => s.enter t .elsewhere
  | .advance t => s.advance t
  | .resume t => some (s.resume t)
  | .push t => if t ∈ s.resuming then some ({ s with resuming := s.resuming.erase t }.schedule t) else none
  | .dispatch t => if t ∈ s.scheduled then some (s.dispatch t) else none

/-- The wait queues and any number of microthreads, in any interleaving. -/
def machine : Machine WaitQueues Action where
  init := init
  step := step

/-! ## Membership -/

/-- Every link is in at most one queue, at most once, and only while its microthread is blocked in the wait of that queue. -/
structure Membership (s : WaitQueues) : Prop where
  once : ∀ q, (s.queue q).Nodup
  one : ∀ t q q', t ∈ s.queue q → t ∈ s.queue q' → q = q'
  blocked : ∀ t q, t ∈ s.queue q → (s.place t).blockedIn.map Wait.queue = some q

/-- A resume that comes from neither unlock nor signal finds the microthread not suspended, or suspended outside the two waits,
not scheduled yet and not about to be by another such resume. -/
def ResumedOutside : Action → Prop
  | .resume t => (s.place t).suspended = false ∨ s.place t = .elsewhere ∧ t ∉ s.scheduled ∧ t ∉ s.resuming
  | _ => True

instance (a : Action) : Decidable (ResumedOutside s a) := by
  cases a <;> unfold ResumedOutside <;> infer_instance

/-! ## The invariant -/

/-- The microthread is neither in a wait nor suspended by something else. -/
def Place.runs : Place → Bool
  | .elsewhere | .suspend _ | .suspendRelease _ | .asleep _ => false
  | _ => true

theorem Place.blockedIn_of_runs {place : Place} (h : place.runs = true) : place.blockedIn = none := by
  cases place with
  | suspend | suspendRelease | asleep => cases h
  | _ => rfl

theorem Place.wakes_of_pushes {place : Place} {t : Nat} (h : place.pushes = some t) : place.wakes = some t := by
  cases place with
  | unlockPush | signalPush => exact h
  | _ => cases h

theorem Place.suspended_of_runs {place : Place} (h : place.runs = true) : place.suspended = false := by
  cases place with
  | elsewhere | suspendRelease | asleep => cases h
  | _ => rfl

/-- A link is where its microthread waits. A microthread is scheduled at most once, when it is suspended and its link is out of
the queues; one whose link an unlock or a signal has taken out is not scheduled before that one resumes it, and one that it or
another resume is about to push stays suspended until then. -/
structure Inv (s : WaitQueues) : Prop where
  once : ∀ q, (s.queue q).Nodup
  blocked : ∀ t q, t ∈ s.queue q → (s.place t).blockedIn.map Wait.queue = some q
  scheduled_once : s.scheduled.Nodup
  scheduled : ∀ t ∈ s.scheduled, (s.place t).suspended = true ∧ ∀ q, t ∉ s.queue q
  woken : ∀ u t, (s.place u).wakes = some t → (s.place t).blockedIn ≠ none ∧ (∀ q, t ∉ s.queue q) ∧ t ∉ s.scheduled
  waker : ∀ u u' t, (s.place u).wakes = some t → (s.place u').wakes = some t → u = u'
  pushed : ∀ u t, (s.place u).pushes = some t → (s.place t).suspended = true
  resuming_once : s.resuming.Nodup
  resuming : ∀ t ∈ s.resuming, s.place t = .elsewhere ∧ t ∉ s.scheduled

theorem inv_init : Inv init where
  once _ := nodup_nil
  blocked _ _ h := absurd h not_mem_nil
  scheduled_once := nodup_nil
  scheduled _ h := absurd h not_mem_nil
  woken _ _ h := nomatch h
  waker _ _ _ h := nomatch h
  pushed _ _ h := nomatch h
  resuming_once := nodup_nil
  resuming _ h := absurd h not_mem_nil

variable {s : WaitQueues} {t : Nat} {place : Place}

@[simp] theorem goto_place_self : (s.goto t place).place t = place := update_self ..

variable {u : Nat} {queue : List Nat} {q : QueueId} {s' : WaitQueues}

theorem goto_place_of_ne (h : u ≠ t) : (s.goto t place).place u = s.place u := update_of_ne h ..

section

variable (h : Inv s)

include h

theorem Inv.owner (m : Nat) (owner : Option Nat) : Inv (s.setOwner m owner) := { h with }

theorem Inv.queueLock (queueLock : QueueId → Option Nat) : Inv { s with queueLock := queueLock } := { h with }

/-- A microthread that is not blocked has its link in no queue. -/
theorem Inv.notMem_of_not_blocked (hb : (s.place t).blockedIn = none) (q : QueueId) : t ∉ s.queue q := by
  intro hq
  have := h.blocked t q hq
  rw [hb] at this
  cases this

/-- A link is in one queue only. -/
theorem Inv.one {q q' : QueueId} (hq : t ∈ s.queue q) (hq' : t ∈ s.queue q') : q = q' := by
  have := (h.blocked t q hq).symm.trans (h.blocked t q' hq')
  exact some.inj this

/-- A microthread moves: it wakes nobody where it goes, and what the others rely on still holds there. -/
theorem Inv.moves (hwak : place.wakes = none) (hblock : ∀ q, t ∈ s.queue q → place.blockedIn.map Wait.queue = some q)
    (hqueued : t ∈ s.scheduled → place.suspended = true) (hwoken : ∀ u, (s.place u).wakes = some t → place.blockedIn ≠ none)
    (hpush : ∀ u, (s.place u).pushes = some t → place.suspended = true) (hres : t ∉ s.resuming) : Inv (s.goto t place) where
  once := h.once
  blocked u q hq := by
    by_cases hu : u = t
    · subst hu
      rw [goto_place_self]
      exact hblock q hq
    · rw [goto_place_of_ne hu]
      exact h.blocked u q hq
  scheduled_once := h.scheduled_once
  scheduled u hu := by
    refine ⟨?_, (h.scheduled u hu).2⟩
    by_cases hut : u = t
    · subst hut
      rw [goto_place_self]
      exact hqueued hu
    · rw [goto_place_of_ne hut]
      exact (h.scheduled u hu).1
  woken u v huv := by
    have hut : u ≠ t := by
      rintro rfl
      rw [goto_place_self, hwak] at huv
      cases huv
    rw [goto_place_of_ne hut] at huv
    obtain ⟨hb, hrs⟩ := h.woken u v huv
    refine ⟨?_, hrs⟩
    by_cases hvt : v = t
    · subst hvt
      rw [goto_place_self]
      exact hwoken u huv
    · rw [goto_place_of_ne hvt]
      exact hb
  waker u u' v hu hu' := by
    have hne : ∀ {x}, ((s.goto t place).place x).wakes = some v → x ≠ t := by
      rintro x hx rfl
      rw [goto_place_self, hwak] at hx
      cases hx
    rw [goto_place_of_ne (hne hu)] at hu
    rw [goto_place_of_ne (hne hu')] at hu'
    exact h.waker u u' v hu hu'
  pushed u v huv := by
    have hut : u ≠ t := by
      rintro rfl
      rw [goto_place_self] at huv
      rw [Place.wakes_of_pushes huv] at hwak
      cases hwak
    rw [goto_place_of_ne hut] at huv
    by_cases hvt : v = t
    · subst hvt
      rw [goto_place_self]
      exact hpush u huv
    · rw [goto_place_of_ne hvt]
      exact h.pushed u v huv
  resuming_once := h.resuming_once
  resuming u hu := by
    have hut : u ≠ t := by
      rintro rfl
      exact hres hu
    rw [goto_place_of_ne hut]
    exact h.resuming u hu

/-- A microthread that runs is not scheduled. -/
theorem Inv.not_scheduled_of_runs (hru : (s.place t).runs = true) : t ∉ s.scheduled := by
  intro hmem
  have hs := (h.scheduled t hmem).1
  rw [Place.suspended_of_runs hru] at hs
  cases hs

/-- Only a microthread that waits outside the two waits is about to be pushed by somebody else. -/
theorem Inv.not_resuming (hpl : s.place t ≠ .elsewhere) : t ∉ s.resuming := fun hmem => hpl (h.resuming t hmem).1

theorem Inv.not_resuming_of_runs (hru : (s.place t).runs = true) : t ∉ s.resuming := by
  refine h.not_resuming fun hpl => ?_
  rw [hpl] at hru
  cases hru

/-- A microthread that runs moves. -/
theorem Inv.goto (hru : (s.place t).runs = true) (hwak : place.wakes = none) : Inv (s.goto t place) := by
  have hb := Place.blockedIn_of_runs hru
  exact h.moves hwak (fun q hq => absurd hq (h.notMem_of_not_blocked hb q)) (fun ht => absurd ht (h.not_scheduled_of_runs hru))
    (fun u hu => absurd hb (h.woken u t hu).1) (fun u hu => absurd hb (h.woken u t (Place.wakes_of_pushes hu)).1)
    (h.not_resuming_of_runs hru)

/-- A microthread that is blocked goes deeper into its wait. -/
theorem Inv.deeper {w : Wait} (hb : (s.place t).blockedIn = some w) (hpl : place.blockedIn = some w)
    (hs : place.suspended = true) (hwak : place.wakes = none) : Inv (s.goto t place) := by
  refine h.moves hwak (fun q hq => ?_) (fun _ => hs) (fun _ _ => by rw [hpl]; nofun) (fun _ _ => hs) (h.not_resuming fun he => ?_)
  · rw [hpl, ← hb]
    exact h.blocked t q hq
  · rw [he] at hb
    cases hb

end

/-- The links in the queues after one queue changed. -/
theorem mem_setQueue {q q' : QueueId} : u ∈ (s.setQueue q queue).queue q' ↔ q' = q ∧ u ∈ queue ∨ q' ≠ q ∧ u ∈ s.queue q' := by
  unfold setQueue
  by_cases hq : q' = q
  · subst hq
    simp [update_self]
  · simp [hq]

section

variable (h : Inv s)

include h

theorem nodup_setQueue (hque : queue.Nodup) (q' : QueueId) : ((s.setQueue q queue).queue q').Nodup := by
  unfold setQueue
  dsimp only
  by_cases hq : q' = q
  · subst hq
    rwa [update_self]
  · rw [update_of_ne hq]
    exact h.once q'

/-- The link of a microthread in its wait is put into the queue. -/
theorem Inv.insert {w : Wait} (hb : (s.place t).blockedIn = some w) (hfr : ∀ q, t ∉ s.queue q) (hs : t ∉ s.scheduled)
    (hw : ∀ u, (s.place u).wakes ≠ some t) : Inv (s.setQueue w.queue (s.queue w.queue ++ [t])) := by
  have hmem {u : Nat} {q : QueueId} (hq : u ∈ (s.setQueue w.queue (s.queue w.queue ++ [t])).queue q) :
      u ∈ s.queue q ∨ u = t ∧ q = w.queue := by
    rcases mem_setQueue.1 hq with ⟨rfl, happ⟩ | ⟨_, hold⟩
    · rcases mem_append.1 happ with hold | hnew
      · exact .inl hold
      · exact .inr ⟨mem_singleton.1 hnew, rfl⟩
    · exact .inl hold
  exact { h with
    once := nodup_setQueue h ((h.once _).append (nodup_singleton t) (disjoint_singleton.2 (hfr _)))
    blocked := fun u q hq => by
      rcases hmem hq with hq | ⟨rfl, rfl⟩
      · exact h.blocked u q hq
      · exact congrArg (Option.map Wait.queue) hb
    scheduled := fun u hu => by
      refine ⟨(h.scheduled u hu).1, fun q hq => ?_⟩
      rcases hmem hq with hq | ⟨rfl, _⟩
      · exact (h.scheduled u hu).2 q hq
      · exact hs hu
    woken := fun u v huv => by
      obtain ⟨hb', hq', hs'⟩ := h.woken u v huv
      refine ⟨hb', fun q hq => ?_, hs'⟩
      rcases hmem hq with hq | ⟨rfl, _⟩
      · exact hq' q hq
      · exact hw u huv }

/-- The first link of a queue is taken out. -/
theorem Inv.remove (hq : s.queue q = u :: queue) : Inv (s.setQueue q queue) ∧ ∀ q', u ∉ (s.setQueue q queue).queue q' := by
  have hnd : (u :: queue).Nodup := hq ▸ h.once q
  obtain ⟨hnot, hnd⟩ := nodup_cons.1 hnd
  have hmem {v : Nat} {q' : QueueId} (hv : v ∈ (s.setQueue q queue).queue q') : v ∈ s.queue q' := by
    rcases mem_setQueue.1 hv with ⟨rfl, hrs⟩ | ⟨_, hoth⟩
    · rw [hq]
      exact mem_cons_of_mem u hrs
    · exact hoth
  refine ⟨{ h with
    once := nodup_setQueue h hnd
    blocked := fun v q' hv => h.blocked v q' (hmem hv)
    scheduled := fun v hv => ⟨(h.scheduled v hv).1, fun q' hq' => (h.scheduled v hv).2 q' (hmem hq')⟩
    woken := fun x v hx => by
      obtain ⟨hb, hfr, hs⟩ := h.woken x v hx
      exact ⟨hb, fun q' hq' => hfr q' (hmem hq'), hs⟩ }, fun q' hu => ?_⟩
  have hqq : q' = q := h.one (hmem hu) (by rw [hq]; exact mem_cons_self)
  rcases mem_setQueue.1 hu with ⟨_, hu⟩ | ⟨hne, _⟩
  · exact hnot hu
  · exact hne hqq

/-- A microthread goes where it wakes another one, which nobody else is about to wake. -/
theorem Inv.gotoWakes (hru : (s.place t).runs = true) (hwak : place.wakes = some u) (hu : (s.place u).blockedIn ≠ none)
    (hfr : ∀ q, u ∉ s.queue q) (hnot : u ∉ s.scheduled) (hno : ∀ x, x ≠ t → (s.place x).wakes ≠ some u)
    (hpush : place.pushes = some u → (s.place u).suspended = true) : Inv (s.goto t place) := by
  have hb := Place.blockedIn_of_runs hru
  have hut : u ≠ t := by
    rintro rfl
    exact hu hb
  have hwk {x v : Nat} (hx : ((s.goto t place).place x).wakes = some v) : x = t ∧ v = u ∨ x ≠ t ∧ (s.place x).wakes = some v := by
    by_cases hxt : x = t
    · subst hxt
      rw [goto_place_self, hwak] at hx
      exact .inl ⟨rfl, (some.inj hx).symm⟩
    · rw [goto_place_of_ne hxt] at hx
      exact .inr ⟨hxt, hx⟩
  exact { h with
    blocked := fun v q hv => by
      have hvt : v ≠ t := by
        rintro rfl
        exact h.notMem_of_not_blocked hb q hv
      rw [goto_place_of_ne hvt]
      exact h.blocked v q hv
    scheduled := fun v hv => by
      have hvt : v ≠ t := by
        rintro rfl
        exact h.not_scheduled_of_runs hru hv
      rw [goto_place_of_ne hvt]
      exact h.scheduled v hv
    woken := fun x v hx => by
      rcases hwk hx with ⟨_, rfl⟩ | ⟨_, hx⟩
      · rw [goto_place_of_ne hut]
        exact ⟨hu, hfr, hnot⟩
      · obtain ⟨hv, hrs⟩ := h.woken x v hx
        have hvt : v ≠ t := by
          rintro rfl
          exact hv hb
        rw [goto_place_of_ne hvt]
        exact ⟨hv, hrs⟩
    waker := fun x x' v hx hx' => by
      rcases hwk hx with ⟨rfl, rfl⟩ | ⟨hne, hx⟩ <;> rcases hwk hx' with ⟨hxt, hvu⟩ | ⟨hne', hx'⟩
      · exact hxt.symm
      · exact absurd hx' (hno x' hne')
      · subst hvu
        exact absurd hx (hno x hne)
      · exact h.waker x x' v hx hx'
    pushed := fun x v hx => by
      rcases hwk (Place.wakes_of_pushes hx) with ⟨rfl, rfl⟩ | ⟨hne, hwx⟩
      · rw [goto_place_self] at hx
        rw [goto_place_of_ne hut]
        exact hpush hx
      · rw [goto_place_of_ne hne] at hx
        have hvt : v ≠ t := by
          rintro rfl
          exact (h.woken x v hwx).1 hb
        rw [goto_place_of_ne hvt]
        exact h.pushed x v hx
    resuming := fun v hv => by
      have hvt : v ≠ t := by
        rintro rfl
        exact h.not_resuming_of_runs hru hv
      rw [goto_place_of_ne hvt]
      exact h.resuming v hv }

/-- A microthread that is suspended, whose link is in no queue and that nobody else is about to wake, is scheduled. -/
theorem Inv.schedule (hs : (s.place t).suspended = true) (hfr : ∀ q, t ∉ s.queue q) (hnot : t ∉ s.scheduled)
    (hno : ∀ u, (s.place u).wakes ≠ some t) (hres : t ∉ s.resuming) : Inv (s.schedule t) := by
  have hmem {u : Nat} (hu : u ∈ s.scheduled ++ [t]) : u ∈ s.scheduled ∨ u = t := by
    rcases mem_append.1 hu with hu | hu
    · exact .inl hu
    · exact .inr (mem_singleton.1 hu)
  exact { h with
    scheduled_once := h.scheduled_once.append (nodup_singleton t) (disjoint_singleton.2 hnot)
    scheduled := fun u hu => by
      rcases hmem hu with hu | rfl
      · exact h.scheduled u hu
      · exact ⟨hs, hfr⟩
    woken := fun u v huv => by
      obtain ⟨hb, hq, hv⟩ := h.woken u v huv
      refine ⟨hb, hq, fun hv' => ?_⟩
      rcases hmem hv' with hv' | rfl
      · exact hv hv'
      · exact hno u huv
    resuming := fun u hu => by
      refine ⟨(h.resuming u hu).1, fun hu' => ?_⟩
      rcases hmem hu' with hu' | rfl
      · exact (h.resuming u hu).2 hu'
      · exact hres hu }

/-! ## The steps -/

theorem Inv.enqueue {w : Wait} (ht : s.place t = .enqueue w) :
    Inv ((s.setQueue w.queue (s.queue w.queue ++ [t])).goto t (.suspend w)) := by
  have hru : (s.place t).runs = true := by rw [ht]; rfl
  have hb := Place.blockedIn_of_runs hru
  have hgt : Inv (s.goto t (.suspend w)) := h.goto hru rfl
  refine hgt.insert (by rw [goto_place_self]; rfl) (h.notMem_of_not_blocked hb) (h.not_scheduled_of_runs hru) (fun u hu => ?_)
  by_cases hut : u = t
  · subst hut
    rw [goto_place_self] at hu
    cases hu
  · rw [goto_place_of_ne hut] at hu
    exact (h.woken u t hu).1 hb

/-- An unlock or a signal takes out the first link. -/
theorem Inv.dequeue (hru : (s.place t).runs = true) (hq : s.queue q = u :: queue) (hwak : place.wakes = some u)
    (hpush : place.pushes = none) : Inv ((s.setQueue q queue).goto t place) := by
  have hu : u ∈ s.queue q := by rw [hq]; exact mem_cons_self
  obtain ⟨hrem, hfr⟩ := h.remove hq
  refine hrem.gotoWakes hru hwak (fun hno => ?_) hfr (fun hmem => (h.scheduled u hmem).2 q hu) (fun x _ hx => ?_)
    (fun hx => by rw [hpush] at hx; cases hx)
  · exact h.notMem_of_not_blocked hno q hu
  · exact (h.woken x u hx).2.1 q hu

/-- An unlock or a signal finds the microthread suspended whose link it has taken out, and goes on to push it. -/
theorem Inv.found (hru : (s.place t).runs = true) (hwak : (s.place t).wakes = some u) (hs : (s.place u).suspended = true)
    (hpl : place.wakes = some u) : Inv (s.goto t place) := by
  obtain ⟨hu, hfr, hnot⟩ := h.woken t u hwak
  exact h.gotoWakes hru hpl hu hfr hnot (fun x hxt hx => hxt (h.waker x t u hx hwak)) (fun _ => hs)

/-- An unlock or a signal pushes the microthread that it has found suspended. -/
theorem Inv.wake (hru : (s.place t).runs = true) (hpush : (s.place t).pushes = some u) (hpl : place.wakes = none) :
    Inv ((s.schedule u).goto t place) := by
  have hwak := Place.wakes_of_pushes hpush
  have hgt : Inv (s.goto t place) := h.goto hru hpl
  obtain ⟨hu, hfr, hnot⟩ := h.woken t u hwak
  have hut : u ≠ t := by
    rintro rfl
    exact hu (Place.blockedIn_of_runs hru)
  refine hgt.schedule (by rw [goto_place_of_ne hut]; exact h.pushed t u hpush) hfr hnot (fun x hx => ?_)
    (h.not_resuming fun hel => hu (by rw [hel]; rfl))
  by_cases hxt : x = t
  · subst hxt
    rw [goto_place_self, hpl] at hx
    cases hx
  · rw [goto_place_of_ne hxt] at hx
    exact hxt (h.waker x t u hx hwak)

/-- Somebody else tests whether a microthread is suspended. -/
theorem Inv.resume (hok : ResumedOutside s (.resume t)) : Inv (s.resume t) := by
  unfold WaitQueues.resume
  split
  · rename_i hs
    rcases hok with hok | ⟨hpl, hqueued, hres⟩
    · rw [hs] at hok
      cases hok
    · exact { h with
        resuming_once := h.resuming_once.append (nodup_singleton t) (disjoint_singleton.2 hres)
        resuming := fun u hu => by
          rcases mem_append.1 hu with hu | hu
          · exact h.resuming u hu
          · obtain rfl := mem_singleton.1 hu
            exact ⟨hpl, hqueued⟩ }
  · exact h

/-- Somebody else pushes a microthread that it has found suspended. -/
theorem Inv.push (ht : t ∈ s.resuming) : Inv ({ s with resuming := s.resuming.erase t }.schedule t) := by
  obtain ⟨hpl, hqueued⟩ := h.resuming t ht
  have hb : (s.place t).blockedIn = none := by rw [hpl]; rfl
  have hera : Inv { s with resuming := s.resuming.erase t } := { h with
    resuming_once := h.resuming_once.erase t
    resuming := fun u hu => h.resuming u (mem_of_mem_erase hu) }
  exact hera.schedule (by rw [hpl]; rfl) (h.notMem_of_not_blocked hb) hqueued (fun u hu => (h.woken u t hu).1 hb)
    h.resuming_once.not_mem_erase

/-- A worker takes a microthread from the work queue. -/
theorem Inv.dispatch (ht : t ∈ s.scheduled) : Inv (s.dispatch t) := by
  obtain ⟨hsu, hfr⟩ := h.scheduled t ht
  have hno (u : Nat) : (s.place u).wakes ≠ some t := fun hu => (h.woken u t hu).2.2 ht
  have hgo : t ∉ s.scheduled.erase t := h.scheduled_once.not_mem_erase
  have hera : Inv { s with scheduled := s.scheduled.erase t } := { h with
    scheduled_once := h.scheduled_once.erase t
    scheduled := fun u hu => h.scheduled u (mem_of_mem_erase hu)
    woken := fun u v huv => by
      obtain ⟨hb, hq, hv⟩ := h.woken u v huv
      exact ⟨hb, hq, fun hv' => hv (mem_of_mem_erase hv')⟩
    resuming := fun u hu => ⟨(h.resuming u hu).1, fun hu' => (h.resuming u hu).2 (mem_of_mem_erase hu')⟩ }
  -- nothing holds the microthread where it was: no queue, no waker and no second entry in the work queue
  have hmov {place : Place} (hwak : place.wakes = none) : Inv ({ s with scheduled := s.scheduled.erase t }.goto t place) :=
    hera.moves hwak (fun q hq => absurd hq (hfr q)) (fun hmem => absurd hmem hgo) (fun u hu => absurd hu (hno u))
      (fun u hu => absurd (Place.wakes_of_pushes hu) (hno u)) (fun hres => (h.resuming t hres).2 ht)
  unfold WaitQueues.dispatch
  dsimp only
  split
  · rename_i w _
    cases w with
    | mutex m | condvar c m => exact hmov rfl
  · exact hmov rfl
  · exact hera

/-- A microthread that takes a queue lock goes on. -/
theorem Inv.acquire (hru : (s.place t).runs = true) (hwak : place.wakes = none) (hst : s.acquire t q place = some s') :
    Inv s' := by
  obtain ⟨_, rfl⟩ := of_guarded hst
  exact (h.queueLock _).goto hru hwak

end

theorem unlockReturn_wakes (m : Nat) (c : Option Nat) : (unlockReturn m c).wakes = none := by
  cases c <;> rfl

/-- The next access of a microthread keeps the invariant. -/
theorem Inv.advance (h : Inv s) (hst : s.advance t = some s') : Inv s' := by
  unfold WaitQueues.advance at hst
  have hru {place : Place} (hpl : s.place t = place) (hp : place.runs = true) : (s.place t).runs = true := hpl ▸ hp
  generalize hpl : s.place t = place at hst
  cases place with
  | idle | elsewhere | asleep _ =>
    cases hst
  | suspend w | suspendRelease w =>
    cases hst
    have hb : (s.place t).blockedIn = some w := by rw [hpl]; rfl
    exact (h.queueLock _).deeper hb rfl rfl rfl
  | enqueue w =>
    cases hst
    exact h.enqueue hpl
  | lockAcquire m | waitAcquire c m | unlockAcquire m c | signalAcquire c count =>
    exact h.acquire (hru hpl rfl) rfl hst
  | lockAssert m =>
    obtain ⟨_, hst⟩ := ite_none_left_eq_some.1 hst
    exact some.inj hst ▸ h.goto (hru hpl rfl) rfl
  | unlockAssert m c =>
    obtain ⟨_, rfl⟩ := of_guarded hst
    exact h.goto (hru hpl rfl) rfl
  | lockTest m =>
    cases hst
    split
    · exact h.goto (hru hpl rfl) rfl
    · exact h.goto (hru hpl rfl) rfl
  | lockWrite m | unlockClear m c =>
    cases hst
    exact (h.owner m _).goto (hru hpl rfl) rfl
  | lockRelease m | signalRelease c =>
    cases hst
    exact (h.queueLock _).goto (hru hpl rfl) rfl
  | unlockRelease m c =>
    cases hst
    exact (h.queueLock _).goto (hru hpl rfl) (unlockReturn_wakes m c)
  | unlockFirst m c =>
    simp only at hst
    split at hst
    · exact some.inj hst ▸ h.goto (hru hpl rfl) rfl
    · rename_i hq
      exact some.inj hst ▸ h.dequeue (hru hpl rfl) hq rfl rfl
  | signalFirst c count =>
    simp only at hst
    split at hst
    · exact some.inj hst ▸ h.goto (hru hpl rfl) rfl
    · exact some.inj hst ▸ h.goto (hru hpl rfl) rfl
    · rename_i hq
      exact some.inj hst ▸ h.dequeue (hru hpl rfl) hq rfl rfl
  | unlockResume m c u | signalResume c count u =>
    cases hst
    have hwak : (s.place t).wakes = some u := by rw [hpl]; rfl
    split
    · rename_i hs
      exact h.found (hru hpl rfl) hwak hs rfl
    · exact h.goto (hru hpl rfl) rfl
  | unlockPush m c u | signalPush c count u =>
    cases hst
    have hpush : (s.place t).pushes = some u := by rw [hpl]; rfl
    exact h.wake (hru hpl rfl) hpush rfl

/-- Every step keeps the invariant, if it is a resume of the kind that is allowed for. -/
theorem Inv.step (h : Inv s) {a : Action} (hok : ResumedOutside s a) (hst : s.step a = some s') : Inv s' := by
  have hent {t : Nat} {place : Place} (hwak : place.wakes = none) (hst : s.enter t place = some s') : Inv s' := by
    obtain ⟨hid, rfl⟩ := of_guarded hst
    exact h.goto (by rw [hid]; rfl) hwak
  cases a with
  | lock t m | unlock t m | wait t c m | signal t c count | suspend t => exact hent rfl hst
  | advance t => exact h.advance hst
  | resume t => exact some.inj hst ▸ h.resume hok
  | push t =>
    obtain ⟨ht, rfl⟩ := of_guarded hst
    exact h.push ht
  | dispatch t =>
    obtain ⟨ht, rfl⟩ := of_guarded hst
    exact h.dispatch ht

/-- The links are where they should be, in every run in which nobody else resumes a microthread in one of the two waits. -/
theorem membership_of_resumedOutside (h : machine.Reaches ResumedOutside s) : Membership s := by
  have hinv : Inv s := Machine.Reaches.invariant inv_init (fun hinv => hinv.step) h
  exact ⟨hinv.once, fun t q q' hq hq' => hinv.one hq hq', hinv.blocked⟩

/-- Microthread 0 takes the mutex 0, and microthread 1 waits for it. -/
def contend : List Action :=
  .lock 0 0 :: List.replicate 5 (.advance 0) ++ .lock 1 0 :: List.replicate 6 (.advance 1)

/-- Microthread 2, which waits elsewhere, is resumed by something else. -/
theorem membership_of_resumedOutside_contended :
    ∃ s, machine.runOk ResumedOutside init (contend ++ [.suspend 2, .resume 2, .resume 0, .push 2, .dispatch 2]) = some s ∧
      s.queue (.mutex 0) = [1] ∧ Membership s := by
  refine (exists_of_runOk ?_).imp fun s h => ⟨h.1, h.2, membership_of_resumedOutside (reaches_of_runOk h.1)⟩
  decide

/-- Somebody else resumes microthread 1, and it goes on to take the queue lock with its link still in the queue. -/
theorem membership_false : ¬∀ s, machine.Reachable s → Membership s := by
  intro h
  obtain ⟨s, hs, hque, hpl⟩ := exists_reachable_of_run (M := machine) (contend ++ [.resume 1, .push 1, .dispatch 1])
    (P := fun s => 1 ∈ s.queue (.mutex 0) ∧ s.place 1 = .lockAcquire 0) (by decide)
  have hblock := (h s hs).blocked 1 (.mutex 0) hque
  rw [hpl] at hblock
  cases hblock

/-- A microthread is resumed once for each wait: it is in the work queue, or about to be pushed by a resume from neither unlock
nor signal, at most once. One unlock or signal at most has taken its link out to resume it, and until then it is in no queue, not
in the work queue, and about to be pushed by nobody else. -/
theorem resumed_once (h : machine.Reaches ResumedOutside s) : (s.scheduled ++ s.resuming).Nodup ∧
    ∀ u t, (s.place u).wakes = some t →
      t ∉ s.scheduled ++ s.resuming ∧ (∀ q, t ∉ s.queue q) ∧ ∀ u', (s.place u').wakes = some t → u = u' := by
  have hinv : Inv s := h.invariant inv_init fun hinv => hinv.step
  have hdisj : s.scheduled.Disjoint s.resuming := fun t hqueued hres => (hinv.resuming t hres).2 hqueued
  refine ⟨hinv.scheduled_once.append hinv.resuming_once hdisj, fun u t hu => ?_⟩
  obtain ⟨hb, hq, hqueued⟩ := hinv.woken u t hu
  have hres : t ∉ s.resuming := hinv.not_resuming fun hpl => hb (by rw [hpl]; rfl)
  exact ⟨fun hmem => (mem_append.1 hmem).elim hqueued hres, hq, fun u' => hinv.waker u u' t hu⟩

/-- Microthread 0 unlocks the mutex 0 and has found microthread 1 suspended, while somebody else is about to push microthread 2
and microthread 3 is in the work queue. -/
theorem resumed_once_unlock : ∃ s, machine.runOk ResumedOutside init
      (contend ++ [.suspend 2, .resume 2, .suspend 3, .resume 3, .push 3, .unlock 0 0, .advance 0, .advance 0, .advance 0,
        .advance 0, .advance 0]) = some s ∧
      ((s.place 0).wakes = some 1 ∧ s.scheduled = [3] ∧ s.resuming = [2]) ∧
      ∀ u', (s.place u').wakes = some 1 → 0 = u' := by
  refine (exists_of_runOk ?_).imp fun s h => ⟨h.1, h.2, ((resumed_once (reaches_of_runOk h.1)).2 0 1 h.2.1).2.2⟩
  decide

end WaitQueues

end Osxie.DuctTape
