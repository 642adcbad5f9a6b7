import Osxie.Lib.Machine

/-!
# The mutex of the duct tape

`dtape_mutex` has an owner word for microthreads, a queue of waiting microthreads and a native lock, `dtape_queue_lock`, over
both. A microthread holds the mutex by being its owner, a caller without a microthread by keeping the queue lock, which it takes
only while the owner word is 0.

A caller is at a place of one of the three functions (`Pc`), and one step does one access to shared memory: to the owner word,
the queue lock or the queue. `dtape_mutex_assert` panics by not stepping on. A microthread that waits gives up the queue lock
when it has come back to the top of `doWork` (`lockSuspendRelease`), and goes on when a worker dispatches it after
`thread_resume`.
-/

namespace Osxie.DuctTape

/-- A caller of the mutex: a microthread, or a native thread without one. -/
inductive Caller where
  | micro (n : Nat)
  | native (n : Nat)
deriving DecidableEq

/-- The word a caller compares the owner with; none for a native thread. -/
def Caller.self : Caller → Option Nat
  | .micro n => some n
  | .native _ => none

/-- Where a caller is: outside, or before the named access in dtape_mutex_lock, dtape_mutex_try_lock or dtape_mutex_unlock, on
the path of a microthread or (the names with `native`) on that of a caller without one. -/
inductive Pc where
  | idle
  | nativeLock
  | nativeLockTest
  | nativeLockRelease
  | lockAssert
  | lockAcquire
  | lockTestZero
  | lockTestSelf
  | lockWrite
  | lockRelease
  | lockEnqueue
  | lockSuspend
  | lockSuspendRelease
  | asleep
  | nativeTry
  | nativeTryTest
  | nativeTryRelease
  | tryAssert
  | tryTestZero
  | tryTestSelf
  | tryWrite
  | tryRelease
  | nativeUnlock
  | unlockAssert
  | unlockAcquire
  | unlockClear
  | unlockFirst
  | unlockResume (t : Nat)
  | unlockRelease
deriving DecidableEq

/-- A mutex and its callers. `holds` is set by the return of a successful lock or try_lock, and cleared by the return of the
unlock; `scheduled` are the resumed microthreads that no worker has taken yet. -/
structure Mutex where
  owner : Option Nat
  queueLock : Option Caller
  queue : List Nat
  scheduled : List Nat
  pc : Caller → Pc
  holds : Caller → Bool

namespace Mutex

def init : Mutex where
  owner := none
  queueLock := none
  queue := []
  scheduled := []
  pc _ := .idle
  holds _ := false

variable (s : Mutex) (c : Caller) (pc : Pc)

def goto : Mutex :=
  { s with pc := Function.update s.pc c pc }

/-- The caller takes the queue lock and goes on, if it is free. -/
def acquire : Option Mutex :=
  if s.queueLock = none then some ({ s with queueLock := some c }.goto c pc) else none

/-- The queue lock is unlocked, whoever has it, and the caller goes on. -/
def release : Mutex :=
  { s with queueLock := none }.goto c pc

/-- The caller returns, holding the mutex or not. -/
def finish (holds : Bool) : Mutex :=
  { s with holds := Function.update s.holds c holds }.goto c .idle

/-- Whether `resume` finds a microthread suspended. -/
def suspended (t : Nat) : Bool := s.pc (.micro t) = .lockSuspendRelease || s.pc (.micro t) = .asleep

/-- The next access of a caller; none where it cannot go on (the queue lock is taken, an assertion panics, it is asleep or
outside). -/
def advance : Option Mutex :=
  match s.pc c with
  | .idle => none
  | .nativeLock => s.acquire c .nativeLockTest
  | .nativeLockTest => some (if s.owner = none then s.finish c true else s.goto c .nativeLockRelease)
  | .nativeLockRelease => some (s.release c .nativeLock)
  | .lockAssert => if s.owner = c.self then none else some (s.goto c .lockAcquire)
  | .lockAcquire => s.acquire c .lockTestZero
  | .lockTestZero => some (s.goto c (if s.owner = none then .lockWrite else .lockTestSelf))
  | .lockTestSelf => some (s.goto c (if s.owner = c.self then .lockWrite else .lockEnqueue))
  | .lockWrite => some ({ s with owner := c.self }.goto c .lockRelease)
  | .lockRelease => some ((s.release c .idle).finish c true)
  | .lockEnqueue => some ({ s with queue := s.queue ++ c.self.toList }.goto c .lockSuspend)
  | .lockSuspend => some (s.goto c .lockSuspendRelease)
  | .lockSuspendRelease => some (s.release c .asleep)
  | .asleep => none
  | .nativeTry => if s.queueLock = none then s.acquire c .nativeTryTest else some (s.goto c .idle)
  | .nativeTryTest => some (if s.owner = none then s.finish c true else s.goto c .nativeTryRelease)
  | .nativeTryRelease => some (s.release c .idle)
  | .tryAssert => if s.owner = c.self then none else some (s.goto c .tryTestZero)
  -- from here on without the queue lock
  | .tryTestZero => some (s.goto c (if s.owner = none then .tryWrite else .tryTestSelf))
  | .tryTestSelf => some (s.goto c (if s.owner = c.self then .tryWrite else .idle))
  | .tryWrite => some ({ s with owner := c.self }.goto c .tryRelease)
  | .tryRelease => some ((s.release c .idle).finish c true)
  | .nativeUnlock => some ((s.release c .idle).finish c false)
  | .unlockAssert => if s.owner = c.self then some (s.goto c .unlockAcquire) else none
  | .unlockAcquire => s.acquire c .unlockClear
  | .unlockClear => some ({ s with owner := none }.goto c .unlockFirst)
  | .unlockFirst =>
    match s.queue with
    | [] => some (s.goto c .unlockRelease)
    | t :: queue => some ({ s with queue := queue }.goto c (.unlockResume t))
  | .unlockResume t =>
    some ({ s with scheduled := if s.suspended t then s.scheduled ++ [t] else s.scheduled }.goto c .unlockRelease)
  | .unlockRelease => some ((s.release c .idle).finish c false)

/-- What can happen next: a caller outside calls one of the functions (unlock only if it holds the mutex), a caller inside
does its next access, or a worker takes a resumed microthread from the work queue. -/
inductive Action where
  | lock (c : Caller)
  | tryLock (c : Caller)
  | unlock (c : Caller)
  | advance (c : Caller)
  | dispatch (t : Nat)
deriving DecidableEq

def lockEntry : Caller → Pc
  | .micro _ => .lockAssert
  | .native _ => .nativeLock

def tryLockEntry : Caller → Pc
  | .micro _ => .tryAssert
  | .native _ => .nativeTry

def unlockEntry : Caller → Pc
  | .micro _ => .unlockAssert
  | .native _ => .nativeUnlock

/-- A worker runs a resumed microthread: it goes on where it suspended itself, or nothing happens if it is still running. -/
def runScheduled (t : Nat) : Mutex :=
  if s.pc (.micro t) = .asleep then
    { s with scheduled := s.scheduled.erase t }.goto (.micro t) .lockAcquire
  else
    { s with scheduled := s.scheduled.erase t }

def step : Action → Option Mutex
  | .lock c => if s.pc c = .idle then some (s.goto c (lockEntry c)) else none
  | .tryLock c => if s.pc c = .idle then some (s.goto c (tryLockEntry c)) else none
  | .unlock c => if s.pc c = .idle ∧ s.holds c then some (s.goto c (unlockEntry c)) else none
  | .advance c => s.advance c
  | .dispatch t => if t ∈ s.scheduled then some (s.runScheduled t) else none

/-- A mutex and any number of callers, in any interleaving. -/
def machine : Machine Mutex Action where
  init := init
  step := step

/-! ## Mutual exclusion -/

/-- The places whose next access unlocks the queue lock. -/
def releases : Pc → Bool
  | .nativeLockRelease | .lockRelease | .lockSuspendRelease | .nativeTryRelease | .tryRelease | .nativeUnlock
  | .unlockRelease => true
  | _ => false

/-- At most one caller holds the mutex, and the queue lock is only about to be unlocked by the caller that has it. -/
structure Safe (s : Mutex) : Prop where
  exclusive : ∀ c c', s.holds c = true → s.holds c' = true → c = c'
  released_by_owner : ∀ c, releases (s.pc c) = true → s.queueLock = some c

/-- No microthread's try_lock tests the owner word while it is 0. -/
def NoFreeTry : Action → Prop
  | .advance c => s.pc c = .tryTestZero → s.owner ≠ none
  | _ => True

instance (a : Action) : Decidable (NoFreeTry s a) := by
  cases a <;> unfold NoFreeTry <;> infer_instance

end Mutex

end Osxie.DuctTape
