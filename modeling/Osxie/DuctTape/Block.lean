import Osxie.Lib.Machine

/-!
# Blocking waits

A microthread that waits is marked by `thread_mark_wait_locked`, which sets TH_WAIT, and then runs `thread_block_parameter`:
under the thread lock it reads TH_WAIT, and if that is set it suspends itself. The waker runs `thread_unblock` with the thread
lock held. It leaves TH_WAIT alone and resumes the thread; `Thread::resume` pushes the thread on the work queue if it finds
`_suspended` set, and does nothing otherwise.

The model has one microthread (the blocker) from the mark on, one waker and the workers. The thread lock is a `dtape_mutex`: a
microthread that finds it taken by another one suspends for it, and when a worker runs it again `dtape_thread_entering` clears
TH_WAIT; one that finds it taken by a native thread spins.
-/

namespace Osxie.DuctTape

/-- THREAD_WAITING, the wait result of a thread that is marked as waiting. -/
def threadWaiting : Int := -1

inductive LockUser where
  | blocker
  | waker
deriving DecidableEq

/-- The two times `thread_block_parameter` takes the thread lock: to read TH_WAIT, and to read the wait result. -/
inductive LockSite where
  | wait
  | result
deriving DecidableEq

inductive BlockPc where
  | locking (site : LockSite)
  /-- queued for the thread lock, whose queue lock it holds until it is back at the top -/
  | lockQueued (site : LockSite)
  | lockTop (site : LockSite)
  | lockParked (site : LockSite)
  | readWait
  | unlockWait (waiting : Bool)
  | suspend
  | top
  | parked
  | readResult
  | unlockResult (result : Int)
  | returned (result : Int)
deriving DecidableEq

/-- Where the waker is: outside, in `thread_unblock` before it sets the wait result, before the test of `_suspended` in `resume`,
before the push, before the unlock of the thread lock, or through. -/
inductive WakerPc where
  | outside
  | unblock
  | test
  | push
  | unlock
  | done
deriving DecidableEq

/-- The blocker and the waker. `workQueue` is the number of times the thread is in the work queue, `holding` the number of
workers that have popped it; `didSuspend` is set when `thread_block_parameter` suspends, and `pushed` when the waker pushes
the thread after that. -/
structure Block where
  waiting : Bool
  waitResult : Int
  lock : Option LockUser
  lockQueue : Bool
  suspended : Bool
  running : Bool
  workQueue : Nat
  holding : Nat
  blocker : BlockPc
  waker : WakerPc
  didSuspend : Bool
  pushed : Bool
deriving DecidableEq

inductive BlockAction where
  | blocker
  | waker
  | pop
  | enter
  | resume
deriving DecidableEq

namespace Block

/-- After `thread_mark_wait_locked`. -/
def init : Block where
  waiting := true
  waitResult := threadWaiting
  lock := none
  lockQueue := false
  suspended := false
  running := true
  workQueue := 0
  holding := 0
  blocker := .locking .wait
  waker := .outside
  didSuspend := false
  pushed := false

variable (native : Bool) (wresult : Int) (s : Block)

/-- `thread_block_parameter`, with `dtape_mutex_lock` of the thread lock and `Thread::suspend`. -/
def advanceBlocker : Option Block :=
  match s.blocker with
  | .locking site =>
    if s.lock = none then
      some { s with lock := some .blocker, blocker := match site with | .wait => .readWait | .result => .readResult }
    else if native then none
    else some { s with lockQueue := true, blocker := .lockQueued site }
  | .lockQueued site => some { s with suspended := true, blocker := .lockTop site }
  | .lockTop site => some { s with running := false, blocker := .lockParked site }
  | .readWait => some { s with blocker := .unlockWait s.waiting }
  | .unlockWait waiting =>
    some { s with lock := none, lockQueue := false, blocker := if waiting then .suspend else .locking .result }
  | .suspend => some { s with suspended := true, didSuspend := true, blocker := .top }
  | .top => some { s with running := false, blocker := .parked }
  | .readResult => some { s with blocker := .unlockResult s.waitResult }
  | .unlockResult result => some { s with lock := none, lockQueue := false, blocker := .returned result }
  | .lockParked _ | .parked | .returned _ => none

def hasQueueLock : Bool :=
  match s.blocker with
  | .lockQueued _ | .lockTop _ => true
  | _ => false

/-- `thread_unblock` between the lock and the unlock of the thread lock; the unlock resumes the blocker if it is in the queue. -/
def advanceWaker : Option Block :=
  match s.waker with
  | .outside => if s.lock = none then some { s with lock := some .waker, waker := .unblock } else none
  | .unblock => some { s with waitResult := wresult, waker := .test }
  | .test => some { s with waker := if s.suspended then .push else .unlock }
  | .push => some { s with workQueue := s.workQueue + 1, pushed := s.pushed || s.didSuspend, waker := .unlock }
  | .unlock =>
    if s.hasQueueLock then none
    else
      let resumed := s.lockQueue && s.suspended
      some { s with
        lock := none
        lockQueue := false
        workQueue := if resumed then s.workQueue + 1 else s.workQueue
        waker := .done }
  | .done => none

/-- The tests of `doWork`: a thread that is running is dropped, and `dtape_thread_entering` clears TH_WAIT. -/
def enter : Option Block :=
  if 0 < s.holding then
    if s.running then some { s with holding := s.holding - 1 }
    else some { s with holding := s.holding - 1, running := true, waiting := false }
  else none

def resume : Option Block :=
  match s.blocker with
  | .lockParked site => if s.running then some { s with suspended := false, blocker := .locking site } else none
  | .parked => if s.running then some { s with suspended := false, blocker := .locking .result } else none
  | _ => none

def step : BlockAction → Option Block
  | .blocker => s.advanceBlocker native
  | .waker => s.advanceWaker wresult
  | .pop => if 0 < s.workQueue then some { s with workQueue := s.workQueue - 1, holding := s.holding + 1 } else none
  | .enter => s.enter
  | .resume => s.resume

/-- A wait and its wakeup, by a native thread or a microthread. -/
def machine : Machine Block BlockAction where
  init := init
  step := step native wresult

/-! ## No lost wakeup -/

/-- The blocker is in the work queue, a worker has popped it, or one runs it. -/
def Scheduled : Prop := 0 < s.workQueue ∨ 0 < s.holding ∨ s.running = true

/-- When the waker is through, a blocker that has returned did so without suspending or was pushed after that, one that is
parked was pushed after it suspended and is scheduled, and one that waits for the thread lock is scheduled. -/
structure WakeupNotLost : Prop where
  returned : s.waker = .done → ∀ result, s.blocker = .returned result → s.didSuspend = false ∨ s.pushed = true
  parked : s.waker = .done → s.blocker = .parked → s.pushed = true ∧ s.Scheduled
  lockParked : s.waker = .done → ∀ site, s.blocker = .lockParked site → s.Scheduled

/-- The waker does not test `_suspended` between the blocker's read of TH_WAIT and its setting of `_suspended`, the blocker does
not find TH_WAIT set when the waker is through, and no worker enters `doWork` for the thread while it has set `_suspended` for
the wait and is still running. -/
def Seen : BlockAction → Prop
  | .waker => s.waker = .test → s.blocker ≠ .suspend
  | .blocker => s.blocker = .readWait → s.waker = .done → s.waiting = false
  | .enter => s.blocker ≠ .top
  | .pop | .resume => True

instance (a : BlockAction) : Decidable (Seen s a) := by
  cases a <;> unfold Seen <;> infer_instance

end Block

/-! ## The invariant -/

/-- What the place of the blocker says about TH_WAIT: not read, read as set, suspended for it, or past. -/
inductive BlockPhase where
  | reading
  | committed
  | asleep
  | past
deriving DecidableEq

namespace BlockPc

def phase : BlockPc → BlockPhase
  | .locking .wait | .lockQueued .wait | .lockTop .wait | .lockParked .wait | .readWait => .reading
  | .unlockWait true | .suspend => .committed
  | .top | .parked => .asleep
  | .unlockWait false | .locking .result | .lockQueued .result | .lockTop .result | .lockParked .result | .readResult
  | .unlockResult _ | .returned _ => .past

def suspended : BlockPc → Bool
  | .lockTop _ | .lockParked _ | .top | .parked => true
  | _ => false

/-- The blocker is switched out, until a worker runs it. -/
def switchedOut : BlockPc → Bool
  | .lockParked _ | .parked => true
  | _ => false

def holdsLock : BlockPc → Bool
  | .readWait | .unlockWait _ | .readResult | .unlockResult _ => true
  | _ => false

/-- The blocker waits for the thread lock. -/
def awaitsLock : BlockPc → Bool
  | .lockQueued _ | .lockTop _ | .lockParked _ => true
  | _ => false

theorem suspended_of_asleep {pc : BlockPc} (h : pc.phase = .asleep) : pc.suspended = true := by
  unfold phase at h
  split at h <;> first | rfl | cases h

theorem eq_top_or_parked {pc : BlockPc} (h : pc.phase = .asleep) : pc = .top ∨ pc = .parked := by
  unfold phase at h
  split at h <;> first | exact .inl rfl | exact .inr rfl | cases h

theorem eq_suspend_or_holdsLock {pc : BlockPc} (h : pc.phase = .committed) : pc = .suspend ∨ pc.holdsLock = true := by
  unfold phase at h
  split at h <;> first | exact .inl rfl | exact .inr rfl | cases h

end BlockPc

namespace WakerPc

def holdsLock : WakerPc → Bool
  | .unblock | .test | .push | .unlock => true
  | .outside | .done => false

def tested : WakerPc → Bool
  | .push | .unlock | .done => true
  | .outside | .unblock | .test => false

end WakerPc

namespace Block

/-- A blocker that waits for the thread lock is in the lock's queue while the waker has the lock, and was resumed when it is
through. -/
def LockAwaited (s : Block) : Prop :=
  s.waker.holdsLock = true ∧ s.lockQueue = true ∨ s.waker = .done ∧ s.blocker.switchedOut = true ∧ s.Scheduled

/-- Before the test of the waker nothing runs a blocker that is switched out. After it, the blocker has not read TH_WAIT yet, or
has gone past without suspending, or was found suspended; and while it is suspended its push is to come, or it is scheduled. -/
structure Inv (s : Block) : Prop where
  blocker_lock : s.lock = some .blocker ↔ s.blocker.holdsLock = true
  waker_lock : s.lock = some .waker ↔ s.waker.holdsLock = true
  suspended : s.suspended = s.blocker.suspended
  awake : s.blocker.phase = .reading ∨ s.blocker.phase = .committed → s.didSuspend = false
  asleep : s.blocker.phase = .asleep → s.didSuspend = true
  untested : s.waker.tested = false → s.workQueue = 0 ∧ s.holding = 0 ∧ (s.blocker.switchedOut = true → s.running = false) ∧
    (s.blocker.phase = .past → s.didSuspend = false)
  tested : s.waker.tested = true → s.blocker.phase = .reading ∨ s.blocker.phase = .past ∧ s.didSuspend = false ∨
    s.didSuspend = true ∧ (s.waker = .push ∨ s.pushed = true)
  awaited : s.waker.tested = true → s.blocker.phase = .asleep →
    s.waker = .push ∨ 0 < s.workQueue ∨ 0 < s.holding ∨ s.blocker = .parked ∧ s.running = true
  lockAwaited : s.blocker.awaitsLock = true → s.LockAwaited

theorem inv_init : init.Inv where
  blocker_lock := by decide
  waker_lock := by decide
  suspended := rfl
  awake := fun _ => rfl
  asleep := nofun
  untested := fun _ => ⟨rfl, rfl, nofun, nofun⟩
  tested := nofun
  awaited := nofun
  lockAwaited := nofun

namespace Inv

variable {s s' : Block}

section

variable (h : s.Inv)

include h

/-- The two do not have the thread lock together. -/
theorem exclusive (hb : s.blocker.holdsLock = true) : s.waker.holdsLock = false := by
  by_contra hw
  have h1 := h.blocker_lock.2 hb
  rw [h.waker_lock.2 (by simpa using hw)] at h1
  cases h1

/-- The blocker moves within a phase. -/
theorem move {old pc : BlockPc} {lock : Option LockUser} {lockQueue running suspended : Bool} (hpc : s.blocker = old)
    (hb : lock = some .blocker ↔ pc.holdsLock = true) (hw : lock = some .waker ↔ s.lock = some .waker)
    (hsu : suspended = pc.suspended) (hph : pc.phase = old.phase) (hpark : old ≠ .parked)
    (hout : pc.switchedOut = true → s.waker.tested = false → running = false)
    (hawait : pc.awaitsLock = true → s.waker.holdsLock = true ∧ lockQueue = true) :
    Inv { s with lock := lock, lockQueue := lockQueue, running := running, suspended := suspended, blocker := pc } where
  blocker_lock := hb
  waker_lock := hw.trans h.waker_lock
  suspended := hsu
  awake := by
    intro hx
    rw [hph, ← hpc] at hx
    exact h.awake hx
  asleep := by
    intro hx
    rw [hph, ← hpc] at hx
    exact h.asleep hx
  untested := by
    intro ht
    obtain ⟨hq, hh, -, hpost⟩ := h.untested ht
    refine ⟨hq, hh, fun hx => hout hx ht, ?_⟩
    intro hx
    rw [hph, ← hpc] at hx
    exact hpost hx
  tested := by
    intro ht
    rw [hph, ← hpc]
    exact h.tested ht
  awaited := by
    intro ht hx
    rw [hph, ← hpc] at hx
    rcases h.awaited ht hx with hpush | hq | hh | ⟨hx, -⟩
    · exact .inl hpush
    · exact .inr (.inl hq)
    · exact .inr (.inr (.inl hh))
    · exact absurd (hpc.symm.trans hx) hpark
  lockAwaited := fun hx => .inl (hawait hx)

/-- A blocker that is not switched out waits for a thread lock that the waker has. -/
theorem lockQueue_of_awaitsLock (hw : s.blocker.awaitsLock = true) (hout : s.blocker.switchedOut = false) :
    s.waker.holdsLock = true ∧ s.lockQueue = true := by
  rcases h.lockAwaited hw with hx | ⟨-, hx, -⟩
  · exact hx
  · rw [hout] at hx
    cases hx

/-- The blocker reads TH_WAIT under the thread lock, which the waker does not have: it has not begun, or it is through. -/
theorem readWait (hpc : s.blocker = .readWait) (hok : s.waker = .done → s.waiting = false) :
    Inv { s with blocker := .unlockWait s.waiting } := by
  have hlk : s.blocker.holdsLock = true := by rw [hpc]; rfl
  have hdid : s.didSuspend = false := h.awake (.inl (by rw [hpc]; rfl))
  have hnw := h.exclusive hlk
  have hnotAsleep : (BlockPc.unlockWait s.waiting).phase ≠ .asleep := by
    cases s.waiting
    · exact nofun
    · exact nofun
  refine ⟨?_, h.waker_lock, ?_, fun _ => hdid, fun hx => absurd hx hnotAsleep, ?_, ?_, fun _ hx => absurd hx hnotAsleep, nofun⟩
  · exact iff_of_true (h.blocker_lock.2 hlk) rfl
  · have hs := h.suspended
    rw [hpc] at hs
    exact hs
  · intro ht
    obtain ⟨hq, hh, -, -⟩ := h.untested ht
    exact ⟨hq, hh, nofun, fun _ => hdid⟩
  · intro ht
    have hdn : s.waker = .done := by
      revert ht hnw
      cases s.waker with
      | done => exact fun _ _ => rfl
      | outside | unblock | test | push | unlock => exact nofun
    refine .inr (.inl ⟨?_, hdid⟩)
    rw [hok hdn]
    rfl

/-- The blocker suspends. The waker has not tested `_suspended`. -/
theorem suspend (hpc : s.blocker = .suspend) : Inv { s with suspended := true, didSuspend := true, blocker := .top } := by
  have hph : s.blocker.phase = .committed := by rw [hpc]; rfl
  have hnt : s.waker.tested = false := by
    by_contra ht
    have hdid := h.awake (.inr hph)
    rcases h.tested (by simpa using ht) with hx | ⟨hx, -⟩ | ⟨hx, -⟩
    · rw [hph] at hx
      cases hx
    · rw [hph] at hx
      cases hx
    · rw [hdid] at hx
      cases hx
  have hnt' : ¬s.waker.tested = true := by simp [hnt]
  refine ⟨?_, h.waker_lock, rfl, ?_, fun _ => rfl, ?_, fun ht => absurd ht hnt', fun ht => absurd ht hnt', nofun⟩
  · have hb := h.blocker_lock
    rw [hpc] at hb
    exact hb
  · rintro (hx | hx)
    · cases hx
    · cases hx
  · intro ht
    obtain ⟨hq, hh, -, -⟩ := h.untested ht
    exact ⟨hq, hh, nofun, nofun⟩

theorem advanceBlocker {native : Bool} (hok : Seen s .blocker) (hs : s.advanceBlocker native = some s') : s'.Inv := by
  have hb := h.blocker_lock
  have hsu := h.suspended
  unfold Block.advanceBlocker at hs
  generalize hpc : s.blocker = pc at hs hb hsu
  cases pc with
  | locking site =>
    simp only at hs
    split at hs
    · rename_i hfr
      cases hs
      have hnw : ¬s.lock = some .waker := by
        rw [hfr]
        exact nofun
      cases site with
      | wait | result =>
        exact h.move hpc (iff_of_true rfl rfl) (iff_of_false nofun hnw) hsu rfl nofun nofun nofun
    · rename_i htaken
      obtain ⟨-, hs⟩ := Option.ite_none_left_eq_some.1 hs
      cases hs
      -- the lock is taken, and not by the blocker
      have hw : s.lock = some .waker := by
        rcases hlk : s.lock with _ | _ | _
        · exact absurd hlk htaken
        · exact absurd (hb.1 hlk) nofun
        · rfl
      exact h.move hpc hb Iff.rfl hsu (by cases site <;> rfl) nofun nofun
        (fun _ => ⟨h.waker_lock.1 hw, rfl⟩)
  | lockQueued site =>
    cases hs
    exact h.move hpc hb Iff.rfl rfl (by cases site <;> rfl) nofun nofun
      (fun _ => h.lockQueue_of_awaitsLock (by rw [hpc]; rfl) (by rw [hpc]; rfl))
  | lockTop site =>
    cases hs
    exact h.move hpc hb Iff.rfl hsu (by cases site <;> rfl) nofun (fun _ _ => rfl)
      (fun _ => h.lockQueue_of_awaitsLock (by rw [hpc]; rfl) (by rw [hpc]; rfl))
  | readWait =>
    cases hs
    exact h.readWait hpc (hok hpc)
  | unlockWait waiting =>
    cases hs
    have hnw : ¬s.lock = some .waker := by
      rw [hb.2 rfl]
      exact nofun
    cases waiting with
    | true | false =>
      exact h.move hpc (iff_of_false nofun nofun) (iff_of_false nofun hnw) hsu rfl nofun nofun nofun
  | suspend =>
    cases hs
    exact h.suspend hpc
  | top =>
    cases hs
    exact h.move hpc hb Iff.rfl hsu rfl nofun (fun _ _ => rfl) nofun
  | readResult =>
    cases hs
    exact h.move hpc hb Iff.rfl hsu rfl nofun nofun nofun
  | unlockResult result =>
    cases hs
    have hnw : ¬s.lock = some .waker := by
      rw [hb.2 rfl]
      exact nofun
    exact h.move hpc (iff_of_false nofun nofun) (iff_of_false nofun hnw) hsu rfl nofun nofun nofun
  | lockParked site | parked | returned result =>
    cases hs

/-- While the waker has the thread lock, a blocker that waits for it is in its queue. -/
theorem lockQueue_of_holdsLock (hw : s.blocker.awaitsLock = true) (hlk : s.waker.holdsLock = true) : s.lockQueue = true := by
  rcases h.lockAwaited hw with ⟨-, hx⟩ | ⟨hx, -⟩
  · exact hx
  · rw [hx] at hlk
    cases hlk

omit h in
/-- A blocker that waits for the thread lock and has given up its queue lock is switched out. -/
theorem switchedOut_of_awaitsLock (hw : s.blocker.awaitsLock = true) (hfree : s.hasQueueLock = false) :
    s.blocker.switchedOut = true ∧ s.blocker.suspended = true := by
  revert hw hfree
  unfold hasQueueLock
  cases s.blocker with
  | lockParked site => exact fun _ _ => ⟨rfl, rfl⟩
  | lockQueued site | lockTop site => exact nofun
  | locking site | unlockWait waiting | unlockResult result | returned result => exact nofun
  | readWait | suspend | top | parked | readResult => exact nofun

/-- The waker tests `_suspended`. The blocker has not read TH_WAIT, or is suspended, or is past without having been. -/
theorem test (hpc : s.waker = .test) (hok : s.blocker ≠ .suspend) :
    Inv { s with waker := if s.suspended then .push else .unlock } := by
  have hlk : s.lock = some .waker := h.waker_lock.2 (by rw [hpc]; rfl)
  obtain ⟨hq, hh, -, hpost⟩ := h.untested (by rw [hpc]; rfl)
  have hholds : (if s.suspended then WakerPc.push else .unlock).holdsLock = true := by cases s.suspended <;> rfl
  have hpush : s.blocker.phase = .asleep → (if s.suspended then WakerPc.push else .unlock) = .push := by
    intro hph
    rw [h.suspended, BlockPc.suspended_of_asleep hph]
    rfl
  refine ⟨h.blocker_lock, iff_of_true hlk hholds, h.suspended, h.awake, h.asleep, ?_, ?_, fun _ hph => .inl (hpush hph), ?_⟩
  · intro ht
    cases hsu : s.suspended
    · rw [hsu] at ht
      cases ht
    · rw [hsu] at ht
      cases ht
  · intro _
    cases hph : s.blocker.phase with
    | reading => exact .inl rfl
    | past => exact .inr (.inl ⟨rfl, hpost hph⟩)
    | asleep => exact .inr (.inr ⟨h.asleep hph, .inl (hpush hph)⟩)
    | committed =>
      -- the blocker that has read TH_WAIT as set has the lock, or is about to set _suspended
      rcases BlockPc.eq_suspend_or_holdsLock hph with hb | hb
      · exact absurd hb hok
      · rw [h.blocker_lock.2 hb] at hlk
        cases hlk
  · intro hx
    exact .inl ⟨hholds, (h.lockQueue_of_holdsLock hx (by rw [hpc]; rfl))⟩

/-- The waker unlocks the thread lock, and resumes a blocker that waits for it. -/
theorem unlock (hpc : s.waker = .unlock) (hfree : s.hasQueueLock = false) :
    Inv { s with
      lock := none, lockQueue := false, workQueue := if s.lockQueue && s.suspended then s.workQueue + 1 else s.workQueue,
      waker := .done } := by
  have hlk : s.lock = some .waker := h.waker_lock.2 (by rw [hpc]; rfl)
  have hnb : ¬s.blocker.holdsLock = true := by
    rw [← h.blocker_lock, hlk]
    exact nofun
  have hle : s.workQueue ≤ if s.lockQueue && s.suspended then s.workQueue + 1 else s.workQueue := by
    split
    · exact Nat.le_succ _
    · exact le_rfl
  refine ⟨iff_of_false nofun hnb, iff_of_false nofun nofun, h.suspended, h.awake, h.asleep, nofun, ?_, ?_, ?_⟩
  · intro _
    rcases h.tested (by rw [hpc]; rfl) with hx | hx | ⟨hdid, hx | hx⟩
    · exact .inl hx
    · exact .inr (.inl hx)
    · rw [hpc] at hx
      cases hx
    · exact .inr (.inr ⟨hdid, .inr hx⟩)
  · intro _ hph
    rcases h.awaited (by rw [hpc]; rfl) hph with hx | hx | hx
    · rw [hpc] at hx
      cases hx
    · exact .inr (.inl (hx.trans_le hle))
    · exact .inr (.inr hx)
  · intro hw
    obtain ⟨hout, hsu⟩ := switchedOut_of_awaitsLock hw hfree
    refine .inr ⟨rfl, hout, .inl ?_⟩
    rw [h.lockQueue_of_holdsLock hw (by rw [hpc]; rfl), h.suspended, hsu]
    exact Nat.succ_pos _

theorem advanceWaker {wresult : Int} (hok : Seen s .waker) (hs : s.advanceWaker wresult = some s') : s'.Inv := by
  unfold Block.advanceWaker at hs
  generalize hpc : s.waker = pc at hs
  cases pc with
  | outside =>
    obtain ⟨hfr, rfl⟩ := of_guarded hs
    have hnb : ¬s.blocker.holdsLock = true := by
      rw [← h.blocker_lock, hfr]
      exact nofun
    have hunt := h.untested (by rw [hpc]; rfl)
    refine ⟨iff_of_false nofun hnb, iff_of_true rfl rfl, h.suspended, h.awake, h.asleep, fun _ => hunt, nofun, nofun, ?_⟩
    intro hx
    rcases h.lockAwaited hx with ⟨hw, -⟩ | ⟨hw, -⟩
    · rw [hpc] at hw
      cases hw
    · rw [hpc] at hw
      cases hw
  | unblock =>
    cases hs
    have hlk : s.lock = some .waker := h.waker_lock.2 (by rw [hpc]; rfl)
    have hunt := h.untested (by rw [hpc]; rfl)
    refine ⟨h.blocker_lock, iff_of_true hlk rfl, h.suspended, h.awake, h.asleep, fun _ => hunt, nofun, nofun, ?_⟩
    exact fun hx => .inl ⟨rfl, h.lockQueue_of_holdsLock hx (by rw [hpc]; rfl)⟩
  | test =>
    cases hs
    exact h.test hpc (hok hpc)
  | push =>
    cases hs
    have hlk : s.lock = some .waker := h.waker_lock.2 (by rw [hpc]; rfl)
    refine ⟨h.blocker_lock, iff_of_true hlk rfl, h.suspended, h.awake, h.asleep, nofun, ?_,
      fun _ _ => .inr (.inl (Nat.succ_pos _)), fun hx => .inl ⟨rfl, h.lockQueue_of_holdsLock hx (by rw [hpc]; rfl)⟩⟩
    intro _
    rcases h.tested (by rw [hpc]; rfl) with hx | hx | ⟨hdid, -⟩
    · exact .inl hx
    · exact .inr (.inl hx)
    · exact .inr (.inr ⟨hdid, .inr (by simp [hdid])⟩)
  | unlock =>
    obtain ⟨hfree, hs⟩ := Option.ite_none_left_eq_some.1 hs
    cases hs
    exact h.unlock hpc (by simpa using hfree)
  | done =>
    cases hs

/-- A worker holds the thread or has it in its queue only after the test. -/
theorem tested_of_pos (hpos : 0 < s.workQueue ∨ 0 < s.holding) : s.waker.tested = true := by
  by_contra ht
  obtain ⟨hq, hh, -, -⟩ := h.untested (by simpa using ht)
  omega

/-- After the test the workers keep a blocker that is switched out scheduled. -/
theorem workers (ht : s.waker.tested = true) {workQueue holding : Nat} {running waiting : Bool}
    (hq : s.blocker.phase = .asleep → 0 < workQueue ∨ 0 < holding ∨ s.blocker = .parked ∧ running = true)
    (hqueued : 0 < workQueue ∨ 0 < holding ∨ running = true) :
    Inv { s with workQueue := workQueue, holding := holding, running := running, waiting := waiting } := by
  refine ⟨h.blocker_lock, h.waker_lock, h.suspended, h.awake, h.asleep, ?_, h.tested, fun _ hx => .inr (hq hx), ?_⟩
  · intro hx
    rw [show s.waker.tested = false from hx] at ht
    cases ht
  · intro hw
    exact (h.lockAwaited hw).imp_right fun ⟨hdn, hout, _⟩ => ⟨hdn, hout, hqueued⟩

/-- A blocker that goes on after its suspension was run after the test. -/
theorem resume (hs : s.resume = some s') : s'.Inv := by
  have htest : s.blocker.switchedOut = true → s.running = true → s.waker.tested = true := by
    intro hout hrun
    by_contra ht
    have hx := (h.untested (by simpa using ht)).2.2.1 hout
    rw [hrun] at hx
    cases hx
  have hb := h.blocker_lock
  unfold Block.resume at hs
  split at hs
  · rename_i site hpc
    obtain ⟨-, rfl⟩ := of_guarded hs
    rw [hpc] at hb
    exact h.move hpc hb Iff.rfl rfl (by cases site <;> rfl) nofun nofun nofun
  · rename_i hpc
    obtain ⟨hrun, rfl⟩ := of_guarded hs
    have ht := htest (by rw [hpc]; rfl) hrun
    rw [hpc] at hb
    refine ⟨hb, h.waker_lock, rfl, ?_, nofun, ?_, ?_, nofun, nofun⟩
    · rintro (hx | hx)
      · cases hx
      · cases hx
    · intro hx
      rw [show s.waker.tested = false from hx] at ht
      cases ht
    · intro _
      rcases h.tested ht with hx | ⟨hx, -⟩ | hx
      · rw [hpc] at hx
        cases hx
      · rw [hpc] at hx
        cases hx
      · exact .inr (.inr hx)
  · cases hs

theorem step {native : Bool} {wresult : Int} {a : BlockAction} (hok : Seen s a) (hs : s.step native wresult a = some s') :
    s'.Inv := by
  cases a with
  | blocker => exact h.advanceBlocker hok hs
  | waker => exact h.advanceWaker hok hs
  | pop =>
    obtain ⟨hpos, rfl⟩ := of_guarded hs
    have hheld : 0 < s.holding + 1 := Nat.succ_pos _
    exact h.workers (h.tested_of_pos (.inl hpos)) (fun _ => .inr (.inl hheld)) (.inr (.inl hheld))
  | enter =>
    obtain ⟨hpos, hs⟩ := Option.ite_none_right_eq_some.1 hs
    have ht := h.tested_of_pos (.inr hpos)
    have hpark (hph : s.blocker.phase = .asleep) : s.blocker = .parked := (BlockPc.eq_top_or_parked hph).resolve_left hok
    split at hs
    · rename_i hrun
      cases hs
      exact h.workers ht (fun hph => .inr (.inr ⟨hpark hph, hrun⟩)) (.inr (.inr hrun))
    · cases hs
      exact h.workers ht (fun hph => .inr (.inr ⟨hpark hph, rfl⟩)) (.inr (.inr rfl))
  | resume => exact h.resume hs

/-- When the waker is through, a blocker that has read TH_WAIT did not suspend, or was pushed after it did. -/
theorem of_done (hdn : s.waker = .done) :
    s.blocker.phase = .reading ∨ s.blocker.phase = .past ∧ s.didSuspend = false ∨ s.pushed = true := by
  rcases h.tested (by rw [hdn]; rfl) with hx | hx | ⟨-, hx | hx⟩
  · exact .inl hx
  · exact .inr (.inl hx)
  · rw [hdn] at hx
    cases hx
  · exact .inr (.inr hx)

theorem wakeupNotLost : s.WakeupNotLost where
  returned := by
    intro hdn result hpc
    rcases h.of_done hdn with hx | ⟨-, hx⟩ | hx
    · rw [hpc] at hx
      cases hx
    · exact .inl hx
    · exact .inr hx
  parked := by
    intro hdn hpc
    have hqueued : s.Scheduled := by
      rcases h.awaited (by rw [hdn]; rfl) (by rw [hpc]; rfl) with hx | hx | hx | ⟨-, hx⟩
      · rw [hdn] at hx
        cases hx
      · exact .inl hx
      · exact .inr (.inl hx)
      · exact .inr (.inr hx)
    rcases h.of_done hdn with hx | ⟨hx, -⟩ | hx
    · rw [hpc] at hx
      cases hx
    · rw [hpc] at hx
      cases hx
    · exact ⟨hx, hqueued⟩
  lockParked := by
    intro hdn site hpc
    rcases h.lockAwaited (by rw [hpc]; rfl) with ⟨hx, -⟩ | ⟨-, -, hx⟩
    · rw [hdn] at hx
      cases hx
    · exact hx

end

end Inv

/-! ## Runs -/

/-- In every run in which the waker does not test `_suspended` between the blocker's read of TH_WAIT and its setting of
`_suspended`, the blocker does not find TH_WAIT set when the waker is through, and no worker enters `doWork` for a blocker that
has suspended for the wait before it is switched out, the wakeup is not lost. -/
theorem wakeup_not_lost_of_seen {native : Bool} {wresult : Int} {s : Block} (h : (machine native wresult).Reaches Seen s) :
    s.WakeupNotLost := by
  have hinv : s.Inv := Machine.Reaches.invariant inv_init (fun hinv => hinv.step) h
  exact hinv.wakeupNotLost

/-- The blocker parks and is woken by a microthread afterwards; a worker runs it and it returns. -/
def parkThenWake : List BlockAction :=
  [.blocker, .blocker, .blocker, .blocker, .blocker, .waker, .waker, .waker, .waker, .waker, .pop, .enter, .resume, .blocker,
    .blocker, .blocker]

/-- It returns the result of the wakeup. -/
theorem parkThenWake_not_lost : ∃ s, (machine false 0).runOk Seen init parkThenWake = some s ∧ s.blocker = .returned 0 ∧
    s.WakeupNotLost := by
  refine (Machine.exists_of_runOk ?_).imp fun s h => ⟨h.1, h.2, wakeup_not_lost_of_seen (Machine.reaches_of_runOk h.1)⟩
  decide

/-- The waker runs after the blocker has read TH_WAIT and before it has set `_suspended`. -/
def wakeBeforeSuspend : List BlockAction := [.blocker, .blocker, .blocker, .waker, .waker, .waker, .waker, .blocker, .blocker]

/-- The blocker is parked then, and was not pushed. -/
theorem wakeup_not_lost_false : ¬∀ native wresult s, (machine native wresult).Reachable s → s.WakeupNotLost := by
  intro h
  obtain ⟨s, hs, hdn, hpark, hp⟩ := Machine.exists_reachable_of_run (M := machine false 0) wakeBeforeSuspend
    (P := fun s => s.waker = .done ∧ s.blocker = .parked ∧ s.pushed = false) (by decide)
  have hpu := ((h false 0 s hs).parked hdn hpark).1
  rw [hp] at hpu
  cases hpu

/-- Another way to lose it: a worker takes the pushed thread and drops it because it is still running; then the blocker parks. -/
example : ((machine true 0).run init ([.blocker, .blocker, .blocker, .blocker] ++ [.waker, .waker, .waker, .waker, .waker] ++
    [.pop, .enter, .blocker])).map (fun s => (s.waker, s.blocker, s.workQueue, s.holding, s.running)) =
      some (.done, .parked, 0, 0, false) := by decide

end Block

end Osxie.DuctTape
