import Osxie.Lib.Machine
import Osxie.Lib.Threads

/-!
# The lock of libsimple

`libsimple_lock` is a word with three values: unlocked, locked, and locked with waiters. `lock` takes an unlocked lock as locked
without waiters; when it has to wait it marks the lock first, and takes it as one with waiters from then on, since others may
still sleep. `lock_slow`, for a thread that comes back from a condition variable, does so from the start. `unlock` wakes one
sleeper when there were waiters.

One step does one access to the word (`Pc`). `FUTEX_WAIT` sleeps if the word still has the value that is expected, and can
return for no reason; `FUTEX_WAKE` wakes one sleeper, if there is one. The lock of xtrace is the same code.
-/

namespace Osxie.Libsimple

inductive LockState
  | unlocked
  | lockedUncontended
  | lockedContended
deriving DecidableEq

namespace Lock

/-- `cmpxchg_wrapper_u32`: the value before, and the value then. -/
def cmpxchg {ω : Type} [DecidableEq ω] (word expected desired : ω) : ω × ω := (word, if word = expected then desired else word)

/-- Where a thread is: outside, holding the lock, or before the named access. `woken` tells whether it has been asleep. -/
inductive Pc
  | idle
  | holds
  /-- `lock`, at the top of the loop. -/
  | loop (prev : LockState) (woken : Bool)
  /-- `lock`, before `FUTEX_WAIT`. -/
  | wait (woken : Bool)
  | asleep
  /-- `lock`, before the test at the end of the loop. -/
  | test (woken : Bool)
  /-- `lock_slow`, before `FUTEX_WAIT`. -/
  | slowWait (woken : Bool)
  | slowAsleep
  /-- `lock_slow`, before the exchange at the end of the loop. -/
  | slowTest (woken : Bool)
  /-- `unlock`, before `FUTEX_WAKE`. -/
  | wake
deriving DecidableEq

/-- What a thread does next: it calls a function, goes on, or returns from `FUTEX_WAIT` for no reason. -/
inductive Op
  | lock
  | lockSlow
  | tryLock
  | unlock
  | advance
  | spurious
deriving DecidableEq

/-- One access of a thread: the word and the place then. -/
def access (word : LockState) : Pc → Op → Option (LockState × Pc)
  | .idle, .lock =>
    let (prev, word) := cmpxchg word .unlocked .lockedUncontended
    some (word, if prev = .unlocked then .holds else .loop prev false)
  | .idle, .lockSlow => some (.lockedContended, if word = .unlocked then .holds else .slowWait false)
  | .idle, .tryLock =>
    let (prev, word) := cmpxchg word .unlocked .lockedUncontended
    some (word, if prev = .unlocked then .holds else .idle)
  | .holds, .unlock => some (.unlocked, if word = .lockedContended then .wake else .idle)
  | .loop prev woken, .advance =>
    if prev = .lockedContended then some (word, .wait woken)
    else
      let (prev, word) := cmpxchg word .lockedUncontended .lockedContended
      some (word, if prev ≠ .unlocked then .wait woken else .test woken)
  | .wait woken, .advance => some (word, if word = .lockedContended then .asleep else .test woken)
  | .asleep, .spurious => some (word, .test true)
  | .test woken, .advance =>
    let (prev, word) := cmpxchg word .unlocked .lockedContended
    some (word, if prev = .unlocked then .holds else .loop prev woken)
  | .slowWait woken, .advance => some (word, if word = .lockedContended then .slowAsleep else .slowTest woken)
  | .slowAsleep, .spurious => some (word, .slowTest true)
  | .slowTest woken, .advance => some (.lockedContended, if word = .unlocked then .holds else .slowWait woken)
  | _, _ => none

def Pc.sleeps : Pc → Bool
  | .asleep | .slowAsleep => true
  | _ => false

/-- Where a thread is when it has been woken. -/
def Pc.awoken : Pc → Pc
  | .asleep => .test true
  | .slowAsleep => .slowTest true
  | p => p

variable {τ : Type} [DecidableEq τ] [Fintype τ]

abbrev State (τ : Type) := Threads τ LockState Pc

/-- A thread's step, or its `FUTEX_WAKE`, which wakes a sleeper unless there is none. -/
inductive Act (τ : Type)
  | step (t : τ) (op : Op)
  | wake (t : τ) (u : Option τ)
deriving DecidableEq

def step (s : State τ) : Act τ → Option (State τ)
  | .step t op => (access s.word (s.pc t) op).map (s.set t)
  | .wake t none => if s.pc t = .wake ∧ ∀ u, ¬(s.pc u).sleeps then some (s.move t .idle) else none
  | .wake t (some u) =>
    if s.pc t = .wake ∧ (s.pc u).sleeps then some ((s.move t .idle).move u (s.pc u).awoken) else none

/-- A lock that no thread uses yet. -/
def machine (τ : Type) [DecidableEq τ] [Fintype τ] : Machine (State τ) (Act τ) where
  init := ⟨.unlocked, fun _ => .idle⟩
  step := step

end Lock

end Osxie.Libsimple
