import Osxie.Lib.Machine
import Osxie.Lib.Threads

/-!
# The reader-writer lock of libsimple

`libsimple_rwlock` is a word of 32 bits: the number of readers, a bit for a writer that holds the lock, and a bit that says that
someone has to be woken. A reader waits when either bit is set, so that readers do not overtake a writer that waits. It marks a
lock that a writer holds; a lock that readers hold is marked by writers only. The last reader clears the mark and wakes one
writer, a writer wakes all readers and one writer. A writer that had to wait takes the lock marked, since others may still
sleep.

One step does one access to the word (`Pc`). `FUTEX_WAIT_BITSET` sleeps if the word still has the value that is expected, and
can return for no reason; readers and writers sleep with a bit of their own, by which `FUTEX_WAKE_BITSET` finds them. A weak
compare-exchange can fail for no reason.
-/

namespace Osxie.Libsimple.Rwlock

/-- `libsimple_rwlock_bit_locked_write`. -/
def lockedWrite : Nat := 2 ^ 30

/-- `libsimple_rwlock_bit_need_to_wake`. -/
def needToWake : Nat := 2 ^ 31

/-- `state2 & ~libsimple_rwlock_bit_need_to_wake`, in 32 bits. -/
def withoutNeedToWake (state2 : Nat) : Nat := state2 &&& (2 ^ 32 - 1 - needToWake)

/-- Where a thread is: outside, holding the lock, or before the named access. -/
inductive Pc
  | idle
  | reads
  | writes
  /-- `lock_read`, at the top of the loop. -/
  | readLoop (state2 : Nat)
  /-- `lock_read`, before `FUTEX_WAIT_BITSET`. -/
  | readWait (state2 : Nat)
  | readAsleep
  /-- `try_lock_read`, after the test. -/
  | tryRead (state2 : Nat)
  /-- `unlock_read`, before the mark is cleared. -/
  | clear
  /-- `lock_write`, at the top of the loop. -/
  | writeLoop (state2 : Nat)
  /-- `lock_write`, before `FUTEX_WAIT_BITSET`. -/
  | writeWait (state2 : Nat)
  | writeAsleep
  /-- `unlock_write`, before the readers are woken. -/
  | wakeReaders
  /-- `unlock_read` or `unlock_write`, before one writer is woken. -/
  | wakeWriter
deriving DecidableEq

/-- What a thread does next: it calls a function, goes on, has a weak compare-exchange fail, or returns from `FUTEX_WAIT_BITSET`,
the last two for no reason. -/
inductive Op
  | lockRead
  | tryLockRead
  | unlockRead
  | lockWrite
  | tryLockWrite
  | unlockWrite
  | advance
  | weakFails
  | spurious
deriving DecidableEq

/-- A compare-exchange: where the thread goes on when the word was exchanged, and where it does with the value it has found
instead. -/
def exchange (word expected desired : Nat) (done : Pc) (failed : Nat → Pc) : Nat × Pc :=
  if word = expected then (desired, done) else (word, failed word)

/-- One access of a thread: the word and the place then. -/
def access (word : Nat) : Pc → Op → Option (Nat × Pc)
  | .idle, .lockRead => some (word, .readLoop word)
  | .idle, .tryLockRead => some (word, if word &&& (lockedWrite ||| needToWake) ≠ 0 then .idle else .tryRead word)
  | .idle, .lockWrite => some (exchange word 0 lockedWrite .writes .writeLoop)
  | .idle, .tryLockWrite => some (exchange word 0 lockedWrite .writes fun _ => .idle)
  | .reads, .unlockRead =>
    some ((word + 2 ^ 32 - 1) % 2 ^ 32, if withoutNeedToWake word = 1 ∧ word &&& needToWake ≠ 0 then .clear else .idle)
  | .writes, .unlockWrite => some (0, if word &&& needToWake ≠ 0 then .wakeReaders else .idle)
  | .readLoop state2, .advance =>
    if state2 &&& (lockedWrite ||| needToWake) = 0 then some (exchange word state2 ((state2 + 1) % 2 ^ 32) .reads .readLoop)
    else if state2 &&& needToWake = 0 then
      some (exchange word state2 (lockedWrite ||| needToWake) (.readWait (lockedWrite ||| needToWake)) .readLoop)
    else some (word, .readWait state2)
  | .readLoop state2, .weakFails =>
    if state2 &&& (lockedWrite ||| needToWake) ≠ 0 ∧ state2 &&& needToWake = 0 then some (word, .readLoop word) else none
  | .readWait state2, .advance => some (word, if word = state2 then .readAsleep else .readLoop 0)
  | .readAsleep, .spurious => some (word, .readLoop 0)
  | .tryRead state2, .advance => some (exchange word state2 ((state2 + 1) % 2 ^ 32) .reads fun _ => .idle)
  | .clear, .advance => some (exchange word needToWake 0 .wakeWriter fun _ => .wakeWriter)
  | .clear, .weakFails => some (word, .wakeWriter)
  | .writeLoop state2, .advance =>
    if withoutNeedToWake state2 = 0 then some (exchange word state2 (lockedWrite ||| needToWake) .writes .writeLoop)
    else if state2 &&& needToWake = 0 then
      some (exchange word state2 (state2 ||| needToWake) (.writeWait (state2 ||| needToWake)) .writeLoop)
    else some (word, .writeWait state2)
  | .writeWait state2, .advance => some (word, if word = state2 then .writeAsleep else .writeLoop 0)
  | .writeAsleep, .spurious => some (word, .writeLoop 0)
  | _, _ => none

/-- Where a reader is when all readers have been woken. -/
def Pc.readersAwoken : Pc → Pc
  | .readAsleep => .readLoop 0
  | p => p

variable {τ : Type} [DecidableEq τ] [Fintype τ]

abbrev State (τ : Type) := Threads τ Nat Pc

/-- A thread's step, or its `FUTEX_WAKE_BITSET`: for all readers, or for one writer, if one sleeps. -/
inductive Act (τ : Type)
  | step (t : τ) (op : Op)
  | wakeReaders (t : τ)
  | wakeWriter (t : τ) (u : Option τ)
deriving DecidableEq

def step (s : State τ) : Act τ → Option (State τ)
  | .step t op => (access s.word (s.pc t) op).map (s.set t)
  | .wakeReaders t => if s.pc t = .wakeReaders then some ((s.moveAll Pc.readersAwoken).move t .wakeWriter) else none
  | .wakeWriter t none => if s.pc t = .wakeWriter ∧ ∀ u, s.pc u ≠ .writeAsleep then some (s.move t .idle) else none
  | .wakeWriter t (some u) =>
    if s.pc t = .wakeWriter ∧ s.pc u = .writeAsleep then some ((s.move t .idle).move u (.writeLoop 0)) else none

/-- A reader-writer lock that no thread uses yet. -/
def machine (τ : Type) [DecidableEq τ] [Fintype τ] : Machine (State τ) (Act τ) where
  init := ⟨0, fun _ => .idle⟩
  step := step

end Osxie.Libsimple.Rwlock
