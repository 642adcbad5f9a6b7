import Osxie.Libsimple.Lock

/-!
# The condition variable of libsimple

`libsimple_condvar` is a word of 32 bits: a number that every notification increments, above two bits that say that there may be
a thread to wake for `notify_one` and for `notify_all`. `wait` sets both bits, gives up the lock and sleeps if the word has not
changed since. `notify_one` clears its bit, wakes one sleeper and sets the bit again if there was one; `notify_all` clears both,
wakes one sleeper and moves the others to the queue of the lock. A thread that returns from `FUTEX_WAIT`, or was moved and is
woken by an `unlock`, takes the lock by `lock_slow`.

The state also counts for an observer: at some moment (`observe`) the threads that have given up the lock in `wait` are marked
and counted, and from then on the calls of `notify_one` and `notify_all` that begin and return.
-/

namespace Osxie.Libsimple.Condvar

/-- The word, and what is counted since the observer came. -/
structure Word where
  /-- How many notifications there were. The word has it modulo `2^30`. -/
  notified : Nat
  /-- `libsimple_condvar_bit_need_to_wake_one`. -/
  needToWakeOne : Bool
  /-- `libsimple_condvar_bit_need_to_wake_all`. -/
  needToWakeAll : Bool
  waiting : Nat
  /-- A notification has begun since. -/
  began : Bool
  /-- How many calls of `notify_one` have begun since, and returned. -/
  returnedOne : Nat
  /-- A call of `notify_all` has begun since, and returned. -/
  returnedAll : Bool
deriving DecidableEq

variable (w : Word)

/-- The 32 bits. -/
def Word.value : Nat := (4 * w.notified + 2 * w.needToWakeAll.toNat + w.needToWakeOne.toNat) % 2 ^ 32

/-- Where a thread is: outside, or before the named access. A flag tells whether a waiter was waiting when the observer came,
and whether a notification has begun since. -/
inductive Pc
  | idle
  /-- `wait`, before or in `unlock`, and before `FUTEX_WAIT`; `since` is how many notifications there were when the bits were set. -/
  | unlocking (state2 since : Nat) (marked : Bool)
  | asleep (marked : Bool)
  /-- `wait`, in `lock_slow`, or in the queue of the lock. -/
  | locking
  /-- `notify_one`, before the bit is cleared. -/
  | oneClear (counted : Bool)
  /-- `notify_one`, before `FUTEX_WAKE`. -/
  | oneWake (counted : Bool)
  /-- `notify_one`, before the bit is set again. -/
  | oneRestore (counted : Bool)
  /-- `notify_all`, before the bits are cleared. -/
  | allClear (counted : Bool)
  /-- `notify_all`, before `FUTEX_REQUEUE`. -/
  | allRequeue (counted : Bool)
deriving DecidableEq

/-- What a thread does next: it calls a function, sleeps, goes on, or returns from `FUTEX_WAIT` for no reason. -/
inductive Op
  | wait
  | futexWait
  | spurious
  | notifyOne
  | notifyAll
  | advance
deriving DecidableEq

def Word.returnOne (counted : Bool) : Word := { w with returnedOne := w.returnedOne + counted.toNat }

def Word.returnAll (counted : Bool) : Word := { w with returnedAll := w.returnedAll || counted }

/-- One access of a thread to the word of the condition variable: the word and the place then. -/
def access : Pc → Op → Option (Word × Pc)
  | .idle, .wait =>
    let w := { w with needToWakeOne := true, needToWakeAll := true }
    some (w, .unlocking w.value w.notified false)
  | .unlocking state2 _ marked, .futexWait => some (w, if w.value = state2 then .asleep marked else .locking)
  | .asleep _, .spurious => some (w, .locking)
  | .idle, .notifyOne =>
    let w := { w with notified := w.notified + 1, began := true }
    some (if w.needToWakeOne then (w, .oneClear true) else (w.returnOne true, .idle))
  | .oneClear counted, .advance =>
    some (if w.needToWakeOne then ({ w with needToWakeOne := false }, .oneWake counted) else (w.returnOne counted, .idle))
  | .oneRestore counted, .advance => some ({ w with needToWakeOne := true }.returnOne counted, .idle)
  | .idle, .notifyAll =>
    let w := { w with notified := w.notified + 1, began := true }
    some (if w.needToWakeAll then (w, .allClear true) else (w.returnAll true, .idle))
  | .allClear counted, .advance => some ({ w with needToWakeOne := false, needToWakeAll := false }, .allRequeue counted)
  | _, _ => none

/-- Where a thread has to be with the lock: `wait` is called with the lock held, and sleeps when `unlock` has returned; a
notification can come from a thread that holds the lock or not. -/
def Op.allowed : Op → Lock.Pc → Bool
  | .wait, p => p = .holds
  | .futexWait, p => p = .idle
  | .notifyOne, p | .notifyAll, p => p = .idle || p = .holds
  | .spurious, _ | .advance, _ => true

/-- The accesses to the lock that a thread makes: its own outside, `unlock` in `wait`, and then `lock_slow`. -/
def Pc.locks : Pc → Lock.Op → Bool
  | .idle, op => op ≠ .lockSlow
  | .unlocking .., op => op = .unlock
  | .locking, op => op = .advance || op = .spurious
  | _, _ => false

def Pc.isAsleep : Pc → Bool
  | .asleep _ => true
  | _ => false

structure State (τ : Type) where
  lock : Lock.State τ
  cond : Threads τ Word Pc

/-- A thread's access to the condition variable or to the lock, its `FUTEX_WAKE` or `FUTEX_REQUEUE` with the sleeper that is
woken unless there is none, its return from `wait`; or the observer comes. -/
inductive Act (τ : Type)
  | access (t : τ) (op : Op)
  | lock (t : τ) (op : Lock.Op)
  | lockWake (t : τ) (u : Option τ)
  | wakeOne (t : τ) (u : Option τ)
  | requeue (t : τ) (u : Option τ)
  | returns (t : τ)
  | observe
deriving DecidableEq

variable {τ : Type} [DecidableEq τ] [Fintype τ]

/-- The threads that sleep are moved to the queue of the lock, apart from one. -/
def requeueOthers (s : State τ) (u : τ) : State τ where
  lock := ⟨s.lock.word, fun v => if v = u then .slowTest true else if (s.cond.pc v).isAsleep then .slowAsleep else s.lock.pc v⟩
  cond := s.cond.moveAll fun p => if p.isAsleep then .locking else p

/-- A thread in `wait` is marked when it has given up the lock. -/
def Pc.observed (released : Bool) : Pc → Pc
  | .unlocking state2 since _ => .unlocking state2 since released
  | .asleep _ => .asleep true
  | .oneClear _ => .oneClear false
  | .oneWake _ => .oneWake false
  | .oneRestore _ => .oneRestore false
  | .allClear _ => .allClear false
  | .allRequeue _ => .allRequeue false
  | p => p

def Pc.marked : Pc → Bool
  | .unlocking _ _ marked | .asleep marked => marked
  | _ => false

def observe (s : State τ) : State τ :=
  let pc := fun t => (s.cond.pc t).observed (s.lock.pc t ≠ .holds)
  let waiting := Threads.count ⟨s.cond.word, pc⟩ Pc.marked
  { s with cond := ⟨{ s.cond.word with waiting, began := false, returnedOne := 0, returnedAll := false }, pc⟩ }

/-- A thread's place in `lock_slow` when it returns from `FUTEX_WAIT`: before the exchange. -/
def afterAccess (lock : Lock.State τ) (t : τ) (p : Pc) : Lock.State τ :=
    if p = .locking then lock.move t (.slowTest false) else lock

def step (s : State τ) : Act τ → Option (State τ)
  | .access t op =>
    if op.allowed (s.lock.pc t) then
      (access s.cond.word (s.cond.pc t) op).map fun a => ⟨afterAccess s.lock t a.2, s.cond.set t a⟩
    else none
  | .lock t op =>
    if (s.cond.pc t).locks op then (Lock.step s.lock (.step t op)).map fun lock => { s with lock } else none
  | .lockWake t u => (Lock.step s.lock (.wake t u)).map fun lock => { s with lock }
  | .wakeOne t u =>
    match s.cond.pc t, u with
    | .oneWake counted, none =>
      if ∀ v, ¬(s.cond.pc v).isAsleep then some { s with cond := s.cond.set t (s.cond.word.returnOne counted, .idle) } else none
    | .oneWake counted, some u =>
      if (s.cond.pc u).isAsleep then
        some ⟨s.lock.move u (.slowTest false), (s.cond.move t (.oneRestore counted)).move u .locking⟩
      else none
    | _, _ => none
  | .requeue t u =>
    match s.cond.pc t, u with
    | .allRequeue counted, none =>
      if ∀ v, ¬(s.cond.pc v).isAsleep then some { s with cond := s.cond.set t (s.cond.word.returnAll counted, .idle) } else none
    | .allRequeue counted, some u =>
      if (s.cond.pc u).isAsleep then
        let s' := requeueOthers s u
        some { s' with cond := s'.cond.set t (s.cond.word.returnAll counted, .idle) }
      else none
    | _, _ => none
  | .returns t =>
    -- `lock_slow` has returned
    if s.cond.pc t = .locking ∧ (s.lock.pc t = .idle ∨ s.lock.pc t = .holds) then
      some { s with cond := s.cond.move t .idle }
    else none
  | .observe => some (observe s)

/-- A condition variable and a lock that no thread uses yet. -/
def machine (τ : Type) [DecidableEq τ] [Fintype τ] : Machine (State τ) (Act τ) where
  init := ⟨(Lock.machine τ).init, ⟨⟨0, false, false, 0, false, 0, false⟩, fun _ => .idle⟩⟩
  step := step

end Osxie.Libsimple.Condvar
