import Osxie.Server.WorkQueue

/-!
# The counter of available workers

`_threadsAvailable` is to be the number of the workers that wait for work: a worker increments it before it waits, and the
predicate of the wait decrements it when it finds an item or the end of the queue. A wait whose time is over does not.
-/

namespace Osxie.Server

open List Option

/-- The worker is in the wait: blocked, or woken up and not back at the predicate yet. -/
def WorkerPlace.waits {α : Type} : WorkerPlace α → Bool
  | .waiting | .woken _ => true
  | _ => false

theorem WorkerPlace.waits_wakeUp {α : Type} (place : WorkerPlace α) : place.wakeUp.waits = place.waits := by
  cases place <;> rfl

namespace WorkQueue

variable {α : Type} (s : WorkQueue α)

def waiting : Nat := s.workers.countP (·.place.waits)

/-- A worker whose time is over finds an item, or the end of the queue. -/
def FindsWork : WorkQueueAction α → Prop
  | .look i => (s.workers[i]?.map (·.place)) = some (.woken true) → s.workItems ≠ [] ∨ s.dying = true
  | _ => True

instance [DecidableEq α] (s : WorkQueue α) (a : WorkQueueAction α) : Decidable (s.FindsWork a) := by
  cases a <;> unfold FindsWork <;> infer_instance

def Exact : Prop := s.threadsAvailable = s.waiting

variable {s : WorkQueue α}

variable {i : Nat} {permanent : Bool}

/-- A worker that goes somewhere changes the number by itself only. -/
theorem waiting_goto {old : WorkerPlace α} (hi : s.workers[i]? = some ⟨permanent, old⟩) (place : WorkerPlace α) :
    (s.goto i permanent place).waiting + (if old.waits then 1 else 0) = s.waiting + (if place.waits then 1 else 0) := by
  obtain ⟨hlt, hget⟩ := List.getElem?_eq_some_iff.1 hi
  have hset := countP_set (p := fun w : PoolWorker α => w.place.waits) (a := ⟨permanent, place⟩) hlt
  rw [hget] at hset
  have hpos : old.waits = true → 0 < s.workers.countP (·.place.waits) := by
    intro hold
    exact countP_pos_iff.2 ⟨_, hget ▸ getElem_mem hlt, hold⟩
  unfold waiting goto
  rw [hset]
  cases hold : old.waits with
  | false => simp
  | true =>
    have := hpos hold
    simp only [if_true]
    omega

section

variable (h : s.Exact)

include h

/-- A worker that stays in the wait, or stays out of it, leaves the counter exact. -/
theorem Exact.goto {old place : WorkerPlace α} (hi : s.workers[i]? = some ⟨permanent, old⟩) (hsm : place.waits = old.waits) :
    (s.goto i permanent place).Exact := by
  have hcount := waiting_goto hi place
  rw [hsm] at hcount
  exact h.trans (Nat.add_right_cancel hcount).symm

/-- A worker that leaves the wait is counted out. -/
theorem Exact.leave {old place : WorkerPlace α} (hi : s.workers[i]? = some ⟨permanent, old⟩) (hold : old.waits = true)
    (hpl : place.waits = false) : s.threadsAvailable - 1 = (s.goto i permanent place).waiting := by
  have hcount := waiting_goto hi place
  simp only [hold, hpl, if_true, Bool.false_eq_true, if_false, Nat.add_zero] at hcount
  rw [show s.threadsAvailable = s.waiting from h, ← hcount, Nat.add_sub_cancel]

/-- A worker in the wait evaluates the predicate. If its time is over, it finds something. -/
theorem Exact.look {permanent timedOut : Bool} {old : WorkerPlace α} (hi : s.workers[i]? = some ⟨permanent, old⟩)
    (hold : old.waits = true) (hfound : timedOut = true → s.workItems ≠ [] ∨ s.dying = true) :
    (s.look i permanent timedOut).Exact := by
  unfold WorkQueue.look
  split
  · exact h.leave hi hold rfl
  · rename_i hd
    split
    · exact h.leave hi hold rfl
    · rename_i hit
      cases timedOut with
      | false => exact h.goto hi hold.symm
      | true =>
        rcases hfound rfl with hne | hdyn
        · exact absurd hit hne
        · exact absurd hdyn hd

/-- A worker at the top of its loop counts itself in and evaluates the predicate: as if it had been in the wait already. -/
theorem Exact.enter (hi : s.workers[i]? = some ⟨permanent, .starting⟩) :
    ({ s with threadsAvailable := s.threadsAvailable + 1 }.look i permanent false).Exact := by
  obtain ⟨hlt, _⟩ := List.getElem?_eq_some_iff.1 hi
  let entered : WorkQueue α := { s with threadsAvailable := s.threadsAvailable + 1 }.goto i permanent (.woken false)
  have hent : entered.Exact := by
    have hcount := waiting_goto hi (.woken false)
    exact (congrArg (· + 1) h).trans hcount.symm
  have hpl : entered.workers[i]? = some ⟨permanent, .woken false⟩ := getElem?_set_self hlt
  have hsm : entered.look i permanent false =
      { s with threadsAvailable := s.threadsAvailable + 1 }.look i permanent false := by
    simp only [entered, WorkQueue.look, WorkQueue.goto, set_set]
  exact hsm ▸ hent.look hpl rfl (by simp)

/-- A new worker does not wait yet. -/
theorem Exact.push (c : PoolConfig) (item : α) : (s.push c item).Exact := by
  unfold WorkQueue.push
  dsimp only
  split
  · refine h.trans ?_
    simp [waiting, countP_append, WorkerPlace.waits]
  · exact h

theorem Exact.notifyAll :
    Exact { s with notifyingAll := false, workers := s.workers.map fun w => { w with place := w.place.wakeUp } } := by
  refine h.trans ?_
  simp only [waiting, countP_map, Function.comp_def, WorkerPlace.waits_wakeUp]

/-- Every step keeps the counter exact in which a worker whose time is over finds something. -/
theorem Exact.step {c : PoolConfig} {a : WorkQueueAction α} (hfound : s.FindsWork a) {s' : WorkQueue α}
    (hs : s.step c a = some s') : s'.Exact := by
  cases a with
  | push item =>
    obtain ⟨_, hs⟩ := ite_none_left_eq_some.1 hs
    exact some.inj hs ▸ h.push c item
  | notifyOne i timedOut =>
    simp only [WorkQueue.step] at hs
    split at hs
    · rename_i permanent hi
      obtain ⟨_, rfl⟩ := of_guarded hs
      exact Exact.goto h hi rfl
    · cases hs
  | notifyNobody =>
    obtain ⟨_, rfl⟩ := of_guarded hs
    exact h
  | wake i timedOut =>
    simp only [WorkQueue.step] at hs
    split at hs
    · rename_i permanent hi
      obtain ⟨_, rfl⟩ := of_guarded hs
      exact h.goto hi rfl
    · cases hs
  | look i =>
    simp only [WorkQueue.step] at hs
    split at hs
    · rename_i permanent hi
      exact some.inj hs ▸ h.enter hi
    · rename_i permanent timedOut hi
      refine some.inj hs ▸ h.look hi rfl fun ht => hfound ?_
      rw [hi, ht]
      rfl
    · cases hs
  | finish i =>
    simp only [WorkQueue.step] at hs
    split at hs <;> cases hs
    rename_i permanent item hi
    exact h.goto hi rfl
  | shutdown =>
    obtain ⟨_, hs⟩ := ite_none_left_eq_some.1 hs
    exact some.inj hs ▸ h
  | notifyAll =>
    obtain ⟨_, rfl⟩ := of_guarded hs
    exact h.notifyAll

end

theorem exact_init (c : PoolConfig) : (init c : WorkQueue α).Exact := by
  refine (countP_eq_zero.2 ?_).symm
  intro w hw
  rw [eq_of_mem_replicate hw]
  exact Bool.false_ne_true

/-- A `push` that finds no worker in the wait starts a temporary one, if there may be another. -/
def Spawns (c : PoolConfig) (s : WorkQueue α) : Prop :=
  ∀ item, s.waiting = 0 → s.workers.countP (·.place.live) < c.maximumThreads →
    (s.push c item).workers = s.workers ++ [⟨false, .starting⟩]

theorem Exact.spawns (h : s.Exact) (c : PoolConfig) : Spawns c s := by
  intro item hno hlim
  have hze : s.threadsAvailable = 0 := h.trans hno
  unfold WorkQueue.push
  rw [if_pos ⟨hze, hlim⟩]

/-- As long as every worker whose time is over finds something, the counter is the number of the workers that wait, and `push`
starts a temporary worker whenever none waits and the limit is not reached. -/
theorem available_exact {c : PoolConfig} (h : (machine c).Reaches FindsWork s) : s.threadsAvailable = s.waiting ∧ Spawns c s := by
  have hexact : s.Exact := Machine.Reaches.invariant (exact_init c) (fun hexact hok => hexact.step hok) h
  exact ⟨hexact, hexact.spawns c⟩

/-- A temporary worker whose time is over when an item has just been pushed, while a permanent one waits. -/
theorem available_exact_late : ∃ s, (machine ⟨false, 4⟩).Reaches FindsWork s ∧ (s.threadsAvailable = 1 ∧ s.pushed = [7, 8]) ∧
    s.threadsAvailable = s.waiting ∧ Spawns ⟨false, 4⟩ s := by
  refine (Machine.exists_reaches_of_runOk FindsWork
    [.push 7, .look 2, .finish 2, .look 0, .look 2, .push 8, .wake 2 true, .look 2] ?_).imp
    fun s h => ⟨h.1, h.2, available_exact h.1⟩
  decide +kernel

/-- A temporary worker that ends after its time stays counted: both permanent workers run an item, no worker waits, and the
next `push` starts none, though there may be four threads. -/
theorem available_not_exact : ∃ s, (machine (α := Nat) ⟨false, 4⟩).Reachable s ∧ s.threadsAvailable = 1 ∧ s.waiting = 0 ∧
    s.workers = [⟨true, .running 7⟩, ⟨true, .running 8⟩, ⟨false, .finished⟩] ∧ ¬Spawns ⟨false, 4⟩ s := by
  obtain ⟨s, hs, hava, hno, hwk, hpu⟩ := Machine.exists_reachable_of_run (M := machine ⟨false, 4⟩)
    [.look 0, .look 1, .push 7, .notifyOne 0 false, .look 0, .push 8, .notifyOne 1 false, .look 1, .push 9, .look 2, .finish 2,
      .look 2, .wake 2 true, .look 2]
    (P := fun s => s.threadsAvailable = 1 ∧ s.waiting = 0 ∧
      s.workers = [⟨true, .running 7⟩, ⟨true, .running 8⟩, ⟨false, .finished⟩] ∧
      (s.push ⟨false, 4⟩ 10).workers = s.workers) (by decide +kernel)
  refine ⟨s, hs, hava, hno, hwk, fun hspaw => ?_⟩
  have hlim : s.workers.countP (·.place.live) < PoolConfig.maximumThreads ⟨false, 4⟩ := by
    rw [hwk]
    decide
  have hnew := hspaw 10 hno hlim
  rw [hpu] at hnew
  simpa using congrArg length hnew

end WorkQueue

end Osxie.Server
