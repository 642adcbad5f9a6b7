import Osxie.Lib.Machine
import Osxie.Lib.RingBuffer
import Osxie.Lib.Threads

/-!
# The event queue of the window server

`CGSPostEventRecord2`, `CGSGetNextEventRecord` and `CGSPeekEventRecord` share a ring of 256 records under a mutex. A thread that
posts a record signals the condition variable; a thread that gets one waits on it as long as the ring is empty.

Any number of threads are in the three functions. A thread that is woken up, by a signal or for no reason, waits for the mutex
again and then tests the ring again. A signal wakes one of the threads that wait, if there is one; that it may wake more of them
is no more than a spurious wakeup.
-/

namespace Osxie.WindowServer

open List Option Threads Prod RingBuffer Nat

def eventQueueSize : Nat := 256

/-- The `CGError` codes of the functions. -/
inductive CGError where
  | success
  | illegalArgument
  | failure
deriving DecidableEq

/-- The static variables, with the records that were accepted and those that were taken, by the thread that took them. -/
structure EventQueue (τ R : Type) where
  locked : Bool
  ring : RingBuffer R eventQueueSize
  accepted : List R
  taken : List (τ × R)

/-- Where a thread is. `idle` is outside the three functions, with what the last one returned; the others are the statement that
comes next. -/
inductive Place (R : Type) where
  | idle
  | posted (error : CGError)
  | got (record : R)
  | peeked (record : Option R)
  | postLock (record : R)
  | postTest (record : R)
  | postCopy (record : R)
  | postAdvance (record : R)
  | postSignal
  | postUnlock (error : CGError)
  | getLock
  | getTest
  | getCopy
  | getAdvance (out : R)
  | getUnlock (out : R)
  /-- blocked in `pthread_cond_wait` -/
  | waiting
  | peekLock
  | peekTest
  | peekCopy
  | peekUnlock (out : Option R)
deriving DecidableEq

namespace Place

variable {R : Type}

def outside : Place R → Bool
  | idle | posted _ | got _ | peeked _ => true
  | _ => false

def holds : Place R → Bool
  | postTest _ | postCopy _ | postAdvance _ | postSignal | postUnlock _ | getTest | getCopy | getAdvance _ | getUnlock _
  | peekTest | peekCopy | peekUnlock _ => true
  | _ => false

def sleeps : Place R → Bool
  | waiting => true
  | _ => false

def signals : Place R → Bool
  | postSignal => true
  | _ => false

/-- The thread is to take a record and not asleep, or is to send a signal. -/
def comes : Place R → Bool
  | getLock | getTest | getCopy | getAdvance _ | postSignal => true
  | _ => false

end Place

abbrev Pipeline (τ R : Type) := Threads τ (EventQueue τ R) (Place R)

/-- Who moves. -/
inductive EventAction (τ R : Type) where
  /-- a thread calls `CGSPostEventRecord2`, perhaps with a null pointer -/
  | post (t : τ) (record : Option R)
  | getNext (t : τ)
  | peek (t : τ)
  | advance (t : τ)
  /-- the signal of a thread wakes another one -/
  | signal (t u : τ)
  | wake (t : τ)
deriving DecidableEq

namespace EventQueue

variable {τ R : Type} (q : EventQueue τ R)

/-- `pthread_mutex_lock`, where the mutex is free. -/
def lock (place : Place R) : Option (EventQueue τ R × Place R) :=
  if q.locked then none else some ({ q with locked := true }, place)

def unlock : EventQueue τ R := { q with locked := false }

/-- One statement. A signal is a statement of its own kind, unless there is nobody to wake. -/
def advance (t : τ) (sleepers : Bool) : Place R → Option (EventQueue τ R × Place R)
  | .postLock record => q.lock (.postTest record)
  | .postTest record => some (q, if q.ring.Full then .postUnlock .failure else .postCopy record)
  | .postCopy record => some ({ q with ring := q.ring.write record }, .postAdvance record)
  | .postAdvance record => some ({ q with ring := q.ring.push, accepted := q.accepted ++ [record] }, .postSignal)
  | .postSignal => if sleepers then none else some (q, .postUnlock .success)
  | .postUnlock error => some (q.unlock, .posted error)
  | .getLock => q.lock .getTest
  | .getTest => some (if q.ring.Empty then (q.unlock, .waiting) else (q, .getCopy))
  | .getCopy => some (q, .getAdvance q.ring.front)
  | .getAdvance out => some ({ q with ring := q.ring.pop, taken := q.taken ++ [(t, out)] }, .getUnlock out)
  | .getUnlock out => some (q.unlock, .got out)
  | .peekLock => q.lock .peekTest
  | .peekTest => some (q, if q.ring.Empty then .peekUnlock none else .peekCopy)
  | .peekCopy => some (q, .peekUnlock (some q.ring.front))
  | .peekUnlock out => some (q.unlock, .peeked out)
  | .idle | .posted _ | .got _ | .peeked _ | .waiting => none

end EventQueue

/-- What a thread that holds the mutex has found out of the ring. -/
def Place.Found {τ R : Type} (q : EventQueue τ R) : Place R → Prop
  | .postCopy _ => ¬q.ring.Full
  | .postAdvance record => ¬q.ring.Full ∧ q.ring.slots q.ring.tail = record
  | .getCopy | .peekCopy => ¬q.ring.Empty
  | .getAdvance out => ¬q.ring.Empty ∧ q.ring.front = out
  | .peekUnlock none => q.ring.Empty
  | .peekUnlock (some out) => ¬q.ring.Empty ∧ q.ring.front = out
  | _ => True

namespace Pipeline

variable {τ R : Type} [DecidableEq τ] [Fintype τ]

/-- A queue with nothing in it, and threads that have not called yet. -/
def init (zero : R) : Pipeline τ R where
  word := ⟨false, .new (fun _ => zero) (by decide), [], []⟩
  pc _ := .idle

/-- One step. A null pointer is refused before the mutex is locked. -/
def step (s : Pipeline τ R) : EventAction τ R → Option (Pipeline τ R)
  | .post t none => if (s.pc t).outside then some (s.move t (.posted .illegalArgument)) else none
  | .post t (some record) => if (s.pc t).outside then some (s.move t (.postLock record)) else none
  | .getNext t => if (s.pc t).outside then some (s.move t .getLock) else none
  | .peek t => if (s.pc t).outside then some (s.move t .peekLock) else none
  | .advance t => (s.word.advance t (decide (∃ u, (s.pc u).sleeps = true)) (s.pc t)).map (s.set t)
  | .signal t u =>
    if (s.pc t).signals ∧ (s.pc u).sleeps then some ((s.move u .getLock).move t (.postUnlock .success)) else none
  | .wake t => if (s.pc t).sleeps then some (s.move t .getLock) else none

def machine (τ : Type) [DecidableEq τ] [Fintype τ] (zero : R) : Machine (Pipeline τ R) (EventAction τ R) where
  init := init zero
  step := step

/-! ## A bounded FIFO -/

/-- The records that were accepted and not taken yet, the oldest one first. -/
def untaken (s : Pipeline τ R) : List R := s.word.accepted.drop s.word.taken.length

/-- The queue is a bounded FIFO. The records are taken once and in the order in which they were accepted. A thread that tests
the ring for room finds none exactly if 255 records are not taken; a thread that takes a record, or peeks at one, has the oldest
one that is not taken. If there is one and a thread sleeps, another one is on its way to take it, or a signal is to come. -/
structure BoundedFifo (s : Pipeline τ R) : Prop where
  once : s.word.taken.map snd ++ s.untaken = s.word.accepted
  capacity : ∀ t record s', s.pc t = .postTest record → s.step (.advance t) = some s' →
    s'.pc t = if s.untaken.length = 255 then .postUnlock .failure else .postCopy record
  takes : ∀ t out, s.pc t = .getAdvance out → s.untaken.head? = some out
  peeks : ∀ t out, s.pc t = .peekUnlock out → s.untaken.head? = out
  awake : s.untaken ≠ [] → (∃ t, (s.pc t).sleeps = true) → ∃ t, (s.pc t).comes = true

/-! ## The invariant -/

/-- One thread holds the mutex, if any, and knows the ring; the ring holds the records that are not taken. If a thread sleeps,
as many threads are coming as there are records. -/
structure Inv (s : Pipeline τ R) : Prop where
  locked : (∃ t, (s.pc t).holds = true) → s.word.locked = true
  alone : ∀ t u, (s.pc t).holds = true → (s.pc u).holds = true → t = u
  found : ∀ t, Place.Found s.word (s.pc t)
  once : s.word.taken.map snd ++ s.word.ring.contents = s.word.accepted
  awake : (∃ t, (s.pc t).sleeps = true) → s.word.ring.contents.length ≤ s.count Place.comes

variable {s : Pipeline τ R} {t : τ} {q : EventQueue τ R} {p : Place R}

omit [DecidableEq τ] in
theorem inv_init (zero : R) : Inv (init zero : Pipeline τ R) where
  locked := fun ⟨_, h⟩ => Bool.noConfusion h
  alone := nofun
  found _ := trivial
  once := rfl
  awake := fun ⟨_, h⟩ => Bool.noConfusion h

omit [DecidableEq τ] [Fintype τ] in
/-- Only a thread that holds the mutex knows anything of the ring. -/
theorem found_of_not_holds (h : p.holds = false) : p.Found q := by
  cases p with
  | postCopy _ | postAdvance _ | getCopy | getAdvance _ | peekCopy | peekUnlock _ => cases h
  | _ => trivial

omit [DecidableEq τ] [Fintype τ] in
theorem eq_waiting_of_sleeps (h : (s.pc t).sleeps = true) : s.pc t = .waiting := by
  cases hpc : s.pc t with
  | waiting => rfl
  | _ => rw [hpc] at h; cases h

/-- A thread that does not fall asleep, and takes no record without having been counted, leaves enough threads that come. -/
theorem Inv.awake_set (h : Inv s) (hp : p.sleeps = false)
    (hle : q.ring.contents.length + (s.pc t).comes.toNat ≤ s.word.ring.contents.length + p.comes.toNat) :
    (∃ u, ((s.set t (q, p)).pc u).sleeps = true) → q.ring.contents.length ≤ (s.set t (q, p)).count Place.comes := by
  intro hw
  rcases exists_of_set (P := fun p : Place R => p.sleeps = true) hw with heq | hw
  · exact absurd heq (by rw [hp]; exact Bool.false_ne_true)
  have hcount : (s.set t (q, p)).count Place.comes + (s.pc t).comes.toNat = s.count Place.comes + p.comes.toNat :=
    s.count_set t (q, p) Place.comes
  have := h.awake hw
  omega

/-- A thread that does not hold the mutex goes on without it. -/
theorem Inv.move (h : Inv s) (hnew : p.holds = false) (hp : p.sleeps = false)
    (hcomes : (s.pc t).comes.toNat ≤ p.comes.toNat) : Inv (s.move t p) where
  locked hu := by
    rcases exists_of_set (P := fun p : Place R => p.holds = true) hu with hp | hu
    · rw [hnew] at hp
      cases hp
    · exact h.locked hu
  alone := one_set (P := fun p : Place R => p.holds = true) h.alone fun hp => absurd hp (by rw [hnew]; exact nofun)
  found := s.forall_set (fun _ p => p.Found s.word) (found_of_not_holds hnew) fun u _ => h.found u
  once := h.once
  awake := h.awake_set hp (by omega)

/-- The thread that holds the mutex goes on, or the one that gets it. -/
theorem inv_set (hln : ∀ u, (s.pc u).holds = true → u = t) (hloc : p.holds = true → q.locked = true)
    (hfound : p.Found q) (honce : q.taken.map snd ++ q.ring.contents = q.accepted)
    (hwk : (∃ u, ((s.set t (q, p)).pc u).sleeps = true) → q.ring.contents.length ≤ (s.set t (q, p)).count Place.comes) :
    Inv (s.set t (q, p)) := by
  have hoth : ∀ u, u ≠ t → (s.pc u).holds = false := fun u hne => by
    by_contra hu
    exact hne (hln u (by simpa using hu))
  have hholds := s.forall_set (a := (q, p)) (fun u p' => p'.holds = true → u = t ∧ p.holds = true)
    (fun hu => ⟨rfl, hu⟩) fun u hne hu => absurd (hln u hu) hne
  exact {
    locked := fun ⟨u, hu⟩ => hloc (hholds u hu).2
    alone := fun u v hu hv => (hholds u hu).1.trans (hholds v hv).1.symm
    found := s.forall_set (fun _ p => p.Found q) hfound fun u hne => found_of_not_holds (hoth u hne)
    once := honce
    awake := hwk }

variable {s' : Pipeline τ R}

/-- A thread gets the mutex, which nobody holds. -/
theorem Inv.lock (h : Inv s) (hst : (s.word.lock p).map (s.set t) = some s') (hfound : ∀ q : EventQueue τ R, p.Found q)
    (hp : p.sleeps = false) (hcomes : (s.pc t).comes.toNat ≤ p.comes.toNat) : Inv s' := by
  obtain ⟨⟨q, p'⟩, hlk, rfl⟩ := map_eq_some_iff.1 hst
  obtain ⟨hfr, hlk⟩ := ite_none_left_eq_some.1 hlk
  obtain ⟨rfl, rfl⟩ := mk.inj (some.inj hlk)
  refine inv_set (fun u hu => absurd (h.locked ⟨u, hu⟩) hfr) (fun _ => rfl) (hfound _) h.once (h.awake_set hp ?_)
  exact Nat.add_le_add_left hcomes _

/-- What a statement of the thread that holds the mutex does. It falls asleep only if the ring is empty, and gives up a signal
only if nobody sleeps. -/
structure Advances (q : EventQueue τ R) (p : Place R) (sleepers : Bool) (q' : EventQueue τ R) (p' : Place R) : Prop where
  locked : p'.holds = true → q'.locked = q.locked
  found : p'.Found q'
  once : q.taken.map snd ++ q.ring.contents = q.accepted → q'.taken.map snd ++ q'.ring.contents = q'.accepted
  awake : p'.sleeps = true ∧ q'.ring.contents = [] ∨ p'.sleeps = false ∧ (sleepers = false ∧ p.signals = true ∨
    q'.ring.contents.length + p.comes.toNat ≤ q.ring.contents.length + p'.comes.toNat)

omit [DecidableEq τ] [Fintype τ] in
theorem advances {sleepers : Bool} {q' : EventQueue τ R} {p' : Place R} (hold : p.holds = true) (hfound : p.Found q)
    (h : q.advance t sleepers p = some (q', p')) : Advances q p sleepers q' p' := by
  cases p with
  | postTest record =>
    cases h
    split
    · exact ⟨fun _ => rfl, trivial, id, .inr ⟨rfl, .inr le_rfl⟩⟩
    · exact ⟨fun _ => rfl, ‹_›, id, .inr ⟨rfl, .inr le_rfl⟩⟩
  | postCopy record =>
    cases h
    have hcn : (q.ring.write record).contents = q.ring.contents := q.ring.contents_write record
    exact ⟨fun _ => rfl, ⟨hfound, Function.update_self ..⟩, fun h => by rw [hcn]; exact h,
      .inr ⟨rfl, .inr (by rw [hcn]; exact le_rfl)⟩⟩
  | postAdvance record =>
    cases h
    have hcn : q.ring.push.contents = q.ring.contents ++ [record] := hfound.2 ▸ contents_push hfound.1
    refine ⟨fun _ => rfl, trivial, fun h => ?_, .inr ⟨rfl, .inr ?_⟩⟩
    · rw [hcn, ← append_assoc, h]
    · rw [hcn, length_append]
      exact le_rfl
  | postSignal =>
    obtain ⟨hno, h⟩ := ite_none_left_eq_some.1 h
    cases h
    exact ⟨fun _ => rfl, trivial, id, .inr ⟨rfl, .inl ⟨by simpa using hno, rfl⟩⟩⟩
  | getTest =>
    have h := some.inj h
    by_cases hemp : q.ring.Empty
    · rw [if_pos hemp] at h
      obtain ⟨rfl, rfl⟩ := mk.inj h
      exact ⟨nofun, trivial, id, .inl ⟨rfl, q.ring.empty_iff.1 hemp⟩⟩
    · rw [if_neg hemp] at h
      obtain ⟨rfl, rfl⟩ := mk.inj h
      exact ⟨fun _ => rfl, hemp, id, .inr ⟨rfl, .inr le_rfl⟩⟩
  | getCopy | peekCopy =>
    cases h
    exact ⟨fun _ => rfl, ⟨hfound, rfl⟩, id, .inr ⟨rfl, .inr le_rfl⟩⟩
  | getAdvance out =>
    cases h
    have hcn : q.ring.contents = out :: q.ring.pop.contents := hfound.2 ▸ contents_pop hfound.1
    refine ⟨fun _ => rfl, trivial, fun h => ?_, .inr ⟨rfl, .inr ?_⟩⟩
    · rw [hcn] at h
      simpa using h
    · rw [hcn]
      exact le_rfl
  | peekTest =>
    cases h
    split <;> exact ⟨fun _ => rfl, ‹_›, id, .inr ⟨rfl, .inr le_rfl⟩⟩
  | postUnlock _ | getUnlock _ | peekUnlock _ =>
    cases h
    exact ⟨nofun, trivial, id, .inr ⟨rfl, .inr le_rfl⟩⟩
  | idle | posted _ | got _ | peeked _ | postLock _ | getLock | waiting | peekLock => cases hold

/-- The thread that holds the mutex goes on. -/
theorem Inv.advance (h : Inv s) (hold : (s.pc t).holds = true) (hst : s.step (.advance t) = some s') : Inv s' := by
  obtain ⟨⟨q, p⟩, hadv, rfl⟩ := map_eq_some_iff.1 hst
  have ha := advances hold (h.found t) hadv
  refine inv_set (fun u hu => h.alone u t hu hold) (fun hp => (ha.locked hp).trans (h.locked ⟨t, hold⟩)) ha.found
    (ha.once h.once) ?_
  rcases ha.awake with ⟨-, hemp⟩ | ⟨hp, ⟨hno, -⟩ | hle⟩
  · intro _
    rw [hemp]
    exact zero_le _
  · intro hw
    rcases exists_of_set (P := fun p : Place R => p.sleeps = true) hw with heq | hw
    · exact absurd heq (by rw [hp]; exact Bool.false_ne_true)
    · exact absurd hw (of_decide_eq_false hno)
  · exact h.awake_set hp hle

/-- A signal moves a thread that sleeps to the mutex, for the thread that has sent it. -/
theorem Inv.signal (h : Inv s) {u : τ} (ht : (s.pc t).signals = true) (hu : (s.pc u).sleeps = true) :
    Inv ((s.move u .getLock).move t (.postUnlock .success)) := by
  have hpl : s.pc t = .postSignal := by
    cases hpc : s.pc t with
    | postSignal => rfl
    | _ => rw [hpc] at ht; cases ht
  have hsle := eq_waiting_of_sleeps hu
  have hwoken : Inv (s.move u .getLock) := h.move rfl rfl (by rw [hsle]; exact zero_le _)
  have hne : t ≠ u := by
    rintro rfl
    rw [hpl] at hsle
    cases hsle
  have hpc : (s.move u .getLock).pc t = .postSignal := (pc_set_of_ne hne _).trans hpl
  refine inv_set (fun v hv => hwoken.alone v t hv (by rw [hpc]; rfl)) (fun _ => h.locked ⟨t, by rw [hpl]; rfl⟩) trivial h.once ?_
  intro hw
  have hcount : ((s.move u .getLock).move t (.postUnlock .success)).count Place.comes + 1 =
      (s.move u .getLock).count Place.comes := by
    have hset := (s.move u .getLock).count_set t (s.word, .postUnlock .success) Place.comes
    rw [hpc] at hset
    exact hset
  have hcount' : (s.move u .getLock).count Place.comes = s.count Place.comes + 1 := by
    have hset := s.count_set u (s.word, .getLock) Place.comes
    rw [hsle] at hset
    exact hset
  have := h.awake ⟨u, hu⟩
  show s.word.ring.contents.length ≤ ((s.move u .getLock).move t (.postUnlock .success)).count Place.comes
  omega

/-- Every step keeps the invariant. -/
theorem Inv.step (h : Inv s) {a : EventAction τ R} (hst : s.step a = some s') : Inv s' := by
  have hts : ∀ {t : τ} {n : Nat}, (s.pc t).outside = true → (s.pc t).comes.toNat ≤ n := by
    intro t n ht
    cases hpc : s.pc t with
    | idle | posted _ | got _ | peeked _ => exact zero_le _
    | _ => rw [hpc] at ht; cases ht
  cases a with
  | post t record =>
    cases record with
    | none | some record =>
      obtain ⟨ht, rfl⟩ := of_guarded hst
      exact h.move rfl rfl (hts ht)
  | getNext t | peek t =>
    obtain ⟨ht, rfl⟩ := of_guarded hst
    exact h.move rfl rfl (hts ht)
  | advance t =>
    cases hold : (s.pc t).holds with
    | true => exact h.advance hold hst
    | false =>
      simp only [Pipeline.step] at hst
      generalize hpc : s.pc t = pc at hst hold
      cases pc with
      | postLock record | getLock | peekLock =>
        exact h.lock hst (fun _ => trivial) rfl (by rw [hpc]; exact le_rfl)
      | idle | posted _ | got _ | peeked _ | waiting => cases hst
      | _ => cases hold
  | signal t u =>
    obtain ⟨⟨ht, hu⟩, rfl⟩ := of_guarded hst
    exact h.signal ht hu
  | wake t =>
    obtain ⟨ht, rfl⟩ := of_guarded hst
    exact h.move rfl rfl (by rw [eq_waiting_of_sleeps ht]; exact zero_le _)

/-! ## The bounded FIFO -/

omit [DecidableEq τ] in
theorem Inv.untaken (h : Inv s) : s.untaken = s.word.ring.contents := by
  have hlen : s.word.taken.length = (s.word.taken.map snd).length := (length_map ..).symm
  rw [Pipeline.untaken, ← h.once, hlen, drop_left]

omit [DecidableEq τ] in
theorem Inv.head_untaken (h : Inv s) (hne : ¬s.word.ring.Empty) : s.untaken.head? = some s.word.ring.front := by
  rw [h.untaken, contents_pop hne]
  rfl

theorem Inv.boundedFifo (h : Inv s) : BoundedFifo s where
  once := by rw [h.untaken, h.once]
  capacity t record s' hpc hst := by
    simp only [Pipeline.step, hpc] at hst
    cases hst
    rw [pc_set_self]
    have hfu : s.word.ring.Full ↔ s.untaken.length = 255 := by
      rw [h.untaken, s.word.ring.full_iff]
      exact succ_inj
    exact if_congr hfu rfl rfl
  takes t out hpc := by
    obtain ⟨hne, hout⟩ : ¬s.word.ring.Empty ∧ s.word.ring.front = out := by
      have hfound := h.found t
      rwa [hpc] at hfound
    rw [h.head_untaken hne, hout]
  peeks t out hpc := by
    have hfound := h.found t
    rw [hpc] at hfound
    cases out with
    | none =>
      rw [h.untaken, s.word.ring.empty_iff.1 hfound]
      rfl
    | some out => rw [h.head_untaken hfound.1, hfound.2]
  awake hne hw := by
    rw [h.untaken] at hne
    have hpos := length_pos_iff.2 hne
    have hle := h.awake hw
    by_contra hno
    have hze : s.count Place.comes = 0 := count_eq_zero.2 fun t => by
      by_contra ht
      exact hno ⟨t, by simpa using ht⟩
    omega

/-- The event queue is a bounded FIFO, whatever its threads do. -/
theorem event_queue_fifo {zero : R} (h : (machine τ zero).Reachable s) : BoundedFifo s := by
  have hinv : Inv s := Machine.Reaches.invariant (inv_init zero) (fun hinv _ => hinv.step) h
  exact hinv.boundedFifo

/-- A thread waits; two records are posted, and the signal of the first one wakes it. -/
theorem event_queue_fifo_two : ∃ s, (machine (Fin 2) 0).Reachable s ∧ (s.word.accepted = [7, 8] ∧ s.word.taken = [(0, 7)]) ∧
    BoundedFifo s := by
  refine (Machine.exists_reachable_of_run
    [.getNext 0, .advance 0, .advance 0, .post 1 (some 7), .advance 1, .advance 1, .advance 1, .advance 1, .signal 1 0, .advance 1,
      .post 1 (some 8), .advance 1, .advance 1, .advance 1, .advance 1, .advance 1, .advance 1, .advance 0, .advance 0, .advance 0,
      .advance 0] ?_).imp fun s h => ⟨h.1, h.2, event_queue_fifo h.1⟩
  decide +kernel

/-- While a thread sleeps, as many threads are coming for a record, or are to signal, as there are records. -/
theorem sleepers_awaited {zero : R} (h : (machine τ zero).Reachable s) :
    (∀ t, (s.pc t).sleeps = false) ∨ s.untaken.length ≤ s.count Place.comes := by
  have hinv : Inv s := h.invariant (inv_init zero) fun hinv _ => hinv.step
  rw [hinv.untaken]
  exact or_iff_not_imp_left.2 fun hsl => hinv.awake (by simpa using hsl)

/-- Two threads wait, and the signal of the first of two records has woken one of them. -/
theorem sleepers_awaited_two : ∃ s, (machine (Fin 3) 0).Reachable s ∧
    ((s.pc 1).sleeps = true ∧ s.untaken = [7]) ∧ s.untaken.length ≤ s.count Place.comes := by
  obtain ⟨s, hr, hsl, hun⟩ : ∃ s, (machine (Fin 3) 0).Reachable s ∧ (s.pc 1).sleeps = true ∧ s.untaken = [7] :=
    Machine.exists_reachable_of_run [.getNext 0, .advance 0, .advance 0, .getNext 1, .advance 1, .advance 1, .post 2 (some 7),
      .advance 2, .advance 2, .advance 2, .advance 2, .signal 2 0] (by decide +kernel)
  exact ⟨s, hr, ⟨hsl, hun⟩, (sleepers_awaited hr).resolve_left fun hno => by simp [hno] at hsl⟩

end Pipeline

end Osxie.WindowServer
