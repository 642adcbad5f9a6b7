import Osxie.Lib.Machine

/-!
# The work queue

`WorkQueue` hands the items that are pushed to its worker threads. Permanent workers wait for items on a condition variable;
temporary ones, which `push` starts when no worker is available, wait for 15 seconds and then end. A worker looks at the queue
under the lock, before it waits and whenever it wakes up, for whatever reason.

Every section under the lock is one step. `push` notifies after it has dropped the lock; a notification wakes one of the workers
that wait, which has to take the lock again before it looks. `threadsAvailable` is the code's counter.
-/

namespace Osxie.Server

open List Option Machine Prod

/-- Where a worker is: before the lock, at the top of its loop; blocked on the condition variable; woken up, perhaps by its
timeout, and before the lock again; running an item; at its end. -/
inductive WorkerPlace (α : Type) where
  | starting
  | waiting
  | woken (timedOut : Bool)
  | running (item : α)
  | finished
deriving DecidableEq

namespace WorkerPlace

variable {α : Type}

def live : WorkerPlace α → Bool
  | .finished => false
  | _ => true

def blocked : WorkerPlace α → Bool
  | .waiting => true
  | _ => false

def active (place : WorkerPlace α) : Bool := place.live && !place.blocked

def wakeUp : WorkerPlace α → WorkerPlace α
  | .waiting => .woken false
  | place => place

end WorkerPlace

structure PoolWorker (α : Type) where
  permanent : Bool
  place : WorkerPlace α
deriving DecidableEq

/-- The configuration and the hardware concurrency. -/
structure PoolConfig where
  singleThreadedWorkQueue : Bool
  hardwareConcurrency : Nat

namespace PoolConfig

def minimumThreads (c : PoolConfig) : Nat := if c.singleThreadedWorkQueue then 1 else 2

def maximumThreads (c : PoolConfig) : Nat :=
  if c.singleThreadedWorkQueue = false ∧ 0 < c.hardwareConcurrency ∧ c.minimumThreads < c.hardwareConcurrency then
    c.hardwareConcurrency
  else
    c.minimumThreads

end PoolConfig

/-- A work queue. `notifying` counts the callers of `push` that have dropped the lock and not notified yet; `notifyingAll` is
the destructor before `notify_all`. `pushed` and `taken` record the items and the workers that took them. -/
structure WorkQueue (α : Type) where
  workItems : List α
  workers : List (PoolWorker α)
  threadsAvailable : Nat
  dying : Bool
  notifying : Nat
  notifyingAll : Bool
  pushed : List α
  taken : List (Nat × α)
deriving DecidableEq

/-- Who moves; workers are named by their position. -/
inductive WorkQueueAction (α : Type) where
  | push (item : α)
  /-- a notification wakes a worker, which may find that its time is over -/
  | notifyOne (i : Nat) (timedOut : Bool)
  /-- a notification finds no worker that waits -/
  | notifyNobody
  /-- a worker wakes up spuriously, or by its timeout -/
  | wake (i : Nat) (timedOut : Bool)
  /-- a worker takes the lock and looks at the queue -/
  | look (i : Nat)
  | finish (i : Nat)
  | shutdown
  | notifyAll
deriving DecidableEq

def WorkQueueAction.internal {α : Type} : WorkQueueAction α → Bool
  | .notifyOne _ _ | .look _ | .finish _ => true
  | _ => false

namespace WorkQueue

variable {α : Type}

def init (c : PoolConfig) : WorkQueue α where
  workItems := []
  workers := replicate c.minimumThreads ⟨true, .starting⟩
  threadsAvailable := 0
  dying := false
  notifying := 0
  notifyingAll := false
  pushed := []
  taken := []

variable (s : WorkQueue α)

def goto (i : Nat) (permanent : Bool) (place : WorkerPlace α) : WorkQueue α :=
  { s with workers := s.workers.set i ⟨permanent, place⟩ }

/-- The predicate of the wait, and what the worker does with its result. A temporary worker whose time is over ends when there
is no item. -/
def look (i : Nat) (permanent : Bool) (timedOut : Bool) : WorkQueue α :=
  if s.dying then
    { s with threadsAvailable := s.threadsAvailable - 1 }.goto i permanent .finished
  else
    match s.workItems with
    | item :: items =>
      { s with
        workItems := items
        threadsAvailable := s.threadsAvailable - 1
        taken := s.taken ++ [(i, item)] }.goto i permanent (.running item)
    | [] => s.goto i permanent (if timedOut then .finished else .waiting)

variable (c : PoolConfig)

/-- `WorkQueue::push` under the lock. -/
def push (item : α) : WorkQueue α :=
  let s := { s with workItems := s.workItems ++ [item], pushed := s.pushed ++ [item] }
  if s.threadsAvailable = 0 ∧ s.workers.countP (·.place.live) < c.maximumThreads then
    { s with workers := s.workers ++ [⟨false, .starting⟩] }
  else
    { s with notifying := s.notifying + 1 }

/-- One step. The time of a permanent worker is never over. -/
def step (s : WorkQueue α) : WorkQueueAction α → Option (WorkQueue α)
  | .push item => if s.dying then none else some (s.push c item)
  | .notifyOne i timedOut =>
    match s.workers[i]? with
    | some ⟨permanent, .waiting⟩ =>
      if 0 < s.notifying ∧ (timedOut → permanent = false) then
        some ({ s with notifying := s.notifying - 1 }.goto i permanent (.woken timedOut))
      else none
    | _ => none
  | .notifyNobody =>
    if 0 < s.notifying ∧ s.workers.all (fun w => !w.place.blocked) then
      some { s with notifying := s.notifying - 1 }
    else none
  | .wake i timedOut =>
    match s.workers[i]? with
    | some ⟨permanent, .waiting⟩ =>
      if timedOut → permanent = false then some (s.goto i permanent (.woken timedOut)) else none
    | _ => none
  | .look i =>
    match s.workers[i]? with
    | some ⟨permanent, .starting⟩ => some ({ s with threadsAvailable := s.threadsAvailable + 1 }.look i permanent false)
    | some ⟨permanent, .woken timedOut⟩ => some (s.look i permanent timedOut)
    | _ => none
  | .finish i =>
    match s.workers[i]? with
    | some ⟨permanent, .running _⟩ => some (s.goto i permanent .starting)
    | _ => none
  | .shutdown => if s.dying then none else some { s with dying := true, notifyingAll := true }
  | .notifyAll =>
    if s.notifyingAll then
      some { s with notifyingAll := false, workers := s.workers.map fun w => { w with place := w.place.wakeUp } }
    else none

def machine : Machine (WorkQueue α) (WorkQueueAction α) where
  init := init c
  step := step c

/-! ## Running items once -/

/-- The destructor is done: every worker has ended. -/
def Destroyed : Prop := s.dying = true ∧ ∀ w ∈ s.workers, w.place.live = false

/-- The workers and the notifications alone lead from one state to the other. -/
def Internally (c : PoolConfig) (s s' : WorkQueue α) : Prop :=
  ∃ actions, (machine c).run s actions = some s' ∧ ∀ a ∈ actions, a.internal = true

/-- Every item is taken by one worker, in the order of the pushes, or is queued. No item is queued while every live worker is
blocked and no notification is pending. As long as the destructor has not begun, the first item that is queued can be taken, and
all of them can, by steps of the workers and the notifications alone; when it has begun, no item is taken any more. -/
structure RunsOnce (c : PoolConfig) (s : WorkQueue α) : Prop where
  once : s.taken.map snd ++ s.workItems = s.pushed
  awake : s.workItems ≠ [] → (∃ w ∈ s.workers, w.place.live = true) →
    (∃ w ∈ s.workers, w.place.active = true) ∨ 0 < s.notifying ∨ s.notifyingAll = true
  next : s.dying = false → ∀ item items, s.workItems = item :: items →
    ∃ i s', Internally c s s' ∧ s'.workItems = items ∧ s'.taken = s.taken ++ [(i, item)]
  all : s.dying = false → ∃ s', Internally c s s' ∧ s'.workItems = [] ∧ s'.taken.map snd = s.pushed
  dropped : s.dying = true → ∀ actions s', (machine c).run s actions = some s' → s'.workItems = s.workItems ∧ s'.taken = s.taken

/-! ## The invariant -/

/-- A worker waits only when there is no item, but for the items that a notification is pending for. Permanent workers end
with the queue. -/
structure Inv (s : WorkQueue α) : Prop where
  once : s.taken.map snd ++ s.workItems = s.pushed
  awake : s.workItems ≠ [] → s.dying = false → (∃ w ∈ s.workers, w.place.active = true) ∨ 0 < s.notifying
  unblocked : s.dying = true → s.notifyingAll = false → ∀ w ∈ s.workers, w.place.blocked = false
  permanent : ∃ w ∈ s.workers, w.permanent = true
  stays : s.dying = false → ∀ w ∈ s.workers, w.permanent = true → w.place.live = true
  timed : ∀ w ∈ s.workers, w.permanent = true → w.place ≠ .woken true

theorem inv_init : Inv (init c : WorkQueue α) := by
  have hw : ∀ w ∈ (init c : WorkQueue α).workers, w = ⟨true, .starting⟩ := fun w hw => eq_of_mem_replicate hw
  have hmin : 0 < c.minimumThreads := by
    unfold PoolConfig.minimumThreads
    split <;> omega
  exact {
    once := rfl
    awake := fun hne => absurd rfl hne
    unblocked := nofun
    permanent := ⟨⟨true, .starting⟩, mem_replicate.2 ⟨by omega, rfl⟩, rfl⟩
    stays := fun _ w h _ => by rw [hw w h]; rfl
    timed := fun w h _ => by rw [hw w h]; nofun }

variable {s : WorkQueue α}

/-- A worker that waits or not, by what it is. -/
theorem active_of_live {place : WorkerPlace α} (hlv : place.live = true) (hblock : place.blocked = false) :
    place.active = true := by
  simp [WorkerPlace.active, hlv, hblock]

variable {i : Nat} {permanent : Bool} {old : WorkerPlace α} {c : PoolConfig} {items : List α} {w : PoolWorker α} {item : α}

/-- The workers after one of them went somewhere: that one, and the others. -/
theorem mem_goto {place : WorkerPlace α} (hw : w ∈ (s.goto i permanent place).workers) :
    w = ⟨permanent, place⟩ ∨ w ∈ s.workers := by
  rcases mem_or_eq_of_mem_set hw with hw | hw
  · exact .inr hw
  · exact .inl hw

/-- The worker that went somewhere is there. -/
theorem mem_goto_self (hi : s.workers[i]? = some ⟨permanent, old⟩) (place : WorkerPlace α) :
    ⟨permanent, place⟩ ∈ (s.goto i permanent place).workers := by
  obtain ⟨hlt, _⟩ := List.getElem?_eq_some_iff.1 hi
  exact mem_set hlt _

section

variable (h : Inv s)

include h

/-- A permanent worker stays among the workers, wherever one of them goes. -/
theorem Inv.permanent_goto (hi : s.workers[i]? = some ⟨permanent, old⟩) (place : WorkerPlace α) :
    ∃ w ∈ (s.goto i permanent place).workers, w.permanent = true := by
  obtain ⟨w, hw, hpm⟩ := h.permanent
  obtain ⟨j, hj, hget⟩ := getElem_of_mem hw
  by_cases hij : i = j
  · subst hij
    rw [getElem?_eq_getElem hj, hget, some.injEq] at hi
    subst hi
    exact ⟨_, mem_goto_self (by rw [getElem?_eq_getElem hj, hget]) place, hpm⟩
  · refine ⟨w, ?_, hpm⟩
    have hj' : j < (s.goto i permanent place).workers.length := by simpa [goto] using hj
    have : (s.goto i permanent place).workers[j] = w := by simp [goto, getElem_set_ne hij, hget]
    exact this ▸ getElem_mem hj'

/-- A worker goes somewhere where it goes on by itself, or ends or waits when there is nothing to do. -/
theorem Inv.goto {old place : WorkerPlace α} (hi : s.workers[i]? = some ⟨permanent, old⟩)
    (hactive : place.active = true ∨ s.workItems = [] ∨ s.dying = true) (hblock : s.dying = true → place.blocked = false)
    (hsty : s.dying = false → permanent = true → place.live = true) (htm : permanent = true → place ≠ .woken true) :
    Inv (s.goto i permanent place) where
  once := h.once
  awake hne hd := by
    rcases hactive with hact | hnil | hdyn
    · exact .inl ⟨_, mem_goto_self hi place, hact⟩
    · exact absurd hnil hne
    · rw [show s.dying = false from hd] at hdyn
      cases hdyn
  unblocked hd ha w hw := by
    rcases mem_goto hw with rfl | hw
    · exact hblock hd
    · exact h.unblocked hd ha w hw
  permanent := h.permanent_goto hi place
  stays hd w hw hpm := by
    rcases mem_goto hw with rfl | hw
    · exact hsty hd hpm
    · exact h.stays hd w hw hpm
  timed w hw hpm := by
    rcases mem_goto hw with rfl | hw
    · exact htm hpm
    · exact h.timed w hw hpm

/-- The counter of the available threads plays no part in what a queue promises. -/
theorem Inv.available (n : Nat) : Inv { s with threadsAvailable := n } := { h with }

theorem Inv.look {permanent timedOut : Bool} (hi : s.workers[i]? = some ⟨permanent, old⟩)
    (htm : timedOut = true → permanent = false) : Inv (s.look i permanent timedOut) := by
  unfold WorkQueue.look
  split
  · rename_i hd
    exact (h.available _).goto hi (.inr (.inr hd)) (fun _ => rfl)
      (fun hd' => by rw [show s.dying = false from hd'] at hd; cases hd) (fun _ => nofun)
  · rename_i hd
    have hd : s.dying = false := by simpa using hd
    split
    · rename_i item items hit
      have hrn : (s.goto i permanent (.running item)).Inv := h.goto hi (.inl rfl) (fun _ => rfl) (fun _ _ => rfl) (fun _ => nofun)
      exact { hrn with
        once := by
          rw [← h.once, hit]
          simp [WorkQueue.goto]
        awake := fun _ _ => .inl ⟨_, mem_goto_self hi (.running item), rfl⟩ }
    · rename_i hit
      refine h.goto hi (.inr (.inl hit)) (fun hd' => by rw [hd] at hd'; cases hd') (fun _ hpm => ?_) (fun _ => ?_)
      · have : timedOut = false := by
          by_contra ht
          rw [htm (by simpa using ht)] at hpm
          cases hpm
        rw [this]
        rfl
      · split <;> nofun

theorem Inv.push (c : PoolConfig) (item : α) : Inv (s.push c item) := by
  have honce : s.taken.map snd ++ (s.workItems ++ [item]) = s.pushed ++ [item] := by
    rw [← h.once, append_assoc]
  unfold WorkQueue.push
  dsimp only
  split
  · -- the new worker looks at the queue before it waits
    exact {
      once := honce
      awake := fun _ _ => .inl ⟨⟨false, .starting⟩, by simp, rfl⟩
      unblocked := fun hd ha w hw => by
        rcases mem_append.1 hw with hw | hw
        · exact h.unblocked hd ha w hw
        · rw [mem_singleton.1 hw]
          rfl
      permanent := by
        obtain ⟨w, hw, hpm⟩ := h.permanent
        exact ⟨w, mem_append_left _ hw, hpm⟩
      stays := fun hd w hw hpm => by
        rcases mem_append.1 hw with hw | hw
        · exact h.stays hd w hw hpm
        · rw [mem_singleton.1 hw]
          rfl
      timed := fun w hw hpm => by
        rcases mem_append.1 hw with hw | hw
        · exact h.timed w hw hpm
        · rw [mem_singleton.1 hw]
          nofun }
  · exact { h with once := honce, awake := fun _ _ => .inr (Nat.succ_pos _) }

/-- Before the queue is destroyed some worker is alive. -/
theorem Inv.exists_live (hd : s.dying = false) : ∃ w ∈ s.workers, w.place.live = true := by
  obtain ⟨w, hw, hpm⟩ := h.permanent
  exact ⟨w, hw, h.stays hd w hw hpm⟩

theorem Inv.notifyNobody (hno : s.workers.all (fun w => !w.place.blocked) = true) :
    Inv { s with notifying := s.notifying - 1 } := by
  refine { h with awake := fun _ hd => .inl ?_ }
  obtain ⟨w, hw, hlv⟩ := h.exists_live hd
  exact ⟨w, hw, active_of_live hlv (by simpa using all_eq_true.1 hno w hw)⟩

theorem Inv.notifyAll :
    Inv { s with notifyingAll := false, workers := s.workers.map fun w => { w with place := w.place.wakeUp } } where
  once := h.once
  awake hne hd := by
    rcases h.awake hne hd with ⟨w, hw, hact⟩ | hn
    · refine .inl ⟨_, mem_map.2 ⟨w, hw, rfl⟩, ?_⟩
      obtain ⟨permanent, place⟩ := w
      cases place with
      | waiting | finished => cases hact
      | starting | woken _ | running _ => rfl
    · exact .inr hn
  unblocked _ _ w hw := by
    obtain ⟨v, _, rfl⟩ := mem_map.1 hw
    obtain ⟨permanent, place⟩ := v
    cases place <;> rfl
  permanent := by
    obtain ⟨w, hw, hpm⟩ := h.permanent
    exact ⟨_, mem_map.2 ⟨w, hw, rfl⟩, hpm⟩
  stays hd w hw hpm := by
    obtain ⟨v, hv, rfl⟩ := mem_map.1 hw
    have hlv := h.stays hd v hv hpm
    obtain ⟨permanent, place⟩ := v
    cases place with
    | finished => cases hlv
    | starting | waiting | woken _ | running _ => rfl
  timed w hw hpm := by
    obtain ⟨v, hv, rfl⟩ := mem_map.1 hw
    have htm := h.timed v hv hpm
    obtain ⟨permanent, place⟩ := v
    cases place with
    | waiting => nofun
    | starting | woken _ | running _ | finished => exact htm

/-- Every step keeps the invariant. -/
theorem Inv.step {a : WorkQueueAction α} {s' : WorkQueue α} (hs : s.step c a = some s') : Inv s' := by
  cases a with
  | push item =>
    obtain ⟨_, hs⟩ := ite_none_left_eq_some.1 hs
    exact some.inj hs ▸ h.push c item
  | notifyOne i timedOut =>
    simp only [WorkQueue.step] at hs
    split at hs
    · rename_i permanent hi
      obtain ⟨⟨_, htm⟩, rfl⟩ := of_guarded hs
      have hwoken : (s.goto i permanent (.woken timedOut)).Inv := by
        refine h.goto hi (.inl rfl) (fun _ => rfl) (fun _ _ => rfl) fun hpm hx => ?_
        cases hx
        rw [htm rfl] at hpm
        cases hpm
      exact { hwoken with awake := fun _ _ => .inl ⟨_, mem_goto_self hi (.woken timedOut), rfl⟩ }
    · cases hs
  | notifyNobody =>
    obtain ⟨⟨_, hno⟩, rfl⟩ := of_guarded hs
    exact h.notifyNobody hno
  | wake i timedOut =>
    simp only [WorkQueue.step] at hs
    split at hs
    · rename_i permanent hi
      obtain ⟨htm, rfl⟩ := of_guarded hs
      refine h.goto hi (.inl rfl) (fun _ => rfl) (fun _ _ => rfl) fun hpm hx => ?_
      cases hx
      rw [htm rfl] at hpm
      cases hpm
    · cases hs
  | look i =>
    simp only [WorkQueue.step] at hs
    split at hs
    · rename_i permanent hi
      exact some.inj hs ▸ (h.available _).look hi nofun
    · rename_i permanent timedOut hi
      refine some.inj hs ▸ h.look hi fun ht => ?_
      by_contra hpm
      exact h.timed _ (mem_of_getElem? hi) (by simpa using hpm) (by rw [ht])
    · cases hs
  | finish i =>
    simp only [WorkQueue.step] at hs
    split at hs <;> cases hs
    rename_i permanent item hi
    exact h.goto hi (.inl rfl) (fun _ => rfl) (fun _ _ => rfl) (fun _ => nofun)
  | shutdown =>
    obtain ⟨_, hs⟩ := ite_none_left_eq_some.1 hs
    cases hs
    exact { h with awake := nofun, unblocked := nofun, stays := nofun }
  | notifyAll =>
    obtain ⟨_, rfl⟩ := of_guarded hs
    exact h.notifyAll

/-! ## Items are run once -/

omit h in
/-- A worker that looks at the queue takes its first item. -/
theorem look_takes (hd : s.dying = false) (hit : s.workItems = item :: items) (i : Nat) (permanent timedOut : Bool) :
    (s.look i permanent timedOut).workItems = items ∧ (s.look i permanent timedOut).taken = s.taken ++ [(i, item)] := by
  unfold WorkQueue.look
  rw [if_neg (by rw [hd]; exact Bool.false_ne_true), hit]
  exact ⟨rfl, rfl⟩

omit h in
theorem Internally.cons {a : WorkQueueAction α} {s₁ s' : WorkQueue α} (ha : a.internal = true) (hs : s.step c a = some s₁)
    (h : Internally c s₁ s') : Internally c s s' := by
  obtain ⟨actions, hrun, hint⟩ := h
  exact ⟨a :: actions, (run_cons hs).trans hrun, forall_mem_cons.2 ⟨ha, hint⟩⟩

omit h in
theorem Internally.refl (s : WorkQueue α) : Internally c s s := ⟨[], rfl, nofun⟩

omit h in
/-- A worker that goes on by itself gets to the first item. -/
theorem exists_take_of_active (hd : s.dying = false) (hit : s.workItems = item :: items) (hw : w ∈ s.workers)
    (hact : w.place.active = true) :
    ∃ i s', Internally c s s' ∧ s'.workItems = items ∧ s'.taken = s.taken ++ [(i, item)] := by
  obtain ⟨i, hlt, hget⟩ := getElem_of_mem hw
  have hi : s.workers[i]? = some w := by rw [getElem?_eq_getElem hlt, hget]
  obtain ⟨permanent, place⟩ := w
  have hlook {s : WorkQueue α} (hd : s.dying = false) (hit : s.workItems = item :: items)
      (hi : s.workers[i]? = some ⟨permanent, .starting⟩) :
      ∃ s', step c s (.look i) = some s' ∧ s'.workItems = items ∧ s'.taken = s.taken ++ [(i, item)] := by
    obtain ⟨h1, h2⟩ := look_takes (s := { s with threadsAvailable := s.threadsAvailable + 1 }) hd hit i permanent false
    exact ⟨_, by simp only [step, hi], h1, h2⟩
  cases place with
  | starting =>
    obtain ⟨s', hst, h1, h2⟩ := hlook hd hit hi
    exact ⟨i, s', .cons rfl hst (.refl s'), h1, h2⟩
  | woken timedOut =>
    obtain ⟨h1, h2⟩ := look_takes hd hit i permanent timedOut
    have hst : step c s (.look i) = some (s.look i permanent timedOut) := by simp only [step, hi]
    exact ⟨i, _, .cons rfl hst (.refl _), h1, h2⟩
  | running other =>
    have hfin : step c s (.finish i) = some (s.goto i permanent .starting) := by simp only [step, hi]
    obtain ⟨s', hst, h1, h2⟩ := hlook (s := s.goto i permanent .starting) hd hit (by simp [WorkQueue.goto, getElem?_set_self hlt])
    exact ⟨i, s', .cons rfl hfin (.cons rfl hst (.refl s')), h1, h2⟩
  | waiting | finished => cases hact

/-- The first item of a queue that is not destroyed can be taken. -/
theorem Inv.next (hd : s.dying = false) (hit : s.workItems = item :: items) :
    ∃ i s', Internally c s s' ∧ s'.workItems = items ∧ s'.taken = s.taken ++ [(i, item)] := by
  rcases h.awake (by rw [hit]; nofun) hd with ⟨w, hw, hact⟩ | hn
  · exact exists_take_of_active hd hit hw hact
  · -- the notification wakes a worker that waits; if none does, one that is alive goes on by itself
    obtain ⟨w, hw, hlv⟩ := h.exists_live hd
    cases hblock : w.place.blocked with
    | false => exact exists_take_of_active hd hit hw (active_of_live hlv hblock)
    | true =>
      obtain ⟨i, hlt, hget⟩ := getElem_of_mem hw
      obtain ⟨permanent, place⟩ := w
      cases place with
      | starting | woken _ | running _ | finished => cases hblock
      | waiting =>
        have hi : s.workers[i]? = some ⟨permanent, .waiting⟩ := by rw [getElem?_eq_getElem hlt, hget]
        have hwoken : ⟨permanent, .woken false⟩ ∈
            ({ s with notifying := s.notifying - 1 }.goto i permanent (.woken false)).workers :=
          mem_goto_self hi (.woken false)
        have hst : WorkQueue.step c s (.notifyOne i false) =
            some ({ s with notifying := s.notifying - 1 }.goto i permanent (.woken false)) := by
          simp [WorkQueue.step, hi, hn]
        obtain ⟨j, s', hint, h1, h2⟩ := exists_take_of_active
          (s := { s with notifying := s.notifying - 1 }.goto i permanent (.woken false)) hd hit hwoken rfl
        exact ⟨j, s', .cons rfl hst hint, h1, h2⟩

/-- No item is queued while every live worker is blocked, unless a notification is pending. -/
theorem Inv.not_stuck (hne : s.workItems ≠ []) (hlv : ∃ w ∈ s.workers, w.place.live = true) :
    (∃ w ∈ s.workers, w.place.active = true) ∨ 0 < s.notifying ∨ s.notifyingAll = true := by
  cases hd : s.dying with
  | false =>
    rcases h.awake hne hd with hact | hn
    · exact .inl hact
    · exact .inr (.inl hn)
  | true =>
    cases ha : s.notifyingAll with
    | true => exact .inr (.inr rfl)
    | false =>
      obtain ⟨w, hw, hw'⟩ := hlv
      exact .inl ⟨w, hw, active_of_live hw' (h.unblocked hd ha w hw)⟩

end

theorem inv_of_reachable (h : (machine c).Reachable s) : Inv s :=
  Machine.Reaches.invariant (inv_init c) (fun hinv _ => hinv.step) h

theorem look_frame (s : WorkQueue α) (i : Nat) (permanent timedOut : Bool) :
    (s.look i permanent timedOut).dying = s.dying ∧ (s.look i permanent timedOut).pushed = s.pushed := by
  unfold WorkQueue.look
  split
  · exact ⟨rfl, rfl⟩
  · split <;> exact ⟨rfl, rfl⟩

/-- Workers and notifications push no item and do not begin the destructor. -/
theorem internal_frame {a : WorkQueueAction α} {s' : WorkQueue α} (ha : a.internal = true) (hs : s.step c a = some s') :
    s'.dying = s.dying ∧ s'.pushed = s.pushed := by
  cases a with
  | push | notifyNobody | wake | shutdown | notifyAll => cases ha
  | notifyOne i timedOut =>
    simp only [step] at hs
    split at hs
    · obtain ⟨-, rfl⟩ := of_guarded hs
      exact ⟨rfl, rfl⟩
    · cases hs
  | look i =>
    simp only [step] at hs
    split at hs
    · exact some.inj hs ▸ look_frame _ i _ false
    · exact some.inj hs ▸ look_frame _ i _ _
    · cases hs
  | finish i =>
    simp only [step] at hs
    split at hs <;> cases hs
    exact ⟨rfl, rfl⟩

/-- All the items can be taken, one after the other. -/
theorem exists_take_all (h : (machine c).Reachable s) (hd : s.dying = false) :
    ∃ s', Internally c s s' ∧ s'.workItems = [] ∧ s'.taken.map snd = s.pushed := by
  generalize hit : s.workItems = items
  induction items generalizing s with
  | nil =>
    have honce := (inv_of_reachable h).once
    rw [hit, append_nil] at honce
    exact ⟨s, .refl s, hit, honce⟩
  | cons item items ih =>
    obtain ⟨i, s₁, ⟨first, hrun, hint⟩, hitems, -⟩ := (inv_of_reachable h).next (c := c) hd hit
    obtain ⟨hd₁, hpush⟩ : s₁.dying = s.dying ∧ s₁.pushed = s.pushed := by
      refine run_keeps (P := fun x => x.dying = s.dying ∧ x.pushed = s.pushed) (fun ha hx hst => ?_) ⟨rfl, rfl⟩ hrun
      obtain ⟨h1, h2⟩ := internal_frame (hint _ ha) hst
      exact ⟨h1.trans hx.1, h2.trans hx.2⟩
    obtain ⟨s', ⟨rest, hrun', hint'⟩, hnil, htaken⟩ := ih (Reaches.runOk h hrun) (hd₁.trans hd) hitems
    exact ⟨s', ⟨first ++ rest, run_append hrun hrun', forall_mem_append.2 ⟨hint, hint'⟩⟩, hnil, htaken.trans hpush⟩

theorem look_dying (hd : s.dying = true) (i : Nat) (permanent timedOut : Bool) :
    (s.look i permanent timedOut).dying = true ∧ (s.look i permanent timedOut).workItems = s.workItems ∧
      (s.look i permanent timedOut).taken = s.taken := by
  unfold WorkQueue.look
  rw [if_pos hd]
  exact ⟨hd, rfl, rfl⟩

/-- When the destructor has begun, a step takes no item. -/
theorem step_dying {a : WorkQueueAction α} {s' : WorkQueue α} (hd : s.dying = true) (hs : s.step c a = some s') :
    s'.dying = true ∧ s'.workItems = s.workItems ∧ s'.taken = s.taken := by
  cases a with
  | push item | shutdown =>
    rw [step, if_pos hd] at hs
    cases hs
  | notifyOne i timedOut | wake i timedOut =>
    simp only [step] at hs
    split at hs
    · obtain ⟨-, rfl⟩ := of_guarded hs
      exact ⟨hd, rfl, rfl⟩
    · cases hs
  | notifyNobody | notifyAll =>
    obtain ⟨-, rfl⟩ := of_guarded hs
    exact ⟨hd, rfl, rfl⟩
  | look i =>
    simp only [step] at hs
    split at hs
    · exact some.inj hs ▸ look_dying (s := { s with threadsAvailable := s.threadsAvailable + 1 }) hd i _ false
    · exact some.inj hs ▸ look_dying hd i _ _
    · cases hs
  | finish i =>
    simp only [step] at hs
    split at hs <;> cases hs
    exact ⟨hd, rfl, rfl⟩

/-- Every item is run once and in order as long as the destructor has not begun, and no wakeup is lost. -/
theorem items_run_once (h : (machine c).Reachable s) : RunsOnce c s where
  once := (inv_of_reachable h).once
  awake hne hlv := (inv_of_reachable h).not_stuck hne hlv
  next hd _ _ hit := (inv_of_reachable h).next hd hit
  all hd := exists_take_all h hd
  dropped hd _ _ hrun := by
    have hkept := run_keeps (P := fun x => x.dying = true ∧ x.workItems = s.workItems ∧ x.taken = s.taken)
      (fun _ hx hst => (step_dying hx.1 hst).imp_right fun h => ⟨h.1.trans hx.2.1, h.2.trans hx.2.2⟩) ⟨hd, rfl, rfl⟩ hrun
    exact hkept.2

/-- Two items, for one worker that waits and is notified twice. -/
theorem items_run_once_two : ∃ s, (machine ⟨true, 1⟩).run (init ⟨true, 1⟩) [.look 0, .push 7, .push 8, .notifyOne 0 false,
      .notifyNobody, .look 0, .finish 0, .look 0] = some s ∧ s.taken = [(0, 7), (0, 8)] ∧ RunsOnce ⟨true, 1⟩ s := by
  refine (exists_of_runOk ?_).imp fun s h => ⟨h.1, h.2, items_run_once (reaches_of_runOk h.1)⟩
  decide

/-- An item that is still queued when the destructor begins is taken by no worker. -/
theorem items_run_once_false :
    ¬∀ (c : PoolConfig) (s : WorkQueue Nat), (machine c).Reachable s → s.Destroyed → s.taken.map snd = s.pushed := by
  intro h
  obtain ⟨s, hs, hd, hall, htak, hpu⟩ := exists_reachable_of_run (M := machine ⟨true, 1⟩)
    [.look 0, .push 7, .shutdown, .notifyOne 0 false, .look 0, .notifyAll]
    (P := fun s => s.dying ∧ (∀ w ∈ s.workers, w.place.live = false) ∧ s.taken = [] ∧ s.pushed = [7]) (by decide)
  have := h ⟨true, 1⟩ s hs ⟨hd, hall⟩
  rw [htak, hpu] at this
  cases this

end WorkQueue

end Osxie.Server
