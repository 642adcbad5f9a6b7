import Mathlib.Data.List.Nodup
import Osxie.DuctTape.MutualExclusion

/-!
# The waiters of a free mutex

An unlock clears the owner word and takes the first link out of the queue, but does not hand the mutex over: the microthread it
resumes tests the owner word again, and may have to wait once more. A free mutex with a queue is not stuck while some
microthread that was taken out has not tested the word since: it will take the mutex, and unlock it later, or find an owner,
who will.

The mutex is recorded along with those microthreads. try_lock, which works outside the queue lock, is not called.
-/

namespace Osxie.DuctTape

open List Option Caller

/-- A mutex, and the microthreads that an unlock took out of the queue and that have not tested the owner word since. -/
structure Wakeups where
  mutex : Mutex
  removed : Nat → Bool

namespace Wakeups

open Mutex
open Function (update update_self update_of_ne update_idem forall_update_iff)

/-- Nobody has been removed yet. -/
def init : Wakeups := ⟨Mutex.init, fun _ => false⟩

/-- What a step changes in the record: an unlock takes the first microthread out, a microthread tests the owner word. -/
def record (s : Wakeups) : Action → Nat → Bool
  | .advance c =>
    match s.mutex.pc c, s.mutex.queue, c.self with
    | .unlockFirst, t :: _, _ => update s.removed t true
    | .lockTestZero, _, some t => update s.removed t false
    | _, _, _ => s.removed
  | _ => s.removed

def step (s : Wakeups) (a : Action) : Option Wakeups := (s.mutex.step a).map fun mutex => ⟨mutex, s.record a⟩

def machine : Machine Wakeups Action where
  init := init
  step := step

/-! ## A free mutex has a taker -/

def OnlyLocks (_ : Wakeups) : Action → Prop
  | .tryLock _ => False
  | _ => True

instance (s : Wakeups) (a : Action) : Decidable (OnlyLocks s a) := by
  rcases a <;> unfold OnlyLocks <;> infer_instance

/-- The owner word is 0, and no caller is between the clearing of the word and the look at the queue, or between a test that
found 0 and the write. -/
structure Free (s : Mutex) : Prop where
  owner : s.owner = none
  unlocked : ∀ c, s.pc c ≠ .unlockFirst
  untaken : ∀ c, s.pc c ≠ .lockWrite

/-- A microthread that an unlock has taken out of the queue, and that is on its way to test the owner word: it is about to be
resumed, or in the work queue, or before the test. -/
structure Awake (s : Wakeups) (t : Nat) : Prop where
  removed : s.removed t = true
  not_queued : t ∉ s.mutex.queue
  coming : s.mutex.pc (.micro t) = .asleep ∧ (t ∈ s.mutex.scheduled ∨ ∃ c, s.mutex.pc c = .unlockResume t) ∨
    s.mutex.pc (.micro t) = .lockAcquire ∨ s.mutex.pc (.micro t) = .lockTestZero

/-! ## The invariant -/

def waits : Pc → Bool
  | .lockSuspend | .lockSuspendRelease | .asleep => true
  | _ => false

def foundOwner : Pc → Bool
  | .lockTestSelf | .lockEnqueue => true
  | _ => false

def tries : Pc → Bool
  | .nativeTry | .nativeTryTest | .nativeTryRelease | .tryAssert | .tryTestZero | .tryTestSelf | .tryWrite | .tryRelease => true
  | _ => false

/-- Where the microthreads of the queue, of the record and of the work queue are, and that a mutex without an owner and with a
queue has somebody who will see to it. -/
structure Waiters (s : Wakeups) : Prop where
  once : s.mutex.queue.Nodup
  queued : ∀ t ∈ s.mutex.queue, waits (s.mutex.pc (.micro t)) = true ∧ s.removed t = false
  found : ∀ c, foundOwner (s.mutex.pc c) = true → s.mutex.owner ≠ none
  removed : ∀ t, s.removed t = true → s.mutex.pc (.micro t) = .asleep ∧
    (t ∈ s.mutex.scheduled ∨ ∃ c, s.mutex.pc c = .unlockResume t) ∨
    s.mutex.pc (.micro t) = .lockAcquire ∨ s.mutex.pc (.micro t) = .lockTestZero
  scheduled : ∀ t ∈ s.mutex.scheduled, s.mutex.pc (.micro t) = .asleep ∧ s.removed t = true
  scheduled_once : s.mutex.scheduled.Nodup
  resuming : ∀ c t, s.mutex.pc c = .unlockResume t → s.mutex.pc (.micro t) = .asleep ∧ s.removed t = true ∧ t ∉ s.mutex.scheduled
  seen : s.mutex.owner = none → s.mutex.queue = [] ∨ (∃ t, s.removed t = true) ∨ (∃ c, s.mutex.pc c = .unlockFirst) ∨
    ∃ c, s.mutex.pc c = .lockWrite

/-- The invariant: mutual exclusion, no try_lock, and the waiters. -/
structure Inv (s : Wakeups) : Prop where
  placed : Mutex.Inv s.mutex
  no_try : ∀ c, tries (s.mutex.pc c) = false
  waiters : Waiters s

theorem inv_init : Inv init where
  placed := Mutex.inv_init
  no_try _ := rfl
  waiters := {
    once := nodup_nil
    queued := fun _ h => absurd h not_mem_nil
    found := nofun
    removed := nofun
    scheduled := fun _ h => absurd h not_mem_nil
    scheduled_once := nodup_nil
    resuming := nofun
    seen := fun _ => .inl rfl }

variable {s : Wakeups} {c : Caller} {pc : Pc} {m : Mutex} {removed : Nat → Bool}

/-! ## One microthread -/

/-- What the invariant says of one microthread. -/
structure Standing (s : Wakeups) (t : Nat) : Prop where
  queued : t ∈ s.mutex.queue → waits (s.mutex.pc (.micro t)) = true ∧ s.removed t = false
  removed : s.removed t = true → s.mutex.pc (.micro t) = .asleep ∧ (t ∈ s.mutex.scheduled ∨ ∃ c, s.mutex.pc c = .unlockResume t) ∨
    s.mutex.pc (.micro t) = .lockAcquire ∨ s.mutex.pc (.micro t) = .lockTestZero
  scheduled : t ∈ s.mutex.scheduled → s.mutex.pc (.micro t) = .asleep ∧ s.removed t = true
  resuming : ∀ c, s.mutex.pc c = .unlockResume t → s.mutex.pc (.micro t) = .asleep ∧ s.removed t = true ∧ t ∉ s.mutex.scheduled

theorem Waiters.standing (h : Waiters s) (t : Nat) : Standing s t :=
  ⟨h.queued t, h.removed t, h.scheduled t, fun c => h.resuming c t⟩

theorem Waiters.of_standing (hstanding : ∀ t, Standing s t) (once : s.mutex.queue.Nodup) (scheduled_once : s.mutex.scheduled.Nodup)
    (found : ∀ c, foundOwner (s.mutex.pc c) = true → s.mutex.owner ≠ none)
    (seen : s.mutex.owner = none → s.mutex.queue = [] ∨ (∃ t, s.removed t = true) ∨ (∃ c, s.mutex.pc c = .unlockFirst) ∨
      ∃ c, s.mutex.pc c = .lockWrite) : Waiters s where
  once := once
  queued t := (hstanding t).queued
  found := found
  removed t := (hstanding t).removed
  scheduled t := (hstanding t).scheduled
  scheduled_once := scheduled_once
  resuming c t := (hstanding t).resuming c
  seen := seen

variable {t : Nat}

/-- A microthread that a step does not concern stands as before. -/
theorem Standing.frame (h : Standing s t) (hpc : m.pc (.micro t) = s.mutex.pc (.micro t))
    (hqueue : t ∈ m.queue ↔ t ∈ s.mutex.queue) (hrem : removed t = s.removed t)
    (hqueued : t ∈ m.scheduled ↔ t ∈ s.mutex.scheduled)
    (hres : ∀ c, m.pc c = .unlockResume t ↔ s.mutex.pc c = .unlockResume t) : Standing ⟨m, removed⟩ t := by
  obtain ⟨hq, hr, hs, hw⟩ := h
  simp only [← hpc, ← hqueue, ← hrem, ← hqueued, ← hres] at hq hr hs hw
  exact ⟨hq, hr, hs, hw⟩

/-- A microthread that is in neither queue and not recorded may be anywhere. -/
theorem Standing.absent (hqueue : t ∉ m.queue) (hrem : removed t = false) (hqueued : t ∉ m.scheduled)
    (hres : ∀ c, m.pc c ≠ .unlockResume t) : Standing ⟨m, removed⟩ t where
  queued ht := absurd ht hqueue
  removed ht := absurd (hrem.symm.trans ht) Bool.false_ne_true
  scheduled ht := absurd ht hqueued
  resuming c hc := absurd hc (hres c)

/-- The places of a microthread that was removed and has not tested the owner word. -/
def comes : Pc → Bool
  | .asleep | .lockAcquire | .lockTestZero => true
  | _ => false

/-- A microthread that is elsewhere is not recorded. -/
theorem Standing.not_removed (h : Standing s t) (hp : comes (s.mutex.pc (.micro t)) = false) : s.removed t = false := by
  by_contra hne
  rcases h.removed (by simpa using hne) with ⟨heq, _⟩ | heq | heq
  all_goals
    rw [heq] at hp
    cases hp

/-- A microthread that is not asleep is not in the work queue. -/
theorem Standing.not_scheduled (h : Standing s t) (hp : s.mutex.pc (.micro t) ≠ .asleep) : t ∉ s.mutex.scheduled :=
  fun ht => hp (h.scheduled ht).1

theorem Standing.not_resuming (h : Standing s t) (hp : s.mutex.pc (.micro t) ≠ .asleep) (c : Caller) :
    s.mutex.pc c ≠ .unlockResume t :=
  fun hc => hp (h.resuming c hc).1

/-- A microthread in its queue is not recorded. -/
theorem Standing.not_queued (h : Standing s t) (hrem : s.removed t = true) : t ∉ s.mutex.queue := by
  intro ht
  rw [(h.queued ht).2] at hrem
  cases hrem

/-- A caller at such a place is not recorded. -/
theorem Waiters.not_removed (h : Waiters s) (hp : comes (s.mutex.pc c) = false) (hc : c = .micro t) : s.removed t ≠ true := by
  subst hc
  rw [(h.standing t).not_removed hp]
  nofun

/-- The owners that were found, when a caller moves that finds none. -/
theorem Waiters.found_update (h : Waiters s) (hpc : foundOwner pc = true → s.mutex.owner ≠ none) {c' : Caller}
    (hc' : foundOwner (update s.mutex.pc c pc c') = true) : s.mutex.owner ≠ none :=
  (forall_update_iff _ (p := fun _ p => foundOwner p = true → s.mutex.owner ≠ none)).2 ⟨hpc, fun c _ => h.found c⟩ c' hc'

/-- Who resumes a microthread, when a caller moves that does not. -/
theorem update_resuming_iff (hold : s.mutex.pc c ≠ .unlockResume t) (hnew : pc ≠ .unlockResume t) (c' : Caller) :
    update s.mutex.pc c pc c' = .unlockResume t ↔ s.mutex.pc c' = .unlockResume t := by
  by_cases hne : c' = c
  · subst hne
    rw [update_self]
    exact iff_of_false hnew hold
  · rw [update_of_ne hne]

/-- The places that a caller leaves on its own, with nobody to resume. -/
def leaves : Pc → Bool
  | .asleep | .unlockResume _ => false
  | _ => true

/-- A caller goes on from a place that it leaves on its own to one where it resumes nobody; a wait goes on. The queue and the
work queue stay as they are. -/
structure Moves (s : Wakeups) (m : Mutex) (c : Caller) (old pc : Pc) : Prop where
  was : s.mutex.pc c = old
  pc_eq : m.pc = update s.mutex.pc c pc
  queue : m.queue = s.mutex.queue
  scheduled : m.scheduled = s.mutex.scheduled
  leaves : leaves old = true
  resumes : ∀ t, pc ≠ .unlockResume t
  waits : waits old = true → waits pc = true

variable {old : Pc}

theorem Moves.asleep (hm : Moves s m c old pc) : s.mutex.pc c ≠ .asleep := by
  intro hp
  cases hm.was.symm.trans hp
  cases hm.leaves

theorem Moves.resuming_iff (hm : Moves s m c old pc) (t : Nat) (c' : Caller) :
    m.pc c' = .unlockResume t ↔ s.mutex.pc c' = .unlockResume t := by
  rw [hm.pc_eq]
  refine update_resuming_iff (fun hp => ?_) (hm.resumes t) c'
  cases hm.was.symm.trans hp
  cases hm.leaves

/-- A caller moves, and perhaps writes the owner word or tests it. -/
theorem Waiters.moves (h : Waiters s) (hm : Moves s m c old pc) (hkeep : ∀ t, c ≠ .micro t → removed t = s.removed t)
    (hse : ∀ t, c = .micro t → removed t = true → s.removed t = true ∧ (pc = .lockAcquire ∨ pc = .lockTestZero))
    (hfound : ∀ c', foundOwner (m.pc c') = true → m.owner ≠ none)
    (hseen : m.owner = none → m.queue = [] ∨ (∃ t, removed t = true) ∨ (∃ c', m.pc c' = .unlockFirst) ∨
      ∃ c', m.pc c' = .lockWrite) :
    Waiters ⟨m, removed⟩ := by
  refine .of_standing (fun t => ?_) (hm.queue ▸ h.once) (hm.scheduled ▸ h.scheduled_once) hfound hseen
  have ht := h.standing t
  by_cases hc : c = .micro t
  · subst hc
    have hthis : m.pc (.micro t) = pc := by rw [hm.pc_eq, update_self]
    refine ⟨fun hq => ?_, fun hr => ?_, fun hs => ?_, fun c' hc' => ?_⟩
    · obtain ⟨hw, hr⟩ := ht.queued (hm.queue ▸ hq)
      refine ⟨(congrArg waits hthis).trans (hm.waits (hm.was ▸ hw)), ?_⟩
      by_contra hne
      rw [(hse t rfl (by simpa using hne)).1] at hr
      cases hr
    · rw [hthis]
      exact .inr (hse t rfl hr).2
    · exact absurd (hm.scheduled ▸ hs) (ht.not_scheduled hm.asleep)
    · exact absurd ((hm.resuming_iff t c').1 hc') (ht.not_resuming hm.asleep c')
  · have hplace : m.pc (.micro t) = s.mutex.pc (.micro t) := by rw [hm.pc_eq, update_of_ne (Ne.symm hc)]
    exact ht.frame hplace (by rw [hm.queue]) (hkeep t hc) (by rw [hm.scheduled]) (hm.resuming_iff t)

/-- The places that nothing in the invariant depends on. -/
def plain : Pc → Bool
  | .lockAcquire | .lockTestZero | .lockWrite | .lockSuspend | .lockSuspendRelease | .asleep | .unlockFirst
  | .unlockResume _ => false
  | _ => true

/-- The places that ask nothing of the owner word or of a waiter. -/
def calm : Pc → Bool
  | .lockTestSelf | .lockEnqueue | .unlockResume _ => false
  | _ => true

section

variable (h : Waiters s)

include h

/-- A caller that is neither waiting nor waking anybody goes on, without a write to the owner word. -/
theorem Waiters.goes (hm : Moves s m c old pc) (hown : m.owner = s.mutex.owner)
    (hse : ∀ t, c = .micro t → s.removed t = true → pc = .lockAcquire ∨ pc = .lockTestZero)
    (hfound : foundOwner pc = true → s.mutex.owner ≠ none) (hfirst : old ≠ .unlockFirst) (hwr : old ≠ .lockWrite) :
    Waiters ⟨m, s.removed⟩ := by
  have hsettled {c' : Caller} {p : Pc} (hp : old ≠ p) (hc' : s.mutex.pc c' = p) : m.pc c' = p := by
    have hne : c' ≠ c := by
      rintro rfl
      exact hp (hm.was.symm.trans hc')
    rw [hm.pc_eq, update_of_ne hne, hc']
  refine h.moves hm (fun _ _ => rfl) (fun t hc ht => ⟨ht, hse t hc ht⟩) (fun c' hc' => ?_) (fun hnn => ?_)
  · rw [hm.pc_eq] at hc'
    rw [hown]
    exact h.found_update hfound hc'
  · rw [hown] at hnn
    rw [hm.queue]
    rcases h.seen hnn with hq | hr | ⟨c', hc'⟩ | ⟨c', hc'⟩
    · exact .inl hq
    · exact .inr (.inl hr)
    · exact .inr (.inr (.inl ⟨c', hsettled hfirst hc'⟩))
    · exact .inr (.inr (.inr ⟨c', hsettled hwr hc'⟩))

/-- A microthread that takes the queue lock. -/
theorem Waiters.takes (hm : Moves s m c .lockAcquire .lockTestZero) (hown : m.owner = s.mutex.owner) :
    Waiters ⟨m, s.removed⟩ :=
  h.goes hm hown (fun _ _ _ => .inr rfl) nofun nofun nofun

/-- A microthread that cannot be recorded at its place goes on. -/
theorem Waiters.stays (hm : Moves s m c old pc) (hown : m.owner = s.mutex.owner) (hcomes : comes old = false)
    (hfound : foundOwner pc = true → s.mutex.owner ≠ none) (hfirst : old ≠ .unlockFirst) (hwr : old ≠ .lockWrite) :
    Waiters ⟨m, s.removed⟩ :=
  h.goes hm hown (fun _ hc ht => absurd ht (h.not_removed (hm.was ▸ hcomes) hc)) hfound hfirst hwr

omit h in
theorem comes_of_plain {pc : Pc} (h : plain pc = true) : comes pc = false := by
  cases pc with
  | asleep | lockAcquire | lockTestZero => cases h
  | _ => rfl

/-- A caller goes from a plain place to a calm one. -/
theorem Waiters.passes (hp : s.mutex.pc c = old) (hplain : plain old = true) (hcalm : calm pc = true)
    (hpc : m.pc = update s.mutex.pc c pc) (hown : m.owner = s.mutex.owner) (hqueue : m.queue = s.mutex.queue)
    (hqueued : m.scheduled = s.mutex.scheduled) : Waiters ⟨m, s.removed⟩ := by
  have hne {p : Pc} (hp' : plain p = false) : old ≠ p := by
    rintro rfl
    rw [hplain] at hp'
    cases hp'
  refine h.stays ⟨hp, hpc, hqueue, hqueued, ?_, ?_, ?_⟩ hown (comes_of_plain hplain) ?_ (hne rfl) (hne rfl)
  · cases old with
    | asleep | unlockResume => cases hplain
    | _ => rfl
  · rintro t rfl
    cases hcalm
  · intro hw
    cases old with
    | lockSuspend | lockSuspendRelease | asleep => cases hplain
    | _ => cases hw
  · intro hf
    cases pc with
    | lockTestSelf | lockEnqueue => cases hcalm
    | _ => cases hf

/-! ## The steps inside the queue lock -/

omit h in
/-- Two callers inside the queue lock are one. -/
theorem eq_of_inside (hinv : Mutex.Inv s.mutex) {c' : Caller} (hc : inside (s.mutex.pc c) = true)
    (hc' : inside (s.mutex.pc c') = true) :
    c' = c :=
  some.inj (((hinv c').has_lock hc').symm.trans ((hinv c).has_lock hc))

/-- A microthread tests the owner word. -/
theorem Waiters.test (hp : s.mutex.pc (.micro t) = .lockTestZero) :
    Waiters ⟨s.mutex.goto (.micro t) (if s.mutex.owner = none then .lockWrite else .lockTestSelf),
      update s.removed t false⟩ := by
  refine h.moves ⟨hp, rfl, rfl, rfl, rfl, fun u => ?_, nofun⟩ (fun u hu => ?_) (fun u hu hr => ?_) (fun c' hc' => ?_)
    (fun hnn => ?_)
  · split <;> nofun
  · have hne : u ≠ t := by
      rintro rfl
      exact hu rfl
    exact update_of_ne hne _ _
  · cases hu
    rw [update_self] at hr
    cases hr
  · refine h.found_update (fun hf hnn => ?_) hc'
    rw [if_pos hnn] at hf
    cases hf
  · have hnn : s.mutex.owner = none := hnn
    exact .inr (.inr (.inr ⟨.micro t, by rw [goto_pc, if_pos hnn]⟩))

/-- A microthread writes the owner word. -/
theorem Waiters.write (hp : s.mutex.pc (.micro t) = .lockWrite) :
    Waiters ⟨{ s.mutex with owner := some t }.goto (.micro t) .lockRelease, s.removed⟩ := by
  refine h.moves ⟨hp, rfl, rfl, rfl, rfl, nofun, nofun⟩ (fun _ _ => rfl) (fun _ hc hr => ?_) (fun _ _ => nofun) nofun
  exact absurd hr (h.not_removed (by rw [hp]; rfl) hc)

/-- An unlock clears the owner word. -/
theorem Waiters.clear (hinv : Mutex.Inv s.mutex) (hp : s.mutex.pc c = .unlockClear) :
    Waiters ⟨{ s.mutex with owner := none }.goto c .unlockFirst, s.removed⟩ := by
  refine h.moves ⟨hp, rfl, rfl, rfl, rfl, nofun, nofun⟩ (fun _ _ => rfl) (fun u hu hr => ?_) (fun c' hc' => ?_)
    (fun _ => .inr (.inr (.inl ⟨c, goto_pc⟩)))
  · exact absurd hr (h.not_removed (by rw [hp]; rfl) hu)
  · -- nobody else is inside the queue lock
    by_cases hne : c' = c
    · subst hne
      rw [goto_pc] at hc'
      cases hc'
    · have hpc' : foundOwner (s.mutex.pc c') = true := (congrArg foundOwner (update_of_ne hne _ _)).symm.trans hc'
      have hin : inside (s.mutex.pc c') = true := by
        generalize s.mutex.pc c' = p at hpc'
        cases p with
        | lockTestSelf | lockEnqueue => rfl
        | _ => cases hpc'
      exact absurd (eq_of_inside hinv (by rw [hp]; rfl) hin) hne

/-- An unlock finds the queue empty. -/
theorem Waiters.uncontended (hp : s.mutex.pc c = .unlockFirst) (hq : s.mutex.queue = []) :
    Waiters ⟨s.mutex.goto c .unlockRelease, s.removed⟩ := by
  refine h.moves ⟨hp, rfl, rfl, rfl, rfl, nofun, nofun⟩ (fun _ _ => rfl) (fun u hu hr => ?_)
    (fun _ => h.found_update (by nofun)) (fun _ => .inl hq)
  exact absurd hr (h.not_removed (by rw [hp]; rfl) hu)

/-- A microthread that found an owner puts its link into the queue. -/
theorem Waiters.enqueue (hp : s.mutex.pc (.micro t) = .lockEnqueue) :
    Waiters ⟨{ s.mutex with queue := s.mutex.queue ++ [t] }.goto (.micro t) .lockSuspend, s.removed⟩ := by
  have hown : s.mutex.owner ≠ none := h.found (.micro t) (by rw [hp]; rfl)
  have hnot : t ∉ s.mutex.queue := fun hmem => by
    have := (h.queued t hmem).1
    rw [hp] at this
    cases this
  have hrem : s.removed t = false := (h.standing _).not_removed (by rw [hp]; rfl)
  have hgoes : Waiters ⟨s.mutex.goto (.micro t) .lockSuspend, s.removed⟩ := by
    exact h.passes hp rfl rfl rfl rfl rfl rfl
  exact { hgoes with
    once := h.once.append (nodup_singleton t) (disjoint_singleton.2 hnot)
    queued := fun u hu => by
      rcases mem_append.1 hu with hu | hu
      · exact hgoes.queued u hu
      · rw [mem_singleton.1 hu]
        exact ⟨congrArg waits goto_pc, hrem⟩
    seen := fun hnn => absurd hnn hown }

/-- The microthread at the front of the queue is asleep when an unlock looks at it, since it gave up the queue lock. -/
theorem Waiters.asleep_of_mem (hinv : Mutex.Inv s.mutex) (hp : s.mutex.pc c = .unlockFirst) (hmem : t ∈ s.mutex.queue) :
    s.mutex.pc (.micro t) = .asleep := by
  have hwt := (h.queued t hmem).1
  have hout : inside (s.mutex.pc (.micro t)) = false := by
    by_contra hin
    have hc : micro t = c := eq_of_inside hinv (by rw [hp]; rfl) (by simpa using hin)
    rw [hc, hp] at hwt
    cases hwt
  generalize s.mutex.pc (.micro t) = p at hwt hout
  cases p with
  | asleep => rfl
  | lockSuspend | lockSuspendRelease => cases hout
  | _ => cases hwt

/-- A caller that moves from a place outside of lock, and no other place of its microthread matters. -/
theorem Waiters.standing_self {u : Nat} (hcomes : comes (s.mutex.pc (.micro u)) = false)
    (hwt : waits (s.mutex.pc (.micro u)) = false) (hqueue : u ∈ m.queue → u ∈ s.mutex.queue)
    (hrem : removed u = s.removed u) (hqueued : u ∈ m.scheduled → u ∈ s.mutex.scheduled)
    (hres : ∀ c, m.pc c = .unlockResume u → s.mutex.pc c = .unlockResume u) : Standing ⟨m, removed⟩ u := by
  have hu := h.standing u
  have hsleep : s.mutex.pc (.micro u) ≠ .asleep := fun heq => by
    rw [heq] at hwt
    cases hwt
  refine .absent (fun hq => ?_) (hrem.trans (hu.not_removed hcomes)) (fun hs => hu.not_scheduled hsleep (hqueued hs))
    (fun c hc => hu.not_resuming hsleep c (hres c hc))
  rw [(hu.queued (hqueue hq)).1] at hwt
  cases hwt

omit h in
/-- A sleeper stays asleep when a caller moves that is not asleep. -/
theorem update_asleep (hsleep : s.mutex.pc (.micro t) = .asleep) (hc : s.mutex.pc c ≠ .asleep) :
    update s.mutex.pc c pc (.micro t) = .asleep := by
  have hne : micro t ≠ c := by
    rintro rfl
    exact hc hsleep
  rw [update_of_ne hne, hsleep]

/-- An unlock takes the first microthread out of the queue. -/
theorem Waiters.contended (hinv : Mutex.Inv s.mutex) (hp : s.mutex.pc c = .unlockFirst) {queue : List Nat}
    (hq : s.mutex.queue = t :: queue) :
    Waiters ⟨{ s.mutex with queue := queue }.goto c (.unlockResume t), update s.removed t true⟩ := by
  have hmem : t ∈ s.mutex.queue := by rw [hq]; exact mem_cons_self
  have hsleep := h.asleep_of_mem hinv hp hmem
  have hnot : t ∉ s.mutex.scheduled := fun hs => (h.standing t).not_queued (h.scheduled t hs).2 hmem
  obtain ⟨hfresh, hnd⟩ := nodup_cons.1 (hq ▸ h.once)
  have hplace : update s.mutex.pc c (.unlockResume t) (.micro t) = .asleep := update_asleep hsleep (by rw [hp]; nofun)
  refine .of_standing (fun u => ?_) hnd h.scheduled_once (fun _ => h.found_update (by nofun))
    (fun _ => .inr (.inl ⟨t, update_self _ _ _⟩))
  by_cases hut : u = t
  · subst hut
    exact ⟨fun hu => absurd hu hfresh, fun _ => .inl ⟨hplace, .inr ⟨c, goto_pc⟩⟩, fun hs => absurd hs hnot,
      fun _ _ => ⟨hplace, update_self _ _ _, hnot⟩⟩
  · have hqueue : u ∈ queue ↔ u ∈ s.mutex.queue := by
      rw [hq, mem_cons]
      exact (or_iff_right hut).symm
    have hrem : update s.removed t true u = s.removed u := update_of_ne hut _ _
    have hres (c' : Caller) : update s.mutex.pc c (.unlockResume t) c' = .unlockResume u ↔
      s.mutex.pc c' = .unlockResume u :=
      update_resuming_iff (by rw [hp]; nofun) (fun heq => hut (Pc.unlockResume.inj heq).symm) c'
    by_cases hcu : micro u = c
    · subst hcu
      exact h.standing_self (by rw [hp]; rfl) (by rw [hp]; rfl) hqueue.1 hrem id fun c' => (hres c').1
    · exact (h.standing u).frame (update_of_ne hcu _ _) hqueue hrem Iff.rfl hres

/-- An unlock schedules the microthread it has taken out. -/
theorem Waiters.resume (hinv : Mutex.Inv s.mutex) (hp : s.mutex.pc c = .unlockResume t) :
    Waiters ⟨{ s.mutex with scheduled := s.mutex.scheduled ++ [t] }.goto c .unlockRelease, s.removed⟩ := by
  obtain ⟨hsleep, hrem, hnot⟩ := h.resuming c t hp
  have hplace : update s.mutex.pc c .unlockRelease (.micro t) = .asleep := update_asleep hsleep (by rw [hp]; nofun)
  have hmem : t ∈ s.mutex.scheduled ++ [t] := mem_append_right _ (mem_singleton_self t)
  have hnd : (s.mutex.scheduled ++ [t]).Nodup := h.scheduled_once.append (nodup_singleton t) (disjoint_singleton.2 hnot)
  -- nobody else is inside the queue lock
  have hwaker {c' : Caller} {u : Nat} : update s.mutex.pc c .unlockRelease c' ≠ .unlockResume u := by
    intro hc'
    have hcc : c' ≠ c := by
      rintro rfl
      rw [update_self] at hc'
      cases hc'
    rw [update_of_ne hcc] at hc'
    exact hcc (eq_of_inside hinv (by rw [hp]; rfl) (by rw [hc']; rfl))
  refine .of_standing (fun u => ?_) h.once hnd (fun _ => h.found_update (by nofun)) (fun _ => .inr (.inl ⟨t, hrem⟩))
  by_cases hut : u = t
  · subst hut
    exact ⟨fun hu => absurd hu ((h.standing u).not_queued hrem), fun _ => .inl ⟨hplace, .inl hmem⟩, fun _ => ⟨hplace, hrem⟩,
      fun _ hc' => absurd hc' hwaker⟩
  · have hqueued : u ∈ s.mutex.scheduled ++ [t] ↔ u ∈ s.mutex.scheduled := by
      rw [mem_append, mem_singleton]
      exact or_iff_left hut
    by_cases hcu : micro u = c
    · subst hcu
      exact h.standing_self (by rw [hp]; rfl) (by rw [hp]; rfl) id rfl hqueued.1 fun _ hc' => absurd hc' hwaker
    · refine (h.standing u).frame (update_of_ne hcu _ _) Iff.rfl rfl hqueued (update_resuming_iff ?_ nofun)
      rw [hp]
      exact fun heq => hut (Pc.unlockResume.inj heq).symm

/-- A worker takes a resumed microthread from the work queue. -/
theorem Waiters.dispatch (ht : t ∈ s.mutex.scheduled) :
    Waiters ⟨{ s.mutex with scheduled := s.mutex.scheduled.erase t }.goto (.micro t) .lockAcquire, s.removed⟩ := by
  obtain ⟨hsleep, hrem⟩ := h.scheduled t ht
  have hres {u : Nat} (c : Caller) : update s.mutex.pc (.micro t) .lockAcquire c = .unlockResume u ↔
      s.mutex.pc c = .unlockResume u := update_resuming_iff (by rw [hsleep]; nofun) (by nofun) c
  refine .of_standing (fun u => ?_) h.once (h.scheduled_once.erase t) (fun _ => h.found_update (by nofun))
    (fun _ => .inr (.inl ⟨t, hrem⟩))
  by_cases hut : u = t
  · subst hut
    exact ⟨fun hu => absurd hu ((h.standing u).not_queued hrem), fun _ => .inr (.inl (goto_pc)),
      fun hs => absurd hs h.scheduled_once.not_mem_erase, fun c hc => absurd ht (h.resuming c u ((hres c).1 hc)).2.2⟩
  · exact (h.standing u).frame (update_of_ne (fun heq => hut (micro.inj heq)) _ _) Iff.rfl rfl (mem_erase_of_ne hut) hres

end

/-! ## Every step -/

/-- The places whose access changes the record. -/
def records : Pc → Bool
  | .unlockFirst | .lockTestZero => true
  | _ => false

/-- An access at another place leaves the record as it is. -/
theorem record_advance (hqui : records (s.mutex.pc c) = false) : s.record (.advance c) = s.removed := by
  simp only [record]
  split
  · rename_i heq _
    rw [heq] at hqui
    cases hqui
  · rename_i heq _
    rw [heq] at hqui
    cases hqui
  · rfl

/-- A caller at a place where no native thread can be, as a microthread. -/
theorem exists_micro (hinv : Mutex.Inv s.mutex) (hp : s.mutex.pc c = pc) (hpc : ∀ holds n, canBe holds (.native n) pc = false) :
    ∃ t, c = .micro t := by
  have hcan := (hinv c).can_be
  cases c with
  | micro t => exact ⟨t, rfl⟩
  | native n =>
    rw [hp, hpc] at hcan
    cases hcan

/-- The places after the queue lock is given up on return. -/
theorem release_finish_pc_eq (m : Mutex) (c : Caller) (b : Bool) :
    ((m.release c .idle).finish c b).pc = update m.pc c .idle :=
  update_idem _ _ _

/-- An access that does not change the record keeps the waiters in order. -/
theorem Inv.advance_quiet (h : Inv s) (hqui : records (s.mutex.pc c) = false) (hst : s.mutex.advance c = some m) :
    Waiters ⟨m, s.removed⟩ := by
  have hw := h.waiters
  have hno := h.no_try c
  unfold Mutex.advance at hst
  generalize hp : s.mutex.pc c = pc at hqui hno hst
  cases pc with
  | idle | asleep => cases hst
  | nativeTry | nativeTryTest | nativeTryRelease | tryAssert | tryTestZero | tryTestSelf | tryWrite | tryRelease => cases hno
  | unlockFirst | lockTestZero => cases hqui
  | nativeLock | unlockAcquire =>
    obtain ⟨_, rfl⟩ := acquire_eq_some hst
    exact hw.passes hp rfl rfl rfl rfl rfl rfl
  | lockAcquire =>
    obtain ⟨_, rfl⟩ := acquire_eq_some hst
    exact hw.takes ⟨hp, rfl, rfl, rfl, rfl, nofun, nofun⟩ rfl
  | lockSuspend | lockSuspendRelease =>
    cases hst
    exact hw.stays ⟨hp, rfl, rfl, rfl, rfl, nofun, fun _ => rfl⟩ rfl rfl nofun nofun nofun
  | nativeLockTest =>
    cases hst
    split
    · exact hw.passes hp rfl rfl rfl rfl rfl rfl
    · exact hw.passes hp rfl rfl rfl rfl rfl rfl
  | nativeLockRelease =>
    cases hst
    exact hw.passes hp rfl rfl rfl rfl rfl rfl
  | lockAssert =>
    obtain ⟨_, hst⟩ := ite_none_left_eq_some.1 hst
    cases hst
    exact hw.passes hp rfl rfl rfl rfl rfl rfl
  | unlockAssert =>
    obtain ⟨_, rfl⟩ := of_guarded hst
    exact hw.passes hp rfl rfl rfl rfl rfl rfl
  | lockTestSelf =>
    have hown : s.mutex.owner ≠ none := hw.found c (by rw [hp]; rfl)
    cases hst
    refine hw.stays ⟨hp, rfl, rfl, rfl, rfl, fun _ => ?_, nofun⟩ rfl rfl (fun _ => hown) nofun nofun
    split <;> nofun
  | lockWrite =>
    obtain ⟨t, rfl⟩ := exists_micro h.placed hp (fun _ _ => rfl)
    cases hst
    exact hw.write hp
  | lockEnqueue =>
    obtain ⟨t, rfl⟩ := exists_micro h.placed hp (fun _ _ => rfl)
    cases hst
    exact hw.enqueue hp
  | lockRelease | nativeUnlock | unlockRelease =>
    cases hst
    exact hw.passes hp rfl rfl (release_finish_pc_eq _ _ _) rfl rfl rfl
  | unlockClear =>
    cases hst
    exact hw.clear h.placed hp
  | unlockResume t =>
    have hsu : s.mutex.suspended t = true := by simp [suspended, (hw.resuming c t hp).1]
    simp only [hsu, if_true] at hst
    cases hst
    exact hw.resume h.placed hp

/-- Every access of a caller keeps the waiters in order. -/
theorem Inv.advance (h : Inv s) (hst : s.mutex.advance c = some m) : Waiters ⟨m, s.record (.advance c)⟩ := by
  have hw := h.waiters
  by_cases hqui : records (s.mutex.pc c) = false
  · rw [record_advance hqui]
    exact h.advance_quiet hqui hst
  · unfold Mutex.advance at hst
    generalize hp : s.mutex.pc c = pc at hqui hst
    cases pc with
    | unlockFirst =>
      simp only at hst
      split at hst
      · rename_i hq
        have hrec : s.record (.advance c) = s.removed := by simp only [record, hp, hq]
        rw [← some.inj hst, hrec]
        exact hw.uncontended hp hq
      · rename_i t queue hq
        have hrec : s.record (.advance c) = update s.removed t true := by simp only [record, hp, hq]
        rw [← some.inj hst, hrec]
        exact hw.contended h.placed hp hq
    | lockTestZero =>
      obtain ⟨t, rfl⟩ := exists_micro h.placed hp (fun _ _ => rfl)
      have hrec : s.record (.advance (.micro t)) = update s.removed t false := by simp only [record, hp, self]
      rw [← some.inj hst, hrec]
      exact hw.test hp
    | _ => exact absurd rfl hqui

/-- An access of a caller leads from a place of lock or unlock to another one, and moves nobody else. -/
theorem exists_pc_of_advance (hno : tries (s.mutex.pc c) = false) (hst : s.mutex.advance c = some m) :
    ∃ pc, m.pc = update s.mutex.pc c pc ∧ tries pc = false := by
  unfold Mutex.advance at hst
  generalize s.mutex.pc c = pc at hno hst
  cases pc with
  | idle | asleep => cases hst
  | nativeTry | nativeTryTest | nativeTryRelease | tryAssert | tryTestZero | tryTestSelf | tryWrite | tryRelease => cases hno
  | nativeLock | lockAcquire | unlockAcquire =>
    obtain ⟨_, rfl⟩ := acquire_eq_some hst
    exact ⟨_, rfl, rfl⟩
  | lockAssert =>
    obtain ⟨_, hst⟩ := ite_none_left_eq_some.1 hst
    cases hst
    exact ⟨_, rfl, rfl⟩
  | unlockAssert =>
    obtain ⟨_, rfl⟩ := of_guarded hst
    exact ⟨_, rfl, rfl⟩
  | nativeLockTest | lockTestZero | lockTestSelf =>
    cases hst
    split <;> exact ⟨_, rfl, rfl⟩
  | unlockFirst =>
    simp only at hst
    split at hst
    all_goals
      cases hst
      exact ⟨_, rfl, rfl⟩
  | lockRelease | nativeUnlock | unlockRelease =>
    cases hst
    exact ⟨_, release_finish_pc_eq _ _ _, rfl⟩
  | _ =>
    cases hst
    exact ⟨_, rfl, rfl⟩

/-- When a caller goes to a place of lock or unlock, nobody is in try_lock. -/
theorem tries_update (hno : ∀ c, tries (s.mutex.pc c) = false) (hpc : tries pc = false) (c' : Caller) :
    tries (update s.mutex.pc c pc c') = false :=
  (forall_update_iff _ (p := fun _ p => tries p = false)).2 ⟨hpc, fun c _ => hno c⟩ c'

/-- A caller outside enters lock or unlock. -/
theorem Inv.enter (h : Inv s) (hpl : Mutex.Inv (s.mutex.goto c pc)) (hid : s.mutex.pc c = .idle) (hcalm : calm pc = true)
    (htries : tries pc = false) : Inv ⟨s.mutex.goto c pc, s.removed⟩ where
  placed := hpl
  no_try := tries_update h.no_try htries
  waiters := h.waiters.passes hid rfl hcalm rfl rfl rfl rfl

/-- Every step of lock and unlock keeps the invariant. -/
theorem Inv.step (h : Inv s) {a : Action} (hok : OnlyLocks s a) {s' : Wakeups} (hst : s.step a = some s') : Inv s' := by
  obtain ⟨m, hm, rfl⟩ := map_eq_some_iff.1 hst
  have hfree : NoFreeTry s.mutex a := by
    cases a with
    | advance c =>
      intro hp
      have := h.no_try c
      rw [hp] at this
      cases this
    | lock | tryLock | unlock | dispatch => trivial
  have hpl := h.placed.step hfree hm
  cases a with
  | lock c =>
    obtain ⟨hid, rfl⟩ := of_guarded hm
    cases c with
    | micro | native => exact h.enter hpl hid rfl rfl
  | tryLock c => exact hok.elim
  | unlock c =>
    obtain ⟨⟨hid, _⟩, rfl⟩ := of_guarded hm
    cases c with
    | micro | native => exact h.enter hpl hid rfl rfl
  | advance c =>
    obtain ⟨pc, hpc, htries⟩ := exists_pc_of_advance (h.no_try c) hm
    exact ⟨hpl, fun c' => hpc ▸ tries_update h.no_try htries c', h.advance hm⟩
  | dispatch t =>
    obtain ⟨ht, rfl⟩ := of_guarded hm
    have hsleep := (h.waiters.scheduled t ht).1
    unfold runScheduled at hpl ⊢
    rw [if_pos hsleep] at hpl ⊢
    exact ⟨hpl, tries_update h.no_try rfl, h.waiters.dispatch ht⟩

/-- What a free mutex with a queue has, by the invariant. -/
theorem Inv.exists_awake (h : Inv s) (hfree : Free s.mutex) (hqueue : s.mutex.queue ≠ []) : ∃ t, Awake s t := by
  rcases h.waiters.seen hfree.owner with hnil | ⟨t, ht⟩ | ⟨c, hc⟩ | ⟨c, hc⟩
  · exact absurd hnil hqueue
  · exact ⟨t, ht, (h.waiters.standing t).not_queued ht, h.waiters.removed t ht⟩
  · exact absurd hc (hfree.unlocked c)
  · exact absurd hc (hfree.untaken c)

theorem inv_of_reaches (h : machine.Reaches OnlyLocks s) : Inv s :=
  Machine.Reaches.invariant inv_init (fun hinv hok => hinv.step hok) h

/-- A mutex with neither an owner nor a holder of the queue lock is free. -/
theorem free_of_queueLock_none (h : machine.Reaches OnlyLocks s) (hown : s.mutex.owner = none)
    (hlk : s.mutex.queueLock = none) :
    Free s.mutex := by
  have hout {c : Caller} {pc : Pc} (hpc : inside pc = true) : s.mutex.pc c ≠ pc := by
    rintro rfl
    have := ((inv_of_reaches h).placed c).has_lock hpc
    rw [hlk] at this
    cases this
  exact ⟨hown, fun c => hout rfl, fun c => hout rfl⟩

/-- A free mutex never has only sleeping waiters: when its queue is not empty, some microthread that an unlock has taken out
is on its way to test the owner word. -/
theorem waiters_not_stuck (h : machine.Reaches OnlyLocks s) (hfree : Free s.mutex) (hqueue : s.mutex.queue ≠ []) : ∃ t, Awake s t :=
  (inv_of_reaches h).exists_awake hfree hqueue

/-- Microthread 0 holds the mutex, 1 and 2 wait for it; the unlock takes 1 out of the queue, and 2 stays. -/
def twoWaiters : List Action :=
  [.lock (.micro 0)] ++ replicate 5 (.advance (.micro 0)) ++ [.lock (.micro 1)] ++ replicate 7 (.advance (.micro 1)) ++
    [.lock (.micro 2)] ++ replicate 7 (.advance (.micro 2)) ++ [.unlock (.micro 0)] ++ replicate 6 (.advance (.micro 0))

/-- One of the two still waits, and there is one awake. -/
theorem waiters_not_stuck_two : ∃ s, machine.runOk OnlyLocks init twoWaiters = some s ∧ s.mutex.queue = [2] ∧ ∃ t, Awake s t := by
  obtain ⟨s, hs, hown, hlk, hqueue⟩ : ∃ s, machine.runOk OnlyLocks init twoWaiters = some s ∧ s.mutex.owner = none ∧
      s.mutex.queueLock = none ∧ s.mutex.queue = [2] := Machine.exists_of_runOk (by decide)
  have hreach := Machine.reaches_of_runOk hs
  exact ⟨s, hs, hqueue, waiters_not_stuck hreach (free_of_queueLock_none hreach hown hlk) (by rw [hqueue]; nofun)⟩

end Wakeups

end Osxie.DuctTape
