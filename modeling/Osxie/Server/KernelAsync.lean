import Osxie.Lib.Machine

/-!
# Functions run by kernel threads

`Thread::kernelAsync` queues a function for the runners, the kernel threads of `kernelAsyncRunnerThreadWorker`. It starts a
runner when `kernelAsyncRunnersAvailable` is zero, a permanent one as long as there are fewer than ten, and raises the semaphore
that the runners wait on. A runner counts itself as available before it lowers the semaphore, and takes itself out of the count
when it takes a function.

Every section under `kernelAsyncRunnerQueueLock` is one step. The semaphore is raised after the lock is dropped: it wakes one of
the runners that wait, which then returns from `dtape_semaphore_down_simple` with true, or its count goes up. A runner that
waits may be interrupted, which takes it off the semaphore. A function that is run may end at any time or never.
-/

namespace Osxie.Server

open List Option Nat Bool Machine

/-- Where a runner is: at the top of its loop; counted as available, before the semaphore; blocked on the semaphore; back from
it, with or without success, before the lock; running a function; at its end. -/
inductive RunnerPlace (α : Type) where
  | starting
  | announced
  | waiting
  | granted
  | interrupted
  | running (fn : α)
  | finished
deriving DecidableEq

structure Runner (α : Type) where
  permanent : Bool
  place : RunnerPlace α
deriving DecidableEq

namespace Runner

variable {α : Type} (r : Runner α)

/-- `kernelAsyncRunnersAvailable` counts the runner. -/
def counted : Bool :=
  match r.place with
  | .announced | .waiting | .granted | .interrupted => true
  | .starting | .running _ | .finished => false

/-- The runner is idle, or started and not yet running a function. A temporary runner that was interrupted ends. -/
def free : Bool :=
  match r.place with
  | .starting | .announced | .waiting | .granted => true
  | .interrupted => r.permanent
  | .running _ | .finished => false

def leaving : Bool :=
  match r.place with
  | .interrupted => !r.permanent
  | _ => false

/-- The runner lowered the semaphore for a function it has not taken yet. -/
def granted (r : Runner α) : Bool :=
  match r.place with
  | .granted => true
  | _ => false

def waiting (r : Runner α) : Bool :=
  match r.place with
  | .waiting => true
  | _ => false

end Runner

/-- The queue of functions and its runners. `upCount` is the count of the semaphore, `raising` counts the calls of
`kernelAsync` that dropped the lock and have not raised the semaphore yet. -/
structure KernelAsync (α : Type) where
  queue : List α
  runnersAvailable : Nat
  permanentRunners : Nat
  upCount : Nat
  runners : List (Runner α)
  raising : Nat
deriving DecidableEq

/-- Who moves; runners are named by their position. -/
inductive KernelAsyncAction (α : Type) where
  | kernelAsync (fn : α)
  /-- a call raises the semaphore, which wakes a runner -/
  | up (i : Nat)
  /-- a call raises the semaphore when no runner waits on it -/
  | upNobody
  /-- a runner counts itself as available -/
  | announce (i : Nat)
  /-- a runner lowers the semaphore, or blocks on it -/
  | down (i : Nat)
  | interrupt (i : Nat)
  /-- a runner that was interrupted takes itself out of the count -/
  | withdraw (i : Nat)
  /-- a runner that lowered the semaphore looks at the queue -/
  | take (i : Nat)
  | finish (i : Nat)
deriving DecidableEq

/-- The steps of runners that run no function. -/
def KernelAsyncAction.idle {α : Type} : KernelAsyncAction α → Bool
  | .announce _ | .down _ | .withdraw _ | .take _ => true
  | _ => false

namespace KernelAsync

variable {α : Type}

def maxPermanentKernelRunners : Nat := 10

def init : KernelAsync α where
  queue := []
  runnersAvailable := 0
  permanentRunners := 0
  upCount := 0
  runners := []
  raising := 0

variable (s : KernelAsync α) (p : Runner α → Bool) (runners : List (Runner α))

def number : Nat := s.runners.countP p

def goto (i : Nat) (permanent : Bool) (place : RunnerPlace α) : KernelAsync α :=
  { s with runners := s.runners.set i ⟨permanent, place⟩ }

/-- Where a runner goes that found nothing to run. -/
def again (permanent : Bool) : RunnerPlace α := if permanent then .starting else .finished

/-- `Thread::kernelAsync` under the lock. -/
def kernelAsync (fn : α) : KernelAsync α :=
  let s := { s with queue := s.queue ++ [fn], raising := s.raising + 1 }
  if s.runnersAvailable = 0 then
    let permanent := decide (s.permanentRunners < maxPermanentKernelRunners)
    { s with
      runners := s.runners ++ [⟨permanent, .starting⟩]
      permanentRunners := if permanent then s.permanentRunners + 1 else s.permanentRunners }
  else s

/-- What a runner does with the queue when it lowered the semaphore. -/
def take (i : Nat) (permanent : Bool) : KernelAsync α :=
  let s := { s with runnersAvailable := s.runnersAvailable - 1 }
  match s.queue with
  | [] => s.goto i permanent (again permanent)
  | fn :: fns => { s with queue := fns }.goto i permanent (.running fn)

def step : KernelAsyncAction α → Option (KernelAsync α)
  | .kernelAsync fn => some (s.kernelAsync fn)
  | .up i =>
    match s.runners[i]? with
    | some ⟨permanent, .waiting⟩ =>
      if 0 < s.raising then some ({ s with raising := s.raising - 1 }.goto i permanent .granted) else none
    | _ => none
  | .upNobody =>
    if 0 < s.raising ∧ s.number (·.waiting) = 0 then
      some { s with raising := s.raising - 1, upCount := s.upCount + 1 }
    else none
  | .announce i =>
    match s.runners[i]? with
    | some ⟨permanent, .starting⟩ =>
      some ({ s with runnersAvailable := s.runnersAvailable + 1 }.goto i permanent .announced)
    | _ => none
  | .down i =>
    match s.runners[i]? with
    | some ⟨permanent, .announced⟩ =>
      if 0 < s.upCount then some ({ s with upCount := s.upCount - 1 }.goto i permanent .granted)
      else some (s.goto i permanent .waiting)
    | _ => none
  | .interrupt i =>
    match s.runners[i]? with
    | some ⟨permanent, .waiting⟩ => some (s.goto i permanent .interrupted)
    | _ => none
  | .withdraw i =>
    match s.runners[i]? with
    | some ⟨permanent, .interrupted⟩ =>
      some ({ s with runnersAvailable := s.runnersAvailable - 1 }.goto i permanent (again permanent))
    | _ => none
  | .take i =>
    match s.runners[i]? with
    | some ⟨permanent, .granted⟩ => some (s.take i permanent)
    | _ => none
  | .finish i =>
    match s.runners[i]? with
    | some ⟨permanent, .running _⟩ => some (s.goto i permanent (again permanent))
    | _ => none

def machine : Machine (KernelAsync α) (KernelAsyncAction α) where
  init := init
  step := step

/-! ## Free runners -/

/-- When no call is in progress there are at least as many free runners as queued functions, and the queue can be emptied by
the runners that run no function, whatever the functions that are run do. -/
structure FreeRunners (s : KernelAsync α) : Prop where
  enough : s.raising = 0 → s.queue.length ≤ s.number (·.free)
  drains : s.raising = 0 → ∃ actions s', machine.run s actions = some s' ∧ (∀ a ∈ actions, a.idle = true) ∧ s'.queue = []

/-- More runners are counted as available, and do not end, than there are queued functions. -/
def Spare : Prop := s.queue.length + s.number (·.leaving) < s.runnersAvailable

instance : Decidable s.Spare := inferInstanceAs (Decidable (_ < _))

/-- A function is queued when no runner is counted as available, or one is to spare; a temporary runner is interrupted when
one is to spare. -/
def Provided : KernelAsyncAction α → Prop
  | .kernelAsync _ => s.runnersAvailable = 0 ∨ s.Spare
  | .interrupt i => (s.runners[i]?).all (·.permanent) = true ∨ s.Spare
  | _ => True

instance (a : KernelAsyncAction α) : Decidable (Provided s a) := by
  cases a <;> unfold Provided <;> infer_instance

/-! ## Counting runners -/

/-- When a runner goes somewhere, it is no longer counted where it was and counted where it is. -/
theorem countP_set_add {runners : List (Runner α)} {i : Nat} {old : Runner α} (hi : runners[i]? = some old)
    (new : Runner α) : (runners.set i new).countP p + (p old).toNat = runners.countP p + (p new).toNat := by
  obtain ⟨hlt, hget⟩ := List.getElem?_eq_some_iff.1 hi
  have hpos : p old = true → 0 < runners.countP p := fun hp => countP_pos_iff.2 ⟨old, mem_of_getElem? hi, hp⟩
  rw [countP_set hlt, hget]
  cases hold : p old with
  | false => cases p new <;> simp
  | true =>
    have := hpos hold
    cases p new <;> simp only [if_true, false_eq_true, if_false, toNat_false, toNat_true] <;> omega

/-- A new runner is counted where it is. -/
theorem countP_append_singleton (r : Runner α) :
    (runners ++ [r]).countP p = runners.countP p + (p r).toNat := by
  rw [countP_append, countP_singleton]
  cases p r <;> rfl

/-- A runner that is counted is free, or ends. -/
theorem counted_le :
    runners.countP (·.counted) ≤ runners.countP (·.free) + runners.countP (·.leaving) := by
  induction runners with
  | nil => exact le_refl 0
  | cons r runners ih =>
    have hr : r.counted = true → r.free = true ∨ r.leaving = true := by
      obtain ⟨permanent, place⟩ := r
      cases place <;> cases permanent <;> simp [Runner.counted, Runner.free, Runner.leaving]
    simp only [countP_cons]
    split
    · rename_i hc
      rcases hr hc with hf | hl
      · rw [if_pos hf]
        omega
      · rw [if_pos hl]
        omega
    · omega

/-! ## The invariant -/

variable {s : KernelAsync α}

/-- The functions that are queued are those the semaphore was or will be raised for, and there are runners for all of them. -/
structure Inv (s : KernelAsync α) : Prop where
  counted : s.runnersAvailable = s.number (·.counted)
  raised : s.queue.length = s.upCount + s.number (·.granted) + s.raising
  enough : s.queue.length ≤ s.number (·.free)
  asleep : 0 < s.upCount → s.number (·.waiting) = 0

theorem inv_init : Inv (init : KernelAsync α) := ⟨rfl, rfl, le_refl 0, nofun⟩

variable {i : Nat} {permanent : Bool} {old place : RunnerPlace α}

section

variable (h : Inv s)

include h

/-- A runner to spare is a free runner to spare. -/
theorem Inv.lt_free_of_spare (hspare : s.Spare) : s.queue.length < s.number (·.free) := by
  have hle : s.number (·.counted) ≤ s.number (·.free) + s.number (·.leaving) := counted_le s.runners
  have hc := h.counted
  have hs : s.queue.length + s.number (·.leaving) < s.runnersAvailable := hspare
  omega

theorem Inv.kernelAsync {fn : α} (hok : s.runnersAvailable = 0 ∨ s.Spare) : Inv (s.kernelAsync fn) := by
  have hrai := h.raised
  have heno := h.enough
  unfold KernelAsync.kernelAsync
  dsimp only
  split
  · -- the new runner is free, and neither counted nor on the semaphore
    generalize decide (s.permanentRunners < maxPermanentKernelRunners) = permanent
    have hn (p : Runner α → Bool) : countP p (s.runners ++ [⟨permanent, .starting⟩]) =
        s.number p + (p ⟨permanent, .starting⟩).toNat :=
      countP_append_singleton p s.runners _
    exact {
      counted := h.counted.trans (hn (·.counted)).symm
      raised := by
        have hgran : countP Runner.granted _ = s.number (·.granted) := hn (·.granted)
        show (s.queue ++ [fn]).length = s.upCount + countP Runner.granted (s.runners ++ _) + (s.raising + 1)
        rw [length_append, length_singleton]
        omega
      enough := by
        show (s.queue ++ [fn]).length ≤ countP Runner.free _
        rw [hn, length_append]
        exact Nat.add_le_add_right heno 1
      asleep := fun hup => (hn (·.waiting)).trans (h.asleep hup) }
  · rename_i hne
    have hlt := h.lt_free_of_spare (hok.resolve_left hne)
    exact { h with
      raised := by
        simp only [number, length_append, length_singleton] at hrai ⊢
        omega
      enough := by
        rw [length_append]
        exact hlt }

section Moves

/-- What has to be shown when one runner goes somewhere: its own part in every count. -/
theorem Inv.moves (hi : s.runners[i]? = some ⟨permanent, old⟩) {t : KernelAsync α}
    (ht : t.runners = s.runners.set i ⟨permanent, place⟩)
    (hcoun : t.runnersAvailable + (Runner.counted ⟨permanent, old⟩).toNat =
      s.runnersAvailable + (Runner.counted ⟨permanent, place⟩).toNat)
    (hrai : t.queue.length + (s.upCount + (Runner.granted ⟨permanent, old⟩).toNat + s.raising) =
      s.queue.length + (t.upCount + (Runner.granted ⟨permanent, place⟩).toNat + t.raising))
    (heno : t.queue.length + (Runner.free ⟨permanent, old⟩).toNat ≤ s.number (·.free) + (Runner.free ⟨permanent, place⟩).toNat)
    (hasl : 0 < t.upCount → 0 < s.upCount ∧ Runner.waiting ⟨permanent, place⟩ = false) : Inv t := by
  have hn (p : Runner α → Bool) : t.number p + (p ⟨permanent, old⟩).toNat = s.number p + (p ⟨permanent, place⟩).toNat := by
    unfold number
    rw [ht]
    exact countP_set_add p hi _
  exact {
    counted := by
      have := h.counted
      have := hn (·.counted)
      omega
    raised := by
      have := h.raised
      have := hn (·.granted)
      omega
    enough := by
      have := hn (·.free)
      omega
    asleep := fun hup => by
      obtain ⟨hpos, hnew⟩ := hasl hup
      have hz := h.asleep hpos
      have hw := hn (·.waiting)
      rw [hnew, toNat_false] at hw
      omega }

theorem Inv.up (hi : s.runners[i]? = some ⟨permanent, .waiting⟩) (hpos : 0 < s.raising) :
    Inv ({ s with raising := s.raising - 1 }.goto i permanent .granted) := by
  refine h.moves hi rfl rfl ?_ (Nat.add_le_add_right h.enough 1) fun hup => ⟨hup, rfl⟩
  simp only [goto, Runner.granted, toNat_true, toNat_false]
  omega

theorem Inv.upNobody (hpos : 0 < s.raising) (hno : s.number (·.waiting) = 0) :
    Inv { s with raising := s.raising - 1, upCount := s.upCount + 1 } := by
  refine { h with raised := ?_, asleep := fun _ => hno }
  have hrai := h.raised
  simp only [number] at hrai ⊢
  omega

theorem Inv.announce (hi : s.runners[i]? = some ⟨permanent, .starting⟩) :
    Inv ({ s with runnersAvailable := s.runnersAvailable + 1 }.goto i permanent .announced) :=
  h.moves hi rfl rfl rfl (Nat.add_le_add_right h.enough 1) fun hup => ⟨hup, rfl⟩

theorem Inv.lower (hi : s.runners[i]? = some ⟨permanent, .announced⟩) (hpos : 0 < s.upCount) :
    Inv ({ s with upCount := s.upCount - 1 }.goto i permanent .granted) := by
  refine h.moves hi rfl rfl ?_ (Nat.add_le_add_right h.enough 1) fun _ => ⟨hpos, rfl⟩
  simp only [goto, Runner.granted, toNat_true, toNat_false]
  omega

theorem Inv.block (hi : s.runners[i]? = some ⟨permanent, .announced⟩) (hze : ¬0 < s.upCount) :
    Inv (s.goto i permanent .waiting) :=
  h.moves hi rfl rfl rfl (Nat.add_le_add_right h.enough 1) fun hup => absurd hup hze

theorem Inv.interrupt (hi : s.runners[i]? = some ⟨permanent, .waiting⟩) (hok : permanent = true ∨ s.Spare) :
    Inv (s.goto i permanent .interrupted) := by
  refine h.moves hi rfl rfl rfl ?_ fun hup => ⟨hup, rfl⟩
  have heno := h.enough
  rcases hok with rfl | hspare
  · exact Nat.add_le_add_right heno 1
  · exact le_add_right_of_le (h.lt_free_of_spare hspare)

/-- A runner that is counted is a part of the count. -/
theorem Inv.available_pos (hi : s.runners[i]? = some ⟨permanent, old⟩) (hc : Runner.counted ⟨permanent, old⟩ = true) :
    0 < s.runnersAvailable := by
  rw [h.counted]
  exact countP_pos_iff.2 ⟨_, mem_of_getElem? hi, hc⟩

theorem Inv.withdraw (hi : s.runners[i]? = some ⟨permanent, .interrupted⟩) :
    Inv ({ s with runnersAvailable := s.runnersAvailable - 1 }.goto i permanent (again permanent)) := by
  have hpos := h.available_pos hi rfl
  have hsub : s.runnersAvailable - 1 + 1 = s.runnersAvailable := Nat.sub_add_cancel hpos
  cases permanent with
  | true => exact h.moves hi rfl hsub rfl (Nat.add_le_add_right h.enough 1) fun hup => ⟨hup, rfl⟩
  | false => exact h.moves hi rfl hsub rfl (Nat.add_le_add_right h.enough 0) fun hup => ⟨hup, rfl⟩

/-- A runner that lowered the semaphore finds a function. -/
theorem Inv.queue_ne_nil (hi : s.runners[i]? = some ⟨permanent, .granted⟩) : s.queue ≠ [] := by
  intro hnil
  have hrai := h.raised
  have hpos : 0 < s.number (·.granted) := countP_pos_iff.2 ⟨_, mem_of_getElem? hi, rfl⟩
  rw [hnil, length_nil] at hrai
  omega

theorem Inv.take (hi : s.runners[i]? = some ⟨permanent, .granted⟩) : Inv (s.take i permanent) := by
  have hpos := h.available_pos hi rfl
  have heno := h.enough
  unfold KernelAsync.take
  dsimp only
  split
  · rename_i hnil
    exact absurd hnil (h.queue_ne_nil hi)
  · rename_i fn fns hque
    rw [hque] at heno
    refine h.moves hi rfl (Nat.sub_add_cancel hpos) ?_ (Nat.le_add_right_of_le heno) fun hup => ⟨hup, rfl⟩
    simp only [goto, Runner.granted, toNat_true, toNat_false, hque, length_cons]
    omega

theorem Inv.finish {fn : α} (hi : s.runners[i]? = some ⟨permanent, .running fn⟩) :
    Inv (s.goto i permanent (again permanent)) := by
  cases permanent with
  | true => exact h.moves hi rfl rfl rfl (le_add_right_of_le h.enough) fun hup => ⟨hup, rfl⟩
  | false => exact h.moves hi rfl rfl rfl h.enough fun hup => ⟨hup, rfl⟩

end Moves

/-- Every step that is provided for keeps the invariant. -/
theorem Inv.step {a : KernelAsyncAction α} (hok : Provided s a) {s' : KernelAsync α} (hs : s.step a = some s') : Inv s' := by
  cases a with simp only [KernelAsync.step] at hs
  | kernelAsync fn => exact some.inj hs ▸ h.kernelAsync hok
  | up i =>
    split at hs
    · rename_i permanent hi
      obtain ⟨hpos, rfl⟩ := of_guarded hs
      exact h.up hi hpos
    · cases hs
  | upNobody =>
    obtain ⟨⟨hpos, hno⟩, rfl⟩ := of_guarded hs
    exact h.upNobody hpos hno
  | announce i =>
    split at hs <;> cases hs
    rename_i permanent hi
    exact h.announce hi
  | down i =>
    split at hs
    · rename_i permanent hi
      split at hs
      · rename_i hpos
        exact some.inj hs ▸ h.lower hi hpos
      · rename_i hze
        exact some.inj hs ▸ h.block hi hze
    · cases hs
  | interrupt i =>
    split at hs <;> cases hs
    rename_i permanent hi
    have hok : permanent = true ∨ s.Spare := by simpa [Provided, hi] using hok
    exact h.interrupt hi hok
  | withdraw i =>
    split at hs <;> cases hs
    rename_i permanent hi
    exact h.withdraw hi
  | take i =>
    split at hs <;> cases hs
    rename_i permanent hi
    exact h.take hi
  | finish i =>
    split at hs <;> cases hs
    rename_i permanent fn hi
    exact h.finish hi

end

/-! ## The queue can be emptied -/

/-- A run of idle runners after which one function fewer is queued. -/
def Takes (s : KernelAsync α) : Prop :=
  ∃ actions s', machine.run s actions = some s' ∧ (∀ a ∈ actions, a.idle = true) ∧ Inv s' ∧ s'.raising = s.raising ∧
    s'.queue.length + 1 = s.queue.length

/-- An idle step before a run that takes a function. -/
theorem Takes.cons {a : KernelAsyncAction α} {s₁ : KernelAsync α} (hst : s.step a = some s₁) (ha : a.idle = true)
    (hrs : s₁.raising = s.raising) (hque : s₁.queue = s.queue) (h : s₁.Takes) : s.Takes := by
  obtain ⟨actions, s', hrun, hid, hinv, hr, hlen⟩ := h
  refine ⟨a :: actions, s', (run_cons hst).trans hrun, ?_, hinv, hr.trans hrs, hque ▸ hlen⟩
  intro b hb
  rcases mem_cons.1 hb with rfl | hb
  · exact ha
  · exact hid b hb

section Progress

variable {i : Nat} {permanent : Bool} {old : RunnerPlace α}

/-- The runner that went somewhere is there. -/
theorem getElem?_goto (hi : s.runners[i]? = some ⟨permanent, old⟩) (place : RunnerPlace α) :
    (s.goto i permanent place).runners[i]? = some ⟨permanent, place⟩ := by
  obtain ⟨hlt, _⟩ := List.getElem?_eq_some_iff.1 hi
  exact getElem?_set_self hlt

theorem Inv.takes_of_granted (h : Inv s) (hi : s.runners[i]? = some ⟨permanent, .granted⟩) : s.Takes := by
  have hst : s.step (.take i) = some (s.take i permanent) := by simp [KernelAsync.step, hi]
  refine ⟨[.take i], _, run_cons hst, by simp [KernelAsyncAction.idle], h.take hi, ?_⟩
  unfold KernelAsync.take
  dsimp only
  split
  · rename_i hnil
    exact absurd hnil (h.queue_ne_nil hi)
  · rename_i fn fns hque
    rw [hque]
    exact ⟨rfl, rfl⟩

theorem Inv.takes_of_announced (h : Inv s) (hi : s.runners[i]? = some ⟨permanent, .announced⟩) (hup : 0 < s.upCount) : s.Takes := by
  have hst : s.step (.down i) = some ({ s with upCount := s.upCount - 1 }.goto i permanent .granted) := by
    simp [KernelAsync.step, hi, hup]
  exact Takes.cons hst rfl rfl rfl ((h.lower hi hup).takes_of_granted (getElem?_goto hi .granted))

theorem Inv.takes_of_starting (h : Inv s) (hi : s.runners[i]? = some ⟨permanent, .starting⟩) (hup : 0 < s.upCount) : s.Takes := by
  have hst : s.step (.announce i) = some ({ s with runnersAvailable := s.runnersAvailable + 1 }.goto i permanent .announced) := by
    simp [KernelAsync.step, hi]
  exact Takes.cons hst rfl rfl rfl ((h.announce hi).takes_of_announced (getElem?_goto hi .announced) hup)

theorem Inv.takes_of_interrupted (h : Inv s) (hi : s.runners[i]? = some ⟨true, .interrupted⟩) (hup : 0 < s.upCount) : s.Takes := by
  have hst : s.step (.withdraw i) = some ({ s with runnersAvailable := s.runnersAvailable - 1 }.goto i true .starting) := by
    simp [KernelAsync.step, hi, again]
  exact Takes.cons hst rfl rfl rfl ((h.withdraw hi).takes_of_starting (getElem?_goto hi .starting) hup)

end Progress

/-- When no call is in progress and a function is queued, an idle runner gets to it. -/
theorem Inv.takes (h : Inv s) (hrs : s.raising = 0) (hque : s.queue ≠ []) : s.Takes := by
  have hlen := length_pos_iff.2 hque
  have hrai := h.raised
  by_cases hgran : 0 < s.number (·.granted)
  · obtain ⟨⟨permanent, place⟩, hr, hpl⟩ := countP_pos_iff.1 hgran
    obtain ⟨i, hi⟩ := getElem?_of_mem hr
    cases place with
    | granted => exact h.takes_of_granted hi
    | starting | announced | waiting | interrupted | running _ | finished => cases hpl
  · -- the semaphore was raised for the functions, so that no runner is blocked on it
    have hup : 0 < s.upCount := by omega
    have hasl := countP_eq_zero.1 (h.asleep hup)
    obtain ⟨⟨permanent, place⟩, hr, hfr⟩ := countP_pos_iff.1 (lt_of_lt_of_le hlen h.enough)
    obtain ⟨i, hi⟩ := getElem?_of_mem hr
    cases place with
    | starting => exact h.takes_of_starting hi hup
    | announced => exact h.takes_of_announced hi hup
    | waiting => exact absurd rfl (hasl _ hr)
    | granted => exact h.takes_of_granted hi
    | interrupted =>
      obtain rfl : permanent = true := hfr
      exact h.takes_of_interrupted hi hup
    | running _ | finished => cases hfr

/-- Idle runners take the functions one after the other. -/
theorem Inv.drains (n : Nat) : ∀ {s : KernelAsync α}, Inv s → s.raising = 0 → s.queue.length = n →
    ∃ actions s', machine.run s actions = some s' ∧ (∀ a ∈ actions, a.idle = true) ∧ s'.queue = [] := by
  induction n with
  | zero =>
    intro s _ _ hlen
    exact ⟨[], s, rfl, nofun, eq_nil_of_length_eq_zero hlen⟩
  | succ n ih =>
    intro s h hrs hlen
    obtain ⟨first, s₁, hrun₁, hid₁, hinv, hr, hlen₁⟩ := h.takes hrs (by rintro hnil; rw [hnil] at hlen; cases hlen)
    obtain ⟨rest, s', hrun, hid, hnil⟩ := ih hinv (hr.trans hrs) (by omega)
    refine ⟨first ++ rest, s', run_append hrun₁ hrun, ?_, hnil⟩
    intro a ha
    rcases mem_append.1 ha with ha | ha
    · exact hid₁ a ha
    · exact hid a ha

/-- Queued functions have free runners, in every run in which a function is queued, and a temporary runner interrupted, only
when that is provided for. -/
theorem free_runners_of_provided (h : machine.Reaches Provided s) : FreeRunners s := by
  have hinv : Inv s := Machine.Reaches.invariant inv_init (fun hinv hok => hinv.step hok) h
  exact ⟨fun _ => hinv.enough, fun hrs => Inv.drains _ hinv hrs rfl⟩

/-- Two functions that run side by side, and a third one for the runner that is free again. -/
theorem free_runners_of_provided_three : ∃ s : KernelAsync Nat, machine.runOk Provided init
      [.kernelAsync 1, .upNobody, .announce 0, .down 0, .take 0, .kernelAsync 2, .upNobody, .announce 1, .down 1, .take 1,
        .finish 0, .announce 0, .down 0, .kernelAsync 3, .up 0] = some s ∧ s.queue = [3] ∧ FreeRunners s := by
  refine (exists_of_runOk ?_).imp fun s h => ⟨h.1, h.2, free_runners_of_provided (reaches_of_runOk h.1)⟩
  decide

/-- Two functions are queued while one runner counts itself as available: the second call starts no runner for its function. -/
theorem free_runners_false : ¬∀ s : KernelAsync Nat, machine.Reachable s → FreeRunners s := by
  intro h
  obtain ⟨s, hs, hrs, hlt⟩ := exists_reachable_of_run (M := machine)
    [.kernelAsync 1, .upNobody, .announce 0, .down 0, .take 0, .finish 0, .announce 0, .down 0, .kernelAsync 2,
      .kernelAsync 3, .up 0, .upNobody]
    (P := fun s => s.raising = 0 ∧ ¬s.queue.length ≤ s.number (·.free)) (by decide)
  exact hlt ((h s hs).enough hrs)

end KernelAsync

end Osxie.Server
