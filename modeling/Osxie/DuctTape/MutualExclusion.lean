import Osxie.DuctTape.Mutex

/-!
# Mutual exclusion of the mutex

The invariant ties the place of each caller to the two words of the mutex (`Placed`): inside the queue lock it has the queue
lock, from its write to its clearing of the owner word a microthread is the owner, and a native holder has the queue lock while
there is no owner. A caller changes the owner word only while it has the queue lock and no other microthread is the owner, and
takes or gives up the queue lock only for itself (`Moves`); so it does not disturb the places of the others.
-/

namespace Osxie.DuctTape

open List Option
open Function (update_self update_of_ne)

namespace Mutex

/-- The places between taking and giving up the queue lock. -/
def inside : Pc → Bool
  | .nativeLockTest | .nativeLockRelease | .lockTestZero | .lockTestSelf | .lockWrite | .lockRelease | .lockEnqueue
  | .lockSuspend | .lockSuspendRelease | .nativeTryTest | .nativeTryRelease | .unlockClear | .unlockFirst | .unlockResume _
  | .unlockRelease => true
  | _ => false

/-- The places of an unlock after it has cleared the owner word. -/
def cleared : Pc → Bool
  | .unlockFirst | .unlockResume _ | .unlockRelease => true
  | _ => false

/-- The places of a microthread's try_lock between its assertion and its return. -/
def trying : Pc → Bool
  | .tryTestZero | .tryTestSelf => true
  | _ => false

/-- The places that say nothing about the owner word, beyond what holding the mutex and having cleared the word say. -/
def silent : Pc → Bool
  | .lockWrite | .lockRelease | .tryTestZero | .tryTestSelf => false
  | _ => true

/-- The places a caller can be at, given what it holds. -/
def canBe (holds : Bool) : Caller → Pc → Bool
  | _, .idle => true
  | .micro _, .lockAssert | .micro _, .lockAcquire | .micro _, .lockTestZero | .micro _, .lockTestSelf | .micro _, .lockWrite
  | .micro _, .lockRelease | .micro _, .lockEnqueue | .micro _, .lockSuspend | .micro _, .lockSuspendRelease | .micro _, .asleep
  | .micro _, .tryAssert | .micro _, .tryTestZero | .micro _, .tryTestSelf => true
  | .micro _, .unlockAssert | .micro _, .unlockAcquire | .micro _, .unlockClear | .micro _, .unlockFirst
  | .micro _, .unlockResume _ | .micro _, .unlockRelease => holds
  | .native _, .nativeLock | .native _, .nativeTry => true
  | .native _, .nativeLockTest | .native _, .nativeLockRelease | .native _, .nativeTryTest | .native _, .nativeTryRelease => !holds
  | .native _, .nativeUnlock => holds
  | _, _ => false

/-- What the place of a caller says about the two words of the mutex. -/
structure Placed (owner : Option Nat) (queueLock : Option Caller) (c : Caller) (pc : Pc) (holds : Bool) : Prop where
  can_be : canBe holds c pc = true
  has_lock : inside pc = true → queueLock = some c
  native_has_lock : c.self = none → holds = true → queueLock = some c ∧ owner = none
  owns : c.self ≠ none → holds = true → cleared pc = false → owner = c.self
  owns_new : pc = .lockRelease → owner = c.self
  may_write : pc = .lockWrite → owner = none ∨ owner = c.self
  no_owner : cleared pc = true → owner = none
  not_owner : trying pc = true → owner ≠ c.self

def Inv (s : Mutex) : Prop := ∀ c, Placed s.owner s.queueLock c (s.pc c) (s.holds c)

/-- A step of one caller: the others stay where they are, the queue lock changes only from or to free on its behalf, and the
owner word changes only while it has the queue lock and no other microthread is the owner. -/
structure Moves (s : Mutex) (c : Caller) (s' : Mutex) : Prop where
  pc_eq : ∀ c', c' ≠ c → s'.pc c' = s.pc c'
  holds_eq : ∀ c', c' ≠ c → s'.holds c' = s.holds c'
  queueLock : s'.queueLock = s.queueLock ∨ s.queueLock = none ∨ s.queueLock = some c
  owner : s'.owner = s.owner ∨ s.queueLock = some c ∧ (s.owner = none ∨ s.owner = c.self) ∧ (s'.owner = none ∨ s'.owner = c.self)

theorem self_inj {c c' : Caller} (h : c.self ≠ none) (heq : c.self = c'.self) : c = c' := by
  cases c <;> cases c' <;> simp_all [Caller.self]

variable {pc : Pc} {c : Caller} {holds : Bool} {s : Mutex}

/-- The clearing places and the write are inside the queue lock. -/
theorem inside_of_cleared (h : cleared pc = true) : inside pc = true := by
  cases pc <;> first | rfl | cases h

/-- Only a microthread is at these places. -/
theorem self_ne_none_of_trying (hcan : canBe holds c pc = true) (h : trying pc = true) : c.self ≠ none := by
  cases c with
  | micro n => exact some_ne_none n
  | native n => cases pc <;> simp [trying, canBe] at h hcan

/-- A step of another caller does not disturb a placed caller. -/
theorem Placed.frame {s' : Mutex} {c c' : Caller} (h : Placed s.owner s.queueLock c' (s.pc c') (s.holds c')) (hm : Moves s c s')
    (hne : c' ≠ c) : Placed s'.owner s'.queueLock c' (s'.pc c') (s'.holds c') := by
  rw [hm.pc_eq c' hne, hm.holds_eq c' hne]
  -- whoever has the queue lock keeps it, and sees no change of the owner word
  have hlk : s.queueLock = some c' → s'.queueLock = some c' ∧ s'.owner = s.owner := by
    intro hl
    have hnc : s.queueLock ≠ some c := by
      rw [hl]
      intro heq
      exact hne (some.inj heq)
    constructor
    · rcases hm.queueLock with heq | hno | hc
      · rw [heq, hl]
      · rw [hl] at hno
        cases hno
      · exact absurd hc hnc
    · rcases hm.owner with heq | ⟨hc, -, -⟩
      · exact heq
      · exact absurd hc hnc
  have hown : c'.self ≠ none → s.owner = c'.self → s'.owner = c'.self := by
    intro hse ho
    rcases hm.owner with heq | ⟨-, hno | hc, -⟩
    · rw [heq, ho]
    · rw [ho] at hno
      exact absurd hno hse
    · rw [ho] at hc
      exact absurd (self_inj hse hc) hne
  refine ⟨h.can_be, ?_, ?_, ?_, ?_, ?_, ?_, ?_⟩
  · intro hin
    exact (hlk (h.has_lock hin)).1
  · intro hse hh
    obtain ⟨hl, ho⟩ := h.native_has_lock hse hh
    obtain ⟨hl', ho'⟩ := hlk hl
    exact ⟨hl', ho'.trans ho⟩
  · intro hse hh hcl
    exact hown hse (h.owns hse hh hcl)
  · intro hpc
    have hin : inside (s.pc c') = true := by rw [hpc]; rfl
    rw [(hlk (h.has_lock hin)).2]
    exact h.owns_new hpc
  · intro hpc
    have hin : inside (s.pc c') = true := by rw [hpc]; rfl
    rw [(hlk (h.has_lock hin)).2]
    exact h.may_write hpc
  · intro hcl
    rw [(hlk (h.has_lock (inside_of_cleared hcl))).2]
    exact h.no_owner hcl
  · intro htry
    have hse := self_ne_none_of_trying h.can_be htry
    rcases hm.owner with heq | ⟨-, -, hno | hc⟩
    · rw [heq]
      exact h.not_owner htry
    · rw [hno]
      exact hse.symm
    · rw [hc]
      intro heq
      exact hne (self_inj hse heq.symm)

/-- The invariant is kept by a step of one caller that leaves this caller placed. -/
theorem Inv.of_moves {s' : Mutex} (h : Inv s) (hm : Moves s c s') (hc : Placed s'.owner s'.queueLock c (s'.pc c) (s'.holds c)) :
    Inv s' := by
  intro c'
  by_cases heq : c' = c
  · rw [heq]
    exact hc
  · exact (h c').frame hm heq

/-! ## What the parts of a step change -/

@[simp] theorem goto_owner : (s.goto c pc).owner = s.owner := rfl
@[simp] theorem goto_queueLock : (s.goto c pc).queueLock = s.queueLock := rfl
@[simp] theorem goto_holds : (s.goto c pc).holds = s.holds := rfl
@[simp] theorem goto_pc : (s.goto c pc).pc c = pc := update_self _ _ _
@[simp] theorem release_owner : (s.release c pc).owner = s.owner := rfl
@[simp] theorem release_queueLock : (s.release c pc).queueLock = none := rfl
@[simp] theorem release_holds : (s.release c pc).holds = s.holds := rfl
@[simp] theorem release_pc : (s.release c pc).pc c = pc := update_self _ _ _
@[simp] theorem finish_owner : (s.finish c holds).owner = s.owner := rfl
@[simp] theorem finish_queueLock : (s.finish c holds).queueLock = s.queueLock := rfl
@[simp] theorem finish_holds : (s.finish c holds).holds c = holds := update_self _ _ _
@[simp] theorem finish_pc : (s.finish c holds).pc c = .idle := update_self _ _ _

theorem Moves.goto (s : Mutex) (c : Caller) (pc : Pc) : Moves s c (s.goto c pc) where
  pc_eq _ hne := update_of_ne hne _ _
  holds_eq _ _ := rfl
  queueLock := .inl rfl
  owner := .inl rfl

theorem Moves.finish (s : Mutex) (c : Caller) (b : Bool) : Moves s c (s.finish c b) where
  pc_eq _ hne := update_of_ne hne _ _
  holds_eq _ hne := update_of_ne hne _ _
  queueLock := .inl rfl
  owner := .inl rfl

theorem Moves.release (h : s.queueLock = some c) (pc : Pc) : Moves s c (s.release c pc) where
  pc_eq _ hne := update_of_ne hne _ _
  holds_eq _ _ := rfl
  queueLock := .inr (.inr h)
  owner := .inl rfl

theorem Moves.release_finish (h : s.queueLock = some c) (pc : Pc) (b : Bool) :
    Moves s c ((s.release c pc).finish c b) where
  pc_eq c' hne := by
    rw [(Moves.finish (s.release c pc) c b).pc_eq c' hne, (Moves.release h pc).pc_eq c' hne]
  holds_eq _ hne := update_of_ne hne _ _
  queueLock := .inr (.inr h)
  owner := .inl rfl

/-- Taking the queue lock: it was free, and the caller has it. -/
theorem acquire_eq_some {s' : Mutex} (h : s.acquire c pc = some s') :
    s.queueLock = none ∧ s' = { s with queueLock := some c }.goto c pc := by
  obtain ⟨hfr, rfl⟩ := of_guarded h
  exact ⟨hfr, rfl⟩

variable {queueLock : Option Caller}

/-- A caller whose new place says no more about the mutex than its place before. -/
theorem Placed.goto {owner : Option Nat} {pc' : Pc} (h : Placed owner queueLock c pc holds) (hcan : canBe holds c pc' = true)
    (hin : inside pc' = true → inside pc = true) (hcl : cleared pc' = cleared pc) (hrel : pc' ≠ .lockRelease)
    (hwr : pc' = .lockWrite → owner = none ∨ owner = c.self) (htry : trying pc' = true → owner ≠ c.self) :
    Placed owner queueLock c pc' holds where
  can_be := hcan
  has_lock hi := h.has_lock (hin hi)
  native_has_lock := h.native_has_lock
  owns hse hh hc := h.owns hse hh (hcl ▸ hc)
  owns_new heq := absurd heq hrel
  may_write := hwr
  no_owner hc := h.no_owner (hcl ▸ hc)
  not_owner := htry

/-- The invariant is kept when a caller goes to a place at which it is placed. -/
theorem Inv.goto (hinv : Inv s) (hc : Placed s.owner s.queueLock c pc (s.holds c)) : Inv (s.goto c pc) := by
  refine hinv.of_moves (Moves.goto s c pc) ?_
  simp only [goto_owner, goto_queueLock, goto_holds, goto_pc]
  exact hc

/-- The invariant is kept when a caller takes the queue lock, if its new place says nothing more about the mutex. -/
theorem Inv.acquire {s' : Mutex} (hinv : Inv s) (h : s.acquire c pc = some s')
    (hcan : s.queueLock = none → canBe (s.holds c) c pc = true) (hold : cleared (s.pc c) = false) (hcl : cleared pc = false)
    (hrel : pc ≠ .lockRelease) (hwr : pc ≠ .lockWrite) (htry : trying pc = false) : Inv s' := by
  obtain ⟨hfr, rfl⟩ := acquire_eq_some h
  refine hinv.of_moves (c := c) ⟨?_, fun _ _ => rfl, .inr (.inl hfr), .inl rfl⟩ ?_
  · intro c' hne
    exact update_of_ne hne _ _
  · simp only [goto_owner, goto_queueLock, goto_holds, goto_pc]
    refine ⟨hcan hfr, fun _ => rfl, ?_, ?_, fun h => absurd h hrel, fun h => absurd h hwr, fun h => ?_, fun h => ?_⟩
    · intro hse hh
      have := ((hinv c).native_has_lock hse hh).1
      rw [hfr] at this
      cases this
    · intro hse hh _
      exact (hinv c).owns hse hh hold
    · rw [hcl] at h
      cases h
    · rw [htry] at h
      cases h

/-- The invariant is kept when a caller inside the queue lock gives it up and goes to a place that says nothing about the
mutex. -/
theorem Inv.release (hinv : Inv s) (hlk : s.queueLock = some c) (hcan : canBe (s.holds c) c pc = true)
    (hnat : c.self = none → s.holds c = false) (hold : cleared (s.pc c) = false) (hin : inside pc = false)
    (htry : trying pc = false) : Inv (s.release c pc) := by
  refine hinv.of_moves (Moves.release hlk pc) ?_
  simp only [release_owner, release_queueLock, release_holds, release_pc]
  refine ⟨hcan, ?_, ?_, ?_, ?_, ?_, ?_, ?_⟩
  · rw [hin]
    intro h
    cases h
  · intro hse hh
    rw [hnat hse] at hh
    cases hh
  · intro hse hh _
    exact (hinv c).owns hse hh hold
  · rintro rfl
    cases hin
  · rintro rfl
    cases hin
  · intro hcl
    rw [inside_of_cleared hcl] at hin
    cases hin
  · rw [htry]
    intro h
    cases h

/-- Outside, a caller that holds nothing is placed whatever the mutex is. -/
theorem placed_idle (owner : Option Nat) (queueLock : Option Caller) (c : Caller) : Placed owner queueLock c .idle false := by
  refine ⟨?_, ?_, ?_, ?_, ?_, ?_, ?_, ?_⟩
  · cases c <;> rfl
  all_goals simp [inside, cleared, trying]

/-- Whoever can be at the first place can be at the second. -/
def allows (pc pc' : Pc) : Bool :=
  [false, true].all fun holds => [Caller.micro 0, .native 0].all fun c => !canBe holds c pc || canBe holds c pc'

theorem canBe_of {pc' : Pc} (h : canBe holds c pc = true) (hall : allows pc pc' = true) : canBe holds c pc' = true := by
  have hn (pc : Pc) (n : Nat) : canBe holds (.micro n) pc = canBe holds (.micro 0) pc ∧
      canBe holds (.native n) pc = canBe holds (.native 0) pc := by
    cases pc <;> exact ⟨rfl, rfl⟩
  simp only [allows, all_cons, all_nil, Bool.and_true, Bool.and_eq_true, Bool.or_eq_true, Bool.not_eq_true'] at hall
  cases c with
  | micro n | native n =>
    cases holds <;> simp_all

/-- A caller whose new place is silent, and says no more than its place before. -/
theorem Placed.silent {owner : Option Nat} {pc' : Pc} (h : Placed owner queueLock c pc holds) (hcan : canBe holds c pc' = true)
    (hin : inside pc' = true → inside pc = true) (hcl : cleared pc' = cleared pc) (hsil : Mutex.silent pc' = true) :
    Placed owner queueLock c pc' holds := by
  refine h.goto hcan hin hcl ?_ ?_ ?_
  · rintro rfl
    cases hsil
  · rintro rfl
    cases hsil
  · intro htry
    cases pc' with
    | tryTestZero | tryTestSelf => cases hsil
    | _ => cases htry

/-- From the first place a caller can go on to the second, which is silent and says no more. -/
def passes (pc pc' : Pc) : Bool := allows pc pc' && (!inside pc' || inside pc) && cleared pc' == cleared pc && silent pc'

/-- The invariant is kept when a caller goes on to such a place. -/
theorem Inv.pass {pc' : Pc} (hinv : Inv s) (hp : Placed s.owner s.queueLock c pc (s.holds c)) (h : passes pc pc' = true) :
    Inv (s.goto c pc') := by
  simp only [passes, Bool.and_eq_true, beq_iff_eq] at h
  obtain ⟨⟨⟨hall, hin⟩, hcl⟩, hsil⟩ := h
  exact hinv.goto (hp.silent (canBe_of hp.can_be hall) (by simpa [or_iff_not_imp_left] using hin) hcl hsil)

theorem canBe_idle (holds : Bool) (c : Caller) : canBe holds c .idle = true := by
  cases c <;> rfl

/-- A caller at a place where no native thread can be is a microthread. -/
theorem self_ne_none (h : canBe holds c pc = true) (hpc : ∀ n, canBe holds (.native n) pc = false) : c.self ≠ none := by
  cases c with
  | micro n => exact some_ne_none n
  | native n =>
    rw [hpc n] at h
    cases h

/-- A caller at a place where no microthread can be is a native thread. -/
theorem self_eq_none (h : canBe holds c pc = true) (hpc : ∀ n, canBe holds (.micro n) pc = false) : c.self = none := by
  cases c with
  | native n => rfl
  | micro n =>
    rw [hpc n] at h
    cases h

/-! ## One step -/

section

variable (hinv : Inv s)

include hinv

/-- A native thread that finds no owner inside the queue lock keeps it and holds the mutex. -/
theorem Inv.nativeHold (hse : c.self = none) (hlk : s.queueLock = some c) (hown : s.owner = none) : Inv (s.finish c true) := by
  refine hinv.of_moves (Moves.finish s c true) ?_
  simp only [finish_owner, finish_queueLock, finish_holds, finish_pc]
  refine ⟨canBe_idle true c, ?_, ?_, ?_, ?_, ?_, ?_, ?_⟩
  · intro h
    cases h
  · exact fun _ _ => ⟨hlk, hown⟩
  · exact fun hne => absurd hse hne
  all_goals simp [cleared, trying]

/-- A microthread that is the owner gives up the queue lock and holds the mutex. -/
theorem Inv.microHold (hse : c.self ≠ none) (hlk : s.queueLock = some c) (hown : s.owner = c.self) :
    Inv ((s.release c .idle).finish c true) := by
  refine hinv.of_moves (Moves.release_finish hlk .idle true) ?_
  simp only [finish_owner, finish_queueLock, finish_holds, finish_pc, release_owner, release_queueLock]
  refine ⟨canBe_idle true c, ?_, ?_, ?_, ?_, ?_, ?_, ?_⟩
  · intro h
    cases h
  · exact fun heq => absurd heq hse
  · exact fun _ _ _ => hown
  all_goals simp [cleared, trying]

/-- A caller that has the queue lock gives it up and holds nothing. -/
theorem Inv.drop (hlk : s.queueLock = some c) : Inv ((s.release c .idle).finish c false) := by
  refine hinv.of_moves (Moves.release_finish hlk .idle false) ?_
  simp only [finish_owner, finish_queueLock, finish_holds, finish_pc, release_owner, release_queueLock]
  exact placed_idle _ _ c

/-- A microthread writes the owner word. -/
theorem Inv.write (hpc : s.pc c = .lockWrite) : Inv ({ s with owner := c.self }.goto c .lockRelease) := by
  have hp := hinv c
  rw [hpc] at hp
  have hse := self_ne_none hp.can_be (fun _ => rfl)
  have hlk := hp.has_lock rfl
  refine hinv.of_moves ⟨?_, fun _ _ => rfl, .inl rfl, .inr ⟨hlk, hp.may_write rfl, .inr rfl⟩⟩ ?_
  · intro c' hne
    exact update_of_ne hne _ _
  · simp only [goto_owner, goto_queueLock, goto_holds, goto_pc]
    refine ⟨canBe_of hp.can_be rfl, fun _ => hlk, fun heq => absurd heq hse, fun _ _ _ => rfl,
      fun _ => rfl, ?_, ?_, ?_⟩
    all_goals simp [cleared, trying]

/-- A microthread clears the owner word. -/
theorem Inv.clear (hpc : s.pc c = .unlockClear) : Inv ({ s with owner := none }.goto c .unlockFirst) := by
  have hp := hinv c
  rw [hpc] at hp
  have hse := self_ne_none hp.can_be (fun _ => rfl)
  have hlk := hp.has_lock rfl
  have hhl : s.holds c = true := by
    have hcan := hp.can_be
    cases c with
    | micro n => exact hcan
    | native n => exact absurd rfl hse
  have hown := hp.owns hse hhl rfl
  refine hinv.of_moves ⟨?_, fun _ _ => rfl, .inl rfl, .inr ⟨hlk, .inr hown, .inl rfl⟩⟩ ?_
  · intro c' hne
    exact update_of_ne hne _ _
  · simp only [goto_owner, goto_queueLock, goto_holds, goto_pc]
    refine ⟨canBe_of hp.can_be rfl, fun _ => hlk, fun heq => absurd heq hse, ?_, ?_, ?_,
      fun _ => rfl, ?_⟩
    all_goals simp [cleared, trying]

/-- While the queue lock is free, a native thread holds nothing. -/
theorem Inv.not_holds_of_free (hse : c.self = none) (hfr : s.queueLock = none) : s.holds c = false := by
  cases hh : s.holds c with
  | false => rfl
  | true =>
    have hlk := ((hinv c).native_has_lock hse hh).1
    rw [hfr] at hlk
    cases hlk

/-- A native thread takes the queue lock to test the owner word. -/
theorem Inv.nativeAcquire {s' : Mutex} (h : s.acquire c pc = some s') (hse : c.self = none) (hold : cleared (s.pc c) = false)
    (hpc : pc = .nativeLockTest ∨ pc = .nativeTryTest) : Inv s' := by
  obtain ⟨n, rfl⟩ : ∃ n, c = .native n := by
    cases c with
    | native n => exact ⟨n, rfl⟩
    | micro n => cases hse
  have hcan : s.queueLock = none → canBe (s.holds (.native n)) (.native n) pc = true := by
    intro hfr
    rw [hinv.not_holds_of_free rfl hfr]
    rcases hpc with rfl | rfl <;> rfl
  rcases hpc with rfl | rfl
  · exact hinv.acquire h hcan hold rfl (by simp) (by simp) rfl
  · exact hinv.acquire h hcan hold rfl (by simp) (by simp) rfl

omit hinv in
/-- A native thread at a place inside the queue lock does not hold the mutex. -/
theorem not_holds_of_native (hcan : canBe holds c pc = true) (hm : ∀ n, canBe holds (.micro n) pc = false)
    (hn : ∀ n, canBe holds (.native n) pc = !holds) : holds = false := by
  cases c with
  | micro n =>
    rw [hm n] at hcan
    cases hcan
  | native n =>
    rw [hn n] at hcan
    simpa using hcan

/-- Every access of a caller keeps the invariant, unless it is a try_lock that finds the owner word 0. -/
theorem Inv.advance {s' : Mutex} (hok : s.pc c = .tryTestZero → s.owner ≠ none) (h : s.advance c = some s') : Inv s' := by
  have hp := hinv c
  unfold Mutex.advance at h
  generalize hpc : s.pc c = pc at h hp
  cases pc with
  | idle | asleep =>
    cases h
  | nativeLock =>
    exact hinv.nativeAcquire h (self_eq_none hp.can_be (fun _ => rfl)) (by rw [hpc]; rfl) (.inl rfl)
  | nativeLockTest | nativeTryTest =>
    cases h
    split
    · rename_i hown
      exact hinv.nativeHold (self_eq_none hp.can_be (fun _ => rfl)) (hp.has_lock rfl) hown
    · exact hinv.pass hp rfl
  | nativeLockRelease | nativeTryRelease =>
    cases h
    have hhl := not_holds_of_native hp.can_be (fun _ => rfl) (fun _ => rfl)
    exact hinv.release (hp.has_lock rfl) (canBe_of hp.can_be rfl) (fun _ => hhl) (by rw [hpc]; rfl) rfl rfl
  | lockAssert =>
    obtain ⟨-, h⟩ := ite_none_left_eq_some.1 h
    cases h
    exact hinv.pass hp rfl
  | lockAcquire | unlockAcquire =>
    exact hinv.acquire h (fun _ => canBe_of hp.can_be rfl) (by rw [hpc]; rfl) rfl (by simp) (by simp) rfl
  | lockTestZero | lockTestSelf =>
    cases h
    split
    · rename_i hown
      exact hinv.goto (hp.goto (canBe_of hp.can_be rfl) (fun _ => rfl) rfl (by simp) (by simp [hown]) (by simp [trying]))
    · exact hinv.pass hp rfl
  | lockWrite =>
    cases h
    exact hinv.write hpc
  | lockRelease =>
    cases h
    exact hinv.microHold (self_ne_none hp.can_be (fun _ => rfl)) (hp.has_lock rfl) (hp.owns_new rfl)
  | lockEnqueue =>
    cases h
    have hinv' : Inv { s with queue := s.queue ++ c.self.toList } := hinv
    exact hinv'.pass hp rfl
  | lockSuspend =>
    cases h
    exact hinv.pass hp rfl
  | lockSuspendRelease =>
    cases h
    have hse := self_ne_none hp.can_be (fun _ => rfl)
    exact hinv.release (hp.has_lock rfl) (canBe_of hp.can_be rfl) (fun heq => absurd heq hse) (by rw [hpc]; rfl) rfl rfl
  | nativeTry =>
    simp only at h
    split at h
    · exact hinv.nativeAcquire h (self_eq_none hp.can_be (fun _ => rfl)) (by rw [hpc]; rfl) (.inr rfl)
    · cases h
      exact hinv.pass hp rfl
  | tryAssert =>
    obtain ⟨hown, h⟩ := ite_none_left_eq_some.1 h
    cases h
    exact hinv.goto (hp.goto (canBe_of hp.can_be rfl) (by simp [inside]) rfl (by simp) (by simp) (fun _ => hown))
  | tryTestZero =>
    cases h
    rw [if_neg (hok hpc)]
    exact hinv.goto (hp.goto (canBe_of hp.can_be rfl) (by simp [inside]) rfl (by simp) (by simp) (fun _ => hp.not_owner rfl))
  | tryTestSelf =>
    cases h
    rw [if_neg (hp.not_owner rfl)]
    exact hinv.pass hp rfl
  | tryWrite | tryRelease =>
    exact absurd hp.can_be (by cases c <;> simp [canBe])
  | nativeUnlock =>
    cases h
    have hse := self_eq_none hp.can_be (fun _ => rfl)
    have hhl : s.holds c = true := by
      have hcan := hp.can_be
      cases c with
      | native n => exact hcan
      | micro n => cases hse
    exact hinv.drop (hp.native_has_lock hse hhl).1
  | unlockAssert =>
    obtain ⟨-, rfl⟩ := of_guarded h
    exact hinv.pass hp rfl
  | unlockClear =>
    cases h
    exact hinv.clear hpc
  | unlockFirst =>
    simp only at h
    split at h
    · cases h
      exact hinv.pass hp rfl
    · rename_i t queue _
      cases h
      have hinv' : Inv { s with queue := queue } := hinv
      exact hinv'.pass hp rfl
  | unlockResume t =>
    cases h
    have hinv' : Inv { s with scheduled := if s.suspended t then s.scheduled ++ [t] else s.scheduled } := hinv
    exact hinv'.pass hp rfl
  | unlockRelease =>
    cases h
    exact hinv.drop (hp.has_lock rfl)

/-- A caller outside enters one of the functions. -/
theorem Inv.enter (hid : s.pc c = .idle) (hcan : canBe (s.holds c) c pc = true) (hin : inside pc = false)
    (hcl : cleared pc = false) (hsil : silent pc = true) : Inv (s.goto c pc) := by
  have hp := hinv c
  rw [hid] at hp
  exact hinv.goto (hp.silent hcan (fun hx => absurd hx (by rw [hin]; exact Bool.false_ne_true)) hcl hsil)

/-- Every step keeps the invariant, unless it is a try_lock that finds the owner word 0. -/
theorem Inv.step {s' : Mutex} {a : Action} (hok : NoFreeTry s a) (h : s.step a = some s') : Inv s' := by
  cases a with
  | lock c | tryLock c =>
    obtain ⟨hid, rfl⟩ := of_guarded h
    cases c <;> exact hinv.enter hid rfl rfl rfl rfl
  | unlock c =>
    obtain ⟨hid, rfl⟩ := of_guarded h
    cases c <;> exact hinv.enter hid.1 hid.2 rfl rfl rfl
  | advance c => exact hinv.advance hok h
  | dispatch t =>
    obtain ⟨-, rfl⟩ := of_guarded h
    have hinv' : Inv { s with scheduled := s.scheduled.erase t } := hinv
    unfold runScheduled
    split
    · rename_i hasl
      have hp := hinv (.micro t)
      rw [hasl] at hp
      exact hinv'.pass hp rfl
    · exact hinv'

omit hinv in
theorem inv_init : Inv init :=
  fun c => placed_idle none none c

/-! ## Safety -/

/-- A holder is the only one: a microthread through the owner word or, past its clearing, the queue lock, and a native thread
through the queue lock with no owner. -/
theorem Inv.exclusive {c c' : Caller} (h : s.holds c = true) (h' : s.holds c' = true) : c = c' := by
  -- each holder has the queue lock with no owner, or is the owner
  have key : ∀ {d : Caller}, s.holds d = true → (s.queueLock = some d ∧ s.owner = none) ∨ (d.self ≠ none ∧ s.owner = d.self) := by
    intro d hd
    by_cases hse : d.self = none
    · exact .inl ((hinv d).native_has_lock hse hd)
    · cases hcl : cleared (s.pc d) with
      | true => exact .inl ⟨(hinv d).has_lock (inside_of_cleared hcl), (hinv d).no_owner hcl⟩
      | false => exact .inr ⟨hse, (hinv d).owns hse hd hcl⟩
  rcases key h with ⟨hl, ho⟩ | ⟨hs, ho⟩ <;> rcases key h' with ⟨hl', ho'⟩ | ⟨hs', ho'⟩
  · rw [hl] at hl'
    exact some.inj hl'
  · rw [ho] at ho'
    exact absurd ho'.symm hs'
  · rw [ho'] at ho
    exact absurd ho.symm hs
  · exact self_inj hs (ho.symm.trans ho')

/-- Whoever is about to unlock the queue lock has it. -/
theorem Inv.released_by_owner (h : releases (s.pc c) = true) : s.queueLock = some c := by
  have hp := hinv c
  by_cases hin : inside (s.pc c) = true
  · exact hp.has_lock hin
  · cases hpc : s.pc c with
    | nativeUnlock =>
      rw [hpc] at hp
      cases c with
      | native n => exact (hp.native_has_lock rfl hp.can_be).1
      | micro n => exact absurd hp.can_be (by simp [canBe])
    | tryRelease =>
      rw [hpc] at hp
      exact absurd hp.can_be (by cases c <;> simp [canBe])
    | _ =>
      rw [hpc] at h hin
      first | exact absurd rfl hin | cases h

end

/-- In every run in which no microthread's try_lock tests the owner word while it is 0, at most one caller holds the mutex and the
queue lock is only unlocked by the caller that has it, in every state reached. -/
theorem mutex_safe_of_noFreeTry {s : Mutex} (h : machine.Reaches NoFreeTry s) : s.Safe := by
  have hinv : Inv s := Machine.Reaches.invariant inv_init (fun hinv => hinv.step) h
  exact ⟨fun c c' => hinv.exclusive, fun c => hinv.released_by_owner⟩

def nativeLocks : List Action := [.lock (.native 0), .advance (.native 0), .advance (.native 0)]

/-- Then a microthread tries to lock it: it finds the owner word 0, makes itself the owner and unlocks the queue lock. -/
def microTries : List Action :=
  [.tryLock (.micro 0), .advance (.micro 0), .advance (.micro 0), .advance (.micro 0), .advance (.micro 0)]

/-- Microthread 0 locks the mutex, microthread 1 waits for it, microthread 2 tries it in vain, and the unlock of microthread 0
resumes microthread 1, which takes it. -/
def handOver : List Action :=
  [.lock (.micro 0)] ++ List.replicate 5 (.advance (.micro 0)) ++ [.lock (.micro 1)] ++ List.replicate 7 (.advance (.micro 1)) ++
    [.tryLock (.micro 2)] ++ List.replicate 3 (.advance (.micro 2)) ++ [.unlock (.micro 0)] ++
    List.replicate 6 (.advance (.micro 0)) ++ [.dispatch 1] ++ List.replicate 4 (.advance (.micro 1))

/-- Only microthread 1 holds the mutex at the end. -/
theorem handOver_safe : ∃ s, machine.runOk NoFreeTry init handOver = some s ∧
    (s.holds (.micro 0) = false ∧ s.holds (.micro 1) = true ∧ s.holds (.micro 2) = false) ∧ s.Safe := by
  refine (Machine.exists_of_runOk ?_).imp fun s h => ⟨h.1, h.2, mutex_safe_of_noFreeTry (Machine.reaches_of_runOk h.1)⟩
  decide

/-- Both hold the mutex then. -/
theorem mutex_safe_false : ¬∀ s, machine.Reachable s → s.Safe := by
  intro h
  obtain ⟨s, hs, hnat, hmicro⟩ := Machine.exists_reachable_of_run (M := machine) (nativeLocks ++ microTries)
    (P := fun s => s.holds (.native 0) ∧ s.holds (.micro 0)) (by decide)
  exact absurd ((h s hs).exclusive _ _ hnat hmicro) (by decide)

end Mutex

end Osxie.DuctTape
