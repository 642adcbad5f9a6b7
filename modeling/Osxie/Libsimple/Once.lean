import Osxie.Lib.Machine
import Osxie.Lib.Threads

/-!
# Once

`libsimple_once` runs a callback for the first caller, and lets the others wait until it has finished. The word is untriggered,
triggered, triggered with waiters, or completed. The caller that triggers it runs the callback, exchanges the word for
completed, and wakes all when there were waiters. A waiter marks the word before it sleeps.

A thread is before one access to the word, or in the callback (`Pc`). How often the callback was started and finished, and
whether its caller has returned, is kept beside the word. The once of xtrace is the same code.
-/

namespace Osxie.Libsimple

open Threads

inductive OnceState
  | untriggered
  | triggeredUncontended
  | triggeredContended
  | completed
deriving DecidableEq

namespace Once

/-- The word, and what happened to the callback. -/
structure Word where
  state : OnceState
  started : Nat
  finished : Nat
  /-- The caller that ran the callback has returned. -/
  done : Bool
deriving DecidableEq

/-- Where a thread is: before its first call, in a call before the named access, or back from a call. -/
inductive Pc
  | idle
  /-- Before the callback. -/
  | triggered
  | running
  /-- Before the exchange for completed. -/
  | finished
  /-- Before `FUTEX_WAKE`. -/
  | wake
  /-- At the top of the loop, with what was seen last. -/
  | loop (prev : OnceState)
  /-- Before `FUTEX_WAIT`, which expects that there are waiters. -/
  | wait
  | asleep
  /-- After `FUTEX_WAIT`, before the word is loaded. -/
  | load
  | returned
deriving DecidableEq

/-- What a thread does next: it calls `libsimple_once`, goes on, or returns from `FUTEX_WAIT` for no reason. -/
inductive Op
  | call
  | advance
  | spurious
deriving DecidableEq

def call (w : Word) : Word × Pc :=
  if w.state = .untriggered then ({ w with state := .triggeredUncontended }, .triggered) else (w, .loop w.state)

/-- One access of a thread: the word and the place then. -/
def access (w : Word) : Pc → Op → Option (Word × Pc)
  | .idle, .call => some (call w)
  | .returned, .call => some (call w)
  | .triggered, .advance => some ({ w with started := w.started + 1 }, .running)
  | .running, .advance => some ({ w with finished := w.finished + 1 }, .finished)
  | .finished, .advance =>
    if w.state = .triggeredContended then some ({ w with state := .completed }, .wake)
    else some ({ w with state := .completed, done := true }, .returned)
  | .loop prev, .advance =>
    match prev with
    | .completed => some (w, .returned)
    | .triggeredUncontended =>
      if w.state = .triggeredUncontended then some ({ w with state := .triggeredContended }, .wait) else some (w, .loop w.state)
    | .triggeredContended => some (w, .wait)
    -- not one of the cases of the switch
    | .untriggered => some (w, .loop .untriggered)
  | .wait, .advance => some (w, if w.state = .triggeredContended then .asleep else .load)
  | .asleep, .spurious => some (w, .load)
  | .load, .advance => some (w, .loop w.state)
  | _, _ => none

variable {τ : Type} [DecidableEq τ]

abbrev State (τ : Type) := Threads τ Word Pc

/-- A thread's step, or its `FUTEX_WAKE`, which wakes every sleeper. -/
inductive Act (τ : Type)
  | step (t : τ) (op : Op)
  | wake (t : τ)
deriving DecidableEq

/-- Where a thread is when every sleeper has been woken. -/
def Pc.awoken : Pc → Pc
  | .asleep => .load
  | p => p

def step (s : State τ) : Act τ → Option (State τ)
  | .step t op => (access s.word (s.pc t) op).map (s.set t)
  | .wake t => if s.pc t = .wake then some ((s.moveAll Pc.awoken).set t ({ s.word with done := true }, .returned)) else none

/-- A once that was not called yet. -/
def machine (τ : Type) [DecidableEq τ] : Machine (State τ) (Act τ) where
  init := ⟨⟨.untriggered, 0, 0, false⟩, fun _ => .idle⟩
  step := step

/-! ## Invariant -/

/-- The places of the caller that runs the callback, up to the exchange. -/
def Pc.runs : Pc → Bool
  | .triggered | .running | .finished => true
  | _ => false

/-- What the place of a thread says about the word. -/
def Placed (w : Word) : Pc → Prop
  | .idle => True
  | .triggered => w.state ≠ .untriggered ∧ w.state ≠ .completed ∧ w.started = 0 ∧ w.finished = 0
  | .running => w.state ≠ .untriggered ∧ w.state ≠ .completed ∧ w.started = 1 ∧ w.finished = 0
  | .finished => w.state ≠ .untriggered ∧ w.state ≠ .completed ∧ w.started = 1 ∧ w.finished = 1
  | .wake => w.state = .completed ∧ w.done = false
  | .loop prev => w.state ≠ .untriggered ∧ prev ≠ .untriggered ∧ (prev = .completed → w.state = .completed)
  | .wait | .asleep | .load => w.state ≠ .untriggered
  | .returned => w.state = .completed

def WordOk (w : Word) : Prop :=
  match w.state with
  | .untriggered => w.started = 0 ∧ w.finished = 0 ∧ w.done = false
  | .triggeredUncontended | .triggeredContended => w.done = false
  | .completed => w.started = 1 ∧ w.finished = 1

structure Inv (s : State τ) : Prop where
  word : WordOk s.word
  placed : ∀ t, Placed s.word (s.pc t)
  /-- One caller is to run the callback, and it wakes the others. -/
  one : ∀ t u, ((s.pc t).runs ∨ s.pc t = .wake) → ((s.pc u).runs ∨ s.pc u = .wake) → t = u
  runner : s.word.state ≠ .untriggered → s.word.state ≠ .completed → ∃ t, (s.pc t).runs
  sleepers : (∃ t, s.pc t = .asleep) → s.word.state = .triggeredContended ∨ ∃ t, s.pc t = .wake

/-- What one access does, in a state with the invariant. -/
structure Accesses (w : Word) (p : Pc) (a : Word × Pc) : Prop where
  word : WordOk a.1
  placed : Placed a.1 a.2
  others : ∀ q, Placed w q → (p.runs → ¬(q.runs ∨ q = .wake)) → Placed a.1 q
  /-- Only the first call comes to run the callback. -/
  runs : a.2.runs ∨ a.2 = .wake → (p.runs ∨ p = .wake) ∨ w.state = .untriggered
  runner : a.1.state ≠ .untriggered → a.1.state ≠ .completed →
    a.2.runs ∨ w.state ≠ .untriggered ∧ w.state ≠ .completed ∧ p.runs = false
  sleeps : a.2 = .asleep → a.1.state = .triggeredContended
  waiters : w.state = .triggeredContended → a.1.state = .triggeredContended ∨ a.2 = .wake
  notWake : p ≠ .wake

/-- What the word says of a thread stays true when another one changes the word in a way that does not concern it. -/
theorem Placed.frame {w w' : Word} {q : Pc} (hq : Placed w q) (htr : w.state ≠ .untriggered → w'.state ≠ .untriggered)
    (hcp : w.state = .completed → w'.state = .completed ∧ w'.done = w.done)
    (hru : q.runs → w.state ≠ .untriggered → w.state ≠ .completed →
      w'.state ≠ .completed ∧ w'.started = w.started ∧ w'.finished = w.finished) : Placed w' q := by
  cases q <;> simp_all [Placed, Pc.runs]

variable {w : Word} {p p' : Pc} {a : Word × Pc} {t : τ}

/-- A thread that neither runs the callback nor is to wake the others leaves the word alone. -/
theorem Accesses.quiet (hw : WordOk w) (hp : p.runs = false ∧ p ≠ .wake) (hp' : p'.runs = false ∧ p' ≠ .wake)
    (hpl : Placed w p') (hsle : p' = .asleep → w.state = .triggeredContended) : Accesses w p (w, p') where
  word := hw
  placed := hpl
  others _ hq _ := hq
  runs h := by
    rcases h with h | h
    · rw [hp'.1] at h
      cases h
    · exact absurd h hp'.2
  runner htr hcp := .inr ⟨htr, hcp, hp.1⟩
  sleeps := hsle
  waiters := .inl
  notWake := hp.2

/-- The first call. -/
theorem Accesses.trigger (hw : WordOk w) (hwd : w.state = .untriggered) (hwk : p ≠ .wake) :
    Accesses w p ({ w with state := .triggeredUncontended }, .triggered) := by
  rw [WordOk, hwd] at hw
  refine ⟨hw.2.2, ⟨nofun, nofun, hw.1, hw.2.1⟩, fun q hq _ => ?_, fun _ => .inr hwd, fun _ _ => .inl rfl, nofun,
    fun h => ?_, hwk⟩
  · exact hq.frame (fun h => absurd hwd h) (fun h => nomatch hwd.symm.trans h) (fun _ h => absurd hwd h)
  · nomatch hwd.symm.trans h

/-- While the callback is to be run, the word says only that nobody has returned from it. -/
theorem wordOk_iff (htr : w.state ≠ .untriggered) (hcp : w.state ≠ .completed) : WordOk w ↔ w.done = false := by
  unfold WordOk
  cases hst : w.state with
  | untriggered => exact absurd hst htr
  | completed => exact absurd hst hcp
  | triggeredUncontended | triggeredContended => exact Iff.rfl

/-- The caller that runs the callback starts or finishes it. -/
theorem Accesses.callback {w w' : Word} (hw : WordOk w) (hst : w'.state = w.state) (hdn : w'.done = w.done)
    (htr : w.state ≠ .untriggered) (hcp : w.state ≠ .completed) (hp : p.runs) (hp' : p'.runs)
    (hpl : Placed w' p') : Accesses w p (w', p') where
  word := by
    rw [wordOk_iff htr hcp] at hw
    rw [wordOk_iff (hst ▸ htr) (hst ▸ hcp), hdn, hw]
  placed := hpl
  others _ hq hoth := hq.frame (fun h => hst ▸ h) (fun h => absurd h hcp) fun hru => absurd (.inl hru) (hoth hp)
  runs _ := .inl (.inl hp)
  runner _ _ := .inl hp'
  sleeps h := by
    replace h : p' = .asleep := h
    rw [h] at hp'
    cases hp'
  waiters h := .inl (hst ▸ h)
  notWake h := by
    rw [h] at hp
    cases hp

/-- The caller that ran the callback exchanges the word for completed. -/
theorem Accesses.complete {done : Bool} (hp : Placed w .finished)
    (hpl : Placed { w with state := .completed, done := done } p') (hsle : p' ≠ .asleep)
    (hwait : w.state = .triggeredContended → p' = .wake) :
    Accesses w .finished ({ w with state := .completed, done := done }, p') where
  word := hp.2.2
  placed := hpl
  others _ hq hoth := hq.frame (fun _ => nofun) (fun h => absurd h hp.2.1) fun hru => absurd (.inl hru) (hoth rfl)
  runs _ := .inl (.inl rfl)
  runner _ h := absurd rfl h
  sleeps h := absurd h hsle
  waiters h := .inr (hwait h)
  notWake := nofun

/-- A waiter marks the word. -/
theorem Accesses.mark {prev : OnceState} (hw : WordOk w) (hwd : w.state = .triggeredUncontended) :
    Accesses w (.loop prev) ({ w with state := .triggeredContended }, .wait) where
  word := by
    rw [WordOk, hwd] at hw
    exact hw
  placed := nofun
  others _ hq _ := hq.frame (fun _ => nofun) (fun h => nomatch hwd.symm.trans h) fun _ _ _ => ⟨nofun, rfl, rfl⟩
  runs := nofun
  runner _ _ := .inr ⟨by rw [hwd]; exact nofun, by rw [hwd]; exact nofun, rfl⟩
  sleeps := nofun
  waiters _ := .inl rfl
  notWake := nofun

theorem call_spec (hw : WordOk w) (hp : p.runs = false ∧ p ≠ .wake) : Accesses w p (call w) := by
  unfold call
  split
  · rename_i hwd
    exact .trigger hw hwd hp.2
  · rename_i hwd
    exact .quiet hw hp ⟨rfl, nofun⟩ ⟨hwd, hwd, id⟩ nofun

theorem access_spec {op : Op} (hw : WordOk w) (hp : Placed w p) (h : access w p op = some a) : Accesses w p a := by
  cases p with
  | wake => cases op <;> cases h
  | idle | returned =>
    cases op <;> cases h
    exact call_spec hw ⟨rfl, nofun⟩
  | triggered =>
    cases op <;> cases h
    exact .callback hw rfl rfl hp.1 hp.2.1 rfl rfl ⟨hp.1, hp.2.1, congrArg (· + 1) hp.2.2.1, hp.2.2.2⟩
  | running =>
    cases op <;> cases h
    exact .callback hw rfl rfl hp.1 hp.2.1 rfl rfl ⟨hp.1, hp.2.1, hp.2.2.1, congrArg (· + 1) hp.2.2.2⟩
  | finished =>
    cases op <;> try cases h
    rw [wordOk_iff hp.1 hp.2.1] at hw
    simp only [access] at h
    split at h <;> cases h
    · exact .complete hp ⟨rfl, hw⟩ nofun fun _ => rfl
    · rename_i hwd
      exact .complete hp rfl nofun fun h => absurd h hwd
  | loop prev =>
    cases op <;> try cases h
    obtain ⟨htr, hprev, hcp⟩ := hp
    cases prev with
    | untriggered => exact absurd rfl hprev
    | completed =>
      cases h
      exact .quiet hw ⟨rfl, nofun⟩ ⟨rfl, nofun⟩ (hcp rfl) nofun
    | triggeredContended =>
      cases h
      exact .quiet hw ⟨rfl, nofun⟩ ⟨rfl, nofun⟩ htr nofun
    | triggeredUncontended =>
      simp only [access] at h
      split at h <;> cases h
      · rename_i hwd
        exact .mark hw hwd
      · exact .quiet hw ⟨rfl, nofun⟩ ⟨rfl, nofun⟩ ⟨htr, htr, id⟩ nofun
  | wait =>
    cases op <;> cases h
    by_cases hwd : w.state = .triggeredContended
    · rw [if_pos hwd]
      exact .quiet hw ⟨rfl, nofun⟩ ⟨rfl, nofun⟩ hp fun _ => hwd
    · rw [if_neg hwd]
      exact .quiet hw ⟨rfl, nofun⟩ ⟨rfl, nofun⟩ hp nofun
  | asleep =>
    cases op <;> cases h
    exact .quiet hw ⟨rfl, nofun⟩ ⟨rfl, nofun⟩ hp nofun
  | load =>
    cases op <;> cases h
    exact .quiet hw ⟨rfl, nofun⟩ ⟨rfl, nofun⟩ ⟨hp, hp, id⟩ nofun

variable {s s' : State τ}

omit [DecidableEq τ] in
/-- The caller that runs the callback or is about to wake the others has triggered the once. -/
theorem Inv.triggered (h : Inv s) (ht : (s.pc t).runs ∨ s.pc t = .wake) : s.word.state ≠ .untriggered := by
  have hp := h.placed t
  rcases ht with ht | ht
  · cases hpc : s.pc t <;> rw [hpc] at ht hp <;> first | exact hp.1 | cases ht
  · rw [ht] at hp
    rw [hp.1]
    exact nofun

theorem Inv.set (h : Inv s) (ha : Accesses s.word (s.pc t) a) : Inv (s.set t a) where
  word := ha.word
  placed := s.forall_set (fun _ p => Placed a.1 p) ha.placed fun u hne =>
    ha.others _ (h.placed u) fun ht hu => hne (h.one u t hu (.inl ht))
  one := one_set (P := fun p : Pc => p.runs ∨ p = .wake) h.one fun ht x hx => by
    -- a thread that comes to run the callback has triggered the once, when no other did
    rcases ha.runs ht with hp | hwd
    · exact h.one x t hx hp
    · exact absurd hwd (h.triggered hx)
  runner htr hcp := by
    rcases ha.runner htr hcp with ht | ⟨htr, hcp, hp⟩
    · exact ⟨t, by rw [pc_set_self, ht]⟩
    · refine exists_set (P := fun p : Pc => p.runs) (h.runner htr hcp) fun ht => ?_
      rw [hp] at ht
      cases ht
  sleepers hsle := by
    rcases exists_of_set (P := fun p : Pc => p = .asleep) hsle with ht | hbef
    · exact .inl (ha.sleeps ht)
    rcases h.sleepers hbef with hwd | hwk
    · refine (ha.waiters hwd).imp_right fun hp => ⟨t, ?_⟩
      rw [pc_set_self, hp]
    · exact .inr (exists_set (P := fun p : Pc => p = .wake) hwk fun ht => absurd ht ha.notWake)

theorem awoken_ne_asleep (p : Pc) : p.awoken ≠ .asleep := by cases p <;> exact nofun

theorem awoken_runs (p : Pc) : (p.awoken.runs ∨ p.awoken = .wake) ↔ (p.runs ∨ p = .wake) := by cases p <;> simp [Pc.awoken, Pc.runs]

/-- The caller that ran the callback wakes every sleeper and returns. -/
theorem Inv.wake (h : Inv s) (ht : s.pc t = .wake) :
    Inv ((s.moveAll Pc.awoken).set t ({ s.word with done := true }, .returned)) where
  word := by
    have hwd := h.word
    have hp := h.placed t
    rw [ht] at hp
    unfold WordOk at hwd ⊢
    dsimp only
    rw [hp.1] at hwd ⊢
    exact hwd
  placed := by
    have hp := h.placed t
    rw [ht] at hp
    refine (s.moveAll Pc.awoken).forall_set (fun _ p => Placed { s.word with done := true } p) ?_ fun u hne => ?_
    · exact hp.1
    · have hu := h.placed u
      have hnot : s.pc u ≠ .wake := fun hu => hne (h.one u t (.inr hu) (.inr ht))
      change Placed _ (s.pc u).awoken
      cases hpc : s.pc u <;> rw [hpc] at hu hnot <;> first | exact hu | exact absurd rfl hnot
  one := one_set (P := fun p : Pc => p.runs ∨ p = .wake)
    (fun u v hu hv => h.one u v ((awoken_runs _).1 hu) ((awoken_runs _).1 hv))
    fun _ u hu => h.one u t ((awoken_runs _).1 hu) (.inr ht)
  runner _ hcp := by
    have hp := h.placed t
    rw [ht] at hp
    exact absurd hp.1 hcp
  sleepers := by
    intro hsle
    obtain hp | ⟨u, hu⟩ := exists_of_set (P := fun p : Pc => p = .asleep) hsle
    · cases hp
    · exact absurd hu (awoken_ne_asleep _)

theorem Inv.init : Inv (machine τ).init where
  word := ⟨rfl, rfl, rfl⟩
  placed _ := trivial
  one _ _ h := by rcases h with h | h <;> cases h
  runner h := absurd rfl h
  sleepers := fun ⟨_, h⟩ => nomatch h

theorem Inv.step (h : Inv s) {act : Act τ} (hsp : step s act = some s') : Inv s' := by
  cases act with
  | step t op =>
    obtain ⟨a, ha, rfl⟩ := Option.map_eq_some_iff.1 hsp
    exact h.set (access_spec h.word (h.placed t) ha)
  | wake t =>
    obtain ⟨ht, rfl⟩ := of_guarded hsp
    exact h.wake ht

omit [DecidableEq τ] in
/-- Once it was called, the callback has been started once, or is about to be by one caller. -/
theorem Inv.started (h : Inv s) : s.word.started ≤ 1 ∧
    (s.word.state ≠ .untriggered → s.word.started = 1 ∨ ∃ t, s.pc t = .triggered) := by
  have hwd := h.word
  unfold WordOk at hwd
  by_cases hun : s.word.state = .untriggered
  · rw [hun] at hwd
    exact ⟨by omega, fun hne => absurd hun hne⟩
  by_cases hcp : s.word.state = .completed
  · rw [hcp] at hwd
    exact ⟨by omega, fun _ => .inl hwd.1⟩
  obtain ⟨t, ht⟩ := h.runner hun hcp
  have hp := h.placed t
  cases hpc : s.pc t <;> rw [hpc] at ht hp <;> try cases ht
  · exact ⟨by have := hp.2.2.1; omega, fun _ => .inr ⟨t, hpc⟩⟩
  · exact ⟨by have := hp.2.2.1; omega, fun _ => .inl hp.2.2.1⟩
  · exact ⟨by have := hp.2.2.1; omega, fun _ => .inl hp.2.2.1⟩

omit [DecidableEq τ] in
/-- When the caller that ran the callback has returned, no thread sleeps. -/
theorem Inv.awake (h : Inv s) (hdn : s.word.done = true) (t : τ) : s.pc t ≠ .asleep := by
  intro ht
  have hwd := h.word
  unfold WordOk at hwd
  rcases h.sleepers ⟨t, ht⟩ with hst | ⟨u, hu⟩
  · rw [hst] at hwd
    rw [hdn] at hwd
    cases hwd
  · have hp := h.placed u
    rw [hu] at hp
    rw [hp.2] at hdn
    cases hdn

/-- **The callback is run exactly once**: it is started once at most, and once in all when a call was made, up to the step
before it by the caller that triggered it; no call returns before it has finished, and nobody sleeps when the caller that ran
it has returned. -/
theorem once_correct (h : (machine τ).Reachable s) : s.word.started ≤ 1 ∧
    ((∃ t, s.pc t ≠ .idle) → s.word.started = 1 ∨ ∃ t, s.pc t = .triggered) ∧
    ((∃ t, s.pc t = .returned) → s.word.started = 1 ∧ s.word.finished = 1) ∧
    (s.word.done → ∀ t, s.pc t ≠ .asleep) := by
  have hinv : Inv s := h.invariant Inv.init fun hs _ => hs.step
  refine ⟨hinv.started.1, fun ⟨t, ht⟩ => hinv.started.2 ?_, fun ⟨t, ht⟩ => ?_, hinv.awake⟩
  · have hp := hinv.placed t
    intro hun
    cases hpc : s.pc t <;> rw [hpc] at ht hp <;> simp [Placed, hun] at hp
    exact ht rfl
  · have hp := hinv.placed t
    have hwd := hinv.word
    rw [ht] at hp
    unfold WordOk at hwd
    rw [show s.word.state = _ from hp] at hwd
    exact hwd

/-- Thread 1 sleeps while thread 0 runs the callback, and both return. -/
theorem once_correct_contended : ∃ s, (machine (Fin 2)).Reachable s ∧ (s.pc 0 = .returned ∧ s.pc 1 = .returned ∧ s.word.done) ∧
    s.word.started ≤ 1 ∧ (s.word.done → ∀ t, s.pc t ≠ .asleep) := by
  refine (Machine.exists_reachable_of_run
    [.step 0 .call, .step 1 .call, .step 1 .advance, .step 1 .advance, .step 0 .advance, .step 0 .advance, .step 0 .advance,
      .wake 0, .step 1 .advance, .step 1 .advance] ?_).imp
    fun s h => ⟨h.1, h.2, (once_correct h.1).1, (once_correct h.1).2.2.2⟩
  decide

/-- A call sleeps only while exactly one caller is going to run the callback, or to wake the sleepers after it. -/
theorem sleeper_awaits_one (h : (machine τ).Reachable s) : (∀ t, s.pc t ≠ .asleep) ∨ ∃! t, (s.pc t).runs ∨ s.pc t = .wake := by
  have hinv : Inv s := h.invariant Inv.init fun hs _ => hs.step
  refine or_iff_not_imp_left.2 fun hsl => ?_
  have hex : ∃ t, (s.pc t).runs ∨ s.pc t = .wake := by
    rcases hinv.sleepers (by simpa using hsl) with hst | hwk
    · exact (hinv.runner (by simp [hst]) (by simp [hst])).imp fun _ => .inl
    · exact hwk.imp fun _ => .inr
  exact hex.imp fun t ht => ⟨ht, fun u hu => hinv.one u t hu ht⟩

/-- Two threads sleep while thread 0 runs the callback. -/
theorem sleeper_awaits_one_three : ∃ s, (machine (Fin 3)).Reachable s ∧ (s.pc 1 = .asleep ∧ s.pc 2 = .asleep) ∧
    ∃! t, (s.pc t).runs ∨ s.pc t = .wake := by
  obtain ⟨s, hr, hone, htwo⟩ : ∃ s, (machine (Fin 3)).Reachable s ∧ s.pc 1 = .asleep ∧ s.pc 2 = .asleep :=
    Machine.exists_reachable_of_run [.step 0 .call, .step 1 .call, .step 1 .advance, .step 1 .advance, .step 2 .call,
      .step 2 .advance, .step 2 .advance] (by decide)
  exact ⟨s, hr, ⟨hone, htwo⟩, (sleeper_awaits_one hr).resolve_left fun hno => hno 1 hone⟩

end Once

end Osxie.Libsimple
