import Osxie.Libsimple.Lock

/-!
# The lock is held by one thread, and no wake-up is lost

The word is unlocked only while no thread holds the lock, and a thread takes the lock only when the word is unlocked. While a
thread sleeps, the word says that there are waiters, or an `unlock` is about to wake one, or one that was woken has not gone to
sleep again (`Inv`): it tests the word before that, and marks it.
-/

namespace Osxie.Libsimple.Lock

open Threads

/-- A thread has been woken and will test the word again before it sleeps or returns. -/
def Pc.retests : Pc → Bool
  | .loop _ true | .wait true | .test true | .slowWait true | .slowTest true => true
  | _ => false

structure Accesses (word : LockState) (p : Pc) (a : LockState × Pc) : Prop where
  takes : a.2 = .holds → word = .unlocked ∧ a.1 ≠ .unlocked
  frees : a.1 = .unlocked → word = .unlocked ∨ p = .holds
  keeps : a.1 ≠ .unlocked → a.2 = .holds ∨ word ≠ .unlocked ∧ p ≠ .holds
  /-- A thread falls asleep only when the word says that there are waiters. -/
  sleeps : a.2.sleeps → a.1 = .lockedContended
  /-- Waiters are forgotten only by an `unlock` that wakes one. -/
  waiters : word = .lockedContended → a.1 = .lockedContended ∨ a.2 = .wake
  wakes : p ≠ .wake
  retests : p.retests → a.2.retests ∨ a.1 = .lockedContended

theorem access_spec {word : LockState} {p : Pc} {op : Op} {a : LockState × Pc} (h : access word p op = some a) :
    Accesses word p a := by
  cases p with
  | idle => cases op <;> cases h <;> cases word <;> constructor <;> decide
  | loop prev woken =>
    cases op <;> try cases h
    cases prev <;> cases h <;> cases woken <;> cases word <;> constructor <;> decide
  | wait woken | test woken | slowWait woken | slowTest woken =>
    cases op <;> cases h
    cases woken <;> cases word <;> constructor <;> decide
  | holds | asleep | slowAsleep =>
    cases op <;> cases h
    cases word <;> constructor <;> decide
  | wake => cases op <;> cases h

variable {τ : Type} {s s' : State τ}

structure Inv (s : State τ) : Prop where
  free : s.word = .unlocked → ∀ t, s.pc t ≠ .holds
  held : s.word ≠ .unlocked → ∃ t, s.pc t = .holds
  one : ∀ t u, s.pc t = .holds → s.pc u = .holds → t = u
  wakeup : (∃ t, (s.pc t).sleeps) → s.word = .lockedContended ∨ (∃ t, s.pc t = .wake) ∨ ∃ t, (s.pc t).retests

/-- No thread takes or gives up the lock, and the word stays as it is. -/
theorem Inv.of_holds (h : Inv s) (hwd : s'.word = s.word) (hholds : ∀ t, s'.pc t = .holds ↔ s.pc t = .holds)
    (hwak : (∃ t, (s'.pc t).sleeps) → ∃ t, (s'.pc t).retests) : Inv s' where
  free hfr t ht := h.free (hwd ▸ hfr) t ((hholds t).1 ht)
  held hhe := (h.held (hwd ▸ hhe)).imp fun t ht => (hholds t).2 ht
  one t u ht hu := h.one t u ((hholds t).1 ht) ((hholds u).1 hu)
  wakeup hsle := .inr (.inr (hwak hsle))

variable [DecidableEq τ]

theorem Inv.set (h : Inv s) {t : τ} {a : LockState × Pc} (ha : Accesses s.word (s.pc t) a) : Inv (s.set t a) where
  free hfr := s.forall_set (fun _ p => p ≠ .holds) (fun ht => (ha.takes ht).2 hfr) fun u hne hu => by
    rcases ha.frees hfr with hwd | ht
    · exact h.free hwd u hu
    · exact hne (h.one u t hu ht)
  held hhe := by
    rcases ha.keeps hhe with ht | ⟨hwd, hp⟩
    · exact ⟨t, by rw [pc_set_self, ht]⟩
    · exact exists_set (P := fun p : Pc => p = .holds) (h.held hwd) fun ht => absurd ht hp
  one := one_set (P := fun p : Pc => p = .holds) h.one fun ht u hu => absurd hu (h.free (ha.takes ht).1 u)
  wakeup hsle := by
    rcases exists_of_set (P := fun p : Pc => p.sleeps) hsle with ht | hbef
    · exact .inl (ha.sleeps ht)
    rcases h.wakeup hbef with hwd | hwk | hret
    · refine (ha.waiters hwd).imp_right fun hp => .inl ⟨t, ?_⟩
      rw [pc_set_self, hp]
    · exact .inr (.inl (exists_set (P := fun p : Pc => p = .wake) hwk fun ht => absurd ht ha.wakes))
    · by_cases hwd : a.1 = .lockedContended
      · exact .inl hwd
      · refine .inr (.inr (exists_set (P := fun p : Pc => p.retests) hret fun hp => ?_))
        exact (ha.retests hp).resolve_right hwd

theorem awoken_retests {p : Pc} (h : p.sleeps) : p.awoken.retests ∧ p.awoken ≠ .holds ∧ p ≠ .holds := by
  cases p <;> first | exact ⟨rfl, nofun, nofun⟩ | cases h

variable [Fintype τ]

theorem Inv.step (h : Inv s) {act : Act τ} (hst : step s act = some s') : Inv s' := by
  cases act with
  | step t op =>
    obtain ⟨a, ha, rfl⟩ := Option.map_eq_some_iff.1 hst
    exact h.set (access_spec ha)
  | wake t u =>
    cases u with
    | none =>
      obtain ⟨⟨ht, hno⟩, rfl⟩ := of_guarded hst
      refine h.of_holds rfl (fun _ => pc_move_iff ht nofun nofun) fun hsle => ?_
      rcases exists_of_set (P := fun p : Pc => p.sleeps) hsle with hid | ⟨u, hu⟩
      · cases hid
      · exact absurd hu (hno u)
    | some u =>
      obtain ⟨⟨ht, hu⟩, rfl⟩ := of_guarded hst
      obtain ⟨hret, hnot, hasl⟩ := awoken_retests hu
      have hid : ∀ u, (s.move t .idle).pc u = .holds ↔ _ := fun _ => pc_move_iff ht nofun nofun
      refine h.of_holds rfl (fun v => (pc_move_iff rfl (fun hc => hasl ((hid u).1 hc)) hnot).trans (hid v))
        fun _ => ⟨u, ?_⟩
      rw [move, pc_set_self]
      exact hret

theorem Inv.init : Inv (machine τ).init where
  free _ _ := nofun
  held h := absurd rfl h
  one _ _ h := nomatch h
  wakeup := fun ⟨_, h⟩ => nomatch h

/-- An `unlock` has found waiters and has not called `FUTEX_WAKE` yet. -/
def WakeupIssued (s : State τ) : Prop := ∃ t, s.pc t = .wake

/-- **The lock is held by one thread at most, and no wake-up is lost**: when it is free and a thread sleeps, a wake-up is
issued or a thread that was woken is going to test the word. -/
theorem lock_correct (h : (machine τ).Reachable s) : (∀ t u, s.pc t = .holds → s.pc u = .holds → t = u) ∧
    ¬((∀ t, s.pc t ≠ .holds) ∧ (∃ t, (s.pc t).sleeps) ∧ ¬WakeupIssued s ∧ ¬∃ t, (s.pc t).retests) := by
  have hinv : Inv s := h.invariant Inv.init fun hs _ => hs.step
  refine ⟨hinv.one, fun ⟨hfr, hsle, hiss, hret⟩ => ?_⟩
  rcases hinv.wakeup hsle with hwd | hwk | hwoken
  · obtain ⟨t, ht⟩ := hinv.held (by rw [hwd]; exact nofun)
    exact hfr t ht
  · exact hiss hwk
  · exact hret hwoken

/-- Thread 0 holds the lock while thread 1 falls asleep, and gives it up: the lock is free, and a wake-up is issued. -/
theorem lock_correct_contended : ∃ s, (machine (Fin 2)).Reachable s ∧ (s.word = .unlocked ∧ (s.pc 1).sleeps ∧ s.pc 0 = .wake) ∧
    ∀ t u, s.pc t = .holds → s.pc u = .holds → t = u := by
  refine (Machine.exists_reachable_of_run
    [.step 0 .lock, .step 1 .lock, .step 1 .advance, .step 1 .advance, .step 0 .unlock] ?_).imp
    fun s h => ⟨h.1, h.2, (lock_correct h.1).1⟩
  decide

/-- In every state `try_lock` takes the lock exactly if no thread holds it. -/
theorem tryLock_takes_iff (h : (machine τ).Reachable s) {t : τ} (ht : s.pc t = .idle) :
    ∃ s', step s (.step t .tryLock) = some s' ∧ (s'.pc t = .holds ↔ ∀ u, s.pc u ≠ .holds) := by
  have hinv : Inv s := h.invariant Inv.init fun hs _ => hs.step
  refine ⟨_, by rw [step, ht]; rfl, ?_⟩
  rw [pc_set_self]
  by_cases hfr : s.word = .unlocked
  · simpa [cmpxchg, hfr] using hinv.free hfr
  · simpa [cmpxchg, hfr] using hinv.held hfr

/-- Thread 0 gives up the lock while thread 1 sleeps, and thread 2 takes it before thread 1 is woken. -/
theorem tryLock_takes_iff_contended : ∃ s, (machine (Fin 3)).Reachable s ∧ (s.pc 1).sleeps ∧
    ∃ s', step s (.step 2 .tryLock) = some s' ∧ s'.pc 2 = .holds := by
  obtain ⟨s, hr, hsl, hidle, hfree⟩ : ∃ s, (machine (Fin 3)).Reachable s ∧ (s.pc 1).sleeps ∧ s.pc 2 = .idle ∧ ∀ u, s.pc u ≠ .holds :=
    Machine.exists_reachable_of_run
      [.step 0 .lock, .step 1 .lock, .step 1 .advance, .step 1 .advance, .step 0 .unlock] (by decide)
  obtain ⟨s', hs, hiff⟩ := tryLock_takes_iff hr hidle
  exact ⟨s, hr, hsl, s', hs, hiff.2 hfree⟩

end Osxie.Libsimple.Lock
