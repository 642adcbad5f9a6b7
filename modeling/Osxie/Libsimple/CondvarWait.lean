import Osxie.Libsimple.CondvarNotify
import Osxie.Libsimple.LockWakeups

/-!
# Waiters, notifications and the lock

A thread that sleeps on the condition variable is outside the lock's functions; when it returns from `FUTEX_WAIT` it is in
`lock_slow`, before the exchange, and when it is moved to the queue of the lock it sleeps there as one in `lock_slow` does.
`FUTEX_REQUEUE` wakes one thread whenever it moves others, so that no wake-up of the lock is lost (`LockWakeups`).
-/

namespace Osxie.Libsimple.Condvar

open Threads Option

/-! ## The lock's places -/

/-- A thread is in `lock_slow`, or has returned from it. -/
def inLockSlow : Lock.Pc → Bool
  | .slowTest _ | .slowWait _ | .slowAsleep | .holds => true
  | _ => false

/-- A thread enters `lock_slow`. -/
theorem enters_lockSlow (word : LockState) (woken : Bool) : Lock.Accesses word .idle (word, .slowTest woken) := by
  cases word <;> cases woken <;> constructor <;> decide

theorem inLockSlow_access {word : LockState} {p : Lock.Pc} {op : Lock.Op} {a : LockState × Lock.Pc} (hp : inLockSlow p)
    (hop : op = .advance ∨ op = .spurious) (h : Lock.access word p op = some a) : inLockSlow a.2 := by
  rcases hop with rfl | rfl <;> cases p <;> cases hp <;> cases h <;> first | rfl | (dsimp only; split <;> rfl)

variable {τ : Type} [DecidableEq τ] {l l' : Lock.State τ}

variable {t : τ}

theorem lockInv_enters (h : Lock.Inv l) (ht : l.pc t = .idle) (woken : Bool) : Lock.Inv (l.move t (.slowTest woken)) :=
  h.set (ht ▸ enters_lockSlow l.word woken)

theorem pc_afterAccess_of_ne {t u : τ} (hne : u ≠ t) (p : Pc) : (afterAccess l t p).pc u = l.pc u := by
  unfold afterAccess
  split
  · exact pc_set_of_ne hne _
  · rfl

variable [Fintype τ]

/-- A wake-up by `unlock` concerns a thread that sleeps on the lock, and the one that wakes it. -/
theorem lockWake_pc {u : Option τ} (h : Lock.step l (.wake t u) = some l') (v : τ) :
    l'.pc v = l.pc v ∨ l.pc v = .wake ∨ (l.pc v).sleeps ∧ l'.pc v = (l.pc v).awoken := by
  cases u with
  | none =>
    obtain ⟨⟨ht, -⟩, rfl⟩ := of_guarded h
    rcases l.pc_set_cases t (l.word, .idle) v with ⟨rfl, -⟩ | ⟨-, hpc⟩
    · exact .inr (.inl ht)
    · exact .inl hpc
  | some u =>
    obtain ⟨⟨ht, hu⟩, rfl⟩ := of_guarded h
    rcases (l.move t .idle).pc_set_cases u (l.word, (l.pc u).awoken) v with ⟨rfl, hpc⟩ | ⟨-, hpc⟩
    · exact .inr (.inr ⟨hu, hpc⟩)
    rcases l.pc_set_cases t (l.word, .idle) v with ⟨rfl, -⟩ | ⟨-, hpc'⟩
    · exact .inr (.inl ht)
    · exact .inl (hpc.trans hpc')

/-! ## Invariant -/

variable {s s' : State τ}

structure Inv (s : State τ) : Prop where
  lock : Lock.Inv s.lock
  notifies : Notifies s.cond
  asleep : ∀ t, (s.cond.pc t).isAsleep → s.lock.pc t = .idle
  locking : ∀ t, s.cond.pc t = .locking → inLockSlow (s.lock.pc t)

/-- Where a thread comes from that falls asleep or returns from `FUTEX_WAIT`. -/
theorem of_access {w : Word} {p : Pc} {op : Op} {a : Word × Pc} (h : access w p op = some a) (ha : a.2.isAsleep ∨ a.2 = .locking) :
    op = .futexWait ∨ p.isAsleep := by
  cases p <;> cases op <;> cases h <;> first | exact .inl rfl | exact .inr rfl | skip
  all_goals
    revert ha
    first | (split <;> rintro (ha | ha) <;> cases ha) | (rintro (ha | ha) <;> cases ha)

section

variable (h : Inv s)

include h

theorem Inv.access {op : Op} {a : Word × Pc} (hall : op.allowed (s.lock.pc t))
    (ha : access s.cond.word (s.cond.pc t) op = some a) (hnt : Notifies (s.cond.set t a)) :
    Inv ⟨afterAccess s.lock t a.2, s.cond.set t a⟩ := by
  have hid : a.2.isAsleep ∨ a.2 = .locking → s.lock.pc t = .idle := fun hor => by
    rcases of_access ha hor with rfl | hasl
    · exact of_decide_eq_true hall
    · exact h.asleep t hasl
  refine ⟨?_, hnt, s.cond.forall_set (fun u p => p.isAsleep → (afterAccess s.lock t a.2).pc u = _) (fun ht => ?_)
    fun u hne => ?_, s.cond.forall_set (fun u p => p = _ → inLockSlow ((afterAccess s.lock t a.2).pc u)) (fun ht => ?_)
    fun u hne => ?_⟩
  · unfold afterAccess
    split
    · exact lockInv_enters h.lock (hid (.inr ‹_›)) false
    · exact h.lock
  · have hnot : a.2 ≠ .locking := fun hloc => by
      rw [hloc] at ht
      cases ht
    rw [afterAccess, if_neg hnot]
    exact hid (.inl ht)
  · rw [pc_afterAccess_of_ne hne]
    exact h.asleep u
  · rw [afterAccess, if_pos ht, move, pc_set_self]
    rfl
  · rw [pc_afterAccess_of_ne hne]
    exact h.locking u

theorem Inv.lockStep {op : Lock.Op} (hlc : (s.cond.pc t).locks op) (hl : Lock.step s.lock (.step t op) = some l) :
    Inv { s with lock := l } := by
  have hlk := h.lock.step hl
  obtain ⟨a, ha, rfl⟩ := map_eq_some_iff.1 hl
  refine ⟨hlk, h.notifies, s.lock.forall_set (fun u p => (s.cond.pc u).isAsleep → p = _) (fun ht => ?_) fun u _ => h.asleep u,
    s.lock.forall_set (fun u p => s.cond.pc u = _ → inLockSlow p) (fun ht => ?_) fun u _ => h.locking u⟩
  · cases hpc : s.cond.pc t <;> rw [hpc] at hlc ht <;> first | cases hlc | cases ht
  · rw [ht] at hlc
    refine inLockSlow_access (h.locking t ht) ?_ ha
    simpa [Pc.locks] using hlc

theorem Inv.lockWake {u : Option τ} (hl : Lock.step s.lock (.wake t u) = some l) : Inv { s with lock := l } := by
  refine ⟨h.lock.step hl, h.notifies, fun v hv => ?_, fun v hv => ?_⟩
  · have hid := h.asleep v hv
    rcases lockWake_pc hl v with hpc | hpc | ⟨hpc, -⟩
    · exact hpc.trans hid
    · rw [hid] at hpc
      cases hpc
    · rw [hid] at hpc
      cases hpc
  · have hsl := h.locking v hv
    rcases lockWake_pc hl v with hpc | hpc | ⟨hsle, hpc⟩
    · exact hpc ▸ hsl
    · rw [hpc] at hsl
      cases hsl
    · rw [hpc]
      cases hv : s.lock.pc v <;> rw [hv] at hsl <;> first | rfl | cases hsl

/-- A thread goes from one place to another, neither of which concerns the lock. -/
theorem Inv.setIdle {w : Word} (hnt : Notifies (s.cond.set t (w, .idle))) :
    Inv { s with cond := s.cond.set t (w, .idle) } where
  lock := h.lock
  notifies := hnt
  asleep := s.cond.forall_set (fun u p => p.isAsleep → s.lock.pc u = _) nofun fun u _ => h.asleep u
  locking := s.cond.forall_set (fun u p => p = _ → inLockSlow (s.lock.pc u)) nofun fun u _ => h.locking u

theorem Inv.wakeOne {t u : τ} {counted : Bool} (hu : (s.cond.pc u).isAsleep)
    (hnt : Notifies ((s.cond.move t (.oneRestore counted)).move u .locking)) :
    Inv ⟨s.lock.move u (.slowTest false), (s.cond.move t (.oneRestore counted)).move u .locking⟩ := by
  refine ⟨lockInv_enters h.lock (h.asleep u hu) false, hnt,
    (s.cond.move t _).forall_set (fun v p => p.isAsleep → (s.lock.move u (.slowTest false)).pc v = _) (by rintro ⟨⟩) fun v hne => ?_,
    (s.cond.move t _).forall_set (fun v p => p = _ → inLockSlow ((s.lock.move u (.slowTest false)).pc v)) ?_ fun v hne => ?_⟩
  · rw [move, move, pc_set_of_ne hne]
    exact s.cond.forall_set (fun v p => p.isAsleep → s.lock.pc v = .idle) (by rintro ⟨⟩) (fun v _ => h.asleep v) v
  · intro _
    rw [move, pc_set_self]
    rfl
  · rw [move, move, pc_set_of_ne hne]
    exact s.cond.forall_set (fun v p => p = .locking → inLockSlow (s.lock.pc v)) (by rintro ⟨⟩) (fun v _ => h.locking v) v

/-- The thread that is woken will test the word of the lock, on behalf of those that are moved to its queue. -/
theorem Inv.requeueLock {u : τ} (hu : (s.cond.pc u).isAsleep) : Lock.Inv (requeueOthers s u).lock := by
  refine h.lock.of_holds rfl (fun v => ?_) fun _ => ⟨u, ?_⟩
  · show (if v = u then _ else if (s.cond.pc v).isAsleep then _ else _) = _ ↔ _
    by_cases hvu : v = u
    · subst hvu
      rw [if_pos rfl, h.asleep v hu]
      exact iff_of_false nofun nofun
    · rw [if_neg hvu]
      split
      · rw [h.asleep v ‹_›]
        exact iff_of_false nofun nofun
      · exact .rfl
  · show Lock.Pc.retests (if u = u then _ else _)
    rw [if_pos rfl]
    rfl

theorem Inv.requeue {t u : τ} {counted : Bool} (ht : s.cond.pc t = .allRequeue counted) (hu : (s.cond.pc u).isAsleep) :
    Inv { requeueOthers s u with cond := (requeueOthers s u).cond.set t (s.cond.word.returnAll counted, .idle) } := by
  refine ⟨h.requeueLock hu, h.notifies.requeue ht,
    (requeueOthers s u).cond.forall_set (fun v p => p.isAsleep → (requeueOthers s u).lock.pc v = _) nofun fun v _ hv => ?_,
    (requeueOthers s u).cond.forall_set (fun v p => p = _ → inLockSlow ((requeueOthers s u).lock.pc v)) nofun fun v _ hv => ?_⟩
  · change Pc.isAsleep (if (s.cond.pc v).isAsleep then .locking else s.cond.pc v) at hv
    split at hv
    · cases hv
    · exact absurd hv ‹_›
  · change (if (s.cond.pc v).isAsleep then .locking else s.cond.pc v) = .locking at hv
    show inLockSlow (if v = u then _ else if (s.cond.pc v).isAsleep then _ else _)
    by_cases hvu : v = u
    · rw [if_pos hvu]
      rfl
    rw [if_neg hvu]
    split
    · rfl
    · rw [if_neg ‹_›] at hv
      exact h.locking v hv

omit [DecidableEq τ] in
theorem Inv.observe : Inv (observe s) := by
  refine ⟨h.lock, h.notifies.observe (fun t => s.lock.pc t ≠ .holds) (fun _ => rfl) rfl, fun t ht => ?_, fun t ht => ?_⟩
  · exact h.asleep t (observed_isAsleep _ _ ▸ ht)
  · refine h.locking t ?_
    change (s.cond.pc t).observed _ = _ at ht
    cases hpc : s.cond.pc t <;> rw [hpc] at ht <;> first | rfl | cases ht

end

/-! ## Runs -/

/-- A waiter falls asleep after fewer than `2^30` notifications. -/
def FewNotifications (s : State τ) : Act τ → Prop
  | .access t _ => (s.cond.pc t).Few s.cond.word
  | _ => True

/-- `FUTEX_WAKE` prefers the threads that were waiting when the observer came to those that came later. -/
def Prefers (s : State τ) : Act τ → Prop
  | .wakeOne _ (some u) => s.cond.pc u = .asleep true ∨ ∀ v, s.cond.pc v ≠ .asleep true
  | _ => True

/-- A notification does not test its bit while another one has cleared it, and has still to wake the sleepers or to set it
again. -/
def Apart (s : State τ) : Act τ → Prop
  | .access t op =>
    ((s.cond.pc t).testsOne op → ∀ u, (s.cond.pc u).clears = false) ∧
      ((s.cond.pc t).testsAll op → ∀ u, (s.cond.pc u).requeues = false)
  | _ => True

instance (w : Word) (p : Pc) : Decidable (p.Few w) := by
  cases p <;> unfold Pc.Few <;> infer_instance

instance (s : State τ) (act : Act τ) : Decidable (FewNotifications s act) := by
  cases act <;> unfold FewNotifications <;> infer_instance

instance (s : State τ) (act : Act τ) : Decidable (Prefers s act) := by
  unfold Prefers
  split <;> infer_instance

instance (s : State τ) (act : Act τ) : Decidable (Apart s act) := by
  cases act <;> unfold Apart <;> infer_instance

omit [DecidableEq τ] [Fintype τ] in
theorem moveAll_of_awake {c : Threads τ Word Pc} (h : ∀ u, ¬(c.pc u).isAsleep) :
    (c.moveAll fun p => if p.isAsleep then .locking else p) = c := by
  refine congrArg (mk c.word) (funext fun u => ?_)
  exact if_neg (h u)

theorem Inv.step (h : Inv s) {act : Act τ} (hfew : FewNotifications s act) (hpref : Prefers s act) (hpart : Apart s act)
    (hst : step s act = some s') : Inv s' := by
  cases act with
  | access t op =>
    obtain ⟨hall, hst⟩ := ite_none_right_eq_some.1 hst
    obtain ⟨a, ha, rfl⟩ := map_eq_some_iff.1 hst
    exact h.access hall ha (h.notifies.set (access_spec (h.notifies.placed t) hfew ha) hpart.1 hpart.2)
  | lock t op =>
    obtain ⟨hlc, hst⟩ := ite_none_right_eq_some.1 hst
    obtain ⟨l, hl, rfl⟩ := map_eq_some_iff.1 hst
    exact h.lockStep hlc hl
  | lockWake t u =>
    obtain ⟨l, hl, rfl⟩ := map_eq_some_iff.1 hst
    exact h.lockWake hl
  | wakeOne t u =>
    simp only [Condvar.step] at hst
    split at hst
    · obtain ⟨hno, rfl⟩ := of_guarded hst
      exact h.setIdle (h.notifies.wakeNone ‹_› hno)
    · rename_i counted u ht
      obtain ⟨hu, rfl⟩ := of_guarded hst
      refine h.wakeOne hu ?_
      cases hpc : s.cond.pc u <;> rw [hpc] at hu <;> cases hu
      refine h.notifies.wakeOne ht hpc (hpref.imp_left fun hmk => ?_)
      rw [hpc] at hmk
      exact Pc.asleep.inj hmk
    · cases hst
  | requeue t u =>
    simp only [Condvar.step] at hst
    split at hst
    · obtain ⟨hno, rfl⟩ := of_guarded hst
      have hnt := h.notifies.requeue ‹_›
      rw [moveAll_of_awake hno] at hnt
      exact h.setIdle hnt
    · obtain ⟨hu, rfl⟩ := of_guarded hst
      exact h.requeue ‹_› hu
    · cases hst
  | returns t =>
    obtain ⟨⟨ht, -⟩, rfl⟩ := of_guarded hst
    exact h.setIdle (h.notifies.returns ht)
  | observe =>
    cases hst
    exact h.observe

theorem Inv.init : Inv (machine τ).init where
  lock := Lock.Inv.init
  notifies := by
    refine ⟨fun _ => trivial, ?_, ?_, .inl ?_, nofun⟩
    · exact fun ⟨_, h⟩ => nomatch h
    · exact fun ⟨_, h⟩ => nomatch h
    · exact count_eq_zero.2 fun _ => rfl
  asleep _ h := nomatch h
  locking _ h := nomatch h

/-- No notification is lost. -/
structure Delivered (s : State τ) : Prop where
  /-- Of the threads that were waiting, as many leave their `FUTEX_WAIT` as calls of `notify_one` have returned, or all. -/
  ones : exposed s.cond + min s.cond.word.waiting s.cond.word.returnedOne ≤ s.cond.word.waiting
  /-- When a call of `notify_all` has returned, all of them leave it or are in the queue of the lock. -/
  alls : s.cond.word.returnedAll → exposed s.cond = 0
  /-- While a thread sleeps in the queue of the lock, the next `unlock` wakes one, or a wake-up is issued, or one that was woken is
  going to take the lock as one with waiters or to find it held. -/
  queue : (∃ t, (s.lock.pc t).sleeps) → s.lock.word = .lockedContended ∨ Lock.WakeupIssued s.lock ∨ ∃ t, (s.lock.pc t).retests
  /-- A thread that returns from `wait` holds the lock, alone. -/
  returns : ∀ t s', step s (.returns t) = some s' → s'.lock.pc t = .holds ∧ ∀ u, s'.lock.pc u = .holds → u = t

/-- **No notification is lost** in a run in which the calls do not overlap. -/
theorem delivered_of_apart (h : (machine τ).Reaches (fun s act => FewNotifications s act ∧ Prefers s act ∧ Apart s act) s) :
    Delivered s := by
  have hinv : Inv s := h.invariant Inv.init fun hs hok hst => hs.step hok.1 hok.2.1 hok.2.2 hst
  refine ⟨?_, hinv.notifies.returnsAll, hinv.lock.wakeup, fun t s' hst => ?_⟩
  · have := hinv.notifies.counts
    omega
  · obtain ⟨⟨ht, hret⟩, rfl⟩ := of_guarded hst
    have hholds : s.lock.pc t = .holds := by
      refine hret.resolve_left fun hid => ?_
      have hsl := hinv.locking t ht
      rw [hid] at hsl
      cases hsl
    exact ⟨hholds, fun u hu => hinv.lock.one u t hu hholds⟩

/-- Threads 1 and 2 wait, one after the other, and then the observer comes. -/
def twoWait : List (Act (Fin 4)) :=
  [.lock 1 .lock, .access 1 .wait, .lock 1 .unlock, .access 1 .futexWait,
    .lock 2 .lock, .access 2 .wait, .lock 2 .unlock, .access 2 .futexWait, .observe]

/-- One notification for two waiters. -/
theorem delivered_of_apart_twoWait : ∃ s : State (Fin 4),
    (s.cond.word.waiting = 2 ∧ s.cond.word.returnedOne = 1 ∧ s.lock.pc 1 = .slowTest false) ∧ Delivered s := by
  refine (Machine.exists_reaches_of_runOk
    (fun s act => FewNotifications s act ∧ Prefers s act ∧ Apart s act)
    (twoWait ++ [.access 0 .notifyOne, .access 0 .advance, .wakeOne 0 (some 1), .access 0 .advance]) ?_).imp
    fun s h => ⟨h.2, delivered_of_apart h.1⟩
  decide +kernel

/-- Two notifications for two waiters: thread 3 finds the bit clear while thread 0 is about to wake one, and thread 2 sleeps
on. -/
theorem overlapping_not_delivered : ∃ s : State (Fin 4),
    (machine (Fin 4)).Reaches (fun s act => FewNotifications s act ∧ Prefers s act) s ∧ ¬Delivered s := by
  obtain ⟨s, hs, hwait, hret, hexp⟩ := Machine.exists_reaches_of_runOk (M := machine (Fin 4))
    (fun s act => FewNotifications s act ∧ Prefers s act)
    (twoWait ++ [.access 0 .notifyOne, .access 0 .advance, .access 3 .notifyOne, .wakeOne 0 (some 1), .access 0 .advance])
    (P := fun s => s.cond.word.waiting = 2 ∧ s.cond.word.returnedOne = 2 ∧ exposed s.cond = 1) (by decide +kernel)
  refine ⟨s, hs, fun h => ?_⟩
  have hones := h.ones
  omega

end Osxie.Libsimple.Condvar
