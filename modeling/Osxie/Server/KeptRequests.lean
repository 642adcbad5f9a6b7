import Osxie.Server.Impersonation

/-!
# Requests for threads that are impersonated or deferred

What each step of the server keeps (`Preserves`): nobody takes a thread that is taken, a thread that is impersonated is
deferred, and a request stays noted until `doWork` runs. The two steps that could break it are the ones of `KeepsDeferral`.
-/

namespace Osxie.Server

open List Option Thread Impersonator

namespace Scheduler

open Function (update update_self update_of_ne)

variable {s s' : Scheduler}

/-- A request for the thread is noted by its deferral, or queued, or a worker has popped it. -/
def Noted (s : Scheduler) (x : Nat) : Prop :=
  (s.threads x).deferralState = .deferredPending ∨ x ∈ s.workQueue ∨ ∃ w, s.workers w = .holding x

/-- What a step keeps, with the threads whose `doWork` runs in it. -/
structure Preserves (s s' : Scheduler) (ran : Nat → Prop) : Prop where
  exclusive : Exclusive s'
  deferred : ∀ x, s'.Impersonated x → s'.Deferred x
  noted : ∀ x, ¬ran x → (¬s.Deferred x → (s.threads x).running = false) → s.Noted x → s'.Noted x
  idle : ∀ x, ¬ran x → ¬s'.Deferred x → (s'.threads x).running = false ∨
    ¬s.Deferred x ∧ ((s.threads x).running = false → (s'.threads x).running = false)

theorem setThread_of_ne {x y : Nat} (h : y ≠ x) (t : Thread) : (s.setThread x t).threads y = s.threads y := by
  simp [setThread, h]

theorem goto_of_ne {v w : Nat} (h : v ≠ w) (place : Worker) : (s.goto w place).workers v = s.workers v := by
  simp [goto, h]

@[simp] theorem goto_self (w : Nat) (place : Worker) : (s.goto w place).workers w = place := by
  simp [goto]

variable {place : Worker}

/-- A worker that goes idle or pops a thread runs no thread. -/
theorem runs_of_goto {v w x : Nat} (hpl : ∀ y, place.runs y = false) (h : ((s.goto w place).workers v).runs x = true) :
    v ≠ w ∧ (s.workers v).runs x = true := by
  by_cases hv : v = w
  · subst hv
    rw [goto_self, hpl] at h
    cases h
  · rw [goto_of_ne hv] at h
    exact ⟨hv, h⟩

/-- A worker leaves the thread it has popped. -/
theorem holding_goto {v w x y : Nat} (hw : s.workers w = .holding x) (hy : y ≠ x) (hv : s.workers v = .holding y) :
    (s.goto w place).workers v = .holding y := by
  have hvw : v ≠ w := fun hvw => by
    rw [hvw, hw] at hv
    exact hy (Worker.holding.inj hv).symm
  rw [goto_of_ne hvw, hv]

/-- A microthread goes on, and holds no other thread than before. -/
theorem holds_update {i j y : Nat} {p q : Impersonator} (hi : s.impersonators i = p) (hq : q.holds y → p.holds y)
    (h : (update s.impersonators i q j).holds y) : (s.impersonators j).holds y := by
  by_cases hji : j = i
  · subst hji
    rw [update_self] at h
    rw [hi]
    exact hq h
  · rwa [update_of_ne hji] at h

theorem Exclusive.distinct_update (hex : Exclusive s) {i : Nat} {q : Impersonator}
    (hq : ∀ old impersonating, q = .releasing old impersonating → impersonating ≠ some old) (j old : Nat)
    (impersonating : Option Nat)
    (h : update s.impersonators i q j = .releasing old impersonating) : impersonating ≠ some old := by
  by_cases hji : j = i
  · subst hji
    rw [update_self] at h
    exact hq old impersonating h
  · rw [update_of_ne hji] at h
    exact hex.distinct j old impersonating h

/-- One thread changes, and nobody takes a thread. -/
theorem Exclusive.shrinkThread (hex : Exclusive s) {x : Nat} {t : Thread} (hthread : s'.threads = update s.threads x t)
    (hwk : ∀ w y, (s'.workers w).runs y = true → (s.workers w).runs y = true)
    (himp : ∀ i y, (s'.impersonators i).holds y → (s.impersonators i).holds y)
    (hds : ∀ i old impersonating, s'.impersonators i = .releasing old impersonating → impersonating ≠ some old)
    (hrun : s'.Taken x → (s.threads x).running = true → t.running = true) : Exclusive s' := by
  refine hex.shrink hwk himp hds fun y hy hbef => ?_
  rw [hthread]
  by_cases hyx : y = x
  · subst hyx
    rw [update_self]
    exact hrun hy hbef
  · rwa [update_of_ne hyx]

namespace Preserves

variable (hex : Exclusive s) (hdef : ∀ x, s.Impersonated x → s.Deferred x) {ran : Nat → Prop}

include hex hdef

theorem quiet (hq : Quiet s s') : Preserves s s' ran where
  exclusive := hex.quiet hq
  deferred x hx := by
    unfold Impersonated at hx
    unfold Deferred
    rw [hq.impersonators] at hx
    rw [hq.deferralState]
    exact hdef x hx
  noted x _ _ hx := by
    rcases hx with hx | hx | ⟨w, hw⟩
    · exact .inl ((hq.deferralState x).trans hx)
    · exact .inr (.inl (hq.queue.subset hx))
    · exact .inr (.inr ⟨w, hq.holding w x hw⟩)
  idle x _ hx := by
    unfold Deferred at hx ⊢
    rw [hq.deferralState] at hx
    exact .inr ⟨hx, fun h => (hq.running x).trans h⟩

variable {w x : Nat} {t : Thread} {f : Nat → Impersonator} {i : Nat}

omit hex in
/-- One thread changes. What it needs is asked of it alone, and of the other threads that no request is lost. -/
theorem ofThread (hthread : s'.threads = update s.threads x t) (hexcl : Exclusive s')
    (himp : ∀ y, y ≠ x → s'.Impersonated y → s.Impersonated y) (hqu : ∀ y ∈ s.workQueue, y ∈ s'.workQueue)
    (hhol : ∀ v y, y ≠ x → ¬ran y → s.workers v = .holding y → s'.workers v = .holding y)
    (hdefer : s'.Impersonated x → t.deferralState ≠ .notDeferred) (hnoted : ¬ran x → s.Noted x → s'.Noted x)
    (hid : ¬ran x → t.deferralState = .notDeferred → t.running = false) : Preserves s s' ran := by
  have hse : s'.threads x = t := by rw [hthread, update_self]
  have hoth {y : Nat} (hyx : y ≠ x) : s'.threads y = s.threads y := by rw [hthread, update_of_ne hyx]
  refine ⟨hexcl, fun y hy => ?_, fun y hran _ hy => ?_, fun y hran hy => ?_⟩
  · unfold Deferred
    by_cases hyx : y = x
    · subst hyx
      rw [hse]
      exact hdefer hy
    · rw [hoth hyx]
      exact hdef y (himp y hyx hy)
  · by_cases hyx : y = x
    · subst hyx
      exact hnoted hran hy
    · rcases hy with hy | hy | ⟨v, hv⟩
      · exact .inl (by rwa [hoth hyx])
      · exact .inr (.inl (hqu y hy))
      · exact .inr (.inr ⟨v, hhol v y hyx hran hv⟩)
  · unfold Deferred at hy ⊢
    by_cases hyx : y = x
    · subst hyx
      rw [hse] at hy ⊢
      exact .inl (hid hran (not_not.1 hy))
    · rw [hoth hyx] at hy ⊢
      exact .inr ⟨hy, id⟩

theorem pop {workQueue : List Nat} (hw : s.workers w = .idle) (hq : s.workQueue = x :: workQueue) :
    Preserves s ({ s with workQueue := workQueue }.goto w (.holding x)) ran where
  exclusive := hex.shrink (fun v y hv => (runs_of_goto (fun _ => rfl) hv).2)
    (fun _ _ => id) hex.distinct fun _ _ => id
  deferred := hdef
  noted y _ _ hy := by
    rcases hy with hy | hy | ⟨v, hv⟩
    · exact .inl hy
    · rw [hq] at hy
      rcases mem_cons.1 hy with rfl | hy
      · exact .inr (.inr ⟨w, goto_self ..⟩)
      · exact .inr (.inl hy)
    · refine .inr (.inr ⟨v, ?_⟩)
      have hvw : v ≠ w := fun hvw => by
        rw [hvw, hw] at hv
        cases hv
      rw [goto_of_ne hvw]
      exact hv
  idle y _ hy := .inr ⟨hy, id⟩

/-- `doWork` notes the request of a deferred thread. -/
theorem notes (hw : s.workers w = .holding x) :
    Preserves s ((s.setThread x { s.threads x with deferralState := .deferredPending }).goto w .idle) ran := by
  refine .ofThread hdef rfl ?_ (fun _ _ => id) (fun _ => id) (fun v y hy _ hv => holding_goto hw hy hv)
    (fun _ => nofun) (fun _ _ => .inl ?_) fun _ => nofun
  · exact hex.shrinkThread rfl (fun v y hv => (runs_of_goto (fun _ => rfl) hv).2) (fun _ _ => id) hex.distinct fun _ => id
  · rw [goto_threads, setThread_self]

/-- `doWork` drops a request for a thread that is running. -/
theorem drops (hw : s.workers w = .holding x) (hnot : ¬s.Deferred x) (hrun : (s.threads x).running = true) :
    Preserves s (s.goto w .idle) ran where
  exclusive := hex.shrink (fun v y hv => (runs_of_goto (fun _ => rfl) hv).2) (fun _ _ => id) hex.distinct fun _ _ => id
  deferred := hdef
  noted y _ hid hy := by
    have hyx : y ≠ x := fun hyx => by
      rw [hyx] at hid
      rw [hid hnot] at hrun
      cases hrun
    rcases hy with hy | hy | ⟨v, hv⟩
    · exact .inl hy
    · exact .inr (.inl hy)
    · exact .inr (.inr ⟨v, holding_goto hw hyx hv⟩)
  idle y _ hy := .inr ⟨hy, id⟩

/-- A worker is done with a thread that it runs, or that is terminating and not running. -/
theorem done {scheduled : Bool} (hrun : t.running = false) (hst : t.deferralState = (s.threads x).deferralState)
    (hw : (s.workers w).runs x = true ∨ s.workers w = .holding x ∧ (s.threads x).running = false ∧ ran x) :
    Preserves s (((s.setThread x t).schedule x scheduled).goto w .idle) ran := by
  have hhol (v y : Nat) (hran : ¬ran y) (hv : s.workers v = .holding y) :
      (((s.setThread x t).schedule x scheduled).goto w .idle).workers v = .holding y := by
    have hvw : v ≠ w := fun hvw => by
      subst hvw
      rw [hv] at hw
      rcases hw with hw | ⟨hw, -, hx⟩
      · cases hw
      · exact hran (Worker.holding.inj hw ▸ hx)
    rw [goto_of_ne hvw]
    exact hv
  refine .ofThread hdef rfl ?_ (fun _ _ => id) (fun y hy => mem_append_left _ hy) (fun v y _ => hhol v y)
    (fun hx => hst ▸ hdef x hx) (fun hran hx => ?_) fun _ _ => hrun
  · refine hex.shrinkThread rfl (fun v y hv => (runs_of_goto (fun _ => rfl) hv).2) (fun _ _ => id) hex.distinct fun hx hbef => ?_
    -- nobody else has taken the thread
    rcases hw with hw | ⟨-, hid, -⟩
    · rcases hx with ⟨v, hv⟩ | ⟨i, hi⟩
      · obtain ⟨hvw, hv⟩ := runs_of_goto (fun _ => rfl) hv
        exact absurd (hex.workers v w x hv hw) hvw
      · exact absurd hi (hex.apart w i x hw)
    · rw [hid] at hbef
      cases hbef
  · rcases hx with hx | hx | ⟨v, hv⟩
    · refine .inl ?_
      show ((s.setThread x t).threads x).deferralState = _
      rw [setThread_self, hst, hx]
    · exact .inr (.inl (mem_append_left _ hx))
    · exact .inr (.inr ⟨v, hhol v x hran hv⟩)

/-- A worker takes a thread. -/
theorem enters (hw : s.workers w = .holding x) (hrun : (s.threads x).running = false) (hran : ran x) :
    Preserves s ((s.setThread x { s.threads x with running := true }).goto w (.entered x)) ran := by
  let s' := (s.setThread x { s.threads x with running := true }).goto w (.entered x)
  refine .ofThread hdef rfl ?_ (fun _ _ => id) (fun _ => id) (fun v y hy _ hv => holding_goto hw hy hv)
    (hdef x) (fun hx => absurd hran hx) fun hx => absurd hran hx
  have hnot := hex.not_taken hrun
  have hru : ∀ v y, (s'.workers v).runs y = true → v = w ∧ y = x ∨ (s.workers v).runs y = true := by
    intro v y hv
    by_cases hvw : v = w
    · subst hvw
      rw [goto_self] at hv
      exact .inl ⟨rfl, (of_decide_eq_true hv).symm⟩
    · rw [goto_of_ne hvw] at hv
      exact .inr hv
  have hnl : ∀ v, (s'.workers v).runs x = true → v = w := fun v hv => (hru v x hv).elim And.left fun hv => absurd (.inl ⟨v, hv⟩) hnot
  refine hex.take hrun (fun u v hu hv => (hnl u hu).trans (hnl v hv).symm) (fun _ i _ hi => hnot (.inr ⟨i, hi⟩))
    (fun i j hi _ => absurd (.inr ⟨i, hi⟩) hnot) (fun v y hy hv => ?_) (fun _ _ _ => id) hex.distinct ?_ fun y hy => ?_
  · exact (hru v y hv).resolve_left fun h => hy h.2
  · rw [goto_threads, setThread_self]
  · rw [goto_threads, setThread_of_ne hy]

/-- A thread is deferred, by `defer` or by a microthread that is going to impersonate it. -/
theorem defers (himp : ∀ i y, (f i).holds y → (s.impersonators i).holds y)
    (hds : ∀ i old impersonating, f i = .releasing old impersonating → impersonating ≠ some old) :
    Preserves s { s.setThread x (s.threads x).defer with impersonators := f } ran := by
  have hrun : (s.threads x).defer.running = (s.threads x).running := by
    unfold defer
    split <;> rfl
  have hdefer : (s.threads x).defer.deferralState ≠ .notDeferred := by
    unfold defer
    split
    · exact nofun
    · assumption
  have hpd : (s.threads x).deferralState = .deferredPending → (s.threads x).defer.deferralState = .deferredPending := by
    intro h
    unfold defer
    rw [if_neg (by rw [h]; exact nofun), h]
  refine .ofThread hdef rfl (hex.shrinkThread rfl (fun _ _ => id) himp hds fun _ hx => hrun.trans hx)
    (fun y _ hy => hy.imp fun i hi => himp i y hi) (fun _ => id) (fun _ _ _ _ => id) (fun _ => hdefer) (fun _ hx => ?_)
    fun _ hx => absurd hx hdefer
  refine hx.imp_left fun hx => ?_
  rw [setThread_self]
  exact hpd hx

/-- The deferral of a thread ends, when nobody runs or impersonates it any more. A request that was noted is scheduled. -/
theorem undefers (hst : t.deferralState = (s.threads x).deferralState) (hrun : t.running = false)
    (himp : ∀ i y, (f i).holds y → (s.impersonators i).holds y)
    (hds : ∀ i old impersonating, f i = .releasing old impersonating → impersonating ≠ some old)
    (hnot : (∀ w, ¬(s.workers w).runs x = true) ∧ ∀ i, ¬(f i).holds x) :
    Preserves s { (s.setThread x t.undefer.1).schedule x t.undefer.2 with impersonators := f } ran := by
  refine .ofThread hdef rfl (hex.shrinkThread rfl (fun _ _ => id) himp hds fun hx _ => ?_)
    (fun y _ hy => hy.imp fun i hi => himp i y hi) (fun y hy => mem_append_left _ hy) (fun _ _ _ _ => id)
    (fun ⟨i, hi⟩ => absurd hi (hnot.2 i)) (fun _ hx => ?_) fun _ _ => hrun
  · rcases hx with ⟨w, hw⟩ | ⟨i, hi⟩
    · exact absurd hw (hnot.1 w)
    · exact absurd hi (hnot.2 i)
  · rcases hx with hx | hx | hx
    · refine .inr (.inl (mem_append_right _ ?_))
      rw [show t.undefer.2 = true from decide_eq_true (hst.trans hx)]
      exact mem_singleton_self x
    · exact .inr (.inl (mem_append_left _ hx))
    · exact .inr (.inr hx)

/-- A microthread that has waited takes a thread that is still deferred. -/
theorem takes {old : Option Nat} {next : Impersonator} (hi : s.impersonators i = .waiting x old)
    (hrun : (s.threads x).running = false) (hdefer : s.Deferred x) (hholds : ∀ y, next.holds y ↔ y = x ∨ old = some y)
    (hnx : ∀ o impersonating, next = .releasing o impersonating → old = some o ∧ impersonating = some x) :
    Preserves s { s.setThread x { s.threads x with running := true } with
      impersonators := update s.impersonators i next } ran := by
  have hnot := hex.not_taken hrun
  have hse : update s.impersonators i next i = next := update_self ..
  have hoth : ∀ j, j ≠ i → update s.impersonators i next j = s.impersonators j := fun j hj => update_of_ne hj ..
  have hnl : ∀ j, (update s.impersonators i next j).holds x → j = i := fun j hj => by
    refine Decidable.byContradiction fun hji => hnot (.inr ⟨j, ?_⟩)
    rwa [hoth j hji] at hj
  have himp : ∀ j y, y ≠ x → (update s.impersonators i next j).holds y → (s.impersonators j).holds y := fun j y hy hj => by
    by_cases hji : j = i
    · subst hji
      rw [hse] at hj
      rw [hi]
      exact ((hholds y).1 hj).resolve_left hy
    · rwa [hoth j hji] at hj
  refine .ofThread hdef rfl ?_ (fun y hy hx => hx.imp fun j hj => himp j y hy hj) (fun _ => id) (fun _ _ _ _ => id)
    (fun _ => hdefer) (fun _ hx => hx.imp_left fun hx => ?_) fun _ hx => absurd hx hdefer
  · refine hex.take hrun (fun v w hv _ => absurd (.inl ⟨v, hv⟩) hnot) (fun w _ hw _ => hnot (.inl ⟨w, hw⟩))
      (fun j k hj hk => (hnl j hj).trans (hnl k hk).symm)
        (fun _ _ _ => id) himp (fun j o impersonating hj => ?_) ?_ fun y hy => ?_
    · change update s.impersonators i next j = _ at hj
      by_cases hji : j = i
      · subst hji
        rw [hse] at hj
        obtain ⟨hold, rfl⟩ := hnx o impersonating hj
        intro hxo
        refine hnot (.inr ⟨j, ?_⟩)
        rw [hi]
        exact hold.trans hxo.symm
      · rw [hoth j hji] at hj
        exact hex.distinct j o impersonating hj
    · rw [setThread_self]
    · rw [setThread_of_ne hy]
  · rw [setThread_self, hx]

/-! ### The actions -/

theorem doneWorking (hst : t.deferralState = (s.threads x).deferralState)
    (hw : (s.workers w).runs x = true ∨ s.workers w = .holding x ∧ (s.threads x).running = false ∧ ran x) :
    Preserves s (s.doneWorking w x t) ran := by
  unfold Scheduler.doneWorking
  split
  · exact .quiet hex hdef { Quiet.refl s with }
  · rename_i h
    exact .done hex hdef (doneWorking_spec h).1 ((doneWorking_spec h).2.1.trans hst) hw

theorem enter (hw : s.workers w = .holding x) (hran : (s.threads x).enter.2 ≠ .returns → ran x) :
    Preserves s (s.enter w x) ran := by
  unfold Scheduler.enter
  rcases (s.threads x).enter_cases with ⟨-, he⟩ | ⟨hnot, hrun, he⟩ | ⟨hnot, hrun, he | he⟩ <;> rw [he] at hran ⊢
  · exact .notes hex hdef hw
  · have hse : s.setThread x (s.threads x) = s := by simp [setThread]
    show Preserves s ((s.setThread x (s.threads x)).goto w .idle) ran
    rw [hse]
    exact .drops hex hdef hw (not_not_intro hnot) hrun
  · exact .doneWorking hex hdef rfl (.inr ⟨hw, hrun, hran (by simp)⟩)
  · exact .enters hex hdef hw hrun (hran (by simp))

theorem examine (hw : s.workers w = .entered x) : Preserves s (s.examine w x) ran := by
  have hru : (s.workers w).runs x = true := by
    rw [hw]
    exact decide_eq_true rfl
  have hqui : ∀ {t : Thread} {d : Thread.Dispatch} {place : Worker}, (s.threads x).examine = .ok (t, d) →
      (∀ y, place.runs y = decide (x = y)) → Quiet s ((s.setThread x t).goto w place) := fun h hpl => by
    refine (quiet_setThread (examine_spec h).1 (examine_spec h).2.2.1).trans (quiet_goto (fun y => ?_) fun y hy => ?_)
    · rw [setThread_workers, hw, hpl]
      rfl
    · rw [setThread_workers, hw] at hy
      cases hy
  unfold Scheduler.examine
  split
  · exact .quiet hex hdef { Quiet.refl s with }
  · exact .quiet hex hdef (hqui ‹_› fun _ => rfl)
  · rename_i h
    exact .doneWorking hex hdef (examine_spec h).2.2.1 (.inl hru)
  · exact .quiet hex hdef (hqui ‹_› fun _ => rfl)

theorem advance (hran : ∀ x, s.workers w = .holding x → (s.threads x).enter.2 ≠ .returns → ran x) (h : s.advance w = some s') :
    Preserves s s' ran := by
  unfold Scheduler.advance at h
  split at h
  · cases h
    exact .enter hex hdef ‹_› (hran _ ‹_›)
  · cases h
    exact .examine hex hdef ‹_›
  · rename_i x hw
    cases h
    have hact := quiet_setThread (t := (s.threads x).makePendingCallActive) rfl rfl
    refine .quiet hex hdef (hact.trans (quiet_goto (fun y => ?_) fun y hy => ?_))
    · rw [setThread_workers, hw]
      rfl
    · rw [setThread_workers, hw] at hy
      cases hy
  · rename_i x hw
    cases h
    refine .doneWorking hex hdef rfl (.inl ?_)
    rw [hw]
    exact decide_eq_true rfl
  · cases h
  · cases h

theorem microthread {f : Thread → Thread} {place : Nat → Worker} (h : s.microthread w f place = some s')
    (hrun : ∀ t, (f t).running = t.running) (hst : ∀ t, (f t).deferralState = t.deferralState)
    (hpl : ∀ x y, (place x).runs y = decide (x = y)) : Preserves s s' ran := by
  unfold Scheduler.microthread at h
  split at h <;> cases h
  rename_i x hw
  refine .quiet hex hdef ((quiet_setThread (hrun _) (hst _)).trans (quiet_goto (fun y => ?_) fun y hy => ?_))
  · rw [setThread_workers, hw, hpl]
    rfl
  · rw [setThread_workers, hw] at hy
    cases hy

theorem impersonate {thread : Option Nat} (h : s.impersonate i thread = some s') : Preserves s s' ran := by
  unfold Scheduler.impersonate at h
  split at h
  · rename_i old x hi
    cases h
    exact .defers hex hdef (fun j y => holds_update hi id) (hex.distinct_update nofun)
  · rename_i old hi
    cases h
    have himp : ∀ j y, (update s.impersonators i (.releasing old none) j).holds y → (s.impersonators j).holds y :=
      fun j y =>
      holds_update hi fun hy => hy.elim (fun hy => hy ▸ rfl) nofun
    refine ⟨hex.shrink (fun _ _ => id) himp (hex.distinct_update fun o impersonating hj => ?_) fun _ _ => id, fun y hy => ?_,
      fun _ _ _ => id, fun _ _ hy => .inr ⟨hy, id⟩⟩
    · obtain ⟨-, rfl⟩ := releasing.inj hj
      exact nofun
    · exact hdef y (hy.imp fun j hj => himp j y hj)
  · cases h

theorem impersonated (hok : KeepsDeferral s (.impersonated i)) (h : s.impersonated i = some s') : Preserves s s' ran := by
  unfold Scheduler.impersonated at h
  split at h
  · rename_i x old hi
    obtain ⟨hrun, h⟩ := ite_none_left_eq_some.1 h
    cases h
    have hdefer : s.Deferred x := by
      simpa only [KeepsDeferral, hi, WaitsDeferred] using hok
    refine .takes hex hdef hi (by simpa using hrun) hdefer (fun y => ?_) fun o impersonating hnx => ?_
    · cases old with
      | none => simp [holds, eq_comm]
      | some old => simp [holds, eq_comm, or_comm]
    · cases old with
      | none => cases hnx
      | some old =>
        obtain ⟨rfl, rfl⟩ := releasing.inj hnx
        exact ⟨rfl, rfl⟩
  · rename_i old impersonating hi
    cases h
    have hholds : (s.impersonators i).holds old := by
      rw [hi]
      exact .inl rfl
    refine .undefers hex hdef rfl rfl (fun j y => holds_update hi .inr)
      (hex.distinct_update nofun) ⟨fun w hw => hex.apart w i old hw hholds, fun j hj => ?_⟩
    by_cases hji : j = i
    · subst hji
      rw [update_self] at hj
      exact hex.distinct j old impersonating hi hj
    · rw [update_of_ne hji] at hj
      exact hji (hex.one j i old hj hholds)
  · cases h

theorem act {a : SchedulerAction} (hok : KeepsDeferral s a) (h : s.act a = some s') : Preserves s s' (s.RunsDoWork · a) := by
  cases a with
  | setPendingCall x call =>
    obtain ⟨-, h⟩ := ite_none_right_eq_some.1 h
    split at h
    · cases h
      exact .quiet hex hdef { Quiet.refl s with }
    · rename_i t ht
      cases h
      obtain ⟨hrun, hst⟩ := setPendingCall_running ht
      exact .quiet hex hdef { quiet_setThread hrun hst with }
  | push =>
    simp only [Scheduler.act] at h
    split at h <;> cases h
    exact .quiet hex hdef { quiet_schedule s _ true with }
  | pop worker =>
    simp only [Scheduler.act] at h
    split at h <;> cases h
    rename_i hw hq
    exact .pop hex hdef hw hq
  | advance worker => exact .advance hex hdef (fun x hw hent => ⟨hw, hent⟩) h
  | reply worker | setPendingCallOverride worker _ | suspend worker _ | finish worker =>
    simp only [Scheduler.act] at h
    exact .microthread hex hdef h (fun _ => rfl) (fun _ => rfl) fun _ _ => rfl
  | resume x =>
    cases h
    exact .quiet hex hdef (quiet_schedule s x _)
  | terminate x =>
    cases h
    exact .quiet hex hdef ((quiet_setThread (terminate_keeps _).1 (terminate_keeps _).2).trans (quiet_schedule _ x _))
  | notifyDead x =>
    cases h
    exact .quiet hex hdef ((quiet_setThread (notifyDead_keeps _).1 (notifyDead_keeps _).2).trans (quiet_schedule _ x _))
  | defer x =>
    cases h
    exact .defers hex hdef (fun _ _ => id) hex.distinct
  | undefer x =>
    cases h
    have hnot := hex.not_taken hok
    exact .undefers hex hdef rfl hok (fun _ _ => id) hex.distinct
      ⟨fun w hw => hnot (.inl ⟨w, hw⟩), fun i hi => hnot (.inr ⟨i, hi⟩)⟩
  | impersonate i thread => exact .impersonate hex hdef h
  | impersonated i => exact .impersonated hex hdef hok h

end Preserves

end Scheduler

/-! ## Runs -/

namespace Watched

/-- What holds in every state. -/
structure Inv (x : Watched) : Prop where
  exclusive : x.scheduler.Exclusive
  deferred : ∀ thread, x.scheduler.Impersonated thread → x.scheduler.Deferred thread
  requests : ∀ thread, x.requested thread → x.scheduler.Noted thread
  idle : ∀ thread, x.requested thread → ¬x.scheduler.Deferred thread → (x.scheduler.threads thread).running = false

theorem Inv.init : Inv machine.init where
  exclusive := ⟨nofun, nofun, nofun, nofun, fun _ h => h.elim nofun nofun⟩
  deferred _ := nofun
  requests _ := nofun
  idle _ := nofun

theorem Inv.step {x x' : Watched} {a : SchedulerAction} (h : Inv x) (hok : x.scheduler.KeepsDeferral a)
    (hsp : x.step a = some x') :
    Inv x' := by
  obtain ⟨s', hs, rfl⟩ := map_eq_some_iff.1 hsp
  have hkp := Scheduler.Preserves.act h.exclusive h.deferred hok (ite_none_left_eq_some.1 hs).2
  refine ⟨hkp.exclusive, hkp.deferred, fun thread hreq => ?_, fun thread hreq hnot => ?_⟩
  · obtain ⟨hreq | ⟨hque, -⟩, hran⟩ := hreq
    · exact hkp.noted thread hran (h.idle thread hreq) (h.requests thread hreq)
    · exact .inr (.inl (mem_of_mem_drop hque))
  · obtain ⟨hreq | ⟨-, hdefer⟩, hran⟩ := hreq
    · rcases hkp.idle thread hran hnot with hid | ⟨hbef, hid⟩
      · exact hid
      · exact hid (h.idle thread hreq hbef)
    · rcases hkp.idle thread hran hnot with hid | ⟨hbef, -⟩
      · exact hid
      · exact absurd (hdefer.elim (h.deferred thread) id) hbef

/-- **Requests are kept** in every run in which an impersonator takes a thread only while it is deferred, and `undefer` is
called only for a thread that is not running. -/
theorem requests_kept_of_deferred {x : Watched} (h : machine.Reaches (fun x a => x.scheduler.KeepsDeferral a) x) : Kept x := by
  have hinv : Inv x := h.invariant Inv.init fun hinv => hinv.step
  refine ⟨fun i thread hi => ⟨fun w => ?_, fun j hj => hinv.exclusive.one j i thread hj hi⟩, hinv.requests,
    fun thread hreq hnot => ?_⟩
  · exact Bool.eq_false_iff.2 fun hw => hinv.exclusive.apart w i thread hw hi
  · rcases (x.scheduler.threads thread).enter_cases with ⟨hdefer, -⟩ | ⟨-, hrun, -⟩ | ⟨-, -, he | he⟩
    · exact absurd hdefer hnot
    · rw [hinv.idle thread hreq hnot] at hrun
      cases hrun
    · rw [he]
      exact nofun
    · rw [he]
      exact nofun

/-- A call comes while the thread is impersonated. `doWork` notes it, and the thread is scheduled again when the impersonation
ends. -/
theorem requests_kept_of_deferred_impersonated : ∃ x : Watched,
    (x.scheduler.workQueue = [0] ∧ x.scheduler.impersonators 0 = .outside none) ∧ Kept x := by
  refine (Machine.exists_reaches_of_runOk (fun x a => x.scheduler.KeepsDeferral a)
    [.impersonate 0 (some 0), .impersonated 0, .setPendingCall 0 ⟨0, .other⟩, .push, .pop 0, .advance 0, .impersonate 0 none,
      .impersonated 0] ?_).imp fun x h => ⟨h.2, requests_kept_of_deferred h.1⟩
  decide

/-- Microthread 1 has waited for microthread 0, and takes the thread when the deferral has ended. The call that comes then is
dropped. -/
theorem requests_not_kept : ¬∀ x, machine.Reachable x → Kept x := by
  intro h
  obtain ⟨x, hx, hreq, hst, hqu, hid⟩ : ∃ x, machine.run machine.init
      [.impersonate 0 (some 0), .impersonated 0, .impersonate 1 (some 0), .impersonate 0 none, .impersonated 0, .impersonated 1,
        .setPendingCall 0 ⟨0, .other⟩, .push, .pop 0, .advance 0] = some x ∧ x.requested 0 ∧
      (x.scheduler.threads 0).deferralState = .notDeferred ∧ x.scheduler.workQueue = [] ∧ ∀ w, x.scheduler.workers w = .idle := by
    refine ⟨_, rfl, ⟨.inl ⟨.inl ⟨.inr ⟨by decide, .inl ⟨1, rfl⟩⟩, id⟩, id⟩, fun hran => hran.2 rfl⟩, by decide, by decide, ?_⟩
    intro w
    match w with
    | 0 => rfl
    | w + 1 => rfl
  rcases (h x (Machine.reaches_of_runOk hx)).requests 0 hreq with hnoted | hque | ⟨w, hw⟩
  · rw [hst] at hnoted
    cases hnoted
  · rw [hqu] at hque
    cases hque
  · rw [hid w] at hw
    cases hw

end Watched

end Osxie.Server
