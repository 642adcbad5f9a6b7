import Osxie.DuctTape.Timer

/-!
# The timerfd covers the queue

Every deadline that is queued or about to be queued is covered by the timerfd or by an expiration not handled yet, or else a
`dtape_timer_fired` is under way that will arm the timerfd again; and so is the deadline the server remembers as the current
one.
-/

namespace Osxie.DuctTape

open Nat List

namespace Timers

/-- A deadline that is queued or about to be queued. -/
def Due (s : Timers) (d : Nat) : Prop := (∃ e ∈ s.queue, e.2 = d) ∨ ∃ n timer, s.pc n = .inserting timer d

/-- A `dtape_timer_fired` is under way. -/
def Rearming (s : Timers) : Prop := ∃ n, s.pc n = .expiring ∨ ∃ d, s.pc n = .fired d

structure Inv (s : Timers) : Prop where
  armed : ∀ {d}, s.timerFD = some d → d = s.currentTimerDeadline ∧ d ≠ 0
  current : s.currentTimerDeadline ≠ 0 → s.Covers s.currentTimerDeadline ∨ s.Rearming
  due : ∀ {d}, s.Due d → s.Covers d ∨ s.Rearming
  range : ∀ {d}, s.Due d → d ≠ 0 ∧ d < uint64Max
  read : ∀ {n d}, s.pc n = .cancelling d ∨ s.pc n = .fired d → d ≠ 0 ∧ d ≤ uint64Max

variable {s : Timers} {n : Nat} {pc : TimerPc} {d : Nat}

theorem Covers.mono {d d' : Nat} (h : s.Covers d) (hle : d ≤ d') : s.Covers d' := by
  obtain ⟨a, ha, had⟩ := h
  exact ⟨a, ha, le_trans had hle⟩

/-! ## The queue -/

variable {e : Nat × Nat} (queue : List (Nat × Nat))

theorem least_le {queue : List (Nat × Nat)} (h : e ∈ queue) : least queue ≤ e.2 := by
  induction queue with
  | nil => cases h
  | cons x queue ih =>
    rcases mem_cons.1 h with rfl | h
    · exact min_le_left _ _
    · exact le_trans (min_le_right _ _) (ih h)

theorem least_le_max : least queue ≤ uint64Max := by
  induction queue with
  | nil => exact le_rfl
  | cons x queue ih => exact le_trans (min_le_right _ _) ih

/-- The least deadline is UINT64_MAX or that of a queued timer. -/
theorem least_mem : least queue = uint64Max ∨ ∃ e ∈ queue, e.2 = least queue := by
  induction queue with
  | nil => exact .inl rfl
  | cons x queue ih =>
    rcases le_total x.2 (least queue) with hle | hle
    · exact .inr ⟨x, mem_cons_self, (min_eq_left hle).symm⟩
    · have heq : least (x :: queue) = least queue := min_eq_right hle
      rw [heq]
      rcases ih with hmax | ⟨e, he, hed⟩
      · exact .inl hmax
      · exact .inr ⟨e, mem_cons_of_mem x he, hed⟩

theorem mem_of_mem_dequeue {queue : List (Nat × Nat)} {timer : Nat} (h : e ∈ dequeue queue timer) : e ∈ queue :=
  (mem_filter.1 h).1

/-- The deadline an operation reads from the queue. -/
theorem Inv.least_range (h : s.Inv) : least s.queue ≠ 0 ∧ least s.queue ≤ uint64Max := by
  refine ⟨?_, least_le_max s.queue⟩
  rcases least_mem s.queue with hmax | ⟨e, he, hed⟩
  · rw [hmax]
    decide
  · rw [← hed]
    exact (h.range (.inl ⟨e, he, rfl⟩)).1

/-! ## Places -/

theorem goto_pc_self (s : Timers) (n : Nat) (pc : TimerPc) : (s.goto n pc).pc n = pc := Function.update_self _ _ _

theorem goto_pc_ne {k : Nat} (s : Timers) (pc : TimerPc) (h : k ≠ n) : (s.goto n pc).pc k = s.pc k := Function.update_of_ne h _ _

/-- A caller that goes elsewhere leaves a `dtape_timer_fired` of another caller under way. -/
theorem Rearming.goto (h : s.Rearming) (hexp : s.pc n ≠ .expiring) (hfired : ∀ d, s.pc n ≠ .fired d) : (s.goto n pc).Rearming := by
  obtain ⟨k, hk⟩ := h
  have hne : k ≠ n := by
    rintro rfl
    rcases hk with hk | ⟨d, hk⟩
    · exact hexp hk
    · exact hfired d hk
  refine ⟨k, ?_⟩
  rw [goto_pc_ne s pc hne]
  exact hk

/-- What is due after a caller goes to a place outside an insertion was due before. -/
theorem Due.of_goto (h : (s.goto n pc).Due d) (hpc : ∀ timer d, pc ≠ .inserting timer d) : s.Due d := by
  rcases h with he | ⟨k, timer, hk⟩
  · exact .inl he
  · by_cases hkn : k = n
    · rw [hkn, goto_pc_self] at hk
      exact absurd hk (hpc timer d)
    · rw [goto_pc_ne s pc hkn] at hk
      exact .inr ⟨k, timer, hk⟩

/-- A deadline that was read, after a caller goes to a place where it has not read one. -/
theorem read_of_goto {k : Nat} (h : (s.goto n pc).pc k = .cancelling d ∨ (s.goto n pc).pc k = .fired d)
    (hc : pc ≠ .cancelling d) (hf : pc ≠ .fired d) : s.pc k = .cancelling d ∨ s.pc k = .fired d := by
  by_cases hkn : k = n
  · rw [hkn, goto_pc_self] at h
    rcases h with h | h
    · exact absurd h hc
    · exact absurd h hf
  · rw [goto_pc_ne s pc hkn] at h
    exact h

/-- A step that leaves the timerfd alone keeps the invariant if nothing new is due and no `dtape_timer_fired` ends. -/
theorem Inv.of_due {s s' : Timers} (h : s.Inv) (hfd : s'.timerFD = s.timerFD) (hfresh : s'.fires = s.fires)
    (hcur : s'.currentTimerDeadline = s.currentTimerDeadline) (hdue : ∀ {d}, s'.Due d → s.Due d)
    (hre : s.Rearming → s'.Rearming)
    (hrd : ∀ {n d}, s'.pc n = .cancelling d ∨ s'.pc n = .fired d → d ≠ 0 ∧ d ≤ uint64Max) : s'.Inv := by
  have hcov : ∀ {d}, s.Covers d → s'.Covers d := by
    rintro d ⟨a, ha, had⟩
    refine ⟨a, ?_, had⟩
    rw [hfd, hfresh]
    exact ha
  refine ⟨?_, ?_, ?_, fun hd => h.range (hdue hd), hrd⟩
  · intro d hd
    rw [hfd] at hd
    rw [hcur]
    exact h.armed hd
  · intro hne
    rw [hcur] at hne ⊢
    rcases h.current hne with hc | hr
    · exact .inl (hcov hc)
    · exact .inr (hre hr)
  · intro d hd
    rcases h.due (hdue hd) with hc | hr
    · exact .inl (hcov hc)
    · exact .inr (hre hr)

/-! ## Arming -/

@[simp] theorem arm_queue (override : Bool) : (s.arm d override).queue = s.queue := by
  simp only [arm]
  split <;> split <;> rfl

@[simp] theorem arm_fires (override : Bool) : (s.arm d override).fires = s.fires := by
  simp only [arm]
  split <;> split <;> rfl

@[simp] theorem arm_pc (override : Bool) : (s.arm d override).pc = s.pc := by
  simp only [arm]
  split <;> split <;> rfl

/-- Overriding with a deadline sets it. -/
theorem arm_override (s : Timers) (h0 : d ≠ 0) (hmax : d ≠ uint64Max) :
    (s.arm d true).currentTimerDeadline = d ∧ (s.arm d true).timerFD = some d := by
  simp [arm, h0, hmax]

/-- Arming without overriding does nothing when there is an earlier current deadline, and otherwise sets the deadline. -/
theorem arm_insert (s : Timers) (h0 : d ≠ 0) (hmax : d ≠ uint64Max) :
    (s.currentTimerDeadline ≠ 0 ∧ s.currentTimerDeadline ≤ d ∧ s.arm d false = s) ∨
      ((s.currentTimerDeadline = 0 ∨ d < s.currentTimerDeadline) ∧ (s.arm d false).currentTimerDeadline = d ∧
        (s.arm d false).timerFD = some d) := by
  by_cases hskip : s.currentTimerDeadline ≠ 0 ∧ s.currentTimerDeadline ≤ d
  · exact .inl ⟨hskip.1, hskip.2, by simp [arm, hmax, hskip]⟩
  · refine .inr ⟨by omega, ?_, ?_⟩ <;> simp [arm, h0, hmax, hskip]

section

variable (h : s.Inv)

include h

variable {s' : Timers}

/-- An overriding arm keeps the invariant if no timer queued or about to be queued comes before its deadline. -/
theorem Inv.override (hd : d ≠ 0 ∧ d ≤ uint64Max) (hnn : s.NoneBefore d) (hfd : s'.timerFD = (s.arm d true).timerFD)
    (hcur : s'.currentTimerDeadline = (s.arm d true).currentTimerDeadline) (hdue : ∀ {d}, s'.Due d → s.Due d)
    (hrd : ∀ {n d}, s'.pc n = .cancelling d ∨ s'.pc n = .fired d → s.pc n = .cancelling d ∨ s.pc n = .fired d) : s'.Inv := by
  have hle : ∀ {d'}, s.Due d' → d ≤ d' := by
    rintro d' (⟨e, he, rfl⟩ | ⟨n, timer, hn⟩)
    · exact hnn.1 e he
    · exact hnn.2 n timer d' hn
  by_cases hmax : d = uint64Max
  · subst hmax
    -- nothing is due at all
    have hno : ∀ {d'}, ¬s.Due d' := by
      intro d' hd'
      have h1 := hle hd'
      have h2 := (h.range hd').2
      omega
    refine ⟨?_, ?_, fun hd' => absurd (hdue hd') hno, fun hd' => absurd (hdue hd') hno, fun hn => h.read (hrd hn)⟩
    · intro d' hd'
      rw [hfd] at hd'
      cases hd'
    · intro hne
      exact absurd hcur hne
  · obtain ⟨hc, ht⟩ := arm_override s hd.1 hmax
    rw [hc] at hcur
    rw [ht] at hfd
    have hcov : ∀ {d'}, d ≤ d' → s'.Covers d' := fun hdd' => ⟨d, .inl hfd, hdd'⟩
    refine ⟨?_, ?_, fun hd' => .inl (hcov (hle (hdue hd'))), fun hd' => h.range (hdue hd'), fun hn => h.read (hrd hn)⟩
    · intro d' hd'
      rw [hfd] at hd'
      cases hd'
      exact ⟨hcur.symm, hd.1⟩
    · intro _
      rw [hcur]
      exact .inl (hcov (le_refl d))

/-- The first half of an insertion keeps the invariant. -/
theorem Inv.insert {timer : Nat} (hid : s.pc n = .idle) (h0 : d ≠ 0) (hlt : d < uint64Max) :
    ((s.arm d false).goto n (.inserting timer d)).Inv := by
  have hmax : d ≠ uint64Max := by omega
  have hre : s.Rearming → ((s.arm d false).goto n (.inserting timer d)).Rearming := by
    intro hr
    have hr' : (s.arm d false).Rearming := by
      obtain ⟨k, hk⟩ := hr
      exact ⟨k, by rw [arm_pc]; exact hk⟩
    refine hr'.goto ?_ ?_
    · rw [arm_pc, hid]
      simp
    · rw [arm_pc, hid]
      simp
  have hdue : ∀ {d'}, ((s.arm d false).goto n (.inserting timer d)).Due d' → d' = d ∨ s.Due d' := by
    rintro d' (⟨e, he, rfl⟩ | ⟨k, timer', hk⟩)
    · refine .inr (.inl ⟨e, ?_, rfl⟩)
      rw [← arm_queue false]
      exact he
    · by_cases hkn : k = n
      · rw [hkn, goto_pc_self] at hk
        cases hk
        exact .inl rfl
      · rw [goto_pc_ne _ _ hkn, arm_pc] at hk
        exact .inr (.inr ⟨k, timer', hk⟩)
  have hrange : ∀ {d'}, ((s.arm d false).goto n (.inserting timer d)).Due d' → d' ≠ 0 ∧ d' < uint64Max := by
    intro d' hd'
    rcases hdue hd' with rfl | hs
    · exact ⟨h0, hlt⟩
    · exact h.range hs
  have hrd : ∀ {k d'}, ((s.arm d false).goto n (.inserting timer d)).pc k = .cancelling d' ∨
      ((s.arm d false).goto n (.inserting timer d)).pc k = .fired d' → d' ≠ 0 ∧ d' ≤ uint64Max := by
    intro k d' hk
    have hk' := read_of_goto hk (by simp) (by simp)
    rw [arm_pc] at hk'
    exact h.read hk'
  rcases arm_insert s h0 hmax with ⟨hc0, hcd, heq⟩ | ⟨hbef, hcur, hfd⟩
  · -- nothing is armed: what covers the current deadline covers this one
    rw [heq] at hre hdue hrange hrd ⊢
    refine ⟨h.armed, ?_, ?_, hrange, hrd⟩
    · intro hne
      rcases h.current hne with hcov | hr
      · exact .inl hcov
      · exact .inr (hre hr)
    · intro d' hd'
      rcases hdue hd' with rfl | hs
      · rcases h.current hc0 with hcov | hr
        · exact .inl (hcov.mono hcd)
        · exact .inr (hre hr)
      · rcases h.due hs with hcov | hr
        · exact .inl hcov
        · exact .inr (hre hr)
  · -- the new deadline is armed in the place of a later one
    refine ⟨?_, ?_, ?_, hrange, hrd⟩
    · intro d' hd'
      have hd'' : (s.arm d false).timerFD = some d' := hd'
      rw [hfd] at hd''
      cases hd''
      exact ⟨hcur.symm, h0⟩
    · intro _
      exact .inl ⟨d, .inl hfd, le_of_eq hcur.symm⟩
    · intro d' hd'
      rcases hdue hd' with rfl | hs
      · exact .inl ⟨d', .inl hfd, le_refl d'⟩
      · rcases h.due hs with ⟨a, ha | ha, had⟩ | hr
        · obtain ⟨hac, ha0⟩ := h.armed ha
          refine .inl ⟨d, .inl hfd, ?_⟩
          omega
        · refine .inl ⟨a, .inr ?_, had⟩
          show a ∈ (s.arm d false).fires
          rw [arm_fires]
          exact ha
        · exact .inr (hre hr)

/-! ## The timerfd expires -/

/-- The main loop reads an expiration. -/
theorem Inv.fdRead (hd : s.timerFD = some d) : Inv { s with timerFD := none, fires := s.fires ++ [d] } := by
  have hcov : ∀ {d'}, s.Covers d' → Covers { s with timerFD := none, fires := s.fires ++ [d] } d' := by
    rintro d' ⟨a, ha | ha, had⟩
    · rw [hd] at ha
      cases ha
      exact ⟨d, .inr (by simp), had⟩
    · exact ⟨a, .inr (mem_append_left _ ha), had⟩
  refine ⟨?_, ?_, ?_, h.range, h.read⟩
  · intro d' hd'
    cases hd'
  · intro hne
    rcases h.current hne with hc | hr
    · exact .inl (hcov hc)
    · exact .inr hr
  · intro d' hd'
    rcases h.due hd' with hc | hr
    · exact .inl (hcov hc)
    · exact .inr hr

/-- A microthread starts `dtape_timer_fired`. -/
theorem Inv.start (fires : List Nat) : Inv ({ s with fires := fires }.goto n .expiring) := by
  have hre : Rearming ({ s with fires := fires }.goto n .expiring) := ⟨n, .inl (goto_pc_self _ _ _)⟩
  refine ⟨fun hd => h.armed hd, fun _ => .inr hre, fun _ => .inr hre, ?_, ?_⟩
  · intro d hd
    exact h.range (Due.of_goto hd (by simp))
  · intro k d hk
    exact h.read (read_of_goto hk (by simp) (by simp))

/-! ## One step -/

/-- An insertion puts its timer in the queue. -/
theorem Inv.enqueue {timer : Nat} (hpc : s.pc n = .inserting timer d) :
    Inv ({ s with queue := enqueue s.queue timer d }.goto n .idle) := by
  refine h.of_due rfl rfl rfl ?_ ?_ ?_
  · intro d' hd'
    rcases Due.of_goto hd' (by simp) with ⟨e, he, rfl⟩ | hk
    · rcases mem_cons.1 he with rfl | he
      · exact .inr ⟨n, timer, hpc⟩
      · exact .inl ⟨e, mem_of_mem_dequeue he, rfl⟩
    · exact .inr hk
  · intro hr
    exact Rearming.goto (s := { s with queue := Timers.enqueue s.queue timer d }) hr (by simp [hpc]) (by simp [hpc])
  · intro k d' hk
    exact h.read (read_of_goto hk (by simp) (by simp))

/-- A timer is taken out of the queue. -/
theorem Inv.dequeue (timer : Nat) : Inv { s with queue := dequeue s.queue timer } := by
  refine h.of_due rfl rfl rfl ?_ (fun hr => hr) h.read
  rintro d' (⟨e, he, rfl⟩ | hk)
  · exact .inl ⟨e, mem_of_mem_dequeue he, rfl⟩
  · exact .inr hk

/-- A caller that is not in `dtape_timer_fired` goes to a place outside an insertion. -/
theorem Inv.goto (hexp : s.pc n ≠ .expiring) (hfired : ∀ d, s.pc n ≠ .fired d) (hins : ∀ timer d, pc ≠ .inserting timer d)
    (hrd : ∀ d, pc = .cancelling d ∨ pc = .fired d → d ≠ 0 ∧ d ≤ uint64Max) : (s.goto n pc).Inv := by
  refine h.of_due rfl rfl rfl (fun hd => Due.of_goto hd hins) (fun hr => hr.goto hexp hfired) ?_
  intro k d hk
  by_cases hkn : k = n
  · rw [hkn, goto_pc_self] at hk
    exact hrd d hk
  · rw [goto_pc_ne s pc hkn] at hk
    exact h.read hk

/-- `timer_queue_expire` returns the least deadline left. -/
theorem Inv.expired : (s.goto n (.fired (least s.queue))).Inv := by
  have hre : (s.goto n (.fired (least s.queue))).Rearming := ⟨n, .inr ⟨_, goto_pc_self _ _ _⟩⟩
  refine h.of_due rfl rfl rfl (fun hd => Due.of_goto hd (by simp)) (fun _ => hre) ?_
  intro k d hk
  by_cases hkn : k = n
  · rw [hkn, goto_pc_self] at hk
    rcases hk with hk | hk
    · cases hk
    · cases hk
      exact h.least_range
  · rw [goto_pc_ne s _ hkn] at hk
    exact h.read hk

/-- A cancellation or `dtape_timer_fired` arms the timerfd with the deadline it has read, and returns. -/
theorem Inv.rearm (hpc : s.pc n = .cancelling d ∨ s.pc n = .fired d) (hnn : s.NoneBefore d) (lock : Option Nat) :
    Inv ({ s.arm d true with queueLock := lock }.goto n .idle) := by
  refine h.override (h.read hpc) hnn rfl rfl ?_ ?_
  · intro d hd
    have hd' := Due.of_goto hd (by simp)
    exact hd'
  · intro k d hk
    have hk' := read_of_goto hk (by simp) (by simp)
    exact hk'

/-- The next step of a caller keeps the invariant, unless it overrides the timerfd too late. -/
theorem Inv.advance (hok : s.Undisturbed (.advance n)) (hs : s.step (.advance n) = some s') : s'.Inv := by
  simp only [Undisturbed] at hok
  simp only [step] at hs
  generalize hpc : s.pc n = pc at hs hok
  cases pc with
  | idle =>
    cases hs
  | inserting timer d =>
    obtain ⟨-, rfl⟩ := of_guarded hs
    exact h.enqueue hpc
  | dequeuing timer =>
    obtain ⟨-, rfl⟩ := of_guarded hs
    exact (h.dequeue timer).goto (by simp [hpc]) (by simp [hpc]) (by simp) (by simp)
  | dequeued =>
    obtain ⟨-, rfl⟩ := of_guarded hs
    have h' : Inv { s with queueLock := some n } := h.of_due rfl rfl rfl (fun hd => hd) (fun hr => hr) h.read
    refine h'.goto (by simp [hpc]) (by simp [hpc]) (by simp) ?_
    rintro d (hd | hd)
    · cases hd
      exact h.least_range
    · cases hd
  | cancelling newDeadline =>
    cases hs
    exact h.rearm (.inl hpc) hok none
  | expiring =>
    obtain ⟨-, rfl⟩ := of_guarded hs
    exact h.expired
  | fired nextDeadline =>
    cases hs
    exact h.rearm (.inr hpc) hok _

/-- Every step keeps the invariant, unless it inserts a deadline that disarms or overrides the timerfd too late. -/
theorem Inv.step {a : TimerAction} (hok : s.Undisturbed a) (hs : s.step a = some s') : s'.Inv := by
  cases a with
  | insert n timer d =>
    obtain ⟨hid, rfl⟩ := of_guarded hs
    have hlt : d < uint64Max := lt_of_le_of_ne hid.2 hok.2
    exact h.insert hid.1 hok.1 hlt
  | cancel n timer =>
    obtain ⟨hid, rfl⟩ := of_guarded hs
    exact h.goto (by simp [hid.1]) (by simp [hid.1]) (by simp) (by simp)
  | read =>
    simp only [Timers.step] at hs
    split at hs <;> cases hs
    rename_i d hd
    exact h.fdRead hd
  | start n d =>
    obtain ⟨-, rfl⟩ := of_guarded hs
    exact h.start _
  | expire n timer =>
    obtain ⟨-, rfl⟩ := of_guarded hs
    exact h.dequeue timer
  | advance n => exact h.advance hok hs

end

theorem inv_init : init.Inv := by
  have hno : ∀ {d}, ¬init.Due d := by
    rintro d (⟨e, he, -⟩ | ⟨n, timer, hn⟩)
    · cases he
    · cases hn
  refine ⟨?_, ?_, fun hd => absurd hd hno, fun hd => absurd hd hno, ?_⟩
  · intro d hd
    cases hd
  · intro hne
    exact absurd rfl hne
  · rintro n d (hn | hn) <;> cases hn

/-! ## Every run -/

/-- Where no operation is under way the invariant says that the timerfd covers the queue. -/
theorem Inv.covered (h : s.Inv) : s.Covered := by
  intro hid hne
  have hnr : ¬s.Rearming := by
    rintro ⟨n, hn | ⟨d, hn⟩⟩
    · rw [hid n] at hn
      cases hn
    · rw [hid n] at hn
      cases hn
  obtain ⟨e, he, hed⟩ : ∃ e ∈ s.queue, e.2 = least s.queue := by
    rcases least_mem s.queue with hmax | hmem
    · obtain ⟨e, he⟩ := exists_mem_of_ne_nil _ hne
      have h1 := least_le he
      have h2 := (h.range (.inl ⟨e, he, rfl⟩)).2
      omega
    · exact hmem
  rcases h.due (.inl ⟨e, he, hed⟩) with hc | hr
  · exact hc
  · exact absurd hr hnr

/-- In every run in which insertions have deadlines other than 0 and UINT64_MAX, and no operation overrides the timerfd with a
deadline later than that of a timer queued or about to be queued, the timerfd covers the queue in every state reached. -/
theorem timers_covered_of_undisturbed {s : Timers} (h : machine.Reaches Undisturbed s) : s.Covered := by
  have hinv : s.Inv := Machine.Reaches.invariant inv_init (fun hinv => hinv.step) h
  exact hinv.covered

/-- Timers are inserted at the deadlines 10 and 5, and the second one is cancelled. -/
theorem timers_covered_cancelled :
    ∃ s, machine.Reaches Undisturbed s ∧ s.Covered ∧ s.queue = [(0, 10)] ∧ s.timerFD = some 10 := by
  have hinit : machine.Reaches Undisturbed machine.init := .init
  have hfirst := hinit.step (TimerAction.insert 0 0 10) ⟨by decide, by decide⟩ rfl
  have hsecond := (hfirst.step (TimerAction.advance 0) trivial rfl).step (TimerAction.insert 1 1 5) ⟨by decide, by decide⟩ rfl
  have hcancel := (hsecond.step (TimerAction.advance 1) trivial rfl).step (TimerAction.cancel 2 1) trivial rfl
  have hlocked := (hcancel.step (TimerAction.advance 2) trivial rfl).step (TimerAction.advance 2) trivial rfl
  have hdone := hlocked.step (TimerAction.advance 2) ⟨by decide, fun n _ _ hn => match n with | 0 | 1 | 2 | _ + 3 => nomatch hn⟩ rfl
  exact ⟨_, hdone, timers_covered_of_undisturbed hdone, rfl, rfl⟩

/-- A timer at deadline 10 is queued. While a second caller inserts one at deadline 5 and has armed the timerfd for it, a third
cancels the first: it finds the queue empty and disarms the timerfd, and then the second timer is queued. -/
def cancelDuringInsert : List TimerAction :=
  [.insert 0 0 10, .advance 0, .insert 1 1 5, .cancel 2 0, .advance 2, .advance 2, .advance 2, .advance 1]

/-- The timerfd is disarmed then, with a timer in the queue and no operation under way. -/
theorem timers_covered_false : ¬∀ s, machine.Reachable s → s.Covered := by
  intro h
  have hrun : ∃ s, machine.run machine.init cancelDuringInsert = some s ∧ s.queue = [(1, 5)] ∧ s.timerFD = none ∧ s.fires = [] ∧
      ∀ n, s.pc n = .idle := by
    refine ⟨_, rfl, by decide, by decide, by decide, ?_⟩
    intro n
    match n with
    | 0 | 1 | 2 => rfl
    | n + 3 => rfl
  obtain ⟨s, hs, hq, hfd, hfresh, hid⟩ := hrun
  have hcov := h s (Machine.reaches_of_runOk hs) hid (by rw [hq]; simp)
  obtain ⟨d, hd | hd, -⟩ := hcov
  · rw [hfd] at hd
    cases hd
  · rw [hfresh] at hd
    cases hd

end Timers

end Osxie.DuctTape
