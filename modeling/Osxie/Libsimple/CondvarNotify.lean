import Osxie.Libsimple.Condvar

/-!
# Notifications are not lost when the calls do not overlap

While a thread sleeps on the condition variable, the bit for `notify_one` is set, or a call has cleared it and is about to wake
one or to set it again, or `notify_all` is about to move the sleepers (`Inv`). A `notify_one` that finds the bit clear while no
other call is there has nobody to wake. A waiter not yet asleep when a notification begins does not sleep any more.
-/

namespace Osxie.Libsimple.Condvar

open Pc Word Threads

/-! ## Places -/

/-- A thread has cleared the bit of `notify_one`, and has not set it again or moved the sleepers yet. -/
def Pc.clears : Pc → Bool
  | .oneWake _ | .oneRestore _ | .allRequeue _ => true
  | _ => false

/-- A thread has cleared the bit of `notify_all`, and has not moved the sleepers yet. -/
def Pc.requeues : Pc → Bool
  | .allRequeue _ => true
  | _ => false

/-- A call of `notify_one` that counts has woken a thread and is about to return. -/
def Pc.restores (p : Pc) : Bool := p = .oneRestore true

/-- A thread that was marked sleeps, or can still fall asleep: there was no notification since it set the bits. -/
def Pc.exposed (notified : Nat) : Pc → Bool
  | .unlocking _ since marked => marked && since = notified
  | .asleep marked => marked
  | _ => false

/-- What the place of a thread says about the word. -/
def Placed (w : Word) : Pc → Prop
  | .unlocking state2 since marked => state2 = (4 * since + 3) % 2 ^ 32 ∧ since ≤ w.notified ∧
    (marked → w.began → since < w.notified)
  | .oneClear counted | .oneWake counted | .oneRestore counted | .allClear counted | .allRequeue counted => counted → w.began
  | _ => True

attribute [local simp] isAsleep clears requeues restores exposed Placed

def Pc.testsOne : Pc → Op → Bool
  | .idle, .notifyOne | .oneClear _, .advance => true
  | _, _ => false

def Pc.testsAll : Pc → Op → Bool
  | .idle, .notifyAll => true
  | _, _ => false

/-- There were fewer than `2^30` notifications since a thread set the bits. -/
def Pc.Few (w : Word) : Pc → Prop
  | .unlocking _ since _ => w.notified < since + 2 ^ 30
  | _ => True

structure Accesses (w : Word) (p : Pc) (op : Op) (a : Word × Pc) : Prop where
  placed : Placed a.1 a.2
  others : ∀ q, Placed w q → Placed a.1 q
  waiting : a.1.waiting = w.waiting
  notified : w.notified ≤ a.1.notified
  exposed : a.2.exposed a.1.notified → p.exposed w.notified
  /-- A call of `notify_one` returns after it has woken a thread, or because it has found the bit clear. -/
  counts : a.1.returnedOne + a.2.restores.toNat = w.returnedOne + p.restores.toNat ∨
    p.testsOne op ∧ w.needToWakeOne = false ∧ a.1.began ∧ a.2 = .idle
  returnsAll : a.1.returnedAll → w.returnedAll ∨ p.testsAll op ∧ w.needToWakeAll = false ∧ a.1.began ∧ a.2 = .idle
  sleeps : a.2.isAsleep → a.1.needToWakeOne ∧ a.1.needToWakeAll
  one : w.needToWakeOne → a.1.needToWakeOne ∨ a.2.clears
  all : w.needToWakeAll → a.1.needToWakeAll ∨ a.2.requeues
  clears : p.clears → a.1.needToWakeOne
  requeues : p.requeues = false

variable {w : Word}

/-- The word has the value that a waiter expects: there was no notification, and both bits are set. -/
theorem value_eq {since : Nat} (hle : since ≤ w.notified) (hfew : w.notified < since + 2 ^ 30)
    (h : w.value = (4 * since + 3) % 2 ^ 32) : since = w.notified ∧ w.needToWakeOne ∧ w.needToWakeAll := by
  unfold value at h
  cases hone : w.needToWakeOne <;> cases hall : w.needToWakeAll <;>
    simp only [hone, hall, Bool.toNat_true, Bool.toNat_false, Bool.false_eq_true, and_false, and_true] at h ⊢ <;> omega

theorem Placed.mono {w' : Word} {q : Pc} (h : Placed w q) (hnt : w.notified ≤ w'.notified) (hbeg : w.began → w'.began)
    (hnew : w'.began → w.began ∨ w.notified < w'.notified) : Placed w' q := by
  cases q with
  | unlocking state2 since marked =>
    obtain ⟨hst, hle, hlt⟩ := h
    refine ⟨hst, Nat.le_trans hle hnt, fun hmk hb => ?_⟩
    rcases hnew hb with hb | hb
    · exact Nat.lt_of_lt_of_le (hlt hmk hb) hnt
    · exact Nat.lt_of_le_of_lt hle hb
  | oneClear c | oneWake c | oneRestore c | allClear c | allRequeue c => exact fun hc => hbeg (h hc)
  | _ => trivial

/-- An access that begins no notification does not concern the other threads. -/
theorem others_of_eq {w' : Word} (hnt : w'.notified = w.notified) (hbeg : w'.began = w.began) (q : Pc) (h : Placed w q) :
    Placed w' q :=
  h.mono (by rw [hnt]) (by rw [hbeg]; exact id) (by rw [hbeg]; exact .inl)

/-- A notification begins. -/
theorem others_of_lt {w' : Word} (hnt : w'.notified = w.notified + 1) (hbeg : w'.began = true) (q : Pc) (h : Placed w q) :
    Placed w' q :=
  h.mono (by omega) (fun _ => hbeg) (fun _ => .inr (by omega))

variable {p : Pc} {op : Op} {a : Word × Pc} {counted : Bool}

theorem access_spec (hp : Placed w p) (hfew : p.Few w) (h : access w p op = some a) : Accesses w p op a := by
  cases p with
  | idle =>
    cases op <;> cases h
    · constructor <;> first | exact others_of_eq rfl rfl | exact .inl | simp [value]
    · split <;> constructor <;> first | exact others_of_lt rfl rfl | simp_all [returnOne, testsOne]
    · split <;> constructor <;> first | exact others_of_lt rfl rfl | simp_all [returnAll, testsAll]
  | unlocking state2 since marked =>
    cases op <;> cases h
    obtain ⟨hst, hle, hlt⟩ := hp
    by_cases hvl : w.value = state2
    · obtain ⟨rfl, hone, hall⟩ := value_eq hle hfew (hvl.trans hst)
      constructor <;> first | exact others_of_eq rfl rfl | simp_all
    · constructor <;> first | exact others_of_eq rfl rfl | simp_all
  | asleep marked | allClear counted =>
    cases op <;> cases h
    constructor <;> first | exact others_of_eq rfl rfl | simp_all
  | oneClear counted =>
    cases op <;> cases h
    cases counted <;> split <;> constructor <;> first | exact others_of_eq rfl rfl | simp_all [returnOne, testsOne]
  | oneRestore counted =>
    cases op <;> cases h
    cases counted <;> constructor <;> first | exact others_of_eq rfl rfl | simp_all [returnOne]
  | locking | oneWake counted | allRequeue counted => cases op <;> cases h

/-! ## The threads -/

variable {τ : Type} {c c' : Threads τ Word Pc}

/-- Nobody that was marked sleeps or can fall asleep when a notification has begun and none of them sleeps. -/
theorem not_exposed (hpl : ∀ t, Placed c.word (c.pc t)) (hbeg : c.word.began) (hno : ∀ t, c.pc t ≠ .asleep true) (t : τ) :
    (c.pc t).exposed c.word.notified = false := by
  have hp := hpl t
  have ht := hno t
  cases hpc : c.pc t with
  | unlocking state2 since marked =>
    rw [hpc] at hp
    cases marked with
    | false => rfl
    | true => exact decide_eq_false (Nat.ne_of_lt (hp.2.2 rfl hbeg))
  | asleep marked =>
    cases marked with
    | false => rfl
    | true => exact absurd hpc ht
  | _ => rfl

/-- A thread that is exposed after a notification was before. -/
theorem exposed_of_le {n : Nat} (hp : Placed w p) (hle : w.notified ≤ n) (h : p.exposed n) : p.exposed w.notified := by
  cases p with
  | unlocking state2 since marked =>
    simp only [exposed, Bool.and_eq_true, decide_eq_true_eq] at h ⊢
    exact ⟨h.1, Nat.le_antisymm hp.2.1 (h.2 ▸ hle)⟩
  | asleep marked => exact h
  | _ => cases h

variable [Fintype τ]

/-- How many of the threads that were marked sleep or can still fall asleep. -/
def exposed (c : Threads τ Word Pc) : Nat := c.count (Pc.exposed c.word.notified)

/-- How many of the calls that count have woken a thread and are about to return. -/
def restoring (c : Threads τ Word Pc) : Nat := c.count restores

theorem exposed_eq_zero (hpl : ∀ t, Placed c.word (c.pc t)) (hbeg : c.word.began) (hno : ∀ t, c.pc t ≠ .asleep true) :
    exposed c = 0 :=
  count_eq_zero.2 (not_exposed hpl hbeg hno)

/-- What holds of the condition variable in every state. -/
structure Notifies (c : Threads τ Word Pc) : Prop where
  placed : ∀ t, Placed c.word (c.pc t)
  one : (∃ t, (c.pc t).isAsleep) → c.word.needToWakeOne ∨ ∃ t, (c.pc t).clears
  all : (∃ t, (c.pc t).isAsleep) → c.word.needToWakeAll ∨ ∃ t, (c.pc t).requeues
  counts : exposed c = 0 ∨ exposed c + c.word.returnedOne + restoring c ≤ c.word.waiting
  returnsAll : c.word.returnedAll → exposed c = 0

/-- A step after which no more threads are exposed, and as many less as calls have woken one. -/
theorem Notifies.of_le (h : Notifies c) (hpl : ∀ t, Placed c'.word (c'.pc t))
    (hone : (∃ t, (c'.pc t).isAsleep) → c'.word.needToWakeOne ∨ ∃ t, (c'.pc t).clears)
    (hall : (∃ t, (c'.pc t).isAsleep) → c'.word.needToWakeAll ∨ ∃ t, (c'.pc t).requeues)
    (hwait : c'.word.waiting = c.word.waiting) (hle : exposed c' ≤ exposed c)
    (hcn : exposed c' = 0 ∨ exposed c' + c'.word.returnedOne + restoring c' ≤ exposed c + c.word.returnedOne + restoring c)
    (hret : c'.word.returnedAll → c.word.returnedAll ∨ exposed c' = 0) : Notifies c' := by
  refine ⟨hpl, hone, hall, ?_, fun hall => ?_⟩
  · rcases hcn with hze | hcn
    · exact .inl hze
    · have := h.counts
      omega
  · rcases hret hall with hbef | hze
    · have := h.returnsAll hbef
      omega
    · exact hze

variable [DecidableEq τ]

variable {t : τ}

section

variable (h : Notifies c)

include h

theorem Notifies.set (ha : Accesses c.word (c.pc t) op a) (hone : (c.pc t).testsOne op → ∀ u, (c.pc u).clears = false)
    (hall : (c.pc t).testsAll op → ∀ u, (c.pc u).requeues = false) : Notifies (c.set t a) := by
  have hpl : ∀ u, Placed (c.set t a).word ((c.set t a).pc u) :=
    c.forall_set (fun _ p => Placed a.1 p) ha.placed fun u _ => ha.others _ (h.placed u)
  have hle : exposed (c.set t a) ≤ exposed c :=
    count_mono (c.forall_set (fun u p => p.exposed a.1.notified → (c.pc u).exposed c.word.notified) ha.exposed
      fun u _ => exposed_of_le (h.placed u) ha.notified)
  -- a call that finds its bit clear has nobody to wake
  have hnob : (∀ u, ¬(c.pc u).isAsleep) → a.1.began → a.2 = .idle → exposed (c.set t a) = 0 := fun hno hbeg hid => by
    refine exposed_eq_zero hpl hbeg (c.forall_set (fun _ p => p ≠ .asleep true) ?_ fun u _ hu => ?_)
    · rw [hid]
      exact nofun
    · exact hno u (by rw [hu]; rfl)
  refine h.of_le hpl (fun hsle => ?_) (fun hsle => ?_) ha.waiting hle ?_ fun hret => ?_
  · rcases exists_of_set (P := fun p : Pc => p.isAsleep) hsle with ht | hbef
    · exact .inl (ha.sleeps ht).1
    rcases h.one hbef with hwd | hcle
    · exact (ha.one hwd).imp_right fun hp => ⟨t, by rwa [pc_set_self]⟩
    · by_cases hwd : a.1.needToWakeOne
      · exact .inl hwd
      · exact .inr (exists_set (P := fun p : Pc => p.clears) hcle fun hp => absurd (ha.clears hp) hwd)
  · rcases exists_of_set (P := fun p : Pc => p.isAsleep) hsle with ht | hbef
    · exact .inl (ha.sleeps ht).2
    rcases h.all hbef with hwd | hreq
    · exact (ha.all hwd).imp_right fun hp => ⟨t, by rwa [pc_set_self]⟩
    · refine .inr (exists_set (P := fun p : Pc => p.requeues) hreq fun hp => ?_)
      rw [ha.requeues] at hp
      cases hp
  · rcases ha.counts with hcn | ⟨htest, hwd, hbeg, hid⟩
    · have hrs : restoring (c.set t a) + _ = restoring c + _ := c.count_set t a restores
      rw [word_set]
      omega
    · refine .inl (hnob (fun u hu => ?_) hbeg hid)
      rcases h.one ⟨u, hu⟩ with hset | ⟨v, hv⟩
      · rw [hwd] at hset
        cases hset
      · rw [hone htest v] at hv
        cases hv
  · rcases ha.returnsAll hret with hbef | ⟨htest, hwd, hbeg, hid⟩
    · exact .inl hbef
    · refine .inr (hnob (fun u hu => ?_) hbeg hid)
      rcases h.all ⟨u, hu⟩ with hset | ⟨v, hv⟩
      · rw [hwd] at hset
        cases hset
      · rw [hall htest v] at hv
        cases hv

omit h in
/-- A thread goes to a place where it does not count, and the word changes only in what the observer counts. -/
theorem exposed_set_le (hw : w.notified = c.word.notified) (hp : ∀ n, p.exposed n = false) :
    exposed (c.set t (w, p)) ≤ exposed c := by
  refine count_mono (c.forall_set (fun u q => q.exposed w.notified → (c.pc u).exposed c.word.notified) ?_ fun u _ => ?_)
  · rw [hp]
    exact nofun
  · rw [hw]
    exact id

theorem placed_set (hw : w.notified = c.word.notified) (hbeg : w.began = c.word.began) (hp : Placed w p) :
    ∀ u, Placed w ((c.set t (w, p)).pc u) :=
  c.forall_set (fun _ p => Placed w p) hp fun u _ => others_of_eq hw hbeg _ (h.placed u)

/-- A call of `notify_one` finds nobody asleep. -/
theorem Notifies.wakeNone (ht : c.pc t = .oneWake counted) (hno : ∀ u, ¬(c.pc u).isAsleep) :
    Notifies (c.set t (c.word.returnOne counted, .idle)) := by
  have hasl : ∀ u, ¬((c.set t (c.word.returnOne counted, .idle)).pc u).isAsleep :=
    c.forall_set (fun _ p => ¬p.isAsleep) nofun fun u _ => hno u
  have hpl := placed_set h (t := t) (p := .idle) rfl rfl trivial
  refine h.of_le hpl (fun ⟨u, hu⟩ => absurd hu (hasl u)) (fun ⟨u, hu⟩ => absurd hu (hasl u)) rfl
    (exposed_set_le rfl fun _ => rfl) ?_ .inl
  cases counted with
  | false =>
    have hle := exposed_set_le (t := t) (w := c.word.returnOne false) (p := .idle) rfl fun _ => rfl
    have hrs : restoring (c.set t (c.word.returnOne false, .idle)) + _ = restoring c + _ := c.count_set t _ restores
    rw [ht] at hrs
    exact .inr (Nat.add_le_add (Nat.add_le_add_right hle _) (Nat.le_of_eq hrs))
  | true =>
    have hbeg : c.word.began := by
      have hp := h.placed t
      rw [ht] at hp
      exact hp rfl
    exact .inl (exposed_eq_zero hpl hbeg fun u hu => hasl u (by rw [hu]; rfl))

/-- A call of `notify_one` wakes a thread, one of those that were marked if one of them sleeps. -/
theorem Notifies.wakeOne {t u : τ} {marked : Bool} (ht : c.pc t = .oneWake counted) (hu : c.pc u = .asleep marked)
    (hpref : marked = true ∨ ∀ v, c.pc v ≠ .asleep true) : Notifies ((c.move t (.oneRestore counted)).move u .locking) := by
  let c' := c.move t (.oneRestore counted)
  show Notifies (c'.move u .locking)
  have hne : u ≠ t := fun hut => by
    rw [hut, ht] at hu
    cases hu
  have hu' : c'.pc u = .asleep marked := (pc_set_of_ne hne _).trans hu
  have hpct : (c'.move u .locking).pc t = .oneRestore counted := (pc_set_of_ne hne.symm _).trans (pc_set_self ..)
  have hcou : counted → c.word.began := by
    have hp := h.placed t
    rwa [ht] at hp
  have hpl : ∀ v, Placed c.word ((c'.move u .locking).pc v) :=
    forall_set _ (fun _ p => Placed c.word p) trivial fun v _ => placed_set h (p := .oneRestore counted) rfl rfl hcou v
  -- one thread less is exposed if the one that is woken was marked, and one call more is about to return if it counts
  have hexp : exposed (c'.move u .locking) + marked.toNat = exposed c := by
    have h1 := c'.count_set u (c.word, .locking) (Pc.exposed c.word.notified)
    have h2 := c.count_set t (c.word, .oneRestore counted) (Pc.exposed c.word.notified)
    rw [hu'] at h1
    rw [ht] at h2
    exact h1.trans h2
  have hrs : restoring (c'.move u .locking) = restoring c + counted.toNat := by
    have h1 := c'.count_set u (c.word, .locking) restores
    have h2 := c.count_set t (c.word, .oneRestore counted) restores
    rw [hu'] at h1
    rw [ht] at h2
    refine (h1.trans h2).trans ?_
    cases counted <;> rfl
  refine h.of_le hpl (fun _ => .inr ⟨t, by rw [hpct]; rfl⟩) (fun _ => ?_) rfl (by omega) ?_ .inl
  · refine (h.all ⟨u, by rw [hu]; rfl⟩).imp_right fun hreq => ?_
    have hmoved := exists_set (P := fun p : Pc => p.requeues) (a := (c.word, .oneRestore counted)) hreq (t := t)
    refine exists_set (P := fun p : Pc => p.requeues) (hmoved ?_) ?_
    · rw [ht]
      exact nofun
    · rw [hu']
      exact nofun
  · cases counted with
    | false =>
      rw [hrs]
      exact .inr (Nat.add_le_add_right (Nat.add_le_add_right (by omega) _) _)
    | true =>
      rcases hpref with rfl | hno
      · refine .inr ?_
        show _ + c.word.returnedOne + _ ≤ _
        omega
      · have hze := exposed_eq_zero h.placed (hcou rfl) hno
        exact .inl (by omega)

/-- `notify_all` leaves nobody asleep. -/
theorem Notifies.requeue (ht : c.pc t = .allRequeue counted) :
    Notifies ((c.moveAll fun p => if p.isAsleep then .locking else p).set t (c.word.returnAll counted, .idle)) := by
  have hpc := (c.moveAll fun p => if p.isAsleep then .locking else p).pc_set_cases t (c.word.returnAll counted, .idle)
  generalize hc' : (c.moveAll fun p => if p.isAsleep then .locking else p).set t (c.word.returnAll counted, .idle) = c' at hpc ⊢
  have hwd : c'.word = c.word.returnAll counted := by rw [← hc', word_set]
  have hcas : ∀ u, c'.pc u = .idle ∨ c'.pc u = .locking ∨ c'.pc u = c.pc u ∧ (c.pc u).isAsleep = false ∧ u ≠ t := fun u => by
    rcases hpc u with ⟨-, hu⟩ | ⟨hne, hu⟩
    · exact .inl hu
    · rw [hu, pc_moveAll]
      cases hsle : (c.pc u).isAsleep <;> simp [hne]
  have hasl : ∀ u, ¬(c'.pc u).isAsleep := fun u => by
    rcases hcas u with hu | hu | ⟨hu, hnot, -⟩ <;> rw [hu]
    · exact nofun
    · exact nofun
    · rw [hnot]
      exact nofun
  have hpl : ∀ u, Placed c'.word (c'.pc u) := fun u => by
    rw [hwd]
    rcases hcas u with hu | hu | ⟨hu, -⟩ <;> rw [hu]
    · trivial
    · trivial
    · exact others_of_eq rfl rfl _ (h.placed u)
  have hle : exposed c' ≤ exposed c := count_mono fun u hu => by
    rw [hwd] at hu
    rcases hcas u with hu' | hu' | ⟨hu', -⟩ <;> rw [hu'] at hu
    · cases hu
    · cases hu
    · exact hu
  have hrs : restoring c' ≤ restoring c := count_mono fun u hu => by
    rcases hcas u with hu' | hu' | ⟨hu', -⟩ <;> rw [hu'] at hu
    · cases hu
    · cases hu
    · exact hu
  refine h.of_le hpl (fun ⟨u, hu⟩ => absurd hu (hasl u)) (fun ⟨u, hu⟩ => absurd hu (hasl u)) (by rw [hwd]; rfl) hle
    (.inr ?_) fun hret => ?_
  · rw [hwd]
    exact Nat.add_le_add (Nat.add_le_add_right hle _) hrs
  · cases counted with
    | false =>
      rw [hwd, returnAll, Bool.or_false] at hret
      exact .inl hret
    | true =>
      have hbeg : c'.word.began := by
        have hp := h.placed t
        rw [ht] at hp
        rw [hwd]
        exact hp rfl
      exact .inr (exposed_eq_zero hpl hbeg fun u hu => hasl u (by rw [hu]; rfl))

/-- A thread returns from `wait`. -/
theorem Notifies.returns (ht : c.pc t = .locking) : Notifies (c.move t .idle) := by
  have hrs : restoring (c.move t .idle) + _ = restoring c + _ := c.count_set t _ restores
  rw [ht] at hrs
  have hle := exposed_set_le (t := t) (w := c.word) (p := .idle) rfl fun _ => rfl
  have hsle : (∃ u, ((c.move t .idle).pc u).isAsleep) → ∃ u, (c.pc u).isAsleep := fun hu =>
    (exists_of_set (P := fun p : Pc => p.isAsleep) hu).resolve_left nofun
  have hkept : ∀ P : Pc → Bool, P .locking = false → (∃ u, P (c.pc u)) → ∃ u, P ((c.move t .idle).pc u) := fun P hP hu =>
    exists_set (P := fun p => P p = true) hu fun hp => by
      rw [ht, hP] at hp
      cases hp
  refine h.of_le (placed_set h rfl rfl trivial) (fun hu => ?_) (fun hu => ?_) rfl hle (.inr ?_) .inl
  · exact (h.one (hsle hu)).imp_right (hkept _ rfl)
  · exact (h.all (hsle hu)).imp_right (hkept _ rfl)
  · exact Nat.add_le_add (Nat.add_le_add_right hle _) (Nat.le_of_eq hrs)

end

section Observe

variable (p : Pc) (released : Bool)

theorem observed_isAsleep : (p.observed released).isAsleep = p.isAsleep := by cases p <;> rfl

theorem observed_clears : (p.observed released).clears = p.clears := by cases p <;> rfl

theorem observed_requeues : (p.observed released).requeues = p.requeues := by cases p <;> rfl

theorem observed_restores : (p.observed released).restores = false := by cases p <;> rfl

theorem marked_of_exposed {n : Nat} (h : p.exposed n) : p.marked := by
  cases p <;> simp_all [marked]

theorem placed_observed {w w' : Word} (hnt : w'.notified = w.notified) (hbeg : w'.began = false) (h : Placed w p) :
    Placed w' (p.observed released) := by
  cases p <;> simp_all [observed]

end Observe

omit [DecidableEq τ] in
/-- The observer comes: all that are exposed are marked, and nothing has begun yet. -/
theorem Notifies.observe (h : Notifies c) (released : τ → Bool)
    (hpc : ∀ t, c'.pc t = (c.pc t).observed (released t)) (hwd : c'.word =
      { c.word with waiting := c'.count marked, began := false, returnedOne := 0, returnedAll := false }) : Notifies c' := by
  have hasl : (∃ t, (c'.pc t).isAsleep) → ∃ t, (c.pc t).isAsleep := by
    simp only [hpc, observed_isAsleep, imp_self]
  refine ⟨fun t => ?_, fun hsle => ?_, fun hsle => ?_, .inr ?_, fun hall => ?_⟩
  · rw [hpc]
    exact placed_observed _ _ (by rw [hwd]) (by rw [hwd]) (h.placed t)
  · simp only [hpc, observed_clears, hwd]
    exact h.one (hasl hsle)
  · simp only [hpc, observed_requeues, hwd]
    exact h.all (hasl hsle)
  · have hrs : restoring c' = 0 := count_eq_zero.2 fun t => by rw [hpc, observed_restores]
    have hmk : exposed c' ≤ c'.count marked := count_mono fun t => marked_of_exposed _
    have hreturned : c'.word.returnedOne = 0 := by rw [hwd]
    have hwait : c'.word.waiting = c'.count marked := by
      conv_lhs => rw [hwd]
    omega
  · rw [hwd] at hall
    cases hall

end Osxie.Libsimple.Condvar
