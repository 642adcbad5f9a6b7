import Osxie.Lib.Bits
import Osxie.Libsimple.Rwlock

/-!
# A writer holds the lock alone, and no wake-up is lost

The word counts the readers, and says whether there is a writer; a writer takes the lock only when there is neither. While a
reader sleeps, a writer holds a marked lock, or is about to wake the readers, or waits itself (`Inv`). While a writer sleeps,
the lock is marked and held, or someone is about to wake a writer, or another one is awake in `lock_write`.
-/

namespace Osxie.Libsimple.Rwlock

open Threads Pc Nat

/-! ## The word -/

/-- A writer holds the lock. -/
abbrev Locked (v : Nat) : Prop := v / 2 ^ 30 % 2 = 1

/-- Someone has to be woken. -/
abbrev Marked (v : Nat) : Prop := 2 ^ 31 ≤ v

/-- No thread holds the lock. -/
abbrev Free (v : Nat) : Prop := v % 2 ^ 31 = 0

variable {v word : Nat}

theorem and_bits_eq_zero (h : v < 2 ^ 32) : v &&& (lockedWrite ||| needToWake) = 0 ↔ v < 2 ^ 30 := by
  rw [show lockedWrite ||| needToWake = (2 ^ 2 - 1) * 2 ^ 30 from rfl, and_mask]
  omega

theorem and_needToWake_eq_zero (h : v < 2 ^ 32) : v &&& needToWake = 0 ↔ ¬Marked v := by
  rw [show needToWake = (2 ^ 1 - 1) * 2 ^ 31 from rfl, and_mask]
  omega

theorem withoutNeedToWake_eq (v : Nat) : withoutNeedToWake v = v % 2 ^ 31 := and_two_pow_sub_one_eq_mod v 31

theorem or_needToWake (h : ¬Marked v) : v ||| needToWake = v + 2 ^ 31 := by
  have hor := two_pow_add_eq_or_of_lt (not_le.1 h) 1
  rw [mul_one] at hor
  rw [Nat.or_comm, needToWake, ← hor, Nat.add_comm]

theorem bits_eq : lockedWrite ||| needToWake = 3 * 2 ^ 30 := rfl

/-! ## The places -/

/-- What a thread knows of a value it has found, or expects, in the word. -/
@[simp]
def Placed : Pc → Prop
  | .readLoop v | .writeLoop v => v < 2 ^ 32
  | .tryRead v => v < 2 ^ 30
  | .readWait v => Marked v
  | .writeWait v => Marked v ∧ ¬Free v
  | _ => True

/-- A thread is in `lock_write`, awake, and has to test the word before it sleeps or returns. -/
@[simp]
def Pc.writerAwake : Pc → Bool
  | .writeLoop _ | .writeWait _ => true
  | _ => false

@[simp]
def Pc.writerWaits (p : Pc) : Bool := p.writerAwake || p = .writeAsleep

@[simp]
def Pc.wakesWriter : Pc → Bool
  | .clear | .wakeReaders | .wakeWriter => true
  | _ => false

/-- What is known before an access. -/
structure Ready (word : Nat) (p : Pc) : Prop where
  lt : word < 2 ^ 32
  placed : Placed p
  reads : p = .reads → 0 < word % 2 ^ 30
  writes : p = .writes → Locked word
  alone : Locked word → word % 2 ^ 30 = 0

structure Accesses (word : Nat) (p : Pc) (a : Nat × Pc) : Prop where
  lt : a.1 < 2 ^ 32
  placed : Placed a.2
  readers : a.1 % 2 ^ 30 + (decide (p = .reads)).toNat = word % 2 ^ 30 + (decide (a.2 = .reads)).toNat
  locked : Locked a.1 ↔ a.2 = .writes ∨ Locked word ∧ p ≠ .writes
  takes : a.2 = .writes → Free word
  alone : Locked a.1 → a.1 % 2 ^ 30 = 0
  /-- A lock that readers hold is marked by a writer that waits. -/
  marks : Marked a.1 → Locked a.1 ∨ a.2.writerWaits ∨ Marked word ∧ ¬Locked word
  /-- A writer that has waited takes the lock marked. -/
  waited : p.writerWaits → a.2.writerWaits ∨ Locked a.1 ∧ Marked a.1
  readSleeps : a.2 = .readAsleep → Marked a.1
  unlocks : Locked word ∧ Marked word → Locked a.1 ∧ Marked a.1 ∨ a.2 = .wakeReaders
  writeSleeps : a.2 = .writeAsleep → Marked a.1 ∧ ¬Free a.1
  frees : Marked word ∧ ¬Free word → Marked a.1 ∧ ¬Free a.1 ∨ a.2.wakesWriter
  awake : p.writerAwake → a.2.writerAwake ∨ Marked a.1 ∧ ¬Free a.1
  wakes : p.wakesWriter → a.2.wakesWriter
  wakesReaders : p ≠ .wakeReaders

/-- A thread goes on, awake, and neither takes nor gives up the lock. -/
structure Stays (p p' : Pc) : Prop where
  placed : Placed p'
  before : p ≠ .reads ∧ p ≠ .writes ∧ p ≠ .wakeReaders
  after : p' ≠ .reads ∧ p' ≠ .writes ∧ p' ≠ .readAsleep ∧ p' ≠ .writeAsleep
  waits : p.writerWaits → p'.writerAwake
  wakes : p.wakesWriter → p'.wakesWriter

theorem writerWaits_of_awake {p : Pc} (h : p.writerAwake) : p.writerWaits := by
  rw [writerWaits, h, Bool.true_or]

namespace Accesses

variable {p p' : Pc} (hr : Ready word p)

include hr

/-- An access that does not change the word. -/
theorem stays (h : Stays p p') : Accesses word p (word, p') where
  lt := hr.lt
  placed := h.placed
  readers := by simp [h.before.1, h.after.1]
  locked := by simp [h.before.2.1, h.after.2.1]
  takes ht := absurd ht h.after.2.1
  alone := hr.alone
  marks hm := by
    by_cases hl : Locked word
    · exact .inl hl
    · exact .inr (.inr ⟨hm, hl⟩)
  waited hw := .inl (writerWaits_of_awake (h.waits hw))
  readSleeps hs := absurd hs h.after.2.2.1
  unlocks := .inl
  writeSleeps hs := absurd hs h.after.2.2.2
  frees := .inl
  awake hw := .inl (h.waits (writerWaits_of_awake hw))
  wakes := h.wakes
  wakesReaders := h.before.2.2

/-- A reader takes a lock that is neither locked nor marked. -/
theorem readerTakes (hp : p = .readLoop word ∨ p = .tryRead word) (hwd : word < 2 ^ 30) (hfew : word % 2 ^ 30 + 1 < 2 ^ 30) :
    Accesses word p ((word + 1) % 2 ^ 32, .reads) := by
  rcases hp with rfl | rfl <;> constructor <;> simp <;> omega

/-- A reader marks a lock that a writer holds. -/
theorem readerMarks (hp : p = .readLoop word) (hlk : Locked word) (hmk : ¬Marked word) :
    Accesses word p (3 * 2 ^ 30, .readWait (3 * 2 ^ 30)) := by
  obtain ⟨-, -, -, -, hln⟩ := hr
  subst hp
  constructor <;> simp <;> omega

theorem readerSleeps (hp : p = .readWait word) : Accesses word p (word, .readAsleep) := by
  obtain ⟨hlt, hpl, -, -, hln⟩ := hr
  subst hp
  constructor <;> simp at hpl ⊢ <;> omega

/-- A reader gives the lock up. The last one clears a mark. -/
theorem readerLeaves (hp : p = .reads) :
    Accesses word p ((word + 2 ^ 32 - 1) % 2 ^ 32, if word % 2 ^ 31 = 1 ∧ Marked word then .clear else .idle) := by
  obtain ⟨hlt, -, hrd, -, hln⟩ := hr
  have hpos := hrd hp
  subst hp
  rw [show (word + 2 ^ 32 - 1) % 2 ^ 32 = word - 1 by omega]
  split <;> constructor <;> simp <;> omega

theorem clears (hp : p = .clear) (hwd : word = 2 ^ 31) : Accesses word p (0, .wakeWriter) := by
  subst hp hwd
  constructor <;> simp
  omega

/-- A writer takes a free lock, marked if it had to wait. -/
theorem writerTakes {v : Nat} (hp : p = .idle ∧ v = 2 ^ 30 ∧ word = 0 ∨ p = .writeLoop word ∧ v = 3 * 2 ^ 30) (hfr : Free word) :
    Accesses word p (v, .writes) := by
  rcases hp with ⟨rfl, rfl, rfl⟩ | ⟨rfl, rfl⟩ <;> constructor <;> simp <;> omega

theorem writerMarks (hp : p = .writeLoop word) (hfr : ¬Free word) (hmk : ¬Marked word) :
    Accesses word p (word + 2 ^ 31, .writeWait (word + 2 ^ 31)) := by
  obtain ⟨hlt, -, -, -, hln⟩ := hr
  subst hp
  constructor <;> simp <;> omega

theorem writerSleeps (hp : p = .writeWait word) : Accesses word p (word, .writeAsleep) := by
  obtain ⟨hlt, hpl, -, -, hln⟩ := hr
  subst hp
  constructor <;> simp at hpl ⊢ <;> omega

/-- A writer gives the lock up. -/
theorem writerLeaves (hp : p = .writes) : Accesses word p (0, if Marked word then .wakeReaders else .idle) := by
  obtain ⟨hlt, -, -, hwri, hln⟩ := hr
  have hlk := hwri hp
  subst hp
  split <;> constructor <;> simp <;> omega

end Accesses

/-- A compare-exchange has exchanged the word, or found another value. -/
theorem exchange_cases {expected desired : Nat} {done : Pc} {failed : Nat → Pc} {P : Nat × Pc → Prop}
    (hdn : word = expected → P (desired, done)) (hfail : P (word, failed word)) :
    P (exchange word expected desired done failed) := by
  unfold exchange
  split
  · exact hdn ‹_›
  · exact hfail

variable {a : Nat × Pc}

/-- `lock_read`, at the top of the loop. -/
theorem readLoop_spec (hr : Ready word (.readLoop v)) (hfew : a.2 = .reads → word % 2 ^ 30 + 1 < 2 ^ 30)
    (h : access word (.readLoop v) .advance = some a) : Accesses word (.readLoop v) a := by
  have hv : v < 2 ^ 32 := hr.placed
  simp only [access, and_bits_eq_zero hv, and_needToWake_eq_zero hv] at h
  split at h
  · rename_i hno
    cases h
    revert hfew
    refine exchange_cases (P := fun a => (a.2 = .reads → _) → Accesses word _ a) ?_ fun _ =>
      .stays hr ⟨hr.lt, by simp, by simp, by simp, by simp⟩
    rintro rfl hfew
    exact .readerTakes hr (.inl rfl) hno (hfew rfl)
  split at h
  · rename_i hso hmk
    cases h
    refine exchange_cases ?_ (.stays hr ⟨hr.lt, by simp, by simp, by simp, by simp⟩)
    rintro rfl
    exact .readerMarks hr rfl (by omega) hmk
  · rename_i hmk
    cases h
    exact .stays hr ⟨show Marked v from Decidable.not_not.1 hmk, by simp, by simp, by simp, by simp⟩

/-- `lock_write`, at the top of the loop. -/
theorem writeLoop_spec (hr : Ready word (.writeLoop v)) (h : access word (.writeLoop v) .advance = some a) :
    Accesses word (.writeLoop v) a := by
  have hv : v < 2 ^ 32 := hr.placed
  simp only [access, withoutNeedToWake_eq, and_needToWake_eq_zero hv, bits_eq] at h
  split at h
  · rename_i hfr
    cases h
    refine exchange_cases ?_ (.stays hr ⟨hr.lt, by simp, by simp, by simp, by simp⟩)
    rintro rfl
    exact .writerTakes hr (.inr ⟨rfl, rfl⟩) hfr
  split at h
  · rename_i hfr hmk
    rw [or_needToWake hmk] at h
    cases h
    refine exchange_cases ?_ (.stays hr ⟨hr.lt, by simp, by simp, by simp, by simp⟩)
    rintro rfl
    exact .writerMarks hr rfl hfr hmk
  · rename_i hfr hmk
    cases h
    exact .stays hr ⟨⟨Decidable.not_not.1 hmk, hfr⟩, by simp, by simp, by simp, by simp⟩

theorem access_spec {p : Pc} {op : Op} (hr : Ready word p) (hfew : p ≠ .reads → a.2 = .reads → word % 2 ^ 30 + 1 < 2 ^ 30)
    (h : access word p op = some a) : Accesses word p a := by
  cases p with
  | idle =>
    cases op <;> cases h
    · exact .stays hr ⟨hr.lt, by simp, by simp, by simp, by simp⟩
    · simp only [ne_eq, and_bits_eq_zero hr.lt, ite_not] at hfew ⊢
      split
      · exact .stays hr ⟨‹_›, by simp, by simp, by simp, by simp⟩
      · exact .stays hr ⟨trivial, by simp, by simp, by simp, by simp⟩
    · refine exchange_cases ?_ (.stays hr ⟨hr.lt, by simp, by simp, by simp, by simp⟩)
      rintro rfl
      exact .writerTakes hr (.inl ⟨rfl, rfl, rfl⟩) rfl
    · refine exchange_cases ?_ (.stays hr ⟨trivial, by simp, by simp, by simp, by simp⟩)
      rintro rfl
      exact .writerTakes hr (.inl ⟨rfl, rfl, rfl⟩) rfl
  | reads =>
    cases op with
    | unlockRead =>
      obtain rfl := Option.some.inj h
      simp only [ne_eq, withoutNeedToWake_eq, and_needToWake_eq_zero hr.lt, Decidable.not_not]
      exact .readerLeaves hr rfl
    | _ => cases h
  | writes =>
    cases op <;> cases h
    simp only [ne_eq, and_needToWake_eq_zero hr.lt, Decidable.not_not]
    exact .writerLeaves hr rfl
  | readLoop v =>
    cases op <;> try cases h
    · exact readLoop_spec hr (hfew nofun) h
    · obtain ⟨-, rfl⟩ := of_guarded h
      exact .stays hr ⟨hr.lt, by simp, by simp, by simp, by simp⟩
  | readWait v =>
    cases op <;> cases h
    by_cases hwd : word = v
    · subst hwd
      rw [if_pos rfl]
      exact .readerSleeps hr rfl
    · rw [if_neg hwd]
      exact .stays hr ⟨Nat.two_pow_pos 32, by simp, by simp, by simp, by simp⟩
  | tryRead v =>
    cases op <;> cases h
    have hfew := hfew nofun
    revert hfew
    refine exchange_cases (P := fun a => (a.2 = .reads → _) → Accesses word _ a) ?_ fun _ => .stays hr ⟨trivial, by simp,
      by simp, by simp, by simp⟩
    rintro rfl hfew
    exact .readerTakes hr (.inr rfl) hr.placed (hfew rfl)
  | clear =>
    cases op <;> cases h
    · exact exchange_cases (.clears hr rfl) (.stays hr ⟨trivial, by simp, by simp, by simp, by simp⟩)
    · exact .stays hr ⟨trivial, by simp, by simp, by simp, by simp⟩
  | writeLoop v =>
    cases op <;> try cases h
    exact writeLoop_spec hr h
  | writeWait v =>
    cases op <;> cases h
    by_cases hwd : word = v
    · subst hwd
      rw [if_pos rfl]
      exact .writerSleeps hr rfl
    · rw [if_neg hwd]
      exact .stays hr ⟨Nat.two_pow_pos 32, by simp, by simp, by simp, by simp⟩
  | readAsleep | writeAsleep =>
    cases op <;> cases h
    exact .stays hr ⟨Nat.two_pow_pos 32, by simp, by simp, by simp, by simp⟩
  | wakeReaders | wakeWriter => cases op <;> cases h

/-! ## The states -/

def Pc.isReader (p : Pc) : Bool := p = .reads

variable {τ : Type} {s s' : State τ}

section Steps

variable [DecidableEq τ]

/-- A writer that waits still does, or holds a marked lock. -/
theorem waits_set {t : τ} {a : Nat × Pc} (ha : Accesses s.word (s.pc t) a) (h : ∃ u, (s.pc u).writerWaits) :
    Locked a.1 ∧ Marked a.1 ∨ ∃ u, ((s.set t a).pc u).writerWaits := by
  by_cases hwd : Locked a.1 ∧ Marked a.1
  · exact .inl hwd
  · exact .inr (exists_set (P := fun p : Pc => p.writerWaits) h fun hp => (ha.waited hp).resolve_right hwd)

/-- A thread that does not hold the lock is moved to a place where it does not either, and a writer goes on waiting. -/
structure Moves (p p' : Pc) : Prop where
  placed : Placed p → Placed p'
  reads : p' = .reads ↔ p = .reads
  writes : p' = .writes ↔ p = .writes
  waits : p.writerWaits → p'.writerWaits

/-- One thread is moved. -/
theorem moves_move {t : τ} {p : Pc} (h : Moves (s.pc t) p) : ∀ u, Moves (s.pc u) ((s.move t p).pc u) :=
  s.forall_set (fun u p => Moves (s.pc u) p) h fun _ _ => ⟨id, .rfl, .rfl, id⟩

theorem Moves.trans {p p' p'' : Pc} (h : Moves p p') (h' : Moves p' p'') : Moves p p'' :=
  ⟨fun hp => h'.placed (h.placed hp), h'.reads.trans h.reads, h'.writes.trans h.writes, fun hp => h'.waits (h.waits hp)⟩

theorem moves_idle {p : Pc} (h : p = .wakeWriter) : Moves p .idle := by
  subst h
  constructor <;> simp

/-- A thread finishes that was to wake a writer. -/
theorem pc_move_idle {t u : τ} (ht : s.pc t = .wakeWriter) (p : Pc) (hp : .idle ≠ p) (hw : .wakeWriter ≠ p) :
    (s.move t .idle).pc u = p ↔ s.pc u = p :=
  pc_move_iff ht hw hp

end Steps

def readers [Fintype τ] (s : State τ) : Nat := s.count isReader

structure Inv [Fintype τ] (s : State τ) : Prop where
  lt : s.word < 2 ^ 32
  placed : ∀ t, Placed (s.pc t)
  readers : s.word % 2 ^ 30 = readers s
  locked : Locked s.word ↔ ∃ t, s.pc t = .writes
  one : ∀ t u, s.pc t = .writes → s.pc u = .writes → t = u
  alone : Locked s.word → s.word % 2 ^ 30 = 0
  /-- Readers wait for a writer that holds the lock, or for one that waits too. -/
  marks : Marked s.word → Locked s.word ∨ ∃ t, (s.pc t).writerWaits
  readSleeps : (∃ t, s.pc t = .readAsleep) →
    Locked s.word ∧ Marked s.word ∨ (∃ t, s.pc t = .wakeReaders) ∨ ∃ t, (s.pc t).writerWaits
  writeSleeps : (∃ t, s.pc t = .writeAsleep) →
    Marked s.word ∧ ¬Free s.word ∨ (∃ t, (s.pc t).wakesWriter) ∨ ∃ t, (s.pc t).writerAwake

variable [Fintype τ]

theorem Inv.ready (h : Inv s) (t : τ) : Ready s.word (s.pc t) where
  lt := h.lt
  placed := h.placed t
  reads ht := by
    rw [h.readers]
    refine pos_of_ne_zero fun hze => ?_
    have := count_eq_zero.1 hze t
    simp [isReader, ht] at this
  writes ht := h.locked.2 ⟨t, ht⟩
  alone := h.alone

variable [DecidableEq τ]

theorem Inv.marks_set (h : Inv s) {t : τ} (ha : Accesses s.word (s.pc t) a) (hmk : Marked a.1) :
    Locked a.1 ∨ ∃ u, ((s.set t a).pc u).writerWaits := by
  rcases ha.marks hmk with hlk | hwt | ⟨hwd, hunl⟩
  · exact .inl hlk
  · exact .inr ⟨t, by rwa [pc_set_self]⟩
  · exact (waits_set ha ((h.marks hwd).resolve_left hunl)).imp_left And.left

theorem Inv.set (h : Inv s) {t : τ} (ha : Accesses s.word (s.pc t) a) : Inv (s.set t a) where
  lt := ha.lt
  placed := s.forall_set (fun _ => Placed) ha.placed fun u _ => h.placed u
  readers := by
    have hcount := s.count_set t a isReader
    have hbef := h.readers
    have hst := ha.readers
    simp only [isReader, Rwlock.readers, word_set] at *
    omega
  locked := by
    refine ⟨fun hlk => ?_, fun ⟨u, hu⟩ => ha.locked.2 ?_⟩
    · rcases ha.locked.1 hlk with ht | ⟨hwd, ht⟩
      · exact ⟨t, by rw [pc_set_self, ht]⟩
      · exact exists_set (P := fun p : Pc => p = .writes) (h.locked.1 hwd) fun hp => absurd hp ht
    · rcases s.pc_set_cases t a u with ⟨-, hpc⟩ | ⟨hne, hpc⟩ <;> rw [hpc] at hu
      · exact .inl hu
      · exact .inr ⟨h.locked.2 ⟨u, hu⟩, fun ht => hne (h.one u t hu ht)⟩
  one := one_set (P := fun p : Pc => p = .writes) h.one fun ht u hu => by
    have hfr := ha.takes ht
    have hlk := h.locked.2 ⟨u, hu⟩
    omega
  alone := ha.alone
  marks := h.marks_set ha
  readSleeps hsle := by
    rcases exists_of_set (P := fun p : Pc => p = .readAsleep) hsle with ht | hbef
    · have hmk := ha.readSleeps ht
      exact (h.marks_set ha hmk).elim (fun hlk => .inl ⟨hlk, hmk⟩) fun hwt => .inr (.inr hwt)
    rcases h.readSleeps hbef with hwd | hwak | hwt
    · exact (ha.unlocks hwd).imp_right fun hp => .inl ⟨t, by rw [pc_set_self, hp]⟩
    · exact .inr (.inl (exists_set (P := fun p : Pc => p = .wakeReaders) hwak fun hp => absurd hp ha.wakesReaders))
    · exact (waits_set ha hwt).imp_right .inr
  writeSleeps hsle := by
    rcases exists_of_set (P := fun p : Pc => p = .writeAsleep) hsle with ht | hbef
    · exact .inl (ha.writeSleeps ht)
    rcases h.writeSleeps hbef with hwd | hwak | hwk
    · exact (ha.frees hwd).imp_right fun hp => .inl ⟨t, by rwa [pc_set_self]⟩
    · exact .inr (.inl (exists_set (P := fun p : Pc => p.wakesWriter) hwak ha.wakes))
    · by_cases hwd : Marked a.1 ∧ ¬Free a.1
      · exact .inl hwd
      · exact .inr (.inr (exists_set (P := fun p : Pc => p.writerAwake) hwk fun hp => (ha.awake hp).resolve_right hwd))

omit [DecidableEq τ] in
/-- Threads are moved, and the word stays as it is. -/
theorem Inv.moves (h : Inv s) (hwd : s'.word = s.word) (hmov : ∀ t, Moves (s.pc t) (s'.pc t))
    (hread : (∃ t, s'.pc t = .readAsleep) → (∃ t, s.pc t = .readAsleep) ∧ ∀ t, s.pc t = .wakeReaders → s'.pc t = .wakeReaders)
    (hwr : (∃ t, s'.pc t = .writeAsleep) → (∃ t, (s'.pc t).wakesWriter) ∨ ∃ t, (s'.pc t).writerAwake) : Inv s' := by
  have hwt : (∃ t, (s.pc t).writerWaits) → ∃ t, (s'.pc t).writerWaits := Exists.imp fun t => (hmov t).waits
  constructor
  · exact hwd ▸ h.lt
  · exact fun t => (hmov t).placed (h.placed t)
  · rw [hwd, h.readers]
    exact (count_congr (P := isReader) fun t => decide_eq_decide.2 (hmov t).reads).symm
  · rw [hwd, h.locked]
    exact exists_congr fun t => (hmov t).writes.symm
  · exact fun t u ht hu => h.one t u ((hmov t).writes.1 ht) ((hmov u).writes.1 hu)
  · exact hwd ▸ h.alone
  · rw [hwd]
    exact fun hmk => (h.marks hmk).imp_right hwt
  · intro hsle
    obtain ⟨hbef, hwak⟩ := hread hsle
    rw [hwd]
    exact (h.readSleeps hbef).imp_right fun hor => hor.imp (Exists.imp hwak) hwt
  · exact fun hsle => .inr (hwr hsle)

theorem Inv.wakeReaders (h : Inv s) {t : τ} (ht : s.pc t = .wakeReaders) :
    Inv ((s.moveAll readersAwoken).move t .wakeWriter) := by
  have hall : ∀ u, Moves (s.pc u) (s.pc u).readersAwoken := fun u => by
    cases s.pc u <;> constructor <;> simp [readersAwoken]
  have hwk : ∀ u, ((s.moveAll readersAwoken).move t .wakeWriter).pc u ≠ .readAsleep := by
    refine (s.moveAll readersAwoken).forall_set (fun _ p => p ≠ .readAsleep) nofun fun u _ => ?_
    rw [pc_moveAll]
    cases s.pc u <;> exact nofun
  refine h.moves rfl (fun u => (hall u).trans (moves_move (s := s.moveAll readersAwoken) ?_ u))
    (fun ⟨u, hu⟩ => absurd hu (hwk u)) fun _ => .inl ⟨t, ?_⟩
  · rw [pc_moveAll, ht]
    constructor <;> simp [readersAwoken]
  · rw [move, pc_set_self]
    rfl

theorem Inv.wakeNone (h : Inv s) {t : τ} (ht : s.pc t = .wakeWriter) (hno : ∀ u, s.pc u ≠ .writeAsleep) :
    Inv (s.move t .idle) := by
  refine h.moves rfl (moves_move (moves_idle ht)) (fun ⟨u, hu⟩ => ?_) fun ⟨u, hu⟩ => ?_
  · exact ⟨⟨u, (pc_move_idle ht .readAsleep nofun nofun).1 hu⟩, fun v => (pc_move_idle ht .wakeReaders nofun nofun).2⟩
  · exact absurd ((pc_move_idle ht .writeAsleep nofun nofun).1 hu) (hno u)

theorem Inv.wakeWriter (h : Inv s) {t u : τ} (ht : s.pc t = .wakeWriter) (hu : s.pc u = .writeAsleep) :
    Inv ((s.move t .idle).move u (.writeLoop 0)) := by
  have hu' : (s.move t .idle).pc u = .writeAsleep := (pc_move_idle ht .writeAsleep nofun nofun).2 hu
  have hmove : Moves ((s.move t .idle).pc u) (.writeLoop 0) := by
    rw [hu']
    constructor <;> simp
  refine h.moves rfl (fun v => (moves_move (moves_idle ht) v).trans (moves_move hmove v)) (fun ⟨v, hv⟩ => ?_) fun _ => .inr ⟨u, ?_⟩
  · have hrea := (pc_move_iff (q := .writeLoop 0) (r := .readAsleep) hu' nofun nofun).1 hv
    refine ⟨⟨v, (pc_move_idle ht .readAsleep nofun nofun).1 hrea⟩, fun w hw => ?_⟩
    have hwak := (pc_move_idle ht .wakeReaders nofun nofun).2 hw
    exact (pc_move_iff (q := .writeLoop 0) (r := .wakeReaders) hu' nofun nofun).2 hwak
  · rw [move, pc_set_self]
    rfl

/-- There are fewer than 2^30 readers after the step. -/
def FewReaders (s : State τ) (act : Act τ) : Prop := ∀ s' ∈ step s act, readers s' < 2 ^ 30

instance (s : State τ) (act : Act τ) : Decidable (FewReaders s act) :=
  inferInstanceAs (Decidable (∀ s' ∈ step s act, readers s' < 2 ^ 30))

theorem Inv.step (h : Inv s) {act : Act τ} (hfew : FewReaders s act) (hst : step s act = some s') : Inv s' := by
  have hfew := hfew s' hst
  cases act with
  | step t op =>
    obtain ⟨a, ha, rfl⟩ := Option.map_eq_some_iff.1 hst
    refine h.set (access_spec (h.ready t) (fun hp hrd => ?_) ha)
    have hcount := s.count_set t a isReader
    have hbef := h.readers
    simp only [isReader, Rwlock.readers, hp, hrd, decide_true, decide_false, Bool.toNat_true, Bool.toNat_false] at *
    omega
  | wakeReaders t =>
    obtain ⟨ht, rfl⟩ := of_guarded hst
    exact h.wakeReaders ht
  | wakeWriter t u =>
    cases u with
    | none =>
      obtain ⟨⟨ht, hno⟩, rfl⟩ := of_guarded hst
      exact h.wakeNone ht hno
    | some u =>
      obtain ⟨⟨ht, hu⟩, rfl⟩ := of_guarded hst
      exact h.wakeWriter ht hu

theorem Inv.init : Inv (machine τ).init where
  lt := Nat.two_pow_pos 32
  placed _ := trivial
  readers := (count_eq_zero.2 fun _ => rfl).symm
  locked := iff_of_false (by decide : ¬Locked 0) nofun
  one _ _ h := nomatch h
  alone h := absurd h (by decide : ¬Locked 0)
  marks h := absurd h (by decide : ¬Marked 0)
  readSleeps := fun ⟨_, h⟩ => nomatch h
  writeSleeps := fun ⟨_, h⟩ => nomatch h

def Pc.sleeps (p : Pc) : Bool := p = .readAsleep || p = .writeAsleep

/-- **A writer holds the lock alone, and no wake-up is lost**: the threads inside the functions are never all asleep while the
lock is free. -/
theorem rwlock_correct (h : (machine τ).Reaches FewReaders s) :
    (∀ t u, s.pc t = .writes → s.pc u = .writes ∨ s.pc u = .reads → u = t) ∧
      ¬((∀ t, s.pc t ≠ .writes ∧ s.pc t ≠ .reads) ∧ (∃ t, (s.pc t).sleeps) ∧ ∀ t, s.pc t = .idle ∨ (s.pc t).sleeps) := by
  have hinv : Inv s := h.invariant Inv.init fun hinv => hinv.step
  refine ⟨fun t u ht hu => ?_, fun ⟨hfr, ⟨t, ht⟩, hall⟩ => ?_⟩
  · rcases hu with hu | hu
    · exact hinv.one u t hu ht
    · have hno := hinv.alone (hinv.locked.2 ⟨t, ht⟩)
      exact absurd ((hinv.ready u).reads hu) (by omega)
  -- Everybody who is inside sleeps: nobody is awake or is going to wake anybody, and a writer that waits is asleep.
  have hins : ∀ u, s.pc u = .idle ∨ s.pc u = .readAsleep ∨ s.pc u = .writeAsleep := fun u =>
    (hall u).imp_right fun hu => by simpa [sleeps] using hu
  have hreade : s.word % 2 ^ 30 = 0 := hinv.readers.trans (count_eq_zero.2 fun u => decide_eq_false (hfr u).2)
  have hlk : ¬Locked s.word := fun hlk => by
    obtain ⟨u, hu⟩ := hinv.locked.1 hlk
    exact (hfr u).1 hu
  have hwrit : ∀ u, s.pc u ≠ .writeAsleep := fun u hu => by
    rcases hinv.writeSleeps ⟨u, hu⟩ with ⟨-, hwd⟩ | ⟨v, hv⟩ | ⟨v, hv⟩
    · omega
    · rcases hins v with hv' | hv' | hv' <;> rw [hv'] at hv <;> cases hv
    · rcases hins v with hv' | hv' | hv' <;> rw [hv'] at hv <;> cases hv
  have hasl : s.pc t = .readAsleep := by
    rcases hins t with ht' | ht' | ht'
    · rw [ht'] at ht
      cases ht
    · exact ht'
    · exact absurd ht' (hwrit t)
  rcases hinv.readSleeps ⟨t, hasl⟩ with ⟨hwd, -⟩ | ⟨u, hu⟩ | ⟨u, hu⟩
  · exact hlk hwd
  · rcases hins u with hu' | hu' | hu' <;> rw [hu'] at hu <;> cases hu
  · rcases hins u with hu' | hu' | hu'
    · rw [hu'] at hu
      cases hu
    · rw [hu'] at hu
      cases hu
    · exact hwrit u hu'

/-- A reader and a writer fall asleep while thread 0 writes; it has given the lock up and is going to wake them. -/
theorem rwlock_correct_contended : ∃ s, (machine (Fin 3)).Reaches FewReaders s ∧
    (s.word = 0 ∧ s.pc 0 = .wakeReaders ∧ s.pc 1 = .readAsleep ∧ s.pc 2 = .writeAsleep) ∧
      ∀ t u, s.pc t = .writes → s.pc u = .writes ∨ s.pc u = .reads → u = t := by
  refine (Machine.exists_reaches_of_runOk FewReaders
    [.step 0 .lockWrite, .step 1 .lockRead, .step 1 .advance, .step 1 .advance, .step 2 .lockWrite, .step 2 .advance,
      .step 2 .advance, .step 0 .unlockWrite] ?_).imp fun s h => ⟨h.1, h.2, (rwlock_correct h.1).1⟩
  decide +kernel

end Osxie.Libsimple.Rwlock
