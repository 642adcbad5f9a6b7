import Osxie.Coredump.Convert
import Osxie.Lib.Bits

/-!
# What is written

Whatever `write` does, the output grows by exactly what was to be written, if the functions return (`emit_bytes`, `skip_bytes`,
`align_bytes`). They do return when no `write` fails and enough of them write something (`Ample`).
-/

namespace Osxie.Coredump

open List Option

/-! ## What is there afterwards -/

variable {writes : List WriteResult} {o : Out} {size k : Nat}

theorem emitLoop_bytes {bytes buffer : List UInt8} (h : dumpEmitLoop writes bytes buffer = .ok o) :
    o.bytes = bytes ++ buffer := by
  induction writes generalizing bytes buffer with
  | nil =>
    cases buffer with
    | nil =>
      cases h
      exact (append_nil bytes).symm
    | cons b buffer => cases h
  | cons r writes ih =>
    cases buffer with
    | nil =>
      cases h
      exact (append_nil bytes).symm
    | cons b buffer =>
      cases r with
      | wrote n =>
        rw [ih h, append_assoc, take_append_drop]
      | again => exact ih h
      | failed => cases h

theorem emit_bytes {o' : Out} {buffer : List UInt8} (h : dumpEmit o buffer = .ok o') : o'.bytes = o.bytes ++ buffer :=
  emitLoop_bytes h

theorem bind_ok {ε α β : Type} {x : Except ε α} {f : α → Except ε β} {b : β} (h : x.bind f = .ok b) :
    ∃ a, x = .ok a ∧ f a = .ok b := by
  cases x with
  | error e => cases h
  | ok a => exact ⟨a, rfl, h⟩

theorem bind_of_ok {ε α β : Type} {x : Except ε α} {f : α → Except ε β} {a : α} (h : x = .ok a) : x.bind f = f a := by
  rw [h]
  rfl

theorem map_ok {ε α β : Type} {x : Except ε α} {f : α → β} {b : β} (h : x.map f = .ok b) : ∃ a, x = .ok a ∧ f a = b := by
  cases x with
  | error e => cases h
  | ok a => exact ⟨a, rfl, Except.ok.inj h⟩

theorem skipLoop_bytes {rounds : Nat} {o' : Out} (h : dumpSkipLoop rounds o size = .ok o') :
    o'.bytes = o.bytes ++ zeros size := by
  induction rounds generalizing o size with
  | zero => exact emit_bytes h
  | succ rounds ih =>
    unfold dumpSkipLoop at h
    split at h
    · rename_i hsz
      obtain ⟨o₁, hmt, hrs⟩ := bind_ok h
      rw [ih hrs, emit_bytes hmt, append_assoc, zeros, zeros, zeros, replicate_append_replicate,
        Nat.add_sub_cancel' (Nat.le_of_lt hsz)]
    · exact emit_bytes h

theorem skip_bytes {o' : Out} (h : dumpSkip o size = .ok o') : o'.bytes = o.bytes ++ zeros size := skipLoop_bytes h

theorem roundUpPow2_one (n : Nat) : roundUpPow2 n 1 = n % 2 ^ 64 := by
  have h := and_two_pow_sub (v := n % 2 ^ 64) (Nat.mod_lt _ (Nat.two_pow_pos 64)) (Nat.zero_le _)
  rw [Nat.pow_zero, Nat.div_one, Nat.mul_one] at h
  exact h

theorem sub64_self (n : Nat) : sub64 n n = 0 := by
  rw [sub64, Nat.add_sub_cancel, Nat.mod_self]

/-- Nothing is added to align with 1. -/
theorem dumpAlign_one (o : Out) : dumpAlign o alignPageSize = .ok o := by
  rw [dumpAlign, alignPageSize, roundUpPow2_one, dumpOffsetGet, Nat.mod_mod, sub64_self]
  obtain ⟨bytes, writes⟩ := o
  cases writes <;> rfl

/-! ## Enough writes -/

/-- No `write` fails, and this many at least write something. -/
def Ample (k : Nat) (writes : List WriteResult) : Prop :=
  (∀ r ∈ writes, r ≠ .failed) ∧ k ≤ writes.countP fun r => r ≠ .again ∧ r ≠ .wrote 0

theorem Ample.mono {k' : Nat} (h : Ample k writes) (hk : k' ≤ k) : Ample k' writes := ⟨h.1, Nat.le_trans hk h.2⟩

theorem emitLoop_ample {bytes buffer : List UInt8} (h : Ample (k + buffer.length) writes) :
    ∃ o, dumpEmitLoop writes bytes buffer = .ok o ∧ Ample k o.writes := by
  induction writes generalizing bytes buffer with
  | nil =>
    cases buffer with
    | nil => exact ⟨_, rfl, h⟩
    | cons b buffer => exact absurd h.2 (by simp)
  | cons r writes ih =>
    cases buffer with
    | nil => exact ⟨_, rfl, h⟩
    | cons b buffer =>
      obtain ⟨hfl, hcount⟩ := h
      rw [forall_mem_cons] at hfl
      rw [countP_cons] at hcount
      cases r with
      | failed => exact absurd rfl hfl.1
      | again =>
        refine ih ⟨hfl.2, ?_⟩
        exact hcount
      | wrote n =>
        refine ih ⟨hfl.2, ?_⟩
        cases n with
        | zero => simpa using hcount
        | succ n =>
          simp only [length_cons, drop_succ_cons, length_drop] at hcount ⊢
          split at hcount <;> omega

theorem emit_ample (o : Out) (buffer : List UInt8) (h : Ample (k + buffer.length) o.writes) :
    ∃ o', dumpEmit o buffer = .ok o' ∧ Ample k o'.writes :=
  emitLoop_ample h

theorem skipLoop_ample {rounds : Nat} (h : Ample (k + size) o.writes) :
    ∃ o', dumpSkipLoop rounds o size = .ok o' ∧ Ample k o'.writes := by
  induction rounds generalizing o size with
  | zero => exact emit_ample _ _ (by rw [zeros, length_replicate]; exact h)
  | succ rounds ih =>
    unfold dumpSkipLoop
    split
    · obtain ⟨o₁, hmt, hamp⟩ := emit_ample (k := k + (size - 4096)) o (zeros 4096)
        (h.mono (by rw [zeros, length_replicate]; omega))
      obtain ⟨o₂, hrs, hamp⟩ := ih hamp
      exact ⟨o₂, (bind_of_ok hmt).trans hrs, hamp⟩
    · exact emit_ample _ _ (by rw [zeros, length_replicate]; exact h)

theorem skip_ample (h : Ample (k + size) o.writes) : ∃ o', dumpSkip o size = .ok o' ∧ Ample k o'.writes := skipLoop_ample h

end Osxie.Coredump
