import Mathlib.Data.List.Basic

/-!
# C structure layout

The layout rule of the C ABIs for a structure, whose members are given by size and alignment: they are placed in order, each at
the first offset after the one before that is a multiple of its alignment; the structure is aligned as its most aligned member,
and its size is rounded up to its alignment.
-/

namespace Osxie

open Nat

/-- A member of a structure, as far as its layout is concerned. -/
structure Member where
  size : Nat
  align : Nat
  align_pos : 0 < align
deriving DecidableEq

/-- The layout of a structure: the offset of each member, its size and its alignment. -/
structure Layout where
  offsets : List Nat
  size : Nat
  align : Nat
  align_pos : 0 < align
deriving DecidableEq

def Layout.toMember (l : Layout) : Member := ⟨l.size, l.align, l.align_pos⟩

/-- The first multiple of `a` at or after `n`. -/
def alignUp (n a : Nat) : Nat := n + (a - n % a) % a

/-- The offsets of members placed one after the other from `off`. -/
def offsetsFrom : Nat → List Member → List Nat
  | _, [] => []
  | off, m :: ms => alignUp off m.align :: offsetsFrom (alignUp off m.align + m.size) ms

/-- Where the last of the members placed from `off` ends. -/
def endFrom : Nat → List Member → Nat
  | off, [] => off
  | off, m :: ms => endFrom (alignUp off m.align + m.size) ms

/-- The alignment of a structure: that of its most aligned member. -/
def structAlign : List Member → Nat
  | [] => 1
  | m :: ms => max m.align (structAlign ms)

theorem structAlign_pos : ∀ ms : List Member, 0 < structAlign ms
  | [] => Nat.one_pos
  | m :: _ => Nat.lt_of_lt_of_le m.align_pos (Nat.le_max_left _ _)

def layout (ms : List Member) : Layout :=
  ⟨offsetsFrom 0 ms, alignUp (endFrom 0 ms) (structAlign ms), structAlign ms, structAlign_pos ms⟩

theorem le_alignUp (n a : Nat) : n ≤ alignUp n a := le_add_right n _

theorem dvd_alignUp {a : Nat} (n : Nat) (ha : 0 < a) : a ∣ alignUp n a := by
  have hlt : n % a < a := mod_lt n ha
  apply dvd_of_mod_eq_zero
  unfold alignUp
  rcases Nat.eq_zero_or_pos (n % a) with h | h
  · simp [h]
  · rw [mod_eq_of_lt (show a - n % a < a by omega), add_mod, mod_eq_of_lt (show a - n % a < a by omega)]
    rw [show n % a + (a - n % a) = a by omega, mod_self]

theorem le_endFrom : ∀ (off : Nat) (ms : List Member), off ≤ endFrom off ms
  | _, [] => Nat.le_refl _
  | off, m :: ms =>
    calc off ≤ alignUp off m.align := le_alignUp off m.align
      _ ≤ alignUp off m.align + m.size := le_add_right _ _
      _ ≤ endFrom off (m :: ms) := le_endFrom _ ms

/-- Members placed from `off` are aligned, start at or after `off` and end at or before the end. -/
theorem offsetsFrom_placed {off : Nat} {ms : List Member} {o : Nat} {m : Member} (h : (o, m) ∈ (offsetsFrom off ms).zip ms) :
    m.align ∣ o ∧ off ≤ o ∧ o + m.size ≤ endFrom off ms := by
  induction ms generalizing off with
  | nil => simp [offsetsFrom] at h
  | cons n ms ih =>
    simp only [offsetsFrom, List.zip_cons_cons, List.mem_cons, Prod.mk.injEq] at h
    rcases h with ⟨rfl, rfl⟩ | h
    · exact ⟨dvd_alignUp off m.align_pos, le_alignUp off m.align, le_endFrom _ ms⟩
    · obtain ⟨hdvd, hle, hend⟩ := ih h
      refine ⟨hdvd, ?_, hend⟩
      have := le_alignUp off n.align
      omega

/-- No member placed from `off` overlaps a later one. -/
theorem offsetsFrom_pairwise (off : Nat) (ms : List Member) :
    ((offsetsFrom off ms).zip ms).Pairwise (fun a b => a.1 + a.2.size ≤ b.1) := by
  induction ms generalizing off with
  | nil => simp [offsetsFrom]
  | cons m ms ih =>
    simp only [offsetsFrom, List.zip_cons_cons, List.pairwise_cons]
    exact ⟨fun b hb => (offsetsFrom_placed hb).2.1, ih _⟩

/-- Every member of a structure is aligned and lies inside it. -/
theorem layout_placed {ms : List Member} {o : Nat} {m : Member} (h : (o, m) ∈ (layout ms).offsets.zip ms) :
    m.align ∣ o ∧ o + m.size ≤ (layout ms).size := by
  obtain ⟨hdvd, -, hend⟩ := offsetsFrom_placed h
  exact ⟨hdvd, Nat.le_trans hend (le_alignUp _ _)⟩

/-- No member of a structure overlaps a later one. -/
theorem layout_pairwise (ms : List Member) :
    ((layout ms).offsets.zip ms).Pairwise (fun a b => a.1 + a.2.size ≤ b.1) :=
  offsetsFrom_pairwise 0 ms

end Osxie
