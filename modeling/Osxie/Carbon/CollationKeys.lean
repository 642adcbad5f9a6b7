import Mathlib.Data.List.Basic

/-!
# Collation keys

`UCGetCollationKey` returns the length of a key in units of four bytes, and `UCCompareCollationKeys` compares as many bytes: the
first quarter of each key.
-/

namespace Osxie.Carbon

open List

/-- A collator of ICU, with `CollationKey::compareTo`, which compares bytewise. Texts compare as their keys do. -/
structure Collator (τ : Type) where
  key : τ → Option (List UInt8)
  compare : τ → τ → Ordering
  compareTo : List UInt8 → List UInt8 → Ordering
  bytewise : ∀ k l, compareTo k l = Ord.compare k l
  agrees : ∀ s t k l, key s = some k → key t = some l → compare s t = compareTo k l

variable {τ : Type} {collator : Collator τ}

/-- `UCGetCollationKey`, with what is in the memory for the key: `*actualKeySize` and the memory, if there is a key and it fits. -/
def ucGetCollationKey (collator : Collator τ) (text : τ) (maxKeySize : Nat) (collationKey : List UInt8) :
    Option (Nat × List UInt8) :=
  (collator.key text).bind fun data =>
    if 4 * maxKeySize < data.length then none
    else
      let actualKeySize := (data.length + 4 - 1) / 4
      let cleared := replicate actualKeySize 0 ++ collationKey.drop actualKeySize
      some (actualKeySize, data ++ cleared.drop data.length)

/-- `*equiv` and `*order`. -/
def answer (result : Ordering) : Bool × Int :=
  (result = .eq, match result with | .gt => 1 | .lt => -1 | .eq => 0)

def ucCompareCollationKeys (collator : Collator τ) (key1 : List UInt8) (key1len : Nat) (key2 : List UInt8) (key2len : Nat) :
    Bool × Int :=
  answer (collator.compareTo (key1.take key1len) (key2.take key2len))

def ucCompareText (collator : Collator τ) (text1 text2 : τ) : Bool × Int := answer (collator.compare text1 text2)

theorem answer_injective : Function.Injective answer := by
  intro a b h
  cases a <;> cases b <;> first | rfl | cases h

/-- The length of a key in units of four bytes, rounded up. -/
def units (key : List UInt8) : Nat := (key.length + 4 - 1) / 4

theorem units_le (key : List UInt8) : units key ≤ key.length := by
  unfold units
  omega

/-- Lists that differ at an index of both compare as they do with something after them. -/
theorem compare_append_of_ne {k l : List UInt8} {i : Nat} (hk : i < k.length) (hl : i < l.length) (h : k[i]? ≠ l[i]?)
    (k' l' : List UInt8) : compare (k ++ k') (l ++ l') = compare k l := by
  induction k generalizing l i with
  | nil => cases hk
  | cons a k ih =>
    cases l with
    | nil => cases hl
    | cons b l =>
      rw [cons_append, cons_append, List.compare_cons_cons, List.compare_cons_cons]
      cases hab : compare a b with
      | lt | gt => rfl
      | eq =>
        obtain rfl : a = b := Std.LawfulEqOrd.eq_of_compare hab
        cases i with
        | zero => exact absurd rfl h
        | succ i => exact ih (Nat.lt_of_succ_lt_succ hk) (Nat.lt_of_succ_lt_succ hl) h

/-- Otherwise the lengths decide. -/
theorem compare_eq_length {k l : List UInt8} (h : ∀ i, i < k.length → i < l.length → k[i]? = l[i]?) :
    compare k l = compare k.length l.length := by
  induction k generalizing l with
  | nil =>
    cases l with
    | nil => rfl
    | cons => exact (Nat.compare_eq_lt.2 (Nat.succ_pos _)).symm
  | cons a k ih =>
    cases l with
    | nil => exact (Nat.compare_eq_gt.2 (Nat.succ_pos _)).symm
    | cons b l =>
      have hab : a = b := by simpa using h 0
      rw [List.compare_cons_cons, hab, Std.compare_self, ih fun i hk hl => by simpa [hk, hl] using h (i + 1)]
      simp [Nat.compare_eq_ite_lt]

/-- What is compared of a key is as many bytes as it has units. -/
theorem ucGetCollationKey_spec {text : τ} {maxKeySize size : Nat} {memory key k : List UInt8} (hk : collator.key text = some k)
    (h : ucGetCollationKey collator text maxKeySize memory = some (size, key)) :
    size = units k ∧ key.take size = k.take (units k) := by
  rw [ucGetCollationKey, hk, Option.bind_some] at h
  split at h
  · cases h
  simp only [Option.some.injEq, Prod.mk.injEq] at h
  obtain ⟨rfl, rfl⟩ := h
  exact ⟨rfl, take_append_of_le_length (units_le k)⟩

/-- The answers agree if ICU's keys differ in a byte of the first quarter of both, or if they compare as the lengths of these
quarters do. -/
theorem compare_iff {s t : τ} {k l : List UInt8} (hk : collator.key s = some k) (hl : collator.key t = some l)
    {maxKeySize₁ maxKeySize₂ size₁ size₂ : Nat} {memory₁ memory₂ key₁ key₂ : List UInt8}
    (hs : ucGetCollationKey collator s maxKeySize₁ memory₁ = some (size₁, key₁))
    (ht : ucGetCollationKey collator t maxKeySize₂ memory₂ = some (size₂, key₂)) :
    ucCompareCollationKeys collator key₁ size₁ key₂ size₂ = ucCompareText collator s t ↔
      (∃ i, i < units k ∧ i < units l ∧ k[i]? ≠ l[i]?) ∨ compare k l = compare (units k) (units l) := by
  rw [ucCompareCollationKeys, (ucGetCollationKey_spec hk hs).2, (ucGetCollationKey_spec hl ht).2, ucCompareText,
    answer_injective.eq_iff, collator.agrees _ _ _ _ hk hl, collator.bytewise, collator.bytewise]
  have hlk : (k.take (units k)).length = units k := length_take_of_le (units_le k)
  have hll : (l.take (units l)).length = units l := length_take_of_le (units_le l)
  by_cases hdiff : ∃ i, i < units k ∧ i < units l ∧ k[i]? ≠ l[i]?
  · obtain ⟨i, hik, hil, hne⟩ := hdiff
    have happ := compare_append_of_ne (hlk.symm ▸ hik) (hll.symm ▸ hil) (by rwa [getElem?_take_of_lt hik, getElem?_take_of_lt hil])
      (k.drop (units k)) (l.drop (units l))
    rw [take_append_drop, take_append_drop] at happ
    exact iff_of_true happ.symm (.inl ⟨i, hik, hil, hne⟩)
  · rw [or_iff_right hdiff]
    push Not at hdiff
    rw [compare_eq_length fun i hik hil => ?_, hlk, hll]
    · exact eq_comm
    · rw [getElem?_take_of_lt (hlk ▸ hik), getElem?_take_of_lt (hll ▸ hil)]
      exact hdiff i (hlk ▸ hik) (hll ▸ hil)

def identityCollator : Collator (List UInt8) where
  key := some
  compare := compare
  compareTo := compare
  bytewise _ _ := rfl
  agrees := by
    rintro s t k l ⟨⟩ ⟨⟩
    rfl

/-- Keys of ICU's form, with a weight for each letter on the first level, that end in the byte 0. -/
def keyOf (letters : List UInt8) : List UInt8 := letters ++ [1, 7, 1, 7, 0]

/-- Texts that differ in the second letter. -/
theorem compare_iff_second :
    ucCompareCollationKeys identityCollator (keyOf [42, 44, 42]) 2 (keyOf [42, 42, 46]) 2 =
      ucCompareText identityCollator (keyOf [42, 44, 42]) (keyOf [42, 42, 46]) :=
  (compare_iff rfl rfl (show ucGetCollationKey _ _ 2 [] = some (2, _) from rfl)
    (show ucGetCollationKey _ _ 2 [] = some (2, _) from rfl)).2 (.inl ⟨1, by decide⟩)

/-- Texts that differ in the third letter. -/
theorem compare_ne : ucGetCollationKey identityCollator (keyOf [42, 42, 42]) 2 [] = some (2, keyOf [42, 42, 42]) ∧
    ucGetCollationKey identityCollator (keyOf [42, 42, 44]) 2 [] = some (2, keyOf [42, 42, 44]) ∧
      ucCompareCollationKeys identityCollator (keyOf [42, 42, 42]) 2 (keyOf [42, 42, 44]) 2 ≠
        ucCompareText identityCollator (keyOf [42, 42, 42]) (keyOf [42, 42, 44]) := by
  decide

end Osxie.Carbon
