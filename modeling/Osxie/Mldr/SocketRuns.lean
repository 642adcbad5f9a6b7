import Osxie.Mldr.SocketBitmap

/-!
# What the bitmap of RPC descriptors keeps

`get` and `put` are followed bit by bit: what the bits of the array are after one of them is set or cleared, which index
`findFree` stops at, and where `shrink` stops. From this a step that is safe keeps the allocator sound, and so does a run of
safe steps.
-/

namespace Osxie.Mldr

open List Option Nat SocketBitmap Bool

namespace SocketBitmap

/-! ## Bits of the array -/

def test (bits : List (BitVec 8)) (i : Nat) : Bool := (bits.getD (i / 8) 0).getLsbD (i % 8)

theorem isSet_some (nextIndex bitLength : Nat) (bits : List (BitVec 8)) (highest : Int) (i : Nat) :
    isSet ⟨nextIndex, some bits, bitLength, highest⟩ i = test bits i := rfl

theorem mod_eight_lt (i : Nat) : i % 8 < 8 := mod_lt _ (by decide)

theorem mask_eq_twoPow (i : Nat) : mask i = BitVec.twoPow 8 (i % 8) := rfl

variable (x : BitVec 8)

theorem and_mask_eq_zero_iff (i : Nat) : x &&& mask i = 0 ↔ x.getLsbD (i % 8) = false := by
  rw [mask_eq_twoPow, BitVec.and_twoPow]
  cases h : x.getLsbD (i % 8) with
  | false => simp
  | true =>
    simp only [if_true, true_eq_false, iff_false]
    intro hz
    have hb := congrArg (fun y : BitVec 8 => y.getLsbD (i % 8)) hz
    simp [mod_eight_lt] at hb

theorem getLsbD_or_mask (i j : Nat) : (x ||| mask i).getLsbD j = (x.getLsbD j || decide (i % 8 = j)) := by
  rw [mask_eq_twoPow]
  simp [mod_eight_lt]

theorem getLsbD_and_not_mask (i j : Nat) :
    (x &&& ~~~(mask i)).getLsbD j = (x.getLsbD j && decide (i % 8 ≠ j)) := by
  rw [mask_eq_twoPow, BitVec.getLsbD_and, BitVec.getLsbD_not, BitVec.getLsbD_twoPow]
  by_cases hj : j < 8
  · simp [mod_eight_lt, hj]
  · simp [BitVec.getLsbD_of_ge x j (by omega)]

variable {n : Nat} {bits : List (BitVec 8)} {b : SocketBitmap}

theorem getElem?_eq_some_getD {l : List (BitVec 8)} (h : n < l.length) : l[n]? = some (l.getD n 0) := by
  rw [getD_eq_getElem?_getD, getElem?_eq_getElem h]
  rfl

/-- A byte is written: the bits of the others stay. -/
theorem test_set (h : n < bits.length) (byte : BitVec 8) (i : Nat) :
    test (bits.set n byte) i = if i / 8 = n then byte.getLsbD (i % 8) else test bits i := by
  unfold test
  rw [getD_eq_getElem?_getD, getElem?_set]
  by_cases hi : n = i / 8
  · rw [if_pos hi, if_pos h, if_pos hi.symm]
    rfl
  · rw [if_neg hi, if_neg (Ne.symm hi), ← getD_eq_getElem?_getD]

/-- Setting the bit at an index sets no other. -/
theorem test_set_or (h : n / 8 < bits.length) (i : Nat) :
    test (bits.set (n / 8) (bits.getD (n / 8) 0 ||| mask n)) i = (test bits i || decide (i = n)) := by
  rw [test_set h, getLsbD_or_mask]
  by_cases hi : i / 8 = n / 8
  · have : (n % 8 = i % 8) ↔ (i = n) := by omega
    simp only [test, hi, this, if_true]
  · have : i ≠ n := fun e => hi (e ▸ rfl)
    simp [if_neg hi, this]

/-- Clearing the bit at an index clears no other. -/
theorem test_set_and (h : n / 8 < bits.length) (i : Nat) :
    test (bits.set (n / 8) (bits.getD (n / 8) 0 &&& ~~~(mask n))) i = (test bits i && decide (i ≠ n)) := by
  rw [test_set h, getLsbD_and_not_mask]
  by_cases hi : i / 8 = n / 8
  · have : (n % 8 ≠ i % 8) ↔ (i ≠ n) := by omega
    simp only [test, hi, this, if_true]
  · have : i ≠ n := fun e => hi (e ▸ rfl)
    simp [if_neg hi, this]

variable {i bitLength k : Nat}

/-- There are no bits beyond the array. -/
theorem test_of_length_le (h : bits.length ≤ i / 8) : test bits i = false := by
  simp [test, getD_eq_getElem?_getD, getElem?_eq_none h]

/-- A byte is zero when none of its bits is set. -/
theorem byte_eq_zero_iff (bits : List (BitVec 8)) (n : Nat) : bits.getD n 0 = 0 ↔ ∀ i, i / 8 = n → test bits i = false := by
  constructor
  · rintro h i rfl
    rw [test, h]
    exact BitVec.getLsbD_zero
  · intro h
    refine BitVec.eq_of_getLsbD_eq fun j hj => ?_
    have := h (8 * n + j) (by omega)
    rw [test, show (8 * n + j) / 8 = n by omega, show (8 * n + j) % 8 = j by omega] at this
    rw [this]
    exact BitVec.getLsbD_zero.symm

/-- The bits of a byte that is full are set. -/
theorem test_of_byte_full (h : bits.getD (i / 8) 0 = 0xff) : test bits i = true := by
  have hall : ∀ j : Fin 8, (0xff : BitVec 8).getLsbD j = true := by decide
  rw [test, h]
  exact hall ⟨i % 8, mod_eight_lt i⟩

/-- Growing adds no bit that is set. -/
theorem test_grow (h : bits.length = (bitLength + 7) / 8) (i : Nat) : test (grow bits bitLength) i = test bits i := by
  unfold grow
  split
  · have hr : (realloc bits (bitLength / 8 + 1)) = bits ++ [0] := by
      rw [realloc, take_of_length_le (by omega), show bitLength / 8 + 1 - bits.length = 1 by omega]
      rfl
    rw [hr, test_set (by rw [length_append, length_singleton]; omega)]
    split
    · rw [test_of_length_le (by omega)]
      exact BitVec.getLsbD_zero
    · unfold test
      rw [getD_eq_getElem?_getD, getD_eq_getElem?_getD]
      by_cases hi : i / 8 < bits.length
      · rw [getElem?_append_left hi]
      · rw [getElem?_eq_none (l := bits) (by omega), getElem?_eq_none (by
          rw [length_append, length_singleton]
          omega)]
  · rfl

theorem length_grow (h : bits.length = (bitLength + 7) / 8) : (grow bits bitLength).length = (bitLength + 1 + 7) / 8 := by
  unfold grow
  split
  · rw [length_set, realloc, length_append, length_replicate, length_take]
    omega
  · omega

/-! ## The loops -/

/-- `findFree` stops at the first free index, or at the length. -/
theorem findFree_spec (bits : List (BitVec 8)) (bitLength : Nat) (hlen : bitLength ≤ 8 * bits.length) :
    ∀ n i, bitLength ≤ i + n → ∃ r, findFree bits bitLength n i = some r ∧ r ≤ bitLength ∧
      (∀ j, i ≤ j → j < r → test bits j = true) ∧ (r < bitLength → test bits r = false) := by
  intro n
  induction n with
  | zero =>
    intro i hi
    exact ⟨bitLength, rfl, le_rfl, fun j hj hjr => by omega, fun h => by omega⟩
  | succ n ih =>
    intro i hi
    by_cases hlt : i < bitLength
    · simp only [findFree, if_pos hlt, getElem?_eq_some_getD (l := bits) (n := i / 8) (by omega), bind_some, and_mask_eq_zero_iff]
      by_cases hfu : i % 8 = 0 ∧ bits.getD (i / 8) 0 = 0xff
      · -- a full byte is passed at once
        rw [if_pos hfu]
        obtain ⟨r, hr, hle, hset, hfr⟩ := ih (i + 8) (by omega)
        refine ⟨r, hr, hle, fun j hj hjr => ?_, hfr⟩
        by_cases hj8 : i + 8 ≤ j
        · exact hset j hj8 hjr
        · exact test_of_byte_full (by rw [show j / 8 = i / 8 by omega]; exact hfu.2)
      · rw [if_neg hfu]
        cases hbit : (bits.getD (i / 8) 0).getLsbD (i % 8) with
        | false => exact ⟨i, rfl, le_of_lt hlt, fun j hj hji => by omega, fun _ => hbit⟩
        | true =>
          obtain ⟨r, hr, hle, hset, hfr⟩ := ih (i + 1) (by omega)
          refine ⟨r, by simpa using hr, hle, fun j hj hjr => ?_, hfr⟩
          rcases eq_or_lt_of_le hj with rfl | hlt'
          · exact hbit
          · exact hset j hlt' hjr
    · refine ⟨bitLength, ?_, le_rfl, fun j hj hjr => by omega, fun h => by omega⟩
      rw [findFree, if_neg hlt]

/-- `shrink` stops at once at a free bit that does not end a byte of zeros. -/
theorem shrink_of_free {n : Nat} (hk : k < 8 * bits.length) (hfr : test bits k = false)
    (hby : (k + 1) % 8 = 0 → bits.getD (k / 8) 0 ≠ 0) : shrink bits (n + 1) (k + 1) = some (k + 1) := by
  have hget := getElem?_eq_some_getD (l := bits) (n := k / 8) (by omega)
  have hze : ¬ ((k + 1) % 8 = 0 ∧ bits[(k + 1) / 8 - 1]? = some 0) := by
    rintro ⟨hmod, hz⟩
    rw [show (k + 1) / 8 - 1 = k / 8 by omega, hget] at hz
    exact hby hmod (some.inj hz)
  rw [shrink, if_neg hze, Nat.add_sub_cancel, hget]
  exact if_pos ((and_mask_eq_zero_iff _ _).2 hfr)

/-- `shrink` takes off the bytes that are zero, and stops at one whose last bit is free. -/
theorem shrink_bytes (hk : k < bits.length) (hby : bits.getD k 0 ≠ 0) (hfr : test bits (8 * k + 7) = false) :
    ∀ d n, k + d < bits.length → d < n → (∀ j, k < j → j ≤ k + d → bits.getD j 0 = 0) →
      shrink bits n (8 * (k + d + 1)) = some (8 * (k + 1)) := by
  intro d
  induction d with
  | zero =>
    intro n _ hn _
    obtain _ | n := n
    · omega
    have hla : (8 * k + 7) / 8 = k := by omega
    exact shrink_of_free (k := 8 * k + 7) (by omega) hfr (fun _ => hla.symm ▸ hby)
  | succ d ih =>
    intro n hlen hn hze
    obtain _ | n := n
    · omega
    have hla : bits[8 * (k + (d + 1) + 1) / 8 - 1]? = some 0 := by
      rw [show 8 * (k + (d + 1) + 1) / 8 - 1 = k + (d + 1) by omega, getElem?_eq_some_getD hlen]
      exact congrArg some (hze _ (by omega) (by omega))
    rw [shrink, if_pos (by omega), if_pos ⟨by omega, hla⟩]
    exact ih n (by omega) (by omega) (fun j hj hjd => hze j hj (by omega))

/-! ## One call -/

/-- What the bitmap keeps by itself: the array has the bytes for its length, no bit is set beyond the length, and the next index
is the least free one. -/
structure Coherent (b : SocketBitmap) : Prop where
  bytes : b.bits.map length = some ((b.bitLength + 7) / 8)
  set_lt : ∀ i, b.isSet i = true → i < b.bitLength
  next_le : b.nextIndex ≤ b.bitLength
  below_next : ∀ i < b.nextIndex, b.isSet i = true
  next_free : b.nextIndex < b.bitLength → b.isSet b.nextIndex = false

theorem Coherent.array (h : b.Coherent) : ∃ bits, b.bits = some bits ∧ bits.length = (b.bitLength + 7) / 8 :=
  map_eq_some_iff.1 h.bytes

theorem isSet_of_bits (h : b.bits = some bits) (i : Nat) : b.isSet i = test bits i := by
  rw [isSet, h]
  rfl

/-- The next index is free, also when it is the length. -/
theorem Coherent.next_not_set (h : b.Coherent) : b.isSet b.nextIndex = false := by
  rcases lt_or_ge b.nextIndex b.bitLength with hlt | hge
  · exact h.next_free hlt
  · cases hs : b.isSet b.nextIndex with
    | false => rfl
    | true => exact absurd (h.set_lt _ hs) (by omega)

/-- `get` sets the bit of the next index, and no other; the descriptor is that of the index. -/
theorem get_spec (rlimCur : Nat) (h : b.Coherent) :
    ∃ b', b.get rlimCur = some (int32 (b'.highest - b.nextIndex), b') ∧ b'.Coherent ∧
      b'.highest = (if b.highest = -1 then highestOf rlimCur else b.highest) ∧
      ∀ i, b'.isSet i = (b.isSet i || decide (i = b.nextIndex)) := by
  obtain ⟨bits, hbt, hlen⟩ := h.array
  -- the array and its length once there is room for the next index
  obtain ⟨room, bitLength, hrm, hrlen, hlt, htest, hset⟩ : ∃ room bitLength,
      (if b.bitLength ≤ b.nextIndex then (grow bits b.bitLength, b.bitLength + 1) else (bits, b.bitLength)) = (room, bitLength) ∧
      room.length = (bitLength + 7) / 8 ∧ b.nextIndex < bitLength ∧ (∀ i, test room i = b.isSet i) ∧
      (∀ i, b.isSet i = true → i < bitLength) := by
    split
    · refine ⟨_, _, rfl, length_grow hlen, by have := h.next_le; omega, fun i => ?_, fun i hi => ?_⟩
      · rw [test_grow hlen, isSet_of_bits hbt]
      · exact lt_succ_of_lt (h.set_lt i hi)
    · exact ⟨_, _, rfl, hlen, by omega, fun i => (isSet_of_bits hbt i).symm, h.set_lt⟩
  have hin : b.nextIndex / 8 < room.length := by omega
  obtain ⟨r, hr, hle, hfu, hfr⟩ := findFree_spec (room.set (b.nextIndex / 8)
    (room.getD (b.nextIndex / 8) 0 ||| mask b.nextIndex))
    bitLength (by rw [length_set]; omega) bitLength (b.nextIndex + 1) (by omega)
  have hbit := test_set_or hin
  refine ⟨⟨r, some _, bitLength, if b.highest = -1 then highestOf rlimCur else b.highest⟩, ?_, ⟨?_, ?_, hle, ?_, hfr⟩, rfl,
    fun i => ?_⟩
  · simp only [get, hbt, bind_eq_bind, bind_some, hrm, getElem?_eq_some_getD hin, hr]
  · rw [map_some, length_set, hrlen]
  · intro i hi
    rw [isSet_some, hbit, htest, or_eq_true, decide_eq_true_eq] at hi
    rcases hi with hi | rfl
    · exact hset i hi
    · exact hlt
  · intro i hi
    rcases lt_or_ge b.nextIndex i with hgt | hge
    · exact hfu i hgt hi
    · rw [isSet_some, hbit, htest, or_eq_true, decide_eq_true_eq]
      rcases eq_or_lt_of_le hge with rfl | hlt'
      · exact .inr rfl
      · exact .inl (h.below_next i hlt')
  · rw [isSet_some, hbit, htest]

theorem test_take (bits : List (BitVec 8)) (n i : Nat) : test (bits.take n) i = (test bits i && decide (i / 8 < n)) := by
  unfold test
  by_cases h : i / 8 < n
  · simp [h]
  · simp [h]

/-- The array is cut to a number of bytes that is not zero. -/
theorem resize_eq (h0 : n ≠ 0) (hn : n ≤ bits.length) : resize bits bits.length n = some (bits.take n) := by
  unfold resize
  split
  · rename_i h
    rw [← h, take_length]
  · rw [realloc, Nat.sub_eq_zero_of_le hn, replicate_zero, append_nil]

/-- Where `shrink` stops after the last bit was cleared: at once, unless the length is a whole number of bytes; and then after the
last byte that is not zero, when its last bit is free. -/
theorem shrink_spec (hlen : bits.length = (k + 1 + 7) / 8) (hset : ∀ j, test bits j = true → j < k + 1)
    (hfr : test bits k = false)
    (hsf : (k + 1) % 8 = 0 → ∃ m, test bits m = true ∧ (∀ j, test bits j = true → j ≤ m) ∧ m % 8 ≠ 7) :
    ∃ n, shrink bits (k + 1) (k + 1) = some n ∧ n ≤ k + 1 ∧ 0 < n ∧ test bits (n - 1) = false ∧
      ∀ j, test bits j = true → j < n := by
  by_cases hmod : (k + 1) % 8 = 0
  · obtain ⟨m, hm, hmax, hm7⟩ := hsf hmod
    have hmk : m / 8 ≤ k / 8 := by
      have := hset m hm
      omega
    -- the last bit of the byte of the highest bit that is set
    have hla : test bits (8 * (m / 8) + 7) = false := by
      cases hb : test bits (8 * (m / 8) + 7) with
      | false => rfl
      | true =>
        have := hmax _ hb
        omega
    have hby : bits.getD (m / 8) 0 ≠ 0 := by
      intro hz
      rw [(byte_eq_zero_iff bits _).1 hz m rfl] at hm
      cases hm
    have hze : ∀ j, m / 8 < j → j ≤ m / 8 + (k / 8 - m / 8) → bits.getD j 0 = 0 := by
      intro j hj _
      refine (byte_eq_zero_iff bits j).2 fun i hi => ?_
      cases hb : test bits i with
      | false => rfl
      | true =>
        have := hmax i hb
        omega
    have hs := shrink_bytes (n := k + 1) (by omega) hby hla (k / 8 - m / 8) (by omega) (by omega) hze
    rw [show 8 * (m / 8 + (k / 8 - m / 8) + 1) = k + 1 by omega] at hs
    refine ⟨_, hs, by omega, by omega, hla, fun j hj => ?_⟩
    have := hmax j hj
    omega
  · refine ⟨k + 1, shrink_of_free (by omega) hfr (fun h => absurd h hmod), le_rfl, by omega, hfr, hset⟩

/-- The next index after an index was cleared: still the least free one. -/
theorem next_after_put (h : b.Coherent) {index : Nat} (hbit : ∀ i, test bits i = (b.isSet i && decide (i ≠ index))) :
    (∀ i < min index b.nextIndex, test bits i = true) ∧ test bits (min index b.nextIndex) = false := by
  constructor
  · intro i hi
    rw [hbit, h.below_next i (by omega)]
    simpa using (by omega : i ≠ index)
  · rw [hbit]
    rcases le_total index b.nextIndex with hle | hle
    · rw [min_eq_left hle]
      simp
    · rw [min_eq_right hle, h.next_not_set]
      rfl

/-- `put` clears the bit of the descriptor's index, and no other. -/
theorem put_spec (h : b.Coherent) {socket : Int} (hset : b.isSet (indexOf b.highest socket) = true)
    (hsf : indexOf b.highest socket + 1 = b.bitLength → b.bitLength % 8 = 0 →
      ∃ m, m ≠ indexOf b.highest socket ∧ b.isSet m = true ∧
        (∀ j, j ≠ indexOf b.highest socket → b.isSet j = true → j ≤ m) ∧ m % 8 ≠ 7) :
    ∃ b', b.put socket = some b' ∧ b'.Coherent ∧ b'.highest = b.highest ∧
      ∀ i, b'.isSet i = (b.isSet i && decide (i ≠ indexOf b.highest socket)) := by
  generalize hidx : indexOf b.highest socket = index at hset hsf
  obtain ⟨bits, hbt, hlen⟩ := h.array
  have hlt := h.set_lt _ hset
  have hin : index / 8 < bits.length := by omega
  generalize hcle : bits.set (index / 8) (bits.getD (index / 8) 0 &&& ~~~(mask index)) = cleared
  have hbit : ∀ i, test cleared i = (b.isSet i && decide (i ≠ index)) := by
    intro i
    rw [← hcle, test_set_and hin, isSet_of_bits hbt]
  have hclean : cleared.length = (b.bitLength + 7) / 8 := by rw [← hcle, length_set, hlen]
  have hset_ : ∀ j, test cleared j = true → j < b.bitLength := by
    intro j hj
    rw [hbit, and_eq_true] at hj
    exact h.set_lt j hj.1
  obtain ⟨hbel, hfr⟩ := next_after_put h hbit
  have hmin : (if index < b.nextIndex then index else b.nextIndex) = min index b.nextIndex := by
    rw [min_def]
    split <;> split <;> omega
  have hput : b.put socket = if index + 1 = b.bitLength then (shrink cleared b.bitLength b.bitLength).bind (fun bitLength =>
      some ⟨min index b.nextIndex, resize cleared ((b.bitLength + 7) / 8) ((bitLength + 7) / 8), bitLength, b.highest⟩)
      else some ⟨min index b.nextIndex, some cleared, b.bitLength, b.highest⟩ := by
    simp only [put, hidx, hbt, bind_eq_bind, bind_some, getElem?_eq_some_getD hin, hcle, hmin]
  by_cases hla : index + 1 = b.bitLength
  · rw [← hla] at hclean hset_
    obtain ⟨n, hn, hle, hpos, htop, hall⟩ := shrink_spec hclean hset_ (by rw [hbit]; simp) (fun hmod => by
      obtain ⟨m, hne, hm, hmax, h7⟩ := hsf hla (hla ▸ hmod)
      refine ⟨m, by simp [hbit, hm, hne], fun j hj => ?_, h7⟩
      rw [hbit, and_eq_true, decide_eq_true_eq] at hj
      exact hmax j hj.2 hj.1)
    have hres : resize cleared ((b.bitLength + 7) / 8) ((n + 7) / 8) = some (cleared.take ((n + 7) / 8)) := by
      rw [← hla, ← hclean]
      exact resize_eq (by omega) (by omega)
    have hkept : ∀ i, test (cleared.take ((n + 7) / 8)) i = test cleared i := by
      intro i
      rw [test_take]
      cases hi : test cleared i with
      | false => rfl
      | true =>
        have := hall i hi
        simpa using (by omega : i / 8 < (n + 7) / 8)
    -- a free index is left below the new length, so the next index is not beyond it
    have hnx : min index b.nextIndex ≤ n - 1 := by
      by_contra hgt
      rw [hbel (n - 1) (by omega)] at htop
      cases htop
    refine ⟨⟨min index b.nextIndex, some (cleared.take ((n + 7) / 8)), n, b.highest⟩, ?_, ⟨?_, ?_, ?_, ?_, ?_⟩, rfl, fun i => ?_⟩
    · rw [hput, if_pos hla, ← hla, hn, bind_some, hla, hres]
    · rw [map_some, length_take]
      exact congrArg some (min_eq_left (by omega))
    · intro i hi
      rw [isSet_some, hkept] at hi
      exact hall i hi
    · show min index b.nextIndex ≤ n
      omega
    · intro i hi
      rw [isSet_some, hkept]
      exact hbel i hi
    · intro _
      rw [isSet_some, hkept]
      exact hfr
    · rw [isSet_some, hkept, hbit]
  · refine ⟨⟨min index b.nextIndex, some cleared, b.bitLength, b.highest⟩, ?_, ⟨?_, hset_, ?_, hbel, fun _ => hfr⟩, rfl, hbit⟩
    · rw [hput, if_neg hla]
    · rw [map_some, hclean]
    · show min index b.nextIndex ≤ b.bitLength
      omega

/-- A descriptor stands for the index it was made from. -/
theorem indexOf_int32 (highest : Int) (hi : i < 2 ^ 31) : indexOf highest (int32 (highest - i)) = i := by
  unfold indexOf int32
  rw [Int.sub_bmod_bmod, Int.bmod_eq_of_le_mul_two (by omega) (by omega)]
  omega

end SocketBitmap

/-! ## Runs -/

namespace SocketUse

open SocketBitmap

/-- What a run of safe steps keeps: the bitmap is coherent, the bits set are those of the descriptors outstanding, and each of
these is the descriptor of its index. -/
structure Kept (rlimCur : Nat) (s : SocketUse) : Prop where
  coherent : s.bitmap.Coherent
  distinct : s.outstanding.Nodup
  isSet_iff : ∀ i, s.bitmap.isSet i = true ↔ ∃ fd ∈ s.outstanding, s.index fd = i
  fd_eq : ∀ fd ∈ s.outstanding, fd = int32 (s.bitmap.highest - s.index fd)
  highest : s.bitmap.highest = highestOf rlimCur ∨ s.bitmap.highest = -1 ∧ s.outstanding = []

variable {rlimCur : Nat} {s : SocketUse}

theorem Kept.sound (h : s.Kept rlimCur) : s.Sound where
  distinct := h.distinct
  isSet_iff := h.isSet_iff
  index_lt := fun fd hfd => h.coherent.set_lt _ ((h.isSet_iff _).2 ⟨fd, hfd, rfl⟩)
  bytes := h.coherent.bytes
  next_le := h.coherent.next_le
  below_next := h.coherent.below_next
  next_free := h.coherent.next_free

theorem kept_init (rlimCur : Nat) : (socketMachine rlimCur).init.Kept rlimCur where
  coherent := ⟨by simp [socketMachine, init], fun i hi => by simp [socketMachine, init, isSet] at hi, le_rfl, nofun, nofun⟩
  distinct := nodup_nil
  isSet_iff := fun i => by simp [socketMachine, init, isSet]
  fd_eq := nofun
  highest := .inr ⟨rfl, rfl⟩

/-- Once a descriptor is outstanding the limit is not asked for again. -/
theorem Kept.highest_of_mem (h : s.Kept rlimCur) {fd : Int} (hfd : fd ∈ s.outstanding) :
    s.bitmap.highest = highestOf rlimCur := by
  rcases h.highest with hh | ⟨-, hnil⟩
  · exact hh
  · rw [hnil] at hfd
    cases hfd

/-- Taking a descriptor: there is one to take, and it is new. -/
theorem Kept.get (h : s.Kept rlimCur) (hnx : s.bitmap.nextIndex < 2 ^ 31) :
    ∃ s', (socketMachine rlimCur).step s .get = some s' ∧ s'.Kept rlimCur := by
  obtain ⟨b', hget, hco, hhg, hbit⟩ := get_spec rlimCur h.coherent
  have hb' : b'.highest = highestOf rlimCur := by
    rw [hhg]
    split
    · rfl
    · rename_i hne
      exact h.highest.resolve_right fun hr => hne hr.1
  have hidx : ∀ fd ∈ s.outstanding, indexOf b'.highest fd = s.index fd := by
    intro fd hfd
    rw [index, hb', h.highest_of_mem hfd]
  have hnew : indexOf b'.highest (int32 (b'.highest - s.bitmap.nextIndex)) = s.bitmap.nextIndex := indexOf_int32 _ hnx
  refine ⟨⟨b', int32 (b'.highest - s.bitmap.nextIndex) :: s.outstanding⟩, ?_, hco, ?_, ?_, ?_, .inl hb'⟩
  · simp only [socketMachine, hget, map_some]
  · refine nodup_cons.2 ⟨fun hmem => ?_, h.distinct⟩
    -- it would be outstanding already, and its bit set
    have hs := (h.isSet_iff s.bitmap.nextIndex).2 ⟨_, hmem, by rw [← hidx _ hmem, hnew]⟩
    rw [h.coherent.next_not_set] at hs
    cases hs
  · intro i
    rw [hbit, or_eq_true, decide_eq_true_eq, h.isSet_iff]
    constructor
    · rintro (⟨fd, hfd, hi⟩ | rfl)
      · exact ⟨fd, mem_cons_of_mem _ hfd, (hidx fd hfd).trans hi⟩
      · exact ⟨_, mem_cons_self, hnew⟩
    · rintro ⟨fd, hfd, hi⟩
      rcases mem_cons.1 hfd with rfl | hfd
      · exact .inr (hi.symm.trans hnew)
      · exact .inl ⟨fd, hfd, (hidx fd hfd).symm.trans hi⟩
  · intro fd hfd
    show fd = int32 (b'.highest - (indexOf b'.highest fd : Nat))
    rcases mem_cons.1 hfd with rfl | hfd
    · rw [hnew]
    · rw [hb', ← h.highest_of_mem hfd]
      exact h.fd_eq fd hfd

/-- Distinct descriptors have distinct indices. -/
theorem Kept.eq_of_index_eq (h : s.Kept rlimCur) {fd fd' : Int} (hfd : fd ∈ s.outstanding) (hfd' : fd' ∈ s.outstanding)
    (he : s.index fd = s.index fd') : fd = fd' := by
  rw [h.fd_eq fd hfd, h.fd_eq fd' hfd', he]

/-- Putting a descriptor back that is outstanding, when that is safe. -/
theorem Kept.put (h : s.Kept rlimCur) {socket : Int} (hmem : socket ∈ s.outstanding) (hsf : s.Safe (.put socket)) :
    ∃ s', (socketMachine rlimCur).step s (.put socket) = some s' ∧ s'.Kept rlimCur := by
  have hset := (h.isSet_iff (s.index socket)).2 ⟨socket, hmem, rfl⟩
  -- a bit other than that of the descriptor is that of another one
  have hoth : ∀ j, j ≠ s.index socket → s.bitmap.isSet j = true → ∃ fd ∈ s.outstanding.erase socket, s.index fd = j := by
    intro j hj hs
    obtain ⟨fd, hfd, rfl⟩ := (h.isSet_iff j).1 hs
    have hne : fd ≠ socket := fun e => hj (by rw [e])
    exact ⟨fd, (mem_erase_of_ne hne).2 hfd, rfl⟩
  have hrs : ∀ fd ∈ s.outstanding.erase socket, fd ∈ s.outstanding ∧ s.index fd ≠ s.index socket := by
    intro fd hfd
    have hm := mem_of_mem_erase hfd
    refine ⟨hm, fun he => ?_⟩
    rw [h.eq_of_index_eq hm hmem he] at hfd
    exact h.distinct.not_mem_erase hfd
  obtain ⟨b', hput, hco, hhg, hbit⟩ := put_spec h.coherent hset (fun hla hmod => by
    obtain ⟨fd, hfd, hmax, h7⟩ := hsf hla hmod
    refine ⟨s.index fd, (hrs fd hfd).2, (h.isSet_iff _).2 ⟨fd, (hrs fd hfd).1, rfl⟩, fun j hj hs => ?_, h7⟩
    obtain ⟨fd', hfd', rfl⟩ := hoth j hj hs
    exact hmax fd' hfd')
  have hidx : ∀ fd, indexOf b'.highest fd = s.index fd := fun fd => by rw [index, hhg]
  refine ⟨⟨b', s.outstanding.erase socket⟩, ?_, hco, h.distinct.erase _, ?_, ?_, ?_⟩
  · simp only [socketMachine, if_pos hmem, hput, map_some]
  · intro i
    rw [hbit, and_eq_true, decide_eq_true_eq]
    constructor
    · rintro ⟨hs, hne⟩
      obtain ⟨fd, hfd, hi⟩ := hoth i hne hs
      exact ⟨fd, hfd, (hidx fd).trans hi⟩
    · rintro ⟨fd, hfd, hi⟩
      obtain ⟨hm, hne⟩ := hrs fd hfd
      have hi' : s.index fd = i := (hidx fd).symm.trans hi
      exact ⟨(h.isSet_iff i).2 ⟨fd, hm, hi'⟩, fun e => hne (hi'.trans e)⟩
  · intro fd hfd
    show fd = int32 (b'.highest - (indexOf b'.highest fd : Nat))
    rw [hhg]
    exact h.fd_eq fd (hrs fd hfd).1
  · exact .inl (hhg.trans (h.highest_of_mem hmem))

/-- A safe step can be taken when its descriptor is outstanding, and keeps what is kept. -/
theorem Kept.step {s s' : SocketUse} (h : s.Kept rlimCur) {a : SocketAction} (hsf : s.Safe a)
    (hs : (socketMachine rlimCur).step s a = some s') : s'.Kept rlimCur := by
  cases a with
  | get =>
    obtain ⟨t, ht, hk⟩ := h.get hsf
    rw [ht] at hs
    exact some.inj hs ▸ hk
  | put socket =>
    by_cases hmem : socket ∈ s.outstanding
    · obtain ⟨t, ht, hk⟩ := h.put hmem hsf
      rw [ht] at hs
      exact some.inj hs ▸ hk
    · simp only [socketMachine, if_neg hmem] at hs
      cases hs

theorem kept_of_reaches (h : (socketMachine rlimCur).Reaches Safe s) : s.Kept rlimCur :=
  h.invariant (kept_init rlimCur) fun hk => hk.step

/-- In every state that safe steps reach the allocator is sound; and there a safe call never reaches outside the array: a
descriptor can be taken, and one that is outstanding can be put back. -/
theorem sound_of_safe_steps (rlimCur : Nat) (s : SocketUse) (h : (socketMachine rlimCur).Reaches Safe s) :
    s.Sound ∧ (s.Safe .get → ((socketMachine rlimCur).step s .get).isSome = true) ∧
      ∀ socket ∈ s.outstanding, s.Safe (.put socket) → ((socketMachine rlimCur).step s (.put socket)).isSome = true := by
  have hk := kept_of_reaches h
  refine ⟨hk.sound, fun hsf => ?_, fun socket hmem hsf => ?_⟩
  · obtain ⟨t, ht, -⟩ := hk.get hsf
    rw [ht]
    rfl
  · obtain ⟨t, ht, -⟩ := hk.put hmem hsf
    rw [ht]
    rfl

/-- Nine descriptors are taken and three put back, one of them the last. -/
theorem sound_of_safe_steps_nine : ∃ s, (socketMachine 1024).Reaches Safe s ∧ s.outstanding.length = 6 ∧ s.Sound := by
  refine (Machine.exists_reaches_of_runOk Safe (replicate 9 .get ++ [.put 1015, .put 1020, .put 1018]) ?_).imp
    fun s h => ⟨h.1, h.2, (sound_of_safe_steps 1024 s h.1).1⟩
  decide +kernel

/-- Sixteen descriptors are taken, and the eight of the second byte are put back, the last one last. The byte is taken off, and
then all the bits in use: the length is zero and the array is freed while eight descriptors are outstanding. -/
theorem not_sound_after_shrink : ∃ s, (socketMachine 1024).Reachable s ∧ ¬ s.Sound := by
  obtain ⟨s, hs, hlen, hze⟩ := Machine.exists_reachable_of_run (M := socketMachine 1024)
    (replicate 16 .get ++ [.put 1015, .put 1014, .put 1013, .put 1012, .put 1011, .put 1010, .put 1009, .put 1008])
    (P := fun s => s.outstanding.length = 8 ∧ s.bitmap.bitLength = 0) (by decide +kernel)
  refine ⟨s, hs, fun hsound => ?_⟩
  obtain ⟨fd, hfd⟩ := exists_mem_of_length_pos (l := s.outstanding) (by omega)
  have := hsound.index_lt fd hfd
  omega

end SocketUse

end Osxie.Mldr
