import Mathlib.Data.List.Forall2
import Mathlib.Data.Nat.Digits.Lemmas
import Mathlib.Tactic.FinCases

/-!
# Partitions of a GPT disk

`GPTDisk` recognises a partition by the text of its type's GUID, which `makeGUID` writes into a stream. The width set on a
stream holds for the next insertion only, so that the third number of a GUID is written without leading zeros.
-/

namespace Osxie.Dmg

open List Nat

structure GptGuid where
  data1 : UInt32
  data2 : UInt16
  data3 : UInt16
  data4 : Fin 8 → UInt8
deriving DecidableEq

/-- `std::stringstream`, with the fill character 0. -/
structure TextStream where
  text : List Char
  width : Nat

def TextStream.setw (s : TextStream) (width : Nat) : TextStream := { s with width }

/-- An insertion, which resets the width. -/
def TextStream.put (s : TextStream) (cs : List Char) : TextStream := ⟨s.text ++ replicate (s.width - cs.length) '0' ++ cs, 0⟩

def hexDigit (d : Nat) : Char := "0123456789ABCDEF".toList.getD d '0'

/-- A number in `std::hex` and `std::uppercase`. -/
def hexText (n : Nat) : List Char := if n = 0 then ['0'] else ((digits 16 n).map hexDigit).reverse

variable (guid : GptGuid) (third : List Char)

def makeGUID : List Char :=
  let ss := (((TextStream.mk [] 0).setw 8).put (hexText guid.data1.toNat)).put ['-']
  let ss := (((ss.setw 4).put (hexText guid.data2.toNat)).put ['-']).put (hexText guid.data3.toNat)
  let ss := (finRange 8).foldl (fun ss i =>
    let ss := (ss.setw 2).put (hexText (guid.data4 i).toNat)
    if i = 1 then ss.put ['-'] else ss) (ss.put ['-'])
  ss.text

def guidEmpty : List Char := "00000000-0000-0000-0000-000000000000".toList

def guidHFSPlus : List Char := "48465300-0000-11AA-AA11-00306543ECAC".toList

structure GptPartition where
  typeGUID : GptGuid
  firstLBA : UInt64
  lastLBA : UInt64
  name : Fin 36 → UInt16

structure DiskPartition where
  name : List UInt8
  type : List Char
  size : UInt64
  offset : UInt64

/-- `GPTDisk::loadPartitions`, for the entries that were read. -/
def loadPartitions (parts : List GptPartition) : List DiskPartition :=
  parts.map fun part =>
    let typeGUID := makeGUID part.typeGUID
    { name := ((ofFn part.name).map (·.toUInt8)).takeWhile (· ≠ 0)
      size := (part.lastLBA - part.firstLBA + 1) * 512
      offset := part.firstLBA * 512
      type := if typeGUID = guidEmpty then "Apple_Free".toList
        else if typeGUID = guidHFSPlus then "Apple_HFS".toList
        else typeGUID }

/-! ## The canonical form -/

def padded (width n : Nat) : List Char := replicate (width - (hexText n).length) '0' ++ hexText n

/-- The parts of the text, with some text for the third number. -/
def parts : List (List Char) :=
  [padded 8 guid.data1.toNat, ['-'], padded 4 guid.data2.toNat, ['-'], third, ['-'],
    padded 2 (guid.data4 0).toNat, padded 2 (guid.data4 1).toNat, ['-'], padded 2 (guid.data4 2).toNat,
    padded 2 (guid.data4 3).toNat, padded 2 (guid.data4 4).toNat, padded 2 (guid.data4 5).toNat,
    padded 2 (guid.data4 6).toNat, padded 2 (guid.data4 7).toNat]

/-- The form 8-4-4-4-12. -/
def canonical : List Char := (parts guid (padded 4 guid.data3.toNat)).flatten

theorem makeGUID_eq : makeGUID guid = (parts guid (hexText guid.data3.toNat)).flatten := by
  simp [makeGUID, parts, TextStream.put, TextStream.setw, padded, finRange_succ]

theorem length_hexText_le {n w : Nat} (hw : 0 < w) : (hexText n).length ≤ w ↔ n < 16 ^ w := by
  unfold hexText
  split_ifs with h
  · simp [h, succ_le_of_lt hw]
  · simp [digits_length_le_iff]

theorem length_padded {n w : Nat} (hw : 0 < w) (h : n < 16 ^ w) : (padded w n).length = w := by
  have := (length_hexText_le hw).2 h
  simp [padded]
  omega

theorem length_parts :
    (parts guid third).map length = [8, 1, 4, 1, third.length, 1, 2, 2, 1, 2, 2, 2, 2, 2, 2] := by
  have h2 (b : UInt8) := length_padded (w := 2) (by decide) b.toNat_lt
  simp [parts, h2, length_padded (w := 8) (by decide) guid.data1.toNat_lt, length_padded (w := 4) (by decide) guid.data2.toNat_lt]

/-- The number that a text stands for. -/
def value (cs : List Char) : Nat := ofDigits 16 (cs.reverse.map ("0123456789ABCDEF".toList.idxOf ·))

theorem value_padded (w n : Nat) : value (padded w n) = n := by
  have hdigit : ∀ d < 16, "0123456789ABCDEF".toList.idxOf (hexDigit d) = d := by decide
  have hmap : (digits 16 n).map (fun d => "0123456789ABCDEF".toList.idxOf (hexDigit d)) = digits 16 n :=
    (map_congr_left fun d hd => hdigit d (digits_lt_base (by decide) hd)).trans (map_id' _)
  have hze : "0123456789ABCDEF".toList.idxOf '0' = 0 := rfl
  unfold value padded hexText
  split_ifs with h
  · simp only [reverse_append, map_append, reverse_replicate, map_replicate, hze, ofDigits_append_replicate_zero]
    simp [h]
  · simp only [reverse_append, map_append, reverse_replicate, map_replicate, hze, ofDigits_append_replicate_zero,
      reverse_reverse, map_map, Function.comp_def, hmap, ofDigits_digits]

theorem padded_injective {w m n : Nat} (h : padded w m = padded w n) : m = n := by
  rw [← value_padded w m, h, value_padded]

theorem canonical_injective {guid guid' : GptGuid} (h : canonical guid = canonical guid') : guid = guid' := by
  have h4 (b : UInt16) := length_padded (w := 4) (by decide) b.toNat_lt
  have hpar := eq_iff_flatten_eq.2 ⟨h, by simp only [length_parts, h4]⟩
  simp only [parts, cons.injEq, and_true, true_and] at hpar
  obtain ⟨h1, h2, h3, hb⟩ := hpar
  have hda (i : Fin 8) : padded 2 (guid.data4 i).toNat = padded 2 (guid'.data4 i).toNat := by
    fin_cases i <;> simp [hb]
  cases guid
  cases guid'
  simp only [GptGuid.mk.injEq]
  exact ⟨UInt32.toNat_inj.1 (padded_injective h1), UInt16.toNat_inj.1 (padded_injective h2),
    UInt16.toNat_inj.1 (padded_injective h3), funext fun i => UInt8.toNat_inj.1 (padded_injective (hda i))⟩

/-- The text is as long as the canonical one just when the third number has four digits, and then it is that. -/
theorem makeGUID_canonical : ((makeGUID guid).length = 36 ↔ 0x1000 ≤ guid.data3.toNat) ∧
    (0x1000 ≤ guid.data3.toNat → makeGUID guid = canonical guid) := by
  have hle := (length_hexText_le (w := 4) (by decide)).2 guid.data3.toNat_lt
  have hlt := length_hexText_le (n := guid.data3.toNat) (w := 3) (by decide)
  constructor
  · rw [makeGUID_eq, length_flatten, length_parts]
    simp only [sum_cons, sum_nil]
    omega
  · intro h
    have : 4 - (hexText guid.data3.toNat).length = 0 := by omega
    rw [makeGUID_eq, canonical, padded, this, replicate_zero, nil_append]

def hfsPlus : GptGuid := ⟨0x48465300, 0, 0x11AA, [0xAA, 0x11, 0x00, 0x30, 0x65, 0x43, 0xEC, 0xAC].get⟩

/-- The text of a GUID is canonical and no other GUID has it, and a partition is marked by its GUID. -/
structure Classified (part : GptPartition) (p : DiskPartition) : Prop where
  text : makeGUID part.typeGUID = canonical part.typeGUID ∧ (makeGUID part.typeGUID).length = 36
  injective : ∀ guid, makeGUID guid = makeGUID part.typeGUID → guid = part.typeGUID
  free : p.type = "Apple_Free".toList ↔ part.typeGUID = ⟨0, 0, 0, fun _ => 0⟩
  hfs : p.type = "Apple_HFS".toList ↔ part.typeGUID = hfsPlus

/-- The entries of a table are classified just when the third number of each GUID has four digits. -/
theorem loadPartitions_classified_iff (table : List GptPartition) :
    Forall₂ Classified table (loadPartitions table) ↔ ∀ part ∈ table, 0x1000 ≤ part.typeGUID.data3.toNat := by
  rw [loadPartitions, forall₂_map_right_iff, forall₂_same]
  refine forall₂_congr fun part _ => ⟨fun h => (makeGUID_canonical _).1.1 h.text.2, fun h => ?_⟩
  have htext := (makeGUID_canonical part.typeGUID).2 h
  have hlen := (makeGUID_canonical part.typeGUID).1.2 h
  have hinj : ∀ guid, makeGUID guid = makeGUID part.typeGUID → guid = part.typeGUID := by
    intro guid heq
    have hg := (makeGUID_canonical guid).2 ((makeGUID_canonical guid).1.1 (by rw [heq, hlen]))
    exact canonical_injective (by rw [← hg, heq, htext])
  have hne {t : List Char} (ht : t.length ≠ 36) : makeGUID part.typeGUID ≠ t := by
    rintro rfl
    exact ht hlen
  have hze : part.typeGUID ≠ ⟨0, 0, 0, fun _ => 0⟩ := by
    intro h0
    simp [h0] at h
  have hemp : makeGUID part.typeGUID ≠ guidEmpty := by
    intro he
    rw [htext] at he
    exact hze (canonical_injective he)
  refine ⟨⟨htext, hlen⟩, hinj, ?_, ?_⟩ <;> simp only [if_neg hemp]
  · refine iff_of_false ?_ hze
    split_ifs
    · decide
    · exact hne (by decide)
  · rw [show guidHFSPlus = makeGUID hfsPlus by decide +kernel]
    split_ifs with hg
    · exact iff_of_true rfl (hinj _ hg.symm).symm
    · exact iff_of_false (hne (by decide)) fun h0 => hg (by rw [h0])

/-- The text of free space has three digits less. -/
theorem not_classified_of_free : ¬ Forall₂ Classified [⟨⟨0, 0, 0, fun _ => 0⟩, 0, 0, fun _ => 0⟩]
    (loadPartitions [⟨⟨0, 0, 0, fun _ => 0⟩, 0, 0, fun _ => 0⟩]) := by
  rintro (_ | ⟨h, -⟩)
  exact absurd h.text.2 (by decide +kernel)

end Osxie.Dmg
