import Mathlib.Algebra.Order.Ring.Int

/-!
# Four-character codes

`UTCreateStringForOSType` stops before the last byte of a code, and `UTGetOSTypeFromString` shifts once too often. What
launchservicesd stores comes from a third function, which writes all four bytes.
-/

namespace Osxie.LaunchServices

open List

/-- `(code >> shift) & 0xff`. -/
def byteAt (code shift : Nat) : Nat := code / 2 ^ shift % 256

/-- `CFStringCreateWithCString` and `stringWithCString:` of ASCII characters. -/
def ofCString (buf : List Nat) : List Nat := buf.takeWhile (· ≠ 0)

/-- The loop of `UTCreateStringForOSType` with `shift` at `8 * rounds`. -/
def writeBytes (inOSType : Nat) : Nat → List Nat
  | 0 => []
  | rounds + 1 => byteAt inOSType (8 * (rounds + 1)) :: writeBytes inOSType rounds

def utCreateStringForOSType (inOSType : Nat) : List Nat := ofCString (writeBytes inOSType 3 ++ [0])

/-- One round of the loop of `UTGetOSTypeFromString`. -/
def readByte (str : List Nat) (retval i : Nat) : Nat := (retval ||| str[i]?.getD 0 % 256) * 2 ^ 8 % 2 ^ 32

def utGetOSTypeFromString : Option (List Nat) → Nat
  | none => 0
  | some str => if 4 < str.length then 0 else (range 4).foldl (readByte str) 0

/-- `+[LSBundle fourcc:]`. -/
def fourcc (code : Nat) : List Nat := ofCString [byteAt code 24, byteAt code 16, byteAt code 8, byteAt code 0, 0]

/-- A code of four characters. -/
structure IsOSType (code : Nat) : Prop where
  lt : code < 2 ^ 32
  ascii : ∀ shift ∈ [24, 16, 8, 0], byteAt code shift < 128

theorem readByte_mul (str : List Nat) (r i : Nat) :
    readByte str (2 ^ 8 * r % 2 ^ 32) i = 2 ^ 8 * (2 ^ 8 * r + str[i]?.getD 0 % 256) % 2 ^ 32 := by
  have hdvd : 2 ^ 8 * r % 2 ^ 32 = 2 ^ 8 * (r % 2 ^ 24) := by omega
  have hlt : str[i]?.getD 0 % 256 < 2 ^ 8 := Nat.mod_lt _ (by decide)
  rw [readByte, hdvd, ← Nat.two_pow_add_eq_or_of_lt hlt]
  omega

/-- The first character is shifted out. -/
theorem foldl_readByte (str : List Nat) : (range 4).foldl (readByte str) 0 =
    2 ^ 24 * (str[1]?.getD 0 % 256) + 2 ^ 16 * (str[2]?.getD 0 % 256) + 2 ^ 8 * (str[3]?.getD 0 % 256) := by
  have hfirst : readByte str 0 0 = 2 ^ 8 * (str[0]?.getD 0 % 256) % 2 ^ 32 := by simpa using readByte_mul str 0 0
  change readByte str (readByte str (readByte str (readByte str 0 0) 1) 2) 3 = _
  rw [hfirst, readByte_mul, readByte_mul, readByte_mul]
  omega

/-- The string of a query is the stored one only for codes with a zero byte, and only zero is read back from its string. -/
theorem codes_right_iff {code : Nat} (h : IsOSType code) :
    (utCreateStringForOSType code = fourcc code ↔ ∃ shift ∈ [24, 16, 8, 0], byteAt code shift = 0) ∧
      (utGetOSTypeFromString (some (fourcc code)) = code ↔ code = 0) := by
  have hlt (shift : Nat) : byteAt code shift < 256 := Nat.mod_lt _ (by decide)
  have hbytes := And.intro (And.intro (hlt 24) (hlt 16)) (And.intro (hlt 8) (hlt 0))
  have hcode : code = 2 ^ 24 * byteAt code 24 + 2 ^ 16 * byteAt code 16 + 2 ^ 8 * byteAt code 8 + byteAt code 0 := by
    have := h.lt
    simp only [byteAt]
    omega
  simp only [utCreateStringForOSType, writeBytes, fourcc, ofCString, utGetOSTypeFromString, foldl_readByte]
  by_cases ha : byteAt code 24 = 0
  · simp [ha]
    omega
  by_cases hb : byteAt code 16 = 0
  · simp [ha, hb]
    omega
  by_cases hc : byteAt code 8 = 0
  · simp [ha, hb, hc]
    omega
  by_cases hd : byteAt code 0 = 0
  · simp [ha, hb, hc, hd]
    omega
  · simp [ha, hb, hc, hd]
    omega

/-- A code of three characters and a zero byte. -/
theorem codes_right_iff_three : utCreateStringForOSType 0x54585400 = fourcc 0x54585400 :=
  (codes_right_iff ⟨by decide, by decide⟩).1.2 (by decide)

theorem osType_not_stored : utCreateStringForOSType 0x6f736178 = [0x6f, 0x73, 0x61] ∧
    fourcc 0x6f736178 = [0x6f, 0x73, 0x61, 0x78] ∧ utGetOSTypeFromString (some (fourcc 0x6f736178)) = 0x73617800 := by decide

end Osxie.LaunchServices
