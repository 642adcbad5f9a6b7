import Mathlib.Algebra.Order.Ring.Int
import Osxie.Lib.Slice
import Osxie.Shellspawn.Commands

/-!
# Strings of xtrace

A `String` has a buffer and a size that counts the NUL. One that is made as a copy has the size zero when the text is appended,
so that the text starts one byte in front of the buffer. The text that is appended lies outside the buffer: a `String` that is
appended to itself, whose text a reallocation may free, is left out.
-/

namespace Osxie.Xtrace

open List Shellspawn CString

structure TraceString where
  /-- As many bytes as `buffer_capacity`. -/
  buffer : List UInt8
  bufferSize : Nat

namespace TraceString

/-- New memory has `junk` in it. -/
def constructorInternal (junk : Nat → UInt8) : TraceString := ⟨0 :: span junk 1 1023, 1⟩

variable (s : TraceString) (junk : Nat → UInt8)

def cStr : List UInt8 := (ofBuffer s.buffer).bytes

/-- As a `size_t`, -1 is the largest value. -/
def size : Int := s.bufferSize - 1

def increaseCapacityInternal (n : Nat) : List UInt8 :=
  if s.bufferSize + n > s.buffer.length then
    s.buffer ++ span junk s.buffer.length ((s.bufferSize + n) / 1024 * 1024 + 1024)
  else s.buffer

/-- The text is written to `buffer + size()`: position `bufferSize` of a memory that starts one byte before the buffer. -/
def appendFormat (text : CString) : TraceString :=
  let buffer := s.increaseCapacityInternal junk text.bytes.length
  let memory := (0 :: buffer).take s.bufferSize ++ text.withNul ++ (0 :: buffer).drop (s.bufferSize + text.withNul.length)
  -- what is written outside of the buffer is not in it
  ⟨(memory.drop 1).take buffer.length, s.bufferSize + text.bytes.length⟩

def copy : TraceString := appendFormat ⟨span junk 0 s.buffer.length, 0⟩ junk (ofBuffer s.buffer)

/-- `append` and `append_format`, of a text that an `int` counts with its NUL; `copy` goes on with the copy. -/
inductive Action
  | append (junk : Nat → UInt8) (text : { text : CString // text.withNul.length < 2 ^ 31 })
  | clear (junk : Nat → UInt8)
  | copy (junk : Nat → UInt8)

/-- A string, with what was appended since the last clear. -/
def act (x : TraceString × List UInt8) : Action → TraceString × List UInt8
  | .append junk text => (x.1.appendFormat junk text, x.2 ++ text.1.bytes)
  | .clear junk => (constructorInternal junk, [])
  | .copy junk => (x.1.copy junk, x.2)

structure Right (x : TraceString × List UInt8) : Prop where
  cStr : x.1.cStr = x.2
  size : x.1.size = x.2.length
  capacity : x.1.size < x.1.buffer.length

structure Inv (x : TraceString × List UInt8) : Prop where
  noNul : 0 ∉ x.2
  bufferSize : x.1.bufferSize = x.2.length + 1
  buffer : ∃ rest, x.1.buffer = x.2 ++ 0 :: rest

variable {x : TraceString × List UInt8} {junk}

theorem Inv.right (h : Inv x) : Right x := by
  obtain ⟨rest, hbuf⟩ := h.buffer
  have hall : ∀ b ∈ x.2, decide (b ≠ 0) = true := fun b hb => decide_eq_true fun h0 => h.noNul (h0 ▸ hb)
  refine ⟨?_, ?_, ?_⟩
  · simp only [TraceString.cStr, ofBuffer, hbuf, takeWhile_append_of_pos hall]
    simp
  · simp [TraceString.size, h.bufferSize]
  · simp only [TraceString.size, h.bufferSize, hbuf, length_append, length_cons]
    omega

theorem Inv.append (h : Inv x) (text : CString) : Inv (x.1.appendFormat junk text, x.2 ++ text.bytes) := by
  have hroom : ∃ rest, x.1.increaseCapacityInternal junk text.bytes.length = x.2 ++ 0 :: rest ∧
      text.bytes.length ≤ rest.length := by
    obtain ⟨rest, hbuf⟩ := h.buffer
    have hlen := congrArg length hbuf
    rw [length_append, length_cons] at hlen
    unfold increaseCapacityInternal
    rw [h.bufferSize]
    split
    · refine ⟨rest ++ span junk _ _, by rw [hbuf, append_assoc, cons_append], ?_⟩
      rw [length_append, length_span]
      omega
    · exact ⟨rest, hbuf, by omega⟩
  obtain ⟨rest, heq, hle⟩ := hroom
  refine ⟨by simp [h.noNul, text.noNul], ?_, rest.drop text.bytes.length, ?_⟩
  · simp only [appendFormat, h.bufferSize, length_append]
    omega
  · have hdrop : (0 :: (x.2 ++ 0 :: rest)).drop (x.2.length + 1 + text.withNul.length) = rest.drop text.bytes.length := by
      rw [withNul, length_append, Nat.add_right_comm, drop_succ_cons, drop_length_add_append]
      rfl
    simp only [appendFormat, heq, h.bufferSize, hdrop, take_succ_cons, take_left, cons_append, drop_succ_cons, drop_zero]
    rw [take_of_length_le]
    · simp [withNul]
    · simp only [withNul, length_append, length_drop, length_cons, length_nil]
      omega

end TraceString

end Osxie.Xtrace
