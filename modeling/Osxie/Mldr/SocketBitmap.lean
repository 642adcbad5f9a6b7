import Osxie.Lib.Machine

/-!
# The bitmap of RPC descriptors

The threads of a process take the descriptors of their RPC sockets from the top of the descriptor table downwards: the bit at an
index of the bitmap stands for the descriptor `highest - index`. `socket_bitmap_get` takes the least free index, and adds a bit
when there is none. `socket_bitmap_put` clears a bit, and when it was the last one it takes bits off the end, whole bytes at a
time where it can.

An access outside the array, or to an array that was freed, has no result here. The limit of the process does not change, and
allocations succeed; an allocation of no bytes frees the array and returns nothing.
-/

namespace Osxie.Mldr

def int32 (n : Int) : Int := n.bmod (2 ^ 32)

/-- `socket_bitmap_t`. The array is none once it has been freed; the null pointer is an array of no bytes. -/
structure SocketBitmap where
  nextIndex : Nat
  bits : Option (List (BitVec 8))
  bitLength : Nat
  highest : Int
deriving DecidableEq

variable (rlimCur : Nat)

namespace SocketBitmap

def init : SocketBitmap := ⟨0, some [], 0, -1⟩

/-- `1 << (index % 8)`. -/
def mask (index : Nat) : BitVec 8 := 1#8 <<< (index % 8)

def rlimInfinity : Nat := 2 ^ 64 - 1

/-- The index of the first descriptor, from the current limit. -/
def highestOf : Int := int32 ((if rlimCur = rlimInfinity then 1024 else rlimCur) - 1)

/-- `realloc`, to at least one byte. New bytes are written before they are read. -/
def realloc (bytes : List (BitVec 8)) (size : Nat) : List (BitVec 8) := bytes.take size ++ List.replicate (size - bytes.length) 0

/-- Growing by one bit: the array, with a new byte when the last one is full. -/
def grow (bits : List (BitVec 8)) (bitLength : Nat) : List (BitVec 8) :=
  if bitLength % 8 = 0 then (realloc bits (bitLength / 8 + 1)).set (bitLength / 8) 0 else bits

/-- The loop that looks for the next free index; `bitLength` when there is none. -/
def findFree (bits : List (BitVec 8)) (bitLength : Nat) : Nat → Nat → Option Nat
  | 0, _ => some bitLength
  | n + 1, i =>
    if i < bitLength then
      bits[i / 8]?.bind fun byte =>
        if i % 8 = 0 ∧ byte = 0xff then findFree bits bitLength n (i + 8)
        else if byte &&& mask i = 0 then some i
        else findFree bits bitLength n (i + 1)
    else some bitLength

variable (b : SocketBitmap)

/-- `socket_bitmap_get`: the descriptor, and the bitmap afterwards. -/
def get : Option (Int × SocketBitmap) := do
  let highest := if b.highest = -1 then highestOf rlimCur else b.highest
  let bits ← b.bits
  let (bits, bitLength) :=
    if b.bitLength ≤ b.nextIndex then (grow bits b.bitLength, b.bitLength + 1) else (bits, b.bitLength)
  let fd := int32 (highest - b.nextIndex)
  let byte ← bits[b.nextIndex / 8]?
  let bits := bits.set (b.nextIndex / 8) (byte ||| mask b.nextIndex)
  let nextIndex ← findFree bits bitLength bitLength (b.nextIndex + 1)
  some (fd, ⟨nextIndex, some bits, bitLength, highest⟩)

/-- The loop that takes bits off the end: the bit length after it. -/
def shrink (bits : List (BitVec 8)) : Nat → Nat → Option Nat
  | 0, bitLength => some bitLength
  | n + 1, bitLength =>
    if 0 < bitLength then
      if bitLength % 8 = 0 ∧ bits[bitLength / 8 - 1]? = some 0 then shrink bits n (bitLength - 8)
      else
        bits[(bitLength - 1) / 8]?.bind fun byte =>
          -- the comment in the source calls this bit in use
          if byte &&& mask (bitLength - 1) = 0 then some bitLength
          else shrink bits n (bitLength - 1)
    else some bitLength

/-- The index of a descriptor, a size_t. -/
def indexOf (highest socket : Int) : Nat := (int32 (highest - socket) % 2 ^ 64).toNat

def resize (bits : List (BitVec 8)) (oldByteSize newByteSize : Nat) : Option (List (BitVec 8)) :=
  if oldByteSize = newByteSize then some bits
  else if newByteSize = 0 then none
  else some (realloc bits newByteSize)

def put (socket : Int) : Option SocketBitmap := do
  let index := indexOf b.highest socket
  let bits ← b.bits
  let byte ← bits[index / 8]?
  let bits := bits.set (index / 8) (byte &&& ~~~(mask index))
  let nextIndex := if index < b.nextIndex then index else b.nextIndex
  if index + 1 = b.bitLength then
    let bitLength ← shrink bits b.bitLength b.bitLength
    some ⟨nextIndex, resize bits ((b.bitLength + 7) / 8) ((bitLength + 7) / 8), bitLength, b.highest⟩
  else some ⟨nextIndex, some bits, b.bitLength, b.highest⟩

def isSet (i : Nat) : Bool :=
  match b.bits with
  | some bits => (bits.getD (i / 8) 0).getLsbD (i % 8)
  | none => false

end SocketBitmap

/-! ## Runs -/

/-- The bitmap, and the descriptors that were taken and not put back. -/
structure SocketUse where
  bitmap : SocketBitmap
  outstanding : List Int
deriving DecidableEq

inductive SocketAction where
  | get
  | put (socket : Int)
deriving DecidableEq

/-- Descriptors are taken, and those outstanding are put back. -/
def socketMachine : Machine SocketUse SocketAction where
  init := ⟨.init, []⟩
  step s
    | .get => (s.bitmap.get rlimCur).map fun r => ⟨r.2, r.1 :: s.outstanding⟩
    | .put socket =>
      if socket ∈ s.outstanding then (s.bitmap.put socket).map fun b => ⟨b, s.outstanding.erase socket⟩ else none

namespace SocketUse

variable (s : SocketUse)

def index (socket : Int) : Nat := SocketBitmap.indexOf s.bitmap.highest socket

/-- What is asked of the allocator: the descriptors outstanding are distinct, the bits set are theirs and lie below the length,
the array has the bytes for the length, and the next index is the least free one. -/
structure Sound (s : SocketUse) : Prop where
  distinct : s.outstanding.Nodup
  isSet_iff : ∀ i, s.bitmap.isSet i = true ↔ ∃ fd ∈ s.outstanding, s.index fd = i
  index_lt : ∀ fd ∈ s.outstanding, s.index fd < s.bitmap.bitLength
  bytes : s.bitmap.bits.map List.length = some ((s.bitmap.bitLength + 7) / 8)
  next_le : s.bitmap.nextIndex ≤ s.bitmap.bitLength
  below_next : ∀ i < s.bitmap.nextIndex, s.bitmap.isSet i = true
  next_free : s.bitmap.nextIndex < s.bitmap.bitLength → s.bitmap.isSet s.bitmap.nextIndex = false

/-- What the allocator gets right: indices stay in the range of int; and when the last bit of a full byte is put back, some
descriptor stays outstanding, and the highest index that does is not the last of a byte. -/
def Safe : SocketAction → Prop
  | .get => s.bitmap.nextIndex < 2 ^ 31
  | .put socket => s.index socket + 1 = s.bitmap.bitLength → s.bitmap.bitLength % 8 = 0 →
    ∃ fd ∈ s.outstanding.erase socket, (∀ fd' ∈ s.outstanding.erase socket, s.index fd' ≤ s.index fd) ∧ s.index fd % 8 ≠ 7

instance (a : SocketAction) : Decidable (s.Safe a) := by
  cases a <;> unfold Safe <;> infer_instance

end SocketUse

end Osxie.Mldr
