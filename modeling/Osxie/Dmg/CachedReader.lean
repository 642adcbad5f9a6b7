import Osxie.Dmg.CacheZone
import Osxie.Lib.Machine

/-!
# Readers with a cache

`CachedReader::read` takes the blocks of the request that are in the zone, and puts off the stretches that are not until it
meets a block that is, or the end. `nonCachedRead` then reads the ranges that `adviseOptimalBlock` proposes from the backing
reader, stores their aligned blocks in the zone and copies what was asked for. An exception leaves the zone as it is at that
point.

Positions are 64-bit and wrap around. A loop of the source is a recursion on the bytes that are left, of which every round
handles one at least.
-/

namespace Osxie.Dmg

open CacheZone

def u64 (n : Nat) : Nat := n % 2 ^ 64

def int32Max : Nat := 2 ^ 31 - 1

structure Backing where
  length : Nat
  length_lt : length < 2 ^ 64
  byte : Nat → UInt8

namespace Backing

/-- The contents from a position on, so many bytes. -/
def slice (b : Backing) (offset count : Nat) : Buffer := fun i => if i < count then some (b.byte (offset + i)) else none

/-- `Reader::read`: how many bytes, and which. -/
def read (b : Backing) (count offset : Nat) : Nat × Buffer :=
  (min count (b.length - offset), b.slice offset (min count (b.length - offset)))

end Backing

variable {τ : Type} [DecidableEq τ]

/-- A cached reader: its backing reader, its tag, and the ranges its backing reader advises during a call. -/
structure CachedReader (τ : Type) where
  reader : Backing
  tag : τ
  advise : Nat → Nat × Nat

namespace CachedReader

open CacheZone

/-- The loop of `nonCachedRead` that stores the aligned blocks of a range. -/
def storeBlocks (r : CachedReader τ) (block : Buffer) (blockStart blockEnd : Nat) : Nat → Nat → CacheZone τ → CacheZone τ
  | 0, _, z => z
  | n + 1, cachePos, z =>
    if cachePos < blockEnd then
      r.storeBlocks block blockStart blockEnd n (u64 (cachePos + blockSize))
        (z.store ⟨cachePos / blockSize, r.tag⟩ (fun i => block (cachePos - blockStart + i)) (min (blockEnd - cachePos) blockSize))
    else z

/-- The loop of `CachedReader::nonCachedRead`, for the bytes from `offset` up to `offset + count`, which go to `bufPos`. -/
def nonCachedFrom (r : CachedReader τ) (bufPos count offset : Nat) :
    Nat → Nat → Buffer → CacheZone τ → Except String Buffer × CacheZone τ
  | 0, _, buf, z => (.ok buf, z)
  | n + 1, readPos, buf, z =>
    if readPos < u64 (offset + count) then
      let blockStart := (r.advise readPos).1
      let blockEnd := (r.advise readPos).2
      if readPos < blockStart ∨ blockEnd ≤ readPos then
        (.error "Illegal range returned by adviseOptimalBlock()", z)
      else if int32Max < blockEnd - blockStart then
        (.error "Range returned by adviseOptimalBlock() is too large", z)
      else
        let thistime := blockEnd - blockStart
        let rd := r.reader.read thistime blockStart
        if rd.1 < thistime then
          (.error "Short read from backing reader", z)
        else
          let cachePos := u64 (blockStart + (blockSize - 1)) / blockSize * blockSize
          let z := r.storeBlocks rd.2 blockStart blockEnd blockEnd cachePos z
          let optimalOffset := readPos - blockStart
          let toCopy := min (u64 (offset + count) - readPos) (thistime - optimalOffset)
          r.nonCachedFrom bufPos count offset n (readPos + toCopy)
            (buf.copy (bufPos + (readPos - offset)) rd.2 optimalOffset toCopy) z
    else (.ok buf, z)

def nonCachedRead (r : CachedReader τ) (buf : Buffer) (bufPos count offset : Nat) (z : CacheZone τ) :
    Except String Buffer × CacheZone τ :=
  r.nonCachedFrom bufPos count offset count offset buf z

/-- Where the loop of `read` is: how many bytes are done, and from where on they have not been fetched. -/
structure Progress where
  done : Nat
  lastFetchPos : Nat
  buf : Buffer

/-- The loop of `CachedReader::read`. -/
def readFrom (r : CachedReader τ) (count offset : Nat) : Nat → Progress → CacheZone τ → Except String Progress × CacheZone τ
  | 0, p, z => (.ok p, z)
  | n + 1, p, z =>
    if p.done < count then
      let blockNumber := u64 (offset + p.done) / blockSize
      let blockOffset := if p.done = 0 then offset % blockSize else 0
      let thistime := min (min (count - p.done) blockSize) (blockSize - blockOffset)
      if thistime = 0 then
        (.error "Internal error: thistime == 0", z)
      else
        match z.get ⟨blockNumber, r.tag⟩ p.buf p.done blockOffset thistime with
        | (fromCache, buf, z) =>
          if 0 < fromCache then
            let toRead := p.done - p.lastFetchPos
            let fetched :=
              if 0 < toRead then r.nonCachedRead buf p.lastFetchPos toRead (u64 (offset + p.lastFetchPos)) z else (.ok buf, z)
            match fetched with
            | (.error e, z) => (.error e, z)
            | (.ok buf, z) => r.readFrom count offset n ⟨p.done + fromCache, p.done + thistime, buf⟩ z
          else
            r.readFrom count offset n { p with done := p.done + thistime } z
    else (.ok p, z)

/-- `CachedReader::read`: the number of bytes and the buffer, or the exception, and the zone afterwards. -/
def read (r : CachedReader τ) (count offset : Nat) (z : CacheZone τ) : Except String (Nat × Buffer) × CacheZone τ :=
  let count := if r.reader.length < u64 (count + offset) then r.reader.length - offset else count
  match r.readFrom count offset count ⟨0, 0, Buffer.empty⟩ z with
  | (.error e, z) => (.error e, z)
  | (.ok p, z) =>
    if p.lastFetchPos < count then
      match r.nonCachedRead p.buf p.lastFetchPos (p.done - p.lastFetchPos) (u64 (offset + p.lastFetchPos)) z with
      | (.error e, z) => (.error e, z)
      | (.ok buf, z) => (.ok (p.done, buf), z)
    else (.ok (p.done, p.buf), z)

end CachedReader

/-! ## Reads through a shared zone -/

/-- What happens to a zone: a read through the reader with a tag, whose backing reader advises these ranges during the call,
or a new size. The count is an int32_t. -/
inductive ZoneAction (τ : Type) where
  | read (tag : τ) (advise : Nat → Nat × Nat) (count : Fin (2 ^ 31)) (offset : Nat)
  | setMaxBlocks (max : Nat)

variable (readers : τ → Backing)

/-- A zone shared by readers with distinct tags. -/
def zoneMachine (maxBlocks : Nat) : Machine (CacheZone τ) (ZoneAction τ) where
  init := .new maxBlocks
  step z
    | .read tag advise count offset => some (CachedReader.read ⟨readers tag, tag, advise⟩ count offset z).2
    | .setMaxBlocks max => some (z.setMaxBlocks max)

/-- A read is transparent: it returns as many bytes as there are, and writes those of the contents and no others. -/
def Transparent (z : CacheZone τ) (tag : τ) (advise : Nat → Nat × Nat) (count offset : Nat) : Prop :=
  (CachedReader.read ⟨readers tag, tag, advise⟩ count offset z).1 =
    .ok (min count ((readers tag).length - offset), (readers tag).slice offset (min count ((readers tag).length - offset)))

/-- What may be asked of a reader: the read begins inside the contents, and every range advised contains its position and lies
inside the contents. -/
structure Asked (b : Backing) (advise : Nat → Nat × Nat) (offset : Nat) : Prop where
  offset_le : offset ≤ b.length
  contains : ∀ pos < b.length, (advise pos).1 ≤ pos ∧ pos < (advise pos).2 ∧ (advise pos).2 ≤ b.length

/-- The ranges that are handled: no longer than a read can be, and ending at the end of a block or of the contents, or before
any block begins in them. The contents end so early that no position of a read wraps around. -/
structure Handled (b : Backing) (advise : Nat → Nat × Nat) : Prop where
  length_le : b.length + 2 ^ 31 ≤ 2 ^ 64
  short : ∀ pos < b.length, (advise pos).2 - (advise pos).1 ≤ int32Max
  aligned : ∀ pos < b.length, (advise pos).2 % blockSize = 0 ∨ (advise pos).2 = b.length ∨
    (advise pos).2 / blockSize * blockSize < (advise pos).1

def AllAsked (_ : CacheZone τ) : ZoneAction τ → Prop
  | .read tag advise _ offset => Asked (readers tag) advise offset
  | .setMaxBlocks _ => True

/-- Every read is asked for properly, with ranges that are handled. -/
def AllHandled (_ : CacheZone τ) : ZoneAction τ → Prop
  | .read tag advise _ offset => Asked (readers tag) advise offset ∧ Handled (readers tag) advise
  | .setMaxBlocks _ => True

end Osxie.Dmg
