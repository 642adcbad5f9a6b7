import Osxie.Dmg.ExtentsOverflow
import Osxie.Dmg.Partition
import Osxie.Lib.Slice

/-!
# Forks

An `HFSFork` has the up to eight extents of its catalog record (`m_extents`), and from the first read that goes beyond them on
also those of the extents overflow tree. `read` looks for the extent that the offset is in, and then reads extent by extent.

Block numbers and the number of bytes read have 32 bits, positions 64, and `count` is signed.
-/

namespace Osxie.Dmg

/-- A value as uint32_t. -/
def u32 (x : Int) : Nat := (x % 2 ^ 32).toNat

def int32 (x : Int) : Int := x.bmod (2 ^ 32)

def int64 (x : Int) : Int := x.bmod (2 ^ 64)

theorem u32_natCast {n : Nat} (h : n < 2 ^ 32) : u32 n = n := by
  unfold u32
  omega

theorem int32_of_lt {n : Nat} (h : n < 2 ^ 31) : int32 n = n := Int.bmod_eq_of_le (by omega) (by omega)

theorem int64_of_lt {n : Nat} (h : n < 2 ^ 63) : int64 n = n := Int.bmod_eq_of_le (by omega) (by omega)

/-- What a fork needs of `HFSVolume`: the block size, the overflow extents, and `read` of the reader of the volume, which
returns a count and writes bytes. -/
structure Volume where
  blockSize : Nat
  overflowExtents : Extents.Tree
  reader : (count : Int) → (offset : Nat) → Int × List UInt8

/-- `HFSFork`: the volume, the fields of the fork data, the file and which fork of it. -/
structure Fork where
  volume : Volume
  logicalSize : Nat
  extents : List Extent
  cnid : Nat
  resourceFork : Bool

namespace Fork

/-- What the reads of a fork change: `m_extents`; and how often the overflow extents were loaded. -/
structure State where
  extents : List Extent
  loads : Nat
deriving DecidableEq

variable (f : Fork)

/-- The extents of the fork data that are in use. -/
def inline : List Extent := (f.extents.take 8).filter (fun e => decide (0 < e.blockCount))

def init : State := ⟨f.inline, 0⟩

def loadFromOverflowsFile (st : State) (blocksSoFar rounds : Nat) : Option (Except String State) :=
  if f.cnid = 0 then some (.error "Cannot search extents file, CNID is kHFSNullID")
  else if st.extents.length < 8 then some (.error "Loaded extent count < 8, but appropriate extent not found")
  else
    match Extents.findExtentsForFile f.volume.overflowExtents f.cnid f.resourceFork blocksSoFar st.extents rounds with
    | none => none
    | some (.error e) => some (.error e)
    | some (.ok extents) =>
      if extents.length = st.extents.length then some (.error "Overflow extents not found for given CNID")
      else some (.ok ⟨extents, st.loads + 1⟩)

/-- Where a read is: the extent, the blocks of the extents before it, and the offset inside it. -/
structure Place where
  extent : Nat
  blocksSoFar : Nat
  offsetInExtent : Nat
deriving DecidableEq

/-- The loop over the extents loaded that looks for the first one: whether it was found, and where the loop ended. -/
def scan (blockSize firstBlock : Nat) : List Extent → Place → Bool × Place
  | [], p => (false, p)
  | e :: es, p =>
    if firstBlock < (e.blockCount + p.blocksSoFar) % 2 ^ 32 then (true, p)
    else scan blockSize firstBlock es
      ⟨p.extent + 1, (p.blocksSoFar + e.blockCount) % 2 ^ 32, u64Sub p.offsetInExtent (e.blockCount * blockSize)⟩

/-- The first extent, for which overflow extents may have to be loaded. -/
def locate (f : Fork) (firstBlock : Nat) : Nat → State → Place → Option (State × Except String Place)
  | 0, _, _ => none
  | n + 1, st, p =>
    match scan f.volume.blockSize firstBlock (st.extents.drop p.extent) p with
    | (true, p) => some (st, .ok p)
    | (false, p) =>
      match f.loadFromOverflowsFile st p.blocksSoFar n with
      | none => none
      | some (.error e) => some (st, .error e)
      | some (.ok st) => f.locate firstBlock n st p

/-- The loop that reads: `done` is the number of bytes read so far. -/
def readBlocks (f : Fork) (count : Int) (offset : Nat) :
    Nat → State → Place → Nat → List UInt8 → Option (State × Except String (Int × List UInt8))
  | 0, _, _, _, _ => none
  | n + 1, st, p, done, buf =>
    if done < u32 count ∧ u64 (done + offset) < f.logicalSize then
      match if st.extents.length ≤ p.extent then f.loadFromOverflowsFile st p.blocksSoFar n else some (.ok st) with
      | none => none
      | some (.error e) => some (st, .error e)
      | some (.ok st) =>
        match st.extents[p.extent]? with
        | none => none
        | some e =>
          let thistime := int32 (min (int64 (u64Sub (e.blockCount * f.volume.blockSize) p.offsetInExtent)) (u32 (count - done)))
          if thistime = 0 then some (st, .error "Internal error: thistime == 0")
          else
            match f.volume.reader thistime (u64 (e.startBlock * f.volume.blockSize + p.offsetInExtent)) with
            | (reallyRead, bytes) =>
              if reallyRead ≠ thistime then some (st, .ok (int32 (u32 (done + reallyRead)), buf ++ bytes))
              else f.readBlocks count offset n st ⟨p.extent + 1, (p.blocksSoFar + e.blockCount) % 2 ^ 32, 0⟩
                (u32 (done + reallyRead)) (buf ++ bytes)
    else some (st, .ok (int32 done, buf))

/-- The count of a read, cut off at the end of the fork. -/
def clip (count : Int) (offset : Nat) : Int :=
  if f.logicalSize < offset then 0
  else if f.logicalSize < (((offset : Int) + count) % 2 ^ 64).toNat then int32 (f.logicalSize - offset)
  else count

/-- `HFSFork::read`, with loops of at most so many rounds: what it returns and writes. -/
def read (rounds : Nat) (st : State) (count : Int) (offset : Nat) : Option (State × Except String (Int × List UInt8)) :=
  if f.clip count offset = 0 then some (st, .ok (0, []))
  else
    match f.locate (offset / f.volume.blockSize % 2 ^ 32) rounds st ⟨0, 0, offset⟩ with
    | none => none
    | some (st, .error e) => some (st, .error e)
    | some (st, .ok p) => f.readBlocks (f.clip count offset) offset rounds st p 0 []

/-- A sequence of reads, each a count and an offset: the state after it, and their results. -/
def reads (f : Fork) (rounds : Nat) : State → List (Int × Nat) → Option (State × List (Except String (Int × List UInt8)))
  | st, [] => some (st, [])
  | st, c :: cs =>
    match f.read rounds st c.1 c.2 with
    | none => none
    | some (st, res) => (f.reads rounds st cs).map fun x => (x.1, res :: x.2)

/-! ## Forks that are well formed -/

def blocks (extents : List Extent) : Nat := (extents.map Extent.blockCount).sum

variable (disk : Nat → UInt8)

/-- The bytes of an extent's blocks on a volume with these bytes. -/
def extentBytes (e : Extent) : List UInt8 :=
  span disk (e.startBlock * f.volume.blockSize) (e.blockCount * f.volume.blockSize)

/-- A fork with overflow extents `rest`, on a volume with these bytes whose reader returns full counts. Overflow extents are there
only for a file with an ID all of whose eight extents are in use, and `findExtentsForFile` returns them all, in order. The extents
lie on the volume, have together fewer than 2^32 blocks, and cover the logical size. -/
structure WellFormed (f : Fork) (disk : Nat → UInt8) (rest : List Extent) : Prop where
  blockSize_pos : 0 < f.volume.blockSize
  blockSize_lt : f.volume.blockSize < 2 ^ 32
  reader : ∀ count offset : Nat, f.volume.reader count offset = (↑count, span disk offset count)
  overflow : rest ≠ [] → f.cnid ≠ 0 ∧ f.inline.length = 8 ∧ ∃ enough, ∀ rounds ≥ enough,
    Extents.findExtentsForFile f.volume.overflowExtents f.cnid f.resourceFork (blocks f.inline) f.inline rounds =
      some (.ok (f.inline ++ rest))
  rest_pos : ∀ e ∈ rest, 0 < e.blockCount
  on_volume : ∀ e ∈ f.inline ++ rest, e.startBlock + e.blockCount ≤ 2 ^ 32
  blocks_lt : blocks (f.inline ++ rest) < 2 ^ 32
  covers : f.logicalSize ≤ blocks (f.inline ++ rest) * f.volume.blockSize

variable (rest : List Extent)

/-- The bytes of the fork: the blocks of its extents, one after the other. -/
def contents : List UInt8 := (f.inline ++ rest).flatMap (f.extentBytes disk)

def available (count : Int) (offset : Nat) : Int := max 0 (min count (f.logicalSize - offset))

/-- What a read should return and write. -/
def expected (count : Int) (offset : Nat) : Int × List UInt8 :=
  (f.available count offset, slice (f.contents disk rest) offset (f.available count offset).toNat)

/-- A sequence of reads follows the extents: every call returns all bytes there are, and they are those of the fork; the overflow
extents were loaded at most once, and every extent is in `m_extents` once. -/
def Follows (calls : List (Int × Nat)) : Prop :=
  ∃ enough st, (∀ rounds ≥ enough, f.reads rounds f.init calls =
      some (st, calls.map fun c => .ok (f.expected disk rest c.1 c.2))) ∧
    st.loads ≤ 1 ∧ (st.extents = f.inline ∨ st.extents = f.inline ++ rest)

end Fork

end Osxie.Dmg
