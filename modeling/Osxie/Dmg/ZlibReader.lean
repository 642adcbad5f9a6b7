import Osxie.Dmg.Advice
import Osxie.Dmg.Fork

/-!
# Readers of compressed files

An `HFSZlibReader` reads a file of compressed runs of 64 KiB, each a zlib stream or, marked by a first byte that ends in 0xf, as
it is. It keeps where it was (the run, the end of what was read of it, the position in its input and the state of `inflate`) so
that a read that goes on there need not begin the run anew.

`inflate` is a parameter, `Inflate`: a function on its own states, with the relation that says which input is left of a stream
and which output it is going to give. That it is correct is a field.
-/

namespace Osxie.Dmg

/-- What a call of `inflate` comes to: its status, the state of the stream, the input used up and the output. -/
structure Inflated (σ : Type) where
  status : Int
  strm : σ
  consumed : Nat
  output : List UInt8

def zStreamEnd : Int := 1

/-- A call of `inflate` on a stream with input `z` left that gives `d`: it puts out the next bytes, and only stops before the
output is full or the stream ends when the input is used up. -/
structure Inflated.Advances {σ : Type} (Decodes : σ → List UInt8 → List UInt8 → Prop) (z d input : List UInt8) (availOut : Nat)
    (r : Inflated σ) : Prop where
  status : 0 ≤ r.status
  consumed : r.consumed ≤ input.length ∧ r.consumed ≤ z.length
  output : r.output.length ≤ availOut ∧ r.output = d.take r.output.length
  decodes : Decodes r.strm (z.drop r.consumed) (d.drop r.output.length)
  stops : r.output.length = availOut ∨ r.status = zStreamEnd ∨ r.consumed = input.length
  atEnd : r.status = zStreamEnd → r.output = d

/-- `inflate`, and what it is to be correct: whatever part of the input it is given, also with other data behind it, it
advances. -/
structure Inflate where
  State : Type
  init : State
  inflate : State → List UInt8 → (availOut : Nat) → Inflated State
  Decodes : State → (z d : List UInt8) → Prop
  pending : ∀ {s z d}, Decodes s z d → d ≠ [] → z ≠ []
  correct : ∀ {s z d}, Decodes s z d → d ≠ [] → ∀ {input junk : List UInt8}, input ≠ [] → input <+: z ++ junk →
    ∀ {availOut : Nat}, 0 < availOut → (inflate s input availOut).Advances Decodes z d input availOut

/-- `HFSZlibReader`: `inflate`, the bytes of `m_reader`, the size of the file and the table of its runs, each with the
position and the length of its data. -/
structure ZlibReader where
  zlib : Inflate
  file : List UInt8
  uncompressedSize : Nat
  offsets : List (Nat × Nat)

namespace ZlibReader

/-! ## The constructor -/

def le : List UInt8 → Nat
  | [] => 0
  | b :: bs => b.toNat + 256 * le bs

/-- The entries of the compression table. -/
def entries (table : List UInt8) : Nat → List (Nat × Nat)
  | 0 => []
  | n + 1 => (le (table.take 4), le (slice table 4 4)) :: entries (table.drop 8) n

/-- The constructor of `HFSZlibReader`. The count of a read is signed, so that no table of 2^31 bytes or more is read. -/
def construct (zlib : Inflate) (file : List UInt8) (uncompressedSize : Nat) (singleRun : Bool) : Except String ZlibReader :=
  if singleRun then .ok ⟨zlib, file, uncompressedSize, [(0, file.length % 2 ^ 32)]⟩
  else if (slice file 0 4).length ≠ 4 then .error "Short read of compression map"
  else
    let count := (le (slice file 0 4) + 1) % 2 ^ 32
    if 2 ^ 31 ≤ 8 * count ∨ (slice file 4 (8 * count)).length ≠ 8 * count then .error "Short read of compression map entries"
    else .ok ⟨zlib, file, uncompressedSize, entries (slice file 4 (8 * count)) count⟩

/-! ## Reads -/

/-- What reads change: `m_strm`, `m_lastRun` (none for -1), `m_lastEnd`, `m_inputPos` and `m_lastUncompressed`. -/
structure State (r : ZlibReader) where
  strm : r.zlib.State
  lastRun : Option Nat
  lastEnd : Nat
  inputPos : Nat
  lastUncompressed : Bool

variable (r : ZlibReader)

def init : State r := ⟨r.zlib.init, none, 0, 0, false⟩

variable (st : State r) (count offset : Nat)

/-- The beginning of `readRun`: nothing can be resumed in a different run, or when skipping back. -/
def prepare (runIndex offset : Nat) : State r :=
  if st.lastRun ≠ some runIndex ∨ offset < st.lastEnd then ⟨r.zlib.init, st.lastRun, 0, 0, false⟩ else st

/-- The loop that decompresses what is skipped, with the call it makes. -/
def waste (call : State r → (count offset : Nat) → Option (State r × Except String (List UInt8))) (offset : Nat) :
    Nat → State r → Option (State r × Except String Unit)
  | 0, _ => none
  | n + 1, st =>
    if st.lastEnd < offset then
      match call st (min 512 (offset - st.lastEnd)) st.lastEnd with
      | none => none
      | some (st, .error e) => some (st, .error e)
      | some (st, .ok _) => waste call offset n st
    else some (st, .ok ())

def copyRun (first second count offset : Nat) : State r × List UInt8 :=
  let inputPos := if st.lastUncompressed then st.inputPos else st.inputPos + 1
  let count := min (count : Int) (int32 (u64Sub (u64Sub second offset) 1))
  let bytes := slice r.file (inputPos + first) count.toNat
  (⟨st.strm, st.lastRun, st.lastEnd + bytes.length, inputPos + bytes.length, true⟩, bytes)

def decompress (runIndex first second count offset : Nat) :
    Nat → State r → (readCompressedSoFar : Nat) → List UInt8 → Option (State r × Except String (List UInt8))
  | 0, _, _, _ => none
  | n + 1, st, readCompressedSoFar, out =>
    if out.length < count then
      let thisTimeCompressed := min (u32 ((second : Int) - (readCompressedSoFar : Int))) 512
      let input := if st.lastUncompressed then [] else slice r.file (st.inputPos + first) thisTimeCompressed
      if st.lastUncompressed = true ∨ (out = [] ∧ st.inputPos = 0 ∧ ∃ b ∈ input.head?, b &&& 0xf = 0xf) then
        match r.copyRun st first second count offset with
        | (st, bytes) => some (st, .ok bytes)
      else
        let res := r.zlib.inflate st.strm input (count - out.length)
        if res.status < 0 then some ({ st with strm := res.strm }, .error "Inflate error")
        else if res.status = zStreamEnd then
          some (⟨res.strm, some runIndex, st.lastEnd + (out ++ res.output).length, st.inputPos + res.consumed, st.lastUncompressed⟩,
            .ok (out ++ res.output))
        else
          decompress runIndex first second count offset n
            { st with strm := res.strm, inputPos := st.inputPos + res.consumed } (readCompressedSoFar + input.length)
              (out ++ res.output)
    else some ({ st with lastEnd := st.lastEnd + out.length, lastRun := some runIndex }, .ok out)

def readRun (runIndex : Nat) : Nat → State r → (count offset : Nat) → Option (State r × Except String (List UInt8))
  | 0, _, _, _ => none
  | n + 1, st, count, offset =>
    match r.waste (fun st count offset => readRun runIndex n st count offset) offset n (r.prepare st runIndex offset) with
    | none => none
    | some (st, .error e) => some (st, .error e)
    | some (st, .ok _) =>
      match r.offsets[runIndex]? with
      | none => none
      | some (first, second) => r.decompress runIndex first second count offset n st 0 []

/-- The loop of `HFSZlibReader::read`. -/
def readFrom (rounds count offset : Nat) : Nat → State r → List UInt8 → Option (State r × Except String (List UInt8))
  | 0, _, _ => none
  | n + 1, st, done =>
    if done.length < count then
      -- the offset in a run is only relevant in the first one
      let runOffset := if done.length = 0 then offset % runLength else 0
      let thisTime := min runLength (count - done.length)
      match r.readRun (u64 (offset + done.length) / runLength) rounds st thisTime runOffset with
      | none => none
      | some (st, .error e) => some (st, .error e)
      | some (st, .ok bytes) =>
        if bytes.length ≠ thisTime then some (st, .error "Short read from readRun")
        else readFrom rounds count offset n st (done ++ bytes)
    else some (st, .ok done)

/-- `HFSZlibReader::read`, with loops of at most so many rounds: the state after it, and what it returns. -/
def read (rounds : Nat) (st : State r) (count offset : Nat) : Option (State r × Except String (List UInt8)) :=
  let count := if r.uncompressedSize < u64 (offset + count) then (int32 (u64Sub r.uncompressedSize offset)).toNat else count
  r.readFrom rounds count offset rounds st []

/-! ## What a compressed file is -/

/-- The data of a run is a zlib stream of its contents. -/
structure Compressed (first second : Nat) (z d : List UInt8) : Prop where
  length_le : z.length ≤ second
  second_lt : second < 2 ^ 31
  stored : slice r.file first z.length = z
  decodes : r.zlib.Decodes r.zlib.init z d
  unmarked : ∀ b ∈ z.head?, b &&& 0xf ≠ 0xf

/-- The data of a run is a mark and its contents. -/
structure Uncompressed (first second : Nat) (b : UInt8) (d : List UInt8) : Prop where
  length_eq : second = d.length + 1
  marked : b &&& 0xf = 0xf
  stored : slice r.file first (d.length + 1) = b :: d

/-- The contents of a run: 64 KiB, or what there is for the last. -/
def run (contents : List UInt8) (i : Nat) : List UInt8 := slice contents (i * runLength) runLength

/-- The runs of the table have these contents. -/
structure WellFormed (contents : List UInt8) : Prop where
  size : r.uncompressedSize = contents.length
  runs : ∀ i, i * runLength < contents.length → ∃ first second, r.offsets[i]? = some (first, second) ∧
    ((∃ z, r.Compressed first second z (run contents i)) ∨ ∃ b, r.Uncompressed first second b (run contents i))

/-- A read returns: with enough rounds, it has this result. -/
def Returns (res : State r × Except String (List UInt8)) : Prop :=
  ∃ enough, ∀ rounds ≥ enough, r.read rounds st count offset = some res

def available : Nat := min count (r.uncompressedSize - offset)

/-- A read stays in its first run or begins with a run; and it does not go on in the last compressed run while the state is
that of an uncompressed one. -/
def Safe : Prop :=
  (offset % runLength = 0 ∨ offset % runLength + r.available count offset ≤ runLength) ∧
  ¬(st.lastUncompressed = true ∧ st.lastRun = some (offset / runLength) ∧ st.lastEnd ≤ offset % runLength)

/-- The states reached by reads inside the file that are all safe. -/
inductive Reached : State r → Prop where
  | init : Reached r.init
  | read {st st' : State r} {count offset : Nat} {res : Except String (List UInt8)} : Reached st →
      offset ≤ r.uncompressedSize → count < 2 ^ 31 → r.Safe st count offset → r.Returns st count offset (st', res) → Reached st'

end ZlibReader

end Osxie.Dmg
