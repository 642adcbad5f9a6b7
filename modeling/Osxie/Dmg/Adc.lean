import Osxie.Lib.Lookback

/-!
# The ADC decompressor

`adc_decompress` and `DMGDecompressor_ADC::decompress`. The stream is read in chunks of 8 KiB, each decompressed into a buffer
as far as whole phrases and the buffer go; a buffer that is full enough slides on by 64 KiB, so that 64 KiB stay behind for the
lookbacks. A request for `count` bytes from `offset` on is served from the buffer as it slides.

The written part of the buffer is a list, as is the output. A lookback to before the beginning of the buffer reads memory that
is not the buffer's; the outcome is then undefined.
-/

namespace Osxie.Dmg

namespace Adc

inductive ChunkType where
  | plain
  | twoByte
  | threeByte
deriving DecidableEq

def chunkType (byte : UInt8) : ChunkType :=
  if byte &&& 0x80 ≠ 0 then .plain
  else if byte &&& 0x40 ≠ 0 then .threeByte
  else .twoByte

def chunkSize (byte : UInt8) : Nat :=
  match chunkType byte with
  | .plain => (byte &&& 0x7F).toNat + 1
  | .twoByte => ((byte &&& 0x3F) >>> 2).toNat + 3
  | .threeByte => (byte &&& 0x3F).toNat + 4

/-- `adc_chunk_offset`, of the bytes from the beginning of a chunk on. -/
def chunkOffset (chunkStart : List UInt8) : Nat :=
  match chunkType (chunkStart.getD 0 0) with
  | .plain => 0
  | .twoByte => (chunkStart.getD 0 0 &&& 0x03).toNat * 256 + (chunkStart.getD 1 0).toNat
  | .threeByte => (chunkStart.getD 1 0).toNat * 256 + (chunkStart.getD 2 0).toNat

/-- What a phrase with a lookback appends: a `memset` of the last byte, or a copy byte by byte. -/
def copyChunk (offset size : Nat) (output : List UInt8) : Option (List UInt8) :=
  if offset = 0 then (lookback output 0).map fun byte => output ++ List.replicate size byte
  else copyBack offset size output

/-- The loop of `adc_decompress`: what is left of the input when it stops, and the output. It stops at a phrase that is cut
off, or that does not fit into the output. -/
def decompressChunks (availSize : Nat) : Nat → List UInt8 → List UInt8 → Option (List UInt8 × List UInt8)
  | 0, input, output => some (input, output)
  | _ + 1, [], output => some ([], output)
  | n + 1, byte :: input, output =>
    match chunkType byte with
    | .plain =>
      if input.length < chunkSize byte then some (byte :: input, output)
      else if availSize < output.length + chunkSize byte then some (byte :: input, output)
      else decompressChunks availSize n (input.drop (chunkSize byte)) (output ++ input.take (chunkSize byte))
    | .twoByte =>
      if input.length < 1 then some (byte :: input, output)
      else if availSize < output.length + chunkSize byte then some (byte :: input, output)
      else (copyChunk (chunkOffset (byte :: input)) (chunkSize byte) output).bind (decompressChunks availSize n (input.drop 1))
    | .threeByte =>
      if input.length < 2 then some (byte :: input, output)
      else if availSize < output.length + chunkSize byte then some (byte :: input, output)
      else (copyChunk (chunkOffset (byte :: input)) (chunkSize byte) output).bind (decompressChunks availSize n (input.drop 2))

/-- `adc_decompress`, after what `output` already has: how many bytes of the input it used, and the output. -/
def decompressInput (input : List UInt8) (availSize : Nat) (output : List UInt8) : Option (Nat × List UInt8) :=
  (decompressChunks availSize input.length input output).map fun rest => (input.length - rest.1.length, rest.2)

/-- The largest lookback, by which the buffer slides. -/
def slideSize : Nat := 0x10000

/-- The size of the buffer: twice the lookback, and the largest phrase. -/
def bufferSize : Nat := 0x20000 + 0x80

/-- The size of `m_buf`. -/
def inputSize : Nat := 8 * 1024

/-- The variables of `decompress`: the position in the stream, the buffer up to `restartIndex`, and what is left of the
request. -/
structure State where
  pos : Nat
  buffer : List UInt8
  offset : Nat
  countLeft : Nat
  output : List UInt8

/-- What `decompress` does with the buffer after a chunk. -/
def State.serve (s : State) (buffer : List UInt8) : State :=
  if s.offset + s.countLeft ≤ buffer.length then
    { s with output := s.output ++ (buffer.drop s.offset).take s.countLeft, countLeft := 0 }
  else if 2 * slideSize ≤ buffer.length then
    let s :=
      if s.offset < slideSize then
        let s := { s with output := s.output ++ (buffer.drop s.offset).take (slideSize - s.offset) }
        let s := { s with offset := 0 }
        { s with countLeft := s.countLeft - (slideSize - s.offset) }
      else { s with offset := s.offset - slideSize }
    { s with buffer := buffer.drop slideSize }
  else { s with buffer := buffer }

/-- What a call comes to. It is unfinished while the fuel of the model does not suffice. -/
inductive Outcome where
  | returns (count : Nat) (output : List UInt8)
  | throws (text : String)
  | undefined
  | unfinished
deriving DecidableEq

def readSome (stream : List UInt8) (pos : Nat) : Except String (List UInt8) :=
  match (stream.drop pos).take inputSize with
  | [] => .error "DMGDecompressor cannot read from stream"
  | input => .ok input

/-- The loop of `DMGDecompressor_ADC::decompress`. -/
def decompressFrom (stream : List UInt8) (count : Nat) : Nat → State → Outcome
  | 0, _ => .unfinished
  | n + 1, s =>
    if 0 < s.countLeft then
      match readSome stream s.pos with
      | .error text => .throws text
      | .ok input =>
        match decompressInput input bufferSize s.buffer with
        | none => .undefined
        | some (used, buffer) =>
          if used = 0 then .throws "nb_input_char_used == 0"
          else decompressFrom stream count n { s.serve buffer with pos := (s.pos + used) % 2 ^ 32 }
    else .returns count s.output

/-- `DMGDecompressor_ADC::decompress`, of a new decompressor. Every round uses at least one byte of the stream. -/
def decompress (stream : List UInt8) (count : Nat) (offset : Int) : Outcome :=
  if offset < 0 then .throws "offset < 0"
  else decompressFrom stream count (stream.length + 1) ⟨0, [], offset.toNat, count, []⟩

end Adc

end Osxie.Dmg
