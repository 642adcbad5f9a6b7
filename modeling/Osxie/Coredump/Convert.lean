import Osxie.Lib.Slice

/-!
# Conversion of core dumps

An ELF core is converted into a Mach-O core. Each `PT_LOAD` program header becomes an area of memory, whose contents are in the
core, or in a file that the `NT_FILE` note names, or nowhere, when the pages were never touched. One entry of the note that is
for no program header becomes another area. The headers are written first, with offsets predicted from the sizes in memory; then
the areas are written, each of which begins with a check of its offset.

The program headers and notes are taken as they were read. Which files can be opened, what is in them and what each `write`
returns are parameters; where the list of results ends the conversion is still going on.
-/

namespace Osxie.Coredump

abbrev Path := List Char

/-! ## The core -/

structure ProgramHeader where
  pType : Nat
  pFlags : Nat
  pOffset : Nat
  pVaddr : Nat
  pFilesz : Nat
  pMemsz : Nat
deriving DecidableEq

def ProgramHeader.isLoad (h : ProgramHeader) : Bool := h.pType = 1

/-- An entry of the `NT_FILE` note, with its file name. -/
structure NtFileEntry where
  start : Nat
  stop : Nat
  offset : Nat
  filename : Path
deriving DecidableEq

/-- `coredump_params`: the core as it was read. -/
structure Core where
  is64Bit : Bool
  /-- `input_corefile_mapping`. -/
  mapping : List UInt8
  programHeaders : List ProgramHeader
  /-- The page size that the `NT_FILE` note gives. -/
  pageSize : Nat
  ntFile : List NtFileEntry
  /-- `thread_info_count`. -/
  threads : Nat

structure Protection where
  read : Bool
  write : Bool
  exec : Bool
deriving DecidableEq

structure VmArea where
  filename : Option Path
  memoryAddress : Nat
  memorySize : Nat
  fileOffset : Nat
  fileSize : Nat
  protection : Protection
  valid : Bool

def sub64 (a b : Nat) : Nat := (2 ^ 64 + a - b) % 2 ^ 64

namespace Core

variable (core : Core) (h : ProgramHeader)

/-- The first entry that contains the area of a program header. -/
def entryOf : Option NtFileEntry :=
  core.ntFile.find? fun e => ¬(h.pVaddr < e.start ∨ e.stop < (h.pVaddr + h.pMemsz) % 2 ^ 64)

/-- The area of a program header. One without a right is left out of the output. -/
def areaOf : VmArea :=
  let protection : Protection := ⟨h.pFlags.testBit 2, h.pFlags.testBit 1, h.pFlags.testBit 0⟩
  let area : VmArea :=
    { filename := none
      memoryAddress := h.pVaddr
      memorySize := h.pMemsz
      fileOffset := h.pOffset
      fileSize := h.pFilesz
      protection := protection
      valid := protection ≠ ⟨false, false, false⟩ }
  if h.pFilesz = 0 then
    match core.entryOf h with
    | none => area
    | some e =>
      { area with
        filename := some e.filename
        fileOffset := (e.offset * core.pageSize + sub64 h.pVaddr e.start) % 2 ^ 64
        fileSize := sub64 e.stop e.start }
  else area

/-- The first entry that no program header starts with. -/
def extraEntry : Option NtFileEntry := core.ntFile.find? fun e => ¬core.programHeaders.any fun h => h.isLoad && e.start = h.pVaddr

def extraArea (e : NtFileEntry) : VmArea where
  filename := some e.filename
  memoryAddress := e.start
  memorySize := sub64 e.stop e.start
  fileOffset := e.offset * core.pageSize % 2 ^ 64
  fileSize := sub64 e.stop e.start
  protection := ⟨true, false, false⟩
  valid := true

def vmAreas : List VmArea :=
  (core.programHeaders.filter ProgramHeader.isLoad).map core.areaOf ++ core.extraEntry.toList.map core.extraArea

def validAreas : List VmArea := core.vmAreas.filter VmArea.valid

end Core

/-! ## Output -/

inductive WriteResult
  /-- So many bytes are written, or as many as there are. -/
  | wrote (n : Nat)
  /-- `EINTR`, `EAGAIN`, `EWOULDBLOCK`. -/
  | again
  | failed
deriving DecidableEq

/-- The output, and what `write` will do. -/
structure Out where
  bytes : List UInt8
  writes : List WriteResult
deriving DecidableEq

/-- Why the conversion does not go on. -/
inductive Stop
  /-- A call of `write` has not returned yet. -/
  | waiting
  /-- `exit(EXIT_FAILURE)`, after a `write` that failed. -/
  | failure
  /-- `exit(EXIT_FAILURE)`, at an offset other than the one expected. -/
  | offset (expected actual : Nat)
deriving DecidableEq

def dumpEmitLoop : List WriteResult → List UInt8 → List UInt8 → Except Stop Out
  | writes, bytes, [] => .ok ⟨bytes, writes⟩
  | [], _, _ :: _ => .error .waiting
  | .wrote n :: writes, bytes, b :: buffer => dumpEmitLoop writes (bytes ++ (b :: buffer).take n) ((b :: buffer).drop n)
  | .again :: writes, bytes, b :: buffer => dumpEmitLoop writes bytes (b :: buffer)
  | .failed :: _, _, _ :: _ => .error .failure

def dumpEmit (o : Out) (buffer : List UInt8) : Except Stop Out := dumpEmitLoop o.writes o.bytes buffer

def zeros (size : Nat) : List UInt8 := List.replicate size 0

/-- The loop of `dump_skip`, for so many rounds at most: zeros, 4096 at a time. -/
def dumpSkipLoop : Nat → Out → Nat → Except Stop Out
  | 0, o, size => dumpEmit o (zeros size)
  | rounds + 1, o, size =>
    if 4096 < size then (dumpEmit o (zeros 4096)).bind fun o => dumpSkipLoop rounds o (size - 4096) else dumpEmit o (zeros size)

def dumpSkip (o : Out) (size : Nat) : Except Stop Out := dumpSkipLoop size o size

def dumpOffsetGet (o : Out) : Nat := o.bytes.length % 2 ^ 64

def roundUpPow2 (number multiple : Nat) : Nat := (number + (multiple - 1)) % 2 ^ 64 &&& (2 ^ 64 - multiple)

def roundDownPow2 (number multiple : Nat) : Nat := number &&& (2 ^ 64 - multiple)

def dumpAlign (o : Out) (alignment : Nat) : Except Stop Out :=
  dumpSkip o (sub64 (roundUpPow2 (dumpOffsetGet o) alignment) (dumpOffsetGet o))

/-- `align_page_size`, as `ALIGN_REGIONS` is not set. -/
def alignPageSize : Nat := 1

/-! ## Headers -/

/-- The sizes of the structures: `mach_header`, `segment_command`, and a `thread_command` with its states; and of an offset. -/
structure Width where
  headerSize : Nat
  segmentSize : Nat
  threadSize : Nat
  offsetBits : Nat

def Width.bits32 : Width := ⟨28, 56, 8 + (8 + 64) + (8 + 524), 32⟩

def Width.bits64 : Width := ⟨32, 72, 8 + (8 + 168) + (8 + 524), 64⟩

def Core.width (core : Core) : Width := if core.is64Bit then .bits64 else .bits32

/-- `segment_command` and `segment_command_64`, without what is the same for all. -/
structure SegmentCommand where
  vmaddr : Nat
  vmsize : Nat
  fileoff : Nat
  filesize : Nat
  initprot : Protection

/-- The bytes of the structures. Some of a segment's name are not initialised; the registers of a thread are copied. -/
structure Encoding (w : Width) where
  header : Nat → Nat → List UInt8
  segment : SegmentCommand → List UInt8
  thread : Nat → List UInt8
  header_length : ∀ ncmds sizeofcmds, (header ncmds sizeofcmds).length = w.headerSize
  segment_length : ∀ sc, (segment sc).length = w.segmentSize
  thread_length : ∀ i, (thread i).length = w.threadSize

/-- The segment command of an area at an offset. The size is always the one in memory. -/
def command (vma : VmArea) (fileOffset : Nat) : SegmentCommand :=
  ⟨vma.memoryAddress, vma.memorySize, fileOffset, vma.memorySize, vma.protection⟩

/-- The segment commands. Each area is returned with its `expected_offset`. -/
def dumpSegments {w : Width} (enc : Encoding w) : List VmArea → Nat → Out → Except Stop (List (VmArea × Nat) × Out)
  | [], _, o => .ok ([], o)
  | vma :: areas, fileOffset, o =>
    if vma.valid then
      (dumpEmit o (enc.segment (command vma fileOffset))).bind fun o =>
        (dumpSegments enc areas ((fileOffset + roundUpPow2 vma.memorySize alignPageSize) % 2 ^ w.offsetBits) o).map fun r =>
          ((vma, fileOffset) :: r.1, r.2)
    else dumpSegments enc areas fileOffset o

section

variable (core : Core) (enc : Encoding core.width) (file : List UInt8)

/-- `sizeofcmds`: 32 bits. -/
def sizeofcmds : Nat := (core.validAreas.length * core.width.segmentSize + core.threads * core.width.threadSize) % 2 ^ 32

/-- `macho_dump_headers32` and `macho_dump_headers64`. -/
def machoDumpHeaders (o : Out) : Except Stop (List (VmArea × Nat) × Out) :=
  (dumpEmit o (enc.header (core.validAreas.length + core.threads) (sizeofcmds core))).bind fun o =>
    let fileOffset := roundUpPow2 (sizeofcmds core + core.width.headerSize) alignPageSize % 2 ^ core.width.offsetBits
    (dumpSegments enc core.vmAreas fileOffset o).bind fun r =>
      ((List.range core.threads).foldlM (fun o i => dumpEmit o (enc.thread i)) r.2).map fun o => (r.1, o)

/-! ## Areas -/

/-- `sysconf(_SC_PAGESIZE)`. -/
def hostPageSize : Nat := 2 ^ 12

/-- What a mapping of a file shows: the last page is filled up with zeros, and there is none behind it. -/
def pagesOf : List UInt8 := file ++ zeros ((2 ^ 12 - file.length % 2 ^ 12) % 2 ^ 12)

/-- The bytes of an area in the mapping of its file; none when some are behind its last page. -/
def mappedBytes (vma : VmArea) : Option (List UInt8) :=
  let alignedOffset := roundDownPow2 vma.fileOffset hostPageSize
  let alignedSize := roundUpPow2 (vma.fileSize + (vma.fileOffset - alignedOffset)) hostPageSize
  let start := (slice (pagesOf file) alignedOffset alignedSize).drop (vma.fileOffset - alignedOffset)
  if start.length < vma.fileSize then none else some (start.take vma.fileSize)

def isDevice (filename : Path) : Bool := "/dev/".toList.isPrefixOf filename

variable (openFile : Path → Option (List UInt8))

/-- The bytes of an area that are there, then zeros. -/
def dumpContents (o : Out) (vma : VmArea) (contents : List UInt8) : Except Stop Out :=
  (dumpEmit o contents).bind fun o => (dumpSkip o (sub64 vma.memorySize vma.fileSize)).bind fun o => dumpAlign o alignPageSize

/-- An area. `write` fails when it is given memory that is not there. -/
def dumpArea (o : Out) (area : VmArea × Nat) : Except Stop Out :=
  let vma := area.1
  if dumpOffsetGet o ≠ area.2 then .error (.offset area.2 (dumpOffsetGet o))
  else if vma.fileSize = 0 then dumpSkip o vma.memorySize
  else
    match vma.filename with
    | some filename =>
      if isDevice filename then dumpSkip o vma.fileSize
      else
        match openFile filename with
        | none => dumpSkip o vma.fileSize
        | some file =>
          match mappedBytes file vma with
          | none => .error .failure
          | some contents => dumpContents o vma contents
    | none => dumpContents o vma (slice core.mapping vma.fileOffset vma.fileSize)

def machoCoredump (writes : List WriteResult) : Except Stop Out :=
  (machoDumpHeaders core enc ⟨[], writes⟩).bind fun r =>
    (dumpAlign r.2 alignPageSize).bind fun o => r.1.foldlM (dumpArea core openFile) o

end

end Osxie.Coredump
