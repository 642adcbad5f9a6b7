import Osxie.Carbon.ResourceManager

/-!
# Loading a resource file

`loadResources` reads a file from memory: a header, the resource map with its types and a list of references for each, the
names, and the data. Integers are big endian and swapped.

Memory is total: behind the end of the file is what happens to be there. The addresses and handles of the objects, and what the
memory of their `type` held before, are parameters, given by the place of the reference in the lists.
-/

namespace Osxie.Carbon

open Assoc

/-! ## Reading -/

/-- Memory, from the start of the file on. -/
abbrev Mem := Nat → UInt8

namespace Mem

variable (mem : Mem)

def bytes (p n : Nat) : List UInt8 := (List.range n).map fun i => mem (p + i)

def u16 (p : Nat) : Nat := (mem p).toNat + (mem (p + 1)).toNat * 2 ^ 8

/-- Three bytes of a `uint32_t`, as a bit field. -/
def u24 (p : Nat) : Nat := mem.u16 p + (mem (p + 2)).toNat * 2 ^ 16

def u32 (p : Nat) : Nat := mem.u16 p + mem.u16 (p + 2) * 2 ^ 16

end Mem

def bswap16 (v : Nat) : Nat := v % 2 ^ 8 * 2 ^ 8 + v / 2 ^ 8

def bswap32 (v : Nat) : Nat := bswap16 (v % 2 ^ 16) * 2 ^ 16 + bswap16 (v / 2 ^ 16)

def bswap24 (v : Nat) : Nat := v >>> 16 &&& 0xff ||| v &&& 0xff00 ||| v <<< 16 % 2 ^ 32 &&& 0xff0000

structure ResourcesHeader where
  resourceDataOffset : Nat
  resourceMapOffset : Nat
  resourceDataLength : Nat
  resourceMapLength : Nat

/-- `ResourceMapHeader`, without what is reserved. -/
structure ResourceMapHeader where
  attributes : Nat
  typeListOffset : Nat
  nameListOffset : Nat
  numOfTypesMinusOne : Nat

structure ResourceType where
  resourceType : ResType
  numOfThisTypeMinusOne : Nat
  referenceListOffset : Nat

/-- `ReferenceListItem`, without what is reserved. -/
structure ReferenceListItem where
  resourceID : ResID
  resourceNameListOffset : Nat
  attributes : Nat
  resourceDataOffset : Nat

namespace Mem

variable (mem : Mem)

def resourcesHeader : ResourcesHeader where
  resourceDataOffset := bswap32 (mem.u32 0)
  resourceMapOffset := bswap32 (mem.u32 4)
  resourceDataLength := bswap32 (mem.u32 8)
  resourceMapLength := bswap32 (mem.u32 12)

def resourceMapHeader (p : Nat) : ResourceMapHeader where
  attributes := bswap16 (mem.u16 (p + 22))
  typeListOffset := bswap16 (mem.u16 (p + 24))
  nameListOffset := bswap16 (mem.u16 (p + 26))
  numOfTypesMinusOne := bswap16 (mem.u16 (p + 28))

def resourceType (p : Nat) : ResourceType where
  resourceType := bswap32 (mem.u32 p)
  numOfThisTypeMinusOne := bswap16 (mem.u16 (p + 4))
  referenceListOffset := bswap16 (mem.u16 (p + 6))

def referenceListItem (p : Nat) : ReferenceListItem where
  resourceID := Manager.int16 (bswap16 (mem.u16 p))
  resourceNameListOffset := bswap16 (mem.u16 (p + 2))
  attributes := (mem (p + 4)).toNat
  resourceDataOffset := bswap24 (mem.u24 (p + 5))

end Mem

/-! ## The loops -/

/-- What `loadResources` throws: an `OSErr`, or a `std::length_error` of the string. -/
inductive LoadError
  | eofErr
  | lengthError
deriving DecidableEq

/-- The object and the handle for a reference of a type, by the indices of both. No two are at the same address. -/
structure Heap where
  addr : Nat → Nat → Addr
  handle : Nat → Nat → Handle
  /-- What is in the object where its `type` is. -/
  type : Nat → Nat → ResType
  addr_injective : ∀ i j i' j', addr i j = addr i' j' → i = i' ∧ j = j'
  handle_injective : ∀ i j i' j', handle i j = handle i' j' → i = i' ∧ j = j'

/-- The data of a type while its references are gone through, its objects, and the handles of the file. -/
structure Loading where
  td : ResourceTypeData
  objects : List (Addr × ResourceData)
  handleMap : List (Handle × Addr)

section

variable (mem : Mem) (heap : Heap) (createHandles : Bool) (item : ReferenceListItem)

/-- `ResourceMapHeader`, where the file's header says. -/
def mapHeader : ResourceMapHeader := mem.resourceMapHeader mem.resourcesHeader.resourceMapOffset

def typeItem (i : Nat) : ResourceType :=
  mem.resourceType (mem.resourcesHeader.resourceMapOffset + (mapHeader mem).typeListOffset + 2 + 8 * i)

def refItem (i j : Nat) : ReferenceListItem :=
  mem.referenceListItem
    (mem.resourcesHeader.resourceMapOffset + (mapHeader mem).typeListOffset + (typeItem mem i).referenceListOffset + 12 * j)

/-- `res.name`. The length is a `char`: a negative one is a length that no string has. -/
def nameOf : Except LoadError Name :=
  if item.resourceNameListOffset ≠ 0xffff then
    let pascalStringName := mem.resourcesHeader.resourceMapOffset + (mapHeader mem).nameListOffset + item.resourceNameListOffset
    if (mem pascalStringName).toNat < 2 ^ 7 then .ok (mem.bytes (pascalStringName + 1) (mem pascalStringName).toNat)
    else .error .lengthError
  else .ok []

/-- `res.dataBacking`. -/
def dataOf : List UInt8 :=
  if item.resourceDataOffset ≠ 0xffff then
    let dataHeader := mem.resourcesHeader.resourceDataOffset + item.resourceDataOffset
    mem.bytes (dataHeader + 4) (bswap32 (mem.u32 dataHeader))
  else []

/-- A reference. The object is made by moving `res`, which sets everything but the type; the name that is put into the map is
taken from `res` after that, when it is empty. -/
def loadItem (i : Nat) (l : Loading) (j : Nat) : Except LoadError Loading :=
  let item := refItem mem i j
  (nameOf mem item).map fun name =>
    let d := heap.addr i j
    { td :=
        { resources := l.td.resources ++ [d]
          idMap := insertNew l.td.idMap (item.resourceID, d)
          nameMap := insertNew l.td.nameMap ([], d) }
      objects := l.objects ++ [(d, ⟨item.resourceID, heap.type i j, name, item.attributes, dataOf mem item,
        if createHandles then some (heap.handle i j) else none⟩)]
      handleMap := if createHandles then insertNew l.handleMap (heap.handle i j, d) else l.handleMap }

/-- A type. The objects of one that is there already are freed. -/
def loadType (r : Resources) (i : Nat) : Except LoadError Resources :=
  let type := typeItem mem i
  ((List.range (type.numOfThisTypeMinusOne + 1)).foldlM (loadItem mem heap createHandles i) ⟨⟨[], [], []⟩, [], r.handleMap⟩).map
    fun l =>
      { attributes := r.attributes
        objects := if (r.find type.resourceType).isSome then r.objects else r.objects ++ l.objects
        resourceTypes := insertNew r.resourceTypes (type.resourceType, l.td)
        handleMap := l.handleMap }

def loadResources (length : Nat) : Except LoadError Resources :=
  let header := mem.resourcesHeader
  if length < 16 then .error .eofErr
  else if length < (header.resourceDataOffset + header.resourceDataLength) % 2 ^ 32 ∨
      length < (header.resourceMapOffset + header.resourceMapLength) % 2 ^ 32 then .error .eofErr
  else (List.range ((mapHeader mem).numOfTypesMinusOne + 1)).foldlM (loadType mem heap createHandles)
    ⟨(mapHeader mem).attributes, [], [], []⟩

end

/-! ## Lookups in the current file -/

namespace Manager

variable (m : Manager) (type : ResType)

/-- What `Get1Resource` and `Get1NamedResource` share: the handle of a resource of the current file. -/
def get1 (find : ResourceTypeData → Option Addr) (fresh : Handle) : Option Handle × Manager :=
  match m.current with
  | none => (none, m)
  | some refNum =>
    match (m.files.lookup refNum).bind fun r => (((r.find type).bind find).map fun addr => (r, addr)) with
    | none => (none, m)
    | some (r, addr) => ((r.getHandle addr fresh).1, { m with files := modify m.files refNum fun r => (r.getHandle addr fresh).2 })

def get1Resource (id : ResID) (fresh : Handle) : Option Handle × Manager :=
  m.get1 type (fun td => td.idMap.lookup id) fresh

def get1NamedResource (name : Name) (fresh : Handle) : Option Handle × Manager :=
  m.get1 type (fun td => td.nameMap.lookup name) fresh

def getResInfo (res : Handle) : ResID × ResType × Name :=
  match (m.findResourceDataByHandle res).bind fun found => (m.files.lookup found.1).bind fun r => r.objects.lookup found.2 with
  | none => (0, 0, [])
  | some d => (d.id, d.type, d.name.take (min 254 (d.name.length % 2 ^ 8)))

end Manager

end Osxie.Carbon
