import Osxie.Lib.Assoc

/-!
# Resource files

`Resources` has for each type of an open file the resources in order, and maps from IDs and from names; all point to objects at
addresses. A map keeps the first value inserted for a key.

The allocator's addresses and handles are parameters, as is the `type` of an object constructed from another one, which the
constructor does not set. An object that was freed is not there any more.
-/

namespace Osxie.Carbon

open Assoc

/-- `ResType`: 32 bits. -/
abbrev ResType := Nat

abbrev ResID := Int

abbrev Name := List UInt8

abbrev Addr := Nat

/-- A handle that is not null. -/
abbrev Handle := Nat

/-- `Resources::ResourceData`. The parent is the file that the object belongs to. -/
structure ResourceData where
  id : ResID
  type : ResType
  name : Name
  attributes : Nat
  dataBacking : List UInt8
  handle : Option Handle
deriving DecidableEq

structure ResourceTypeData where
  resources : List Addr
  idMap : List (ResID × Addr)
  nameMap : List (Name × Addr)
deriving DecidableEq

/-- `Resources`, with the objects that belong to it. -/
structure Resources where
  attributes : Nat
  objects : List (Addr × ResourceData)
  resourceTypes : List (ResType × ResourceTypeData)
  handleMap : List (Handle × Addr)
deriving DecidableEq

namespace Resources

def empty : Resources := ⟨0, [], [], []⟩

variable (r : Resources) (type : ResType)

/-- `data().find`. -/
def find : Option ResourceTypeData := r.resourceTypes.lookup type

/-- The types, each with its data; a new type has none. -/
def withType : List (ResType × ResourceTypeData) := insertNew r.resourceTypes (type, ⟨[], [], []⟩)

/-- `Resources::add`. The name is a C string. -/
def add (id : ResID) (name : Name) (data : Handle) (bytes : List UInt8) (addr : Addr)
    (indeterminate : ResType) : Resources where
  attributes := r.attributes
  objects := r.objects ++ [(addr, ⟨id, indeterminate, name.takeWhile (· ≠ 0), 0, bytes, some data⟩)]
  resourceTypes := modify (r.withType type) type fun td =>
    ⟨td.resources ++ [addr], insertNew td.idMap (id, addr), insertNew td.nameMap (name.takeWhile (· ≠ 0), addr)⟩
  handleMap := insertNew r.handleMap (data, addr)

def dataByHandle (h : Handle) : Option Addr := r.handleMap.lookup h

/-- `Resources::remove`. The iterator is used after its element was erased; `stale` is what it reads. -/
def remove (data : Handle) (stale : Addr) : Resources :=
  match (r.handleMap.lookup data).bind fun addr => r.objects.lookup addr with
  | none => r
  | some d =>
    match r.find d.type with
    | none => r
    | some td =>
      { r with
        resourceTypes := modify r.resourceTypes d.type fun td =>
          ⟨td.resources.erase stale, erase td.idMap d.id, erase td.nameMap d.name⟩
        handleMap := erase r.handleMap data
        objects := if stale ∈ td.resources then erase r.objects stale else r.objects }

/-- `ResourceData::getHandle`: the handle, made if there is none yet. -/
def getHandle (addr : Addr) (fresh : Handle) : Option Handle × Resources :=
  match r.objects.lookup addr with
  | none => (none, r)
  | some d =>
    match d.handle with
    | some h => (some h, r)
    | none =>
      (some fresh, { r with
        objects := modify r.objects addr fun d => { d with handle := some fresh }
        handleMap := insertNew r.handleMap (fresh, addr) })

/-- What `SetResInfo` does to an object and to the maps of its type. -/
def setInfo (addr : Addr) (id : ResID) (name : Name) : Resources :=
  match r.objects.lookup addr with
  | none => r
  | some d =>
    { r with
      objects := modify r.objects addr fun d => { d with id := id, name := name }
      resourceTypes := modify r.resourceTypes d.type fun td =>
        { td with
          idMap := if d.id ≠ id then insertNew (erase td.idMap d.id) (id, addr) else td.idMap
          nameMap := if d.name ≠ name then insertNew (erase td.nameMap d.name) (name, addr) else td.nameMap } }

end Resources

end Osxie.Carbon
