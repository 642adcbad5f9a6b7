import Mathlib.Data.Finset.Sort
import Osxie.Carbon.ResourceFile
import Osxie.Lib.Machine

/-!
# The Resource Manager

The open resource files are in a table. Lookups go through all of them, and their results are kept in four global caches: the
set of all types, and for the type asked for last its resources and the maps from IDs and from names. Only opening and closing a
file clear the caches.

What the lookups are to return is `fresh`: what a scan of the open files finds at the moment. The table is an unordered map, and
the order in which it is gone through after a file is opened is a parameter of the call.
-/

namespace Osxie.Carbon

open Assoc ResourceTypeData

/-- `ResFileRefNum`: 16 bits. -/
abbrev RefNum := Int

/-- `ResType(-1)`, the type of an empty cache. -/
def noType : ResType := 2 ^ 32 - 1

/-- The caches, each with the type that it is for. -/
structure Caches where
  allTypes : Finset ResType
  ofType : List Addr
  ofTypeType : ResType
  ofTypeMap : List (ResID × Addr)
  ofTypeMapType : ResType
  ofTypeNameMap : List (Name × Addr)
  ofTypeNameMapType : ResType
deriving DecidableEq

def Caches.cleared : Caches := ⟨∅, [], noType, [], noType, [], noType⟩

/-- The global state: the open files, the current one, and the caches. -/
structure Manager where
  files : List (RefNum × Resources)
  current : Option RefNum
  nextRefNum : RefNum
  caches : Caches
deriving DecidableEq

/-! ## Scans of the open files -/

variable (files : List (RefNum × Resources))

def scanTypes : Finset ResType :=
  (files.flatMap fun f => f.2.resourceTypes.map Prod.fst).toFinset

def scanOfType (type : ResType) : List Addr := files.flatMap fun f =>
  match f.2.find type with
  | none => []
  | some td => td.resources

/-- A map of every open file for a type, inserted into one. -/
def collect {κ : Type} [DecidableEq κ] (map : ResourceTypeData → List (κ × Addr)) (type : ResType)
    (files : List (RefNum × Resources)) (rv : List (κ × Addr)) : List (κ × Addr) :=
  files.foldl (fun rv f =>
    match f.2.find type with
    | none => rv
    | some td => insertAll rv (map td)) rv

def scanOfTypeMap (type : ResType) : List (ResID × Addr) := collect idMap type files []

def scanOfTypeNameMap (type : ResType) : List (Name × Addr) := collect nameMap type files []

namespace Manager

variable (m : Manager) (type : ResType)

/-! ## The caches -/

def allTypes : Caches := if m.caches.allTypes = ∅ then { m.caches with allTypes := scanTypes m.files } else m.caches

/-- `resourcesOfType`. What is found is appended to what is there. -/
def resourcesOfType : Caches :=
  if m.caches.ofTypeType ≠ type then
    { m.caches with ofType := m.caches.ofType ++ scanOfType m.files type, ofTypeType := type }
  else m.caches

def resourcesOfTypeMap : Caches :=
  if m.caches.ofTypeMapType ≠ type then
    { m.caches with ofTypeMap := collect idMap type m.files m.caches.ofTypeMap, ofTypeMapType := type }
  else m.caches

/-- `resourcesOfTypeNameMap`. The type that is tested is the one of the map from IDs. -/
def resourcesOfTypeNameMap : Caches :=
  if m.caches.ofTypeMapType ≠ type then
    { m.caches with
      ofTypeNameMap := collect nameMap type m.files m.caches.ofTypeNameMap
      ofTypeNameMapType := type }
  else m.caches

/-! ## Files -/

def kResFileNotOpened : RefNum := -1

def int16 (n : Int) : Int := n.bmod (2 ^ 16)

/-- The loop that looks for a reference number that is not in use. -/
def freeRefNum : Nat → RefNum → Option RefNum
  | 0, _ => none
  | rounds + 1, n =>
    if (m.files.lookup n).isSome then freeRefNum rounds (if n = 2 ^ 15 - 1 then 1 else n + 1) else some n

/-- `FSOpenResourceFile`, with a file that was read. `order` is the order of the table afterwards. -/
def openFile (r : Resources) (order : List RefNum) : Option Manager :=
  match m.freeRefNum (m.files.length + 1) m.nextRefNum with
  | none => none
  | some refNum =>
    let files := m.files ++ [(refNum, r)]
    if order.Perm (files.map Prod.fst) then
      some { m with
        files := order.filterMap fun n => (files.lookup n).map fun r => (n, r)
        nextRefNum := int16 (refNum + 1)
        caches := .cleared }
    else none

def useResFile (refNum : RefNum) : Manager :=
  if refNum = kResFileNotOpened then { m with current := none }
  else if (m.files.lookup refNum).isSome then { m with current := some refNum }
  else m

def closeResFile (refNum : RefNum) : Manager :=
  let current := if m.current = some refNum then none else m.current
  if (m.files.lookup refNum).isSome then { m with current := current, files := erase m.files refNum, caches := .cleared }
  else { m with current := current }

def findResourceDataByHandle (res : Handle) : Option (RefNum × Addr) :=
  m.files.findSome? fun f => (f.2.dataByHandle res).map fun addr => (f.1, addr)

/-- `ResourceData::getHandle`, of an object of any file. -/
def getHandle (addr : Addr) (fresh : Handle) : Option Handle × Manager :=
  match m.files.find? fun f => (f.2.objects.lookup addr).isSome with
  | none => (none, m)
  | some f => ((f.2.getHandle addr fresh).1, { m with files := modify m.files f.1 fun r => (r.getHandle addr fresh).2 })

def setResInfo (res : Handle) (id : ResID) (name : Name) : Manager :=
  match m.findResourceDataByHandle res with
  | none => m
  | some (refNum, addr) => { m with files := modify m.files refNum fun r => r.setInfo addr id name }

def addResource (data : Option Handle) (type : ResType) (id : ResID) (name : Name) (bytes : List UInt8) (addr : Addr)
    (indeterminate : ResType) : Manager :=
  match m.current, data with
  | some refNum, some data =>
    if (m.findResourceDataByHandle data).isSome then m
    else { m with files := modify m.files refNum fun r => r.add type id name data bytes addr indeterminate }
  | _, _ => m

def removeResource (res : Option Handle) (stale : Addr) : Manager :=
  match m.current, res with
  | some refNum, some res => { m with files := modify m.files refNum fun r => r.remove res stale }
  | _, _ => m

def atIndex {α : Type} (l : List α) (index : Int) : Option α := if index < 1 then none else l[(index - 1).toNat]?

end Manager

/-! ## Calls -/

/-- What is called, with what the allocator returns and what memory that is not initialised holds. -/
inductive Call
  | openFile (r : Resources) (order : List RefNum)
  | useResFile (refNum : RefNum)
  | closeResFile (refNum : RefNum)
  | setResInfo (res : Handle) (id : ResID) (name : Name)
  | addResource (data : Option Handle) (type : ResType) (id : ResID) (name : Name) (bytes : List UInt8) (addr : Addr)
      (indeterminate : ResType)
  | removeResource (res : Option Handle) (stale : Addr)
  | countTypes
  | getIndType (index : Int)
  | countResources (type : ResType)
  | getIndResource (type : ResType) (index : Int) (fresh : Handle)
  | getResource (type : ResType) (id : ResID) (fresh : Handle)
  | getNamedResource (type : ResType) (name : Name) (fresh : Handle)
deriving DecidableEq

inductive Answer
  | nothing
  | count (n : Nat)
  | type (type : ResType)
  | handle (h : Option Handle)
deriving DecidableEq

namespace Manager

/-- The handle of a resource that was found, and the state then. -/
def answerHandle (m : Manager) (found : Option Addr) (fresh : Handle) : Answer × Manager :=
  match found with
  | none => (.handle none, m)
  | some addr => (.handle (m.getHandle addr fresh).1, (m.getHandle addr fresh).2)

def call (m : Manager) : Call → Option (Answer × Manager)
  | .openFile r order => (m.openFile r order).map fun m => (.nothing, m)
  | .useResFile refNum => some (.nothing, m.useResFile refNum)
  | .closeResFile refNum => some (.nothing, m.closeResFile refNum)
  | .setResInfo res id name => some (.nothing, m.setResInfo res id name)
  | .addResource data type id name bytes addr indeterminate =>
    some (.nothing, m.addResource data type id name bytes addr indeterminate)
  | .removeResource res stale => some (.nothing, m.removeResource res stale)
  | .countTypes => some (.count m.allTypes.allTypes.card, { m with caches := m.allTypes })
  | .getIndType index => some (.type ((atIndex (m.allTypes.allTypes.sort (· ≤ ·)) index).getD 0), { m with caches := m.allTypes })
  | .countResources type =>
    some (.count (m.resourcesOfType type).ofType.length, { m with caches := m.resourcesOfType type })
  | .getIndResource type index fresh =>
    some ({ m with caches := m.resourcesOfType type }.answerHandle (atIndex (m.resourcesOfType type).ofType index) fresh)
  | .getResource type id fresh =>
    some ({ m with caches := m.resourcesOfTypeMap type }.answerHandle ((m.resourcesOfTypeMap type).ofTypeMap.lookup id) fresh)
  | .getNamedResource type name fresh =>
    some ({ m with caches := m.resourcesOfTypeNameMap type }.answerHandle
      ((m.resourcesOfTypeNameMap type).ofTypeNameMap.lookup name) fresh)

/-- What a lookup returns after a fresh scan of the open files. -/
def fresh (m : Manager) : Call → Answer
  | .countTypes => .count (scanTypes m.files).card
  | .getIndType index => .type ((atIndex ((scanTypes m.files).sort (· ≤ ·)) index).getD 0)
  | .countResources type => .count (scanOfType m.files type).length
  | .getIndResource type index fresh => (m.answerHandle (atIndex (scanOfType m.files type) index) fresh).1
  | .getResource type id fresh => (m.answerHandle ((scanOfTypeMap m.files type).lookup id) fresh).1
  | .getNamedResource type name fresh => (m.answerHandle ((scanOfTypeNameMap m.files type).lookup name) fresh).1
  | _ => .nothing

def init : Manager := ⟨[], none, 1, .cleared⟩

end Manager

def resourceMachine : Machine Manager Call where
  init := .init
  step m c := (m.call c).map Prod.snd

end Osxie.Carbon
