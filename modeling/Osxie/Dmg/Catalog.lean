import Mathlib.Data.Char
import Mathlib.Data.List.Lex
import Osxie.Dmg.BTreeSearch
import Osxie.Lib.SortedMap

/-!
# The catalog tree

`HFSCatalogBTree` finds files and folders by their paths. A record has the ID of its parent and a name; the root is the record
whose parent is 1. `stat` goes from component to component, `listDirectory` collects the records of a parent. Both search by the
ID of the parent only, and go through the records of all leaves found; an empty name stands for every name.

A slash in a name on disk is a colon in a path, and the other way around. The conversions between UTF-16 and UTF-8 and the
folding of case are a parameter, `Unicode`.
-/

namespace Osxie.Dmg

abbrev Text := List Char

/-- The name of a record: UTF-16 units. -/
abbrev HFSString := List UInt16

/-- What the ICU library does: a name as a `UnicodeString`, UTF-8 from it and back, and case folding, after which strings that
`caseCompare` takes to be equal are the same. -/
structure Unicode where
  UString : Type
  [decEq : DecidableEq UString]
  ofHFS : HFSString → UString
  toUTF8 : UString → Text
  fromUTF8 : Text → UString
  foldCase : UString → UString
  roundTrip : ∀ name, fromUTF8 (toUTF8 (ofHFS name)) = ofHFS name

attribute [instance] Unicode.decEq

inductive RecordType
  | folder
  | file
  | folderThread
  | fileThread
deriving DecidableEq

structure CatalogKey where
  parentID : Nat
  nodeName : HFSString
deriving DecidableEq

/-- The keys of the tree are ordered by their parents first. -/
instance : LE CatalogKey := ⟨fun a b => a.parentID ≤ b.parentID⟩

instance (a b : CatalogKey) : Decidable (a ≤ b) := inferInstanceAs (Decidable (a.parentID ≤ b.parentID))

/-- `HFSPlusCatalogFileOrFolder`: a union whose members have the record type and the ID at the same place. At the place of a
file's type a folder has the bounds of its window. -/
structure FileOrFolder where
  recordType : RecordType
  folderID : Nat
  fileType : Nat
  iNodeNum : Nat
deriving DecidableEq

def kHFSRootParentID : Nat := 1

def kHFSRootFolderID : Nat := 2

/-- 'hlnk'. -/
def kHardLinkFileType : Nat := 0x686C6E6B

/-- How a call fails: with an error number, or with an exception. -/
inductive Failure
  | enoent
  | enotdir
  | thrown (msg : String)
deriving DecidableEq

/-- `HFSCatalogBTree`: the tree, what it asks of the volume and of the header of the tree, and `m_hardLinkDirID`. -/
structure Catalog where
  unicode : Unicode
  tree : BTree CatalogKey FileOrFolder
  isHFSX : Bool
  binaryCompare : Bool
  hardLinkDirID : Nat

namespace Catalog

variable (c : Catalog) (name : HFSString)

def isCaseSensitive : Bool := c.isHFSX && c.binaryCompare

def compared (u : c.unicode.UString) : c.unicode.UString := if c.isCaseSensitive then u else c.unicode.foldCase u

/-- `EqualCase` or `EqualNoCase`. -/
def equal (elem : Text) : Bool :=
  decide (c.compared (c.unicode.fromUTF8 elem) = c.compared (c.unicode.ofHFS name))

def unicharToString : Text := c.unicode.toUTF8 (c.unicode.ofHFS name)

def replaceChars (s : Text) (oldChar newChar : Char) : Text := s.map fun ch => if ch = oldChar then newChar else ch

def idOnlyComparator : KeyComparator CatalogKey := fun indexKey desiredKey =>
  if indexKey.parentID < desiredKey.parentID then -1 else if desiredKey.parentID < indexKey.parentID then 1 else 0

/-- One record, in the loop of `appendNameAndHFSPlusCatalogFileOrFolderFromLeafForParentIdAndName`. -/
def appendRecord (cnid : Nat) (name : Text) (map : SortedMap Text FileOrFolder) (r : CatalogKey × Payload FileOrFolder) :
    SortedMap Text FileOrFolder :=
  match r.2 with
  | .child _ => map
  | .value ff =>
    match ff.recordType with
    | .folder | .file =>
      if r.1.parentID = cnid ∧ (name = [] ∨ c.equal r.1.nodeName name = true) then map.insert
        (c.unicharToString r.1.nodeName) ff else map
    | .folderThread | .fileThread => map

def recordsOfParent (parentID : Nat) (name : Text) (rounds : Nat) : Option (Except Failure (SortedMap Text FileOrFolder)) :=
  match c.tree.findLeafNodes idOnlyComparator ⟨parentID, []⟩ rounds with
  | none => none
  | some (.error e) => some (.error (.thrown e))
  | some (.ok leaves) => some (.ok ((leaves.flatMap Node.records).foldl (c.appendRecord parentID name) .empty))

/-- `HFSCatalogBTree::findHFSPlusCatalogFileOrFolderForParentIdAndName`. -/
def findFileOrFolder (parentID : Nat) (elem : Text) (rounds : Nat) : Option (Except Failure (Option FileOrFolder)) :=
  match c.recordsOfParent parentID elem rounds with
  | none => none
  | some (.error e) => some (.error e)
  | some (.ok map) =>
    match map.entries with
    | [] => some (.ok none)
    | [e] => some (.ok (some e.2))
    | _ => some (.error (.thrown "Multiple records with same name"))

/-- `split`, at slashes: what `std::getline` returns, the last piece only if it is not empty. -/
def split : Text → Text → List Text
  | [], item => if item = [] then [] else [item]
  | ch :: s, item => if ch = '/' then item :: split s [] else split s (item ++ [ch])

variable (path : Text) (rounds : Nat)

/-- A path without a slash at its beginning, and without one at its end. -/
def strip : Text :=
  let path := if path.head? = some '/' then path.tail else path
  if path.getLast? = some '/' then path.dropLast else path

def components : List Text := split (strip path) []

/-- The loop of `stat`, from the record found last (none before the first component). -/
def walk (rounds : Nat) : Option FileOrFolder → List Text → Option (Except Failure (Option FileOrFolder))
  | last, [] => some (.ok last)
  | last, elem :: elems =>
    let parentID := match last with
      | none => kHFSRootParentID
      | some ff => ff.folderID
    match c.findFileOrFolder parentID (replaceChars elem ':' '/') rounds with
    | none => none
    | some (.error e) => some (.error e)
    | some (.ok none) => some (.error .enoent)
    | some (.ok (some ff)) => walk rounds (some ff) elems

/-- The name of the file that a hard link is to. -/
def iNodePath (iNodeNum : Nat) : Text := "iNode".toList ++ (toString iNodeNum).toList

/-- The end of `stat`: a hard link is replaced by the file it is to, if that is there. -/
def followHardLink (last : FileOrFolder) (rounds : Nat) : Option (Except Failure FileOrFolder) :=
  if last.fileType = kHardLinkFileType ∧ c.hardLinkDirID ≠ 0 then
    match c.findFileOrFolder c.hardLinkDirID (iNodePath last.iNodeNum) rounds with
    | none => none
    | some (.error e) => some (.error e)
    | some (.ok none) => some (.ok last)
    | some (.ok (some ff)) => some (.ok ff)
  else some (.ok last)

/-- `HFSCatalogBTree::stat`. The first component is empty, for the root. -/
def stat : Option (Except Failure FileOrFolder) :=
  match c.walk rounds none ([] :: components path) with
  | none => none
  | some (.error e) => some (.error e)
  | some (.ok none) => none
  | some (.ok (some last)) => c.followHardLink last rounds

/-- The folder of the files that hard links are to. -/
def privateData : Text := ['\x00', '\x00', '\x00', '\x00'] ++ "HFS+ Private Data".toList

/-- `m_hardLinkDirID`, as the constructor sets it. -/
def findHardLinkDir : Option (Except Failure Nat) :=
  match { c with hardLinkDirID := 0 }.stat privateData rounds with
  | none => none
  | some (.error (.thrown msg)) => some (.error (.thrown msg))
  | some (.error _) => some (.ok 0)
  | some (.ok ff) => some (.ok ff.folderID)

/-- The names of the root folder that are not listed. -/
def hidden (filename : Text) : Bool :=
  decide (filename.headD '\x00' = '\x00' ∨ filename = ".HFS+ Private Directory Data\r".toList ∨ filename = ".journal".toList ∨
    filename = ".journal_info_block".toList)

/-- An entry of the records of a folder, in its listing. -/
def listEntry (folderID : Nat) (contents : SortedMap Text FileOrFolder) (e : Text × FileOrFolder) : SortedMap Text FileOrFolder :=
  if folderID ≠ kHFSRootFolderID ∨ hidden e.1 = false then contents.insert (replaceChars e.1 '/' ':') e.2 else contents

def listDirectory : Option (Except Failure (SortedMap Text FileOrFolder)) :=
  match c.stat path rounds with
  | none => none
  | some (.error e) => some (.error e)
  | some (.ok dir) =>
    match dir.recordType with
    | .folder =>
      match c.recordsOfParent dir.folderID [] rounds with
      | none => none
      | some (.error e) => some (.error e)
      | some (.ok beContents) => some (.ok (beContents.entries.foldl (listEntry dir.folderID) .empty))
    | _ => some (.error .enotdir)

/-! ## What a catalog has -/

/-- A file or folder: its key, and the data of its record. -/
abbrev Item := CatalogKey × FileOrFolder

def item (r : CatalogKey × Payload FileOrFolder) : Option Item :=
  match r.2 with
  | .child _ => none
  | .value ff =>
    match ff.recordType with
    | .folder | .file => some (r.1, ff)
    | .folderThread | .fileThread => none

variable (leaves : List (Nat × Node CatalogKey FileOrFolder))

def items : List Item := (BTree.recordsOf leaves).filterMap item

/-- A file or folder has a parent, and a name; every one has the empty name. -/
def Matches (parentID : Nat) (name : Text) (x : Item) : Prop :=
  x.1.parentID = parentID ∧ (name = [] ∨ c.equal x.1.nodeName name = true)

instance (parentID : Nat) (name : Text) (x : Item) : Decidable (c.Matches parentID name x) := inferInstanceAs (Decidable (_ ∧ _))

def matching (parentID : Nat) (name : Text) : List Item :=
  (items leaves).filter fun x => decide (c.Matches parentID name x)

def text (x : Item) : Text := c.unicharToString x.1.nodeName

def shown (x : Item) : Text := replaceChars (c.text x) '/' ':'

/-- A well-formed catalog: there is one root, a folder with the ID 2; no two files or folders with the same parent have names that
compare equal; names are not empty and have no colons; no ID comes twice or is that of the root's parent, and parents are
folders; what a hard link is to is a file, and no folder has the bounds of its window taken for the type of a hard link. -/
structure WellFormed (leaves : List (Nat × Node CatalogKey FileOrFolder)) : Prop where
  tree : c.tree.WellFormed leaves
  root : ∃ root, c.matching leaves kHFSRootParentID [] = [root] ∧ root.2.recordType = .folder ∧ root.2.folderID = kHFSRootFolderID
  siblings : (items leaves).Pairwise fun x y => x.1.parentID = y.1.parentID →
    c.compared (c.unicode.ofHFS x.1.nodeName) ≠ c.compared (c.unicode.ofHFS y.1.nodeName)
  named : ∀ x ∈ items leaves, c.text x ≠ [] ∧ ':' ∉ c.text x
  ids : ((items leaves).map fun x => x.2.folderID).Nodup ∧ ∀ x ∈ items leaves, x.2.folderID ≠ kHFSRootParentID
  parents : ∀ x ∈ items leaves, x.1.parentID ≠ kHFSRootParentID →
    ∃ y ∈ items leaves, y.2.recordType = .folder ∧ y.2.folderID = x.1.parentID
  links : ∀ x ∈ items leaves, x.2.fileType = kHardLinkFileType → x.2.recordType = .file ∧
    (c.hardLinkDirID ≠ 0 → ∀ y ∈ c.matching leaves c.hardLinkDirID (iNodePath x.2.iNodeNum), y.2.recordType = .file)

/-! ## Agreement -/

/-- With enough rounds, `stat` has this result. -/
def Stats (path : Text) (res : Except Failure FileOrFolder) : Prop := ∃ enough, ∀ rounds ≥ enough, c.stat path rounds = some res

def Lists (path : Text) (res : Except Failure (SortedMap Text FileOrFolder)) : Prop :=
  ∃ enough, ∀ rounds ≥ enough, c.listDirectory path rounds = some res

/-- What `stat` returns for a file or folder: itself, or for a hard link the file that it is to, if that is there. -/
def resolved (ff : FileOrFolder) : FileOrFolder :=
  if ff.fileType = kHardLinkFileType ∧ c.hardLinkDirID ≠ 0 then
    match c.matching leaves c.hardLinkDirID (iNodePath ff.iNodeNum) with
    | [] => ff
    | y :: _ => y.2
  else ff

/-- The files and folders of a folder that are not hidden in the root. -/
def visible (folderID : Nat) : List Item :=
  (c.matching leaves folderID []).filter fun x => decide (folderID ≠ kHFSRootFolderID ∨ hidden (c.text x) = false)

def joinPath (elems : List Text) : Text := elems.flatMap ('/' :: ·)

/-- Listing and lookup agree. A directory has one entry for each file or folder in it that is not hidden, and the path of the
entry leads to it. Every component of a path that `stat` accepts is the name of a file or folder in the directory before it,
where it is listed unless it is hidden. Paths with empty components are left out. -/
structure Agrees (leaves : List (Nat × Node CatalogKey FileOrFolder)) : Prop where
  lists : ∀ path dir, (∀ e ∈ components path, e ≠ []) → path.getLast? ≠ some '/' → c.Stats path (.ok dir) →
    dir.recordType = .folder →
    ∃ contents, c.Lists path (.ok contents) ∧
      contents.entries.Perm ((c.visible leaves dir.folderID).map fun x => (c.shown x, x.2)) ∧
      ∀ x ∈ c.visible leaves dir.folderID, c.Stats (path ++ '/' :: c.shown x) (.ok (c.resolved leaves x.2))
  stats : ∀ path ff, (∀ e ∈ components path, e ≠ []) → c.Stats path (.ok ff) → ∀ i e, (components path)[i]? = some e →
    ∃ dir contents, ∃ x ∈ items leaves, c.Stats (joinPath ((components path).take i)) (.ok dir) ∧
      c.Lists (joinPath ((components path).take i)) (.ok contents) ∧ x.1.parentID = dir.folderID ∧
      c.equal x.1.nodeName (replaceChars e ':' '/') = true ∧
      ((c.shown x, x.2) ∈ contents.entries ∨ dir.folderID = kHFSRootFolderID ∧ hidden (c.text x) = true)

end Catalog

end Osxie.Dmg
