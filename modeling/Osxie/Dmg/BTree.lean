import Osxie.Dmg.CachedReader
import Osxie.Lib.Bisect

/-!
# B-trees of HFS+

A B-tree is a file of nodes of one size. Index nodes lead to other nodes, each record under the first key of its child; leaf
nodes hold the data and are linked from left to right. `findLeafNode` goes down from the root by `std::lower_bound` or
`std::upper_bound`; `findLeafNodes` goes on along the links until the first key of a leaf compares greater.

A node is read at the product of its number and the node size, computed in 32 bits. What the bytes at a position are as a node
is a parameter, with the number of bytes read where they are too few. The searches have no result when they do not come to an
end, or where the source would take a record that is not there.
-/

namespace Osxie.Dmg

inductive NodeKind where
  | leaf
  | index
  | header
  | map
  | other (code : Nat)
deriving DecidableEq

/-- The data of a record: the number of a child, or a value. -/
inductive Payload (α : Type) where
  | child (node : Nat)
  | value (data : α)
deriving DecidableEq

/-- `HFSBTreeNode`. -/
structure Node (κ α : Type) where
  kind : NodeKind
  forwardLink : Nat
  records : List (κ × Payload α)

/-- `KeyComparator`: negative, zero or positive for an index key that is smaller than the key desired, equal or greater. -/
abbrev KeyComparator (κ : Type) := κ → κ → Int

/-- `HFSBTree`: the header's fields, and the node that the bytes at a position are. -/
structure BTree (κ α : Type) where
  nodeSize : Nat
  rootNode : Nat
  totalNodes : Nat
  nodeAt : Nat → Except Int (Node κ α)

namespace BTree

variable {κ α : Type} (t : BTree κ α)

/-- The constructor of `HFSBTreeNode`. -/
def readNode (nodeIndex : Nat) : Except String (Node κ α) :=
  match t.nodeAt (t.nodeSize * nodeIndex % 2 ^ 32) with
  | .ok node => .ok node
  | .error read =>
    .error ("Short read of BTree node. " ++ toString read ++ " bytes read instead of " ++ toString t.nodeSize)

variable (comp : KeyComparator κ) (key : κ) (wildcard : Bool) (records : List (κ × Payload α))

/-- What `lower_bound` and `upper_bound` go on behind: a record whose key is smaller than the key, or is not greater. -/
def goesOn (i : Nat) : Bool :=
  match records[i]? with
  | none => false
  | some r => if wildcard then decide (comp r.1 key < 0) else !decide (comp key r.1 < 0)

/-- The record of an index node to go down by. -/
def position : Nat :=
  bisect (goesOn comp key wildcard records) records.length - 1

/-- `HFSBTree::traverseTree`, through at most so many nodes. -/
def traverseTree (t : BTree κ α) (comp : KeyComparator κ) (key : κ) (wildcard : Bool) :
    Nat → Nat → Option (Except String (Option (Node κ α)))
  | 0, _ => none
  | n + 1, nodeIndex =>
    match t.readNode nodeIndex with
    | .error e => some (.error e)
    | .ok node =>
      match node.kind with
      | .index =>
        match node.records[position comp key wildcard node.records]? with
        | some (_, .child c) => t.traverseTree comp key wildcard n c
        | _ => none
      | .leaf => some (.ok (some node))
      | _ => some (.ok none)

def findLeafNode (rounds : Nat) :
    Option (Except String (Option (Node κ α))) :=
  t.traverseTree comp key wildcard rounds t.rootNode

/-- The loop of `findLeafNodes`: the nodes that follow one. -/
def followLinks (t : BTree κ α) (comp : KeyComparator κ) (key : κ) :
    Nat → List Nat → Node κ α → Option (Except String (List (Node κ α)))
  | 0, _, _ => none
  | n + 1, uniqLink, current =>
    if current.forwardLink = 0 then some (.ok [])
    else if current.forwardLink ∈ uniqLink then some (.ok [])
    else
      match t.readNode current.forwardLink with
      | .error e => some (.error e)
      | .ok next =>
        match next.records.head? with
        | none => none
        | some r =>
          if 0 < comp r.1 key then some (.ok [])
          else (t.followLinks comp key n (current.forwardLink :: uniqLink) next).map (Except.map (next :: ·))

def findLeafNodes (rounds : Nat) : Option (Except String (List (Node κ α))) :=
  match t.findLeafNode comp key true rounds with
  | none => none
  | some (.error e) => some (.error e)
  | some (.ok none) => some (.ok [])
  | some (.ok (some node)) => (t.followLinks comp key rounds [] node).map (Except.map (node :: ·))

/-! ## Trees that are well formed -/

/-- A node of the tree has a number, and lies there in the file. -/
def Holds (i : Nat) (node : Node κ α) : Prop := i < t.totalNodes ∧ t.nodeAt (t.nodeSize * i) = .ok node

variable (leaves : List (Nat × Node κ α))

def firstKey : Option κ := leaves.head?.bind fun x => x.2.records.head?.map Prod.fst

def keysOf : List κ := leaves.flatMap fun x => x.2.records.map Prod.fst

def recordsOf : List (κ × Payload α) := leaves.flatMap fun x => x.2.records

/-- A record of an index node leads to a subtree with these leaves, and has their first key. -/
def Leads (subtree : Nat → List (Nat × Node κ α) → Prop) (r : κ × Payload α) (leaves : List (Nat × Node κ α)) : Prop :=
  ∃ c, r.2 = .child c ∧ subtree c leaves ∧ firstKey leaves = some r.1

/-- The subtree of some height under a node, with its leaves. -/
def Subtree (t : BTree κ α) : Nat → Nat → List (Nat × Node κ α) → Prop
  | 0, i, leaves => ∃ node, t.Holds i node ∧ node.kind = .leaf ∧ node.records ≠ [] ∧ leaves = [(i, node)]
  | d + 1, i, leaves => ∃ node parts, t.Holds i node ∧ node.kind = .index ∧ node.records ≠ [] ∧ leaves = parts.flatten ∧
    List.Forall₂ (Leads (t.Subtree d)) node.records parts

/-- Leaves are linked from left to right. -/
def Linked : List (Nat × Node κ α) → Prop
  | [] => True
  | [x] => x.2.forwardLink = 0
  | x :: y :: ls => x.2.forwardLink = y.1 ∧ Linked (y :: ls)

/-- A tree with these leaves is well formed: either it is empty and its root is the header node, or the leaves are those of the
subtree of the root; they are linked in that order, node 0 is not a leaf and no leaf comes twice; and the keys ascend. -/
structure WellFormed [LE κ] (t : BTree κ α) (leaves : List (Nat × Node κ α)) : Prop where
  size_pos : 0 < t.nodeSize
  tree : (∃ header, t.rootNode = 0 ∧ t.Holds 0 header ∧ header.kind = .header ∧ leaves = []) ∨ ∃ d, t.Subtree d t.rootNode leaves
  linked : Linked leaves
  numbers : (leaves.map Prod.fst).Nodup
  nonzero : ∀ x ∈ leaves, x.1 ≠ 0
  ascending : (keysOf leaves).Pairwise (· ≤ ·)

/-- A comparator is monotone: its result only grows with the index key, and it is that of a comparison, positive one way where it
is negative the other. -/
structure Monotone [LE κ] (comp : KeyComparator κ) : Prop where
  nonneg : ∀ a b s, a ≤ b → 0 ≤ comp a s → 0 ≤ comp b s
  pos : ∀ a b s, a ≤ b → 0 < comp a s → 0 < comp b s
  swap : ∀ a s, comp s a < 0 ↔ 0 < comp a s

/-- Every node begins in the first 4 GiB of the file. -/
def InReach : Prop := t.nodeSize * (t.totalNodes - 1) < 2 ^ 32

/-- The searches are complete: the nodes that a search for a range returns hold every record of the leaves whose key compares
equal, and a search for a single key returns a leaf that has a record whose key compares equal, when there is one. -/
structure Complete (t : BTree κ α) (leaves : List (Nat × Node κ α)) (comp : KeyComparator κ) (key : κ) : Prop where
  range : ∃ enough nodes, (∀ rounds ≥ enough, t.findLeafNodes comp key rounds = some (.ok nodes)) ∧
    ∀ r ∈ recordsOf leaves, comp r.1 key = 0 → ∃ node ∈ nodes, r ∈ node.records
  exact : (∃ r ∈ recordsOf leaves, comp r.1 key = 0) → ∃ enough, ∃ x ∈ leaves, (∃ r ∈ x.2.records, comp r.1 key = 0) ∧
    ∀ rounds ≥ enough, t.findLeafNode comp key false rounds = some (.ok (some x.2))

end BTree

end Osxie.Dmg
