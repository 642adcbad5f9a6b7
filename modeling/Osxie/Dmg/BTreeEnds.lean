import Osxie.Dmg.BTree
import Osxie.Lib.Descent

/-!
# Searches in damaged trees

The walk along the leaves remembers the links it has followed, so that it ends in every file: there are 2^32 positions. The
descent remembers nothing. It ends just when it never comes to a node twice; an index node with a record for itself, or for a
node above it, keeps `traverseTree` going for ever.
-/

namespace Osxie.Dmg.BTree

open Finset List

variable {κ α : Type} (t : BTree κ α) (comp : KeyComparator κ) (key : κ)

/-- The node that the descent goes on to from one. -/
def child (wildcard : Bool) (nodeIndex : Nat) : Option Nat :=
  match t.readNode nodeIndex with
  | .error _ => none
  | .ok node =>
    if node.kind = .index then
      match node.records[position comp key wildcard node.records]? with
      | some (_, .child c) => some c
      | _ => none
    else none

def place (nodeIndex : Nat) : Fin (2 ^ 32) := Fin.ofNat _ (t.nodeSize * nodeIndex)

variable {t comp key}

end Osxie.Dmg.BTree
