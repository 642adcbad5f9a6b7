import Osxie.Dmg.BTree

/-!
# Positions on disk

The byte counts of a volume, the place of an embedded volume and the position of a node are products of header fields. The
source multiplies fields of 16 and 32 bits: the operands are promoted to 32 bits at most, so that the product and the sum are
formed modulo 2^32, and only the result becomes a 64-bit value.
-/

namespace Osxie.Dmg

/-- `HFSPlusVolumeHeader`: what `usage` reads. -/
structure VolumeHeader where
  blockSize : UInt32
  totalBlocks : UInt32
  freeBlocks : UInt32

/-- `HFSVolume::usage`: the total and the free bytes. -/
def usage (header : VolumeHeader) : UInt64 × UInt64 :=
  ((header.blockSize * header.totalBlocks).toUInt64, (header.blockSize * header.freeBlocks).toUInt64)

/-- `HFSMasterDirectoryBlock`: what `processEmbeddedHFSPlus` reads. -/
structure MasterDirectoryBlock where
  drAlBlkSiz : UInt32
  drAlBlSt : UInt16
  drEmbedSigWord : UInt16
  startBlock : UInt16
  blockCount : UInt16

/-- `HFSVolume::processEmbeddedHFSPlus`: the offset and the length of the embedded volume. -/
def processEmbeddedHFSPlus (block : MasterDirectoryBlock) : Except String (UInt64 × UInt64) :=
  if block.drEmbedSigWord ≠ 0x482b ∧ block.drEmbedSigWord ≠ 0x4858 then .error "Original HFS is not supported"
  else .ok ((block.drAlBlkSiz * block.startBlock.toUInt32 + 512 * block.drAlBlSt.toUInt32).toUInt64,
    (block.drAlBlkSiz * block.blockCount.toUInt32).toUInt64)

/-- The constructor of `HFSBTreeNode`: where it reads the node. -/
def nodeOffset (nodeIndex : UInt32) (nodeSize : UInt16) : UInt64 := (nodeSize.toUInt32 * nodeIndex).toUInt64

/-- The values computed, each with the product or sum of the fields that it stands for. -/
def values (header : VolumeHeader) (block : MasterDirectoryBlock) (nodeIndex : UInt32) (nodeSize : UInt16) : List (UInt64 × Nat) :=
  ((usage header).1, header.blockSize.toNat * header.totalBlocks.toNat) ::
  ((usage header).2, header.blockSize.toNat * header.freeBlocks.toNat) ::
  (nodeOffset nodeIndex nodeSize, nodeSize.toNat * nodeIndex.toNat) ::
  match processEmbeddedHFSPlus block with
  | .error _ => []
  | .ok (offset, length) =>
    [(offset, block.drAlBlkSiz.toNat * block.startBlock.toNat + 512 * block.drAlBlSt.toNat),
      (length, block.drAlBlkSiz.toNat * block.blockCount.toNat)]

variable {header : VolumeHeader} {block : MasterDirectoryBlock} {nodeIndex : UInt32} {nodeSize : UInt16}

/-- Each value is a residue; that of a node is the position that `BTree.readNode` reads at. -/
theorem values_toNat : ∀ v ∈ values header block nodeIndex nodeSize, v.1.toNat = v.2 % 2 ^ 32 := by
  intro v hv
  simp only [values, processEmbeddedHFSPlus] at hv
  split_ifs at hv <;> simp only [List.mem_cons, List.not_mem_nil, or_false] at hv <;>
    rcases hv with rfl | rfl | rfl | hv <;> simp [usage, nodeOffset]
  rcases hv with rfl | rfl <;> simp

/-- The values are exact just when none of them reaches 2^32. -/
theorem values_exact_iff : (∀ v ∈ values header block nodeIndex nodeSize, v.1.toNat = v.2) ↔
    ∀ v ∈ values header block nodeIndex nodeSize, v.2 < 2 ^ 32 := by
  refine forall₂_congr fun v hv => ?_
  rw [values_toNat v hv]
  exact Nat.mod_eq_iff_lt (by decide)

/-- A volume of 2^20 blocks of 4096 bytes is reported as empty. -/
theorem not_exact_of_four_gigabytes : ¬ ∀ v ∈ values ⟨4096, 1048576, 0⟩ ⟨512, 0, 0, 0, 0⟩ 0 0, v.1.toNat = v.2 := by
  simp [values, usage]

end Osxie.Dmg
