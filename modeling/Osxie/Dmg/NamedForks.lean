import Osxie.Dmg.Catalog
import Osxie.Dmg.Fork

/-!
# Paths of resource forks

A path with the suffix `#..namedfork#rsrc` stands for the resource fork of a file. `stat` and `openFile` of `HFSHighLevelVolume`
take `sizeof(RESOURCE_FORK_SUFFIX) - 1` characters off such a path. The suffix is declared as a pointer, so that these are 7 and
not 17. `get_decmpfs` and the catalog are parameters.
-/

namespace Osxie.Dmg

structure ForkData where
  logicalSize : Nat
  totalBlocks : Nat
  extents : List Extent

/-- `HFSPlusCatalogFileOrFolder`: what is read of it here. -/
structure CatalogRecord where
  isFile : Bool
  fileID : Nat
  compressed : Bool
  dataFork : ForkData
  resourceFork : ForkData

/-- `HFSHighLevelVolume`: the volume, `HFSCatalogBTree::stat`, and the size that `get_decmpfs` finds. -/
structure HighLevelVolume where
  volume : Volume
  record : Text → Option CatalogRecord
  decmpfs : Nat → Option Nat

/-- The fields of `struct stat` that differ between the forks, and the inode. -/
structure Stat where
  ino : Nat
  size : Nat
  blocks : Nat
deriving DecidableEq

/-- What `openFile` returns: a fork, or a reader of what a compressed file holds. The `CachedReader` around it is left out. -/
inductive OpenedFile
  | fork (f : Fork)
  | decompressed (cnid size : Nat)

namespace HighLevelVolume

def resourceForkSuffix : Text := "#..namedfork#rsrc".toList

/-- `sizeof(RESOURCE_FORK_SUFFIX)`: that of a pointer. -/
def sizeofSuffix : Nat := 8

def stringEndsWith (str what : Text) : Bool := decide (what.length ≤ str.length) && str.drop (str.length - what.length) == what

/-- The path without the suffix, and whether it had one. -/
def spath (path : Text) : Text × Bool :=
  if stringEndsWith path resourceForkSuffix then (path.take (path.length - (sizeofSuffix - 1)), true) else (path, false)

variable (v : HighLevelVolume) (ff : CatalogRecord)

/-- `hfs_nativeToStat`: a folder has no size. -/
def nativeToStat (resourceFork : Bool) : Stat :=
  let fork := if resourceFork then ff.resourceFork else ff.dataFork
  if ff.isFile then ⟨ff.fileID, fork.logicalSize, fork.totalBlocks⟩ else ⟨ff.fileID, 0, 0⟩

def nativeToStatDecmpfs (resourceFork : Bool) : Stat :=
  let stat := nativeToStat ff resourceFork
  if ff.compressed ∧ stat.size = 0 then { stat with size := (v.decmpfs ff.fileID).getD 0 } else stat

variable (path : Text)

/-- `HFSHighLevelVolume::stat`; it throws `file_not_found_error` with the path. -/
def stat : Except Text Stat :=
  match v.record (spath path).1 with
  | none => .error (spath path).1
  | some ff => .ok (v.nativeToStatDecmpfs ff (spath path).2)

def openFork (resourceFork : Bool) : Option Fork :=
  match v.record path with
  | none => none
  | some ff =>
    let fork := if resourceFork then ff.resourceFork else ff.dataFork
    if ff.isFile then some ⟨v.volume, fork.logicalSize, fork.extents, ff.fileID, resourceFork⟩ else none

def openFile : Except Text OpenedFile :=
  let compressed := if (spath path).2 then none else (v.record (spath path).1).filter (·.compressed)
  match compressed with
  | some ff =>
    match v.decmpfs ff.fileID with
    | none => .error path
    | some size => .ok (.decompressed ff.fileID size)
  | none =>
    match v.openFork (spath path).1 (spath path).2 with
    | none => .error path
    | some f => .ok (.fork f)

/-- The path with the suffix describes the resource fork of a record: inode, size, and the fork that is read. -/
structure Describes (path : Text) (ff : CatalogRecord) : Prop where
  stat : ∃ st, v.stat (path ++ resourceForkSuffix) = .ok st ∧ st.ino = ff.fileID ∧ st.size = ff.resourceFork.logicalSize
  file : v.openFile (path ++ resourceForkSuffix) =
    .ok (.fork ⟨v.volume, ff.resourceFork.logicalSize, ff.resourceFork.extents, ff.fileID, true⟩)

/-- Seven characters are taken off. -/
theorem spath_append : spath (path ++ resourceForkSuffix) = (path ++ resourceForkSuffix.take 10, true) := by
  have hlen : resourceForkSuffix.length = 17 := rfl
  have h : stringEndsWith (path ++ resourceForkSuffix) resourceForkSuffix = true := by simp [stringEndsWith]
  rw [spath, if_pos h]
  simp [sizeofSuffix, hlen, List.take_append, List.take_of_length_le]

variable {v}

/-- A path describes the resource fork of a record just when the path with ten characters of the suffix leads to a file with
the same ID and the same resource fork, which is not empty if the file is compressed. -/
theorem describes_iff {path : Text} {ff : CatalogRecord} : v.Describes path ff ↔
    ∃ found, v.record (path ++ resourceForkSuffix.take 10) = some found ∧ found.isFile ∧ found.fileID = ff.fileID ∧
      found.resourceFork.logicalSize = ff.resourceFork.logicalSize ∧ found.resourceFork.extents = ff.resourceFork.extents ∧
      (found.compressed → ff.resourceFork.logicalSize = 0 → (v.decmpfs ff.fileID).getD 0 = 0) := by
  constructor
  · rintro ⟨⟨st, hst, hino, hsz⟩, hfl⟩
    simp only [HighLevelVolume.stat, openFile, openFork, spath_append] at hst hfl
    cases hfound : v.record (path ++ resourceForkSuffix.take 10) with
    | none => simp [hfound] at hst
    | some found =>
      cases hkn : found.isFile <;> simp [hfound, hkn] at hfl
      obtain ⟨hlog, hext, hid⟩ := hfl
      refine ⟨found, rfl, hkn, hid, hlog, hext, fun hc hz => ?_⟩
      simp [hfound, nativeToStatDecmpfs, nativeToStat, hkn, hc, hlog, hz, hid] at hst
      rw [← hst] at hsz
      exact hsz.trans hz
  · rintro ⟨found, hfound, hkn, hid, hsz, hext, hcp⟩
    refine ⟨⟨_, by rw [HighLevelVolume.stat, spath_append, hfound], ?_⟩, ?_⟩
    · simp only [nativeToStatDecmpfs, nativeToStat, hkn, hid, if_true, hsz]
      split_ifs with h
      · exact ⟨rfl, (hcp h.1 h.2).trans h.2.symm⟩
      · exact ⟨rfl, rfl⟩
    · simp [openFile, openFork, spath_append, hfound, hkn, hid, hsz, hext]

/-- A volume with one file. -/
theorem not_describes_of_one_file : ∃ (v : HighLevelVolume) (ff : CatalogRecord), v.record ['/', 'a'] = some ff ∧ ff.isFile ∧
    ¬ v.Describes ['/', 'a'] ff := by
  let ff : CatalogRecord := ⟨true, 16, false, ⟨0, 0, []⟩, ⟨0, 0, []⟩⟩
  refine ⟨⟨⟨4096, ⟨0, 0, 0, fun _ => .error 0⟩, fun _ _ => (0, [])⟩, fun path => if path = ['/', 'a'] then some ff else none,
    fun _ => none⟩, ff, rfl, rfl, ?_⟩
  rw [describes_iff]
  rintro ⟨found, h, -⟩
  cases h

end HighLevelVolume

end Osxie.Dmg
