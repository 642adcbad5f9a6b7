import Mathlib.Order.Nat
import Osxie.Dmg.CachedReader
import Osxie.Lib.SortedMap

/-!
# Partitions of a disk image

A `DMGPartition` is described by a BLKX table: runs of sectors, each of its own kind, in any order. The constructor enters the
start of every run that has data in a map, `m_sectors`, where later runs replace earlier ones. The run of a sector is the entry
before the one that `upper_bound` returns; `adviseOptimalBlock` proposes its bytes, or a block of 4096 where it is not
compressed, and `read` goes through the runs of a request.

A disk reader may return fewer bytes than it was asked for, or a negative number, which moves the next write before the buffer;
what it returns may differ from call to call. `read` has no result when it does not come to an end.
-/

namespace Osxie.Dmg

open List Option SortedMap CacheZone

/-- A difference of type uint64_t. -/
def u64Sub (a b : Nat) : Nat := u64 (a + 2 ^ 64 - b)

theorem u64Sub_of_le {a b : Nat} (h : b ≤ a) (ha : a < 2 ^ 64) : u64Sub a b = a - b := by
  unfold u64Sub u64
  rw [show a + 2 ^ 64 - b = (a - b) + 2 ^ 64 by omega, Nat.add_mod_right, Nat.mod_eq_of_lt (by omega)]

/-- `Reader::adviseOptimalBlock`: an aligned block that ends with the contents. -/
def alignedBlock (length offset : Nat) : Nat × Nat :=
  let blockStart := offset / blockSize * blockSize
  let blockEnd := u64 (blockStart + blockSize)
  (blockStart, if length < blockEnd then length else blockEnd)

/-- `RunType`, and the values that have no name. -/
inductive RunType where
  | zeroFill
  | raw
  | unknown
  | adc
  | zlib
  | bzip2
  | lzfse
  | comment
  | terminator
  | other (code : Nat)
deriving DecidableEq

/-- `BLKXRun`. Where the data is compressed, its length is for the decompressor. -/
structure Run where
  type : RunType
  sectorStart : Nat
  sectorCount : Nat
  compOffset : Nat
deriving DecidableEq

namespace Run

variable (r : Run)

/-- The run stands for sectors. -/
def HasData : Prop := r.type ≠ .comment ∧ r.type ≠ .terminator

instance : Decidable r.HasData := inferInstanceAs (Decidable (_ ∧ _))

def Contains (sector : Nat) : Prop := r.sectorStart ≤ sector ∧ sector < r.sectorStart + r.sectorCount

instance (sector : Nat) : Decidable (r.Contains sector) := inferInstanceAs (Decidable (_ ∧ _))

end Run

def sectorSize : Nat := 512

/-- `BLKXTable`. -/
structure Table where
  sectorCount : Nat
  dataStart : Nat
  runs : List Run
deriving DecidableEq

namespace Table

def length (t : Table) : Nat := u64 (t.sectorCount * sectorSize)

/-- The constructor's loop, over the runs with their indices. -/
def enterRuns : List (Run × Nat) → SortedMap Nat Nat → SortedMap Nat Nat
  | [], m => m
  | (r, i) :: rs, m => enterRuns rs (if r.HasData then m.insert r.sectorStart i else m)

/-- `m_sectors`. -/
def sectors (t : Table) : SortedMap Nat Nat := enterRuns t.runs.zipIdx .empty

def adviseOptimalBlock (t : Table) (offset : Nat) : Except String (Nat × Nat) :=
  match t.sectors.upTo (offset / sectorSize) with
  | none => .error "Invalid run sector data"
  | some (start, i) =>
    let blockEnd := match t.sectors.after (offset / sectorSize) with
      | none => t.length
      | some next => u64 (next.1 * sectorSize)
    match (t.runs[i]?).map Run.type with
    | some .zeroFill | some .unknown | some .raw => .ok (alignedBlock t.length offset)
    | _ => .ok (u64 (start * sectorSize), blockEnd)

/-- The runs with data tile the sectors: none is empty or reaches beyond the end, every sector is in one of them and in no
other; and the length in bytes is one. -/
structure Tiles (t : Table) : Prop where
  length_lt : t.sectorCount * sectorSize < 2 ^ 64
  inside : ∀ r ∈ t.runs, r.HasData → 0 < r.sectorCount ∧ r.sectorStart + r.sectorCount ≤ t.sectorCount
  covered : ∀ s < t.sectorCount, ∃ (i : Nat) (r : Run), t.runs[i]? = some r ∧ r.HasData ∧ r.Contains s
  disjoint : ∀ (i j : Nat) (r r' : Run) (s : Nat), t.runs[i]? = some r → r.HasData → r.Contains s →
    t.runs[j]? = some r' → r'.HasData → r'.Contains s → i = j

/-! ## The map of starts -/

variable {rs : List (Run × Nat)} {m : SortedMap Nat Nat} {e : Nat × Nat}

theorem mem_enterRuns (h : e ∈ (enterRuns rs m).entries) :
    (∃ r, (r, e.2) ∈ rs ∧ r.HasData ∧ r.sectorStart = e.1) ∨ e ∈ m.entries := by
  induction rs generalizing m with
  | nil => exact .inr h
  | cons x rs ih =>
    rcases ih h with ⟨r, hr, hd⟩ | h
    · exact .inl ⟨r, mem_cons_of_mem _ hr, hd⟩
    · split at h
      · rename_i hd
        rcases mem_insert.1 h with rfl | ⟨h, -⟩
        · exact .inl ⟨x.1, mem_cons_self, hd, rfl⟩
        · exact .inr h
      · exact .inr h

/-- A start that was entered stays in the map, though a later run may replace its index. -/
theorem start_mem_enterRuns {start i : Nat} (h : (start, i) ∈ m.entries ∨ ∃ r, (r, i) ∈ rs ∧ r.HasData ∧ r.sectorStart = start) :
    ∃ j, (start, j) ∈ (enterRuns rs m).entries := by
  induction rs generalizing m i with
  | nil =>
    rcases h with h | ⟨r, hr, -⟩
    · exact ⟨i, h⟩
    · cases hr
  | cons x rs ih =>
    unfold enterRuns
    rcases h with h | ⟨r, hr, hd, hs⟩
    · by_cases hx : x.1.HasData
      · rw [if_pos hx]
        by_cases he : start = x.1.sectorStart
        · exact ih (.inl (mem_insert.2 (.inl (Prod.ext he rfl))))
        · exact ih (.inl (mem_insert.2 (.inr ⟨h, he⟩)))
      · rw [if_neg hx]
        exact ih (.inl h)
    · rcases mem_cons.1 hr with rfl | hr
      · rw [if_pos hd]
        exact ih (.inl (mem_insert.2 (.inl (Prod.ext hs.symm rfl))))
      · exact ih (.inr ⟨r, hr, hd, hs⟩)

theorem mem_sectors {t : Table} (h : e ∈ t.sectors.entries) : ∃ r, t.runs[e.2]? = some r ∧ r.HasData ∧ r.sectorStart = e.1 := by
  rcases mem_enterRuns h with ⟨r, hr, hd⟩ | h
  · exact ⟨r, mk_mem_zipIdx_iff_getElem?.1 hr, hd⟩
  · cases h

namespace Tiles

variable {t : Table}

variable {i s : Nat} {r : Run}

variable (h : t.Tiles)

include h

theorem length_eq : t.length = t.sectorCount * sectorSize := Nat.mod_eq_of_lt h.length_lt

variable (hi : t.runs[i]? = some r)

include hi

/-- A run contains its first sector. -/
theorem contains_start (hd : r.HasData) : r.Contains r.sectorStart := by
  have := (h.inside r (mem_of_getElem? hi) hd).1
  exact ⟨le_rfl, by omega⟩

/-- The map has the index of the run under its start. -/
theorem start_mem_sectors (hd : r.HasData) : (r.sectorStart, i) ∈ t.sectors.entries := by
  obtain ⟨j, hj⟩ := start_mem_enterRuns (.inr ⟨r, mk_mem_zipIdx_iff_getElem?.2 hi, hd, rfl⟩)
  obtain ⟨r', hr', hd', hs⟩ := mem_sectors hj
  have hc : r'.Contains r.sectorStart := by
    have := h.contains_start hr' hd'
    rwa [hs] at this
  rw [h.disjoint i j r r' _ hi hd (h.contains_start hi hd) hr' hd' hc]
  exact hj

/-- The entry before the one that `upper_bound` returns is that of the run which contains the sector. -/
theorem upTo_sectors (hd : r.HasData) (hc : r.Contains s) : t.sectors.upTo s = some (r.sectorStart, i) := by
  have hmem := h.start_mem_sectors hi hd
  obtain ⟨e, he⟩ := exists_upTo hmem hc.1
  obtain ⟨hemem, hle, hmax⟩ := of_upTo_eq_some he
  obtain ⟨r', hr', hd', hs⟩ := mem_sectors hemem
  -- the start found lies in both runs
  have hboth : r.Contains e.1 := ⟨hmax _ hmem hc.1, Nat.lt_of_le_of_lt hle hc.2⟩
  have hij := h.disjoint i e.2 r r' e.1 hi hd hboth hr' hd' (hs ▸ h.contains_start hr' hd')
  have hr : r = r' := by
    rw [← hij, hi] at hr'
    exact some.inj hr'
  rw [he, hij, hr, hs]

omit hi in
/-- The next entry begins inside the partition. -/
theorem after_sectors {e : Nat × Nat} (he : t.sectors.after s = some e) : s < e.1 ∧ e.1 < t.sectorCount := by
  obtain ⟨hmem, hlt, -⟩ := of_after_eq_some he
  obtain ⟨r, hr, hd, hs⟩ := mem_sectors hmem
  have := h.inside r (mem_of_getElem? hr) hd
  exact ⟨hlt, by omega⟩

/-- Where a run ends, the next one begins. -/
theorem start_of_end {j : Nat} {r' : Run} (hd : r.HasData) (hj : t.runs[j]? = some r') (hd' : r'.HasData)
    (hc : r'.Contains (r.sectorStart + r.sectorCount)) : r'.sectorStart = r.sectorStart + r.sectorCount := by
  by_contra hne
  have hpos := (h.inside r (mem_of_getElem? hi) hd).1
  unfold Run.Contains at hc
  have hij := h.disjoint i j r r' (r.sectorStart + r.sectorCount - 1) hi hd ⟨by omega, by omega⟩ hj hd' ⟨by omega, by omega⟩
  rw [← hij, hi] at hj
  cases hj
  omega

end Tiles

end Table

end Osxie.Dmg
