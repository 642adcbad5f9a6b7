import Osxie.Dmg.Partition

/-!
# What readers advise

`adviseOptimalBlock` of a reader proposes the range to fetch for a position. Readers are nested: a `SubReader` is a window of
its parent, a `DMGPartition` is on a disk, forks and compressed files read from others, and a `CachedReader` from any. A
`SubReader` asks its parent, shifts the range and clips it.
-/

namespace Osxie.Dmg

open Nat CachedReader
open CacheZone (blockSize)

/-- `RUN_LENGTH`: compressed files are made of runs of 64 KiB. -/
def runLength : Nat := 64 * 1024

/-- The readers, with what their lengths and ranges depend on. -/
inductive Reader where
  | file (length : Nat)
  | memory (data : List UInt8)
  | sub (parent : Reader) (offset size : Nat)
  | partition (disk : Reader) (table : Table)
  | fork (volume : Reader) (logicalSize : Nat)
  | zlib (parent : Reader) (uncompressedSize : Nat)
  | cached (reader : Reader)

namespace Reader

def length : Reader → Nat
  | file length => length
  | memory data => data.length
  | sub _ _ size => size
  | partition _ table => table.length
  | fork _ logicalSize => logicalSize
  | zlib _ uncompressedSize => uncompressedSize
  | cached reader => reader.length

/-- `SubReader::adviseOptimalBlock`, after its parent was asked. -/
def clip (offset size : Nat) (range : Nat × Nat) : Nat × Nat :=
  let blockStart := if range.1 < offset then offset else range.1
  let blockEnd := u64Sub range.2 offset
  (blockStart - offset, if size < blockEnd then size else blockEnd)

def adviseOptimalBlock : Reader → Nat → Except String (Nat × Nat)
  | file length, pos => .ok (alignedBlock length pos)
  | memory data, pos => .ok (alignedBlock data.length pos)
  | sub parent offset size, pos => (parent.adviseOptimalBlock (u64 (offset + pos))).map (clip offset size)
  | partition _ table, pos => table.adviseOptimalBlock pos
  | fork _ logicalSize, pos => .ok (alignedBlock logicalSize pos)
  | zlib _ uncompressedSize, pos =>
    .ok (pos / runLength * runLength, min (u64 (pos / runLength * runLength + runLength)) uncompressedSize)
  | cached reader, pos => .ok (alignedBlock reader.length pos)

/-- Every window lies inside its parent, the runs of every partition tile it, and lengths are of 64 bits. -/
def WellFormed : Reader → Prop
  | file length => length < 2 ^ 64
  | memory data => data.length < 2 ^ 64
  | sub parent offset size => parent.WellFormed ∧ offset + size ≤ parent.length
  | partition disk table => disk.WellFormed ∧ table.Tiles
  | fork volume logicalSize => volume.WellFormed ∧ logicalSize < 2 ^ 64
  | zlib parent uncompressedSize => parent.WellFormed ∧ uncompressedSize < 2 ^ 64
  | cached reader => reader.WellFormed

/-- The end of the block of a position does not fit 64 bits. -/
def EndWraps (size pos : Nat) : Prop := 2 ^ 64 ≤ pos / size * size + size

instance (size pos : Nat) : Decidable (EndWraps size pos) := decLe _ _

/-- A position is in a run for which an aligned block is advised. -/
def InPlainRun (t : Table) (pos : Nat) : Prop :=
  ∃ r ∈ t.runs, r.HasData ∧ r.Contains (pos / sectorSize) ∧ (r.type = .zeroFill ∨ r.type = .unknown ∨ r.type = .raw)

/-- The end of the range advised for a position wraps around. -/
def Wraps : Reader → Nat → Prop
  | sub parent offset _, pos => offset = 0 ∧ parent.Wraps pos
  | partition _ table, pos => InPlainRun table pos ∧ EndWraps blockSize pos
  | zlib _ _, pos => EndWraps runLength pos
  | _, pos => EndWraps blockSize pos

/-- The range advised for a position can be used: it contains the position and lies inside the contents. -/
def Usable (r : Reader) (pos : Nat) : Prop :=
  ∃ blockStart blockEnd, r.adviseOptimalBlock pos = .ok (blockStart, blockEnd) ∧ blockStart ≤ pos ∧ pos < blockEnd ∧
    blockEnd ≤ r.length

theorem WellFormed.length_lt {r : Reader} (h : r.WellFormed) : r.length < 2 ^ 64 := by
  induction r with
  | file length | memory data => exact h
  | sub parent offset size ih =>
    have hp := ih h.1
    have hin := h.2
    show size < 2 ^ 64
    omega
  | partition disk table =>
    show table.length < 2 ^ 64
    rw [h.2.length_eq]
    exact h.2.length_lt
  | fork volume logicalSize | zlib parent uncompressedSize => exact h.2
  | cached reader ih => exact ih h

/-! ## The range of a position -/

/-- A range that begins before its position, and either ends behind it and inside the contents or was wrapped around to 0. -/
def Fits (length pos : Nat) (wraps : Prop) (range : Nat × Nat) : Prop :=
  range.1 ≤ pos ∧ (wraps → range.2 = 0) ∧ (¬ wraps → pos < range.2 ∧ range.2 ≤ length)

/-- A block of a size that divides 2^64, cut at the end of the contents. -/
theorem block_fits (size k : Nat) {length pos : Nat} (hsz : size * k = 2 ^ 64) (hpos : pos < length) (hlen : length < 2 ^ 64) :
    Fits length pos (EndWraps size pos) (pos / size * size, min (u64 (pos / size * size + size)) length) := by
  have hs : 0 < size := Nat.pos_of_ne_zero fun h => by simp [h] at hsz
  have hmod := div_add_mod pos size
  have hlt := mod_lt pos hs
  rw [mul_comm] at hmod
  refine ⟨div_mul_le_self pos size, fun hw => ?_, fun hw => ?_⟩
  · -- the block is the last one below 2^64
    have hk : pos / size + 1 = k := by
      have hup : size * k ≤ size * (pos / size + 1) := by
        rw [hsz, mul_add, mul_one, mul_comm]
        exact hw
      have hdown : pos / size < k := Nat.div_lt_of_lt_mul (by rw [hsz]; omega)
      have := Nat.le_of_mul_le_mul_left hup hs
      omega
    have hend : pos / size * size + size = 2 ^ 64 := by rw [← hsz, ← hk, mul_comm size, add_mul, one_mul]
    rw [hend, u64, Nat.mod_self, Nat.zero_min]
  · unfold EndWraps at hw
    rw [u64]
    omega

theorem alignedBlock_fits {length pos : Nat} (hpos : pos < length) (hlen : length < 2 ^ 64) :
    Fits length pos (EndWraps blockSize pos) (alignedBlock length pos) := by
  have h := block_fits blockSize (2 ^ 52) (by decide) hpos hlen
  have heq : ∀ e, (if length < e then length else e) = min e length := by
    intro e
    rw [min_def]
    split <;> split <;> omega
  simp only [alignedBlock, heq]
  exact h

/-- Clipping: a range of the parent becomes one of the window, and an end that was wrapped around is the window's end when the
window does not begin at 0. -/
theorem clip_fits {plength offset size pos : Nat} {wraps : Prop} {range : Nat × Nat} (hplen : plength < 2 ^ 64)
    (hin : offset + size ≤ plength) (hpos : pos < size) (h : Fits plength (offset + pos) wraps range) :
    Fits size pos (offset = 0 ∧ wraps) (clip offset size range) := by
  obtain ⟨hsta, hwr, hends⟩ := h
  refine ⟨?_, fun hw => ?_, fun hw => ?_⟩
  · show (if range.1 < offset then offset else range.1) - offset ≤ pos
    split <;> omega
  · simp only [clip, hwr hw.2, hw.1, u64Sub]
    rfl
  · have hclip : (clip offset size range).2 = min (u64Sub range.2 offset) size := by
      simp only [clip, min_def]
      split <;> split <;> omega
    rw [hclip]
    by_cases hp : wraps
    · have hoff : offset ≠ 0 := fun h0 => hw ⟨h0, hp⟩
      have : u64Sub range.2 offset = 2 ^ 64 - offset := by
        rw [hwr hp, u64Sub, u64, zero_add, mod_eq_of_lt (by omega)]
      omega
    · obtain ⟨hlt, hle⟩ := hends hp
      rw [u64Sub_of_le (by omega) (by omega)]
      omega

variable {pos : Nat}

/-- The bytes from the start of a run to that of the next one, or to the end. -/
theorem runBlock_fits {t : Table} (ht : t.Tiles) {r : Run} (hc : r.Contains (pos / sectorSize)) (hpos : pos < t.length)
    (wraps : Prop) (hw : ¬ wraps) :
    Fits t.length pos wraps (u64 (r.sectorStart * sectorSize), match t.sectors.after (pos / sectorSize) with
      | none => t.length
      | some next => u64 (next.1 * sectorSize)) := by
  have hlen := ht.length_eq
  have hfit := ht.length_lt
  have hsta : r.sectorStart * sectorSize ≤ pos := le_trans (mul_le_mul_right _ hc.1) (div_mul_le_self _ _)
  refine ⟨?_, fun h => absurd h hw, fun _ => ?_⟩
  · rw [u64, mod_eq_of_lt (by omega)]
    exact hsta
  · cases ha : t.sectors.after (pos / sectorSize) with
    | none => exact ⟨hpos, le_rfl⟩
    | some next =>
      obtain ⟨hlt, hle⟩ := ht.after_sectors ha
      have hend : next.1 * sectorSize ≤ t.length := by
        rw [hlen]
        exact mul_le_mul_right _ (le_of_lt hle)
      show pos < u64 (next.1 * sectorSize) ∧ u64 (next.1 * sectorSize) ≤ t.length
      rw [u64, mod_eq_of_lt (by omega)]
      exact ⟨(div_lt_iff_lt_mul (by decide)).1 hlt, hend⟩

/-- The range that a partition advises. -/
theorem partition_fits {t : Table} (ht : t.Tiles) (hpos : pos < t.length) :
    ∃ range, t.adviseOptimalBlock pos = .ok range ∧
      Fits t.length pos (InPlainRun t pos ∧ EndWraps blockSize pos) range := by
  have hlen := ht.length_eq
  have hlt : t.length < 2 ^ 64 := hlen ▸ ht.length_lt
  obtain ⟨i, r, hi, hd, hc⟩ := ht.covered (pos / sectorSize) (Nat.div_lt_of_lt_mul (by rwa [Nat.mul_comm, ← hlen]))
  have hty : (t.runs[i]?).map Run.type = some r.type := by rw [hi, Option.map_some]
  have hplain : InPlainRun t pos ↔ r.type = .zeroFill ∨ r.type = .unknown ∨ r.type = .raw := by
    constructor
    · rintro ⟨r', hr', hd', hc', ht'⟩
      obtain ⟨j, hj⟩ := List.mem_iff_getElem?.1 hr'
      have hij := ht.disjoint i j r r' _ hi hd hc hj hd' hc'
      rw [← hij, hi] at hj
      rwa [Option.some.inj hj]
    · exact fun h => ⟨r, List.mem_of_getElem? hi, hd, hc, h⟩
  -- an aligned block, or the bytes of the run
  have hal : (r.type = .zeroFill ∨ r.type = .unknown ∨ r.type = .raw) →
      Fits t.length pos (InPlainRun t pos ∧ EndWraps blockSize pos) (alignedBlock t.length pos) := by
    intro h
    obtain ⟨h1, h2, h3⟩ := alignedBlock_fits hpos hlt
    exact ⟨h1, fun hw => h2 hw.2, fun hw => h3 fun he => hw ⟨hplain.2 h, he⟩⟩
  have hrun : ¬ (r.type = .zeroFill ∨ r.type = .unknown ∨ r.type = .raw) → _ := fun h =>
    runBlock_fits ht hc hpos (InPlainRun t pos ∧ EndWraps blockSize pos) fun hw => h (hplain.1 hw.1)
  simp only [Table.adviseOptimalBlock, ht.upTo_sectors hi hd hc, hty]
  cases hr : r.type with
  | zeroFill | unknown | raw => exact ⟨_, rfl, hal (by simp [hr])⟩
  | adc | zlib | bzip2 | lzfse | comment | terminator | other code => exact ⟨_, rfl, hrun (by simp [hr])⟩

/-- Every reader advises a range that begins before the position, and ends behind it and inside the contents, or was wrapped
around to 0. -/
theorem advise_fits {r : Reader} (hwf : r.WellFormed) (hpos : pos < r.length) :
    ∃ range, r.adviseOptimalBlock pos = .ok range ∧ Fits r.length pos (r.Wraps pos) range := by
  induction r generalizing pos with
  | file length | memory data => exact ⟨_, rfl, alignedBlock_fits hpos hwf⟩
  | sub parent offset size ih =>
    have hplen := hwf.1.length_lt
    have hin := hwf.2
    have hpos' : pos < size := hpos
    have hins : offset + pos < parent.length := by omega
    obtain ⟨range, hr, hft⟩ := ih hwf.1 hins
    have hshift : u64 (offset + pos) = offset + pos := mod_eq_of_lt (by omega)
    refine ⟨clip offset size range, by rw [adviseOptimalBlock, hshift, hr]; rfl, ?_⟩
    have hclip := clip_fits hplen hin hpos hft
    -- at 0 the position is the same in the parent
    have hwr : (offset = 0 ∧ parent.Wraps (offset + pos)) ↔ (sub parent offset size).Wraps pos := by
      constructor
      · rintro ⟨rfl, h⟩
        exact ⟨rfl, by rwa [zero_add] at h⟩
      · rintro ⟨rfl, h⟩
        exact ⟨rfl, by rwa [zero_add]⟩
    rw [hwr] at hclip
    exact hclip
  | partition disk table => exact partition_fits hwf.2 hpos
  | fork volume logicalSize => exact ⟨_, rfl, alignedBlock_fits hpos hwf.2⟩
  | zlib parent uncompressedSize => exact ⟨_, rfl, block_fits runLength (2 ^ 48) (by decide) hpos hwf.2⟩
  | cached reader => exact ⟨_, rfl, alignedBlock_fits hpos hwf.length_lt⟩

/-! ## Reads that are not in the cache -/

/-- The range advised, when none is thrown. -/
def advised (r : Reader) (pos : Nat) : Nat × Nat :=
  match r.adviseOptimalBlock pos with
  | .ok range => range
  | .error _ => (0, 0)

theorem advised_of_not_wraps {r : Reader} (hwf : r.WellFormed) (hpos : pos < r.length) (hw : ¬ r.Wraps pos) :
    (r.advised pos).1 ≤ pos ∧ pos < (r.advised pos).2 := by
  obtain ⟨range, hr, hsta, -, hend⟩ := advise_fits hwf hpos
  rw [advised, hr]
  exact ⟨hsta, (hend hw).1⟩

end Reader

namespace CachedReader

variable {τ : Type} [DecidableEq τ]

def illegalRange : String := "Illegal range returned by adviseOptimalBlock()"

/-- With ranges that contain their positions the loop of `nonCachedRead` does not raise the error, and every round gets on: any
number of rounds that is at least the number of bytes left gives the same. -/
theorem nonCachedFrom_of_contains (r : CachedReader τ) (bufPos : Nat) {count offset : Nat} (hfit : offset + count < 2 ^ 64) :
    ∀ n readPos buf z, (∀ pos, readPos ≤ pos → pos < offset + count → (r.advise pos).1 ≤ pos ∧ pos < (r.advise pos).2) →
      (r.nonCachedFrom bufPos count offset n readPos buf z).1 ≠ .error illegalRange ∧
      ∀ m, offset + count ≤ readPos + n → offset + count ≤ readPos + m →
        r.nonCachedFrom bufPos count offset m readPos buf z = r.nonCachedFrom bufPos count offset n readPos buf z := by
  have hend : u64 (offset + count) = offset + count := mod_eq_of_lt hfit
  -- past the end nothing is left to do
  have hst : ∀ n readPos buf z, ¬ readPos < offset + count →
      r.nonCachedFrom bufPos count offset n readPos buf z = (.ok buf, z) := by
    intro n readPos buf z h
    cases n with
    | zero => rw [nonCachedFrom]
    | succ n => simp only [nonCachedFrom, hend, if_neg h]
  intro n
  induction n with
  | zero =>
    intro readPos buf z _
    refine ⟨by simp [nonCachedFrom], fun m hn _ => ?_⟩
    rw [hst m _ _ _ (by omega), hst 0 _ _ _ (by omega)]
  | succ n ih =>
    intro readPos buf z hrange
    by_cases hlt : readPos < offset + count
    · obtain ⟨hsta, hpast⟩ := hrange readPos le_rfl hlt
      have hlg : ¬ (readPos < (r.advise readPos).1 ∨ (r.advise readPos).2 ≤ readPos) := by omega
      by_cases hlr : int32Max < (r.advise readPos).2 - (r.advise readPos).1
      · simp only [nonCachedFrom, hend, if_pos hlt, if_neg hlg, if_pos hlr]
        refine ⟨by simp [illegalRange], fun m _ hm => ?_⟩
        obtain _ | m := m
        · omega
        simp only [nonCachedFrom, hend, if_pos hlt, if_neg hlg, if_pos hlr]
      · generalize hrd : r.reader.read ((r.advise readPos).2 - (r.advise readPos).1) (r.advise readPos).1 = rd
        by_cases hsh : rd.1 < (r.advise readPos).2 - (r.advise readPos).1
        · simp only [nonCachedFrom, hend, if_pos hlt, if_neg hlg, if_neg hlr, hrd, if_pos hsh]
          refine ⟨by simp [illegalRange], fun m _ hm => ?_⟩
          obtain _ | m := m
          · omega
          simp only [nonCachedFrom, hend, if_pos hlt, if_neg hlg, if_neg hlr, hrd, if_pos hsh]
        · simp only [nonCachedFrom, hend, if_pos hlt, if_neg hlg, if_neg hlr, hrd, if_neg hsh]
          -- at least one byte is copied
          generalize hcopy : min (offset + count - readPos)
            ((r.advise readPos).2 - (r.advise readPos).1 - (readPos - (r.advise readPos).1)) = toCopy
          obtain ⟨hok, hsm⟩ := ih (readPos + toCopy) (buf.copy (bufPos + (readPos - offset)) rd.2
              (readPos - (r.advise readPos).1) toCopy) _ (fun pos hge hle => hrange pos (by omega) hle)
          refine ⟨hok, fun m hn hm => ?_⟩
          obtain _ | m := m
          · omega
          simp only [nonCachedFrom, hend, if_pos hlt, if_neg hlg, if_neg hlr, hrd, if_neg hsh, hcopy]
          exact hsm m (by omega) (by omega)
    · refine ⟨by simp [hst _ _ _ _ hlt], fun m _ _ => ?_⟩
      rw [hst _ _ _ _ hlt, hst _ _ _ _ hlt]

end CachedReader

namespace Reader

variable {τ : Type} [DecidableEq τ]

/-- The range advised for a position below the length can be used if and only if its end does not wrap around. And for a request
inside the contents none of whose positions does so, a cached reader over such a reader does not find an illegal range, and
every round of its `nonCachedRead` gets on: more rounds than the request has bytes change nothing. -/
theorem usable_iff_not_wraps (r : Reader) (hwf : r.WellFormed) :
    (∀ pos < r.length, r.Usable pos ↔ ¬ r.Wraps pos) ∧
    ∀ (b : Backing) (tag : τ) (buf : Buffer) (z : CacheZone τ) (bufPos count offset : Nat), offset + count ≤ r.length →
      (∀ pos, offset ≤ pos → pos < offset + count → ¬ r.Wraps pos) →
      (nonCachedRead ⟨b, tag, r.advised⟩ buf bufPos count offset z).1 ≠
        .error "Illegal range returned by adviseOptimalBlock()" ∧
      ∀ rounds ≥ count, nonCachedFrom ⟨b, tag, r.advised⟩ bufPos count offset rounds offset buf z =
        nonCachedRead ⟨b, tag, r.advised⟩ buf bufPos count offset z := by
  refine ⟨fun pos hpos => ?_, fun b tag buf z bufPos count offset hin hwr => ?_⟩
  · obtain ⟨range, hr, hsta, hze, hend⟩ := advise_fits hwf hpos
    constructor
    · rintro ⟨s, e, hse, -, hlt, -⟩ hw
      rw [hr, Except.ok.injEq] at hse
      have := hze hw
      rw [hse] at this
      omega
    · exact fun hw => ⟨range.1, range.2, hr, hsta, (hend hw).1, (hend hw).2⟩
  · have hfit : offset + count < 2 ^ 64 := lt_of_le_of_lt hin hwf.length_lt
    have hrun := nonCachedFrom_of_contains ⟨b, tag, r.advised⟩ bufPos hfit count offset buf z
      fun pos hge hlt => advised_of_not_wraps hwf (by omega) (hwr pos hge hlt)
    exact ⟨hrun.1, fun rounds hr => hrun.2 rounds le_rfl (by omega)⟩

/-- A window of a compressed file in a fork of a file, over the border of two runs. -/
theorem usable_iff_not_wraps_window : (sub (zlib (fork (file 100000) 70000) 140000) 65000 2000).Usable 536 := by
  refine ((usable_iff_not_wraps (τ := Unit) (sub (zlib (fork (file 100000) 70000) 140000) 65000 2000) ?_).1 536 (by decide)).2 ?_
  · refine ⟨⟨⟨?_, ?_⟩, ?_⟩, ?_⟩
    · show 100000 < 2 ^ 64
      decide
    · decide
    · decide
    · decide
  · rintro ⟨h, -⟩
    cases h

/-- One run of zeros, as many sectors as have a length of 64 bits. -/
def hugeTable : Table := ⟨2 ^ 55 - 1, 0, [⟨.zeroFill, 0, 2 ^ 55 - 1, 0⟩]⟩

theorem hugeTable_tiles : hugeTable.Tiles where
  length_lt := by decide
  inside := by decide
  covered := fun s hs => ⟨0, _, rfl, by decide, zero_le s, by rw [zero_add]; exact hs⟩
  disjoint := fun i j r r' s hi _ _ hj _ _ => by
    obtain ⟨hi', -⟩ := List.getElem?_eq_some_iff.1 hi
    obtain ⟨hj', -⟩ := List.getElem?_eq_some_iff.1 hj
    have : hugeTable.runs.length = 1 := rfl
    omega

/-- A partition of zeros whose length is 2^64 - 512: the range advised for its last byte ends at 0. -/
theorem advice_ends_at_zero : ∃ r : Reader, r.WellFormed ∧ ∃ pos < r.length, ¬ r.Usable pos := by
  refine ⟨partition (file 0) hugeTable, ⟨?_, hugeTable_tiles⟩, 2 ^ 64 - 513, by decide, ?_⟩
  · show 0 < 2 ^ 64
    decide
  · rintro ⟨s, e, hse, -, hlt, -⟩
    have hadv : hugeTable.adviseOptimalBlock (2 ^ 64 - 513) = .ok (2 ^ 64 - 4096, 0) := by decide +kernel
    rw [adviseOptimalBlock, hadv, Except.ok.injEq, Prod.mk.injEq] at hse
    omega

end Reader

end Osxie.Dmg
