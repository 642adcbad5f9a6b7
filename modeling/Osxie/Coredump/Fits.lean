import Mathlib.Algebra.Order.BigOperators.Group.List
import Osxie.Coredump.Image

/-!
# Which cores are converted

For an area with bytes in a file, the size of these bytes is compared with the size in memory.
-/

namespace Osxie.Coredump

open List Option Nat VmArea ProgramHeader Coredump.Core

section

variable (core : Core) (openFile : Path → Option (List UInt8))

def areaContents (vma : VmArea) : List UInt8 :=
  match vma.filename with
  | some filename => fileContents openFile filename vma.fileOffset vma.memorySize
  | none => slice core.mapping vma.fileOffset vma.fileSize ++ zeros (vma.memorySize - vma.fileSize)

/-- An area in a file that is as large as its part of the file. -/
def AreaFits (vma : VmArea) : Prop :=
  ∀ filename ∈ vma.filename, vma.fileSize = vma.memorySize ∧ Reaches openFile filename vma.fileOffset vma.fileSize

/-- The areas of a valid core. -/
structure AreaOk (vma : VmArea) : Prop where
  memory : vma.memorySize < 2 ^ 62
  size : vma.fileSize < 2 ^ 62
  inCore : vma.filename = none → vma.fileSize ≤ vma.memorySize ∧ vma.fileOffset + vma.fileSize ≤ core.mapping.length
  inFile : ∀ filename ∈ vma.filename, vma.memorySize ≤ vma.fileSize ∧ vma.fileOffset < 2 ^ 64

end

theorem sub64_of_le {a b : Nat} (h : b ≤ a) (ha : a < 2 ^ 64) : sub64 a b = a - b := by
  rw [sub64]
  omega

section

variable {core : Core} {openFile : Path → Option (List UInt8)} {vma : VmArea}

/-! ## One area -/

theorem bytesOf_of_pieces {p : List UInt8 × Nat} (h : pieces core openFile vma = some p) :
    bytesOf core openFile vma = p.1 ++ zeros p.2 := by
  rw [bytesOf, h]

theorem length_fileContents (filename : Path) (offset size : Nat) : (fileContents openFile filename offset size).length = size := by
  unfold fileContents
  split
  · exact length_zeros size
  · rw [length_append, length_zeros, slice, length_take]
    omega

/-- A slice of a file, filled up with zeros, when the pages reach far enough. -/
theorem slice_pagesOf {file : List UInt8} {offset size : Nat} (h : offset + size ≤ (pagesOf file).length) :
    slice (pagesOf file) offset size = slice file offset size ++ zeros (size - (slice file offset size).length) := by
  have hlen := length_slice h
  unfold pagesOf slice at *
  rw [drop_append, take_append]
  refine congrArg _ ?_
  rw [drop_append, take_append, length_append] at hlen
  rw [zeros, drop_replicate, take_replicate]
  refine congrArg (replicate · 0) ?_
  rw [zeros, drop_replicate, take_replicate, length_replicate] at hlen
  omega

section

variable (hok : AreaOk core vma)

include hok

/-- For an area that fits, its contents are written. -/
theorem bytesOf_of_fits (hft : AreaFits openFile vma) :
    (pieces core openFile vma).isSome ∧ bytesOf core openFile vma = areaContents core openFile vma := by
  have hp : ∃ p, pieces core openFile vma = some p ∧ p.1 ++ zeros p.2 = areaContents core openFile vma := by
    unfold pieces areaContents
    cases hnm : vma.filename with
    | none =>
      obtain ⟨hle, -⟩ := hok.inCore hnm
      have hsub := sub64_of_le hle (by have := hok.memory; omega)
      by_cases hsz : vma.fileSize = 0
      · rw [hsz]
        exact ⟨_, rfl, by rw [slice_zero]; rfl⟩
      · rw [if_neg hsz]
        exact ⟨_, rfl, by rw [hsub]⟩
    | some filename =>
      obtain ⟨heq, hreac⟩ := hft filename hnm
      by_cases hsz : vma.fileSize = 0
      · rw [if_pos hsz]
        refine ⟨_, rfl, ?_⟩
        rw [← heq, hsz]
        exact (eq_nil_of_length_eq_zero (length_fileContents ..)).symm
      · rw [if_neg hsz]
        dsimp only
        unfold fileContents
        cases hrd : readable openFile filename with
        | none => exact ⟨_, rfl, by rw [heq]; rfl⟩
        | some file =>
          have hpages := hreac (pos_of_ne_zero hsz) file hrd
          dsimp only
          rw [mappedBytes_eq (hok.inFile filename hnm).2 hok.size, if_neg fun hc => absurd hc.2 (not_lt.2 hpages)]
          refine ⟨_, rfl, ?_⟩
          rw [← heq, sub64_self, slice_pagesOf hpages]
          exact append_nil _
  obtain ⟨p, hp, hcount⟩ := hp
  exact ⟨by rw [hp]; rfl, (bytesOf_of_pieces hp).trans hcount⟩

/-- How much is written for an area with bytes in a file. -/
theorem length_bytesOf {filename : Path} (hnm : vma.filename = some filename) (hso : (pieces core openFile vma).isSome) :
    vma.fileSize ≤ (bytesOf core openFile vma).length ∧ ((bytesOf core openFile vma).length = vma.memorySize →
      vma.fileSize = vma.memorySize ∧ Reaches openFile filename vma.fileOffset vma.fileSize) := by
  obtain ⟨hle, hff⟩ := hok.inFile filename hnm
  obtain ⟨p, hp⟩ := isSome_iff_exists.1 hso
  rw [bytesOf_of_pieces hp, length_append, length_zeros]
  unfold pieces at hp
  by_cases hsz : vma.fileSize = 0
  · exact ⟨by omega, fun _ => ⟨by omega, fun hpos => absurd hsz (ne_of_gt hpos)⟩⟩
  rw [if_neg hsz, hnm] at hp
  dsimp only at hp
  cases hrd : readable openFile filename with
  | none =>
    rw [hrd] at hp
    cases hp
    refine ⟨Nat.le_add_left .., fun heq => ⟨by simpa using heq, fun _ file hfl => ?_⟩⟩
    rw [hrd] at hfl
    cases hfl
  | some file =>
    rw [hrd] at hp
    dsimp only at hp
    rw [mappedBytes_eq hff hok.size] at hp
    split at hp <;> cases hp
    have hreach : vma.fileOffset + vma.fileSize ≤ (pagesOf file).length := by omega
    rw [length_slice hreach]
    refine ⟨Nat.le_add_right .., fun heq => ?_⟩
    have hql : vma.fileSize = vma.memorySize := by
      by_contra hne
      omega
    refine ⟨hql, fun _ file' hfl => ?_⟩
    rw [hrd] at hfl
    cases hfl
    exact hreach

/-- At least as much is written for an area as it has in memory. -/
theorem le_length_bytesOf (hso : (pieces core openFile vma).isSome) : vma.memorySize ≤ (bytesOf core openFile vma).length := by
  cases hnm : vma.filename with
  | none =>
    obtain ⟨hle, hmap⟩ := hok.inCore hnm
    have hsub := sub64_of_le hle (by have := hok.memory; omega)
    unfold bytesOf pieces
    by_cases hsz : vma.fileSize = 0
    · rw [if_pos hsz]
      exact le_of_eq (length_zeros _).symm
    · rw [if_neg hsz, hnm]
      rw [length_append, length_slice hmap, length_zeros]
      omega
  | some filename => exact le_trans (hok.inFile filename hnm).1 (length_bytesOf hok hnm hso).1

theorem fits_of_length (hso : (pieces core openFile vma).isSome)
    (hlen : (bytesOf core openFile vma).length = vma.memorySize) : AreaFits openFile vma :=
  fun _ hnm => (length_bytesOf hok hnm hso).2 hlen

end

variable (openFile) in
theorem length_areaContents (hok : AreaOk core vma) : (areaContents core openFile vma).length = vma.memorySize := by
  unfold areaContents
  cases hnm : vma.filename with
  | none =>
    obtain ⟨hle, hmap⟩ := hok.inCore hnm
    rw [length_append, length_slice hmap, length_zeros]
    omega
  | some filename => exact length_fileContents ..

/-! ## The areas of a core -/

theorem areaOf_memorySize (h : ProgramHeader) : (core.areaOf h).memorySize = h.pMemsz := by
  unfold areaOf
  split
  · split <;> rfl
  · rfl

variable {h : ProgramHeader} {e : NtFileEntry}

/-- An area with its bytes in the core, or nowhere. -/
theorem areaOf_of_none (hno : h.pFilesz = 0 → core.entryOf h = none) : (core.areaOf h).filename = none ∧
    (core.areaOf h).fileOffset = h.pOffset ∧ (core.areaOf h).fileSize = h.pFilesz := by
  unfold areaOf
  by_cases hfil : h.pFilesz = 0
  · rw [if_pos hfil, hno hfil]
    exact ⟨rfl, rfl, rfl⟩
  · rw [if_neg hfil]
    exact ⟨rfl, rfl, rfl⟩

/-- An area with its bytes in a file. -/
theorem areaOf_of_some (hfil : h.pFilesz = 0) (he : core.entryOf h = some e) :
    (core.areaOf h).filename = some e.filename ∧
    (core.areaOf h).fileOffset = (e.offset * core.pageSize + sub64 h.pVaddr e.start) % 2 ^ 64 ∧
    (core.areaOf h).fileSize = sub64 e.stop e.start := by
  unfold areaOf
  rw [if_pos hfil, he]
  exact ⟨rfl, rfl, rfl⟩

theorem Core.Valid.entryOf (hvalid : core.Valid) (hh : h ∈ core.programHeaders) (hld : h.isLoad)
    (he : core.entryOf h = some e) : e ∈ core.ntFile ∧ e.start ≤ h.pVaddr ∧ h.pVaddr + h.pMemsz ≤ e.stop := by
  have hlt := (hvalid.loads h hh hld).2.2.1
  have hcon := find?_some he
  rw [mod_eq_of_lt (by omega)] at hcon
  simp only [not_or, not_lt, decide_eq_true_eq] at hcon
  exact ⟨mem_of_find?_eq_some he, hcon⟩

/-- Where the bytes of an area are in its file. -/
theorem Core.Valid.areaOf (hvalid : core.Valid) (hh : h ∈ core.programHeaders) (hld : h.isLoad) (hfil : h.pFilesz = 0)
    (he : core.entryOf h = some e) :
    (core.areaOf h).filename = some e.filename ∧
    (core.areaOf h).fileOffset = e.offset * core.pageSize + (h.pVaddr - e.start) ∧
    (core.areaOf h).fileSize = e.stop - e.start := by
  obtain ⟨hmem, hsta, hstop⟩ := hvalid.entryOf hh hld he
  obtain ⟨hle, hlt, -, hff⟩ := hvalid.entries e hmem
  obtain ⟨hnm, hoff, hsz⟩ := areaOf_of_some hfil he
  refine ⟨hnm, ?_, hsz.trans (sub64_of_le hle (by omega))⟩
  rw [hoff, sub64_of_le hsta (by omega), mod_eq_of_lt (by omega)]

theorem Core.Valid.extraArea (hvalid : core.Valid) (he : e ∈ core.ntFile) :
    (core.extraArea e).fileOffset = e.offset * core.pageSize ∧ (core.extraArea e).fileSize = e.stop - e.start ∧
    (core.extraArea e).memorySize = e.stop - e.start := by
  obtain ⟨hle, hlt, -, hff⟩ := hvalid.entries e he
  exact ⟨mod_eq_of_lt (by omega), sub64_of_le hle (by omega), sub64_of_le hle (by omega)⟩

variable (openFile) in
/-- The area of a program header, its contents, and when it fits. -/
theorem Core.Valid.load (hvalid : core.Valid) {h : ProgramHeader} (hh : h ∈ core.programHeaders) (hld : h.isLoad) :
    AreaOk core (core.areaOf h) ∧ core.loadContents openFile h = areaContents core openFile (core.areaOf h) ∧
      (AreaFits openFile (core.areaOf h) ↔ (h.pFilesz = 0 → ∀ e ∈ core.entryOf h, e.stop - e.start = h.pMemsz ∧
        Reaches openFile e.filename (e.offset * core.pageSize + (h.pVaddr - e.start)) h.pMemsz)) := by
  obtain ⟨hsizes, hsz, haddr, hmap⟩ := hvalid.loads h hh hld
  have hmm : (core.areaOf h).memorySize = h.pMemsz := areaOf_memorySize h
  by_cases hno : h.pFilesz = 0 → core.entryOf h = none
  · obtain ⟨hnm, hff, hfl⟩ := areaOf_of_none hno
    refine ⟨⟨?_, ?_, fun _ => ?_, fun f hf => ?_⟩, ?_, ?_⟩
    · omega
    · omega
    · rw [hfl, hmm, hff]
      exact ⟨hsizes, hmap⟩
    · rw [hnm] at hf
      cases hf
    · unfold loadContents areaContents
      rw [hnm, hff, hfl, hmm]
      by_cases hfil : h.pFilesz = 0
      · rw [hno hfil, hfil]
        rfl
      · rw [if_pos hfil]
    · refine ⟨fun _ hfil e he => ?_, fun _ f hf => ?_⟩
      · rw [hno hfil] at he
        cases he
      · rw [hnm] at hf
        cases hf
  · obtain ⟨hfil, hso⟩ := Classical.not_imp.1 hno
    obtain ⟨e, he⟩ := ne_none_iff_exists'.1 hso
    obtain ⟨hmem, hsta, hstop⟩ := hvalid.entryOf hh hld he
    obtain ⟨hle, hlt, hsmall, hoff⟩ := hvalid.entries e hmem
    obtain ⟨hnm, hff, hsz⟩ := hvalid.areaOf hh hld hfil he
    refine ⟨⟨?_, ?_, fun hf => ?_, fun f hf => ?_⟩, ?_, ?_⟩
    · omega
    · omega
    · rw [hnm] at hf
      cases hf
    · omega
    · unfold loadContents areaContents
      rw [hnm, hff, hmm, if_neg (not_not_intro hfil), he]
    · unfold AreaFits
      rw [hnm, hff, hsz, hmm]
      refine ⟨fun hft _ e' he' => ?_, fun hft f hf => ?_⟩
      · obtain rfl : e = e' := some.inj (he.symm.trans he')
        obtain ⟨heq, hreach⟩ := hft e.filename rfl
        exact ⟨heq, heq ▸ hreach⟩
      · cases hf
        obtain ⟨heq, hreach⟩ := hft hfil e he
        exact ⟨heq, heq.symm ▸ hreach⟩

variable (openFile) in
/-- The area of an entry that is for no program header, its contents, and when it fits. -/
theorem Core.Valid.extra (hvalid : core.Valid) {e : NtFileEntry} (he : core.extraEntry = some e) :
    AreaOk core (core.extraArea e) ∧ core.extraContents openFile e = areaContents core openFile (core.extraArea e) ∧
      (AreaFits openFile (core.extraArea e) ↔ Reaches openFile e.filename (e.offset * core.pageSize) (e.stop - e.start)) := by
  have hmem := mem_of_find?_eq_some he
  obtain ⟨hle, hlt, hsmall, hoff⟩ := hvalid.entries e hmem
  obtain ⟨hff, hsz, hmm⟩ := hvalid.extraArea hmem
  have hnm : (core.extraArea e).filename = some e.filename := rfl
  refine ⟨⟨?_, ?_, fun hf => ?_, fun f hf => ?_⟩, ?_, ?_⟩
  · omega
  · omega
  · cases hf
  · omega
  · unfold extraContents areaContents
    rw [hnm, hff, hmm]
  · unfold AreaFits
    rw [hff, hsz, hmm]
    refine ⟨fun hft => (hft e.filename rfl).2, fun hreach f hf => ?_⟩
    cases hf
    exact ⟨rfl, hreach⟩

theorem mem_validAreas : vma ∈ core.validAreas ↔
    ((∃ h ∈ core.programHeaders, h.isLoad ∧ core.areaOf h = vma) ∨ ∃ e, core.extraEntry = some e ∧ core.extraArea e = vma) ∧
      vma.valid := by
  simp only [validAreas, vmAreas, List.mem_filter, List.mem_append, List.mem_map, Option.mem_toList, and_assoc]

section

variable (hvalid : core.Valid)

include hvalid

theorem Core.Valid.areaOk : ∀ vma ∈ core.validAreas, AreaOk core vma := by
  intro vma hvma
  rcases (mem_validAreas.1 hvma).1 with ⟨h, hh, hld, rfl⟩ | ⟨e, he, rfl⟩
  · exact (hvalid.load (fun _ => none) hh hld).1
  · exact (hvalid.extra (fun _ => none) he).1

theorem Core.Valid.segments : core.segments openFile = core.validAreas.map fun vma => (vma, areaContents core openFile vma) := by
  have hloads : ((core.programHeaders.filter isLoad).map fun h => (core.areaOf h, core.loadContents openFile h)) =
      ((core.programHeaders.filter isLoad).map core.areaOf).map fun vma => (vma, areaContents core openFile vma) := by
    rw [List.map_map]
    refine map_congr_left fun h hh => ?_
    obtain ⟨hh, hld⟩ := mem_filter.1 hh
    rw [(hvalid.load openFile hh hld).2.1]
    rfl
  have hextra : (core.extraEntry.toList.map fun e => (core.extraArea e, core.extraContents openFile e)) =
      (core.extraEntry.toList.map core.extraArea).map fun vma => (vma, areaContents core openFile vma) := by
    rw [List.map_map]
    refine map_congr_left fun e he => ?_
    rw [(hvalid.extra openFile (mem_toList.1 he)).2.1]
    rfl
  rw [Core.segments, hloads, hextra, ← List.map_append, List.filter_map]
  rfl

/-- The entries fit when the areas fit. -/
theorem Core.Valid.fits_iff : core.Fits openFile ↔
    (∀ vma ∈ core.validAreas, AreaFits openFile vma) ∧
      ∀ k < core.validAreas.length, core.offsetOf k < 2 ^ core.width.offsetBits := by
  constructor
  · intro hft
    refine ⟨fun vma hvma => ?_, hft.offsets⟩
    obtain ⟨⟨h, hh, hld, rfl⟩ | ⟨e, he, rfl⟩, hrt⟩ := mem_validAreas.1 hvma
    · exact (hvalid.load openFile hh hld).2.2.2 fun hfil e he => hft.loads h hh hld hrt hfil e he
    · exact (hvalid.extra openFile he).2.2.2 (hft.extra e he)
  · rintro ⟨hare, hofs⟩
    refine ⟨fun h hh hld hrt => ?_, fun e he => ?_, hofs⟩
    · exact (hvalid.load openFile hh hld).2.2.1 (hare _ (mem_validAreas.2 ⟨.inl ⟨h, hh, hld, rfl⟩, hrt⟩))
    · exact (hvalid.extra openFile he).2.2.1 (hare _ (mem_validAreas.2 ⟨.inr ⟨e, he, rfl⟩, rfl⟩))

/-! ## Offsets -/

omit hvalid in
/-- Areas that are written with their size in memory are at the predicted offsets when these are not too large. -/
theorem atOffsets_iff {w : Width} {areas : List VmArea} {base : Nat}
    (hlen : ∀ vma ∈ areas, (bytesOf core openFile vma).length = vma.memorySize)
    (htot : base + (areas.map memorySize).sum < 2 ^ 64) :
    AtOffsets core openFile (predicted w areas (base % 2 ^ w.offsetBits)) base ↔
      ∀ k < areas.length, base + ((areas.take k).map memorySize).sum < 2 ^ w.offsetBits := by
  induction areas generalizing base with
  | nil => exact ⟨fun _ k hk => absurd hk (not_lt_zero k), fun _ => trivial⟩
  | cons vma areas ih =>
    obtain ⟨hvma, hare⟩ := forall_mem_cons.1 hlen
    rw [map_cons, sum_cons] at htot
    have hnx : (base % 2 ^ w.offsetBits + roundUpPow2 vma.memorySize alignPageSize) % 2 ^ w.offsetBits =
        (base + vma.memorySize) % 2 ^ w.offsetBits := by
      rw [alignPageSize, roundUpPow2_one, mod_eq_of_lt (a := vma.memorySize) (by omega), mod_add_mod]
    have hhd : base % 2 ^ 64 = base % 2 ^ w.offsetBits ↔ base < 2 ^ w.offsetBits := by
      rw [mod_eq_of_lt (by omega)]
      exact ⟨fun h => h ▸ Nat.mod_lt _ (Nat.two_pow_pos _), fun h => (Nat.mod_eq_of_lt h).symm⟩
    rw [predicted, hnx]
    rw [length_cons, forall_lt_succ_left]
    refine and_congr hhd ?_
    rw [hvma, ih hare (by omega)]
    simp only [take_succ_cons, map_cons, sum_cons, add_assoc]

omit hvalid in
/-- The predicted offsets add up the sizes in memory when they are not too large. -/
theorem predicted_getElem {w : Width} {areas : List VmArea} {base : Nat} (hsizes : ∀ vma ∈ areas, vma.memorySize < 2 ^ 64)
    (h : ∀ k < areas.length, base + ((areas.take k).map memorySize).sum < 2 ^ w.offsetBits) (k : Nat) :
    (predicted w areas (base % 2 ^ w.offsetBits))[k]? =
      areas[k]?.map fun vma => (vma, base + ((areas.take k).map memorySize).sum) := by
  induction areas generalizing base k with
  | nil => rfl
  | cons vma areas ih =>
    obtain ⟨hvma, hare⟩ := forall_mem_cons.1 hsizes
    rw [length_cons, forall_lt_succ_left] at h
    have hnx : (base % 2 ^ w.offsetBits + roundUpPow2 vma.memorySize alignPageSize) % 2 ^ w.offsetBits =
        (base + vma.memorySize) % 2 ^ w.offsetBits := by
      rw [alignPageSize, roundUpPow2_one, mod_eq_of_lt hvma, mod_add_mod]
    rw [predicted, hnx]
    cases k with
    | zero =>
      rw [Nat.mod_eq_of_lt (Nat.lt_of_le_of_lt (Nat.le_add_right ..) h.1)]
      rfl
    | succ k =>
      have hrs := @ih (base + vma.memorySize) hare (fun k hk => ?_) k
      · simp only [getElem?_cons_succ, take_succ_cons, map_cons, sum_cons, ← add_assoc]
        exact hrs
      · have hk := h.2 k hk
        rw [take_succ_cons, map_cons, sum_cons, ← add_assoc] at hk
        exact hk

theorem Core.Valid.length_validAreas : core.validAreas.length ≤ 2 ^ 16 := by
  have hhea := hvalid.numHeaders
  have hfilt := length_filter_le isLoad core.programHeaders
  have hextra : core.extraEntry.toList.length ≤ 1 := by cases core.extraEntry <;> simp
  refine le_trans (length_filter_le ..) ?_
  rw [vmAreas, length_append, length_map, length_map]
  omega

/-- The commands are smaller than 4 GB. -/
theorem Core.Valid.commands_lt : core.width.headerSize ≤ 32 ∧
    core.validAreas.length * core.width.segmentSize + core.threads * core.width.threadSize < 2 ^ 32 := by
  have hare := hvalid.length_validAreas
  have hthread := hvalid.threads
  unfold width
  split
  · simp only [Width.bits64]
    omega
  · simp only [Width.bits32]
    omega

theorem Core.Valid.firstOffset : firstOffset core = core.dataOffset % 2 ^ core.width.offsetBits := by
  obtain ⟨hheade, hcom⟩ := hvalid.commands_lt
  have hsum : core.dataOffset =
      core.validAreas.length * core.width.segmentSize + core.threads * core.width.threadSize + core.width.headerSize := by
    rw [dataOffset]
    omega
  rw [Coredump.firstOffset, alignPageSize, roundUpPow2_one, sizeofcmds, mod_eq_of_lt hcom, ← hsum]
  rw [mod_eq_of_lt (b := 2 ^ 64) (by omega)]

theorem Core.Valid.total_lt : core.dataOffset + (core.validAreas.map memorySize).sum < 2 ^ 64 := by
  obtain ⟨hheade, hcom⟩ := hvalid.commands_lt
  have hmm := hvalid.memory
  rw [dataOffset]
  omega

end

/-- Numbers that are at least as large as others, with the same sum, are the same. -/
theorem eq_of_sum_eq {α : Type} {l : List α} {f g : α → Nat} (hle : ∀ a ∈ l, f a ≤ g a) (hsum : (l.map f).sum = (l.map g).sum) :
    ∀ a ∈ l, f a = g a := by
  induction l with
  | nil => exact fun a ha => absurd ha not_mem_nil
  | cons a l ih =>
    obtain ⟨ha, hl⟩ := forall_mem_cons.1 hle
    have hrs := sum_le_sum hl
    simp only [map_cons, sum_cons] at hsum
    exact forall_mem_cons.2 ⟨by omega, ih hl (by omega)⟩

/-! ## The image -/

variable {enc : Encoding core.width}

theorem offsetOf_length : core.offsetOf core.validAreas.length = core.dataOffset + (core.validAreas.map memorySize).sum := by
  rw [offsetOf, take_length]

/-- Headers with the right offsets and then the contents are the image. -/
theorem Core.Valid.isImage (hvalid : core.Valid)
    (hofs : ∀ k < core.validAreas.length, core.offsetOf k < 2 ^ core.width.offsetBits) :
    IsImage core openFile enc (headers core enc (predicted core.width core.validAreas (Coredump.firstOffset core)) ++
      core.validAreas.flatMap (areaContents core openFile)) := by
  have hlen := length_headers enc (predicted_map core.width core.validAreas (Coredump.firstOffset core))
  have hcount : ∀ l : List VmArea, (∀ vma ∈ l, vma ∈ core.validAreas) →
      (l.flatMap (areaContents core openFile)).length = (l.map memorySize).sum := by
    intro l hl
    rw [length_flatMap, map_congr_left fun vma hvma => length_areaContents openFile (hvalid.areaOk vma (hl vma hvma))]
  refine ⟨?_, fun k vma contents hk => ?_, fun k vma contents hk => ?_⟩
  · rw [length_append, hlen, hcount _ fun _ h => h, offsetOf_length]
  · rw [hvalid.segments, getElem?_map] at hk
    obtain ⟨vma', hvma, heq⟩ := map_eq_some_iff.1 hk
    cases heq
    have hpred : (predicted core.width core.validAreas (Coredump.firstOffset core))[k]? = some (vma, core.offsetOf k) := by
      rw [hvalid.firstOffset, predicted_getElem (fun vma hvma => lt_trans (hvalid.areaOk vma hvma).memory (by decide)) hofs, hvma]
      rfl
    obtain ⟨hlt, -⟩ := List.getElem?_eq_some_iff.1 hpred
    have hsli := slice_flatMap (f := fun area => enc.segment (command area.1 area.2)) hpred 0 core.width.segmentSize
      (by rw [enc.segment_length, zero_add])
    rw [length_commands, List.length_take, min_eq_left (le_of_lt hlt), add_zero] at hsli
    rw [headers, append_assoc, append_assoc, ← enc.header_length _ (sizeofcmds core), slice_append_right,
      slice_append_left (by rw [length_commands, ← succ_mul]; exact mul_le_mul_right _ hlt), hsli, slice, drop_zero,
      take_of_length_le (le_of_eq (enc.segment_length _))]
  · rw [hvalid.segments, getElem?_map] at hk
    obtain ⟨vma', hvma, heq⟩ := map_eq_some_iff.1 hk
    cases heq
    have hsz := length_areaContents openFile (hvalid.areaOk vma (mem_of_getElem? hvma))
    have hsli := slice_flatMap (f := areaContents core openFile) hvma 0 vma.memorySize (by omega)
    rw [hcount _ fun _ h => mem_of_mem_take h] at hsli
    rw [offsetOf, ← hlen, slice_append_right]
    rw [add_zero] at hsli
    rw [hsli, slice, drop_zero, take_of_length_le (by omega)]

/-- **Core dumps are converted exactly when the entries of the note are as large as the areas**: with enough writes the conversion
returns, and the output is the image of the process. -/
theorem converts_iff_fits (hvalid : core.Valid) : (∃ n, ∀ writes, Ample n writes →
    ∃ o, machoCoredump core enc openFile writes = .ok o ∧ IsImage core openFile enc o.bytes) ↔ core.Fits openFile := by
  have hhea := length_headers enc (predicted_map core.width core.validAreas (firstOffset core))
  rw [hvalid.fits_iff]
  constructor
  · rintro ⟨n, hconv⟩
    obtain ⟨o, hdump, hmg⟩ := hconv (replicate n (.wrote 1))
      ⟨fun r hr => by rw [eq_of_mem_replicate hr]; exact nofun, by simp [countP_replicate]⟩
    obtain ⟨hso, hofs, hby⟩ := machoCoredump_bytes hdump
    have hsum : (core.validAreas.map memorySize).sum =
        (core.validAreas.map fun vma => (bytesOf core openFile vma).length).sum := by
      have hlen := hmg.length
      rw [hby, length_append, offsetOf_length, length_flatMap] at hlen
      omega
    have hlen := eq_of_sum_eq (fun vma hvma => le_length_bytesOf (hvalid.areaOk vma hvma) (hso vma hvma)) hsum
    refine ⟨fun vma hvma => fits_of_length (hvalid.areaOk vma hvma) (hso vma hvma) (hlen vma hvma).symm, ?_⟩
    rw [hhea, hvalid.firstOffset] at hofs
    exact (atOffsets_iff (fun vma hvma => (hlen vma hvma).symm) hvalid.total_lt).1 hofs
  · rintro ⟨hft, hofs⟩
    have hbytes := fun vma hvma => bytesOf_of_fits (hvalid.areaOk vma hvma) (hft vma hvma)
    have hso : ∀ vma ∈ core.validAreas, (pieces core openFile vma).isSome := fun vma hvma => (hbytes vma hvma).1
    have hatOf : AtOffsets core openFile (predicted core.width core.validAreas (firstOffset core)) core.dataOffset := by
      rw [hvalid.firstOffset]
      refine (atOffsets_iff (fun vma hvma => ?_) hvalid.total_lt).2 hofs
      rw [(hbytes vma hvma).2, length_areaContents openFile (hvalid.areaOk vma hvma)]
    refine ⟨core.dataOffset + (core.validAreas.flatMap (bytesOf core openFile)).length, fun writes hwrit => ?_⟩
    obtain ⟨o, hdump⟩ := machoCoredump_ample enc hso hatOf hwrit
    refine ⟨o, hdump, ?_⟩
    rw [(machoCoredump_bytes hdump).2.2, flatMap_congr fun vma hvma => (hbytes vma hvma).2]
    exact hvalid.isImage hofs

end

def zeroEncoding (w : Width) : Encoding w :=
  ⟨fun _ _ => zeros w.headerSize, fun _ => zeros w.segmentSize, fun _ => zeros w.threadSize, fun _ _ => length_zeros _,
    fun _ => length_zeros _, fun _ => length_zeros _⟩

/-- A core with one area in a file, as the first bytes of an entry of some size, and one area in the core itself. -/
def smallCore (entrySize : Nat) : Core where
  is64Bit := true
  mapping := [1, 2, 3]
  programHeaders := [⟨1, 4, 0, 4096, 0, 1⟩, ⟨1, 6, 2, 8192, 1, 2⟩]
  pageSize := 4096
  ntFile := [⟨4096, 4096 + entrySize, 0, ['/', 'x']⟩]
  threads := 1

theorem smallCore_valid {n : Nat} (h : n = 1 ∨ n = 2) : (smallCore n).Valid := by
  rcases h with rfl | rfl <;>
    exact ⟨by decide, by decide, by decide, by decide, by decide +kernel⟩

/-- The entry is as large as the area. -/
theorem converts_iff_fits_smallCore : ∃ n, ∀ writes, Ample n writes →
    ∃ o, machoCoredump (smallCore 1) (zeroEncoding _) (fun _ => some [7]) writes = .ok o ∧
      IsImage (smallCore 1) (fun _ => some [7]) (zeroEncoding _) o.bytes :=
  (converts_iff_fits (smallCore_valid (.inl rfl))).2 ⟨by decide +kernel, by decide +kernel, by decide +kernel⟩

/-- The entry is larger than the area, and its file cannot be opened: the conversion stops at the offset of the second area. -/
theorem largeEntry_stops : (smallCore 2).Valid ∧
    machoCoredump (smallCore 2) (zeroEncoding _) (fun _ => none) (replicate 9 (.wrote 4096)) = .error (.offset 893 894) :=
  ⟨smallCore_valid (.inr rfl), by decide +kernel⟩

end Osxie.Coredump
