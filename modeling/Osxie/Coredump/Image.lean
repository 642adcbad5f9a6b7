import Osxie.Coredump.Output

/-!
# The process image

The output is the image of the process when each segment command has the position of its data, and the data of an area are its
contents, as many bytes as it has in memory (`IsImage`).
-/

namespace Osxie.Coredump

open List Option VmArea

/-! ## Contents -/

section

variable (core : Core) (openFile : Path → Option (List UInt8)) (filename : Path) (offset size : Nat)

/-- The files that are read: those that can be opened, except devices. -/
def readable : Option (List UInt8) := if isDevice filename then none else openFile filename

def fileContents : List UInt8 :=
  match readable openFile filename with
  | none => zeros size
  | some file => slice file offset size ++ zeros (size - (slice file offset size).length)

def Core.loadContents (h : ProgramHeader) : List UInt8 :=
  if h.pFilesz ≠ 0 then slice core.mapping h.pOffset h.pFilesz ++ zeros (h.pMemsz - h.pFilesz)
  else
    match core.entryOf h with
    | none => zeros h.pMemsz
    | some e => fileContents openFile e.filename (e.offset * core.pageSize + (h.pVaddr - e.start)) h.pMemsz

/-- The contents of the area of an entry that is for no program header. -/
def Core.extraContents (e : NtFileEntry) : List UInt8 :=
  fileContents openFile e.filename (e.offset * core.pageSize) (e.stop - e.start)

/-- The areas that are in the output, with their contents. -/
def Core.segments : List (VmArea × List UInt8) :=
  (((core.programHeaders.filter ProgramHeader.isLoad).map fun h => (core.areaOf h, core.loadContents openFile h)) ++
    core.extraEntry.toList.map fun e => (core.extraArea e, core.extraContents openFile e)).filter fun s => s.1.valid

def Core.dataOffset : Nat :=
  core.width.headerSize + core.validAreas.length * core.width.segmentSize + core.threads * core.width.threadSize

def Core.offsetOf (k : Nat) : Nat := core.dataOffset + ((core.validAreas.take k).map memorySize).sum

/-- The output is the image: it ends with the last area, and each segment command tells where the contents of the area are. -/
structure IsImage (enc : Encoding core.width) (out : List UInt8) : Prop where
  length : out.length = core.offsetOf core.validAreas.length
  commands : ∀ k vma contents, (core.segments openFile)[k]? = some (vma, contents) →
    slice out (core.width.headerSize + k * core.width.segmentSize) core.width.segmentSize =
      enc.segment (command vma (core.offsetOf k))
  data : ∀ k vma contents, (core.segments openFile)[k]? = some (vma, contents) →
    slice out (core.offsetOf k) vma.memorySize = contents

/-! ## Conditions -/

/-- A core as the system writes it. The areas do not overlap, so that together they are smaller than the address space. -/
structure Core.Valid : Prop where
  numHeaders : core.programHeaders.length < 2 ^ 16
  threads : core.threads ≤ 2 ^ 22
  loads : ∀ h ∈ core.programHeaders, h.isLoad → h.pFilesz ≤ h.pMemsz ∧ h.pMemsz < 2 ^ 62 ∧
    h.pVaddr + h.pMemsz < 2 ^ 64 ∧ h.pOffset + h.pFilesz ≤ core.mapping.length
  entries : ∀ e ∈ core.ntFile, e.start ≤ e.stop ∧ e.stop < 2 ^ 64 ∧ e.stop - e.start < 2 ^ 62 ∧
    e.offset * core.pageSize + (e.stop - e.start) < 2 ^ 64
  memory : (core.validAreas.map memorySize).sum < 2 ^ 62

/-- The file of an area reaches to its last page. -/
def Reaches : Prop :=
  0 < size → ∀ file ∈ readable openFile filename, offset + size ≤ (pagesOf file).length

instance : Decidable (Reaches openFile filename offset size) :=
  inferInstanceAs (Decidable (_ → ∀ file ∈ _, _))

/-- A core that is converted: an entry that contains an area is no larger than the area. -/
structure Core.Fits : Prop where
  loads : ∀ h ∈ core.programHeaders, h.isLoad → (core.areaOf h).valid → h.pFilesz = 0 → ∀ e ∈ core.entryOf h,
    e.stop - e.start = h.pMemsz ∧ Reaches openFile e.filename (e.offset * core.pageSize + (h.pVaddr - e.start)) h.pMemsz
  extra : ∀ e ∈ core.extraEntry, Reaches openFile e.filename (e.offset * core.pageSize) (e.stop - e.start)
  offsets : ∀ k < core.validAreas.length, core.offsetOf k < 2 ^ core.width.offsetBits

/-- What is written for an area: some bytes, then zeros. -/
def pieces (vma : VmArea) : Option (List UInt8 × Nat) :=
  if vma.fileSize = 0 then some ([], vma.memorySize)
  else
    match vma.filename with
    | some filename =>
      match readable openFile filename with
      | none => some ([], vma.fileSize)
      | some file => (mappedBytes file vma).map fun contents => (contents, sub64 vma.memorySize vma.fileSize)
    | none => some (slice core.mapping vma.fileOffset vma.fileSize, sub64 vma.memorySize vma.fileSize)

end

/-! ## Areas -/

theorem length_zeros (n : Nat) : (zeros n).length = n := length_replicate

theorem roundDownPow2_page {n : Nat} (h : n < 2 ^ 64) : roundDownPow2 n hostPageSize = n / 2 ^ 12 * 2 ^ 12 :=
  and_two_pow_sub h (by decide)

theorem roundUpPow2_page {n : Nat} (h : n < 2 ^ 63) : roundUpPow2 n hostPageSize = (n + (2 ^ 12 - 1)) / 2 ^ 12 * 2 ^ 12 := by
  have hlt : n + (2 ^ 12 - 1) < 2 ^ 64 := by omega
  rw [roundUpPow2, hostPageSize, Nat.mod_eq_of_lt hlt]
  exact and_two_pow_sub hlt (by decide)

/-- The bytes of a file from an offset on, filled up with zeros to the end of the page. -/
theorem mappedBytes_eq {file : List UInt8} {vma : VmArea} (hoff : vma.fileOffset < 2 ^ 64) (hsz : vma.fileSize < 2 ^ 62) :
    mappedBytes file vma = if 0 < vma.fileSize ∧ (pagesOf file).length < vma.fileOffset + vma.fileSize then none
      else some (slice (pagesOf file) vma.fileOffset vma.fileSize) := by
  have hdown := roundDownPow2_page hoff
  have hdelta : roundDownPow2 vma.fileOffset hostPageSize + (vma.fileOffset - roundDownPow2 vma.fileOffset hostPageSize) =
      vma.fileOffset := by omega
  have hup := roundUpPow2_page (n := vma.fileSize + (vma.fileOffset - roundDownPow2 vma.fileOffset hostPageSize)) (by omega)
  have hft : vma.fileOffset - roundDownPow2 vma.fileOffset hostPageSize + vma.fileSize ≤
      roundUpPow2 (vma.fileSize + (vma.fileOffset - roundDownPow2 vma.fileOffset hostPageSize)) hostPageSize := by omega
  have htake := slice_slice (l := pagesOf file) (a := roundDownPow2 vma.fileOffset hostPageSize) hft
  rw [hdelta] at htake
  have hlen : ((slice (pagesOf file) (roundDownPow2 vma.fileOffset hostPageSize)
      (roundUpPow2 (vma.fileSize + (vma.fileOffset - roundDownPow2 vma.fileOffset hostPageSize)) hostPageSize)).drop
        (vma.fileOffset - roundDownPow2 vma.fileOffset hostPageSize)).length < vma.fileSize ↔
      0 < vma.fileSize ∧ (pagesOf file).length < vma.fileOffset + vma.fileSize := by
    rw [slice, length_drop, length_take, length_drop]
    omega
  unfold mappedBytes
  simp only [hlen]
  exact congrArg _ (congrArg some htake)

section

variable {core : Core} {openFile : Path → Option (List UInt8)}

theorem dumpEmit_nil (o : Out) : dumpEmit o [] = .ok o := by
  obtain ⟨bytes, writes⟩ := o
  cases writes <;> rfl

/-- Writing an area is a check and writing its pieces. -/
theorem dumpArea_eq (o : Out) (area : VmArea × Nat) : dumpArea core openFile o area =
    if dumpOffsetGet o ≠ area.2 then .error (.offset area.2 (dumpOffsetGet o))
    else
      match pieces core openFile area.1 with
      | none => .error .failure
      | some p => (dumpEmit o p.1).bind fun o => dumpSkip o p.2 := by
  have hsk : ∀ n, dumpSkip o n = (dumpEmit o []).bind fun o => dumpSkip o n := fun n => by rw [dumpEmit_nil]; rfl
  have hcont : ∀ vma contents, dumpContents o vma contents =
      (dumpEmit o contents).bind fun o => dumpSkip o (sub64 vma.memorySize vma.fileSize) := by
    intro vma contents
    unfold dumpContents
    simp only [dumpAlign_one]
    cases dumpEmit o contents with
    | error e => rfl
    | ok o₁ => cases h : dumpSkip o₁ (sub64 vma.memorySize vma.fileSize) <;> simp [Except.bind, h]
  unfold dumpArea pieces readable
  refine if_congr Iff.rfl rfl ?_
  by_cases hsz : area.1.fileSize = 0
  · rw [if_pos hsz, if_pos hsz, hsk]
  rw [if_neg hsz, if_neg hsz]
  cases area.1.filename with
  | none => exact hcont ..
  | some filename =>
    dsimp only
    by_cases hdev : isDevice filename
    · rw [if_pos hdev, if_pos hdev, hsk]
    rw [if_neg hdev, if_neg hdev]
    cases openFile filename with
    | none => exact hsk _
    | some file =>
      dsimp only
      cases mappedBytes file area.1 with
      | none => rfl
      | some contents => exact hcont ..

/-- An area that was written was at its offset, and the output has grown by its pieces. -/
theorem dumpArea_bytes {o o' : Out} {area : VmArea × Nat} (h : dumpArea core openFile o area = .ok o') :
    dumpOffsetGet o = area.2 ∧ ∃ p, pieces core openFile area.1 = some p ∧ o'.bytes = o.bytes ++ (p.1 ++ zeros p.2) := by
  rw [dumpArea_eq] at h
  by_cases hoff : dumpOffsetGet o = area.2
  · rw [if_neg (not_not_intro hoff)] at h
    cases hp : pieces core openFile area.1 with
    | none =>
      rw [hp] at h
      cases h
    | some p =>
      rw [hp] at h
      obtain ⟨o₁, hmt, hsk⟩ := bind_ok h
      exact ⟨hoff, p, rfl, by rw [skip_bytes hsk, emit_bytes hmt, append_assoc]⟩
  · rw [if_pos hoff] at h
    cases h

variable {k : Nat} {o : Out} {areas : List (VmArea × Nat)} {r : List (VmArea × Nat) × Out} {w : Width}

/-- An area is written when it is at its offset. -/
theorem dumpArea_ample {area : VmArea × Nat} {p : List UInt8 × Nat} (hoff : dumpOffsetGet o = area.2)
    (hp : pieces core openFile area.1 = some p) (h : Ample (k + (p.1 ++ zeros p.2).length) o.writes) :
    ∃ o', dumpArea core openFile o area = .ok o' ∧ Ample k o'.writes := by
  rw [length_append, length_zeros] at h
  obtain ⟨o₁, hmt, h⟩ := emit_ample (k := k + p.2) o p.1 (h.mono (by omega))
  obtain ⟨o₂, hsk, h⟩ := skip_ample h
  refine ⟨o₂, ?_, h⟩
  rw [dumpArea_eq, if_neg (not_not_intro hoff), hp]
  dsimp only
  rw [hmt]
  exact hsk

/-! ## The loop over the areas -/

def bytesOf (core : Core) (openFile : Path → Option (List UInt8)) (vma : VmArea) : List UInt8 :=
  match pieces core openFile vma with
  | none => []
  | some p => p.1 ++ zeros p.2

/-- Areas are at the offsets that are expected, when they are written one after the other. -/
def AtOffsets (core : Core) (openFile : Path → Option (List UInt8)) : List (VmArea × Nat) → Nat → Prop
  | [], _ => True
  | area :: areas, base => base % 2 ^ 64 = area.2 ∧ AtOffsets core openFile areas (base + (bytesOf core openFile area.1).length)

theorem dumpAreas_bytes {o o' : Out} (h : areas.foldlM (dumpArea core openFile) o = .ok o') :
    (∀ area ∈ areas, (pieces core openFile area.1).isSome) ∧ AtOffsets core openFile areas o.bytes.length ∧
      o'.bytes = o.bytes ++ areas.flatMap fun area => bytesOf core openFile area.1 := by
  induction areas generalizing o with
  | nil =>
    cases h
    exact ⟨fun _ ha => absurd ha not_mem_nil, trivial, (append_nil _).symm⟩
  | cons area areas ih =>
    obtain ⟨o₁, harea, hrs⟩ := bind_ok h
    obtain ⟨hoff, p, hp, hby⟩ := dumpArea_bytes harea
    obtain ⟨hso, hff, hrs⟩ := ih hrs
    have hof : bytesOf core openFile area.1 = p.1 ++ zeros p.2 := by rw [bytesOf, hp]
    rw [← hof] at hby
    rw [hby, length_append] at hff
    refine ⟨forall_mem_cons.2 ⟨by rw [hp]; rfl, hso⟩, ⟨hoff, hff⟩, ?_⟩
    rw [hrs, hby, flatMap_cons, append_assoc]

theorem dumpAreas_ample (hso : ∀ area ∈ areas, (pieces core openFile area.1).isSome)
    (hff : AtOffsets core openFile areas o.bytes.length)
    (h : Ample (k + (areas.flatMap fun area => bytesOf core openFile area.1).length) o.writes) :
    ∃ o', areas.foldlM (dumpArea core openFile) o = .ok o' ∧ Ample k o'.writes := by
  induction areas generalizing o with
  | nil => exact ⟨o, rfl, h⟩
  | cons area areas ih =>
    obtain ⟨harea, hare⟩ := forall_mem_cons.1 hso
    obtain ⟨p, hp⟩ := isSome_iff_exists.1 harea
    have hof : bytesOf core openFile area.1 = p.1 ++ zeros p.2 := by rw [bytesOf, hp]
    rw [flatMap_cons, length_append] at h
    obtain ⟨o₁, hwr, hamp⟩ := dumpArea_ample (k := k + (areas.flatMap fun area => bytesOf core openFile area.1).length)
      hff.1 hp (h.mono (by rw [hof]; omega))
    obtain ⟨-, p', hp', hby⟩ := dumpArea_bytes hwr
    obtain rfl : p = p' := some.inj (hp.symm.trans hp')
    obtain ⟨o₂, hrs, hamp⟩ := ih hare (by rw [hby, length_append, ← hof]; exact hff.2) hamp
    refine ⟨o₂, ?_, hamp⟩
    rw [foldlM_cons, hwr]
    exact hrs

/-! ## Headers -/

def predicted (w : Width) : List VmArea → Nat → List (VmArea × Nat)
  | [], _ => []
  | vma :: areas, fileOffset =>
    (vma, fileOffset) :: predicted w areas ((fileOffset + roundUpPow2 vma.memorySize alignPageSize) % 2 ^ w.offsetBits)

theorem predicted_map (w : Width) (areas : List VmArea) (fileOffset : Nat) :
    (predicted w areas fileOffset).map Prod.fst = areas := by
  induction areas generalizing fileOffset with
  | nil => rfl
  | cons vma areas ih => rw [predicted, map_cons, ih]

theorem flatMap_predicted {α : Type} (w : Width) (areas : List VmArea) (fileOffset : Nat) (f : VmArea → List α) :
    ((predicted w areas fileOffset).flatMap fun area => f area.1) = areas.flatMap f := by
  conv_rhs => rw [← predicted_map w areas fileOffset, flatMap_map]

variable {fileOffset : Nat} {f : Nat → List UInt8} {l : List Nat} {writes : List WriteResult}

theorem dumpSegments_bytes {enc : Encoding w} {areas : List VmArea} (h : dumpSegments enc areas fileOffset o = .ok r) :
    r.1 = predicted w (areas.filter valid) fileOffset ∧
      r.2.bytes = o.bytes ++ r.1.flatMap fun area => enc.segment (command area.1 area.2) := by
  induction areas generalizing fileOffset o r with
  | nil =>
    cases h
    exact ⟨rfl, (append_nil _).symm⟩
  | cons vma areas ih =>
    unfold dumpSegments at h
    by_cases hval : vma.valid
    · rw [if_pos hval] at h
      obtain ⟨o₁, hmt, h⟩ := bind_ok h
      obtain ⟨r₁, hrs, rfl⟩ := map_ok h
      obtain ⟨hare, hby⟩ := ih hrs
      rw [filter_cons_of_pos hval]
      refine ⟨by rw [predicted, hare], ?_⟩
      rw [hby, emit_bytes hmt, flatMap_cons, append_assoc]
    · rw [if_neg hval] at h
      rw [filter_cons_of_neg hval]
      exact ih h

theorem dumpSegments_ample {enc : Encoding w} {areas : List VmArea}
    (h : Ample (k + (areas.filter valid).length * w.segmentSize) o.writes) :
    ∃ r, dumpSegments enc areas fileOffset o = .ok r ∧ Ample k r.2.writes := by
  induction areas generalizing fileOffset o with
  | nil => exact ⟨_, rfl, h.mono (Nat.le_add_right ..)⟩
  | cons vma areas ih =>
    unfold dumpSegments
    by_cases hval : vma.valid
    · rw [filter_cons_of_pos hval, length_cons, Nat.succ_mul] at h
      rw [if_pos hval]
      obtain ⟨o₁, hmt, hamp⟩ := emit_ample (k := k + (areas.filter valid).length * w.segmentSize) o
        (enc.segment (command vma fileOffset)) (h.mono (by rw [enc.segment_length]; omega))
      obtain ⟨r, hrs, hamp⟩ := ih hamp
      exact ⟨((vma, fileOffset) :: r.1, r.2), by rw [hmt]; exact congrArg (Except.map _) hrs, hamp⟩
    · rw [filter_cons_of_neg hval] at h
      rw [if_neg hval]
      exact ih h

theorem dumpThreads_bytes {o o' : Out} (h : l.foldlM (fun o i => dumpEmit o (f i)) o = .ok o') :
    o'.bytes = o.bytes ++ l.flatMap f := by
  induction l generalizing o with
  | nil =>
    cases h
    exact (append_nil _).symm
  | cons i l ih =>
    obtain ⟨o₁, hmt, hrs⟩ := bind_ok h
    rw [ih hrs, emit_bytes hmt, flatMap_cons, append_assoc]

theorem dumpThreads_ample (h : Ample (k + (l.flatMap f).length) o.writes) :
    ∃ o', l.foldlM (fun o i => dumpEmit o (f i)) o = .ok o' ∧ Ample k o'.writes := by
  induction l generalizing o with
  | nil => exact ⟨o, rfl, h⟩
  | cons i l ih =>
    rw [flatMap_cons, length_append] at h
    obtain ⟨o₁, hmt, hamp⟩ := emit_ample (k := k + (l.flatMap f).length) o (f i) (h.mono (by omega))
    obtain ⟨o₂, hrs, hamp⟩ := ih hamp
    refine ⟨o₂, ?_, hamp⟩
    rw [foldlM_cons, hmt]
    exact hrs

/-- The bytes of the headers, for the offsets that are expected. -/
def headers (core : Core) (enc : Encoding core.width) (areas : List (VmArea × Nat)) : List UInt8 :=
  enc.header (core.validAreas.length + core.threads) (sizeofcmds core) ++
    (areas.flatMap fun area => enc.segment (command area.1 area.2)) ++ (range core.threads).flatMap enc.thread

def firstOffset (core : Core) : Nat :=
  roundUpPow2 (sizeofcmds core + core.width.headerSize) alignPageSize % 2 ^ core.width.offsetBits

variable {enc : Encoding core.width}

theorem machoDumpHeaders_bytes (h : machoDumpHeaders core enc ⟨[], writes⟩ = .ok r) :
    r.1 = predicted core.width core.validAreas (firstOffset core) ∧ r.2.bytes = headers core enc r.1 := by
  obtain ⟨o₁, hhea, h⟩ := bind_ok h
  obtain ⟨r₁, hsegments, h⟩ := bind_ok h
  obtain ⟨o₂, hthread, rfl⟩ := map_ok h
  obtain ⟨hare, hby⟩ := dumpSegments_bytes hsegments
  refine ⟨hare, ?_⟩
  rw [dumpThreads_bytes hthread, hby, emit_bytes hhea]
  rfl

/-- When the conversion returns, the headers and the areas have been written, and each area was at its offset. -/
theorem machoCoredump_bytes (h : machoCoredump core enc openFile writes = .ok o) :
    (∀ vma ∈ core.validAreas, (pieces core openFile vma).isSome) ∧
      AtOffsets core openFile (predicted core.width core.validAreas (firstOffset core))
        (headers core enc (predicted core.width core.validAreas (firstOffset core))).length ∧
      o.bytes = headers core enc (predicted core.width core.validAreas (firstOffset core)) ++
        core.validAreas.flatMap (bytesOf core openFile) := by
  obtain ⟨⟨areas, o₁⟩, hhd, h⟩ := bind_ok h
  obtain ⟨rfl, hsta⟩ := machoDumpHeaders_bytes hhd
  rw [dumpAlign_one] at h
  obtain ⟨hso, hff, hout⟩ := dumpAreas_bytes h
  rw [hsta] at hff hout
  refine ⟨fun vma hvma => ?_, hff, hout.trans ?_⟩
  · rw [← predicted_map core.width core.validAreas (firstOffset core)] at hvma
    obtain ⟨area, harea, rfl⟩ := mem_map.1 hvma
    exact hso area harea
  · rw [flatMap_predicted]

theorem length_threads (enc : Encoding w) (n : Nat) : ((range n).flatMap enc.thread).length = n * w.threadSize := by
  rw [length_flatMap, map_congr_left fun i _ => enc.thread_length i, map_const', sum_replicate_nat, length_range]

theorem length_commands (enc : Encoding w) (areas : List (VmArea × Nat)) :
    (areas.flatMap fun area => enc.segment (command area.1 area.2)).length = areas.length * w.segmentSize := by
  rw [length_flatMap, map_congr_left fun area _ => enc.segment_length _, map_const', sum_replicate_nat]

variable (enc) in
theorem length_headers {areas : List (VmArea × Nat)} (h : areas.map Prod.fst = core.validAreas) :
    (headers core enc areas).length = core.dataOffset := by
  rw [headers, length_append, length_append, enc.header_length, length_commands, length_threads, Core.dataOffset, ← h, length_map]

variable (enc) in
/-- With enough writes the conversion returns, when every area is at its offset. -/
theorem machoCoredump_ample (hso : ∀ vma ∈ core.validAreas, (pieces core openFile vma).isSome)
    (hff : AtOffsets core openFile (predicted core.width core.validAreas (firstOffset core)) core.dataOffset)
    {writes : List WriteResult} (h : Ample (core.dataOffset + (core.validAreas.flatMap (bytesOf core openFile)).length) writes) :
    ∃ o, machoCoredump core enc openFile writes = .ok o := by
  rw [Core.dataOffset] at h
  obtain ⟨o₁, hhea, hamp⟩ := emit_ample (k := (core.validAreas.flatMap (bytesOf core openFile)).length +
      core.threads * core.width.threadSize + core.validAreas.length * core.width.segmentSize) ⟨[], writes⟩
    (enc.header (core.validAreas.length + core.threads) (sizeofcmds core)) (h.mono (by rw [enc.header_length]; omega))
  obtain ⟨r, hsegments, hamp⟩ : ∃ r, dumpSegments enc core.vmAreas (firstOffset core) o₁ = .ok r ∧ Ample _ r.2.writes :=
    dumpSegments_ample hamp
  obtain ⟨o₂, hthread, hamp⟩ := dumpThreads_ample (f := enc.thread) (by rw [length_threads]; exact hamp)
  have hhd : machoDumpHeaders core enc ⟨[], writes⟩ = .ok (r.1, o₂) := by
    exact (bind_of_ok hhea).trans ((bind_of_ok hsegments).trans (congrArg (Except.map _) hthread))
  obtain ⟨hare, hsta⟩ := machoDumpHeaders_bytes hhd
  rw [hare] at hsta hhd
  have hpiec : ∀ area ∈ predicted core.width core.validAreas (firstOffset core), (pieces core openFile area.1).isSome := by
    intro area harea
    have hmem := mem_map_of_mem (f := Prod.fst) harea
    rw [predicted_map] at hmem
    exact hso area.1 hmem
  obtain ⟨o₃, hdump, -⟩ := dumpAreas_ample hpiec
    (by rw [hsta, length_headers enc (predicted_map ..)]; exact hff)
    (by rw [flatMap_predicted, Nat.zero_add]; exact hamp)
  exact ⟨o₃, (bind_of_ok hhd).trans ((bind_of_ok (dumpAlign_one o₂)).trans hdump)⟩

end

end Osxie.Coredump
