import Osxie.Dmg.Fork

/-!
# Reads of a fork

A fork is in one of two states (`Sound`): the extents of the fork data, or these and all overflow extents. A read is at a place
(`At`) that the blocks of the extents before it lead up to; both loops keep that, and load the overflow extents when they come to
the end of the extents of the fork data.
-/

namespace Osxie.Dmg

open List Option Nat

namespace Fork

@[simp]
theorem blocks_nil : blocks [] = 0 := rfl

@[simp]
theorem blocks_cons (e : Extent) (es : List Extent) : blocks (e :: es) = e.blockCount + blocks es := by
  simp [blocks]

@[simp]
theorem blocks_append (es es' : List Extent) : blocks (es ++ es') = blocks es + blocks es' := by
  simp [blocks]

variable {f : Fork} {disk : Nat → UInt8} {rest : List Extent}

theorem length_flatMap_extentBytes (es : List Extent) : (es.flatMap (f.extentBytes disk)).length =
    blocks es * f.volume.blockSize := by
  induction es with
  | nil => simp
  | cons e es ih => rw [flatMap_cons, length_append, ih, extentBytes, length_span, blocks_cons, add_mul]

/-- The extents of the fork data, or all extents. -/
def Sound (f : Fork) (rest : List Extent) (st : State) : Prop := st = f.init ∨ st = ⟨f.inline ++ rest, 1⟩

structure At (f : Fork) (rest : List Extent) (pos : Nat) (p : Place) : Prop where
  blocksSoFar : p.blocksSoFar = blocks ((f.inline ++ rest).take p.extent)
  pos_eq : pos = p.blocksSoFar * f.volume.blockSize + p.offsetInExtent
  inside : ∃ e, (f.inline ++ rest)[p.extent]? = some e ∧ p.offsetInExtent < e.blockCount * f.volume.blockSize

variable {st : State} {offset : Nat} {p : Place} {e : Extent}

theorem Sound.loads_le (h : Sound f rest st) : st.loads ≤ 1 := by
  rcases h with rfl | rfl
  · exact zero_le _
  · exact le_rfl

theorem Sound.extents_eq (h : Sound f rest st) : st.extents = f.inline ∨ st.extents = f.inline ++ rest := by
  rcases h with rfl | rfl
  · exact .inl rfl
  · exact .inr rfl

/-- The extents loaded are the first ones of all. -/
theorem Sound.split (h : Sound f rest st) : ∃ more, f.inline ++ rest = st.extents ++ more := by
  rcases h with rfl | rfl
  · exact ⟨rest, rfl⟩
  · exact ⟨[], (append_nil _).symm⟩

/-- Only the extents of the fork data are loaded, if not all extents are. -/
theorem Sound.eq_init (h : Sound f rest st) (hne : st.extents ≠ f.inline ++ rest) : st = f.init ∧ rest ≠ [] := by
  rcases h with rfl | rfl
  · refine ⟨rfl, ?_⟩
    rintro rfl
    exact hne (append_nil _).symm
  · exact absurd rfl hne

/-- Loading the overflow extents. -/
theorem load_spec (hwf : f.WellFormed disk rest) (hrs : rest ≠ []) : ∃ enough, ∀ rounds ≥ enough,
    f.loadFromOverflowsFile f.init (blocks f.inline) rounds = some (.ok ⟨f.inline ++ rest, 1⟩) := by
  obtain ⟨hcnid, hlen, enough, hfi⟩ := hwf.overflow hrs
  refine ⟨enough, fun rounds henough => ?_⟩
  have hmr : (f.inline ++ rest).length ≠ f.inline.length := by
    have := length_pos_of_ne_nil hrs
    rw [length_append]
    omega
  rw [loadFromOverflowsFile, if_neg hcnid, if_neg (by rw [init, hlen]; decide)]
  simp only [init, hfi rounds henough]
  exact if_neg hmr

/-! ## The first extent -/

/-- The loop over extents stops at the one that has the block, or behind them. -/
theorem scan_spec {blockSize firstBlock offset : Nat} (hfirst : firstBlock * blockSize ≤ offset) (hoffs : offset < 2 ^ 64) :
    ∀ (es : List Extent) (p : Place), p.blocksSoFar + blocks es < 2 ^ 32 → p.blocksSoFar ≤ firstBlock →
      p.offsetInExtent = offset - p.blocksSoFar * blockSize → ∃ before after, es = before ++ after ∧
        scan blockSize firstBlock es p = (!after.isEmpty, ⟨p.extent + before.length, p.blocksSoFar + blocks before,
          offset - (p.blocksSoFar + blocks before) * blockSize⟩) ∧
        p.blocksSoFar + blocks before ≤ firstBlock ∧
        ∀ e ∈ after.head?, firstBlock < p.blocksSoFar + blocks before + e.blockCount := by
  intro es
  induction es with
  | nil =>
    intro p _ hle hin
    exact ⟨[], [], rfl, by simp [scan, ← hin], by simpa using hle, by simp⟩
  | cons e es ih =>
    intro p hlt hle hin
    rw [blocks_cons] at hlt
    rw [scan, mod_eq_of_lt (by omega), mod_eq_of_lt (by omega)]
    by_cases hstop : firstBlock < e.blockCount + p.blocksSoFar
    · rw [if_pos hstop]
      refine ⟨[], e :: es, rfl, by simp [← hin], by simpa using hle, fun e' he' => ?_⟩
      obtain rfl : e = e' := by simpa using he'
      omega
    · rw [if_neg hstop]
      have hby : (p.blocksSoFar + e.blockCount) * blockSize ≤ offset := le_trans (mul_le_mul_right _ (by omega)) hfirst
      have hoff : u64Sub p.offsetInExtent (e.blockCount * blockSize) = offset - (p.blocksSoFar + e.blockCount) * blockSize := by
        rw [add_mul] at hby ⊢
        rw [u64Sub_of_le (by omega) (by omega)]
        omega
      obtain ⟨before, after, hes, hsc, hle', hft⟩ := ih ⟨p.extent + 1, p.blocksSoFar + e.blockCount, _⟩
        (show p.blocksSoFar + e.blockCount + blocks es < 2 ^ 32 by omega)
        (show p.blocksSoFar + e.blockCount ≤ firstBlock by omega) hoff
      have hext : p.extent + 1 + before.length = p.extent + (e :: before).length := by
        rw [length_cons]
        omega
      have hbl : p.blocksSoFar + e.blockCount + blocks before = p.blocksSoFar + blocks (e :: before) := by
        rw [blocks_cons, add_assoc]
      rw [hbl] at hsc hle' hft
      rw [hext] at hsc
      exact ⟨e :: before, after, by rw [hes, cons_append], hsc, hle', hft⟩

section

variable (hwf : f.WellFormed disk rest)

include hwf

/-- In a fork all blocks of which have a number, the offset of a byte is that of a block. -/
theorem firstBlock_lt (h : offset < f.logicalSize) : offset / f.volume.blockSize < blocks (f.inline ++ rest) :=
  Nat.div_lt_of_lt_mul (Nat.lt_of_lt_of_le h (by rw [Nat.mul_comm]; exact hwf.covers))

theorem logicalSize_lt : f.logicalSize + 2 ^ 31 < 2 ^ 64 := by
  have h : blocks (f.inline ++ rest) * f.volume.blockSize ≤ (2 ^ 32 - 1) * (2 ^ 32 - 1) :=
    Nat.mul_le_mul (Nat.le_sub_one_of_lt hwf.blocks_lt) (Nat.le_sub_one_of_lt hwf.blockSize_lt)
  have := hwf.covers
  omega

/-- A scan that has not reached the end of the extents is at the place of the offset. -/
theorem at_of_scan (before after : List Extent) (hall : f.inline ++ rest = before ++ after)
    (hle : blocks before ≤ offset / f.volume.blockSize)
    (hft : ∀ e ∈ after.head?, offset / f.volume.blockSize < blocks before + e.blockCount) (hne : after ≠ []) :
    At f rest offset ⟨before.length, blocks before, offset - blocks before * f.volume.blockSize⟩ := by
  obtain ⟨e, es, rfl⟩ := exists_cons_of_ne_nil hne
  have hby : blocks before * f.volume.blockSize ≤ offset := (le_div_iff_mul_le hwf.blockSize_pos).1 hle
  have hlt : offset < (blocks before + e.blockCount) * f.volume.blockSize := (div_lt_iff_lt_mul hwf.blockSize_pos).1 (hft e rfl)
  rw [add_mul] at hlt
  refine ⟨?_, ?_, e, ?_, ?_⟩
  · rw [hall, take_left]
  · show offset = blocks before * f.volume.blockSize + (offset - blocks before * f.volume.blockSize)
    omega
  · rw [hall]
    simp
  · show offset - blocks before * f.volume.blockSize < _
    omega

/-- The first extent is found. -/
theorem locate_spec (hoffs : offset < f.logicalSize) (hst : Sound f rest st) :
    ∃ st' p, Sound f rest st' ∧ At f rest offset p ∧ p.extent < st'.extents.length ∧
      ∃ enough, ∀ rounds ≥ enough,
        f.locate (offset / f.volume.blockSize % 2 ^ 32) rounds st ⟨0, 0, offset⟩ = some (st', .ok p) := by
  have hblocks := firstBlock_lt hwf hoffs
  have hlt := hwf.blocks_lt
  have hsz := logicalSize_lt hwf
  rw [mod_eq_of_lt (lt_trans hblocks hlt)]
  obtain ⟨more, hmr⟩ := hst.split
  have hfirst : offset / f.volume.blockSize * f.volume.blockSize ≤ offset := div_mul_le_self ..
  obtain ⟨before, after, hes, hsc, hle, hft⟩ := scan_spec hfirst (by omega) st.extents ⟨0, 0, offset⟩
    (by rw [hmr, blocks_append] at hlt; simp only; omega) (zero_le _) (by simp)
  simp only [zero_add] at hsc hle hft
  by_cases hne : after = []
  · -- the extents loaded end before the block: they are those of the fork data
    rw [hne, append_nil] at hes
    subst hes
    obtain ⟨rfl, hrs⟩ := hst.eq_init fun heq => absurd (heq ▸ hle) (not_le.2 hblocks)
    obtain ⟨enough, hld⟩ := load_spec hwf hrs
    rw [blocks_append] at hlt hblocks
    obtain ⟨before, after, hes', hscan', hle', hafter'⟩ := scan_spec hfirst (by omega) rest
      ⟨f.inline.length, blocks f.inline, offset - blocks f.inline * f.volume.blockSize⟩ hlt hle rfl
    have hne' : after ≠ [] := by
      rintro rfl
      rw [append_nil] at hes'
      subst hes'
      exact absurd hle' (not_le.2 hblocks)
    have hat := at_of_scan hwf (f.inline ++ before) after (by rw [hes', append_assoc]) (by rwa [blocks_append])
      (by rwa [blocks_append]) hne'
    rw [length_append, blocks_append] at hat
    refine ⟨⟨f.inline ++ rest, 1⟩, _, .inr rfl, hat, ?_, enough + 2, fun rounds henough => ?_⟩
    · have := length_pos_of_ne_nil hne'
      rw [hes']
      simp only [length_append]
      omega
    · obtain ⟨n, rfl⟩ : ∃ n, rounds = n + 1 + 1 := ⟨rounds - 2, by omega⟩
      simp only [locate, drop_zero, hsc, hne, isEmpty_nil, Bool.not_true]
      rw [show (f.init).extents = f.inline from rfl, hld (n + 1) (by omega)]
      simp only [drop_left, hscan', isEmpty_eq_false_iff.2 hne', Bool.not_false]
  · obtain ⟨e, es, rfl⟩ := exists_cons_of_ne_nil hne
    have hat := at_of_scan hwf before (e :: es ++ more) (by rw [hmr, hes, append_assoc]) hle hft (by simp)
    refine ⟨st, _, hst, hat, ?_, 1, fun rounds henough => ?_⟩
    · rw [hes]
      simp
    · obtain _ | n := rounds
      · omega
      simp only [locate, drop_zero, hsc, isEmpty_cons, Bool.not_false]

/-! ## Reading -/

/-- At a place in the fork there is an extent loaded, after the overflow extents are if they have to be. -/
theorem ensure_spec (hst : Sound f rest st) {pos : Nat} (hat : At f rest pos p) (hle : p.extent ≤ st.extents.length) :
    ∃ st', Sound f rest st' ∧ p.extent < st'.extents.length ∧ ∃ enough, ∀ rounds ≥ enough,
      (if st.extents.length ≤ p.extent then f.loadFromOverflowsFile st p.blocksSoFar rounds else some (.ok st)) =
        some (.ok st') := by
  obtain ⟨e, he, -⟩ := hat.inside
  have hlt := (List.getElem?_eq_some_iff.1 he).1
  by_cases hend : st.extents.length ≤ p.extent
  · have hp : p.extent = st.extents.length := le_antisymm hle hend
    obtain ⟨rfl, hrs⟩ := hst.eq_init fun heq => absurd (heq ▸ hend) (not_le.2 hlt)
    obtain ⟨enough, hld⟩ := load_spec hwf hrs
    have hbl : p.blocksSoFar = blocks f.inline := by
      rw [hat.blocksSoFar, hp]
      exact congrArg blocks take_left
    refine ⟨⟨f.inline ++ rest, 1⟩, .inr rfl, hlt, enough, fun rounds henough => ?_⟩
    rw [if_pos hend, hbl, hld rounds henough]
  · exact ⟨st, hst, by omega, 0, fun _ _ => if_neg hend⟩

omit hwf in
theorem Sound.getElem?_eq (h : Sound f rest st) {i : Nat} (hi : i < st.extents.length) :
    st.extents[i]? = (f.inline ++ rest)[i]? := by
  obtain ⟨more, hmr⟩ := h.split
  rw [hmr, getElem?_append_left hi]

/-- Every extent has blocks. -/
theorem blockCount_pos (h : e ∈ f.inline ++ rest) : 0 < e.blockCount := by
  rcases mem_append.1 h with h | h
  · simpa using (mem_filter.1 h).2
  · exact hwf.rest_pos e h

/-- The blocks up to the end of an extent are counted with 32 bits. -/
theorem blocks_through {pos : Nat} (hat : At f rest pos p)
    (he : (f.inline ++ rest)[p.extent]? = some e) :
    blocks ((f.inline ++ rest).take (p.extent + 1)) = p.blocksSoFar + e.blockCount ∧ p.blocksSoFar + e.blockCount < 2 ^ 32 := by
  have htake : blocks ((f.inline ++ rest).take (p.extent + 1)) = p.blocksSoFar + e.blockCount := by
    rw [take_add_one, he, blocks_append, hat.blocksSoFar]
    rfl
  have hlt := hwf.blocks_lt
  rw [← take_append_drop (p.extent + 1) (f.inline ++ rest), blocks_append] at hlt
  omega

/-- The place after an extent that was read to its end. -/
theorem at_next {pos n : Nat} (hat : At f rest pos p)
    (he : (f.inline ++ rest)[p.extent]? = some e) (hn : p.offsetInExtent + n = e.blockCount * f.volume.blockSize)
    (hlt : pos + n < f.logicalSize) : At f rest (pos + n) ⟨p.extent + 1, p.blocksSoFar + e.blockCount, 0⟩ := by
  obtain ⟨hbl, -⟩ := blocks_through hwf hat he
  have hpos : pos + n = (p.blocksSoFar + e.blockCount) * f.volume.blockSize := by
    rw [hat.pos_eq, add_mul, ← hn, add_assoc]
  refine ⟨hbl.symm, hpos, ?_⟩
  by_cases hla : p.extent + 1 < (f.inline ++ rest).length
  · have hcount := blockCount_pos hwf (getElem_mem hla)
    exact ⟨_, getElem?_eq_getElem hla, Nat.mul_pos hcount hwf.blockSize_pos⟩
  · -- after the last extent all of the fork was read
    rw [take_of_length_le (by omega)] at hbl
    have hcov := hwf.covers
    rw [hbl] at hcov
    omega

def thistime (f : Fork) (count done : Nat) (p : Place) (e : Extent) : Nat :=
  min (e.blockCount * f.volume.blockSize - p.offsetInExtent) (count - done)

omit hwf in
theorem thistime_bounds {count done : Nat} (hdn : done < count) (hin : p.offsetInExtent < e.blockCount * f.volume.blockSize) :
    0 < thistime f count done p e ∧
      p.offsetInExtent + thistime f count done p e ≤ e.blockCount * f.volume.blockSize ∧
        done + thistime f count done p e ≤ count := by
  unfold thistime
  omega

omit hwf in
/-- The machine integers of a round come to that. -/
theorem int32_thistime {count done : Nat} (hcount : count < 2 ^ 31) (hdn : done < count)
    (hin : p.offsetInExtent < e.blockCount * f.volume.blockSize) (hsmall : e.blockCount * f.volume.blockSize < 2 ^ 63) :
    int32 (min (int64 (u64Sub (e.blockCount * f.volume.blockSize) p.offsetInExtent)) (u32 ((count : Int) - (done : Int)))) =
      thistime f count done p e := by
  have hlf : ((count : Int) - (done : Int)) = ((count - done : Nat) : Int) := by omega
  have hmin : (min ((e.blockCount * f.volume.blockSize - p.offsetInExtent : Nat) : Int) ((count - done : Nat) : Int)) =
      (thistime f count done p e : Nat) := by
    unfold thistime
    omega
  have hlt : thistime f count done p e < 2 ^ 31 := lt_of_le_of_lt (min_le_right ..) (by omega)
  rw [u64Sub_of_le (le_of_lt hin) (by omega), int64_of_lt (by omega), hlf, u32_natCast (by omega), hmin, int32_of_lt hlt]

omit hwf in
/-- What a round reads from the volume are the next bytes of the fork. -/
theorem span_eq_slice {pos n : Nat} (hat : At f rest pos p) (he : (f.inline ++ rest)[p.extent]? = some e)
    (hn : p.offsetInExtent + n ≤ e.blockCount * f.volume.blockSize) :
    span disk (e.startBlock * f.volume.blockSize + p.offsetInExtent) n = slice (f.contents disk rest) pos n := by
  have hsli := slice_flatMap (f := f.extentBytes disk) he p.offsetInExtent n (by rw [extentBytes, length_span]; exact hn)
  rw [length_flatMap_extentBytes, ← hat.blocksSoFar, ← hat.pos_eq] at hsli
  rw [contents, hsli, extentBytes, slice_span disk hn]

/-- A round of the loop reads what there is of an extent, or what is left to be read. -/
theorem readBlocks_step {count offset done : Nat} (hcount : count < 2 ^ 31)
    (hend : offset + count ≤ f.logicalSize) (hdn : done < count) {st st' : State} (hat : At f rest (offset + done) p)
    (he : (f.inline ++ rest)[p.extent]? = some e) (hin : p.offsetInExtent < e.blockCount * f.volume.blockSize)
    (hsmall : e.blockCount * f.volume.blockSize < 2 ^ 63) (hst' : Sound f rest st') (hlt : p.extent < st'.extents.length)
    {n : Nat}
    (hld : (if st.extents.length ≤ p.extent then f.loadFromOverflowsFile st p.blocksSoFar n else some (.ok st)) = some (.ok st'))
    (buf : List UInt8) :
    f.readBlocks count offset (n + 1) st p done buf = f.readBlocks count offset n st'
      ⟨p.extent + 1, p.blocksSoFar + e.blockCount, 0⟩ (done + thistime f count done p e)
      (buf ++ slice (f.contents disk rest) (offset + done) (thistime f count done p e)) := by
  have hcond : done < u32 (count : Int) ∧ u64 (done + offset) < f.logicalSize := by
    rw [u32_natCast (by omega), u64]
    omega
  obtain ⟨hpos, hleE, hleC⟩ := thistime_bounds hdn hin
  have hvol : u64 (e.startBlock * f.volume.blockSize + p.offsetInExtent) = e.startBlock * f.volume.blockSize +
    p.offsetInExtent := by
    have hon := mul_le_mul_right f.volume.blockSize (hwf.on_volume e (mem_of_getElem? he))
    have hbs := hwf.blockSize_lt
    rw [add_mul] at hon
    exact mod_eq_of_lt (by omega)
  rw [readBlocks, if_pos hcond, hld]
  simp only [hst'.getElem?_eq hlt, he, int32_thistime hcount hdn hin hsmall, hvol, hwf.reader, span_eq_slice hat he hleE]
  rw [if_neg (by omega), if_neg (by simp), mod_eq_of_lt (blocks_through hwf hat he).2, ← Int.natCast_add, u32_natCast (by omega)]

/-- No extent has so many bytes that they do not fit a signed 64-bit number. -/
def Fits (f : Fork) (rest : List Extent) : Prop := ∀ e ∈ f.inline ++ rest, e.blockCount * f.volume.blockSize < 2 ^ 63

/-- The loop reads all that is left. -/
theorem readBlocks_spec (hfits : Fits f rest) {count offset : Nat} (hcount : count < 2 ^ 31)
    (hend : offset + count ≤ f.logicalSize) :
    ∀ (left done : Nat) (st : State) (p : Place), done + left = count → Sound f rest st →
      p.extent ≤ st.extents.length → (done < count → At f rest (offset + done) p) → ∃ st', Sound f rest st' ∧
        ∃ enough, ∀ rounds ≥ enough, f.readBlocks count offset rounds st p done (slice (f.contents disk rest) offset done) =
          some (st', .ok (count, slice (f.contents disk rest) offset count)) := by
  intro left
  induction left using Nat.strong_induction_on with
  | _ left ih =>
    intro done st p hlf hst hext hat
    by_cases hdn : done < count
    · have hat := hat hdn
      obtain ⟨e, he, hin⟩ := hat.inside
      have hsmall := hfits e (mem_of_getElem? he)
      obtain ⟨st₁, hst₁, hlt₁, enough₁, hld⟩ := ensure_spec hwf hst hat hext
      obtain ⟨hpos, -, hle⟩ := thistime_bounds hdn hin
      -- what is left is in the extents that follow, or nothing is left
      have hat' : done + thistime f count done p e < count → At f rest (offset + (done + thistime f count done p e))
          ⟨p.extent + 1, p.blocksSoFar + e.blockCount, 0⟩ := by
        intro hmr
        have hwhole : p.offsetInExtent + thistime f count done p e = e.blockCount * f.volume.blockSize := by
          unfold thistime at hmr ⊢
          omega
        rw [← add_assoc]
        exact at_next hwf hat he hwhole (by omega)
      obtain ⟨st', hst', enough, hrea⟩ := ih (left - thistime f count done p e) (by omega) (done + thistime f count done p e) st₁
        ⟨p.extent + 1, p.blocksSoFar + e.blockCount, 0⟩ (by omega) hst₁ hlt₁ hat'
      refine ⟨st', hst', max enough enough₁ + 1, fun rounds henough => ?_⟩
      obtain _ | n := rounds
      · omega
      rw [readBlocks_step hwf hcount hend hdn hat he hin hsmall hst₁ hlt₁ (hld n (by omega)), ← slice_add, hrea n (by omega)]
    · refine ⟨st, hst, 1, fun rounds henough => ?_⟩
      obtain _ | n := rounds
      · omega
      obtain rfl : done = count := by omega
      rw [readBlocks, if_neg (by rw [u32_natCast (by omega)]; omega), int32_of_lt hcount]

/-! ## Sequences of reads -/

/-- The count of a read is cut off at the end of the fork. -/
theorem clip_eq {count : Int} (offset : Nat) (hcount : 0 ≤ count) (hlt : count < 2 ^ 31) :
    f.clip count offset = f.available count offset := by
  have hsz := logicalSize_lt hwf
  unfold clip available
  by_cases hbey : f.logicalSize < offset
  · omega
  by_cases hcut : f.logicalSize < offset + count.toNat
  · rw [show ((f.logicalSize : Int) - offset) = ((f.logicalSize - offset : Nat) : Int) by omega, int32_of_lt (by omega)]
    omega
  · omega

/-- A read returns all bytes there are. -/
theorem read_spec (hfits : Fits f rest) (hst : Sound f rest st) {count : Int} (offset : Nat) (hcount : 0 ≤ count)
    (hlt : count < 2 ^ 31) : ∃ st', Sound f rest st' ∧ ∃ enough, ∀ rounds ≥ enough,
      f.read rounds st count offset = some (st', .ok (f.expected disk rest count offset)) := by
  have hclip := clip_eq hwf offset hcount hlt
  by_cases hze : f.available count offset = 0
  · refine ⟨st, hst, 0, fun rounds _ => ?_⟩
    rw [read, hclip, expected, hze]
    simp
  · have hvl : 0 ≤ f.available count offset ∧ f.available count offset ≤ count ∧
        offset + f.available count offset ≤ f.logicalSize := by
      unfold available at hze ⊢
      omega
    obtain ⟨n, hn⟩ : ∃ n : Nat, f.available count offset = n := ⟨_, (Int.toNat_of_nonneg hvl.1).symm⟩
    obtain ⟨st₁, p, hst₁, hat, hp, enough₁, hloc⟩ := locate_spec hwf (show offset < f.logicalSize by omega) hst
    obtain ⟨st₂, hst₂, enough₂, hrea⟩ := readBlocks_spec hwf hfits (by omega)
      (by omega) n 0 st₁ p (zero_add n) hst₁ (le_of_lt hp) (fun _ => hat)
    refine ⟨st₂, hst₂, max enough₁ enough₂, fun rounds henough => ?_⟩
    rw [read, hclip, if_neg hze, hloc rounds (by omega)]
    rw [expected, hn]
    exact hrea rounds (by omega)

/-- From every sound state on, the reads of a sequence return all bytes there are. -/
theorem reads_spec (hfits : Fits f rest) {calls : List (Int × Nat)} (hcalls : ∀ c ∈ calls, 0 ≤ c.1 ∧ c.1 < 2 ^ 31)
    (hst : Sound f rest st) : ∃ enough st', Sound f rest st' ∧
      ∀ rounds ≥ enough, f.reads rounds st calls = some (st', calls.map fun c => .ok (f.expected disk rest c.1 c.2)) := by
  induction calls generalizing st with
  | nil => exact ⟨0, st, hst, fun _ _ => rfl⟩
  | cons c cs ih =>
    obtain ⟨hcount, hlt⟩ := hcalls c mem_cons_self
    obtain ⟨st₁, hst₁, enough₁, hrea⟩ := read_spec hwf hfits hst c.2 hcount hlt
    obtain ⟨enough₂, st₂, hst₂, hrd⟩ := ih (fun c hc => hcalls c (mem_cons_of_mem _ hc)) hst₁
    refine ⟨max enough₁ enough₂, st₂, hst₂, fun rounds henough => ?_⟩
    simp only [reads, hrea rounds (by omega), hrd rounds (by omega)]
    rfl

end

/-- **Fork reads**: if no extent has 2^63 bytes or more, every sequence of reads follows the extents. -/
theorem follows_of_fits (hwf : f.WellFormed disk rest) (hfits : Fits f rest) {calls : List (Int × Nat)}
    (hcalls : ∀ c ∈ calls, 0 ≤ c.1 ∧ c.1 < 2 ^ 31) : Follows f disk rest calls := by
  obtain ⟨enough, st, hst, hrd⟩ := reads_spec hwf hfits hcalls (.inl rfl)
  exact ⟨enough, st, hrd, hst.loads_le, hst.extents_eq⟩

/-- A volume whose reader returns full counts of zeros. -/
def zeros (blockSize : Nat) (overflowExtents : Extents.Tree) : Volume where
  blockSize := blockSize
  overflowExtents := overflowExtents
  reader count offset := (count, span (fun _ => 0) offset count.toNat)

/-- A fork with a ninth extent, in the extents overflow tree. -/
def nineExtents : Fork where
  volume := zeros 512 (BTree.lastLeaf 512 2 [(⟨0, 16, 8⟩, .value [⟨40, 2⟩])])
  logicalSize := 5000
  extents := (range 8).map fun i => ⟨10 + 2 * i, 1⟩
  cnid := 16
  resourceFork := false

theorem nineExtents_wellFormed : nineExtents.WellFormed (fun _ => 0) [⟨40, 2⟩] where
  blockSize_pos := by decide
  blockSize_lt := by decide
  reader := fun count offset => rfl
  overflow := fun _ => ⟨by decide, by decide, 1, fun rounds henough => by
    obtain _ | n := rounds
    · omega
    rfl⟩
  rest_pos := by decide
  on_volume := by decide
  blocks_lt := by decide
  covers := by decide

/-- Three reads of a fork with an extent beyond the first eight. -/
theorem follows_of_fits_nineExtents :
    Follows nineExtents (fun _ => 0) [⟨40, 2⟩] [(4600, 300), (100, 0), (900, 4000)] :=
  follows_of_fits nineExtents_wellFormed (by unfold Fits; decide) (by decide)

/-- One extent with more than 2^63 bytes. -/
def hugeExtent : Fork where
  volume := zeros (3 * 2 ^ 30) (BTree.lastLeaf 512 1 [])
  logicalSize := 1
  extents := [⟨0, 2863311532⟩]
  cnid := 16
  resourceFork := false

/-- The bytes that are left of the extent become a negative number, whose lower 32 bits are 0: the read of the only byte of the
fork throws. -/
theorem hugeExtent_not_read : hugeExtent.WellFormed (fun _ => 0) [] ∧
    (∀ n, hugeExtent.reads (n + 1) hugeExtent.init [(1, 0)] = some (hugeExtent.init, [.error "Internal error: thistime == 0"])) ∧
    ¬Follows hugeExtent (fun _ => 0) [] [(1, 0)] := by
  have hrea : ∀ n, hugeExtent.reads (n + 1) hugeExtent.init [(1, 0)] =
      some (hugeExtent.init, [.error "Internal error: thistime == 0"]) := fun n => rfl
  refine ⟨⟨by decide, by decide, fun _ _ => rfl, by simp, by simp, by decide, by decide, by decide⟩, hrea, ?_⟩
  rintro ⟨enough, st, hall, -⟩
  have hok := hall (enough + 1) (by omega)
  rw [hrea] at hok
  simp at hok

end Fork

end Osxie.Dmg
