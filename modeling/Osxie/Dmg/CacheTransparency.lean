import Osxie.Dmg.CachedReader

/-!
# The block cache is transparent

The zone is faithful when every block it holds has the bytes of the contents. A range that is handled keeps it so if the last of
its aligned blocks is full, or reaches up to the end of the contents, or is not stored.

`read` fills its buffer from the front: what is fetched is always the contents up to `lastFetchPos`.
-/

namespace Osxie.Dmg

open CacheZone Buffer Nat CachedReader Backing

/-! ## Filling buffers -/

namespace Buffer

variable {b : Backing}

/-- The contents of a reader from `offset` on, so many bytes, at `pos` of a buffer. -/
def fill (buf : Buffer) (pos : Nat) (b : Backing) (offset count : Nat) : Buffer := fun i =>
  if pos ≤ i ∧ i < pos + count then some (b.byte (offset + (i - pos))) else buf i

theorem ext {buf buf' : Buffer} (h : ∀ i, buf i = buf' i) : buf = buf' := funext h

variable (buf : Buffer)

theorem fill_zero (pos offset : Nat) : buf.fill pos b offset 0 = buf := by
  refine ext fun i => ?_
  unfold fill
  rw [if_neg (by omega)]

/-- Two stretches that meet are one. -/
theorem fill_fill (pos offset m n : Nat) :
    (buf.fill pos b offset m).fill (pos + m) b (offset + m) n = buf.fill pos b offset (m + n) := by
  refine ext fun i => ?_
  unfold fill
  by_cases h : pos + m ≤ i ∧ i < pos + m + n
  · rw [if_pos h, if_pos (by omega), show offset + m + (i - (pos + m)) = offset + (i - pos) by omega]
  · rw [if_neg h]
    by_cases h' : pos ≤ i ∧ i < pos + m
    · rw [if_pos h', if_pos (by omega)]
    · rw [if_neg h', if_neg (by omega)]

/-- A stretch that was left out is filled later. -/
theorem fill_gap (offset : Nat) {fetched done n : Nat} (h : fetched ≤ done) :
    ((buf.fill 0 b offset fetched).fill done b (offset + done) n).fill fetched b (offset + fetched) (done - fetched) =
      buf.fill 0 b offset (done + n) := by
  refine ext fun i => ?_
  unfold fill
  by_cases h1 : fetched ≤ i ∧ i < fetched + (done - fetched)
  · rw [if_pos h1, if_pos (by omega), show offset + fetched + (i - fetched) = offset + (i - 0) by omega]
  · rw [if_neg h1]
    by_cases h2 : done ≤ i ∧ i < done + n
    · rw [if_pos h2, if_pos (by omega), show offset + done + (i - done) = offset + (i - 0) by omega]
    · rw [if_neg h2]
      by_cases h3 : 0 ≤ i ∧ i < 0 + fetched
      · rw [if_pos h3, if_pos (by omega)]
      · rw [if_neg h3, if_neg (by omega)]

/-- A copy of bytes that are the contents. -/
theorem copy_eq_fill {src : Buffer} {pos srcPos offset count : Nat}
    (h : ∀ i < count, src (srcPos + i) = some (b.byte (offset + i))) :
    buf.copy pos src srcPos count = buf.fill pos b offset count := by
  refine ext fun i => ?_
  unfold copy fill
  by_cases hi : pos ≤ i ∧ i < pos + count
  · rw [if_pos hi, if_pos hi, h (i - pos) (by omega)]
  · rw [if_neg hi, if_neg hi]

theorem empty_fill (offset count : Nat) : empty.fill 0 b offset count = b.slice offset count := by
  refine ext fun i => ?_
  unfold fill slice
  by_cases hi : i < count
  · rw [if_pos (by omega), if_pos hi, Nat.sub_zero]
  · rw [if_neg (by omega), if_neg hi]
    rfl

end Buffer

/-! ## The zone -/

variable {τ : Type} [DecidableEq τ] {readers : τ → Backing} {z : CacheZone τ}

/-- Every block of the zone has the bytes of the contents, where it lies inside them. -/
def Faithful (readers : τ → Backing) (z : CacheZone τ) : Prop :=
  ∀ key data, z.Holds key data → ∀ i < blockSize, key.blockId * blockSize + i < (readers key.vfile).length →
    data i = some ((readers key.vfile).byte (key.blockId * blockSize + i))

omit [DecidableEq τ] in
theorem faithful_new (maxBlocks : Nat) : Faithful readers (.new maxBlocks) :=
  fun _ _ h => absurd h (not_holds_new maxBlocks _ _)

omit [DecidableEq τ] in
theorem Faithful.of_holds {z' : CacheZone τ} (h : Faithful readers z) (hz : ∀ key data, z'.Holds key data → z.Holds key data) :
    Faithful readers z' :=
  fun key data hkey => h key data (hz key data hkey)

/-- A block is stored whose bytes are the contents, as far as the contents go. -/
theorem Faithful.store (h : Faithful readers z) {key : Key τ} {data : Buffer} {bytes : Nat}
    (hby : ∀ i < blockSize, key.blockId * blockSize + i < (readers key.vfile).length →
      i < bytes ∧ data i = some ((readers key.vfile).byte (key.blockId * blockSize + i))) :
        Faithful readers (z.store key data bytes) := by
  intro k d hk i hi hlt
  rcases hk.of_store with hk | ⟨rfl, rfl⟩
  · exact h k d hk i hi hlt
  · obtain ⟨hib, hda⟩ := hby i hi hlt
    unfold copy
    rw [if_pos (by omega), zero_add]
    exact hda

/-- The blocks of a range that is handled are stored. -/
theorem Faithful.storeBlocks {r : CachedReader τ} (hr : readers r.tag = r.reader) {blockStart blockEnd : Nat}
    (hend : blockEnd ≤ r.reader.length) (hlen : r.reader.length + 2 ^ 31 ≤ 2 ^ 64)
    (hlg : blockEnd % blockSize = 0 ∨ blockEnd = r.reader.length ∨ blockEnd / blockSize * blockSize < blockStart) :
    ∀ (n cachePos : Nat) {z : CacheZone τ}, Faithful readers z → blockStart ≤ cachePos → cachePos % blockSize = 0 →
      Faithful readers (r.storeBlocks (r.reader.slice blockStart (blockEnd - blockStart)) blockStart blockEnd n cachePos z) := by
  intro n
  induction n with
  | zero => exact fun cachePos z h _ _ => h
  | succ n ih =>
    intro cachePos z h hsta hmod
    unfold CachedReader.storeBlocks
    split
    · have hwr : u64 (cachePos + blockSize) = cachePos + blockSize := mod_eq_of_lt (by simp only [blockSize]; omega)
      rw [hwr]
      refine ih (cachePos + blockSize) (h.store ?_) (le_add_right_of_le hsta) ((add_mod_right _ _).trans hmod)
      intro i hi hpos
      rw [hr] at hpos ⊢
      rw [Nat.div_mul_cancel (Nat.dvd_of_mod_eq_zero hmod)] at hpos ⊢
      -- the block is full, or its end is that of the contents
      have hby : i < blockEnd - cachePos := by
        simp only [blockSize] at hi hmod hlg
        omega
      refine ⟨Nat.lt_min.2 ⟨hby, hi⟩, ?_⟩
      unfold slice
      rw [if_pos (by omega), show blockStart + (cachePos - blockStart + i) = cachePos + i by omega]
    · exact h

/-- The first block that begins in a range. -/
theorem alignUp_spec (blockStart : Nat) (h : blockStart + 2 ^ 31 ≤ 2 ^ 64) :
    blockStart ≤ u64 (blockStart + (blockSize - 1)) / blockSize * blockSize ∧
      u64 (blockStart + (blockSize - 1)) / blockSize * blockSize % blockSize = 0 := by
  have hwr : u64 (blockStart + (blockSize - 1)) = blockStart + (blockSize - 1) := mod_eq_of_lt (by simp only [blockSize]; omega)
  rw [hwr]
  simp only [blockSize]
  omega

/-! ## Reading past the zone -/

section Reads

variable {r : CachedReader τ}

variable {asked : Nat} {count offset : Nat}

/-- The loop of `nonCachedRead` fills the rest of its stretch, when all ranges are handled. -/
theorem nonCachedFrom_spec (hr : readers r.tag = r.reader) (hasked : Asked r.reader r.advise asked)
    (hhandled : Handled r.reader r.advise) (hend : offset + count ≤ r.reader.length) (bufPos : Nat) :
    ∀ (n k : Nat) (buf : Buffer) {z : CacheZone τ}, k ≤ count → count - k ≤ n → Faithful readers z →
      ∃ z', r.nonCachedFrom bufPos count offset n (offset + k) buf z =
        (.ok (buf.fill (bufPos + k) r.reader (offset + k) (count - k)), z') ∧ Faithful readers z' := by
  have hlen := hhandled.length_le
  have hwr : u64 (offset + count) = offset + count := mod_eq_of_lt (by omega)
  intro n
  induction n with
  | zero =>
    intro k buf z hk hn h
    rw [show count - k = 0 by omega, fill_zero]
    exact ⟨z, rfl, h⟩
  | succ n ih =>
    intro k buf z hk hn h
    unfold nonCachedFrom
    rw [hwr]
    by_cases hlt : offset + k < offset + count
    · rw [if_pos hlt]
      have hpos : offset + k < r.reader.length := by omega
      obtain ⟨hsta, hla, hins⟩ := hasked.contains _ hpos
      have hsh := hhandled.short _ hpos
      have hlg := hhandled.aligned _ hpos
      dsimp only
      generalize (r.advise (offset + k)).1 = blockStart at *
      generalize (r.advise (offset + k)).2 = blockEnd at *
      have hrd : r.reader.read (blockEnd - blockStart) blockStart =
          (blockEnd - blockStart, r.reader.slice blockStart (blockEnd - blockStart)) := by
        unfold Backing.read
        rw [min_eq_left (by omega)]
      rw [if_neg (by omega), if_neg (by omega), hrd, if_neg (lt_irrefl _)]
      obtain ⟨hfirst, hmod⟩ := alignUp_spec blockStart (by omega)
      have hstor := Faithful.storeBlocks hr hins hlen hlg blockEnd _ h hfirst hmod
      -- what is copied are the contents from the position on
      generalize hcopy : min (offset + count - (offset + k)) (blockEnd - blockStart - (offset + k - blockStart)) = toCopy
      have hfill : buf.copy (bufPos + k) (r.reader.slice blockStart (blockEnd - blockStart)) (offset + k - blockStart) toCopy =
          buf.fill (bufPos + k) r.reader (offset + k) toCopy := by
        refine copy_eq_fill buf fun i hi => ?_
        unfold slice
        rw [if_pos (by omega), show blockStart + (offset + k - blockStart + i) = offset + k + i by omega]
      rw [show offset + k - offset = k by omega, hfill, show offset + k + toCopy = offset + (k + toCopy) by omega]
      obtain ⟨z', hz', hft⟩ := ih (k + toCopy) (buf.fill (bufPos + k) r.reader (offset + k) toCopy) (by omega) (by omega) hstor
      refine ⟨z', ?_, hft⟩
      rw [hz', show bufPos + (k + toCopy) = bufPos + k + toCopy by omega, show offset + (k + toCopy) = offset + k + toCopy by omega,
        fill_fill, show toCopy + (count - (k + toCopy)) = count - k by omega]
    · rw [if_neg hlt, show count - k = 0 by omega, fill_zero]
      exact ⟨z, rfl, h⟩

theorem nonCachedRead_spec (hr : readers r.tag = r.reader) (hasked : Asked r.reader r.advise asked)
    (hhandled : Handled r.reader r.advise) (hend : offset + count ≤ r.reader.length) (buf : Buffer) (bufPos : Nat)
    (h : Faithful readers z) :
    ∃ z', r.nonCachedRead buf bufPos count offset z = (.ok (buf.fill bufPos r.reader offset count), z') ∧ Faithful readers z' := by
  obtain ⟨z', hz', hft⟩ := nonCachedFrom_spec hr hasked hhandled hend bufPos count 0 buf (zero_le _) le_rfl h
  exact ⟨z', hz', hft⟩

/-! ## Reading -/

/-- Where the loop of `read` can be: the contents up to `lastFetchPos` are in the buffer, and the next position begins a
block, unless it is the first or the last. -/
structure Filled (b : Backing) (count offset : Nat) (p : CachedReader.Progress) : Prop where
  done_le : p.done ≤ count
  fetched_le : p.lastFetchPos ≤ p.done
  buf_eq : p.buf = empty.fill 0 b offset p.lastFetchPos
  begins : p.done = 0 ∨ p.done = count ∨ (offset + p.done) % blockSize = 0

omit [DecidableEq τ] in
/-- A block that the zone holds is copied. -/
theorem Faithful.copy (h : Faithful readers z) (hr : readers r.tag = r.reader) {pos n : Nat} {data : Buffer}
    (hda : z.Holds ⟨pos / blockSize, r.tag⟩ data) (hfit : pos % blockSize + n ≤ blockSize) (hend : pos + n ≤ r.reader.length)
    (buf : Buffer) (bufPos : Nat) : buf.copy bufPos data (pos % blockSize) n = buf.fill bufPos r.reader pos n := by
  refine copy_eq_fill buf fun i hi => ?_
  have hpos : pos / blockSize * blockSize + (pos % blockSize + i) = pos + i := by
    rw [← add_assoc, mul_comm, div_add_mod]
  have hbyte := h _ _ hda (pos % blockSize + i) (by omega) (by rw [hpos, hr]; omega)
  rw [hpos, hr] at hbyte
  exact hbyte

variable (hr : readers r.tag = r.reader)

include hr

/-- The stretch that was put off is fetched when a block is found. -/
theorem fetch_spec (hasked : Asked r.reader r.advise asked) (hhandled : Handled r.reader r.advise) {offset fetched done : Nat}
    (thistime : Nat) (hle : fetched ≤ done) (hend : offset + done ≤ r.reader.length) (h : Faithful readers z) :
    ∃ z', (if 0 < done - fetched then
        r.nonCachedRead ((empty.fill 0 r.reader offset fetched).fill done r.reader (offset + done) thistime) fetched
          (done - fetched)
          (u64 (offset + fetched)) z
      else (.ok ((empty.fill 0 r.reader offset fetched).fill done r.reader (offset + done) thistime), z)) =
        (.ok (empty.fill 0 r.reader offset (done + thistime)), z') ∧ Faithful readers z' := by
  have hlen := hhandled.length_le
  by_cases hgap : 0 < done - fetched
  · rw [if_pos hgap, show u64 (offset + fetched) = offset + fetched from mod_eq_of_lt (by omega)]
    have hstored : offset + fetched + (done - fetched) ≤ r.reader.length := by omega
    obtain ⟨z', hz', hft⟩ := nonCachedRead_spec hr hasked hhandled hstored
      ((empty.fill 0 r.reader offset fetched).fill done r.reader (offset + done) thistime) fetched h
    exact ⟨z', by rw [hz', fill_gap _ _ hle], hft⟩
  · obtain rfl : fetched = done := by omega
    have hmeet := fill_fill (b := r.reader) empty 0 offset fetched thistime
    rw [zero_add] at hmeet
    rw [if_neg hgap, hmeet]
    exact ⟨z, rfl, h⟩

omit hr in
/-- One round of the loop of `read` ends with the request, or where a block ends. -/
theorem round_spec {count done : Nat} (offset : Nat) (hlt : done < count) :
    ∃ thistime, min (min (count - done) blockSize) (blockSize - (offset + done) % blockSize) = thistime ∧ 0 < thistime ∧
      done + thistime ≤ count ∧ (offset + done) % blockSize + thistime ≤ blockSize ∧
      (done + thistime = count ∨ (offset + (done + thistime)) % blockSize = 0) := by
  refine ⟨_, rfl, ?_⟩
  simp only [blockSize]
  omega

/-- The loop of `read` goes through the request, and keeps the zone faithful. -/
theorem readFrom_spec (hasked : Asked r.reader r.advise asked) (hhandled : Handled r.reader r.advise)
    (hend : offset + count ≤ r.reader.length) :
    ∀ (n : Nat) {p : CachedReader.Progress} {z : CacheZone τ}, Filled r.reader count offset p → count - p.done ≤ n →
    Faithful readers z →
      ∃ p' z', r.readFrom count offset n p z = (.ok p', z') ∧ Filled r.reader count offset p' ∧ p'.done = count ∧
        Faithful readers z' := by
  have hlen := hhandled.length_le
  intro n
  induction n with
  | zero =>
    intro p z hp hn h
    have := hp.done_le
    exact ⟨p, z, rfl, hp, by omega, h⟩
  | succ n ih =>
    intro p z hp hn h
    unfold readFrom
    by_cases hlt : p.done < count
    · rw [if_pos hlt]
      have hwr : u64 (offset + p.done) = offset + p.done := mod_eq_of_lt (by omega)
      have hoff : (if p.done = 0 then offset % blockSize else 0) = (offset + p.done) % blockSize := by
        rcases hp.begins with h0 | hc | hb
        · rw [if_pos h0, h0, add_zero]
        · omega
        · by_cases h0 : p.done = 0
          · rw [if_pos h0, h0, add_zero]
          · rw [if_neg h0, hb]
      obtain ⟨thistime, hthis, hpos, hle, hfit, hbeg⟩ := round_spec offset hlt
      dsimp only
      rw [hwr, hoff, hthis, if_neg (by omega)]
      rcases get_cases z ⟨(offset + p.done) / blockSize, r.tag⟩ p.buf p.done ((offset + p.done) % blockSize) thistime with
        hmiss | ⟨data, z₁, hda, hholds, hhit⟩
      · rw [hmiss]
        exact ih ⟨hle, by have := hp.fetched_le; dsimp only; omega, hp.buf_eq, .inr hbeg⟩ (by dsimp only; omega) h
      · rw [min_eq_right (by omega)] at hhit
        have h₁ : Faithful readers z₁ := h.of_holds hholds
        have hcopy := h.copy hr hda hfit (by omega) p.buf p.done
        rw [hhit, hcopy]
        have hins : offset + p.done ≤ r.reader.length := by omega
        obtain ⟨z₂, hfetch, h₂⟩ := fetch_spec hr hasked hhandled thistime hp.fetched_le hins h₁
        rw [if_pos hpos, hp.buf_eq, hfetch]
        exact ih ⟨hle, le_rfl, rfl, .inr hbeg⟩ (by dsimp only; omega) h₂
    · have := hp.done_le
      rw [if_neg hlt]
      exact ⟨p, z, rfl, hp, by omega, h⟩

/-- A read through a faithful zone, with ranges that are handled, is transparent and keeps the zone faithful. -/
theorem read_spec (hcount : count < 2 ^ 31) (hasked : Asked r.reader r.advise offset) (hhandled : Handled r.reader r.advise)
    (h : Faithful readers z) :
    ∃ z', r.read count offset z =
      (.ok (min count (r.reader.length - offset), r.reader.slice offset (min count (r.reader.length - offset))), z') ∧
        Faithful readers z' := by
  have hlen := hhandled.length_le
  have hoff := hasked.offset_le
  have hwr : u64 (count + offset) = count + offset := mod_eq_of_lt (by omega)
  have hcalm : (if r.reader.length < u64 (count + offset) then r.reader.length - offset else count) =
      min count (r.reader.length - offset) := by
    split <;> omega
  unfold CachedReader.read
  dsimp only
  rw [hcalm]
  generalize hn : min count (r.reader.length - offset) = n
  have hend : offset + n ≤ r.reader.length := by omega
  obtain ⟨p, z₁, hloop, hp, hdn, h₁⟩ := readFrom_spec hr hasked hhandled hend n
    (p := ⟨0, 0, empty⟩) ⟨zero_le _, le_rfl, (fill_zero _ _ _).symm, .inl rfl⟩ (sub_le _ _) h
  rw [hloop]
  dsimp only
  have hfetc := hp.fetched_le
  by_cases hrs : p.lastFetchPos < n
  · have hstored : offset + p.lastFetchPos + (p.done - p.lastFetchPos) ≤ r.reader.length := by omega
    obtain ⟨z₂, hrd, h₂⟩ := nonCachedRead_spec hr hasked hhandled hstored p.buf p.lastFetchPos h₁
    rw [if_pos hrs, show u64 (offset + p.lastFetchPos) = offset + p.lastFetchPos from mod_eq_of_lt (by omega), hrd]
    refine ⟨z₂, ?_, h₂⟩
    have hfill := fill_fill (b := r.reader) empty 0 offset p.lastFetchPos (p.done - p.lastFetchPos)
    rw [zero_add, add_sub_of_le hfetc] at hfill
    rw [hp.buf_eq, hfill, hdn, empty_fill]
  · rw [if_neg hrs, hp.buf_eq, show p.lastFetchPos = n by omega, hdn, empty_fill]
    exact ⟨z₁, rfl, h₁⟩

end Reads

/-! ## Every sequence of reads -/

/-- Every action keeps the zone faithful. -/
theorem Faithful.step (h : Faithful readers z) {maxBlocks : Nat} {a : ZoneAction τ} (hok : AllHandled readers z a)
    {z' : CacheZone τ}
    (hst : (zoneMachine readers maxBlocks).step z a = some z') : Faithful readers z' := by
  cases a with
  | read tag advise count offset =>
    obtain ⟨hasked, hhandled⟩ := hok
    obtain ⟨z₁, hrd, h₁⟩ := read_spec (r := ⟨readers tag, tag, advise⟩) rfl count.isLt hasked hhandled h
    have hz : (read ⟨readers tag, tag, advise⟩ count offset z).2 = z' := Option.some.inj hst
    rw [hrd] at hz
    exact hz ▸ h₁
  | setMaxBlocks max =>
    cases hst
    exact h.of_holds fun _ _ hkey => hkey.of_setMaxBlocks

/-- The cache is transparent: after any sequence of reads with ranges that are handled, through readers with distinct tags,
every such read returns the contents. -/
theorem reads_transparent {maxBlocks : Nat} (h : (zoneMachine readers maxBlocks).Reaches (AllHandled readers) z) {tag : τ}
    {advise : Nat → Nat × Nat} {count : Fin (2 ^ 31)} {offset : Nat} (hasked : Asked (readers tag) advise offset)
    (hhandled : Handled (readers tag) advise) : Transparent readers z tag advise count offset := by
  have hft : Faithful readers z := Machine.Reaches.invariant (faithful_new maxBlocks) (fun hz hok => hz.step hok) h
  obtain ⟨z', hrd, _⟩ := read_spec (r := ⟨readers tag, tag, advise⟩) rfl count.isLt hasked hhandled hft
  exact congrArg Prod.fst hrd

def twoFiles : Bool → Backing
  | true => ⟨6, by decide, fun i => UInt8.ofNat (10 + i)⟩
  | false => ⟨3, by decide, fun i => UInt8.ofNat (20 + i)⟩

/-- Four bytes of the first file, after a read of it and one of the other file. -/
theorem reads_transparent_twoFiles : ∃ z, (zoneMachine twoFiles 1).Reaches (AllHandled twoFiles) z ∧
    Transparent twoFiles z true (fun _ => (0, 6)) (4 : Fin (2 ^ 31)) 1 := by
  have hasked {offset : Nat} (h : offset ≤ 6) : Asked (twoFiles true) (fun _ => (0, 6)) offset :=
    ⟨h, fun pos hpos => ⟨zero_le _, hpos, le_rfl⟩⟩
  have hhandled : Handled (twoFiles true) (fun _ => (0, 6)) := ⟨by decide, fun _ _ => by decide, fun _ _ => .inr (.inl rfl)⟩
  have hask' : Asked (twoFiles false) (fun _ => (0, 3)) 0 := ⟨by decide, fun pos hpos => ⟨zero_le _, hpos, le_rfl⟩⟩
  have hhd' : Handled (twoFiles false) (fun _ => (0, 3)) := ⟨by decide, fun _ _ => by decide, fun _ _ => .inr (.inl rfl)⟩
  have hfirst : (zoneMachine twoFiles 1).Reaches (AllHandled twoFiles) _ :=
    .step (.read true (fun _ => (0, 6)) 2 0) .init ⟨hasked (by decide), hhandled⟩ rfl
  have hsec : (zoneMachine twoFiles 1).Reaches (AllHandled twoFiles) _ :=
    .step (.read false (fun _ => (0, 3)) 1 0) hfirst ⟨hask', hhd'⟩ rfl
  exact ⟨_, hsec, reads_transparent hsec (hasked (by decide)) hhandled⟩

/-- A range of 2^31 bytes is refused, whatever is asked for. -/
theorem reads_transparent_false :
    ¬∀ (readers : Unit → Backing) (maxBlocks : Nat) (z : CacheZone Unit),
    (zoneMachine readers maxBlocks).Reaches (AllAsked readers) z →
      ∀ (tag : Unit) (advise : Nat → Nat × Nat) (count : Fin (2 ^ 31)) (offset : Nat), Asked (readers tag) advise offset →
        Transparent readers z tag advise count offset := by
  intro h
  have hrd := h (fun _ => ⟨2 ^ 31, by decide, fun _ => 0⟩) 1 _ .init () (fun _ => (0, 2 ^ 31)) 1 0
    ⟨zero_le _, fun pos hpos => ⟨zero_le _, hpos, le_rfl⟩⟩
  have herror : (read ⟨⟨2 ^ 31, by decide, fun _ => 0⟩, (), fun _ => (0, 2 ^ 31)⟩ ((1 : Fin (2 ^ 31)) : Nat) 0
      (CacheZone.new 1)).1 = .error "Range returned by adviseOptimalBlock() is too large" := rfl
  cases herror.symm.trans hrd

-- a range that ends inside a block: the second byte comes from the part of the array that nobody wrote
example : let r : CachedReader Unit := ⟨⟨2, by decide, fun _ => 0⟩, (), fun pos => (pos, pos + 1)⟩
    (r.read 2 0 (r.read 1 0 (.new 8)).2).1.toOption.map (fun p => (p.1, p.2 0, p.2 1)) = some (2, some 0, none) := rfl

end Osxie.Dmg
