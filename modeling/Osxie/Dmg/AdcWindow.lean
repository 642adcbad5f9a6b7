import Osxie.Dmg.AdcPhrases

/-!
# Slices of an ADC stream

What `DMGDecompressor_ADC::decompress` writes for a request of `count` bytes from `offset` on.

The buffer is a window on the contents: it holds what was produced from some multiple of 64 KiB on (`Position`), and slides when
it is filled to 128 KiB and the request is not served yet.
-/

namespace Osxie.Dmg.Adc

open List Option State

/-- How far the buffer reaches when it is full for the first time after `slides` slides, or at the end of the phrases, when it
is filled with `fill` bytes before `ps`. It is counted from where the buffer begins now, and the first argument is a bound on
the number of chunks. -/
def reachFrom : Nat → Nat → List Phrase → Nat → Nat
  | 0, _, _, fill => fill
  | n + 1, slides, ps, fill =>
    let taken := fit inputSize (bufferSize - fill) ps
    let filled := fill + totalSize (ps.take taken)
    if 2 * slideSize ≤ filled then
      match slides with
      | 0 => filled
      | slides + 1 => slideSize + reachFrom n slides (ps.drop taken) (filled - slideSize)
    else reachFrom n slides (ps.drop taken) filled

/-- How far the buffer reaches before it slides beyond `offset`. -/
def windowEnd (ps : List Phrase) (offset : Nat) : Nat := reachFrom ps.length (offset / slideSize) ps 0

/-- Every phrase that begins before `limit` lies where `m_pos`, which has 32 bits, does not wrap around. -/
def InReach (ps : List Phrase) (limit : Nat) : Prop := ∀ j, totalSize (ps.take j) < limit → (encode (ps.take j)).length < 2 ^ 32

/-! ## A chunk -/

/-- The loop has come to `todo` in the stream, and to `pos`; `window` is what the contents are from the beginning of the
buffer on. -/
structure Position (stream window : List UInt8) (limit : Nat) (todo : List Phrase) (pos : Nat) (buffer : List UInt8) : Prop where
  stream_eq : stream.drop pos = encode todo
  window_eq : decode todo buffer = some window
  reach : ∀ j, buffer.length + totalSize (todo.take j) < limit → pos + (encode (todo.take j)).length < 2 ^ 32
  room : buffer.length < 2 * slideSize
  more : todo ≠ []

/-- How many phrases the next chunk takes. -/
def chunk (todo : List Phrase) (buffer : List UInt8) : Nat := fit inputSize (bufferSize - buffer.length) todo

theorem totalSize_append (ps qs : List Phrase) : totalSize (ps ++ qs) = totalSize ps + totalSize qs := by
  rw [totalSize, map_append, sum_append]
  rfl

section Chunk

variable {stream window : List UInt8} {limit pos : Nat} {todo : List Phrase} {buffer : List UInt8}

theorem chunk_pos (hrm : buffer.length < 2 * slideSize) (hmr : todo ≠ []) : 0 < chunk todo buffer := by
  refine fit_pos (by decide) ?_ hmr
  simp only [slideSize] at hrm
  simp only [bufferSize]
  omega

/-- A chunk leaves fewer phrases. -/
theorem drop_chunk_length_lt (hrm : buffer.length < 2 * slideSize) (hmr : todo ≠ []) :
    (todo.drop (chunk todo buffer)).length < todo.length := by
  have hpos := chunk_pos hrm hmr
  have hlen := length_pos_iff.2 hmr
  rw [length_drop]
  omega

/-- What a chunk makes of the buffer. -/
theorem exists_decode_chunk (hwn : decode todo buffer = some window) :
    ∃ buffer', decode (todo.take (chunk todo buffer)) buffer = some buffer' ∧
      decode (todo.drop (chunk todo buffer)) buffer' = some window := by
  rw [← take_append_drop (chunk todo buffer) todo, decode_append] at hwn
  exact bind_eq_some_iff.1 hwn

/-- The phrases to come mean the same after a slide. -/
theorem decode_slide (hwn : decode todo buffer = some window) (hfu : 2 * slideSize ≤ buffer.length) :
    decode todo (buffer.drop slideSize) = some (window.drop slideSize) := by
  rw [← take_append_drop slideSize buffer] at hwn
  obtain ⟨decoded, hdecoded, rfl⟩ := decode_window hwn (Or.inr (by rw [length_drop]; omega))
  have htake : (buffer.take slideSize).length = slideSize := by
    rw [length_take]
    omega
  rw [hdecoded, drop_left' htake]

/-- The buffer has room for another chunk after a slide. -/
theorem drop_slideSize_room (hrm : buffer.length < 2 * slideSize) {buffer' : List UInt8}
    (hdec : decode (todo.take (chunk todo buffer)) buffer = some buffer') : (buffer'.drop slideSize).length < 2 * slideSize := by
  have hlen := (decode_eq_some hdec).2
  have hft : totalSize (todo.take (chunk todo buffer)) ≤ bufferSize - buffer.length := (take_fit _ _ _).2
  rw [length_drop]
  simp only [slideSize, bufferSize] at *
  omega

namespace Position

variable (h : Position stream window limit todo pos buffer)

include h

/-- The bytes of a chunk's phrases. -/
theorem encode_chunk_pos : 0 < (encode (todo.take (chunk todo buffer))).length := by
  have hpos := chunk_pos h.room h.more
  have hlen := length_pos_iff.2 h.more
  refine Nat.lt_of_lt_of_le ?_ (length_le_encode_length _)
  rw [length_take]
  omega

variable {buffer' : List UInt8}

section

variable (hdec : decode (todo.take (chunk todo buffer)) buffer = some buffer')

include hdec

/-- A round of the loop. -/
theorem decompressFrom_succ {s : State} (hpos : s.pos = pos) (hbuf : s.buffer = buffer) (hlf : 0 < s.countLeft)
    (count n : Nat) :
    decompressFrom stream count (n + 1) s =
      decompressFrom stream count n
        { s.serve buffer' with pos := (pos + (encode (todo.take (chunk todo buffer))).length) % 2 ^ 32 } := by
  have hused := h.encode_chunk_pos
  have hrd : readSome stream s.pos = .ok ((encode todo).take inputSize) := by
    rw [readSome, hpos, h.stream_eq]
    split
    · rename_i hnil
      have hlen := congrArg length hnil
      rw [encode_split todo (chunk todo buffer), length_take, length_append, length_nil] at hlen
      simp only [inputSize] at hlen
      omega
    · rfl
  have hinp : decompressInput ((encode todo).take inputSize) bufferSize s.buffer =
      some ((encode (todo.take (chunk todo buffer))).length, buffer') := by
    rw [hbuf]
    exact decompressInput_encode hdec
  rw [decompressFrom, if_pos hlf, hrd]
  dsimp only
  rw [hinp]
  dsimp only
  rw [if_neg (Nat.ne_of_gt hused), hpos]

/-- Where a chunk leaves the loop in the stream, when it does not reach the limit. -/
theorem drop_stream (hlim : buffer'.length < limit) :
    pos + (encode (todo.take (chunk todo buffer))).length < 2 ^ 32 ∧
      stream.drop (pos + (encode (todo.take (chunk todo buffer))).length) = encode (todo.drop (chunk todo buffer)) := by
  have hlen := (decode_eq_some hdec).2
  refine ⟨h.reach _ (by omega), ?_⟩
  rw [← drop_drop, h.stream_eq]
  nth_rewrite 1 [encode_split todo (chunk todo buffer)]
  exact drop_left

/-- What lies ahead is still in reach after a chunk. -/
theorem reach_drop (j : Nat) (hlim : buffer'.length + totalSize ((todo.drop (chunk todo buffer)).take j) < limit) :
    pos + (encode (todo.take (chunk todo buffer))).length + (encode ((todo.drop (chunk todo buffer)).take j)).length < 2 ^ 32 := by
  have hlen := (decode_eq_some hdec).2
  have hreach := h.reach (chunk todo buffer + j)
  rw [take_add, encode_append, length_append, totalSize_append] at hreach
  omega

variable (hwn : decode (todo.drop (chunk todo buffer)) buffer' = some window)

include hwn

/-- A chunk that does not fill the buffer. -/
theorem next (hlim : buffer'.length < limit) (hls : buffer'.length < window.length) (hrm : buffer'.length < 2 * slideSize) :
    Position stream window limit (todo.drop (chunk todo buffer)) ((pos + (encode (todo.take (chunk todo buffer))).length) % 2 ^ 32)
      buffer' := by
  obtain ⟨hlt, hdrop⟩ := h.drop_stream hdec hlim
  rw [Nat.mod_eq_of_lt hlt]
  refine ⟨hdrop, hwn, fun j hj => h.reach_drop hdec j hj, hrm, ?_⟩
  intro hnil
  rw [hnil] at hwn
  cases hwn
  exact Nat.lt_irrefl _ hls

/-- A chunk that fills the buffer, and the slide. -/
theorem slide (hlim : buffer'.length < limit) (hls : buffer'.length < window.length)
    (hfu : 2 * slideSize ≤ buffer'.length) :
    Position stream (window.drop slideSize) (limit - slideSize) (todo.drop (chunk todo buffer))
      ((pos + (encode (todo.take (chunk todo buffer))).length) % 2 ^ 32) (buffer'.drop slideSize) := by
  obtain ⟨hlt, hdrop⟩ := h.drop_stream hdec hlim
  rw [Nat.mod_eq_of_lt hlt]
  refine ⟨hdrop, decode_slide hwn hfu, fun j hj => h.reach_drop hdec j ?_, drop_slideSize_room h.room hdec, ?_⟩
  · rw [length_drop] at hj
    omega
  · intro hnil
    rw [hnil] at hwn
    cases hwn
    exact Nat.lt_irrefl _ hls

end

end Position

end Chunk

/-! ## How far the buffer reaches -/

section Reach

variable (n slides : Nat) {todo : List Phrase} {buffer buffer' : List UInt8}
    (hdec : decode (todo.take (chunk todo buffer)) buffer = some buffer')

include hdec

theorem reachFrom_room (hrm : ¬2 * slideSize ≤ buffer'.length) :
    reachFrom (n + 1) slides todo buffer.length = reachFrom n slides (todo.drop (chunk todo buffer)) buffer'.length := by
  rw [(decode_eq_some hdec).2] at hrm ⊢
  exact if_neg hrm

theorem reachFrom_full (hfu : 2 * slideSize ≤ buffer'.length) : reachFrom (n + 1) 0 todo buffer.length = buffer'.length := by
  rw [(decode_eq_some hdec).2] at hfu ⊢
  exact if_pos hfu

theorem reachFrom_slide (hfu : 2 * slideSize ≤ buffer'.length) :
    reachFrom (n + 1) (slides + 1) todo buffer.length =
      slideSize + reachFrom n slides (todo.drop (chunk todo buffer)) (buffer'.drop slideSize).length := by
  rw [length_drop]
  rw [(decode_eq_some hdec).2] at hfu ⊢
  exact if_pos hfu

end Reach

/-- It reaches at least as far as it does now. -/
theorem le_reachFrom (n slides : Nat) (ps : List Phrase) (fill : Nat) : fill ≤ reachFrom n slides ps fill := by
  induction n generalizing slides ps fill with
  | zero => exact le_rfl
  | succ n ih =>
    simp only [reachFrom]
    split
    · cases slides with
      | zero => exact Nat.le_add_right _ _
      | succ slides =>
        have := ih slides (ps.drop (fit inputSize (bufferSize - fill) ps))
          (fill + totalSize (ps.take (fit inputSize (bufferSize - fill) ps)) - slideSize)
        dsimp only
        omega
    · exact Nat.le_trans (Nat.le_add_right _ _) (ih _ _ _)

variable {todo : List Phrase} {buffer : List UInt8} {data : List UInt8} {ps : List Phrase} {offset count : Nat} {s : State}

theorem le_reachFrom_succ (n slides : Nat) {buffer' : List UInt8}
    (hdec : decode (todo.take (chunk todo buffer)) buffer = some buffer') :
    buffer'.length ≤ reachFrom (n + 1) slides todo buffer.length := by
  by_cases hfu : 2 * slideSize ≤ buffer'.length
  · cases slides with
    | zero => exact Nat.le_of_eq (reachFrom_full n hdec hfu).symm
    | succ slides =>
      have hle := le_reachFrom n slides (todo.drop (chunk todo buffer)) (buffer'.drop slideSize).length
      rw [reachFrom_slide n slides hdec hfu]
      rw [length_drop] at hle ⊢
      omega
  · rw [reachFrom_room n slides hdec hfu]
    exact le_reachFrom _ _ _ _

/-- It reaches over 128 KiB after the slides, as far as there are contents. -/
theorem le_reachFrom_of_le {n slides reach : Nat} {window : List UInt8} (hwn : decode todo buffer = some window)
    (hrm : buffer.length < 2 * slideSize) (hbound : todo.length ≤ n) (hle : reach ≤ window.length)
    (hslid : reach ≤ slides * slideSize + 2 * slideSize) : reach ≤ reachFrom n slides todo buffer.length := by
  induction n generalizing window slides reach todo buffer with
  | zero =>
    obtain rfl := eq_nil_of_length_eq_zero (Nat.le_zero.1 hbound)
    cases hwn
    exact hle
  | succ n ih =>
    rcases eq_or_ne todo [] with rfl | hmr
    · cases hwn
      exact Nat.le_trans hle (le_reachFrom _ _ _ _)
    obtain ⟨buffer', hdec, hwind'⟩ := exists_decode_chunk hwn
    have hfewer := drop_chunk_length_lt hrm hmr
    by_cases hfu : 2 * slideSize ≤ buffer'.length
    · cases slides with
      | zero =>
        rw [reachFrom_full n hdec hfu]
        omega
      | succ slides =>
        rw [Nat.succ_mul] at hslid
        have hrs : reach - slideSize ≤ reachFrom n slides (todo.drop (chunk todo buffer)) (buffer'.drop slideSize).length :=
          ih (decode_slide hwind' hfu) (drop_slideSize_room hrm hdec) (by omega) (by rw [length_drop]; omega)
            (by omega)
        rw [reachFrom_slide n slides hdec hfu]
        omega
    · rw [reachFrom_room n slides hdec hfu]
      exact ih hwind' (by omega) (by omega) hle hslid

/-- It reaches over no more than the buffer. -/
theorem reachFrom_le (n slides : Nat) (ps : List Phrase) {fill : Nat} (hfill : fill ≤ bufferSize) :
    reachFrom n slides ps fill ≤ slides * slideSize + bufferSize := by
  induction n generalizing slides ps fill with
  | zero => exact Nat.le_trans hfill (Nat.le_add_left _ _)
  | succ n ih =>
    have hft := (take_fit inputSize (bufferSize - fill) ps).2
    simp only [reachFrom]
    split
    · cases slides with
      | zero =>
        dsimp only
        omega
      | succ slides =>
        rw [Nat.succ_mul, Nat.add_comm _ slideSize, Nat.add_assoc]
        exact Nat.add_le_add_left (ih slides _ (by omega)) _
    · exact ih slides _ (by omega)

theorem le_windowEnd (hdata : decode ps [] = some data) {reach : Nat} (hle : reach ≤ data.length)
    (hreach : reach ≤ offset / slideSize * slideSize + 2 * slideSize) : reach ≤ windowEnd ps offset :=
  le_reachFrom_of_le hdata (by decide) le_rfl hle hreach

theorem windowEnd_le (ps : List Phrase) (offset : Nat) : windowEnd ps offset ≤ offset / slideSize * slideSize + bufferSize :=
  reachFrom_le _ _ _ (Nat.zero_le _)

/-! ## Slices -/

/-- What is in the buffer is a part of the contents. -/
theorem take_drop_of_prefix {window : List UInt8} (hpre : buffer <+: window) (hle : offset + count ≤ buffer.length) :
    (buffer.drop offset).take count = (window.drop offset).take count := by
  obtain ⟨rest, rfl⟩ := hpre
  rw [drop_append_of_le_length (by omega), take_append_of_le_length (by rw [length_drop]; omega)]

/-- A slice in two parts. -/
theorem take_append_take_drop (window : List UInt8) {size : Nat} (hle : offset ≤ size) (count : Nat) :
    (window.drop offset).take (size - offset) ++ (window.drop size).take count =
    (window.drop offset).take (size - offset + count) := by
  rw [take_add, drop_drop, Nat.add_sub_cancel' hle]

/-- How many bytes are written for `count` bytes from `offset` on, when the buffer reaches so far before it slides beyond
`offset`. -/
def written (offset count reach : Nat) : Nat :=
  if offset % slideSize = 0 ∨ offset + count ≤ reach then count else count - offset % slideSize

theorem written_zero (count reach : Nat) : written 0 count reach = count := if_pos (Or.inl (Nat.zero_mod _))

theorem written_of_le {reach : Nat} (hle : offset + count ≤ reach) : written offset count reach = count := if_pos (Or.inr hle)

/-- A slide while the request begins in the lower half of the buffer. -/
theorem written_of_lt {reach : Nat} (hlow : offset < slideSize) (hlt : ¬offset + count ≤ reach) :
    written offset count reach = count - offset := by
  rw [written, Nat.mod_eq_of_lt hlow]
  split
  · rename_i hcas
    obtain rfl := hcas.resolve_right hlt
    exact (Nat.sub_zero _).symm
  · rfl

/-- A slide while the request begins in the upper half. -/
theorem written_slide (hpp : slideSize ≤ offset) (count reach : Nat) :
    written offset count (slideSize + reach) = written (offset - slideSize) count reach := by
  have hiff : offset + count ≤ slideSize + reach ↔ offset - slideSize + count ≤ reach := by omega
  rw [written, written, Nat.mod_eq_sub_mod hpp]
  simp only [hiff]

/-- The slip of the code: `countLeft` loses 64 KiB, and not only what is written. -/
theorem serve_lower (hsr : ¬s.offset + s.countLeft ≤ buffer.length) (hfu : 2 * slideSize ≤ buffer.length)
    (hlow : s.offset < slideSize) :
    s.serve buffer = ⟨s.pos, buffer.drop slideSize, 0, s.countLeft - slideSize,
      s.output ++ (buffer.drop s.offset).take (slideSize - s.offset)⟩ := by
  rw [serve, if_neg hsr, if_pos hfu, if_pos hlow]
  dsimp only
  rw [Nat.sub_zero]

theorem serve_upper (hsr : ¬s.offset + s.countLeft ≤ buffer.length) (hfu : 2 * slideSize ≤ buffer.length)
    (hpp : ¬s.offset < slideSize) :
    s.serve buffer = { s with buffer := buffer.drop slideSize, offset := s.offset - slideSize } := by
  rw [serve, if_neg hsr, if_pos hfu, if_neg hpp]

theorem div_slideSize (hpp : slideSize ≤ offset) : offset / slideSize = (offset - slideSize) / slideSize + 1 := by
  rw [Nat.div_eq offset, if_pos ⟨by decide, hpp⟩]

theorem decompressFrom_served (stream : List UInt8) (count n : Nat) (hlf : s.countLeft = 0) :
    decompressFrom stream count (n + 1) s = .returns count s.output := by
  rw [decompressFrom, hlf, if_neg (Nat.lt_irrefl 0)]

/-- What the loop writes, and that it returns. -/
theorem decompressFrom_eq {stream window : List UInt8} {limit n fuel : Nat}
    (h : Position stream window limit todo s.pos s.buffer) (hlim : s.offset + s.countLeft ≤ limit)
    (hle : s.offset + s.countLeft ≤ window.length) (hbound : todo.length ≤ n) (hfuel : n < fuel) (count : Nat) :
    decompressFrom stream count fuel s = .returns count (s.output ++ (window.drop s.offset).take
      (written s.offset s.countLeft (reachFrom n (s.offset / slideSize) todo s.buffer.length))) := by
  -- The induction follows `reachFrom`; every chunk leaves fewer phrases, so its bound suffices.
  induction n generalizing window limit fuel todo s with
  | zero => exact absurd (eq_nil_of_length_eq_zero (Nat.le_zero.1 hbound)) h.more
  | succ n ih =>
    obtain ⟨m, rfl⟩ : ∃ m, fuel = m + 2 := ⟨fuel - 2, by omega⟩
    rcases Nat.eq_zero_or_pos s.countLeft with hze | hlf
    · have hno : written s.offset s.countLeft (reachFrom (n + 1) (s.offset / slideSize) todo s.buffer.length) = 0 := by
        rw [written, hze, Nat.zero_sub, ite_self]
      rw [decompressFrom_served stream count _ hze, hno, take_zero, append_nil]
    obtain ⟨buffer, hdec, hwn⟩ := exists_decode_chunk h.window_eq
    have hfewer := drop_chunk_length_lt h.room h.more
    rw [h.decompressFrom_succ hdec rfl rfl hlf count _]
    by_cases hsr : s.offset + s.countLeft ≤ buffer.length
    · -- The buffer has all of the request.
      have hall : written s.offset s.countLeft (reachFrom (n + 1) (s.offset / slideSize) todo s.buffer.length) = s.countLeft :=
        written_of_le (Nat.le_trans hsr (le_reachFrom_succ n _ hdec))
      rw [serve, if_pos hsr, decompressFrom_served _ _ _ rfl, hall, take_drop_of_prefix (decode_eq_some hwn).1 hsr]
    · have hls : buffer.length < window.length := by omega
      by_cases hfu : 2 * slideSize ≤ buffer.length
      · have hslide := h.slide hdec hwn (by omega) hls hfu
        by_cases hlow : s.offset < slideSize
        · have hpart : (buffer.drop s.offset).take (slideSize - s.offset) = (window.drop s.offset).take (slideSize - s.offset) :=
            take_drop_of_prefix (decode_eq_some hwn).1 (by omega)
          have hcount : slideSize - s.offset + (s.countLeft - slideSize) = s.countLeft - s.offset := by omega
          rw [serve_lower hsr hfu hlow, hpart, Nat.div_eq_of_lt hlow, reachFrom_full n hdec hfu]
          rw [written_of_lt hlow hsr, ← hcount, ← take_append_take_drop window (Nat.le_of_lt hlow), ← append_assoc]
          refine (ih hslide ?_ ?_ (by omega) (by omega)).trans ?_
          · dsimp only
            omega
          · rw [length_drop]
            dsimp only
            omega
          · rw [written_zero, drop_zero]
        · rw [serve_upper hsr hfu hlow, div_slideSize (Nat.le_of_not_lt hlow), reachFrom_slide n _ hdec hfu,
            written_slide (Nat.le_of_not_lt hlow)]
          refine (ih hslide ?_ ?_ (by omega) (by omega)).trans ?_
          · dsimp only
            omega
          · rw [length_drop]
            dsimp only
            omega
          · rw [drop_drop, Nat.add_sub_cancel' (Nat.le_of_not_lt hlow)]
      · have hnx := h.next hdec hwn (by omega) hls (by omega)
        rw [serve, if_neg hsr, if_neg hfu, reachFrom_room n _ hdec hfu]
        exact ih hnx hlim hle (by omega) (by omega)

/-- What a request for a slice of a stream comes to. -/
theorem decompress_eq (hdata : decode ps [] = some data) (hle : offset + count ≤ data.length)
    (hreach : InReach ps (offset + count)) :
    decompress (encode ps) count offset =
      .returns count ((data.drop offset).take (written offset count (windowEnd ps offset))) := by
  rw [decompress, if_neg (by omega)]
  rcases Nat.eq_zero_or_pos count with rfl | hpos
  · rw [decompressFrom_served _ _ _ rfl, written, Nat.zero_sub, ite_self, take_zero]
  have hmr : ps ≠ [] := by
    rintro rfl
    cases hdata
    exact absurd hle (by rw [length_nil]; omega)
  have hsta : Position (encode ps) data (offset + count) ps 0 [] := by
    refine ⟨rfl, hdata, fun j hj => ?_, by decide, hmr⟩
    rw [length_nil, Nat.zero_add] at hj
    rw [Nat.zero_add]
    exact hreach j hj
  have hfuel := length_le_encode_length ps
  exact decompressFrom_eq hsta le_rfl hle le_rfl (by omega) count

/-- The last bytes of a slice that begins inside of 64 KiB, and reaches beyond the window, are not written. -/
theorem decompress_short (hdata : decode ps [] = some data) (hle : offset + count ≤ data.length)
    (hreach : InReach ps (offset + count)) (hins : offset % slideSize ≠ 0) (hbey : windowEnd ps offset < offset + count) :
    decompress (encode ps) count offset = .returns count ((data.drop offset).take (count - offset % slideSize)) := by
  rw [decompress_eq hdata hle hreach, written, if_neg]
  rintro (hze | hbef)
  · exact hins hze
  · omega

/-- A slice is exact if, and only if, it begins at a multiple of 64 KiB or ends before the buffer slides beyond its beginning. -/
theorem decompress_exact_iff {ps : List Phrase} {data : List UInt8} (hdata : decode ps [] = some data) {offset count : Nat}
    (hle : offset + count ≤ data.length) (hreach : InReach ps (offset + count)) :
    decompress (encode ps) count offset = .returns count ((data.drop offset).take count) ↔
      offset % slideSize = 0 ∨ offset + count ≤ windowEnd ps offset := by
  constructor
  · intro hexact
    by_contra hnot
    obtain ⟨hins, hbey⟩ := not_or.1 hnot
    have hsh := decompress_short hdata hle hreach hins (by omega)
    rw [hexact] at hsh
    have hlen := congrArg length (Outcome.returns.inj hsh).2
    rw [length_take, length_take, length_drop] at hlen
    have hbegin : offset ≤ windowEnd ps offset := le_windowEnd hdata (by omega) (by simp only [slideSize]; omega)
    omega
  · intro hcas
    rw [decompress_eq hdata hle hreach, written, if_pos hcas]

theorem inReach_of_length_lt (hlt : (encode ps).length < 2 ^ 32) (limit : Nat) : InReach ps limit := by
  intro j _
  rw [encode_split ps j, length_append] at hlt
  omega

/-- Three bytes, and two copies of them: a slice from the first byte of the copies on. -/
theorem decompress_exact_iff_copies :
    decompress (encode [.store [1, 2, 3] (by decide) (by decide), .short 0 2, .long 0 4]) 6 (2 : Nat) =
      .returns 6 [3, 1, 2, 3, 2, 3] := by
  have hdata : decode [.store [1, 2, 3] (by decide) (by decide), .short 0 2, .long 0 4] [] =
      some [1, 2, 3, 1, 2, 3, 2, 3, 1, 2] := by
    decide +kernel
  have hle : 2 + 6 ≤ [(1 : UInt8), 2, 3, 1, 2, 3, 2, 3, 1, 2].length := by decide
  exact (decompress_exact_iff hdata hle (inReach_of_length_lt (by decide) _)).2 (Or.inr (by decide))

variable (byte : UInt8)

/-- A byte, and repetitions of it. -/
def repeated (n : Nat) : List Phrase :=
  .store [byte] (Nat.succ_pos _) (Nat.le_add_left 1 _) :: replicate n (.long 63 0)

theorem decode_replicate {byte : UInt8} (hla : lookback data 0 = some byte) (n : Nat) :
    decode (replicate n (.long 63 0)) data = some (data ++ replicate (67 * n) byte) := by
  induction n generalizing data with
  | zero => rw [replicate_zero, replicate_zero, append_nil]; rfl
  | succ n ih =>
    have hcopy : Phrase.append data (.long 63 0) = some (data ++ replicate 67 byte) := copyBack_zero 67 hla
    have hla' : lookback (data ++ replicate 67 byte) 0 = some byte := by
      rw [lookback_append (by rw [length_replicate]; decide)]
      rfl
    rw [replicate_succ, decode_cons, hcopy, bind_some, ih hla', append_assoc, replicate_append_replicate,
      Nat.mul_succ, Nat.add_comm]

theorem decode_repeated (n : Nat) : decode (repeated byte n) [] = some (replicate (67 * n + 1) byte) := by
  exact decode_replicate rfl n

theorem encode_repeated_length (n : Nat) : (encode (repeated byte n)).length = 3 * n + 2 := by
  induction n with
  | zero => rfl
  | succ n ih =>
    have hsucc : repeated byte (n + 1) = repeated byte n ++ [.long 63 0] := congrArg (cons _) replicate_succ'
    rw [hsucc, encode_append, length_append, ih]
    rfl

/-- A slice of over 128 KiB of zeros, from offset 1 on. -/
theorem decompress_exact_false : ¬∀ (ps : List Phrase) (data : List UInt8), decode ps [] = some data → ∀ offset count : Nat,
    offset + count ≤ data.length → decompress (encode ps) count offset = .returns count ((data.drop offset).take count) := by
  intro hexact
  have hdata := decode_repeated 0 1959
  have hle : 1 + bufferSize ≤ (replicate (67 * 1959 + 1) (0 : UInt8)).length := by
    rw [length_replicate]
    decide
  have hreach : InReach (repeated 0 1959) (1 + bufferSize) := inReach_of_length_lt (by rw [encode_repeated_length]; decide) _
  have hbey : windowEnd (repeated 0 1959) 1 < 1 + bufferSize := by
    have hend := windowEnd_le (repeated 0 1959) 1
    rw [Nat.div_eq_of_lt (by decide)] at hend
    omega
  have hsh := decompress_short hdata hle hreach (by decide) hbey
  rw [hexact _ _ hdata _ _ hle] at hsh
  have hlen := congrArg length (Outcome.returns.inj hsh).2
  rw [length_take, length_take, length_drop] at hlen
  have hmod : 1 % slideSize = 1 := by decide
  have hpos : 0 < bufferSize := by decide
  omega

end Osxie.Dmg.Adc
