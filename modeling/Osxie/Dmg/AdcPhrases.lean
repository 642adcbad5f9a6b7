import Osxie.Dmg.Adc

/-!
# ADC streams as phrases

What an ADC stream means: a sequence of phrases, each of which stores bytes or repeats what lies behind. The fields of a phrase
are those of its header, so that every phrase has an encoding. A stream is well-formed when its lookbacks stay inside the data
already produced, which is when `decode` gives its contents.
-/

namespace Osxie.Dmg.Adc

open List Option Nat
open UInt8 (ofNat toNat_ofNat_of_lt')

/-- A phrase: up to 0x80 bytes to store, or a lookback with a size of 4 bits and an offset of 10, or one of 6 bits and 16. -/
inductive Phrase where
  | store (data : List UInt8) (pos : 0 < data.length) (le : data.length ≤ 0x80)
  | short (size : Fin 0x10) (offset : Fin 0x400)
  | long (size : Fin 0x40) (offset : Fin 0x10000)

namespace Phrase

def size : Phrase → Nat
  | .store data _ _ => data.length
  | .short size _ => size + 3
  | .long size _ => size + 4

def encode : Phrase → List UInt8
  | .store data _ _ => ofNat (0x80 + (data.length - 1)) :: data
  | .short size offset => [ofNat (size * 4 + offset / 256), ofNat (offset % 256)]
  | .long size offset => [ofNat (0x40 + size), ofNat (offset / 256), ofNat (offset % 256)]

/-- What a phrase makes of the data already produced. -/
def append (data : List UInt8) : Phrase → Option (List UInt8)
  | .store stored _ _ => some (data ++ stored)
  | .short size offset => copyBack offset (size + 3) data
  | .long size offset => copyBack offset (size + 4) data

end Phrase

def encode (ps : List Phrase) : List UInt8 := ps.flatMap Phrase.encode

def decode (ps : List Phrase) (data : List UInt8) : Option (List UInt8) := ps.foldlM Phrase.append data

def totalSize (ps : List Phrase) : Nat := (ps.map Phrase.size).sum

/-- How many of the phrases can be taken, with so much room for them in the input and in the output. -/
def fit (inputRoom outputRoom : Nat) : List Phrase → Nat
  | [] => 0
  | p :: ps =>
    if p.encode.length ≤ inputRoom ∧ p.size ≤ outputRoom then
      fit (inputRoom - p.encode.length) (outputRoom - p.size) ps + 1
    else 0

/-! ## Sizes -/

namespace Phrase

variable (p : Phrase)

theorem size_pos : 0 < p.size := by
  cases p with
  | store data pos _ => exact pos
  | short | long => exact succ_pos _

theorem size_le : p.size ≤ 0x80 := by
  cases p with
  | store data _ le => exact le
  | short n _ =>
    simp only [size]
    omega
  | long n _ =>
    simp only [size]
    omega

theorem encode_length_pos : 0 < p.encode.length := by
  cases p <;> exact succ_pos _

theorem encode_length_le : p.encode.length ≤ 0x81 := by
  cases p with
  | store data _ le => exact succ_le_succ le
  | short | long => simp [encode]

/-- A phrase keeps the data already produced. -/
theorem append_eq_some {data data' : List UInt8} (h : p.append data = some data') :
    data <+: data' ∧ data'.length = data.length + p.size := by
  cases p with
  | store stored _ _ =>
    cases h
    exact ⟨prefix_append _ _, length_append⟩
  | short | long => exact copyBack_eq_some h

variable {data data' pre : List UInt8}

/-- A copy from behind, with and without what lies further back than the largest lookback. -/
theorem copyBack_window {distance n : Nat} (hdist : distance < slideSize)
    (h : copyBack distance (n + 1) (pre ++ data) = some data') (hln : pre = [] ∨ slideSize ≤ data.length) :
    ∃ copied, copyBack distance (n + 1) data = some copied ∧ data' = pre ++ copied := by
  have hlt : distance < data.length := by
    obtain ⟨a, ha, _⟩ := bind_eq_some_iff.1 h
    have hlt := lt_of_lookback ha
    rcases hln with rfl | hle
    · exact hlt
    · omega
  rw [copyBack_append _ hlt] at h
  obtain ⟨copied, hcop, heq⟩ := map_eq_some_iff.1 h
  exact ⟨copied, hcop, heq.symm⟩

/-- Only the data within the largest lookback matters. -/
theorem append_append (h : p.append (pre ++ data) = some data') (hln : pre = [] ∨ slideSize ≤ data.length) :
    ∃ appended, p.append data = some appended ∧ data' = pre ++ appended := by
  cases p with
  | store stored _ _ =>
    cases h
    exact ⟨data ++ stored, rfl, append_assoc _ _ _⟩
  | short n offset => exact copyBack_window (lt_trans offset.isLt (by decide)) h hln
  | long n offset => exact copyBack_window offset.isLt h hln

end Phrase

/-! ## Headers -/

theorem store_header : ∀ n : Fin 0x80, chunkType (ofNat (0x80 + n)) = .plain ∧ chunkSize (ofNat (0x80 + n)) = n + 1 := by
  decide

theorem short_header : ∀ (n : Fin 0x10) (high : Fin 4), chunkType (ofNat (n * 4 + high)) = .twoByte ∧
    chunkSize (ofNat (n * 4 + high)) = n + 3 ∧ (ofNat (n * 4 + high) &&& 0x03).toNat = high := by
  decide

theorem long_header : ∀ n : Fin 0x40, chunkType (ofNat (0x40 + n)) = .threeByte ∧ chunkSize (ofNat (0x40 + n)) = n + 4 := by
  decide

theorem store_header_data {data : List UInt8} (pos : 0 < data.length) (le : data.length ≤ 0x80) :
    chunkType (ofNat (0x80 + (data.length - 1))) = .plain ∧
    chunkSize (ofNat (0x80 + (data.length - 1))) = data.length := by
  obtain ⟨hty, hsz⟩ := store_header ⟨data.length - 1, by omega⟩
  exact ⟨hty, hsz.trans (Nat.sub_add_cancel pos)⟩

theorem short_header_offset (size : Fin 0x10) (offset : Fin 0x400) :
    chunkType (ofNat (size * 4 + offset / 256)) = .twoByte ∧ chunkSize (ofNat (size * 4 + offset / 256)) = size + 3 ∧
      ∀ input, chunkOffset (ofNat (size * 4 + offset / 256) :: ofNat (offset % 256) :: input) = offset := by
  obtain ⟨hty, hsz, hhigh⟩ := short_header size ⟨offset / 256, by omega⟩
  refine ⟨hty, hsz, fun input => ?_⟩
  have hlow := toNat_ofNat_of_lt' (show offset.1 % 256 < 256 by omega)
  simp only [chunkOffset, getD_cons_zero, getD_cons_succ, hty, hhigh, hlow]
  omega

theorem long_header_offset (size : Fin 0x40) (offset : Fin 0x10000) :
    chunkType (ofNat (0x40 + size)) = .threeByte ∧ chunkSize (ofNat (0x40 + size)) = size + 4 ∧
      ∀ input, chunkOffset (ofNat (0x40 + size) :: ofNat (offset / 256) :: ofNat (offset % 256) :: input) =
        offset := by
  obtain ⟨hty, hsz⟩ := long_header size
  refine ⟨hty, hsz, fun input => ?_⟩
  have hhigh := toNat_ofNat_of_lt' (show offset.1 / 256 < 256 by omega)
  have hlow := toNat_ofNat_of_lt' (show offset.1 % 256 < 256 by omega)
  simp only [chunkOffset, getD_cons_zero, getD_cons_succ, hty, hhigh, hlow]
  omega

/-- The copy of the code is the copy from behind. -/
theorem copyChunk_eq (offset size : Nat) (output : List UInt8) :
    copyChunk offset (size + 1) output = copyBack offset (size + 1) output := by
  unfold copyChunk
  split
  · rename_i hze
    subst hze
    cases hlook : lookback output 0 with
    | none => rw [map_none, copyBack, hlook, bind_none]
    | some byte => rw [map_some, copyBack_zero _ hlook]
  · rfl

/-! ## A phrase in the input -/

variable {availSize : Nat} {ps : List Phrase} {output output' : List UInt8} {p : Phrase} {room : Nat}

/-- A whole phrase at the beginning of the input is taken, or left there if it does not fit into the output. -/
theorem decompressChunks_append (n : Nat) (input : List UInt8) :
    decompressChunks availSize (n + 1) (p.encode ++ input) output =
      if availSize < output.length + p.size then some (p.encode ++ input, output)
      else (p.append output).bind (decompressChunks availSize n input) := by
  cases p with
  | store data pos le =>
    obtain ⟨hty, hsz⟩ := store_header_data pos le
    simp only [Phrase.encode, cons_append, decompressChunks, hty, hsz, Phrase.append, Phrase.size]
    rw [if_neg (by rw [length_append]; omega), drop_left, take_left]
    rfl
  | short size offset =>
    obtain ⟨hty, hsz, hoff⟩ := short_header_offset size offset
    simp only [Phrase.encode, cons_append, nil_append, decompressChunks, hty, hsz, hoff, Phrase.append, Phrase.size, copyChunk_eq]
    rfl
  | long size offset =>
    obtain ⟨hty, hsz, hoff⟩ := long_header_offset size offset
    simp only [Phrase.encode, cons_append, nil_append, decompressChunks, hty, hsz, hoff, Phrase.append, Phrase.size, copyChunk_eq]
    rfl

/-- A phrase that is cut off is left in the input. -/
theorem decompressChunks_take (availSize n : Nat) (hcut : room < p.encode.length) (output : List UInt8) :
    decompressChunks availSize n (p.encode.take room) output = some (p.encode.take room, output) := by
  cases n with
  | zero => rfl
  | succ n =>
    cases room with
    | zero => rfl
    | succ room =>
      cases p with
      | store data pos le =>
        obtain ⟨hty, hsz⟩ := store_header_data pos le
        have hsh : (data.take room).length < data.length := by
          rw [length_take]
          simp only [Phrase.encode, length_cons] at hcut
          omega
        simp only [Phrase.encode, take_succ_cons, decompressChunks, hty, hsz, if_pos hsh]
      | short size offset =>
        obtain ⟨hty, _⟩ := short_header_offset size offset
        have hsh : ([ofNat (offset % 256)].take room).length < 1 := by
          rw [length_take]
          simp only [Phrase.encode, length_cons, length_nil] at hcut
          omega
        simp only [Phrase.encode, take_succ_cons, decompressChunks, hty, if_pos hsh]
      | long size offset =>
        obtain ⟨hty, _⟩ := long_header_offset size offset
        have hsh : ([ofNat (offset / 256), ofNat (offset % 256)].take room).length < 2 := by
          rw [length_take]
          simp only [Phrase.encode, length_cons, length_nil] at hcut
          omega
        simp only [Phrase.encode, take_succ_cons, decompressChunks, hty, if_pos hsh]

/-! ## Sequences of phrases -/

theorem encode_cons (p : Phrase) (ps : List Phrase) : encode (p :: ps) = p.encode ++ encode ps := flatMap_cons

theorem encode_append (ps qs : List Phrase) : encode (ps ++ qs) = encode ps ++ encode qs := flatMap_append

theorem encode_split (ps : List Phrase) (j : Nat) : encode ps = encode (ps.take j) ++ encode (ps.drop j) := by
  rw [← encode_append, take_append_drop]

theorem length_le_encode_length (ps : List Phrase) : ps.length ≤ (encode ps).length := by
  induction ps with
  | nil => exact le_rfl
  | cons p ps ih =>
    have := p.encode_length_pos
    rw [encode_cons, length_append, length_cons]
    omega

theorem decode_append (ps qs : List Phrase) (data : List UInt8) : decode (ps ++ qs) data = (decode ps data).bind (decode qs) :=
  foldlM_append

theorem decode_cons (p : Phrase) (ps : List Phrase) (data : List UInt8) :
    decode (p :: ps) data = (p.append data).bind (decode ps) :=
  foldlM_cons

/-- Phrases keep the data already produced, and produce as much as their sizes say. -/
theorem decode_eq_some {data data' : List UInt8} (h : decode ps data = some data') :
    data <+: data' ∧ data'.length = data.length + totalSize ps := by
  induction ps generalizing data with
  | nil =>
    cases h
    exact ⟨prefix_rfl, rfl⟩
  | cons p ps ih =>
    obtain ⟨appended, happ, hdec⟩ := bind_eq_some_iff.1 h
    obtain ⟨hpre, hlen⟩ := ih hdec
    obtain ⟨hpre', hlen'⟩ := Phrase.append_eq_some p happ
    refine ⟨hpre'.trans hpre, ?_⟩
    rw [hlen, totalSize, totalSize, map_cons, sum_cons]
    omega

/-- Phrases mean the same after the last 64 KiB as after everything that was produced. -/
theorem decode_window {pre data data' : List UInt8} (h : decode ps (pre ++ data) = some data')
    (hln : pre = [] ∨ slideSize ≤ data.length) : ∃ decoded, decode ps data = some decoded ∧ data' = pre ++ decoded := by
  induction ps generalizing data with
  | nil => exact ⟨data, rfl, (some.inj h).symm⟩
  | cons p ps ih =>
    obtain ⟨appended, happ, hdec⟩ := bind_eq_some_iff.1 h
    obtain ⟨appended', happ', rfl⟩ := p.append_append happ hln
    have hlong' : pre = [] ∨ slideSize ≤ appended'.length := by
      have hlen := (Phrase.append_eq_some p happ').2
      exact hln.imp_right (by omega)
    obtain ⟨decoded, hdecoded, heq⟩ := ih hdec hlong'
    exact ⟨decoded, by rw [decode_cons, happ', bind_some, hdecoded], heq⟩

/-! ## What is taken -/

/-- What is taken fits. -/
theorem take_fit (inputRoom outputRoom : Nat) (ps : List Phrase) :
    (encode (ps.take (fit inputRoom outputRoom ps))).length ≤ inputRoom ∧
      totalSize (ps.take (fit inputRoom outputRoom ps)) ≤ outputRoom := by
  induction ps generalizing inputRoom outputRoom with
  | nil => exact ⟨zero_le _, zero_le _⟩
  | cons p ps ih =>
    unfold fit
    split
    · obtain ⟨hinp, htp⟩ := ih (inputRoom - p.encode.length) (outputRoom - p.size)
      rw [take_succ_cons, encode_cons, length_append, totalSize, map_cons, sum_cons]
      rw [totalSize] at htp
      omega
    · exact ⟨zero_le _, zero_le _⟩

/-- A phrase fits into 0x81 bytes of input and 0x80 bytes of output. -/
theorem fit_pos {inputRoom outputRoom : Nat} (hinp : 0x81 ≤ inputRoom) (htp : 0x80 ≤ outputRoom) (hps : ps ≠ []) :
    0 < fit inputRoom outputRoom ps := by
  cases ps with
  | nil => exact absurd rfl hps
  | cons p ps =>
    have := p.encode_length_le
    have := p.size_le
    unfold fit
    rw [if_pos (by omega)]
    exact succ_pos _

/-- The loop takes the phrases that are whole and fit into the output, and leaves the rest of the input. -/
theorem decompressChunks_encode {fuel : Nat} (hfl : ((encode ps).take room).length ≤ fuel)
    (h : decode (ps.take (fit room (availSize - output.length) ps)) output = some output') :
    decompressChunks availSize fuel ((encode ps).take room) output =
      some (((encode ps).take room).drop (encode (ps.take (fit room (availSize - output.length) ps))).length, output') := by
  induction ps generalizing room fuel output with
  | nil =>
    cases h
    cases fuel <;> simp [encode, decompressChunks]
  | cons p ps ih =>
    rw [encode_cons] at hfl ⊢
    by_cases hinp : p.encode.length ≤ room
    · have htake : (p.encode ++ encode ps).take room = p.encode ++ (encode ps).take (room - p.encode.length) := by
        rw [take_append, take_of_length_le hinp]
      rw [htake] at hfl ⊢
      have hpos := p.encode_length_pos
      rw [length_append] at hfl
      obtain _ | n := fuel
      · omega
      rw [decompressChunks_append]
      by_cases htp : p.size ≤ availSize - output.length
      · have hj : fit room (availSize - output.length) (p :: ps) =
            fit (room - p.encode.length) (availSize - output.length - p.size) ps + 1 := by
          rw [fit, if_pos ⟨hinp, htp⟩]
        rw [hj] at h
        obtain ⟨appended, happ, hdec⟩ := bind_eq_some_iff.1 h
        have hrm : availSize - output.length - p.size = availSize - appended.length := by
          rw [(Phrase.append_eq_some p happ).2]
          omega
        rw [hrm] at hdec hj
        have hsz := p.size_pos
        rw [if_neg (by omega), happ, bind_some, ih (by omega) hdec, hj, take_succ_cons,
          encode_cons, length_append, drop_length_add_append]
      · have hj : fit room (availSize - output.length) (p :: ps) = 0 := by rw [fit, if_neg fun hfit => htp hfit.2]
        rw [hj] at h ⊢
        cases h
        exact if_pos (by omega)
    · have hj : fit room (availSize - output.length) (p :: ps) = 0 := by rw [fit, if_neg fun hfit => hinp hfit.1]
      rw [hj] at h ⊢
      cases h
      rw [take_append_of_le_length (by omega)]
      exact decompressChunks_take availSize fuel (by omega) _

/-- `adc_decompress` takes the phrases that are whole in its input and fit into the output. -/
theorem decompressInput_encode (h : decode (ps.take (fit room (availSize - output.length) ps)) output = some output') :
    decompressInput ((encode ps).take room) availSize output =
      some ((encode (ps.take (fit room (availSize - output.length) ps))).length, output') := by
  have hinp := (take_fit room (availSize - output.length) ps).1
  have htot : (encode (ps.take (fit room (availSize - output.length) ps))).length ≤ (encode ps).length := by
    rw [encode_split ps (fit room (availSize - output.length) ps), length_append]
    exact le_add_right _ _
  rw [decompressInput, decompressChunks_encode le_rfl h, map_some, length_drop, length_take]
  congr 2
  omega

end Osxie.Dmg.Adc
