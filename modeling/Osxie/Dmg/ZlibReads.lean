import Osxie.Dmg.ZlibReader

/-!
# Reads of compressed files

A state is in the middle of a compressed run (`Decoding`) when `inflate` is about to give what comes after the bytes that were
read. Reading on and skipping keep that. In an uncompressed run a read begins anew and skips what is before it by reads that
begin anew as well; so the induction is on the offset. Between two reads (`Resumable`) the last run, if there is one, is
compressed, and the state is in the middle of it unless an uncompressed run was read since.
-/

namespace Osxie.Dmg

open List Option Nat

namespace ZlibReader

variable {r : ZlibReader} {contents : List UInt8}

/-- What lies in a list from a position on. -/
theorem drop_of_slice {l m : List UInt8} {a : Nat} (h : slice l a m.length = m) : ∃ rest, l.drop a = m ++ rest := by
  refine ⟨(l.drop a).drop m.length, ?_⟩
  conv_lhs => rw [← take_append_drop m.length (l.drop a)]
  rw [← slice, h]

/-! ## Compressed runs -/

/-- The state is in the middle of a compressed run, so many bytes of which `inflate` has put out. -/
structure Decoding (r : ZlibReader) (z d : List UInt8) (st : State r) (pos : Nat) : Prop where
  pos_le : pos ≤ d.length
  input_le : st.inputPos ≤ z.length
  decodes : r.zlib.Decodes st.strm (z.drop st.inputPos) (d.drop pos)
  compressed : st.lastUncompressed = false

variable {first second : Nat} {z d : List UInt8}

variable {st : State r} {runIndex : Nat} {b : UInt8} {count offset : Nat}

section

variable (hc : r.Compressed first second z d)

include hc

/-- The next input of a compressed run, and what may come after it. -/
theorem Compressed.input_prefix {p : Nat} (hp : p ≤ z.length) (n : Nat) :
    ∃ junk, slice r.file (p + first) n <+: z.drop p ++ junk := by
  obtain ⟨junk, hdr⟩ := drop_of_slice hc.stored
  refine ⟨junk, ?_⟩
  rw [slice, add_comm, ← drop_drop, hdr, drop_append_of_le_length hp]
  exact take_prefix _ _

/-- There is input as long as there is output to come. -/
theorem Compressed.input_ne_nil {p n : Nat} (hp : p < z.length) (hn : 0 < n) : slice r.file (p + first) n ≠ [] := by
  obtain ⟨junk, hdr⟩ := drop_of_slice hc.stored
  rw [slice, add_comm, ← drop_drop, hdr, drop_append_of_le_length (le_of_lt hp)]
  intro hnil
  rcases take_eq_nil_iff.1 hnil with h | h
  · omega
  have := congrArg length (append_eq_nil_iff.1 h).1
  rw [length_drop, length_nil] at this
  omega

/-- The first byte of a compressed run is not taken for a mark. -/
theorem Compressed.not_marked (hz : z ≠ []) (n : Nat) : ¬∃ b ∈ (slice r.file (0 + first) n).head?, b &&& 0xf = 0xf := by
  rintro ⟨b, hb, hmk⟩
  obtain ⟨c, cs, rfl⟩ := exists_cons_of_ne_nil hz
  obtain ⟨junk, hpre⟩ := hc.input_prefix (zero_le _) n
  obtain ⟨rest, hrs⟩ := hpre
  cases hin : slice r.file (0 + first) n with
  | nil =>
    rw [hin] at hb
    cases hb
  | cons x xs =>
    rw [hin] at hb hrs
    obtain rfl : x = b := by simpa using hb
    obtain ⟨rfl, -⟩ := cons.inj hrs
    exact hc.unmarked x (by simp) hmk

omit hc in
/-- There is output to come, so there is input left. -/
theorem Decoding.input_lt {pos : Nat} (hdec : Decoding r z d st pos) (hpos : pos < d.length) :
    d.drop pos ≠ [] ∧ st.inputPos < z.length := by
  have hd : d.drop pos ≠ [] := by
    intro h
    have := congrArg length h
    rw [length_drop, length_nil] at this
    omega
  have hz := length_pos_of_ne_nil (r.zlib.pending hdec.decodes hd)
  rw [length_drop] at hz
  exact ⟨hd, by omega⟩

omit hc in
/-- `inflate` is given the next input, and advances. -/
theorem Decoding.advances {pos : Nat} (hdec : Decoding r z d st pos) (hc : r.Compressed first second z d)
    (hpos : pos < d.length) {n availOut : Nat} (hn : 0 < n) (hvl : 0 < availOut) :
    (r.zlib.inflate st.strm (slice r.file (st.inputPos + first) n) availOut).Advances r.zlib.Decodes (z.drop st.inputPos)
    (d.drop pos)
      (slice r.file (st.inputPos + first) n) availOut := by
  obtain ⟨hd, hlt⟩ := hdec.input_lt hpos
  obtain ⟨junk, hpre⟩ := hc.input_prefix hdec.input_le n
  exact r.zlib.correct hdec.decodes hd (hc.input_ne_nil hlt hn) hpre hvl

omit hc in
/-- After a round the state is further on in the run. -/
theorem Decoding.advance {pos : Nat} (hdec : Decoding r z d st pos) {input : List UInt8} {availOut : Nat}
    {res : Inflated r.zlib.State} (hadv : res.Advances r.zlib.Decodes (z.drop st.inputPos) (d.drop pos) input availOut)
    (lastRun : Option Nat) (lastEnd : Nat) :
    Decoding r z d ⟨res.strm, lastRun, lastEnd, st.inputPos + res.consumed, st.lastUncompressed⟩ (pos + res.output.length) where
  pos_le := by
    have := congrArg length hadv.output.2
    rw [length_take, length_drop] at this
    have := hdec.pos_le
    omega
  input_le := by
    have := hadv.consumed.2
    rw [length_drop] at this
    have := hdec.input_le
    show st.inputPos + res.consumed ≤ _
    omega
  decodes := by
    have := hadv.decodes
    rwa [drop_drop, drop_drop] at this
  compressed := hdec.compressed

/-- A round of the loop: `inflate` is given some input and advances, and the loop ends with the stream or goes on. -/
theorem decompress_round (runIndex offset : Nat) {start soFar : Nat} {out : List UInt8} (hcount : start + count ≤ d.length)
    (hdec : Decoding r z d st (start + out.length)) (hlt : out.length < count) (hle : soFar ≤ st.inputPos) :
    ∃ input res, input ≠ [] ∧
      Inflated.Advances r.zlib.Decodes (z.drop st.inputPos) (d.drop (start + out.length)) input (count - out.length) res ∧
      ∀ m, r.decompress runIndex first second count offset (m + 1) st soFar out =
        if res.status = zStreamEnd then
          some (⟨res.strm, some runIndex, st.lastEnd + (out ++ res.output).length, st.inputPos + res.consumed, st.lastUncompressed⟩,
            .ok (out ++ res.output))
        else r.decompress runIndex first second count offset m
          { st with strm := res.strm, inputPos := st.inputPos + res.consumed } (soFar + input.length) (out ++ res.output) := by
  have hsec := hc.second_lt
  have hleng := hc.length_le
  obtain ⟨-, hinp⟩ := hdec.input_lt (by omega)
  have hu : u32 ((second : Int) - (soFar : Int)) = second - soFar := by
    unfold u32
    omega
  generalize hn : min (second - soFar) 512 = n
  have hadv := hdec.advances hc (by omega) (show 0 < n by omega) (show 0 < count - out.length by omega)
  have hmk : ¬(false = true ∨ out = [] ∧ st.inputPos = 0 ∧
      ∃ b ∈ (slice r.file (st.inputPos + first) n).head?, b &&& 0xf = 0xf) := by
    rintro (h | ⟨-, hze, hmk⟩)
    · cases h
    · rw [hze] at hmk hinp
      exact hc.not_marked (ne_nil_of_length_pos hinp) n hmk
  refine ⟨slice r.file (st.inputPos + first) n, _, hc.input_ne_nil hinp (by omega), hadv, fun m => ?_⟩
  rw [decompress, if_pos hlt]
  simp only [hdec.compressed, hu, hn, reduceIte, Bool.false_eq_true]
  rw [if_neg (by simpa using hmk), if_neg (Int.not_lt.2 hadv.status)]

/-- Decompressing goes on in the run, so many bytes. -/
theorem decompress_spec (runIndex offset : Nat) {start : Nat} (hcount : start + count ≤ d.length) :
    ∀ (left : Nat) (st : State r) (soFar : Nat) (out : List UInt8), st.lastEnd = start → Decoding r z d st (start + out.length) →
      (z.length - st.inputPos) + (count - out.length) = left → out.length ≤ count → (out.length < count → soFar ≤ st.inputPos) →
      out = slice d start out.length → ∃ st', Decoding r z d st' (start + count) ∧ st'.lastRun = some runIndex ∧
        st'.lastEnd = start + count ∧ ∃ enough, ∀ rounds ≥ enough,
          r.decompress runIndex first second count offset rounds st soFar out = some (st', .ok (slice d start count)) := by
  intro left
  induction left using Nat.strong_induction_on with
  | _ left ih =>
    intro st soFar out hsta hdec hlf hout hsoFar hsli
    by_cases hlt : out.length < count
    · obtain ⟨input, res, hne, hadv, hrou⟩ := decompress_round hc runIndex offset hcount hdec hlt (hsoFar hlt)
      have hinp := length_pos_of_ne_nil hne
      obtain ⟨hcons, hcons'⟩ := hadv.consumed
      rw [length_drop] at hcons'
      have hmr : out ++ res.output = slice d start (out ++ res.output).length := by
        rw [length_append, slice_add, ← hsli, slice, ← hadv.output.2]
      have hlen : (out ++ res.output).length = out.length + res.output.length := length_append
      by_cases hend : res.status = zStreamEnd
      · -- the stream has ended: this was the end of the run
        have hall := congrArg length (hadv.atEnd hend)
        rw [length_drop] at hall
        have hfu : (out ++ res.output).length = count := by
          have := hadv.output.1
          omega
        refine ⟨⟨res.strm, some runIndex, st.lastEnd + (out ++ res.output).length, st.inputPos + res.consumed,
          st.lastUncompressed⟩, ?_,
          rfl, by rw [← hfu, ← hsta], 1, fun rounds henough => ?_⟩
        · rw [show start + count = start + out.length + res.output.length by omega]
          exact hdec.advance hadv _ _
        · obtain _ | m := rounds
          · omega
          rw [hrou, if_pos hend, ← hfu, ← hmr]
      · have hstop := hadv.stops
        have hdec' := hdec.advance hadv st.lastRun st.lastEnd
        rw [add_assoc, ← hlen] at hdec'
        obtain ⟨st', hst', hrun, hla, enough, hrs⟩ := ih
          ((z.length - (st.inputPos + res.consumed)) + (count - (out ++ res.output).length)) (by omega)
          ⟨res.strm, st.lastRun, st.lastEnd, st.inputPos + res.consumed, st.lastUncompressed⟩ (soFar + input.length)
            (out ++ res.output)
          hsta hdec' rfl (by have := hadv.output.1; omega) (fun h => by show _ ≤ st.inputPos + res.consumed; omega) hmr
        refine ⟨st', hst', hrun, hla, enough + 1, fun rounds henough => ?_⟩
        obtain _ | m := rounds
        · omega
        rw [hrou, if_neg hend]
        exact hrs m (by omega)
    · obtain hfu : out.length = count := by omega
      refine ⟨{ st with lastEnd := st.lastEnd + out.length, lastRun := some runIndex },
        ⟨hcount, hdec.input_le, ?_, hdec.compressed⟩, rfl,
        by rw [← hsta, ← hfu], 1, fun rounds henough => ?_⟩
      · rw [← hfu]
        exact hdec.decodes
      · obtain _ | n := rounds
        · omega
        rw [decompress, if_neg hlt, ← hfu, ← hsli]

end

/-! ## Skipping -/

/-- The loop that skips: if each of its calls moves on and keeps `I`, it comes to the offset. -/
theorem waste_spec (call : Nat → State r → Nat → Nat → Option (State r × Except String (List UInt8))) (offset : Nat)
    {I : Nat → State r → Prop} (hla : ∀ p st, I p st → st.lastEnd = p)
    (hsp : ∀ p st, I p st → p < offset → ∃ st' bytes, I (p + min 512 (offset - p)) st' ∧
      ∃ enough, ∀ n ≥ enough, call n st (min 512 (offset - p)) p = some (st', .ok bytes)) :
    ∀ (left p : Nat) (st : State r), p + left = offset → I p st → ∃ st', I offset st' ∧
      ∃ enough, ∀ n ≥ enough, ∀ m ≥ enough, r.waste (call n) offset m st = some (st', .ok ()) := by
  intro left
  induction left using Nat.strong_induction_on with
  | _ left ih =>
    intro p st hp hI
    have hend := hla p st hI
    by_cases hlt : p < offset
    · obtain ⟨st₁, bytes, hI₁, enough₁, hca⟩ := hsp p st hI hlt
      obtain ⟨st', hI', enough, hws⟩ := ih (left - min 512 (offset - p)) (by omega) (p + min 512 (offset - p)) st₁ (by omega) hI₁
      refine ⟨st', hI', max enough enough₁ + 1, fun n hn m hm => ?_⟩
      obtain _ | m := m
      · omega
      rw [waste, hend, if_pos hlt, hca n (by omega)]
      exact hws n (by omega) m (by omega)
    · obtain rfl : p = offset := by omega
      refine ⟨st, hI, 1, fun n _ m hm => ?_⟩
      obtain _ | m := m
      · omega
      rw [waste, hend, if_neg hlt]

/-- `readRun` after skipping. -/
theorem readRun_of_waste {runIndex : Nat} (htab : r.offsets[runIndex]? = some (first, second)) {st st₁ : State r}
    {res : State r × Except String (List UInt8)}
    (hws : ∃ enough, ∀ n ≥ enough, ∀ m ≥ enough, r.waste (r.readRun runIndex n) offset m (r.prepare st runIndex offset) = some (st₁, .ok ()))
    (hrs : ∃ enough, ∀ n ≥ enough, r.decompress runIndex first second count offset n st₁ 0 [] = some res) :
    ∃ enough, ∀ n ≥ enough, r.readRun runIndex n st count offset = some res := by
  obtain ⟨enough₁, hws⟩ := hws
  obtain ⟨enough₂, hrs⟩ := hrs
  refine ⟨max enough₁ enough₂ + 1, fun n hn => ?_⟩
  obtain _ | n := n
  · omega
  have h := hws n (by omega) n (by omega)
  rw [readRun, h]
  simp only [htab]
  exact hrs n (by omega)

/-! ## Reads of compressed runs -/

/-- The state is in the middle of a compressed run, or at its beginning. -/
structure Good (r : ZlibReader) (runIndex : Nat) (z d : List UInt8) (st : State r) : Prop where
  decoding : Decoding r z d st st.lastEnd
  run : st.lastRun = some runIndex ∨ (st.strm = r.zlib.init ∧ st.inputPos = 0 ∧ st.lastEnd = 0)

/-- A state that was reset is at the beginning of every compressed run. -/
theorem Compressed.good (hc : r.Compressed first second z d) (runIndex : Nat) (lastRun : Option Nat) :
    Good r runIndex z d ⟨r.zlib.init, lastRun, 0, 0, false⟩ :=
  ⟨⟨zero_le _, zero_le _, hc.decodes, rfl⟩, .inr ⟨rfl, rfl, rfl⟩⟩

theorem Good.prepare (h : Good r runIndex z d st) (hc : r.Compressed first second z d) :
    Good r runIndex z d (r.prepare st runIndex st.lastEnd) ∧ (r.prepare st runIndex st.lastEnd).lastEnd = st.lastEnd := by
  unfold ZlibReader.prepare
  by_cases hrest : st.lastRun ≠ some runIndex ∨ st.lastEnd < st.lastEnd
  · rw [if_pos hrest]
    have hne : st.lastRun ≠ some runIndex := hrest.resolve_right (lt_irrefl _)
    exact ⟨hc.good _ _, (h.run.resolve_left hne).2.2.symm⟩
  · rw [if_neg hrest]
    exact ⟨h, rfl⟩

/-- Decompressing from a good state. -/
theorem decompress_good (hc : r.Compressed first second z d) (h : Good r runIndex z d st)
    (hcount : st.lastEnd + count ≤ d.length) (offset : Nat) :
    ∃ st', Good r runIndex z d st' ∧ st'.lastRun = some runIndex ∧ st'.lastEnd = st.lastEnd + count ∧ ∃ enough, ∀ n ≥ enough,
      r.decompress runIndex first second count offset n st 0 [] = some (st', .ok (slice d st.lastEnd count)) := by
  obtain ⟨st', hdec, hrun, hla, hrs⟩ := decompress_spec hc runIndex offset hcount _ st 0 [] rfl h.decoding rfl (zero_le _)
    (fun _ => zero_le _) rfl
  exact ⟨st', ⟨hla ▸ hdec, .inl hrun⟩, hrun, hla, hrs⟩

section

variable {runIndex : Nat} (htab : r.offsets[runIndex]? = some (first, second)) (hc : r.Compressed first second z d)
include htab hc

/-- A read of a run from where the state is. -/
theorem readRun_here (h : Good r runIndex z d st) (hcount : st.lastEnd + count ≤ d.length) :
    ∃ st', Good r runIndex z d st' ∧ st'.lastEnd = st.lastEnd + count ∧ ∃ enough, ∀ n ≥ enough,
      r.readRun runIndex n st count st.lastEnd = some (st', .ok (slice d st.lastEnd count)) := by
  obtain ⟨hgd, hla⟩ := h.prepare hc
  obtain ⟨st', hst', -, hla', hrs⟩ := decompress_good hc hgd (hla ▸ hcount) st.lastEnd
  rw [hla] at hla' hrs
  refine ⟨st', hst', hla', readRun_of_waste htab ⟨1, fun n _ m hm => ?_⟩ hrs⟩
  obtain _ | m := m
  · omega
  rw [waste, hla, if_neg (lt_irrefl _)]

/-- A read of a compressed run, from a state that is good after `prepare`. -/
theorem readRun_compressed {offset : Nat} (h : Good r runIndex z d (r.prepare st runIndex offset))
    (hle : (r.prepare st runIndex offset).lastEnd ≤ offset) (hcount : offset + count ≤ d.length) :
    ∃ st', Good r runIndex z d st' ∧ st'.lastRun = some runIndex ∧ ∃ enough, ∀ n ≥ enough,
      r.readRun runIndex n st count offset = some (st', .ok (slice d offset count)) := by
  obtain ⟨st₁, ⟨hgd, hla⟩, hws⟩ := waste_spec (r.readRun runIndex) offset
    (I := fun p st => Good r runIndex z d st ∧ st.lastEnd = p) (fun p st hI => hI.2)
    (by
      rintro p st ⟨hgd, rfl⟩ hlt
      obtain ⟨st', hst', hla, hrd⟩ := readRun_here htab hc hgd
        (show st.lastEnd + min 512 (offset - st.lastEnd) ≤ d.length by omega)
      exact ⟨st', _, ⟨hst', hla⟩, hrd⟩)
    (offset - (r.prepare st runIndex offset).lastEnd) _ _ (by omega) ⟨h, rfl⟩
  subst hla
  obtain ⟨st', hst', hrun, -, hrs⟩ := decompress_good hc hgd hcount st₁.lastEnd
  exact ⟨st', hst', hrun, readRun_of_waste htab hws hrs⟩

end

/-! ## Reads of uncompressed runs -/

/-- The state is in an uncompressed run, so many bytes of which were read. -/
structure Copying (r : ZlibReader) (lastRun : Option Nat) (pos : Nat) (st : State r) : Prop where
  strm : st.strm = r.zlib.init
  run : st.lastRun = lastRun
  last : st.lastEnd = pos
  input : st.lastUncompressed = true ∧ st.inputPos = pos + 1 ∨ st.lastUncompressed = false ∧ st.inputPos = 0 ∧ pos = 0

def copied (r : ZlibReader) (lastRun : Option Nat) (pos : Nat) : State r := ⟨r.zlib.init, lastRun, pos, pos + 1, true⟩

theorem copied_copying (lastRun : Option Nat) (pos : Nat) : Copying r lastRun pos (copied r lastRun pos) :=
  ⟨rfl, rfl, rfl, .inl ⟨rfl, rfl⟩⟩

section

variable (hu : r.Uncompressed first second b d)

include hu

/-- The bytes of an uncompressed run. -/
theorem Uncompressed.slice_file (h : offset + count ≤ d.length) :
    slice r.file (offset + 1 + first) count = slice d offset count := by
  have hsli := slice_slice (l := r.file) (a := first) (show offset + 1 + count ≤ d.length + 1 by omega)
  rw [hu.stored, add_comm first] at hsli
  rw [← hsli]
  rfl

/-- The mark of an uncompressed run is found. -/
theorem Uncompressed.head {n : Nat} (hn : 0 < n) : (slice r.file (0 + first) n).head? = some b := by
  obtain ⟨rest, hdr⟩ := drop_of_slice (by rw [length_cons]; exact hu.stored)
  obtain _ | n := n
  · omega
  rw [slice, zero_add, hdr, cons_append, take_succ_cons, head?_cons]

/-- Copying from where the state is. -/
theorem decompress_copying (hsmall : d.length < 2 ^ 31 - 1) (runIndex : Nat) {lastRun : Option Nat}
    (h : Copying r lastRun offset st) (hpos : 0 < count) (hcount : offset + count ≤ d.length) (n : Nat) :
    r.decompress runIndex first second count offset (n + 1) st 0 [] =
      some (copied r lastRun (offset + count), .ok (slice d offset count)) := by
  have hsec := hu.length_eq
  have hcopy : r.copyRun st first second count offset = (copied r lastRun (offset + count), slice d offset count) := by
    have hinp : (if st.lastUncompressed = true then st.inputPos else st.inputPos + 1) = offset + 1 := by
      rcases h.input with ⟨htr, hin⟩ | ⟨hfalse, hin, hze⟩
      · rw [if_pos htr, hin]
      · rw [if_neg (by rw [hfalse]; decide), hin, hze]
    have hlf : int32 (u64Sub (u64Sub second offset) 1) = ((d.length - offset : Nat) : Int) := by
      have hoffset : u64Sub second offset = second - offset := u64Sub_of_le (by omega) (by omega)
      rw [hoffset, u64Sub_of_le (by omega) (by omega), show second - offset - 1 = d.length - offset by omega,
        int32_of_lt (by omega)]
    have hmin : (min (count : Int) ((d.length - offset : Nat) : Int)).toNat = count := by omega
    unfold copyRun
    simp only [hinp, hlf, hmin, hu.slice_file hcount, length_slice hcount, h.strm, h.run, h.last]
    rw [copied, add_right_comm]
  have hmk : st.lastUncompressed = true ∨ ([] : List UInt8) = [] ∧ st.inputPos = 0 ∧
      ∃ b ∈ (if st.lastUncompressed = true then [] else
        slice r.file (st.inputPos + first) (min (u32 ((second : Int) - ((0 : Nat) : Int))) 512)).head?, b &&& 0xf = 0xf := by
    rcases h.input with ⟨htr, -⟩ | ⟨hfalse, hin, -⟩
    · exact .inl htr
    · have hn : 0 < min (u32 ((second : Int) - ((0 : Nat) : Int))) 512 := by
        unfold u32
        omega
      refine .inr ⟨rfl, hin, b, ?_, hu.marked⟩
      rw [if_neg (by rw [hfalse]; decide), hin, hu.head hn]
      rfl
  rw [decompress, if_pos (show ([] : List UInt8).length < count from hpos)]
  refine (if_pos hmk).trans ?_
  rw [hcopy]

end

/-- A read of an uncompressed run that is not the last run: it begins anew, and so do the reads it skips with. -/
theorem readRun_uncompressed (htab : r.offsets[runIndex]? = some (first, second)) (hu : r.Uncompressed first second b d)
    (hsmall : d.length < 2 ^ 31 - 1) : ∀ (offset : Nat) {count : Nat} {st : State r},
      st.lastRun ≠ some runIndex → 0 < count → offset + count ≤ d.length → ∃ enough, ∀ n ≥ enough,
        r.readRun runIndex n st count offset = some (copied r st.lastRun (offset + count), .ok (slice d offset count)) := by
  intro offset
  induction offset using Nat.strong_induction_on with
  | _ offset ih =>
    intro count st hrun hpos hcount
    have hpr : r.prepare st runIndex offset = ⟨r.zlib.init, st.lastRun, 0, 0, false⟩ := if_pos (.inl hrun)
    obtain ⟨st₁, hst₁, hws⟩ := waste_spec (r.readRun runIndex) offset (I := Copying r st.lastRun) (fun p st hI => hI.last)
      (by
        intro p st' hI hlt
        have hrun' : st'.lastRun ≠ some runIndex := by
          rw [hI.run]
          exact hrun
        obtain ⟨enough, hrd⟩ := ih p hlt hrun' (show 0 < min 512 (offset - p) by omega) (by omega)
        exact ⟨_, _, hI.run ▸ copied_copying _ _, enough, hrd⟩)
      offset 0 (r.prepare st runIndex offset) (zero_add _) (by rw [hpr]; exact ⟨rfl, rfl, rfl, .inr ⟨rfl, rfl, rfl⟩⟩)
    refine readRun_of_waste htab hws ⟨1, fun n hn => ?_⟩
    obtain _ | n := n
    · omega
    exact decompress_copying hu hsmall runIndex hst₁ hpos hcount n

/-! ## Sequences of reads -/

/-- What a state is worth between reads: the last run is a compressed one, and the state is in the middle of it unless it is
that of an uncompressed run. -/
def Resumable (r : ZlibReader) (contents : List UInt8) (st : State r) : Prop :=
  ∀ k, st.lastRun = some k → ∃ first second z, r.offsets[k]? = some (first, second) ∧ r.Compressed first second z (run contents k) ∧
    (st.lastUncompressed = false → Decoding r z (run contents k) st st.lastEnd)

theorem length_run {k : Nat} : (run contents k).length = min runLength (contents.length - k * runLength) := by
  rw [run, slice, length_take, length_drop]

theorem resumable_of_good {k : Nat} (htab : r.offsets[k]? = some (first, second))
    (hc : r.Compressed first second z (run contents k)) (h : Good r k z (run contents k) st) (hla : st.lastRun = some k) :
    Resumable r contents st := by
  intro k' hk'
  obtain rfl : k = k' := some.inj (hla.symm.trans hk')
  exact ⟨first, second, z, htab, hc, fun _ => h.decoding⟩

section

variable (hwf : r.WellFormed contents)

include hwf

/-- A read of a run that does not go on in the last compressed run from the state of an uncompressed one. -/
theorem readRun_spec (hst : Resumable r contents st) {k : Nat} (hk : k * runLength < contents.length) (hpos : 0 < count)
    (hcount : offset + count ≤ (run contents k).length)
    (hsafe : ¬(st.lastUncompressed = true ∧ st.lastRun = some k ∧ st.lastEnd ≤ offset)) :
    ∃ st', Resumable r contents st' ∧ (st'.lastUncompressed = true → 0 < st'.lastEnd) ∧ ∃ enough, ∀ n ≥ enough,
      r.readRun k n st count offset = some (st', .ok (slice (run contents k) offset count)) := by
  have compressed : ∀ {first second z}, r.offsets[k]? = some (first, second) → r.Compressed first second z (run contents k) →
      Good r k z (run contents k) (r.prepare st k offset) → (r.prepare st k offset).lastEnd ≤ offset →
      ∃ st', Resumable r contents st' ∧ (st'.lastUncompressed = true → 0 < st'.lastEnd) ∧ ∃ enough, ∀ n ≥ enough,
        r.readRun k n st count offset = some (st', .ok (slice (run contents k) offset count)) := by
    intro first second z htab hc hgd hle
    obtain ⟨st', hst', hrun', hrd⟩ := readRun_compressed htab hc hgd hle hcount
    refine ⟨st', resumable_of_good htab hc hst' hrun', fun h => ?_, hrd⟩
    rw [hst'.decoding.compressed] at h
    cases h
  by_cases hla : st.lastRun = some k
  · -- the last run is compressed
    obtain ⟨first, second, z, htab, hc, hdec⟩ := hst k hla
    by_cases hback : offset < st.lastEnd
    · have hpr : r.prepare st k offset = ⟨r.zlib.init, st.lastRun, 0, 0, false⟩ := if_pos (.inr hback)
      exact compressed htab hc (hpr ▸ hc.good _ _) (hpr ▸ zero_le _)
    · have hpr : r.prepare st k offset = st := if_neg (by rw [hla]; simpa using hback)
      have hcp : st.lastUncompressed = false := by
        cases hu : st.lastUncompressed with
        | false => rfl
        | true => exact absurd ⟨hu, hla, by omega⟩ hsafe
      refine compressed htab hc ?_ ?_
      · rw [hpr]
        exact ⟨hdec hcp, .inl hla⟩
      · rw [hpr]
        omega
  · have hpr : r.prepare st k offset = ⟨r.zlib.init, st.lastRun, 0, 0, false⟩ := if_pos (.inl hla)
    obtain ⟨first, second, htab, ⟨z, hc⟩ | ⟨b, hu⟩⟩ := hwf.runs k hk
    · exact compressed htab hc (hpr ▸ hc.good _ _) (hpr ▸ zero_le _)
    · have hsmall : (run contents k).length < 2 ^ 31 - 1 := by
        rw [length_run]
        unfold runLength
        omega
      refine ⟨copied r st.lastRun (offset + count), ?_, fun _ => ?_, readRun_uncompressed htab hu hsmall offset hla hpos hcount⟩
      · intro k' hk'
        obtain ⟨first', second', z, htab', hc, -⟩ := hst k' hk'
        exact ⟨first', second', z, htab', hc, by nofun⟩
      · show 0 < offset + count
        omega

omit hwf in
/-- What is read of a run is in it. -/
theorem add_le_run {l q m position t left size : Nat} (hdm : q * l + m = position) (ht : min l left = t)
    (hft : m = 0 ∨ m + left ≤ l)
    (hend : position + left ≤ size) : m + t ≤ min l (size - q * l) := by
  omega

/-- The loop of `read`: it is at the beginning of a run, or in the first one, which it does not leave. -/
theorem readFrom_spec (hsz : contents.length < 2 ^ 64) (hcount : offset + count ≤ contents.length) :
    ∀ (left : Nat) (st : State r) (done : Nat), done + left = count →
      Resumable r contents st →
      (done < count → (done = 0 ∨ (offset + done) % runLength = 0) ∧
        ((offset + done) % runLength = 0 ∨ (offset + done) % runLength + (count - done) ≤ runLength) ∧
        ¬(st.lastUncompressed = true ∧ st.lastRun = some ((offset + done) / runLength) ∧
          st.lastEnd ≤ (offset + done) % runLength)) →
      ∃ st', Resumable r contents st' ∧ ∃ enough, ∀ rounds ≥ enough, ∀ n ≥ enough,
        r.readFrom rounds count offset n st (slice contents offset done) = some (st', .ok (slice contents offset count)) := by
  intro left
  induction left using Nat.strong_induction_on with
  | _ left ih =>
    intro st done hlf hst hcond
    by_cases hlt : done < count
    · obtain ⟨hfirst, hft, hsafe⟩ := hcond hlt
      generalize ht : min runLength (count - done) = t
      have hrl : 0 < runLength := by decide
      have hdm : (offset + done) / runLength * runLength + (offset + done) % runLength = offset + done := div_add_mod' ..
      have hin : (offset + done) % runLength + t ≤ (run contents ((offset + done) / runLength)).length := by
        rw [length_run]
        exact add_le_run hdm ht hft (by omega)
      obtain ⟨st₁, hst₁, hla₁, enough₁, hrd⟩ := readRun_spec hwf hst (by omega) (by omega) hin hsafe
      have hby : slice (run contents ((offset + done) / runLength)) ((offset + done) % runLength) t =
          slice contents (offset + done) t := by
        rw [run, slice_slice (by omega), hdm]
      rw [hby] at hrd
      have hnx : done + t < count → (done + t = 0 ∨ (offset + (done + t)) % runLength = 0) ∧
          ((offset + (done + t)) % runLength = 0 ∨ (offset + (done + t)) % runLength + (count - (done + t)) ≤ runLength) ∧
          ¬(st₁.lastUncompressed = true ∧ st₁.lastRun = some ((offset + (done + t)) / runLength) ∧
            st₁.lastEnd ≤ (offset + (done + t)) % runLength) := by
        intro hmr
        have hze : (offset + (done + t)) % runLength = 0 := by
          rw [← add_assoc, show t = runLength by omega, add_mod_right]
          omega
        refine ⟨.inr hze, .inl hze, fun hc => ?_⟩
        have := hla₁ hc.1
        omega
      obtain ⟨st', hst', enough, hrs⟩ := ih (left - t) (by omega) st₁ (done + t) (by omega) hst₁ hnx
      refine ⟨st', hst', max enough enough₁ + 1, fun rounds henough n hn => ?_⟩
      obtain _ | n := n
      · omega
      have hdn : (slice contents offset done).length = done := length_slice (by omega)
      have hoffset : (if done = 0 then offset % runLength else 0) = (offset + done) % runLength := by
        by_cases hze : done = 0
        · rw [if_pos hze, hze, add_zero]
        · rw [if_neg hze, hfirst.resolve_left hze]
      rw [readFrom, hdn, if_pos hlt]
      simp only [hoffset, ht, u64, mod_eq_of_lt (show offset + done < 2 ^ 64 by omega), hrd rounds (by omega)]
      rw [if_neg (by rw [length_slice (by omega)]; simp), ← slice_add]
      exact hrs rounds (by omega) n (by omega)
    · refine ⟨st, hst, 1, fun rounds _ n hn => ?_⟩
      obtain _ | n := n
      · omega
      obtain rfl : done = count := by omega
      rw [readFrom, length_slice hcount, if_neg hlt]

omit hwf in
theorem length_entries (table : List UInt8) (n : Nat) : (entries table n).length = n := by
  induction n generalizing table with
  | zero => rfl
  | succ n ih => rw [entries, length_cons, ih]

omit hwf in
/-- The table of a reader that could be constructed is small. -/
theorem offsets_length {zlib : Inflate} {file : List UInt8} {uncompressedSize : Nat} {singleRun : Bool}
    (h : construct zlib file uncompressedSize singleRun = .ok r) : r.offsets.length ≤ 2 ^ 28 := by
  unfold construct at h
  split at h
  · cases h
    show 1 ≤ 2 ^ 28
    decide
  · split at h
    · cases h
    simp only at h
    split at h <;> cases h
    rw [length_entries]
    omega

/-- So is the file. -/
theorem WellFormed.length_lt (h : r.offsets.length ≤ 2 ^ 28) : contents.length < 2 ^ 45 := by
  by_contra hlong
  have hbig : r.offsets.length * runLength < contents.length := by
    unfold runLength
    omega
  obtain ⟨first, second, htab, -⟩ := hwf.runs _ hbig
  rw [getElem?_eq_none le_rfl] at htab
  cases htab

/-- A safe read returns the bytes of the file. -/
theorem read_spec (hsz : contents.length < 2 ^ 45) (hst : Resumable r contents st) (hoffset : offset ≤ contents.length)
    (hcount : count < 2 ^ 31) (hsafe : r.Safe st count offset) :
    ∃ st', Resumable r contents st' ∧
      r.Returns st count offset (st', .ok (slice contents offset (min count (contents.length - offset)))) := by
  obtain ⟨hft, hstate⟩ := hsafe
  rw [available, hwf.size] at hft
  have hclip : (if contents.length < u64 (offset + count) then (int32 (u64Sub contents.length offset)).toNat else count) =
      min count (contents.length - offset) := by
    rw [u64, mod_eq_of_lt (by omega)]
    by_cases hcut : contents.length < offset + count
    · rw [if_pos hcut, u64Sub_of_le hoffset (by omega), int32_of_lt (by omega)]
      omega
    · rw [if_neg hcut]
      omega
  obtain ⟨st', hst', enough, hrd⟩ := readFrom_spec hwf (by omega)
    (show offset + min count (contents.length - offset) ≤ _ by omega)
    (min count (contents.length - offset)) st 0 (zero_add _) hst (fun _ => ⟨.inl rfl, by simpa using hft, by simpa using hstate⟩)
  refine ⟨st', hst', enough, fun rounds henough => ?_⟩
  rw [read, hwf.size, hclip]
  exact hrd rounds henough rounds henough

omit hwf in
/-- A read has one result. -/
theorem Returns.unique {res res' : State r × Except String (List UInt8)} (h : r.Returns st count offset res)
    (h' : r.Returns st count offset res') : res = res' := by
  obtain ⟨enough, h⟩ := h
  obtain ⟨enough', h'⟩ := h'
  exact some.inj ((h (max enough enough') (le_max_left ..)).symm.trans (h' _ (le_max_right ..)))

/-- Every state reached by safe reads can be resumed. -/
theorem Reached.resumable (hsz : contents.length < 2 ^ 45) (h : r.Reached st) : Resumable r contents st := by
  induction h with
  | init => nofun
  | read _ hoffset hcount hsafe hret ih =>
    obtain ⟨st', hst', hret'⟩ := read_spec hwf hsz ih (hwf.size ▸ hoffset) hcount hsafe
    obtain rfl := (Prod.mk.inj (hret.unique hret')).1
    exact hst'

end

/-- **Reads of compressed files**: in every state reached by safe reads, every safe read inside the file returns, with all the
bytes that there are. -/
theorem reads_exact_of_safe {zlib : Inflate} {file : List UInt8} {uncompressedSize : Nat} {singleRun : Bool}
    (hopen : construct zlib file uncompressedSize singleRun = .ok r) (hwf : r.WellFormed contents) {st : State r}
    (hst : r.Reached st)
    {count offset : Nat} (hoffset : offset ≤ contents.length) (hcount : count < 2 ^ 31) (hsafe : r.Safe st count offset) :
    ∃ st' bytes, r.Returns st count offset (st', .ok bytes) ∧ bytes.length = min count (contents.length - offset) ∧
      bytes = slice contents offset (min count (contents.length - offset)) := by
  have hsz := hwf.length_lt (offsets_length hopen)
  obtain ⟨st', -, hret⟩ := read_spec hwf hsz (hst.resumable hwf hsz) hoffset hcount hsafe
  exact ⟨st', _, hret, length_slice (by omega), rfl⟩

/-! ## A file with a compressed and an uncompressed run -/

/-- A decoder of streams of three bytes, each of 64 KiB of fives: how much input and output is left. -/
def fives : Inflate where
  State := Nat × Nat
  init := (3, 65536)
  inflate s input availOut :=
    if availOut < s.2 then ⟨0, (s.1, s.2 - availOut), 0, replicate availOut 5⟩
    else if s.1 ≤ input.length then ⟨zStreamEnd, (0, 0), s.1, replicate s.2 5⟩
    else ⟨0, (s.1 - input.length, s.2), input.length, []⟩
  Decodes s z d := z.length = s.1 ∧ d = replicate s.2 5 ∧ (0 < s.2 → 0 < s.1)
  pending := by
    rintro s z d ⟨hz, rfl, hpos⟩ hd rfl
    have : s.2 ≠ 0 := fun h => hd (by rw [h]; rfl)
    have := hpos (by omega)
    simp at hz
    omega
  correct := by
    rintro s z d ⟨hz, rfl, hpos⟩ hd input junk hne - availOut hvl
    by_cases hfu : availOut < s.2
    · rw [if_pos hfu]
      exact ⟨by simp, by simp, by simp [min_eq_left (le_of_lt hfu)], ⟨by simp [hz], by simp, fun _ => hpos (by omega)⟩,
        by simp, by nofun⟩
    · rw [if_neg hfu]
      by_cases hend : s.1 ≤ input.length
      · rw [if_pos hend]
        exact ⟨show (0 : Int) ≤ zStreamEnd by decide, ⟨hend, le_of_eq hz.symm⟩, by simp; omega,
          ⟨by simp [hz], by simp, by nofun⟩,
          .inr (.inl rfl), fun _ => rfl⟩
      · rw [if_neg hend]
        exact ⟨by simp, ⟨le_rfl, show input.length ≤ z.length by omega⟩, by simp,
          ⟨by simp [hz], by simp, fun _ => show 0 < s.1 - input.length by omega⟩, .inr (.inr rfl), by nofun⟩

/-- The table with two runs and the entry after them, and their data. -/
def mixedFile : List UInt8 :=
  [2, 0, 0, 0] ++ [28, 0, 0, 0, 3, 0, 0, 0] ++ [31, 0, 0, 0, 2, 0, 0, 0] ++ [0, 0, 0, 0, 0, 0, 0, 0] ++ [0x78, 5, 0] ++ [0xff, 7]

def mixed : ZlibReader := ⟨fives, mixedFile, 65537, [(28, 3), (31, 2), (0, 0)]⟩

def mixedContents : List UInt8 := replicate 65536 5 ++ [7]

theorem construct_mixed : construct fives mixedFile 65537 false = .ok mixed := rfl

theorem length_mixedContents : mixedContents.length = 65537 := by
  rw [mixedContents, length_append, length_replicate]
  rfl

theorem run_mixedContents : run mixedContents 0 = replicate 65536 5 ∧ run mixedContents 1 = [7] := by
  have hlen : (replicate 65536 (5 : UInt8)).length = 65536 := length_replicate ..
  constructor
  · rw [run, mixedContents, slice_append_left (by rw [hlen]; decide), slice, zero_mul, drop_zero]
    exact take_of_length_le (by rw [hlen]; decide)
  · have h := slice_append_right (replicate 65536 (5 : UInt8)) [7] 0 runLength
    rw [hlen] at h
    exact h

theorem mixed_wellFormed : mixed.WellFormed mixedContents where
  size := length_mixedContents.symm
  runs := by
    intro i hi
    rw [length_mixedContents] at hi
    unfold runLength at hi
    obtain rfl | rfl : i = 0 ∨ i = 1 := by omega
    · rw [run_mixedContents.1]
      have hunm : ∀ b ∈ ([0x78, 5, 0] : List UInt8).head?, b &&& 0xf ≠ 0xf := by
        rintro b ⟨⟩
        decide
      exact ⟨28, 3, rfl, .inl ⟨[0x78, 5, 0], by decide, by decide, by decide, ⟨rfl, rfl, fun _ => by decide⟩, hunm⟩⟩
    · rw [run_mixedContents.2]
      exact ⟨31, 2, rfl, .inr ⟨0xff, rfl, by decide, by decide⟩⟩

/-- A read through both runs. -/
theorem reads_exact_of_safe_mixed :
    ∃ st bytes, mixed.Returns mixed.init 70000 0 (st, .ok bytes) ∧ bytes = slice mixedContents 0 65537 := by
  obtain ⟨st, bytes, hret, -, hbytes⟩ := reads_exact_of_safe construct_mixed mixed_wellFormed .init
    (zero_le _) (show 70000 < 2 ^ 31 by decide) ⟨.inl rfl, fun h => absurd h.1 (by decide)⟩
  rw [length_mixedContents] at hbytes
  exact ⟨st, bytes, hret, hbytes⟩

/-- A byte of the compressed run, one of the uncompressed run, and the next byte of the compressed run: the third read takes the
compressed data for the contents. -/
theorem stale_run_misread : construct fives mixedFile 65537 false = .ok mixed ∧ mixed.WellFormed mixedContents ∧
    ∃ st₁ st₂ st₃, mixed.Returns mixed.init 1 0 (st₁, .ok [5]) ∧ mixed.Returns st₁ 1 65536 (st₂, .ok [7]) ∧
      mixed.Returns st₂ 1 1 (st₃, .ok [0]) ∧ slice mixedContents 1 1 = [5] := by
  refine ⟨construct_mixed, mixed_wellFormed, ⟨(3, 65535), some 0, 1, 0, false⟩, ⟨(3, 65536), some 0, 1, 2, true⟩,
    ⟨(3, 65536), some 0, 2, 3, true⟩, ⟨3, fun rounds henough => ?_⟩, ⟨3, fun rounds henough => ?_⟩, ⟨3, fun rounds henough => ?_⟩, ?_⟩
  · obtain ⟨n, rfl⟩ : ∃ n, rounds = n + 3 := ⟨rounds - 3, by omega⟩
    rfl
  · obtain ⟨n, rfl⟩ : ∃ n, rounds = n + 3 := ⟨rounds - 3, by omega⟩
    rfl
  · obtain ⟨n, rfl⟩ : ∃ n, rounds = n + 3 := ⟨rounds - 3, by omega⟩
    rfl
  · rfl

end ZlibReader

end Osxie.Dmg
