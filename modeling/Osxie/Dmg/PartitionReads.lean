import Osxie.Dmg.Partition

/-!
# Reads of a partition

`readRun` zeroes, reads from the disk or decompresses what the request has of one run, and `read` adds up what it returns. A
read is exact when every disk read it makes returns what it was asked for, or nothing at all (`WholeReads`); then each run but the
last is left at its end, and the next one is entered at its beginning. A disk read that returns something else is followed by a
round that enters the same run at its beginning again.
-/

namespace Osxie.Dmg

open List Option Nat Int

/-- The bytes around a buffer, by their distance from its beginning. -/
def Memory : Type := Int → Option UInt8

namespace Memory

def empty : Memory := fun _ => none

def write (m : Memory) (pos : Int) (count : Nat) (bytes : Nat → UInt8) : Memory := fun i =>
  if pos ≤ i ∧ i < pos + count then some (bytes (i - pos).toNat) else m i

theorem write_of_mem (m : Memory) {pos i : Int} {count : Nat} (bytes : Nat → UInt8) (h : pos ≤ i) (h' : i < pos + count) :
    m.write pos count bytes i = some (bytes (i - pos).toNat) := if_pos ⟨h, h'⟩

theorem write_of_lt (m : Memory) {pos i : Int} (count : Nat) (bytes : Nat → UInt8) (h : i < pos) :
    m.write pos count bytes i = m i := if_neg fun hc => absurd hc.1 (by omega)

end Memory

/-- A disk reader: its contents, and what its calls return. It never returns more than it was asked for. -/
structure Disk where
  byte : Nat → UInt8
  returns : (call count offset : Nat) → Int
  returns_le : ∀ call count offset, returns call count offset ≤ count

def Disk.Full (d : Disk) : Prop := ∀ call count offset, d.returns call count offset = count

/-- A partition: its table, its disk, what the decompressor of a run returns and writes for a count and an offset, and whether the
program was compiled with LZFSE. -/
structure Partition where
  table : Table
  disk : Disk
  decompress : (runIndex count offset : Nat) → Int × (Nat → UInt8)
  withLzfse : Bool

namespace Partition

variable (p : Partition)

/-- The last part of `readRun`, for a run that is compressed. -/
def readCompressed (r : Run) (runIndex : Nat) (buf : Memory) (pos : Int) (offsetInSector count : Nat) :
    Except String (Int × Memory) :=
  let compLength := u64 (r.sectorCount * sectorSize)
  if compLength < offsetInSector then .ok (0, buf)
  else
    let count := if compLength < u64 (offsetInSector + count) then compLength - offsetInSector else count
    let dec := p.decompress runIndex count offsetInSector
    if dec.1 < count then .error "Error decompressing stream" else .ok (count, buf.write pos count dec.2)

def readRun (call runIndex : Nat) (buf : Memory) (pos : Int) (offsetInSector count : Nat) :
    Except String (Int × Memory) :=
  match p.table.runs[runIndex]? with
  | none => .ok (0, buf)
  | some r =>
    let count := min count (u64Sub (u64 (r.sectorCount * sectorSize)) offsetInSector)
    match r.type with
    | .unknown | .zeroFill => .ok (count, buf.write pos count (fun _ => 0))
    | .raw =>
      let offset := u64 (r.compOffset + p.table.dataStart + offsetInSector)
      let n := p.disk.returns call count offset
      .ok (n, buf.write pos n.toNat (fun k => p.disk.byte (u64 (offset + k))))
    | .lzfse =>
      if p.withLzfse then p.readCompressed r runIndex buf pos offsetInSector count else .error "LZFSE is not yet supported"
    | .zlib | .bzip2 | .adc => p.readCompressed r runIndex buf pos offsetInSector count
    | _ => .ok (0, buf)

/-- The loop of `DMGPartition::read`. -/
def readFrom (p : Partition) (count offset : Nat) : Nat → Nat → Int → Memory → Option (Except String (Int × Memory))
  | 0, _, _, _ => none
  | n + 1, call, done, buf =>
    if done < count then
      let pos := ((offset + done) % 2 ^ 64).toNat
      if p.table.length ≤ pos then some (.ok (done, buf))
      else
        match p.table.sectors.upTo (pos / sectorSize) with
        | none => some (.error "Invalid run sector data")
        | some (start, i) =>
          -- only the first round looks where in the run it is
          let offsetInSector := if done = 0 then u64Sub offset (u64 (start * sectorSize)) else 0
          match p.readRun call i buf done offsetInSector (count - done).toNat with
          | .error e => some (.error e)
          | .ok (thistime, buf) =>
            if thistime = 0 then some (.error "Unexpected EOF from readRun")
            else p.readFrom count offset n (call + 1) (done + thistime) buf
    else some (.ok (done, buf))

/-- `DMGPartition::read`, in at most so many rounds. -/
def read (rounds count offset : Nat) : Option (Except String (Int × Memory)) :=
  p.readFrom count offset rounds 0 0 .empty

/-! ## What a partition holds -/

variable (contents : Nat → Nat → UInt8)

/-- A byte of a run, where `contents` are the bytes of the compressed ones. -/
def runByte (r : Run) (i k : Nat) : UInt8 :=
  match r.type with
  | .unknown | .zeroFill => 0
  | .raw => p.disk.byte (u64 (r.compOffset + p.table.dataStart + k))
  | _ => contents i k

/-- A byte of the partition: that of the run which has its sector. -/
def contentAt (pos : Nat) : Option UInt8 :=
  (p.table.runs.zipIdx.find? (fun e => decide (e.1.HasData ∧ e.1.Contains (pos / sectorSize)))).map
    (fun e => p.runByte contents e.1 e.2 (pos - e.1.sectorStart * sectorSize))

/-- The decompressors are exact: a decompressor writes the bytes of its run that it is asked for. -/
def DecompressExact : Prop :=
  ∀ (i : Nat) (r : Run), p.table.runs[i]? = some r → ∀ count offset, offset + count ≤ r.sectorCount * sectorSize →
    p.decompress i count offset = ((count : Int), fun k => contents i (offset + k))

/-- The run is of a kind that can be read. -/
def Readable (r : Run) : Prop := (∀ code, r.type ≠ .other code) ∧ (r.type = .lzfse → p.withLzfse = true)

/-- Every run with data is of a kind that can be read. -/
def Supported : Prop := ∀ r ∈ p.table.runs, r.HasData → p.Readable r

def available (count offset : Nat) : Nat := min count (p.table.length - offset)

/-! ## The disk reads of a request -/

/-- Where in a run a round begins that has so much done, and how much of the run it reads. -/
def within (r : Run) (offset done : Nat) : Nat := offset + done - r.sectorStart * sectorSize

def portion (r : Run) (count offset done : Nat) : Nat :=
  min (count - done) (r.sectorCount * sectorSize - within r offset done)

/-- What the disk returns to a round in a raw run. -/
def diskReturns (r : Run) (count offset call done : Nat) : Int :=
  p.disk.returns call (portion r count offset done) (u64 (r.compOffset + p.table.dataStart + within r offset done))

/-- The run is the one with the position where a round begins that has so much done. -/
structure Enters (r : Run) (count offset done : Nat) : Prop where
  mem : r ∈ p.table.runs
  data : r.HasData
  lt : done < count
  inside : offset + done < p.table.length
  has : r.Contains ((offset + done) / sectorSize)

/-- A round of a request, by its number and how much is done, after rounds that each read all they asked for. -/
inductive Round (p : Partition) (count offset : Nat) : Nat → Nat → Prop where
  | first : Round p count offset 0 0
  | next {r : Run} {call done : Nat} : Round p count offset call done → p.Enters r count offset done → p.Readable r →
      (r.type = .raw → p.diskReturns r count offset call done = portion r count offset done) →
      Round p count offset (call + 1) (done + portion r count offset done)

/-- Every disk read that the request makes returns all it was asked for, or nothing, which ends the request. -/
def WholeReads (count offset : Nat) : Prop :=
  ∀ r call done, p.Round count offset call done → p.Enters r count offset done → r.type = .raw →
    p.diskReturns r count offset call done = portion r count offset done ∨ p.diskReturns r count offset call done = 0

/-- A read is exact or fails: what it returns without throwing is no more than there is and the bytes are those of the partition;
and it is all there is when the disk reader never returns short counts. -/
structure ExactOrFails (p : Partition) (contents : Nat → Nat → UInt8) (count offset : Nat) : Prop where
  exact : ∀ rounds n buf, p.read rounds count offset = some (.ok (n, buf)) → 0 ≤ n → n ≤ p.available count offset ∧
    ∀ k : Nat, (k : Int) < n → buf k = p.contentAt contents (offset + k)
  all : p.disk.Full → ∀ rounds n buf, p.read rounds count offset = some (.ok (n, buf)) → n = p.available count offset

end Partition

namespace Partition

variable {p : Partition} {contents : Nat → Nat → UInt8}

/-! ## One run -/

variable {i : Nat} {r : Run}

section

variable (hdec : p.DecompressExact contents)

include hdec

/-- A compressed run is read exactly. -/
theorem readCompressed_eq (hi : p.table.runs[i]? = some r) (hlen : r.sectorCount * sectorSize < 2 ^ 64) (buf : Memory)
    (pos : Int) {o c : Nat} (hc : o + c ≤ r.sectorCount * sectorSize) :
    p.readCompressed r i buf pos o c = .ok (c, buf.write pos c (fun k => contents i (o + k))) := by
  have hl : u64 (r.sectorCount * sectorSize) = r.sectorCount * sectorSize := mod_eq_of_lt hlen
  have hoc : u64 (o + c) = o + c := mod_eq_of_lt (by omega)
  simp only [readCompressed, hl, hoc, if_neg (not_lt.2 hc), if_neg (not_lt.2 (le_trans (le_add_right o c) hc)),
    hdec i r hi c o hc]
  exact if_neg (lt_irrefl _)

/-- What `readRun` does for a position in a run, if the disk returns all it is asked for, or nothing: it reads what there is of the
run, or throws or returns nothing. It does read when the disk returns all and the run is of a kind that can be read. -/
theorem readRun_cases (hi : p.table.runs[i]? = some r) (hd : r.HasData) (hlen : r.sectorCount * sectorSize < 2 ^ 64) (call : Nat)
    (buf : Memory) (pos : Int) {o count : Nat} (ho : o < r.sectorCount * sectorSize) (hpos : 0 < count) {n : Int}
    (hn : n = p.disk.returns call (min count (r.sectorCount * sectorSize - o)) (u64 (r.compOffset + p.table.dataStart + o)))
    (hdisk : r.type = .raw → n = (min count (r.sectorCount * sectorSize - o) : Nat) ∨ n = 0) :
    p.readRun call i buf pos o count = .ok ((min count (r.sectorCount * sectorSize - o) : Nat),
        buf.write pos (min count (r.sectorCount * sectorSize - o)) (fun k => p.runByte contents r i (o + k))) ∧
        p.Readable r ∧ (r.type = .raw → n = (min count (r.sectorCount * sectorSize - o) : Nat)) ∨
      ((∃ e, p.readRun call i buf pos o count = .error e) ∨ ∃ buf', p.readRun call i buf pos o count = .ok (0, buf')) ∧
        (p.disk.Full → ¬p.Supported) := by
  have hl : u64 (r.sectorCount * sectorSize) = r.sectorCount * sectorSize := mod_eq_of_lt hlen
  have hcou : u64Sub (u64 (r.sectorCount * sectorSize)) o = r.sectorCount * sectorSize - o := by
    rw [hl]
    exact u64Sub_of_le (by omega) hlen
  have hcp := readCompressed_eq hdec hi hlen buf pos (o := o) (c := min count (r.sectorCount * sectorSize - o)) (by omega)
  have hmem := mem_of_getElem? hi
  unfold readRun runByte Readable
  simp only [hi, hcou]
  cases ht : r.type with
  | zeroFill | unknown => exact .inl ⟨rfl, ⟨nofun, nofun⟩, nofun⟩
  | raw =>
    simp only [← hn]
    rcases hdisk ht with hall | hnone
    · refine .inl ⟨?_, ⟨nofun, nofun⟩, fun _ => hall⟩
      rw [hall, toNat_natCast]
      have hwrap : ∀ k, u64 (u64 (r.compOffset + p.table.dataStart + o) + k) =
        u64 (r.compOffset + p.table.dataStart + (o + k)) := by
        intro k
        rw [u64, u64, u64, mod_add_mod, add_assoc _ o k]
      simp only [hwrap]
    · refine .inr ⟨.inr ⟨_, by rw [hnone]⟩, fun hfu => ?_⟩
      rw [hfu] at hn
      omega
  | adc | zlib | bzip2 => exact .inl ⟨hcp, ⟨nofun, nofun⟩, nofun⟩
  | lzfse =>
    dsimp only
    split
    · rename_i hwith
      exact .inl ⟨hcp, ⟨nofun, fun _ => hwith⟩, nofun⟩
    · rename_i hwith
      exact .inr ⟨.inl ⟨_, rfl⟩, fun _ hsup => hwith ((hsup r hmem hd).2 ht)⟩
  | comment => exact absurd ht hd.1
  | terminator => exact absurd ht hd.2
  | other code => exact .inr ⟨.inr ⟨_, rfl⟩, fun _ hsup => (hsup r hmem hd).1 code ht⟩

end

/-- The byte of the partition at a position in a run. -/
theorem contentAt_eq (ht : p.table.Tiles) (hi : p.table.runs[i]? = some r) (hd : r.HasData) {pos : Nat}
    (hc : r.Contains (pos / sectorSize)) :
    p.contentAt contents pos = some (p.runByte contents r i (pos - r.sectorStart * sectorSize)) := by
  unfold contentAt
  cases hf : p.table.runs.zipIdx.find? (fun e => decide (e.1.HasData ∧ e.1.Contains (pos / sectorSize))) with
  | none =>
    have := find?_eq_none.1 hf (r, i) (mk_mem_zipIdx_iff_getElem?.2 hi)
    simp [hd, hc] at this
  | some e =>
    have hmem : p.table.runs[e.2]? = some e.1 := mk_mem_zipIdx_iff_getElem?.1 (mem_of_find?_eq_some hf)
    have hfound := find?_some hf
    obtain ⟨hd', hc'⟩ : e.1.HasData ∧ e.1.Contains (pos / sectorSize) := by simpa using hfound
    have hij := ht.disjoint i e.2 r e.1 _ hi hd hc hmem hd' hc'
    have hr : e.1 = r := by
      rw [← hij, hi] at hmem
      exact (some.inj hmem).symm
    rw [map_some, hr, ← hij]

/-! ## The loop -/

/-- Where an exact read stands after some rounds: what is done is right, and it ends with the request or with a run. -/
structure At (p : Partition) (contents : Nat → Nat → UInt8) (count offset done : Nat) (buf : Memory) : Prop where
  le : done ≤ p.available count offset
  bytes : ∀ k : Nat, k < done → buf k = p.contentAt contents (offset + k)
  boundary : done = 0 ∨ done = p.available count offset ∨ ∃ (i : Nat) (r : Run), p.table.runs[i]? = some r ∧ r.HasData ∧
    offset + done = (r.sectorStart + r.sectorCount) * sectorSize

/-- The run that a round reads: the one that has the position, entered where the position is. -/
theorem At.run {count offset done : Nat} {buf : Memory} (ht : p.table.Tiles) (h : p.At contents count offset done buf)
    (hlt : done < count) (hin : offset + done < p.table.length) :
    ∃ (i : Nat) (r : Run) (o : Nat), p.table.runs[i]? = some r ∧ r.HasData ∧ offset + done = r.sectorStart * sectorSize + o ∧
      o < r.sectorCount * sectorSize ∧ p.table.sectors.upTo ((offset + done) / sectorSize) = some (r.sectorStart, i) ∧
      (if done = 0 then u64Sub offset (u64 (r.sectorStart * sectorSize)) else 0) = o := by
  have hlen := ht.length_eq
  have hfit := ht.length_lt
  obtain ⟨i, r, hi, hd, hc⟩ := ht.covered ((offset + done) / sectorSize) (Nat.div_lt_of_lt_mul (by rwa [Nat.mul_comm, ← hlen]))
  have hc' := hc
  simp only [Run.Contains, sectorSize] at hc' hlen hfit
  have hins := ht.inside r (mem_of_getElem? hi) hd
  refine ⟨i, r, offset + done - r.sectorStart * sectorSize, hi, hd, ?_, ?_, ht.upTo_sectors hi hd hc, ?_⟩
  · simp only [sectorSize]
    omega
  · simp only [sectorSize]
    omega
  · by_cases hze : done = 0
    · subst hze
      have hs : r.sectorStart * sectorSize < 2 ^ 64 :=
        lt_of_le_of_lt (mul_le_mul_right _ (le_trans (le_add_right _ _) hins.2)) ht.length_lt
      rw [if_pos rfl, u64, mod_eq_of_lt hs]
      refine u64Sub_of_le ?_ ?_
      · simp only [sectorSize]
        omega
      · omega
    · rw [if_neg hze]
      rcases h.boundary with h0 | hall | ⟨j, r', hj, hd', hend⟩
      · exact absurd h0 hze
      · -- all is done, so the loop is over
        unfold available at hall
        omega
      · have hsec : (offset + done) / sectorSize = r'.sectorStart + r'.sectorCount := by
          rw [hend]
          exact Nat.mul_div_cancel _ (by decide)
        have hsta := ht.start_of_end hj hd' hi hd (hsec ▸ hc)
        simp only [sectorSize] at hend ⊢
        omega

/-- A round that reads what there is of a run. -/
theorem At.advance {count offset done : Nat} {buf : Memory} (ht : p.table.Tiles) (h : p.At contents count offset done buf)
    {o : Nat} (hi : p.table.runs[i]? = some r) (hd : r.HasData) (hpos : offset + done = r.sectorStart * sectorSize + o)
    (ho : o < r.sectorCount * sectorSize) (hlt : done < count) :
    p.At contents count offset (done + min (count - done) (r.sectorCount * sectorSize - o))
      (buf.write done (min (count - done) (r.sectorCount * sectorSize - o)) (fun k => p.runByte contents r i (o + k))) := by
  have hins := (ht.inside r (mem_of_getElem? hi) hd).2
  have hlen := ht.length_eq
  have hend : (r.sectorStart + r.sectorCount) * sectorSize = r.sectorStart * sectorSize + r.sectorCount * sectorSize :=
    add_mul _ _ _
  have hle : (r.sectorStart + r.sectorCount) * sectorSize ≤ p.table.length := by
    rw [hlen]
    exact mul_le_mul_right _ hins
  generalize hc : min (count - done) (r.sectorCount * sectorSize - o) = c
  have hcle : done + c ≤ p.available count offset := by
    unfold available
    omega
  refine ⟨hcle, fun k hk => ?_, ?_⟩
  · by_cases hkd : k < done
    · rw [Memory.write_of_lt _ _ _ (by omega)]
      exact h.bytes k hkd
    · have hcont : r.Contains ((offset + k) / sectorSize) := by
        simp only [Run.Contains, sectorSize] at *
        omega
      rw [Memory.write_of_mem _ _ (by omega) (by omega), contentAt_eq ht hi hd hcont,
        show ((k : Int) - (done : Int)).toNat = k - done by omega,
        show offset + k - r.sectorStart * sectorSize = o + (k - done) by omega]
  · by_cases hall : count - done ≤ r.sectorCount * sectorSize - o
    · right
      unfold available at hcle ⊢
      omega
    · exact .inr (.inr ⟨i, r, hi, hd, by omega⟩)

/-- What an exact read comes to: an exception, or all the bytes there are. -/
def Settles (p : Partition) (contents : Nat → Nat → UInt8) (count offset : Nat) (res : Except String (Int × Memory)) : Prop :=
  (∃ e, res = .error e) ∨ ∃ buf, res = .ok ((p.available count offset : Nat), buf) ∧
    ∀ k : Nat, k < p.available count offset → buf k = p.contentAt contents (offset + k)

/-- The loop goes on from a point of an exact read to an end of one, in as many rounds as bytes are missing. -/
theorem readFrom_settles (ht : p.table.Tiles) (hdec : p.DecompressExact contents) {count offset : Nat}
    (hdisk : p.WholeReads count offset) (hoff : offset < 2 ^ 64) : ∀ n call done buf, p.At contents count offset done buf →
      p.Round count offset call done →
      (∀ res, p.readFrom count offset n call done buf = some res → p.Settles contents count offset res) ∧
      (count - done < n → ∃ res, p.readFrom count offset n call done buf = some res) ∧
      (p.disk.Full → p.Supported → ∀ e, p.readFrom count offset n call done buf ≠ some (.error e)) := by
  intro n
  induction n with
  | zero =>
    intro call done buf _ _
    refine ⟨fun res h => ?_, fun h => by omega, fun _ _ e h => ?_⟩
    · cases h
    · cases h
  | succ n ih =>
    intro call done buf hat hround
    have hfit := ht.length_lt
    have hlen := ht.length_eq
    have hstop : p.available count offset = done → ∀ res, some (.ok ((done : Int), buf)) = some res →
        p.Settles contents count offset res := by
      intro hd res h
      rw [← some.inj h]
      exact .inr ⟨buf, by rw [hd], fun k hk => hat.bytes k (by omega)⟩
    unfold readFrom
    by_cases hlt : (done : Int) < count
    · rw [if_pos hlt]
      by_cases hin : offset + done < p.table.length
      · -- one run is read
        have hpos : (((offset : Int) + (done : Int)) % 2 ^ 64).toNat = offset + done := by omega
        obtain ⟨i, r, o, hi, hd, hat', ho, hup, hoff'⟩ := hat.run ht (by omega) hin
        have hins := ht.inside r (mem_of_getElem? hi) hd
        have hrlen : r.sectorCount * sectorSize < 2 ^ 64 := lt_of_le_of_lt (mul_le_mul_right _ (by omega)) hfit
        have hdn : ((done : Int) = 0) ↔ (done = 0) := by omega
        have hcount : ((count : Int) - (done : Int)).toNat = count - done := by omega
        simp only [hpos, if_neg (not_le.2 hin), hup, hdn, hoff', hcount]
        have hwithin : within r offset done = o := Nat.sub_eq_of_eq_add (hat'.trans (add_comm _ _))
        have henters : p.Enters r count offset done := by
          refine ⟨mem_of_getElem? hi, hd, by omega, hin, ?_⟩
          simp only [Run.Contains, sectorSize] at hat' ho ⊢
          omega
        have hreads := hdisk r call done hround henters
        have hnext := Round.next hround henters
        simp only [diskReturns, portion, hwithin] at hreads hnext
        rcases readRun_cases hdec hi hd hrlen call buf done ho (show 0 < count - done by omega) rfl hreads with
          ⟨hok, hreadable, hall⟩ | ⟨hfail, hunsupported⟩
        · have hnx := hat.advance ht hi hd hat' ho (by omega)
          replace hnext := hnext hreadable hall
          generalize hc : min (count - done) (r.sectorCount * sectorSize - o) = c at hok hnx hnext
          rw [hok]
          simp only [if_neg (show ¬ ((c : Nat) : Int) = 0 by omega)]
          obtain ⟨h1, h2, h3⟩ := ih (call + 1) (done + c) _ hnx hnext
          exact ⟨h1, fun h => h2 (by omega), h3⟩
        · -- the exception of the run, or that of the loop
          rcases hfail with ⟨e, he⟩ | ⟨b, he⟩
          all_goals
            rw [he]
            exact ⟨fun res h => .inl ⟨_, (some.inj h).symm⟩, fun _ => ⟨_, rfl⟩, fun hfu hsup => absurd hsup (hunsupported hfu)⟩
      · have hpos : p.table.length ≤ (((offset : Int) + (done : Int)) % 2 ^ 64).toNat := by
          have := hat.le
          unfold available at this
          omega
        simp only [if_pos hpos]
        refine ⟨hstop ?_, fun _ => ⟨_, rfl⟩, fun _ _ e h => nomatch some.inj h⟩
        have := hat.le
        unfold available at this ⊢
        omega
    · rw [if_neg hlt]
      refine ⟨hstop ?_, fun _ => ⟨_, rfl⟩, fun _ _ e h => nomatch some.inj h⟩
      have := hat.le
      unfold available at this ⊢
      omega

theorem at_zero (p : Partition) (contents : Nat → Nat → UInt8) (count offset : Nat) : p.At contents count offset 0 .empty :=
  ⟨zero_le _, fun _ hk => absurd hk (not_lt_zero _), .inl rfl⟩

/-- A read of a partition whose runs tile it is exact or fails, if each of its disk reads returns all it was asked for, or nothing.
It comes to an end; and when all runs are of kinds that can be read and the disk reader returns all, it does not fail. -/
theorem read_exact_of_wholeReads (p : Partition) (contents : Nat → Nat → UInt8) (ht : p.table.Tiles)
    (hdec : p.DecompressExact contents) (count offset : Nat) (hdisk : p.WholeReads count offset) (hoff : offset < 2 ^ 64) :
    p.ExactOrFails contents count offset ∧ (∃ res, p.read (count + 1) count offset = some res) ∧
      (p.disk.Full → p.Supported → ∃ buf, p.read (count + 1) count offset =
        some (.ok ((p.available count offset : Nat), buf))) := by
  have hrun := fun n => readFrom_settles ht hdec hdisk hoff n 0 0 .empty (at_zero p contents count offset) .first
  have hok : ∀ rounds n buf, p.read rounds count offset = some (.ok (n, buf)) → n = (p.available count offset : Nat) ∧
      ∀ k : Nat, k < p.available count offset → buf k = p.contentAt contents (offset + k) := by
    intro rounds n buf h
    rcases (hrun rounds).1 _ h with ⟨e, he⟩ | ⟨buf', hb, hby⟩
    · cases he
    · obtain ⟨rfl, rfl⟩ := Prod.mk.inj (Except.ok.inj hb)
      exact ⟨rfl, hby⟩
  refine ⟨⟨fun rounds n buf h _ => ?_, fun _ rounds n buf h => (hok rounds n buf h).1⟩, (hrun (count + 1)).2.1 (by omega), ?_⟩
  · obtain ⟨rfl, hby⟩ := hok rounds n buf h
    exact ⟨le_refl _, fun k hk => hby k (by omega)⟩
  · intro hfu hsup
    obtain ⟨res, hres⟩ := (hrun (count + 1)).2.1 (by omega)
    cases res with
    | error e => exact absurd hres ((hrun (count + 1)).2.2 hfu hsup e)
    | ok r => exact ⟨r.2, by rw [show p.read _ _ _ = _ from hres, ← (hok _ r.1 r.2 hres).1]⟩

/-- A disk whose bytes count up, and that returns at most one byte in its first call. -/
def shortFirst : Disk where
  byte := fun n => UInt8.ofNat n
  returns := fun call count _ => if call = 0 then (min 1 count : Nat) else count
  returns_le := fun call count _ => by
    split <;> omega

def oneRawTable : Table := ⟨1, 0, [⟨.raw, 0, 1, 0⟩]⟩

theorem oneRawTable_tiles : oneRawTable.Tiles where
  length_lt := by decide
  inside := by decide
  covered := fun s hs => ⟨0, _, rfl, by decide, zero_le s, hs⟩
  disjoint := fun i j r r' s hi _ _ hj _ _ => by
    obtain ⟨hi', -⟩ := List.getElem?_eq_some_iff.1 hi
    obtain ⟨hj', -⟩ := List.getElem?_eq_some_iff.1 hj
    have : oneRawTable.runs.length = 1 := rfl
    omega

def oneRaw (disk : Disk) : Partition := ⟨oneRawTable, disk, fun _ count _ => (count, fun _ => 0), false⟩

/-- A disk whose bytes count up, and that returns all it is asked for in its first call, and one byte afterwards. -/
def shortLater : Disk where
  byte := fun n => UInt8.ofNat n
  returns := fun call count _ => if call = 0 then count else (min 1 count : Nat)
  returns_le := fun call count _ => by
    split <;> omega

/-- A request within the sector makes one round. -/
theorem oneRaw_round {disk : Disk} {count offset call done : Nat} (hfit : offset + count ≤ sectorSize)
    (h : (oneRaw disk).Round count offset call done) : call = 0 ∧ done = 0 ∨ count ≤ done := by
  cases h with
  | first => exact .inl ⟨rfl, rfl⟩
  | next _ henters =>
    obtain rfl := mem_singleton.1 henters.mem
    right
    simp only [portion, within, sectorSize] at hfit ⊢
    omega

/-- Five bytes of the sector, from the third on, with one disk read: those that would come after it are short. -/
theorem read_exact_of_wholeReads_oneRaw : ((oneRaw shortLater).read 6 5 2).map (fun res => res.toOption.map Prod.fst) =
      some (some 5) ∧ (oneRaw shortLater).ExactOrFails (fun _ _ => 0) 5 2 := by
  refine ⟨by decide +kernel, (read_exact_of_wholeReads (oneRaw shortLater) (fun _ _ => 0) oneRawTable_tiles
    (fun _ _ _ _ _ _ => rfl) 5 2 (fun r call done hround henters _ => ?_) (by decide)).1⟩
  rcases oneRaw_round (by decide) hround with ⟨rfl, rfl⟩ | hge
  · exact .inl rfl
  · exact absurd henters.lt (not_lt.2 hge)

/-- Two bytes of the sector are read, on a disk that returns one at first: the second byte is that of the sector's beginning. -/
theorem read_short_repeats : ∃ (p : Partition) (contents : Nat → Nat → UInt8) (count offset : Nat), p.table.Tiles ∧
    p.DecompressExact contents ∧ ¬ p.ExactOrFails contents count offset := by
  refine ⟨oneRaw shortFirst, fun _ _ => 0, 2, 0, oneRawTable_tiles, fun _ _ _ _ _ _ => rfl, fun h => ?_⟩
  have hrd : ((oneRaw shortFirst).read 3 2 0).map (fun res => res.toOption.map fun x => (x.1, x.2 1)) =
      some (some (2, some 0)) := by decide +kernel
  obtain ⟨res, hres, hx⟩ := map_eq_some_iff.1 hrd
  cases res with
  | error e => cases hx
  | ok x =>
    obtain ⟨hn, hbytes⟩ := Prod.mk.inj (some.inj hx)
    have hexact := (h.exact 3 x.1 x.2 hres (by omega)).2 1 (by omega)
    exact absurd (hbytes.symm.trans hexact) (by decide)

end Partition

end Osxie.Dmg
