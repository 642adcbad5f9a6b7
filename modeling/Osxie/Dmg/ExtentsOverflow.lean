import Osxie.Dmg.BTreeSearch

/-!
# The extents overflow tree

The extents of a file beyond the eighth are in records of the extents overflow tree, under the file, the fork and the first
block. The keys are ordered by file, then fork, then block; `cnidComparator` compares the fork first. `findExtentsForFile` takes
the records of a file and a fork from a block on.
-/

namespace Osxie.Dmg

open List Option BTree

structure ExtentKey where
  forkType : Nat
  fileID : Nat
  startBlock : Nat
deriving DecidableEq

namespace ExtentKey

/-- The order of the keys on disk. -/
instance : LE ExtentKey where
  le a b := a.fileID < b.fileID ∨
    a.fileID = b.fileID ∧ (a.forkType < b.forkType ∨ a.forkType = b.forkType ∧ a.startBlock ≤ b.startBlock)

instance (a b : ExtentKey) : Decidable (a ≤ b) := inferInstanceAs (Decidable (_ ∨ _))

end ExtentKey

/-- `HFSPlusExtentDescriptor`. -/
structure Extent where
  startBlock : Nat
  blockCount : Nat
deriving DecidableEq

namespace Extents

/-- The extents overflow tree; a record has eight descriptors. -/
abbrev Tree := BTree ExtentKey (List Extent)

abbrev Record := ExtentKey × Payload (List Extent)

def cnidComparator : KeyComparator ExtentKey := fun indexKey desiredKey =>
  if desiredKey.forkType < indexKey.forkType then 1
  else if indexKey.forkType < desiredKey.forkType then -1
  else if desiredKey.fileID < indexKey.fileID then 1
  else if indexKey.fileID < desiredKey.fileID then -1
  else 0

def forkTypeOf (resourceFork : Bool) : Nat := if resourceFork then 0xff else 0

/-- The descriptors of a record that are in use: up to eight, and before the first that has no blocks. -/
def inUse (r : Record) : List Extent :=
  match r.2 with
  | .value extents => (extents.take 8).takeWhile (fun e => decide (e.blockCount ≠ 0))
  | .child _ => []

/-- The loops of `findExtentsForFile` over the records of the leaves. -/
def collect (forkType cnid startBlock : Nat) : List Record → Bool → List Extent → Except String (List Extent)
  | [], _, extra => .ok extra
  | r :: rs, first, extra =>
    if r.1.forkType ≠ forkType ∨ r.1.fileID ≠ cnid then collect forkType cnid startBlock rs first extra
    else if r.1.startBlock < startBlock then collect forkType cnid startBlock rs first extra
    else if first = true ∧ r.1.startBlock ≠ startBlock then .error "Unexpected startBlock value"
    else collect forkType cnid startBlock rs false (extra ++ inUse r)

def findExtentsForFile (t : Tree) (cnid : Nat) (resourceFork : Bool) (startBlock : Nat) (extraExtents : List Extent)
    (rounds : Nat) :
    Option (Except String (List Extent)) :=
  match t.findLeafNodes cnidComparator ⟨forkTypeOf resourceFork, cnid, 0⟩ rounds with
  | none => none
  | some (.error e) => some (.error e)
  | some (.ok leaves) =>
    some (collect (forkTypeOf resourceFork) cnid startBlock (leaves.flatMap Node.records) true extraExtents)

/-! ## What is to be found -/

/-- The tree is well formed, and has records of the two forks. -/
structure WellFormed (t : Tree) (leaves : List (Nat × Node ExtentKey (List Extent))) : Prop where
  tree : t.WellFormed leaves
  forks : ∀ k ∈ keysOf leaves, k.forkType = 0 ∨ k.forkType = 0xff

/-- A record is one of a fork, from a block on. -/
def Belongs (forkType cnid startBlock : Nat) (r : Record) : Prop :=
  r.1.forkType = forkType ∧ r.1.fileID = cnid ∧ startBlock ≤ r.1.startBlock

instance (forkType cnid startBlock : Nat) (r : Record) : Decidable (Belongs forkType cnid startBlock r) :=
  inferInstanceAs (Decidable (_ ∧ _))

def belonging (forkType cnid startBlock : Nat) (records : List Record) : List Record :=
  records.filter (fun r => decide (Belongs forkType cnid startBlock r))

/-- All extents of a fork from a block on are appended, in ascending order of the start blocks of their records, and nothing
else. -/
def AllFound (t : Tree) (leaves : List (Nat × Node ExtentKey (List Extent))) (cnid : Nat) (resourceFork : Bool) (startBlock : Nat)
    (extra : List Extent) : Prop :=
  (belonging (forkTypeOf resourceFork) cnid startBlock (recordsOf leaves)).Pairwise
    (fun a b => a.1.startBlock ≤ b.1.startBlock) ∧
  ∃ enough, ∀ rounds ≥ enough, findExtentsForFile t cnid resourceFork startBlock extra rounds =
    some (.ok (extra ++ (belonging (forkTypeOf resourceFork) cnid startBlock (recordsOf leaves)).flatMap inUse))

/-- For a data fork: no resource-fork record of an earlier file, unless it is the first record of all. For a resource fork: no
data-fork record of a later file. -/
def Unmixed (keys : List ExtentKey) (cnid : Nat) (resourceFork : Bool) : Prop :=
  if resourceFork then ∀ k ∈ keys, cnid < k.fileID → k.forkType = 0xff else ∀ k ∈ keys.tail, k.fileID < cnid → k.forkType = 0

/-! ## The search -/

variable {t : Tree} {leaves : List (Nat × Node ExtentKey (List Extent))} {cnid : Nat} {resourceFork : Bool}

variable {k d : ExtentKey}

theorem cnidComparator_eq_zero : cnidComparator k d = 0 ↔ k.forkType = d.forkType ∧ k.fileID = d.fileID := by
  unfold cnidComparator
  constructor
  · intro h
    split_ifs at h <;> omega
  · rintro ⟨hfork, hfl⟩
    simp [hfork, hfl]

theorem cnidComparator_nonneg :
    0 ≤ cnidComparator k d ↔ d.forkType < k.forkType ∨ k.forkType = d.forkType ∧ d.fileID ≤ k.fileID := by
  unfold cnidComparator
  split_ifs <;> omega

theorem cnidComparator_pos :
    0 < cnidComparator k d ↔ d.forkType < k.forkType ∨ k.forkType = d.forkType ∧ d.fileID < k.fileID := by
  unfold cnidComparator
  split_ifs <;> omega

/-- Where the forks are not mixed the keys of the fork can be gathered. -/
theorem gathers_of_unmixed {keys : List ExtentKey} (hasc : keys.Pairwise (· ≤ ·))
    (hfr : ∀ k ∈ keys, k.forkType = 0 ∨ k.forkType = 0xff)
    (h : Unmixed keys cnid resourceFork) : BTree.Gathers cnidComparator ⟨forkTypeOf resourceFork, cnid, 0⟩ keys := by
  constructor
  · refine hasc.imp_of_mem fun {a b} ha hb hle hze => ?_
    rw [cnidComparator_eq_zero] at hze
    rw [cnidComparator_nonneg]
    simp only [LE.le] at hle
    cases resourceFork with
    | false =>
      simp only [forkTypeOf, Bool.false_eq_true, if_false] at hze ⊢
      omega
    | true =>
      have hub : cnid < b.fileID → b.forkType = 0xff := h b hb
      simp only [forkTypeOf, if_true] at hze ⊢
      omega
  · refine (hasc.sublist (tail_sublist _)).imp_of_mem fun {a b} ha hb hle hpos hze => ?_
    have hfa := hfr a (mem_of_mem_tail ha)
    rw [cnidComparator_pos] at hpos
    rw [cnidComparator_eq_zero] at hze
    simp only [LE.le] at hle
    cases resourceFork with
    | false =>
      have hua : a.fileID < cnid → a.forkType = 0 := h a ha
      simp only [forkTypeOf, Bool.false_eq_true, if_false] at hpos hze
      omega
    | true =>
      simp only [forkTypeOf, if_true] at hpos hze
      omega

variable {r : Record} {records : List Record}

/-- The comparator is zero at the records of the fork. -/
theorem comparator_of_belongs {forkType startBlock : Nat} (h : Belongs forkType cnid startBlock r) :
    cnidComparator r.1 ⟨forkType, cnid, 0⟩ = 0 := by
  obtain ⟨hfork, hfl, -⟩ := h
  exact cnidComparator_eq_zero.2 ⟨hfork, hfl⟩

/-! ## The records -/

variable {forkType startBlock : Nat}

/-- A record of something else is passed. -/
theorem collect_of_not_belongs (h : ¬Belongs forkType cnid startBlock r) (rs : List Record) (first : Bool) (extra : List Extent) :
    collect forkType cnid startBlock (r :: rs) first extra = collect forkType cnid startBlock rs first extra := by
  rw [collect]
  by_cases hoth : r.1.forkType ≠ forkType ∨ r.1.fileID ≠ cnid
  · rw [if_pos hoth]
  · have hbef : r.1.startBlock < startBlock := by
      unfold Belongs at h
      omega
    rw [if_neg hoth, if_pos hbef]

/-- A record of the fork is appended, if it is not the first or begins where the search is to begin. -/
theorem collect_of_belongs (h : Belongs forkType cnid startBlock r) {first : Bool}
    (hfirst : first = true → r.1.startBlock = startBlock) (rs : List Record) (extra : List Extent) :
    collect forkType cnid startBlock (r :: rs) first extra = collect forkType cnid startBlock rs false (extra ++ inUse r) := by
  obtain ⟨hfork, hfl, hsta⟩ := h
  rw [collect, if_neg (by simp [hfork, hfl]), if_neg (Nat.not_lt.2 hsta), if_neg (fun hc => hc.2 (hfirst hc.1))]

/-- After the first record the ones of the fork are appended and the others passed. -/
theorem collect_rest (records : List Record) (extra : List Extent) :
    collect forkType cnid startBlock records false extra =
      .ok (extra ++ (belonging forkType cnid startBlock records).flatMap inUse) := by
  induction records generalizing extra with
  | nil => simp [collect, belonging]
  | cons r rs ih =>
    rw [belonging, filter_cons]
    by_cases hbel : Belongs forkType cnid startBlock r
    · rw [collect_of_belongs hbel (by nofun), ih, if_pos (by simpa using hbel), append_assoc]
      rfl
    · rw [collect_of_not_belongs hbel, ih, if_neg (by simpa using hbel)]
      rfl

/-- Where the records of the fork ascend, and one begins where the search is to begin, it is the first to be appended. -/
theorem collect_eq (hasc : (belonging forkType cnid startBlock records).Pairwise (fun a b => a.1.startBlock ≤ b.1.startBlock))
    (hbeg : ∃ r ∈ records, r.1 = ⟨forkType, cnid, startBlock⟩) (extra : List Extent) :
    collect forkType cnid startBlock records true extra =
      .ok (extra ++ (belonging forkType cnid startBlock records).flatMap inUse) := by
  obtain ⟨b, hb, hkey⟩ := hbeg
  have hbb : Belongs forkType cnid startBlock b := by simp [Belongs, hkey]
  induction records with
  | nil => simp at hb
  | cons r rs ih =>
    rw [belonging, filter_cons] at hasc ⊢
    by_cases hbel : Belongs forkType cnid startBlock r
    · rw [if_pos (by simpa using hbel)] at hasc ⊢
      have hle : r.1.startBlock ≤ startBlock := by
        rcases mem_cons.1 hb with rfl | hb
        · simp [hkey]
        · simpa [hkey] using rel_of_pairwise_cons hasc (mem_filter.2 ⟨hb, by simpa using hbb⟩)
      rw [collect_of_belongs hbel (fun _ => Nat.le_antisymm hle hbel.2.2), collect_rest, append_assoc]
      rfl
    · rw [if_neg (by simpa using hbel)] at hasc ⊢
      have hb : b ∈ rs := by
        rcases mem_cons.1 hb with rfl | hb
        · exact absurd hbb hbel
        · exact hb
      rw [collect_of_not_belongs hbel, ih hasc hb]
      rfl

/-- The records of a fork ascend, as the keys of the tree do. -/
theorem belonging_ascending (forkType cnid startBlock : Nat) (hwf : WellFormed t leaves) :
    (belonging forkType cnid startBlock (recordsOf leaves)).Pairwise (fun a b => a.1.startBlock ≤ b.1.startBlock) := by
  have hasc : (recordsOf leaves).Pairwise (fun a b => a.1 ≤ b.1) := by
    have h := hwf.tree.ascending
    rw [keysOf, ← map_flatMap] at h
    exact pairwise_map.1 h
  refine (hasc.filter _).imp_of_mem fun {a b} ha hb hle => ?_
  have ha : Belongs forkType cnid startBlock a := by simpa using (mem_filter.1 ha).2
  have hb : Belongs forkType cnid startBlock b := by simpa using (mem_filter.1 hb).2
  obtain ⟨hfa, hia, -⟩ := ha
  obtain ⟨hfb, hib, -⟩ := hb
  rcases hle with hlt | ⟨-, hlt | ⟨-, hle⟩⟩
  · omega
  · omega
  · exact hle

theorem belonging_append (records records' : List Record) : belonging forkType cnid startBlock (records ++ records') =
    belonging forkType cnid startBlock records ++ belonging forkType cnid startBlock records' :=
  filter_append ..

/-- Leaves without a key that compares equal have no record of the fork. -/
theorem belonging_eq_nil {part : List (Nat × Node ExtentKey (List Extent))}
    (h : ∀ k ∈ keysOf part, cnidComparator k ⟨forkType, cnid, 0⟩ ≠ 0) :
    belonging forkType cnid startBlock (recordsOf part) = [] :=
  filter_eq_nil_iff.2 fun r hr hb => h r.1 (key_mem_keysOf hr) (comparator_of_belongs (by simpa using hb))

/-- The records of the leaves that a search returns are gone through. -/
theorem findExtentsForFile_of_found {taken : List (Nat × Node ExtentKey (List Extent))} {rounds : Nat}
    (hfi : t.findLeafNodes cnidComparator ⟨forkTypeOf resourceFork, cnid, 0⟩ rounds = some (.ok (taken.map Prod.snd)))
    (extra : List Extent) : findExtentsForFile t cnid resourceFork startBlock extra rounds =
      some (collect (forkTypeOf resourceFork) cnid startBlock (recordsOf taken) true extra) := by
  simp only [findExtentsForFile, hfi, recordsOf, flatMap_map]

/-- In a well-formed tree in reach, in which the forks are not mixed, all overflow extents are found. -/
theorem allFound_of_unmixed (hwf : WellFormed t leaves) (hreach : t.InReach)
    (hunm : Unmixed (keysOf leaves) cnid resourceFork)
    (hbeg : ⟨forkTypeOf resourceFork, cnid, startBlock⟩ ∈ keysOf leaves) (extra : List Extent) :
    AllFound t leaves cnid resourceFork startBlock extra := by
  obtain ⟨left, taken, right, hleaves, hlf, hrt, enough, hfi⟩ :=
    findLeafNodes_spec hwf.tree hreach.reads (gathers_of_unmixed hwf.tree.ascending hwf.forks hunm)
  have hsplit : recordsOf leaves = recordsOf left ++ recordsOf taken ++ recordsOf right := by
    rw [hleaves, recordsOf, flatMap_append, flatMap_append]
    rfl
  have htak : belonging (forkTypeOf resourceFork) cnid startBlock (recordsOf leaves) =
      belonging (forkTypeOf resourceFork) cnid startBlock (recordsOf taken) := by
    rw [hsplit, belonging_append, belonging_append, belonging_eq_nil hlf, belonging_eq_nil hrt, nil_append, append_nil]
  have hasc := belonging_ascending (forkTypeOf resourceFork) cnid startBlock hwf
  refine ⟨hasc, enough, fun rounds henough => ?_⟩
  have hrec : ∃ r ∈ recordsOf taken, r.1 = ⟨forkTypeOf resourceFork, cnid, startBlock⟩ := by
    obtain ⟨r, hr, hkey⟩ := exists_record_of_key hbeg
    have hmem : r ∈ belonging (forkTypeOf resourceFork) cnid startBlock (recordsOf taken) := by
      rw [← htak]
      exact mem_filter.2 ⟨hr, by simp [Belongs, hkey]⟩
    exact ⟨r, (mem_filter.1 hmem).1, hkey⟩
  rw [htak] at hasc ⊢
  rw [findExtentsForFile_of_found (hfi rounds henough), collect_eq hasc hrec]

/-! ## Trees in which not all are found -/

/-- Nothing is appended from records of other forks. -/
theorem collect_of_none (h : ∀ r ∈ records, ¬Belongs forkType cnid startBlock r) (first : Bool) (extra : List Extent) :
    collect forkType cnid startBlock records first extra = .ok extra := by
  induction records with
  | nil => rfl
  | cons r rs ih => rw [collect_of_not_belongs (h r mem_cons_self), ih fun r hr => h r (mem_cons_of_mem _ hr)]

def withExtent (keys : List ExtentKey) : List Record := keys.map fun k => (k, .value [⟨0, 1⟩])

theorem keys_withExtent (keys : List ExtentKey) : (withExtent keys).map Prod.fst = keys := by
  simp [withExtent, Function.comp_def]

variable {keys : List ExtentKey}

/-- If the leaves that a search returns are all of other files, not all is found. -/
theorem not_allFound (hbeg : ⟨forkTypeOf resourceFork, cnid, startBlock⟩ ∈ keys)
    (hleaves : recordsOf leaves = withExtent keys) (taken : List (Nat × Node ExtentKey (List Extent))) {n : Nat}
    (hfi : ∀ rounds ≥ n, t.findLeafNodes cnidComparator ⟨forkTypeOf resourceFork, cnid, 0⟩ rounds =
    some (.ok (taken.map Prod.snd)))
    (hoth : ∀ k ∈ keysOf taken, k.fileID ≠ cnid) : ¬AllFound t leaves cnid resourceFork startBlock [] := by
  rintro ⟨-, enough, hall⟩
  have hfound := hall (max enough n) (Nat.le_max_left ..)
  rw [findExtentsForFile_of_found (hfi _ (Nat.le_max_right ..)),
    collect_of_none fun r hr hb => hoth r.1 (key_mem_keysOf hr) hb.2.1, hleaves] at hfound
  have hnil := Except.ok.inj (some.inj hfound)
  have hrec : (⟨forkTypeOf resourceFork, cnid, startBlock⟩, .value [⟨0, 1⟩]) ∈
      belonging (forkTypeOf resourceFork) cnid startBlock (withExtent keys) :=
    mem_filter.2 ⟨mem_map.2 ⟨_, hbeg, rfl⟩, by simp [Belongs]⟩
  have hext := flatMap_eq_nil_iff.1 hnil.symm _ hrec
  simp [inUse] at hext

/-- In a tree with these keys not all is found. -/
def Missed (nodeSize totalNodes : Nat) (keys : List ExtentKey) (cnid : Nat) (resourceFork : Bool) (startBlock : Nat) : Prop :=
  ∃ t leaves, t.nodeSize = nodeSize ∧ t.totalNodes = totalNodes ∧ WellFormed t leaves ∧ keysOf leaves = keys ∧
    ¬AllFound t leaves cnid resourceFork startBlock []

section

variable {nodeSize totalNodes : Nat} (hsz : 0 < nodeSize) (htot : 3 < totalNodes) (hasc : keys.Pairwise (· ≤ ·))
  (hfr : ∀ k ∈ keys, k.forkType = 0 ∨ k.forkType = 0xff) (hbeg : ⟨forkTypeOf resourceFork, cnid, startBlock⟩ ∈ keys)
include hsz htot hasc hfr hbeg

/-- Behind the first 4 GiB there are trees with these keys in which not all is found. -/
theorem exists_beyondReach (hreach : ¬ nodeSize * (totalNodes - 1) < 2 ^ 32) :
    Missed nodeSize totalNodes keys cnid resourceFork startBlock := by
  have hne : withExtent keys ≠ [] := by
    simpa [withExtent] using ne_nil_of_mem hbeg
  have hky : keysOf [(totalNodes - 1, (⟨.leaf, 0, withExtent keys⟩ : Node ExtentKey (List Extent)))] = keys := by
    simp [keysOf, keys_withExtent]
  refine ⟨lastLeaf nodeSize totalNodes (withExtent keys), _, rfl, rfl,
    ⟨lastLeaf_wellFormed hsz (by omega) hne (by rwa [keys_withExtent]), by rwa [hky]⟩, hky, ?_⟩
  refine not_allFound (n := 1) hbeg (by simp [recordsOf]) [] (fun rounds henough => ?_) (by simp)
  obtain _ | m := rounds
  · omega
  exact lastLeaf_not_read (by omega) _ _ _ _

/-- Nor is it in a tree with two leaves, when the search takes in only the one that has no key of the file. -/
theorem exists_parted (hreach : nodeSize * (totalNodes - 1) < 2 ^ 32) {a k : ExtentKey} {l r : List ExtentKey}
    (hpar : keys = a :: l ++ k :: r)
    (hside : (0 < cnidComparator k ⟨forkTypeOf resourceFork, cnid, 0⟩ ∧ ∀ x ∈ a :: l, x.fileID ≠ cnid) ∨
      (cnidComparator k ⟨forkTypeOf resourceFork, cnid, 0⟩ < 0 ∧ ∀ x ∈ k :: r, x.fileID ≠ cnid)) :
    Missed nodeSize totalNodes keys cnid resourceFork startBlock := by
  have hrecord : withExtent keys = (a, .value [⟨0, 1⟩]) :: withExtent l ++ (k, .value [⟨0, 1⟩]) :: withExtent r := by
    simp [withExtent, hpar]
  let left : Node ExtentKey (List Extent) := ⟨.leaf, 3, (a, .value [⟨0, 1⟩]) :: withExtent l⟩
  let right : Node ExtentKey (List Extent) := ⟨.leaf, 0, (k, .value [⟨0, 1⟩]) :: withExtent r⟩
  have hky : keysOf [(2, left), (3, right)] = keys := by
    simp [keysOf, keys_withExtent, hpar, left, right]
  refine ⟨leafPair nodeSize totalNodes (a, .value [⟨0, 1⟩]) (withExtent l) (k, .value [⟨0, 1⟩]) (withExtent r), _, rfl, rfl,
    ⟨leafPair_wellFormed hsz htot (by rwa [← hrecord, keys_withExtent]), by rwa [hky]⟩, hky, ?_⟩
  have hleaves : recordsOf [(2, left), (3, right)] = withExtent keys := by
    simp [recordsOf, hrecord, left, right]
  rcases hside with ⟨hpos, hoth⟩ | ⟨hneg, hoth⟩
  · refine not_allFound (n := 2) hbeg hleaves [(2, left)] (fun rounds henough => ?_) (by simpa [keysOf, keys_withExtent, left] using hoth)
    obtain ⟨m, rfl⟩ : ∃ m, rounds = m + 2 := ⟨rounds - 2, by omega⟩
    exact leafPair_left hsz htot hreach hpos m
  · refine not_allFound (n := 2) hbeg hleaves [(3, right)] (fun rounds henough => ?_) (by simpa [keysOf, keys_withExtent, right] using hoth)
    obtain ⟨m, rfl⟩ : ∃ m, rounds = m + 2 := ⟨rounds - 2, by omega⟩
    exact leafPair_right hsz htot hreach hneg m

/-- Where the forks are mixed there is such a tree: its leaves part before a key of the other fork. -/
theorem exists_mixed (hreach : nodeSize * (totalNodes - 1) < 2 ^ 32) (hmx : ¬Unmixed keys cnid resourceFork) :
    Missed nodeSize totalNodes keys cnid resourceFork startBlock := by
  cases resourceFork with
  | false =>
    simp only [Unmixed, Bool.false_eq_true, if_false, not_forall] at hmx
    obtain ⟨k, hk, hfl, hfork⟩ := hmx
    obtain ⟨a, rest, hrs⟩ := exists_cons_of_ne_nil (ne_nil_of_mem hbeg)
    rw [hrs] at hk
    obtain ⟨l, r, rfl⟩ := append_of_mem hk
    refine exists_parted hsz htot hasc hfr hbeg hreach (hrs.trans (cons_append ..).symm) (.inl ⟨?_, fun x hx he => ?_⟩)
    · rw [cnidComparator, forkTypeOf, if_neg Bool.false_ne_true, if_pos (Nat.pos_of_ne_zero hfork)]
      decide
    · -- the keys before are not after it
      rw [hrs] at hasc
      have hle : x ≤ k := (pairwise_append.1 hasc).2.2 x hx k mem_cons_self
      simp only [LE.le] at hle
      omega
  | true =>
    simp only [Unmixed, if_true, not_forall] at hmx
    obtain ⟨k, hk, hfl, hfork⟩ := hmx
    obtain ⟨l, r, hpar⟩ := append_of_mem hk
    have hafter : ∀ x ∈ k :: r, x.fileID ≠ cnid := by
      intro x hx he
      rw [hpar] at hasc
      rcases mem_cons.1 hx with rfl | hx
      · omega
      have hle : k ≤ x := (pairwise_cons.1 (pairwise_append.1 hasc).2.1).1 x hx
      simp only [LE.le] at hle
      omega
    -- the key searched for is on the left
    obtain ⟨a, l, rfl⟩ : ∃ a l', l = a :: l' := by
      rw [hpar] at hbeg
      rcases mem_append.1 hbeg with hmem | hmem
      · exact exists_cons_of_ne_nil (ne_nil_of_mem hmem)
      · exact absurd rfl (hafter _ hmem)
    refine exists_parted hsz htot hasc hfr hbeg hreach hpar (.inr ⟨?_, hafter⟩)
    have hze : k.forkType = 0 := (hfr k hk).resolve_right hfork
    simp [cnidComparator, forkTypeOf, hze]

/-- **Overflow extents**: in all well-formed trees of a node size, a number of nodes and these keys all extents of the fork
from the block on are found, if and only if the nodes begin in the first 4 GiB and the forks are not mixed. -/
theorem allFound_iff_unmixed : (∀ (t : Tree) (leaves : List (Nat × Node ExtentKey (List Extent))), t.nodeSize = nodeSize →
      t.totalNodes = totalNodes → WellFormed t leaves → keysOf leaves = keys →
      ∀ extra, AllFound t leaves cnid resourceFork startBlock extra) ↔
    nodeSize * (totalNodes - 1) < 2 ^ 32 ∧ Unmixed keys cnid resourceFork := by
  constructor
  · intro h
    have hno : ¬Missed nodeSize totalNodes keys cnid resourceFork startBlock := by
      rintro ⟨t, leaves, hs, ht, hwf, hky, hnot⟩
      exact hnot (h t leaves hs ht hwf hky [])
    have hreach : nodeSize * (totalNodes - 1) < 2 ^ 32 :=
      Decidable.not_not.1 fun hreach => hno (exists_beyondReach hsz htot hasc hfr hbeg hreach)
    refine ⟨hreach, ?_⟩
    by_contra hmx
    exact hno (exists_mixed hsz htot hasc hfr hbeg hreach hmx)
  · rintro ⟨hreach, hunm⟩ t leaves rfl rfl hwf rfl extra
    exact allFound_of_unmixed hwf hreach hunm hbeg extra

end

/-- Two leaves, with data-fork records of two files. -/
theorem allFound_iff_unmixed_dataForks :
    AllFound (leafPair 512 4 (⟨0, 5, 8⟩, .value [⟨40, 2⟩]) [] (⟨0, 6, 8⟩, .value [⟨50, 3⟩, ⟨60, 1⟩]) [])
      [(2, ⟨.leaf, 3, [(⟨0, 5, 8⟩, .value [⟨40, 2⟩])]⟩),
        (3, ⟨.leaf, 0, [(⟨0, 6, 8⟩, .value [⟨50, 3⟩, ⟨60, 1⟩])]⟩)] 6 false 8 [⟨20, 8⟩] :=
  (allFound_iff_unmixed (by decide) (by decide)
    (by decide) (by decide) (by decide)).2 ⟨by decide, by simp [Unmixed]⟩ _ _ rfl rfl
    ⟨leafPair_wellFormed (by decide) (by decide) (by decide), by simp [keysOf]⟩ rfl _

/-- A record of file 5's data fork in one leaf, one of its resource fork and one of file 6's data fork in the next: the overflow
extent of file 6 is not found, as the second leaf begins with a resource-fork key. -/
theorem resourceFork_hides_next_file : ∃ (t : Tree) (leaves : List (Nat × Node ExtentKey (List Extent))),
    WellFormed t leaves ∧ ⟨0, 6, 8⟩ ∈ keysOf leaves ∧ findExtentsForFile t 6 false 8 [] 5 = some (.ok []) ∧
      ¬AllFound t leaves 6 false 8 [] := by
  refine ⟨leafPair 512 4 (⟨0, 5, 8⟩, .value [⟨0, 1⟩]) [] (⟨0xff, 5, 8⟩, .value [⟨0, 1⟩]) [(⟨0, 6, 8⟩, .value [⟨0, 1⟩])], _,
    ⟨leafPair_wellFormed (by decide) (by decide) (by decide), by simp [keysOf]⟩, by decide, by rfl, ?_⟩
  refine not_allFound (n := 2) (show ⟨forkTypeOf false, 6, 8⟩ ∈ [⟨0, 5, 8⟩, ⟨0xff, 5, 8⟩, (⟨0, 6, 8⟩ : ExtentKey)] by decide) rfl
    [(2, ⟨.leaf, 3, [(⟨0, 5, 8⟩, .value [⟨0, 1⟩])]⟩)] (fun rounds henough => ?_) (by decide)
  obtain ⟨m, rfl⟩ : ∃ m, rounds = m + 2 := ⟨rounds - 2, by omega⟩
  exact leafPair_left (by decide) (by decide) (by decide) (by decide) m

end Extents

end Osxie.Dmg
