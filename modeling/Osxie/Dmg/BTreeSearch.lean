import Mathlib.Data.List.Forall2
import Osxie.Dmg.BTree

/-!
# Searches in B-trees

What the searches find depends on the keys of the leaves only through the results of the comparator against the key desired. As
long as these do not fall from left to right (`Climbs`), going down for a single key leads to a leaf that has it.

For ranges less is needed (`Gathers`): no smaller key follows one that compares equal, or going down would pass it; and none
that compares equal follows a greater one, or following the links would stop before it. The first key of all may be greater.
-/

namespace Osxie.Dmg

open List Option Prod Nat

namespace BTree

variable {κ α : Type} {t : BTree κ α} {comp : KeyComparator κ} {key : κ}

/-- The result of the comparator does not fall from one key to another. -/
def NotFalling (comp : KeyComparator κ) (key a b : κ) : Prop :=
  (0 ≤ comp a key → 0 ≤ comp b key) ∧ (0 < comp a key → 0 < comp b key)

/-- Nor does it anywhere along leaves. -/
def Climbs (comp : KeyComparator κ) (key : κ) (leaves : List (Nat × Node κ α)) : Prop :=
  (keysOf leaves).Pairwise (NotFalling comp key)

/-- No key that compares equal comes before a smaller one, or after a greater one that is not the first key. -/
structure Gathers (comp : KeyComparator κ) (key : κ) (keys : List κ) : Prop where
  before : keys.Pairwise fun a b => comp a key = 0 → 0 ≤ comp b key
  after : keys.tail.Pairwise fun a b => 0 < comp a key → comp b key ≠ 0

variable {leaves : List (Nat × Node κ α)} {p : Nat} {parts : List (List (Nat × Node κ α))} {records : List (κ × Payload α)}
  {part : List (Nat × Node κ α)} {r : κ × Payload α}

theorem Climbs.gathers (h : Climbs comp key leaves) : Gathers comp key (keysOf leaves) where
  before := h.imp fun hab hze => hab.1 (by omega)
  after := (h.sublist (tail_sublist _)).imp fun hab hpos => by
    have := hab.2 hpos
    omega

/-- A search reads the nodes of the tree where they are. -/
def Reads (t : BTree κ α) : Prop := ∀ i node, t.Holds i node → t.readNode i = .ok node

theorem InReach.reads (h : t.InReach) : t.Reads := by
  rintro i node ⟨hi, hnod⟩
  have hlt : t.nodeSize * i < 2 ^ 32 := lt_of_le_of_lt (mul_le_mul_left _ (by omega)) h
  rw [readNode, mod_eq_of_lt hlt, hnod]

/-! ## Keys of leaves -/

@[simp]
theorem keysOf_nil : keysOf ([] : List (Nat × Node κ α)) = [] := rfl

@[simp]
theorem keysOf_cons (x : Nat × Node κ α) (ls : List (Nat × Node κ α)) :
    keysOf (x :: ls) = x.2.records.map fst ++ keysOf ls := flatMap_cons

@[simp]
theorem keysOf_append (ls ls' : List (Nat × Node κ α)) : keysOf (ls ++ ls') = keysOf ls ++ keysOf ls' := flatMap_append

variable {k : κ} {d : Nat} {R : κ → κ → Prop} (nodeSize totalNodes : Nat)

/-- The first key of leaves comes before their other keys. -/
theorem firstKey_cons_keysOf (h : firstKey leaves = some k) : ∃ ks, keysOf leaves = k :: ks := by
  cases leaves with
  | nil => cases h
  | cons x ls =>
    obtain ⟨r, hr, rfl⟩ := map_eq_some_iff.1 h
    obtain ⟨rs, hrs⟩ := head?_eq_some_iff.1 hr
    exact ⟨rs.map fst ++ keysOf ls, by rw [keysOf_cons, hrs, map_cons, cons_append]⟩

/-- What a leaf of a subtree is. -/
theorem Subtree.leaf : ∀ {d i : Nat} {leaves : List (Nat × Node κ α)}, t.Subtree d i leaves →
    ∀ x ∈ leaves, t.Holds x.1 x.2 ∧ x.2.kind = .leaf ∧ x.2.records ≠ [] := by
  intro d
  induction d with
  | zero =>
    rintro i leaves ⟨node, hnod, hkn, hrec, rfl⟩ x hx
    rw [mem_singleton] at hx
    subst hx
    exact ⟨hnod, hkn, hrec⟩
  | succ d ih =>
    rintro i leaves ⟨node, parts, -, -, -, rfl, hpar⟩ x hx
    obtain ⟨part, hpart, hx⟩ := mem_flatten.1 hx
    obtain ⟨j, hj, rfl⟩ := mem_iff_getElem.1 hpart
    obtain ⟨c, -, hsub, -⟩ := (forall₂_iff_get.1 hpar).2 j (by rw [hpar.length_eq]; exact hj) hj
    exact ih hsub x hx

/-- The child at a position, and the leaves on both sides of it. -/
theorem child_at (h : List.Forall₂ (Leads (t.Subtree d)) records parts) (hp : p < records.length) :
    ∃ r c part, records[p]? = some r ∧ r.2 = .child c ∧ t.Subtree d c part ∧ firstKey part = some r.1 ∧
      parts.drop p = part :: parts.drop (p + 1) := by
  have hp' : p < parts.length := h.length_eq ▸ hp
  obtain ⟨c, hc, hsub, hfirst⟩ := (forall₂_iff_get.1 h).2 p hp hp'
  refine ⟨records[p], c, parts[p], getElem?_eq_getElem hp, hc, hsub, hfirst, drop_eq_getElem_cons hp'⟩

theorem split_of_drop {β : Type} {l : List β} {x : β} (h : l.drop p = x :: l.drop (p + 1)) :
    l = l.take p ++ x :: l.drop (p + 1) := by
  rw [← h, take_append_drop]

/-- Keys to the left of a child at a position come before the first key of the child. -/
theorem rel_first {first : κ} (hsplit : parts = parts.take p ++ part :: parts.drop (p + 1))
    (hfirst : firstKey part = some first) (hpr : (keysOf parts.flatten).Pairwise R) (hk : k ∈ keysOf (parts.take p).flatten) :
    R k first := by
  obtain ⟨ks, hks⟩ := firstKey_cons_keysOf hfirst
  rw [hsplit, flatten_append, flatten_cons, keysOf_append, keysOf_append, hks] at hpr
  exact (pairwise_append.1 hpr).2.2 k hk first (by simp)

/-- What holds along the keys holds along those of a child. -/
theorem pairwise_part (hpr : (keysOf parts.flatten).Pairwise R) (hsplit : parts = parts.take p ++ part :: parts.drop (p + 1)) :
    (keysOf part).Pairwise R := by
  rw [hsplit, flatten_append, flatten_cons, keysOf_append, keysOf_append] at hpr
  exact (pairwise_append.1 (pairwise_append.1 hpr).2.1).1

theorem position_lt (comp : KeyComparator κ) (key : κ) (wildcard : Bool) (h : records ≠ []) :
    position comp key wildcard records < records.length := by
  have := bisect_le (goesOn comp key wildcard records) records.length
  have := length_pos_of_ne_nil h
  unfold position
  omega

/-- The search goes on behind the record to go down by, unless it is the first. -/
theorem goesOn_position (wildcard : Bool) (hpos : 0 < position comp key wildcard records)
    (hr : records[position comp key wildcard records]? = some r) :
    (if wildcard then decide (comp r.1 key < 0) else !decide (comp key r.1 < 0)) = true := by
  have hgo : goesOn comp key wildcard records (position comp key wildcard records) = true := by
    refine bisect_before ?_
    unfold position at hpos
    omega
  rwa [goesOn, hr] at hgo

/-- Going down from an index node. -/
theorem traverseTree_index (hrd : t.Reads) {i : Nat} {node : Node κ α} (hnod : t.Holds i node)
    (hkn : node.kind = .index) {wildcard : Bool} {c : Nat}
    (hr : node.records[position comp key wildcard node.records]? = some r) (hc : r.2 = .child c) (n : Nat) :
    t.traverseTree comp key wildcard (n + 1) i = t.traverseTree comp key wildcard n c := by
  obtain ⟨k, payload⟩ := r
  obtain rfl : payload = .child c := hc
  simp only [traverseTree, hrd i node hnod, hkn, hr]

/-! ## Ranges -/

/-- Going down for a range leads to a leaf with no key to its left that compares equal. -/
theorem traverseTree_range (hrd : t.Reads) : ∀ {d i : Nat} {leaves : List (Nat × Node κ α)}, t.Subtree d i leaves →
    (keysOf leaves).Pairwise (fun a b => comp a key = 0 → 0 ≤ comp b key) → ∃ left x right, leaves = left ++ x :: right ∧
      (∀ rounds > d, t.traverseTree comp key true rounds i = some (.ok (some x.2))) ∧ ∀ k ∈ keysOf left, comp k key ≠ 0 := by
  intro d
  induction d with
  | zero =>
    rintro i leaves ⟨node, hnod, hkn, -, rfl⟩ -
    refine ⟨[], (i, node), [], rfl, fun rounds henough => ?_, by simp⟩
    obtain _ | n := rounds
    · omega
    simp only [traverseTree, hrd i node hnod, hkn]
  | succ d ih =>
    rintro i leaves ⟨node, parts, hnod, hkn, hrec, rfl, hpar⟩ hpr
    generalize hp : position comp key true node.records = p
    have hplt : p < node.records.length := hp ▸ position_lt comp key true hrec
    obtain ⟨r, c, part, hr, hc, hsub, hfirst, hdr⟩ := child_at hpar hplt
    have hsplit := split_of_drop hdr
    obtain ⟨left, x, right, hleaves, htr, hlf⟩ := ih hsub (pairwise_part hpr hsplit)
    refine ⟨(parts.take p).flatten ++ left, x, right ++ (parts.drop (p + 1)).flatten, ?_, fun rounds henough => ?_, fun k hk => ?_⟩
    · conv_lhs => rw [hsplit, flatten_append, flatten_cons, hleaves]
      simp only [append_assoc, cons_append]
    · obtain _ | n := rounds
      · omega
      rw [traverseTree_index hrd hnod hkn (hp ▸ hr) hc, htr n (by omega)]
    · rw [keysOf_append] at hk
      rcases mem_append.1 hk with hk | hk
      · -- the key of the record taken is smaller, unless it is the first record
        have hpos : 0 < p := by
          rcases Nat.eq_zero_or_pos p with rfl | h
          · simp at hk
          · exact h
        have hneg : comp r.1 key < 0 := by
          have hgo := goesOn_position true (hp ▸ hpos) (hp ▸ hr)
          simpa using hgo
        intro hze
        have := rel_first hsplit hfirst hpr hk hze
        omega
      · exact hlf k hk

/-- Following the links takes in the leaves up to the first that begins with a greater key. -/
theorem followLinks_spec (hrd : t.Reads) : ∀ (right : List (Nat × Node κ α)) (x : Nat × Node κ α) (uniqLink : List Nat),
    Linked (x :: right) → (right.map fst).Nodup → (∀ y ∈ right, y.1 ∉ uniqLink ∧ y.1 ≠ 0) →
    (∀ y ∈ right, t.Holds y.1 y.2 ∧ y.2.records ≠ []) →
    (keysOf right).Pairwise (fun a b => 0 < comp a key → comp b key ≠ 0) → ∃ taken rest, right = taken ++ rest ∧
      (∀ rounds > right.length, t.followLinks comp key rounds uniqLink x.2 = some (.ok (taken.map snd))) ∧
      ∀ k ∈ keysOf rest, comp k key ≠ 0 := by
  intro right
  induction right with
  | nil =>
    intro x uniqLink hlin _ _ _ _
    refine ⟨[], [], rfl, fun rounds henough => ?_, by simp⟩
    obtain _ | n := rounds
    · omega
    rw [followLinks, if_pos (show x.2.forwardLink = 0 from hlin)]
    rfl
  | cons y right ih =>
    intro x uniqLink hlin hnd hnew hleaf hpr
    obtain ⟨hlink, hlink'⟩ : x.2.forwardLink = y.1 ∧ Linked (y :: right) := hlin
    obtain ⟨hnotin, hne⟩ := hnew y mem_cons_self
    obtain ⟨hholds, hrec⟩ := hleaf y mem_cons_self
    obtain ⟨r, rs, hr⟩ := exists_cons_of_ne_nil hrec
    have hkeys : keysOf (y :: right) = r.1 :: (rs.map fst ++ keysOf right) := by
      rw [keysOf_cons, hr, map_cons, cons_append]
    have hst : ∀ n, t.followLinks comp key (n + 1) uniqLink x.2 = if 0 < comp r.1 key then some (.ok []) else
        (t.followLinks comp key n (y.1 :: uniqLink) y.2).map (Except.map (y.2 :: ·)) := by
      intro n
      rw [followLinks, hlink, if_neg hne, if_neg hnotin]
      simp only [hrd y.1 y.2 hholds, hr, head?_cons]
    by_cases hpos : 0 < comp r.1 key
    · refine ⟨[], y :: right, rfl, fun rounds henough => ?_, fun k hk => ?_⟩
      · obtain _ | n := rounds
        · omega
        rw [hst, if_pos hpos]
        rfl
      · rw [hkeys] at hpr hk
        rcases mem_cons.1 hk with rfl | hk
        · omega
        · exact (pairwise_cons.1 hpr).1 k hk hpos
    · obtain ⟨hnotm, hnd'⟩ := nodup_cons.1 hnd
      have hnew' : ∀ z ∈ right, z.1 ∉ y.1 :: uniqLink ∧ z.1 ≠ 0 := by
        intro z hz
        obtain ⟨hz1, hz2⟩ := hnew z (mem_cons_of_mem _ hz)
        refine ⟨fun hmem => ?_, hz2⟩
        rcases mem_cons.1 hmem with he | hmem
        · exact hnotm (he ▸ mem_map_of_mem hz)
        · exact hz1 hmem
      obtain ⟨taken, rest, hrt, hfol, hrest⟩ := ih y (y.1 :: uniqLink) hlink' hnd' hnew'
        (fun z hz => hleaf z (mem_cons_of_mem _ hz)) (pairwise_append.1 hpr).2.1
      refine ⟨y :: taken, rest, by rw [hrt, cons_append], fun rounds henough => ?_, hrest⟩
      rw [length_cons] at henough
      obtain _ | n := rounds
      · omega
      rw [hst, if_neg hpos, hfol n (by omega)]
      rfl

theorem linked_of_append : ∀ {left : List (Nat × Node κ α)} {x : Nat × Node κ α} {right : List (Nat × Node κ α)},
    Linked (left ++ x :: right) → Linked (x :: right)
  | [], _, _, h => h
  | [_], _, _, h => h.2
  | _ :: y :: ls, x, right, h => linked_of_append (show Linked ((y :: ls) ++ x :: right) from h.2)

/-- What a search for a range returns: leaves next to each other, in their order, outside of which no key compares equal. -/
theorem findLeafNodes_spec [LE κ] (hwf : t.WellFormed leaves) (hrd : t.Reads) (hgath : Gathers comp key (keysOf leaves)) :
    ∃ left taken right, leaves = left ++ taken ++ right ∧
      (∀ k ∈ keysOf left, comp k key ≠ 0) ∧ (∀ k ∈ keysOf right, comp k key ≠ 0) ∧
      ∃ enough, ∀ rounds ≥ enough, t.findLeafNodes comp key rounds = some (.ok (taken.map snd)) := by
  rcases hwf.tree with ⟨header, hroo, hholds, hkn, rfl⟩ | ⟨d, hsub⟩
  · refine ⟨[], [], [], rfl, by simp, by simp, 1, fun rounds henough => ?_⟩
    obtain _ | n := rounds
    · omega
    simp only [findLeafNodes, findLeafNode, traverseTree, hroo, hrd 0 header hholds, hkn]
    rfl
  · obtain ⟨left, x, right, hleaves, htr, hlf⟩ := traverseTree_range hrd hsub hgath.before
    have hin : ∀ y ∈ right, y ∈ leaves := fun y hy => by rw [hleaves]; simp [hy]
    have hnd : (right.map fst).Nodup := by
      have h := hwf.numbers
      rw [hleaves, map_append] at h
      exact (nodup_cons.1 (nodup_append.1 h).2.1).2
    have hpr : (keysOf right).Pairwise (fun a b => 0 < comp a key → comp b key ≠ 0) := by
      refine hgath.after.sublist ?_
      have hne : keysOf left ++ x.2.records.map fst ≠ [] := by
        simp [(hsub.leaf x (by rw [hleaves]; simp)).2.2]
      rw [hleaves, keysOf_append, keysOf_cons, ← append_assoc, tail_append_of_ne_nil hne]
      exact sublist_append_right _ _
    have hlin := hwf.linked
    rw [hleaves] at hlin
    obtain ⟨taken, rest, hrt, hfol, hrest⟩ := followLinks_spec hrd right x []
      (linked_of_append hlin) hnd (fun y hy => ⟨by simp, hwf.nonzero y (hin y hy)⟩)
      (fun y hy => ⟨(hsub.leaf y (hin y hy)).1, (hsub.leaf y (hin y hy)).2.2⟩) hpr
    refine ⟨left, x :: taken, rest, ?_, hlf, hrest, d + 1 + (right.length + 1), fun rounds henough => ?_⟩
    · rw [hleaves, hrt, append_assoc, cons_append]
    · simp only [findLeafNodes, findLeafNode, htr rounds (by omega), hfol rounds (by omega)]
      rfl

/-! ## Single keys -/

/-- Behind the child to go down to for a single key all keys are greater. -/
theorem right_of_position (hswap : ∀ a, comp key a < 0 ↔ 0 < comp a key)
    (hpar : List.Forall₂ (Leads (t.Subtree d)) records parts) (hcl : Climbs comp key parts.flatten)
    (hk : k ∈ keysOf (parts.drop (position comp key false records + 1)).flatten) : 0 < comp k key := by
  generalize hb : bisect (goesOn comp key false records) records.length = b
  have hbp : b ≤ position comp key false records + 1 := by
    unfold position
    omega
  obtain ⟨x, hx, hkx⟩ := mem_flatMap.1 hk
  obtain ⟨part, hpart, hxpart⟩ := mem_flatten.1 hx
  have hblt : b < records.length := by
    rw [hpar.length_eq]
    have := length_pos_of_mem hpart
    rw [length_drop] at this
    omega
  -- the first record that the search does not go on behind
  obtain ⟨r, c, first, hr, -, -, hfirst, hdrop⟩ := child_at hpar hblt
  have hsplit := split_of_drop hdrop
  have hpos : 0 < comp r.1 key := by
    have hat := bisect_at (hb ▸ hblt)
    rw [hb, goesOn, hr] at hat
    rw [← hswap]
    simpa using hat
  obtain ⟨ks, hks⟩ := firstKey_cons_keysOf hfirst
  have hdr : k ∈ r.1 :: (ks ++ keysOf (parts.drop (b + 1)).flatten) := by
    rw [← cons_append, ← hks, ← keysOf_append, ← flatten_cons, ← hdrop]
    refine mem_flatMap.2 ⟨x, mem_flatten.2 ⟨part, ?_, hxpart⟩, hkx⟩
    rw [show position comp key false records + 1 = b + (position comp key false records + 1 - b) by omega, ← drop_drop] at hpart
    exact mem_of_mem_drop hpart
  rw [Climbs, hsplit, flatten_append, flatten_cons, keysOf_append, keysOf_append, hks] at hcl
  have hpr := (pairwise_append.1 hcl).2.1
  rcases mem_cons.1 hdr with rfl | hmem
  · exact hpos
  · exact ((pairwise_cons.1 hpr).1 k hmem).2 hpos

/-- Going down for a single key leads to a leaf that has it. -/
theorem traverseTree_exact (hrd : t.Reads) (hswap : ∀ a, comp key a < 0 ↔ 0 < comp a key) :
    ∀ {d i : Nat} {leaves : List (Nat × Node κ α)}, t.Subtree d i leaves → Climbs comp key leaves →
    (∃ k ∈ keysOf leaves, comp k key = 0) → ∃ x ∈ leaves, (∃ r ∈ x.2.records, comp r.1 key = 0) ∧
      ∀ rounds > d, t.traverseTree comp key false rounds i = some (.ok (some x.2)) := by
  intro d
  induction d with
  | zero =>
    rintro i leaves ⟨node, hnod, hkn, -, rfl⟩ - ⟨k, hk, hze⟩
    refine ⟨(i, node), mem_singleton_self _, ?_, fun rounds henough => ?_⟩
    · simp only [keysOf_cons, keysOf_nil, append_nil] at hk
      obtain ⟨r, hr, rfl⟩ := mem_map.1 hk
      exact ⟨r, hr, hze⟩
    · obtain _ | n := rounds
      · omega
      simp only [traverseTree, hrd i node hnod, hkn]
  | succ d ih =>
    rintro i leaves ⟨node, parts, hnod, hkn, hrec, rfl, hpar⟩ hcl ⟨k, hk, hze⟩
    generalize hp : position comp key false node.records = p
    have hplt : p < node.records.length := hp ▸ position_lt comp key false hrec
    obtain ⟨r, c, part, hr, hc, hsub, hfirst, hdr⟩ := child_at hpar hplt
    have hsplit := split_of_drop hdr
    obtain ⟨ks, hks⟩ := firstKey_cons_keysOf hfirst
    -- the key is in the child, or the first key of the child compares equal too
    have hpart : ∃ k ∈ keysOf part, comp k key = 0 := by
      have hk' := hk
      rw [hsplit, flatten_append, flatten_cons, keysOf_append, keysOf_append] at hk'
      rcases mem_append.1 hk' with hlf | hk'
      · have hpos : 0 < p := by
          rcases Nat.eq_zero_or_pos p with rfl | h
          · simp at hlf
          · exact h
        have hgo := goesOn_position false (hp ▸ hpos) (hp ▸ hr)
        have hle : ¬ 0 < comp r.1 key := by
          rw [← hswap]
          simpa using hgo
        have := (rel_first hsplit hfirst hcl hlf).1 (by omega)
        exact ⟨r.1, by rw [hks]; exact mem_cons_self, by omega⟩
      · rcases mem_append.1 hk' with hk' | hrt
        · exact ⟨k, hk', hze⟩
        · have := right_of_position hswap hpar hcl (hp ▸ hrt)
          omega
    obtain ⟨x, hx, hrecord, htr⟩ := ih hsub (pairwise_part hcl hsplit) hpart
    refine ⟨x, ?_, hrecord, fun rounds henough => ?_⟩
    · rw [hsplit]
      simp [hx]
    · obtain _ | n := rounds
      · omega
      rw [traverseTree_index hrd hnod hkn (hp ▸ hr) hc, htr n (by omega)]

/-! ## Well-formed trees -/

/-- A monotone comparator climbs along the keys of a well-formed tree. -/
theorem Monotone.climbs [LE κ] (h : Monotone comp) (hwf : t.WellFormed leaves) (key : κ) : Climbs comp key leaves :=
  hwf.ascending.imp fun hle => ⟨h.nonneg _ _ _ hle, h.pos _ _ _ hle⟩

theorem key_mem_keysOf (h : r ∈ recordsOf leaves) : r.1 ∈ keysOf leaves := by
  obtain ⟨x, hx, hr⟩ := mem_flatMap.1 h
  exact mem_flatMap.2 ⟨x, hx, mem_map_of_mem hr⟩

theorem exists_record_of_key (h : k ∈ keysOf leaves) : ∃ r ∈ recordsOf leaves, r.1 = k := by
  obtain ⟨x, hx, hk⟩ := mem_flatMap.1 h
  obtain ⟨r, hr, rfl⟩ := mem_map.1 hk
  exact ⟨r, mem_flatMap.2 ⟨x, hx, hr⟩, rfl⟩

/-- In a well-formed tree whose nodes all begin in the first 4 GiB the searches are complete. -/
theorem complete_of_inReach [LE κ] (hwf : t.WellFormed leaves) (hmn : Monotone comp) (key : κ) (hreach : t.InReach) :
    t.Complete leaves comp key := by
  have hrd := hreach.reads
  have hcl := hmn.climbs hwf key
  constructor
  · obtain ⟨left, taken, right, hleaves, hlf, hrt, enough, hfi⟩ := findLeafNodes_spec hwf hrd hcl.gathers
    refine ⟨enough, taken.map snd, hfi, fun r hr hze => ?_⟩
    rw [recordsOf, hleaves, flatMap_append, flatMap_append] at hr
    rcases mem_append.1 hr with hr | hr
    · rcases mem_append.1 hr with hr | hr
      · exact absurd hze (hlf r.1 (key_mem_keysOf hr))
      · obtain ⟨x, hx, hxr⟩ := mem_flatMap.1 hr
        exact ⟨x.2, mem_map_of_mem hx, hxr⟩
    · exact absurd hze (hrt r.1 (key_mem_keysOf hr))
  · rintro ⟨r, hr, hze⟩
    rcases hwf.tree with ⟨header, -, -, -, rfl⟩ | ⟨d, hsub⟩
    · cases hr
    · obtain ⟨x, hx, hrec, htr⟩ := traverseTree_exact hrd (fun a => hmn.swap a key) hsub hcl ⟨r.1, key_mem_keysOf hr, hze⟩
      exact ⟨d + 1, x, hx, hrec, fun rounds henough => htr rounds (by omega)⟩

/-! ## Trees with given records -/

def lastLeaf (records : List (κ × Payload α)) : BTree κ α where
  nodeSize := nodeSize
  rootNode := totalNodes - 1
  totalNodes := totalNodes
  nodeAt off := if off = nodeSize * (totalNodes - 1) then .ok ⟨.leaf, 0, records⟩ else .ok ⟨.header, 0, []⟩

theorem lastLeaf_wellFormed [LE κ] {nodeSize totalNodes : Nat} (hsize : 0 < nodeSize) (htotal : 1 < totalNodes)
    (hne : records ≠ []) (hasc : (records.map fst).Pairwise (· ≤ ·)) :
    (lastLeaf nodeSize totalNodes records).WellFormed [(totalNodes - 1, ⟨.leaf, 0, records⟩)] where
  size_pos := hsize
  tree := .inr ⟨0, _, ⟨show totalNodes - 1 < totalNodes by omega, if_pos rfl⟩, rfl, hne, rfl⟩
  linked := rfl
  numbers := by simp
  nonzero := fun x hx => by
    rw [mem_singleton] at hx
    subst hx
    omega
  ascending := by simpa [keysOf] using hasc

/-- Behind the first 4 GiB the leaf is not read: the position wraps around to another node. -/
theorem lastLeaf_not_read {nodeSize totalNodes : Nat} (h : 2 ^ 32 ≤ nodeSize * (totalNodes - 1)) (records : List (κ × Payload α))
    (comp : KeyComparator κ) (key : κ) (n : Nat) :
    (lastLeaf nodeSize totalNodes records).findLeafNodes comp key (n + 1) = some (.ok []) := by
  have hne : nodeSize * (totalNodes - 1) % 2 ^ 32 ≠ nodeSize * (totalNodes - 1) := by
    omega
  have hread : (lastLeaf nodeSize totalNodes records).readNode (totalNodes - 1) = .ok ⟨.header, 0, []⟩ := by
    simp only [readNode, lastLeaf, if_neg hne]
  simp only [findLeafNodes, findLeafNode, traverseTree,
    show (lastLeaf nodeSize totalNodes records).rootNode = totalNodes - 1 from rfl, hread]

def leafPair (r : κ × Payload α) (left : List (κ × Payload α)) (r' : κ × Payload α)
    (right : List (κ × Payload α)) : BTree κ α where
  nodeSize := nodeSize
  rootNode := 1
  totalNodes := totalNodes
  nodeAt off :=
    if off = nodeSize * 1 then .ok ⟨.index, 0, [(r.1, .child 2), (r'.1, .child 3)]⟩
    else if off = nodeSize * 2 then .ok ⟨.leaf, 3, r :: left⟩
    else if off = nodeSize * 3 then .ok ⟨.leaf, 0, r' :: right⟩
    else .ok ⟨.header, 0, []⟩

section LeafPair

variable {nodeSize totalNodes : Nat} {r r' : κ × Payload α} {left right : List (κ × Payload α)}

variable (r r' left right) in
theorem leafPair_holds (hsize : 0 < nodeSize) (htotal : 3 < totalNodes) :
    (leafPair nodeSize totalNodes r left r' right).Holds 1 ⟨.index, 0, [(r.1, .child 2), (r'.1, .child 3)]⟩ ∧
    (leafPair nodeSize totalNodes r left r' right).Holds 2 ⟨.leaf, 3, r :: left⟩ ∧
    (leafPair nodeSize totalNodes r left r' right).Holds 3 ⟨.leaf, 0, r' :: right⟩ := by
  refine ⟨⟨show 1 < totalNodes by omega, if_pos rfl⟩, ⟨show 2 < totalNodes by omega, ?_⟩, ⟨show 3 < totalNodes by omega, ?_⟩⟩
  · exact (if_neg (show nodeSize * 2 ≠ nodeSize * 1 by omega)).trans (if_pos rfl)
  · exact (if_neg (show nodeSize * 3 ≠ nodeSize * 1 by omega)).trans
      ((if_neg (show nodeSize * 3 ≠ nodeSize * 2 by omega)).trans (if_pos rfl))

theorem leafPair_wellFormed [LE κ] (hsize : 0 < nodeSize) (htotal : 3 < totalNodes)
    (hasc : ((r :: left ++ r' :: right).map fst).Pairwise (· ≤ ·)) :
    (leafPair nodeSize totalNodes r left r' right).WellFormed [(2, ⟨.leaf, 3, r :: left⟩), (3, ⟨.leaf, 0, r' :: right⟩)] where
  size_pos := hsize
  tree := by
    obtain ⟨hroo, hlf, hrt⟩ := leafPair_holds r r' left right hsize htotal
    exact .inr ⟨1, _, [[(2, ⟨.leaf, 3, r :: left⟩)], [(3, ⟨.leaf, 0, r' :: right⟩)]], hroo, rfl, by simp, rfl,
      .cons ⟨2, rfl, ⟨_, hlf, rfl, by simp, rfl⟩, rfl⟩ (.cons ⟨3, rfl, ⟨_, hrt, rfl, by simp, rfl⟩, rfl⟩ .nil)⟩
  linked := ⟨rfl, rfl⟩
  numbers := by simp
  nonzero := by simp
  ascending := by simpa [keysOf] using hasc

theorem position_pair (a b : κ × Payload α) : position comp key true [a, b] = if comp b.1 key < 0 then 1 else 0 := by
  by_cases hb : comp b.1 key < 0
  · simp [position, bisect, bisectFrom, goesOn, hb]
  · by_cases ha : comp a.1 key < 0 <;> simp [position, bisect, bisectFrom, goesOn, hb, ha]

/-- Going down for a range leads to the right leaf if it begins with a smaller key, and else to the left one. -/
theorem leafPair_findLeafNode (hsize : 0 < nodeSize) (htotal : 3 < totalNodes)
    (hreach : nodeSize * (totalNodes - 1) < 2 ^ 32) (n : Nat) :
    (leafPair nodeSize totalNodes r left r' right).findLeafNode comp key true (n + 2) =
      some (.ok (some (if comp r'.1 key < 0 then ⟨.leaf, 0, r' :: right⟩ else ⟨.leaf, 3, r :: left⟩))) := by
  have hrd : (leafPair nodeSize totalNodes r left r' right).Reads := InReach.reads hreach
  obtain ⟨hroo, hlf, hrt⟩ := leafPair_holds r r' left right hsize htotal
  by_cases hneg : comp r'.1 key < 0
  · rw [if_pos hneg]
    refine (traverseTree_index hrd hroo rfl (by rw [position_pair, if_pos hneg]; rfl) rfl (n + 1)).trans ?_
    rw [traverseTree, hrd _ _ hrt]
  · rw [if_neg hneg]
    refine (traverseTree_index hrd hroo rfl (by rw [position_pair, if_neg hneg]; rfl) rfl (n + 1)).trans ?_
    rw [traverseTree, hrd _ _ hlf]

/-- A search for a range looks into the left leaf only, when the right one begins with a greater key. -/
theorem leafPair_left (hsize : 0 < nodeSize) (htotal : 3 < totalNodes) (hreach : nodeSize * (totalNodes - 1) < 2 ^ 32)
    (hpos : 0 < comp r'.1 key) (n : Nat) :
    (leafPair nodeSize totalNodes r left r' right).findLeafNodes comp key (n + 2) = some (.ok [⟨.leaf, 3, r :: left⟩]) := by
  have hrd : (leafPair nodeSize totalNodes r left r' right).Reads := InReach.reads hreach
  have hrt := (leafPair_holds r r' left right hsize htotal).2.2
  rw [findLeafNodes, leafPair_findLeafNode hsize htotal hreach, if_neg (by omega)]
  simp only [followLinks, hrd _ _ hrt, head?_cons, if_pos hpos, not_mem_nil, if_false]
  rfl

/-- A search for a range looks into the right leaf only, when it begins with a smaller key. -/
theorem leafPair_right (hsize : 0 < nodeSize) (htotal : 3 < totalNodes) (hreach : nodeSize * (totalNodes - 1) < 2 ^ 32)
    (hneg : comp r'.1 key < 0) (n : Nat) :
    (leafPair nodeSize totalNodes r left r' right).findLeafNodes comp key (n + 2) = some (.ok [⟨.leaf, 0, r' :: right⟩]) := by
  rw [findLeafNodes, leafPair_findLeafNode hsize htotal hreach, if_pos hneg]
  rfl

end LeafPair

/-- The searches are complete in all well-formed trees of a node size and a number of nodes, with every monotone comparator and
every key, if and only if the last node begins in the first 4 GiB. -/
theorem search_complete_iff_inReach [LE κ] [Nonempty κ] [Nonempty α] (nodeSize totalNodes : Nat) (hsize : 0 < nodeSize)
    (htotal : 1 < totalNodes) :
    (∀ (t : BTree κ α) (leaves : List (Nat × Node κ α)), t.nodeSize = nodeSize → t.totalNodes = totalNodes → t.WellFormed leaves →
      ∀ comp : KeyComparator κ, Monotone comp → ∀ key, t.Complete leaves comp key) ↔ nodeSize * (totalNodes - 1) < 2 ^ 32 := by
  constructor
  · intro h
    by_contra hge
    obtain ⟨k⟩ := ‹Nonempty κ›
    obtain ⟨a⟩ := ‹Nonempty α›
    -- everything compares equal to everything
    have hmn : Monotone (fun _ _ : κ => (0 : Int)) := ⟨fun _ _ _ _ h => h, fun _ _ _ _ h => h, fun _ _ => Iff.rfl⟩
    obtain ⟨enough, nodes, hfi, hall⟩ := (h (lastLeaf nodeSize totalNodes [(k, .value a)]) _ rfl rfl
      (lastLeaf_wellFormed hsize htotal (by simp) (by simp)) _ hmn k).range
    have hno := hfi (enough + 1) (by omega)
    rw [lastLeaf_not_read (by omega)] at hno
    obtain ⟨node, hnod, -⟩ := hall (k, .value a) (by simp [recordsOf]) rfl
    rw [← Except.ok.inj (some.inj hno)] at hnod
    cases hnod
  · rintro h t leaves rfl rfl hwf comp hmn key
    exact complete_of_inReach hwf hmn key h

def twoLeaves : BTree Nat Unit := leafPair 512 4 (1, .value ()) [(3, .value ())] (5, .value ()) [(7, .value ())]

theorem twoLeaves_wellFormed : twoLeaves.WellFormed [(2, ⟨.leaf, 3, [(1, .value ()), (3, .value ())]⟩),
    (3, ⟨.leaf, 0, [(5, .value ()), (7, .value ())]⟩)] :=
  leafPair_wellFormed (by decide) (by decide) (by decide)

/-- Subtracting numbers compares them. -/
theorem monotone_sub : Monotone (fun a s : Nat => (a : Int) - s) where
  nonneg := fun a b s h h' => by omega
  pos := fun a b s h h' => by omega
  swap := fun a s => by omega

/-- The key 5 is found, in the second of two leaves. -/
theorem search_complete_iff_inReach_twoLeaves : ∃ enough nodes,
    (∀ rounds ≥ enough, twoLeaves.findLeafNodes (fun a s => (a : Int) - s) 5 rounds = some (.ok nodes)) ∧
      ∃ node ∈ nodes, (5, .value ()) ∈ node.records := by
  obtain ⟨enough, nodes, hfi, hall⟩ := ((search_complete_iff_inReach 512 4 (by decide) (by decide)).2 (by decide) twoLeaves _
    rfl rfl twoLeaves_wellFormed (fun a s => (a : Int) - s) monotone_sub 5).range
  exact ⟨enough, nodes, hfi, hall (5, .value ()) (by simp [recordsOf]) (by decide)⟩

/-- With nodes of 512 bytes, a tree whose only leaf is right behind the first 4 GiB: nothing is found. -/
theorem search_beyondReach : ∃ (t : BTree Nat Unit) (leaves : List (Nat × Node Nat Unit)), t.WellFormed leaves ∧
    ∃ comp, Monotone comp ∧ ∃ key, ¬ t.Complete leaves comp key := by
  refine ⟨lastLeaf 512 (2 ^ 23 + 1) [(5, .value ())], _,
    lastLeaf_wellFormed (by decide) (by decide) (by simp) (by simp), _, monotone_sub, 5, ?_⟩
  rintro ⟨⟨enough, nodes, hfi, hall⟩, -⟩
  have hno := hfi (enough + 1) (by omega)
  obtain ⟨node, hnod, -⟩ := hall (5, .value ()) (by simp [recordsOf]) (by decide)
  rw [← Except.ok.inj (some.inj hno)] at hnod
  cases hnod

end BTree

end Osxie.Dmg
