import Mathlib.Data.List.Basic
import Mathlib.Order.Lattice

/-!
# Maps ordered by key

A map as a list of entries in ascending order of their keys, each key once. `insert` assigns a value to a key, `upTo` is the
entry with the greatest key that is not above a bound, and `after` the entry with the least key above it: these are the two
entries around the position that a search for the bound returns.
-/

namespace Osxie

open List Option

/-- Entries in ascending order of their keys. -/
structure SortedMap (κ ν : Type) [LinearOrder κ] where
  entries : List (κ × ν)
  sorted : entries.Pairwise (fun a b => a.1 < b.1)

namespace SortedMap

variable {κ ν : Type} [LinearOrder κ]

def empty : SortedMap κ ν := ⟨[], List.Pairwise.nil⟩

/-- The entries after a value was assigned to a key. -/
def insertEntry (k : κ) (v : ν) : List (κ × ν) → List (κ × ν)
  | [] => [(k, v)]
  | e :: es => if k < e.1 then (k, v) :: e :: es else if k = e.1 then (k, v) :: es else e :: insertEntry k v es

variable {es : List (κ × ν)} {e : κ × ν} {k bound : κ} {v : ν} {x : κ × ν} {m : SortedMap κ ν}

theorem mem_insertEntry (h : es.Pairwise (fun a b => a.1 < b.1)) : x ∈ insertEntry k v es ↔ x = (k, v) ∨ x ∈ es ∧ x.1 ≠ k := by
  induction es with
  | nil => simp [insertEntry]
  | cons e es ih =>
    obtain ⟨hhd, htl⟩ := pairwise_cons.1 h
    unfold insertEntry
    split
    · rename_i hlt
      rw [mem_cons]
      refine or_congr_right (iff_self_and.2 fun hx => ?_)
      rcases mem_cons.1 hx with rfl | hx
      · exact hlt.ne'
      · exact (hlt.trans (hhd x hx)).ne'
    · split
      · rename_i heq
        rw [mem_cons, mem_cons]
        refine or_congr_right ⟨fun hx => ⟨.inr hx, ?_⟩, fun ⟨hx, hne⟩ => ?_⟩
        · rw [heq]
          exact (hhd x hx).ne'
        · exact hx.resolve_left fun he => hne (he ▸ heq.symm)
      · rename_i hne
        rw [mem_cons, mem_cons, ih htl]
        constructor
        · rintro (rfl | rfl | ⟨hx, hk⟩)
          · exact .inr ⟨.inl rfl, fun he => hne he.symm⟩
          · exact .inl rfl
          · exact .inr ⟨.inr hx, hk⟩
        · rintro (rfl | ⟨rfl | hx, hk⟩)
          · exact .inr (.inl rfl)
          · exact .inl rfl
          · exact .inr (.inr ⟨hx, hk⟩)

theorem sorted_insertEntry (h : es.Pairwise (fun a b => a.1 < b.1)) : (insertEntry k v es).Pairwise (fun a b => a.1 < b.1) := by
  induction es with
  | nil => exact pairwise_singleton _ _
  | cons e es ih =>
    obtain ⟨hhd, htl⟩ := pairwise_cons.1 h
    unfold insertEntry
    split
    · rename_i hlt
      refine pairwise_cons.2 ⟨fun x hx => ?_, h⟩
      rcases mem_cons.1 hx with rfl | hx
      · exact hlt
      · exact hlt.trans (hhd x hx)
    · split
      · rename_i heq
        exact pairwise_cons.2 ⟨fun x hx => heq ▸ hhd x hx, htl⟩
      · rename_i hnotlt hne
        refine pairwise_cons.2 ⟨fun x hx => ?_, ih htl⟩
        rcases (mem_insertEntry htl).1 hx with rfl | ⟨hx, -⟩
        · exact lt_of_le_of_ne (not_lt.1 hnotlt) (Ne.symm hne)
        · exact hhd x hx

def insert (m : SortedMap κ ν) (k : κ) (v : ν) : SortedMap κ ν := ⟨insertEntry k v m.entries, sorted_insertEntry m.sorted⟩

/-- The entry with the greatest key that is not above a bound. -/
def upTo (m : SortedMap κ ν) (bound : κ) : Option (κ × ν) := m.entries.reverse.find? (fun e => decide (e.1 ≤ bound))

/-- The entry with the least key above a bound. -/
def after (m : SortedMap κ ν) (bound : κ) : Option (κ × ν) := m.entries.find? (fun e => decide (bound < e.1))

@[simp]
theorem mem_insert : x ∈ (m.insert k v).entries ↔ x = (k, v) ∨ x ∈ m.entries ∧ x.1 ≠ k := mem_insertEntry m.sorted

/-- Assigning a value to a new key adds an entry. -/
theorem perm_insertEntry (v : ν) (h : ∀ x ∈ es, x.1 ≠ k) : (insertEntry k v es).Perm ((k, v) :: es) := by
  induction es with
  | nil => exact .refl _
  | cons e es ih =>
    unfold insertEntry
    split
    · exact .refl _
    · rw [if_neg (h e mem_cons_self).symm]
      exact ((ih fun x hx => h x (mem_cons_of_mem _ hx)).cons e).trans (.swap ..)

/-- Assigning values to keys, one after the other. -/
def ofList (l : List (κ × ν)) : SortedMap κ ν := l.foldl (fun m e => m.insert e.1 e.2) empty

/-- The entries that come from keys which are all different are these. -/
theorem perm_ofList {l : List (κ × ν)} (h : (l.map Prod.fst).Nodup) : (ofList l).entries.Perm l := by
  suffices haux : ∀ m : SortedMap κ ν, (∀ x ∈ m.entries, ∀ e ∈ l, x.1 ≠ e.1) →
      (l.foldl (fun m e => m.insert e.1 e.2) m).entries.Perm (m.entries ++ l) by
    exact haux empty (by simp [empty])
  induction l with
  | nil => intro m _; rw [foldl_nil, append_nil]
  | cons e l ih =>
    intro m hm
    obtain ⟨hnew, hl⟩ := nodup_cons.1 h
    have hins : (m.insert e.1 e.2).entries.Perm (e :: m.entries) := perm_insertEntry e.2 fun x hx => hm x hx e mem_cons_self
    refine (ih hl (m.insert e.1 e.2) fun x hx e' he' => ?_).trans ((hins.append_right l).trans ?_)
    · rcases mem_cons.1 (hins.mem_iff.1 hx) with rfl | hx
      · exact fun heq => hnew (heq ▸ mem_map_of_mem he')
      · exact hm x hx e' (mem_cons_of_mem _ he')
    · exact perm_middle.symm

/-- What `upTo` finds: an entry that is not above the bound, and none such has a greater key. -/
theorem of_upTo_eq_some (h : m.upTo bound = some e) : e ∈ m.entries ∧ e.1 ≤ bound ∧ ∀ x ∈ m.entries, x.1 ≤ bound → x.1 ≤ e.1 := by
  obtain ⟨hle, above, below, hsplit, hbv⟩ := find?_eq_some_iff_append.1 h
  have hsorted : (above ++ e :: below).Pairwise (fun a b => b.1 < a.1) := hsplit ▸ pairwise_reverse.2 m.sorted
  have hbel := (pairwise_cons.1 (pairwise_append.1 hsorted).2.1).1
  have hmem : ∀ x, x ∈ m.entries ↔ x ∈ above ∨ x = e ∨ x ∈ below := by
    intro x
    rw [← mem_reverse, hsplit, mem_append, mem_cons]
  refine ⟨(hmem e).2 (.inr (.inl rfl)), of_decide_eq_true hle, fun x hx hxb => ?_⟩
  rcases (hmem x).1 hx with hx | rfl | hx
  · have := hbv x hx
    simp [hxb] at this
  · exact le_refl _
  · exact (hbel x hx).le

/-- `upTo` finds an entry when there is one that is not above the bound. -/
theorem exists_upTo (he : e ∈ m.entries) (hle : e.1 ≤ bound) : ∃ x, m.upTo bound = some x := by
  cases h : m.upTo bound with
  | some x => exact ⟨x, rfl⟩
  | none =>
    have := find?_eq_none.1 h e (mem_reverse.2 he)
    simp [hle] at this

/-- What `after` finds: an entry above the bound, and none such has a smaller key. -/
theorem of_after_eq_some (h : m.after bound = some e) :
    e ∈ m.entries ∧ bound < e.1 ∧ ∀ x ∈ m.entries, bound < x.1 → e.1 ≤ x.1 := by
  obtain ⟨hlt, below, above, hsplit, hbel⟩ := find?_eq_some_iff_append.1 h
  have hsorted : (below ++ e :: above).Pairwise (fun a b => a.1 < b.1) := hsplit ▸ m.sorted
  have hbv := (pairwise_cons.1 (pairwise_append.1 hsorted).2.1).1
  rw [hsplit]
  refine ⟨by simp, of_decide_eq_true hlt, fun x hx hxb => ?_⟩
  rcases mem_append.1 hx with hx | hx
  · have := hbel x hx
    simp [hxb] at this
  · rcases mem_cons.1 hx with rfl | hx
    · exact le_refl _
    · exact (hbv x hx).le

end SortedMap

end Osxie
