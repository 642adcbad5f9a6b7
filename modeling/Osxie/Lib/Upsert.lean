import Mathlib.Data.List.Nodup
import Mathlib.Data.List.Perm.Basic

/-!
# Updating or inserting

A list of items with keys. `upsert` merges an item into the one with its key, and appends it if there is none. What a list holds
under a key is `find?` by the key; for distinct keys, lists that hold the same under every key are permutations of each other.
-/

namespace Osxie

open List Option

variable {α κ : Type} [DecidableEq κ] (key : α → κ) (merge : α → α → α)

def findKey (k : κ) (l : List α) : Option α := l.find? fun a => key a = k

/-- An item is merged into the one with its key, or appended. -/
def upsert (l : List α) (e : α) : List α :=
  if (findKey key (key e) l).isSome then l.map fun a => if key a = key e then merge a e else a else l ++ [e]

variable {key merge}

variable {l : List α}

theorem findKey_eq_none {k : κ} : findKey key k l = none ↔ ∀ a ∈ l, key a ≠ k := by
  simp [findKey]

theorem mem_of_findKey {k : κ} {a : α} (h : findKey key k l = some a) : a ∈ l ∧ key a = k :=
  ⟨mem_of_find?_eq_some h, by simpa using find?_some h⟩

/-- With distinct keys, every item is found under its key. -/
theorem findKey_of_mem (hl : (l.map key).Nodup) {a : α} (ha : a ∈ l) : findKey key (key a) l = some a := by
  cases h : findKey key (key a) l with
  | none => exact absurd rfl (findKey_eq_none.1 h a ha)
  | some b =>
    obtain ⟨hb, hkey⟩ := mem_of_findKey h
    rw [inj_on_of_nodup_map hl hb ha hkey]

theorem findKey_append (k : κ) (l l' : List α) : findKey key k (l ++ l') = (findKey key k l).or (findKey key k l') := find?_append

/-- Lists with distinct keys that hold the same under every key. -/
theorem perm_of_findKey {l l' : List α} (hl : (l.map key).Nodup) (hl' : (l'.map key).Nodup)
    (h : ∀ k, findKey key k l = findKey key k l') : l.Perm l' := by
  refine (perm_ext_iff_of_nodup hl.of_map hl'.of_map).2 fun a => ⟨fun ha => ?_, fun ha => ?_⟩
  · exact (mem_of_findKey ((h (key a)).symm.trans (findKey_of_mem hl ha))).1
  · exact (mem_of_findKey ((h (key a)).trans (findKey_of_mem hl' ha))).1

/-- What is left of a list with distinct keys. -/
theorem findKey_filter (hl : (l.map key).Nodup) (p : α → Bool) (k : κ) :
    findKey key k (l.filter p) = (findKey key k l).filter p := by
  cases h : findKey key k l with
  | none =>
    rw [filter_none, findKey_eq_none]
    exact fun a ha => findKey_eq_none.1 h a (mem_filter.1 ha).1
  | some a =>
    obtain ⟨ha, rfl⟩ := mem_of_findKey h
    cases hp : p a with
    | false =>
      rw [filter_some_neg (by simp [hp]), findKey_eq_none]
      intro b hb hkey
      obtain ⟨hmem, hpb⟩ := mem_filter.1 hb
      rw [inj_on_of_nodup_map hl hmem ha hkey, hp] at hpb
      exact Bool.false_ne_true hpb
    | true =>
      rw [filter_some_pos hp]
      exact findKey_of_mem ((filter_sublist.map key).nodup hl) (mem_filter.2 ⟨ha, hp⟩)

/-! ## One item -/

def merged (merge : α → α → α) (o : Option α) (e : α) : α :=
  match o with
  | some a => merge a e
  | none => e

section

variable (hmerge : ∀ a e, key (merge a e) = key a)

include hmerge

theorem findKey_upsert (l : List α) (e : α) (k : κ) :
    findKey key k (upsert key merge l e) = if key e = k then some (merged merge (findKey key k l) e) else findKey key k l := by
  have hkey : ∀ a, key (if key a = key e then merge a e else a) = key a := by
    intro a
    split
    · exact hmerge a e
    · rfl
  unfold upsert
  split
  · rename_i hfound
    have hmap : findKey key k (l.map fun a => if key a = key e then merge a e else a) =
        (findKey key k l).map fun a => if key a = key e then merge a e else a := by
      simp only [findKey, find?_map, Function.comp_def, hkey]
    rw [hmap]
    split
    · rename_i hk
      subst hk
      obtain ⟨a, ha⟩ := isSome_iff_exists.1 hfound
      rw [ha, map_some, if_pos (mem_of_findKey ha).2]
      rfl
    · rename_i hk
      cases h : findKey key k l with
      | none => rfl
      | some a => rw [map_some, if_neg fun hx => hk (hx.symm.trans (mem_of_findKey h).2)]
  · rename_i hfound
    rw [findKey_append]
    split
    · rename_i hk
      subst hk
      rw [not_isSome_iff_eq_none.1 hfound]
      simp [findKey, merged]
    · rename_i hk
      simp [findKey, hk]

theorem nodup_upsert (hl : (l.map key).Nodup) (e : α) : ((upsert key merge l e).map key).Nodup := by
  unfold upsert
  split
  · rw [List.map_map]
    have hmap : (key ∘ fun a => if key a = key e then merge a e else a) = key := by
      funext a
      simp only [Function.comp]
      split
      · exact hmerge a e
      · rfl
    rw [hmap]
    exact hl
  · rename_i hfound
    have hno := findKey_eq_none.1 (not_isSome_iff_eq_none.1 hfound)
    rw [map_append]
    refine nodup_append.2 ⟨hl, nodup_singleton _, ?_⟩
    intro i hi j hj
    obtain ⟨a, ha, rfl⟩ := mem_map.1 hi
    rw [mem_singleton.1 hj]
    exact hno a ha

/-! ## A list of items -/

theorem nodup_foldl_upsert (hl : (l.map key).Nodup) (es : List α) : ((es.foldl (upsert key merge) l).map key).Nodup := by
  induction es generalizing l with
  | nil => exact hl
  | cons e es ih => exact ih (nodup_upsert hmerge hl e)

variable {k : κ}

/-- What is held under a key depends on what was held under it. -/
theorem findKey_foldl_congr {l' : List α} (h : findKey key k l = findKey key k l') (es : List α) :
    findKey key k (es.foldl (upsert key merge) l) = findKey key k (es.foldl (upsert key merge) l') := by
  induction es generalizing l l' with
  | nil => exact h
  | cons e es ih => exact ih (by rw [findKey_upsert hmerge, findKey_upsert hmerge, h])

/-- A key that no item has. -/
theorem findKey_foldl_of_none {es : List α} (h : findKey key k es = none) :
    findKey key k (es.foldl (upsert key merge) l) = findKey key k l := by
  induction es generalizing l with
  | nil => rfl
  | cons e es ih =>
    have hall := findKey_eq_none.1 h
    rw [foldl_cons, ih (findKey_eq_none.2 fun a ha => hall a (mem_cons_of_mem e ha)), findKey_upsert hmerge,
      if_neg (hall e mem_cons_self)]

/-- A key that an item has, where the first such item prevails over what was held. -/
theorem findKey_foldl_of_first {es : List α} {e : α} (h : findKey key k es = some e)
    (hfirst : ∀ a, findKey key k l = some a → merge a e = e) :
    findKey key k (es.foldl (upsert key merge) l) = findKey key k (es.foldl (upsert key merge) []) := by
  induction es generalizing l with
  | nil => cases h
  | cons e' es ih =>
    by_cases hk : key e' = k
    · have he : e' = e := by
        rw [findKey, find?_cons_of_pos (by simpa using hk)] at h
        exact some.inj h
      subst he
      refine findKey_foldl_congr hmerge ?_ es
      rw [findKey_upsert hmerge, findKey_upsert hmerge, if_pos hk, if_pos hk]
      cases hl : findKey key k l with
      | none => rfl
      | some a => exact congrArg some (hfirst a hl)
    · have hes : findKey key k es = some e := by
        rw [findKey, find?_cons_of_neg (by simpa using hk)] at h
        exact h
      have hl : findKey key k (upsert key merge l e') = findKey key k l := by rw [findKey_upsert hmerge, if_neg hk]
      have hnil : findKey key k (upsert key merge [] e') = findKey key k [] := by rw [findKey_upsert hmerge, if_neg hk]
      rw [foldl_cons, ih hes (by rw [hl]; exact hfirst), foldl_cons, findKey_foldl_congr hmerge hnil es]

end

end Osxie
