import Mathlib.Data.List.Pairwise
import Osxie.LaunchServices.Database

/-!
# Queries of types

The queries for tags and for a conformance look at all rows with an identifier, and those for the parents and the declaration at
the first one. The tags of a declaration are a dictionary, which has one value for a class.
-/

namespace Osxie.LaunchServices

open List

namespace TypeTables

variable (t : TypeTables) (inUTI : String)

/-- The rows with an identifier. -/
def rowsOf : List (Nat × UtiRow) := t.uti.select fun row => nocase row.typeIdentifier = nocase inUTI

def utTypeCreateAllIdentifiersForTag (inTagClass inTag : String) : List String :=
  t.uti.rows.flatMap fun r =>
    ((t.tag.children r.1).filter fun tag => tag.1 = inTagClass ∧ nocase tag.2 = nocase inTag).map fun _ => r.2.typeIdentifier

def utTypeCopyAllTagsWithClass (inUTI inTagClass : String) : List String :=
  (t.rowsOf inUTI).flatMap fun r => ((t.tag.children r.1).filter fun tag => tag.1 = inTagClass).map Prod.snd

def utTypeConformsTo (inUTI inConformsToUTI : String) : Bool :=
  (t.rowsOf inUTI).any fun r => (t.conforms.children r.1).any fun parent => nocase parent = nocase inConformsToUTI

def utTypeCopyParentIdentifiers : List String :=
  (t.rowsOf inUTI).head?.toList.flatMap fun r => t.conforms.children r.1

/-- An entry of a dictionary is set. -/
def setTag (tags : List (String × String)) (tag : String × String) : List (String × String) :=
  tags.filter (·.1 ≠ tag.1) ++ [tag]

def utTypeCopyDeclaration : Option StoredType :=
  (t.rowsOf inUTI).head?.map fun r => { t.stored r with
    identifier := inUTI
    tags := (t.tag.children r.1).foldl setTag [] }

/-- A tag as it is compared. -/
def folded (tag : String × String) : String × List Char := (tag.1, nocase tag.2)

/-- The answers about a type agree, up to the case of letters. -/
structure Agree (uti : String) : Prop where
  tags : ∀ c v, nocase uti ∈ (t.utTypeCreateAllIdentifiersForTag c v).map nocase ↔
    nocase v ∈ (t.utTypeCopyAllTagsWithClass uti c).map nocase
  parents : ∀ p, t.utTypeConformsTo uti p ↔ nocase p ∈ (t.utTypeCopyParentIdentifiers uti).map nocase
  declaredTags : ∀ c v, (∃ d ∈ t.utTypeCopyDeclaration uti, folded (c, v) ∈ d.tags.map folded) ↔
    nocase v ∈ (t.utTypeCopyAllTagsWithClass uti c).map nocase
  declaredParents : ∀ p, (∃ d ∈ t.utTypeCopyDeclaration uti, p ∈ d.conformsTo) ↔ p ∈ t.utTypeCopyParentIdentifiers uti

/-- The first row with an identifier has the parents and the tag classes of all of them, and a class has one value in them, up to
the case of letters. -/
structure Settled (uti : String) : Prop where
  parents : ∀ r ∈ t.rowsOf uti, ∀ p ∈ t.conforms.children r.1, ∃ first ∈ (t.rowsOf uti).head?,
    ∃ q ∈ t.conforms.children first.1, nocase q = nocase p
  classes : ∀ r ∈ t.rowsOf uti, ∀ tag ∈ t.tag.children r.1, ∃ first ∈ (t.rowsOf uti).head?,
    ∃ tag' ∈ t.tag.children first.1, tag'.1 = tag.1
  values : ∀ r ∈ t.rowsOf uti, ∀ r' ∈ t.rowsOf uti, ∀ tag ∈ t.tag.children r.1, ∀ tag' ∈ t.tag.children r'.1,
    tag.1 = tag'.1 → nocase tag.2 = nocase tag'.2

theorem mem_of_mem_foldl_setTag {tag : String × String} {dict tags : List (String × String)} (h : tag ∈ tags.foldl setTag dict) :
    tag ∈ dict ∨ tag ∈ tags := by
  induction tags generalizing dict with
  | nil => exact .inl h
  | cons first tags ih =>
    rcases ih h with hd | ht
    · simp only [setTag, mem_append, mem_filter, mem_singleton] at hd
      rcases hd with hd | rfl
      · exact .inl hd.1
      · exact .inr mem_cons_self
    · exact .inr (mem_cons_of_mem _ ht)

/-- The dictionary has an entry for the class of every tag. -/
theorem exists_mem_foldl_setTag {tag : String × String} {dict tags : List (String × String)}
    (h : (∃ x ∈ dict, x.1 = tag.1) ∨ tag ∈ tags) : ∃ x ∈ tags.foldl setTag dict, x.1 = tag.1 := by
  induction tags generalizing dict with
  | nil => exact h.resolve_right not_mem_nil
  | cons first tags ih =>
    refine ih ?_
    by_cases hfirst : first.1 = tag.1
    · exact .inl ⟨first, by simp [setTag], hfirst⟩
    · rcases h with ⟨x, hx, hxc⟩ | h
      · exact .inl ⟨x, by simp [setTag, hx, hxc, Ne.symm hfirst], hxc⟩
      · rcases mem_cons.1 h with rfl | h
        · exact absurd rfl hfirst
        · exact .inr h

/-- It has one entry for a class. -/
theorem foldl_setTag_pairwise {dict : List (String × String)} (tags : List (String × String)) (h : dict.Pairwise (·.1 ≠ ·.1)) :
    (tags.foldl setTag dict).Pairwise (·.1 ≠ ·.1) := by
  induction tags generalizing dict with
  | nil => exact h
  | cons first tags ih =>
    refine ih (pairwise_append.2 ⟨h.filter _, pairwise_singleton _ _, fun x hx y hy => ?_⟩)
    rw [mem_singleton.1 hy]
    exact of_decide_eq_true (mem_filter.1 hx).2

variable {t} {uti c v p : String}

theorem folded_eq_iff {a b : String × String} : folded a = folded b ↔ a.1 = b.1 ∧ nocase a.2 = nocase b.2 := Prod.ext_iff

theorem mem_allTags : nocase v ∈ (t.utTypeCopyAllTagsWithClass uti c).map nocase ↔
    ∃ r ∈ t.rowsOf uti, ∃ tag ∈ t.tag.children r.1, folded tag = folded (c, v) := by
  simp [utTypeCopyAllTagsWithClass, folded]
  grind

theorem mem_allIdentifiers : nocase uti ∈ (t.utTypeCreateAllIdentifiersForTag c v).map nocase ↔
    ∃ r ∈ t.rowsOf uti, ∃ tag ∈ t.tag.children r.1, folded tag = folded (c, v) := by
  simp [utTypeCreateAllIdentifiersForTag, folded, rowsOf, Table.select]
  grind

theorem conformsTo_iff : t.utTypeConformsTo uti p ↔
    ∃ r ∈ t.rowsOf uti, ∃ parent ∈ t.conforms.children r.1, nocase parent = nocase p := by
  simp [utTypeConformsTo]

theorem mem_parents : nocase p ∈ (t.utTypeCopyParentIdentifiers uti).map nocase ↔
    ∃ first ∈ (t.rowsOf uti).head?, ∃ q ∈ t.conforms.children first.1, nocase q = nocase p := by
  constructor
  · intro h
    obtain ⟨q, hq, heq⟩ := mem_map.1 h
    obtain ⟨first, hfirst, hq⟩ := mem_flatMap.1 hq
    exact ⟨first, Option.mem_toList.1 hfirst, q, hq, heq⟩
  · rintro ⟨first, hfirst, q, hq, heq⟩
    exact mem_map.2 ⟨q, mem_flatMap.2 ⟨first, Option.mem_toList.2 hfirst, hq⟩, heq⟩

/-- A tag is declared just when it is in the dictionary of the first row. -/
theorem mem_declared : (∃ d ∈ t.utTypeCopyDeclaration uti, folded (c, v) ∈ d.tags.map folded) ↔
    ∃ first ∈ (t.rowsOf uti).head?, ∃ tag ∈ (t.tag.children first.1).foldl setTag [], folded tag = folded (c, v) := by
  simp [utTypeCopyDeclaration]

/-- The answers agree if and only if the rows are settled; the answers about tags always do. -/
theorem agree_iff_settled (uti : String) : t.Agree uti ↔ t.Settled uti := by
  constructor
  · intro h
    have hdeclared {r : Nat × UtiRow} (hr : r ∈ t.rowsOf uti) {tag : String × String} (htag : tag ∈ t.tag.children r.1) :
        ∃ first ∈ (t.rowsOf uti).head?, ∃ x ∈ (t.tag.children first.1).foldl setTag [], folded x = folded tag :=
      mem_declared.1 ((h.declaredTags tag.1 tag.2).2 (mem_allTags.2 ⟨r, hr, tag, htag, rfl⟩))
    refine ⟨fun r hr p hp => mem_parents.1 ((h.parents p).1 (conformsTo_iff.2 ⟨r, hr, p, hp, rfl⟩)),
      fun r hr tag htag => ?_, fun r hr r' hr' tag htag tag' htag' hclass => ?_⟩
    · obtain ⟨first, hfirst, x, hx, heq⟩ := hdeclared hr htag
      exact ⟨first, hfirst, x, (mem_of_mem_foldl_setTag hx).resolve_left not_mem_nil, (folded_eq_iff.1 heq).1⟩
    · obtain ⟨first, hfirst, x, hx, heq⟩ := hdeclared hr htag
      obtain ⟨first', hfirst', x', hx', heq'⟩ := hdeclared hr' htag'
      obtain rfl := Option.mem_unique hfirst hfirst'
      -- both are the one entry of the dictionary for their class
      have hone : x = x' := by
        by_contra hne
        have hpair := foldl_setTag_pairwise (t.tag.children first.1) Pairwise.nil
        have : Std.Symm fun a b : String × String => a.1 ≠ b.1 := ⟨fun _ _ => Ne.symm⟩
        exact hpair.forall hx hx' hne ((folded_eq_iff.1 heq).1.trans (hclass.trans (folded_eq_iff.1 heq').1.symm))
      subst hone
      exact (folded_eq_iff.1 heq).2.symm.trans (folded_eq_iff.1 heq').2
  · intro h
    refine ⟨fun c v => mem_allIdentifiers.trans mem_allTags.symm, fun p => conformsTo_iff.trans (.trans ⟨?_, ?_⟩ mem_parents.symm),
      fun c v => mem_declared.trans (.trans ⟨?_, ?_⟩ mem_allTags.symm), fun p => ?_⟩
    · rintro ⟨r, hr, parent, hparent, heq⟩
      exact heq ▸ h.parents r hr parent hparent
    · rintro ⟨first, hfirst, q, hq, heq⟩
      exact ⟨first, mem_of_mem_head? hfirst, q, hq, heq⟩
    · rintro ⟨first, hfirst, tag, htag, heq⟩
      exact ⟨first, mem_of_mem_head? hfirst, tag, (mem_of_mem_foldl_setTag htag).resolve_left not_mem_nil, heq⟩
    · rintro ⟨r, hr, tag, htag, heq⟩
      obtain ⟨first, hfirst, tag', htag', hclass⟩ := h.classes r hr tag htag
      obtain ⟨x, hx, hxclass⟩ := @exists_mem_foldl_setTag tag' [] _ (.inr htag')
      have hrow := (mem_of_mem_foldl_setTag hx).resolve_left not_mem_nil
      have hclass := hxclass.trans hclass
      refine ⟨first, hfirst, x, hx, .trans ?_ heq⟩
      exact folded_eq_iff.2 ⟨hclass, (h.values first (mem_of_mem_head? hfirst) r hr x hrow tag htag hclass)⟩
    · simp [utTypeCopyDeclaration, utTypeCopyParentIdentifiers, stored]

/-- A type with two extensions. -/
theorem not_agree : ¬(⟨Table.empty.insert ⟨"org.osxie.text", "Text", 1⟩, .empty, .empty,
    Table.empty.insertAll 1 [("public.filename-extension", "txt"), ("public.filename-extension", "text")]⟩ : TypeTables).Agree
      "org.osxie.text" := by
  intro h
  have hmem := (h.declaredTags "public.filename-extension" "txt").2 (by decide)
  revert hmem
  decide +kernel

end TypeTables

end Osxie.LaunchServices
