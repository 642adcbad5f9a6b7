import Osxie.LaunchServices.Database
import Osxie.Lib.Machine
import Osxie.Lib.Upsert

/-!
# Registering bundles again

A bundle whose Info dictionary has changed is registered again. What is stored then is to be what registering it in an empty
database stores; and nothing is to be stored for a bundle that was deleted.

The document types and the URL types are deleted and inserted again, the exported types are updated one by one.
-/

namespace Osxie.LaunchServices

open List StoredType Table InfoDictionary Database TypeTables DocumentType Function Bool

/-! ## The exported types -/

def TypeDeclaration.declared (uti : TypeDeclaration) : Option StoredType :=
  uti.typeId.map fun typeId => ⟨typeId, uti.descriptionFor typeId, uti.conformances, uti.icons, uti.tags⟩

namespace StoredType

def key (t : StoredType) : List Char := nocase t.identifier

/-- A type that is declared again: its values are replaced. -/
def merge (t e : StoredType) : StoredType := { t with conformsTo := e.conformsTo, icons := e.icons, tags := e.tags }

theorem key_merge (t e : StoredType) : (t.merge e).key = t.key := rfl

end StoredType

variable (stored es : List StoredType)

namespace TypeTables

def Once (t : TypeTables) : Prop := t.uti.Keyed fun row => (row.bundle, nocase row.typeIdentifier)

variable {t : TypeTables} {c : Connection TypeTables} {bundle : Nat} {typeId : String} {r : Nat × UtiRow} {uti : TypeDeclaration}
  {e : StoredType}

theorem find_some (h : t.find bundle typeId = some r) :
    r ∈ t.uti.rows ∧ nocase r.2.typeIdentifier = nocase typeId ∧ r.2.bundle = bundle := by
  have hr := mem_filter.1 (mem_of_mem_head? h)
  simpa using hr

theorem find_none (h : t.find bundle typeId = none) (hr : r ∈ t.uti.rows) (hb : r.2.bundle = bundle) :
    nocase r.2.typeIdentifier ≠ nocase typeId := by
  have hnil := filter_eq_nil_iff.1 (head?_eq_none_iff.1 h) r hr
  intro heq
  simp [heq, hb] at hnil

/-- A type that is stored stays as it is: it is given the description that it has. -/
theorem ensure_of_find (h : c.tables.find bundle typeId = some r) (description : String) :
    ensure c bundle typeId description = (c, r.1) := by
  obtain ⟨hr, -, -⟩ := find_some h
  unfold ensure
  rw [h]
  dsimp only
  split
  · have hse : (c.tables.uti.update r.1 fun row => { row with description := r.2.description }) = c.tables.uti := by
      refine c.tables.uti.update_self fun r' hr' hid => ?_
      rw [c.tables.uti.eq_of_id_eq hr' hr hid]
    rw [hse]
  · rfl

/-- The values of a type are replaced, and those of the others are not. -/
theorem stored_fill (c : Connection TypeTables) (utiId : Nat) (he : uti.declared = some e) (r : Nat × UtiRow) :
    (fill c utiId uti).tables.stored r = if r.1 = utiId then (c.tables.stored r).merge e else c.tables.stored r := by
  obtain ⟨typeId, -, rfl⟩ := Option.map_eq_some_iff.1 he
  simp only [stored, fill, children_replace]
  split <;> rfl

/-- One declaration: the type is merged into the one that is stored, or added; those of the other bundles stay. -/
structure Declares (bundle : Nat) (t t' : TypeTables) (e : StoredType) : Prop where
  once : t'.Once
  types : t'.ofBundle bundle = upsert key merge (t.ofBundle bundle) e
  others : ∀ b, b ≠ bundle → t'.ofBundle b = t.ofBundle b
  bundles : ∀ r ∈ t'.uti.rows, r.2.bundle = bundle ∨ r ∈ t.uti.rows

theorem mem_select : r ∈ (t.uti.select fun row => row.bundle == bundle) ↔ r ∈ t.uti.rows ∧ r.2.bundle = bundle := by
  simp [select]

/-- A type that is stored. -/
theorem declares_of_find (h : c.tables.Once) (he : uti.declared = some e)
    (hfi : c.tables.find bundle e.identifier = some r) :
    Declares bundle c.tables (fill c r.1 uti).tables e := by
  obtain ⟨hr, hkey, hb⟩ := find_some hfi
  refine ⟨h, ?_, ?_, fun r hr => .inr hr⟩
  · have hfound : (findKey key e.key (c.tables.ofBundle bundle)).isSome := by
      rw [Option.isSome_iff_ne_none]
      intro hno
      exact findKey_eq_none.1 hno (c.tables.stored r) (mem_map_of_mem (mem_select.2 ⟨hr, hb⟩)) hkey
    rw [upsert, if_pos hfound, ofBundle, ofBundle, map_map]
    refine map_congr_left fun r' hr' => ?_
    obtain ⟨hr', hb'⟩ := mem_select.1 hr'
    -- the row that was found is the one with the key
    have hiff : r'.1 = r.1 ↔ key (c.tables.stored r') = e.key := by
      constructor
      · intro hid
        rw [c.tables.uti.eq_of_id_eq hr' hr hid]
        exact hkey
      · intro hkey'
        exact congrArg Prod.fst (h r' hr' r hr (Prod.ext (hb'.trans hb.symm) (hkey'.trans hkey.symm)))
    rw [stored_fill c r.1 he r']
    simp only [hiff, comp]
  · intro b hne
    refine map_congr_left fun r' hr' => ?_
    obtain ⟨hr', hb'⟩ := mem_select.1 hr'
    rw [stored_fill c r.1 he r', if_neg]
    intro hid
    rw [c.tables.uti.eq_of_id_eq hr' hr hid, hb] at hb'
    exact hne hb'.symm

theorem Once.insertType (h : t.Once) {row : UtiRow} (hfi : t.find row.bundle row.typeIdentifier = none) :
    (t.insertType row).Once :=
  Table.Keyed.insert h fun _ hr heq => find_none hfi hr (congrArg Prod.fst heq) (congrArg Prod.snd heq)

section

variable (hc : c.tables = t.insertType ⟨e.identifier, e.description, bundle⟩)

include hc

/-- A type that is new is the last one of its bundle. -/
theorem ofBundle_new (he : uti.declared = some e) (b : Nat) :
    (fill c t.uti.next uti).tables.ofBundle b = t.ofBundle b ++ if bundle = b then [e] else [] := by
  have hold : ∀ r ∈ t.uti.rows, (fill c t.uti.next uti).tables.stored r = t.stored r := by
    intro r hr
    rw [stored_fill _ _ he, if_neg (Nat.ne_of_lt (t.uti.below r hr)), hc]
    rfl
  have hnew : (fill c t.uti.next uti).tables.stored (t.uti.next, ⟨e.identifier, e.description, bundle⟩) = e := by
    rw [stored_fill _ _ he, if_pos rfl]
    rfl
  have hrw : (fill c t.uti.next uti).tables.uti = t.uti.insert ⟨e.identifier, e.description, bundle⟩ := congrArg TypeTables.uti hc
  rw [ofBundle, hrw, map_select_insert _ _ UtiRow.bundle hold, hnew]
  rfl

/-- A type that is new. -/
theorem declares_of_new (h : t.Once) (he : uti.declared = some e) (hfi : t.find bundle e.identifier = none) :
    Declares bundle t (fill c t.uti.next uti).tables e := by
  have hsel := ofBundle_new hc he
  have hrw : (fill c t.uti.next uti).tables.uti = (t.insertType ⟨e.identifier, e.description, bundle⟩).uti := by
    show c.tables.uti = _
    rw [hc]
  refine ⟨?_, ?_, ?_, ?_⟩
  · rw [Once, hrw]
    exact h.insertType hfi
  · have hno : ¬(findKey key e.key (t.ofBundle bundle)).isSome := by
      rw [Option.not_isSome_iff_eq_none, findKey_eq_none]
      intro a ha
      obtain ⟨r, hr, rfl⟩ := mem_map.1 ha
      obtain ⟨hr, hb⟩ := mem_select.1 hr
      exact find_none hfi hr hb
    rw [upsert, if_neg hno, hsel, if_pos rfl]
  · intro b hne
    rw [hsel, if_neg (Ne.symm hne), append_nil]
  · intro r hr
    rw [hrw] at hr
    rcases mem_append.1 hr with hr | hr
    · exact .inr hr
    · rw [mem_singleton.1 hr]
      exact .inl rfl

end

variable {s : Connection TypeTables × List String}

theorem processUTI_of_declared (bundle : Nat) (h : s.1.tables.Once) (he : uti.declared = some e) :
    Declares bundle s.1.tables (processUTI bundle s uti).1.tables e ∧
      (processUTI bundle s uti).2 = s.2.filter fun previous => previous ≠ e.identifier := by
  obtain ⟨typeId, htyp, rfl⟩ := Option.map_eq_some_iff.1 he
  unfold processUTI
  rw [htyp]
  dsimp only
  refine ⟨?_, rfl⟩
  cases hfi : s.1.tables.find bundle typeId with
  | some r =>
    rw [ensure_of_find hfi]
    exact declares_of_find h he hfi
  | none =>
    have hens : ensure s.1 bundle typeId (uti.descriptionFor typeId) =
        (⟨s.1.tables.insertType ⟨typeId, uti.descriptionFor typeId, bundle⟩, s.1.tables.uti.next⟩, s.1.tables.uti.next) := by
      unfold ensure
      rw [hfi]
    rw [hens]
    exact declares_of_new rfl h he hfi

theorem processUTI_of_undeclared (he : uti.declared = none) : processUTI bundle s uti = s := by
  unfold processUTI
  rw [Option.map_eq_none_iff.1 he]

/-- The declarations of a list, one after the other. -/
theorem foldl_processUTI (bundle : Nat) (utis : List TypeDeclaration) (h : s.1.tables.Once) : let s' := utis.foldl (processUTI bundle) s
    let es := utis.filterMap TypeDeclaration.declared
    s'.1.tables.Once ∧
      s'.1.tables.ofBundle bundle = es.foldl (upsert key merge) (s.1.tables.ofBundle bundle) ∧
      (∀ b, b ≠ bundle → s'.1.tables.ofBundle b = s.1.tables.ofBundle b) ∧
      (∀ r ∈ s'.1.tables.uti.rows, r.2.bundle = bundle ∨ r ∈ s.1.tables.uti.rows) ∧
      s'.2 = s.2.filter fun previous => ∀ e ∈ es, previous ≠ e.identifier := by
  induction utis generalizing s with
  | nil => exact ⟨h, rfl, fun _ _ => rfl, fun r hr => .inr hr, by simp⟩
  | cons uti utis ih =>
    cases he : uti.declared with
    | none =>
      rw [foldl_cons, processUTI_of_undeclared he, filterMap_cons_none he]
      exact ih h
    | some e =>
      obtain ⟨hdeclared, hprev⟩ := processUTI_of_declared bundle h he
      obtain ⟨hnc, hty, hoth, hbun, hlf⟩ := ih hdeclared.once
      rw [foldl_cons, filterMap_cons_some he]
      refine ⟨hnc, ?_, ?_, ?_, ?_⟩
      · rw [hty, hdeclared.types, foldl_cons]
      · intro b hne
        rw [hoth b hne, hdeclared.others b hne]
      · intro r hr
        rcases hbun r hr with hb | hr
        · exact .inl hb
        · exact hdeclared.bundles r hr
      · rw [hlf, hprev, filter_filter]
        refine filter_congr fun previous _ => ?_
        simp only [forall_mem_cons, decide_and]
        exact and_comm ..

/-- The types that are not declared any more are deleted. -/
theorem foldl_deleteType (bundle : Nat) (deleted : List String) (h : t.Once) :
    let t' := deleted.foldl (deleteType bundle) t
    t'.Once ∧
      t'.ofBundle bundle = (t.ofBundle bundle).filter (fun a => ∀ d ∈ deleted, a.key ≠ nocase d) ∧
      (∀ b, b ≠ bundle → t'.ofBundle b = t.ofBundle b) ∧ (∀ r ∈ t'.uti.rows, r ∈ t.uti.rows) := by
  induction deleted generalizing t with
  | nil => exact ⟨h, by simp, fun _ _ => rfl, fun _ hr => hr⟩
  | cons d deleted ih =>
    have hnc : (deleteType bundle t d).Once := fun r hr r' hr' =>
      h r (mem_filter.1 hr).1 r' (mem_filter.1 hr').1
    obtain ⟨hnc', hty, hoth, hrw⟩ := ih hnc
    refine ⟨hnc', ?_, ?_, fun r hr => (mem_filter.1 (hrw r hr)).1⟩
    · have hdelta : (deleteType bundle t d).ofBundle bundle = (t.ofBundle bundle).filter fun a => a.key ≠ nocase d := by
        have hsel : ((deleteType bundle t d).uti.select fun row => row.bundle == bundle) =
            (t.uti.select fun row => row.bundle == bundle).filter fun r => (t.stored r).key ≠ nocase d := by
          rw [deleteType, select_delete]
          refine filter_congr fun r hr => ?_
          rw [(mem_select.1 hr).2]
          by_cases hkey : nocase r.2.typeIdentifier = nocase d <;> simp [stored, key, hkey]
        rw [ofBundle, hsel, ofBundle, filter_map]
        rfl
      rw [foldl_cons, hty, hdelta, filter_filter]
      refine filter_congr fun a _ => ?_
      simp only [forall_mem_cons, decide_and]
      exact and_comm ..
    · intro b hne
      rw [foldl_cons, hoth b hne]
      simp only [ofBundle, deleteType, select_delete]
      congr 1
      refine filter_eq_self.2 fun r hr => ?_
      rw [(mem_select.1 hr).2]
      simp [hne]

def updated : List StoredType :=
  (es.foldl (upsert key merge) stored).filter fun a =>
    ∀ old ∈ stored, (∀ e ∈ es, old.identifier ≠ e.identifier) → a.key ≠ old.key

/-- What `processUTIs:` does. -/
structure Updates (bundle : Nat) (t t' : TypeTables) (es : List StoredType) : Prop where
  once : t'.Once
  types : t'.ofBundle bundle = updated (t.ofBundle bundle) es
  others : ∀ b, b ≠ bundle → t'.ofBundle b = t.ofBundle b
  bundles : ∀ r ∈ t'.uti.rows, r.2.bundle = bundle ∨ r ∈ t.uti.rows

theorem processUTIs_spec (h : c.tables.Once) (bundle : Nat) (utis : List TypeDeclaration) :
    Updates bundle c.tables (processUTIs c bundle utis).tables (utis.filterMap TypeDeclaration.declared) := by
  obtain ⟨hnc, hty, hoth, hbun, hprev⟩ := foldl_processUTI bundle utis
    (s := (c, (c.tables.uti.select fun row => row.bundle == bundle).map fun r => r.2.typeIdentifier)) h
  obtain ⟨hnc', hty', hoth', hrw⟩ := foldl_deleteType bundle _ hnc
  refine ⟨hnc', ?_, ?_, fun r hr => hbun r (hrw r hr)⟩
  · refine hty'.trans ?_
    rw [hty]
    refine filter_congr fun a _ => ?_
    rw [hprev, decide_eq_decide]
    simp only [ofBundle, mem_filter, mem_map, decide_eq_true_eq]
    constructor
    · rintro hall old ⟨r, hr, rfl⟩ hes
      exact hall r.2.typeIdentifier ⟨⟨r, hr, rfl⟩, hes⟩
    · rintro hall d ⟨⟨r, hr, rfl⟩, hes⟩
      exact hall (c.tables.stored r) ⟨r, hr, rfl⟩ hes
  · intro b hne
    exact (hoth' b hne).trans (hoth b hne)

theorem nodup_ofBundle (h : t.Once) (bundle : Nat) : ((t.ofBundle bundle).map key).Nodup := by
  have hnd : (t.uti.select fun row => row.bundle == bundle).Nodup := List.Nodup.filter _ t.uti.distinct.of_map
  rw [ofBundle, map_map]
  refine hnd.map_on fun r hr r' hr' hkey => ?_
  obtain ⟨hr, hb⟩ := mem_select.1 hr
  obtain ⟨hr', hb'⟩ := mem_select.1 hr'
  exact h r hr r' hr' (Prod.ext (hb.trans hb'.symm) hkey)

/-- The declared types that are stored already have the identifier and the description that the first declaration gives them. -/
def Agrees : Prop :=
  ∀ a ∈ stored, ∀ e, findKey key a.key es = some e → e.identifier = a.identifier ∧ e.description = a.description

/-- Types that agree with the declared ones do not make a difference. -/
theorem updated_perm {stored es : List StoredType} (hstored : (stored.map key).Nodup) (h : Agrees stored es) :
    (updated stored es).Perm (es.foldl (upsert key merge) []) := by
  have hnd := nodup_foldl_upsert key_merge hstored es
  refine perm_of_findKey ((filter_sublist.map _).nodup hnd) (nodup_foldl_upsert key_merge (l := []) nodup_nil es) fun k => ?_
  rw [updated, findKey_filter hnd]
  cases hes : findKey key k es with
  | none =>
    -- the type is not declared: it is not there, or deleted
    rw [findKey_foldl_of_none key_merge hes, findKey_foldl_of_none key_merge hes]
    cases hold : findKey key k stored with
    | none => rfl
    | some a =>
      obtain ⟨ha, rfl⟩ := mem_of_findKey hold
      refine Option.filter_some_neg (decide_eq_false fun hkept => ?_)
      refine hkept a ha (fun e he hid => ?_) rfl
      exact findKey_eq_none.1 hes e he (congrArg nocase hid.symm)
  | some e =>
    -- the type is declared: the first declaration prevails, and the type is kept
    have hfirst : ∀ a, findKey key k stored = some a → a.merge e = e := by
      intro a hold
      obtain ⟨ha, rfl⟩ := mem_of_findKey hold
      obtain ⟨hid, hdesc⟩ := h a ha e hes
      rw [StoredType.merge, ← hid, ← hdesc]
    rw [findKey_foldl_of_first key_merge hes hfirst]
    cases hnew : findKey key k (es.foldl (upsert key merge) []) with
    | none => rfl
    | some b =>
      refine Option.filter_some_pos (decide_eq_true fun old hmem hes' hkey => ?_)
      have hk : old.key = k := hkey.symm.trans (mem_of_findKey hnew).2
      rw [← hk] at hes
      exact hes' e (mem_of_findKey hes).1 (h old hmem e hes).1.symm

end TypeTables

/-! ## Adding to a bundle -/

section

variable {τ ρ γ δ : Type} {rows : τ → Table ρ} {owner : ρ → Nat} {stored : τ → Nat × ρ → γ} {good : τ → Prop} {bundle : Nat}

def itemsOf (rows : τ → Table ρ) (owner : ρ → Nat) (stored : τ → Nat × ρ → γ) (t : τ) (bundle : Nat) : List γ :=
  ((rows t).select fun row => owner row == bundle).map (stored t)

/-- The items of a bundle, of which there are some more. -/
structure Adds (good : τ → Prop) (ofBundle : τ → Nat → List γ) (bundle : Nat) (t t' : τ) (items : List γ) : Prop where
  good : good t'
  items : ofBundle t' bundle = ofBundle t bundle ++ items
  others : ∀ b, b ≠ bundle → ofBundle t' b = ofBundle t b

/-- A row is added, with its values. -/
theorem adds_of_insert {t t' : τ} {row : ρ} {item : γ} (hgood : good t') (hrow : owner row = bundle)
    (hrw : rows t' = (rows t).insert row) (hold : ∀ r ∈ (rows t).rows, stored t' r = stored t r)
    (hnew : stored t' ((rows t).next, row) = item) : Adds good (itemsOf rows owner stored) bundle t t' [item] := by
  have hit : ∀ b, itemsOf rows owner stored t' b = itemsOf rows owner stored t b ++ if owner row = b then [item] else [] := by
    intro b
    rw [itemsOf, hrw, map_select_insert _ _ owner hold, hnew]
    rfl
  refine ⟨hgood, ?_, ?_⟩
  · rw [hit, if_pos hrow]
  · intro b hne
    rw [hit, if_neg (fun hx => hne (hx.symm.trans hrow)), append_nil]

/-- A loop that adds one item in each round. -/
theorem Adds.foldl {ofBundle : τ → Nat → List γ} {step : Connection τ → δ → Connection τ} {declared : δ → γ}
    (hst : ∀ c d, good c.tables → Adds good ofBundle bundle c.tables (step c d).tables [declared d]) (ds : List δ)
    {c : Connection τ} (h : good c.tables) :
    Adds good ofBundle bundle c.tables (ds.foldl step c).tables (ds.map declared) := by
  induction ds generalizing c with
  | nil => exact ⟨h, (append_nil _).symm, fun _ _ => rfl⟩
  | cons d ds ih =>
    have hone := hst c d h
    have hrs := ih hone.good
    refine ⟨hrs.good, ?_, ?_⟩
    · rw [foldl_cons, hrs.items, hone.items, append_assoc]
      rfl
    · intro b hne
      rw [foldl_cons, hrs.others b hne, hone.others b hne]

/-- The items of a bundle, in place of those that were there. -/
structure Replaces (good : τ → Prop) (ofBundle : τ → Nat → List γ) (bundle : Nat) (t t' : τ) (items : List γ) : Prop where
  good : good t'
  items : ofBundle t' bundle = items
  others : ∀ b, b ≠ bundle → ofBundle t' b = ofBundle t b

/-- The rows of the bundle are deleted, and items are added. -/
theorem Adds.replaces {t t₀ t' : τ} {items : List γ} (h : Adds good (itemsOf rows owner stored) bundle t₀ t' items)
    (hrw : rows t₀ = (rows t).delete fun row => owner row == bundle) (hstored : stored t₀ = stored t) :
    Replaces good (itemsOf rows owner stored) bundle t t' items := by
  refine ⟨h.good, ?_, ?_⟩
  · rw [h.items, itemsOf, hrw, select_delete_self, map_nil, nil_append]
  · intro b hne
    rw [h.others b hne, itemsOf, hrw, hstored, select_delete_of_ne _ owner hne]
    rfl

end

variable {bundles : Nat → Prop} {bundle : Nat}

/-! ## The document types -/

def DocumentType.declared (dict : DocumentType) : StoredDocument where
  icon := dict.iconFile
  name := dict.name
  role := dict.role.getD (.string "None")
  rank := dict.rank.getD (.string "Default")
  documentClass := dict.documentClass
  utis := texts dict.contentTypes
  extensions := if dict.contentTypes.isSome then [] else texts dict.extensions
  mimeTypes := if dict.contentTypes.isSome then [] else texts dict.mimeTypes

namespace DocumentTables

/-- The values belong to document types that were inserted at some time, and the document types to bundles. -/
structure WellFormed (bundles : Nat → Prop) (t : DocumentTables) : Prop where
  uti : t.uti.Owned t.doc.next
  extension : t.extension.Owned t.doc.next
  mime : t.mime.Owned t.doc.next
  bundle : ∀ r ∈ t.doc.rows, bundles r.2.bundle

theorem WellFormed.mono {bundles' : Nat → Prop} {t : DocumentTables} (h : t.WellFormed bundles) (hle : ∀ b, bundles b → bundles' b) :
    t.WellFormed bundles' :=
  { h with bundle := fun r hr => hle _ (h.bundle r hr) }

theorem processFileAssociation_adds (hbn : bundles bundle) (c : Connection DocumentTables) (dict : DocumentType)
    (h : c.tables.WellFormed bundles) :
    Adds (WellFormed bundles) ofBundle bundle c.tables (processFileAssociation bundle c dict).tables [dict.declared] := by
  have hnx : c.tables.doc.next ≤ c.tables.doc.next + 1 := Nat.le_succ _
  have hlt : c.tables.doc.next < c.tables.doc.next + 1 := Nat.lt_succ_self _
  have hne : ∀ r ∈ c.tables.doc.rows, r.1 ≠ c.tables.doc.next := fun r hr => Nat.ne_of_lt (c.tables.doc.below r hr)
  have huti := h.uti.children_eq_nil le_rfl
  have hext := h.extension.children_eq_nil le_rfl
  have hmime := h.mime.children_eq_nil le_rfl
  have hbun : ∀ row : AppDocRow, row.bundle = bundle → ∀ r ∈ (c.tables.doc.insert row).rows, bundles r.2.bundle :=
    fun row hrow r hr => forall_insert (P := fun row => bundles row.bundle) h.bundle (hrow ▸ hbn) r hr
  unfold processFileAssociation
  split
  · rename_i hso
    refine adds_of_insert ⟨(h.uti.mono hnx).insertAll hlt _, h.extension.mono hnx, h.mime.mono hnx, hbun _ rfl⟩ rfl rfl ?_ ?_
    · intro r hr
      simp only [stored, children_insertAll_of_ne _ (hne r hr)]
    · simp only [stored, children_insertAll_self, huti, hext, hmime, nil_append, declared, hso, if_true]
  · rename_i hno
    have hnil : texts dict.contentTypes = [] := by
      rw [Option.not_isSome_iff_eq_none.1 hno]
      rfl
    refine adds_of_insert
      ⟨h.uti.mono hnx, (h.extension.mono hnx).insertAll hlt _, (h.mime.mono hnx).insertAll hlt _, hbun _ rfl⟩
      rfl rfl ?_ ?_
    · intro r hr
      simp only [stored, children_insertAll_of_ne _ (hne r hr)]
    · simp only [stored, children_insertAll_self, huti, hext, hmime, nil_append, declared, hnil, hno, if_false, false_eq_true]

/-- The document types of a bundle are those that are declared, whatever they were before. -/
theorem processFileAssociations_replaces (hbn : bundles bundle) {c : Connection DocumentTables}
    (h : c.tables.WellFormed bundles) (info : InfoDictionary) :
    Replaces (WellFormed bundles) ofBundle bundle c.tables (processFileAssociations c bundle info).tables
      (info.documents.map declared) := by
  refine (Adds.foldl (processFileAssociation_adds hbn) info.documents ?_).replaces rfl rfl
  exact { h with bundle := fun r hr => h.bundle r (mem_filter.1 hr).1 }

end DocumentTables

/-! ## The URL types -/

def URLType.declared (urlType : URLType) : StoredURLType where
  role := urlType.role.getD (.string "None")
  name := urlType.name
  icon := urlType.iconFile
  schemes := urlType.schemes.getD []

namespace URLTables

/-- The schemes belong to URL types that were inserted at some time, and the URL types to bundles. -/
structure WellFormed (bundles : Nat → Prop) (t : URLTables) : Prop where
  scheme : t.scheme.Owned t.type.next
  bundle : ∀ r ∈ t.type.rows, bundles r.2.bundle

theorem WellFormed.mono {bundles' : Nat → Prop} {t : URLTables} (h : t.WellFormed bundles) (hle : ∀ b, bundles b → bundles' b) :
    t.WellFormed bundles' :=
  { h with bundle := fun r hr => hle _ (h.bundle r hr) }

theorem processURLType_adds (hbn : bundles bundle) (c : Connection URLTables) (urlType : URLType)
    (h : c.tables.WellFormed bundles) :
    Adds (WellFormed bundles) ofBundle bundle c.tables (processURLType bundle c urlType).tables [urlType.declared] := by
  refine adds_of_insert ⟨(h.scheme.mono (Nat.le_succ _)).insertAll (Nat.lt_succ_self _) _,
    forall_insert (P := fun row : URLTypeRow => bundles row.bundle) h.bundle hbn⟩ rfl rfl ?_ ?_
  · intro r hr
    simp only [stored, processURLType, children_insertAll_of_ne _ (Nat.ne_of_lt (c.tables.type.below r hr))]
  · simp only [stored, processURLType, children_insertAll_self, h.scheme.children_eq_nil le_rfl, nil_append]
    rfl

/-- The URL types of a bundle are those that are declared, whatever they were before. -/
theorem processURLTypes_replaces (hbn : bundles bundle) {c : Connection URLTables} (h : c.tables.WellFormed bundles)
    (info : InfoDictionary) :
    Replaces (WellFormed bundles) ofBundle bundle c.tables (processURLTypes c bundle info).tables
      ((info.urlTypes.getD []).map URLType.declared) := by
  refine (Adds.foldl (processURLType_adds hbn) (info.urlTypes.getD []) ?_).replaces rfl rfl
  exact { h with bundle := fun r hr => h.bundle r (mem_filter.1 hr).1 }

end URLTables

/-! ## One bundle -/

namespace InfoDictionary

variable (info : InfoDictionary)

def declaredTypes : List StoredType := (info.exportedTypes.getD []).filterMap TypeDeclaration.declared

/-- The types after an update. Where the dictionary has no declarations at all, nothing is done. -/
def typesAfter (stored : List StoredType) : List StoredType :=
  if info.exportedTypes.isSome then updated stored info.declaredTypes else stored

def storedAfter (stored : List StoredType) : Stored where
  types := info.typesAfter stored
  documents := info.documents.map declared
  urlTypes := (info.urlTypes.getD []).map URLType.declared

end InfoDictionary

namespace Database

def HasBundle (db : Database) (bundle : Nat) : Prop := ∃ r ∈ db.bundle.rows, r.1 = bundle

/-- A path has one bundle at most, and everything belongs to a bundle. -/
structure WellFormed (db : Database) : Prop where
  paths : db.bundle.Keyed BundleRow.path
  types : db.types.Once
  typeBundles : ∀ r ∈ db.types.uti.rows, db.HasBundle r.2.bundle
  docs : db.docs.WellFormed db.HasBundle
  urls : db.urls.WellFormed db.HasBundle

variable {db : Database} {checksum : InfoDictionary → Nat} {path : String} {info : InfoDictionary}

theorem wellFormed_empty : empty.WellFormed where
  paths := nofun
  types := nofun
  typeBundles := nofun
  docs := ⟨nofun, nofun, nofun, nofun⟩
  urls := ⟨nofun, nofun⟩

def storedFor (db : Database) (bundle : Nat) : Stored :=
  ⟨db.types.ofBundle bundle, db.docs.ofBundle bundle, db.urls.ofBundle bundle⟩

/-- A bundle is refreshed, and the others are as they were. -/
structure Refreshes (bundle : Nat) (info : InfoDictionary) (db db' : Database) : Prop where
  wellFormed : db'.WellFormed
  bundles : db'.bundle = db.bundle
  stored : db'.storedFor bundle = info.storedAfter (db.types.ofBundle bundle)
  others : ∀ b, b ≠ bundle → db'.storedFor b = db.storedFor b

variable {r : Nat × BundleRow}

theorem refresh_spec (h : db.WellFormed) (hbn : db.HasBundle bundle) (info : InfoDictionary) :
    Refreshes bundle info db (db.refresh bundle info) := by
  have hdc := fun last => DocumentTables.processFileAssociations_replaces hbn (c := ⟨db.docs, last⟩) h.docs info
  have hrl := fun last => URLTables.processURLTypes_replaces hbn (c := ⟨db.urls, last⟩) h.urls info
  unfold refresh
  cases hty : info.exportedTypes with
  | none =>
    refine ⟨⟨h.paths, h.types, h.typeBundles, (hdc _).good, (hrl _).good⟩, rfl, ?_, ?_⟩
    · rw [storedAfter, typesAfter, hty]
      exact congrArg₂ (Stored.mk (db.types.ofBundle bundle)) (hdc _).items (hrl _).items
    · intro b hne
      exact congrArg₂ (Stored.mk (db.types.ofBundle b)) ((hdc _).others b hne) ((hrl _).others b hne)
  | some utis =>
    have hupd := processUTIs_spec (c := ⟨db.types, db.lastInsertRowId⟩) h.types bundle utis
    refine ⟨⟨h.paths, hupd.once, ?_, (hdc _).good, (hrl _).good⟩, rfl, ?_, ?_⟩
    · intro r hr
      rcases hupd.bundles r hr with hb | hr
      · rw [hb]
        exact hbn
      · exact h.typeBundles r hr
    · have hdec : info.declaredTypes = utis.filterMap TypeDeclaration.declared := by
        rw [declaredTypes, hty]
        rfl
      rw [storedAfter, typesAfter, hty, hdec, storedFor]
      congr 1
      · exact hupd.types
      · exact (hdc _).items
      · exact (hrl _).items
    · intro b hne
      rw [storedFor]
      congr 1
      · exact hupd.others b hne
      · exact (hdc _).others b hne
      · exact (hrl _).others b hne

/-! ## `setupBundleID` -/

theorem bundleAt_some (h : db.bundleAt path = some r) : r ∈ db.bundle.rows ∧ r.2.path = path := by
  have hr := mem_filter.1 (mem_of_mem_head? h)
  simpa using hr

theorem bundleAt_none (h : db.bundleAt path = none) (hr : r ∈ db.bundle.rows) : r.2.path ≠ path := by
  have hnil := filter_eq_nil_iff.1 (head?_eq_none_iff.1 h) r hr
  simpa using hnil

def entryAt (db : Database) (path : String) : Option (Nat × Nat) := (db.bundleAt path).map fun r => (r.1, r.2.checksum)

theorem entryAt_some {e : Nat × Nat} (h : db.entryAt path = some e) : ∃ r ∈ db.bundle.rows, r.2.path = path ∧ r.1 = e.1 := by
  obtain ⟨r, hr, rfl⟩ := Option.map_eq_some_iff.1 h
  exact ⟨r, (bundleAt_some hr).1, (bundleAt_some hr).2, rfl⟩

/-- Bundles of different paths have different numbers. -/
theorem entryAt_ne {p : String} {e e' : Nat × Nat} (h : db.entryAt path = some e) (h' : db.entryAt p = some e') (hne : p ≠ path) :
    e'.1 ≠ e.1 := by
  obtain ⟨r, hr, hpa, hid⟩ := entryAt_some h
  obtain ⟨r', hr', hpa', hid'⟩ := entryAt_some h'
  intro heq
  rw [← hid, ← hid'] at heq
  rw [db.bundle.eq_of_id_eq hr' hr heq] at hpa'
  exact hne (hpa'.symm.trans hpa)

/-- The bundle of a path that is new or has changed gets a number of its own. -/
structure SetsUp (path : String) (checksum : Nat) (db db' : Database) (bundle : Nat) : Prop where
  wellFormed : db'.WellFormed
  hasBundle : db'.HasBundle bundle
  entry : db'.entryAt path = some (bundle, checksum)
  others : ∀ p, p ≠ path → db'.entryAt p = db.entryAt p
  types : db'.types.ofBundle bundle = ((db.stored path).map Stored.types).getD []
  stored : db'.storedFor = db.storedFor

/-- The rows are those that were there, with their numbers and paths. -/
theorem mem_updateBundle {bundleId sum : Nat} (h : r ∈ (db.updateBundle bundleId sum info).bundle.rows) :
    ∃ r' ∈ db.bundle.rows, r.1 = r'.1 ∧ r.2.path = r'.2.path := by
  obtain ⟨r', hr', rfl⟩ := mem_map.1 h
  refine ⟨r', hr', ?_⟩
  split <;> exact ⟨rfl, rfl⟩

theorem hasBundle_updateBundle {bundleId sum : Nat} (h : db.HasBundle bundle) :
    (db.updateBundle bundleId sum info).HasBundle bundle := by
  obtain ⟨r, hr, rfl⟩ := h
  refine ⟨_, mem_map_of_mem hr, ?_⟩
  split <;> rfl

theorem WellFormed.updateBundle (h : db.WellFormed) (bundleId sum : Nat) (info : InfoDictionary) :
    (db.updateBundle bundleId sum info).WellFormed := by
  refine ⟨fun r₁ h₁ r₂ h₂ hpa => ?_, h.types, fun r hr => hasBundle_updateBundle (h.typeBundles r hr),
    h.docs.mono fun _ => hasBundle_updateBundle, h.urls.mono fun _ => hasBundle_updateBundle⟩
  obtain ⟨r₁', h₁', hid₁, hpa₁⟩ := mem_updateBundle h₁
  obtain ⟨r₂', h₂', hid₂, hpa₂⟩ := mem_updateBundle h₂
  have heq := h.paths r₁' h₁' r₂' h₂' (by rw [← hpa₁, ← hpa₂, hpa])
  exact eq_of_id_eq _ h₁ h₂ (by rw [hid₁, hid₂, heq])

theorem entryAt_updateBundle (bundleId sum : Nat) (info : InfoDictionary) (p : String) :
    (db.updateBundle bundleId sum info).entryAt p =
      (db.entryAt p).map fun e => if e.1 = bundleId then (e.1, sum) else e := by
  simp only [entryAt, bundleAt, updateBundle, select_update, head?_map, implies_true, Option.map_map]
  congr 1
  funext r
  simp only [comp]
  split <;> rfl

/-- A bundle that is registered. -/
theorem setsUp_of_some (h : db.WellFormed) (hr : db.bundleAt path = some r) (hchanged : r.2.checksum ≠ checksum info) :
    ∃ db', db.setupBundleID checksum path info = some (db', r.1) ∧ SetsUp path (checksum info) db db' r.1 := by
  have hent : db.entryAt path = some (r.1, r.2.checksum) := congrArg (Option.map _) hr
  unfold setupBundleID
  rw [hr]
  dsimp only
  rw [if_neg hchanged]
  refine ⟨_, rfl, h.updateBundle .., hasBundle_updateBundle ⟨r, (bundleAt_some hr).1, rfl⟩, ?_, ?_, ?_, rfl⟩
  · rw [entryAt_updateBundle, hent, Option.map_some, if_pos rfl]
  · intro p hne
    rw [entryAt_updateBundle]
    cases hp : db.entryAt p with
    | none => rfl
    | some e => rw [Option.map_some, if_neg (entryAt_ne hent hp hne)]
  · rw [stored, hr]
    rfl

/-- A bundle that is new. -/
theorem setsUp_of_none (h : db.WellFormed) (hno : db.bundleAt path = none) (hid : info.identifier ≠ none) :
    ∃ db', db.setupBundleID checksum path info = some (db', db.bundle.next) ∧
      SetsUp path (checksum info) db db' db.bundle.next := by
  obtain ⟨identifier, hiden⟩ := Option.ne_none_iff_exists'.1 hid
  have hids : ∀ row b, db.HasBundle b →
      Database.HasBundle { db with bundle := db.bundle.insert row, lastInsertRowId := db.bundle.next } b :=
    fun _ _ ⟨r, hr, hid⟩ => ⟨r, mem_append_left _ hr, hid⟩
  unfold setupBundleID
  rw [hno, hiden]
  refine ⟨_, rfl, ⟨h.paths.insert fun r => bundleAt_none hno, h.types, fun r hr => hids _ _ (h.typeBundles r hr),
    h.docs.mono (hids _), h.urls.mono (hids _)⟩, ⟨_, mem_append_right _ mem_cons_self, rfl⟩, ?_, ?_, ?_, rfl⟩
  · have hnil : (db.bundle.select fun row => row.path == path) = [] := head?_eq_none_iff.1 hno
    simp [entryAt, bundleAt, select_insert, hnil]
  · intro p hne
    simp [entryAt, bundleAt, select_insert, Ne.symm hne]
  · rw [stored, hno]
    refine map_eq_nil_iff.2 (filter_eq_nil_iff.2 fun r hr => ?_)
    obtain ⟨r', hr', hid⟩ := h.typeBundles r hr
    have hlt := db.bundle.below r' hr'
    simp only [beq_iff_eq]
    omega

/-! ## `process` -/

theorem stored_eq (db : Database) (path : String) : db.stored path = (db.entryAt path).map fun e => db.storedFor e.1 := by
  rw [entryAt, Option.map_map]
  rfl

def typesAt (db : Database) (path : String) : List StoredType := ((db.stored path).map Stored.types).getD []

/-- A dictionary is registered at a path, on top of the types that are stored, and the other paths are as they were. -/
structure Registers (path : String) (checksum : Nat) (info : InfoDictionary) (db db' : Database) : Prop where
  wellFormed : db'.WellFormed
  entry : ∃ bundle, db'.entryAt path = some (bundle, checksum)
  stored : db'.stored path = some (info.storedAfter (db.typesAt path))
  others : ∀ p, p ≠ path → db'.entryAt p = db.entryAt p ∧ db'.stored p = db.stored p

theorem SetsUp.refresh {db' : Database} {sum : Nat} (h : SetsUp path sum db db' bundle) (info : InfoDictionary) :
    Registers path sum info db (db'.refresh bundle info) := by
  have hrefresh := refresh_spec h.wellFormed h.hasBundle info
  have hent : ∀ p, (db'.refresh bundle info).entryAt p = db'.entryAt p := by
    intro p
    rw [entryAt, bundleAt, hrefresh.bundles]
    rfl
  refine ⟨hrefresh.wellFormed, ⟨bundle, (hent path).trans h.entry⟩, ?_, fun p hne => ⟨(hent p).trans (h.others p hne), ?_⟩⟩
  · rw [stored_eq, hent, h.entry, Option.map_some, hrefresh.stored, h.types]
    rfl
  · rw [stored_eq, stored_eq, hent, h.others p hne]
    cases hp : db.entryAt p with
    | none => rfl
    | some e =>
      have hbn : e.1 ≠ bundle := entryAt_ne h.entry ((h.others p hne).trans hp) hne
      rw [Option.map_some, Option.map_some, hrefresh.others e.1 hbn, h.stored]

/-- A bundle that has not changed is left alone. -/
theorem process_of_unchanged (h : db.entryAt path = some (bundle, checksum info)) : db.process checksum path info = db := by
  obtain ⟨r, hr, heq⟩ := Option.map_eq_some_iff.1 h
  unfold process setupBundleID
  rw [hr]
  dsimp only
  rw [if_pos (congrArg Prod.snd heq)]

/-- Any other bundle is registered. -/
theorem process_registers (h : db.WellFormed) (hid : info.identifier ≠ none)
    (hchanged : ∀ bundle, db.entryAt path ≠ some (bundle, checksum info)) :
    Registers path (checksum info) info db (db.process checksum path info) := by
  have hset : ∃ db' bundle, db.setupBundleID checksum path info = some (db', bundle) ∧
      SetsUp path (checksum info) db db' bundle := by
    cases hat : db.bundleAt path with
    | none =>
      exact (setsUp_of_none h hat hid).imp fun db' hdb' => ⟨_, hdb'⟩
    | some r =>
      have hsum : r.2.checksum ≠ checksum info := by
        intro hsum
        refine hchanged r.1 ?_
        rw [entryAt, hat, Option.map_some, hsum]
      exact (setsUp_of_some h hat hsum).imp fun db' hdb' => ⟨_, hdb'⟩
  obtain ⟨db', bundle, hdb', hsets⟩ := hset
  unfold process
  rw [hdb']
  exact hsets.refresh info

/-- What registering a dictionary in an empty database stores. -/
theorem stored_process_empty (hid : info.identifier ≠ none) :
    (empty.process checksum path info).stored path = some (info.storedAfter []) :=
  (process_registers wellFormed_empty hid nofun).stored

/-- Nothing is stored for a number that no path has. -/
theorem storedFor_eq_nil (h : db.WellFormed) (hno : ∀ path row, db.bundleAt path ≠ some (bundle, row)) :
    db.storedFor bundle = ⟨[], [], []⟩ := by
  have hbn : ¬db.HasBundle bundle := by
    rintro ⟨r, hr, rfl⟩
    cases hat : db.bundleAt r.2.path with
    | none => exact bundleAt_none hat hr rfl
    | some r' =>
      obtain ⟨hr', hpa⟩ := bundleAt_some hat
      rw [h.paths r' hr' r hr hpa] at hat
      exact hno r.2.path r.2 hat
  have hne : ∀ {b : Nat}, db.HasBundle b → ¬(b == bundle) = true := by
    intro b hb heq
    rw [beq_iff_eq.1 heq] at hb
    exact hbn hb
  rw [storedFor]
  congr 1
  · exact map_eq_nil_iff.2 (filter_eq_nil_iff.2 fun r hr => hne (h.typeBundles r hr))
  · exact map_eq_nil_iff.2 (filter_eq_nil_iff.2 fun r hr => hne (h.docs.bundle r hr))
  · exact map_eq_nil_iff.2 (filter_eq_nil_iff.2 fun r hr => hne (h.urls.bundle r hr))

theorem nodup_typesAt (h : db.WellFormed) (path : String) : ((db.typesAt path).map key).Nodup := by
  rw [typesAt, stored]
  cases db.bundleAt path with
  | none => exact nodup_nil
  | some r => exact nodup_ofBundle h.types r.1

end Database

/-! ## Sequences of registrations and deletions -/

/-- The database, and the latest dictionary of every path that was registered and not deleted since. -/
structure Registry where
  db : Database
  latest : String → Option InfoDictionary

inductive RegistryAction where
  | process (path : String) (info : InfoDictionary)
  | deleteBundleAtPath (path : String)

/-- The same is stored. The types are compared without their order: those that were stored before come first. -/
structure Stored.Same (a b : Stored) : Prop where
  types : a.types.Perm b.types
  documents : a.documents = b.documents
  urlTypes : a.urlTypes = b.urlTypes

/-- The types that are stored are in nobody's way: what is declared again is declared as it is stored, and if nothing is declared
then there are none. -/
def InfoDictionary.Extends (info : InfoDictionary) (stored : List StoredType) : Prop :=
  if info.exportedTypes.isSome then TypeTables.Agrees stored info.declaredTypes else stored = []

theorem InfoDictionary.Extends.same {info : InfoDictionary} {stored : List StoredType} (h : info.Extends stored)
    (hnd : (stored.map key).Nodup) : (info.storedAfter stored).Same (info.storedAfter []) := by
  refine ⟨?_, rfl, rfl⟩
  unfold InfoDictionary.Extends at h
  unfold storedAfter typesAfter
  split
  · rename_i hso
    rw [if_pos hso] at h
    have hemp : (([] : List StoredType).map key).Nodup := nodup_nil
    have hagr : TypeTables.Agrees [] info.declaredTypes := nofun
    exact (updated_perm hnd h).trans (updated_perm hemp hagr).symm
  · rename_i hno
    rw [if_neg hno] at h
    rw [h]

instance : Decidable (TypeTables.Agrees stored es) :=
  inferInstanceAs (Decidable (∀ a ∈ stored, ∀ e ∈ findKey key a.key es,
    e.identifier = a.identifier ∧ e.description = a.description))

instance (info : InfoDictionary) (stored : List StoredType) : Decidable (info.Extends stored) :=
  inferInstanceAs (Decidable (if info.exportedTypes.isSome then TypeTables.Agrees stored info.declaredTypes else stored = []))

namespace Registry

variable (checksum : InfoDictionary → Nat) (s : Registry)

def step : RegistryAction → Registry
  | .process path info => ⟨s.db.process checksum path info, update s.latest path (some info)⟩
  | .deleteBundleAtPath path => ⟨s.db.deleteBundleAtPath path, update s.latest path none⟩

def machine : Machine Registry RegistryAction where
  init := ⟨.empty, fun _ => none⟩
  step s a := some (s.step checksum a)

/-- Different dictionaries of one path have different checksums. -/
def Distinct : RegistryAction → Prop
  | .process path info => ∀ old ∈ s.latest path, checksum old = checksum info → old = info
  | .deleteBundleAtPath _ => True

/-- A dictionary that is registered has an identifier, and the types that are stored are not in its way; no bundle is deleted. -/
def Compatible : RegistryAction → Prop
  | .process path info => s.latest path = some info ∨ info.identifier ≠ none ∧ info.Extends (s.db.typesAt path)
  | .deleteBundleAtPath path => s.db.bundleAt path = none

variable (a : RegistryAction)

def Keeps : Prop := s.Distinct checksum a ∧ s.Compatible a

instance : Decidable (s.Distinct checksum a) := by
  cases a <;> unfold Distinct <;> infer_instance

instance : Decidable (s.Compatible a) := by
  cases a <;> unfold Compatible <;> infer_instance

instance : Decidable (s.Keeps checksum a) :=
  inferInstanceAs (Decidable (s.Distinct checksum a ∧ s.Compatible a))

/-- What is stored for a path is what registering its latest dictionary in an empty database stores; nothing is stored for the other
paths, and nothing else is stored. -/
structure UpToDate (s : Registry) : Prop where
  registered : ∀ path info, s.latest path = some info → ∃ a b, s.db.stored path = some a ∧
    (empty.process checksum path info).stored path = some b ∧ a.Same b
  deleted : ∀ path, s.latest path = none → s.db.stored path = none
  owned : ∀ bundle, (∀ path row, s.db.bundleAt path ≠ some (bundle, row)) → s.db.storedFor bundle = ⟨[], [], []⟩

/-- The entry of a path has the checksum of its latest dictionary, and what is stored is what that dictionary says. -/
structure Current (s : Registry) (path : String) (info : InfoDictionary) : Prop where
  identifier : info.identifier ≠ none
  entry : ∃ bundle, s.db.entryAt path = some (bundle, checksum info)
  stored : ∃ a, s.db.stored path = some a ∧ a.Same (info.storedAfter [])

structure Inv (s : Registry) : Prop where
  wellFormed : s.db.WellFormed
  current : ∀ path info, s.latest path = some info → s.Current checksum path info
  absent : ∀ path, s.latest path = none → s.db.entryAt path = none

variable {checksum} {s : Registry} {path : String} {info : InfoDictionary}

theorem inv_init : Inv checksum (machine checksum).init where
  wellFormed := wellFormed_empty
  current _ info hlat := absurd (show (none : Option InfoDictionary) = some info from hlat) nofun
  absent _ _ := rfl

/-- The dictionary of a bundle that has not changed is the latest one. -/
theorem latest_of_unchanged (h : Inv checksum s) (hdist : s.Distinct checksum (.process path info)) {bundle : Nat}
    (hent : s.db.entryAt path = some (bundle, checksum info)) : s.latest path = some info := by
  cases hlat : s.latest path with
  | none =>
    rw [h.absent path hlat] at hent
    cases hent
  | some old =>
    obtain ⟨bundle', hent'⟩ := (h.current path old hlat).entry
    have hsum : checksum old = checksum info := congrArg Prod.snd (Option.some.inj (hent'.symm.trans hent))
    rw [hdist old hlat hsum]

theorem Inv.process (h : Inv checksum s) (hkp : s.Keeps checksum (.process path info)) :
    Inv checksum (s.step checksum (.process path info)) := by
  by_cases hent : ∃ bundle, s.db.entryAt path = some (bundle, checksum info)
  · obtain ⟨bundle, hent⟩ := hent
    have hst : s.step checksum (.process path info) = s := by
      rw [step, process_of_unchanged hent, ← latest_of_unchanged h hkp.1 hent, update_eq_self]
    rw [hst]
    exact h
  · obtain ⟨hid, hextends⟩ : info.identifier ≠ none ∧ info.Extends (s.db.typesAt path) := by
      rcases hkp.2 with hlat | hcp
      · exact absurd (h.current path info hlat).entry hent
      · exact hcp
    have hreg := process_registers h.wellFormed hid (not_exists.1 hent)
    refine ⟨hreg.wellFormed, fun p info' hlat => ?_, fun p hlat => ?_⟩
    · by_cases hp : p = path
      · subst hp
        obtain rfl : info = info' := by simpa [step] using hlat
        exact ⟨hid, hreg.entry, _, hreg.stored, hextends.same (nodup_typesAt h.wellFormed p)⟩
      · have hcur := h.current p info' (by simpa [step, hp] using hlat)
        obtain ⟨hsm, hstored⟩ := hreg.others p hp
        refine ⟨hcur.identifier, ?_, ?_⟩
        · rw [step, hsm]
          exact hcur.entry
        · rw [step, hstored]
          exact hcur.stored
    · have hp : p ≠ path := by
        rintro rfl
        simp [step] at hlat
      rw [step, (hreg.others p hp).1]
      exact h.absent p (by simpa [step, hp] using hlat)

theorem Inv.deleteBundleAtPath (h : Inv checksum s) (hkp : s.Keeps checksum (.deleteBundleAtPath path)) :
    Inv checksum (s.step checksum (.deleteBundleAtPath path)) := by
  have hent : s.db.entryAt path = none := Option.map_eq_none_iff.2 hkp.2
  -- the statement is prepared and not run, so the database is as it was
  refine ⟨h.wellFormed, fun p info hlat => ?_, fun p hlat => ?_⟩
  · have hp : p ≠ path := by
      rintro rfl
      simp [step] at hlat
    obtain ⟨hid, hent, hstored⟩ := h.current p info (by simpa [step, hp] using hlat)
    exact ⟨hid, hent, hstored⟩
  · by_cases hp : p = path
    · rw [hp]
      exact hent
    · exact h.absent p (by simpa [step, hp] using hlat)

theorem inv_of_reaches (h : (machine checksum).Reaches (Keeps checksum) s) : Inv checksum s := by
  refine h.invariant inv_init fun {s a s'} hinv hkp hst => ?_
  cases hst
  cases a with
  | process path info => exact hinv.process hkp
  | deleteBundleAtPath path => exact hinv.deleteBundleAtPath hkp

/-- Where the types that are stored are in nobody's way and no bundle is deleted, what is stored is up to date. -/
theorem up_to_date (h : (machine checksum).Reaches (Keeps checksum) s) : UpToDate checksum s := by
  have hinv := inv_of_reaches h
  refine ⟨fun path info hlat => ?_, fun path hlat => ?_, fun bundle => storedFor_eq_nil hinv.wellFormed⟩
  · have hcur := hinv.current path info hlat
    obtain ⟨a, ha, hsm⟩ := hcur.stored
    exact ⟨a, _, ha, stored_process_empty hcur.identifier, hsm⟩
  · rw [stored_eq, hinv.absent path hlat]
    rfl

/-- A checksum that tells the dictionaries below apart. -/
def size (info : InfoDictionary) : Nat :=
  info.documents.length + (info.declaredTypes.map fun t => t.description.length + t.conformsTo.length).sum

def typeDeclaration (identifier description : String) (conformsTo : List String) : TypeDeclaration where
  identifier := some (.string identifier)
  description := some (.string description)
  conformsTo := some (.many (conformsTo.map .string))
  iconFile := none
  iconFiles := none
  tagSpecification := none

def noDocument : DocumentType := ⟨none, none, none, none, none, none, none, none⟩

/-- The dictionary of an application that exports some types and opens the files with some extensions. -/
def application (types : List TypeDeclaration) (extensions : List String) : InfoDictionary where
  identifier := some "org.osxie.Editor"
  packageType := some "APPL"
  packageCreator := none
  signature := none
  exportedTypes := some types
  documentTypes := some (extensions.map fun extension => { noDocument with extensions := some [.string extension] })
  asDocumentType := noDocument
  urlTypes := none

/-- An application is registered again after it has dropped a type, added another one, and changed what the third one conforms to. -/
theorem up_to_date_upgraded :
    ∃ s, (machine size).Reaches (Keeps size) s ∧ UpToDate size s ∧
      (s.db.typesAt "/Editor.app").map (fun t => (t.identifier, t.conformsTo)) =
        [("org.osxie.text", ["public.text"]), ("org.osxie.page", [])] := by
  refine (Machine.exists_reaches_of_runOk (Keeps size)
    [.process "/Editor.app"
      (application [typeDeclaration "org.osxie.text" "Text" [], typeDeclaration "org.osxie.old" "Old" []] ["txt"]),
     .deleteBundleAtPath "/Other.app",
     .process "/Editor.app"
      (application [typeDeclaration "org.osxie.page" "Page" [], typeDeclaration "org.osxie.text" "Text" ["public.text"]]
        ["txt", "page"])] ?_).imp fun s h => ⟨h.1, up_to_date h.1, h.2⟩
  decide +kernel

/-- A description changes, and the old one remains; a bundle is deleted, and it remains. -/
theorem stale_after_upgrade :
    ∃ s, (machine size).Reaches (Distinct size) s ∧
      s.latest "/Editor.app" = some (application [typeDeclaration "org.osxie.text" "Plain text" []] []) ∧
      (s.db.typesAt "/Editor.app").map description = ["Text"] ∧
      s.latest "/Other.app" = none ∧ (s.db.stored "/Other.app").isSome ∧ ¬UpToDate size s := by
  obtain ⟨s, hreach, hlat, hty, hdel, hstored⟩ := Machine.exists_reaches_of_runOk (M := machine size) (Distinct size)
    [.process "/Editor.app" (application [typeDeclaration "org.osxie.text" "Text" []] []),
     .process "/Editor.app" (application [typeDeclaration "org.osxie.text" "Plain text" []] []),
     .process "/Other.app" (application [] []), .deleteBundleAtPath "/Other.app"]
    (P := fun s => s.latest "/Editor.app" = some (application [typeDeclaration "org.osxie.text" "Plain text" []] []) ∧
      (s.db.typesAt "/Editor.app").map description = ["Text"] ∧
      s.latest "/Other.app" = none ∧ (s.db.stored "/Other.app").isSome) (by decide +kernel)
  refine ⟨s, hreach, hlat, hty, hdel, hstored, fun h => ?_⟩
  rw [h.deleted _ hdel] at hstored
  cases hstored

end Registry

end Osxie.LaunchServices
