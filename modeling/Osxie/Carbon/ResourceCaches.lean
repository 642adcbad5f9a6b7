import Osxie.Carbon.ResourceManager

/-!
# Lookups with caches

A cache is right as long as it was filled for one type only, and nothing of that type has changed since. Then every lookup returns
what a fresh scan finds.
-/

namespace Osxie.Carbon

open List Option
open Assoc Manager Prod ResourceTypeData Resources Machine

def Resources.typeAt (r : Resources) (addr : Addr) : Option ResType := (r.objects.lookup addr).map ResourceData.type

namespace Manager

variable (m : Manager)

def NotCached (type : ResType) : Prop :=
  m.caches.ofTypeType ≠ type ∧ m.caches.ofTypeMapType ≠ type ∧ m.caches.ofTypeNameMapType ≠ type

/-- Calls that leave the caches right: a lookup finds the cache for its type, or empty; a change is of a type that is not in a
cache. The cache for names is only filled when the map from IDs is for another type. -/
def Careful : Call → Prop
  | .addResource _ type _ _ _ _ _ => m.NotCached type ∧ (m.caches.allTypes = ∅ ∨ type ∈ m.caches.allTypes)
  | .removeResource res _ => ∀ refNum ∈ m.current, ∀ h ∈ res, ∀ r ∈ m.files.lookup refNum, ∀ addr ∈ r.dataByHandle h,
      ∀ type ∈ r.typeAt addr, m.NotCached type
  | .setResInfo res _ _ => ∀ found ∈ m.findResourceDataByHandle res, ∀ r ∈ m.files.lookup found.1, ∀ type ∈ r.typeAt found.2,
      m.NotCached type
  | .countResources type | .getIndResource type _ _ => type ≠ noType ∧ (m.caches.ofTypeType = type ∨ m.caches.ofType = [])
  | .getResource type _ _ => type ≠ noType ∧ (m.caches.ofTypeMapType = type ∨ m.caches.ofTypeMap = [])
  | .getNamedResource type _ _ => type ≠ noType ∧
      (m.caches.ofTypeNameMapType = type ∨ m.caches.ofTypeNameMap = [] ∧ m.caches.ofTypeMapType ≠ type)
  | .openFile _ _ | .useResFile _ | .closeResFile _ | .countTypes | .getIndType _ => True

instance (type : ResType) : Decidable (m.NotCached type) := inferInstanceAs (Decidable (_ ∧ _))

instance (c : Call) : Decidable (m.Careful c) := by
  cases c <;> unfold Careful <;> infer_instance

/-- A cache is empty, or has what a scan finds for its type. -/
def Right {α : Type} (cache : List α) (type : ResType) (scan : ResType → List α) : Prop :=
  type = noType ∧ cache = [] ∨ type ≠ noType ∧ cache = scan type

structure CachesRight : Prop where
  allTypes : m.caches.allTypes = ∅ ∨ m.caches.allTypes = scanTypes m.files
  ofType : Right m.caches.ofType m.caches.ofTypeType (scanOfType m.files)
  ofTypeMap : Right m.caches.ofTypeMap m.caches.ofTypeMapType (scanOfTypeMap m.files)
  ofTypeNameMap : Right m.caches.ofTypeNameMap m.caches.ofTypeNameMapType (scanOfTypeNameMap m.files)

variable {m}

/-! ## Scans -/

theorem scanOfType_eq (files : List (RefNum × Resources)) (type : ResType) :
    scanOfType files type = (files.map fun f => f.2.find type).flatMap fun td => (td.map resources).getD [] := by
  rw [flatMap_map]
  refine flatMap_congr fun f _ => ?_
  cases f.2.find type <;> rfl

theorem collect_eq {κ : Type} [DecidableEq κ] (map : ResourceTypeData → List (κ × Addr)) (type : ResType)
    (files : List (RefNum × Resources)) (rv : List (κ × Addr)) : collect map type files rv =
      insertAll rv ((files.map fun f => f.2.find type).flatMap fun td => (td.map map).getD []) := by
  induction files generalizing rv with
  | nil => rfl
  | cons f files ih =>
    rw [map_cons, flatMap_cons, insertAll, foldl_append]
    refine Eq.trans ?_ (ih _)
    rw [collect, foldl_cons]
    cases f.2.find type <;> rfl

/-- A map that has been collected does not change when it is collected again. -/
theorem collect_collect {κ : Type} [DecidableEq κ] (map : ResourceTypeData → List (κ × Addr)) (type : ResType)
    (files : List (RefNum × Resources)) : collect map type files (collect map type files []) = collect map type files [] := by
  rw [collect_eq, collect_eq]
  exact insertAll_of_isSome fun e he => isSome_lookup_insertAll he

variable {files : List (RefNum × Resources)} {g : Resources → Resources} {refNum : RefNum} {type t : ResType}

/-- A file that is changed without a type being changed. -/
theorem find_modify (h : ∀ r, files.lookup refNum = some r → (g r).find type = r.find type) :
    (modify files refNum g).map (fun f => f.2.find type) = files.map fun f => f.2.find type :=
  map_modify h

/-- A change that leaves a type as it is leaves its scans as they are. -/
theorem scans_of_find {files files' : List (RefNum × Resources)}
    (h : files'.map (fun f => f.2.find type) = files.map fun f => f.2.find type) :
    scanOfType files' type = scanOfType files type ∧ scanOfTypeMap files' type = scanOfTypeMap files type ∧
      scanOfTypeNameMap files' type = scanOfTypeNameMap files type := by
  simp only [scanOfType_eq, scanOfTypeMap, scanOfTypeNameMap, collect_eq, h, and_self]

/-! ## Filling a cache -/

/-- A cache for a type has what a scan finds. -/
theorem Right.eq_scan {α : Type} {cache : List α} {scan : ResType → List α} (h : Right cache type scan) (ht : type ≠ noType) :
    cache = scan type :=
  (h.resolve_left fun hc => ht hc.1).2

section

variable (h : m.CachesRight)

include h

theorem CachesRight.allTypes_fill : m.allTypes.allTypes = scanTypes m.files ∧ { m with caches := m.allTypes }.CachesRight := by
  unfold Manager.allTypes
  by_cases hemp : m.caches.allTypes = ∅
  · rw [if_pos hemp]
    exact ⟨rfl, { h with allTypes := .inr rfl }⟩
  · rw [if_neg hemp]
    exact ⟨h.allTypes.resolve_left hemp, h⟩

theorem CachesRight.ofType_fill (ht : t ≠ noType) (hor : m.caches.ofTypeType = t ∨ m.caches.ofType = []) :
    (m.resourcesOfType t).ofType = scanOfType m.files t ∧ { m with caches := m.resourcesOfType t }.CachesRight := by
  unfold resourcesOfType
  by_cases heq : m.caches.ofTypeType = t
  · rw [if_neg (by simpa using heq)]
    subst heq
    exact ⟨h.ofType.eq_scan ht, h⟩
  · rw [if_pos heq, hor.resolve_left heq]
    exact ⟨rfl, { h with ofType := .inr ⟨ht, rfl⟩ }⟩

theorem CachesRight.ofTypeMap_fill (ht : t ≠ noType) (hor : m.caches.ofTypeMapType = t ∨ m.caches.ofTypeMap = []) :
    (m.resourcesOfTypeMap t).ofTypeMap = scanOfTypeMap m.files t ∧ { m with caches := m.resourcesOfTypeMap t }.CachesRight := by
  unfold resourcesOfTypeMap
  by_cases heq : m.caches.ofTypeMapType = t
  · rw [if_neg (by simpa using heq)]
    subst heq
    exact ⟨h.ofTypeMap.eq_scan ht, h⟩
  · rw [if_pos heq, hor.resolve_left heq]
    exact ⟨rfl, { h with ofTypeMap := .inr ⟨ht, rfl⟩ }⟩

/-- The map from names may be filled again for the type it is for. -/
theorem CachesRight.ofTypeNameMap_fill (ht : t ≠ noType)
    (hor : m.caches.ofTypeNameMapType = t ∨ m.caches.ofTypeNameMap = [] ∧ m.caches.ofTypeMapType ≠ t) :
    (m.resourcesOfTypeNameMap t).ofTypeNameMap = scanOfTypeNameMap m.files t ∧
      { m with caches := m.resourcesOfTypeNameMap t }.CachesRight := by
  unfold resourcesOfTypeNameMap
  by_cases heq : m.caches.ofTypeMapType = t
  · rw [if_neg (by simpa using heq)]
    have hnm := hor.resolve_right fun hc => hc.2 heq
    subst hnm
    exact ⟨h.ofTypeNameMap.eq_scan ht, h⟩
  · have hfill : collect nameMap t m.files m.caches.ofTypeNameMap = scanOfTypeNameMap m.files t := by
      rcases hor with hnm | ⟨hemp, -⟩
      · subst hnm
        rw [h.ofTypeNameMap.eq_scan ht]
        exact collect_collect _ _ _
      · rw [hemp]
        rfl
    rw [if_pos heq]
    exact ⟨hfill, { h with ofTypeNameMap := .inr ⟨ht, hfill⟩ }⟩

/-! ## Changes -/

/-- A change of the files is right if no type in a cache is concerned. -/
theorem CachesRight.change (hty : m.caches.allTypes = ∅ ∨ scanTypes files = scanTypes m.files)
    (hfi : ∀ t, ¬m.NotCached t → files.map (fun f => f.2.find t) = m.files.map fun f => f.2.find t) :
    { m with files := files }.CachesRight where
  allTypes := by
    rcases hty with hemp | hsm
    · exact .inl hemp
    · rcases h.allTypes with hemp | heq
      · exact .inl hemp
      · exact .inr (heq.trans hsm.symm)
  ofType := h.ofType.imp_right fun ⟨hne, hcc⟩ => ⟨hne, hcc.trans (scans_of_find (hfi _ fun hn => hn.1 rfl)).1.symm⟩
  ofTypeMap := h.ofTypeMap.imp_right fun ⟨hne, hcc⟩ => ⟨hne, hcc.trans (scans_of_find (hfi _ fun hn => hn.2.1 rfl)).2.1.symm⟩
  ofTypeNameMap := h.ofTypeNameMap.imp_right fun ⟨hne, hcc⟩ =>
    ⟨hne, hcc.trans (scans_of_find (hfi _ fun hn => hn.2.2 rfl)).2.2.symm⟩

end

/-- Empty caches are right. -/
theorem cachesRight_cleared (files : List (RefNum × Resources)) (current : Option RefNum) (nextRefNum : RefNum) :
    CachesRight ⟨files, current, nextRefNum, .cleared⟩ :=
  ⟨.inl rfl, .inl ⟨rfl, rfl⟩, .inl ⟨rfl, rfl⟩, .inl ⟨rfl, rfl⟩⟩

/-- The types of the files stay, where a change of a file leaves its types. -/
theorem scanTypes_modify (h : ∀ r, (g r).resourceTypes.map fst = r.resourceTypes.map fst) :
    scanTypes (modify files refNum g) = scanTypes files := by
  have hmap : (modify files refNum g).map (fun f => f.2.resourceTypes.map fst) =
    files.map fun f => f.2.resourceTypes.map fst :=
    map_modify fun r _ => h r
  rw [scanTypes, scanTypes, flatMap_def, flatMap_def, hmap]

/-- Changing the data of a type leaves the types, and the data of the others. -/
theorem keys_modify (types : List (ResType × ResourceTypeData)) (type : ResType) (f : ResourceTypeData → ResourceTypeData) :
    (modify types type f).map fst = types.map fst :=
  map_modify fun _ _ => rfl

end Manager

namespace Resources

variable (r : Resources)

/-- Making a handle leaves the types. -/
theorem getHandle_types (addr : Addr) (fresh : Handle) : (r.getHandle addr fresh).2.resourceTypes = r.resourceTypes := by
  unfold getHandle
  split
  · rfl
  · split
    · rfl
    · rfl

/-- Adding a resource leaves the other types. -/
theorem find_add {type t : ResType} (ht : t ≠ type) (id : ResID) (name : Name) (data : Handle) (bytes : List UInt8)
    (addr : Addr) (indeterminate : ResType) : (r.add type id name data bytes addr indeterminate).find t = r.find t := by
  rw [find, add, lookup_modify, if_neg ht, withType, lookup_insertNew, if_neg ht, or_none, find]

/-- It adds at most its own type. -/
theorem mem_types_add (type t : ResType) (id : ResID) (name : Name) (data : Handle) (bytes : List UInt8) (addr : Addr)
    (indeterminate : ResType) :
    (t ∈ r.resourceTypes.map fst → t ∈ (r.add type id name data bytes addr indeterminate).resourceTypes.map fst) ∧
      (t ∈ (r.add type id name data bytes addr indeterminate).resourceTypes.map fst →
        t ∈ r.resourceTypes.map fst ∨ t = type) := by
  rw [add, keys_modify, withType, insertNew]
  split
  · exact ⟨fun h => h, .inl⟩
  · rw [map_append, mem_append]
    exact ⟨.inl, Or.imp_right fun h => mem_singleton.1 h⟩

/-- Removing a resource leaves the types, and the data of the others. -/
theorem remove_types (data : Handle) (stale : Addr) :
    (r.remove data stale).resourceTypes.map fst = r.resourceTypes.map fst ∧
      ∀ t, (∀ addr ∈ r.dataByHandle data, r.typeAt addr ≠ some t) → (r.remove data stale).find t = r.find t := by
  unfold remove dataByHandle
  split
  · exact ⟨rfl, fun _ _ => rfl⟩
  · rename_i d hd
    split
    · exact ⟨rfl, fun _ _ => rfl⟩
    · refine ⟨keys_modify _ _ _, fun t ht => ?_⟩
      obtain ⟨addr, haddr, hobj⟩ := bind_eq_some_iff.1 hd
      refine (lookup_modify _ _ _ _).trans (if_neg fun heq => ht addr haddr ?_)
      rw [typeAt, hobj, heq]
      rfl

/-- Changing the ID and the name does, too. -/
theorem setInfo_types (addr : Addr) (id : ResID) (name : Name) :
    (r.setInfo addr id name).resourceTypes.map fst = r.resourceTypes.map fst ∧
      ∀ t, r.typeAt addr ≠ some t → (r.setInfo addr id name).find t = r.find t := by
  unfold setInfo
  split
  · exact ⟨rfl, fun _ _ => rfl⟩
  · rename_i d hd
    refine ⟨keys_modify _ _ _, fun t ht => ?_⟩
    refine (lookup_modify _ _ _ _).trans (if_neg fun heq => ht ?_)
    rw [typeAt, hd, heq]
    rfl

end Resources

namespace Manager

variable {m : Manager}

/-! ## Calls -/

variable (h : m.CachesRight)

include h

theorem CachesRight.getHandle (addr : Addr) (fresh : Handle) : (m.getHandle addr fresh).2.CachesRight := by
  unfold Manager.getHandle
  split
  · exact h
  · refine h.change (.inr (scanTypes_modify fun r => ?_)) fun t _ => find_modify fun r _ => ?_
    · rw [r.getHandle_types]
    · rw [find, r.getHandle_types, find]

omit h in
/-- What is returned for a resource that was found does not depend on the caches, and they stay right. -/
theorem CachesRight.answerHandle {caches : Caches} (h : { m with caches := caches }.CachesRight) {found : Option Addr}
    {fresh : Handle} {a : Answer} {m' : Manager} (heq : { m with caches := caches }.answerHandle found fresh = (a, m')) :
    a = (m.answerHandle found fresh).1 ∧ m'.CachesRight := by
  cases found with
  | none =>
    cases heq
    exact ⟨rfl, h⟩
  | some addr =>
    cases heq
    refine ⟨?_, h.getHandle addr fresh⟩
    unfold Manager.answerHandle Manager.getHandle
    dsimp only
    split <;> rfl

theorem CachesRight.addResource {data : Option Handle} {type : ResType} {id : ResID} {name : Name} {bytes : List UInt8}
    {addr : Addr} {indeterminate : ResType} (hc : m.Careful (.addResource data type id name bytes addr indeterminate)) :
    (m.addResource data type id name bytes addr indeterminate).CachesRight := by
  obtain ⟨hnot, hty⟩ := hc
  unfold Manager.addResource
  split
  · rename_i refNum data _
    split
    · exact h
    · have hne : ∀ t, ¬m.NotCached t → t ≠ type := by
        rintro t ht rfl
        exact ht hnot
      refine h.change ?_ fun t ht => find_modify fun r _ => r.find_add (hne t ht) ..
      refine hty.imp_right fun hmem => ?_
      -- the type is one of those found, so nothing is added to them
      have hsc : type ∈ scanTypes m.files := by
        rcases h.allTypes with hemp | heq
        · rw [hemp] at hmem
          cases hmem
        · rwa [heq] at hmem
      ext t
      simp only [scanTypes, List.mem_toFinset, mem_flatMap] at hsc ⊢
      obtain ⟨hold, hnew⟩ := exists_mem_modify (m := m.files)
        (p := fun f => t ∈ f.2.resourceTypes.map fst)
        fun r _ => r.mem_types_add type t id name data bytes addr indeterminate
      refine ⟨fun hex => (hnew hex).elim (fun h => h) fun heq => ?_, hold⟩
      rw [heq]
      exact hsc
  · exact h

theorem CachesRight.removeResource {res : Option Handle} {stale : Addr} (hc : m.Careful (.removeResource res stale)) :
    (m.removeResource res stale).CachesRight := by
  unfold Manager.removeResource
  split
  · rename_i refNum res hcur
    refine h.change (.inr (scanTypes_modify fun r => (r.remove_types res stale).1)) fun t ht => find_modify fun r hr => ?_
    exact (r.remove_types res stale).2 t fun addr haddr htyp => ht (hc refNum hcur res rfl r hr addr haddr t htyp)
  · exact h

theorem CachesRight.setResInfo {res : Handle} {id : ResID} {name : Name} (hc : m.Careful (.setResInfo res id name)) :
    (m.setResInfo res id name).CachesRight := by
  unfold Manager.setResInfo
  split
  · exact h
  · rename_i refNum addr hfound
    refine h.change (.inr (scanTypes_modify fun r => (r.setInfo_types addr id name).1)) fun t ht => find_modify fun r hr => ?_
    exact (r.setInfo_types addr id name).2 t fun htyp => ht (hc _ hfound r hr t htyp)

/-- A careful call leaves the caches right, and returns what a fresh scan finds. -/
theorem CachesRight.call {c : Call} (hc : m.Careful c) {a : Answer} {m' : Manager} (hcall : m.call c = some (a, m')) :
    a = m.fresh c ∧ m'.CachesRight := by
  cases c with
  | openFile r order =>
    obtain ⟨m₁, hpn, heq⟩ := map_eq_some_iff.1 hcall
    cases heq
    refine ⟨rfl, ?_⟩
    unfold openFile at hpn
    split at hpn
    · cases hpn
    · obtain ⟨-, rfl⟩ := of_guarded hpn
      exact cachesRight_cleared ..
  | useResFile refNum =>
    cases hcall
    refine ⟨rfl, ?_⟩
    unfold useResFile
    split
    · exact { h with }
    · split
      · exact { h with }
      · exact h
  | closeResFile refNum =>
    cases hcall
    refine ⟨rfl, ?_⟩
    unfold closeResFile
    simp only
    split
    · exact cachesRight_cleared ..
    · exact { h with }
  | setResInfo res id name =>
    cases hcall
    exact ⟨rfl, h.setResInfo hc⟩
  | addResource data type id name bytes addr indeterminate =>
    cases hcall
    exact ⟨rfl, h.addResource hc⟩
  | removeResource res stale =>
    cases hcall
    exact ⟨rfl, h.removeResource hc⟩
  | countTypes | getIndType index =>
    cases hcall
    exact ⟨by rw [h.allTypes_fill.1]; rfl, h.allTypes_fill.2⟩
  | countResources type =>
    cases hcall
    obtain ⟨hsc, hrt⟩ := h.ofType_fill hc.1 hc.2
    exact ⟨by rw [hsc]; rfl, hrt⟩
  | getIndResource type index fresh =>
    obtain ⟨hsc, hrt⟩ := h.ofType_fill hc.1 hc.2
    rw [Manager.call, hsc] at hcall
    exact hrt.answerHandle (some.inj hcall)
  | getResource type id fresh =>
    obtain ⟨hsc, hrt⟩ := h.ofTypeMap_fill hc.1 hc.2
    rw [Manager.call, hsc] at hcall
    exact hrt.answerHandle (some.inj hcall)
  | getNamedResource type name fresh =>
    obtain ⟨hsc, hrt⟩ := h.ofTypeNameMap_fill hc.1 hc.2
    rw [Manager.call, hsc] at hcall
    exact hrt.answerHandle (some.inj hcall)

end Manager

/-- **Lookups reflect the open files**: after careful calls, a careful call returns what a fresh scan finds. -/
theorem lookups_fresh_of_careful {m : Manager} (h : resourceMachine.Reaches Manager.Careful m) {c : Call} (hc : m.Careful c)
    {a : Answer} {m' : Manager} (hcall : m.call c = some (a, m')) : a = m.fresh c := by
  have hrt : m.CachesRight := h.invariant (cachesRight_cleared ..) fun hm hc hst => by
    obtain ⟨⟨a, m₁⟩, hcall, rfl⟩ := map_eq_some_iff.1 hst
    exact (hm.call hc hcall).2
  exact (hrt.call hc hcall).1

def twoTypes : Resources := (empty.add 1 128 [] 10 [1] 100 1).add 2 128 [] 11 [2] 101 2

/-- The file is opened, the resources of type 1 are counted, and the one of type 2 is renamed. It is found then. -/
theorem lookups_fresh_of_careful_twoTypes : ∃ m, resourceMachine.runOk Manager.Careful resourceMachine.init
      [.openFile twoTypes [1], .countTypes, .countResources 1, .setResInfo 11 129 [65]] = some m ∧
    ∃ m', m.call (.getResource 2 129 12) = some (.handle (some 11), m') ∧
      Answer.handle (some 11) = m.fresh (.getResource 2 129 12) := by
  obtain ⟨m, hm, hcar, hget⟩ : ∃ m, resourceMachine.runOk Manager.Careful resourceMachine.init
      [.openFile twoTypes [1], .countTypes, .countResources 1, .setResInfo 11 129 [65]] = some m ∧
      m.Careful (.getResource 2 129 12) ∧ (m.call (.getResource 2 129 12)).map fst = some (.handle (some 11)) :=
    exists_of_runOk (by decide +kernel)
  obtain ⟨⟨a, m'⟩, hcall, rfl⟩ := map_eq_some_iff.1 hget
  exact ⟨m, hm, m', hcall, lookups_fresh_of_careful (reaches_of_runOk hm) hcar hcall⟩

/-- The resources of type 1 are counted, then those of type 2. There is one, and two are counted: the cache was not cleared. -/
theorem countResources_not_fresh : ∃ m, resourceMachine.Reachable m ∧
    ∃ m', m.call (.countResources 2) = some (.count 2, m') ∧ m.fresh (.countResources 2) = .count 1 := by
  obtain ⟨m, hm, hcount, hfresh⟩ := exists_reachable_of_run (M := resourceMachine)
    [.openFile twoTypes [1], .countResources 1]
    (P := fun m => (m.call (.countResources 2)).map fst = some (.count 2) ∧ m.fresh (.countResources 2) = .count 1)
    (by decide +kernel)
  obtain ⟨⟨a, m'⟩, hcall, rfl⟩ := map_eq_some_iff.1 hcount
  exact ⟨m, hm, m', hcall, hfresh⟩

end Osxie.Carbon
