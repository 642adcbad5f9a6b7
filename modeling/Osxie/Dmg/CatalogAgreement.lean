import Mathlib.Data.List.Induction
import Mathlib.Data.List.Nodup
import Osxie.Dmg.Catalog

/-!
# Listing and lookup agree

The leaves that a search by parent returns have all files and folders of the parent, so `stat` and `listDirectory` come to
filters of `items`. Names of the same parent are different, also in UTF-8 and after the exchange of slashes and colons.
-/

namespace Osxie.Dmg

open List SortedMap BTree

namespace Catalog

/-! ## Paths -/

variable {s e n : Text} {parentID : Nat} {root : Item} {ff : FileOrFolder}

theorem split_of_not_mem (h : '/' ∉ s) (item : Text) : split s item = if item ++ s = [] then [] else [item ++ s] := by
  induction s generalizing item with
  | nil => rw [split, append_nil]
  | cons ch s ih =>
    obtain ⟨hch, hs⟩ := not_or.1 (mt mem_cons.2 h)
    rw [split, if_neg (Ne.symm hch), ih hs, append_assoc, singleton_append]

/-- Splitting goes on after a slash that does not come at the beginning or after another one. -/
theorem split_append (hla : s.getLast? ≠ some '/') (t : Text) {item : Text} (htm : s = [] → item ≠ []) :
    split (s ++ '/' :: t) item = split s item ++ split t [] := by
  induction s generalizing item with
  | nil => simp [split, htm rfl]
  | cons ch s ih =>
    rw [cons_append, split, split]
    by_cases hch : ch = '/'
    · have hs : s ≠ [] := by
        rintro rfl
        exact hla (by rw [hch]; rfl)
      rw [if_pos hch, if_pos hch, ih (by rwa [getLast?_cons_of_ne_nil hs] at hla) (fun h => absurd h hs), cons_append]
    · rw [if_neg hch, if_neg hch]
      by_cases hs : s = []
      · subst hs
        exact ih (by simp) (by simp)
      · exact ih (by rwa [getLast?_cons_of_ne_nil hs] at hla) (fun h => absurd h hs)

/-- No component has a slash. -/
theorem not_mem_of_mem_split {item : Text} (htm : '/' ∉ item) (he : e ∈ split s item) : '/' ∉ e := by
  induction s generalizing item with
  | nil =>
    rw [split] at he
    split at he
    · cases he
    · rwa [mem_singleton.1 he]
  | cons ch s ih =>
    rw [split] at he
    split at he
    · rcases mem_cons.1 he with rfl | he
      · exact htm
      · exact ih (by simp) he
    · rename_i hch
      exact ih (by simp [htm, Ne.symm hch]) he

variable {path : Text} {elems : List Text} {x : Item}

/-- Of a path that does not end in a slash only one at the beginning is taken off. -/
theorem strip_of_getLast (h : path.getLast? ≠ some '/') : strip path = if path.head? = some '/' then path.tail else path := by
  unfold strip
  by_cases hhd : path.head? = some '/'
  · simp only [hhd, if_true]
    obtain ⟨s, rfl⟩ : ∃ s, path = '/' :: s := ⟨path.tail, (cons_head?_tail hhd).symm⟩
    have hs : s ≠ [] := by
      rintro rfl
      exact h rfl
    rw [getLast?_cons_of_ne_nil hs] at h
    rw [tail_cons, if_neg h]
  · simp only [hhd, if_false, if_neg h]

/-- The end of a component is not a slash. -/
theorem getLast?_append_slash (s : Text) (hn : n ≠ []) (hsl : '/' ∉ n) : (s ++ '/' :: n).getLast? ≠ some '/' := by
  rw [getLast?_append_of_ne_nil _ (by simp), getLast?_cons_of_ne_nil hn]
  intro h
  exact hsl (mem_of_getLast? h)

/-- The components of a path with another one behind it. -/
theorem components_append {path : Text} (hpa : path.getLast? ≠ some '/') (hn : n ≠ []) (hsl : '/' ∉ n) :
    components (path ++ '/' :: n) = components path ++ [n] := by
  have hla := getLast?_append_slash path hn hsl
  have hend : split n [] = [n] := by rw [split_of_not_mem hsl, nil_append, if_neg hn]
  rw [components, components, strip_of_getLast hla, strip_of_getLast hpa]
  cases path with
  | nil => simpa [split] using hend
  | cons ch s =>
    rw [cons_append, head?_cons, head?_cons, tail_cons, tail_cons]
    by_cases hch : some ch = some '/'
    · have hs : s ≠ [] := by
        rintro rfl
        exact hpa hch
      rw [getLast?_cons_of_ne_nil hs] at hpa
      rw [if_pos hch, if_pos hch, split_append hpa n (fun h => absurd h hs), hend]
    · rw [if_neg hch, if_neg hch, ← cons_append, split_append hpa n (by simp), hend]

/-- A path of components has these components. -/
theorem components_joinPath (h : ∀ e ∈ elems, e ≠ [] ∧ '/' ∉ e) :
    (joinPath elems).getLast? ≠ some '/' ∧ components (joinPath elems) = elems := by
  induction elems using reverseRecOn with
  | nil => exact ⟨by simp [joinPath], rfl⟩
  | append_singleton es e ih =>
    obtain ⟨hla, hes⟩ := ih fun e he => h e (by simp [he])
    obtain ⟨hne, hsl⟩ := h e (by simp)
    have hjoin : joinPath (es ++ [e]) = joinPath es ++ '/' :: e := by simp [joinPath]
    rw [hjoin]
    exact ⟨getLast?_append_slash _ hne hsl, by rw [components_append hla hne hsl, hes]⟩

/-! ## Files and folders of a parent -/

variable {c : Catalog} {leaves : List (Nat × Node CatalogKey FileOrFolder)}

/-- A record counts if it is a file or folder that matches. -/
theorem appendRecord_eq (parentID : Nat) (name : Text) (map : SortedMap Text FileOrFolder) (r : CatalogKey × Payload FileOrFolder) :
    c.appendRecord parentID name map r = match item r with
      | none => map
      | some x => if c.Matches parentID name x then map.insert (c.text x) x.2 else map := by
  obtain ⟨key, payload⟩ := r
  cases payload with
  | child _ => rfl
  | value ff =>
    obtain ⟨type, id, fileType, num⟩ := ff
    cases type <;> rfl

/-- The loops over the records are insertions of the files and folders that match. -/
theorem foldl_appendRecord (parentID : Nat) (name : Text) (records : List (CatalogKey × Payload FileOrFolder))
    (map : SortedMap Text FileOrFolder) : records.foldl (c.appendRecord parentID name) map =
      ((records.filterMap item).filter fun x => decide (c.Matches parentID name x)).foldl
        (fun m x => m.insert (c.text x) x.2) map := by
  induction records generalizing map with
  | nil => rfl
  | cons r rs ih =>
    rw [foldl_cons, ih, appendRecord_eq, filterMap_cons]
    cases hr : item r with
    | none => rfl
    | some x =>
      by_cases hm : c.Matches parentID name x
      · simp only [filter_cons, decide_true, foldl_cons, hm, if_true]
      · simp only [filter_cons, decide_false, hm, Bool.false_eq_true, if_false]

/-- Searching by the parent compares with the order of the keys. -/
theorem idOnlyComparator_monotone : BTree.Monotone idOnlyComparator where
  nonneg := fun a b s hle h => by
    have hle : a.parentID ≤ b.parentID := hle
    simp only [idOnlyComparator] at h ⊢
    split_ifs at h ⊢ <;> omega
  pos := fun a b s hle h => by
    have hle : a.parentID ≤ b.parentID := hle
    simp only [idOnlyComparator] at h ⊢
    split_ifs at h ⊢ <;> omega
  swap := fun a s => by
    simp only [idOnlyComparator]
    split_ifs <;> omega

theorem matching_append (ls ls' : List (Nat × Node CatalogKey FileOrFolder)) (parentID : Nat) (name : Text) :
    c.matching (ls ++ ls') parentID name = c.matching ls parentID name ++ c.matching ls' parentID name := by
  rw [matching, items, recordsOf, flatMap_append, filterMap_append, filter_append]
  rfl

/-- The key of a file or folder is that of its record. -/
theorem key_of_item {r : CatalogKey × Payload FileOrFolder} (h : item r = some x) : x.1 = r.1 := by
  obtain ⟨key, payload⟩ := r
  cases payload with
  | child _ => cases h
  | value ff =>
    obtain ⟨type, id, fileType, num⟩ := ff
    cases type <;> cases h <;> rfl

/-- Leaves without a key of the parent have no file or folder of it. -/
theorem matching_eq_nil {ls : List (Nat × Node CatalogKey FileOrFolder)}
    (h : ∀ k ∈ keysOf ls, idOnlyComparator k ⟨parentID, []⟩ ≠ 0) (name : Text) : c.matching ls parentID name = [] := by
  refine filter_eq_nil_iff.2 fun x hx hm => ?_
  obtain ⟨r, hr, htm⟩ := mem_filterMap.1 hx
  have hkey := key_of_item htm
  have hpar : x.1.parentID = parentID := (of_decide_eq_true hm).1
  refine h r.1 (key_mem_keysOf hr) ?_
  rw [← hkey, idOnlyComparator, hpar, if_neg (Nat.lt_irrefl _), if_neg (Nat.lt_irrefl _)]

section

variable (hwf : c.WellFormed leaves)

include hwf

/-- A search by parent, and the loops over the leaves found, give the files and folders that match. -/
theorem recordsOfParent_spec (hreach : c.tree.InReach) (parentID : Nat) (name : Text) :
    ∃ enough, ∀ rounds ≥ enough, c.recordsOfParent parentID name rounds =
      some (.ok (.ofList ((c.matching leaves parentID name).map fun x => (c.text x, x.2)))) := by
  obtain ⟨left, taken, right, hleaves, hlf, hrt, enough, hfi⟩ := findLeafNodes_spec hwf.tree hreach.reads
    (idOnlyComparator_monotone.climbs hwf.tree ⟨parentID, []⟩).gathers
  refine ⟨enough, fun rounds henough => ?_⟩
  have hmat : c.matching leaves parentID name = c.matching taken parentID name := by
    rw [hleaves, matching_append, matching_append, matching_eq_nil hlf, matching_eq_nil hrt, nil_append, append_nil]
  simp only [recordsOfParent, hfi rounds henough, hmat, foldl_appendRecord, flatMap_map, ofList, foldl_map]
  rfl

/-! ## Names of the same parent -/

/-- Files and folders of the same parent have different names, however they are written. -/
theorem matching_pairwise (parentID : Nat) (name : Text) :
    (c.matching leaves parentID name).Pairwise fun x y =>
      c.compared (c.unicode.ofHFS x.1.nodeName) ≠ c.compared (c.unicode.ofHFS y.1.nodeName) := by
  refine (hwf.siblings.filter _).imp_of_mem fun {x y} hx hy h => h ?_
  have hx : c.Matches parentID name x := of_decide_eq_true (mem_filter.1 hx).2
  have hy : c.Matches parentID name y := of_decide_eq_true (mem_filter.1 hy).2
  rw [hx.1, hy.1]

omit hwf in
/-- The name in UTF-8 tells which name it is. -/
theorem ofHFS_of_text {y : Item} (h : c.text x = c.text y) : c.unicode.ofHFS x.1.nodeName = c.unicode.ofHFS y.1.nodeName := by
  rw [← c.unicode.roundTrip x.1.nodeName, ← c.unicode.roundTrip y.1.nodeName]
  exact congrArg _ h

omit hwf in
/-- In a listing too. -/
theorem replaceChars_shown (h : ':' ∉ c.text x) : replaceChars (c.shown x) ':' '/' = c.text x := by
  rw [shown, replaceChars, replaceChars, map_map]
  conv_rhs => rw [← map_id (c.text x)]
  refine map_congr_left fun ch hch => ?_
  have hne : ch ≠ ':' := fun he => h (he ▸ hch)
  by_cases hsl : ch = '/'
  · simp [hsl]
  · simp [hsl, hne]

omit hwf in
theorem slash_not_mem_shown (x : Item) : '/' ∉ c.shown x := by
  intro h
  obtain ⟨ch, -, hch⟩ := mem_map.1 h
  split at hch
  · cases hch
  · rename_i hne
    exact hne hch

/-- At most one file or folder of a parent has a name that is not empty. -/
theorem matching_cases (parentID : Nat) {name : Text} (hnm : name ≠ []) :
    c.matching leaves parentID name = [] ∨ ∃ x, c.matching leaves parentID name = [x] := by
  cases hm : c.matching leaves parentID name with
  | nil => exact .inl rfl
  | cons x xs =>
    cases xs with
    | nil => exact .inr ⟨x, rfl⟩
    | cons y ys =>
      have hpair := matching_pairwise hwf parentID name
      have heq : ∀ z ∈ c.matching leaves parentID name,
          c.compared (c.unicode.fromUTF8 name) = c.compared (c.unicode.ofHFS z.1.nodeName) := by
        intro z hz
        have hz : c.Matches parentID name z := of_decide_eq_true (mem_filter.1 hz).2
        exact of_decide_eq_true (hz.2.resolve_left hnm)
      rw [hm] at hpair heq
      have hne := rel_of_pairwise_cons hpair mem_cons_self
      exact absurd ((heq x (by simp)).symm.trans (heq y (by simp))) hne

/-- A file or folder is found by its name. -/
theorem matching_text (hx : x ∈ items leaves) : c.matching leaves x.1.parentID (c.text x) = [x] := by
  have hmem : x ∈ c.matching leaves x.1.parentID (c.text x) := by
    refine mem_filter.2 ⟨hx, decide_eq_true ⟨rfl, .inr (decide_eq_true ?_)⟩⟩
    rw [text, unicharToString, c.unicode.roundTrip]
  rcases matching_cases hwf x.1.parentID (hwf.named x hx).1 with h | ⟨y, h⟩
  · rw [h] at hmem
    cases hmem
  · rw [h] at hmem ⊢
    rw [mem_singleton.1 hmem]

/-! ## Lookup -/

/-- The record that matches is returned. -/
theorem findFileOrFolder_spec (hreach : c.tree.InReach) {name : Text}
    (h : c.matching leaves parentID name = [] ∨ ∃ x, c.matching leaves parentID name = [x]) : ∃ enough, ∀ rounds ≥ enough,
      c.findFileOrFolder parentID name rounds = some (.ok ((c.matching leaves parentID name).head?.map Prod.snd)) := by
  obtain ⟨enough, hrec⟩ := recordsOfParent_spec hwf hreach parentID name
  refine ⟨enough, fun rounds henough => ?_⟩
  rw [findFileOrFolder, hrec rounds henough]
  rcases h with h | ⟨x, h⟩
  · rw [h]
    rfl
  · rw [h]
    rfl

/-- From a file or folder down by the components of a path. -/
def descend (c : Catalog) (leaves : List (Nat × Node CatalogKey FileOrFolder)) (x : Item) : List Text → Option Item
  | [] => some x
  | e :: es =>
    match c.matching leaves x.2.folderID (replaceChars e ':' '/') with
    | [] => none
    | y :: _ => descend c leaves y es

omit hwf in
theorem replaceChars_ne_nil (h : s ≠ []) (a b : Char) : replaceChars s a b ≠ [] := by
  simpa [replaceChars] using h

section

variable (hreach : c.tree.InReach)

include hreach

/-- The loop of `stat` goes down. -/
theorem walk_spec (helems : ∀ e ∈ elems, e ≠ []) (x : Item) :
    ∃ enough, ∀ rounds ≥ enough, c.walk rounds (some x.2) elems = some (match descend c leaves x elems with
      | none => .error .enoent
      | some y => .ok (some y.2)) := by
  induction elems generalizing x with
  | nil => exact ⟨0, fun _ _ => rfl⟩
  | cons e es ih =>
    have hcas := matching_cases hwf x.2.folderID (replaceChars_ne_nil (helems e mem_cons_self) ':' '/')
    obtain ⟨enough₁, hfi⟩ := findFileOrFolder_spec hwf hreach hcas
    rcases hcas with hnil | ⟨y, hy⟩
    · refine ⟨enough₁, fun rounds henough => ?_⟩
      simp only [walk, hfi rounds henough, hnil, descend]
      rfl
    · obtain ⟨enough₂, hwalk⟩ := ih (fun e he => helems e (mem_cons_of_mem _ he)) y
      refine ⟨max enough₁ enough₂, fun rounds henough => ?_⟩
      simp only [walk, hfi rounds (by omega), hy, descend]
      exact hwalk rounds (by omega)

/-- The end of `stat`. -/
theorem followHardLink_spec (ff : FileOrFolder) :
    ∃ enough, ∀ rounds ≥ enough, c.followHardLink ff rounds = some (.ok (c.resolved leaves ff)) := by
  unfold followHardLink resolved
  by_cases hln : ff.fileType = kHardLinkFileType ∧ c.hardLinkDirID ≠ 0
  · have hpa : iNodePath ff.iNodeNum ≠ [] := append_ne_nil_of_left_ne_nil (by decide) _
    have hcas := matching_cases hwf c.hardLinkDirID hpa
    obtain ⟨enough, hfi⟩ := findFileOrFolder_spec hwf hreach hcas
    refine ⟨enough, fun rounds henough => ?_⟩
    rw [if_pos hln, if_pos hln, hfi rounds henough]
    rcases hcas with h | ⟨y, h⟩
    · rw [h]
      rfl
    · rw [h]
      rfl
  · exact ⟨0, fun _ _ => by rw [if_neg hln, if_neg hln]⟩

variable (hroot : c.matching leaves kHFSRootParentID [] = [root])

include hroot

/-- `stat` goes down from the root. -/
theorem stat_spec (hpa : ∀ e ∈ components path, e ≠ []) :
    c.Stats path (match descend c leaves root (components path) with
      | none => .error .enoent
      | some y => .ok (c.resolved leaves y.2)) := by
  obtain ⟨enough₁, hfi⟩ := findFileOrFolder_spec hwf hreach (.inr ⟨root, hroot⟩)
  obtain ⟨enough₂, hwalk⟩ := walk_spec hwf hreach hpa root
  have hfirst : ∀ rounds ≥ enough₁, c.walk rounds none ([] :: components path) = c.walk rounds (some root.2) (components path) := by
    intro rounds henough
    rw [walk]
    simp only [show replaceChars [] ':' '/' = [] from rfl, hfi rounds henough, hroot]
    rfl
  cases hds : descend c leaves root (components path) with
  | none =>
    refine ⟨max enough₁ enough₂, fun rounds henough => ?_⟩
    rw [stat, hfirst rounds (by omega), hwalk rounds (by omega), hds]
  | some y =>
    obtain ⟨enough₃, hfol⟩ := followHardLink_spec hwf hreach y.2
    refine ⟨max (max enough₁ enough₂) enough₃, fun rounds henough => ?_⟩
    rw [stat, hfirst rounds (by omega), hwalk rounds (by omega), hds]
    exact hfol rounds (by omega)

omit hroot in
omit hreach in
omit hwf in
theorem Stats.unique {res res' : Except Failure FileOrFolder} (h : c.Stats path res) (h' : c.Stats path res') : res = res' := by
  obtain ⟨enough, h⟩ := h
  obtain ⟨enough', h'⟩ := h'
  exact Option.some.inj ((h (max enough enough') (Nat.le_max_left ..)).symm.trans (h' _ (Nat.le_max_right ..)))

/-- The constructor finds the folder of the files that hard links are to, if there is one. -/
theorem findHardLinkDir_spec :
    ∃ enough, ∀ rounds ≥ enough, c.findHardLinkDir rounds =
      some (.ok (((descend c leaves root [privateData]).map fun y => y.2.folderID).getD 0)) := by
  have hwf' : { c with hardLinkDirID := 0 }.WellFormed leaves :=
    ⟨hwf.tree, hwf.root, hwf.siblings, hwf.named, hwf.ids, hwf.parents, fun x hx hln =>
      ⟨(hwf.links x hx hln).1, fun hne => absurd rfl hne⟩⟩
  obtain ⟨enough, hstate⟩ := stat_spec hwf' hreach hroot (show ∀ e ∈ components privateData, e ≠ [] by decide)
  refine ⟨enough, fun rounds henough => ?_⟩
  have hds : descend { c with hardLinkDirID := 0 } leaves root (components privateData) =
    descend c leaves root [privateData] := by
    rfl
  rw [findHardLinkDir, hstate rounds henough, hds]
  cases descend c leaves root [privateData] with
  | none => rfl
  | some y =>
    have hsm : { c with hardLinkDirID := 0 }.resolved leaves y.2 = y.2 := if_neg fun hln => hln.2 rfl
    simp only [hsm, Option.map_some, Option.getD_some]

/-- A path that `stat` accepts leads to a file or folder. -/
theorem descend_of_stats (hpa : ∀ e ∈ components path, e ≠ []) (h : c.Stats path (.ok ff)) :
    ∃ y, descend c leaves root (components path) = some y ∧ ff = c.resolved leaves y.2 := by
  have hspec := h.unique (stat_spec hwf hreach hroot hpa)
  cases hds : descend c leaves root (components path) with
  | none =>
    rw [hds] at hspec
    cases hspec
  | some y =>
    rw [hds] at hspec
    exact ⟨y, rfl, Except.ok.inj hspec⟩

end

omit hwf in
/-- Going down stays in the catalog. -/
theorem descend_mem {y : Item} (hx : x ∈ items leaves) (h : descend c leaves x elems = some y) : y ∈ items leaves := by
  induction elems generalizing x with
  | nil =>
    cases h
    exact hx
  | cons e es ih =>
    rw [descend] at h
    split at h
    · cases h
    rename_i z zs hz
    have hmem : z ∈ c.matching leaves x.2.folderID (replaceChars e ':' '/') := by
      rw [hz]
      exact mem_cons_self
    exact ih (mem_filter.1 hmem).1 h

omit hwf in
theorem descend_append (x : Item) (es es' : List Text) :
    descend c leaves x (es ++ es') = (descend c leaves x es).bind fun y => descend c leaves y es' := by
  induction es generalizing x with
  | nil => rfl
  | cons e es ih =>
    rw [cons_append, descend, descend]
    split
    · rfl
    · exact ih _

/-- A folder is not taken for a hard link. -/
theorem resolved_of_folder (hx : x ∈ items leaves) (h : x.2.recordType = .folder) : c.resolved leaves x.2 = x.2 := by
  refine if_neg fun hln => ?_
  rw [(hwf.links x hx hln.1).1] at h
  cases h

/-- What a hard link is to is not a folder. -/
theorem eq_of_resolved_folder (hx : x ∈ items leaves) (h : (c.resolved leaves x.2).recordType = .folder) :
    c.resolved leaves x.2 = x.2 := by
  unfold resolved at h ⊢
  split at h
  · rename_i hln
    rw [if_pos hln]
    split at h
    · rfl
    rename_i y ys hy
    have hfl := (hwf.links x hx hln.1).2 hln.2 y (by rw [hy]; exact mem_cons_self)
    rw [hfl] at h
    cases h
  · rename_i hln
    rw [if_neg hln]

/-! ## Listing -/

omit hwf in
/-- The loop of `listDirectory` inserts the entries that are not hidden. -/
theorem foldl_listEntry (folderID : Nat) (l : List (Text × FileOrFolder)) : l.foldl (listEntry folderID) .empty =
    .ofList ((l.filter fun e => decide (folderID ≠ kHFSRootFolderID ∨ hidden e.1 = false)).map
      fun e => (replaceChars e.1 '/' ':', e.2)) := by
  suffices haux : ∀ m, l.foldl (listEntry folderID) m =
      (l.filter fun e => decide (folderID ≠ kHFSRootFolderID ∨ hidden e.1 = false)).foldl
        (fun m e => m.insert (replaceChars e.1 '/' ':') e.2) m by
    rw [haux, ofList, foldl_map]
  induction l with
  | nil => intro m; rfl
  | cons e l ih =>
    intro m
    rw [foldl_cons, ih, filter_cons, listEntry]
    by_cases hvis : folderID ≠ kHFSRootFolderID ∨ hidden e.1 = false
    · rw [if_pos hvis, if_pos (decide_eq_true hvis), foldl_cons]
    · rw [if_neg hvis, if_neg (by simpa using hvis)]

/-- Names of the same parent that are written so that they can be told apart are all different. -/
theorem nodup_of_matching (parentID : Nat) {f : Item → Text} {l : List Item}
    (hf : ∀ x ∈ items leaves, ∀ y ∈ items leaves, f x = f y → c.text x = c.text y)
    (hl : l.Sublist (c.matching leaves parentID [])) : (l.map f).Nodup := by
  refine pairwise_map.2 (((matching_pairwise hwf parentID []).sublist hl).imp_of_mem fun {x y} hx hy hne heq => hne ?_)
  have hmem : ∀ z ∈ l, z ∈ items leaves := fun z hz => (mem_filter.1 (hl.subset hz)).1
  rw [ofHFS_of_text (hf x (hmem x hx) y (hmem y hy) heq)]

/-- The entries of a listing are those of the files and folders that are not hidden. -/
theorem listed_perm (folderID : Nat) :
    entries ((ofList ((c.matching leaves folderID []).map fun x => (c.text x, x.2))).entries.foldl
      (listEntry folderID) .empty) |>.Perm ((c.visible leaves folderID).map fun x => (c.shown x, x.2)) := by
  have htext : ((c.matching leaves folderID []).map c.text).Nodup :=
    nodup_of_matching hwf folderID (fun _ _ _ _ h => h) (List.Sublist.refl _)
  have hshown : ((c.visible leaves folderID).map c.shown).Nodup := by
    refine nodup_of_matching hwf folderID (fun x hx y hy h => ?_) (filter_sublist)
    rw [← replaceChars_shown (hwf.named x hx).2, ← replaceChars_shown (hwf.named y hy).2, h]
  have hentr : (ofList ((c.matching leaves folderID []).map fun x => (c.text x, x.2))).entries.Perm _ :=
    perm_ofList (by rwa [map_map])
  have hvis : (((c.matching leaves folderID []).map fun x => (c.text x, x.2)).filter
      fun e => decide (folderID ≠ kHFSRootFolderID ∨ hidden e.1 = false)).map (fun e => (replaceChars e.1 '/' ':', e.2)) =
        (c.visible leaves folderID).map fun x => (c.shown x, x.2) := by
    rw [filter_map, map_map]
    rfl
  have hpm := (hentr.filter fun e => decide (folderID ≠ kHFSRootFolderID ∨ hidden e.1 = false)).map
    fun e => (replaceChars e.1 '/' ':', e.2)
  rw [hvis] at hpm
  rw [foldl_listEntry]
  refine (perm_ofList ?_).trans hpm
  rw [(hpm.map Prod.fst).nodup_iff, map_map]
  exact hshown

/-- The listing of a folder. -/
theorem lists_spec (hreach : c.tree.InReach) {dir : FileOrFolder} (hstats : c.Stats path (.ok dir))
    (hfolder : dir.recordType = .folder) : ∃ contents, c.Lists path (.ok contents) ∧
      contents.entries.Perm ((c.visible leaves dir.folderID).map fun x => (c.shown x, x.2)) := by
  obtain ⟨enough₁, hstate⟩ := hstats
  obtain ⟨enough₂, hrec⟩ := recordsOfParent_spec hwf hreach dir.folderID []
  refine ⟨_, ⟨max enough₁ enough₂, fun rounds henough => ?_⟩, listed_perm hwf dir.folderID⟩
  rw [listDirectory, hstate rounds (by omega)]
  simp only [hfolder, hrec rounds (by omega)]

/-! ## Agreement -/

/-- What has something in it is a folder. -/
theorem folder_of_child {z : Item} (hx : x ∈ items leaves) (hz : z ∈ items leaves) (hpar : x.1.parentID = z.2.folderID) :
    z.2.recordType = .folder := by
  have hne : x.1.parentID ≠ kHFSRootParentID := by
    rw [hpar]
    exact hwf.ids.2 z hz
  obtain ⟨y, hy, hfolder, hid⟩ := hwf.parents x hx hne
  rw [← inj_on_of_nodup_map hwf.ids.1 hy hz (hid.trans hpar)]
  exact hfolder

omit hwf in
/-- The file or folder that a component is the name of. -/
theorem exists_child_of_descend {z y : Item} {es : List Text} (h : descend c leaves z (e :: es) = some y) (he : e ≠ []) :
    ∃ x ∈ items leaves, x.1.parentID = z.2.folderID ∧ c.equal x.1.nodeName (replaceChars e ':' '/') = true := by
  rw [descend] at h
  split at h
  · cases h
  rename_i x xs hx
  have hmem : x ∈ c.matching leaves z.2.folderID (replaceChars e ':' '/') := by
    rw [hx]
    exact mem_cons_self
  obtain ⟨htm, hmt⟩ := mem_filter.1 hmem
  have hmt : c.Matches z.2.folderID (replaceChars e ':' '/') x := of_decide_eq_true hmt
  exact ⟨x, htm, hmt.1, hmt.2.resolve_left (replaceChars_ne_nil he ':' '/')⟩

/-- The path of an entry leads to it. -/
theorem stats_of_visible (hreach : c.tree.InReach) {y : Item} (hroot : c.matching leaves kHFSRootParentID [] = [root])
    (hpa : ∀ e ∈ components path, e ≠ []) (hla : path.getLast? ≠ some '/')
    (hy : descend c leaves root (components path) = some y) (hx : x ∈ c.visible leaves y.2.folderID) :
    c.Stats (path ++ '/' :: c.shown x) (.ok (c.resolved leaves x.2)) := by
  obtain ⟨htm, hmt⟩ := mem_filter.1 (mem_filter.1 hx).1
  have hmt : c.Matches y.2.folderID [] x := of_decide_eq_true hmt
  have hne : c.shown x ≠ [] := replaceChars_ne_nil (hwf.named x htm).1 '/' ':'
  have hcp : components (path ++ '/' :: c.shown x) = components path ++ [c.shown x] :=
    components_append hla hne (slash_not_mem_shown x)
  have hds : descend c leaves root (components (path ++ '/' :: c.shown x)) = some x := by
    rw [hcp, descend_append, hy, Option.bind_some, descend, replaceChars_shown (hwf.named x htm).2, ← hmt.1,
      matching_text hwf htm]
    rfl
  have hnon : ∀ e ∈ components (path ++ '/' :: c.shown x), e ≠ [] := by
    intro e he
    rw [hcp] at he
    rcases mem_append.1 he with he | he
    · exact hpa e he
    · rw [mem_singleton.1 he]
      exact hne
  have hstats := stat_spec hwf hreach hroot hnon
  rwa [hds] at hstats

end

/-- **Listing and lookup agree**, in a catalog whose nodes begin in the first 4 GiB of its file. -/
theorem agrees_of_inReach (hwf : c.WellFormed leaves) (hreach : c.tree.InReach) : c.Agrees leaves := by
  obtain ⟨root, hroot, hrootF, hrootI⟩ := hwf.root
  have hroo : root ∈ items leaves := by
    have hmem : root ∈ c.matching leaves kHFSRootParentID [] := by rw [hroot]; exact mem_cons_self
    exact (mem_filter.1 hmem).1
  constructor
  · intro path dir hpa hla hstats hfolder
    obtain ⟨y, hds, rfl⟩ := descend_of_stats hwf hreach hroot hpa hstats
    have heq := eq_of_resolved_folder hwf (descend_mem hroo hds) hfolder
    rw [heq] at hstats hfolder ⊢
    obtain ⟨contents, hls, hpm⟩ := lists_spec hwf hreach hstats hfolder
    exact ⟨contents, hls, hpm, fun x hx => stats_of_visible hwf hreach hroot hpa hla hds hx⟩
  · intro path ff hpa hstats i e he
    obtain ⟨y, hds, -⟩ := descend_of_stats hwf hreach hroot hpa hstats
    obtain ⟨hi, rfl⟩ := List.getElem?_eq_some_iff.1 he
    -- the path up to the component leads to a folder `z`, and the component is the name of an `x` in it
    rw [← take_append_drop i (components path), descend_append, drop_eq_getElem_cons hi] at hds
    obtain ⟨z, hz, hrs⟩ := Option.bind_eq_some_iff.1 hds
    obtain ⟨x, hx, hpar, hnm⟩ := exists_child_of_descend hrs (hpa _ (getElem_mem hi))
    have hzMem := descend_mem hroo hz
    have hzFol := folder_of_child hwf hx hzMem hpar
    have hbef : ∀ e ∈ (components path).take i, e ≠ [] ∧ '/' ∉ e := fun e he =>
      ⟨hpa e (mem_of_mem_take he), not_mem_of_mem_split (by simp) (mem_of_mem_take he)⟩
    have hcp := (components_joinPath hbef).2
    have hnon : ∀ e ∈ components (joinPath ((components path).take i)), e ≠ [] := by
      intro e he
      rw [hcp] at he
      exact (hbef e he).1
    have hstats := stat_spec hwf hreach hroot hnon
    rw [hcp, hz] at hstats
    have hstats : c.Stats (joinPath ((components path).take i)) (.ok z.2) := by
      rw [← resolved_of_folder hwf hzMem hzFol]
      exact hstats
    obtain ⟨contents, hls, hpm⟩ := lists_spec hwf hreach hstats hzFol
    refine ⟨z.2, contents, x, hx, hstats, hls, hpar, hnm, ?_⟩
    by_cases hvis : z.2.folderID ≠ kHFSRootFolderID ∨ hidden (c.text x) = false
    · have hmem : x ∈ c.visible leaves z.2.folderID :=
        mem_filter.2 ⟨mem_filter.2 ⟨hx, decide_eq_true ⟨hpar, .inl rfl⟩⟩, decide_eq_true hvis⟩
      exact .inl (hpm.mem_iff.2 (mem_map_of_mem hmem))
    · rw [not_or, not_not, Bool.not_eq_false] at hvis
      exact .inr hvis

/-! ## A small disk -/

def plainUnicode : Unicode where
  UString := Text
  ofHFS name := name.map fun u => Char.ofNat u.toNat
  toUTF8 := id
  fromUTF8 := id
  foldCase := map Char.toLower
  roundTrip _ := rfl

def hfsName (s : Text) : HFSString := s.map fun ch => UInt16.ofNat ch.toNat

def journal : FileOrFolder := ⟨.file, 16, 0, 0⟩

def diskLeaves : List (Nat × Node CatalogKey FileOrFolder) :=
  [(2, ⟨.leaf, 3, [(⟨1, hfsName ['D']⟩, .value ⟨.folder, 2, 0, 0⟩),
      (⟨2, hfsName privateData⟩, .value ⟨.folder, 19, 0, 0⟩),
      (⟨2, hfsName ['.', 'j', 'o', 'u', 'r', 'n', 'a', 'l']⟩, .value journal)]⟩),
   (3, ⟨.leaf, 0, [(⟨2, hfsName ['a', '/', 'B']⟩, .value ⟨.folder, 17, 0, 0⟩), (⟨17, hfsName ['c']⟩, .value ⟨.file, 18, 0, 0⟩)]⟩)]

/-- A disk with a folder for hard links, a journal and a folder with a file, on two leaves; case does not matter. -/
def disk : Catalog where
  unicode := plainUnicode
  tree := leafPair 512 4 (⟨1, hfsName ['D']⟩, .value ⟨.folder, 2, 0, 0⟩)
    [(⟨2, hfsName privateData⟩, .value ⟨.folder, 19, 0, 0⟩),
      (⟨2, hfsName ['.', 'j', 'o', 'u', 'r', 'n', 'a', 'l']⟩, .value journal)]
    (⟨2, hfsName ['a', '/', 'B']⟩, .value ⟨.folder, 17, 0, 0⟩) [(⟨17, hfsName ['c']⟩, .value ⟨.file, 18, 0, 0⟩)]
  isHFSX := false
  binaryCompare := false
  hardLinkDirID := 0

theorem disk_wellFormed : disk.WellFormed diskLeaves where
  tree := leafPair_wellFormed (by decide) (by decide) (by decide)
  root := ⟨_, rfl, rfl, rfl⟩
  siblings := by decide
  named := by decide
  ids := by decide
  parents := by decide
  links := by decide

theorem disk_inReach : disk.tree.InReach := by
  show 512 * (4 - 1) < 2 ^ 32
  decide

theorem disk_stats (path : Text) (hpa : ∀ e ∈ components path, e ≠ [])
    (h : (descend disk diskLeaves (⟨1, hfsName ['D']⟩, ⟨.folder, 2, 0, 0⟩) (components path)).map
      (fun y => disk.resolved diskLeaves y.2) = some ff) :
    disk.Stats path (.ok ff) := by
  obtain ⟨y, hy, rfl⟩ := Option.map_eq_some_iff.1 h
  have hstats := stat_spec disk_wellFormed disk_inReach rfl hpa
  rwa [hy] at hstats

/-- The root of the disk lists the folder, and the path of the entry, in which the slash is a colon, leads to it. -/
theorem agrees_of_inReach_disk : ∃ contents, disk.Lists [] (.ok contents) ∧
    contents.entries.Perm [(['a', ':', 'B'], ⟨.folder, 17, 0, 0⟩)] ∧ disk.Stats ['/', 'a', ':', 'B'] (.ok ⟨.folder, 17, 0, 0⟩) := by
  obtain ⟨contents, hls, hpm, hstats⟩ := (agrees_of_inReach disk_wellFormed disk_inReach).lists [] ⟨.folder, 2, 0, 0⟩
    (by decide) (by decide) (disk_stats [] (by decide) rfl) rfl
  exact ⟨contents, hls, hpm, hstats (⟨2, hfsName ['a', '/', 'B']⟩, ⟨.folder, 17, 0, 0⟩) (by decide)⟩

/-- `stat` finds the journal, which is not in the listing of the root. -/
theorem journal_not_listed : disk.Stats ("/.journal".toList) (.ok journal) ∧
    ∃ contents, disk.Lists [] (.ok contents) ∧ ".journal".toList ∉ contents.entries.map Prod.fst := by
  obtain ⟨contents, hls, hpm⟩ := lists_spec disk_wellFormed disk_inReach (disk_stats [] (by decide) rfl) rfl
  refine ⟨disk_stats _ (by decide) rfl, contents, hls, ?_⟩
  rw [(hpm.map Prod.fst).mem_iff]
  decide

/-- On the disk it is the folder 19. -/
theorem findHardLinkDir_disk : ∃ enough, ∀ rounds ≥ enough, disk.findHardLinkDir rounds = some (.ok 19) :=
  findHardLinkDir_spec disk_wellFormed disk_inReach rfl

end Catalog

end Osxie.Dmg
