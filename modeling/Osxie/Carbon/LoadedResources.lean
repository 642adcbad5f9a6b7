import Mathlib.Data.Nat.Pairing
import Osxie.Carbon.LoadResources
import Osxie.Lib.Bits

/-!
# What a resource file holds

`entries` is what the format says: the references of each type, with names, attributes and data. A file is loaded faithfully
when the open file holds these and no others, and the lookups find them.
-/

namespace Osxie.Carbon

open List
open Assoc Mem Nat Manager

/-! ## The format -/

/-- A big endian integer of `n` bytes. -/
def Mem.big (mem : Mem) (p n : Nat) : Nat := (mem.bytes p n).foldl (fun v b => v * 2 ^ 8 + b.toNat) 0

/-- A resource, as the format describes it. -/
structure Entry where
  type : ResType
  id : ResID
  name : Name
  attributes : Nat
  data : List UInt8
deriving DecidableEq

namespace Mem

variable (mem : Mem)

def mapAt : Nat := mem.big 4 4

def typesAt : Nat := mem.mapAt + mem.big (mem.mapAt + 24) 2

def typeAt (i : Nat) : Nat := mem.typesAt + 2 + 8 * i

def refAt (i j : Nat) : Nat := mem.typesAt + mem.big (mem.typeAt i + 6) 2 + 12 * j

/-- A name is one byte for the length, and the characters. -/
def nameAt (p : Nat) : Name := mem.bytes (p + 1) (mem p).toNat

/-- Data are four bytes for the length, and the bytes. -/
def dataAt (p : Nat) : List UInt8 := mem.bytes (p + 4) (mem.big p 4)

/-- There is one more than is stored, and none when all bits are set. -/
def numTypes : Nat := (mem.big (mem.mapAt + 28) 2 + 1) % 2 ^ 16

def numRefs (i : Nat) : Nat := mem.big (mem.typeAt i + 4) 2 + 1

def entry (i j : Nat) : Entry where
  type := mem.big (mem.typeAt i) 4
  id := int16 (mem.big (mem.refAt i j) 2)
  name :=
    if mem.big (mem.refAt i j + 2) 2 = 0xffff then []
    else mem.nameAt (mem.mapAt + mem.big (mem.mapAt + 26) 2 + mem.big (mem.refAt i j + 2) 2)
  attributes := (mem (mem.refAt i j + 4)).toNat
  data := mem.dataAt (mem.big 0 4 + mem.big (mem.refAt i j + 5) 3)

def entriesOf (i : Nat) : List Entry := (range (mem.numRefs i)).map (mem.entry i)

def entries : List (ResType × List Entry) := (range mem.numTypes).map fun i => (mem.big (mem.typeAt i) 4, mem.entriesOf i)

/-- A file of a length: the map and the data are within, no type is listed twice, and no ID is used twice for a type. -/
structure WellFormed (length : Nat) : Prop where
  header : 16 ≤ length
  data : mem.big 0 4 + mem.big 8 4 ≤ length
  map : mem.big 4 4 + mem.big 12 4 ≤ length
  types : (mem.entries.map Prod.fst).Nodup
  ids : ∀ i < mem.numTypes, ((mem.entriesOf i).map Entry.id).Nodup

end Mem

/-! ## Integers -/

variable (mem : Mem)

theorem big_two (p : Nat) : mem.big p 2 = (mem p).toNat * 2 ^ 8 + (mem (p + 1)).toNat := by
  simp [big, bytes, range_succ]

theorem big_three (p : Nat) :
    mem.big p 3 = (mem p).toNat * 2 ^ 16 + (mem (p + 1)).toNat * 2 ^ 8 + (mem (p + 2)).toNat := by
  simp [big, bytes, range_succ]
  omega

theorem big_four (p : Nat) : mem.big p 4 = mem.big p 2 * 2 ^ 16 + mem.big (p + 2) 2 := by
  simp [big, bytes, range_succ, add_assoc]
  omega

theorem bswap16_u16 (p : Nat) : bswap16 (mem.u16 p) = mem.big p 2 := by
  have h0 := (mem p).toNat_lt
  rw [big_two, bswap16, u16]
  omega

theorem u16_lt (p : Nat) : mem.u16 p < 2 ^ 16 := by
  have h0 := (mem p).toNat_lt
  have h1 := (mem (p + 1)).toNat_lt
  rw [u16]
  omega

theorem bswap32_u32 (p : Nat) : bswap32 (mem.u32 p) = mem.big p 4 := by
  have h0 := u16_lt mem p
  have hlow : mem.u32 p % 2 ^ 16 = mem.u16 p := by
    rw [u32]
    omega
  have hhigh : mem.u32 p / 2 ^ 16 = mem.u16 (p + 2) := by
    rw [u32]
    omega
  rw [bswap32, hlow, hhigh, bswap16_u16, bswap16_u16, big_four]

theorem bswap24_u24 (p : Nat) : bswap24 (mem.u24 p) = mem.big p 3 := by
  have h0 := (mem p).toNat_lt
  have h1 := (mem (p + 1)).toNat_lt
  have h2 := (mem (p + 2)).toNat_lt
  have hc : mem.u24 p >>> 16 &&& 0xff = (mem (p + 2)).toNat := by
    rw [show (0xff : Nat) = 2 ^ 8 - 1 from rfl, and_two_pow_sub_one_eq_mod, u24, u16]
    omega
  have hb : mem.u24 p &&& 0xff00 = (mem (p + 1)).toNat * 2 ^ 8 := by
    rw [show (0xff00 : Nat) = (2 ^ 8 - 1) * 2 ^ 8 from rfl, and_mask, u24, u16]
    omega
  have ha : mem.u24 p <<< 16 % 2 ^ 32 &&& 0xff0000 = (mem p).toNat * 2 ^ 16 := by
    rw [show (0xff0000 : Nat) = (2 ^ 8 - 1) * 2 ^ 16 from rfl, and_mask, u24, u16]
    omega
  rw [bswap24, hc, hb, ha, big_three]
  have hlow : (mem (p + 2)).toNat ||| (mem (p + 1)).toNat * 2 ^ 8 = (mem (p + 1)).toNat * 2 ^ 8 + (mem (p + 2)).toNat := by
    rw [Nat.or_comm, Nat.mul_comm, Nat.two_pow_add_eq_or_of_lt h2]
  rw [Nat.or_comm, Nat.mul_comm (mem p).toNat, ← Nat.two_pow_add_eq_or_of_lt (by omega)]
  omega

/-! ## What is read -/

section

variable (mem : Mem)

theorem mapHeader_eq : mapHeader mem = ⟨mem.big (mem.mapAt + 22) 2, mem.big (mem.mapAt + 24) 2, mem.big (mem.mapAt + 26) 2,
    mem.big (mem.mapAt + 28) 2⟩ := by
  simp only [mapHeader, resourceMapHeader, resourcesHeader, bswap16_u16, bswap32_u32, mapAt]

theorem typeItem_eq (i : Nat) :
    typeItem mem i = ⟨mem.big (mem.typeAt i) 4, mem.big (mem.typeAt i + 4) 2, mem.big (mem.typeAt i + 6) 2⟩ := by
  simp only [typeItem, mapHeader_eq, resourceType, resourcesHeader, bswap16_u16, bswap32_u32, typeAt, typesAt, mapAt]

theorem refItem_eq (i j : Nat) : refItem mem i j = ⟨(mem.entry i j).id, mem.big (mem.refAt i j + 2) 2, (mem.entry i j).attributes,
    mem.big (mem.refAt i j + 5) 3⟩ := by
  simp only [refItem, mapHeader_eq, typeItem_eq, referenceListItem, resourcesHeader, bswap16_u16, bswap24_u24, bswap32_u32,
    entry, refAt, typesAt, mapAt]

/-- A name that is read is the one of the reference; one that is too long is not read. -/
theorem nameOf_refItem (i j : Nat) : nameOf mem (refItem mem i j) =
    if (mem.entry i j).name.length < 2 ^ 7 then .ok (mem.entry i j).name else .error .lengthError := by
  rw [refItem_eq, nameOf, mapHeader_eq]
  simp only [resourcesHeader, bswap32_u32]
  by_cases h : mem.big (mem.refAt i j + 2) 2 = 0xffff
  · have hnm : (mem.entry i j).name = [] := if_pos h
    rw [if_neg (not_not_intro h), hnm]
    rfl
  · have hnm : (mem.entry i j).name = _ := if_neg h
    have hlen : ∀ p n, (mem.bytes p n).length = n := fun p n => by rw [bytes, length_map, length_range]
    rw [if_pos h, hnm, nameAt, hlen]
    rfl

/-- Data that are read are those of the reference. -/
theorem dataOf_refItem (i j : Nat) :
    dataOf mem (refItem mem i j) = if mem.big (mem.refAt i j + 5) 3 = 0xffff then [] else (mem.entry i j).data := by
  rw [refItem_eq, dataOf]
  simp only [resourcesHeader, bswap32_u32, entry, ite_not]
  rfl

end

/-! ## The loops -/

section

/-- A loop whose rounds add to what was done, or else fail in the same way. -/
theorem foldlM_eq_ite {σ α ε : Type} {f : σ → α → Except ε σ} {d : List α → σ} {p : α → Prop} [DecidablePred p] {e : ε}
    (h : ∀ as a, f (d as) a = if p a then .ok (d (as ++ [a])) else .error e) (as bs : List α) :
    bs.foldlM f (d as) = if ∀ b ∈ bs, p b then .ok (d (as ++ bs)) else .error e := by
  induction bs generalizing as with
  | nil =>
    rw [append_nil]
    rfl
  | cons b bs ih =>
    rw [foldlM_cons, h]
    by_cases hb : p b
    · rw [if_pos hb]
      refine (ih (as ++ [b])).trans ?_
      simp only [forall_mem_cons, hb, true_and, append_assoc, singleton_append]
    · rw [if_neg hb, if_neg fun hall => hb (hall b mem_cons_self)]
      rfl

variable (mem : Mem) (heap : Heap) (createHandles : Bool) (handleMap : List (Handle × Addr))

def object (i j : Nat) : ResourceData where
  id := (mem.entry i j).id
  type := heap.type i j
  name := (mem.entry i j).name
  attributes := (mem.entry i j).attributes
  dataBacking := dataOf mem (refItem mem i j)
  handle := if createHandles then some (heap.handle i j) else none

/-- The data of a type, with the references at some indices. -/
def typeData (i : Nat) (js : List Nat) : ResourceTypeData where
  resources := js.map (heap.addr i)
  idMap := insertAll [] (js.map fun j => ((mem.entry i j).id, heap.addr i j))
  nameMap := insertAll [] (js.map fun j => ([], heap.addr i j))

def objects (i : Nat) (js : List Nat) : List (Addr × ResourceData) :=
  js.map fun j => (heap.addr i j, object mem heap createHandles i j)

def handles (i : Nat) (js : List Nat) : List (Handle × Addr) :=
  if createHandles then js.map fun j => (heap.handle i j, heap.addr i j) else []

def read (i : Nat) (js : List Nat) : Loading :=
  ⟨typeData mem heap i js, objects mem heap createHandles i js, insertAll handleMap (handles heap createHandles i js)⟩

theorem insertAll_append {κ ν : Type} [DecidableEq κ] (m es : List (κ × ν)) (e : κ × ν) :
    insertAll m (es ++ [e]) = insertNew (insertAll m es) e := foldl_concat ..

theorem loadItem_read (i : Nat) (js : List Nat) (j : Nat) :
    loadItem mem heap createHandles i (read mem heap createHandles handleMap i js) j =
      if (mem.entry i j).name.length < 2 ^ 7 then .ok (read mem heap createHandles handleMap i (js ++ [j]))
      else .error .lengthError := by
  unfold loadItem
  dsimp only
  rw [nameOf_refItem]
  by_cases h : (mem.entry i j).name.length < 2 ^ 7
  · rw [if_pos h, if_pos h]
    refine congrArg Except.ok ?_
    cases createHandles <;>
      simp [read, typeData, objects, handles, object, insertAll_append, refItem_eq]
  · rw [if_neg h, if_neg h]
    rfl

/-- The names of all references of a type can be read. -/
def NamesFit (i : Nat) : Prop := ∀ j ∈ range (mem.numRefs i), (mem.entry i j).name.length < 2 ^ 7

instance (i : Nat) : Decidable (NamesFit mem i) := inferInstanceAs (Decidable (∀ j ∈ _, _))

def placed (r : Resources) (i : Nat) : Resources where
  attributes := r.attributes
  objects :=
    if (r.find (mem.big (mem.typeAt i) 4)).isSome then r.objects
    else r.objects ++ objects mem heap createHandles i (range (mem.numRefs i))
  resourceTypes := insertNew r.resourceTypes (mem.big (mem.typeAt i) 4, typeData mem heap i (range (mem.numRefs i)))
  handleMap := insertAll r.handleMap (handles heap createHandles i (range (mem.numRefs i)))

theorem loadType_eq (r : Resources) (i : Nat) : loadType mem heap createHandles r i =
    if NamesFit mem i then .ok (placed mem heap createHandles r i) else .error .lengthError := by
  have hlp := foldlM_eq_ite (loadItem_read mem heap createHandles r.handleMap i) [] (range (mem.numRefs i))
  have hrd : read mem heap createHandles r.handleMap i [] = ⟨⟨[], [], []⟩, [], r.handleMap⟩ := by cases createHandles <;> rfl
  rw [hrd, nil_append] at hlp
  unfold loadType
  rw [typeItem_eq]
  refine (congrArg (Except.map _) hlp).trans ?_
  by_cases h : NamesFit mem i
  · rw [if_pos h, if_pos (show ∀ j ∈ _, _ from h)]
    simp only [Except.map, read, placed]
  · rw [if_neg h, if_neg (show ¬∀ j ∈ _, _ from h)]
    rfl

def after (is : List Nat) : Resources := is.foldl (placed mem heap createHandles) ⟨mem.big (mem.mapAt + 22) 2, [], [], []⟩

theorem after_append (is : List Nat) (i : Nat) :
    after mem heap createHandles (is ++ [i]) = placed mem heap createHandles (after mem heap createHandles is) i :=
  foldl_concat ..

/-- The number of rounds: one more than is stored. -/
def rounds : Nat := mem.big (mem.mapAt + 28) 2 + 1

theorem loadResources_eq {length : Nat} (h : mem.WellFormed length) : loadResources mem heap createHandles length =
    if ∀ i ∈ range (rounds mem), NamesFit mem i then .ok (after mem heap createHandles (range (rounds mem)))
    else .error .lengthError := by
  have hlp := foldlM_eq_ite (d := after mem heap createHandles)
    (fun is i => (loadType_eq mem heap createHandles _ i).trans (by rw [after_append])) [] (range (rounds mem))
  have hda := (mod_le _ (2 ^ 32)).trans h.data
  have hmap := (mod_le _ (2 ^ 32)).trans h.map
  rw [nil_append] at hlp
  unfold loadResources
  simp only [resourcesHeader, bswap32_u32]
  rw [if_neg (not_lt.2 h.header), if_neg (not_or_intro (not_lt.2 hda) (not_lt.2 hmap)), mapHeader_eq]
  exact hlp

/-- The file with some types, each with all its references. -/
def withTypes (is : List Nat) : Resources where
  attributes := mem.big (mem.mapAt + 22) 2
  objects := is.flatMap fun i => objects mem heap createHandles i (range (mem.numRefs i))
  resourceTypes := is.map fun i => (mem.big (mem.typeAt i) 4, typeData mem heap i (range (mem.numRefs i)))
  handleMap := insertAll [] (is.flatMap fun i => handles heap createHandles i (range (mem.numRefs i)))

/-- Types that are not listed twice are all there. -/
theorem after_eq {is : List Nat} (h : (is.map fun i => mem.big (mem.typeAt i) 4).Nodup) :
    after mem heap createHandles is = withTypes mem heap createHandles is := by
  induction is using reverseRecOn with
  | nil => rfl
  | append_singleton is i ih =>
    rw [map_append, nodup_append] at h
    have hno : ¬((withTypes mem heap createHandles is).find (mem.big (mem.typeAt i) 4)).isSome := by
      refine fun hc => absurd (lookup_eq_none_iff.2 fun e he => ?_) (Option.isSome_iff_ne_none.1 hc)
      obtain ⟨i', hi', rfl⟩ := mem_map.1 he
      simpa using (h.2.2 _ (mem_map_of_mem hi') _ (mem_singleton_self _)).symm
    have hins : ∀ td, insertNew (withTypes mem heap createHandles is).resourceTypes (mem.big (mem.typeAt i) 4, td) =
        (withTypes mem heap createHandles is).resourceTypes ++ [(mem.big (mem.typeAt i) 4, td)] := fun td => if_neg hno
    rw [after_append, ih h.1, placed, if_neg hno, hins]
    simp [withTypes, insertAll, foldl_append]

end

/-! ## The file that was loaded -/

section

variable {mem : Mem} {heap : Heap} {createHandles : Bool} {n : Nat}

/-- The types are found, each with its references. -/
theorem find_withTypes (h : ((range n).map fun i => mem.big (mem.typeAt i) 4).Nodup) {i : Nat} (hi : i < n) :
    (withTypes mem heap createHandles (range n)).find (mem.big (mem.typeAt i) 4) =
      some (typeData mem heap i (range (mem.numRefs i))) := by
  refine lookup_of_mem (mem_map.2 ⟨i, mem_range.2 hi, rfl⟩) fun td htd => ?_
  obtain ⟨i', hi', heq⟩ := mem_map.1 htd
  obtain ⟨htyp, rfl⟩ := Prod.mk.inj heq
  rw [inj_on_of_nodup_map h hi' (mem_range.2 hi) htyp]

/-- No other types are found. -/
theorem exists_of_find_withTypes {type : ResType} {td : ResourceTypeData}
    (h : (withTypes mem heap createHandles (range n)).find type = some td) : ∃ i < n, type = mem.big (mem.typeAt i) 4 := by
  by_contra hc
  have hno : (withTypes mem heap createHandles (range n)).find type = none := by
    refine lookup_eq_none_iff.2 fun e he => ?_
    obtain ⟨i, hi, rfl⟩ := mem_map.1 he
    simpa using fun htyp => hc ⟨i, mem_range.1 hi, htyp⟩
  rw [hno] at h
  cases h

theorem lookup_objects {i j : Nat} (hi : i < n) (hj : j < mem.numRefs i) :
    (withTypes mem heap createHandles (range n)).objects.lookup (heap.addr i j) =
    some (object mem heap createHandles i j) := by
  refine lookup_of_mem ?_ fun d hd => ?_
  · exact mem_flatMap.2 ⟨i, mem_range.2 hi, mem_map.2 ⟨j, mem_range.2 hj, rfl⟩⟩
  · obtain ⟨i', -, hd⟩ := mem_flatMap.1 hd
    obtain ⟨j', -, heq⟩ := mem_map.1 hd
    obtain ⟨haddr, rfl⟩ := Prod.mk.inj heq
    obtain ⟨rfl, rfl⟩ := heap.addr_injective _ _ _ _ haddr
    rfl

theorem lookup_handleMap {i j : Nat} (hi : i < n) (hj : j < mem.numRefs i) :
    (withTypes mem heap true (range n)).dataByHandle (heap.handle i j) = some (heap.addr i j) := by
  refine (lookup_insertAll _ _ _).trans (lookup_of_mem ?_ fun a ha => ?_)
  · exact mem_flatMap.2 ⟨i, mem_range.2 hi, mem_map.2 ⟨j, mem_range.2 hj, rfl⟩⟩
  · obtain ⟨i', -, ha⟩ := mem_flatMap.1 ha
    obtain ⟨j', -, heq⟩ := mem_map.1 ha
    obtain ⟨hhd, rfl⟩ := Prod.mk.inj heq
    obtain ⟨rfl, rfl⟩ := heap.handle_injective _ _ _ _ hhd
    rfl

theorem lookup_idMap {i j : Nat} (hids : ((mem.entriesOf i).map Entry.id).Nodup) (hj : j < mem.numRefs i) :
    (typeData mem heap i (range (mem.numRefs i))).idMap.lookup (mem.entry i j).id = some (heap.addr i j) := by
  simp only [entriesOf, map_map, Function.comp_def] at hids
  refine (lookup_insertAll _ _ _).trans (lookup_of_mem (mem_map.2 ⟨j, mem_range.2 hj, rfl⟩) fun a ha => ?_)
  obtain ⟨j', hj', heq⟩ := mem_map.1 ha
  obtain ⟨hid, rfl⟩ := Prod.mk.inj heq
  rw [inj_on_of_nodup_map hids hj' (mem_range.2 hj) hid]

/-- The map from names has the first reference, under the empty name. -/
theorem lookup_nameMap (i : Nat) (name : Name) :
    (typeData mem heap i (range (mem.numRefs i))).nameMap.lookup name = if name = [] then some (heap.addr i 0) else none := by
  have hbeq : (instBEq : BEq Name) = instBEqOfDecidableEq := lawful_beq_subsingleton ..
  rw [hbeq]
  simp only [typeData, numRefs, range_succ_eq_map, map_cons, map_map]
  have hkey := lookup_insertAll_key ([] : Name) name (heap.addr i 0)
    ((range (mem.big (mem.typeAt i + 4) 2)).map fun j => heap.addr i (j + 1))
  rw [map_map] at hkey
  exact hkey

end

/-! ## Handles -/

/-- A file is the current one, and a handle that it has, or that is made next, is of no other. -/
structure Manager.Current (m : Manager) (refNum : RefNum) (r : Resources) (fresh : Handle) : Prop where
  current : m.current = some refNum
  file : m.files.lookup refNum = some r
  unused : r.dataByHandle fresh = none
  others : ∀ f ∈ m.files, f.1 ≠ refNum → ∀ h, h = fresh ∨ (r.dataByHandle h).isSome → f.2.dataByHandle h = none

variable {fresh : Handle} {r : Resources} {refNum : RefNum}

variable {d : ResourceData} {m : Manager} {find : ResourceTypeData → Option Addr} (name : List UInt8)

/-- The handle of an object leads back to it. -/
theorem Resources.getHandle_spec {addr : Addr} (hobj : r.objects.lookup addr = some d)
    (hhd : ∀ h ∈ d.handle, r.dataByHandle h = some addr) (hfresh : r.dataByHandle fresh = none) :
    ∃ h, (r.getHandle addr fresh).1 = some h ∧ (h = fresh ∨ (r.dataByHandle h).isSome) ∧
      (r.getHandle addr fresh).2.dataByHandle h = some addr ∧
      ∃ h', (r.getHandle addr fresh).2.objects.lookup addr = some { d with handle := h' } := by
  cases hd : d.handle with
  | some h =>
    have hget : r.getHandle addr fresh = (some h, r) := by simp only [getHandle, hobj, hd]
    have hbc := hhd h hd
    rw [hget]
    exact ⟨h, rfl, .inr (by rw [hbc]; rfl), hbc, d.handle, hobj⟩
  | none =>
    have hget : r.getHandle addr fresh = (some fresh, { r with
        objects := Assoc.modify r.objects addr fun d => { d with handle := some fresh }
        handleMap := insertNew r.handleMap (fresh, addr) }) := by simp only [getHandle, hobj, hd]
    rw [hget]
    refine ⟨fresh, rfl, .inl rfl, ?_, some fresh, ?_⟩
    · refine (lookup_insertNew _ _ _).trans ?_
      rw [show r.handleMap.lookup fresh = none from hfresh, if_pos rfl]
      rfl
    · refine (lookup_modify _ _ _ _).trans ?_
      rw [if_pos rfl, hobj]
      rfl

/-- A handle is found in the one file that has it. -/
theorem findSome_modify {files : List (RefNum × Resources)} {f : Resources → Resources} {h : Handle} {addr : Addr}
    (hfl : files.lookup refNum = some r) (hbc : (f r).dataByHandle h = some addr)
    (hoth : ∀ f ∈ files, f.1 ≠ refNum → f.2.dataByHandle h = none) :
    ((Assoc.modify files refNum f).findSome? fun f => (f.2.dataByHandle h).map fun addr => (f.1, addr)) = some (refNum, addr) := by
  induction files with
  | nil => cases hfl
  | cons e files ih =>
    obtain ⟨n, r'⟩ := e
    rw [lookup_cons] at hfl
    rw [Assoc.modify]
    by_cases hn : n = refNum
    · subst hn
      rw [beq_self_eq_true] at hfl
      cases hfl
      rw [if_pos rfl, findSome?_cons_of_isSome] <;> simp [hbc]
    · rw [if_neg hn, findSome?_cons_of_isNone]
      · rw [show (refNum == n) = false by simpa using fun hc => hn hc.symm] at hfl
        exact ih hfl fun f hf => hoth f (mem_cons_of_mem _ hf)
      · simp [hoth _ mem_cons_self hn]

/-- A resource of the current file that is found has a handle, which leads back to it. -/
theorem Manager.Current.get1 (h : m.Current refNum r fresh) {type : ResType} {addr : Addr}
    (hfi : (r.find type).bind find = some addr) (hobj : r.objects.lookup addr = some d)
    (hhd : ∀ h ∈ d.handle, r.dataByHandle h = some addr) :
    ∃ h m', m.get1 type find fresh = (some h, m') ∧ m'.findResourceDataByHandle h = some (refNum, addr) ∧
      m'.getResInfo h = (d.id, d.type, d.name.take (min 254 (d.name.length % 2 ^ 8))) := by
  obtain ⟨handle, hget, hown, hbc, h', hobj'⟩ := Resources.getHandle_spec hobj hhd h.unused
  have hfound := findSome_modify (f := fun r => (r.getHandle addr fresh).2) h.file hbc fun f hf hn => h.others f hf hn handle hown
  refine ⟨handle, { m with files := Assoc.modify m.files refNum fun r => (r.getHandle addr fresh).2 }, ?_, ?_, ?_⟩
  · unfold Manager.get1
    rw [h.current, ← hget]
    dsimp only
    rw [h.file, Option.bind_some, hfi]
    rfl
  · exact hfound
  · unfold getResInfo
    simp only [findResourceDataByHandle, hfound, Option.bind_some]
    rw [lookup_modify, if_pos rfl, h.file]
    simp only [Option.map_some, Option.bind_some]
    rw [hobj']

/-- What is not found has no handle. -/
theorem Manager.Current.get1_none (h : m.Current refNum r fresh) {type : ResType} (hfi : (r.find type).bind find = none) :
    m.get1 type find fresh = (none, m) := by
  unfold Manager.get1
  rw [h.current]
  dsimp only
  rw [h.file, Option.bind_some, hfi]
  rfl

/-- Some handle is not in use. -/
theorem exists_unused {ν : Type} (map : List (Nat × ν)) : ∃ k, ∀ k' ≥ k, map.lookup k' = none := by
  induction map with
  | nil => exact ⟨0, fun _ _ => rfl⟩
  | cons e map ih =>
    obtain ⟨a, v⟩ := e
    obtain ⟨k, hk⟩ := ih
    refine ⟨max k (a + 1), fun k' hk' => ?_⟩
    rw [lookup_cons, show (k' == a) = false by simp; omega]
    exact hk k' (by omega)

theorem exists_current (r : Resources) : ∃ m fresh, Manager.Current m 1 r fresh := by
  obtain ⟨fresh, hfresh⟩ := exists_unused r.handleMap
  exact ⟨⟨[(1, r)], some 1, 2, .cleared⟩, fresh, rfl, rfl, hfresh fresh le_rfl,
    fun f hf hn => absurd (congrArg Prod.fst (mem_singleton.1 hf)) hn⟩

/-! ## Faithful loading -/

def ResourceData.entry (d : ResourceData) : Entry := ⟨d.type, d.id, d.name, d.attributes, d.dataBacking⟩

/-- A file holds one resource for each reference, and as the current one it leads to them: by type and ID, by type and name
(to the first one with the name), and back from the handle. -/
structure Faithful (mem : Mem) (r : Resources) : Prop where
  holds : ∀ type, (r.find type).map (fun td => td.resources.map fun addr => (r.objects.lookup addr).map ResourceData.entry) =
    (mem.entries.lookup type).map fun es => es.map some
  byID : ∀ m refNum fresh, Manager.Current m refNum r fresh → ∀ i < mem.numTypes, ∀ td ∈ r.find (mem.big (mem.typeAt i) 4),
    ∀ j < mem.numRefs i, ∃ h m', m.get1Resource (mem.entry i j).type (mem.entry i j).id fresh = (some h, m') ∧
      m'.findResourceDataByHandle h = td.resources[j]?.map (fun addr => (refNum, addr)) ∧
      m'.getResInfo h = ((mem.entry i j).id, (mem.entry i j).type, (mem.entry i j).name)
  byName : ∀ m refNum fresh, Manager.Current m refNum r fresh → ∀ i < mem.numTypes, ∀ td ∈ r.find (mem.big (mem.typeAt i) 4),
    ∀ j < mem.numRefs i, (∀ j' < j, (mem.entry i j').name ≠ (mem.entry i j).name) →
      ∃ h m', m.get1NamedResource (mem.entry i j).type (mem.entry i j).name fresh = (some h, m') ∧
        m'.findResourceDataByHandle h = td.resources[j]?.map fun addr => (refNum, addr)

/-- A file that can be loaded: it has a type, nothing in it has a name, and there are no data at the offset 0xffff. The memory
of the objects holds their types already. -/
structure Loadable (mem : Mem) (heap : Heap) : Prop where
  types : mem.numTypes ≠ 0
  names : ∀ i < mem.numTypes, ∀ j < mem.numRefs i, (mem.entry i j).name = []
  data : ∀ i < mem.numTypes, ∀ j < mem.numRefs i, mem.big (mem.refAt i j + 5) 3 = 0xffff → (mem.entry i j).data = []
  memory : ∀ i < mem.numTypes, ∀ j < mem.numRefs i, heap.type i j = (mem.entry i j).type

section

variable {mem : Mem} {heap : Heap} {createHandles : Bool} {length : Nat}

theorem rounds_eq (h : mem.numTypes ≠ 0) : rounds mem = mem.numTypes := by
  have h0 := (mem (mem.mapAt + 28)).toNat_lt
  have h1 := (mem (mem.mapAt + 28 + 1)).toNat_lt
  have hlt : mem.big (mem.mapAt + 28) 2 < 2 ^ 16 := by
    rw [big_two]
    omega
  unfold numTypes rounds at *
  omega

theorem Mem.WellFormed.nodup (h : mem.WellFormed length) :
    ((range mem.numTypes).map fun i => mem.big (mem.typeAt i) 4).Nodup := by
  have hty := h.types
  rw [entries, map_map] at hty
  exact hty

theorem lookup_entries (h : mem.WellFormed length) {i : Nat} (hi : i < mem.numTypes) :
    mem.entries.lookup (mem.big (mem.typeAt i) 4) = some (mem.entriesOf i) := by
  refine lookup_of_mem (mem_map.2 ⟨i, mem_range.2 hi, rfl⟩) fun es hes => ?_
  obtain ⟨i', hi', heq⟩ := mem_map.1 hes
  obtain ⟨htyp, rfl⟩ := Prod.mk.inj heq
  rw [inj_on_of_nodup_map h.nodup hi' (mem_range.2 hi) htyp]

/-- The objects of a type that was loaded. -/
theorem objects_eq {i : Nat} (hi : i < mem.numTypes) :
    ((typeData mem heap i (range (mem.numRefs i))).resources.map fun addr =>
      ((withTypes mem heap createHandles (range mem.numTypes)).objects.lookup addr).map ResourceData.entry) =
      (range (mem.numRefs i)).map fun j => some (object mem heap createHandles i j).entry := by
  rw [typeData, map_map]
  refine map_congr_left fun j hj => ?_
  rw [Function.comp, lookup_objects hi (mem_range.1 hj)]
  rfl

theorem object_entry_iff (i j : Nat) : (object mem heap createHandles i j).entry = mem.entry i j ↔
    (mem.big (mem.refAt i j + 5) 3 = 0xffff → (mem.entry i j).data = []) ∧ heap.type i j = (mem.entry i j).type := by
  have hsplit : (object mem heap createHandles i j).entry = mem.entry i j ↔
      heap.type i j = (mem.entry i j).type ∧ dataOf mem (refItem mem i j) = (mem.entry i j).data := by
    constructor
    · intro h
      exact ⟨congrArg Entry.type h, congrArg Entry.data h⟩
    · rintro ⟨htyp, hda⟩
      rw [ResourceData.entry, object, htyp, hda]
  rw [hsplit, dataOf_refItem, and_comm]
  by_cases hoff : mem.big (mem.refAt i j + 5) 3 = 0xffff
  · rw [if_pos hoff]
    exact and_congr_left' ⟨fun h _ => h.symm, fun h => (h hoff).symm⟩
  · rw [if_neg hoff]
    exact and_congr_left' ⟨fun _ hc => absurd hc hoff, fun _ => rfl⟩

/-- A handle that an object has leads back to it. -/
theorem dataByHandle_object {n i j : Nat} (hi : i < n) (hj : j < mem.numRefs i) :
    ∀ h ∈ (object mem heap createHandles i j).handle,
      (withTypes mem heap createHandles (range n)).dataByHandle h = some (heap.addr i j) := by
  intro h hh
  cases createHandles with
  | false => cases hh
  | true =>
    cases hh
    exact lookup_handleMap hi hj

theorem resources_getElem (i : Nat) {j : Nat} (hj : j < mem.numRefs i) :
    (typeData mem heap i (range (mem.numRefs i))).resources[j]? = some (heap.addr i j) := by
  rw [typeData, getElem?_map, getElem?_range hj]
  rfl

theorem Loadable.faithful (hld : Loadable mem heap) (h : mem.WellFormed length) :
    Faithful mem (withTypes mem heap createHandles (range mem.numTypes)) where
  holds type := by
    by_cases htyp : ∃ i < mem.numTypes, type = mem.big (mem.typeAt i) 4
    · obtain ⟨i, hi, rfl⟩ := htyp
      rw [find_withTypes h.nodup hi, lookup_entries h hi, Option.map_some, Option.map_some, objects_eq hi, entriesOf, map_map]
      refine congrArg some (map_congr_left fun j hj => congrArg some ?_)
      rw [mem_range] at hj
      exact (object_entry_iff i j).2 ⟨hld.data i hi j hj, hld.memory i hi j hj⟩
    · have hno : (withTypes mem heap createHandles (range mem.numTypes)).find type = none :=
        Option.eq_none_iff_forall_ne_some.2 fun td htd => htyp (exists_of_find_withTypes htd)
      have hentr : mem.entries.lookup type = none := by
        refine lookup_eq_none_iff.2 fun e he => ?_
        obtain ⟨i, hi, rfl⟩ := mem_map.1 he
        simpa using fun heq => htyp ⟨i, mem_range.1 hi, heq⟩
      rw [hno, hentr]
      rfl
  byID m refNum fresh hm i hi td htd j hj := by
    rw [find_withTypes h.nodup hi] at htd
    cases htd
    have hfi : ((withTypes mem heap createHandles (range mem.numTypes)).find (mem.entry i j).type).bind
        (fun td => td.idMap.lookup (mem.entry i j).id) = some (heap.addr i j) :=
      (congrArg (Option.bind · _) (find_withTypes h.nodup hi)).trans (lookup_idMap (h.ids i hi) hj)
    obtain ⟨handle, m', hget, hbc, hinfo⟩ := hm.get1 hfi (lookup_objects hi hj) (dataByHandle_object hi hj)
    refine ⟨handle, m', hget, hbc.trans (by rw [resources_getElem i hj]; rfl), hinfo.trans ?_⟩
    simp only [object, hld.names i hi j hj, hld.memory i hi j hj, take_nil]
  byName m refNum fresh hm i hi td htd j hj hfirst := by
    rw [find_withTypes h.nodup hi] at htd
    cases htd
    -- every name is empty, so the first one with the name is the first one
    obtain rfl : j = 0 := by
      by_contra hj0
      exact hfirst 0 (pos_of_ne_zero hj0) ((hld.names i hi 0 (succ_pos _)).trans (hld.names i hi j hj).symm)
    have hfi : ((withTypes mem heap createHandles (range mem.numTypes)).find (mem.entry i 0).type).bind
        (fun td => td.nameMap.lookup (mem.entry i 0).name) = some (heap.addr i 0) :=
      (congrArg (Option.bind · _) (find_withTypes h.nodup hi)).trans
        ((lookup_nameMap i _).trans (if_pos (hld.names i hi 0 hj)))
    obtain ⟨handle, m', hget, hbc, -⟩ := hm.get1 hfi (lookup_objects hi hj) (dataByHandle_object hi hj)
    exact ⟨handle, m', hget, hbc.trans (by rw [resources_getElem i hj]; rfl)⟩

section

variable (hft : Faithful mem (withTypes mem heap createHandles (range mem.numTypes)))

include hft

/-- In a file that was loaded nothing is found by a name that is not empty. -/
theorem Faithful.names (h : mem.WellFormed length) {i j : Nat} (hi : i < mem.numTypes) (hj : j < mem.numRefs i) :
    (mem.entry i j).name = [] := by
  by_contra hnm
  obtain ⟨j₀, hlt, heq, hmin⟩ : ∃ j₀ < mem.numRefs i, (mem.entry i j₀).name = (mem.entry i j).name ∧
      ∀ j' < j₀, (mem.entry i j').name ≠ (mem.entry i j).name := by
    have hex : ∃ j', j' < mem.numRefs i ∧ (mem.entry i j').name = (mem.entry i j).name := ⟨j, hj, rfl⟩
    obtain ⟨hlt, heq⟩ := Nat.find_spec hex
    exact ⟨_, hlt, heq, fun j' hj' hc => Nat.find_min hex hj' ⟨Nat.lt_trans hj' hlt, hc⟩⟩
  obtain ⟨m, fresh, hm⟩ := exists_current (withTypes mem heap createHandles (range mem.numTypes))
  obtain ⟨handle, m', hget, -⟩ := hft.byName m 1 fresh hm i hi _ (find_withTypes h.nodup hi) j₀ hlt fun j' hj' hc =>
    hmin j' hj' (hc.trans heq)
  have hfi : ((withTypes mem heap createHandles (range mem.numTypes)).find (mem.entry i j₀).type).bind
      (fun td => td.nameMap.lookup (mem.entry i j₀).name) = none :=
    (congrArg (Option.bind · _) (find_withTypes h.nodup hi)).trans ((lookup_nameMap i _).trans (if_neg fun hc => hnm (heq ▸ hc)))
  have hno := hm.get1_none hfi
  rw [get1NamedResource, hno] at hget
  cases hget

theorem Faithful.objects (h : mem.WellFormed length) {i j : Nat} (hi : i < mem.numTypes) (hj : j < mem.numRefs i) :
    (object mem heap createHandles i j).entry = mem.entry i j := by
  have hhl := hft.holds (mem.big (mem.typeAt i) 4)
  rw [find_withTypes h.nodup hi, lookup_entries h hi, Option.map_some, Option.map_some, objects_eq hi, entriesOf, map_map] at hhl
  have hj' := map_inj_left.1 (Option.some.inj hhl) j (mem_range.2 hj)
  exact Option.some.inj hj'

end

theorem isSome_find_placed (r : Resources) (i : Nat) :
    ((placed mem heap createHandles r i).find (mem.big (mem.typeAt i) 4)).isSome := by
  have hso := isSome_lookup_insertAll (m := r.resourceTypes)
    (mem_singleton_self (mem.big (mem.typeAt i) 4, typeData mem heap i (range (mem.numRefs i))))
  exact hso

/-- A file without types is loaded with one. -/
theorem not_faithful_of_no_types (h : mem.numTypes = 0) : ¬Faithful mem (after mem heap createHandles (range (rounds mem))) := by
  intro hft
  have hhl := hft.holds (mem.big (mem.typeAt (mem.big (mem.mapAt + 28) 2)) 4)
  rw [entries, h, rounds, range_succ, after_append] at hhl
  exact absurd (isSome_find_placed ..) (Option.not_isSome_iff_eq_none.2 (Option.map_eq_none_iff.1 hhl))

/-- **Loading is faithful exactly for files without names**: with a type at least, no data at the offset 0xffff, and memory
that held the types before. -/
theorem loads_faithfully_iff (h : mem.WellFormed length) :
    (∃ r, loadResources mem heap createHandles length = .ok r ∧ Faithful mem r) ↔ Loadable mem heap := by
  rw [loadResources_eq mem heap createHandles h]
  by_cases hty : mem.numTypes = 0
  · refine ⟨fun ⟨r, hr, hft⟩ => ?_, fun hld => absurd hty hld.types⟩
    split at hr <;> cases hr
    exact absurd hft (not_faithful_of_no_types hty)
  rw [rounds_eq hty, after_eq mem heap createHandles h.nodup]
  constructor
  · rintro ⟨r, hr, hft⟩
    split at hr <;> cases hr
    refine ⟨hty, fun i hi j hj => hft.names h hi hj, fun i hi j hj => ?_, fun i hi j hj => ?_⟩
    · exact ((object_entry_iff i j).1 (hft.objects h hi hj)).1
    · exact ((object_entry_iff i j).1 (hft.objects h hi hj)).2
  · intro hld
    refine ⟨_, if_pos fun i hi j hj => ?_, hld.faithful h⟩
    rw [hld.names i (mem_range.1 hi) j (mem_range.1 hj)]
    exact Nat.two_pow_pos 7

end

/-- A file with two resources, of type `TEXT` and with the IDs 128 and 129. The name of the first is at the offset `name`,
where a name of one letter is; the second has none. -/
def smallFile : Mem := fun p =>
  ([0, 0, 0, 16, 0, 0, 0, 28, 0, 0, 0, 11, 0, 0, 0, 64, 0, 0, 0, 1, 42, 0, 0, 0, 2, 43, 44, 0] ++ replicate 24 0 ++
    [0, 28, 0, 62, 0, 0, 84, 69, 88, 84, 0, 1, 0, 10, 0, 128] ++ name ++
    [0, 0, 0, 0, 0, 0, 0, 0, 0, 129, 255, 255, 0, 0, 0, 5, 0, 0, 0, 0, 1, 65]).getD p 0

/-- Memory that holds the type `TEXT` everywhere. -/
def textHeap : Heap where
  addr := pair
  handle := pair
  type _ _ := 0x54455854
  addr_injective _ _ _ _ h := pair_eq_pair.1 h
  handle_injective _ _ _ _ h := pair_eq_pair.1 h

theorem smallFile_wellFormed (h : name = [255, 255] ∨ name = [0, 0]) : (smallFile name).WellFormed 92 := by
  rcases h with rfl | rfl <;>
    exact ⟨by decide, by decide +kernel, by decide +kernel, by decide +kernel, by decide +kernel⟩

/-- A file with two resources that have no name is loaded faithfully. -/
theorem loads_faithfully_iff_unnamed : ((smallFile [255, 255]).entriesOf 0).map Entry.data = [[42], [43, 44]] ∧
    ∃ r, loadResources (smallFile [255, 255]) textHeap true 92 = .ok r ∧ Faithful (smallFile [255, 255]) r :=
  ⟨by decide +kernel, (loads_faithfully_iff (smallFile_wellFormed _ (.inl rfl))).2
    ⟨by decide +kernel, by decide +kernel, by decide +kernel, by decide +kernel⟩⟩

/-- A file with a resource that has a name is not. -/
theorem named_not_faithful : (smallFile [0, 0]).WellFormed 92 ∧
    ¬∃ r, loadResources (smallFile [0, 0]) textHeap true 92 = .ok r ∧ Faithful (smallFile [0, 0]) r := by
  have h := smallFile_wellFormed [0, 0] (.inr rfl)
  refine ⟨h, fun ⟨r, hr, hft⟩ => ?_⟩
  rw [loadResources_eq _ _ _ h] at hr
  split at hr
  · obtain rfl := Except.ok.inj hr
    exact absurd (hft.names h (i := 0) (j := 0) (by decide +kernel) (by decide +kernel)) (by decide +kernel)
  · cases hr

end Osxie.Carbon
