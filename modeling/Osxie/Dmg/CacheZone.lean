import Mathlib.Data.List.Basic

/-!
# The block cache

`CacheZone` keeps blocks of 4096 bytes under a block number and the tag of a reader, ordered by age in a list of keys, in which
every entry knows its node. When there are more than `maxBlocks` entries the ones at the front are evicted. `store` does not
replace an entry that is already there, but it appends a node for it.

The array of an entry is not initialised, and `store` fills only the bytes it is given: bytes are kept by position, with none
where nothing was ever written. The counters of queries and hits are left out.
-/

namespace Osxie.Dmg

open List

def Buffer : Type := Nat → Option UInt8

namespace Buffer

def empty : Buffer := fun _ => none

/-- `memcpy`: `count` bytes of `src` from `srcPos` on, to `pos`. -/
def copy (dst : Buffer) (pos : Nat) (src : Buffer) (srcPos count : Nat) : Buffer := fun i =>
  if pos ≤ i ∧ i < pos + count then src (srcPos + (i - pos)) else dst i

end Buffer

namespace CacheZone

def blockSize : Nat := 4096

/-- `CacheKey`: a block number, and the tag of its reader. -/
structure Key (τ : Type) where
  blockId : Nat
  vfile : τ
deriving DecidableEq

/-- A node of the age list; the number stands for its address. -/
structure AgeNode (τ : Type) where
  node : Nat
  key : Key τ
deriving DecidableEq

structure Entry where
  itAge : Nat
  data : Buffer

end CacheZone

open CacheZone

/-- A cache zone. `nextNode` is the address of the next node of the age list. -/
structure CacheZone (τ : Type) where
  cache : List (Key τ × Entry)
  cacheAge : List (AgeNode τ)
  maxBlocks : Nat
  nextNode : Nat

namespace CacheZone

variable {τ : Type} (maxBlocks : Nat)

def new : CacheZone τ := ⟨[], [], maxBlocks, 0⟩

/-- The loop of `evictCache`, over the age list. -/
def evictFrom [DecidableEq τ] (maxBlocks : Nat) :
    List (AgeNode τ) → List (Key τ × Entry) → List (AgeNode τ) × List (Key τ × Entry)
  | [], cache => ([], cache)
  | front :: age, cache =>
    if maxBlocks < cache.length then evictFrom maxBlocks age (cache.filter (·.1 ≠ front.key)) else (front :: age, cache)

variable [DecidableEq τ] (z : CacheZone τ)

def evictCache : CacheZone τ :=
  let evicted := evictFrom z.maxBlocks z.cacheAge z.cache
  { z with cacheAge := evicted.1, cache := evicted.2 }

def setMaxBlocks (max : Nat) : CacheZone τ :=
  { z with maxBlocks := max }.evictCache

def find (z : CacheZone τ) (key : Key τ) : Option Entry := (z.cache.find? (·.1 = key)).map Prod.snd

variable (key : Key τ)

/-- A new node at the end of the age list becomes the node of the entry. -/
def pushAge : CacheZone τ :=
  { z with
    cacheAge := z.cacheAge ++ [⟨z.nextNode, key⟩]
    nextNode := z.nextNode + 1
    cache := z.cache.map fun p => if p.1 = key then (p.1, { p.2 with itAge := z.nextNode }) else p }

/-- `m_cache.insert`, which keeps an entry that is there. The `bytes` first bytes of the array are filled. -/
def insert (data : Buffer) (bytes : Nat) : CacheZone τ :=
  match z.find key with
  | some _ => z
  | none => { z with cache := (key, ⟨0, Buffer.empty.copy 0 data 0 bytes⟩) :: z.cache }

def store (data : Buffer) (bytes : Nat) : CacheZone τ :=
  let z := (z.insert key data bytes).pushAge key
  if z.maxBlocks < z.cache.length then z.evictCache else z

/-- `CacheZone::get`, to the position `pos` of a buffer. Beyond the block, where `CachedReader` asks for nothing, the size_t
`blockSize - offset` wraps around and not so here. -/
def get (dst : Buffer) (pos : Nat) (offset maxBytes : Nat) : Nat × Buffer × CacheZone τ :=
  match z.find key with
  | none => (0, dst, z)
  | some entry =>
    let maxBytes := min (blockSize - offset) maxBytes
    (maxBytes, dst.copy pos entry.data offset maxBytes,
      { z with cacheAge := z.cacheAge.filter (·.node ≠ entry.itAge) }.pushAge key)

/-! ## Which bytes are kept -/

/-- The zone has an entry under the key with these bytes. -/
def Holds (data : Buffer) : Prop := ∃ itAge, (key, (⟨itAge, data⟩ : Entry)) ∈ z.cache

omit [DecidableEq τ] in
theorem not_holds_new (key : Key τ) (data : Buffer) : ¬(new maxBlocks : CacheZone τ).Holds key data := by
  rintro ⟨itAge, h⟩
  exact absurd h not_mem_nil

/-- Eviction adds nothing. -/
theorem mem_evictFrom (age : List (AgeNode τ)) {cache : List (Key τ × Entry)} {p : Key τ × Entry}
    (h : p ∈ (evictFrom maxBlocks age cache).2) : p ∈ cache := by
  induction age generalizing cache with
  | nil => exact h
  | cons front age ih =>
    unfold evictFrom at h
    split at h
    · exact mem_of_mem_filter (ih h)
    · exact h

variable {data : Buffer} {z : CacheZone τ} {key key' : Key τ}

theorem Holds.of_evictCache (h : z.evictCache.Holds key data) : z.Holds key data := by
  obtain ⟨itAge, h⟩ := h
  exact ⟨itAge, mem_evictFrom z.maxBlocks z.cacheAge h⟩

theorem Holds.of_setMaxBlocks {max : Nat} (h : (z.setMaxBlocks max).Holds key data) : z.Holds key data :=
  Holds.of_evictCache (z := { z with maxBlocks := max }) h

/-- A new node changes no bytes. -/
theorem Holds.of_pushAge (h : (z.pushAge key').Holds key data) : z.Holds key data := by
  obtain ⟨itAge, h⟩ := h
  obtain ⟨⟨k, entry⟩, hmem, heq⟩ := mem_map.1 h
  split at heq
  · cases heq
    exact ⟨entry.itAge, hmem⟩
  · cases heq
    exact ⟨itAge, hmem⟩

theorem Holds.of_insert {data' : Buffer} {bytes : Nat} (h : (z.insert key' data' bytes).Holds key data) :
    z.Holds key data ∨ key = key' ∧
    data = Buffer.empty.copy 0 data' 0 bytes := by
  unfold insert at h
  split at h
  · exact .inl h
  · obtain ⟨itAge, h⟩ := h
    rcases mem_cons.1 h with heq | h
    · cases heq
      exact .inr ⟨rfl, rfl⟩
    · exact .inl ⟨itAge, h⟩

/-- What a zone holds after `store` it held before, or it is the block that was stored. -/
theorem Holds.of_store {data' : Buffer} {bytes : Nat} (h : (z.store key' data' bytes).Holds key data) :
    z.Holds key data ∨ key = key' ∧ data = Buffer.empty.copy 0 data' 0 bytes := by
  unfold store at h
  dsimp only at h
  split at h
  · exact h.of_evictCache.of_pushAge.of_insert
  · exact h.of_pushAge.of_insert

/-- An entry that is found is held. -/
theorem holds_of_find {entry : Entry} (h : z.find key = some entry) : z.Holds key entry.data := by
  obtain ⟨⟨k, e⟩, hfi, rfl⟩ := Option.map_eq_some_iff.1 h
  obtain rfl : k = key := by simpa using find?_some hfi
  exact ⟨e.itAge, mem_of_find?_eq_some hfi⟩

/-- `get` misses and does nothing, or it copies from a block that the zone holds. -/
theorem get_cases (z : CacheZone τ) (key : Key τ) (dst : Buffer) (pos offset maxBytes : Nat) :
    z.get key dst pos offset maxBytes = (0, dst, z) ∨
      ∃ data z', z.Holds key data ∧ (∀ k d, z'.Holds k d → z.Holds k d) ∧
        z.get key dst pos offset maxBytes =
          (min (blockSize - offset) maxBytes, dst.copy pos data offset (min (blockSize - offset) maxBytes), z') := by
  unfold get
  split
  · exact .inl rfl
  · rename_i entry hfi
    refine .inr ⟨entry.data, _, holds_of_find hfi, fun k d h => ?_, rfl⟩
    exact h.of_pushAge

end CacheZone

end Osxie.Dmg
