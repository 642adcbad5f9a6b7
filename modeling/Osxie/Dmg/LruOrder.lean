import Osxie.Dmg.CacheZone
import Osxie.Lib.Machine
import Mathlib.Data.List.Nodup
import Mathlib.Data.List.Perm.Basic

/-!
# The order of eviction

A `CacheZone` is to keep blocks in the order of their last use, of which the first are dropped when there are too many (`lru`).
It does as long as no block is stored under a key that is cached: `store` then keeps the old bytes, and leaves the old node in the
age list, so that a block that was used since is evicted when that node comes to the front.
-/

namespace Osxie.Dmg.CacheZone

open List CacheZone Nat

inductive Operation (τ : Type)
  | store (key : Key τ) (data : Buffer) (bytes : Nat)
  | get (key : Key τ) (dst : Buffer) (pos offset maxBytes : Nat)
  | setMaxBlocks (max : Nat)

variable {τ : Type} [DecidableEq τ] (s : CacheZone τ × List (Key τ × Buffer))

def apply (z : CacheZone τ) : Operation τ → CacheZone τ
  | .store key data bytes => z.store key data bytes
  | .get key dst pos offset maxBytes => (z.get key dst pos offset maxBytes).2.2
  | .setMaxBlocks max => z.setMaxBlocks max

/-- What the operations are to do to the blocks, which are in the order of their last use, the latest at the end. -/
def lru (maxBlocks : Nat) (blocks : List (Key τ × Buffer)) : Operation τ → List (Key τ × Buffer)
  | .store key data bytes =>
    let stored := blocks.filter (·.1 ≠ key) ++ [(key, Buffer.empty.copy 0 data 0 bytes)]
    stored.drop (stored.length - maxBlocks)
  | .get key .. => blocks.filter (·.1 ≠ key) ++ blocks.filter (·.1 = key)
  | .setMaxBlocks max => blocks.drop (blocks.length - max)

/-- What `get` is to return: how many bytes, and the buffer with those of the block. -/
def hit (blocks : List (Key τ × Buffer)) (key : Key τ) (dst : Buffer) (pos offset maxBytes : Nat) : Nat × Buffer :=
  match blocks.find? (·.1 = key) with
  | none => (0, dst)
  | some block => (min (blockSize - offset) maxBytes, dst.copy pos block.2 offset (min (blockSize - offset) maxBytes))

def lruMachine (maxBlocks : Nat) : Machine (CacheZone τ × List (Key τ × Buffer)) (Operation τ) where
  init := (new maxBlocks, [])
  step s op := some (s.1.apply op, lru s.1.maxBlocks s.2 op)

/-- A block is stored under a key that is not cached. -/
def Fresh : Operation τ → Prop
  | .store key .. => s.1.find key = none
  | _ => True

/-- A node of the age list, with the bytes of its entry. -/
abbrev Row (τ : Type) := AgeNode τ × Buffer

def Row.entry (r : Row τ) : Key τ × Entry := (r.1.key, ⟨r.1.node, r.2⟩)

def Row.block (r : Row τ) : Key τ × Buffer := (r.1.key, r.2)

/-- A zone has these rows: they are the age list, the entries of the cache are theirs, each with its own node, and no key and no
node comes twice. -/
structure Tracks (z : CacheZone τ) (rows : List (Row τ)) : Prop where
  age : z.cacheAge = rows.map Prod.fst
  cache : z.cache ~ rows.map Row.entry
  keys : (rows.map (·.1.key)).Nodup
  nodes : (rows.map (·.1.node)).Nodup
  fresh : ∀ r ∈ rows, r.1.node < z.nextNode

variable {z : CacheZone τ} {rows : List (Row τ)} {key : Key τ} {data : Buffer}

/-- Eviction drops the first rows, as many as are too many. -/
theorem evictFrom_perm (max : Nat) {cache : List (Key τ × Entry)} (hk : (rows.map (·.1.key)).Nodup)
    (hc : cache ~ rows.map Row.entry) :
    (evictFrom max (rows.map Prod.fst) cache).1 = (rows.drop (rows.length - max)).map Prod.fst ∧
    (evictFrom max (rows.map Prod.fst) cache).2 ~ (rows.drop (rows.length - max)).map Row.entry := by
  induction rows generalizing cache with
  | nil => simpa [evictFrom] using hc
  | cons r rows ih =>
    have hlen := hc.length_eq
    simp only [length_map, length_cons] at hlen
    rw [map_cons, nodup_cons] at hk
    simp only [map_cons, evictFrom, hlen, length_cons]
    split_ifs with h
    · have hne : ∀ x ∈ rows, x.1.key ≠ r.1.key := fun x hx he => hk.1 (he ▸ mem_map_of_mem hx)
      have hf : cache.filter (·.1 ≠ r.1.key) ~ rows.map Row.entry := by
        refine (hc.filter _).trans (Perm.of_eq ?_)
        rw [map_cons, filter_cons_of_neg (by simp [Row.entry]), filter_eq_self, forall_mem_map]
        exact fun x hx => decide_eq_true (hne x hx)
      rw [succ_sub (by omega)]
      exact ih hk.2 hf
    · rw [Nat.sub_eq_zero_of_le (by omega)]
      exact ⟨rfl, hc⟩

theorem Tracks.evictCache (h : z.Tracks rows) : z.evictCache.Tracks (rows.drop (rows.length - z.maxBlocks)) := by
  obtain ⟨hage, hcache⟩ := evictFrom_perm z.maxBlocks h.keys h.cache
  rw [← h.age] at hage hcache
  refine ⟨hage, hcache, ?_, ?_, fun r hr => h.fresh r (mem_of_mem_drop hr)⟩
  · rw [map_drop]
    exact h.keys.sublist (drop_sublist ..)
  · rw [map_drop]
    exact h.nodes.sublist (drop_sublist ..)

/-- A node is appended for an entry that has none. -/
theorem Tracks.pushAge {entry : Entry} (hage : z.cacheAge = rows.map Prod.fst)
    (hcache : z.cache ~ (key, entry) :: rows.map Row.entry)
    (hk : (key :: rows.map (·.1.key)).Nodup) (hn : (rows.map (·.1.node)).Nodup) (hfresh : ∀ r ∈ rows, r.1.node < z.nextNode) :
    (z.pushAge key).Tracks (rows ++ [(⟨z.nextNode, key⟩, entry.data)]) := by
  have hne : ∀ r ∈ rows, r.1.key ≠ key := fun r hr he => (nodup_cons.1 hk).1 (he ▸ mem_map_of_mem hr)
  refine ⟨by simp [CacheZone.pushAge, hage], ?_, ?_, ?_, ?_⟩
  · have hmap : (rows.map Row.entry).map (fun p => if p.1 = key then (p.1, { p.2 with itAge := z.nextNode }) else p) =
        rows.map Row.entry := by
      rw [map_map]
      exact map_congr_left fun r hr => if_neg (hne r hr)
    refine (hcache.map _).trans ?_
    rw [map_cons, hmap, if_pos rfl, map_append]
    exact (perm_append_singleton ..).symm
  · rw [map_append]
    exact (perm_append_singleton ..).nodup_iff.2 hk
  · rw [map_append]
    refine (perm_append_singleton ..).nodup_iff.2 (nodup_cons.2 ⟨fun hmem => ?_, hn⟩)
    obtain ⟨r, hr, he⟩ := mem_map.1 hmem
    have := hfresh r hr
    simp only at he
    omega
  · simp only [mem_append, mem_singleton]
    rintro r (hr | rfl)
    · exact (hfresh r hr).trans (lt_succ_self _)
    · exact lt_succ_self _

/-- The row of an entry that is found. -/
theorem Tracks.of_find {entry : Entry} (h : z.Tracks rows) (hfi : z.find key = some entry) :
    ∃ before after, rows = before ++ (⟨entry.itAge, key⟩, entry.data) :: after := by
  obtain ⟨⟨k, e⟩, hmem, rfl⟩ := Option.map_eq_some_iff.1 hfi
  obtain rfl : k = key := by simpa using find?_some hmem
  obtain ⟨r, hr, he⟩ := mem_map.1 (h.cache.mem_iff.1 (mem_of_find?_eq_some hmem))
  cases he
  exact append_of_mem hr

/-- No row has a key that is not found. -/
theorem Tracks.ne_of_find (h : z.Tracks rows) (hfi : z.find key = none) : ∀ r ∈ rows, r.1.key ≠ key := by
  intro r hr he
  have := find?_eq_none.1 (Option.map_eq_none_iff.1 hfi) r.entry (h.cache.mem_iff.2 (mem_map_of_mem hr))
  simp [Row.entry, he] at this

theorem filter_blocks (h : ∀ r ∈ rows, r.1.key ≠ key) : (rows.map Row.block).filter (·.1 ≠ key) = rows.map Row.block ∧
    (rows.map Row.block).filter (·.1 = key) = [] := by
  rw [filter_eq_self, filter_eq_nil_iff, forall_mem_map, forall_mem_map]
  exact ⟨fun r hr => decide_eq_true (h r hr), fun r hr he => h r hr (of_decide_eq_true he)⟩

/-- A zone has these blocks, in the order of its age list, and not too many. -/
def Ordered : Prop :=
  ∃ rows, s.1.Tracks rows ∧ s.2 = rows.map Row.block ∧ rows.length ≤ s.1.maxBlocks

/-- A zone is in the order of the last use, and a `get` returns the bytes of the latest store under its key, or nothing. -/
structure Lru : Prop where
  ordered : Ordered s
  hits : ∀ key dst pos offset maxBytes,
    ((s.1.get key dst pos offset maxBytes).1, (s.1.get key dst pos offset maxBytes).2.1) = hit s.2 key dst pos offset maxBytes

/-- A `get` finds the block that the rows have under its key. -/
theorem Lru.of_ordered {s : CacheZone τ × List (Key τ × Buffer)} (h : Ordered s) : Lru s := by
  refine ⟨h, fun key dst pos offset maxBytes => ?_⟩
  obtain ⟨rows, ht, hblocks, -⟩ := h
  unfold get hit
  rw [hblocks]
  cases hfi : s.1.find key with
  | none =>
    have hnone : (rows.map Row.block).find? (·.1 = key) = none := by
      rw [find?_eq_none, forall_mem_map]
      exact fun r hr he => ht.ne_of_find hfi r hr (of_decide_eq_true he)
    rw [hnone]
  | some entry =>
    obtain ⟨before, after, rfl⟩ := ht.of_find hfi
    have hkeys := ht.keys
    rw [map_append, map_cons, nodup_append] at hkeys
    have hbefore : (before.map Row.block).find? (·.1 = key) = none := by
      rw [find?_eq_none, forall_mem_map]
      exact fun r hr he => hkeys.2.2 _ (mem_map_of_mem hr) _ mem_cons_self (of_decide_eq_true he)
    rw [map_append, find?_append, hbefore, map_cons, find?_cons_of_pos (by simp [Row.block])]
    rfl

theorem Ordered.evictCache (h : z.Tracks rows) : Ordered (z.evictCache, (rows.map Row.block).drop (rows.length - z.maxBlocks)) :=
  ⟨_, h.evictCache, by rw [map_drop], by simp [CacheZone.evictCache]; omega⟩

theorem Ordered.store {bytes : Nat} (h : z.Tracks rows) (hfi : z.find key = none) :
    Ordered (z.store key data bytes, lru z.maxBlocks (rows.map Row.block) (.store key data bytes)) := by
  have hne := h.ne_of_find hfi
  have hz : z.insert key data bytes = { z with cache := (key, ⟨0, Buffer.empty.copy 0 data 0 bytes⟩) :: z.cache } := by
    simp [insert, hfi]
  have ht := Tracks.pushAge (z := z.insert key data bytes) (by rw [hz, h.age]) (by rw [hz]; exact h.cache.cons _)
    (nodup_cons.2 ⟨by simpa using hne, h.keys⟩) h.nodes (by rw [hz]; exact h.fresh)
  have hmax : ((z.insert key data bytes).pushAge key).maxBlocks = z.maxBlocks := by rw [hz]; rfl
  have hlen := ht.cache.length_eq
  rw [length_map, length_append, length_singleton] at hlen
  simp only [CacheZone.store, lru, (filter_blocks hne).1, length_append, length_map, length_singleton]
  split_ifs with hc
  · have := Ordered.evictCache ht
    rwa [map_append, hmax, length_append] at this
  · rw [Nat.sub_eq_zero_of_le (by omega)]
    exact ⟨_, ht, by rw [map_append]; rfl, by simp only [length_append, length_singleton]; omega⟩

/-- Every operation whose block is not cached keeps the order. -/
theorem Ordered.step {s s' : CacheZone τ × List (Key τ × Buffer)} {op : Operation τ} {maxBlocks : Nat} (h : Ordered s)
    (hok : Fresh s op) (hst : (lruMachine maxBlocks).step s op = some s') : Ordered s' := by
  obtain ⟨rows, ht, hlru, hle⟩ := h
  obtain ⟨z, blocks⟩ := s
  cases hst
  cases hlru
  cases op with
  | setMaxBlocks max =>
    have := Ordered.evictCache (z := { z with maxBlocks := max }) { ht with }
    rwa [← length_map Row.block] at this
  | store key data bytes => exact Ordered.store ht hok
  | get key dst pos offset maxBytes =>
    simp only [apply, lru, get]
    cases hfi : z.find key with
    | none =>
      obtain ⟨hse, hnil⟩ := filter_blocks (ht.ne_of_find hfi)
      exact ⟨rows, ht, by simp only [hse, hnil, append_nil], hle⟩
    | some entry =>
      obtain ⟨before, after, rfl⟩ := ht.of_find hfi
      have hpm : before ++ (⟨entry.itAge, key⟩, entry.data) :: after ~ (⟨entry.itAge, key⟩, entry.data) :: (before ++ after) :=
        perm_middle
      have hk := (hpm.map (·.1.key)).nodup_iff.1 ht.keys
      have hn := nodup_cons.1 ((hpm.map (·.1.node)).nodup_iff.1 ht.nodes)
      have hne : ∀ r ∈ before ++ after, r.1.key ≠ key := fun r hr he => (nodup_cons.1 hk).1 (mem_map.2 ⟨r, hr, he⟩)
      have hage : z.cacheAge.filter (·.node ≠ entry.itAge) = (before ++ after).map Prod.fst := by
        rw [ht.age, map_append, map_cons, filter_append, filter_cons_of_neg (by simp), ← filter_append, ← map_append,
          filter_eq_self, forall_mem_map]
        exact fun r hr => decide_eq_true fun he => hn.1 (mem_map.2 ⟨r, hr, he⟩)
      refine ⟨_, Tracks.pushAge hage (ht.cache.trans (hpm.map _)) hk hn.2
        fun r hr => ht.fresh r (hpm.mem_iff.2 (mem_cons_of_mem _ hr)), ?_, ?_⟩
      · obtain ⟨hse, hnil⟩ := filter_blocks hne
        rw [map_append, filter_append] at hse hnil
        obtain ⟨hb, ha⟩ := append_eq_nil_iff.1 hnil
        rw [map_append, map_cons, filter_append, filter_append, filter_cons_of_neg (by simp [Row.block]),
          filter_cons_of_pos (by simp [Row.block]), hse, hb, ha]
        simp [Row.block]
      · simpa [pushAge, add_assoc] using hle

/-- In every run in which blocks are stored only under keys that are not cached, the zone keeps those used last, in their order, and
returns their bytes. -/
theorem lru_of_fresh {maxBlocks : Nat} {s : CacheZone τ × List (Key τ × Buffer)} (h : (lruMachine maxBlocks).Reaches Fresh s) :
    Lru s := by
  have hord : Ordered s :=
    h.invariant ⟨[], ⟨rfl, .nil, .nil, .nil, nofun⟩, rfl, zero_le _⟩ fun hinv hok => hinv.step hok
  exact .of_ordered hord

/-- A buffer that holds the same byte everywhere. -/
def filled (byte : UInt8) : Buffer := fun _ => some byte

/-- Of two blocks the first is used, so that a third one evicts the second; then a `get` of the first returns its bytes. -/
theorem lru_of_three : ∃ s, (lruMachine (τ := Nat) 2).Reaches Fresh s ∧ s.2.map Prod.fst = [⟨0, 0⟩, ⟨2, 0⟩] ∧
    ((s.1.get ⟨1, 0⟩ .empty 0 0 4).1 = 0 ∧ (s.1.get ⟨0, 0⟩ .empty 0 0 4).2.1 3 = some 7) ∧ Lru s := by
  have h : (lruMachine 2).Reaches Fresh _ :=
    .step (.store ⟨2, 0⟩ (filled 9) 4096) (.step (.get ⟨0, 0⟩ .empty 0 0 1) (.step (.store ⟨1, 0⟩ (filled 8) 4096)
      (.step (.store ⟨0, 0⟩ (filled 7) 4096) .init rfl rfl) (show find _ _ = none from rfl) rfl) trivial rfl)
      (show find _ _ = none from rfl) rfl
  exact ⟨_, h, rfl, ⟨rfl, rfl⟩, lru_of_fresh h⟩

/-- A block is stored twice. -/
theorem not_lru_of_twice : ∃ s, (lruMachine (τ := Nat) 2).Reachable s ∧ ¬ Lru s := by
  have h : (lruMachine 2).Reachable _ := .step (.store ⟨0, 0⟩ .empty 0) (.step (.store ⟨0, 0⟩ .empty 0) .init trivial rfl)
    trivial rfl
  refine ⟨_, h, fun ⟨⟨rows, ht, _⟩, _⟩ => ?_⟩
  have hkeys : rows.map (·.1.key) = [⟨0, 0⟩, ⟨0, 0⟩] := map_map.symm.trans (ht.age ▸ rfl)
  exact absurd (hkeys ▸ ht.keys) (by decide)

end Osxie.Dmg.CacheZone
