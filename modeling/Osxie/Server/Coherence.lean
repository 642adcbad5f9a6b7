import Osxie.Server.Registry

/-!
# Coherence of the registries

The three maps agree as long as each registration finds the entry's keys free.
-/

namespace Osxie.Server

open List Option Entry AList Sigma

universe u v w

namespace Registry

variable {E : Type u} {ID : Type v} {NSID : Type w} [Entry E ID NSID] [DecidableEq ID] [DecidableEq NSID]

namespace CoherenceAux

/-! ## Lookups after an insertion and a removal -/

variable {K V : Type*} {s : AList (fun _ : K => V)} {key : V → K}

theorem lookup_insert_iff [DecidableEq K] {k j : K} {a b : V} :
    (s.insert k a).lookup j = some b ↔ (j = k ∧ a = b) ∨ (j ≠ k ∧ s.lookup j = some b) := by
  by_cases h : j = k
  · subst h
    simp [lookup_insert]
  · simp [lookup_insert_ne h, h]

theorem lookup_erase_iff [DecidableEq K] {k j : K} {b : V} : (s.erase k).lookup j = some b ↔ j ≠ k ∧ s.lookup j = some b := by
  by_cases h : j = k
  · subst h
    simp [lookup_erase]
  · simp [lookup_erase_ne h, h]

theorem not_mem_of_lookup [DecidableEq K] {k : K} (h : k ∉ s) (b : V) : s.lookup k ≠ some b := by
  rw [lookup_eq_none.2 h]
  simp

/-- What is stored stays when something is stored under a free key. -/
theorem lookup_insert_of_free [DecidableEq K] {k j : K} {a b : V} (h : k ∉ s) (hl : s.lookup j = some b) :
    (s.insert k a).lookup j = some b := by
  refine lookup_insert_iff.2 (.inr ⟨?_, hl⟩)
  rintro rfl
  exact not_mem_of_lookup h b hl

/-- It stays when something else is taken out. -/
theorem lookup_erase_of_ne [DecidableEq K] {k j : K} {a b : V} (hk : s.lookup k = some a) (hne : b ≠ a) (hl : s.lookup j = some b) :
    (s.erase k).lookup j = some b := by
  refine lookup_erase_iff.2 ⟨?_, hl⟩
  rintro rfl
  exact hne (some.inj (hl.symm.trans hk))

/-! ## The values of a map whose entries know their keys -/

theorem mem_values_iff [DecidableEq K] (own : ∀ {k : K} {e : V}, s.lookup k = some e → key e = k) {e : V} :
    e ∈ s.entries.map snd ↔ s.lookup (key e) = some e := by
  rw [List.mem_map]
  constructor
  · rintro ⟨⟨k, e'⟩, hmem, rfl⟩
    have hl : s.lookup k = some e' := mem_lookup_iff.2 hmem
    rw [own hl]
    exact hl
  · intro hl
    exact ⟨⟨key e, e⟩, mem_lookup_iff.1 hl, rfl⟩

theorem nodup_values [DecidableEq K] (own : ∀ {k : K} {e : V}, s.lookup k = some e → key e = k) : (s.entries.map snd).Nodup := by
  apply List.Nodup.of_map key
  have hkeys : (s.entries.map snd).map key = s.keys := by
    rw [List.map_map]
    apply map_congr_left
    rintro ⟨k, e⟩ hmem
    exact own (mem_lookup_iff.2 hmem)
  rw [hkeys]
  exact s.keys_nodup

end CoherenceAux

open CoherenceAux

/-- A new registry is coherent. -/
theorem coherent_new (eid : E → Nat) : (new eid : Registry E ID NSID).Coherent := by
  constructor <;> simp [new]

variable {e : E} {r : Registry E ID NSID}

section

variable (h : r.Coherent)

include h

/-- In a coherent registry an entry that any lookup returns is in all three maps. -/
theorem Coherent.stored (he : r.Registered e) :
    r.map.lookup (Entry.id e) = some e ∧ r.nsmap.lookup (Entry.nsid e) = some e ∧ r.emap.lookup (r.eid e) = some e := by
  have hmap : r.map.lookup (Entry.id e) = some e := by
    rcases he with ⟨i, hi⟩ | ⟨n, hn⟩ | ⟨k, hk⟩
    · have hi' : r.map.lookup i = some e := hi
      rw [h.map_own hi']
      exact hi'
    · have hn' : r.nsmap.lookup n = some e := hn
      rw [← h.nsmap_own hn'] at hn'
      exact h.map_of_emap (h.emap_of_nsmap hn')
    · have hk' : r.emap.lookup k = some e := hk
      rw [← h.emap_own hk'] at hk'
      exact h.map_of_emap hk'
  exact ⟨hmap, h.nsmap_of_map hmap, h.emap_of_nsmap (h.nsmap_of_map hmap)⟩

/-- Taking out the three keys of one stored entry keeps the maps coherent. -/
theorem Coherent.remove (he : r.Registered e) : (r.remove (id e) (nsid e) (r.eid e)).Coherent := by
  obtain ⟨hmap, hns, hmp⟩ := h.stored he
  constructor
  · intro i e' hl
    exact h.map_own (lookup_erase_iff.1 hl).2
  · intro n e' hl
    exact h.nsmap_own (lookup_erase_iff.1 hl).2
  · intro k e' hl
    exact h.emap_own (lookup_erase_iff.1 hl).2
  · intro e' hl
    obtain ⟨hne, hl⟩ := lookup_erase_iff.1 hl
    exact lookup_erase_of_ne hns (fun heq => hne (by rw [heq])) (h.nsmap_of_map hl)
  · intro e' hl
    obtain ⟨hne, hl⟩ := lookup_erase_iff.1 hl
    exact lookup_erase_of_ne hmp (fun heq => hne (by rw [heq])) (h.emap_of_nsmap hl)
  · intro e' hl
    obtain ⟨hne, hl⟩ := lookup_erase_iff.1 hl
    exact lookup_erase_of_ne hmap (fun heq => hne (by rw [heq]; rfl)) (h.map_of_emap hl)

/-- No lookup returns an entry whose three keys have been taken out. -/
theorem Coherent.not_registered_remove (e : E) : ¬(r.remove (id e) (nsid e) (r.eid e)).Registered e := by
  rintro (⟨i, hi⟩ | ⟨n, hn⟩ | ⟨k, hk⟩)
  · obtain ⟨hne, hl⟩ := lookup_erase_iff.1 hi
    exact hne (h.map_own hl).symm
  · obtain ⟨hne, hl⟩ := lookup_erase_iff.1 hn
    exact hne (h.nsmap_own hl).symm
  · obtain ⟨hne, hl⟩ := lookup_erase_iff.1 hk
    exact hne (h.emap_own hl).symm

/-- A coherent registry has as many entries in its ID map as it copies out of its eternal map. -/
theorem Coherent.size_eq : r.size = r.copyEntries.length := by
  have hpm : (r.map.entries.map snd).Perm (r.emap.entries.map snd) := by
    refine (perm_ext_iff_of_nodup (nodup_values h.map_own) (nodup_values h.emap_own)).2 ?_
    intro e
    rw [mem_values_iff h.map_own, mem_values_iff h.emap_own]
    exact ⟨fun hl => h.emap_of_nsmap (h.nsmap_of_map hl), h.map_of_emap⟩
  have hlen := hpm.length_eq
  rw [length_map] at hlen
  exact hlen

/-! ## One operation -/

/-- Taking out the keys of an entry that is registered, or refusing to, keeps the maps coherent. -/
theorem Coherent.removeUnless (he : r.Registered e) {id : ID} {nsid : NSID} {eid : Nat} (hid : Entry.id e = id)
    (hnsid : Entry.nsid e = nsid) (heid : r.eid e = eid) {p q : Prop} [Decidable p] [Decidable q] :
    (if p then (false, r) else if q then (false, r) else (true, r.remove id nsid eid)).2.Coherent := by
  subst hid hnsid heid
  split
  · exact h
  · split
    · exact h
    · exact h.remove he

theorem Coherent.unregisterEntryByID (id : ID) : (r.unregisterEntryByID id).2.Coherent := by
  unfold Registry.unregisterEntryByID
  split
  · exact h
  · rename_i e hl
    exact h.removeUnless (.inl ⟨id, hl⟩) (h.map_own hl) rfl rfl

theorem Coherent.unregisterEntryByNSID (nsid : NSID) : (r.unregisterEntryByNSID nsid).2.Coherent := by
  unfold Registry.unregisterEntryByNSID
  split
  · exact h
  · rename_i e hl
    exact h.removeUnless (.inr (.inl ⟨nsid, hl⟩)) rfl (h.nsmap_own hl) rfl

theorem Coherent.unregistryEntryByEternalID (eid : Nat) : (r.unregistryEntryByEternalID eid).2.Coherent := by
  unfold Registry.unregistryEntryByEternalID
  split
  · exact h
  · rename_i e hl
    exact h.removeUnless (.inr (.inr ⟨eid, hl⟩)) rfl rfl (h.emap_own hl)

variable [DecidableEq E]

/-- Storing an entry whose keys are free keeps the maps coherent. -/
theorem Coherent.store (hf : r.Free e) : (r.store e).Coherent := by
  obtain ⟨hid, hns, hct⟩ := hf
  -- an entry stored before is another object, so that the new eternal ID of `e` does not concern it
  have hne : ∀ {e' : E}, r.Registered e' → e' ≠ e := by
    rintro e' he' rfl
    exact not_mem_of_lookup hid e' (h.stored he').1
  have heid : ∀ {e' : E}, e' ≠ e → (r.store e).eid e' = r.eid e' := fun hne' => Function.update_of_ne hne' _ _
  have heid' : (r.store e).eid e = r.eternalCounter := Function.update_self _ _ _
  constructor
  · intro i e' hl
    rcases lookup_insert_iff.1 hl with ⟨rfl, rfl⟩ | ⟨-, hl⟩
    · rfl
    · exact h.map_own hl
  · intro n e' hl
    rcases lookup_insert_iff.1 hl with ⟨rfl, rfl⟩ | ⟨-, hl⟩
    · rfl
    · exact h.nsmap_own hl
  · intro k e' hl
    rcases lookup_insert_iff.1 hl with ⟨rfl, rfl⟩ | ⟨-, hl⟩
    · exact heid'
    · rw [heid (hne (.inr (.inr ⟨k, hl⟩)))]
      exact h.emap_own hl
  · intro e' hl
    rcases lookup_insert_iff.1 hl with ⟨-, rfl⟩ | ⟨-, hl⟩
    · exact lookup_insert_iff.2 (.inl ⟨rfl, rfl⟩)
    · exact lookup_insert_of_free hns (h.nsmap_of_map hl)
  · intro e' hl
    rcases lookup_insert_iff.1 hl with ⟨-, rfl⟩ | ⟨-, hl⟩
    · exact lookup_insert_iff.2 (.inl ⟨heid', rfl⟩)
    · rw [heid (hne (.inr (.inl ⟨_, hl⟩)))]
      exact lookup_insert_of_free hct (h.emap_of_nsmap hl)
  · intro e' hl
    by_cases heq : e' = e
    · exact lookup_insert_iff.2 (.inl ⟨by rw [heq], heq.symm⟩)
    · rw [heid heq] at hl
      rcases lookup_insert_iff.1 hl with ⟨-, rfl⟩ | ⟨-, hl⟩
      · exact absurd rfl heq
      · exact lookup_insert_of_free hid (h.map_of_emap hl)

/-- The operation that unregisters an entry takes out its three keys, in a coherent registry. -/
theorem Coherent.unregisterEntry_eq (he : r.Registered e) :
    r.unregisterEntry e = (true, r.remove (Entry.id e) (Entry.nsid e) (r.eid e)) := by
  obtain ⟨hmap, hns, hmp⟩ := h.stored he
  simp [unregisterEntry, hmap, hns, hmp]

theorem Coherent.registerIfAbsent {nsid : NSID} {entryFactory : Option E}
    (hf : nsid ∈ r.nsmap ∨ ∀ e, entryFactory = some e → r.Free e) : (r.registerIfAbsent nsid entryFactory).2.Coherent := by
  unfold Registry.registerIfAbsent
  split
  · exact h
  · rename_i hno
    cases entryFactory with
    | none => exact h
    | some e =>
      rcases hf with hmem | hfr
      · exact absurd hmem (lookup_eq_none.1 hno)
      · exact h.store (hfr e rfl)

theorem Coherent.registerEntry {replace : Bool}
    (hf : replace = false ∧ (Entry.id e ∈ r.map ∨ Entry.nsid e ∈ r.nsmap) ∨ r.Free e) :
    (r.registerEntry e replace).2.Coherent := by
  unfold Registry.registerEntry
  split
  · exact h
  · rename_i hacc
    rcases hf with href | hfr
    · exact absurd href hacc
    · exact h.store hfr

/-- An entry that is not registered, or no longer, leaves the registry as it is. -/
theorem Coherent.unregisterEntry (e : E) : (r.unregisterEntry e).2.Coherent := by
  unfold Registry.unregisterEntry
  split
  · rename_i e1 _ _ hl _ _
    split
    · exact h
    · rename_i hsm
      obtain ⟨rfl, -, -⟩ : e1 = e ∧ _ ∧ _ := by simpa [not_or] using hsm
      exact h.remove (.inl ⟨_, hl⟩)
  · exact h

/-- An operation that registers only entries whose keys are free keeps the registry coherent. -/
theorem Coherent.apply {op : Op E ID NSID} (hf : r.FreeOp op) : (r.apply op).Coherent := by
  cases op with
  | registerIfAbsent nsid entryFactory => exact h.registerIfAbsent hf
  | registerEntry e replace => exact h.registerEntry hf
  | unregisterEntryByID id => exact h.unregisterEntryByID id
  | unregisterEntryByNSID nsid => exact h.unregisterEntryByNSID nsid
  | unregistryEntryByEternalID eid => exact h.unregistryEntryByEternalID eid
  | unregisterEntry e => exact h.unregisterEntry e

/-! ## Every run -/

/-- A coherent registry keeps all its promises. -/
theorem Coherent.sound : r.Sound where
  coherent := h
  unregister e he := by
    rw [h.unregisterEntry_eq he]
    exact ⟨rfl, h.not_registered_remove e⟩
  size_eq := h.size_eq

end

variable [DecidableEq E]

/-- In every run in which each registration finds the three keys of its entry free, the registry is sound in every state
reached. -/
theorem registry_sound_of_free (eid : E → Nat) {r : Registry E ID NSID} (h : (machine eid).Reaches FreeOp r) : r.Sound := by
  have hcoh : r.Coherent := by
    refine Machine.Reaches.invariant (coherent_new eid) ?_ h
    intro s op s' hs hf hst
    cases hst
    exact hs.apply hf
  exact hcoh.sound

end Registry

/-! ## The registry of threads -/

/-- A kernel thread, as far as the thread registry is concerned: its ID is -1, and its NSID is counted up. -/
structure KernelThread where
  nstid : Nat
deriving DecidableEq

instance : Entry KernelThread Int Nat where
  id _ := -1
  nsid := KernelThread.nstid

/-- A thread of a client, by its ID and its NSID. -/
structure ClientThread where
  tid : Int
  nstid : Nat
deriving DecidableEq

instance : Entry ClientThread Int Nat where
  id := ClientThread.tid
  nsid := ClientThread.nstid

namespace Registry

/-- Three threads of clients are registered, and the second one unregistered again: the other two are left. -/
theorem registry_sound_clientThreads :
    let r := ((((new (fun _ => 0) : Registry ClientThread Int Nat).apply (.registerIfAbsent 7 (some ⟨1204, 7⟩))).apply
      (.registerIfAbsent 8 (some ⟨1205, 8⟩))).apply (.registerEntry ⟨1206, 9⟩ false)).apply (.unregisterEntry ⟨1205, 8⟩)
    (r.copyEntries = [⟨1206, 9⟩, ⟨1204, 7⟩] ∧ r.lookupEntryByNSID 9 = some ⟨1206, 9⟩) ∧ r.Sound := by
  refine ⟨by decide, registry_sound_of_free (fun _ => 0) (.step (.unregisterEntry ⟨1205, 8⟩) ?_ trivial rfl)⟩
  refine .step (.registerEntry ⟨1206, 9⟩ false) (.step (.registerIfAbsent 8 (some ⟨1205, 8⟩))
    (.step (.registerIfAbsent 7 (some ⟨1204, 7⟩)) .init ?_ rfl) ?_ rfl) ?_ rfl
  · refine .inr fun e he => ?_
    cases he
    decide
  · refine .inr fun e he => ?_
    cases he
    decide
  · exact .inr (by decide)

/-- The second kernel thread takes the place of the first in the ID map, and the first can no longer be unregistered. -/
theorem registry_sound_false : ¬∀ r : Registry KernelThread Int Nat, (machine (fun _ => 0)).Reachable r → r.Sound := by
  intro h
  have hreach : (machine (fun _ => 0)).Reachable
      (((new (fun _ => 0) : Registry KernelThread Int Nat).apply (.registerEntry ⟨4194304⟩ true)).apply
        (.registerEntry ⟨4194305⟩ true)) :=
    .step (.registerEntry ⟨4194305⟩ true) (.step (.registerEntry ⟨4194304⟩ true) .init trivial rfl) trivial rfl
  have hun := ((h _ hreach).unregister ⟨4194304⟩ (.inr (.inl ⟨4194304, by decide⟩))).1
  revert hun
  decide

end Registry

end Osxie.Server
