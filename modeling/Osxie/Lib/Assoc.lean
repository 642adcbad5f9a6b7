import Mathlib.Data.List.Basic

/-!
# Maps that keep the first value

A map as a list of entries, looked up by `List.lookup`. `insertNew` gives a value to a key that has none, and leaves a key
that has one as it is; so inserting the entries of a map a second time changes nothing.
-/

namespace Osxie.Assoc

open List Option

variable {κ ν : Type} [DecidableEq κ] (m : List (κ × ν)) (e : κ × ν)

/-- A value for a key that has none. -/
def insertNew : List (κ × ν) := if (m.lookup e.1).isSome then m else m ++ [e]

/-- A range of entries, one after the other. -/
def insertAll (m es : List (κ × ν)) : List (κ × ν) := es.foldl insertNew m

def erase (k : κ) : List (κ × ν) := m.filter fun e => e.1 ≠ k

def modify : List (κ × ν) → κ → (ν → ν) → List (κ × ν)
  | [], _, _ => []
  | e :: m, k, f => if e.1 = k then (e.1, f e.2) :: m else e :: modify m k f

theorem lookup_insertNew (k : κ) :
    (insertNew m e).lookup k = (m.lookup k).or (if k = e.1 then some e.2 else none) := by
  obtain ⟨a, v⟩ := e
  unfold insertNew
  by_cases hk : k = a
  · subst hk
    cases h : m.lookup k with
    | none => simp [lookup_append, h]
    | some v' => simp [h]
  · have hne : (k == a) = false := by simpa using hk
    rw [if_neg hk, or_none]
    split
    · rfl
    · rw [lookup_append, lookup_cons, hne]
      exact or_none

variable {m : List (κ × ν)} {k : κ}

/-- A key that has a value keeps it. -/
theorem insertNew_of_isSome {e : κ × ν} (h : (m.lookup e.1).isSome) : insertNew m e = m := if_pos h

theorem isSome_lookup_insertNew (h : (m.lookup k).isSome) : ((insertNew m e).lookup k).isSome := by
  obtain ⟨v, hv⟩ := isSome_iff_exists.1 h
  rw [lookup_insertNew, hv]
  rfl

theorem isSome_lookup_insertAll_of_left (es : List (κ × ν)) (h : (m.lookup k).isSome) : ((insertAll m es).lookup k).isSome := by
  induction es generalizing m with
  | nil => exact h
  | cons e es ih => exact ih (isSome_lookup_insertNew e h)

/-- The keys that were inserted have values. -/
theorem isSome_lookup_insertAll {m es : List (κ × ν)} {e : κ × ν} (he : e ∈ es) : ((insertAll m es).lookup e.1).isSome := by
  induction es generalizing m with
  | nil => cases he
  | cons e' es ih =>
    rcases mem_cons.1 he with rfl | he
    · refine isSome_lookup_insertAll_of_left es ?_
      rw [lookup_insertNew, if_pos rfl]
      cases m.lookup e.1 <;> rfl
    · exact ih he

/-- The first value that was inserted for a key is found. -/
theorem lookup_insertAll (m es : List (κ × ν)) (k : κ) : (insertAll m es).lookup k = (m.lookup k).or (es.lookup k) := by
  induction es generalizing m with
  | nil => exact or_none.symm
  | cons e es ih =>
    obtain ⟨a, v⟩ := e
    refine (ih _).trans ?_
    rw [lookup_insertNew, Option.or_assoc, lookup_cons]
    cases h : k == a with
    | false =>
      rw [if_neg fun hc => by simp [hc] at h]
      rfl
    | true =>
      rw [if_pos (beq_iff_eq.1 h)]
      rfl

/-- Of several values for one key, the first is found. -/
theorem lookup_insertAll_key (k₀ k : κ) (v : ν) (vs : List ν) :
    (insertAll [] ((k₀, v) :: vs.map fun v => (k₀, v))).lookup k = if k = k₀ then some v else none := by
  rw [lookup_insertAll, lookup_nil, none_or, lookup_cons]
  by_cases h : k = k₀
  · rw [if_pos h, beq_iff_eq.2 h]
  · rw [if_neg h, beq_eq_false_iff_ne.2 h]
    refine lookup_eq_none_iff.2 fun e he => ?_
    obtain ⟨v, -, rfl⟩ := mem_map.1 he
    exact bne_iff_ne.2 h

/-- An entry whose key has no other value is found. -/
theorem lookup_of_mem {v : ν} (hmem : (k, v) ∈ m) (huniq : ∀ v', (k, v') ∈ m → v' = v) : m.lookup k = some v := by
  induction m with
  | nil => cases hmem
  | cons e m ih =>
    obtain ⟨a, w⟩ := e
    rw [lookup_cons]
    cases h : k == a with
    | true =>
      have hw := huniq w (by rw [beq_iff_eq.1 h]; exact mem_cons_self)
      rw [hw]
    | false =>
      refine ih ((mem_cons.1 hmem).resolve_left fun hc => ?_) fun v' hv' => huniq v' (mem_cons_of_mem _ hv')
      rw [(Prod.mk.inj hc).1, beq_self_eq_true] at h
      cases h

/-- Entries whose keys all have values change nothing. -/
theorem insertAll_of_isSome {m es : List (κ × ν)} (h : ∀ e ∈ es, (m.lookup e.1).isSome) : insertAll m es = m := by
  induction es with
  | nil => rfl
  | cons e es ih =>
    rw [insertAll, foldl_cons, insertNew_of_isSome (h e mem_cons_self)]
    exact ih fun e he => h e (mem_cons_of_mem _ he)

theorem lookup_modify (m : List (κ × ν)) (k : κ) (f : ν → ν) (k' : κ) :
    (modify m k f).lookup k' = if k' = k then (m.lookup k').map f else m.lookup k' := by
  induction m with
  | nil => simp [modify]
  | cons e m ih =>
    rw [modify, lookup_cons]
    by_cases he : e.1 = k
    · rw [if_pos he, lookup_cons]
      cases hk : k' == e.1 with
      | false =>
        rw [if_neg fun hc => by simp [hc, he] at hk]
      | true =>
        rw [beq_iff_eq] at hk
        rw [if_pos (hk.trans he)]
        rfl
    · rw [if_neg he, lookup_cons]
      cases hk : k' == e.1 with
      | false => exact ih
      | true =>
        rw [beq_iff_eq] at hk
        rw [if_neg (hk ▸ he)]

/-- What is the same for the changed value is the same for the map. -/
theorem map_modify {β : Type} {f : ν → ν} {g : κ × ν → β} (h : ∀ v, m.lookup k = some v → g (k, f v) = g (k, v)) :
    (modify m k f).map g = m.map g := by
  induction m with
  | nil => rfl
  | cons e m ih =>
    rw [modify]
    by_cases he : e.1 = k
    · rw [if_pos he, map_cons, map_cons]
      have hv := h e.2 (by rw [lookup_cons, beq_iff_eq.2 he.symm])
      subst he
      rw [hv]
    · rw [if_neg he, map_cons, map_cons, ih fun v hv => h v ?_]
      rw [lookup_cons, show (k == e.1) = false by simpa using fun hc => he hc.symm]
      exact hv

/-- What holds for some entry after a change holds for some entry before, or is due to the change; and the other way around. -/
theorem exists_mem_modify {f : ν → ν} {p : κ × ν → Prop} {c : Prop}
    (h : ∀ v, m.lookup k = some v → (p (k, v) → p (k, f v)) ∧ (p (k, f v) → p (k, v) ∨ c)) :
    ((∃ e ∈ m, p e) → ∃ e ∈ modify m k f, p e) ∧ ((∃ e ∈ modify m k f, p e) → (∃ e ∈ m, p e) ∨ c) := by
  induction m with
  | nil => simp [modify]
  | cons e m ih =>
    rw [modify]
    by_cases he : e.1 = k
    · obtain ⟨hold, hnew⟩ := h e.2 (by rw [lookup_cons, beq_iff_eq.2 he.symm])
      subst he
      rw [if_pos rfl]
      simp only [exists_mem_cons_iff]
      exact ⟨Or.imp_left hold, fun hc => hc.elim (fun hp => (hnew hp).imp_left .inl) fun hp => .inl (.inr hp)⟩
    · rw [if_neg he]
      simp only [exists_mem_cons_iff]
      obtain ⟨hold, hnew⟩ := ih fun v hv => h v (by
        rw [lookup_cons, show (k == e.1) = false by simpa using fun hc => he hc.symm]
        exact hv)
      exact ⟨Or.imp_right hold, fun hc => hc.elim (fun hp => .inl (.inl hp)) fun hp => (hnew hp).imp_left .inr⟩

end Osxie.Assoc
