import Mathlib.Data.List.Nodup

/-!
# Tables

A table of a database, whose rows are numbered as they are inserted, and no number is given again. It carries what follows: the
numbers of its rows are distinct, and below the next one.

The rows of a child table refer to a row of another table. The values of that row are those of its children in the order in
which they were inserted (`children`); to `replace` them is to delete and to insert them.
-/

namespace Osxie

open List Option

/-- A table: its rows with their numbers, and the next number. -/
@[ext]
structure Table (α : Type) where
  rows : List (Nat × α)
  next : Nat
  below : ∀ r ∈ rows, r.1 < next
  distinct : (rows.map Prod.fst).Nodup

namespace Table

variable {α β : Type}

def empty : Table α := ⟨[], 1, nofun, nodup_nil⟩

variable (t : Table α) (p : α → Bool)

def insert (a : α) : Table α where
  rows := t.rows ++ [(t.next, a)]
  next := t.next + 1
  below := by
    intro r hr
    rcases mem_append.1 hr with hr | hr
    · exact Nat.lt_succ_of_lt (t.below r hr)
    · rw [mem_singleton.1 hr]
      exact Nat.lt_succ_self _
  distinct := by
    rw [map_append, map_singleton]
    refine nodup_append.2 ⟨t.distinct, nodup_singleton _, ?_⟩
    intro i hi j hj
    obtain ⟨r, hr, rfl⟩ := mem_map.1 hi
    rw [mem_singleton.1 hj]
    exact Nat.ne_of_lt (t.below r hr)

/-- The table without the rows that have a property. -/
def delete : Table α where
  rows := t.rows.filter fun r => !p r.2
  next := t.next
  below r hr := t.below r (mem_filter.1 hr).1
  distinct := (filter_sublist.map Prod.fst).nodup t.distinct

def update (id : Nat) (f : α → α) : Table α where
  rows := t.rows.map fun r => if r.1 = id then (r.1, f r.2) else r
  next := t.next
  below := by
    intro r hr
    obtain ⟨r', hr', rfl⟩ := mem_map.1 hr
    split
    · exact t.below r' hr'
    · exact t.below r' hr'
  distinct := by
    have hfirst : (t.rows.map fun r => if r.1 = id then (r.1, f r.2) else r).map Prod.fst = t.rows.map Prod.fst := by
      rw [List.map_map]
      refine map_congr_left fun r _ => ?_
      simp only [Function.comp]
      split <;> rfl
    rw [hfirst]
    exact t.distinct

def select : List (Nat × α) := t.rows.filter fun r => p r.2

variable (t : Table α)

theorem select_insert (a : α) (p : α → Bool) : (t.insert a).select p = t.select p ++ if p a then [(t.next, a)] else [] := by
  simp only [select, insert, filter_append, filter_singleton]
  cases p a <;> rfl

theorem select_delete (p q : α → Bool) : (t.delete q).select p = (t.select p).filter fun r => !q r.2 := by
  simp only [select, delete, List.filter_filter]
  refine List.filter_congr fun r _ => ?_
  exact Bool.and_comm ..

theorem select_delete_self : (t.delete p).select p = [] := by
  rw [select_delete, filter_eq_nil_iff]
  intro r hr
  have hp : p r.2 = true := (mem_filter.1 hr).2
  simp [hp]

/-- The rows of an owner, where those of another one are deleted. -/
theorem select_delete_of_ne (owner : α → Nat) {b b' : Nat} (h : b' ≠ b) :
    ((t.delete fun a => owner a == b).select fun a => owner a == b') = t.select fun a => owner a == b' := by
  rw [select_delete, filter_eq_self]
  intro r hr
  have hb : owner r.2 = b' := by simpa using (mem_filter.1 hr).2
  simp [hb, h]

/-- The rows of an owner, read with what belongs to them, where a row is added. -/
theorem map_select_insert {γ : Type} (row : α) (owner : α → Nat) {view view' : Nat × α → γ}
    (hold : ∀ r ∈ t.rows, view' r = view r) (b : Nat) :
    ((t.insert row).select fun a => owner a == b).map view' =
      (t.select fun a => owner a == b).map view ++ if owner row = b then [view' (t.next, row)] else [] := by
  rw [select_insert, map_append]
  congr 1
  · exact map_congr_left fun r hr => hold r (mem_filter.1 hr).1
  · by_cases hb : owner row = b
    · rw [if_pos (beq_iff_eq.2 hb), if_pos hb, map_singleton]
    · rw [if_neg (fun hx => hb (beq_iff_eq.1 hx)), if_neg hb, map_nil]

/-- Rows with one number are the same row. -/
theorem eq_of_id_eq {r r' : Nat × α} (hr : r ∈ t.rows) (hr' : r' ∈ t.rows) (h : r.1 = r'.1) : r = r' :=
  inj_on_of_nodup_map t.distinct hr hr' h

/-- What holds of the rows and of a new one. -/
theorem forall_insert {t : Table α} {a : α} {P : α → Prop} (h : ∀ r ∈ t.rows, P r.2) (ha : P a) :
    ∀ r ∈ (t.insert a).rows, P r.2 := by
  intro r hr
  rcases mem_append.1 hr with hr | hr
  · exact h r hr
  · rw [mem_singleton.1 hr]
    exact ha

/-- The key tells the rows apart. -/
def Keyed {κ : Type} (t : Table α) (key : α → κ) : Prop := ∀ r ∈ t.rows, ∀ r' ∈ t.rows, key r.2 = key r'.2 → r = r'

theorem Keyed.insert {κ : Type} {t : Table α} {key : α → κ} (h : t.Keyed key) {a : α} (hnew : ∀ r ∈ t.rows, key r.2 ≠ key a) :
    (t.insert a).Keyed key := by
  intro r hr r' hr' heq
  rcases mem_append.1 hr with hr | hr
  · rcases mem_append.1 hr' with hr' | hr'
    · exact h r hr r' hr' heq
    · rw [mem_singleton.1 hr'] at heq
      exact absurd heq (hnew r hr)
  · rcases mem_append.1 hr' with hr' | hr'
    · rw [mem_singleton.1 hr] at heq
      exact absurd heq.symm (hnew r' hr')
    · rw [mem_singleton.1 hr, mem_singleton.1 hr']

/-- A change that leaves the row as it is. -/
theorem update_self {id : Nat} {f : α → α} (h : ∀ r ∈ t.rows, r.1 = id → f r.2 = r.2) : t.update id f = t := by
  have hrows : (t.update id f).rows = t.rows := by
    refine (map_congr_left fun r hr => ?_).trans (map_id _)
    split
    · rename_i hid
      rw [h r hr hid]
      rfl
    · rfl
  exact Table.ext hrows rfl

variable (id : Nat)

/-- A change that does not concern the property. -/
theorem select_update {f : α → α} {p : α → Bool} (h : ∀ a, p (f a) = p a) :
    (t.update id f).select p = (t.select p).map fun r => if r.1 = id then (r.1, f r.2) else r := by
  simp only [select, update, List.filter_map]
  congr 1
  refine List.filter_congr fun r _ => ?_
  simp only [Function.comp]
  split
  · exact h r.2
  · rfl

/-! ## Child tables -/

/-- The values that belong to a row of the parent table. -/
def children (t : Table (Nat × β)) (id : Nat) : List β := (t.select fun c => c.1 == id).map fun r => r.2.2

/-- Values for a row of the parent table, one after the other. -/
def insertAll (t : Table (Nat × β)) (id : Nat) (values : List β) : Table (Nat × β) :=
  values.foldl (fun t value => t.insert (id, value)) t

/-- The rows refer to numbers of the parent table that were given. -/
def Owned (t : Table (Nat × β)) (next : Nat) : Prop := ∀ r ∈ t.rows, r.2.1 < next

variable (t : Table (Nat × β))

theorem children_insert (value : β) (id' : Nat) :
    (t.insert (id, value)).children id' = t.children id' ++ if id = id' then [value] else [] :=
  t.map_select_insert (id, value) Prod.fst (fun _ _ => rfl) id'

theorem children_insertAll_self (values : List β) : (t.insertAll id values).children id = t.children id ++ values := by
  induction values generalizing t with
  | nil => exact (append_nil _).symm
  | cons value values ih =>
    show ((t.insert (id, value)).insertAll id values).children id = _
    rw [ih, children_insert, if_pos rfl, append_assoc]
    rfl

theorem children_insertAll_of_ne {id id' : Nat} (h : id' ≠ id) (values : List β) :
    (t.insertAll id values).children id' = t.children id' := by
  induction values generalizing t with
  | nil => rfl
  | cons value values ih =>
    show ((t.insert (id, value)).insertAll id values).children id' = _
    rw [ih, children_insert, if_neg (Ne.symm h), append_nil]

theorem children_delete_self : (t.delete fun c => c.1 == id).children id = [] := by
  rw [children, select_delete_self, map_nil]

theorem children_delete_of_ne {id id' : Nat} (h : id' ≠ id) : (t.delete fun c => c.1 == id).children id' = t.children id' := by
  rw [children, t.select_delete_of_ne Prod.fst h, children]

/-- The values of a row, in place of those it had. -/
def replace (t : Table (Nat × β)) (id : Nat) (values : List β) : Table (Nat × β) :=
  (t.delete fun c => c.1 == id).insertAll id values

theorem children_replace (values : List β) (id' : Nat) :
    (t.replace id values).children id' = if id' = id then values else t.children id' := by
  by_cases h : id' = id
  · rw [if_pos h, h, replace, children_insertAll_self, children_delete_self, nil_append]
  · rw [if_neg h, replace, children_insertAll_of_ne _ h, children_delete_of_ne _ h]

variable {t : Table (Nat × β)}

/-- A number that was not given has no children. -/
theorem Owned.children_eq_nil {next id : Nat} (h : Owned t next) (hid : next ≤ id) : t.children id = [] := by
  rw [children, select, map_eq_nil_iff, filter_eq_nil_iff]
  intro r hr
  have hlt := h r hr
  simp only [beq_iff_eq]
  omega

theorem Owned.mono {next next' : Nat} (h : Owned t next) (hle : next ≤ next') : Owned t next' :=
  fun r hr => Nat.lt_of_lt_of_le (h r hr) hle

theorem Owned.insertAll {next id : Nat} (h : Owned t next) (hid : id < next) (values : List β) :
    Owned (t.insertAll id values) next := by
  induction values generalizing t with
  | nil => exact h
  | cons value values ih =>
    refine ih fun r hr => ?_
    rcases mem_append.1 hr with hr | hr
    · exact h r hr
    · rw [mem_singleton.1 hr]
      exact hid

end Table

end Osxie
