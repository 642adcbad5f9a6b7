import Mathlib.Data.List.Dedup
import Mathlib.Data.List.Perm.Subperm
import Osxie.Lib.Table

/-!
# Thread-local variables of xtrace

A thread has a table of its variables: key, storage and destructor. `xtrace_tls_thread_cleanup` gives each destructor the address
of the table's second row and not the storage.
-/

namespace Osxie.Xtrace

open List

structure Variable where
  key : Nat
  destructor : Option Nat

/-- The table of a thread. The number of a row is its storage, and `next` is what `xtrace_malloc` returns next. -/
abbrev TlsTable := Table Variable

/-- What a destructor may be given. -/
inductive Argument
  | storage (address : Nat)
  | row (index : Nat)
deriving DecidableEq

inductive Event
  | destroy (destructor : Nat) (argument : Argument)
  | free (address : Nat)
deriving DecidableEq

/-- `xtrace_tls`: the storage, or `none` if there are too many variables and it aborts. -/
def xtraceTls (t : TlsTable) (v : Variable) : Option (Nat × TlsTable) :=
  match t.rows.find? (·.2.key = v.key) with
  | some r => some (r.1, t)
  | none => if 32 ≤ t.rows.length then none else some (t.next, t.insert v)

/-- Lookups in order, with what each returns. -/
def lookups (t : TlsTable) : List Variable → Option (List (Nat × Nat) × TlsTable)
  | [] => some ([], t)
  | v :: vs => (xtraceTls t v).bind fun r => (lookups r.2 vs).map fun rs => ((v.key, r.1) :: rs.1, rs.2)

def xtraceTlsThreadCleanup (t : TlsTable) : List Event :=
  t.rows.flatMap fun r => (r.2.destructor.map (.destroy · (.row 1))).toList ++ [.free r.1]

variable {keys : List Nat} {t : TlsTable}

/-- A table whose keys are distinct and among the given ones. -/
structure Holds (keys : List Nat) (t : TlsTable) : Prop where
  keyed : t.Keyed Variable.key
  among : ∀ r ∈ t.rows, r.2.key ∈ keys

/-- A lookup among at most 32 keys finds the row of its key, or adds it. -/
theorem xtraceTls_spec (hkeys : keys.length ≤ 32) {v : Variable} (hv : v.key ∈ keys) (h : Holds keys t) :
    ∃ a t', xtraceTls t v = some (a, t') ∧ Holds keys t' ∧ t.rows ⊆ t'.rows ∧ ∃ r ∈ t'.rows, r.1 = a ∧ r.2.key = v.key := by
  unfold xtraceTls
  split
  · rename_i r hr
    exact ⟨r.1, t, rfl, h, Subset.refl _, r, mem_of_find?_eq_some hr, rfl, by simpa using find?_some hr⟩
  · rename_i hnone
    have hnew : ∀ r ∈ t.rows, r.2.key ≠ v.key := by simpa using hnone
    have hnodup : (v.key :: t.rows.map (·.2.key)).Nodup :=
      nodup_cons.mpr ⟨by simpa using hnew, (Nodup.of_map _ t.distinct).map_on h.keyed⟩
    have hsub : v.key :: t.rows.map (·.2.key) ⊆ keys := by
      rintro k (_ | ⟨_, hk⟩)
      · exact hv
      · obtain ⟨r, hr, rfl⟩ := mem_map.mp hk
        exact h.among r hr
    have hle := (subperm_of_subset hnodup hsub).length_le
    rw [length_cons, length_map] at hle
    rw [if_neg (by omega)]
    have hamong : ∀ r ∈ (t.insert v).rows, r.2.key ∈ keys := Table.forall_insert (P := fun u : Variable => u.key ∈ keys) h.among hv
    exact ⟨_, _, rfl, ⟨h.keyed.insert hnew, hamong⟩, subset_append_left _ _, _, mem_append_right _ mem_cons_self, rfl, rfl⟩

theorem lookups_spec (hkeys : keys.length ≤ 32) {vs : List Variable} (hvs : ∀ v ∈ vs, v.key ∈ keys) (h : Holds keys t) :
    ∃ returned t', lookups t vs = some (returned, t') ∧ Holds keys t' ∧ t.rows ⊆ t'.rows ∧
      ∀ x ∈ returned, ∃ r ∈ t'.rows, r.1 = x.2 ∧ r.2.key = x.1 := by
  induction vs generalizing t with
  | nil => exact ⟨[], t, rfl, h, Subset.refl _, by simp⟩
  | cons v vs ih =>
    obtain ⟨hv, hvs⟩ := forall_mem_cons.mp hvs
    obtain ⟨a, t₁, h₁, hh₁, hsub₁, r, hr, hra, hrk⟩ := xtraceTls_spec hkeys hv h
    obtain ⟨returned, t₂, h₂, hh₂, hsub₂, hret⟩ := ih hvs hh₁
    refine ⟨(v.key, a) :: returned, t₂, by simp [lookups, h₁, h₂], hh₂, fun _ hr => hsub₂ (hsub₁ hr), ?_⟩
    exact forall_mem_cons.mpr ⟨⟨r, hsub₂ hr, hra, hrk⟩, hret⟩

theorem count_free (t : TlsTable) (a : Nat) : (xtraceTlsThreadCleanup t).count (.free a) = (t.rows.map Prod.fst).count a := by
  unfold xtraceTlsThreadCleanup
  induction t.rows with
  | nil => rfl
  | cons r rows ih => cases h : r.2.destructor <;> simp [h, ih, count_cons]

/-- The first lookup of its key, whose destructor is the registered one. -/
def First (vars : List Variable) (v : Variable) : Prop := vars.find? (·.key = v.key) = some v

/-- In every sequence of lookups with at most 32 keys, keys and storage correspond and each storage is freed once; but no
destructor is given the storage of its key, so that cleanup is right only where no first lookup of a key gives one. -/
theorem destructors_right_iff {vars : List Variable} (hfew : (vars.map Variable.key).dedup.length ≤ 32) :
    ∃ returned t, lookups .empty vars = some (returned, t) ∧
      (∀ x ∈ returned, (∀ y ∈ returned, x.1 = y.1 ↔ x.2 = y.2) ∧ (xtraceTlsThreadCleanup t).count (.free x.2) = 1) ∧
      ((∀ v, First vars v → ∀ d ∈ v.destructor,
          ∃ a, (v.key, a) ∈ returned ∧ (xtraceTlsThreadCleanup t).count (.destroy d (.storage a)) = 1) ↔
        ∀ v, First vars v → v.destructor = none) := by
  have hempty : Holds (vars.map Variable.key).dedup .empty := ⟨nofun, nofun⟩
  obtain ⟨returned, t, h, hh, -, hret⟩ := lookups_spec hfew (fun v hv => mem_dedup.mpr (mem_map_of_mem hv)) hempty
  refine ⟨returned, t, h, ?_, ?_⟩
  · intro x hx
    obtain ⟨r, hr, hrx, hrk⟩ := hret x hx
    rw [← hrx, ← hrk, count_free]
    refine ⟨fun y hy => ?_, count_eq_one_of_mem t.distinct (mem_map_of_mem hr)⟩
    obtain ⟨r', hr', hrx', hrk'⟩ := hret y hy
    rw [← hrx', ← hrk']
    exact ⟨fun he => congrArg Prod.fst (hh.keyed r hr r' hr' he), fun he => congrArg (·.2.key) (t.eq_of_id_eq hr hr' he)⟩
  · have hnot : ∀ d a, (xtraceTlsThreadCleanup t).count (.destroy d (.storage a)) = 0 := by
      simp [count_eq_zero, xtraceTlsThreadCleanup]
    simp [hnot, Option.eq_none_iff_forall_not_mem]

/-- Of three lookups, two are of one key, and only the second of these gives a destructor. -/
theorem destructors_right_iff_late : ∃ returned t, lookups .empty [⟨1, none⟩, ⟨2, none⟩, ⟨1, some 7⟩] = some (returned, t) ∧
    ∀ v, First [⟨1, none⟩, ⟨2, none⟩, ⟨1, some 7⟩] v → ∀ d ∈ v.destructor,
      ∃ a, (v.key, a) ∈ returned ∧ (xtraceTlsThreadCleanup t).count (.destroy d (.storage a)) = 1 := by
  have hfew : ([⟨1, none⟩, ⟨2, none⟩, ⟨1, some 7⟩].map Variable.key).dedup.length ≤ 32 := by decide
  obtain ⟨returned, t, h, -, hiff⟩ := destructors_right_iff hfew
  refine ⟨returned, t, h, hiff.2 fun v hv => ?_⟩
  simp only [First, find?_cons, find?_nil] at hv
  grind

/-- Two destructors, and both are given the second row. -/
theorem destructor_given_row : (lookups .empty [⟨1, some 7⟩, ⟨2, some 8⟩]).map (xtraceTlsThreadCleanup ·.2) =
    some [.destroy 7 (.row 1), .free 1, .destroy 8 (.row 1), .free 2] := by decide

end Osxie.Xtrace
