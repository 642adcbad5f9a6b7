import Mathlib.Data.List.Basic

/-!
# Membership of groups

`hasgid` asks `getgroups` for the number of groups, and then for the groups. Nothing leaves the loop when the two answers agree.
-/

namespace Osxie.Carbon

/-- What `getgroups` returns in a round of the loop: the number, or -1 (with `errno` EINVAL or not), and what is then copied. -/
structure Round where
  count : Int
  einval : Bool
  copied : Int

/-- The loop of `hasgid`, none while it goes on. It is left with no groups to look through. -/
def groupsLoop : List Round → Option Bool
  | [] => none
  | r :: rounds => if r.count = -1 ∧ r.einval then groupsLoop rounds else if r.copied ≠ r.count then some false else groupsLoop rounds

/-- `hasgid`, with the rounds so far. -/
def hasgid (egid gid : Nat) (rounds : List Round) : Option Bool := if egid = gid then some true else groupsLoop rounds

/-- `getgroups` reports the same groups each time. -/
def consistent (groups : List Nat) (n : Nat) : List Round := List.replicate n ⟨groups.length, false, groups.length⟩

theorem groupsLoop_consistent (groups : List Nat) (n : Nat) : groupsLoop (consistent groups n) = none := by
  induction n with
  | zero => rfl
  | succ n ih =>
    unfold consistent at ih ⊢
    rw [List.replicate_succ, groupsLoop]
    simpa using ih

/-- The test ends, and is right, exactly when the group is the effective one. -/
theorem hasgid_right_iff (egid gid : Nat) (groups : List Nat) :
    (∃ n, hasgid egid gid (consistent groups n) = some (decide (gid = egid ∨ gid ∈ groups))) ↔ egid = gid := by
  constructor
  · rintro ⟨n, h⟩
    by_contra hne
    rw [hasgid, if_neg hne, groupsLoop_consistent] at h
    cases h
  · rintro rfl
    exact ⟨0, by simp [hasgid]⟩

/-- A supplementary group is never found. -/
theorem hasgid_loops : ¬∃ n, (hasgid 20 80 (consistent [20, 80] n)).isSome := by
  rintro ⟨n, h⟩
  rw [hasgid, groupsLoop_consistent] at h
  cases h

end Osxie.Carbon
