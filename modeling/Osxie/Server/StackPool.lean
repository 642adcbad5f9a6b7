import Osxie.Lib.Machine
import Mathlib.Data.List.Nodup

/-!
# The pool of microthread stacks

`StackPool::allocate` hands out an idle stack, or maps a new one when the pool is empty; `StackPool::free` takes a stack back,
and unmaps it when the pool has enough. Both hold `_mutex`, so each is one step. `mmap` returns memory that is not mapped, or
fails; `munmap` unmaps the stack, or fails. A stack is named by its base: there is one size for all of them, and guard pages are
part of their stack.
-/

namespace Osxie.Server

open List Prod

/-- The pool with its idle stacks, the last of `_stacks` first, the stacks that owners have, and what is mapped. -/
structure StackPool (ω α : Type) where
  idleStackCount : Nat
  idleStacks : List α
  leased : List (ω × α) := []
  mapped : List α
deriving DecidableEq

inductive StackPoolAction (ω α : Type) where
  /-- an owner gets a stack; `mmap` returns `fresh` or fails -/
  | allocate (owner : ω) (fresh : Option α)
  /-- an owner gives a stack back; `munmap` succeeds or fails -/
  | free (owner : ω) (base : α) (unmaps : Bool)
deriving DecidableEq

namespace StackPool

variable {ω α : Type} [DecidableEq ω] [DecidableEq α]

/-- The constructor, which maps `idleStackCount` stacks. -/
def init (idleStacks : List α) : StackPool ω α where
  idleStackCount := idleStacks.length
  idleStacks := idleStacks
  mapped := idleStacks

variable (s : StackPool ω α)

def allocate (owner : ω) (fresh : Option α) : Option (StackPool ω α) :=
  match s.idleStacks, fresh with
  | base :: idleStacks, _ => some { s with idleStacks := idleStacks, leased := (owner, base) :: s.leased }
  | [], some base =>
    if base ∉ s.mapped then some { s with leased := (owner, base) :: s.leased, mapped := base :: s.mapped } else none
  | [], none => some s

/-- `StackPool::free`. When `munmap` fails the owner still has its stack. -/
def free (owner : ω) (base : α) (unmaps : Bool) : StackPool ω α :=
  let leased := s.leased.erase (owner, base)
  if s.idleStackCount < s.idleStacks.length then
    if unmaps then { s with leased := leased, mapped := s.mapped.filter (· ≠ base) } else s
  else { s with idleStacks := base :: s.idleStacks, leased := leased }

/-- One step; owners free what they were given. -/
def step : StackPoolAction ω α → Option (StackPool ω α)
  | .allocate owner fresh => s.allocate owner fresh
  | .free owner base unmaps => if (owner, base) ∈ s.leased then some (s.free owner base unmaps) else none

def machine (idleStacks : List α) : Machine (StackPool ω α) (StackPoolAction ω α) := ⟨init idleStacks, step⟩

/-- A mapped stack has one owner and is not idle, or it is idle once and has none; one that is not mapped is neither. -/
def Owned : Prop :=
  ∀ base, (s.leased.map snd).count base + s.idleStacks.count base = if base ∈ s.mapped then 1 else 0

/-- A stack that is given back finds fewer than `idleStackCount` idle ones. -/
def FindsRoom : StackPoolAction ω α → Prop
  | .allocate .. => True
  | .free .. => s.idleStacks.length < s.idleStackCount

instance : DecidablePred s.FindsRoom
  | .allocate .. => instDecidableTrue
  | .free .. => Nat.decLt ..

variable {s s' : StackPool ω α} {owner : ω} {base : α} {idleStacks : List α}

/-! ## Ownership -/

/-- A lease that ends is one lease of the stack less. -/
theorem count_erase_leased (h : (owner, base) ∈ s.leased) (x : α) :
    (s.leased.map snd).count x = ((s.leased.erase (owner, base)).map snd).count x + if base = x then 1 else 0 := by
  rw [((perm_cons_erase h).map snd).count_eq, map_cons, count_cons]
  simp

omit [DecidableEq ω] in
theorem Owned.allocate (h : s.Owned) {fresh : Option α} (hs : s.allocate owner fresh = some s') : s'.Owned := by
  unfold StackPool.allocate at hs
  split at hs
  · -- an idle stack gets an owner
    rename_i base _ _ hid
    cases hs
    intro x
    rw [← h x, hid]
    simp only [map_cons, count_cons]
    omega
  · rename_i base hid
    obtain ⟨hfresh, rfl⟩ := of_guarded hs
    intro x
    have hx := h x
    by_cases he : base = x
    · subst he
      rw [if_neg hfresh] at hx
      simp
      omega
    · simpa [he, Ne.symm he] using hx
  · cases hs
    exact h

theorem Owned.free (h : s.Owned) (hl : (owner, base) ∈ s.leased) (unmaps : Bool) : (s.free owner base unmaps).Owned := by
  have hx (x : α) := (congrArg (· + s.idleStacks.count x) (count_erase_leased hl x)).symm.trans (h x)
  unfold StackPool.free
  split
  · split
    · intro x
      have hx := hx x
      by_cases he : base = x
      · -- the lease was the only one, and nothing is left of the stack
        subst he
        rw [if_pos rfl] at hx
        simp
        split at hx <;> omega
      · simpa [he, Ne.symm he] using hx
    · exact h
  · intro x
    rw [← hx x]
    simp only [count_cons, beq_iff_eq]
    omega

theorem owned_of_reaches (hn : idleStacks.Nodup) {ok : StackPool ω α → StackPoolAction ω α → Prop}
    (h : (machine idleStacks).Reaches ok s) : s.Owned := by
  refine h.invariant ?_ fun {_ a _} hinv _ hs => ?_
  · intro x
    by_cases hx : x ∈ idleStacks
    · simp [machine, init, hx, count_eq_one_of_mem hn hx]
    · simp [machine, init, hx, count_eq_zero_of_not_mem]
  · cases a with
    | allocate owner fresh => exact hinv.allocate hs
    | free owner base unmaps =>
      obtain ⟨hl, rfl⟩ := of_guarded hs
      exact hinv.free hl unmaps

/-! ## The bound -/

omit [DecidableEq ω] in
theorem length_allocate {fresh : Option α} (hs : s.allocate owner fresh = some s') :
    s'.idleStackCount = s.idleStackCount ∧ s'.idleStacks.length ≤ s.idleStacks.length := by
  unfold StackPool.allocate at hs
  split at hs
  · cases hs
    simp [*]
  · obtain ⟨-, rfl⟩ := of_guarded hs
    simp
  · cases hs
    simp

/-- Stacks have one owner at any time; and the pool holds no more idle stacks than it is to, when every stack given back finds
room. -/
theorem owned_and_bounded (hn : idleStacks.Nodup) (h : (machine idleStacks).Reaches FindsRoom s) :
    s.Owned ∧ s.idleStacks.length ≤ s.idleStackCount := by
  refine ⟨owned_of_reaches hn h, ?_⟩
  refine h.invariant (I := fun s => s.idleStacks.length ≤ s.idleStackCount) le_rfl fun {s a _} hinv hok hs => ?_
  cases a with
  | allocate owner fresh =>
    obtain ⟨hcount, hlen⟩ := length_allocate hs
    omega
  | free owner base unmaps =>
    obtain ⟨-, rfl⟩ := of_guarded hs
    have hrm : s.idleStacks.length < s.idleStackCount := hok
    rw [StackPool.free, if_neg (Nat.not_lt_of_gt hrm)]
    exact hrm

/-- A stack is lent and given back, lent again while another one is mapped, and given back. -/
theorem owned_and_bounded_given_back : ∃ s : StackPool Nat Nat, (machine [7]).Reaches FindsRoom s ∧
    (s.Owned ∧ s.idleStacks.length ≤ s.idleStackCount) ∧ s.idleStacks = [7] ∧ s.leased = [(2, 8)] := by
  refine (Machine.exists_reaches_of_runOk FindsRoom
    [.allocate 0 none, .free 0 7 true, .allocate 1 none, .allocate 2 (some 8), .free 1 7 true] ?_).imp
    fun s h => ⟨h.1, owned_and_bounded (by simp) h.1, h.2⟩
  decide +kernel

/-- Two stacks are lent by a pool for one idle stack, and it keeps both. -/
theorem keeps_one_more : ∃ s : StackPool Nat Nat, (machine [7]).Reachable s ∧ s.idleStackCount < s.idleStacks.length :=
  Machine.exists_reachable_of_run
    [.allocate 0 none, .allocate 1 (some 8), .free 0 7 true, .free 1 8 true] (by decide +kernel)

/-- Whatever its owners do, a stack has one of them at most, and the pool keeps at most one idle stack more than it is to. -/
theorem owned_and_one_more {idle : List α} (hidle : idle.Nodup) {s : StackPool ω α} (h : (machine idle).Reachable s) :
    s.Owned ∧ s.idleStacks.length ≤ idle.length + 1 := by
  refine ⟨owned_of_reaches hidle h, (h.invariant (I := fun s => s.idleStackCount = idle.length ∧
    s.idleStacks.length ≤ idle.length + 1) ⟨rfl, Nat.le_succ _⟩ fun {_ a _} hinv _ hs => ?_).2⟩
  cases a with
  | allocate owner fresh =>
    have := length_allocate hs
    omega
  | free owner base unmaps =>
    obtain ⟨-, rfl⟩ := of_guarded hs
    unfold StackPool.free
    split
    · split <;> exact hinv
    · simp only [length_cons]
      omega

/-- Of three stacks that are lent and given back, a pool for one keeps two. -/
theorem owned_and_one_more_three : ∃ s : StackPool Nat Nat, (machine [7]).Reachable s ∧
    (s.Owned ∧ s.idleStacks.length ≤ 2) ∧ s.idleStacks = [8, 7] := by
  refine (Machine.exists_reachable_of_run [.allocate 0 none, .allocate 1 (some 8), .allocate 2 (some 9), .free 0 7 true,
    .free 1 8 true, .free 2 9 true] ?_).imp fun s h => ⟨h.1, owned_and_one_more (by simp) h.1, h.2⟩
  decide +kernel

end StackPool

end Osxie.Server
