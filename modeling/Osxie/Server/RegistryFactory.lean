import Osxie.Server.Coherence

/-!
# Factories that throw

`Registry::registerIfAbsent` calls its factory with the lock held, and sets the thread's `_registeringWithLockHeld` around the
call so that the factory can look up other entries. The flag is not reset when the factory throws: `std::system_error` is caught
by the factories, but the constructors of `Process` and `Thread` throw other exceptions too.
-/

namespace Osxie.Server

universe u v w

/-- What a factory does: it looks up entries, and makes an entry or none, or throws. -/
inductive EntryFactory (E : Type u) (ID : Type v) (NSID : Type w) (ε : Type u) where
  | makes (entry : Option E)
  | throws (exception : ε)
  | lookupEntryByID (id : ID) (next : Option E → EntryFactory E ID NSID ε)
  | lookupEntryByNSID (nsid : NSID) (next : Option E → EntryFactory E ID NSID ε)
  | lookupEntryByEternalID (eid : Nat) (next : Option E → EntryFactory E ID NSID ε)

namespace Registry

variable {E ε : Type u} {ID : Type v} {NSID : Type w} [Entry E ID NSID] [DecidableEq E] [DecidableEq ID] [DecidableEq NSID]

/-- The factory runs; its lookups take no lock, as the flag is set. -/
def runFactory (r : Registry E ID NSID) : EntryFactory E ID NSID ε → Except ε (Option E)
  | .makes entry => .ok entry
  | .throws exception => .error exception
  | .lookupEntryByID id next => r.runFactory (next (r.lookupEntryByID id))
  | .lookupEntryByNSID nsid next => r.runFactory (next (r.lookupEntryByNSID nsid))
  | .lookupEntryByEternalID eid next => r.runFactory (next (r.lookupEntryByEternalID eid))

/-- `registerIfAbsent` on a thread with the flag: its result or exception, the registry and the flag afterwards. -/
def registerWithFactory (r : Registry E ID NSID) (registeringWithLockHeld : Bool) (nsid : NSID)
    (entryFactory : EntryFactory E ID NSID ε) : Except ε (Option E) × Registry E ID NSID × Bool :=
  match r.nsmap.lookup nsid with
  | some found => (.ok (some found), r, registeringWithLockHeld)
  | none =>
    match r.runFactory entryFactory with
    | .error exception => (.error exception, r, true)
    | .ok none => (.ok none, r, false)
    | .ok (some entry) => (.ok (some entry), r.store entry, false)

def lookupLocks (registeringWithLockHeld : Bool) : Bool := !registeringWithLockHeld

variable {r : Registry E ID NSID} {flag : Bool} {nsid : NSID} {entryFactory : EntryFactory E ID NSID ε}

/-- A factory that throws nothing is the entry that it makes. -/
theorem registerWithFactory_ok {made : Option E} (h : r.runFactory entryFactory = .ok made) :
    (r.registerWithFactory flag nsid entryFactory).1 = .ok (r.registerIfAbsent nsid made).1 ∧
    (r.registerWithFactory flag nsid entryFactory).2.1 = (r.registerIfAbsent nsid made).2 := by
  unfold registerWithFactory registerIfAbsent
  cases r.nsmap.lookup nsid with
  | some found => exact ⟨rfl, rfl⟩
  | none =>
    rw [h]
    cases made with
    | none | some entry => exact ⟨rfl, rfl⟩

/-- A factory that throws changes nothing exactly when it is not called, or when the flag was left set before. -/
theorem unchanged_iff_of_throws {exception : ε} (h : r.runFactory entryFactory = .error exception) :
    ((r.registerWithFactory flag nsid entryFactory).2 = (r, flag) ∧
      lookupLocks (r.registerWithFactory flag nsid entryFactory).2.2 = lookupLocks flag) ↔
    nsid ∈ r.nsmap ∨ flag = true := by
  unfold registerWithFactory
  cases hlook : r.nsmap.lookup nsid with
  | some found =>
    have hmem : nsid ∈ r.nsmap := AList.lookup_isSome.1 (by rw [hlook]; rfl)
    simp [hmem]
  | none =>
    have hmem : nsid ∉ r.nsmap := AList.lookup_eq_none.1 hlook
    simp [h, hmem, lookupLocks]

/-- The NSID is taken, and the factory is not called. -/
theorem unchanged_of_taken :
    let r := (new fun _ => 0 : Registry KernelThread Int Nat).store ⟨7⟩
    (r.registerWithFactory false 7 (.throws "Failed to parse thread ID")).2 = (r, false) ∧
      lookupLocks (r.registerWithFactory false 7 (.throws "Failed to parse thread ID")).2.2 = true :=
  (unchanged_iff_of_throws rfl).2 (.inl (by decide))

/-- After a factory has looked up another entry and thrown, lookups of the thread take no lock any more. -/
theorem flag_set_of_throws :
    let r : Registry KernelThread Int Nat := new fun _ => 0
    let left := r.registerWithFactory false 7 (.lookupEntryByNSID 6 fun _ => .throws "Failed to parse thread ID")
    left.1.isOk = false ∧ left.2.2 = true ∧ lookupLocks left.2.2 = false := by
  decide

end Registry

end Osxie.Server
