import Mathlib.Data.List.AList
import Osxie.Lib.Machine

/-!
# The registries of processes and threads

A `Registry` finds an entry by its ID, by its NSID and by the eternal ID that registering it sets: three maps that are meant to
hold the same entries. The ID and the NSID of an entry never change.

Registering stores an entry under its three keys and overwrites whatever was there in each map separately.
-/

namespace Osxie.Server

universe u v w

class Entry (E : Type u) (ID : outParam (Type v)) (NSID : outParam (Type w)) where
  id : E → ID
  nsid : E → NSID

/-- A registry. `eid` is the eternal ID field of every entry object, registered or not. -/
structure Registry (E : Type u) (ID : Type v) (NSID : Type w) where
  map : AList (fun _ : ID => E)
  nsmap : AList (fun _ : NSID => E)
  emap : AList (fun _ : Nat => E)
  eternalCounter : Nat
  eid : E → Nat

namespace Registry

variable {E : Type u} {ID : Type v} {NSID : Type w} [Entry E ID NSID] [DecidableEq E] [DecidableEq ID] [DecidableEq NSID]

/-- A new registry; the eternal ID of an entry that was never registered is not set. -/
def new (eid : E → Nat) : Registry E ID NSID := ⟨∅, ∅, ∅, 0, eid⟩

variable (r : Registry E ID NSID) (nsid : NSID) (entry : E) (id : ID)

/-- What both ways of registering do in the end: give the entry the next eternal ID and store it under its three keys. -/
def store : Registry E ID NSID where
  map := r.map.insert (Entry.id entry) entry
  nsmap := r.nsmap.insert (Entry.nsid entry) entry
  emap := r.emap.insert r.eternalCounter entry
  eternalCounter := (r.eternalCounter + 1) % 2 ^ 64
  eid := Function.update r.eid entry r.eternalCounter

/-- Registers the entry that the factory makes, unless the NSID is taken; the factory may make none. -/
def registerIfAbsent (entryFactory : Option E) : Option E × Registry E ID NSID :=
  match r.nsmap.lookup nsid with
  | some found => (some found, r)
  | none =>
    match entryFactory with
    | none => (none, r)
    | some entry => (some entry, r.store entry)

/-- Registers an entry; without `replace`, only if its ID and its NSID are free. -/
def registerEntry (replace : Bool) : Bool × Registry E ID NSID :=
  if replace = false ∧ (Entry.id entry ∈ r.map ∨ Entry.nsid entry ∈ r.nsmap) then (false, r)
  else (true, r.store entry)

/-- Takes one key out of each map. -/
def remove (nsid : NSID) (eid : Nat) : Registry E ID NSID :=
  { r with map := r.map.erase id, nsmap := r.nsmap.erase nsid, emap := r.emap.erase eid }

def unregisterEntryByID : Bool × Registry E ID NSID :=
  match r.map.lookup id with
  | none => (false, r)
  | some entry =>
    if Entry.nsid entry ∉ r.nsmap then (false, r)
    else if r.eid entry ∉ r.emap then (false, r)
    else (true, r.remove id (Entry.nsid entry) (r.eid entry))

def unregisterEntryByNSID : Bool × Registry E ID NSID :=
  match r.nsmap.lookup nsid with
  | none => (false, r)
  | some entry =>
    if Entry.id entry ∉ r.map then (false, r)
    else if r.eid entry ∉ r.emap then (false, r)
    else (true, r.remove (Entry.id entry) nsid (r.eid entry))

def unregistryEntryByEternalID (eid : Nat) : Bool × Registry E ID NSID :=
  match r.emap.lookup eid with
  | none => (false, r)
  | some entry =>
    if Entry.nsid entry ∉ r.nsmap then (false, r)
    else if Entry.id entry ∉ r.map then (false, r)
    else (true, r.remove (Entry.id entry) (Entry.nsid entry) eid)

/-- Unregisters the given entry, if it is the one stored under each of its keys. -/
def unregisterEntry : Bool × Registry E ID NSID :=
  match r.map.lookup (Entry.id entry), r.nsmap.lookup (Entry.nsid entry), r.emap.lookup (r.eid entry) with
  | some e1, some e2, some e3 =>
    if e1 ≠ entry ∨ e2 ≠ entry ∨ e3 ≠ entry then (false, r)
    else (true, r.remove (Entry.id entry) (Entry.nsid entry) (r.eid entry))
  | _, _, _ => (false, r)

def lookupEntryByID : Option E := r.map.lookup id

def lookupEntryByNSID : Option E := r.nsmap.lookup nsid

def lookupEntryByEternalID (eid : Nat) : Option E := r.emap.lookup eid

def copyEntries : List E := r.emap.entries.map Sigma.snd

def size : Nat := r.map.entries.length

inductive Op (E : Type u) (ID : Type v) (NSID : Type w) where
  | registerIfAbsent (nsid : NSID) (entryFactory : Option E)
  | registerEntry (entry : E) (replace : Bool)
  | unregisterEntryByID (id : ID)
  | unregisterEntryByNSID (nsid : NSID)
  | unregistryEntryByEternalID (eid : Nat)
  | unregisterEntry (entry : E)

def apply : Op E ID NSID → Registry E ID NSID
  | .registerIfAbsent nsid entryFactory => (r.registerIfAbsent nsid entryFactory).2
  | .registerEntry entry replace => (r.registerEntry entry replace).2
  | .unregisterEntryByID id => (r.unregisterEntryByID id).2
  | .unregisterEntryByNSID nsid => (r.unregisterEntryByNSID nsid).2
  | .unregistryEntryByEternalID eid => (r.unregistryEntryByEternalID eid).2
  | .unregisterEntry entry => (r.unregisterEntry entry).2

/-- A registry under a sequence of operations. -/
def machine (eid : E → Nat) : Machine (Registry E ID NSID) (Op E ID NSID) where
  init := new eid
  step r op := some (r.apply op)

/-! ## Coherence -/

/-- The three maps hold the same entries, each under its own keys. -/
structure Coherent (r : Registry E ID NSID) : Prop where
  map_own : ∀ {i : ID} {e : E}, r.map.lookup i = some e → Entry.id e = i
  nsmap_own : ∀ {n : NSID} {e : E}, r.nsmap.lookup n = some e → Entry.nsid e = n
  emap_own : ∀ {k : Nat} {e : E}, r.emap.lookup k = some e → r.eid e = k
  nsmap_of_map : ∀ {e : E}, r.map.lookup (Entry.id e) = some e → r.nsmap.lookup (Entry.nsid e) = some e
  emap_of_nsmap : ∀ {e : E}, r.nsmap.lookup (Entry.nsid e) = some e → r.emap.lookup (r.eid e) = some e
  map_of_emap : ∀ {e : E}, r.emap.lookup (r.eid e) = some e → r.map.lookup (Entry.id e) = some e

def Registered (e : E) : Prop :=
  (∃ i, r.lookupEntryByID i = some e) ∨ (∃ n, r.lookupEntryByNSID n = some e) ∨ ∃ k, r.lookupEntryByEternalID k = some e

/-- What a registry promises its users: the maps are coherent, every entry a lookup returns can be unregistered and is then
returned by no lookup, and the size is the number of entries copied out. -/
structure Sound (r : Registry E ID NSID) : Prop where
  coherent : r.Coherent
  unregister : ∀ e, r.Registered e → (r.unregisterEntry e).1 = true ∧ ¬(r.unregisterEntry e).2.Registered e
  size_eq : r.size = r.copyEntries.length

def Free (e : E) : Prop := Entry.id e ∉ r.map ∧ Entry.nsid e ∉ r.nsmap ∧ r.eternalCounter ∉ r.emap

instance (e : E) : Decidable (r.Free e) := inferInstanceAs (Decidable (_ ∧ _ ∧ _))

/-- An operation that registers nothing, or registers an entry whose keys are free. -/
def FreeOp : Op E ID NSID → Prop
  | .registerIfAbsent nsid entryFactory => nsid ∈ r.nsmap ∨ ∀ e, entryFactory = some e → r.Free e
  | .registerEntry e replace => replace = false ∧ (Entry.id e ∈ r.map ∨ Entry.nsid e ∈ r.nsmap) ∨ r.Free e
  | _ => True

end Registry

end Osxie.Server
