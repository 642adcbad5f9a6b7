import Mathlib.Data.List.Basic
import Mathlib.Logic.Function.Basic

/-!
# Traced calls

xtrace prints the entry and the exit of each call of a thread. The numbers of the calls in progress are on a stack, which has room
for 64. What an exit needs of its entry is kept in one variable of the thread each: the number of a Mach call and the address of
what it returns, the lists of the events of the three kinds of kevent, and the sets of select.
-/

namespace Osxie.Xtrace

open List Function

structure Call where
  mach : Bool
  nr : Nat
  args : Nat → Nat
  retval : Nat

/-- What a thread calls, in order; `inner` is what signal handlers call while `c` is in progress. -/
inductive Calls
  | done
  | call (c : Call) (inner rest : Calls)

inductive KeventType
  | kevent
  | kevent64
  | keventQos
deriving DecidableEq

/-- What a call keeps for its exit. -/
inductive Kept
  | mach
  | events (type : KeventType)
  | fdsets
deriving DecidableEq

def bsdKept : Nat → Option Kept
  | 93 => some .fdsets
  | 363 => some (.events .kevent)
  | 369 => some (.events .kevent64)
  | 374 => some (.events .keventQos)
  | _ => none

def keptBy (mach : Bool) (nr : Nat) : Option Kept := if mach then some .mach else bsdKept nr

def Call.keeps (c : Call) : Option Kept := keptBy c.mach c.nr

/-- Some of the calls keep something in a variable. -/
def Calls.keep (x : Kept) : Calls → Bool
  | .done => false
  | .call c inner rest => decide (c.keeps = some x) || inner.keep x || rest.keep x

def isMsg (nr : Nat) : Bool := nr ∈ [31, 32]

/-- The Mach calls whose result is printed from where they have stored it. -/
def storesResult (nr : Nat) : Bool := nr ∈ [16, 44, 45, 46, 89]

/-- The address that the entry of a Mach call keeps. -/
def Call.argument (c : Call) : Option Nat :=
  match c.nr with
  | 16 | 44 | 45 => some (c.args 2)
  | 46 => some (c.args 1)
  | 89 => some (c.args 0)
  | 31 => if c.args 1 &&& 2 = 0 then none else some (c.args 0)
  | 32 => if c.args 1 &&& 2 = 0 then none else some (if c.args 7 = 0 then c.args 0 else c.args 7)
  | _ => none

/-- `select_fdsets`. -/
structure FdSets where
  readfds : Nat
  writefds : Nat
  exceptfds : Nat
  maxFd : Int

def Call.fdsets (c : Call) : FdSets := ⟨c.args 1, c.args 2, c.args 3, c.args 0⟩

structure Tracer where
  nrs : List Nat
  machCallNr : Option Nat
  argumentPtr : Nat
  storedList : KeventType → Nat
  storedSelectFdsets : FdSets

/-- What is printed at an exit from memory: a result, a message, so many events, or sets of descriptors. Nothing is at address 0. -/
inductive Decoded
  | result (address : Nat)
  | message (address : Nat)
  | events (type : KeventType) (list : Nat) (count : Int)
  | fdsets (sets : FdSets)

/-- What is printed at an exit besides the value. -/
structure Exit where
  nr : Nat
  printed : List Decoded

/-- A value as an int. -/
def int (retval : Nat) : Int := (BitVec.ofNat 32 retval).toInt

namespace Tracer

/-- What the entry of a call keeps. -/
def enter (s : Tracer) (c : Call) : Option Kept → Tracer
  | some .mach => { s with machCallNr := some c.nr, argumentPtr := c.argument.getD s.argumentPtr }
  | some (.events type) => { s with storedList := update s.storedList type (c.args 3) }
  | some .fdsets => { s with storedSelectFdsets := c.fdsets }
  | none => s

/-- The exit of a Mach call with this number on the stack. -/
def machExit (s : Tracer) (nr retval : Nat) : List Decoded × Tracer :=
  let printed := if storesResult nr ∧ retval = 0 then [.result s.argumentPtr] else []
  let ptr := if storesResult nr then 0 else s.argumentPtr
  if retval = 0 ∧ s.machCallNr.any isMsg then (printed ++ [.message ptr], { s with machCallNr := none, argumentPtr := 0 })
  else (printed, { s with machCallNr := none, argumentPtr := ptr })

/-- What the exit of a call with this number prints of what is kept. -/
def leave (s : Tracer) (nr retval : Nat) : Option Kept → List Decoded × Tracer
  | some .mach => s.machExit nr retval
  | some (.events type) =>
    (if 0 < int retval then [.events type (s.storedList type) (int retval)] else [],
      { s with storedList := update s.storedList type 0 })
  | some .fdsets =>
    (if 0 ≤ int retval then [.fdsets s.storedSelectFdsets] else [], { s with storedSelectFdsets := ⟨0, 0, 0, -1⟩ })
  | none => ([], s)

end Tracer

/-- What a call has returned in memory is printed: what a Mach call that succeeded has stored, or received, the events of kevent,
and the sets of select. Nothing is printed for other calls. -/
def Exit.Decodes (e : Exit) (c : Call) : Prop :=
  match c.keeps with
  | some .mach => c.retval = 0 → ∀ address ∈ c.argument, e.printed = [if isMsg c.nr then .message address else .result address]
  | some (.events type) => e.printed = if 0 < int c.retval then [.events type (c.args 3) (int c.retval)] else []
  | some .fdsets => e.printed = if 0 ≤ int c.retval then [.fdsets c.fdsets] else []
  | none => e.printed = []

/-- Nothing that is called during a call keeps anything where it does. -/
def Calls.Spare (inner : Calls) (c : Call) : Prop := ∀ x ∈ c.keeps, inner.keep x = false

namespace Tracer

/-- A variable has the same value. -/
def Same (x : Kept) (s s' : Tracer) : Prop :=
  match x with
  | .mach => s.machCallNr = s'.machCallNr ∧ s.argumentPtr = s'.argumentPtr
  | .events type => s.storedList type = s'.storedList type
  | .fdsets => s.storedSelectFdsets = s'.storedSelectFdsets

variable (s : Tracer) {x : Kept}

theorem Same.refl (x : Kept) (s : Tracer) : Same x s s := by
  cases x with
  | mach => exact ⟨rfl, rfl⟩
  | _ => exact rfl

theorem Same.trans {s s' s'' : Tracer} (h : Same x s s') (h' : Same x s' s'') : Same x s s'' := by
  cases x with
  | mach => exact ⟨h.1.trans h'.1, h.2.trans h'.2⟩
  | _ => exact Eq.trans h h'

/-- A signal handler asks for the reply port while a message is received. -/
def interrupted : Calls :=
  .call ⟨true, 31, fun i => if i = 0 then 4096 else 2, 0⟩ (.call ⟨true, 26, fun _ => 0, 7⟩ .done .done) .done

/-- A new thread. -/
def start : Tracer := ⟨[], none, 0, fun _ => 0, ⟨0, 0, 0, -1⟩⟩

end Tracer

end Osxie.Xtrace
