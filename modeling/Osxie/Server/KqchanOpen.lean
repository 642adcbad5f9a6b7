import Osxie.Server.Kqchan

/-!
# Opening channels

`kqchan_mach_port_open` and `kqchan_proc_open` make a channel, set it up and register it with the process, whether or not the
setup throws. The setup of a Mach port channel takes a reference to the duct-taped task in `dtape_kqchan_mach_port_create`,
which is not given back when the port is not found.
-/

namespace Osxie.Server

/-- The channels of a process, by their objects, and the reference count of its task. -/
structure ProcessKqchans where
  kqchannels : List Nat
  taskReferences : Nat
deriving DecidableEq

/-- How a setup ends: there is no memory for the duct-taped channel, the port or the process is not found, the sockets or their
monitor fail with an error, or it succeeds. -/
inductive KqchanSetup where
  | noMemory
  | notFound
  | noSocket (errno : Nat)
  | succeeds
deriving DecidableEq

namespace ProcessKqchans

/-- `ESRCH`, which every exception that is not a `std::system_error` is reported as too. -/
def esrch : Nat := 3

variable (s : ProcessKqchans)

/-- `Kqchan::MachPort::setup` and `Kqchan::Process::setup`: the error that is thrown, or 0. -/
def setup : KqchanKind → KqchanSetup → Nat × ProcessKqchans
  | _, .noMemory => (esrch, s)
  | .machPort, .notFound => (esrch, { s with taskReferences := s.taskReferences + 1 })
  | .machPort, .noSocket errno => (errno, { s with taskReferences := s.taskReferences + 1 })
  | .machPort, .succeeds => (0, { s with taskReferences := s.taskReferences + 1 })
  | .process, .notFound => (esrch, s)
  | .process, .noSocket errno => (errno, s)
  | .process, .succeeds => (0, s)

def registerKqchan (object : Nat) : ProcessKqchans :=
  { s with kqchannels := s.kqchannels.insert object }

/-- `KqchanMachPortOpen::processCall` and `KqchanProcOpen::processCall`, with the code of the reply. -/
def processCall (kind : KqchanKind) (thread process : Bool) (ending : KqchanSetup) (object : Nat) :
    Int × ProcessKqchans :=
  if thread && process then
    let (errno, s) := s.setup kind ending
    (-(errno : Int), s.registerKqchan object)
  else (-(esrch : Int), s)

variable {s : ProcessKqchans} {kind : KqchanKind} {thread process : Bool} {ending : KqchanSetup} {object : Nat}

/-- A call leaves no trace, however the setup ends, exactly when the thread or its process is gone. -/
theorem unchanged_iff_gone (hnew : object ∉ s.kqchannels) :
    (s.processCall kind thread process ending object).2 = s ↔ thread = false ∨ process = false := by
  rw [← Bool.and_eq_false_iff]
  cases hgo : thread && process with
  | false => simp [processCall, hgo]
  | true =>
    have hmem : object ∈ (s.processCall kind thread process ending object).2.kqchannels := by
      simp [processCall, hgo, registerKqchan]
    refine iff_of_false (fun h => hnew ?_) (by decide)
    rwa [h] at hmem

/-- A call for a process that is gone. -/
theorem unchanged_of_gone : let s : ProcessKqchans := ⟨[1], 5⟩
    (s.processCall .machPort true false .succeeds 2).1 ≠ 0 ∧ (s.processCall .machPort true false .succeeds 2).2 = s :=
  ⟨by decide, (unchanged_iff_gone (by decide)).2 (.inr rfl)⟩

/-- An unknown port leaves a channel in the table, and a reference to the task. -/
theorem changed_of_notFound : (processCall ⟨[1], 5⟩ .machPort true true .notFound 2) = (-3, ⟨[2, 1], 6⟩) := by
  decide

end ProcessKqchans

end Osxie.Server
