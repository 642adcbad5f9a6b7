import Osxie.Coredump.Convert

/-!
# Extra mappings

`main` goes twice through the `NT_FILE` entries: to count those that no program header starts with, looking for the main
executable on the way, and to add their areas. Both loops end at the first such entry.
-/

namespace Osxie.Coredump.Core

open List

/-- `vm_area_count`, `main_executable_path`, and the entries that were examined. -/
structure Counted where
  vmAreaCount : Nat
  mainExecutablePath : Option Path
  examined : List NtFileEntry

variable (core : Core) (isExecute : Path → Bool)

/-- The search through the program headers. -/
def found (e : NtFileEntry) : Bool := core.programHeaders.any fun h => h.isLoad && e.start = h.pVaddr

/-- The first loop. `isExecute` are the files that can be opened and begin with the header of an `MH_EXECUTE`. -/
def countExtra : List NtFileEntry → Counted → Counted
  | [], c => c
  | e :: entries, c =>
    let isMain := !isDevice e.filename && isExecute e.filename
    let c : Counted :=
      ⟨c.vmAreaCount, c.mainExecutablePath <|> if isMain then some e.filename else none, c.examined ++ [e]⟩
    if core.found e then countExtra entries c else { c with vmAreaCount := c.vmAreaCount + 1 }

/-- The second loop: the areas that it stores. -/
def loadExtra : List NtFileEntry → List VmArea
  | [] => []
  | e :: entries => if core.found e then loadExtra entries else [core.extraArea e]

/-- What is known when the array is allocated. Before, the `PT_LOAD` headers were counted. -/
def counted : Counted := core.countExtra isExecute core.ntFile ⟨core.programHeaders.countP ProgramHeader.isLoad, none, []⟩

/-- Each entry that no program header starts with has one extra area, the array is filled, and all entries are examined. -/
structure MappingsKept : Prop where
  extra : core.loadExtra core.ntFile = (core.ntFile.filter fun e => !core.found e).map core.extraArea
  filled : core.vmAreas.length = (core.counted isExecute).vmAreaCount
  examined : (core.counted isExecute).examined = core.ntFile

variable (entries : List NtFileEntry)

theorem loadExtra_eq :
    core.loadExtra entries = (entries.find? fun e => ¬core.found e).toList.map core.extraArea := by
  induction entries with
  | nil => rfl
  | cons e entries ih => cases he : core.found e <;> simp [loadExtra, he, ih]

/-- The two loops agree. -/
theorem countExtra_vmAreaCount (c : Counted) :
    (core.countExtra isExecute entries c).vmAreaCount = c.vmAreaCount + (core.loadExtra entries).length := by
  induction entries generalizing c with
  | nil => rfl
  | cons e entries ih => cases he : core.found e <;> simp [countExtra, loadExtra, he, ih]

theorem examined_iff (c : Counted) :
    (core.countExtra isExecute entries c).examined = c.examined ++ entries ↔ (entries.dropWhile core.found).length ≤ 1 := by
  induction entries generalizing c with
  | nil => simp [countExtra]
  | cons e entries ih =>
    rw [append_cons]
    cases he : core.found e with
    | false => simp [countExtra, he]
    | true => simpa only [countExtra, he, dropWhile_cons_of_pos, if_true] using ih _

theorem loadExtra_of_dropWhile {entries : List NtFileEntry} (h : (entries.dropWhile core.found).length ≤ 1) :
    core.loadExtra entries = (entries.filter fun e => !core.found e).map core.extraArea := by
  induction entries with
  | nil => rfl
  | cons e entries ih =>
    cases he : core.found e with
    | false =>
      obtain rfl : entries = [] := by simpa [he] using h
      simp [loadExtra, he]
    | true => simpa [loadExtra, he] using ih (by simpa [he] using h)

/-- All mappings are kept, and the main executable is looked for in all entries, just when none follows the first entry that no
program header starts with. The array is filled in any case. -/
theorem mappingsKept_iff : core.MappingsKept isExecute ↔ (core.ntFile.dropWhile core.found).length ≤ 1 := by
  have hexamined := core.examined_iff isExecute core.ntFile ⟨core.programHeaders.countP ProgramHeader.isLoad, none, []⟩
  refine ⟨fun h => hexamined.1 h.examined, fun h => ⟨core.loadExtra_of_dropWhile h, ?_, hexamined.2 h⟩⟩
  rw [counted, countExtra_vmAreaCount, loadExtra_eq, vmAreas, length_append, length_map, countP_eq_length_filter]
  rfl

/-- Of two mappings without program headers one is forgotten. -/
theorem mappingsKept_false :
    ¬MappingsKept ⟨true, [], [], 4096, [⟨4096, 8192, 0, []⟩, ⟨8192, 12288, 1, []⟩], 1⟩ fun _ => false := by
  intro h
  simpa [loadExtra, found] using congrArg length h.extra

end Osxie.Coredump.Core
