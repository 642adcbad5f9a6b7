import Mathlib.Data.List.Infix

/-!
# Paths under the virtual root

The root is cut off a path where its text is a prefix, byte by byte; any other path gets the system root before it.
-/

namespace Osxie.Mldr

open List

def systemRoot : List Char := "/Volumes/SystemRoot".toList

variable (root path out : List Char)

/-- `vchroot_unexpand_interpreter`, none where the buffer is too small. -/
def unexpandInterpreter : Option (List Char) :=
  let unexpanded := if root <+: path then path.drop root.length else systemRoot ++ path
  if unexpanded.length < 4096 then some unexpanded else none

/-- The executable path of `setup_stack`. Its buffer holds the whole path first. -/
def executablePath : Option (List Char) := if path.length < 4096 then unexpandInterpreter root path else none

/-- The path is the directory of the root, or lies below it. -/
def Below : Prop := path = root ∨ root ++ ['/'] <+: path

/-- An absolute path: what is left below the root, or the whole path below the system root. -/
def Translated : Prop :=
  (Below root path ∧ out = path.drop root.length ∨ ¬Below root path ∧ out = systemRoot ++ path) ∧ out.head? = some '/'

/-- A path that begins like the root lies below it, and the result fits the buffer. -/
def Parted : Prop :=
  if root <+: path then root ++ ['/'] <+: path ∧ path.length < root.length + 4096 else systemRoot.length + path.length < 4096

/-- The translation is right exactly for such paths; the two functions agree on all that the first buffer holds. -/
theorem translated_iff_parted : ((∃ out ∈ unexpandInterpreter root path, Translated root path out) ↔ Parted root path) ∧
    (path.length < 4096 → executablePath root path = unexpandInterpreter root path) := by
  refine ⟨?_, fun hlen => if_pos hlen⟩
  unfold unexpandInterpreter Parted
  by_cases hpre : root <+: path
  · obtain ⟨rest, rfl⟩ := hpre
    cases rest with
    | nil =>
      have hno : ¬root ++ ['/'] <+: root := fun h => absurd h.length_le (by rw [length_append]; exact Nat.not_succ_le_self _)
      simp [Translated, hno]
    | cons c rest =>
      have hlt : root.length + (rest.length + 1) < root.length + 4096 ↔ rest.length + 1 < 4096 := by omega
      by_cases hc : c = '/'
      · simp [Translated, Below, prefix_append_right_inj, hc, hlt]
      · simp [Translated, hc, Ne.symm hc]
  · have hno : ¬Below root path := by
      rintro (rfl | h)
      · exact hpre (prefix_refl _)
      · exact hpre ((prefix_append _ _).trans h)
    have habs : (systemRoot ++ path).head? = some '/' := rfl
    simp [hpre, Translated, hno, habs]

/-- Of a directory beside the root the rest of its name is left. -/
theorem sibling_not_translated :
    executablePath "/opt/root".toList "/opt/root2/bin/sh".toList = some "2/bin/sh".toList ∧
      ¬Translated "/opt/root".toList "/opt/root2/bin/sh".toList "2/bin/sh".toList := by
  refine ⟨by decide, fun h => ?_⟩
  exact absurd h.2 (by decide)

end Osxie.Mldr
