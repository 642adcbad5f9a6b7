import Osxie.Shellspawn.Commands

/-!
# Quoting arguments for the shell

The shell reads its command line by the rules of POSIX for quotes, backslashes and blanks; a character outside of quotes that is
none of these is not read here.
-/

namespace Osxie.Shellspawn

open List

/-- The bytes that `spawnShell` allocates. -/
def bufferSize (argv : List CString) : Nat := (argv.map fun arg => (escapeQuotes arg.bytes).length).sum + argv.length * 3

/-- What the shell makes of the next character. -/
inductive Quoting where
  | unquoted
  | quoted
  | escaped

/-- The words of a command line, after a word of which some is read already, if there is one. None where a character outside of
quotes is left to the rest of the shell's grammar, or a quotation does not end. -/
def shellWords : Quoting → Option (List UInt8) → List UInt8 → Option (List (List UInt8))
  | .unquoted, word, [] => some word.toList
  | .quoted, _, [] | .escaped, _, [] => none
  | .unquoted, word, c :: line =>
    if c = quote then shellWords .quoted (some (word.getD [])) line
    else if c = 92 then shellWords .escaped word line
    else if c = blank ∨ c = 9 then (shellWords .unquoted none line).map (word.toList ++ ·)
    else none
  | .quoted, word, c :: line =>
    if c = quote then shellWords .unquoted word line else shellWords .quoted (word.map (· ++ [c])) line
  | .escaped, word, c :: line =>
    if c = 10 then shellWords .unquoted word line else shellWords .unquoted (some (word.getD [] ++ [c])) line

/-- A quotation ends where `spawnShell` ends it. The induction is on the argument; a quote in it leaves the quotation for one
escaped character. -/
theorem shellWords_escapeQuotes (arg word line : List UInt8) :
    shellWords .quoted (some word) (escapeQuotes arg ++ quote :: line) = shellWords .unquoted (some (word ++ arg)) line := by
  induction arg generalizing word with
  | nil => simp [escapeQuotes, shellWords]
  | cons c arg ih =>
    simp only [escapeQuotes, flatMap_cons, append_assoc] at ih ⊢
    by_cases hc : c = quote
    · simp [shellWords, hc, show (92 : UInt8) ≠ quote by decide, show quote ≠ 10 by decide, ih]
    · simp [shellWords, hc, ih]

/-- What is written for the arguments after the first one. -/
def further : List CString → List UInt8
  | [] => []
  | arg :: argv => blank :: quote :: (escapeQuotes arg.bytes ++ quote :: further argv)

theorem foldl_appendArgument {buffer : List UInt8} (h : buffer ≠ []) (argv : List CString) :
    argv.foldl appendArgument buffer = buffer ++ further argv := by
  induction argv generalizing buffer with
  | nil => simp [further]
  | cons arg argv ih =>
    rw [foldl_cons, ih (by simp [appendArgument]), appendArgument, if_neg h]
    simp [further]

theorem length_further (argv : List CString) : (further argv).length = bufferSize argv := by
  induction argv with
  | nil => rfl
  | cons arg argv ih =>
    simp only [further, bufferSize, length_cons, length_append, map_cons, sum_cons] at ih ⊢
    omega

theorem shellWords_further (word : List UInt8) (argv : List CString) :
    shellWords .unquoted (some word) (further argv) = some (word :: argv.map CString.bytes) := by
  induction argv generalizing word with
  | nil => rfl
  | cons arg argv ih =>
    have hblank : blank ≠ quote ∧ blank ≠ 92 := by decide
    simp [further, shellWords, hblank, shellWords_escapeQuotes, ih]

/-- The command line fits exactly into the buffer, with its NUL, and the shell reads it as the arguments. -/
theorem appendArgument_faithful (arg : CString) (argv : List CString) :
    ((arg :: argv).foldl appendArgument []).length + 1 = bufferSize (arg :: argv) ∧
      shellWords .unquoted none ((arg :: argv).foldl appendArgument []) = some ((arg :: argv).map CString.bytes) := by
  have hline : (arg :: argv).foldl appendArgument [] = quote :: (escapeQuotes arg.bytes ++ quote :: further argv) := by
    rw [foldl_cons, foldl_appendArgument (by simp [appendArgument])]
    simp [appendArgument]
  rw [hline]
  constructor
  · exact length_further (arg :: argv)
  · simp [shellWords, shellWords_escapeQuotes, shellWords_further]

end Osxie.Shellspawn
