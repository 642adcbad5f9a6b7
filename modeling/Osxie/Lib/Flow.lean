/-!
# Copying from one end to the other

A program reads what a source supplies, a piece at a time, and writes it to another end. Nothing is lost as long as what was
written, the piece that is held and what is still waiting are together what was supplied.
-/

namespace Osxie

/-- What goes from a source to another end. -/
structure Flow (α : Type) where
  /-- Everything the source has supplied so far. -/
  supplied : List α
  waiting : List α
  /-- What the other end has accepted. -/
  written : List α
deriving DecidableEq

namespace Flow

variable {α : Type}

def new : Flow α := ⟨[], [], []⟩

variable (f : Flow α)

def supply (piece : List α) : Flow α := { f with supplied := f.supplied ++ piece, waiting := f.waiting ++ piece }

def read (n : Nat) : Flow α := { f with waiting := f.waiting.drop n }

def write (piece : List α) : Flow α := { f with written := f.written ++ piece }

/-- Nothing is lost while the program holds a piece. -/
def Intact (held : List α) : Prop := f.written ++ held ++ f.waiting = f.supplied

namespace Intact

variable {f : Flow α} {held : List α}

theorem supply (h : f.Intact held) (piece : List α) : (f.supply piece).Intact held := by
  show f.written ++ held ++ (f.waiting ++ piece) = f.supplied ++ piece
  rw [← List.append_assoc, h]

theorem read (h : f.Intact []) (n : Nat) : (f.read n).Intact (f.waiting.take n) := by
  show f.written ++ f.waiting.take n ++ f.waiting.drop n = f.supplied
  rw [List.append_assoc, List.take_append_drop, ← h, List.append_nil]

/-- The whole piece is written. -/
theorem write (h : f.Intact held) : (f.write held).Intact [] := by
  show f.written ++ held ++ [] ++ f.waiting = f.supplied
  rw [List.append_nil, h]

/-- What was written is the beginning of what was supplied. -/
theorem written_isPrefix (h : f.Intact held) : f.written <+: f.supplied := ⟨held ++ f.waiting, by rw [← List.append_assoc, h]⟩

end Intact

end Flow

end Osxie
