/-!
# Programs that can exit

A program changes a state and returns, or the process exits on the way; what it has done until then stays done. `Triple P m Q
E` says that from a state with `P`, `m` returns in a state with `Q` or exits in one with `E`. There is a rule for each way to
put programs together.
-/

namespace Osxie

/-- What a program comes to, and the state then. -/
inductive Outcome (σ α : Type) where
  | returns (value : α) (state : σ)
  | exits (code : Nat) (message : String) (state : σ)
deriving DecidableEq

/-- The state when the program has returned or the process has exited. -/
def Outcome.state {σ α : Type} : Outcome σ α → σ
  | .returns _ state | .exits _ _ state => state

def Prog (σ α : Type) := σ → Outcome σ α

namespace Prog

variable {σ α β : Type}

instance : Monad (Prog σ) where
  pure a := fun s => .returns a s
  bind m f := fun s =>
    match m s with
    | .returns a s => f a s
    | .exits code message s => .exits code message s

def get : Prog σ σ := fun s => .returns s s

def modify (f : σ → σ) : Prog σ Unit := fun s => .returns () (f s)

def exit (code : Nat) (message : String) : Prog σ α := fun s => .exits code message s

/-- The program is run unless there is no need. -/
def unlessDone (done : Bool) (m : Prog σ Unit) : Prog σ Unit := if done then pure () else m

/-- From a state with `P` the program returns in a state with `Q`, or exits in one with `E`. -/
def Triple (P : σ → Prop) (m : Prog σ α) (Q : α → σ → Prop) (E : σ → Prop) : Prop :=
  ∀ s, P s → match m s with
    | .returns a s => Q a s
    | .exits _ _ s => E s

namespace Triple

variable {P P' : σ → Prop} {Q Q' : α → σ → Prop} {E : σ → Prop}

theorem pure {a : α} (h : ∀ s, P s → Q a s) : Triple P (Pure.pure a) Q E := fun s hs => h s hs

theorem exit {code : Nat} {message : String} (h : ∀ s, P s → E s) : Triple P (Prog.exit code message : Prog σ α) Q E :=
  fun s hs => h s hs

theorem modify {f : σ → σ} {Q : Unit → σ → Prop} (h : ∀ s, P s → Q () (f s)) : Triple P (Prog.modify f) Q E := fun s hs => h s hs

variable {m : Prog σ α}

/-- One program after another. -/
theorem bind {R : β → σ → Prop} {f : α → Prog σ β} (hm : Triple P m Q E) (hf : ∀ a, Triple (Q a) (f a) R E) :
    Triple P (m >>= f) R E := by
  intro s hs
  have h := hm s hs
  show match (match m s with | .returns a s => f a s | .exits code message s => .exits code message s) with
    | .returns b s => R b s | .exits _ _ s => E s
  cases hrun : m s with
  | returns a s' =>
    rw [hrun] at h
    exact hf a s' h
  | exits code message s' =>
    rw [hrun] at h
    exact h

/-- A program that looks at the state first. -/
theorem get_bind {f : σ → Prog σ α} (h : ∀ s, P s → Triple (· = s) (f s) Q E) : Triple P (Prog.get >>= f) Q E :=
  fun s hs => h s hs s rfl

theorem unlessDone {done : Bool} {m : Prog σ Unit} (h : Triple P m (fun _ => P) E) :
    Triple P (Prog.unlessDone done m) (fun _ => P) E := by
  cases done with
  | false => exact h
  | true => exact pure fun _ hs => hs

theorem weaken (h : Triple P m Q E) (hP : ∀ s, P' s → P s) (hQ : ∀ a s, Q a s → Q' a s) : Triple P' m Q' E := by
  intro s hs
  have hm := h s (hP s hs)
  cases hrun : m s with
  | returns a s' =>
    rw [hrun] at hm
    exact hQ a s' hm
  | exits code message s' =>
    rw [hrun] at hm
    exact hm

/-- A loop over a list keeps what its body keeps. -/
theorem forM {l : List β} {body : β → Prog σ PUnit} (h : ∀ b ∈ l, Triple P (body b) (fun _ => P) E) :
    Triple P (l.forM body) (fun _ => P) E := by
  induction l with
  | nil => exact pure fun _ hs => hs
  | cons b l ih =>
    exact bind (h b (List.mem_cons_self ..)) fun _ => ih fun c hc => h c (List.mem_cons_of_mem b hc)

/-- What holds when the program returns and when it exits holds then. -/
theorem outcome {s : σ} (h : Triple P m (fun _ => E) E) (hs : P s) : E (m s).state := by
  have hm := h s hs
  cases hrun : m s with
  | returns a s' | exits code message s' =>
    rw [hrun] at hm
    exact hm

end Triple

end Prog

end Osxie
