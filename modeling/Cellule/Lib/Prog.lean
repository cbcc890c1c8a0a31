import Mathlib

/-!
# Programs over operations

A program ends with a result or performs one operation and continues with its answer. The operations
are only named: a semantics is a relation between the state before, the answer and the state after.
Code that can fail is a program in `ExceptT`, so that its `do` block reads as the source's `?`.
-/

/-- A program that performs operations `o : Op`, each answered by a `Ret o`, and ends with an
`α`. -/
inductive Prog (Op : Type) (Ret : Op → Type) (α : Type) where
  | done (a : α)
  | call (o : Op) (k : Ret o → Prog Op Ret α)

namespace Prog

variable {Op : Type} {Ret : Op → Type} {α β ε : Type}

/-- Sequencing: the second program continues from the first one's result. -/
def bind : Prog Op Ret α → (α → Prog Op Ret β) → Prog Op Ret β
  | .done a, f => f a
  | .call o k, f => .call o fun r => (k r).bind f

instance : Monad (Prog Op Ret) where
  pure := .done
  bind := bind

/-- The program that performs one operation and returns its answer. -/
def op (o : Op) : Prog Op Ret (Ret o) := .call o .done

/-- A fallible program, run for its outcome: a failure is handed over and does not end the
caller. -/
def attempt (x : ExceptT ε (Prog Op Ret) α) : ExceptT ε (Prog Op Ret) (Except ε α) :=
  ExceptT.mk (x.run.bind fun r => .done (.ok r))

/-- A fallible program that is run only under a condition. -/
def onlyIf (c : Bool) (x : ExceptT ε (Prog Op Ret) Unit) : ExceptT ε (Prog Op Ret) Unit :=
  if c then x else pure ()

end Prog
