/-
**Merging branches in turn.**

The branches stand in a rotation.  The first one takes its turn, one item of a plain branch or one
whole block of a branch that has blocks, and goes to the end of the rotation.  A branch that has
nothing left drops out, and the others keep their order.

Main definitions:

* `GraphRoutes.Merge.Branch`, `GraphRoutes.Merge.Rotation` — a branch, and the branches waiting;
* `GraphRoutes.Merge.roundRobin` — the step function of the merge.
-/
import GraphRoutes.Route.Step

set_option relaxedAutoImplicit false
set_option autoImplicit false

namespace GraphRoutes.Merge

/-- A branch of a merge: a plain source of items, or a source of blocks. -/
inductive Branch (κ β : Type) where
  | plain (source : κ)
  | blocks (source : β)
  deriving Repr

/-- The branches waiting for their turn, and the rest of a block in progress with its branch. -/
structure Rotation (κ β α : Type) where
  waiting : List (Branch κ β)
  block : Option (List α × β) := none

variable {ω ε κ β α : Type}

/-- One turn after the other, until every branch has dropped out. -/
@[inline] def roundRobin (next : Source ω ε κ α) (nextBlock : Source ω ε β (List α)) :
    Machine ω ε (Rotation κ β α) α := fun s => do
  match s.block with
  | some ([], b) => pure (.skip { waiting := s.waiting ++ [.blocks b] })
  | some (a :: as, b) => pure (.give a { s with block := some (as, b) })
  | none =>
    match s.waiting with
    | [] => pure .finish
    | .plain k :: others => do
      match ← next k with
      | none => pure (.skip { waiting := others })
      | some (a, k) => pure (.give a { waiting := others ++ [.plain k] })
    | .blocks b :: others => do
      match ← nextBlock b with
      | none => pure (.skip { waiting := others })
      | some (block, b) => pure (.skip { waiting := others, block := some (block, b) })

end GraphRoutes.Merge
