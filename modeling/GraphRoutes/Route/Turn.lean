/-
**Turns: sequences that keep their state in the world.**

Some sequences may be asked while they are being asked: what they ask of their source may come back
to them.  Such a sequence keeps its state in a cell, takes one turn at a time, and reads its cell
anew after every question.  A turn gives an item, ends, or calls for another turn; one that fails
leaves the cell as the turn has left it, and the sequence may be asked again.

A sequence that nobody else holds keeps its state to itself.  It takes the same turns on a cell that
stands beside the world, and is a machine.

Main definitions:

* `GraphRoutes.Turn` — what one turn comes to;
* `GraphRoutes.Turn.pull` — turns until an item, the end or a failure;
* `GraphRoutes.Machine.ofTurn` — a sequence that keeps its state to itself;
* `GraphRoutes.Machine.beside` — a machine that keeps a part of its world to itself.

Main results:

* `GraphRoutes.Turn.pull_succ`, `GraphRoutes.Turn.pull_of_give`, `GraphRoutes.Turn.pull_of_ended`,
  `GraphRoutes.Turn.pull_of_again` — one unfolding of a pull.
-/
import GraphRoutes.Cell
import GraphRoutes.Route.Step

set_option relaxedAutoImplicit false
set_option autoImplicit false

namespace GraphRoutes

/-- What one turn of a sequence comes to. -/
inductive Turn (α : Type) where
  /-- An item. -/
  | give (item : α)
  /-- Nothing yet: another turn is due. -/
  | again
  /-- The end, for this time. -/
  | ended
  deriving Repr

namespace Turn

variable {ω ε α : Type}

/-- Turns until there is an item or the end.  After `fuel` turns without an answer it fails with
`unsettled`. -/
def pull (unsettled : ε) (turn : Act ω ε (Turn α)) : Nat → Act ω ε (Option α)
  | 0 => throw unsettled
  | fuel + 1 => do
    match ← turn with
    | give a => pure (some a)
    | ended => pure none
    | again => pull unsettled turn fuel

theorem pull_succ (unsettled : ε) (turn : Act ω ε (Turn α)) (fuel : Nat) :
    pull unsettled turn (fuel + 1) = (do
      match ← turn with
      | give a => pure (some a)
      | ended => pure none
      | again => pull unsettled turn fuel) := rfl

section

variable {unsettled : ε} {turn : Act ω ε (Turn α)} {w v : ω}

theorem pull_of_give {a : α} (h : turn w = .ok (give a) v) (fuel : Nat) :
    pull unsettled turn (fuel + 1) w = .ok (some a) v := by
  rw [pull_succ, Act.bind_of_ok h]
  rfl

theorem pull_of_ended (h : turn w = .ok ended v) (fuel : Nat) :
    pull unsettled turn (fuel + 1) w = .ok none v := by
  rw [pull_succ, Act.bind_of_ok h]
  rfl

theorem pull_of_again (h : turn w = .ok again v) (fuel : Nat) :
    pull unsettled turn (fuel + 1) w = pull unsettled turn fuel v := by
  rw [pull_succ, Act.bind_of_ok h]

end

end Turn

/-- The machine of a sequence that keeps its state to itself.  A failure of a turn is one that the
sequence survives. -/
@[inline] def Machine.ofTurn {ω ε σ α : Type} (turn : Act (σ × ω) ε (Turn α)) :
    Machine ω ε σ α := fun s w =>
  match turn (s, w) with
  | .ok (.give a) (t, w) => .ok (.give a t) w
  | .ok .again (t, w) => .ok (.skip t) w
  | .ok .ended (t, w) => .ok (.idle t) w
  | .error e (t, w) => .ok (.fail e t) w

/-- A machine that keeps a part of its world to itself. -/
@[inline] def Machine.beside {ω ε σ τ α : Type} (m : Machine (τ × ω) ε σ α) :
    Machine ω ε (σ × τ) α := fun s w =>
  match m s.1 (s.2, w) with
  | .ok r (t, w) => .ok (r.map fun s => (s, t)) w
  | .error e (_, w) => .error e w

end GraphRoutes
