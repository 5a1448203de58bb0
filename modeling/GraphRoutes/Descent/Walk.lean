/-
**The descent: a walk over elements and their children, steered by a control.**

A walk visits the candidates of a route one at a time.  For each it asks a control what to do: give
the element, visit its children, go on with its siblings.  Children are visited before siblings, and
the walk keeps the candidates of every level on a stack of its own, so its depth is bounded by
nothing but its limits.  Nothing happens between two pulls, and each step asks its caller for at
most one thing of each kind: a candidate, then the control, later the policy, and at last the
children.

The path that the control sees holds what its caller makes of the ancestors of the element; the walk
only extends it, or lets it begin anew.  An instruction is four decisions, and each is read when it
is due: about the siblings and the element at once, about the children when the walk is resumed.

Main definitions:

* `GraphRoutes.Walk.Env` — all that a walk asks of its caller;
* `GraphRoutes.Walk` — the state of a walk;
* `GraphRoutes.Walk.start`, `GraphRoutes.Walk.step` — its beginning and its step function.
-/
import GraphRoutes.Route.Step
import GraphRoutes.Descent.Instruction
import GraphRoutes.Descent.Limits

set_option relaxedAutoImplicit false
set_option autoImplicit false

namespace GraphRoutes

/-- One level of a walk: the path above it, and its candidates, unless they have been dropped. -/
structure Frame (π κ : Type) where
  path : π
  candidates : Option κ
  deriving Repr

/-- An element that was visited but not yet gone below, with the decisions that are still to be
read. -/
structure Pending (α τ : Type) where
  element : α
  descend : τ
  resetPath : τ

/-- The state of a walk: its levels, the innermost first, the number of steps down since the last
result, and the element that is still to be gone below. -/
structure Walk (α π κ τ : Type) where
  levels : List (Frame π κ)
  fruitless : Nat := 0
  pending : Option (Pending α τ) := none

namespace Walk

/-- All that a walk over elements `α`, with paths `π`, candidates `κ`, decisions `τ` and results `β`
asks of its caller. -/
structure Env (ω ε α π κ τ β : Type) where
  /-- The next candidate. -/
  next : Source ω ε κ α
  /-- What to do with an element below a path. -/
  control : π → α → Act ω ε (Instruction τ)
  /-- What a decision comes to when it is read. -/
  truth : τ → Act ω ε Bool
  /-- The result for an element below a path. -/
  result : π → α → Act ω ε β
  /-- The path of the children of an element. -/
  extend : π → α → Act ω ε π
  /-- The path of the children where it begins anew. -/
  restart : π → Act ω ε π
  /-- The children of an element below a path, opened. -/
  children : π → α → Act ω ε κ
  /-- The answer to a fruitless search at an element: its path, its depth and the count. -/
  policy : π → α → Nat → Nat → Act ω ε (Resolution β)
  /-- Hears what is reported. -/
  report : Note α β → Act ω ε Unit

variable {ω ε α π κ τ β : Type}

/-- A walk over candidates below a path. -/
def start (path : π) (candidates : κ) : Walk α π κ τ :=
  { levels := [{ path, candidates := some candidates }] }

/-- Goes below the element `p`: opens its children as a new level. -/
@[inline] def enter (env : Env ω ε α π κ τ β) (frame : Frame π κ) (outer : List (Frame π κ)) (n : Nat)
    (p : Pending α τ) : Act ω ε (Step (Walk α π κ τ) β ε) := do
  let path ← if ← env.truth p.resetPath then env.restart frame.path
    else env.extend frame.path p.element
  let candidates ← env.children frame.path p.element
  let below := { path, candidates := some candidates }
  pure (.skip { levels := below :: frame :: outer, fruitless := n })

/-- What follows when the policy was asked about the element `p` at the `n`-th fruitless step. -/
@[inline] def answer (env : Env ω ε α π κ τ β) (frame : Frame π κ) (outer : List (Frame π κ)) (n : Nat)
    (p : Pending α τ) : Act ω ε (Step (Walk α π κ τ) β ε) := do
  let depth := outer.length
  env.report (.checkpoint n p.element)
  match ← env.policy frame.path p.element depth n with
  | .descend => enter env frame outer n p
  | .advance => do
    env.report (.abandoned n depth p.element)
    pure (.skip { levels := frame :: outer, fruitless := n })
  | .cut => do
    env.report (.abandonedWithSiblings n depth p.element)
    pure (.skip { levels := { frame with candidates := none } :: outer, fruitless := n })
  | .substitute b => do
    env.report (.substituted n p.element b)
    pure (.give b { levels := [] })

/-- Goes below the element `p` if its instruction, the depth and the policy allow it. -/
@[inline] def below (env : Env ω ε α π κ τ β) (limits : Limits) (frame : Frame π κ)
    (outer : List (Frame π κ)) (fruitless : Nat) (p : Pending α τ) :
    Act ω ε (Step (Walk α π κ τ) β ε) := do
  if !(← env.truth p.descend) || limits.stopsBelow outer then
    pure (.skip { levels := frame :: outer, fruitless })
  else
    let n := fruitless + 1
    if limits.due n then answer env frame outer n p else enter env frame outer n p

/-- Visits the next candidate of the innermost level, or leaves the level. -/
@[inline] def visit (env : Env ω ε α π κ τ β) (frame : Frame π κ) (outer : List (Frame π κ))
    (fruitless : Nat) : Act ω ε (Step (Walk α π κ τ) β ε) :=
  match frame.candidates with
  | none => pure (.skip { levels := outer, fruitless })
  | some k => do
    match ← env.next k with
    | none => pure (.skip { levels := outer, fruitless })
    | some (a, k) => do
      let i ← env.control frame.path a
      let goesOn ← env.truth i.continueSiblings
      let frame := { frame with candidates := if goesOn then some k else none }
      let p : Pending α τ := { element := a, descend := i.descend, resetPath := i.resetPath }
      if ← env.truth i.emit then do
        let b ← env.result frame.path a
        pure (.give b { levels := frame :: outer, pending := some p })
      else
        pure (.skip { levels := frame :: outer, fruitless, pending := some p })

/-- One step of a walk. -/
def step (env : Env ω ε α π κ τ β) (limits : Limits) : Machine ω ε (Walk α π κ τ) β := fun s =>
  match s.levels with
  | [] => pure .finish
  | frame :: outer =>
    match s.pending with
    | some p => below env limits frame outer s.fruitless p
    | none => visit env frame outer s.fruitless

end Walk

end GraphRoutes
