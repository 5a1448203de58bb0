/-
**The edges at one vertex, read when they are asked for.**

A step of a traversal opens a neighbourhood for each vertex of its route.  A neighbourhood reads the
edges on one side of its vertex when the first of them is asked for, passes over those whose label
is not wanted, and gives each other edge with the links that the layers of the vertex ask for.

Main definitions:

* `GraphRoutes.Direction`, `GraphRoutes.Yield` — which edges a step follows, and what it gives for
  each;
* `GraphRoutes.farEnd`, `GraphRoutes.nearEnd` — the ends of an edge that a step leads to and comes
  from;
* `GraphRoutes.Neighbourhood` — the state;
* `GraphRoutes.Neighbourhood.step` — its step function.
-/
import GraphRoutes.Element
import GraphRoutes.Route.Step
import Std.Data.HashSet

set_option relaxedAutoImplicit false
set_option autoImplicit false

namespace GraphRoutes

/-- Which edges of a vertex a step follows. -/
inductive Direction where
  | outgoing
  | incoming
  | both
  deriving DecidableEq, Repr, Ord

/-- The sides that a step reads, in order. -/
def Direction.sides : Direction → List Side
  | outgoing => [.outgoing]
  | incoming => [.incoming]
  | both => [.incoming, .outgoing]

/-- What a step gives for each edge. -/
inductive Yield where
  /-- The edge itself. -/
  | edges
  /-- The vertex at its far end. -/
  | vertices
  deriving DecidableEq, Repr, Ord

/-- The end of an edge on the other side of where it was reached; an edge that was not reached by a
step is taken to be followed forward. -/
def farEnd : Option Side → End
  | some .incoming => .source
  | _ => .target

/-- The end of an edge at which it was reached. -/
def nearEnd (reached : Option Side) : End := (farEnd reached).other

/-- The neighbourhood of a vertex on one side: the labels that are wanted (none given: all), and the
edges that are still to be given, once they have been read. -/
structure Neighbourhood (α η key : Type) [BEq key] [Hashable key] where
  vertex : Element α
  side : Side
  labels : Option (Std.HashSet key)
  edges : Option (List η) := none

namespace Neighbourhood

variable {ω ε α η key : Type} [BEq key] [Hashable key]

/-- Whether an edge is wanted.  Its label is looked at only if not all labels are. -/
@[inline] def wants (s : Neighbourhood α η key) (labelKey : η → Act ω ε key)
    (e : η) : Act ω ε Bool :=
  match s.labels with
  | none => pure true
  | some labels => do
    let l ← labelKey e
    pure (labels.contains l)

/-- One step: read the edges, or give the next one that is wanted.  `read` reads the edges on a side
of a plain vertex, `labelKey` the key of an edge's label. -/
@[inline] def step (read : α → Side → Act ω ε (List η))
    (labelKey : η → Act ω ε key) (edge : η → α) :
    Machine ω ε (Neighbourhood α η key) (Element α) := fun s => do
  match s.edges with
  | none => do
    let edges ← read s.vertex.base s.side
    pure (.skip { s with edges := some edges })
  | some [] => pure .finish
  | some (e :: es) => do
    let s := { s with edges := some es }
    if ← s.wants labelKey e then
      pure (.give (s.vertex.reach .edge (.plain (edge e))) s)
    else
      pure (.skip s)

end Neighbourhood

end GraphRoutes
