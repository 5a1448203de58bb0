/-
**What the elements of a session are, read off the world.**

An element has an id and a document if there is a vertex or an edge under its layers.  It has edges
only if it is a vertex in every layer, and a label and vertices of its own only if it is an edge in
every layer.

Main definitions:

* `GraphRoutes.Session.World.idOf?`, `GraphRoutes.Session.World.documentOf?`,
  `GraphRoutes.Session.World.labelOf?`, `GraphRoutes.Session.graphOf?` — what an element says;
* `GraphRoutes.Session.World.end?`, `GraphRoutes.Session.reachedOf?` — an edge's vertices, and how it
  was reached;
* `GraphRoutes.Session.World.facts?` — all that an edge says.

Main results:

* `GraphRoutes.Session.World.end?_edge` — the vertices of a plain edge.
-/
import GraphRoutes.Lineage
import GraphRoutes.Session.World

set_option relaxedAutoImplicit false
set_option autoImplicit false

namespace GraphRoutes.Session

/-- The side on which a step left a vertex to reach the edge. -/
def EdgeRef.reached : EdgeRef → Option Side
  | .stored _ e => e.reached
  | .bare _ => none

/-- The vertex of a value that is one in every layer. -/
def vertexOf? (v : Value) : Option VertexRef :=
  match v.node.uniform Value.sort .vertex, v.node.base with
  | true, .vertex u _ => some u
  | _, _ => none

/-- The edge of a value that is one in every layer. -/
def edgeOf? (v : Value) : Option EdgeRef :=
  match v.node.uniform Value.sort .edge, v.node.base with
  | true, .edge e _ => some e
  | _, _ => none

/-- The side from which a value that is an edge was reached. -/
def reachedOf? (v : Value) : Option (Option Side) := (edgeOf? v).map EdgeRef.reached

/-- The graph of an element, or `null`. -/
def graphOf? (v : Value) : Option Value :=
  match v.node.base with
  | .vertex u _ => some (.ref .graph u.graph)
  | .edge (.stored graph _) _ => some (.ref .graph graph)
  | .edge (.bare _) _ => some .null
  | .trackedGraph g _ => some g
  | _ => none

namespace World

/-- An edge that stands by itself. -/
def bareAt (w : World) (place : Nat) : BareEdge :=
  w.bareEdges[place]?.getD
    { id := .null, label := .null, source := .null, target := .null, document := .null }

/-- The id of a vertex. -/
def vertexId (w : World) (v : VertexRef) : Value :=
  .ofOption ((w.graphAt v.graph).idAt? v.index)

/-- The id of an element. -/
def idOf? (w : World) (v : Value) : Option Value :=
  match v.node.base with
  | .vertex u _ => some (w.vertexId u)
  | .edge (.stored _ e) _ => some (.int e.index)
  | .edge (.bare place) _ => some (w.bareAt place).id
  | _ => none

/-- The document of an element, or `null`. -/
def documentOf? (w : World) (v : Value) : Option Value :=
  match v.node.base with
  | .vertex u _ => some (.ofOption ((w.graphAt u.graph).documentAt? u.index))
  | .edge (.stored graph e) _ =>
    some (.ofOption ((w.graphAt graph).edges[e.index]?.bind (·.document)))
  | .edge (.bare place) _ => some (w.bareAt place).document
  | _ => none

/-- The label of an edge. -/
def edgeLabel (w : World) : EdgeRef → Value
  | .stored graph e =>
    match (w.graphAt graph).edges[e.index]? with
    | some r => r.label
    | none => .null
  | .bare place => (w.bareAt place).label

/-- The label of a stored edge is that of its record. -/
theorem edgeLabel_of_getElem? {w : World} {graph : Nat} {e : StoredEdge} {r : EdgeRecord Value Value}
    (hr : (w.graphAt graph).edges[e.index]? = some r) : w.edgeLabel (.stored graph e) = r.label := by
  simp only [edgeLabel, hr]

/-- The label of a value that is an edge. -/
def labelOf? (w : World) (v : Value) : Option Value := (edgeOf? v).map w.edgeLabel

/-- The kind of the id of an element, or `null`. -/
def kindOf? (w : World) (v : Value) : Option Value :=
  (w.idOf? v).map fun
    | .typedId kind _ => kind
    | _ => .null

/-- What an edge has as its vertex. -/
def endValue (w : World) (e : EdgeRef) (i : End) : Value :=
  match e, i with
  | .stored graph e, i => .vertex ⟨graph, e.endAt i⟩ none
  | .bare place, .source => (w.bareAt place).source
  | .bare place, .target => (w.bareAt place).target

/-- A vertex of a value that is an edge, with the links that its layers ask for. -/
def end? (w : World) (v : Value) (i : End) : Option Value :=
  (edgeOf? v).map fun e => .ofNode (v.node.reach .vertex (w.endValue e i).node)

/-- The vertices of a plain edge are handed out as they are. -/
@[simp] theorem end?_edge (w : World) (e : EdgeRef) (m : Mark) (i : End) :
    w.end? (.edge e m) i = some (.ofNode (w.endValue e i).node) := rfl

/-- All that an edge says, if its vertices say what they have to. -/
def facts? (w : World) (e : EdgeRef) : Option (EdgeFacts Value Value Value) := do
  let source := w.endValue e .source
  let target := w.endValue e .target
  let document ← w.documentOf? (.edge e none)
  return {
    source := ← w.idOf? source, sourceDocument := (← w.documentOf? source).notNull
    target := ← w.idOf? target, targetDocument := (← w.documentOf? target).notNull
    label := w.edgeLabel e, document := document.notNull }

/-- The edges on a side of a vertex. -/
def edgesAt (w : World) (v : VertexRef) (side : Side) : List EdgeRef :=
  ((w.graphAt v.graph).incident v.index side).map (.stored v.graph)

end World

end GraphRoutes.Session
