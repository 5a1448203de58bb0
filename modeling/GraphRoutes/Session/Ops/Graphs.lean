/-
**Operations on graphs.**

Main definitions:

* `GraphRoutes.Session.addVertex`, `GraphRoutes.Session.Host.addVertices`,
  `GraphRoutes.Session.setDocument`, `GraphRoutes.Session.addEdge`,
  `GraphRoutes.Session.Host.addEdges`, `GraphRoutes.Session.publish` — changing a graph;
* `GraphRoutes.Session.getVertex`, `GraphRoutes.Session.vertex`, `GraphRoutes.Session.allVertices`,
  `GraphRoutes.Session.allEdges` — reading it;
* `GraphRoutes.Session.Host.subgraph` — the graph of the lineages of a route.
-/
import GraphRoutes.Session.Ops.Values

set_option relaxedAutoImplicit false
set_option autoImplicit false

namespace GraphRoutes.Session

/-- A vertex of a graph. -/
def vertexAt (graph index : Nat) : Value := .vertex ⟨graph, index⟩ none

/-- The failure for an id that a graph does not have. -/
def unknownId (id : Value) : M Fault := do
  let text ← displayed id
  pure (.notFound text)

/-! ### Changing -/

/-- Adds a vertex, or sets the document of one that is there. -/
def addVertex (graph : Nat) (id document : Value) : M Value := do
  let i ← World.editGraph graph (unknownId id) (Store.addVertex Value.key? id document.notNull)
  pure (vertexAt graph i)

/-- Adds vertices from pairs of an id and a document. -/
def Host.addVertices (h : Host) (graph : Nat) (pairs : Value) : M Value := do
  let it ← iterate pairs
  let _ ← h.fold it Value.null fun _ pair => do
    match ← h.unpack 2 pair with
    | [id, document] => addVertex graph id document
    | _ => throw .badValue
  pure (.ref .graph graph)

/-- Sets the document of a vertex. -/
def setDocument (graph : Nat) (id document : Value) : M Value := do
  World.editGraph graph (unknownId id) (Store.setDocument Value.key? id document.notNull)
  pure .null

/-- Adds an edge. -/
def addEdge (graph : Nat) (source target label document : Value) : M Value := do
  let e ← World.editGraph graph (unknownId source)
    (Store.addEdge Value.key? source target label document.notNull)
  pure (.edge (.stored graph e) none)

/-- Adds edges of one label, from entries of two vertices and perhaps a document. -/
def Host.addEdges (h : Host) (graph : Nat) (label entries : Value) : M Value := do
  let it ← iterate entries
  let _ ← h.fold it Value.null fun _ entry => do
    match ← size entry with
    | .int 2 => do
      match ← h.unpack 2 entry with
      | [source, target] => addEdge graph source target label .null
      | _ => throw .badValue
    | .int 3 => do
      match ← h.unpack 3 entry with
      | [source, target, document] => addEdge graph source target label document
      | _ => throw .badValue
    | _ => do
      let text ← displayed entry
      throw (.invalid (.edgeEntry text))
  pure (.ref .graph graph)

/-- Seals a graph. -/
def publish (graph : Nat) : M Value := do
  let w ← get
  if !(w.graphAt graph).isSealed then
    modify fun w => { w with graphs := w.graphs.modify graph Store.publish }
    reportText "#DEBUG" do
      let text ← displayed (.ref .graph graph)
      pure ("Sealed " ++ text)
  pure (.ref .graph graph)

/-! ### Reading -/

/-- The vertex with an id, if there is one. -/
def findVertex (graph : Nat) (id : Value) : M (Option Value) := do
  let k ← keyOf id
  let w ← get
  pure (((w.graphAt graph).find? k).map (vertexAt graph))

/-- The vertex with an id, or `null`. -/
def getVertex (graph : Nat) (id : Value) : M Value := do
  let v ← findVertex graph id
  pure (.ofOption v)

/-- The vertex with an id, which must be there. -/
def vertex (graph : Nat) (id : Value) : M Value := do
  match ← findVertex graph id with
  | some v => pure v
  | none => do
    let e ← unknownId id
    throw e

/-- The vertices of a graph, or those whose id is of a kind.  An id holds no list, so the comparison
of its kind always comes to an end. -/
def allVertices (graph : Nat) (kind : Value) : M Value := do
  let w ← get
  let ofKind (id : Value) : Bool :=
    match kind, id with
    | .null, _ => true
    | kind, .typedId k _ => w.foundSame k kind
    | _, _ => false
  let indices := (w.graphAt graph).verticesWhere ofKind
  World.newList (indices.map (vertexAt graph)).toArray

/-- The edges of a graph. -/
def allEdges (graph : Nat) : M Value := do
  let w ← get
  let edges := (w.graphAt graph).allEdges
  World.newList (edges.map fun e => .edge (.stored graph e) none).toArray

/-- The vertex with an id of a graph whose vertices are handed out wrapped. -/
def getTracked : Value → Value → M Value
  | .ref .graph place, id => getVertex place id
  | .trackedGraph g _, id => do
    match ← getTracked g id with
    | .null => pure .null
    | v => pure (v.wrap .vertex)
  | _, _ => throw .noAttribute

/-- All vertices of a graph, wrapped if they are handed out so. -/
def allTracked : Value → M Value
  | .ref .graph place => allVertices place .null
  | .trackedGraph g _ => do
    let vs ← allTracked g
    let it ← iterate vs
    World.newCursor (.each .tracked it)
  | _ => throw .noAttribute

/-! ### The graph of the lineages -/

/-- A lineage from the root to a value; a value that is not wrapped is its own. -/
def lineage (v : Value) : M (List Value) := do
  let items ← Act.ofOption .noAttribute v.node.path?
  pure (items.map Value.ofNode)

/-- A gathering with the edge under the layers of one more value, if there is one. -/
def absorbItem (g : Gathering Value Key Value Value Token) (item : Value) :
    M (Gathering Value Key Value Value Token) := do
  match item.stripAll with
  | .edge e _ => do
    let facts ← told fun w => w.facts? e
    match g.absorb Value.key? e.key facts with
    | .ok g => pure g
    | .error _ => throw .wrongType
  | _ => pure g

/-- A gathering with the edges of one more lineage. -/
def absorbLineage (g : Gathering Value Key Value Value Token) (v : Value) :
    M (Gathering Value Key Value Value Token) := do
  let items ← lineage v
  items.foldlM absorbItem g

/-- The sealed graph of the edges on the lineages of a route. -/
def Host.subgraph (h : Host) (route : Value) : M Value := do
  let it ← openRoute route
  let g ← h.fold it ({} : Gathering Value Key Value Value Token) absorbLineage
  let v ← World.newGraph g.store
  match v with
  | .ref .graph place => publish place
  | v => pure v

end GraphRoutes.Session
