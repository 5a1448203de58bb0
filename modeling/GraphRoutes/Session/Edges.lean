/-
**Edges and their vertices, as the operations of a session see them.**

Main definitions:

* `GraphRoutes.Session.nodeId`, `GraphRoutes.Session.nodeDocument`, `GraphRoutes.Session.nodeLabel`,
  `GraphRoutes.Session.nodeKind` — what a value says that must be an element;
* `GraphRoutes.Session.endNode` — a vertex of an edge;
* `GraphRoutes.Session.Host.followedFrom` — the side from which an edge was followed;
* `GraphRoutes.Session.Host.labelSet` — the labels that a step is restricted to;
* `GraphRoutes.Session.neighbours`, `GraphRoutes.Session.incidentEdges` — the edges of a vertex, on
  one side and in one direction.
-/
import GraphRoutes.Session.Host

set_option relaxedAutoImplicit false
set_option autoImplicit false

namespace GraphRoutes.Session

/-- What the world says of a value; a value of which it says nothing has no such attribute. -/
def told {α : Type} (f : World → Option α) : M α := do
  let w ← get
  Act.ofOption .noAttribute (f w)

/-- The id of a value that must be an element. -/
def nodeId (v : Value) : M Value := told fun w => w.idOf? v

/-- The document of a value that must be an element. -/
def nodeDocument (v : Value) : M Value := told fun w => w.documentOf? v

/-- The label of a value that must be an edge. -/
def nodeLabel (v : Value) : M Value := told fun w => w.labelOf? v

/-- The kind of the id of a value that must be an element. -/
def nodeKind (v : Value) : M Value := told fun w => w.kindOf? v

/-- A vertex of a value that must be an edge. -/
def endNode (v : Value) (i : End) : M Value := told fun w => w.end? v i

/-- The side from which a value that must be an edge was reached. -/
def reachedSide (v : Value) : M (Option Side) := told fun _ => reachedOf? v

/-- What is known of the direction of an edge, as a value. -/
def directionValue : Option Side → Value
  | none => .null
  | some .outgoing => .bool true
  | some .incoming => .bool false

namespace Host

/-- The side from which an edge was reached.  Where nothing is known, the handler `onUnknown` may
decide whether it was followed forward; otherwise it was. -/
def followedFrom (h : Host) (e onUnknown : Value) : M Side := do
  match ← reachedSide e with
  | some side => pure side
  | none => do
    let text ← displayed e
    let message := "Traversal direction of " ++ text ++ " is unknown"
    let c := Value.condition .unknownDirection e (.str message) (.dict default none) none
    let decision ← h.resolve onUnknown (some (.bool true)) c
    let forward ← isTrue decision
    pure (if forward then .outgoing else .incoming)

/-- Whether an edge was followed forward. -/
def forward (h : Host) (e onUnknown : Value) : M Bool := do
  let side ← h.followedFrom e onUnknown
  pure (side = .outgoing)

/-- The vertex to which an edge was followed. -/
def farVertex (h : Host) (e onUnknown : Value) : M Value := do
  let side ← h.followedFrom e onUnknown
  endNode e (farEnd (some side))

/-- The vertex from which an edge was followed. -/
def nearVertex (h : Host) (e onUnknown : Value) : M Value := do
  let side ← h.followedFrom e onUnknown
  endNode e (nearEnd (some side))

/-- The labels that a step is restricted to, as a set: a text is one label, and neither nothing nor an
empty collection restricts anything. -/
def labelSet (h : Host) (labels : Value) : M (Option Value) := do
  match labels with
  | .null => pure none
  | .str _ => pure (some (.set (.ofList Value.spell [labels]) none))
  | labels => do
    let members ← h.setOf labels
    let any ← isTrue members
    pure (if any then some members else none)

/-- The keys of the labels that a step is restricted to. -/
def labelKeys (h : Host) (labels : Value) : M (Option (Std.HashSet Key)) := do
  match ← h.labelSet labels with
  | some (.set members _) => pure (some (.ofList (members.toList.map Value.spell)))
  | _ => pure none

end Host

/-! ### The edges of a vertex -/

/-- One step in the neighbourhood of an element. -/
def neighbourStep : Machine World Fault (Neighbourhood Value EdgeRef Key) Node :=
  Neighbourhood.step
    (fun v side => do
      match v with
      | .vertex u _ => do
        let w ← get
        pure (w.edgesAt u side)
      | _ => throw .noAttribute)
    (fun e => do
      let w ← get
      soughtKey (w.edgeLabel e))
    (Value.edge · none)

/-- The neighbourhood of a value that must be a vertex. -/
def neighbourhood (v : Value) (side : Side) (labels : Option (Std.HashSet Key)) :
    M (Neighbourhood Value EdgeRef Key) := do
  let _ ← Act.ofOption .noAttribute (vertexOf? v)
  pure { vertex := v.node, side, labels }

/-- The edges on a side of a value that must be a vertex. -/
def neighbours (v : Value) (side : Side) (labels : Option (Std.HashSet Key)) : M Value := do
  let s ← neighbourhood v side labels
  World.newCursor (.neighbours s)

/-- Sequences one after the other. -/
def chain (outer : Value) : M Value := World.newCursor (.chained { outer := some outer })

/-- The edges of a value that must be a vertex, in a direction: the sides one after the other. -/
def incidentEdges (v : Value) (direction : Direction) (labels : Option (Std.HashSet Key)) : M Value := do
  match direction.sides with
  | [side] => neighbours v side labels
  | sides => do
    let routes ← sides.mapM fun side => neighbours v side labels
    let outer ← iterateItems .tuple routes
    chain outer

end GraphRoutes.Session
