/-
**The graph store: vertices under ids, and labelled edges between them.**

A store is a dictionary of vertices, each with an id and perhaps a document, and an ordered list
of edges, each with its two vertices, a label and perhaps a document.  Ids are told apart by a key;
an id without a key cannot be stored.  The order of the vertices and the spelling of their ids are
those of the first mention.  Edges may be parallel.  A sealed store refuses every change.

Changes are actions over the store, so a change that fails keeps what it did before its failure:
adding an edge mentions its source before its target.

Main definitions:

* `GraphRoutes.Store` — the store;
* `GraphRoutes.Store.find?` — the vertex with an id;
* `GraphRoutes.Store.addVertex`, `GraphRoutes.Store.setDocument`, `GraphRoutes.Store.addEdge`,
  `GraphRoutes.Store.publish` — the changes;
* `GraphRoutes.Store.incident`, `GraphRoutes.Store.allEdges` — the edges at a vertex, and all edges.

Main results:

* `GraphRoutes.Store.requireOpen_eq` — what a sealed store answers;
* `GraphRoutes.Store.incident_eq` — the edges at a vertex are those among all edges that leave it.
-/
import GraphRoutes.Act
import GraphRoutes.Dictionary

set_option relaxedAutoImplicit false
set_option autoImplicit false

namespace GraphRoutes

/-- An edge as it is stored: the positions of its vertices, its label and its document. -/
structure EdgeRecord (ℓ δ : Type) where
  source : Nat
  target : Nat
  label : ℓ
  document : Option δ
  deriving Repr

/-- Vertices, with their documents, and edges in the order in which they were added. -/
structure Store (ι κ ℓ δ : Type) [DecidableEq κ] [Hashable κ] where
  vertices : Dictionary κ ι (Option δ) := .empty
  edges : Array (EdgeRecord ℓ δ) := #[]
  isSealed : Bool := false

/-- Why a store refuses. -/
inductive StoreFault where
  /-- The store is sealed. -/
  | isSealed
  /-- An id has no key. -/
  | unhashable
  /-- There is no vertex with this id. -/
  | unknown
  deriving DecidableEq, Repr

/-- One of the two ways to leave a vertex along an edge. -/
inductive Side where
  /-- Along an edge that points out of the vertex. -/
  | outgoing
  /-- Along an edge that points in to it. -/
  | incoming
  deriving DecidableEq, Repr, Ord

/-- One of the two vertices of an edge. -/
inductive End where
  | source
  | target
  deriving DecidableEq, Repr, Ord

/-- The vertex of an edge that is not this one. -/
def End.other : End → End
  | source => target
  | target => source

/-- A stored edge as it is handed out: its position, those of its vertices, and, if it was reached
by a step, the side on which that step left its vertex. -/
structure StoredEdge where
  index : Nat
  source : Nat
  target : Nat
  reached : Option Side := none
  deriving DecidableEq, Repr

/-- The vertex at which an edge is left on a side. -/
def EdgeRecord.leftAt {ℓ δ : Type} (e : EdgeRecord ℓ δ) : Side → Nat
  | .outgoing => e.source
  | .incoming => e.target

/-- The position of one vertex of an edge. -/
def StoredEdge.endAt (e : StoredEdge) : End → Nat
  | .source => e.source
  | .target => e.target

namespace Store

/-- A change of a store, with a result. -/
abbrev Edit (ι κ ℓ δ α : Type) [DecidableEq κ] [Hashable κ] : Type :=
  Act (Store ι κ ℓ δ) StoreFault α

variable {ι κ ℓ δ : Type} [DecidableEq κ] [Hashable κ]

/-- The position of the vertex with a key. -/
def find? (s : Store ι κ ℓ δ) (k : κ) : Option Nat := s.vertices.position? k

/-- The id of the vertex at a position. -/
def idAt? (s : Store ι κ ℓ δ) (i : Nat) : Option ι := (s.vertices.entryAt? i).map (·.name)

/-- The document of the vertex at a position. -/
def documentAt? (s : Store ι κ ℓ δ) (i : Nat) : Option δ := (s.vertices.entryAt? i).bind (·.value)

/-- The number of vertices. -/
def vertexCount (s : Store ι κ ℓ δ) : Nat := s.vertices.size

/-- The number of edges. -/
def edgeCount (s : Store ι κ ℓ δ) : Nat := s.edges.size

/-! ### Reading -/

/-- The stored edge at a position, reached from `side`. -/
def edgeView (i : Nat) (e : EdgeRecord ℓ δ) (reached : Option Side) : StoredEdge :=
  { index := i, source := e.source, target := e.target, reached }

/-- All edges, in the order in which they were added. -/
def allEdges (s : Store ι κ ℓ δ) : List StoredEdge :=
  s.edges.toList.zipIdx.map fun (e, i) => edgeView i e none

/-- The edges among the first `n` that leave `v` on one side, in front of `later`. -/
def incidentIn (edges : Array (EdgeRecord ℓ δ)) (v : Nat) (side : Side) :
    (n : Nat) → n ≤ edges.size → List StoredEdge → List StoredEdge
  | 0, _, later => later
  | n + 1, h, later =>
    let e := edges[n]
    incidentIn edges v side n (Nat.le_of_succ_le h)
      (if e.leftAt side = v then edgeView n e (some side) :: later else later)

/-- The edges on one side of a vertex, in the order in which they were added. -/
def incident (s : Store ι κ ℓ δ) (v : Nat) (side : Side) : List StoredEdge :=
  incidentIn s.edges v side s.edges.size (Nat.le_refl _) []

/-- The edges at a vertex are those among all edges that leave it. -/
theorem incident_eq (s : Store ι κ ℓ δ) (v : Nat) (side : Side) :
    s.incident v side = (s.edges.toList.zipIdx.filter fun (e, _) => e.leftAt side = v).map
      fun (e, i) => edgeView i e (some side) := by
  have upTo (n : Nat) (h : n ≤ s.edges.size) (later : List StoredEdge) :
      incidentIn s.edges v side n h later
        = (((s.edges.toList.take n).zipIdx.filter fun (e, _) => e.leftAt side = v).map
            fun (e, i) => edgeView i e (some side)) ++ later := by
    induction n generalizing later with
    | zero => simp [incidentIn]
    | succ n ih =>
      have hn : n < s.edges.toList.length := by simpa using Nat.lt_of_succ_le h
      rw [incidentIn, ih, List.take_succ_eq_append_getElem hn, List.zipIdx_append]
      by_cases he : (s.edges[n]).leftAt side = v <;> simp [he, Nat.min_eq_left (Nat.le_of_lt h)]
  rw [incident, upTo, ← Array.length_toList, List.take_length, List.append_nil]

/-- The positions of the vertices whose id passes a test, in the order of their first mention. -/
def verticesWhere (s : Store ι κ ℓ δ) (p : ι → Bool) : List Nat :=
  (s.vertices.toList.zipIdx.filter fun (v, _) => p v.name).map (·.2)

/-! ### Changing -/

/-- Passes if the store is not sealed. -/
def requireOpen : Edit ι κ ℓ δ Unit := do
  if (← get).isSealed then throw .isSealed

theorem requireOpen_eq (s : Store ι κ ℓ δ) :
    requireOpen s = if s.isSealed then .error .isSealed s else .ok () s := by
  change (if s.isSealed then throw .isSealed else pure () : Edit ι κ ℓ δ Unit) s = _
  cases s.isSealed with
  | false => rfl
  | true => rfl

/-- The vertex with an id, added if need be.  A document is set; without one, a vertex that is
already there keeps its own. -/
def addVertex (keyOf : ι → Option κ) (id : ι) (document : Option δ) :
    Edit ι κ ℓ δ Nat := do
  requireOpen
  let k ← Act.ofOption .unhashable (keyOf id)
  let s ← get
  match s.find? k with
  | none => do
    let i := s.vertexCount
    set { s with vertices := s.vertices.put k id document }
    pure i
  | some i => do
    match document with
    | none => pure i
    | some d => do
      set { s with vertices := s.vertices.put k id (some d) }
      pure i

/-- Sets the document of the vertex with an id. -/
def setDocument (keyOf : ι → Option κ) (id : ι) (document : Option δ) :
    Edit ι κ ℓ δ Unit := do
  requireOpen
  let k ← Act.ofOption .unhashable (keyOf id)
  let s ← get
  match s.find? k with
  | none => throw .unknown
  | some _ => set { s with vertices := s.vertices.put k id document }

/-- Adds an edge; vertices that are not there yet are added, the source before the target. -/
def addEdge (keyOf : ι → Option κ) (source target : ι) (label : ℓ)
    (document : Option δ) : Edit ι κ ℓ δ StoredEdge := do
  requireOpen
  let i ← addVertex keyOf source none
  let j ← addVertex keyOf target none
  let s ← get
  let index := s.edgeCount
  set { s with edges := s.edges.push { source := i, target := j, label, document } }
  pure { index, source := i, target := j }

/-- Seals the store: from now on it refuses every change. -/
def publish (s : Store ι κ ℓ δ) : Store ι κ ℓ δ := { s with isSealed := true }

@[simp] theorem publish_publish (s : Store ι κ ℓ δ) : s.publish.publish = s.publish := rfl

@[simp] theorem isSealed_publish (s : Store ι κ ℓ δ) : s.publish.isSealed = true := rfl

end Store

end GraphRoutes
