/-
**Members of objects.**

An object answers some of its members itself, and does others when they are called.  A member that
is done may also be read: then it waits, with its object, to be called.

Main definitions:

* `GraphRoutes.Session.World.datum?` — what an object answers itself;
* `GraphRoutes.Session.doesMember` — what an object does;
* `GraphRoutes.Session.readMember`, `GraphRoutes.Session.Host.callMember` — reading and calling;
* `GraphRoutes.Session.raiseNoResults` — the policy to which a fruitless search is fatal.
-/
import GraphRoutes.Session.Cursors
import GraphRoutes.Session.Ops.Lineages
import GraphRoutes.Session.Ops.Policies

set_option relaxedAutoImplicit false
set_option autoImplicit false

namespace GraphRoutes.Session

/-! ### What objects answer themselves -/

/-- The guard at a place of the world, if there is one. -/
def World.guardAt? (w : World) (place : Nat) : Option (Route.Guard Value Key Value) :=
  match w.cursors[place]? with
  | some (.guard _ _ s) => some s
  | _ => none

/-- What a wrapper is linked to, or `null`. -/
def previousOf? (v : Value) : Option Value :=
  match v.node with
  | .root _ _ _ => some .null
  | .via _ _ p _ => some (.ofNode p)
  | .plain _ => none

/-- What an element answers. -/
def World.elementDatum? (w : World) (v : Value) : Member → Option Value
  | .elementId => w.idOf? v
  | .graph => graphOf? v
  | .label => w.labelOf? v
  | .reachedForward => (reachedOf? v).map directionValue
  | .element => if v.isTracked then some (.ofNode v.node.strip) else none
  | .previous => previousOf? v
  | _ => none

/-- What an object answers, if it has the member. -/
def World.datum? (w : World) (v : Value) (m : Member) : Option Value :=
  match v, m with
  | .ref .graph place, .isSealed => some (.bool (w.graphAt place).isSealed)
  | .ref .graph place, .vertexCount => some (.int (w.graphAt place).vertexCount)
  | .ref .graph place, .edgeCount => some (.int (w.graphAt place).edgeCount)
  | .trackedGraph g _, .graph => some g
  | .typedId k _, .kind => some k
  | .typedId _ i, .id => some i
  | .instruction e _ _ _, .emit => some e
  | .instruction _ d _ _, .descend => some d
  | .instruction _ _ c _, .continueSiblings => some c
  | .instruction _ _ _ r, .resetPath => some r
  | .condition kind _ _ _ _, .kind => some (.str (conditionTag kind))
  | .op (.condition kind), .kind => some (.str (conditionTag kind))
  | .condition _ v _ _ _, .value => some v
  | .condition _ _ m _ _, .message => some m
  | .condition _ _ _ d _, .data => some d
  | .action a, .value => some (.str a.tag)
  | .resolution a _ _, .action => some a
  | .resolution _ v _, .value => some v
  | .checkpoint p _ _ _, .path => some p
  | .checkpoint _ e _ _, .element => some e
  | .checkpoint _ _ d _, .depth => some d
  | .failsafe c _ _, .checkpoint => some c
  | .failsafe _ n _, .noResults => some n
  | .config c _ _ _ _, .ceiling => some c
  | .config _ i _ _ _, .interval => some i
  | .config _ _ p _ _, .policy => some p
  | .config _ _ _ d _, .maxDepth => some d
  | .ref .iterator place, .truncated => (w.guardAt? place).map fun s => .bool s.truncated
  | .ref .iterator place, .repeated => (w.guardAt? place).map fun s => .ofOption s.repeated
  | v, m => if v.isElement then w.elementDatum? v m else none

/-! ### What objects do -/

/-- Whether an object does something when a member is called. -/
def doesMember (v : Value) (m : Member) : Bool :=
  match v, m with
  | .ref .graph _, .addVertex | .ref .graph _, .addVertices | .ref .graph _, .setDocument
  | .ref .graph _, .addEdge | .ref .graph _, .addEdges | .ref .graph _, .publish
  | .ref .graph _, .getVertex | .ref .graph _, .vertex | .ref .graph _, .allVertices
  | .ref .graph _, .edges => true
  | .trackedGraph _ _, .getVertex | .trackedGraph _ _, .allVertices => true
  | .ref .blocks _, .nextBlock => true
  | .orderedPath _ _, .conj => true
  | .config _ _ _ _ _, .evolve | .config _ _ _ _ _, .failsafeDue => true
  | .failsafe _ _ _, .descend | .failsafe _ _ _, .advance | .failsafe _ _ _, .cut
  | .failsafe _ _ _, .substitute => true
  | v, .document => v.isElement
  | v, .edgesAt _ => v.layer? = some .vertex
  | v, .endOf _ => v.layer? = some .edge
  | _, _ => false

/-- The signature of a member of an object. -/
def memberSignature (v : Value) (m : Member) : Signature :=
  match v, m with
  | .trackedGraph _ _, .allVertices => {}
  | _, m => m.signature

/-- Reads a member of an object. -/
def readMember (v : Value) (m : Member) : M Value := do
  let w ← get
  match w.datum? v m with
  | some x => World.handOut x
  | none => if doesMember v m then pure (.method m v) else throw .noAttribute

namespace Host

/-- A member of a graph, with arguments. -/
def graphMember (h : Host) (graph : Nat) (m : Member) (arg : Nat → Value) : M Value :=
  match m with
  | .addVertex => addVertex graph (arg 0) (arg 1)
  | .addVertices => h.addVertices graph (arg 0)
  | .setDocument => setDocument graph (arg 0) (arg 1)
  | .addEdge => addEdge graph (arg 0) (arg 1) (arg 2) (arg 3)
  | .addEdges => h.addEdges graph (arg 0) (arg 1)
  | .publish => publish graph
  | .getVertex => getVertex graph (arg 0)
  | .vertex => vertex graph (arg 0)
  | .allVertices => allVertices graph (arg 0)
  | .edges => allEdges graph
  | _ => throw .noAttribute

/-- A member of an element, with arguments. -/
def elementMember (v : Value) (m : Member) (arg : Nat → Value) : M Value := do
  match m with
  | .document => nodeDocument v
  | .edgesAt side => do
    let _ ← Act.ofOption .noAttribute (vertexOf? v)
    World.defer (.neighbours v side (arg 0))
  | .endOf i => endNode v i
  | _ => throw .noAttribute

/-- The next block of a source of blocks, as a list, or `null`. -/
def blockOrNull (h : Host) (place : Nat) : M Value := do
  match ← h.readBlock place with
  | some (block, _) => World.newList block.toArray
  | none => pure .null

/-- What a member of an object stands for, with arguments that may be missing. -/
def performMember (h : Host) (m : Member) (v : Value) (given : Nat → Option Value) : M Value :=
  let arg (i : Nat) : Value := (given i).getD .null
  match v, m with
  | .ref .graph graph, m => h.graphMember graph m arg
  | .trackedGraph _ _, .getVertex => getTracked v (arg 0)
  | .trackedGraph _ _, _ => allTracked v
  | .ref .blocks place, _ => h.blockOrNull place
  | .orderedPath _ _, _ => extendPath v (arg 0)
  | .config _ _ _ _ _, .evolve => evolve v (given 0) (given 1) (given 2) (given 3)
  | .config _ _ _ _ _, _ => failsafeDue v (arg 0)
  | .failsafe _ _ _, .descend => pure (answer .descend .null)
  | .failsafe _ _ _, .advance => pure (answer .advance .null)
  | .failsafe _ _ _, .cut => pure (answer .cut .null)
  | .failsafe _ _ _, _ => pure (answer .substitute (arg 0))
  | v, m => elementMember v m arg

/-- Does what a member of an object stands for. -/
def doMember (h : Host) (m : Member) (v : Value) (args : List Value)
    (named : List (String × Value)) : M Value := do
  let (bound, _) ← Act.ofOption .wrongType ((memberSignature v m).bind? args named)
  let r ← h.performMember m v fun i => bound[i]?.join
  World.handOut r

/-- Calls a member of an object, with arguments by position and by name.  What the object answers
itself is called in its turn. -/
def callMember (h : Host) (m : Member) (v : Value) (args : List Value)
    (named : List (String × Value)) : M Value := do
  let w ← get
  match w.datum? v m with
  | some f => h.call f args named
  | none => if doesMember v m then h.doMember m v args named else throw .noAttribute

end Host

/-! ### Policies -/

/-- The policy to which a fruitless search is fatal. -/
def raiseNoResults (context : Value) : M Value := do
  let checkpoint ← readMember context .checkpoint
  let n ← readMember context .noResults
  let steps ← displayedPlain n
  let element ← readMember checkpoint .element
  let place ← displayed element
  let depth ← readMember checkpoint .depth
  let level ← displayedPlain depth
  throw (.fruitless ("No results after " ++ steps ++ " descent steps (at " ++ place ++ ", depth "
    ++ level ++ ")") n)

end GraphRoutes.Session
