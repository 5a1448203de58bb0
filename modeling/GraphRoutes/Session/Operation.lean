/-
**The operations of a session, and how they take their arguments.**

A session is a small program over graphs and routes.  Its vocabulary is fixed: operations that may
be called or passed as values, and members of objects, which are read or called.  Each operation has
a signature, by which positional and named arguments are matched to its parameters.

Main definitions:

* `GraphRoutes.Session.Op`, `GraphRoutes.Session.Member` — the vocabulary;
* `GraphRoutes.Session.Signature`, `GraphRoutes.Session.Signature.bind?` — matching arguments to
  parameters;
* `GraphRoutes.Session.Op.signature`, `GraphRoutes.Session.Member.signature` — the signatures.
-/
import GraphRoutes.Condition
import GraphRoutes.Neighbourhood
import GraphRoutes.Descent.Search

set_option relaxedAutoImplicit false
set_option autoImplicit false

namespace GraphRoutes.Session

/-! ### Signatures -/

/-- The parameters of an operation: those that must be given, those that may be left out, those
that are given by name only, how many of the first are given by position only, and whether any number
of further arguments is taken. -/
structure Signature where
  required : List String := []
  optional : List String := []
  named : List String := []
  unnamed : Nat := 0
  open_ : Bool := false
  deriving Repr

namespace Signature

variable {ν : Type}

/-- The parameters in the order in which an operation receives them. -/
def parameters (s : Signature) : List String := s.required ++ s.optional ++ s.named

/-- The names by which arguments may be given; a parameter that is given by position only has none. -/
def names (s : Signature) : List (Option String) :=
  s.parameters.zipIdx.map fun (p, i) => if i < s.unnamed then none else some p

/-- Places arguments by position: the parameters without an argument get nothing. -/
def place : List (Option String) → List ν → List (Option String × Option ν)
  | [], _ => []
  | p :: ps, [] => (p, none) :: place ps []
  | p :: ps, a :: as => (p, some a) :: place ps as

/-- Places one argument by name; it must have a parameter that has no argument yet. -/
def placeNamed? (x : String × ν) :
    List (Option String × Option ν) → Option (List (Option String × Option ν))
  | [] => none
  | (p, a) :: ps =>
    if p = some x.1 then
      match a with
      | none => some ((p, some x.2) :: ps)
      | some _ => none
    else (placeNamed? x ps).map ((p, a) :: ·)

/-- The arguments in the order of the parameters, and the further arguments; nothing if they do not
fit the signature. -/
def bind? (s : Signature) (args : List ν) (named : List (String × ν)) :
    Option (List (Option ν) × List ν) := do
  let positional := s.required.length + s.optional.length
  let extra := args.drop positional
  if !extra.isEmpty && !s.open_ then failure
  let placed := place s.names (args.take positional)
  let placed ← named.foldlM (fun placed x => placeNamed? x placed) placed
  if (placed.take s.required.length).any fun p => p.2.isNone then failure
  return (placed.map (·.2), extra)

end Signature

/-! ### Vocabulary -/

/-- A step from vertices along their edges. -/
structure StepShape where
  direction : Direction
  gives : Yield
  /-- One route per vertex, or all of them flattened. -/
  grouped : Bool
  deriving DecidableEq, Repr, Ord

/-- A step from edges to their vertices. -/
inductive EndStep where
  | sources
  | targets
  | targetsThenSources
  | far
  | near
  deriving DecidableEq, Repr, Ord

/-- A question about the direction in which an edge was reached. -/
inductive Facing where
  | forward
  | reverse
  | nearVertex
  | farVertex
  deriving DecidableEq, Repr, Ord

/-- A way of searching. -/
structure SearchShape where
  scope : Search.Scope
  cutCycles : Bool := true
  givesPaths : Bool := false
  deriving DecidableEq, Repr, Ord

/-- What a policy does with a fruitless search. -/
inductive Action where
  | descend
  | advance
  | cut
  | substitute
  deriving DecidableEq, Repr, Ord

/-- The operations. -/
inductive Op where
  -- values
  | equal (negated : Bool)
  | less
  | greater
  | add
  | multiply
  | remainder
  | negate
  | not
  | truth
  | size
  | display
  | upper
  | sameHash
  | contains
  | item
  | lookUp
  | makeList
  | makeTuple
  | listOf
  | setOf
  | bagOf
  | dictOf
  | iterator
  | next
  | append
  | apply
  | constant
  | total
  | largest
  | smallest
  | raise
  | countFrom
  | loop
  | take
  | map
  | spy
  | trace
  -- graphs and elements
  | isVertex
  | isEdge
  | isGraph
  | isElement
  | elementId
  | documentOf
  | labelOf
  | edgesAt (side : Side)
  | endOf (i : End)
  | verticesOf
  | vertexWith
  | typedId (shorthand : Bool)
  | kindOf
  | prepareLabels
  | newGraph
  | bareEdge
  -- lineage
  | track
  | isTracked
  | path
  | reversePath
  | strip
  | stripAll
  | repeatedEdge
  | trackVertex
  | trackEdge
  | trackGraph
  | subgraph
  -- conditions
  | condition (kind : ConditionKind)
  | resolve
  | chainHandlers
  | refuse
  | always
  -- steps
  | step (shape : StepShape)
  | sortedStep (direction : Direction)
  | ends (step : EndStep)
  | facing (question : Facing)
  -- filters
  | keepEqual (negated : Bool)
  | keepAmong (negated : Bool)
  | keepProjected
  | keepId (negated : Bool)
  | keepLabel
  | keepKind
  | keepProperty
  | matcher
  | lookahead (negated : Bool)
  | lookaheadElement
  | keepCyclic (negated : Bool)
  -- guards
  | guard
  | truncateOnRepeat
  | failOnRepeat
  -- merging
  | blocks
  | chunked
  | branch
  | keyedBranch
  | mergeExhaustive
  | mergeRoundRobin
  -- routes
  | ensureRoute
  | pipeline
  | iterate
  | gather
  | join
  | documents
  | pairs
  | sections
  | contexts
  | sortedSections
  | sortBy
  | intoSet
  | distinctBy
  | distinctIn
  | pluck
  | indexBy
  | indexByMulti
  | groupCount (sorted : Bool)
  | groupByCount (sorted : Bool)
  | alternate (keepFirst : Bool)
  -- descent
  | descend (givesPaths : Bool)
  | search (shape : SearchShape)
  | config
  | checkpoint
  | failsafe
  | resolution
  | instruction
  | coerceInstruction
  | resetPath
  | cutNoResults
  | continueNoResults
  | raiseNoResults
  | valueForNoResults
  | defaultControl
  | extendPath
  | emptyPath
  | isOrderedPath
  | orderedPath
  deriving DecidableEq, Repr, Ord

/-- The members of objects.  What one object answers itself, another may do when it is called. -/
inductive Member where
  -- graphs
  | addVertex
  | addVertices
  | setDocument
  | addEdge
  | addEdges
  | publish
  | getVertex
  | vertex
  | allVertices
  | edges
  | isSealed
  | vertexCount
  | edgeCount
  -- elements
  | elementId
  | document
  | label
  | reachedForward
  | graph
  | previous
  | element
  | edgesAt (side : Side)
  | endOf (i : End)
  -- ids, conditions, guards, blocks and paths
  | kind
  | id
  | value
  | message
  | data
  | truncated
  | repeated
  | nextBlock
  | conj
  -- descents
  | emit
  | descend
  | continueSiblings
  | resetPath
  | advance
  | cut
  | substitute
  | checkpoint
  | noResults
  | path
  | depth
  | action
  | ceiling
  | interval
  | policy
  | maxDepth
  | evolve
  | failsafeDue
  /-- A name that no object has. -/
  | unknown
  deriving DecidableEq, Repr, Ord

/-! ### The signatures of the vocabulary -/

/-- The parameters of a search. -/
private def searchSignature : Signature :=
  { required := ["r", "children"], optional := ["pred"]
    named := ["path_pred", "element_pred", "config"] }

/-- The signature of an operation. -/
def Op.signature : Op → Signature
  | equal _ | less | greater | add | multiply | remainder =>
    { required := ["a", "b"], unnamed := 2 }
  | negate | not | size | display => { required := ["x"], unnamed := 1 }
  | truth => { optional := ["x"], unnamed := 1 }
  | sameHash => { required := ["a", "b"] }
  | upper => { required := ["s"] }
  | contains => { required := ["x", "coll"] }
  | item => { required := ["coll", "i"] }
  | lookUp => { required := ["dict", "key", "default"] }
  | makeList | makeTuple => { open_ := true }
  | listOf | setOf | bagOf => { optional := ["r"], unnamed := 1 }
  | dictOf => { required := ["pairs"] }
  | iterator => { required := ["r"], optional := ["sentinel"], unnamed := 2 }
  | next => { required := ["it"], optional := ["default"], unnamed := 2 }
  | append => { required := ["list", "x"] }
  | apply => { required := ["f"], open_ := true }
  | constant => { required := ["v"] }
  | total => { required := ["r"], optional := ["start"], unnamed := 1 }
  | largest | smallest => { named := ["key", "default"], open_ := true }
  | raise => { required := ["message"] }
  | countFrom => { optional := ["start", "step"] }
  | loop => { required := ["list"], unnamed := 1 }
  | take => { required := ["n", "r"] }
  | map => { required := ["f", "r"], unnamed := 2, open_ := true }
  | spy => { required := ["name", "r"] }
  | trace => { required := ["name", "f"] }
  | isVertex | isEdge | isGraph | isElement => { required := ["x"] }
  | elementId | documentOf | labelOf | kindOf | endOf _ => { required := ["e"] }
  | edgesAt _ => { required := ["v"], optional := ["labels"] }
  | verticesOf => { required := ["g"] }
  | vertexWith => { required := ["g", "element_id"] }
  | typedId _ => { required := ["kind", "id"] }
  | prepareLabels => { required := ["labels"] }
  | newGraph => {}
  | bareEdge => { required := ["id", "label", "source", "target"], optional := ["document"] }
  | track | isTracked | path | reversePath | strip | stripAll => { required := ["e"] }
  | repeatedEdge => { required := ["e"], optional := ["max_depth"] }
  | trackVertex | trackEdge => { required := ["element"], optional := ["previous"] }
  | trackGraph => { required := ["graph"] }
  | subgraph => { required := ["r"] }
  | condition _ => { required := ["value"], optional := ["message", "data"] }
  | resolve => { required := ["condition"], optional := ["handler"], named := ["default"] }
  | chainHandlers => { open_ := true }
  | refuse => { required := ["condition"] }
  | always => { required := ["decision"] }
  | step _ => { required := ["r"], optional := ["labels", "post"] }
  | sortedStep _ => { required := ["r", "labels", "key"] }
  | ends .far | ends .near => { required := ["r"], optional := ["on_unknown"] }
  | ends _ => { required := ["r"] }
  | facing _ => { required := ["e"], optional := ["on_unknown"] }
  | keepEqual _ => { required := ["r", "value"] }
  | keepAmong _ => { required := ["r", "values"] }
  | keepProjected => { required := ["r", "projection", "match"] }
  | keepId _ | keepLabel | keepKind => { required := ["r", "match"] }
  | keepProperty => { required := ["r", "key", "value"] }
  | matcher => { required := ["match"] }
  | lookahead _ => { required := ["r", "f"], named := ["min_count", "max_count"] }
  | lookaheadElement => { required := ["e", "f"], named := ["min_count", "max_count"] }
  | keepCyclic _ => { required := ["r", "children"], named := ["max_length"] }
  | guard => { required := ["route"], optional := ["on_cycle"], named := ["strict"] }
  | truncateOnRepeat => { required := ["r"] }
  | failOnRepeat => { required := ["r"], optional := ["on_cycle"] }
  | blocks => { required := ["blocks"] }
  | chunked => { required := ["items", "size"] }
  | branch | keyedBranch => { required := ["r", "fs"] }
  | mergeExhaustive | mergeRoundRobin => { required := ["rs"] }
  | ensureRoute | documents => { required := ["r"] }
  | pipeline => { open_ := true }
  | iterate => { required := ["r", "f", "n"] }
  | gather => { required := ["r"], optional := ["into"] }
  | join => { required := ["rs"] }
  | pairs => { required := ["r", "f"], optional := ["g"] }
  | sections | contexts => { required := ["r", "f", "section_fn"] }
  | sortedSections => { required := ["r", "key", "section_fn"] }
  | sortBy => { required := ["f", "coll"] }
  | intoSet => { required := ["r", "f"] }
  | distinctBy => { required := ["r", "key"] }
  | distinctIn => { required := ["r", "seen"], named := ["update"] }
  | pluck => { required := ["r", "f"] }
  | indexBy => { required := ["r", "to_key"], optional := ["to_val"] }
  | indexByMulti => { required := ["r", "to_keys"], optional := ["to_val"] }
  | groupCount _ => { required := ["r"], optional := ["f"] }
  | groupByCount _ => { required := ["r"], optional := ["f"], named := ["min_count"] }
  | alternate _ => { required := ["steps", "coll"] }
  | descend _ =>
    { required := ["coll", "children"], optional := ["control"], named := ["path", "config"] }
  | search _ => searchSignature
  | config =>
    { optional := ["no_result_ceiling", "no_result_interval", "no_result_policy", "max_depth"] }
  | checkpoint => { required := ["path", "element", "depth"] }
  | failsafe => { required := ["checkpoint", "no_results"] }
  | resolution => { required := ["action"], optional := ["value"] }
  | instruction =>
    { required := ["emit", "descend", "continue_siblings"], optional := ["reset_path"] }
  | coerceInstruction => { required := ["value"] }
  | resetPath => { required := ["instruction"] }
  | cutNoResults | continueNoResults | raiseNoResults => { required := ["context"] }
  | valueForNoResults => { required := ["value"] }
  | defaultControl | extendPath => { required := ["path", "element"] }
  | emptyPath | isOrderedPath => { required := ["path"] }
  | orderedPath => { optional := ["items"] }

/-- The signature of a member that is called. -/
def Member.signature : Member → Signature
  | addVertex => { required := ["vertex_id"], optional := ["document"] }
  | addVertices => { required := ["pairs"] }
  | setDocument => { required := ["vertex_id", "document"] }
  | addEdge => { required := ["source", "target", "label"], optional := ["document"] }
  | addEdges => { required := ["label", "edges"] }
  | getVertex | vertex => { required := ["element_id"] }
  | allVertices => { optional := ["kind"] }
  | edgesAt _ => { optional := ["labels"] }
  | conj => { required := ["item"] }
  | evolve =>
    { named := ["no_result_ceiling", "no_result_interval", "no_result_policy", "max_depth"] }
  | failsafeDue => { required := ["no_results"] }
  | substitute => { required := ["value"] }
  | _ => {}

end GraphRoutes.Session
