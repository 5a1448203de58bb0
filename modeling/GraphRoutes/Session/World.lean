/-
**The world of a session: lists, graphs, functions and lazy sequences, by their places.**

Lazy sequences are kept as data: a cursor says what kind of sequence it is and how far it has been
read.  A sequence that is only described, and does nothing before it is first read, is kept as its
opening.  Functions that the session makes are kept in the same way.  Nothing in the world is a Lean
function, so the whole state of a session can be looked at.

Sequences are of two sorts.  An open one keeps its state in the world turn by turn: it may be read
while it is being read, and goes on after a failure.  A closed one keeps its state to itself while
it is being read: it cannot be read meanwhile, and a failure is its end.

Main definitions:

* `GraphRoutes.Session.Function` — the functions that a session makes;
* `GraphRoutes.Session.Test`, `GraphRoutes.Session.Image`, `GraphRoutes.Session.Parts` — what the
  filters, the projections and the flattening sequences do with an item;
* `GraphRoutes.Session.Opening`, `GraphRoutes.Session.Cursor` — lazy sequences, described and begun;
* `GraphRoutes.Session.Bag` — sets that may grow;
* `GraphRoutes.Session.World` — the world;
* `GraphRoutes.Session.M` — actions of a session;
* `GraphRoutes.Session.World.cursorCell`, `GraphRoutes.Session.World.sharedCell` — where sequences
  keep their state.
-/
import GraphRoutes.Descent.Search
import GraphRoutes.Dictionary
import GraphRoutes.Merge.Blocks
import GraphRoutes.Merge.RoundRobin
import GraphRoutes.Merge.Shared
import GraphRoutes.Neighbourhood
import GraphRoutes.Route.Distinct
import GraphRoutes.Route.Flatten
import GraphRoutes.Route.Guard
import GraphRoutes.Route.Loop
import GraphRoutes.Route.Select
import GraphRoutes.Session.Expr
import GraphRoutes.Session.Fault

set_option relaxedAutoImplicit false
set_option autoImplicit false

namespace GraphRoutes.Session

open GraphRoutes.Route

/-! ### Functions -/

/-- The functions that a session makes. -/
inductive Function where
  /-- A function of the program, with the parameters bound around it. -/
  | closure (parameters : List String) (body : Expr) (scope : List (String × Value))
  /-- Answers every call with one value. -/
  | constant (v : Value)
  /-- Logs its arguments and passes them on. -/
  | traced (name f : Value)
  /-- Whether a value matches. -/
  | matching (m : Value)
  /-- Steps, one after the other. -/
  | pipeline (steps : List Value)
  /-- Handlers, asked in order. -/
  | chained (handlers : List Value)
  /-- A handler with one decision. -/
  | deciding (v : Value)
  /-- A policy that ends a search with one result. -/
  | substituting (v : Value)

/-! ### What is done with an item -/

/-- The sets in which a filter looks its items up. -/
inductive Pool where
  /-- One that does not change. -/
  | fixed (members : Indexed Key Value)
  /-- One that may grow, by its place. -/
  | live (place : Nat)

/-- The tests of the filters. -/
inductive Test where
  | equals (v : Value) (negated : Bool)
  | among (pool : Pool) (negated : Bool)
  | projects (f wanted : Value)
  | idMatches (m : Value) (negated : Bool)
  | labelMatches (m : Value)
  | kindMatches (m : Value)
  | hasProperty (key value : Value)
  | looksAhead (f least most : Value) (negated : Bool)
  | closesCycle (children bound : Value) (negated : Bool)
  | unseen (seen update : Value)

/-- What a step does with the route of each vertex. -/
inductive Post where
  | none
  | calls (f : Value)
  | sorts (key : Value)

/-- The images of the projections. -/
inductive Image where
  | endOf (i : End)
  | farVertex (onUnknown : Value)
  | nearVertex (onUnknown : Value)
  | document
  | pairedWith (f : Value)
  | pairOf (f g : Value)
  | tracked
  | route
  | group (direction : Direction) (gives : Yield) (labels : Option (Std.HashSet Key)) (post : Post)

/-- What a flattening sequence makes of an item before it reads it. -/
inductive Parts where
  /-- The item is a route. -/
  | routes
  /-- A function of the section of the item. -/
  | sections (f sectionOf : Value)
  /-- A function of the item and its section. -/
  | contexts (f sectionOf : Value)
  /-- The section of the item, sorted. -/
  | sortedSections (key sectionOf : Value)

/-! ### Descents -/

/-- A descent along functions of the program. -/
structure DescentPlan where
  children : Value
  control : Value
  config : Value
  givesPaths : Bool

/-- A search along a function of the program. -/
structure SearchPlan where
  shape : SearchShape
  children : Value
  pred : Value := .null
  pathPred : Value := .null
  elementPred : Value := .null
  config : Value := .null

/-- The limits and the policy of a configuration. -/
structure Tuning where
  limits : Limits
  policy : Value

/-! ### Lazy sequences -/

/-- Lazy sequences that have not begun. -/
inductive Opening where
  | groups (route labels : Value) (direction : Direction) (gives : Yield) (post : Post)
  | neighbours (x : Value) (side : Side) (labels : Value)
  | bothEnds (route : Value)
  | property (route key value : Value)
  | parts (route : Value) (parts : Parts)
  | distinctBy (route key : Value)
  | distinctIn (route seen update : Value)
  | alternate (sizes collection : Value) (keepFirst : Bool)
  | roundRobin (branches : Value)
  | descent (plan : DescentPlan) (route path : Value)
  | search (plan : SearchPlan) (route : Value)
  | spying (name route : Value)

/-- What a sequence of items that are at hand was taken from. -/
inductive ItemsOf where
  | tuple
  | text (ascii : Bool)
  | dict
  | set
  /-- Items that were gathered for reading. -/
  | gathered
  deriving DecidableEq, Repr

/-- Lazy sequences, as far as they have been read. -/
inductive Cursor where
  /-- Being read just now. -/
  | running
  /-- Over. -/
  | finished
  /-- Not begun. -/
  | deferred (o : Opening)
  -- open sequences
  | items (of : ItemsOf) (rest : List Value)
  /-- A list that is being read, with the position of the next item, unless its end was reached. -/
  | listFrom (place : Nat) (position : Option Nat)
  /-- The members of a set that may grow, with its size at the beginning, unless it has been found to
  have grown. -/
  | members (place : Nat) (size : Option Nat) (rest : List Value)
  /-- Numbers from `next` on, by steps of one size. -/
  | countFrom (next step : Value)
  | looping (s : Loop Value Value)
  | taking (s : Slice Value)
  /-- A function on the items of one source or of several in step. -/
  | mapping (f source : Value) (others : List Value)
  /-- The answers of a function, until one equals the sentinel. -/
  | calling (f sentinel : Value) (done : Bool)
  | copy (shared position : Nat)
  | cut (s : Merge.Cut Value)
  /-- Sequences one after the other. -/
  | chained (s : Flat Value Value)
  | guard (handler strict : Value) (s : Guard Value Key Value)
  -- closed sequences
  | spying (name source : Value)
  | blockItems (s : Flat Nat (List Value))
  | links (x : Option Node)
  | neighbours (s : Neighbourhood Value EdgeRef Key)
  | select (test : Test) (source : Value)
  | each (image : Image) (source : Value)
  | ends (s : Both Value Value)
  | parts (parts : Parts) (s : Flat Value Value)
  | distinct (key : Value) (s : Distinct Value Key)
  | rotation (s : Merge.Rotation Value Nat Value)
  | alternate (s : Alternating Value Value)
  | descent (plan : DescentPlan) (tuning : Tuning) (s : Walk Value Value Value Value)
  | search (plan : SearchPlan) (tuning : Tuning) (s : Search Keyed Value)

/-! ### The world -/

/-- The graphs of a session. -/
abbrev Graph : Type := Store Value Key Value Value

/-- Sets that may grow: the members under their keys, in the order in which they were added. -/
abbrev Bag : Type := Dictionary Key Value Unit

/-- The members of a set, in order. -/
def Bag.values (b : Bag) : List Value := b.toList.map (·.name)

/-- The members of a set in a row. -/
def Bag.members (b : Bag) : Indexed Key Value := b.indexed (·.name)

/-- One member more, unless there is one with the same key. -/
def Bag.add (k : Key) (v : Value) (b : Bag) : Bag := b.put k v ()

/-- An edge that stands by itself.  Nobody checks what it was given as its vertices. -/
structure BareEdge where
  id : Value
  label : Value
  source : Value
  target : Value
  document : Value

/-- The world of a session. -/
structure World where
  lists : Array (Array Value) := #[]
  bags : Array Bag := #[]
  graphs : Array Graph := #[]
  bareEdges : Array BareEdge := #[]
  functions : Array Function := #[]
  cursors : Array Cursor := #[]
  /-- Sources of blocks: the iterator over the blocks. -/
  blocks : Array Value := #[]
  /-- Lineages: the value from which one walks back. -/
  histories : Array Value := #[]
  shared : Array (Merge.Shared Value Value) := #[]
  bindings : List (String × Value) := []
  /-- How many marks objects have been given. -/
  marks : Nat := 1
  log : Array Rendered := #[]
  logging : Bool := false

/-- Actions of a session. -/
abbrev M (α : Type) : Type := Act World Fault α

namespace World

/-! ### Reading -/

/-- The items of a list. -/
def listAt (w : World) (place : Nat) : Array Value := w.lists[place]?.getD #[]

/-- A set that may grow. -/
def bagAt (w : World) (place : Nat) : Bag := w.bags[place]?.getD .empty

/-- A graph. -/
def graphAt (w : World) (place : Nat) : Graph := w.graphs[place]?.getD {}

/-! ### Handing out -/

/-- A value as it is handed out: an object gets a mark of its own, unless it has one. -/
def handOut (v : Value) : M Value :=
  if v.unmarked then
    modifyGet fun w =>
      let (v, marks) := v.marked w.marks
      (v, { w with marks })
  else
    pure v

/-- A mark that no object has. -/
def newMark : M Mark := modifyGet fun w => (some w.marks, { w with marks := w.marks + 1 })

/-! ### Making -/

/-- A new list. -/
def newList (items : Array Value) : M Value := do
  let items ← items.mapM handOut
  modifyGet fun w => (.ref .list w.lists.size, { w with lists := w.lists.push items })

/-- A new set that may grow. -/
def newBag (members : Bag) : M Value := do
  modifyGet fun w => (.ref .bag w.bags.size, { w with bags := w.bags.push members })

/-- A new graph. -/
def newGraph (g : Graph) : M Value := do
  modifyGet fun w => (.ref .graph w.graphs.size, { w with graphs := w.graphs.push g })

/-- A new edge that stands by itself. -/
def newBareEdge (e : BareEdge) : M Value := do
  modifyGet fun w =>
    (.edge (.bare w.bareEdges.size) none, { w with bareEdges := w.bareEdges.push e })

/-- A new function. -/
def newFunction (f : Function) : M Value := do
  modifyGet fun w => (.ref .function w.functions.size, { w with functions := w.functions.push f })

/-- A new lazy sequence. -/
def newCursor (c : Cursor) : M Value := do
  modifyGet fun w => (.ref .iterator w.cursors.size, { w with cursors := w.cursors.push c })

/-- A new lazy sequence that has not begun. -/
def defer (o : Opening) : M Value := newCursor (.deferred o)

/-- A new source of blocks over an iterator. -/
def newBlocks (source : Value) : M Value := do
  modifyGet fun w => (.ref .blocks w.blocks.size, { w with blocks := w.blocks.push source })

/-- A new lineage. -/
def newHistory (start : Value) : M Value := do
  modifyGet fun w => (.ref .history w.histories.size, { w with histories := w.histories.push start })

/-- A new shared source; its place. -/
def newShared (s : Merge.Shared Value Value) : M Nat := do
  modifyGet fun w => (w.shared.size, { w with shared := w.shared.push s })

/-! ### Changing -/

/-- Sets a lazy sequence. -/
def setCursor (place : Nat) (c : Cursor) : M Unit :=
  modify fun w => { w with cursors := w.cursors.setIfInBounds place c }

/-- Runs a change of a graph.  A failure keeps what the change has done; `unknown` is the failure for
an id that the graph does not have. -/
def editGraph {α : Type} (place : Nat) (unknown : M Fault) (edit : Store.Edit Value Key Value Value α) :
    M α := fun w =>
  let g := w.graphAt place
  let w := { w with graphs := w.graphs.setIfInBounds place {} }
  match edit g with
  | .ok a g => .ok a { w with graphs := w.graphs.setIfInBounds place g }
  | .error e g =>
    let w := { w with graphs := w.graphs.setIfInBounds place g }
    match e with
    | .isSealed => .error .sealedGraph w
    | .unhashable => .error .wrongType w
    | .unknown => (do throw (← unknown) : M α) w

/-- Adds an entry to the log. -/
def record (entry : Rendered) : M Unit := modify fun w => { w with log := w.log.push entry }

/-! ### Cells -/

/-- Where the sequence at a place keeps a state that `view` finds in it and `make` puts there;
`start` is the state if there is none. -/
@[inline] def cursorCell {σ : Type} (start : σ) (view : Cursor → Option σ) (make : σ → Cursor)
    (place : Nat) : Cell World σ where
  get w := (w.cursors[place]?.bind view).getD start
  update f w := { w with cursors := w.cursors.modify place fun c => make (f ((view c).getD start)) }

/-- Where the shared source at a place keeps its state. -/
def sharedCell (place : Nat) : Cell World (Merge.Shared Value Value) where
  get w := w.shared[place]?.getD { source := .null }
  update f w := { w with shared := w.shared.modify place f }

/-! ### Looking -/

/-- What a look at the world comes to. -/
def look {α : Type} (f : World → Except Fault α) : M α := fun w =>
  match f w with
  | .ok a => .ok a w
  | .error e => .error e w

end World

end GraphRoutes.Session
