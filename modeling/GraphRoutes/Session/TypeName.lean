/-
**The names of types and of operations.**

Texts name the type of a value, and an operation that is written as a text is written by its name.
An operation is a function; or it is built into the session, and then it has a name; or it is a type,
and then it has a name with the place at which it is found.

Main definitions:

* `GraphRoutes.Session.OpSort`, `GraphRoutes.Session.Op.sort` — what an operation is;
* `GraphRoutes.Session.Member.name` — the names of what objects do;
* `GraphRoutes.Session.World.typeName` — the name of the type of a value.
-/
import GraphRoutes.Session.World

set_option relaxedAutoImplicit false
set_option autoImplicit false

namespace GraphRoutes.Session

/-- The name of a kind of conditions, as a type. -/
def conditionTypeName : ConditionKind → String
  | .general => "Condition"
  | .cycle => "CycleCondition"
  | .unknownDirection => "UnknownDirectionCondition"

/-! ### Operations -/

/-- What an operation is. -/
inductive OpSort where
  | function
  /-- An operation that is built in, by its name. -/
  | builtIn (name : String)
  /-- A type, by its full name. -/
  | type (name : String)
  /-- A type of elements or of graphs, by its full name. -/
  | elementType (name : String)
  deriving DecidableEq, Repr

/-- What an operation is. -/
def Op.sort : Op → OpSort
  | equal false => .builtIn "eq"
  | equal true => .builtIn "ne"
  | less => .builtIn "lt"
  | greater => .builtIn "gt"
  | add => .builtIn "add"
  | multiply => .builtIn "mul"
  | remainder => .builtIn "mod"
  | negate => .builtIn "neg"
  | not => .builtIn "not_"
  | size => .builtIn "len"
  | display => .builtIn "repr"
  | iterator => .builtIn "iter"
  | next => .builtIn "next"
  | total => .builtIn "sum"
  | largest => .builtIn "max"
  | smallest => .builtIn "min"
  | truth => .type "bool"
  | listOf => .type "list"
  | setOf => .type "frozenset"
  | bagOf => .type "set"
  | map => .type "map"
  | countFrom => .type "itertools.count"
  | loop => .type "itertools.cycle"
  | typedId false => .type "wend.graph.types.KindId"
  | orderedPath => .type "wend.descent.engine.OrderedPath"
  | instruction => .type "wend.descent.control.Instruction"
  | condition kind => .type ("wend.conditions." ++ conditionTypeName kind)
  | checkpoint => .type "wend.descent.config.SearchCheckpoint"
  | failsafe => .type "wend.descent.config.FailsafeContext"
  | resolution => .type "wend.descent.config.Resolution"
  | config => .type "wend.descent.config.TraversalConfig"
  | guard => .type "wend.traversal.guards.RepeatGuard"
  | blocks => .type "wend.traversal.merge.Chunks"
  | newGraph => .elementType "wend.graph._rustworkx.RustworkxGraph"
  | trackVertex => .elementType "wend.path.PathVertex"
  | trackEdge => .elementType "wend.path.PathEdge"
  | trackGraph => .elementType "wend.path.PathGraph"
  | bareEdge => .elementType "__main__.BareEdge"
  | _ => .function

/-- The name of the type of an operation. -/
def OpSort.typeName : OpSort → String
  | function => "function"
  | builtIn _ => "builtin_function_or_method"
  | type _ => "type"
  | elementType _ => "ABCMeta"

/-- An operation as a text. -/
def OpSort.text : OpSort → String
  | function => "<function>"
  | builtIn name => "<built-in function " ++ name ++ ">"
  | type name | elementType name => "<class '" ++ name ++ "'>"

/-! ### Members -/

/-- The name of what an object does. -/
def Member.name : Member → String
  | addVertex => "add_vertex"
  | addVertices => "add_vertices"
  | setDocument => "set_document"
  | addEdge => "add_edge"
  | addEdges => "add_edges"
  | publish => "seal"
  | getVertex => "get_vertex"
  | vertex => "vertex"
  | allVertices => "all_vertices"
  | edges => "edges"
  | document => "get_document"
  | edgesAt .outgoing => "out_edges"
  | edgesAt .incoming => "in_edges"
  | endOf .source => "out_vertex"
  | endOf .target => "in_vertex"
  | nextBlock => "next_block"
  | conj => "conj"
  | descend => "descend"
  | advance => "advance"
  | cut => "cut"
  | substitute => "substitute"
  | evolve => "evolve"
  | failsafeDue => "failsafe_due"
  | _ => ""

/-! ### Values -/

namespace World

/-- The name of the type of a lazy sequence. -/
def cursorTypeName : Cursor → String
  | .items .tuple _ => "tuple_iterator"
  | .items (.text true) _ => "str_ascii_iterator"
  | .items (.text false) _ => "str_iterator"
  | .items .dict _ => "dict_keyiterator"
  | .items .set _ | .members _ _ _ => "set_iterator"
  | .listFrom _ _ => "list_iterator"
  | .countFrom _ _ => "count"
  | .looping _ => "cycle"
  | .taking _ => "islice"
  | .mapping _ _ _ => "map"
  | .copy _ _ => "_tee"
  | .cut _ | .calling _ _ _ => "callable_iterator"
  | .guard _ _ _ => "RepeatGuard"
  | .chained _ => "chain"
  | _ => "generator"

/-- The name of the type of a value. -/
def typeName (w : World) : Value → String
  | .null => "NoneType"
  | .bool _ => "bool"
  | .int _ => "int"
  | .str _ => "str"
  | .typedId _ _ => "KindId"
  | .instruction _ _ _ _ => "Instruction"
  | .action _ => "FailsafeAction"
  | .op o => o.sort.typeName
  | .method _ _ => "method"
  | .ref .list _ => "list"
  | .ref .bag _ => "set"
  | .ref .graph _ => "RustworkxGraph"
  | .ref .function _ => "function"
  | .ref .iterator place => (w.cursors[place]?.map cursorTypeName).getD "generator"
  | .ref .blocks _ => "Chunks"
  | .ref .history _ => "ReversePath"
  | .tuple _ _ => "tuple"
  | .dict _ _ => "dict"
  | .set _ _ => "frozenset"
  | .orderedPath _ _ => "OrderedPath"
  | .vertex _ _ => "RxVertex"
  | .edge (.stored _ _) _ => "RxEdge"
  | .edge (.bare _) _ => "BareEdge"
  | .tracked x =>
    match x.layer? Value.sort with
    | some .vertex => "PathVertex"
    | _ => "PathEdge"
  | .trackedGraph _ _ => "PathGraph"
  | .condition kind _ _ _ _ => conditionTypeName kind
  | .resolution _ _ _ => "Resolution"
  | .checkpoint _ _ _ _ => "SearchCheckpoint"
  | .failsafe _ _ _ => "FailsafeContext"
  | .config _ _ _ _ _ => "TraversalConfig"

end World

end GraphRoutes.Session
