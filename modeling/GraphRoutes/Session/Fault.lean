/-
**The failures of a session, by their causes.**

Main definitions:

* `GraphRoutes.Session.InvalidArgument` — why an operation refuses an argument;
* `GraphRoutes.Session.Fault` — the failures;
* `GraphRoutes.Session.InvalidArgument.message`, `GraphRoutes.Session.Fault.message?` — their texts.
-/
import GraphRoutes.Session.Rendered
import GraphRoutes.Session.Value
import GraphRoutes.Text.Quoted

set_option relaxedAutoImplicit false
set_option autoImplicit false

namespace GraphRoutes.Session

/-- Why an operation refuses an argument.  The texts show the argument, or name its type. -/
inductive InvalidArgument where
  | edgeEntry (got : String)
  | ceilingNotPositive (got : String)
  | intervalNotPositive (got : String)
  | depthNegative (got : String)
  | policyNotCallable (got : String)
  | unsupportedPath (type : String)
  | unorderedPath (type : String)
  | blockSize (got : String)
  | lengthBound (parameter got : String)
  | depthBound (got : String)
  | untrackable (type : String)
  | notInstruction (got : String)
  deriving DecidableEq, Repr

/-- The text of a refusal. -/
def InvalidArgument.message : InvalidArgument → String
  | edgeEntry got => "Edge entries must have 2 or 3 items, got " ++ got
  | ceilingNotPositive got => "no_result_ceiling must be positive, got " ++ got
  | intervalNotPositive got => "no_result_interval must be positive, got " ++ got
  | depthNegative got => "max_depth must not be negative, got " ++ got
  | policyNotCallable got => "no_result_policy must be callable, got " ++ got
  | unsupportedPath type => "Unsupported path type " ++ type
  | unorderedPath type => "descents needs an ordered starting path, got " ++ type
  | blockSize got => "chunk size must be at least 1, got " ++ got
  | lengthBound parameter got =>
    parameter ++ " must be a positive path length or a function, got " ++ got
  | depthBound got => "max_depth must be at least 1, got " ++ got
  | untrackable type =>
    "Cannot track paths for " ++ type ++ ": expected a vertex, edge or graph"
  | notInstruction got =>
    "Control must return an Instruction or one of ["
      ++ ", ".intercalate (Preset.all.map fun p => Text.quoted p.name) ++ "], got " ++ got

/-- The failures of a session. -/
inductive Fault where
  | wrongType
  | badValue
  | noAttribute
  | badIndex
  | missingKey
  | exhausted
  | divisionByZero
  | overflow
  | outOfMemory
  | interrupted
  | raised (message : String)
  | invalid (cause : InvalidArgument)
  | sealedGraph
  | notFound (id : String)
  | condition (kind : ConditionKind) (value message data : Value)
  | fruitless (message : String) (noResults : Value)
  | outOfFuel

/-- The kind of a failure. -/
def Fault.kind : Fault → FaultKind
  | wrongType => .wrongType
  | badValue => .badValue
  | noAttribute => .noAttribute
  | badIndex => .badIndex
  | missingKey => .missingKey
  | exhausted => .exhausted
  | divisionByZero => .divisionByZero
  | overflow => .overflow
  | outOfMemory => .outOfMemory
  | interrupted => .interrupted
  | raised _ => .raised
  | invalid _ => .invalidArgument
  | sealedGraph => .sealedGraph
  | notFound _ => .notFound
  | condition kind _ _ _ => .condition kind
  | fruitless _ _ => .fruitless
  | outOfFuel => .outOfFuel

/-- The text of a failure that has one of its own.  An unknown id is quoted inside a quoted text. -/
def Fault.message? : Fault → Option String
  | raised message => some message
  | invalid cause => some cause.message
  | sealedGraph => some "Graph is sealed; build a new graph to make changes"
  | notFound id => some (Text.quoted ("Vertex not found: " ++ id))
  | fruitless message _ => some message
  | _ => none

end GraphRoutes.Session
