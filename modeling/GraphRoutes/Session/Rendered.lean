/-
**What a session shows.**

The answers of a session are trees of texts, numbers, lists and records.  A failure that is shown
keeps its kind, and is written with the name of its kind in front of all else.

Main definitions:

* `GraphRoutes.Session.FaultKind`, `GraphRoutes.Session.FaultKind.name` — the kinds of failures, and
  their names;
* `GraphRoutes.Session.Rendered` — the trees;
* `GraphRoutes.Session.Rendered.text` — a tree as compact text in ASCII.
-/
import GraphRoutes.Condition
import GraphRoutes.Text.Ascii

set_option relaxedAutoImplicit false
set_option autoImplicit false

namespace GraphRoutes.Session

/-- The kinds of failures. -/
inductive FaultKind where
  /-- A value of the wrong type, or arguments that do not fit. -/
  | wrongType
  /-- A value out of range, or an unusable count. -/
  | badValue
  /-- An object without this attribute or method. -/
  | noAttribute
  /-- A position outside a sequence. -/
  | badIndex
  /-- A key that a dictionary does not have. -/
  | missingKey
  /-- The end of an iterator. -/
  | exhausted
  /-- A division by zero. -/
  | divisionByZero
  /-- A number that no count of items can be. -/
  | overflow
  /-- A sequence that would become too large. -/
  | outOfMemory
  /-- The end of some iterator, reported from inside a lazy sequence. -/
  | interrupted
  /-- Raised by the program itself. -/
  | raised
  /-- An argument that an operation refuses. -/
  | invalidArgument
  /-- A change of a sealed graph. -/
  | sealedGraph
  /-- A vertex id that a graph does not have. -/
  | notFound
  /-- A condition that nobody resolved. -/
  | condition (kind : ConditionKind)
  /-- A search without results. -/
  | fruitless
  /-- More steps than a session may take. -/
  | outOfFuel
  deriving DecidableEq, Repr

/-- The name of a kind of failures. -/
def FaultKind.name : FaultKind → String
  | wrongType => "TypeError"
  | badValue => "ValueError"
  | noAttribute => "AttributeError"
  | badIndex => "IndexError"
  | missingKey => "KeyError"
  | exhausted => "StopIteration"
  | divisionByZero => "ZeroDivisionError"
  | overflow => "OverflowError"
  | outOfMemory => "MemoryError"
  | interrupted => "RuntimeError"
  | raised => "UserError"
  | invalidArgument => "InvalidArgumentError"
  | sealedGraph => "GraphSealedError"
  | notFound => "ElementNotFoundError"
  | condition .general => "ConditionError"
  | condition .cycle => "CycleError"
  | condition .unknownDirection => "UnknownDirectionError"
  | fruitless => "NoResultsError"
  | outOfFuel => "RecursionError"

/-- The trees that a session shows. -/
inductive Rendered where
  | null
  | bool (b : Bool)
  | int (n : Int)
  | str (s : String)
  | list (items : List Rendered)
  | record (fields : List (String × Rendered))
  | failure (kind : FaultKind) (details : List (String × Rendered))
  deriving Repr, Inhabited

namespace Rendered

/-- A record with one field. -/
def tagged (tag : String) (r : Rendered) : Rendered := .record [(tag, r)]

mutual

/-- A tree as compact text. -/
def text : Rendered → String
  | .null => "null"
  | .bool b => if b then "true" else "false"
  | .int n => toString n
  | .str s => Text.asciiQuoted s
  | .list items => "[" ++ ",".intercalate (itemTexts items) ++ "]"
  | .record fields => "\x7b" ++ ",".intercalate (fieldTexts fields) ++ "\x7d"
  | .failure kind details =>
    let kindText := "\"error\":" ++ Text.asciiQuoted kind.name
    "\x7b" ++ ",".intercalate (kindText :: fieldTexts details) ++ "\x7d"

/-- The texts of several trees. -/
def itemTexts : List Rendered → List String
  | [] => []
  | r :: rs => text r :: itemTexts rs

/-- The texts of the fields of a record. -/
def fieldTexts : List (String × Rendered) → List String
  | [] => []
  | (n, r) :: rs => (Text.asciiQuoted n ++ ":" ++ text r) :: fieldTexts rs

end

/-- Trees in the order of their texts. -/
def sortByText (rs : List Rendered) : List Rendered :=
  ((rs.map fun r => (r.text, r)).mergeSort fun x y => x.1 ≤ y.1).map (·.2)

end Rendered

end GraphRoutes.Session
