/-
**Operations on tracked elements.**

Main definitions:

* `GraphRoutes.Session.track`, `GraphRoutes.Session.strip` — wrapping and unwrapping;
* `GraphRoutes.Session.trackElement` — a wrapper with a given link;
* `GraphRoutes.Session.repeatedEdge` — the first repeated edge of a lineage.
-/
import GraphRoutes.Session.Ops.Graphs

set_option relaxedAutoImplicit false
set_option autoImplicit false

namespace GraphRoutes.Session

/-- Makes an element or a graph remember how its elements are reached. -/
def track (v : Value) : M Value := do
  match v.layer?, v with
  | some l, v => pure (v.wrap l)
  | none, .ref .graph _ | none, .trackedGraph _ _ => pure (.trackedGraph v none)
  | none, v => do
    let w ← get
    throw (.invalid (.untrackable (w.typeName v)))

/-- A wrapper around any value, linked to what it is said to be reached from. -/
def trackElement (l : Layer) (element previous : Value) : Value :=
  match previous with
  | .null => element.wrap l
  | p => .tracked (.via l element.node p.node none)

/-- One layer less. -/
def strip : Value → Value
  | .trackedGraph g _ => g
  | v => .ofNode v.node.strip

/-! ### Repeated edges -/

/-- The key of an item of a lineage that is an edge. -/
def edgeKey? (v : Value) : Option Key := if v.layer? = some .edge then some v.spell else none

/-- Whether an item of a lineage can be asked whether it was met before. -/
def isFit (v : Value) : Bool := (edgeKey? v).isNone || v.lasting

/-- What stands on a lineage at the point where it breaks off, before that is found out. -/
def brokenItems (x : Node) : List Value :=
  match x.brokenAt? with
  | some (.checkpoint _ e _ _) => [e]
  | _ => []

/-- The first edge that is met twice on the way back from an element.  The search is over once so
many edges have been remembered.  An edge that cannot be remembered, or a lineage that breaks off,
is a failure if the search gets there. -/
def repeatedEdge (e maxDepth : Value) : M Value := do
  let limit ← match maxDepth with
    | .null => pure none
    | v => do
      let n ← number v
      if n < 1 then
        let text ← displayedPlain v
        throw (.invalid (.depthBound text))
      pure (some n.toNat)
  let x := e.node
  if x.tracked then
    let items := x.links.map Value.ofNode ++ brokenItems x
    let fit := items.takeWhile isFit
    match firstRepeat edgeKey? {} limit fit with
    | .found y => pure y
    | .gaveUp => pure .null
    | .ranOut =>
      if fit.length < items.length then throw .wrongType
      else if x.sound then pure .null
      else throw .noAttribute
  else
    pure .null

end GraphRoutes.Session
