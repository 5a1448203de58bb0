/-
**Operations on configurations, policies and paths.**

Main definitions:

* `GraphRoutes.Session.evolve`, `GraphRoutes.Session.failsafeDue` — configurations;
* `GraphRoutes.Session.answer` — the answers of policies;
* `GraphRoutes.Session.Host.orderedPath`, `GraphRoutes.Session.resetPath` — paths and instructions.
-/
import GraphRoutes.Session.Ops.Values

set_option relaxedAutoImplicit false
set_option autoImplicit false

namespace GraphRoutes.Session

/-- A configuration with some parts changed. -/
def evolve (config : Value) (ceiling interval policy maxDepth : Option Value) : M Value := do
  match config with
  | .config c i p d _ =>
    makeConfig (ceiling.getD c) (interval.getD i) (policy.getD p) (maxDepth.getD d)
  | _ => throw .noAttribute

/-- Whether the policy of a configuration is asked at a count of fruitless steps. -/
def failsafeDue (config n : Value) : M Value := do
  match config with
  | .config c i _ d _ => do
    let n ← number n
    pure (.bool (0 ≤ n && (limitsOf c i d).due n.toNat))
  | _ => throw .noAttribute

/-- The answer of a policy that takes an action, with a value. -/
def answer (action : Action) (value : Value) : Value :=
  .resolution (.action action) value none

/-- An instruction after which the path of the children begins anew. -/
def resetPath (v : Value) : M Value := do
  match ← coerceInstruction v with
  | .instruction e d c _ => pure (.instruction e d c (.bool true))
  | v => pure v

/-- Whether a value is a path with an order. -/
def isOrderedPath (v : Value) : M Bool := do
  let w ← get
  pure (pathItems? w v).isSome

/-- A path that also answers membership, with the items of a sequence. -/
def Host.orderedPath (h : Host) (items : Value) : M Value := do
  let xs ← h.items items
  let _ ← xs.mapM keyOf
  pure (.orderedPath (.ofList Value.spell xs) none)

end GraphRoutes.Session
