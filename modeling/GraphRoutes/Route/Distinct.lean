/-
**Routes without repetitions.**

Items are told apart by a key.  `GraphRoutes.Route.distinct` remembers the keys that it has seen
itself; where several routes share one set of seen items, the set lives in the world and the test
`GraphRoutes.Route.unseen` reads and extends it.

Main definitions:

* `GraphRoutes.Route.distinct` — the first item of each key;
* `GraphRoutes.Route.unseen` — the test of a route that shares its set of seen items.
-/
import GraphRoutes.Route.Step
import Std.Data.HashSet

set_option relaxedAutoImplicit false
set_option autoImplicit false

namespace GraphRoutes.Route

variable {ω ε κ key α β : Type} [DecidableEq key] [Hashable key]

/-- The state of a route without repetitions: its source and the keys seen so far. -/
structure Distinct (κ key : Type) [DecidableEq key] [Hashable key] where
  source : κ
  seen : Std.HashSet key := {}

/-- The first item of each image, in order.  `sought` is the key under which an image is looked for,
`keyOf` the one under which it is remembered. -/
@[inline] def distinct (next : Source ω ε κ α) (image : α → Act ω ε β)
    (sought keyOf : β → Act ω ε key) : Machine ω ε (Distinct κ key) α := fun s => do
  match ← next s.source with
  | none => pure .finish
  | some (a, k) => do
    let b ← image a
    let x ← sought b
    if s.seen.contains x then
      pure (.skip { s with source := k })
    else do
      let x ← keyOf b
      pure (.give a { source := k, seen := s.seen.insert x })

/-- Whether an item is new to a shared set; a new one is added where `update` says so. -/
@[inline] def unseen (mem : α → Act ω ε Bool) (add : α → Act ω ε Unit) (update : Act ω ε Bool)
    (a : α) : Act ω ε Bool := do
  if ← mem a then
    pure false
  else do
    if ← update then add a
    pure true

end GraphRoutes.Route
