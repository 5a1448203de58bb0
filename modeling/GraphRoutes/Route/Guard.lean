/-
**Guards: a route up to its first repeated element.**

A guard passes a route through and remembers the key of every element.  At an element that it has
seen before it asks for a decision: the repeat is passed on, or the route is truncated there, before
the repeat.  Where the decision fails, the failure is reported and the guard itself stays as it was,
behind the repeat.

An element is looked for before it is remembered, and may be fit to be looked for without being fit
to be remembered; then it can only be a repeat.

A guard may be asked while it asks its source or waits for a decision, so every element has its
position from the moment at which it arrives.

Main definitions:

* `GraphRoutes.Route.Guard` — the state of a guard;
* `GraphRoutes.Route.Guard.turn` — one turn.
-/
import GraphRoutes.Route.Turn
import Std.Data.HashSet

set_option relaxedAutoImplicit false
set_option autoImplicit false

namespace GraphRoutes.Route

/-- The state of a guard: its source, the keys seen so far, the position of the next element, and,
once the route is truncated, the element that was repeated. -/
structure Guard (κ key α : Type) [DecidableEq key] [Hashable key] where
  source : κ
  seen : Std.HashSet key := {}
  position : Nat := 0
  truncated : Bool := false
  repeated : Option α := none

namespace Guard

variable {ω ε κ key α : Type} [DecidableEq key] [Hashable key]

/-- One more element has arrived; `k` is the source behind it. -/
def arrive (k : κ) (s : Guard κ key α) : Guard κ key α :=
  { s with source := k, position := s.position + 1 }

/-- Remembers a key. -/
def remember (x : key) (s : Guard κ key α) : Guard κ key α := { s with seen := s.seen.insert x }

/-- Truncates the route before the repeated element `a`. -/
def truncate (a : α) (s : Guard κ key α) : Guard κ key α :=
  { s with truncated := true, repeated := some a }

/-- One turn of a guard.  `sought` is the key under which an element is looked for, `keyOf` the one
under which it is remembered.  `decide a i` decides whether to go on past the repeated element `a`
at position `i`; `report` hears of a truncation.  A truncated guard asks nothing any more. -/
def turn (c : Cell ω (Guard κ key α)) (next : Source ω ε κ α)
    (sought keyOf : α → Act ω ε key) (decide : α → Nat → Act ω ε Bool)
    (report : α → Nat → Act ω ε Unit) : Act ω ε (Turn α) := do
  let s ← c.read
  if s.truncated then
    pure .ended
  else
    match ← next s.source with
    | none => pure .ended
    | some (a, k) => do
      let s ← c.read
      let position := s.position
      c.modify (arrive k)
      let x ← sought a
      if s.seen.contains x then do
        if ← decide a position then
          pure (.give a)
        else do
          c.modify (truncate a)
          report a position
          pure .ended
      else do
        let x ← keyOf a
        c.modify (remember x)
        pure (.give a)

end Guard

end GraphRoutes.Route
