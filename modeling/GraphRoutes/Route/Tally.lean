/-
**Counting equal items.**

A tally counts the items of a route by their keys, in the order in which the keys are first seen.
Inverting it lists the names under each count, again in the order in which the counts are first
met, so an inverted tally never has an empty list.

Main definitions:

* `GraphRoutes.Route.tally` — how often each key occurs;
* `GraphRoutes.Route.invert` — the names under each value;
* `GraphRoutes.Route.byCount` — the names that occur so often, for the counts above a bound.
-/
import GraphRoutes.Dictionary

set_option relaxedAutoImplicit false
set_option autoImplicit false

namespace GraphRoutes.Route

variable {key name β : Type} [DecidableEq key] [Hashable key]

/-- One more occurrence of a name. -/
def recount (d : Dictionary key name Nat) (x : key × name) : Dictionary key name Nat :=
  d.adjust x.1 x.2 (fun n => n.getD 0 + 1)

/-- How often each key occurs, in first-seen order. -/
def tally (items : List (key × name)) : Dictionary key name Nat :=
  items.foldl recount .empty

/-- The names that stand under each value, in order; values are told apart by their keys. -/
def invert {valueKey : Type} [DecidableEq valueKey] [Hashable valueKey] (keyOf : β → valueKey)
    (entries : List (name × β)) : Dictionary valueKey β (Array name) :=
  entries.foldl (fun d e => d.adjust (keyOf e.2) e.2 (fun names => (names.getD #[]).push e.1)) .empty

/-- The names that occur so often, for each count that is at least `least`. -/
def byCount (least : Int) (counts : Dictionary key name Nat) : Dictionary Nat Nat (Array name) :=
  invert id ((counts.toList.map fun e => (e.name, e.value)).filter fun e => least ≤ e.2)

end GraphRoutes.Route
