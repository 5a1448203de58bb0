/-
**Runs: stretches of keyed items that are in order.**

Keys are compared by a test that may fail, `lt`.  A run at the beginning of a list is as long as each
key is below the one before it, or as none is; a falling run is turned round.  A run that is too short
takes the items behind it in, each put into its place by halving: an item goes behind all that it is
not below.

Main definitions:

* `GraphRoutes.Sorting.Less` — tests that compare keys;
* `GraphRoutes.Sorting.firstRun` — the run at the beginning;
* `GraphRoutes.Sorting.insert` — one item put into its place;
* `GraphRoutes.Sorting.longRun` — the run at the beginning, made long enough.
-/
import GraphRoutes.Sorting.Boundary

set_option relaxedAutoImplicit false
set_option autoImplicit false

namespace GraphRoutes.Sorting

variable {ε key α : Type}

/-- Tests that tell whether a key is below another. -/
abbrev Less (ε key : Type) : Type := key → key → Except ε Bool

/-- The run that ends in `x`, with the items behind it as far as each of them is below the one before
(`falling`), or none of them is; the run is given newest first, with the rest. -/
def runFrom (lt : Less ε key) (falling : Bool) (x : key × α) (run : List (key × α)) :
    List (key × α) → Except ε (List (key × α) × List (key × α))
  | [] => .ok (x :: run, [])
  | y :: ys => do
    if (← lt y.1 x.1) == falling then
      runFrom lt falling y (x :: run) ys
    else
      .ok (x :: run, y :: ys)

/-- The run at the beginning of a list, in rising order, and the rest. -/
def firstRun (lt : Less ε key) :
    List (key × α) → Except ε (List (key × α) × List (key × α))
  | [] => .ok ([], [])
  | [x] => .ok ([x], [])
  | x :: y :: ys => do
    let falling ← lt y.1 x.1
    let (run, rest) ← runFrom lt falling y [x] ys
    .ok (if falling then run else run.reverse, rest)

/-- Whether a key is below that of the item at a position; at the end it is. -/
def belowAt (lt : Less ε key) (k : key) (xs : Array (key × α)) (p : Nat) : Except ε Bool :=
  match xs[p]? with
  | some x => lt k x.1
  | none => .ok true

/-- Puts a keyed item into its place among items in order. -/
def insert (lt : Less ε key) (sorted : Array (key × α)) (x : key × α) :
    Except ε (Array (key × α)) := do
  let i ← halve (belowAt lt x.1 sorted) 0 sorted.size
  .ok (sorted.insertIdxIfInBounds i x)

/-- The run at the beginning of a list, made at least so long if there are so many items, and the
rest. -/
def longRun (lt : Less ε key) (least : Nat) (xs : List (key × α)) :
    Except ε (Array (key × α) × List (key × α)) := do
  let (run, rest) ← firstRun lt xs
  let missing := least - run.length
  let run ← (rest.take missing).foldlM (insert lt) run.toArray
  .ok (run, rest.drop missing)

end GraphRoutes.Sorting
