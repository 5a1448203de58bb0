/-
**Stable sorting by keys that may not be comparable.**

Keys are compared by a test that may fail.  Where it is a total order, every stable sort gives the same
list.  Where it is partial, or fails, the answer depends on which pairs are compared, so the comparisons
are fixed.  The list is cut into runs, none of which is too short, and neighbouring runs are merged.
Which runs are merged, and when, is told by powers: the power of the border between two runs is the
first binary place in which the middles of the two runs differ, as fractions of the whole list.  Runs
wait on a pile with rising powers; those above a border of higher power are merged before the next
run is added, and all that are left in the end.  A list of at most one item is never compared.

Main definitions:

* `GraphRoutes.Sorting.leastRun` — how long a run has to be;
* `GraphRoutes.Sorting.borderPower` — the power of a border;
* `GraphRoutes.Sorting.Pile.add`, `GraphRoutes.Sorting.Pile.close` — one run more on a pile, and the
  pile as one run;
* `GraphRoutes.Sorting.sortByKey` — stable sorting.
-/
import GraphRoutes.Sorting.Merge

set_option relaxedAutoImplicit false
set_option autoImplicit false

namespace GraphRoutes.Sorting

variable {ε key α : Type}

/-! ### Lengths and powers -/

/-- How long a run of a list of `n` items has to be: the first six binary places of `n`, and one more
if any place behind them is set. -/
def leastRun (n : Nat) (more : Nat := 0) : Nat :=
  if _h : 64 ≤ n then leastRun (n / 2) (max more (n % 2)) else n + more
  termination_by n

/-- The first binary place, behind those that have been looked at, in which the fractions of `total`
that `a` and `b` are differ. -/
def differingPlace (total : Nat) : Nat → Nat → Nat → Nat → Nat
  | 0, places, _, _ => places
  | fuel + 1, places, a, b =>
    if total ≤ a then
      differingPlace total fuel (places + 1) (2 * (a - total)) (2 * (b - total))
    else if total ≤ b then
      places + 1
    else
      differingPlace total fuel (places + 1) (2 * a) (2 * b)

/-- The power of the border between two neighbouring runs among `total` items. -/
def borderPower (total start left right : Nat) : Nat :=
  let a := 2 * start + left
  differingPlace total total 0 a (a + left + right)

/-! ### The pile -/

/-- A run on the pile: where it starts, and the power of its border with the next run. -/
structure Waiting (β : Type) where
  run : Array β
  start : Nat
  power : Nat := 0

/-- Runs, the last one first, and the patience of the merges. -/
structure Pile (β : Type) where
  runs : List (Waiting β) := []
  patience : Nat := Merging.goodLead

/-- Two neighbouring runs as one. -/
def Waiting.join (lt : Less ε key) (patience : Nat) (lower upper : Waiting (key × α)) :
    Except ε (Waiting (key × α) × Nat) := do
  let (run, patience) ← mergeRuns lt patience lower.run upper.run
  .ok ({ lower with run }, patience)

/-- A run merged with those under it, as far as their borders have a power above a given one. -/
def settle (lt : Less ε key) (power : Nat) :
    Nat → Waiting (key × α) → List (Waiting (key × α)) → Except ε (Pile (key × α))
  | patience, top, [] => .ok { runs := [top], patience }
  | patience, top, lower :: rest =>
    if power < lower.power then do
      let (joined, patience) ← lower.join lt patience top
      settle lt power patience joined rest
    else
      .ok { runs := top :: lower :: rest, patience }

/-- A pile merged into one run.  Of three runs, the middle one goes to the shorter neighbour. -/
def collapse (lt : Less ε key) (patience : Nat) (top : Waiting (key × α)) :
    List (Waiting (key × α)) → Except ε (Array (key × α))
  | [] => .ok top.run
  | lower :: rest =>
    match rest with
    | lowest :: rest' =>
      if lowest.run.size < top.run.size then do
        let (joined, patience) ← lowest.join lt patience lower
        collapse lt patience top (joined :: rest')
      else do
        let (joined, patience) ← lower.join lt patience top
        collapse lt patience joined (lowest :: rest')
    | [] => do
      let (joined, _) ← lower.join lt patience top
      .ok joined.run
  termination_by runs => runs.length

namespace Pile

/-- One run more on a pile, among `total` items in all. -/
def add (lt : Less ε key) (total start : Nat) (run : Array (key × α)) (p : Pile (key × α)) :
    Except ε (Pile (key × α)) := do
  match p.runs with
  | [] => .ok { p with runs := [{ run, start }] }
  | top :: rest =>
    let power := borderPower total top.start top.run.size run.size
    let p ← settle lt power p.patience top rest
    match p.runs with
    | [] => .ok { p with runs := [{ run, start }] }
    | top :: rest => .ok { p with runs := { run, start } :: { top with power } :: rest }

/-- A pile as one run. -/
def close (lt : Less ε key) (p : Pile (key × α)) : Except ε (Array (key × α)) :=
  match p.runs with
  | [] => .ok #[]
  | top :: rest => collapse lt p.patience top rest

end Pile

/-! ### Sorting -/

/-- The runs of a list on a pile, where `start` items stand in front of the list. -/
def pileUp (lt : Less ε key) (total : Nat) :
    Nat → Nat → List (key × α) → Pile (key × α) → Except ε (Pile (key × α))
  | 0, _, _, p => .ok p
  | _, _, [], p => .ok p
  | fuel + 1, start, x :: xs, p => do
    let (run, rest) ← longRun lt (leastRun total) (x :: xs)
    let p ← p.add lt total start run
    pileUp lt total fuel (start + run.size) rest p

/-- The keyed items in stable order of their keys. -/
def sortByKey (lt : Less ε key) (xs : List (key × α)) : Except ε (List (key × α)) := do
  let p ← pileUp lt xs.length xs.length 0 xs {}
  let sorted ← p.close lt
  .ok sorted.toList

@[simp] theorem sortByKey_nil (lt : Less ε key) :
    sortByKey lt ([] : List (key × α)) = .ok [] := rfl

end GraphRoutes.Sorting
