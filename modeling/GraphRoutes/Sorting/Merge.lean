/-
**Merging two neighbouring runs.**

Of two runs in order, the items at the front of the left one that belong in front of the right one,
and those at the back of the right one that belong behind the left one, stay where they are.  What
remains is merged from the end at which the shorter run leaves less to do: from the front if the left
run is no longer than the right one, else from the back.  Items are taken one by one; when one run has
been taken from so often in a row that patience is at an end, the number of items that it has in front of
the next item of the other is found by galloping, and this goes on as long as it saves enough.  An item of
the left run stands in front of its equals on the right.

Main definitions:

* `GraphRoutes.Sorting.Rest` — what is left of a run;
* `GraphRoutes.Sorting.Merging` — a merge that is going on;
* `GraphRoutes.Sorting.Merging.run` — the merge;
* `GraphRoutes.Sorting.mergeRuns` — two runs as one.
-/
import GraphRoutes.Sorting.Run

set_option relaxedAutoImplicit false
set_option autoImplicit false

namespace GraphRoutes.Sorting

variable {ε key α β : Type}

/-! ### What is left of a run -/

/-- An end of a run. -/
inductive Tip where
  | front
  | back
  deriving DecidableEq, Repr

/-- What is left of a run: its items between two positions. -/
structure Rest (β : Type) where
  items : Array β
  low : Nat
  high : Nat

namespace Rest

/-- The number of items left. -/
def count (r : Rest β) : Nat := r.high - r.low

/-- The items left, in order. -/
def toArray (r : Rest β) : Array β := r.items.extract r.low r.high

/-- The item at a tip. -/
def next? (r : Rest β) : Tip → Option β
  | .front => r.items[r.low]?
  | .back => r.items[r.high - 1]?

/-- So many items at a tip, in the order in which they are taken there. -/
def taken (r : Rest β) (n : Nat) : Tip → Array β
  | .front => r.items.extract r.low (r.low + n)
  | .back => (r.items.extract (r.high - n) r.high).reverse

/-- What is left without so many items at a tip. -/
def without (r : Rest β) (n : Nat) : Tip → Rest β
  | .front => { r with low := r.low + n }
  | .back => { r with high := r.high - n }

end Rest

/-! ### A merge that is going on -/

/-- A merge that is going on. -/
structure Merging (β : Type) where
  /-- The end from which is merged. -/
  tip : Tip
  left : Rest β
  right : Rest β
  /-- What has been merged, in the order in which it was taken. -/
  merged : Array β := #[]
  /-- How often in a row one run may be taken from before galloping begins. -/
  patience : Nat

namespace Merging

/-- Takes items of the left run. -/
def takeLeft (n : Nat) (m : Merging β) : Merging β :=
  { m with left := m.left.without n m.tip, merged := m.merged ++ m.left.taken n m.tip }

/-- Takes items of the right run. -/
def takeRight (n : Nat) (m : Merging β) : Merging β :=
  { m with right := m.right.without n m.tip, merged := m.merged ++ m.right.taken n m.tip }

/-- Whether nothing remains to be compared.  The last item of the run that was cut at the far end is
known to belong there. -/
def isOver (m : Merging β) : Bool :=
  match m.tip with
  | .front => m.right.count == 0 || m.left.count ≤ 1
  | .back => m.left.count == 0 || m.right.count ≤ 1

/-- The items in order, once nothing remains to be compared. -/
def result (m : Merging β) : Array β :=
  let rest := m.right.toArray ++ m.left.toArray
  match m.tip with
  | .front => m.merged ++ rest
  | .back => rest ++ m.merged.reverse

/-- The number of items on one side of a boundary: those in front of it at the front, those behind it
at the back. -/
def lead (tip : Tip) (test : Nat → Except ε Bool) (count : Nat) : Except ε Nat :=
  match tip with
  | .front => gallop test count 0
  | .back => do
    let n ← gallop test count (count - 1)
    .ok (count - n)

/-- Whether the item at a position is not below a key; at the end it is not. -/
def notBelowAt (lt : Less ε key) (xs : Array (key × α)) (k : key) (p : Nat) : Except ε Bool :=
  match xs[p]? with
  | some x => do
    let below ← lt x.1 k
    .ok !below
  | none => .ok true

/-- How many items of the left run are taken before the next item of the right run. -/
def leftLead (lt : Less ε key) (m : Merging (key × α)) : Except ε Nat :=
  match m.right.next? m.tip with
  | some y => lead m.tip (fun p => belowAt lt y.1 m.left.items (m.left.low + p)) m.left.count
  | none => .ok 0

/-- How many items of the right run are taken before the next item of the left run. -/
def rightLead (lt : Less ε key) (m : Merging (key × α)) : Except ε Nat :=
  match m.left.next? m.tip with
  | some x => lead m.tip (fun p => notBelowAt lt m.right.items x.1 (m.right.low + p)) m.right.count
  | none => .ok 0

/-- How a merge goes on. -/
inductive Pace where
  /-- Item by item; each run was taken from so often in a row. -/
  | stepping (left right : Nat)
  /-- By galloping, for the first time in a row or not. -/
  | galloping (first : Bool)

/-- The lead for which galloping is worth its while. -/
def goodLead : Nat := 7

/-- A merge until nothing remains to be compared, in at most so many turns. -/
def run (lt : Less ε key) : Nat → Pace → Merging (key × α) → Except ε (Merging (key × α))
  | 0, _, m => .ok m
  | fuel + 1, .stepping left right, m => do
    if m.isOver then return m
    match m.left.next? m.tip, m.right.next? m.tip with
    | some x, some y =>
      let below ← lt y.1 x.1
      if below = (m.tip == .front) then
        let pace := if m.patience ≤ right + 1 then .galloping true else .stepping 0 (right + 1)
        run lt fuel pace (m.takeRight 1)
      else
        let pace := if m.patience ≤ left + 1 then .galloping true else .stepping (left + 1) 0
        run lt fuel pace (m.takeLeft 1)
    | _, _ => .ok m
  | fuel + 1, .galloping first, m => do
    if m.isOver then return m
    let m := if !first && 1 < m.patience then { m with patience := m.patience - 1 } else m
    let a ← m.leftLead lt
    let m := m.takeLeft a
    if m.isOver then return m
    let m := m.takeRight 1
    if m.isOver then return m
    let b ← m.rightLead lt
    let m := m.takeRight b
    if m.isOver then return m
    let m := m.takeLeft 1
    if m.isOver then return m
    if goodLead ≤ a || goodLead ≤ b then
      run lt fuel (.galloping false) m
    else
      run lt fuel (.stepping 0 0) { m with patience := m.patience + 1 }

end Merging

/-! ### Two runs as one -/

/-- Two neighbouring runs as one, and the patience that is left. -/
def mergeRuns (lt : Less ε key) (patience : Nat) (a b : Array (key × α)) :
    Except ε (Array (key × α) × Nat) := do
  match a.back?, b[0]? with
  | some x, some y =>
    let k ← gallop (belowAt lt y.1 a) a.size 0
    if a.size ≤ k then return (a ++ b, patience)
    let n ← gallop (Merging.notBelowAt lt b x.1) b.size (b.size - 1)
    if n = 0 then return (a ++ b, patience)
    let left : Rest (key × α) := ⟨a, k, a.size⟩
    let right : Rest (key × α) := ⟨b, 0, n⟩
    let m : Merging (key × α) :=
      if left.count ≤ right.count then
        Merging.takeRight 1 { tip := .front, left, right, patience }
      else
        Merging.takeLeft 1 { tip := .back, left, right, patience }
    let m ← m.run lt (a.size + b.size) (.stepping 0 0)
    .ok (a.extract 0 k ++ m.result ++ b.extract n b.size, m.patience)
  | _, _ => .ok (a ++ b, patience)

end GraphRoutes.Sorting
