/-
**Equality, truth and order of values.**

Two values are equal if their outlines are: if they begin alike and their parts are equal, pair by
pair.  What lives in the world is equal to itself without a further look; other lists, and sets that
may grow, are compared by what they hold at the moment.  Lists may hold themselves, so a comparison
may come to no end; it is given up at some depth.

Truth asks whether a collection holds anything.  Order is partial: numbers, texts, lists and tuples
can be compared among themselves, sequences by their first unequal pair, and sets by inclusion.

Main definitions:

* `GraphRoutes.Session.World.outline`, `GraphRoutes.Session.World.same` — equality;
* `GraphRoutes.Session.World.truth` — truth;
* `GraphRoutes.Session.World.ordered` — order, where there is one;
* `GraphRoutes.Session.World.member` — membership among values.
-/
import GraphRoutes.Session.World

set_option relaxedAutoImplicit false
set_option autoImplicit false

namespace GraphRoutes.Session.World

/-- How deep a look into nested values goes. -/
def depthLimit : Nat := 20000

/-- How many items are read in one go. -/
def itemLimit : Nat := 1000000000000

/-! ### Equality -/

/-- How a value begins, and the parts in which it goes on.  The keys of a dictionary and the members
of a set stand in a fixed order. -/
def outline (w : World) (v : Value) : Key × List Value :=
  match v with
  | .tuple xs _ => ([.tuple xs.length], xs)
  | .typedId k i => ([.tuple 2], [k, i])
  | .instruction e d c r => ([.tuple 4], [e, d, c, r])
  | .dict es _ =>
    let entries := (es.toList.map fun e => (e.1.spell, e.2)).mergeSort fun e f => e.1.le f.1
    (.dict es.size :: entries.flatMap (·.1), entries.map (·.2))
  | .ref .list place =>
    let xs := (w.listAt place).toList
    ([.list xs.length], xs)
  | .ref .bag place => (Key.ofSet (w.bagAt place).keys, [])
  | .orderedPath xs _ => ([.orderedPath xs.size], xs.toList)
  | .tracked x =>
    let v := Value.stripNode x
    if v.isElement then (v.spell, []) else ([.wrapper], [v])
  | .trackedGraph g _ => ([.trackedGraph], [g])
  | .condition kind v m _ _ => ([.condition kind], [v, m])
  | .resolution a v _ => ([.resolution], [a, v])
  | .checkpoint p e d _ => ([.checkpoint], [p, e, d])
  | .failsafe c n _ => ([.failsafe], [c, n])
  | .config c i p d _ => ([.config], [c, i, p, d])
  | v => (v.spell, [])

/-- Whether two lists have the same length and hold what `eq` calls equal. -/
def pairwise (eq : Value → Value → Except Fault Bool) : List Value → List Value → Except Fault Bool
  | [], [] => .ok true
  | a :: as, b :: bs => do
    if ← eq a b then pairwise eq as bs else .ok false
  | _, _ => .ok false

/-- Whether two values are equal, looking into them to a depth. -/
def sameTo (w : World) : Nat → Value → Value → Except Fault Bool
  | 0, _, _ => .error .outOfFuel
  | depth + 1, a, b =>
    match a, b with
    | .int m, .int n => .ok (m == n)
    | .str s, .str t => .ok (s == t)
    | .ref s p, .ref t q =>
      if s == t && p == q then .ok true else outlined depth a b
    | a, b => outlined depth a b
where
  /-- Whether two values are equal by their outlines. -/
  outlined (depth : Nat) (a b : Value) : Except Fault Bool :=
    let (x, as) := w.outline a
    let (y, bs) := w.outline b
    if x == y then pairwise (sameTo w depth) as bs else .ok false

/-- Whether two values are equal. -/
def same (w : World) (a b : Value) : Except Fault Bool := w.sameTo depthLimit a b

/-- Whether two values are found to be equal. -/
def foundSame (w : World) (a b : Value) : Bool :=
  match w.same a b with
  | .ok r => r
  | .error _ => false

/-- Whether a value equals one of several. -/
def member (w : World) (v : Value) : List Value → Except Fault Bool
  | [] => .ok false
  | x :: xs => do
    if ← w.same x v then .ok true else w.member v xs

/-! ### Truth -/

/-- Whether a value counts as true. -/
def truth (w : World) : Value → Bool
  | .null => false
  | .bool b => b
  | .int n => n != 0
  | .str s => s != ""
  | .tuple xs _ => !xs.isEmpty
  | .dict es _ => es.size != 0
  | .set xs _ => xs.size != 0
  | .orderedPath xs _ => xs.size != 0
  | .ref .list place => !(w.listAt place).isEmpty
  | .ref .bag place => (w.bagAt place).size != 0
  | _ => true

/-! ### Order -/

/-- The two questions about order. -/
inductive Order where
  /-- Whether one value stands before another. -/
  | before
  /-- Whether one value stands before another or is equal to it. -/
  | upTo
  deriving DecidableEq, Repr

/-- The answer for values that have been found equal. -/
def Order.equal : Order → Bool
  | before => false
  | upTo => true

/-- The items of a list or a tuple, and whether it is a tuple. -/
def sequence? (w : World) : Value → Option (Bool × List Value)
  | .ref .list place => some (false, (w.listAt place).toList)
  | v => v.tuple?.map fun xs => (true, xs)

/-- The members of a set of either kind. -/
def members? (w : World) : Value → Option (Indexed Key Value)
  | .set xs _ => some xs
  | .ref .bag place => some (w.bagAt place).members
  | _ => none

/-- The first pair of unequal items. -/
def firstDifference (w : World) :
    List Value → List Value → Except Fault (Option (Value × Value))
  | a :: as, b :: bs => do
    if ← w.same a b then firstDifference w as bs else .ok (some (a, b))
  | _, _ => .ok none

/-- Whether a value stands before another, or is not behind it; a failure if they have no order. -/
def orderedTo (w : World) (o : Order) : Nat → Value → Value → Except Fault Bool
  | 0, _, _ => .error .outOfFuel
  | depth + 1, a, b =>
    match a.int?, b.int? with
    | some m, some n => .ok (m < n || (m == n && o.equal))
    | _, _ =>
      match a, b with
      | .str s, .str t => .ok (s < t || (s == t && o.equal))
      | _, _ =>
        match w.sequence? a, w.sequence? b with
        | some (s, as), some (t, bs) =>
          if s != t then .error .wrongType
          else do
            match ← w.firstDifference as bs with
            | some (x, y) => orderedTo w o depth x y
            | none =>
              .ok (as.length < bs.length || (as.length == bs.length && o.equal))
        | _, _ =>
          match w.members? a, w.members? b with
          | some as, some bs =>
            let fits := as.size < bs.size || (as.size == bs.size && o.equal)
            .ok (fits && as.items.all fun x => bs.contains x.spell)
          | _, _ => .error .wrongType

/-- Whether a value stands before another, or is not behind it. -/
def ordered (w : World) (o : Order) (a b : Value) : Except Fault Bool :=
  w.orderedTo o depthLimit a b

/-- Whether a value stands before another. -/
def before (w : World) (a b : Value) : Except Fault Bool := w.ordered .before a b

end GraphRoutes.Session.World
