/-
**Looking ahead: keeping an element for the size of the route behind it.**

A lookahead opens a sub-route for an element and counts its items, but never further than the
answer needs: up to one item more than the largest allowed size, or up to the least required one.
So it ends on infinite sub-routes.

Main definitions:

* `GraphRoutes.Route.Bounds` — the allowed sizes;
* `GraphRoutes.Route.Bounds.limit`, `GraphRoutes.Route.Bounds.admits` — how far to count, and what
  a count tells;
* `GraphRoutes.Route.lookahead` — the test of one element.
-/
import GraphRoutes.Route.Slice

set_option relaxedAutoImplicit false
set_option autoImplicit false

namespace GraphRoutes.Route

/-- The allowed sizes of a sub-route: at least, and at most. -/
structure Bounds where
  least : Option Int := none
  most : Option Int := none
  deriving DecidableEq, Repr

namespace Bounds

/-- How far to count.  Without bounds one item is enough. -/
def limit (b : Bounds) : Int :=
  match b.most, b.least with
  | some most, _ => most + 1
  | none, some least => least
  | none, none => 1

/-- Whether a size counted up to the limit is allowed. -/
def admits (b : Bounds) (count : Nat) : Bool :=
  match b.most, b.least with
  | some most, some least => least ≤ count ∧ (count : Int) ≤ most
  | some most, none => (count : Int) ≤ most
  | none, some least => (count : Int) = least
  | none, none => count = 1

end Bounds

variable {ω ε ρ κ α β : Type}

/-- Whether the sub-route behind `a` has an allowed size.  The sub-route is made first, then the
limit is looked at (`checked` refuses one that is out of range), and only then it is opened. -/
@[inline] def lookahead (bounds : Bounds) (made : α → Act ω ε ρ) (checked : Int → Act ω ε Nat)
    (opened : ρ → Act ω ε κ) (next : Source ω ε κ β) (a : α) : Act ω ε Bool := do
  let r ← made a
  let limit ← checked bounds.limit
  let k ← opened r
  let count ← countUpTo next limit 0 k
  pure (bounds.admits count)

end GraphRoutes.Route
