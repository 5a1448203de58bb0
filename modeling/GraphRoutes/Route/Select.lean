/-
**Selecting and mapping the items of a route.**

The filters of the library keep an item or pass over it, the projections give one image of each
item, and the endpoint step gives two.  All of them ask their source only when they are asked, and
look at one item at a time.

Main definitions:

* `GraphRoutes.Route.select` — the items that pass a test;
* `GraphRoutes.Route.each` — the image of each item;
* `GraphRoutes.Route.both` — two images of each item, the second one computed when it is asked for.
-/
import GraphRoutes.Route.Step

set_option relaxedAutoImplicit false
set_option autoImplicit false

namespace GraphRoutes.Route

variable {ω ε κ α β : Type}

/-- The items of a source that pass a test. -/
@[inline] def select (next : Source ω ε κ α) (test : α → Act ω ε Bool) : Machine ω ε κ α := fun k => do
  match ← next k with
  | none => pure .finish
  | some (a, k) => do
    if ← test a then pure (.give a k) else pure (.skip k)

/-- The image of each item of a source. -/
@[inline] def each (next : Source ω ε κ α) (f : α → Act ω ε β) : Machine ω ε κ β := fun k => do
  match ← next k with
  | none => pure .finish
  | some (a, k) => do
    let b ← f a
    pure (.give b k)

/-- The state of `Route.both`: the source, and the item whose second image is still due. -/
structure Both (κ α : Type) where
  source : κ
  due : Option α := none

/-- Two images of each item of a source. -/
@[inline] def both (next : Source ω ε κ α) (f g : α → Act ω ε β) :
    Machine ω ε (Both κ α) β := fun s => do
  match s.due with
  | some a => do
    let b ← g a
    pure (.give b { s with due := none })
  | none => do
    match ← next s.source with
    | none => pure .finish
    | some (a, k) => do
      let b ← f a
      pure (.give b { source := k, due := some a })

end GraphRoutes.Route
