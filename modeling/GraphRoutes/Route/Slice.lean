/-
**Slices of a route.**

A slice takes at most so many items from a source that others may share, and never asks for one
item more than it gives.  Once it has given them all, or its source has ended or failed, it lets go
of its source.  `GraphRoutes.Route.alternate` cuts one source into consecutive slices of given sizes
and keeps every second one.

Main definitions:

* `GraphRoutes.Route.Slice`, `GraphRoutes.Route.Slice.turn` — at most so many items, as a lazy
  route;
* `GraphRoutes.Route.takeUpTo` — at most so many items, at once;
* `GraphRoutes.Route.countUpTo` — how many items there are, counting to a limit;
* `GraphRoutes.Route.alternate` — slices alternately kept and dropped.
-/
import GraphRoutes.Route.Turn

set_option relaxedAutoImplicit false
set_option autoImplicit false

namespace GraphRoutes.Route

variable {ω ε κ ι α : Type}

/-! ### Lazy slices -/

/-- The state of a slice: how many items may still be taken (no number: all of them), and the
source until it is let go. -/
structure Slice (κ : Type) where
  left : Option Nat
  source : Option κ

namespace Slice

/-- Lets go of the source. -/
def close (s : Slice κ) : Slice κ := { s with source := none }

/-- One item less, with the source behind it. -/
def took (k : κ) (s : Slice κ) : Slice κ :=
  { left := s.left.map (· - 1), source := s.source.map fun _ => k }

/-- One turn of a slice. -/
def turn (c : Cell ω (Slice κ)) (next : Source ω ε κ α) : Act ω ε (Turn α) := do
  let s ← c.read
  match s.source, s.left with
  | none, _ => pure .ended
  | some _, some 0 => do
    c.modify close
    pure .ended
  | some k, _ => do
    match ← Act.attempt (next k) with
    | .error e => do
      c.modify close
      throw e
    | .ok none => do
      c.modify close
      pure .ended
    | .ok (some (a, k)) => do
      c.modify (took k)
      pure (.give a)

end Slice

/-! ### Slices at once -/

/-- At most `n` items of a source behind those in `taken`, which are kept newest first, and the
source behind them. -/
def takeOnto (next : Source ω ε κ α) : Nat → List α → κ → Act ω ε (List α × κ)
  | 0, taken, k => pure (taken.reverse, k)
  | n + 1, taken, k => do
    match ← next k with
    | none => pure (taken.reverse, k)
    | some (a, k) => takeOnto next n (a :: taken) k

/-- At most `n` items of a source, in order, and the source behind them. -/
def takeUpTo (next : Source ω ε κ α) (n : Nat) (k : κ) : Act ω ε (List α × κ) :=
  takeOnto next n [] k

/-- The number of items of a source, where counting stops at `limit`; `counted` is the number of
those already counted. -/
def countUpTo (next : Source ω ε κ α) : Nat → Nat → κ → Act ω ε Nat
  | 0, counted, _ => pure counted
  | limit + 1, counted, k => do
    match ← next k with
    | none => pure counted
    | some (_, k) => countUpTo next limit (counted + 1) k

/-! ### Alternating slices -/

/-- What an alternating route is doing. -/
inductive Alternation where
  /-- Between two slices. -/
  | between
  /-- Giving items, so many at most (no number: all of them). -/
  | keeping (left : Option Nat)
  /-- Passing over items, so many at most. -/
  | dropping (left : Nat)
  deriving DecidableEq, Repr

/-- The state of an alternating route: the sizes to come, the collection, whether the next slice is
kept, and what is being done. -/
structure Alternating (ι κ : Type) where
  sizes : ι
  source : κ
  keepNext : Bool
  doing : Alternation := .between

/-- Slices of the given sizes, alternately kept and dropped.  The sizes alone say when the route
ends; a size that is no number keeps all that is left, or drops one item. -/
@[inline] def alternate (size : Source ω ε ι (Option Nat)) (next : Source ω ε κ α) :
    Machine ω ε (Alternating ι κ) α := fun s => do
  match s.doing with
  | .between => do
    match ← size s.sizes with
    | none => pure .finish
    | some (n, sizes) =>
      let doing : Alternation := if s.keepNext then .keeping n else .dropping (n.getD 1)
      pure (.skip { s with sizes, keepNext := !s.keepNext, doing })
  | .keeping (some 0) => pure (.skip { s with doing := .between })
  | .keeping left => do
    match ← next s.source with
    | none => pure (.skip { s with doing := .between })
    | some (a, k) => pure (.give a { s with source := k, doing := .keeping (left.map (· - 1)) })
  | .dropping 0 => pure (.skip { s with doing := .between })
  | .dropping (left + 1) => do
    match ← next s.source with
    | none => pure (.skip { s with doing := .between })
    | some (_, k) => pure (.skip { s with source := k, doing := .dropping left })

end GraphRoutes.Route
