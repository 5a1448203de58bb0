/-
**Sharing one source among several readers.**

Each reader sees every item, whatever the order in which the readers ask.  The items that any
reader has asked for are kept, a reader is a position among them, and the source is asked only by
the reader that is furthest ahead.  While the source is being asked nobody else may ask it.

Main definitions:

* `GraphRoutes.Merge.Shared` — a source with the items already asked of it;
* `GraphRoutes.Merge.Shared.read` — the item at a position.
-/
import GraphRoutes.Route.Turn

set_option relaxedAutoImplicit false
set_option autoImplicit false

namespace GraphRoutes.Merge

/-- A source, the items that it has given so far, and whether it is being asked just now. -/
structure Shared (κ α : Type) where
  source : κ
  given : Array α := #[]
  asked : Bool := false

namespace Shared

variable {ω ε κ α : Type}

/-- The source is being asked. -/
def ask (s : Shared κ α) : Shared κ α := { s with asked := true }

/-- The source has answered without an item. -/
def settle (s : Shared κ α) : Shared κ α := { s with asked := false }

/-- The source has given an item; `k` is the source behind it. -/
def receive (k : κ) (a : α) (s : Shared κ α) : Shared κ α :=
  { source := k, given := s.given.push a }

/-- The item at a position that is at most one beyond the items given so far; nothing if the source
has ended.  To ask a source that is being asked is the failure `busy`. -/
def read (c : Cell ω (Shared κ α)) (busy : ε) (next : Source ω ε κ α) (position : Nat) :
    Act ω ε (Option α) := do
  let s ← c.read
  match s.given[position]? with
  | some a => pure (some a)
  | none =>
    if s.asked then
      throw busy
    else do
      c.modify ask
      match ← Act.attempt (next s.source) with
      | .error e => do
        c.modify settle
        throw e
      | .ok none => do
        c.modify settle
        pure none
      | .ok (some (a, k)) => do
        c.modify (receive k a)
        pure (some a)

end Shared

end GraphRoutes.Merge
