/-
**Going round: the items of a route over and over.**

The first time round, the items come from a source and are kept.  Once the source has ended it is
never asked again, and those kept are given from the first on, for ever.  A source without items
gives none.

Main definitions:

* `GraphRoutes.Route.Loop` — the source, and the items kept;
* `GraphRoutes.Route.Loop.turn` — one turn.
-/
import GraphRoutes.Route.Turn

set_option relaxedAutoImplicit false
set_option autoImplicit false

namespace GraphRoutes.Route

/-- The state of a loop: its source until that has ended, the items kept, and the position among
them of the next one to be given again. -/
structure Loop (κ α : Type) where
  source : Option κ
  kept : Array α := #[]
  position : Nat := 0

namespace Loop

variable {ω ε κ α : Type}

/-- Keeps an item, with the source behind it. -/
def keep (k : κ) (a : α) (s : Loop κ α) : Loop κ α :=
  { s with source := s.source.map fun _ => k, kept := s.kept.push a }

/-- Lets go of the source. -/
def close (s : Loop κ α) : Loop κ α := { s with source := none }

/-- Goes on to the next kept item, or back to the first. -/
def advance (s : Loop κ α) : Loop κ α :=
  { s with position := if s.position + 1 < s.kept.size then s.position + 1 else 0 }

/-- One turn of a loop.  A failure of the source leaves everything as it was. -/
def turn (c : Cell ω (Loop κ α)) (next : Source ω ε κ α) : Act ω ε (Turn α) := do
  let s ← c.read
  match s.source with
  | some k => do
    match ← next k with
    | some (a, k) => do
      c.modify (keep k a)
      pure (.give a)
    | none => do
      c.modify close
      pure .again
  | none =>
    match s.kept[s.position]? with
    | none => pure .ended
    | some a => do
      c.modify advance
      pure (.give a)

end Loop

end GraphRoutes.Route
