/-
**Flattening a route of routes.**

A flattened route asks its outer source for one part at a time and gives that part's items to the
end before it asks for the next.  Nothing is asked of the outer source while a part still has
items, so the flattened steps stream over an infinite source.

A failure inside a part leaves the part where it was: whoever asks again asks the same part again.
A failure of the outer source, or of opening a part, ends the whole, and so does the end of the
outer source.

A flattened route may be asked while it asks a part, and may have gone on to another part by the
time the first one answers.  So it counts the parts that it has opened, and takes an answer's new
handle only for the part that was asked.

Main definitions:

* `GraphRoutes.Route.Flat` — the outer source, and the part in progress;
* `GraphRoutes.Route.Flat.turn` — one turn of a flattened route;
* `GraphRoutes.Route.flatten` — a flattened route that keeps its state to itself.
-/
import GraphRoutes.Route.Turn

set_option relaxedAutoImplicit false
set_option autoImplicit false

namespace GraphRoutes.Route

variable {ω ε κ ι ρ α : Type}

/-- The state of a flattened route: the outer source until it is let go, the part in progress, and
how many parts have been opened. -/
structure Flat (κ ρ : Type) where
  outer : Option κ
  part : Option ρ := none
  opened : Nat := 0

namespace Flat

/-- Lets go of the outer source. -/
def close (s : Flat κ ρ) : Flat κ ρ := { s with outer := none }

/-- Goes on to the part `p`, with the outer source behind it. -/
def enter (k : κ) (p : ρ) (s : Flat κ ρ) : Flat κ ρ :=
  { outer := s.outer.map fun _ => k, part := some p, opened := s.opened + 1 }

/-- Leaves the part in progress. -/
def leave (s : Flat κ ρ) : Flat κ ρ := { s with part := none }

/-- The rest `p` of the `n`-th part, if that is still the part in progress. -/
def advance (n : Nat) (p : ρ) (s : Flat κ ρ) : Flat κ ρ :=
  if s.opened = n then { s with part := s.part.map fun _ => p } else s

/-- Asks the `n`-th part for an item. -/
@[inline] def ask (c : Cell ω (Flat κ ρ)) (inner : Source ω ε ρ α) (n : Nat) (p : ρ) :
    Act ω ε (Turn α) := do
  match ← inner p with
  | none => do
    c.modify leave
    pure .again
  | some (a, p) => do
    c.modify (advance n p)
    pure (.give a)

/-- One turn: ask the part in progress, or open the next one and ask it.  `outer` names the parts,
`opened` opens one, `inner` reads one. -/
def turn (c : Cell ω (Flat κ ρ)) (outer : Source ω ε κ ι) (opened : ι → Act ω ε ρ)
    (inner : Source ω ε ρ α) : Act ω ε (Turn α) := do
  let s ← c.read
  match s.outer, s.part with
  | none, _ => pure .ended
  | some _, some p => ask c inner s.opened p
  | some k, none => do
    match ← Act.attempt (outer k) with
    | .error e => do
      c.modify close
      throw e
    | .ok none => do
      c.modify close
      pure .ended
    | .ok (some (i, k)) => do
      match ← Act.attempt (opened i) with
      | .error e => do
        c.modify close
        throw e
      | .ok p => do
        c.modify (enter k p)
        let s ← c.read
        ask c inner s.opened p

end Flat

/-- The items of the parts that the outer source names, in order.  A part is opened when it is
reached. -/
@[inline] def flatten (outer : Source ω ε κ ι) (opened : ι → Act ω ε ρ) (inner : Source ω ε ρ α) :
    Machine ω ε (Flat κ ρ) α :=
  Machine.ofTurn (Flat.turn Cell.beside (fun k => Act.beside (outer k))
    (fun i => Act.beside (opened i)) (fun p => Act.beside (inner p)))

end GraphRoutes.Route
