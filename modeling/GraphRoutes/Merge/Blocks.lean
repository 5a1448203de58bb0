/-
**Blocks: sources that hand out their items several at a time.**

A source of blocks may be read by several consumers at once.  Each of them takes the next block
that holds anything, so empty blocks are never handed out and no block is handed out twice.  Cutting
a route into blocks of one size takes that many items at a time; the last block may be shorter.  An
empty block ends the cutting for good.

Main definitions:

* `GraphRoutes.Merge.nextBlock` — the next block that holds anything;
* `GraphRoutes.Merge.Cut`, `GraphRoutes.Merge.Cut.turn` — a route cut into blocks of one size.
-/
import GraphRoutes.Route.Slice

set_option relaxedAutoImplicit false
set_option autoImplicit false

namespace GraphRoutes.Merge

open GraphRoutes.Route

variable {ω ε κ ρ α : Type}

/-- The blocks of a source that hold anything, each one read to its end when it is reached.  After
the end the source is asked again. -/
@[inline] def nextBlock (next : Source ω ε κ ρ) (read : ρ → Act ω ε (List α)) :
    Machine ω ε κ (List α) := fun k => do
  match ← Act.attempt (next k) with
  | .error e => pure (.fail e k)
  | .ok none => pure (.idle k)
  | .ok (some (r, k)) => do
    match ← Act.attempt (read r) with
    | .error e => pure (.fail e k)
    | .ok [] => pure (.skip k)
    | .ok items => pure (.give items k)

/-- The state of a route that is cut into blocks: the source, the size of a block, and whether there
may be more. -/
structure Cut (κ : Type) where
  source : κ
  size : Nat
  live : Bool := true

namespace Cut

/-- There are no more blocks. -/
def close (s : Cut κ) : Cut κ := { s with live := false }

/-- Goes on behind a block. -/
def advance (k : κ) (s : Cut κ) : Cut κ := { s with source := k }

/-- One turn: a block of the next items.  A failure loses the items of the block in progress.  A
block that is ready only after another turn has found the end is lost as well. -/
def turn (c : Cell ω (Cut κ)) (next : Source ω ε κ α) : Act ω ε (Turn (List α)) := do
  let s ← c.read
  if s.live then do
    let (items, k) ← takeUpTo next s.size s.source
    let s ← c.read
    if !s.live then
      pure .ended
    else if items.isEmpty then do
      c.modify close
      pure .ended
    else do
      c.modify (advance k)
      pure (.give items)
  else
    pure .ended

end Cut

end GraphRoutes.Merge
