/-
**Lazy sequences as step functions.**

A lazy sequence is a state and a function that takes one small step from it.  A step gives an item,
moves on without one, reports the end, or fails.  No step loops: a sequence that discards items
takes one step for each of them, and the only loop is the one that pulls.  Every sequence of this
library is such a machine, written over an arbitrary world, so that what it asks of its sources and
of its caller, and in which order, is part of its definition.

A source is anything that can be asked for its next item.  Asking it gives the item together with
the source to ask next.  For a list the source is the list itself, for a stored iterator it is a
handle that never changes.

Main definitions:

* `GraphRoutes.Source` — how a source is asked;
* `GraphRoutes.Step`, `GraphRoutes.Machine` — one step, and what takes it;
* `GraphRoutes.Machine.pull` — steps until an item, the end or a failure;
* `GraphRoutes.Machine.collect` — pulls until the end.

Main results:

* `GraphRoutes.Machine.pull_succ` — one unfolding of a pull.
-/
import GraphRoutes.Act

set_option relaxedAutoImplicit false
set_option autoImplicit false

namespace GraphRoutes

/-- How a source with handles in `κ` is asked for its next item: the item and the handle to ask
next, or nothing at the end. -/
abbrev Source (ω ε κ α : Type) : Type := κ → Act ω ε (Option (α × κ))

/-- A list is a source of its own items. -/
def Source.ofList {ω ε α : Type} : Source ω ε (List α) α
  | [] => pure none
  | a :: as => pure (some (a, as))

@[simp] theorem Source.ofList_nil {ω ε α : Type} :
    (Source.ofList [] : Act ω ε (Option (α × List α))) = pure none := rfl

@[simp] theorem Source.ofList_cons {ω ε α : Type} (a : α) (as : List α) :
    (Source.ofList (a :: as) : Act ω ε (Option (α × List α))) = pure (some (a, as)) := rfl

/-- What one step of a lazy sequence with states in `σ` comes to. -/
inductive Step (σ α ε : Type) where
  /-- An item, and the state behind it. -/
  | give (item : α) (rest : σ)
  /-- No item yet. -/
  | skip (rest : σ)
  /-- The end, for good. -/
  | finish
  /-- Reports the end, but may be asked again. -/
  | idle (rest : σ)
  /-- A failure after which the sequence goes on from `rest`. -/
  | fail (fault : ε) (rest : σ)
  deriving Repr

/-- The same step between states of another type. -/
@[inline] def Step.map {σ τ α ε : Type} (f : σ → τ) : Step σ α ε → Step τ α ε
  | give a s => .give a (f s)
  | skip s => .skip (f s)
  | finish => .finish
  | idle s => .idle (f s)
  | fail e s => .fail e (f s)

/-- The same step with another item. -/
@[inline] def Step.mapItem {σ α β ε : Type} (f : α → β) : Step σ α ε → Step σ β ε
  | give a s => .give (f a) s
  | skip s => .skip s
  | finish => .finish
  | idle s => .idle s
  | fail e s => .fail e s

/-- A step function.  A step that fails outright ends the sequence for good; one that survives its
failure says so with `Step.fail`. -/
abbrev Machine (ω ε σ α : Type) : Type := σ → Act ω ε (Step σ α ε)

/-- What one pull of a lazy sequence comes to.  A missing state means that the sequence is over. -/
inductive Pull (σ α ε : Type) where
  /-- An item, and the state behind it. -/
  | item (a : α) (rest : σ)
  /-- The end. -/
  | ended (rest : Option σ)
  /-- A failure. -/
  | failed (fault : ε) (rest : Option σ)
  /-- No answer within the allowed number of steps. -/
  | unsettled
  deriving Repr

namespace Machine

variable {ω ε σ α : Type}

/-- Steps until there is an item, the end or a failure, in at most `fuel` steps. -/
def pull (m : Machine ω ε σ α) : Nat → σ → Act ω ε (Pull σ α ε)
  | 0, _ => pure .unsettled
  | fuel + 1, s => do
    match ← Act.attempt (m s) with
    | .ok (.give a t) => pure (.item a t)
    | .ok (.skip t) => pull m fuel t
    | .ok .finish => pure (.ended none)
    | .ok (.idle t) => pure (.ended (some t))
    | .ok (.fail e t) => pure (.failed e (some t))
    | .error e => pure (.failed e none)

@[simp] theorem pull_zero (m : Machine ω ε σ α) (s : σ) : pull m 0 s = pure .unsettled := rfl

theorem pull_succ (m : Machine ω ε σ α) (fuel : Nat) (s : σ) :
    pull m (fuel + 1) s = (do
      match ← Act.attempt (m s) with
      | .ok (.give a t) => pure (.item a t)
      | .ok (.skip t) => pull m fuel t
      | .ok .finish => pure (.ended none)
      | .ok (.idle t) => pure (.ended (some t))
      | .ok (.fail e t) => pure (.failed e (some t))
      | .error e => pure (.failed e none)) := rfl

/-- Pulls until the end, in at most `fuel` steps: the items, and whether the end was reached. -/
def collect (m : Machine ω ε σ α) : Nat → σ → Act ω ε (List α × Bool)
  | 0, _ => pure ([], false)
  | fuel + 1, s => do
    match ← m s with
    | .give a t => do
      let (as, atEnd) ← collect m fuel t
      pure (a :: as, atEnd)
    | .skip t => collect m fuel t
    | .finish => pure ([], true)
    | .idle _ => pure ([], true)
    | .fail e _ => throw e

end Machine

end GraphRoutes
