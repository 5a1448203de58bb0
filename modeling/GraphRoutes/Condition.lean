/-
**Conditions: situations that a caller may decide.**

A traversal that meets a situation with more than one sensible outcome makes a condition of it and
asks the caller's handler.  A handler decides, declines, or fails.  A declined condition takes its
default, if there is one, and is fatal otherwise.

Main definitions:

* `GraphRoutes.ConditionKind` — what may happen;
* `GraphRoutes.Handler` — what decides, declines or fails;
* `GraphRoutes.resolve` — handler, then default, then failure;
* `GraphRoutes.Handler.chain`, `GraphRoutes.Handler.refuse`, `GraphRoutes.Handler.always`.

Main results:

* `GraphRoutes.Handler.chain_cons` — the first handler of a chain is asked first.
-/
import GraphRoutes.Act

set_option relaxedAutoImplicit false
set_option autoImplicit false

namespace GraphRoutes

/-- What kind of situation a condition stands for. -/
inductive ConditionKind where
  /-- Any situation. -/
  | general
  /-- An element was met for a second time. -/
  | cycle
  /-- Nothing is known about the direction in which an edge was reached. -/
  | unknownDirection
  deriving DecidableEq, Repr, Ord

/-- A handler of situations of type `γ`: it decides with a `δ`, declines with nothing, or fails. -/
abbrev Handler (ω ε γ δ : Type) : Type := γ → Act ω ε (Option δ)

namespace Handler

variable {ω ε γ δ : Type}

/-- Asks the handlers in order until one decides. -/
def chain : List (Handler ω ε γ δ) → Handler ω ε γ δ
  | [], _ => pure none
  | h :: hs, c => do
    match ← h c with
    | some d => pure (some d)
    | none => chain hs c

@[simp] theorem chain_nil (c : γ) :
    chain ([] : List (Handler ω ε γ δ)) c = pure none := rfl

theorem chain_cons (h : Handler ω ε γ δ) (hs : List (Handler ω ε γ δ)) (c : γ) :
    chain (h :: hs) c = (do
      match ← h c with
      | some d => pure (some d)
      | none => chain hs c) := rfl

/-- The handler that makes every condition fatal. -/
def refuse (fatal : γ → ε) : Handler ω ε γ δ := fun c => throw (fatal c)

/-- The handler that answers every condition alike; to answer nothing is to decline. -/
def always (d : Option δ) : Handler ω ε γ δ := fun _ => pure d

end Handler

/-- Resolves a condition: by the handler, else by the default, else it is fatal. -/
def resolve {ω ε γ δ : Type} (fatal : γ → ε) (handler : Option (Handler ω ε γ δ))
    (default : Option δ) (c : γ) : Act ω ε δ := do
  let decision ← match handler with
    | some h => h c
    | none => pure none
  match decision, default with
  | some d, _ => pure d
  | none, some d => pure d
  | none, none => throw (fatal c)

end GraphRoutes
