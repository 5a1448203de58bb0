/-
**Actions: computations over a world that may fail.**

Whatever a traversal asks of its caller (a test, a key, the next item of a sequence) may read and
change the caller's world and may fail.  An action keeps the changes that it made before a failure:
the world is threaded through both outcomes.  The traversal machines of this library are written
over an arbitrary world and an arbitrary type of faults, so that the same definitions run over the
heap of a session and over plain lists.

Main definitions:

* `GraphRoutes.Act` — actions over a world `ω` with faults in `ε`;
* `GraphRoutes.Act.attempt` — a failure as a value.

Main results:

* `GraphRoutes.Act.attempt_pure`, `GraphRoutes.Act.attempt_throw` — what an attempt comes to;
* `GraphRoutes.Act.bind_of_ok`, `GraphRoutes.Act.bind_of_error`, `GraphRoutes.Act.bind_eq_ok_iff` — two
  actions in a row.
-/

set_option relaxedAutoImplicit false
set_option autoImplicit false

namespace GraphRoutes

/-- An action over the world `ω` that gives an `α` or fails with an `ε`; the world survives a
failure. -/
abbrev Act (ω ε α : Type) : Type := EStateM ε ω α

namespace Act

variable {ω ε α : Type}

section

variable {β : Type} {m : Act ω ε α} {f : α → Act ω ε β} {w v : ω}

/-- Where the first of two actions gives a result, the second goes on from it. -/
theorem bind_of_ok {a : α} (h : m w = .ok a v) : (m >>= f) w = f a v := by
  simp only [bind, EStateM.bind, h]

/-- Where the first of two actions fails, so do both. -/
theorem bind_of_error {e : ε} (h : m w = .error e v) : (m >>= f) w = .error e v := by
  simp only [bind, EStateM.bind, h]

end

/-- Two actions in a row give a result if both of them do. -/
theorem bind_eq_ok_iff {β : Type} {m : Act ω ε α} {f : α → Act ω ε β} {w v : ω} {b : β} :
    (m >>= f) w = .ok b v ↔ ∃ a u, m w = .ok a u ∧ f a u = .ok b v := by
  simp only [bind, EStateM.bind]
  cases m w with
  | ok a u =>
    simp only [EStateM.Result.ok.injEq]
    constructor
    · intro h
      exact ⟨a, u, ⟨rfl, rfl⟩, h⟩
    · rintro ⟨_, _, ⟨rfl, rfl⟩, h⟩
      exact h
  | error e u => simp

/-- Runs `m` and gives its failure as a value, in the world that the failure left. -/
@[inline] def attempt (m : Act ω ε α) : Act ω ε (Except ε α) := fun w =>
  match m w with
  | .ok a w => .ok (.ok a) w
  | .error e w => .ok (.error e) w

@[simp] theorem attempt_pure (a : α) : attempt (pure a : Act ω ε α) = pure (.ok a) := rfl

@[simp] theorem attempt_throw (e : ε) : attempt (throw e : Act ω ε α) = pure (.error e) := rfl

/-- An optional value, or the fault `e` where there is none. -/
@[inline] def ofOption (e : ε) : Option α → Act ω ε α
  | some a => pure a
  | none => throw e

@[simp] theorem ofOption_some (e : ε) (a : α) :
    (ofOption e (some a) : Act ω ε α) = pure a := rfl

@[simp] theorem ofOption_none (e : ε) :
    (ofOption e (none : Option α) : Act ω ε α) = throw e := rfl

end Act

end GraphRoutes
