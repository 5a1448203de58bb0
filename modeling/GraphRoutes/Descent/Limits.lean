/-
**Limits of a descent: how deep, and how long without a result.**

A descent counts the steps that it has gone down since it last gave something.  When the count
reaches the ceiling, and from then on at every interval, a policy is asked what to do.

Main definitions:

* `GraphRoutes.Limits` — ceiling, interval and depth;
* `GraphRoutes.Limits.due` — whether the policy is asked at a count;
* `GraphRoutes.Limits.stopsBelow` — whether an element stands too deep to go below it;
* `GraphRoutes.Resolution` — what a policy may answer;
* `GraphRoutes.Note` — what a descent reports about it.

Main results:

* `GraphRoutes.Limits.due_iff` — the counts at which the policy is asked.
-/

set_option relaxedAutoImplicit false
set_option autoImplicit false

namespace GraphRoutes

/-- The limits of a descent.  Elements of the route stand at depth zero. -/
structure Limits where
  /-- The count of fruitless steps at which the policy is asked first. -/
  ceiling : Nat := 10000000
  /-- The count of steps from one question to the next. -/
  interval : Nat := 10000
  /-- The depth below which nothing is visited. -/
  maxDepth : Option Nat := none
  ceiling_pos : 0 < ceiling := by decide
  interval_pos : 0 < interval := by decide

namespace Limits

/-- The limits where none are given. -/
def standard : Limits := {}

/-- Whether the policy is asked at the `n`-th fruitless step. -/
def due (l : Limits) (n : Nat) : Bool :=
  l.ceiling ≤ n && (n - l.ceiling) % l.interval == 0

/-- The policy is asked at the ceiling and at every interval above it. -/
theorem due_iff (l : Limits) (n : Nat) :
    l.due n = true ↔ ∃ k, n = l.ceiling + k * l.interval := by
  simp only [due, Bool.and_eq_true, decide_eq_true_eq, beq_iff_eq]
  constructor
  · rintro ⟨h, hm⟩
    refine ⟨(n - l.ceiling) / l.interval, ?_⟩
    have := Nat.div_add_mod (n - l.ceiling) l.interval
    rw [hm, Nat.add_zero, Nat.mul_comm] at this
    omega
  · rintro ⟨k, rfl⟩
    refine ⟨Nat.le_add_right _ _, ?_⟩
    rw [Nat.add_sub_cancel_left]
    exact Nat.mul_mod_left k l.interval

/-- Whether nothing is visited below an element that stands below these levels. -/
def stopsBelow {γ : Type} (l : Limits) (outer : List γ) : Bool :=
  match l.maxDepth with
  | none => false
  | some d => d ≤ outer.length

/-- Only the number of levels counts. -/
theorem stopsBelow_eq {γ : Type} (l : Limits) (outer : List γ) :
    l.stopsBelow outer = l.maxDepth.any (· ≤ outer.length) := by
  unfold stopsBelow
  cases l.maxDepth <;> rfl

end Limits

/-- The answer of a policy to a fruitless search. -/
inductive Resolution (β : Type) where
  /-- Go on below the element. -/
  | descend
  /-- Leave what is below the element, and go on beside it. -/
  | advance
  /-- Leave what is below the element and what is beside it. -/
  | cut
  /-- Give `b` and end the descent. -/
  | substitute (b : β)
  deriving DecidableEq, Repr

/-- What a descent reports about a fruitless search; `n` counts the fruitless steps. -/
inductive Note (α β : Type) where
  | checkpoint (n : Nat) (element : α)
  | abandoned (n depth : Nat) (element : α)
  | abandonedWithSiblings (n depth : Nat) (element : α)
  | substituted (n : Nat) (element : α) (b : β)
  deriving DecidableEq, Repr

end GraphRoutes
