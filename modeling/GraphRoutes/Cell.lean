/-
**Cells: where a sequence keeps its state in a world.**

A sequence that others may hold as well keeps its state in the world.  While it asks its source for
an item, the world may change, and the state of the sequence with it, so nothing that was read
before the question may be trusted after it.  A cell says where the state is read and where it is
changed.

Main definitions:

* `GraphRoutes.Cell` — where a state is read and changed;
* `GraphRoutes.Cell.read`, `GraphRoutes.Cell.modify` — the actions of a cell;
* `GraphRoutes.Cell.beside` — the cell of a state that stands beside a world;
* `GraphRoutes.Act.beside` — an action that leaves such a state alone.

Main results:

* `GraphRoutes.Cell.read_beside`, `GraphRoutes.Cell.modify_beside` — what the actions do there;
* `GraphRoutes.Act.beside_bind`, `GraphRoutes.Act.beside_eq_ok_iff` — one action after the other, and
  its result.
-/
import GraphRoutes.Act

set_option relaxedAutoImplicit false
set_option autoImplicit false

namespace GraphRoutes

/-- Where a state in `σ` is read and changed in a world. -/
structure Cell (ω σ : Type) where
  get : ω → σ
  update : (σ → σ) → ω → ω

namespace Cell

variable {ω ε σ : Type}

/-- The state as it is now. -/
@[inline] def read (c : Cell ω σ) : Act ω ε σ := fun w => .ok (c.get w) w

/-- Changes the state as it is now. -/
@[inline] def modify (c : Cell ω σ) (f : σ → σ) : Act ω ε Unit := fun w => .ok () (c.update f w)

/-- The cell of a state that stands beside a world. -/
def beside : Cell (σ × ω) σ where
  get := Prod.fst
  update f w := (f w.1, w.2)

@[simp] theorem read_beside (s : σ) (w : ω) :
    (beside.read : Act (σ × ω) ε σ) (s, w) = .ok s (s, w) := rfl

@[simp] theorem modify_beside (f : σ → σ) (s : σ) (w : ω) :
    (beside.modify f : Act (σ × ω) ε Unit) (s, w) = .ok () (f s, w) := rfl

end Cell

/-- An action on a world, with a state beside it that it leaves alone. -/
@[inline] def Act.beside {ω ε α σ : Type} (m : Act ω ε α) : Act (σ × ω) ε α := fun w =>
  match m w.2 with
  | .ok a v => .ok a (w.1, v)
  | .error e v => .error e (w.1, v)

namespace Act

variable {ω ε α β σ : Type}

@[simp] theorem beside_pure (a : α) : (beside (pure a) : Act (σ × ω) ε α) = pure a := rfl

@[simp] theorem beside_bind (m : Act ω ε α) (f : α → Act ω ε β) :
    (beside (m >>= f) : Act (σ × ω) ε β) = beside m >>= fun a => beside (f a) := by
  funext w
  simp only [beside, bind, EStateM.bind]
  cases m w.2 <;> rfl

/-- How a result comes about beside a state. -/
theorem beside_eq_ok_iff {m : Act ω ε α} {w v : σ × ω} {a : α} :
    beside m w = .ok a v ↔ m w.2 = .ok a v.2 ∧ v.1 = w.1 := by
  obtain ⟨s, w⟩ := w
  obtain ⟨t, v⟩ := v
  cases h : m w with
  | ok b u =>
    simp only [beside, h, EStateM.Result.ok.injEq, Prod.mk.injEq]
    constructor
    · rintro ⟨rfl, rfl, rfl⟩
      exact ⟨⟨rfl, rfl⟩, rfl⟩
    · rintro ⟨⟨rfl, rfl⟩, rfl⟩
      exact ⟨rfl, rfl, rfl⟩
  | error e u => simp [beside, h]

end Act

end GraphRoutes
