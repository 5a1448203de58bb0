/-
**Searches: walks that visit what can be reached, and cut cycles.**

A search walks from the elements of a route along a function from an element to its children.  It
goes below an element only if the element passes every test: the element is not among its own
ancestors, where cycles are cut, and then the tests of the caller, on path and element, on the path
alone, on the element alone.  A bound in place of a test allows fewer than so many ancestors.

There are three scopes.  Everything that is visited is given; or only the leaves, elements without
any children, which the control finds out by beginning to read them; or only the returns to the
element of the route from which the walk started.

Children that the control has begun to read must not be read from the start again.  The control puts
them into a slot that it shares with the expansion of the search, and the expansion takes them out if
they are those of its own element.  The slot is cleared at every visit.

Main definitions:

* `GraphRoutes.Search.Gate`, `GraphRoutes.Search.Criteria` — the tests;
* `GraphRoutes.Search.Scope`, `GraphRoutes.Search.Plan` — a whole search, but for its route;
* `GraphRoutes.Search.Plan.trailKind` — what it keeps of the ancestors;
* `GraphRoutes.Search.Host` — what a search asks of its caller;
* `GraphRoutes.Search.Slot` — the children that were begun last;
* `GraphRoutes.Search.passes` — the tests, in order, up to the first that fails;
* `GraphRoutes.Search.env` — the walk of a search;
* `GraphRoutes.Search.start`, `GraphRoutes.Search.step` — the beginning of a search, and its step.
-/
import GraphRoutes.Descent.Trail
import GraphRoutes.Descent.Walk
import GraphRoutes.Route.Turn

set_option relaxedAutoImplicit false
set_option autoImplicit false

namespace GraphRoutes

namespace Search

/-- A source whose first item may have been read already. -/
structure Ahead (α κ : Type) where
  first : Option α := none
  rest : κ

/-- Children that a control has begun to read, and whose they are. -/
structure Peeked (α κ : Type) where
  element : α
  children : Ahead α κ

/-- What the control and the expansion of a search share: the children that were begun last, until
they are handed on. -/
abbrev Slot (α κ : Type) : Type := Option (Peeked α κ)

/-- A test on a path and an element, or a bound on the number of ancestors. -/
inductive Gate (ω ε α : Type) where
  | within (bound : Int)
  | asks (test : Trail α → α → Act ω ε Bool)

/-- The tests that an element must pass before the search goes below it. -/
structure Criteria (ω ε α : Type) where
  /-- Refuse an element that is among its own ancestors. -/
  cutCycles : Bool := true
  /-- On the path and the element. -/
  pred : Option (Gate ω ε α) := none
  /-- On the path alone. -/
  pathPred : Option (Gate ω ε α) := none
  /-- On the element alone. -/
  elementPred : Option (α → Act ω ε Bool) := none

/-- What a search gives. -/
inductive Scope where
  /-- Every element that it visits. -/
  | everything
  /-- Every visited element without children. -/
  | leaves
  /-- Every return to the element of the route from which the walk started. -/
  | cycles
  deriving DecidableEq, Repr, Ord

/-- A search: its tests, its scope, and whether it gives paths or elements. -/
structure Plan (ω ε α : Type) where
  criteria : Criteria ω ε α
  scope : Scope := .everything
  givesPaths : Bool := false

namespace Gate

variable {ω ε α : Type}

/-- Whether a gate looks at more of the path than its length. -/
def looks : Gate ω ε α → Bool
  | within _ => false
  | asks _ => true

/-- Whether an element passes. -/
def passes (g : Gate ω ε α) (t : Trail α) (a : α) : Act ω ε Bool :=
  match g with
  | within n => pure ((t.length : Int) < n)
  | asks test => test t a

/-- Whether an element passes a gate, where there is one. -/
def passesAny (g : Option (Gate ω ε α)) (t : Trail α) (a : α) : Act ω ε Bool :=
  match g with
  | some g => g.passes t a
  | none => pure true

end Gate

namespace Criteria

variable {ω ε α : Type}

/-- Whether there is any test at all. -/
def any (c : Criteria ω ε α) : Bool :=
  c.cutCycles || c.pred.isSome || c.pathPred.isSome || c.elementPred.isSome

/-- Whether some test looks at the path itself. -/
def looks (c : Criteria ω ε α) : Bool :=
  c.pred.any Gate.looks || c.pathPred.any Gate.looks

end Criteria

variable {ω ε α κ β key : Type}

/-- What a search keeps of the ancestors: a sequence where the order may be seen, an index where
membership is asked, and nothing where no test looks. -/
def Plan.trailKind (p : Plan ω ε α) : TrailKind :=
  let ordered := p.givesPaths || p.scope == .cycles || p.criteria.looks
  match ordered, p.criteria.cutCycles with
  | true, true => .indexed
  | true, false => .sequence
  | false, true => .set
  | false, false => if p.criteria.any then .sequence else .untracked

/-- What a search asks of its caller. -/
structure Host (ω ε α κ β key : Type) where
  /-- The next item of a source. -/
  next : Source ω ε κ α
  /-- The children of an element, opened. -/
  children : α → Act ω ε κ
  /-- A source without items. -/
  nothing : Act ω ε κ
  /-- The key of an element. -/
  keyOf : α → Option key
  /-- The fault of an element without a key. -/
  unhashable : ε
  /-- Whether two elements are one object. -/
  identical : α → α → Bool
  /-- Whether an element is the one from which a walk started. -/
  same : α → α → Act ω ε Bool
  /-- A mark for a new trail. -/
  mark : Act ω ε Mark
  /-- The result for an element below its ancestors. -/
  result : Trail α → α → β
  /-- The answer to a fruitless search. -/
  policy : Trail α → α → Nat → Nat → Act ω ε (Resolution β)
  /-- Hears what is reported. -/
  report : Note α β → Act ω ε Unit

/-- The next item of a source whose first item may have been read. -/
@[inline] def Ahead.next (source : Source ω ε κ α) : Source ω ε (Ahead α κ) α := fun s => do
  match s.first with
  | some a => pure (some (a, { rest := s.rest }))
  | none => do
    match ← source s.rest with
    | none => pure none
    | some (a, k) => pure (some (a, { rest := k }))

section Run

variable [DecidableEq key] (host : Host ω ε α κ β key) (plan : Plan ω ε α)

/-- Whether an element is not among its ancestors. -/
def isNew (t : Trail α) (a : α) : Act ω ε Bool := do
  let known ← Act.ofOption host.unhashable (t.mem? host.keyOf a)
  pure !known

/-- The second test, for what has passed the first. -/
@[inline] def both (first second : Act ω ε Bool) : Act ω ε Bool := do
  if ← first then second else pure false

@[simp] theorem both_pure (p q : Bool) :
    both (pure p : Act ω ε Bool) (pure q) = pure (p && q) := by
  cases p <;> rfl

/-- Whether an element passes a test on the element alone, where there is one. -/
def passesElement (test : Option (α → Act ω ε Bool)) (a : α) : Act ω ε Bool :=
  match test with
  | some test => test a
  | none => pure true

/-- Whether an element passes every test.  The tests are tried in order, up to the first that it
fails. -/
def passes (t : Trail α) (a : α) : Act ω ε Bool :=
  let c := plan.criteria
  both (if c.cutCycles then isNew host t a else pure true) <|
    both (Gate.passesAny c.pred t a) <|
      both (Gate.passesAny c.pathPred t a) (passesElement c.elementPred a)

/-- The slot of a search, beside the world. -/
@[inline] def slot : Cell (Slot α κ × ω) (Slot α κ) := Cell.beside

/-- The instruction for an element: by the scope of the search. -/
def control (t : Trail α) (a : α) : Act (Slot α κ × ω) ε (Instruction Bool) :=
  match plan.scope with
  | .everything => pure Preset.emitAndContinue.instruction
  | .leaves => do
    slot.modify fun _ => none
    let k ← Act.beside (host.children a)
    match ← Act.beside (host.next k) with
    | none => pure Preset.emit.instruction
    | some (first, k) => do
      slot.modify fun _ => some { element := a, children := { first := some first, rest := k } }
      pure Preset.proceed.instruction
  | .cycles => do
    match t.origin? with
    | none => pure Preset.proceed.instruction
    | some origin => do
      if ← Act.beside (host.same a origin) then pure Preset.emitAndCut.instruction
      else pure Preset.proceed.instruction

/-- The children of an element, from the start. -/
def fromStart (a : α) : Act ω ε (Ahead α κ) := do
  let k ← host.children a
  pure { rest := k }

/-- The children that the search visits below an element: none unless it passes the tests; those in
the slot if they are its own. -/
def expand (t : Trail α) (a : α) : Act (Slot α κ × ω) ε (Ahead α κ) := do
  if ← Act.beside (passes host plan t a) then
    match ← slot.read with
    | some p =>
      if host.identical p.element a then do
        slot.modify fun _ => none
        pure p.children
      else Act.beside (fromStart host a)
    | none => Act.beside (fromStart host a)
  else do
    slot.modify fun _ => none
    let k ← Act.beside host.nothing
    pure { rest := k }

/-- The trail below an element.  Only an element with a key can be told apart. -/
def extend (t : Trail α) (a : α) : Act ω ε (Trail α) := do
  let mark ← host.mark
  match t.kind with
  | .set | .indexed => do
    let _ ← Act.ofOption host.unhashable (host.keyOf a)
    pure (t.extend host.keyOf a mark)
  | _ => pure (t.extend host.keyOf a mark)

variable {host} in
/-- The trail below an element is the trail above it, with the element. -/
theorem exists_of_extend {t u : Trail α} {a : α} {w v : ω}
    (h : extend host t a w = .ok u v) : ∃ mark, u = t.extend host.keyOf a mark := by
  obtain ⟨mark, w₁, -, h⟩ := Act.bind_eq_ok_iff.1 h
  refine ⟨mark, ?_⟩
  cases hkind : t.kind <;> rw [hkind] at h
  case set | indexed =>
    obtain ⟨_, _, _, h⟩ := Act.bind_eq_ok_iff.1 h
    cases h
    rfl
  case untracked | sequence =>
    cases h
    rfl

/-- A trail without ancestors, kept in the same way. -/
def restart (t : Trail α) : Act ω ε (Trail α) := do
  let mark ← host.mark
  pure (t.restart mark)

/-- The walk of a search. -/
def env : Walk.Env (Slot α κ × ω) ε α (Trail α) (Ahead α κ) Bool β where
  next k := Act.beside (Ahead.next host.next k)
  control := control host plan
  truth := pure
  result t a := pure (host.result t a)
  extend t a := Act.beside (extend host t a)
  restart t := Act.beside (restart host t)
  children := expand host plan
  policy t a depth n := Act.beside (host.policy t a depth n)
  report note := Act.beside (host.report note)

end Run

end Search

/-- The state of a search: its walk, and what its control and its expansion share. -/
abbrev Search (α κ : Type) : Type := Walk α (Trail α) (Search.Ahead α κ) Bool × Search.Slot α κ

namespace Search

variable {ω ε α κ β key : Type} [DecidableEq key]

/-- A search from the candidates of a route, with the mark of its first trail. -/
def start (plan : Plan ω ε α) (mark : Mark) (candidates : κ) : Search α κ :=
  (Walk.start { kind := plan.trailKind, mark } { rest := candidates }, none)

/-- One step of a search. -/
def step (host : Host ω ε α κ β key) (plan : Plan ω ε α) (limits : Limits) :
    Machine ω ε (Search α κ) β :=
  Machine.beside (Walk.step (env host plan) limits)

end Search

end GraphRoutes
