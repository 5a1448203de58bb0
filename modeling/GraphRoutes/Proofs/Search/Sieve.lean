/-
**Searches whose tests only look.**

The tests of a search are actions of its caller.  Here they are functions of the trail and the
element, or bounds, and the caller does not hear when children are asked for.  Then a search touches
the world only where its route is read and where its consumer takes an element, and the only fault
of its own is that of an element without a key.

Main definitions:

* `GraphRoutes.Rule`, `GraphRoutes.Sieve` — a test, and all tests of a search;
* `GraphRoutes.Sieve.plan` — the plan of a search with these tests;
* `GraphRoutes.Sieve.allows` — whether an element passes the tests, cycles apart;
* `GraphRoutes.Graph.Form` — whether elements or paths are given;
* `GraphRoutes.Graph.search` — a whole search, for a consumer who takes all that it gives;
* `GraphRoutes.Graph.Caller.silent` — a caller who does not hear when children are asked for.

Main results:

* `GraphRoutes.Graph.passes_plan` — what the tests come to;
* `GraphRoutes.Graph.patient_everything`, `GraphRoutes.Graph.search_everything` — a search that
  gives everything never asks its policy, and only roams.
-/
import GraphRoutes.Proofs.Descent.Roam
import GraphRoutes.Proofs.Search.Graph
import Mathlib.Data.Finset.Insert
import Mathlib.Data.Fintype.Defs

set_option relaxedAutoImplicit false
set_option autoImplicit false

namespace GraphRoutes

variable {ω ε α κ β key : Type}

/-- A test on a trail and an element, or a bound on the number of ancestors. -/
inductive Rule (α : Type) where
  | within (bound : ℤ)
  | asks (test : Trail α → α → Bool)

namespace Rule

/-- The rule as a test of a search. -/
def gate : Rule α → Search.Gate ω ε α
  | within n => .within n
  | asks test => .asks fun t a => pure (test t a)

/-- Whether an element passes. -/
def allows : Rule α → Trail α → α → Bool
  | within n, t, _ => decide ((t.length : ℤ) < n)
  | asks test, t, a => test t a

theorem passesAny_gate (r : Option (Rule α)) (t : Trail α) (a : α) :
    Search.Gate.passesAny (r.map gate : Option (Search.Gate ω ε α)) t a =
      pure (r.all (·.allows t a)) := by
  cases r with
  | none => rfl
  | some r => cases r <;> rfl

end Rule

/-- The tests of a search. -/
structure Sieve (α : Type) where
  cutCycles : Bool := true
  pred : Option (Rule α) := none
  pathPred : Option (Rule α) := none
  elementPred : Option (α → Bool) := none

namespace Sieve

/-- The plan of a search with these tests. -/
def plan (s : Sieve α) (scope : Search.Scope) (givesPaths : Bool) : Search.Plan ω ε α where
  criteria := {
    cutCycles := s.cutCycles
    pred := s.pred.map Rule.gate
    pathPred := s.pathPred.map Rule.gate
    elementPred := s.elementPred.map fun test a => pure (test a) }
  scope := scope
  givesPaths := givesPaths

/-- Whether an element passes all tests but the one for cycles. -/
def allows (s : Sieve α) (t : Trail α) (a : α) : Bool :=
  s.pred.all (·.allows t a) && s.pathPred.all (·.allows t a) && s.elementPred.all (· a)

/-- Where cycles are cut, the trail can be asked for its members. -/
theorem trailKind_plan {s : Sieve α} (hcut : s.cutCycles = true) (scope : Search.Scope)
    (givesPaths : Bool) :
    (s.plan (ω := ω) (ε := ε) scope givesPaths).trailKind = .set ∨
      (s.plan (ω := ω) (ε := ε) scope givesPaths).trailKind = .indexed := by
  simp only [Search.Plan.trailKind, Sieve.plan, hcut]
  split
  · exact Or.inr rfl
  · rename_i h
    cases h
  · exact Or.inl rfl
  · rename_i h
    cases h

end Sieve

namespace Graph

open Course

/-- The form in which a search gives an element below its ancestors. -/
structure Form (α β : Type) where
  givesPaths : Bool
  result : Trail α → α → β
  /-- The element that was given. -/
  last : β → Option α
  last_result : ∀ t a, last (result t a) = some a

namespace Form

/-- The element itself. -/
def elements : Form α α where
  givesPaths := false
  result _ a := a
  last := some
  last_result _ _ := rfl

/-- The ancestors, and the element behind them. -/
def paths : Form α (List α) where
  givesPaths := true
  result t a := t.items ++ [a]
  last := List.getLast?
  last_result t a := by simp

end Form

/-- A caller who does not hear when children are asked for. -/
def Caller.silent (c : Caller ω ε α κ β) : Caller ω ε α κ β :=
  { c with note := fun _ => pure () }

/-- **A search on a graph**, for a consumer who takes all that it gives. -/
noncomputable def search [DecidableEq key] (g : Graph α key) (c : Caller ω ε α κ β) (form : Form α β)
    (s : Sieve α) (scope : Search.Scope) (limits : Limits) (consume : β → Act ω ε Unit)
    (k : κ ⊕ List α) : Course ω ε Unit :=
  Machine.drive (Search.step (host g c form.result) (s.plan scope form.givesPaths) limits) consume
    (Search.start (s.plan (ω := ω) (ε := ε) scope form.givesPaths) none k)

variable (g : Graph α key) (c : Caller ω ε α κ β) (result : Trail α → α → β) [DecidableEq key]
  (s : Sieve α) (scope : Search.Scope) (givesPaths : Bool)

/-- What the tests of a search come to. -/
theorem passes_plan (t : Trail α) (a : α) :
    Search.passes (host g c result) (s.plan scope givesPaths) t a =
      Search.both (if s.cutCycles then Search.isNew (host g c result) t a else pure true)
        (pure (s.allows t a)) := by
  have element : (Search.passesElement (s.elementPred.map fun test a => pure (test a)) a :
      Act ω ε Bool) = pure (s.elementPred.all (· a)) := by
    cases s.elementPred <;> rfl
  simp only [Search.passes, Sieve.plan, Rule.passesAny_gate, element, Search.both_pure,
    Sieve.allows, Bool.and_assoc]
  rfl

/-- An element with a key can be told apart from its ancestors. -/
theorem isNew_keyed (t : Trail α) {a : α} {k : key} (h : g.keyOf a = some k) :
    Search.isNew (host g c result) t a =
      pure (!t.newestFirst.any fun b => (g.keyOf b).any (· = k)) := by
  simp only [Search.isNew, host, Trail.mem?, h, Act.ofOption_some, pure_bind]

/-- Below an element with a key, its trail can be extended. -/
theorem extend_keyed (t : Trail α) {a : α} (h : (g.keyOf a).isSome) :
    Search.extend (host g c result) t a = pure (t.extend g.keyOf a none) := by
  obtain ⟨k, hk⟩ := Option.isSome_iff_exists.1 h
  simp only [Search.extend, host, hk, Act.ofOption_some, pure_bind]
  cases t.kind <;> rfl

/-- Outside of searches for leaves and for cycles every element is given, so a search that may go
down more than one step without a result never asks its policy. -/
theorem patient_everything {limits : Limits} (hceiling : 1 < limits.ceiling) :
    Walk.Patient (walk g c result (s.plan .everything givesPaths)) limits := by
  intro t a w i v hi _ n hn hdue
  cases (hi : EStateM.Result.ok Preset.emitAndContinue.instruction w = _)
  rw [hn rfl] at hdue
  simp only [Limits.due, Bool.and_eq_true, decide_eq_true_eq] at hdue
  omega

/-- **A search for everything only roams.** -/
theorem search_everything (form : Form α β) {limits : Limits} (hceiling : 1 < limits.ceiling)
    (consume : β → Act ω ε Unit) (k : κ ⊕ List α) :
    search g c form s .everything limits consume k =
      Walk.roam (walk g c form.result (s.plan .everything form.givesPaths)) limits consume
        { path := { kind := (s.plan (ω := ω) (ε := ε) .everything form.givesPaths).trailKind },
          depth := 0, candidates := k } := by
  rw [search, drive_search,
    Walk.level_eq_roam rfl (patient_everything g c form.result s form.givesPaths hceiling)]

/-! ### A graph with a cycle, and a caller who writes down what happens -/

deriving instance DecidableEq for EStateM.Result

/-- The elements of small graphs. -/
inductive Corner where
  | first | second | third
  deriving DecidableEq

instance : Fintype Corner where
  elems := {.first, .second, .third}
  complete a := by cases a <;> decide

/-- A graph of corners, each of them an object of its own. -/
def ofCorners (keyOf : Corner → Option key) (same : Corner → Corner → Bool)
    (succ : Corner → List Corner) : Graph Corner key where
  succ
  keyOf
  same
  identical := (· == ·)
  identical_self := beq_self_eq_true

/-- Two elements that lead to each other, the second in two ways, and one that leads nowhere. -/
def circle : Graph Corner Corner :=
  ofCorners some (· == ·) fun
    | .first => [.second, .third]
    | .second => [.first, .first]
    | .third => []

/-- A caller who writes down for which elements children are asked. -/
def scribe : Caller (List (α ⊕ β)) Unit α Empty β where
  route := nofun
  note a := modify (· ++ [.inl a])
  unhashable := ()
  policy _ _ _ _ := pure .cut
  report _ := pure ()

/-- A consumer who writes down what is given. -/
def write (b : β) : Act (List (α ⊕ β)) Unit Unit := modify (· ++ [.inr b])

theorem forM_write (bs : List β) (w : List (α ⊕ β)) :
    bs.forM write w = .ok () (w ++ bs.map .inr) := by
  induction bs generalizing w with
  | nil => simp only [List.map_nil, List.append_nil]; rfl
  | cons b bs ih =>
      change bs.forM write (w ++ [.inr b]) = _
      rw [ih, List.map_cons, List.append_assoc]
      rfl

end Graph

end GraphRoutes
