/-
**Searches on any terrain.**

A search may walk over anything: its route and its children may be endless, be read from a world that
changes, and fail.  A terrain is all that a search walks over, and what tells its elements apart.  All
that is known of it is that a source without items has none.  Who decides about a fruitless search is
kept apart from the terrain: a guide lets it go on or gives up a part of it, but puts no result of its
own in the place of one.

Main definitions:

* `GraphRoutes.Terrain`, `GraphRoutes.Guide` — what a search walks over, and who decides when it is
  fruitless;
* `GraphRoutes.Terrain.ofGraph` — a graph as a terrain;
* `GraphRoutes.Terrain.host`, `GraphRoutes.Terrain.plan` — the host and the plan of a search there;
* `GraphRoutes.Terrain.search` — a whole search, for a consumer who takes all that it gives;
* `GraphRoutes.Terrain.heard` — a terrain where somebody hears which children are asked for.

Main results:

* `GraphRoutes.Terrain.passes_repeated`, `GraphRoutes.Terrain.expand_failed` — the tests refuse an
  element that is among its own ancestors, and nothing is visited below what they refuse.
-/
import GraphRoutes.Proofs.Search.Sieve

set_option relaxedAutoImplicit false
set_option autoImplicit false

namespace GraphRoutes

/-- What a search walks over, and what tells its elements apart. -/
structure Terrain (ω ε α κ key : Type) where
  /-- The next item of a source. -/
  next : Source ω ε κ α
  /-- The children of an element, opened. -/
  children : α → Act ω ε κ
  /-- A source without items. -/
  nothing : Act ω ε κ
  /-- The key of an element. -/
  keyOf : α → Option key
  /-- The fault of an element without a key. -/
  unhashable : ε
  /-- Whether two elements are one object. -/
  identical : α → α → Bool
  /-- Whether two elements are equal. -/
  same : α → α → Act ω ε Bool
  /-- A mark for a new trail. -/
  mark : Act ω ε Mark
  /-- The source without items has none. -/
  next_nothing : ∀ {w k v}, nothing w = .ok k v → ∃ u, next k v = .ok none u

/-- Who decides about a fruitless search, and puts no result of its own in the place of one. -/
structure Guide (ω ε α : Type) where
  /-- What to do at an element: its ancestors, its depth and the number of fruitless steps. -/
  ask : Trail α → α → ℕ → ℕ → Act ω ε (Resolution Empty)
  /-- Hears what is reported. -/
  hear : Note α Empty → Act ω ε Unit

variable {ω ε α κ β γ key : Type}

/-- An answer that puts no result in the place of one, among the answers that may. -/
def Resolution.widen : Resolution Empty → Resolution β
  | descend => .descend
  | advance => .advance
  | cut => .cut
  | substitute b => nomatch b

/-- A guide hears of everything but of results that are put in the place of others. -/
def Guide.report (guide : Guide ω ε α) : Note α β → Act ω ε Unit
  | .checkpoint n a => guide.hear (.checkpoint n a)
  | .abandoned n depth a => guide.hear (.abandoned n depth a)
  | .abandonedWithSiblings n depth a => guide.hear (.abandonedWithSiblings n depth a)
  | .substituted _ _ _ => pure ()

/-- A guide who gives up what is fruitless, and hears nothing. -/
def Guide.giveUp : Guide ω ε α where
  ask _ _ _ _ := pure .cut
  hear _ := pure ()

namespace Terrain

open Course Search

/-- A graph is a terrain. -/
def ofGraph (g : Graph α key) (c : Graph.Caller ω ε α κ β) : Terrain ω ε α (κ ⊕ List α) key where
  next := c.next
  children a := do
    c.note a
    pure (.inr (g.succ a))
  nothing := pure (.inr [])
  keyOf := g.keyOf
  unhashable := c.unhashable
  identical := g.identical
  same a b := pure (g.same a b)
  mark := pure none
  next_nothing := by
    rintro w k v ⟨⟩
    exact ⟨_, rfl⟩

variable (T : Terrain ω ε α κ key) (guide : Guide ω ε α) (form : Graph.Form α β)

/-- The host of a search. -/
def host : Host ω ε α κ β key where
  next := T.next
  children := T.children
  nothing := T.nothing
  keyOf := T.keyOf
  unhashable := T.unhashable
  identical := T.identical
  same := T.same
  mark := T.mark
  result := form.result
  policy t a depth n := do
    let r ← guide.ask t a depth n
    pure r.widen
  report := guide.report

/-- The plan of a search with these tests. -/
def plan (form : Graph.Form α β) (criteria : Criteria ω ε α) (scope : Scope) : Plan ω ε α :=
  { criteria, scope, givesPaths := form.givesPaths }

variable [DecidableEq key]

/-- **A search on a terrain**, for a consumer who takes all that it gives.  Its first trail has the
mark `mark`. -/
noncomputable def search (criteria : Criteria ω ε α) (scope : Scope) (limits : Limits)
    (consume : β → Act ω ε Unit) (mark : Mark) (k : κ) : Course ω ε Unit :=
  Machine.drive (Search.step (T.host guide form) (plan form criteria scope) limits) consume
    (Search.start (plan form criteria scope) mark k)

/-- The same terrain, where somebody hears whose children are asked for before they are opened. -/
def heard (hears : α → Act ω ε Unit) : Terrain ω ε α κ key :=
  { T with
    children := fun a => do
      hears a
      T.children a }

/-! ### What the tests refuse -/

variable {T guide form} {criteria : Criteria ω ε α} {scope : Scope}

/-- Where cycles are cut, an element that is among its own ancestors is refused before any other test
is made. -/
theorem passes_repeated (hcut : criteria.cutCycles = true) {t : Trail α} {a : α}
    (ha : t.mem? T.keyOf a = some true) :
    passes (T.host guide form) (plan form criteria scope) t a = pure false := by
  have hnew : isNew (T.host guide form) t a = pure false := by
    simp only [isNew, host, ha, Act.ofOption_some, pure_bind, Bool.not_true]
  simp only [passes, plan, hcut, if_true, hnew, both, pure_bind, Bool.false_eq_true, if_false]

/-- Nothing is visited below an element that the tests refuse. -/
theorem expand_failed {t : Trail α} {a : α}
    (ha : passes (T.host guide form) (plan form criteria scope) t a = pure false)
    {w v : Slot α κ × ω} {k : Ahead α κ}
    (hk : expand (T.host guide form) (plan form criteria scope) t a w = .ok k v) :
    ∃ u, (env (T.host guide form) (plan form criteria scope)).next k v = .ok none u := by
  simp only [expand, ha, Act.beside_pure, pure_bind, Bool.false_eq_true, if_false] at hk
  obtain ⟨⟨⟩, v₁, -, hk⟩ := Act.bind_eq_ok_iff.1 hk
  obtain ⟨k', v₂, hnothing, hk⟩ := Act.bind_eq_ok_iff.1 hk
  cases hk
  obtain ⟨u, hu⟩ := T.next_nothing (Act.beside_eq_ok_iff.1 hnothing).1
  refine ⟨(v.1, u), Act.beside_eq_ok_iff.2 ⟨?_, rfl⟩⟩
  exact Act.bind_eq_ok_iff.2 ⟨none, u, hu, rfl⟩

end Terrain

end GraphRoutes
