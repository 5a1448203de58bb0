/-
**What a search for returns gives is a return.**

A search for returns gives a tuple where it meets an element that is equal to the first one of its
ancestors.  The ancestors form a branch, so the tuple is a simple circuit: it goes from an element of
the route along children, comes back to where it began, and meets no two equal elements before that.
An element of the route has no ancestors, so it is never given by itself.

The search for elements does the same and gives the last items: both keep the ancestors in order, as
both look at the first of them.

Main definitions:

* `GraphRoutes.Terrain.Circuit` — a tuple that comes back to where it began.

Main results:

* `GraphRoutes.Terrain.circuit_of_gives` — what is given is a circuit;
* `GraphRoutes.Terrain.search_returns` — **a search for returns gives circuits, or the last items of
  these.**
-/
import GraphRoutes.Proofs.Search.Branch
import GraphRoutes.Proofs.Search.Forms

set_option relaxedAutoImplicit false
set_option autoImplicit false

namespace GraphRoutes

open Search

variable {ω ε α κ β key : Type}

namespace Terrain

/-- **A circuit**: the elements `p` and, behind them, one that is equal to the first of them.  The
first is met on the route, each other one among the children of the one before, and no two of `p` are
equal.  Each of `p` has passed the tests below those before it. -/
structure Circuit (T : Terrain ω ε α κ key) (criteria : Criteria ω ε α) (route : κ) (p : List α)
    (b : α) : Prop where
  origin : ∃ o, p.head? = some o ∧ Source.Item T.next route o ∧ ∃ w v, T.same b o w = .ok true v
  chain : (p ++ [b]).IsChain T.IsChild
  keyed : ∀ x ∈ p, (T.keyOf x).isSome
  nodup : (p.map T.keyOf).Nodup
  passed : ∀ i (hi : i < p.length), ∃ t : Trail α, t.kind = .indexed ∧ t.items = p.take i ∧
    criteria.Passed t p[i]
  length_le : ∀ n, criteria.pred = some (.within n) ∨ criteria.pathPred = some (.within n) →
    (p.length : ℤ) ≤ n

variable [DecidableEq key] {T : Terrain ω ε α κ key} {criteria : Criteria ω ε α}

/-- An element that is equal to the first item of a branch closes it. -/
theorem Branch.circuit {route : κ} {p : List α} {b o : α}
    (h : T.Branch criteria .indexed route p) (hmet : T.Met route p b) (ho : p.head? = some o)
    {w v : ω} (hsame : T.same b o w = .ok true v) : T.Circuit criteria route p b where
  origin := ⟨o, ho, h.item_of_head ho, w, v, hsame⟩
  chain := isChain_append_of_met h.isChain hmet
  keyed _ hx := h.keyed hx
  nodup := h.nodup
  passed _ hi := h.passed hi
  length_le _ hbound := h.length_le (by rintro rfl; cases ho) hbound

/-- **What a search for returns gives is a circuit.** -/
theorem circuit_of_gives {guide : Guide ω ε α} {limits : Limits} {consume : List α → Act ω ε Unit}
    {mark : Mark} {route : κ} {w₀ : ω} {q : List α} (hcut : criteria.cutCycles = true)
    (h : Machine.Gives
      (Search.step (T.host guide Graph.Form.paths) (plan Graph.Form.paths criteria .cycles) limits)
      consume (Search.start (plan Graph.Form.paths criteria .cycles) mark route) w₀ q) :
    ∃ p b, q = p ++ [b] ∧ T.Circuit criteria route p b := by
  obtain ⟨x, w, y, v, hreached, hstep⟩ := h
  have hkind : (plan Graph.Form.paths criteria .cycles).trailKind = .indexed := by
    simp only [Plan.trailKind, plan, Graph.Form.paths, hcut, Bool.true_or]
  have hsound := sound_of_reached hcut (by decide) hreached
  rw [hkind] at hsound
  obtain ⟨r, t, hmove, hr⟩ := Machine.step_of_beside hstep
  cases r <;> cases hr
  obtain ⟨⟨t, b, w₁, w₂, i, rfl, hbranch, hmet, hemit, hcontrol⟩, -⟩ :=
    Sound.give (w := (x.2, w)) (by decide) hsound (Walk.move_of_step hmove)
  obtain ⟨-, rfl | ⟨-, o, ho, hsame⟩⟩ := instruction_of_cycles hcontrol
  · cases hemit
  · rw [Trail.origin?_eq_head?] at ho
    exact ⟨t.items, b, rfl, hbranch.circuit hmet ho hsame⟩

variable (T)

/-- **A search for returns gives circuits**, whatever the route, the tests and the policy do to the
world, as long as the policy puts nothing in the place of results.  The search for elements gives the
last items of the circuits, in the same order. -/
theorem search_returns (guide : Guide ω ε α) (pred pathPred : Option (Gate ω ε α))
    (elementPred : Option (α → Act ω ε Bool)) (limits : Limits) (mark : Mark) (route : κ) :
    let criteria : Criteria ω ε α := { pred, pathPred, elementPred }
    (∀ consume w₀ q, Machine.Gives
        (Search.step (T.host guide Graph.Form.paths) (plan Graph.Form.paths criteria .cycles) limits)
        consume (Search.start (plan Graph.Form.paths criteria .cycles) mark route) w₀ q →
      ∃ p b, q = p ++ [b] ∧ T.Circuit criteria route p b) ∧
    ∀ consume,
      T.search guide Graph.Form.paths criteria .cycles limits (Graph.Form.paths.lastOf consume) mark
          route =
        T.search guide Graph.Form.elements criteria .cycles limits consume mark route := by
  intro criteria
  constructor
  · intro consume w₀ q hq
    exact circuit_of_gives rfl hq
  · intro consume
    refine search_elements_eq T guide criteria .cycles limits consume mark route ?_
    intro t u h
    rw [h.eq_of_cycles]

/-- In the circle there are two ways to come back to the first element, but the search gives only
one: it cuts what stands beside a return. -/
theorem search_returns_circle :
    let T := ofGraph Graph.circle (Graph.scribe (β := List Graph.Corner))
    ∃ p b, [Graph.Corner.first, .second, .first] = p ++ [b] ∧
      T.Circuit {} (.inr [.first]) p b := by
  intro T
  refine (T.search_returns Guide.giveUp none none none {} none (.inr [.first])).1 Graph.write [] _ ?_
  exact Machine.gives_of_mem_given (n := 30) .start (by decide +kernel)

end Terrain

end GraphRoutes
