/-
**The same search, for elements and for paths.**

A search keeps no more of the ancestors than it needs.  If it gives paths it keeps them in order; if
it gives elements, and no test looks at the path itself, a set of them will do, or nothing at all.
The two searches do the same nevertheless, up to the form of what they give.

A bound on the number of ancestors is tested on the size of the set, and the set could be smaller
than the sequence.  It never is where that counts: an element that is equal to one of its ancestors
is refused, so a set that has not grown belongs to a level where nothing is visited.

Main definitions:

* `GraphRoutes.Search.Counterpart` — a trail keeps enough of another one for all tests of a search;
* `GraphRoutes.Graph.Form.lastOf` — a consumer of elements, as one of paths.

Main results:

* `GraphRoutes.Terrain.lockstep` — the two searches go in lockstep;
* `GraphRoutes.Terrain.search_lastOf_paths` — **a search for elements gives the last items of what the
  search for paths gives**, and asks for the same children in the same order.
-/
import GraphRoutes.Proofs.Descent.Lockstep
import GraphRoutes.Proofs.Search.Terrain

set_option relaxedAutoImplicit false
set_option autoImplicit false

namespace GraphRoutes

open Course Search

variable {ω ε α κ β key : Type}

/-! ### What is kept of the ancestors -/

/-- The first trail, that of a search for elements, keeps enough of the second one, that of the search
for paths, for the tests of both. -/
inductive Search.Counterpart (criteria : Criteria ω ε α) (scope : Scope) : Trail α → Trail α → Prop
  /-- All of it. -/
  | whole (t : Trail α) : Search.Counterpart criteria scope t t
  /-- The ancestors, but not that they are in order. -/
  | members (hcut : criteria.cutCycles = true) (hlooks : criteria.looks = false)
      (hscope : scope ≠ .cycles) (newestFirst : List α) (mark : Mark) :
      Search.Counterpart criteria scope { kind := .set, newestFirst, mark }
        { kind := .indexed, newestFirst, mark }
  /-- Nothing. -/
  | nothing (hany : criteria.any = false) (hscope : scope ≠ .cycles) {t u : Trail α}
      (ht : t.kind = .untracked) (hu : u.kind = .sequence) :
      Search.Counterpart criteria scope t u

namespace Search.Counterpart

variable {criteria : Criteria ω ε α} {scope : Scope} {t u : Trail α}

/-- A search for returns looks at the first ancestor, and keeps all of them in order. -/
theorem eq_of_cycles (h : Counterpart criteria .cycles t u) : t = u := by
  cases h with
  | whole t => rfl
  | members _ _ hscope => exact absurd rfl hscope
  | nothing _ hscope => exact absurd rfl hscope

/-- The trails with which two searches begin. -/
theorem start (criteria : Criteria ω ε α) (scope : Scope) (mark : Mark) :
    Counterpart criteria scope
      { kind := (Terrain.plan Graph.Form.elements criteria scope).trailKind, mark }
      { kind := (Terrain.plan Graph.Form.paths criteria scope).trailKind, mark } := by
  simp only [Terrain.plan, Graph.Form.elements, Graph.Form.paths, Plan.trailKind, Bool.true_or,
    Bool.false_or]
  by_cases hordered : (scope == .cycles || criteria.looks) = true
  · rw [hordered]
    exact whole _
  · rw [Bool.not_eq_true] at hordered
    obtain ⟨hcycles, hlooks⟩ := Bool.or_eq_false_iff.1 hordered
    have hscope : scope ≠ .cycles := by
      rintro rfl
      cases hcycles
    rw [hordered]
    cases hcut : criteria.cutCycles with
    | true => exact members hcut hlooks hscope [] mark
    | false =>
        by_cases hany : criteria.any = true
        · simp only [hany, if_true]
          exact whole _
        · rw [Bool.not_eq_true] at hany
          simp only [hany, Bool.false_eq_true, if_false]
          exact nothing hany hscope rfl rfl

/-- Gates that do not look at the path see no more than its length. -/
theorem passesAny_eq {g : Option (Gate ω ε α)} (hlooks : g.any Gate.looks = false)
    (hlength : t.length = u.length) (a : α) : Gate.passesAny g t a = Gate.passesAny g u a := by
  cases g with
  | none => rfl
  | some g =>
      cases g with
      | within n => simp only [Gate.passesAny, Gate.passes, hlength]
      | asks test => cases hlooks

variable {T : Terrain ω ε α κ key} {guide : Guide ω ε α} {form : Graph.Form α β}

/-- The instructions of both searches are the same. -/
theorem control_eq (h : Counterpart criteria scope t u) (a : α) :
    control (T.host guide form) (Terrain.plan form criteria scope) u a =
      control (T.host guide Graph.Form.elements) (Terrain.plan Graph.Form.elements criteria scope) t
        a := by
  cases scope with
  | everything => rfl
  | leaves => rfl
  | cycles =>
      rw [h.eq_of_cycles]
      rfl

variable [DecidableEq key]

/-- The tests of both searches come to the same. -/
theorem passes_eq (h : Counterpart criteria scope t u) (a : α) :
    passes (T.host guide form) (Terrain.plan form criteria scope) u a =
      passes (T.host guide Graph.Form.elements) (Terrain.plan Graph.Form.elements criteria scope) t
        a := by
  cases h with
  | whole t => rfl
  | members hcut hlooks _ newestFirst mark =>
      simp only [Criteria.looks, Bool.or_eq_false_iff] at hlooks
      have hlength : ({ kind := .indexed, newestFirst, mark } : Trail α).length =
          ({ kind := .set, newestFirst, mark } : Trail α).length := rfl
      simp only [passes, Terrain.plan, hcut, passesAny_eq hlooks.1 hlength,
        passesAny_eq hlooks.2 hlength]
      rfl
  | nothing hany _ _ _ =>
      simp only [Criteria.any, Bool.or_eq_false_iff, Option.isSome_eq_false_iff,
        Option.isNone_iff_eq_none] at hany
      obtain ⟨⟨⟨hcut, hpred⟩, hpath⟩, helement⟩ := hany
      simp only [passes, Terrain.plan, hcut, hpred, hpath, helement]
      rfl

/-- The children of both searches are the same. -/
theorem expand_eq (h : Counterpart criteria scope t u) (a : α) :
    expand (T.host guide form) (Terrain.plan form criteria scope) u a =
      expand (T.host guide Graph.Form.elements) (Terrain.plan Graph.Form.elements criteria scope) t
        a := by
  unfold expand
  rw [h.passes_eq]
  rfl

theorem restart (h : Counterpart criteria scope t u) (mark : Mark) :
    Counterpart criteria scope (t.restart mark) (u.restart mark) := by
  cases h with
  | whole t => exact whole _
  | members hcut hlooks hscope _ _ => exact members hcut hlooks hscope [] mark
  | nothing hany hscope ht hu => exact nothing hany hscope ht hu

/-- One ancestor more, unless an equal one is kept already. -/
theorem extend (h : Counterpart criteria scope t u) {a : α} (mark : Mark)
    (ha : criteria.cutCycles = true → t.mem? T.keyOf a ≠ some true) :
    Counterpart criteria scope (t.extend T.keyOf a mark) (u.extend T.keyOf a mark) := by
  cases h with
  | whole t => exact whole _
  | members hcut hlooks hscope newestFirst m =>
      have hset : ({ kind := .set, newestFirst, mark := m } : Trail α).extend T.keyOf a mark =
          { kind := .set, newestFirst := a :: newestFirst, mark } := if_neg (ha hcut)
      rw [hset]
      exact members hcut hlooks hscope (a :: newestFirst) mark
  | nothing hany hscope ht hu =>
      exact nothing hany hscope ((Trail.kind_extend _ _ _ _).trans ht)
        ((Trail.kind_extend _ _ _ _).trans hu)

end Search.Counterpart

/-! ### The two searches -/

/-- A consumer of elements takes the last item of a path. -/
def Graph.Form.lastOf (form : Graph.Form α β) (consume : α → Act ω ε Unit) (b : β) : Act ω ε Unit :=
  match form.last b with
  | some a => consume a
  | none => pure ()

namespace Terrain

variable [DecidableEq key] (T : Terrain ω ε α κ key) (guide : Guide ω ε α)
  (criteria : Criteria ω ε α) (scope : Scope)

/-- Two trails of which one keeps enough of the other are extended alike. -/
theorem extend_alike {t u : Trail α} (h : Counterpart criteria scope t u) (a : α) :
    Alike (fun t' u' => (criteria.cutCycles = true → t.mem? T.keyOf a ≠ some true) →
        Counterpart criteria scope t' u')
      (act (Act.beside (Search.extend (T.host guide Graph.Form.elements) t a) :
        Act (Slot α κ × ω) ε (Trail α)))
      (act (Act.beside (Search.extend (T.host guide Graph.Form.paths) u a))) := by
  have extended : ∀ mark, Alike (fun t' u' =>
        (criteria.cutCycles = true → t.mem? T.keyOf a ≠ some true) →
          Counterpart criteria scope t' u')
      (pure (t.extend T.keyOf a mark) : Course (Slot α κ × ω) ε (Trail α))
      (pure (u.extend T.keyOf a mark)) := fun mark => Alike.pure (h.extend mark)
  simp only [Search.extend, host, Act.beside_bind, act_bind]
  refine Alike.bind_same _ fun mark => ?_
  cases h with
  | whole t =>
      -- the same action, of which the trail is the same
      cases t.kind with
      | untracked => exact extended mark
      | sequence => exact extended mark
      | set =>
          simp only [Act.beside_bind, act_bind]
          exact Alike.bind_same _ fun _ => extended mark
      | indexed =>
          simp only [Act.beside_bind, act_bind]
          exact Alike.bind_same _ fun _ => extended mark
  | members hcut hlooks hscope newestFirst m =>
      simp only [Act.beside_bind, act_bind]
      exact Alike.bind_same _ fun _ => extended mark
  | nothing hany hscope ht hu =>
      rw [ht, hu]
      exact extended mark

/-- **The two searches go in lockstep**, if their guide cannot tell their trails apart. -/
theorem lockstep (consume : α → Act ω ε Unit)
    (hask : ∀ t u, Counterpart criteria scope t u → guide.ask t = guide.ask u) :
    Walk.Lockstep (env (T.host guide Graph.Form.elements) (plan Graph.Form.elements criteria scope))
      (env (T.host guide Graph.Form.paths) (plan Graph.Form.paths criteria scope))
      (fun a => (Act.beside (consume a) : Act (Slot α κ × ω) ε Unit))
      (fun q => Act.beside (Graph.Form.paths.lastOf consume q)) (Counterpart criteria scope)
      (fun a q => Graph.Form.paths.last q = some a)
      (fun t a => criteria.cutCycles = true → t.mem? T.keyOf a ≠ some true) where
  next := rfl
  truth := rfl
  consume h := by simp only [Graph.Form.lastOf, h]
  report h := by cases h <;> rfl
  control h a := h.control_eq a
  result _ a := Alike.pure (Graph.Form.paths.last_result _ a)
  policy h a depth n := by
    simp only [env, host, Act.beside_bind, act_bind, hask _ _ h]
    refine Alike.bind_same _ fun r => ?_
    cases r with
    | descend => exact Alike.pure Resolution.Rel.descend
    | advance => exact Alike.pure Resolution.Rel.advance
    | cut => exact Alike.pure Resolution.Rel.cut
    | substitute b => cases b
  children h a := h.expand_eq a
  restart h := by
    simp only [env, Search.restart, host, Act.beside_bind, act_bind]
    exact Alike.bind_same _ fun mark => Alike.pure (h.restart mark)
  extend h a := extend_alike T guide criteria scope h a
  barren _ a w k v hbelow hk := by
    obtain ⟨hcut, hmem⟩ := Classical.not_imp.1 hbelow
    exact expand_failed (passes_repeated hcut (not_not.1 hmem)) hk

/-- Both searches do the same, if their guide cannot tell their trails apart. -/
theorem search_elements_eq (limits : Limits) (consume : α → Act ω ε Unit) (mark : Mark) (k : κ)
    (hask : ∀ t u, Counterpart criteria scope t u → guide.ask t = guide.ask u) :
    T.search guide Graph.Form.paths criteria scope limits (Graph.Form.paths.lastOf consume) mark k =
      T.search guide Graph.Form.elements criteria scope limits consume mark k := by
  have walks := (T.lockstep guide criteria scope consume hask).drive_start limits
    (Counterpart.start criteria scope mark) ({ rest := k } : Ahead α κ)
  simp only [search, Search.step, Search.start, Machine.drive_beside, walks]

/-- **A search for elements gives the last items of what the search for paths gives**, with the same
tests, in the same order, to every consumer, if nobody looks at the path when the search is
fruitless.  Both ask for the children of the same elements in the same order: whoever hears of that,
and may stop the search at any of them, cannot tell them apart. -/
theorem search_lastOf_paths (hears : α → Act ω ε Unit) (ask : α → ℕ → ℕ → Act ω ε (Resolution Empty))
    (hear : Note α Empty → Act ω ε Unit) (limits : Limits) (consume : α → Act ω ε Unit) (mark : Mark)
    (k : κ) :
    (T.heard hears).search { ask := fun _ => ask, hear } Graph.Form.paths criteria scope limits
        (Graph.Form.paths.lastOf consume) mark k =
      (T.heard hears).search { ask := fun _ => ask, hear } Graph.Form.elements criteria scope limits
        consume mark k :=
  search_elements_eq _ _ criteria scope limits consume mark k fun _ _ _ => rfl

end Terrain

end GraphRoutes
