/-
**Where there is nothing to cut.**

A search that cuts cycles keeps its ancestors in a set or in an index, and asks for each element whether it is
among them.  A search that does not may keep them in a sequence, or not at all.  Where no element can be
reached from itself, the question has one answer only, so both visit the same elements below the same
ancestors, make the same tests, and ask for the same children.  And although nothing stops the second one, it
comes to an end: along a branch no two elements are equal, so there are no more levels than keys.

Main definitions:

* `GraphRoutes.Graph.Acyclic` — no element that is reached can be reached from itself;
* `GraphRoutes.Sieve.ReadsItems` — tests that look at nothing but the ancestors and the element;
* `GraphRoutes.Graph.deed` — what a search does at a visit.

Main results:

* `GraphRoutes.Graph.Acyclic.isFresh` — no element is among its own ancestors;
* `GraphRoutes.Graph.roam_eq_deeds` — a search does its deeds, however it keeps its ancestors;
* `GraphRoutes.Graph.search_acyclic` — **cutting cycles makes no difference where there are none.**
-/
import GraphRoutes.Proofs.Search.Bounds

set_option relaxedAutoImplicit false
set_option autoImplicit false

namespace GraphRoutes

variable {ω ε α κ β key : Type}

/-! ### Tests of the ancestors -/

/-- A test that looks at nothing of a trail but its items. -/
def Rule.ReadsItems : Rule α → Prop
  | .within _ => True
  | .asks test => ∀ t u a, t.items = u.items → test t a = test u a

/-- Tests that look at nothing but the ancestors and the element. -/
structure Sieve.ReadsItems (s : Sieve α) : Prop where
  pred : ∀ r ∈ s.pred, r.ReadsItems
  pathPred : ∀ r ∈ s.pathPred, r.ReadsItems

/-- Whether an element below the ancestors `p` passes the tests, cycles apart. -/
def Sieve.tests (s : Sieve α) (p : List α) (a : α) : Bool := s.allows (Trail.ofItems .sequence p) a

theorem Rule.ReadsItems.allows_eq {r : Rule α} (hr : r.ReadsItems) {t u : Trail α}
    (h : t.items = u.items) (a : α) : r.allows t a = r.allows u a := by
  cases r with
  | within n =>
      have hlength : t.length = u.length := by
        rw [← Trail.length_items, h, Trail.length_items]
      rw [Rule.allows, Rule.allows, hlength]
  | asks test => exact hr t u a h

theorem Rule.ReadsItems.all_eq {r : Option (Rule α)} (hr : ∀ x ∈ r, x.ReadsItems) {t u : Trail α}
    (h : t.items = u.items) (a : α) : r.all (·.allows t a) = r.all (·.allows u a) := by
  cases r with
  | none => rfl
  | some x => exact (hr x rfl).allows_eq h a

namespace Graph

open Course

/-- No element that is reached from the route is equal to one that is reached from it by one or more
steps. -/
def Acyclic (g : Graph α key) (r : List α) : Prop :=
  ∀ a, Reachable g r a → ∀ b, Reachable g (g.succ a) b → g.keyOf b ≠ g.keyOf a

section Branches

variable {g : Graph α key} {admits : List α → α → Bool} {r p : List α} {a x : α}

theorem Reachable.step {b : α} (ha : Reachable g r a) (hb : b ∈ g.succ a) : Reachable g r b := by
  obtain ⟨n, hn⟩ := ha
  exact ⟨n + 1, hn.step hb⟩

/-- What is visited is reached from each of its ancestors by one or more steps. -/
theorem Visited.reachable_from (h : Visited g admits r p a) (hx : x ∈ p) :
    Reachable g (g.succ x) a := by
  induction h with
  | start _ => cases hx
  | step _ _ hb ih =>
      rcases List.mem_append.1 hx with hx | hx
      · exact (ih hx).step hb
      · rw [List.mem_singleton.1 hx]
        exact ⟨0, .start hb⟩

variable [DecidableEq key]

/-- **No element is among its own ancestors.** -/
theorem Acyclic.isFresh (hacyclic : g.Acyclic r) (h : Visited g admits r p a) :
    g.isFresh p a = true := by
  rw [isFresh_iff]
  intro hmem
  obtain ⟨x, hx, hkey⟩ := List.mem_map.1 hmem
  exact hacyclic x (h.reachable_of_mem hx) a (h.reachable_from hx) hkey.symm

/-- A search that cuts cycles makes the same visits. -/
theorem Acyclic.visited (hacyclic : g.Acyclic r) (h : Visited g admits r p a) :
    Visited g (fun p a => g.isFresh p a && admits p a) r p a := by
  induction h with
  | start ha => exact .start ha
  | step h hadmits hb ih =>
      refine .step ih ?_ hb
      rw [hacyclic.isFresh h, hadmits]
      rfl

/-- **There are no more levels than keys.** -/
theorem Acyclic.shallow (hacyclic : g.Acyclic r) (h : IsFinite g r) :
    Shallow g admits r (keys g r).ncard := by
  have hshallow : Shallow g (fun p a => g.isFresh p a && admits p a) r (keys g r).ncard :=
    shallow_of_isFinite h fun p a hpa => (Bool.and_eq_true_iff.1 hpa).1
  intro p a hv hadmits
  refine hshallow p a (hacyclic.visited hv) ?_
  change (g.isFresh p a && admits p a) = true
  rw [hacyclic.isFresh hv, hadmits]
  rfl

end Branches

/-! ### What a search does -/

section Deeds

variable [DecidableEq key] {g : Graph α key} (c : Caller ω ε α κ β) (form : Form α β) {s : Sieve α}
  {limits : Limits} (consume : β → Act ω ε Unit) {kind : TrailKind} {p : List α} {a : α}

/-- What a search does at a visit: the element is given, and if it passes the tests its children are asked
for. -/
def deed (s : Sieve α) (v : List α × α) : Act ω ε Unit := do
  consume (form.result (Trail.ofItems .sequence v.1) v.2)
  if s.tests v.1 v.2 then c.note v.2 else pure ()

/-- Tests that read the ancestors do not see how these are kept, if they are kept where a test looks. -/
theorem allows_keep (hreads : s.ReadsItems)
    (hkind : (s.plan (ω := ω) (ε := ε) .everything form.givesPaths).trailKind = kind) (p : List α)
    (a : α) : s.allows (Trail.keep kind p) a = s.tests p a := by
  by_cases hne : kind = .untracked
  · -- nothing is kept only where no test looks at it
    have hlooks : ¬(s.pred.isSome || s.pathPred.isSome) = true := fun h =>
      trailKind_plan_ne form s .everything (.inr (.inr h)) (hkind.trans hne)
    obtain ⟨cutCycles, pred, pathPred, elementPred⟩ := s
    cases pred with
    | some _ => exact absurd rfl hlooks
    | none =>
        cases pathPred with
        | some _ => exact absurd rfl hlooks
        | none => rfl
  · have hitems : (Trail.keep kind p).items = (Trail.ofItems .sequence p).items := by
      rw [Trail.items_keep hne, Trail.items_ofItems]
    rw [Sieve.tests, Sieve.allows, Sieve.allows, Rule.ReadsItems.all_eq hreads.pred hitems,
      Rule.ReadsItems.all_eq hreads.pathPred hitems]

/-- A visit to an element that is not among its ancestors: its children are visited if it passes the
tests, and its siblings come after that. -/
theorem roam_deed (hform : form.Plain) (hreads : s.ReadsItems)
    (hkind : (s.plan (ω := ω) (ε := ε) .everything form.givesPaths).trailKind = kind)
    (hdepth : limits.maxDepth = none) (ha : (g.keyOf a).isSome) (hfresh : g.isFresh p a = true)
    (as : List α) (depth : ℕ) :
    let roam := Walk.roam (walk g c form.result (s.plan .everything form.givesPaths)) limits consume
    roam { path := Trail.keep kind p, depth, candidates := .inr (a :: as) } = (do
      act (deed c form consume s (p, a))
      roam { path := Trail.keep kind (p ++ [a]), depth := depth + 1,
             candidates := .inr (if s.tests p a then g.succ a else []) }
      roam { path := Trail.keep kind p, depth, candidates := .inr as }) := by
  intro roam
  let W := walk g c form.result (s.plan .everything form.givesPaths)
  have hnil : ∀ path depth, roam { path, depth, candidates := .inr [] } = pure () :=
    roam_nil c form.result limits consume _
  have hpassed : ((!s.cutCycles || g.isFresh p a) && s.allows (Trail.keep kind p) a) = s.tests p a := by
    rw [hfresh, Bool.or_true, Bool.true_and, allows_keep form hreads hkind]
  have hbelow : Walk.roamBelow W limits roam
      { path := Trail.keep kind p, depth, candidates := .inr (a :: as) } a
        Preset.emitAndContinue.instruction =
      act (if s.tests p a then c.note a else pure ()) >>= fun _ =>
        roam { path := Trail.keep kind (p ++ [a]), depth := depth + 1,
               candidates := .inr (if s.tests p a then g.succ a else []) } := by
    rw [roamBelow_keep g c form s .everything limits hkind ha hnil rfl rfl, hdepth, Option.any_none,
      Bool.not_false, Bool.true_and, hpassed]
    cases s.tests p a with
    | true => rfl
    | false =>
        simp only [Bool.false_eq_true, if_false, act_pure, pure_bind]
        exact (hnil _ _).symm
  have hoffer : Walk.offer W consume (Trail.keep kind p) a Preset.emitAndContinue.instruction =
      act (consume (form.result (Trail.ofItems .sequence p) a)) := by
    rw [← result_keep form s .everything hkind hform p a]
    rfl
  -- one unfolding, each part of which is known by now
  have hstep : roam { path := Trail.keep kind p, depth, candidates := .inr (a :: as) } = (do
      Walk.offer W consume (Trail.keep kind p) a Preset.emitAndContinue.instruction
      Walk.roamBelow W limits roam
        { path := Trail.keep kind p, depth, candidates := .inr (a :: as) } a
          Preset.emitAndContinue.instruction
      roam { path := Trail.keep kind p, depth, candidates := .inr as }) := by
    change Walk.roam W limits consume _ = _
    rw [Walk.roam_eq]
    rfl
  rw [hstep, hoffer, hbelow, deed, act_bind]
  simp only [bind_assoc]

/-- The deeds at one level, when those at the levels below it are known. -/
theorem roam_level_deeds (hform : form.Plain) (hreads : s.ReadsItems)
    (hkind : (s.plan (ω := ω) (ε := ε) .everything form.givesPaths).trailKind = kind)
    (hdepth : limits.maxDepth = none) {as : List α}
    (has : ∀ a ∈ as, (g.keyOf a).isSome ∧ g.isFresh p a = true) (rest : α → List (List α × α))
    (hbelow : ∀ a ∈ as, ∀ depth,
      Walk.roam (walk g c form.result (s.plan .everything form.givesPaths)) limits consume
          { path := Trail.keep kind (p ++ [a]), depth,
            candidates := .inr (if s.tests p a then g.succ a else []) } =
        act ((rest a).forM (deed c form consume s))) (depth : ℕ) :
    Walk.roam (walk g c form.result (s.plan .everything form.givesPaths)) limits consume
        { path := Trail.keep kind p, depth, candidates := .inr as } =
      act ((as.flatMap fun a => (p, a) :: rest a).forM (deed c form consume s)) := by
  induction as with
  | nil => exact roam_nil c form.result limits consume _ _ _
  | cons a as ih =>
      obtain ⟨ha, hfresh⟩ := has a List.mem_cons_self
      rw [roam_deed c form consume hform hreads hkind hdepth ha hfresh, hbelow a List.mem_cons_self,
        ih (fun b hb => has b (List.mem_cons_of_mem _ hb))
          (fun b hb => hbelow b (List.mem_cons_of_mem _ hb))]
      simp only [List.flatMap_cons, List.forM_eq_forM, List.forM_append, List.forM_cons, act_bind,
        bind_assoc]

/-- **The search does its deeds**, in order, and ends, however it keeps the ancestors. -/
theorem roam_eq_deeds {r : List α} {D : ℕ} (hform : form.Plain) (hreads : s.ReadsItems)
    (hkind : (s.plan (ω := ω) (ε := ε) .everything form.givesPaths).trailKind = kind)
    (hdepth : limits.maxDepth = none) (hkeys : ∀ a, Reachable g r a → (g.keyOf a).isSome)
    (hacyclic : g.Acyclic r) (hD : Shallow g s.tests r D) (d depth : ℕ) (p as : List α)
    (hd : D ≤ p.length + d) (has : ∀ a ∈ as, Visited g s.tests r p a) :
    Walk.roam (walk g c form.result (s.plan .everything form.givesPaths)) limits consume
        { path := Trail.keep kind p, depth, candidates := .inr as } =
      act ((as.flatMap (visits g s.tests d p)).forM (deed c form consume s)) := by
  have hnew : ∀ {p as : List α}, (∀ a ∈ as, Visited g s.tests r p a) →
      ∀ a ∈ as, (g.keyOf a).isSome ∧ g.isFresh p a = true := fun has a ha =>
    ⟨hkeys a (has a ha).reachable, hacyclic.isFresh (has a ha)⟩
  -- on the depth that is left: where none is left, no test is passed, and so nothing is visited below
  induction d generalizing p as depth with
  | zero =>
      refine roam_level_deeds c form consume hform hreads hkind hdepth (hnew has) (fun _ => []) ?_
        depth
      intro a ha depth
      have hstop : ¬ s.tests p a = true := fun h => absurd (hD p a (has a ha) h) (Nat.not_lt.2 hd)
      rw [if_neg hstop]
      exact roam_nil c form.result limits consume _ _ _
  | succ d ih =>
      refine roam_level_deeds c form consume hform hreads hkind hdepth (hnew has) _ ?_ depth
      intro a ha depth
      by_cases htests : s.tests p a = true
      · rw [if_pos htests, if_pos htests]
        refine ih depth (p ++ [a]) (g.succ a) ?_ fun b hb => (has a ha).step htests hb
        simp only [List.length_append, List.length_singleton]
        omega
      · rw [if_neg htests, if_neg htests]
        exact roam_nil c form.result limits consume _ _ _

/-- **Cutting cycles makes no difference where there are none.**  On a finite graph in which nothing can be
reached from itself, a search that cuts cycles and one that does not do the same: they give the same, in
the same order, and ask for the same children in between.  Both come to an end, and what they do is known
in advance: it is done at each visit, in pre-order, and the visits are all that there are. -/
theorem search_acyclic {r : List α} (hform : form.Plain) (hreads : s.ReadsItems) (h : IsFinite g r)
    (hacyclic : g.Acyclic r) :
    let vs := r.flatMap (visits g s.tests (keys g r).ncard [])
    (∀ cutCycles, search g c form { s with cutCycles } .everything {} consume (.inr r) =
      act (vs.forM (deed c form consume s))) ∧
    ∀ p a, (p, a) ∈ vs ↔ Visited g s.tests r p a := by
  intro vs
  have hD : Shallow g s.tests r (keys g r).ncard := hacyclic.shallow h
  refine ⟨fun cutCycles => ?_, fun p a => mem_visits_iff hD⟩
  have hreads' : ({ s with cutCycles } : Sieve α).ReadsItems := ⟨hreads.pred, hreads.pathPred⟩
  rw [search_everything g c { s with cutCycles } form (by decide), ← keep_nil]
  exact roam_eq_deeds c form consume hform hreads' rfl rfl h.keyed hacyclic hD _ 0 [] r
    (Nat.le_add_left _ _) fun a ha => .start ha

/-- Three corners, of which the first leads to both others, to the last of them twice. -/
def slope : Graph Corner Corner :=
  ofCorners some (· == ·) fun
    | .first => [.second, .third, .third]
    | .second => [.third]
    | .third => []

/-- On the slope, from its first two corners, where nothing is looked for below the second if the first is
its ancestor: the second is visited below the first and at the top, and its child once. -/
theorem search_acyclic_slope :
    let s : Sieve Corner := { pred := some (.asks fun t a => t.items ≠ [.first] || a ≠ .second) }
    let r : List Corner := [.first, .second]
    (Form.paths : Form Corner (List Corner)).Plain ∧ s.ReadsItems ∧ IsFinite slope r ∧
      slope.Acyclic r ∧ ∀ cutCycles,
        search slope scribe Form.paths { s with cutCycles } .everything {} write (.inr r) [] =
          some (.ok () [.inr [.first], .inl .first, .inr [.first, .second], .inr [.first, .third],
            .inl .third, .inr [.first, .third], .inl .third, .inr [.second], .inl .second,
            .inr [.second, .third], .inl .third]) := by
  intro s r
  have reads : s.ReadsItems := by
    refine ⟨fun rule hrule => ?_, nofun⟩
    obtain rfl := Option.some.inj hrule
    intro t u a h
    simp only [h]
  have finite : IsFinite slope r := ⟨fun _ _ => rfl, Set.toFinite _⟩
  have acyclic : slope.Acyclic r := by
    -- every step leads to a later corner
    have step_lt : ∀ a b : Corner, b ∈ slope.succ a → a.ctorIdx < b.ctorIdx := by decide
    have later : ∀ {a : Corner} {n : ℕ} {b : Corner}, Steps slope (slope.succ a) n b →
        a.ctorIdx < b.ctorIdx := by
      intro a n b h
      induction h with
      | start hb => exact step_lt _ _ hb
      | step _ hb ih => exact ih.trans (step_lt _ _ hb)
    intro a _ b ⟨n, hn⟩ hkey
    obtain rfl : b = a := Option.some.inj hkey
    exact absurd (later hn) (Nat.lt_irrefl _)
  have card : (keys slope r).ncard = 3 := by
    have all : keys slope r = Set.univ := by
      refine Set.eq_univ_of_forall fun a => ⟨a, ?_, rfl⟩
      cases a with
      | first => exact ⟨0, .start (by decide)⟩
      | second => exact ⟨0, .start (by decide)⟩
      | third => exact ⟨1, .step (a := .first) (.start (by decide)) (by decide)⟩
    rw [all, Set.ncard_univ, Nat.card_eq_fintype_card]
    rfl
  refine ⟨Form.plain_paths, reads, finite, acyclic, fun cutCycles => ?_⟩
  refine (congrFun ((search_acyclic scribe Form.paths write Form.plain_paths reads finite
    acyclic).1 cutCycles) []).trans ?_
  rw [card]
  decide +kernel

end Deeds

end Graph

end GraphRoutes
