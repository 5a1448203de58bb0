/-
**The leaves of a search are among what it visits.**

A search for leaves finds out whether an element has children by beginning to read them, and hands
them on to its expansion.  It gives what the search for everything gives, as far as that has no
children, in the same order; and it asks for the children of each visited element once.  So what is
read ahead is neither lost nor read again.

The two searches differ at one point.  The search for everything goes below an element without
children, where it finds nothing; but it has to add the element to its trail before it can find that,
and so needs its key.  The search for leaves never goes below such an element.

Main definitions:

* `GraphRoutes.Graph.ofLeaves` — a consumer who takes only leaves, and hears of every element;
* `GraphRoutes.Graph.NeverAsks` — the policy is not asked in a run.

Main results:

* `GraphRoutes.Graph.roam_leaves` — both recursions do the same;
* `GraphRoutes.Graph.search_leaves` — **the leaves of a search, in order, with one request for the
  children of each visited element.**
-/
import GraphRoutes.Proofs.Search.Sieve

set_option relaxedAutoImplicit false
set_option autoImplicit false

namespace GraphRoutes.Graph

open Course

variable {ω ε α κ β key : Type}

section

variable (g : Graph α key) (c : Caller ω ε α κ β) (form : Form α β) (consume : β → Act ω ε Unit)

/-- A consumer who takes only what has no children.  That the children of an element are asked for is
heard once, when it is given. -/
def ofLeaves (b : β) : Act ω ε Unit :=
  match form.last b with
  | none => consume b
  | some a => do
    c.note a
    if (g.succ a).isEmpty then consume b else pure ()

theorem ofLeaves_result (t : Trail α) (a : α) :
    ofLeaves g c form consume (form.result t a) = (do
      c.note a
      if (g.succ a).isEmpty then consume (form.result t a) else pure ()) := by
  simp only [ofLeaves, form.last_result]

variable [DecidableEq key] (s : Sieve α) (limits : Limits)

/-- In a search for everything there is nothing below an element without children. -/
theorem roamBelow_of_leaf {a : α} (ha : g.succ a = []) (hkey : (g.keyOf a).isSome)
    {roam : Walk.Level (Trail α) (κ ⊕ List α) → Course ω ε Unit}
    (hroam : ∀ path depth, roam { path, depth, candidates := .inr [] } = pure ())
    (l : Walk.Level (Trail α) (κ ⊕ List α)) :
    Walk.roamBelow (walk g c.silent form.result (s.plan .everything form.givesPaths)) limits roam l a
      Preset.emitAndContinue.instruction = pure () := by
  have hpasses : ∃ b, Search.passes (host g c.silent form.result)
      (s.plan .everything form.givesPaths) l.path a = pure b := by
    rw [passes_plan]
    cases s.cutCycles with
    | false => exact ⟨_, Search.both_pure _ _⟩
    | true =>
        obtain ⟨k, hk⟩ := Option.isSome_iff_exists.1 hkey
        rw [if_pos rfl, isNew_keyed g c.silent form.result l.path hk]
        exact ⟨_, Search.both_pure _ _⟩
  obtain ⟨b, hb⟩ := hpasses
  have hchildren : (walk g c.silent form.result (s.plan .everything form.givesPaths)).children
      l.path a = pure (.inr []) := by
    change expand g c.silent form.result (s.plan .everything form.givesPaths) l.path a = _
    rw [expand, hb, ha]
    cases b <;> rfl
  unfold Walk.roamBelow
  split
  · rfl
  · have hpath : (walk g c.silent form.result (s.plan .everything form.givesPaths)).extend
        l.path a = pure (l.path.extend g.keyOf a none) :=
      extend_keyed g c.silent form.result l.path hkey
    simp only [Walk.childPath, walk_truth, act_pure, pure_bind, Preset.instruction,
      Bool.false_eq_true, if_false, hpath, hchildren]
    exact hroam _ _

/-- Below an element with children both searches do the same. -/
theorem roamBelow_of_inner {a : α} (roam : Walk.Level (Trail α) (κ ⊕ List α) → Course ω ε Unit)
    (l : Walk.Level (Trail α) (κ ⊕ List α)) :
    Walk.roamBelow (walk g c form.result (s.plan .leaves form.givesPaths)) limits roam l a
        Preset.proceed.instruction =
      Walk.roamBelow (walk g c.silent form.result (s.plan .everything form.givesPaths)) limits roam l
        a Preset.emitAndContinue.instruction := by
  rfl

/-- The two recursions do the same at a level, if nothing is done at one without candidates. -/
theorem roamStep_leaves (hleaf : ∀ a, g.succ a = [] → (g.keyOf a).isSome)
    {roam : Walk.Level (Trail α) (κ ⊕ List α) → Course ω ε Unit}
    (hroam : ∀ path depth, roam { path, depth, candidates := .inr [] } = pure ())
    (l : Walk.Level (Trail α) (κ ⊕ List α)) :
    Walk.roamStep (walk g c form.result (s.plan .leaves form.givesPaths)) limits consume roam l =
      Walk.roamStep (walk g c.silent form.result (s.plan .everything form.givesPaths)) limits
        (ofLeaves g c form consume) roam l := by
  refine bind_congr fun next => ?_
  rcases next with _ | ⟨a, rest⟩
  · rfl
  · have hcontrol : (walk g c form.result (s.plan .leaves form.givesPaths)).control l.path a = (do
        c.note a
        pure (if (g.succ a).isEmpty then Preset.emit else Preset.proceed).instruction) := rfl
    have hcontrol' : (walk g c.silent form.result (s.plan .everything form.givesPaths)).control
        l.path a = pure Preset.emitAndContinue.instruction := rfl
    have hoffer : Walk.offer (walk g c.silent form.result (s.plan .everything form.givesPaths))
        (ofLeaves g c form consume) l.path a Preset.emitAndContinue.instruction = (do
          act (c.note a)
          if (g.succ a).isEmpty then act (consume (form.result l.path a)) else pure ()) := by
      simp only [Walk.offer, Preset.instruction, if_true, walk_result, act_pure, pure_bind,
        ofLeaves_result, act_bind]
      split <;> rfl
    simp only [hcontrol, hcontrol', hoffer, act_bind, act_pure, bind_assoc, pure_bind]
    refine bind_congr fun _ => ?_
    by_cases hempty : (g.succ a).isEmpty = true
    · have ha : g.succ a = [] := List.isEmpty_iff.1 hempty
      simp only [hempty, if_true]
      rw [roamBelow_of_leaf g c form s limits ha (hleaf a ha) hroam]
      rfl
    · simp only [hempty, Bool.false_eq_true, if_false, roamBelow_of_inner, pure_bind]
      rfl

/-- **Both recursions do the same.** -/
theorem roam_leaves (hleaf : ∀ a, g.succ a = [] → (g.keyOf a).isSome)
    (l : Walk.Level (Trail α) (κ ⊕ List α)) :
    Walk.roam (walk g c form.result (s.plan .leaves form.givesPaths)) limits consume l =
      Walk.roam (walk g c.silent form.result (s.plan .everything form.givesPaths)) limits
        (ofLeaves g c form consume) l := by
  have hnil : ∀ (c : Caller ω ε α κ β) (plan : Search.Plan ω ε α) (consume : β → Act ω ε Unit)
      (path : Trail α) (depth : ℕ),
      Walk.roam (walk g c form.result plan) limits consume
        { path, depth, candidates := .inr [] } = pure () := by
    intro c plan consume path depth
    rw [Walk.roam_eq]
    rfl
  apply le_antisymm
  · refine Walk.roam_le _ _ _ (fun l => ?_) l
    rw [roamStep_leaves g c form consume s limits hleaf (hnil _ _ _) l, ← Walk.roam_eq]
  · refine Walk.roam_le _ _ _ (fun l => ?_) l
    rw [← roamStep_leaves g c form consume s limits hleaf (hnil _ _ _) l, ← Walk.roam_eq]

end

/-! ### Searches whose policy is never asked -/

section

variable [DecidableEq key] (g : Graph α key) (c : Caller ω ε α κ β) (form : Form α β) (s : Sieve α)
  (scope : Search.Scope) (limits : Limits) (consume : β → Act ω ε Unit)

/-- A caller with a policy that always sends the search on, and who does not hear of it. -/
def Caller.tireless (c : Caller ω ε α κ β) : Caller ω ε α κ β :=
  { c with policy := fun _ _ _ _ => pure .descend, report := fun _ => pure () }

/-- In the run of a search from a route, in a world, the policy is never asked. -/
def NeverAsks (k : κ ⊕ List α) (w : ω) : Prop :=
  ∀ t v, Machine.Reached (Search.step (host g c form.result) (s.plan scope form.givesPaths) limits)
    consume (Search.start (s.plan (ω := ω) (ε := ε) scope form.givesPaths) none k) w t v →
    Walk.asks limits t.1 = false

/-- A run that ends within `n` steps can be followed. -/
theorem neverAsks_of_passesThrough {k : κ ⊕ List α} {w : ω} (n : ℕ)
    (h : Machine.passesThrough
      (Search.step (host g c form.result) (s.plan scope form.givesPaths) limits) consume
      (fun t => !Walk.asks limits t.1) n
      (Search.start (s.plan (ω := ω) (ε := ε) scope form.givesPaths) none k) w = true) :
    NeverAsks g c form s scope limits consume k w := by
  intro t v hr
  have quiet := hr.test h
  rwa [Bool.not_eq_true'] at quiet

variable {g c form s scope limits consume}

/-- Where the policy is never asked, a search takes the steps of one that is always sent on. -/
theorem step_of_neverAsks {k : κ ⊕ List α} {w v : ω} {t : Search α (κ ⊕ List α)}
    (h : NeverAsks g c form s scope limits consume k w)
    (hr : Machine.Reached (Search.step (host g c form.result) (s.plan scope form.givesPaths) limits)
      consume (Search.start (s.plan (ω := ω) (ε := ε) scope form.givesPaths) none k) w t v) :
    Search.step (host g c.tireless form.result) (s.plan scope form.givesPaths) limits t v =
      Search.step (host g c form.result) (s.plan scope form.givesPaths) limits t v := by
  let env := Search.env (host g c form.result) (s.plan scope form.givesPaths)
  have htruth : env.truth = pure := rfl
  have hstep := Walk.step_tireless htruth (h t v hr)
  change Machine.beside (Walk.step env.tireless limits) t v =
    Machine.beside (Walk.step env limits) t v
  simp only [Machine.beside, hstep]

variable (g c form s scope limits consume)

/-- A search that is always sent on only roams. -/
theorem search_tireless (k : κ ⊕ List α) :
    search g c.tireless form s scope limits consume k =
      Walk.roam (walk g c.tireless form.result (s.plan scope form.givesPaths)) limits consume
        { path := { kind := (s.plan (ω := ω) (ε := ε) scope form.givesPaths).trailKind },
          depth := 0, candidates := k } := by
  have patient : Walk.Patient (walk g c.tireless form.result (s.plan scope form.givesPaths)) limits :=
    Walk.patient_tireless (walk g c form.result (s.plan scope form.givesPaths)) limits
  rw [search, drive_search]
  exact Walk.level_eq_roam rfl patient consume _ 0 k

/-- Where it is never asked, the search only roams. -/
theorem search_of_neverAsks {k : κ ⊕ List α} {w : ω}
    (h : NeverAsks g c form s scope limits consume k w) :
    search g c form s scope limits consume k w =
      Walk.roam (walk g c.tireless form.result (s.plan scope form.givesPaths)) limits consume
        { path := { kind := (s.plan (ω := ω) (ε := ε) scope form.givesPaths).trailKind },
          depth := 0, candidates := k } w := by
  rw [← search_tireless]
  exact (Machine.drive_congr_of_reached fun _ _ hr => step_of_neverAsks h hr).symm

end

/-- **The leaves of a search** are what the search for them gives, in the same order and as often, if
no element without children lacks a key.  The children of each visited element are asked for once,
when the search for everything gives the element. -/
theorem search_leaves [DecidableEq key] (g : Graph α key) (c : Caller ω ε α κ β) (form : Form α β)
    (s : Sieve α) (limits : Limits) (consume : β → Act ω ε Unit) (k : κ ⊕ List α) (w : ω)
    (hleaf : ∀ a, g.succ a = [] → (g.keyOf a).isSome)
    (hleaves : NeverAsks g c form s .leaves limits consume k w)
    (hall : NeverAsks g c.silent form s .everything limits (ofLeaves g c form consume) k w) :
    search g c form s .leaves limits consume k w =
      search g c.silent form s .everything limits (ofLeaves g c form consume) k w := by
  have kind : (s.plan (ω := ω) (ε := ε) .leaves form.givesPaths).trailKind =
      (s.plan (ω := ω) (ε := ε) .everything form.givesPaths).trailKind := rfl
  rw [search_of_neverAsks _ _ _ _ _ _ _ hleaves, search_of_neverAsks _ _ _ _ _ _ _ hall, kind]
  exact congrFun (roam_leaves g c.tireless form consume s limits hleaf _) w

/-- In the circle only one element is a leaf.  It is met below the first element, at its return. -/
theorem search_leaves_circle :
    search circle scribe Form.elements {} .leaves {} write (.inr [.first]) [] =
      some (.ok ()
        [.inl .first, .inl .second, .inl .first, .inl .first, .inl .third, .inr .third]) := by
  rw [search_leaves circle scribe Form.elements {} {} write (.inr [.first]) [] (fun _ _ => rfl)
    (neverAsks_of_passesThrough _ _ _ _ _ _ _ 30 (by decide +kernel))
    (neverAsks_of_passesThrough _ _ _ _ _ _ _ 30 (by decide +kernel))]
  exact (Machine.drive_eq_some_iff _ _).2 ⟨30, by decide +kernel⟩

/-- Elements without keys and without children. -/
def barren : Graph Corner Corner :=
  ofCorners (fun _ => none) (· == ·) fun _ => []

/-- Where leaves have no keys, the search for everything fails at the first of them, and the search
for leaves gives them all. -/
theorem search_leaves_barren :
    NeverAsks barren scribe Form.elements {} .leaves {} write (.inr [.first, .second]) [] ∧
      NeverAsks barren (scribe (β := Corner)).silent Form.elements {} .everything {}
        (ofLeaves barren scribe Form.elements write) (.inr [.first, .second]) [] ∧
      search barren scribe Form.elements {} .leaves {} write (.inr [.first, .second]) [] ≠
        search barren (scribe (β := Corner)).silent Form.elements {} .everything {}
          (ofLeaves barren scribe Form.elements write) (.inr [.first, .second]) [] := by
  refine ⟨?_, ?_, ?_⟩
  · exact neverAsks_of_passesThrough _ _ _ _ _ _ _ 8 (by decide +kernel)
  · exact neverAsks_of_passesThrough _ _ _ _ _ _ _ 8 (by decide +kernel)
  · have leaves : search barren scribe Form.elements {} .leaves {} write (.inr [.first, .second]) [] =
        some (.ok () [.inl .first, .inr .first, .inl .second, .inr .second]) :=
      (Machine.drive_eq_some_iff _ _).2 ⟨8, by decide +kernel⟩
    have everything : search barren (scribe (β := Corner)).silent Form.elements {} .everything {}
          (ofLeaves barren scribe Form.elements write) (.inr [.first, .second]) [] =
        some (.error () [.inl .first, .inr .first]) :=
      (Machine.drive_eq_some_iff _ _).2 ⟨8, by decide +kernel⟩
    rw [leaves, everything]
    intro h
    cases h

end GraphRoutes.Graph
