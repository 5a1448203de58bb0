/-
**Three ways to bound a search, and one answer.**

A search can be bounded by a test on the number of ancestors, with the element or without it, and by
the depth of its levels.  The tests look at the trail, which is kept as a sequence, as an index or
as a set that holds nothing twice, or would not be kept at all without them; the depth is the number
of levels.  The length of the trail is the depth all the same: what is among its own ancestors is
refused before a set could fall behind.

Both kinds of bound act at different moments.  A test refuses an element when its children are asked
for, and then a level without candidates is opened; the depth stops the walk before that.  Nothing is
done at such a level, so what a bounded search does can be written down in advance
(`GraphRoutes.Graph.harvest`), as a list of the requests for children and of what is given.

Main definitions:

* `GraphRoutes.Graph.Form.Plain` — a form that looks at no more than the ancestors;
* `GraphRoutes.Trail.keep` — the trail of given ancestors, where it is kept;
* `GraphRoutes.Graph.order`, `GraphRoutes.Graph.proceeds` — the instruction for an element, and
  whether it passes the tests, bounds apart;
* `GraphRoutes.Graph.harvest` — **what a bounded search does, in order.**

Main results:

* `GraphRoutes.Graph.roamBelow_keep` — what is done below an element;
* `GraphRoutes.Graph.roam_eq_harvest` — the levels of a bounded search;
* `GraphRoutes.Graph.search_bounds` — **the bounds agree, and the search ends.**
-/
import GraphRoutes.Proofs.Search.Leaves
import GraphRoutes.Proofs.Search.Visits

set_option relaxedAutoImplicit false
set_option autoImplicit false

namespace GraphRoutes

variable {ω ε α κ β key : Type}

/-- The trail of the given ancestors, which holds none of them where none are kept. -/
def Trail.keep (kind : TrailKind) (p : List α) : Trail α :=
  Trail.ofItems kind (if kind = .untracked then [] else p)

theorem Trail.keep_of_ne {kind : TrailKind} (h : kind ≠ .untracked) (p : List α) :
    Trail.keep kind p = Trail.ofItems kind p := by
  rw [Trail.keep, if_neg h]

/-- Nobody outside can tell how the ancestors are kept, if they are. -/
theorem Trail.items_keep {kind : TrailKind} (h : kind ≠ .untracked) (p : List α) :
    (Trail.keep kind p).items = p := by
  rw [Trail.keep_of_ne h, Trail.items_ofItems]

theorem Trail.origin?_keep {kind : TrailKind} (h : kind ≠ .untracked) (p : List α) :
    (Trail.keep kind p).origin? = p.head? := by
  rw [Trail.origin?_eq_head?, Trail.items_keep h]

namespace Graph

open Course

/-- A form looks at nothing but the ancestors, and not even at them unless it gives paths. -/
def Form.Plain (form : Form α β) : Prop :=
  ∀ t u a, (form.givesPaths = true → t.items = u.items) → form.result t a = form.result u a

theorem Form.plain_elements : (Form.elements : Form α α).Plain := fun _ _ _ _ => rfl

theorem Form.plain_paths : (Form.paths : Form α (List α)).Plain := by
  intro t u a h
  change t.items ++ [a] = u.items ++ [a]
  rw [h rfl]

/-! ### What a bounded search does -/

section Harvest

variable (g : Graph α key) (form : Form α β) (scope : Search.Scope)

/-- The instruction for an element below its ancestors. -/
def order (p : List α) (a : α) : Instruction Bool :=
  match scope with
  | .everything => Preset.emitAndContinue.instruction
  | .leaves => (if (g.succ a).isEmpty then Preset.emit else Preset.proceed).instruction
  | .cycles => (if p.head?.any (g.same a) then Preset.emitAndCut else Preset.proceed).instruction

/-- No instruction of a search lets the path begin anew. -/
theorem resetPath_order (p : List α) (a : α) : (g.order scope p a).resetPath = false := by
  cases scope with
  | everything => rfl
  | leaves =>
      simp only [order]
      split <;> rfl
  | cycles =>
      simp only [order]
      split <;> rfl

/-- What is done at the candidates of a level, where `below` is what is done below each. -/
def sweep (below : α → List (α ⊕ β)) (p : List α) : List α → List (α ⊕ β)
  | [] => []
  | a :: as =>
    let i := g.order scope p a
    (if scope = .leaves then [.inl a] else []) ++
      (if i.emit then [.inr (form.result (Trail.ofItems .sequence p) a)] else []) ++
      (if i.descend then below a else []) ++
      (if i.continueSiblings then sweep below p as else [])

variable [DecidableEq key] (cutCycles : Bool) (test : Option (α → Bool))

/-- Whether an element passes the tests of a search, bounds apart. -/
def proceeds (p : List α) (a : α) : Bool := (!cutCycles || g.isFresh p a) && test.all (· a)

/-- **What a search does at candidates with the ancestors `p`**, in order, if it may go down `d`
levels more: `inl a` is a request for the children of `a`, and `inr b` is given. -/
def harvest : ℕ → List α → List α → List (α ⊕ β)
  | 0, p, as => sweep g form scope (fun _ => []) p as
  | d + 1, p, as => sweep g form scope (fun a =>
      if g.proceeds cutCycles test p a then
        (if scope = .leaves then [] else [.inl a]) ++ harvest d (p ++ [a]) (g.succ a)
      else []) p as

/-- What it does below an element with the ancestors `p`. -/
def beneath (d : ℕ) (p : List α) (a : α) : List (α ⊕ β) :=
  match d with
  | 0 => []
  | d + 1 =>
    if g.proceeds cutCycles test p a then
      (if scope = .leaves then [] else [.inl a]) ++
        harvest g form scope cutCycles test d (p ++ [a]) (g.succ a)
    else []

theorem harvest_eq (d : ℕ) (p as : List α) :
    harvest g form scope cutCycles test d p as =
      sweep g form scope (beneath g form scope cutCycles test d p) p as := by
  cases d <;> rfl

end Harvest

/-! ### The trail of a search -/

section Kinds

variable (form : Form α β) (s : Sieve α) (scope : Search.Scope)

/-- Where cycles are not cut, no trail is asked for its members. -/
theorem trailKind_plan_of_uncut (hcut : s.cutCycles = false) :
    (s.plan (ω := ω) (ε := ε) scope form.givesPaths).trailKind = .sequence ∨
      (s.plan (ω := ω) (ε := ε) scope form.givesPaths).trailKind = .untracked := by
  simp only [Search.Plan.trailKind, Sieve.plan, hcut]
  split
  · rename_i h
    cases h
  · exact Or.inl rfl
  · rename_i h
    cases h
  · split
    · exact Or.inl rfl
    · exact Or.inr rfl

/-- A trail that somebody looks at is kept. -/
theorem trailKind_plan_ne (h : form.givesPaths = true ∨ scope = .cycles ∨
      (s.pred.isSome || s.pathPred.isSome) = true) :
    (s.plan (ω := ω) (ε := ε) scope form.givesPaths).trailKind ≠ .untracked := by
  simp only [Search.Plan.trailKind]
  split
  · simp
  · simp
  · simp
  · rename_i hordered _
    have hpred : (s.pred.isSome || s.pathPred.isSome) = true := by
      simp only [Sieve.plan, Bool.or_eq_false_iff, beq_eq_false_iff_ne] at hordered
      rcases h with h | h | h
      · exact absurd h (by rw [hordered.1.1]; exact Bool.false_ne_true)
      · exact absurd h hordered.1.2
      · exact h
    have hany : (s.plan (ω := ω) (ε := ε) scope form.givesPaths).criteria.any = true := by
      simp only [Search.Criteria.any, Sieve.plan, Option.isSome_map, Bool.or_assoc]
      rw [← Bool.or_assoc s.pred.isSome, hpred, Bool.true_or, Bool.or_true]
    rw [if_pos hany]
    simp

end Kinds

/-! ### One level -/

section Level

variable [DecidableEq key] (g : Graph α key) (c : Caller ω ε α κ β) (form : Form α β) (s : Sieve α)
  (scope : Search.Scope) (limits : Limits)

/-- One ancestor more, new where cycles are cut. -/
theorem extend_keep {kind : TrailKind} {p : List α} {a : α} (ha : (g.keyOf a).isSome)
    (hfresh : kind = .set ∨ kind = .indexed → g.isFresh p a = true) :
    (Trail.keep kind p).extend g.keyOf a none = Trail.keep kind (p ++ [a]) := by
  cases kind with
  | untracked => rfl
  | sequence =>
      have hitems : a :: p.reverse = (p ++ [a]).reverse := by simp
      exact congrArg (fun items => ({ kind := .sequence, newestFirst := items } : Trail α)) hitems
  | set => exact extend_ofItems (Or.inl rfl) ha (hfresh (Or.inl rfl))
  | indexed => exact extend_ofItems (Or.inr rfl) ha (hfresh (Or.inr rfl))

variable {kind : TrailKind}

/-- The control reads the instruction from the ancestors, and a search for leaves asks for the
children then. -/
theorem control_keep (hkind : (s.plan (ω := ω) (ε := ε) scope form.givesPaths).trailKind = kind)
    (p : List α) (a : α) :
    (walk g c form.result (s.plan scope form.givesPaths)).control (Trail.keep kind p) a =
      (if scope = .leaves then c.note a else pure ()) >>= fun _ => pure (g.order scope p a) := by
  change instruct g c (s.plan scope form.givesPaths) (Trail.keep kind p) a = _
  cases scope with
  | everything => rfl
  | leaves => rfl
  | cycles =>
      have hne : kind ≠ .untracked := hkind ▸ trailKind_plan_ne form s .cycles (Or.inr (Or.inl rfl))
      simp only [instruct, Sieve.plan, order, Trail.origin?_keep hne]
      rfl

/-- What is given is the same as for a plain sequence of the ancestors. -/
theorem result_keep (hkind : (s.plan (ω := ω) (ε := ε) scope form.givesPaths).trailKind = kind)
    (hform : form.Plain) (p : List α) (a : α) :
    form.result (Trail.keep kind p) a = form.result (Trail.ofItems .sequence p) a := by
  refine hform _ _ a fun hgives => ?_
  have hne : kind ≠ .untracked := hkind ▸ trailKind_plan_ne form s scope (Or.inl hgives)
  rw [Trail.items_keep hne, Trail.items_ofItems]

/-- What the tests come to. -/
theorem passes_keep (hkind : (s.plan (ω := ω) (ε := ε) scope form.givesPaths).trailKind = kind)
    (p : List α) {a : α} (ha : (g.keyOf a).isSome) :
    Search.passes (host g c form.result) (s.plan scope form.givesPaths) (Trail.keep kind p) a =
      pure ((!s.cutCycles || g.isFresh p a) && s.allows (Trail.keep kind p) a) := by
  rw [passes_plan]
  cases hcut : s.cutCycles with
  | true =>
      have hne : kind ≠ .untracked := by
        rcases Sieve.trailKind_plan (ω := ω) (ε := ε) hcut scope form.givesPaths with h | h <;>
          rw [← hkind, h] <;> nofun
      rw [if_pos rfl, Trail.keep_of_ne hne, Search.isNew]
      simp only [host, mem?_ofItems ha, Act.ofOption_some, pure_bind, Bool.not_not,
        Search.both_pure, Bool.not_true, Bool.false_or]
  | false =>
      rw [if_neg Bool.false_ne_true]
      exact Search.both_pure _ _

/-- What has passed the tests is new among its ancestors, where these are told apart. -/
theorem isFresh_of_passed (hkind : (s.plan (ω := ω) (ε := ε) scope form.givesPaths).trailKind = kind)
    {p : List α} {a : α} (h : (!s.cutCycles || g.isFresh p a) = true)
    (hset : kind = .set ∨ kind = .indexed) : g.isFresh p a = true := by
  cases hcut : s.cutCycles with
  | true =>
      rw [hcut, Bool.not_true, Bool.false_or] at h
      exact h
  | false =>
      have huncut := trailKind_plan_of_uncut (ω := ω) (ε := ε) form s scope hcut
      rw [hkind] at huncut
      rcases hset with rfl | rfl <;> rcases huncut with h' | h' <;> cases h'

/-- **Below an element** its children are visited, if it passes the tests and the depth allows it;
what has been refused leads to an empty level. -/
theorem roamBelow_keep (hkind : (s.plan (ω := ω) (ε := ε) scope form.givesPaths).trailKind = kind)
    {p : List α} {a : α} (ha : (g.keyOf a).isSome)
    {roam : Walk.Level (Trail α) (κ ⊕ List α) → Course ω ε Unit}
    (hroam : ∀ path depth, roam { path, depth, candidates := .inr [] } = pure ())
    {i : Instruction Bool} (hdescend : i.descend = true) (hreset : i.resetPath = false) (depth : ℕ)
    (candidates : κ ⊕ List α) :
    Walk.roamBelow (walk g c form.result (s.plan scope form.givesPaths)) limits roam
        { path := Trail.keep kind p, depth, candidates } a i =
      if !limits.maxDepth.any (· ≤ depth) &&
          ((!s.cutCycles || g.isFresh p a) && s.allows (Trail.keep kind p) a) then do
        act (if scope = .leaves then pure () else c.note a)
        roam { path := Trail.keep kind (p ++ [a]), depth := depth + 1, candidates := .inr (g.succ a) }
      else pure () := by
  let W := walk g c form.result (s.plan scope form.givesPaths)
  have hextend : W.extend (Trail.keep kind p) a =
      pure ((Trail.keep kind p).extend g.keyOf a none) := extend_keyed g c form.result _ ha
  have hchildren : W.children (Trail.keep kind p) a =
      if (!s.cutCycles || g.isFresh p a) && s.allows (Trail.keep kind p) a then
        (if scope = .leaves then pure () else c.note a) >>= fun _ => pure (.inr (g.succ a))
      else pure (.inr []) := by
    change expand g c form.result (s.plan scope form.givesPaths) _ a = _
    rw [expand, passes_keep g c form s scope hkind p ha, pure_bind]
    congr 1
    change (if scope = .leaves then _ else _) = _
    split <;> rfl
  unfold Walk.roamBelow
  cases limits.maxDepth.any (· ≤ depth) with
  | true => simp only [Bool.or_true, if_true, Bool.not_true, Bool.false_and, Bool.false_eq_true, if_false]
  | false =>
      simp only [hdescend, Bool.not_true, Bool.or_false, Bool.false_eq_true, if_false, Bool.not_false,
        Bool.true_and, Walk.childPath, walk_truth, hreset, hextend, hchildren, act_pure, pure_bind, W]
      split
      · rename_i hpassed
        have hfresh := isFresh_of_passed g form s scope hkind (Bool.and_eq_true_iff.1 hpassed).1
        simp only [extend_keep g ha hfresh, act_bind, act_pure, bind_assoc, pure_bind]
      · simp only [act_pure, pure_bind]
        exact hroam _ _

/-! ### The levels of a bounded search -/

variable (consume : β → Act ω ε Unit)

/-- The loop over a list of candidates, where it is known what is done below each. -/
theorem siblings_eq_sweep (hkind : (s.plan (ω := ω) (ε := ε) scope form.givesPaths).trailKind = kind)
    (hform : form.Plain) {p : List α} {below : α → Instruction Bool → Course ω ε Unit}
    {heard : α → List (α ⊕ β)}
    (hbelow : ∀ a, below a (g.order scope p a) =
      act ((if (g.order scope p a).descend then heard a else []).forM (Sum.elim c.note consume)))
    (as : List α) :
    Walk.siblings (walk g c form.result (s.plan scope form.givesPaths)) consume (Trail.keep kind p)
        below (.inr as) =
      act ((sweep g form scope heard p as).forM (Sum.elim c.note consume)) := by
  induction as with
  | nil =>
      rw [Walk.siblings_eq]
      rfl
  | cons a as ih =>
      have hnext : (walk g c form.result (s.plan scope form.givesPaths)).next (.inr (a :: as)) =
          pure (some (a, .inr as)) := rfl
      have hasked : (if scope = .leaves then c.note a else pure ()) =
          List.forM (if scope = .leaves then [.inl a] else []) (Sum.elim c.note consume) := by
        split <;> simp
      have hgiven : ∀ i : Instruction Bool, Walk.offer
          (walk g c form.result (s.plan scope form.givesPaths)) consume (Trail.keep kind p) a i =
            act (List.forM (if i.emit then [.inr (form.result (Trail.ofItems .sequence p) a)] else [])
              (Sum.elim c.note consume)) := by
        intro i
        unfold Walk.offer
        split
        · simp [result_keep form s scope hkind hform p a]
        · rfl
      rw [Walk.siblings_eq, Walk.siblingsStep, hnext, act_pure, pure_bind]
      simp only [control_keep g c form s scope hkind p a, hasked, hgiven, hbelow, act_bind, act_pure,
        bind_assoc, pure_bind, sweep, List.forM_eq_forM, List.forM_append]
      refine bind_congr fun _ => bind_congr fun _ => bind_congr fun _ => ?_
      split
      · exact ih
      · rfl

/-- A search goes below an element if it has fewer than `n` ancestors and passes `test`, cycles
apart: by its depth, or by what it looks at. -/
def BoundedBy (kind : TrailKind) (n : ℕ) (test : Option (α → Bool)) : Prop :=
  ∀ p a, (!limits.maxDepth.any (· ≤ p.length) && s.allows (Trail.keep kind p) a) =
    (decide (p.length < n) && test.all (· a))

variable {s limits} {n : ℕ} {test : Option (α → Bool)}

/-- What is done below an element, if it is known what is done at the level below it. -/
theorem roamBelow_eq_beneath
    (hkind : (s.plan (ω := ω) (ε := ε) scope form.givesPaths).trailKind = kind)
    (hkeys : ∀ a, (g.keyOf a).isSome) (hbound : BoundedBy s limits kind n test) {d : ℕ} {p : List α}
    (hd : p.length + d = n) {roam : Walk.Level (Trail α) (κ ⊕ List α) → Course ω ε Unit}
    (hroam : ∀ path depth, roam { path, depth, candidates := .inr [] } = pure ())
    (hlevel : ∀ e, d = e + 1 → ∀ a as,
      roam { path := Trail.keep kind (p ++ [a]), depth := p.length + 1, candidates := .inr as } =
        act ((harvest g form scope s.cutCycles test e (p ++ [a]) as).forM (Sum.elim c.note consume)))
    (candidates : κ ⊕ List α) (a : α) :
    Walk.roamBelow (walk g c form.result (s.plan scope form.givesPaths)) limits roam
        { path := Trail.keep kind p, depth := p.length, candidates } a (g.order scope p a) =
      act ((if (g.order scope p a).descend then
        beneath g form scope s.cutCycles test d p a else []).forM (Sum.elim c.note consume)) := by
  cases hdescend : (g.order scope p a).descend with
  | false =>
      simp only [Walk.roamBelow, hdescend, Bool.not_false, Bool.true_or, if_true]
      rfl
  | true =>
      -- the tests that the search makes, in their order, come to the bound and those of the harvest
      have hcond : (!limits.maxDepth.any (· ≤ p.length) &&
          ((!s.cutCycles || g.isFresh p a) && s.allows (Trail.keep kind p) a)) =
            (decide (p.length < n) && g.proceeds s.cutCycles test p a) := by
        rw [Bool.and_left_comm, hbound p a, proceeds, Bool.and_left_comm]
      rw [roamBelow_keep g c form s scope limits hkind (hkeys a) hroam hdescend
        (resetPath_order g scope p a), hcond, if_pos rfl]
      cases d with
      | zero =>
          have hlt : ¬ p.length < n := by omega
          simp only [hlt, decide_false, Bool.false_and, Bool.false_eq_true, if_false]
          rfl
      | succ e =>
          have hlt : p.length < n := by omega
          simp only [hlt, decide_true, Bool.true_and, beneath]
          split
          · rw [hlevel e rfl]
            split <;> simp
          · rfl

/-- **The levels of a bounded search** do what the harvest says, and end. -/
theorem roam_eq_harvest
    (hkind : (s.plan (ω := ω) (ε := ε) scope form.givesPaths).trailKind = kind) (hform : form.Plain)
    (hkeys : ∀ a, (g.keyOf a).isSome) (hbound : BoundedBy s limits kind n test) (d : ℕ)
    (p as : List α) (hd : p.length + d = n) :
    Walk.roam (walk g c form.result (s.plan scope form.givesPaths)) limits consume
        { path := Trail.keep kind p, depth := p.length, candidates := .inr as } =
      act ((harvest g form scope s.cutCycles test d p as).forM (Sum.elim c.note consume)) := by
  induction d generalizing p as with
  | zero =>
      rw [Walk.roam_eq_siblings, harvest_eq]
      refine siblings_eq_sweep g c form s scope consume hkind hform (fun a => ?_) as
      exact roamBelow_eq_beneath g c form scope consume hkind hkeys hbound hd
        (roam_nil c form.result limits consume _) nofun _ a
  | succ d ih =>
      rw [Walk.roam_eq_siblings, harvest_eq]
      refine siblings_eq_sweep g c form s scope consume hkind hform (fun a => ?_) as
      refine roamBelow_eq_beneath g c form scope consume hkind hkeys hbound hd
        (roam_nil c form.result limits consume _) (fun e he a as => ?_) _ a
      obtain rfl : d = e := Nat.succ.inj he
      have hlength : (p ++ [a]).length = p.length + 1 := List.length_append
      rw [← hlength]
      exact ih (p ++ [a]) as (by omega)

end Level

section Bounds

variable [DecidableEq key] (g : Graph α key) (c : Caller ω ε α κ β) (form : Form α β)
  (scope : Search.Scope) (consume : β → Act ω ε Unit) {s s' : Sieve α} {limits limits' : Limits}
  {kind kind' : TrailKind} {n : ℕ} {test : Option (α → Bool)}

theorem keep_nil (kind : TrailKind) : Trail.keep kind ([] : List α) = { kind } := by
  rw [Trail.keep, ite_self]
  rfl

/-- A bounded search from a list does what the harvest says, and ends. -/
theorem search_eq_harvest
    (hkind : (s.plan (ω := ω) (ε := ε) scope form.givesPaths).trailKind = kind) (hform : form.Plain)
    (hkeys : ∀ a, (g.keyOf a).isSome) (hbound : BoundedBy s limits kind n test) (r : List α) :
    search g c.tireless form s scope limits consume (.inr r) =
      act ((harvest g form scope s.cutCycles test n [] r).forM (Sum.elim c.note consume)) := by
  rw [search_tireless, hkind, ← keep_nil]
  exact roam_eq_harvest g c.tireless form scope consume hkind hform hkeys hbound n [] r
    (Nat.zero_add n)

/-- Bounded searches that agree in their bound and in what else they look at do the same, from any
route. -/
theorem search_congr_of_boundedBy
    (hkind : (s.plan (ω := ω) (ε := ε) scope form.givesPaths).trailKind = kind)
    (hkind' : (s'.plan (ω := ω) (ε := ε) scope form.givesPaths).trailKind = kind')
    (hform : form.Plain) (hkeys : ∀ a, (g.keyOf a).isSome) (hcut : s.cutCycles = s'.cutCycles)
    (hbound : BoundedBy s limits kind n test) (hbound' : BoundedBy s' limits' kind' n test) :
    search g c.tireless form s scope limits consume =
      search g c.tireless form s' scope limits' consume := by
  -- the trails of the two may be kept differently: at the top both are empty, and below it both
  -- searches do what the harvest says
  funext k
  have below_eq : ∀ {s : Sieve α} {limits : Limits} {kind : TrailKind},
      (s.plan (ω := ω) (ε := ε) scope form.givesPaths).trailKind = kind →
      BoundedBy s limits kind n test → ∀ a,
      Walk.roamBelow (walk g c.tireless form.result (s.plan scope form.givesPaths)) limits
          (Walk.roam (walk g c.tireless form.result (s.plan scope form.givesPaths)) limits consume)
          { path := Trail.keep kind [], depth := 0, candidates := k } a (g.order scope [] a) =
        act ((if (g.order scope [] a).descend then
          beneath g form scope s.cutCycles test n [] a else []).forM (Sum.elim c.note consume)) := by
    intro s limits kind hkind hbound a
    refine roamBelow_eq_beneath g c.tireless form scope consume (p := []) hkind hkeys hbound
      (Nat.zero_add n) (roam_nil c.tireless form.result limits consume _) (fun e he a as => ?_) k a
    refine roam_eq_harvest g c.tireless form scope consume hkind hform hkeys hbound e [a] as ?_
    rw [List.length_singleton, he, Nat.add_comm]
  rw [search_tireless, search_tireless, hkind, hkind', ← keep_nil, ← keep_nil,
    Walk.roam_eq_siblings, Walk.roam_eq_siblings]
  refine congrFun (Walk.siblings_congr _ _ _ _ rfl ?_ ?_ ?_) k
  · funext a
    exact (control_keep g c.tireless form s scope hkind [] a).trans
      (control_keep g c.tireless form s' scope hkind' [] a).symm
  · intro a i
    have hresult : form.result (Trail.keep kind []) a = form.result (Trail.keep kind' []) a :=
      (result_keep form s scope hkind hform [] a).trans
        (result_keep form s' scope hkind' hform [] a).symm
    simp only [Walk.offer, walk_result, hresult]
  · intro a w i v hi
    rw [control_keep g c.tireless form s scope hkind [] a] at hi
    obtain ⟨_, u, _, hi⟩ := Act.bind_eq_ok_iff.1 hi
    cases hi
    rw [below_eq hkind hbound, below_eq hkind' hbound', hcut]

/-- **Three bounds, one answer.**  A search whose policy always sends it on does the same, whether it
is bounded by a test on the path and the element, by a test on the path, or by its depth: from any
route, and for a consumer who takes what it gives.  It goes to its end, also on a graph with cycles
that it does not cut, and what it does is known in advance. -/
theorem search_bounds (hform : form.Plain) (cutCycles : Bool) (test : Option (α → Bool))
    (limits : Limits) (n : ℕ) (hkeys : ∀ a, (g.keyOf a).isSome) :
    let bounded (s : Sieve α) (maxDepth : Option ℕ) :=
      search g c.tireless form s scope { limits with maxDepth } consume
    let byTest := bounded { cutCycles, elementPred := test, pred := some (.within n) } none
    let byPath := bounded { cutCycles, elementPred := test, pathPred := some (.within n) } none
    let byDepth := bounded { cutCycles, elementPred := test } (some n)
    byTest = byDepth ∧ byPath = byDepth ∧ ∀ r : List α, byDepth (.inr r) =
      act ((harvest g form scope cutCycles test n [] r).forM (Sum.elim c.note consume)) := by
  intro bounded byTest byPath byDepth
  have tested : ∀ {kind : TrailKind}, kind ≠ .untracked → BoundedBy
      { cutCycles, elementPred := test, pred := some (.within n) } { limits with maxDepth := none }
      kind n test := by
    intro kind hne p a
    simp [Sieve.allows, Rule.allows, Trail.keep_of_ne hne]
  have pathTested : ∀ {kind : TrailKind}, kind ≠ .untracked → BoundedBy
      { cutCycles, elementPred := test, pathPred := some (.within n) }
      { limits with maxDepth := none } kind n test := by
    intro kind hne p a
    simp [Sieve.allows, Rule.allows, Trail.keep_of_ne hne]
  have deep : ∀ {kind : TrailKind}, BoundedBy { cutCycles, elementPred := test }
      { limits with maxDepth := some n } kind n test := by
    intro kind p a
    have hstop : (!decide (n ≤ p.length)) = decide (p.length < n) := by
      rw [← decide_not]
      exact decide_eq_decide.2 Nat.not_le
    simp [Sieve.allows, hstop]
  have kept : ∀ {s : Sieve α}, (s.pred.isSome || s.pathPred.isSome) = true →
      (s.plan (ω := ω) (ε := ε) scope form.givesPaths).trailKind ≠ .untracked :=
    fun h => trailKind_plan_ne form _ scope (Or.inr (Or.inr h))
  refine ⟨?_, ?_, fun r => ?_⟩
  · exact search_congr_of_boundedBy g c form scope consume rfl rfl hform hkeys rfl
      (tested (kept rfl)) deep
  · exact search_congr_of_boundedBy g c form scope consume rfl rfl hform hkeys rfl
      (pathTested (kept rfl)) deep
  · exact search_eq_harvest g c form scope consume rfl hform hkeys deep r

/-- In the circle, where it is not cut, the paths of two steps at most: the first element is met again
below the second, twice. -/
theorem search_bounds_circle :
    (∀ a, (circle.keyOf a).isSome) ∧ (Form.paths : Form Corner (List Corner)).Plain ∧
      search circle scribe.tireless Form.paths
          { cutCycles := false, pathPred := some (.within 2) } .everything {} write
          (.inr [.first]) [] =
        some (.ok () [.inr [.first], .inl .first, .inr [.first, .second], .inl .second,
          .inr [.first, .second, .first], .inr [.first, .second, .first], .inr [.first, .third],
          .inl .third]) := by
  have hkeys : ∀ a, (circle.keyOf a).isSome := fun _ => rfl
  have bounds := search_bounds circle scribe Form.paths .everything write Form.plain_paths false none
    {} 2 hkeys
  refine ⟨hkeys, Form.plain_paths, ?_⟩
  refine (congrFun (congrFun bounds.2.1 (.inr [.first])) []).trans ?_
  refine (congrFun (bounds.2.2 [.first]) []).trans ?_
  decide +kernel

end Bounds

end Graph

end GraphRoutes
