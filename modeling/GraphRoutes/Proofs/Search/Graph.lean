/-
**Searches on a graph, without the slot.**

A graph gives the children of an element as a list, the same whenever it is asked.  The control and
the expansion of a search share the children that were begun last; on a graph this makes no
difference.  What the control leaves in the slot are the children of its element, and the expansion
that comes next asks for those of the same element.  So a search on a graph is the recursive walk of
a caller that has no slot (`GraphRoutes.Graph.walk`), whatever the route, the tests and the policy do
to the world.

The invariant is about the slot: outside the search for leaves nothing is ever put into it, and in
that search it holds, behind a control that has found a child, the children of its element
(`GraphRoutes.Graph.Filled`).  Where the search does not go below the element, because of its depth,
a test or the policy, the slot may stay full, and the next control clears it.

Main definitions:

* `GraphRoutes.Graph`, `GraphRoutes.Graph.Caller` — a graph, and what else a search asks for;
* `GraphRoutes.Graph.host` — the host of a search on a graph;
* `GraphRoutes.Graph.walk` — the walk without a slot.

Main results:

* `GraphRoutes.Graph.drive_search` — **a search on a graph is the recursive walk without a slot.**
-/
import GraphRoutes.Proofs.Descent.Level
import GraphRoutes.Descent.Search

set_option relaxedAutoImplicit false
set_option autoImplicit false

namespace GraphRoutes

/-- A graph: children in their order, keys where there are any, equality, and which elements are one
object. -/
structure Graph (α key : Type) where
  succ : α → List α
  keyOf : α → Option key
  same : α → α → Bool
  identical : α → α → Bool
  identical_self : ∀ a, identical a a = true

namespace Graph

open Course

variable {ω ε α κ β key : Type}

/-- What a search on a graph asks for besides the graph.  The route may be any source. -/
structure Caller (ω ε α κ β : Type) where
  /-- The next element of the route. -/
  route : Source ω ε κ α
  /-- Hears that the children of an element are asked for. -/
  note : α → Act ω ε Unit
  unhashable : ε
  policy : Trail α → α → ℕ → ℕ → Act ω ε (Resolution β)
  report : Note α β → Act ω ε Unit

/-- The next candidate: of the route, or among the children of an element. -/
def Caller.next (c : Caller ω ε α κ β) : Source ω ε (κ ⊕ List α) α
  | .inl k => do
    match ← c.route k with
    | none => pure none
    | some (a, k) => pure (some (a, .inl k))
  | .inr [] => pure none
  | .inr (a :: as) => pure (some (a, .inr as))

section

variable (g : Graph α key) (c : Caller ω ε α κ β) (result : Trail α → α → β)

/-- The host of a search on a graph. -/
def host : Search.Host ω ε α (κ ⊕ List α) β key where
  next := c.next
  children a := do
    c.note a
    pure (.inr (g.succ a))
  nothing := pure (.inr [])
  keyOf := g.keyOf
  unhashable := c.unhashable
  identical := g.identical
  same a b := pure (g.same a b)
  mark := pure none
  result := result
  policy := c.policy
  report := c.report

variable [DecidableEq key] (plan : Search.Plan ω ε α)

/-- The instruction for an element, by the scope of the search. -/
def instruct (t : Trail α) (a : α) : Act ω ε (Instruction Bool) :=
  match plan.scope with
  | .everything => pure Preset.emitAndContinue.instruction
  | .leaves => do
    c.note a
    pure (if (g.succ a).isEmpty then Preset.emit else Preset.proceed).instruction
  | .cycles =>
    pure (if t.origin?.any (g.same a) then Preset.emitAndCut else Preset.proceed).instruction

/-- The children that the search visits below an element.  A search for leaves has asked for them
already. -/
def expand (t : Trail α) (a : α) : Act ω ε (κ ⊕ List α) := do
  if ← Search.passes (host g c result) plan t a then do
    if plan.scope = .leaves then pure () else c.note a
    pure (.inr (g.succ a))
  else pure (.inr [])

/-- The walk of a search on a graph, without a slot. -/
def walk : Walk.Env ω ε α (Trail α) (κ ⊕ List α) Bool β where
  next := c.next
  control := instruct g c plan
  truth := pure
  result t a := pure (result t a)
  extend := Search.extend (host g c result)
  restart := Search.restart (host g c result)
  children := expand g c result plan
  policy := c.policy
  report := c.report

@[simp] theorem walk_next (k : κ ⊕ List α) : (walk g c result plan).next k = c.next k := rfl

@[simp] theorem walk_truth (d : Bool) : (walk g c result plan).truth d = pure d := rfl

@[simp] theorem walk_result (t : Trail α) (a : α) :
    (walk g c result plan).result t a = pure (result t a) := rfl

@[simp] theorem env_next (k : Search.Ahead α (κ ⊕ List α)) :
    (Search.env (host g c result) plan).next k = Act.beside (Search.Ahead.next c.next k) := rfl

@[simp] theorem env_truth (d : Bool) :
    (Search.env (host g c result) plan).truth d = pure d := rfl

@[simp] theorem env_result (t : Trail α) (a : α) :
    (Search.env (host g c result) plan).result t a = pure (result t a) := rfl

@[simp] theorem env_policy (t : Trail α) (a : α) (depth n : ℕ) :
    (Search.env (host g c result) plan).policy t a depth n = Act.beside (c.policy t a depth n) := rfl

@[simp] theorem env_report (note : Note α β) :
    (Search.env (host g c result) plan).report note = Act.beside (c.report note) := rfl

end

/-! ### What stands in the slot -/

/-- The candidates `k` are those of a source whose first item may have been read. -/
inductive Unread : Search.Ahead α (κ ⊕ List α) → κ ⊕ List α → Prop
  | plain (k : κ ⊕ List α) : Unread { rest := k } k
  | peeked (a : α) (as : List α) : Unread { first := some a, rest := .inr as } (.inr (a :: as))

/-- Outside the search for leaves the slot is empty. -/
def Idle (scope : Search.Scope) (s : Search.Slot α (κ ⊕ List α)) : Prop :=
  scope ≠ .leaves → s = none

/-- In the search for leaves the slot holds the children of the element. -/
def Filled (g : Graph α key) (scope : Search.Scope) (a : α) (s : Search.Slot α (κ ⊕ List α)) :
    Prop :=
  Idle scope s ∧ (scope = .leaves → ∃ first rest, g.succ a = first :: rest ∧
    s = some { element := a, children := { first := some first, rest := .inr rest } })

section

variable (g : Graph α key) (c : Caller ω ε α κ β) (result : Trail α → α → β)

/-- An item that was read is handed out first. -/
theorem next_alike {ahead : Search.Ahead α (κ ⊕ List α)} {k : κ ⊕ List α} (h : Unread ahead k) :
    Alike (Option.Rel fun x y => x.1 = y.1 ∧ Unread x.2 y.2)
      (act (Search.Ahead.next c.next ahead)) (act (c.next k)) := by
  cases h with
  | plain k =>
      change Alike _ (act (c.next k >>= _)) _
      rw [act_bind, ← bind_pure (act (c.next k)), bind_assoc]
      refine Alike.bind_same _ fun found => ?_
      rcases found with _ | ⟨a, k⟩
      · exact Alike.pure Option.Rel.none
      · exact Alike.pure (Option.Rel.some ⟨rfl, Unread.plain k⟩)
  | peeked a as => exact Alike.pure (Option.Rel.some ⟨rfl, Unread.plain _⟩)

variable (plan : Search.Plan ω ε α)

/-- Behind the control of an element that is to be gone below, the slot holds what it should. -/
theorem control_alike (t : Trail α) (a : α) {s : Search.Slot α (κ ⊕ List α)}
    (hs : Idle plan.scope s) :
    Alike (fun x i => x.1 = i ∧ Idle plan.scope x.2 ∧
        (i.descend = true → Filled g plan.scope a x.2))
      (carry s (act (Search.control (host g c result) plan t a)))
      (act (instruct g c plan t a)) := by
  cases hscope : plan.scope with
  | everything =>
      rw [hscope] at hs
      simp only [Search.control, instruct, hscope, act_pure, carry_pure]
      refine Alike.pure ?_
      exact ⟨rfl, hs, fun _ => ⟨hs, nofun⟩⟩
  | cycles =>
      rw [hscope] at hs
      simp only [Search.control, instruct, hscope, host]
      rcases t.origin? with _ | origin
      · simp only [act_pure, carry_pure]
        refine Alike.pure ?_
        exact ⟨rfl, hs, fun _ => ⟨hs, nofun⟩⟩
      · simp only [act_bind, carry_bind, carry_act_beside, act_pure, pure_bind, Option.any_some]
        by_cases hsame : g.same a origin = true
        · simp only [hsame, if_true, act_pure, carry_pure]
          refine Alike.pure ?_
          exact ⟨rfl, hs, nofun⟩
        · simp only [hsame, Bool.false_eq_true, if_false, act_pure, carry_pure]
          refine Alike.pure ?_
          exact ⟨rfl, hs, fun _ => ⟨hs, nofun⟩⟩
  | leaves =>
      simp only [Search.control, Search.slot, instruct, hscope, host, act_bind, carry_bind,
        carry_modify, carry_act_beside, act_pure, pure_bind, bind_assoc]
      refine Alike.bind_same _ fun _ => ?_
      rcases hsucc : g.succ a with _ | ⟨first, rest⟩
      · simp only [Caller.next, act_pure, pure_bind, carry_pure]
        refine Alike.pure ?_
        exact ⟨rfl, fun h => absurd rfl h, nofun⟩
      · simp only [Caller.next, act_pure, pure_bind, act_bind, carry_bind, carry_modify, carry_pure]
        refine Alike.pure ?_
        exact ⟨rfl, fun h => absurd rfl h, fun _ => ⟨fun h => absurd rfl h, fun _ =>
          ⟨first, rest, hsucc, rfl⟩⟩⟩

variable [DecidableEq key]

/-- The expansion of an element gives its children, and asks for them where the control has not. -/
theorem expand_alike (t : Trail α) (a : α) {s : Search.Slot α (κ ⊕ List α)}
    (hs : Filled g plan.scope a s) :
    Alike (fun x k => Unread x.1 k ∧ Idle plan.scope x.2)
      (carry s (act (Search.expand (host g c result) plan t a)))
      (act (expand g c result plan t a)) := by
  obtain ⟨hidle, hfilled⟩ := hs
  simp only [Search.expand, Search.slot, expand, act_bind, carry_bind, carry_act_beside, bind_assoc,
    pure_bind]
  refine Alike.bind_same _ fun passed => ?_
  cases passed with
  | false =>
      simp only [Bool.false_eq_true, if_false, host, act_bind, carry_bind, carry_modify,
        carry_act_beside, act_pure, carry_pure, pure_bind]
      refine Alike.pure ?_
      exact ⟨Unread.plain _, fun _ => rfl⟩
  | true =>
      simp only [if_true, act_bind, carry_bind, carry_read, pure_bind]
      by_cases hscope : plan.scope = .leaves
      · obtain ⟨first, rest, hsucc, rfl⟩ := hfilled hscope
        simp only [host, g.identical_self, if_true, hscope, hsucc, act_bind, carry_bind,
          carry_modify, carry_pure, act_pure, pure_bind]
        refine Alike.pure ?_
        exact ⟨Unread.peeked first rest, fun h => absurd rfl h⟩
      · obtain rfl := hidle hscope
        simp only [Search.fromStart, host, hscope, if_false, carry_act_beside, act_bind, act_pure,
          bind_assoc, pure_bind]
        refine Alike.bind_same _ fun _ => Alike.pure ?_
        exact ⟨Unread.plain _, fun _ => rfl⟩

/-! ### The whole search -/

section Level

variable {limits : Limits} {consume : β → Act ω ε Unit}
  {level : Walk.Level (Trail α) (Search.Ahead α (κ ⊕ List α)) →
    Course (Search.Slot α (κ ⊕ List α) × ω) ε (Option ℕ)}
  {plainLevel : Walk.Level (Trail α) (κ ⊕ List α) → Course ω ε (Option ℕ)}

/-- Two levels that differ in what stands in the slot come to the same. -/
def Same (scope : Search.Scope)
    (level : Walk.Level (Trail α) (Search.Ahead α (κ ⊕ List α)) →
      Course (Search.Slot α (κ ⊕ List α) × ω) ε (Option ℕ))
    (plainLevel : Walk.Level (Trail α) (κ ⊕ List α) → Course ω ε (Option ℕ)) : Prop :=
  ∀ (t : Trail α) (depth : ℕ) (ahead : Search.Ahead α (κ ⊕ List α)) (k : κ ⊕ List α) (n : ℕ)
    (s : Search.Slot α (κ ⊕ List α)), Unread ahead k → Idle scope s →
    Alike (fun x y => x.1 = y ∧ Idle scope x.2)
      (carry s (level { path := t, depth, candidates := ahead, fruitless := n }))
      (plainLevel { path := t, depth, candidates := k, fruitless := n })

/-- The trail below an element has nothing to do with the slot. -/
theorem carry_childPath (t : Trail α) (p : Pending α Bool) (s : Search.Slot α (κ ⊕ List α)) :
    carry s (Walk.childPath (Search.env (host g c result) plan) t p) =
      Walk.childPath (walk g c result plan) t p >>= fun below => pure (below, s) := by
  simp only [Walk.childPath, Search.env, walk, act_pure, pure_bind]
  cases p.resetPath with
  | true => simp only [if_true, carry_act_beside]
  | false => simp only [Bool.false_eq_true, if_false, carry_act_beside]

/-- Neither has what is given. -/
theorem carry_emit (t : Trail α) (a : α) (i : Instruction Bool) (n : ℕ)
    (s : Search.Slot α (κ ⊕ List α)) :
    carry s (Walk.emit (Search.env (host g c result) plan)
        (fun b => Act.beside (consume b)) t a i n) =
      Walk.emit (walk g c result plan) consume t a i n >>= fun n => pure (n, s) := by
  simp only [Walk.emit, env_truth, walk_truth, env_result, walk_result, act_pure, pure_bind]
  by_cases hemit : i.emit = true
  · simp only [hemit, if_true, carry_bind, carry_act_beside, carry_pure, bind_assoc, pure_bind]
  · simp only [hemit, Bool.false_eq_true, if_false, carry_pure, pure_bind]

theorem descend_alike (h : Same plan.scope level plainLevel) (t : Trail α) (depth : ℕ)
    (p : Pending α Bool) (n : ℕ) {s : Search.Slot α (κ ⊕ List α)}
    (hs : Filled g plan.scope p.element s) :
    Alike (fun x y => x.1 = y ∧ Idle plan.scope x.2)
      (carry s (Walk.descend (Search.env (host g c result) plan) level t depth p n))
      (Walk.descend (walk g c result plan) plainLevel t depth p n) := by
  simp only [Walk.descend, carry_bind, carry_childPath, bind_assoc, pure_bind, carry_pure]
  refine Alike.bind_same _ fun below => ?_
  refine (expand_alike g c result plan t p.element hs).bind ?_
  rintro ⟨ahead, s'⟩ k ⟨hunread, hidle⟩
  refine (h below (depth + 1) ahead k n s' hunread hidle).bind ?_
  rintro ⟨done, s''⟩ _ ⟨rfl, hidle⟩
  exact Alike.pure ⟨rfl, hidle⟩

theorem subtree_alike (h : Same plan.scope level plainLevel) (t : Trail α) (depth : ℕ)
    (p : Pending α Bool) (n : ℕ) {s : Search.Slot α (κ ⊕ List α)} (hidle : Idle plan.scope s)
    (hs : p.descend = true → Filled g plan.scope p.element s) :
    Alike (fun x y => x.1 = y ∧ Idle plan.scope x.2)
      (carry s (Walk.subtree (Search.env (host g c result) plan) limits
        (fun b => Act.beside (consume b)) level t depth p n))
      (Walk.subtree (walk g c result plan) limits consume plainLevel t depth p n) := by
  have hdescend := fun (n : ℕ) (hd : p.descend = true) =>
    descend_alike g c result plan h t depth p n (hs hd)
  simp only [Walk.subtree, env_truth, walk_truth, act_pure, pure_bind]
  by_cases hstop : (!p.descend || limits.maxDepth.any (· ≤ depth)) = true
  · simp only [hstop, if_true, carry_pure]
    exact Alike.pure ⟨rfl, hidle⟩
  · have hd : p.descend = true := by
      cases hd : p.descend
      · simp [hd] at hstop
      · rfl
    simp only [hstop, Bool.false_eq_true, if_false]
    by_cases hdue : limits.due (n + 1) = true
    · simp only [hdue, Bool.not_true, Bool.false_eq_true, if_false, env_report, env_policy,
        carry_bind, carry_act_beside, bind_assoc, pure_bind]
      refine Alike.bind_same _ fun _ => Alike.bind_same _ fun resolution => ?_
      cases resolution with
      | descend => exact hdescend (n + 1) hd
      | advance =>
          simp only [carry_bind, carry_act_beside, bind_assoc, pure_bind, carry_pure]
          exact Alike.bind_same _ fun _ => Alike.pure ⟨rfl, hidle⟩
      | cut =>
          simp only [carry_bind, carry_act_beside, bind_assoc, pure_bind, carry_pure]
          exact Alike.bind_same _ fun _ => Alike.pure ⟨rfl, hidle⟩
      | substitute b =>
          simp only [carry_bind, carry_act_beside, bind_assoc, pure_bind, carry_pure]
          exact Alike.bind_same _ fun _ => Alike.bind_same _ fun _ => Alike.pure ⟨rfl, hidle⟩
    · simp only [hdue, Bool.not_false, if_true]
      exact hdescend (n + 1) hd

theorem levelStep_alike (h : Same plan.scope level plainLevel) :
    Same plan.scope
      (Walk.levelStep (Search.env (host g c result) plan) limits
        (fun b => Act.beside (consume b)) level)
      (Walk.levelStep (walk g c result plan) limits consume plainLevel) := by
  intro t depth ahead k n s hunread hidle
  simp only [Walk.levelStep, env_next, walk_next, carry_bind, carry_act_beside, bind_assoc, pure_bind]
  refine (next_alike c hunread).bind fun x y hxy => ?_
  cases hxy with
  | none =>
      simp only [carry_pure]
      exact Alike.pure ⟨rfl, hidle⟩
  | @some x y hxy =>
      obtain ⟨a, ahead⟩ := x
      obtain ⟨_, k⟩ := y
      obtain ⟨rfl, hrest⟩ := hxy
      simp only [carry_bind]
      refine (control_alike g c result plan t a hidle).bind ?_
      rintro ⟨i, s⟩ _ ⟨rfl, hidle, hfilled⟩
      simp only [env_truth, walk_truth, act_pure, carry_pure, pure_bind, carry_emit, bind_assoc]
      refine Alike.bind_same _ fun n => ?_
      refine (subtree_alike g c result plan h t depth _ n hidle hfilled).bind ?_
      rintro ⟨sequel, s⟩ _ ⟨rfl, hidle⟩
      cases sequel with
      | ended =>
          simp only [carry_pure]
          exact Alike.pure ⟨rfl, hidle⟩
      | leave n =>
          simp only [carry_pure]
          exact Alike.pure ⟨rfl, hidle⟩
      | siblings n =>
          by_cases hgoes : i.continueSiblings = true
          · simp only [hgoes, if_true]
            exact h t depth ahead k n s hrest hidle
          · simp only [hgoes, Bool.false_eq_true, if_false, carry_pure]
            exact Alike.pure ⟨rfl, hidle⟩

/-- **A search on a graph is the recursive walk without a slot**, whatever the caller does. -/
theorem drive_search (limits : Limits) (consume : β → Act ω ε Unit) (k : κ ⊕ List α) :
    Machine.drive (Search.step (host g c result) plan limits) consume (Search.start plan none k) =
      (fun _ => ()) <$> Walk.level (walk g c result plan) limits consume
        { path := { kind := plan.trailKind }, depth := 0, candidates := k } := by
  have unfolded : ∀ n, Same plan.scope
      (unfold (Walk.levelStep (Search.env (host g c result) plan) limits
        fun b => Act.beside (consume b)) n)
      (unfold (Walk.levelStep (walk g c result plan) limits consume) n) := by
    intro n
    induction n with
    | zero => exact fun _ _ _ _ _ _ _ _ _ => Matches.endless
    | succ n ih => exact levelStep_alike g c result plan ih
  have monotone : ∀ l, Monotone fun n => unfold (Walk.levelStep (Search.env (host g c result) plan)
      limits fun b => Act.beside (consume b)) n l :=
    fun l _ _ h => monotone_unfold (Walk.monotone_levelStep _ _ _) h l
  have plainMonotone : ∀ l, Monotone fun n =>
      unfold (Walk.levelStep (walk g c result plan) limits consume) n l :=
    fun l _ _ h => monotone_unfold (Walk.monotone_levelStep _ _ _) h l
  have limits_alike := Alike.limit (fun _ _ h => monotone_carry none (monotone _ h))
    (plainMonotone _) fun n =>
      unfolded n { kind := plan.trailKind } 0 _ _ 0 none (Unread.plain k) fun _ => rfl
  rw [← carry_limit none (monotone _)] at limits_alike
  rw [Search.step, Search.start, Machine.drive_beside, Walk.drive_start, carry_map, Functor.map_map]
  exact limits_alike.eq fun _ _ _ => rfl

end Level

end

end Graph

end GraphRoutes
