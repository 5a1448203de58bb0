/-
**Elements from which children lead back.**

A filter keeps the elements of a route from which children lead back within a number of steps.  For
each element it begins a search for returns, bounded by that number, and pulls it once.  The search
visits no element twice on one path, and leaves a level behind a return; still it finds a return if
there is a closed walk of so many steps, of whatever form.  A shortest such walk has no two equal
elements before its end, and up to the first return nothing has been cut.

As always where cycles are cut, this needs that equal elements have equal children.  It does not need
that the graph is finite: the bound ends every search.

Main definitions:

* `GraphRoutes.Graph.Telling` — keys tell what is equal to an element;
* `GraphRoutes.Graph.Closes` — a closed walk of so many steps;
* `GraphRoutes.Graph.closing`, `GraphRoutes.Graph.leadsBack` — the search that the filter makes for an
  element, and **its test**.

Main results:

* `GraphRoutes.Graph.exists_visited_of_closes` — a shortest closed walk is visited;
* `GraphRoutes.Graph.circuits_ne_nil_iff_closes` — a search finds a return if there is a closed walk;
* `GraphRoutes.Graph.drive_leadsBack`, `GraphRoutes.Session.select_leadsBack` — **the filter keeps the
  elements with a closed walk, and its negation the others**: wherever keys tell elements apart, and
  so for vertices and edges.
-/
import GraphRoutes.Proofs.Elements
import GraphRoutes.Proofs.Pull
import GraphRoutes.Proofs.Search.Circuits
import GraphRoutes.Proofs.Search.Distance

set_option relaxedAutoImplicit false
set_option autoImplicit false

namespace GraphRoutes

namespace Graph

open Course

variable {ω ε α κ key : Type} (g : Graph α key)

/-- Keys tell which of the elements that are reached from `o` are equal to it. -/
structure Telling (o : α) : Prop where
  keyed : ∀ a, Reachable g [o] a → (g.keyOf a).isSome
  same_iff : ∀ a, Reachable g [o] a → (g.same a o = true ↔ g.keyOf a = g.keyOf o)

/-- A walk of at least one and at most `n` steps leads from `o` to an element that is equal to it. -/
def Closes (n : ℤ) (o : α) : Prop :=
  ∃ (m : ℕ) (b : α), 1 ≤ m ∧ (m : ℤ) ≤ n ∧ Steps g [o] m b ∧ g.same b o = true

section Walks

variable {g} {o : α} {n : ℤ}

/-- The last step of a shortest closed walk begins at an element that is nowhere nearer. -/
theorem exists_nearest_of_closes (hkeys : Telling g o) (hc : Congruent g [o]) (h : Closes g n o) :
    ∃ (k : ℕ) (a b : α), (k : ℤ) + 1 ≤ n ∧ Steps g [o] k a ∧ b ∈ g.succ a ∧
      g.keyOf b = g.keyOf o ∧ Nearest g [o] k (g.keyOf a) := by
  classical
  obtain ⟨m, b, hm, hn, hsteps, hsame⟩ := h
  obtain ⟨k, rfl⟩ := Nat.exists_eq_add_of_le' hm
  have hkey : g.keyOf b = g.keyOf o := (hkeys.same_iff b ⟨_, hsteps⟩).1 hsame
  have hclosed : ∃ k, ∃ b, Steps g [o] (k + 1) b ∧ g.keyOf b = g.keyOf o := ⟨k, b, hsteps, hkey⟩
  have hle : Nat.find hclosed ≤ k := Nat.find_min' hclosed ⟨b, hsteps, hkey⟩
  obtain ⟨b', hsteps', hkey'⟩ := Nat.find_spec hclosed
  cases hsteps' with
  | @step _ a _ ha hb =>
      refine ⟨Nat.find hclosed, a, b', by omega, ha, hb, hkey', ⟨a, ha, rfl⟩, ?_⟩
      -- an equal element nearby would close a shorter walk
      intro l hl x hx hxkey
      obtain ⟨y, hy, hykey⟩ := hc a x ⟨_, ha⟩ ⟨l, hx⟩ hxkey.symm b' hb
      exact Nat.find_min hclosed hl ⟨y, hx.step hy, hykey.trans hkey'⟩

variable [DecidableEq key]

/-- **A shortest closed walk is visited**, up to its last step. -/
theorem exists_visited_of_closes (hkeys : Telling g o) (hc : Congruent g [o])
    {admits : List α → α → Bool}
    (hadmits : ∀ p a, g.isFresh p a = true → (p.length : ℤ) + 1 ≤ n → admits p a = true)
    (h : Closes g n o) :
    ∃ p a b, (Visited g admits [o] p a ∧ admits p a = true) ∧ b ∈ g.succ a ∧ g.same b o = true := by
  obtain ⟨k, a, b, hk, ha, hb, hkey, hnear⟩ := exists_nearest_of_closes hkeys hc h
  obtain ⟨p, a', hv, hlength, hkey', hp⟩ := exists_visited_of_nearest (d := k) hc
    (fun p a hlt hfresh => hadmits p a hfresh (by omega)) le_rfl hnear
  have hfresh : g.isFresh p a' = true := isFresh_of_nearest (hkey' ▸ hnear) hp
  obtain ⟨b', hb', hbkey⟩ := hc a a' ⟨k, ha⟩ hv.reachable hkey'.symm b hb
  have hreached : Reachable g [o] b' := ⟨_, hv.steps.step hb'⟩
  refine ⟨p, a', b', ⟨hv, hadmits p a' hfresh (by omega)⟩, hb', ?_⟩
  exact (hkeys.same_iff b' hreached).2 (hbkey.trans hkey)

/-- A bound on the number of ancestors bounds the depth. -/
theorem shallow_bounded :
    Shallow (g.beforeReturn o) (g.admits .indexed (.bounded (some n) none)) [o] n.toNat := by
  intro p a _ hadmits
  have hle := (admits_bounded.1 hadmits).2.1 n rfl
  omega

/-- **A bounded search finds a return if there is a closed walk within the bound.** -/
theorem circuits_ne_nil_iff_closes (hkeys : Telling g o) (hc : Congruent g [o]) :
    g.circuits o (g.admits .indexed (.bounded (some n) none)) (n.toNat + 1) [] o ≠ [] ↔
      Closes g n o := by
  rw [circuits_ne_nil_iff_visited shallow_bounded]
  constructor
  · rintro ⟨p, a, b, ⟨hv, hadmits⟩, hb, hsame⟩
    exact ⟨p.length + 1, b, Nat.le_add_left 1 _, (admits_bounded.1 hadmits).2.1 n rfl,
      hv.steps.step hb, hsame⟩
  · refine exists_visited_of_closes hkeys hc fun p a hfresh hle => ?_
    refine admits_bounded.2 ⟨hfresh, ?_, nofun⟩
    rintro _ ⟨⟩
    exact hle

end Walks

/-! ### The filter -/

section Filter

/-- A search for returns, with a bound on the number of ancestors. -/
def closing (n : ℤ) : Search.Plan ω ε α :=
  (Sieve.bounded (some n) none).plan .cycles (Form.elements (α := α)).givesPaths

variable [DecidableEq key] (c : Caller ω ε α κ α) (refused unsettled : ε) (n : ℤ)

/-- **Whether children lead back from an element** within `n` steps: whether a search for returns,
which is refused for a bound that is not positive, gives anything.  It is pulled with so much
fuel. -/
def leadsBack (fuel : ℕ) : α → Act ω ε Bool :=
  Route.lookahead {}
    (fun a =>
      if 1 ≤ n then pure (Search.start (closing n : Search.Plan ω ε α) none (.inr [a]))
      else throw refused)
    (fun limit => pure limit.toNat) (fun s => pure (some s))
    ((Search.step (host g c Form.elements.result) (closing n) .standard).source unsettled fuel)

/-- Before it has a result, or comes to its end, the search from `o` does not ask its policy. -/
def Prompt (o : α) : Prop :=
  ∀ w, NeverAsks g c Form.elements (.bounded (some n) none) .cycles .standard
    (Machine.refuse c.unhashable) (.inr [o]) w

variable {g c n}

/-- The test tells whether the first pull of its search gives anything. -/
theorem leadsBack_of_source (hn : 1 ≤ n) {fuel : ℕ} {o : α} {w v : ω}
    {x : Option (α × Option (Search α (κ ⊕ List α)))}
    (h : (Search.step (host g c Form.elements.result) (closing n) .standard).source unsettled fuel
      (some (Search.start (closing n : Search.Plan ω ε α) none (.inr [o]))) w = .ok x v) :
    leadsBack g c refused unsettled n fuel o w = .ok x.isSome v := by
  rw [leadsBack]
  exact Route.lookahead_eq (if_pos hn) rfl rfl h

/-- What the test of an element comes to. -/
theorem leadsBack_eq (hn : 1 ≤ n) {o : α} (hkeys : Telling g o) (hc : Congruent g [o])
    (hprompt : Prompt g c.silent n o) {keeps : Bool} (hkeeps : keeps = true ↔ Closes g n o) (w : ω) :
    ∃ N, ∀ fuel, N ≤ fuel → leadsBack g c.silent refused unsettled n fuel o w = .ok keeps w := by
  let s : Sieve α := .bounded (some n) none
  let found := g.circuits o (g.admits .indexed s) (n.toNat + 1) [] o
  have hkeyed : ∀ p a, Visited (g.beforeReturn o) (g.admits .indexed s) [o] p a →
      (g.keyOf a).isSome := fun _ a hv => hkeys.keyed a hv.reachable.of_beforeReturn
  have hdrive : ∀ consume,
      search g c.silent.tireless Form.elements s .cycles .standard consume (.inr [o]) w =
        act ((found.map Prod.snd).forM consume) w := by
    intro consume
    rw [search_eq_circuits c s .standard consume Form.elements rfl rfl hkeyed shallow_bounded]
    simp only [List.forM_eq_forM, Form.elements, List.forM_map]
    rfl
  obtain ⟨N, x, hsource, hx⟩ := Machine.source_of_drive unsettled hdrive c.unhashable
  refine ⟨N, fun fuel hfuel => ?_⟩
  have hquiet := Machine.source_congr_of_reached unsettled
    (fun _ _ hr => step_of_neverAsks (hprompt w) hr) fuel
  have hnext := hquiet.symm.trans (hsource fuel hfuel)
  have hkept : keeps = x.isSome := by
    rw [hx, Bool.eq_iff_iff, hkeeps, ← circuits_ne_nil_iff_closes hkeys hc]
    simp [found, s]
  rw [hkept]
  exact leadsBack_of_source refused unsettled hn hnext

variable (g c n)

/-- A filter by the test keeps what has a closed walk, and its negation the rest. -/
theorem drive_leadsBack (r : List α) (hn : 1 ≤ n) (hkeys : ∀ o ∈ r, Telling g o)
    (hc : ∀ o ∈ r, Congruent g [o]) (hprompt : ∀ o ∈ r, Prompt g c.silent n o) :
    ∃ keeps : α → Bool, (∀ o ∈ r, keeps o = true ↔ Closes g n o) ∧
      ∀ negated consume w, ∃ N, ∀ fuel, N ≤ fuel →
        Machine.drive (Route.select Source.ofList fun o => do
            let b ← leadsBack g c.silent refused unsettled n fuel o
            pure (b != negated)) consume r w =
          act ((r.filter fun o => keeps o != negated).forM consume) w := by
  classical
  refine ⟨fun o => decide (Closes g n o), fun o _ => decide_eq_true_iff, ?_⟩
  intro negated consume w
  have htest : ∀ o ∈ r, ∀ w, ∃ N, ∀ fuel, N ≤ fuel → (do
      let b ← leadsBack g c.silent refused unsettled n fuel o
      pure (b != negated) : Act ω ε Bool) w = .ok (decide (Closes g n o) != negated) w := by
    intro o ho w
    obtain ⟨N, hkept⟩ := leadsBack_eq refused unsettled hn (hkeys o ho) (hc o ho) (hprompt o ho)
      decide_eq_true_iff w
    exact ⟨N, fun fuel hfuel => Act.bind_eq_ok_iff.2 ⟨_, w, hkept fuel hfuel, rfl⟩⟩
  exact Route.drive_select htest w

end Filter

end Graph

namespace Session

open GraphRoutes.Graph Course

variable {ω ε κ : Type}

/-- Keys tell graph elements apart. -/
theorem telling_elementGraph (w₀ : World) (succ : GraphElement → List GraphElement)
    (o : GraphElement) : Telling (elementGraph w₀ succ) o where
  keyed a _ := isSome_keyOf_elementGraph w₀ succ a
  same_iff a _ := same_elementGraph_iff w₀ succ a o

/-- **The filter keeps the elements of a route with a closed walk of at most `n` steps**, in order, and
its negation the others.  No test goes on for ever, however much can be reached. -/
theorem select_leadsBack (w₀ : World) (succ : GraphElement → List GraphElement)
    (c : Caller ω ε GraphElement κ GraphElement) (refused unsettled : ε) (n : ℤ)
    (r : List GraphElement) (hn : 1 ≤ n) (hc : ∀ o ∈ r, Congruent (elementGraph w₀ succ) [o])
    (hprompt : ∀ o ∈ r, Prompt (elementGraph w₀ succ) c.silent n o) :
    ∃ keeps : GraphElement → Bool,
      (∀ o ∈ r, keeps o = true ↔ Closes (elementGraph w₀ succ) n o) ∧
      ∀ negated consume w, ∃ N, ∀ fuel, N ≤ fuel →
        Machine.drive (Route.select Source.ofList fun o => do
            let b ← leadsBack (elementGraph w₀ succ) c.silent refused unsettled n fuel o
            pure (b != negated)) consume r w =
          act ((r.filter fun o => keeps o != negated).forM consume) w :=
  drive_leadsBack _ c refused unsettled n r hn (fun o _ => telling_elementGraph w₀ succ o) hc hprompt

/-- A caller whose world holds nothing. -/
def hush : Caller Unit Unit GraphElement Empty GraphElement where
  route := nofun
  note _ := pure ()
  unhashable := ()
  policy _ _ _ _ := pure .cut
  report _ := pure ()

/-- A vertex of a graph. -/
def lone (index : ℕ) : GraphElement := { value := .vertex { graph := 0, index } none }

/-- The same vertex, wrapped. -/
def followed (index : ℕ) : GraphElement := { value := (lone index).value.wrap .vertex }

/-- Two vertices that lead to each other, the second in two ways, and one that leads nowhere. -/
def circling (a : GraphElement) : List GraphElement :=
  match a.value.key? with
  | some [.vertex _ 0] => [lone 1, lone 2]
  | some [.vertex _ 1] => [lone 0, lone 0]
  | _ => []

/-- In the circle two steps lead back to the first vertex, though it is wrapped, and nothing leads
back to the third. -/
theorem select_leadsBack_circle :
    1 ≤ (2 : ℤ) ∧
      (∀ o ∈ [followed 0, lone 2], Congruent (elementGraph {} circling) [o] ∧
        Prompt (elementGraph {} circling) hush.silent 2 o) ∧
      ∀ consume, ∃ N, ∀ fuel, N ≤ fuel →
        Machine.drive (Route.select Source.ofList fun o => do
            let b ← leadsBack (elementGraph {} circling) hush.silent () () 2 fuel o
            pure (b != false)) consume [followed 0, lone 2] () =
          act (List.forM [followed 0] consume) () := by
  have congruent : ∀ o, Congruent (elementGraph {} circling) [o] := by
    intro o a b _ _ hkey x hx
    change a.value.key? = b.value.key? at hkey
    change x ∈ circling a at hx
    rw [circling, hkey] at hx
    exact ⟨x, hx, rfl⟩
  have prompt : ∀ o ∈ [followed 0, lone 2], Prompt (elementGraph {} circling) hush.silent 2 o := by
    rw [elementGraph_eq]
    rintro o ho ⟨⟩
    refine neverAsks_of_passesThrough _ _ _ _ _ _ _ 30 ?_
    rcases List.mem_pair.1 ho with rfl | rfl <;> decide +kernel
  have first : Closes (elementGraph {} circling) 2 (followed 0) := by
    have two : Steps (elementGraph {} circling) [followed 0] 2 (lone 0) :=
      ((Steps.start List.mem_cons_self).step (b := lone 1) List.mem_cons_self).step List.mem_cons_self
    exact ⟨2, lone 0, by decide, by decide, two, (same_elementGraph_iff _ _ _ _).2 rfl⟩
  have third : ¬ Closes (elementGraph {} circling) 2 (lone 2) := by
    have stays : ∀ m a, Steps (elementGraph {} circling) [lone 2] m a → a = lone 2 := by
      intro m a h
      induction h with
      | start ha => exact List.mem_singleton.1 ha
      | step _ hb ih =>
          rw [ih] at hb
          cases hb
    rintro ⟨m, b, hm, -, hsteps, -⟩
    cases hsteps with
    | start _ => exact absurd hm (by decide)
    | step ha hb =>
        rw [stays _ _ ha] at hb
        cases hb
  obtain ⟨keeps, hkeeps, hdrive⟩ := select_leadsBack {} circling hush () () 2 [followed 0, lone 2]
    (by decide) (fun o _ => congruent o) prompt
  refine ⟨by decide, fun o ho => ⟨congruent o, prompt o ho⟩, fun consume => ?_⟩
  have hfirst : keeps (followed 0) = true := (hkeeps _ List.mem_cons_self).2 first
  have hthird : keeps (lone 2) = false :=
    Bool.eq_false_iff.2 fun h => third ((hkeeps _ (by simp)).1 h)
  simpa [hfirst, hthird] using hdrive false consume ()

/-- A vertex leads to a second one, that one to itself as it is wrapped, and this one back. -/
def misled (a : GraphElement) : List GraphElement :=
  match a.value with
  | .vertex ⟨_, 0⟩ _ => [lone 1]
  | .vertex _ _ => [followed 1]
  | _ => [lone 0]

/-- The wrapped vertex is refused below the plain one, to which it is equal, and the way back is
lost. -/
theorem not_select_leadsBack_misled :
    Prompt (elementGraph {} misled) hush.silent 3 (lone 0) ∧
      Closes (elementGraph {} misled) 3 (lone 0) ∧
      ¬ ∀ consume, ∃ N, ∀ fuel, N ≤ fuel →
        Machine.drive (Route.select Source.ofList fun o => do
            let b ← leadsBack (elementGraph {} misled) hush.silent () () 3 fuel o
            pure (b != false)) consume [lone 0] () =
          act (List.forM [lone 0] consume) () := by
  refine ⟨?_, ?_, ?_⟩
  · rw [elementGraph_eq]
    rintro ⟨⟩
    exact neverAsks_of_passesThrough _ _ _ _ _ _ _ 30 (by decide +kernel)
  · have three : Steps (elementGraph {} misled) [lone 0] 3 (lone 0) :=
      (((Steps.start List.mem_cons_self).step (b := lone 1) List.mem_cons_self).step
        (b := followed 1) List.mem_cons_self).step List.mem_cons_self
    exact ⟨3, lone 0, by decide, by decide, three, (same_elementGraph_iff _ _ _ _).2 rfl⟩
  · intro h
    let m (g : GraphRoutes.Graph GraphElement Key) :=
      Search.step (host g hush.silent Form.elements.result) (closing 3) .standard
    let start : Search GraphElement (Empty ⊕ List GraphElement) :=
      Search.start (closing 3 : Search.Plan Unit Unit GraphElement) none (.inr [lone 0])
    have refused : unfold (Machine.driveStep (m (elementGraph {} misled)) (Machine.refuse ())) 30
        start () = some (.ok () ()) := by
      rw [elementGraph_eq]
      decide +kernel
    have ends : Machine.drive (m (elementGraph {} misled)) (fun _ => pure ()) start () =
        some (.ok () ()) := by
      rw [elementGraph_eq]
      exact (Machine.drive_eq_some_iff _ _).2 ⟨30, by decide +kernel⟩
    have nothing : ∀ fuel, 30 ≤ fuel →
        (m (elementGraph {} misled)).source () fuel (some start) () = .ok none () := by
      rcases Machine.source_of_unfold () refused ⟨(), ends⟩ with ⟨_, _, hsource⟩ | ⟨_, _, hr, _⟩
      · exact hsource
      · cases hr
    have tested : ∀ o ∈ [lone 0], ∀ w : Unit, ∃ N, ∀ fuel, N ≤ fuel → (do
        let b ← leadsBack (elementGraph {} misled) hush.silent () () 3 fuel o
        pure (b != false) : Act Unit Unit Bool) w = .ok false w := by
      intro o ho w
      obtain rfl := List.mem_singleton.1 ho
      refine ⟨30, fun fuel hfuel => Act.bind_eq_ok_iff.2 ⟨false, w, ?_, rfl⟩⟩
      exact leadsBack_of_source () () (by decide) (nothing fuel hfuel)
    -- a consumer who fails hears the difference
    obtain ⟨N, hkept⟩ := h fun _ => throw ()
    obtain ⟨N', hdropped⟩ := Route.drive_select tested ()
    have differ := (hkept _ (le_max_left N N')).symm.trans (hdropped _ (le_max_right N N'))
    cases differ

end Session

end GraphRoutes
