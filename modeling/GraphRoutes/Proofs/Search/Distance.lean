/-
**What a search reaches, and at what distance.**

A search that cuts cycles does not go on from an element that is equal to one of its ancestors.  It
reaches everything nevertheless: a shortest walk to an element never meets two equal elements.  So a
bound on the number of ancestors is a bound on the distance, although the ancestors are kept as a
set.

Both hold up to equality, and only if the children of equal elements are equal.  Where an element is
refused because another one is equal to it, the search has gone below the other one, and what is
reached below the refused element alone is not reached.

Main definitions:

* `GraphRoutes.Graph.Congruent` — equal elements have equal children;
* `GraphRoutes.Graph.Nearest` — how far a key is from the route.

Main results:

* `GraphRoutes.Graph.exists_visited_of_nearest` — a shortest walk is visited;
* `GraphRoutes.Graph.search_reaches` — **a search gives what is reached, and within a bound what is
  at most so far away.**
-/
import GraphRoutes.Proofs.Search.Visits

set_option relaxedAutoImplicit false
set_option autoImplicit false

namespace GraphRoutes.Graph

open Course

variable {ω ε α κ β key : Type} (g : Graph α key)

/-- Equal elements that are reached from the route have children that are equal. -/
def Congruent (r : List α) : Prop :=
  ∀ a b, Reachable g r a → Reachable g r b → g.keyOf a = g.keyOf b →
    ∀ x ∈ g.succ a, ∃ y ∈ g.succ b, g.keyOf y = g.keyOf x

/-- An element with the key stands `n` steps from the route, and none with that key is nearer. -/
def Nearest (r : List α) (n : ℕ) (k : Option key) : Prop :=
  (∃ a, Steps g r n a ∧ g.keyOf a = k) ∧ ∀ m < n, ∀ a, Steps g r m a → g.keyOf a ≠ k

variable {g} {r : List α}

theorem exists_nearest {n : ℕ} {a : α} (h : Steps g r n a) :
    ∃ m ≤ n, Nearest g r m (g.keyOf a) := by
  induction n using Nat.strong_induction_on generalizing a with
  | _ n ih =>
      by_cases hnear : ∀ m < n, ∀ b, Steps g r m b → g.keyOf b ≠ g.keyOf a
      · exact ⟨n, le_refl n, ⟨a, h, rfl⟩, hnear⟩
      · push Not at hnear
        obtain ⟨m, hm, b, hb, hkey⟩ := hnear
        obtain ⟨l, hl, hnearest⟩ := ih m hm hb
        exact ⟨l, hl.trans hm.le, hkey ▸ hnearest⟩

/-- What comes before the end of a shortest walk is nearer. -/
theorem Nearest.of_step (hc : Congruent g r) {n : ℕ} {a b : α} (ha : Steps g r n a)
    (hb : b ∈ g.succ a) (h : Nearest g r (n + 1) (g.keyOf b)) : Nearest g r n (g.keyOf a) := by
  refine ⟨⟨a, ha, rfl⟩, fun m hm a' ha' hkey => ?_⟩
  obtain ⟨b', hb', hkey'⟩ := hc a a' ⟨n, ha⟩ ⟨m, ha'⟩ hkey.symm b hb
  exact h.2 (m + 1) (Nat.succ_lt_succ hm) b' (ha'.step hb') hkey'

/-- What the visits come to, without the ancestors. -/
def elements (g : Graph α key) (admits : List α → α → Bool) (d : ℕ) (r : List α) : List α :=
  (r.flatMap (visits g admits d [])).map Prod.snd

theorem exists_steps_of_mem_elements {admits : List α → α → Bool} {d : ℕ}
    (hd : Shallow g admits r d) {b : α} (hb : b ∈ elements g admits d r) :
    ∃ m ≤ d, Steps g r m b := by
  obtain ⟨⟨p, b⟩, hv, rfl⟩ := List.mem_map.1 hb
  have hvisited := (mem_visits_iff hd).1 hv
  exact ⟨p.length, hvisited.length_le hd, hvisited.steps⟩

variable [DecidableEq key]

/-- An element is not equal to one of its ancestors, if these are nearer. -/
theorem isFresh_of_nearest {n : ℕ} {p : List α} {a : α} (h : Nearest g r n (g.keyOf a))
    (hp : ∀ x ∈ p, ∃ m < n, Nearest g r m (g.keyOf x)) : g.isFresh p a = true := by
  refine isFresh_iff.2 fun hmem => ?_
  obtain ⟨x, hx, hkey⟩ := List.mem_map.1 hmem
  obtain ⟨m, hm, ⟨y, hy, hykey⟩, -⟩ := hp x hx
  exact h.2 m hm y hy (hykey.trans hkey)

/-- **A shortest walk is visited**: the keys of its items are at different distances, so no two of
them are equal. -/
theorem exists_visited_of_nearest {admits : List α → α → Bool} {d : ℕ} (hc : Congruent g r)
    (hadmits : ∀ p a, p.length < d → g.isFresh p a = true → admits p a = true) {n : ℕ}
    {k : Option key} (hn : n ≤ d) (h : Nearest g r n k) :
    ∃ p a, Visited g admits r p a ∧ p.length = n ∧ g.keyOf a = k ∧
      ∀ x ∈ p, ∃ m < n, Nearest g r m (g.keyOf x) := by
  induction n generalizing k with
  | zero =>
      obtain ⟨⟨a, ha, hkey⟩, -⟩ := h
      cases ha with
      | start ha => exact ⟨[], a, Visited.start ha, rfl, hkey, nofun⟩
  | succ n ih =>
      obtain ⟨⟨b, hb, rfl⟩, hmin⟩ := h
      cases hb with
      | @step _ a _ ha hab =>
          have hnear := Nearest.of_step hc ha hab ⟨⟨b, ha.step hab, rfl⟩, hmin⟩
          obtain ⟨p, a', hv, hlen, hkey, hp⟩ := ih (Nat.le_of_succ_le hn) hnear
          have hfresh : g.isFresh p a' = true := isFresh_of_nearest (hkey ▸ hnear) hp
          obtain ⟨b', hb', hkey'⟩ := hc a a' ⟨n, ha⟩ hv.reachable hkey.symm b hab
          refine ⟨p ++ [a'], b', hv.step (hadmits p a' ?_ hfresh) hb', ?_, hkey', ?_⟩
          · exact hlen ▸ hn
          · rw [List.length_append, hlen, List.length_singleton]
          · intro x hx
            rcases List.mem_append.1 hx with hx | hx
            · obtain ⟨m, hm, hnearest⟩ := hp x hx
              exact ⟨m, hm.trans (Nat.lt_succ_self n), hnearest⟩
            · rw [List.mem_singleton.1 hx, hkey]
              exact ⟨n, Nat.lt_succ_self n, hnear⟩

/-- An element that is reached within the admitted distance is equal to one that is given. -/
theorem exists_mem_elements_of_steps {admits : List α → α → Bool} {d : ℕ}
    (hd : Shallow g admits r d) (hc : Congruent g r) {n : ℕ} {a : α} (h : Steps g r n a)
    (hadmits : ∀ p a, p.length < n → g.isFresh p a = true → admits p a = true) :
    ∃ b ∈ elements g admits d r, g.keyOf b = g.keyOf a := by
  obtain ⟨m, hm, hnear⟩ := exists_nearest h
  obtain ⟨p, b, hv, -, hkey, -⟩ := exists_visited_of_nearest hc hadmits hm hnear
  exact ⟨b, List.mem_map.2 ⟨(p, b), (mem_visits_iff hd).2 hv, rfl⟩, hkey⟩

/-- A search for elements gives those that it visits. -/
theorem search_elements (c : Caller ω ε α κ α) {s : Sieve α} {d : ℕ} {kind : TrailKind}
    (hcut : s.cutCycles = true)
    (hkind : (s.plan (ω := ω) (ε := ε) .everything false).trailKind = kind)
    (hkeyed : ∀ a, Reachable g r a → (g.keyOf a).isSome) (hd : Shallow g (g.admits kind s) r d)
    (consume : α → Act ω ε Unit) :
    search g c.silent Form.elements s .everything {} consume (.inr r) =
      act ((elements g (g.admits kind s) d r).forM consume) := by
  have hkeys : ∀ p a, Visited g (g.admits kind s) r p a → (g.keyOf a).isSome :=
    fun _ a hv => hkeyed a hv.reachable
  rw [search_eq_visits g c Form.elements s {} hcut hkind (by decide) rfl hkeys hd]
  simp only [List.forM_eq_forM, Form.elements, elements, List.forM_map]

/-- **A search gives what is reached from the route, and with a bound what is at most so far away**,
up to equality, if equal elements have equal children. -/
theorem search_reaches (c : Caller ω ε α κ α) (h : IsFinite g r) (hc : Congruent g r) :
    (∃ L : List α,
      (∀ consume, search g c.silent Form.elements {} .everything {} consume (.inr r) =
        act (L.forM consume)) ∧
      (∀ b ∈ L, Reachable g r b) ∧ ∀ a, Reachable g r a → ∃ b ∈ L, g.keyOf b = g.keyOf a) ∧
    ∀ n : ℤ, 1 ≤ n → ∃ L : List α,
      (∀ consume, search g c.silent Form.elements { pred := some (.within n) } .everything {} consume
        (.inr r) = act (L.forM consume)) ∧
      (∀ b ∈ L, ∃ m : ℕ, (m : ℤ) ≤ n ∧ Steps g r m b) ∧
      ∀ a (m : ℕ), (m : ℤ) ≤ n → Steps g r m a → ∃ b ∈ L, g.keyOf b = g.keyOf a := by
  constructor
  · have hd : Shallow g (g.admits .set {}) r (keys g r).ncard :=
      shallow_of_isFinite h fun _ _ => isFresh_of_admits
    refine ⟨elements g (g.admits .set {}) (keys g r).ncard r,
      search_elements c rfl rfl h.keyed hd, ?_, ?_⟩
    · intro b hb
      obtain ⟨m, -, hsteps⟩ := exists_steps_of_mem_elements hd hb
      exact ⟨m, hsteps⟩
    · rintro a ⟨n, hsteps⟩
      refine exists_mem_elements_of_steps hd hc hsteps fun p a _ hfresh => ?_
      rw [admits, hfresh]
      rfl
  · intro n hn
    have hiff : ∀ p a, g.admits .set { pred := some (.within n) } p a = true ↔
        g.isFresh p a = true ∧ (p.length : ℤ) < n := by
      intro p a
      simp [admits, Sieve.allows, Rule.allows]
    have hd : Shallow g (g.admits .set { pred := some (.within n) }) r n.toNat := by
      intro p a _ hadmits
      have hlt := ((hiff p a).1 hadmits).2
      omega
    refine ⟨elements g (g.admits .set { pred := some (.within n) }) n.toNat r,
      search_elements c rfl rfl h.keyed hd, ?_, ?_⟩
    · intro b hb
      obtain ⟨m, hm, hsteps⟩ := exists_steps_of_mem_elements hd hb
      exact ⟨m, by omega, hsteps⟩
    · intro a m hm hsteps
      refine exists_mem_elements_of_steps hd hc hsteps fun p a hp hfresh => ?_
      exact (hiff p a).2 ⟨hfresh, by omega⟩

/-- All three elements of the circle are reached, and two steps suffice for that. -/
theorem search_reaches_circle : IsFinite circle [.first] ∧ Congruent circle [.first] ∧
    ∃ L : List Corner, (∀ consume, search circle (scribe (β := Corner)).silent Form.elements
      { pred := some (.within 1) } .everything {} consume (.inr [.first]) =
        act (L.forM consume)) ∧
      ∃ b ∈ L, circle.keyOf b = some .third := by
  have finite : IsFinite circle [.first] := ⟨fun _ _ => rfl, Set.toFinite _⟩
  have congruent : Congruent circle [.first] := by
    intro a b _ _ hkey x hx
    cases hkey
    exact ⟨x, hx, rfl⟩
  obtain ⟨L, hsearch, -, hreached⟩ := (search_reaches scribe finite congruent).2 1 (le_refl 1)
  have one : Steps circle [.first] 1 .third := (Steps.start List.mem_cons_self).step (by decide)
  exact ⟨finite, congruent, L, hsearch, hreached .third 1 (le_refl _) one⟩

/-- Two equal elements, of which only the second leads on to the third. -/
def twins : Graph Corner Bool :=
  ofCorners (fun a => some (a == .third)) (fun a b => (a == .third) == (b == .third)) fun
    | .first => [.second]
    | .second => [.third]
    | .third => []

/-- The second twin is refused, as the first one is its ancestor, and what comes after it is not
reached. -/
theorem not_search_reaches_twins : IsFinite twins [.first] ∧ ¬ ∃ L : List Corner,
    (∀ consume, search twins (scribe (β := Corner)).silent Form.elements {} .everything {} consume
      (.inr [.first]) = act (L.forM consume)) ∧
    (∀ b ∈ L, Reachable twins [.first] b) ∧
    ∀ a, Reachable twins [.first] a → ∃ b ∈ L, twins.keyOf b = twins.keyOf a := by
  refine ⟨⟨fun _ _ => rfl, Set.toFinite _⟩, ?_⟩
  rintro ⟨L, hsearch, -, hreached⟩
  have given : search twins (scribe (β := Corner)).silent Form.elements {} .everything {} write
      (.inr [.first]) [] = some (.ok () [.inr .first, .inr .second]) :=
    (Machine.drive_eq_some_iff _ _).2 ⟨20, by decide +kernel⟩
  have listed : L = [.first, .second] := by
    rw [hsearch write, act_apply, forM_write] at given
    simp only [List.nil_append, Option.some.injEq, EStateM.Result.ok.injEq, true_and] at given
    exact List.map_injective_iff.2 Sum.inr_injective given
  have third : Reachable twins [.first] .third :=
    ⟨2, ((Steps.start List.mem_cons_self).step (b := .second) (by decide)).step (by decide)⟩
  obtain ⟨b, hb, hkey⟩ := hreached .third third
  rw [listed] at hb
  revert b
  decide

end GraphRoutes.Graph
