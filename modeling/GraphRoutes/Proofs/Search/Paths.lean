/-
**The tuples that a search for paths gives.**

A search for paths that cuts cycles and has no other tests gives the tuples of a tree: each element
of the route alone, and each tuple extended by the children of its last item, unless that item
occurs earlier in the tuple.  On a graph with finitely many keys the tree is finite, with cycles or
without, and the search gives its tuples in pre-order and ends.

A tuple occurs once for each way of choosing its items in the route and in the lists of children
(`GraphRoutes.Graph.ways`), provided that no two of its items but the last are equal.

Main definitions:

* `GraphRoutes.Graph.tuples` — the tuples that extend a tuple, in pre-order;
* `GraphRoutes.Graph.ways` — in how many ways a tuple can be chosen.

Main results:

* `GraphRoutes.Graph.count_tuples` — how often a tuple occurs;
* `GraphRoutes.Graph.search_paths` — **the search gives the tuples of the tree, in pre-order.**
-/
import GraphRoutes.Proofs.Search.Leaves
import GraphRoutes.Proofs.Search.Visits

set_option relaxedAutoImplicit false
set_option autoImplicit false

namespace GraphRoutes.Graph

open Course

variable {ω ε α κ β key : Type} (g : Graph α key)

/-! ### Walks, and the ways to choose them -/

section Ways

variable [DecidableEq α]

/-- The number of ways to choose a tuple: its first item in the route, and every other one among the
children of the item before it. -/
def ways : List α → List α → ℕ
  | _, [] => 1
  | as, x :: xs => as.count x * ways (g.succ x) xs

variable {g} in
/-- A tuple can be chosen if it is a walk from the route. -/
theorem ways_pos_iff {as q : List α} :
    0 < ways g as q ↔ (∀ x ∈ q.head?, x ∈ as) ∧ q.IsChain fun x y => y ∈ g.succ x := by
  induction q generalizing as with
  | nil => simp [ways]
  | cons x xs ih =>
      rw [ways, Nat.pos_iff_ne_zero, Nat.mul_ne_zero_iff, ← Nat.pos_iff_ne_zero, List.count_pos_iff,
        ← Nat.pos_iff_ne_zero, ih, List.isChain_cons]
      simp only [List.head?_cons, Option.mem_some_iff, forall_eq']

end Ways

/-! ### The tree of tuples -/

variable [DecidableEq key]

/-- Without other tests an element is admitted if no ancestor is equal to it. -/
theorem admits_default (kind : TrailKind) : g.admits kind {} = g.isFresh := by
  funext p a
  exact Bool.and_true _

/-- The tuples that extend `p ++ [a]` by at most `d` items, in pre-order. -/
def tuples (d : ℕ) (p : List α) (a : α) : List (List α) :=
  (visits g g.isFresh d p a).map fun v => v.1 ++ [v.2]

theorem flatMap_tuples (d : ℕ) (p as : List α) :
    as.flatMap (tuples g d p) = (as.flatMap (visits g g.isFresh d p)).map fun v => v.1 ++ [v.2] := by
  rw [List.map_flatMap]
  rfl

section Tree

variable {g} {r p : List α} {a : α} {D : ℕ}

theorem tuples_eq (hD : Shallow g g.isFresh r D) (h : Visited g g.isFresh r p a)
    (hd : D ≤ p.length + D) :
    tuples g D p a =
      (p ++ [a]) :: if g.isFresh p a then (g.succ a).flatMap (tuples g D (p ++ [a])) else [] := by
  rw [tuples, visits_eq hD h hd, List.map_cons]
  by_cases hfresh : g.isFresh p a = true
  · rw [if_pos hfresh, if_pos hfresh, List.map_flatMap]
    rfl
  · rw [if_neg hfresh, if_neg hfresh]
    rfl

theorem exists_append_of_mem_tuples {d : ℕ} {q : List α} (hq : q ∈ tuples g d p a) :
    ∃ as, q = p ++ a :: as := by
  obtain ⟨⟨p', b⟩, hv, rfl⟩ := List.mem_map.1 hq
  exact exists_append_of_mem_visits hv

/-- An item that occurs earlier, and is not the last, makes two equal items. -/
theorem not_nodup_of_not_isFresh (h : g.isFresh p a ≠ true) (x : α) (xs : List α) :
    ¬ ((p ++ a :: x :: xs).dropLast.map g.keyOf).Nodup := by
  have hmem : g.keyOf a ∈ p.map g.keyOf := not_not.1 fun hnew => h (isFresh_iff.2 hnew)
  have hdrop : (p ++ a :: x :: xs).dropLast = p ++ a :: (x :: xs).dropLast := by
    rw [List.dropLast_append_of_ne_nil (List.cons_ne_nil _ _), List.dropLast_cons_cons]
  rw [hdrop, List.map_append, List.map_cons]
  intro hnodup
  exact List.disjoint_of_nodup_append hnodup hmem List.mem_cons_self

variable [DecidableEq α]

/-- How often a tuple occurs among those that begin with an element `a` behind `p`. -/
theorem count_tuples_self (hD : Shallow g g.isFresh r D) (h : Visited g g.isFresh r p a)
    (x : α) (xs : List α)
    (ih : g.isFresh p a = true → ((g.succ a).flatMap (tuples g D (p ++ [a]))).count (p ++ [a] ++ xs) =
      if xs ≠ [] ∧ ((p ++ [a] ++ xs).dropLast.map g.keyOf).Nodup then ways g (g.succ a) xs else 0) :
    (tuples g D p a).count (p ++ x :: xs) =
      if a = x ∧ ((p ++ x :: xs).dropLast.map g.keyOf).Nodup then ways g (g.succ a) xs else 0 := by
  by_cases hax : a = x
  · subst hax
    rw [tuples_eq hD h (Nat.le_add_left _ _)]
    cases xs with
    | nil =>
        have hrest : (if g.isFresh p a = true then (g.succ a).flatMap (tuples g D (p ++ [a]))
            else []).count (p ++ [a]) = 0 := by
          by_cases hfresh : g.isFresh p a = true
          · simpa only [hfresh, if_true, List.append_nil, ne_eq, not_true, false_and, if_false]
              using ih hfresh
          · rw [if_neg hfresh, List.count_nil]
        have hnodup : (((p ++ [a]).dropLast).map g.keyOf).Nodup := by
          rw [List.dropLast_concat]
          exact h.nodup fun _ _ hfresh => hfresh
        rw [List.count_cons_self, hrest, if_pos ⟨rfl, hnodup⟩, ways]
    | cons y ys =>
        have hne : p ++ [a] ≠ p ++ a :: y :: ys := by simp
        have happend : p ++ [a] ++ y :: ys = p ++ a :: y :: ys := by simp
        rw [List.count_cons_of_ne hne]
        by_cases hfresh : g.isFresh p a = true
        · rw [if_pos hfresh, ← happend, ih hfresh]
          simp only [ne_eq, reduceCtorEq, not_false_eq_true, true_and]
        · rw [if_neg hfresh, List.count_nil, if_neg]
          exact fun hnodup => not_nodup_of_not_isFresh hfresh y ys hnodup.2
  · rw [if_neg fun hand => hax hand.1, List.count_eq_zero]
    intro hmem
    obtain ⟨as, has⟩ := exists_append_of_mem_tuples hmem
    have hcons := List.append_cancel_left has
    exact hax (List.cons.inj hcons).1.symm

/-- **How often a tuple occurs**: once for each way to choose it, if no two of its items but the last
are equal. -/
theorem count_tuples (hD : Shallow g g.isFresh r D) (xs : List α) (p as : List α)
    (has : ∀ a ∈ as, Visited g g.isFresh r p a) :
    (as.flatMap (tuples g D p)).count (p ++ xs) =
      if xs ≠ [] ∧ ((p ++ xs).dropLast.map g.keyOf).Nodup then ways g as xs else 0 := by
  induction xs generalizing p as with
  | nil =>
      rw [if_neg fun hand => hand.1 rfl, List.count_eq_zero, List.append_nil]
      intro hmem
      obtain ⟨a, _, hmem⟩ := List.mem_flatMap.1 hmem
      obtain ⟨as, has⟩ := exists_append_of_mem_tuples hmem
      simp at has
  | cons x xs ihxs =>
      induction as with
      | nil => simp [ways]
      | cons a as ihas =>
          have ha := has a List.mem_cons_self
          have hself := count_tuples_self hD ha x xs fun hfresh =>
            ihxs (p ++ [a]) (g.succ a) fun b hb => ha.step hfresh hb
          rw [List.flatMap_cons, List.count_append, hself,
            ihas fun b hb => has b (List.mem_cons_of_mem _ hb)]
          by_cases hnodup : ((p ++ x :: xs).dropLast.map g.keyOf).Nodup
          · simp only [hnodup, and_true, ne_eq, reduceCtorEq, not_false_eq_true, if_true, ways]
            by_cases hax : a = x
            · subst hax
              rw [if_pos rfl, List.count_cons_self, Nat.succ_mul, Nat.add_comm]
            · rw [if_neg hax, List.count_cons_of_ne hax, Nat.zero_add]
          · simp only [hnodup, and_false, if_false]

end Tree

/-- **The search for paths gives the tuples of the tree, in pre-order**, and ends: each tuple is
followed by its extensions by the children of its last item, unless that item occurs earlier in it.
A tuple is given once for each way to choose it, if it is a walk from the route on which no two items
but the last are equal. -/
theorem search_paths [DecidableEq α] (c : Caller ω ε α κ (List α)) (r : List α) (h : IsFinite g r) :
    ∃ extensions : List α → α → List (List α),
      (∀ p a, Visited g g.isFresh r p a → extensions p a =
        (p ++ [a]) :: if g.isFresh p a then (g.succ a).flatMap (extensions (p ++ [a])) else []) ∧
      (∀ consume, search g c.silent Form.paths {} .everything {} consume (.inr r) =
        act ((r.flatMap (extensions [])).forM consume)) ∧
      (∀ q, (r.flatMap (extensions [])).count q =
        if q ≠ [] ∧ (q.dropLast.map g.keyOf).Nodup then ways g r q else 0) ∧
      (∀ q, q ∈ r.flatMap (extensions []) ↔ q ≠ [] ∧ (∀ x ∈ q.head?, x ∈ r) ∧
        (q.IsChain fun x y => y ∈ g.succ x) ∧ (q.dropLast.map g.keyOf).Nodup) ∧
      ∀ q ∈ r.flatMap (extensions []), q.length ≤ (keys g r).ncard + 1 := by
  have hD : Shallow g g.isFresh r (keys g r).ncard := shallow_of_isFinite h fun _ _ hfresh => hfresh
  have hcount : ∀ q, (r.flatMap (tuples g (keys g r).ncard [])).count q =
      if q ≠ [] ∧ (q.dropLast.map g.keyOf).Nodup then ways g r q else 0 :=
    fun q => count_tuples hD q [] r fun a ha => Visited.start ha
  refine ⟨tuples g (keys g r).ncard, ?_, ?_, hcount, ?_, ?_⟩
  · intro p a hv
    exact tuples_eq hD hv (Nat.le_add_left _ _)
  · intro consume
    have hsearch := search_eq_visits g c Form.paths {} {} rfl rfl
      (by decide) rfl (fun p a hv => h.keyed a hv.reachable) ((admits_default g _).symm ▸ hD) consume
    rw [hsearch, admits_default, flatMap_tuples]
    simp only [List.forM_eq_forM, Form.paths, Trail.items_ofItems, List.forM_map]
  · intro q
    rw [← List.count_pos_iff, hcount q]
    by_cases hq : q ≠ [] ∧ (q.dropLast.map g.keyOf).Nodup
    · rw [if_pos hq, ways_pos_iff]
      constructor
      · rintro ⟨hhead, hchain⟩
        exact ⟨hq.1, hhead, hchain, hq.2⟩
      · rintro ⟨_, hhead, hchain, _⟩
        exact ⟨hhead, hchain⟩
    · rw [if_neg hq]
      constructor
      · exact fun hlt => absurd hlt (Nat.lt_irrefl 0)
      · rintro ⟨hne, _, _, hnodup⟩
        exact absurd ⟨hne, hnodup⟩ hq
  · intro q hq
    rw [flatMap_tuples] at hq
    obtain ⟨⟨p, a⟩, hv, rfl⟩ := List.mem_map.1 hq
    have hle := ((mem_visits_iff hD).1 hv).length_le hD
    simp only [List.length_append, List.length_singleton]
    omega

/-- A path around the circle can be chosen in two ways, and is given twice. -/
theorem search_paths_circle : IsFinite circle [.first] ∧ ∃ L : List (List Corner),
    (∀ consume, search circle (scribe (β := List Corner)).silent Form.paths {} .everything {} consume
      (.inr [.first]) = act (L.forM consume)) ∧ L.count [.first, .second, .first] = 2 := by
  have finite : IsFinite circle [.first] := ⟨fun _ _ => rfl, Set.toFinite _⟩
  obtain ⟨extensions, _, hsearch, hcount, _⟩ := search_paths circle scribe [.first] finite
  exact ⟨finite, _, hsearch, (hcount [.first, .second, .first]).trans (by decide)⟩

end GraphRoutes.Graph
