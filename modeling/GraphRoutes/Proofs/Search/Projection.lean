/-
**Graphs seen through a map.**

Elements may carry more than what tells them apart: a wrapped vertex carries the way along which it was
reached.  A search sees none of it.  If a map takes equal elements to equal ones and different elements to
different ones, and takes the children of an element to the children of its image, one by one, then the
search on the first graph is seen through the map as the search on the second.  So the tuples of the first
can be counted on the second, where nothing is carried.

Main definitions:

* `GraphRoutes.Graph.Projects` — a map from one graph to another that keeps what a search sees.

Main results:

* `GraphRoutes.Graph.Projects.tuples_map` — **the tuples are seen as tuples**;
* `GraphRoutes.Graph.Projects.exists_search_paths` — what a search for paths gives, as it is seen;
* `GraphRoutes.Graph.ways_le_one` — a tuple can be chosen in one way only, if no children are equal.
-/
import GraphRoutes.Proofs.Search.Paths

set_option relaxedAutoImplicit false
set_option autoImplicit false

namespace GraphRoutes.Graph

open Course

variable {ω ε α α' κ key key' : Type}

/-- **The map `f` keeps what a search sees** of the elements in `P`: whether they are equal, and their
children, in order. -/
structure Projects (g : Graph α key) (g' : Graph α' key') (P : α → Prop) (f : α → α') : Prop where
  keyOf_eq_iff {a b : α} : P a → P b → (g'.keyOf (f a) = g'.keyOf (f b) ↔ g.keyOf a = g.keyOf b)
  succ {a : α} : P a → (g.succ a).map f = g'.succ (f a)
  closed {a b : α} : P a → b ∈ g.succ a → P b

/-- A tuple can be chosen in at most one way from candidates no two of which are equal. -/
theorem ways_le_one [DecidableEq α] {g : Graph α key} (hsucc : ∀ a, (g.succ a).Nodup) {as : List α}
    (has : as.Nodup) (q : List α) : ways g as q ≤ 1 := by
  induction q generalizing as with
  | nil => exact le_refl 1
  | cons x xs ih => exact Nat.mul_le_mul (List.nodup_iff_count_le_one.1 has x) (ih (hsucc x))

namespace Projects

variable [DecidableEq key] [DecidableEq key'] {g : Graph α key} {g' : Graph α' key'} {P : α → Prop}
  {f : α → α'} {r p : List α} {a : α}

theorem isFresh_map (h : Projects g g' P f) (hp : ∀ x ∈ p, P x) (ha : P a) :
    g'.isFresh (p.map f) (f a) = g.isFresh p a := by
  rw [Bool.eq_iff_iff, isFresh_iff, isFresh_iff, List.map_map, List.mem_map, List.mem_map]
  refine not_congr (exists_congr fun x => and_congr_right fun hx => ?_)
  exact h.keyOf_eq_iff (hp x hx) ha

theorem forall_mem_concat (hp : ∀ x ∈ p, P x) (ha : P a) : ∀ x ∈ p ++ [a], P x := by
  intro x hx
  rcases List.mem_append.1 hx with hx | hx
  · exact hp x hx
  · exact List.mem_singleton.1 hx ▸ ha

/-- **The visits are seen as visits.** -/
theorem visits_map (h : Projects g g' P f) (d : ℕ) (hp : ∀ x ∈ p, P x) (ha : P a) :
    (visits g g.isFresh d p a).map (fun v => (v.1.map f, f v.2)) =
      visits g' g'.isFresh d (p.map f) (f a) := by
  induction d generalizing p a with
  | zero => rfl
  | succ d ih =>
      rw [visits, visits, List.map_cons, h.isFresh_map hp ha]
      congr 1
      cases g.isFresh p a with
      | false => rfl
      | true =>
          have hmap : p.map f ++ [f a] = (p ++ [a]).map f := by rw [List.map_append]; rfl
          rw [if_pos rfl, if_pos rfl, List.map_flatMap, ← h.succ ha, List.flatMap_map, hmap]
          refine List.flatMap_congr fun b hb => ih (forall_mem_concat hp ha) (h.closed ha hb)

/-- **The tuples are seen as tuples.** -/
theorem tuples_map (h : Projects g g' P f) (d : ℕ) (hr : ∀ a ∈ r, P a) :
    (r.flatMap (tuples g d [])).map (List.map f) = (r.map f).flatMap (tuples g' d []) := by
  rw [List.map_flatMap, List.flatMap_map]
  refine List.flatMap_congr fun a ha => ?_
  have hvisits := h.visits_map d (p := []) nofun (hr a ha)
  rw [List.map_nil] at hvisits
  rw [tuples, tuples, ← hvisits, List.map_map, List.map_map]
  refine List.map_congr_left fun v _ => ?_
  simp only [Function.comp_apply, List.map_append, List.map_cons, List.map_nil]

/-- What is visited is seen as visited. -/
theorem visited_map (h : Projects g g' P f) (hr : ∀ a ∈ r, P a) (hv : Visited g g.isFresh r p a) :
    (∀ x ∈ p, P x) ∧ P a ∧ Visited g' g'.isFresh (r.map f) (p.map f) (f a) := by
  induction hv with
  | start ha => exact ⟨nofun, hr _ ha, .start (List.mem_map_of_mem ha)⟩
  | @step p a b _ hfresh hb ih =>
      obtain ⟨hp, ha, hv⟩ := ih
      refine ⟨forall_mem_concat hp ha, h.closed ha hb, ?_⟩
      rw [List.map_append]
      refine hv.step ?_ ?_
      · rw [h.isFresh_map hp ha]
        exact hfresh
      · rw [← h.succ ha]
        exact List.mem_map_of_mem hb

theorem shallow (h : Projects g g' P f) (hr : ∀ a ∈ r, P a) {D : ℕ}
    (hD : Shallow g' g'.isFresh (r.map f) D) : Shallow g g.isFresh r D := by
  intro p a hv hfresh
  obtain ⟨hp, ha, hv'⟩ := h.visited_map hr hv
  rw [← List.length_map (f := f)]
  exact hD _ _ hv' ((h.isFresh_map hp ha).trans hfresh)

/-- **What a search for paths gives, as it is seen**: as often as the tuple can be chosen on the second
graph, if no two of its items but the last are equal. -/
theorem exists_search_paths [DecidableEq α'] (h : Projects g g' P f) (c : Caller ω ε α κ (List α))
    (hr : ∀ a ∈ r, P a) (hkeyed : ∀ a, P a → (g.keyOf a).isSome) (hfinite : IsFinite g' (r.map f)) :
    ∃ L : List (List α),
      (∀ consume, search g c.silent Form.paths {} .everything {} consume (.inr r) =
        act (L.forM consume)) ∧
      (∀ q ∈ L, ∀ a ∈ q, P a) ∧
      ∀ q, (L.map (List.map f)).count q =
        if q ≠ [] ∧ (q.dropLast.map g'.keyOf).Nodup then ways g' (r.map f) q else 0 := by
  have hD' := shallow_of_isFinite hfinite fun _ _ hfresh => hfresh
  have hD := h.shallow hr hD'
  refine ⟨r.flatMap (tuples g (keys g' (r.map f)).ncard []), fun consume => ?_, fun q hq a ha => ?_,
    fun q => ?_⟩
  · have hsearch := search_eq_visits g c Form.paths {} {} rfl rfl (by decide) rfl
      (fun p a hv => by
        rw [admits_default] at hv
        exact hkeyed a (h.visited_map hr hv).2.1)
      ((admits_default g _).symm ▸ hD) consume
    rw [hsearch, admits_default, flatMap_tuples]
    simp only [List.forM_eq_forM, Form.paths, Trail.items_ofItems, List.forM_map]
  · rw [flatMap_tuples] at hq
    obtain ⟨⟨p, b⟩, hv, rfl⟩ := List.mem_map.1 hq
    obtain ⟨hp, hb, -⟩ := h.visited_map hr ((mem_visits_iff hD).1 hv)
    exact forall_mem_concat hp hb a ha
  · rw [h.tuples_map _ hr]
    exact count_tuples hD' q [] (r.map f) fun a ha => .start ha

end Projects

end GraphRoutes.Graph
