/-
**How often a search for paths gives a tuple of vertices.**

A search that cuts cycles refuses an element that is among its own ancestors.  It does not look at what its
siblings have given.  Two edges that lead from a vertex to the same other one are two children, and the
search goes along both of them; so does a loop that is found on both sides of its vertex.  A tuple of
vertices is therefore given once for each way through its vertices, edge by edge, and never for the same
way twice.  Where no two edges lead from a vertex to the same one, no tuple is given twice.

Wrapped vertices carry their way with them, and are equal all the same: what is counted are tuples of keys.

Main definitions:

* `GraphRoutes.Session.GraphElement.place` — the place of a vertex in its graph;
* `GraphRoutes.Session.World.placeGraph` — the places, with the edges along which a step leads;
* `GraphRoutes.Session.World.waysThrough` — the ways of a step, taken again and again, through vertices.

Main results:

* `GraphRoutes.Session.keyed_of_built` — a graph that calls have built has labels with keys;
* `GraphRoutes.Session.projects_elementGraph` — vertices are seen as their places;
* `GraphRoutes.Session.search_goes_each_way` — **a tuple is given once for each way through it.**
-/
import GraphRoutes.Proofs.Search.Closing
import GraphRoutes.Proofs.Search.Projection
import GraphRoutes.Proofs.Session.Calls
import GraphRoutes.Proofs.Session.Layers
import GraphRoutes.Proofs.Session.Records

set_option relaxedAutoImplicit false
set_option autoImplicit false

namespace GraphRoutes.Session

open World

variable {ω ε κ : Type} {graph i n : ℕ} {w : World} {h : Host} {s : Leg} {x : Value} {a b : GraphElement}
  {is : List ℕ}

/-- The place at which an element stands that is a vertex. -/
def placeOf (a : Node) : ℕ :=
  match a.base with
  | .vertex u _ => u.index
  | _ => 0

/-- The place of a vertex in its graph. -/
def GraphElement.place (a : GraphElement) : ℕ := placeOf a.value.form

/-- The key of the vertex at a place. -/
def vertexKey (graph i : ℕ) : Option Key := (Value.vertex ⟨graph, i⟩ none).key?

/-- **The places of vertices**, with the edges along which a step leads. -/
def World.placeGraph (w : World) (graph : ℕ) (s : Leg) : GraphRoutes.Graph ℕ ℕ where
  succ i := (w.alongEdges graph s i).map StoredEdge.arrival
  keyOf := some
  same := (· == ·)
  identical := (· == ·)
  identical_self := beq_self_eq_true

theorem placeOf_of_base {c : Node} (hc : c.base = .vertex ⟨graph, i⟩ none) : placeOf c = i := by
  rw [placeOf, hc]

/-- A vertex has the key of its place. -/
theorem key?_of_fits (ha : Fits graph .vertex a.value.form) :
    a.value.key? = vertexKey graph a.place := by
  obtain ⟨i, m, hbase, hnode, -⟩ := vertexOf?_of_form ha rfl
  rw [← Value.key?_base a.ofGraph, hnode, GraphElement.place, placeOf_of_base hbase, vertexKey,
    Value.key?_vertex, Value.key?_vertex]

/-- Tuples of vertices have the keys of their places. -/
theorem map_key?_eq {q : List GraphElement} (hq : ∀ a ∈ q, Fits graph .vertex a.value.form) :
    (q.map fun a => a.value.key?) = (q.map GraphElement.place).map (vertexKey graph) := by
  rw [List.map_map]
  exact List.map_congr_left fun a ha => key?_of_fits (hq a ha)

theorem map_map_key?_eq {L : List (List GraphElement)}
    (hL : ∀ q ∈ L, ∀ a ∈ q, Fits graph .vertex a.value.form) :
    L.map (List.map fun a => a.value.key?) =
      (L.map (List.map GraphElement.place)).map (List.map (vertexKey graph)) := by
  rw [List.map_map]
  exact List.map_congr_left fun q hq => map_key?_eq (hL q hq)

theorem vertexKey_injective (graph : ℕ) : Function.Injective (vertexKey graph) := by
  intro i j hij
  injection hij with hkeys
  injection hkeys with hkey
  injection hkey

/-- Only places of the route and of the ends of edges are reached. -/
theorem isFinite_placeGraph (w : World) (graph : ℕ) (s : Leg) (is : List ℕ) :
    (w.placeGraph graph s).IsFinite is where
  keyed _ _ := rfl
  finite := by
    let ends : List ℕ := (w.graphAt graph).edges.toList.flatMap fun r => [r.source, r.target]
    refine (List.finite_toSet (is ++ ends)).subset ?_
    rintro _ ⟨j, ⟨m, hsteps⟩, ⟨⟩⟩
    cases hsteps with
    | start hj => exact List.mem_append_left _ hj
    | step _ hj =>
        obtain ⟨e, he, rfl⟩ := List.mem_map.1 hj
        obtain ⟨r, hr, hsource, htarget⟩ := (mem_alongEdges_iff.1 he).stored
        have hmem : r ∈ (w.graphAt graph).edges.toList :=
          Array.mem_toList_iff.2 (Array.mem_of_getElem? hr)
        refine List.mem_append_right _ (List.mem_flatMap.2 ⟨r, hmem, ?_⟩)
        rw [StoredEdge.arrival]
        cases farEnd e.reached with
        | source => exact List.mem_cons.2 (.inl hsource.symm)
        | target => exact List.mem_cons.2 (.inr (List.mem_singleton.2 htarget.symm))

/-! ### Ways through vertices -/

/-- The ways of a step, taken again and again from the vertex at `i`, through the vertices at `is`. -/
def World.waysThrough (w : World) (graph : ℕ) (s : Leg) (i : ℕ) (is : List ℕ) : List (List StoredEdge) :=
  (w.ways graph (List.replicate is.length s) i).filter fun es => es.map StoredEdge.arrival = is

theorem irrefl_before (e : StoredEdge) : ¬ StoredEdge.Before e e := by
  rintro (⟨he, hf⟩ | ⟨-, hlt⟩)
  · cases he.symm.trans hf
  · exact Nat.lt_irrefl _ hlt

/-- **No way is counted twice.** -/
theorem nodup_waysThrough (w : World) (graph : ℕ) (s : Leg) (i : ℕ) (is : List ℕ) :
    (w.waysThrough graph s i is).Nodup := by
  refine List.Nodup.filter _ ((w.pairwise_ways graph _ i).imp ?_)
  rintro es _ hlex rfl
  induction es with
  | nil => cases hlex
  | cons e es ih =>
      cases hlex with
      | cons hlex => exact ih hlex
      | rel hbefore => exact irrefl_before e hbefore

/-- The ways through the first of the vertices begin with the edges to it. -/
theorem length_waysThrough_cons (w : World) (graph : ℕ) (s : Leg) (i j : ℕ) (is : List ℕ) :
    (w.waysThrough graph s i (j :: is)).length =
      ((w.alongEdges graph s i).map StoredEdge.arrival).count j * (w.waysThrough graph s j is).length := by
  have hbegin : w.waysThrough graph s i (j :: is) = (w.alongEdges graph s i).flatMap fun e =>
      if e.arrival = j then (w.waysThrough graph s j is).map (e :: ·) else [] := by
    rw [waysThrough, List.length_cons, List.replicate_succ, ways, List.filter_flatMap]
    refine List.flatMap_congr fun e _ => ?_
    rw [List.filter_map]
    by_cases he : e.arrival = j
    · subst he
      rw [if_pos rfl, waysThrough]
      refine congrArg _ (List.filter_congr fun es _ => ?_)
      simp
    · rw [if_neg he, List.map_eq_nil_iff, List.filter_eq_nil_iff]
      simp [he]
  rw [hbegin]
  induction w.alongEdges graph s i with
  | nil => simp
  | cons e es ih =>
      rw [List.flatMap_cons, List.length_append, ih, List.map_cons, List.count_cons]
      by_cases he : e.arrival = j
      · rw [if_pos he, List.length_map, if_pos (beq_iff_eq.2 he)]
        rw [Nat.succ_mul, Nat.add_comm]
      · rw [if_neg he, if_neg (by simpa using he)]
        simp

/-- **Vertices can be chosen one after the other in as many ways as there are ways through them.** -/
theorem ways_placeGraph (w : World) (graph : ℕ) (s : Leg) (i : ℕ) (is : List ℕ) :
    Graph.ways (w.placeGraph graph s) ((w.placeGraph graph s).succ i) is =
      (w.waysThrough graph s i is).length := by
  induction is generalizing i with
  | nil => rfl
  | cons j is ih => rw [length_waysThrough_cons, Graph.ways, ih]; rfl

/-! ### The search -/

section

variable (hkeyed : w.Keyed graph) (hlabelled : (legs [s]).Labelled w) (hn : 5 ≤ n)
  (hfuel : 2 * (w.graphAt graph).edges.size + (w.labelsOf s).length + 5 ≤ h.fuel)
include hkeyed hlabelled hn hfuel

/-- **Vertices are seen as their places.** -/
theorem projects_elementGraph :
    (elementGraph w (w.reachedAlong (h.up n) s)).Projects (w.placeGraph graph s)
      (fun a => Fits graph .vertex a.value.form) GraphElement.place where
  keyOf_eq_iff {a b} ha hb := by
    change some a.place = some b.place ↔ a.value.key? = b.value.key?
    rw [key?_of_fits ha, key?_of_fits hb, (vertexKey_injective graph).eq_iff, Option.some_inj]
  succ {a} ha := by
    obtain ⟨i, xs, u, hi, -, rfl, hforms⟩ := exists_reachedAlong hkeyed hlabelled hn hfuel ha
    have hplace : a.place = i := placeOf_of_base hi
    have hplaces := congrArg (List.map placeOf) hforms
    rw [List.map_map, List.map_map, List.map_map] at hplaces
    rw [hplace]
    refine hplaces.trans (List.map_congr_left fun e _ => ?_)
    exact placeOf_of_base (Element.base_reach ..)
  closed ha hb := (form_of_mem_reachedAlong hkeyed hlabelled hn hfuel ha hb).1

/-- **What a search for paths gives, as places**: tuples that begin on the route, no two of whose places but
the last are equal, as often as there are ways through them. -/
theorem exists_search_places (c : Graph.Caller ω ε GraphElement κ (List GraphElement))
    {r : List GraphElement} (hr : ∀ a ∈ r, Fits graph .vertex a.value.form)
    (hdistinct : (r.map fun a => a.value.key?).Nodup) :
    ∃ L : List (List GraphElement),
      (∀ consume, Graph.search (elementGraph w (w.reachedAlong (h.up n) s)) c.silent Graph.Form.paths {}
        .everything {} consume (.inr r) = Course.act (L.forM consume)) ∧
      (∀ q ∈ L, q ≠ [] ∧ ∀ a ∈ q, Fits graph .vertex a.value.form) ∧
      (∀ i is, (L.map (List.map GraphElement.place)).count (i :: is) =
        if i ∈ r.map GraphElement.place ∧ (i :: is).dropLast.Nodup then
          (w.waysThrough graph s i is).length else 0) ∧
      ((∀ i, ((w.alongEdges graph s i).map StoredEdge.arrival).Nodup) →
        (L.map (List.map GraphElement.place)).Nodup) := by
  obtain ⟨L, hsearch, hfits, hcount⟩ :=
    (projects_elementGraph hkeyed hlabelled hn hfuel).exists_search_paths c hr
      (fun a _ => isSome_keyOf_elementGraph _ _ a)
      (isFinite_placeGraph w graph s (r.map GraphElement.place))
  have hroute : (r.map GraphElement.place).Nodup := by
    rw [map_key?_eq hr] at hdistinct
    exact hdistinct.of_map
  refine ⟨L, hsearch, fun q hq => ⟨?_, hfits q hq⟩, fun i is => ?_, fun hlone => ?_⟩
  · rintro rfl
    have hmem := List.count_pos_iff.2 (List.mem_map_of_mem (f := List.map GraphElement.place) hq)
    rw [hcount, List.map_nil, if_neg fun hand => hand.1 rfl] at hmem
    exact absurd hmem (Nat.lt_irrefl 0)
  · have hnodup : ∀ q : List ℕ, (q.map (w.placeGraph graph s).keyOf).Nodup ↔ q.Nodup := fun q =>
      List.nodup_map_iff (Option.some_injective ℕ)
    rw [hcount]
    simp only [hnodup, ne_eq, reduceCtorEq, not_false_eq_true, true_and, Graph.ways, ways_placeGraph]
    by_cases hi : i ∈ r.map GraphElement.place
    · simp only [hi, true_and, List.count_eq_one_of_mem hroute hi, Nat.one_mul]
    · simp only [hi, false_and, if_false, List.count_eq_zero_of_not_mem hi, Nat.zero_mul, ite_self]
  · refine List.nodup_iff_count_le_one.2 fun q => ?_
    rw [hcount]
    split
    · exact Graph.ways_le_one hlone hroute q
    · exact Nat.zero_le 1

/-- **A search for paths gives a tuple of vertices once for each way through it.**  The route holds vertices
of the graph no two of which are equal, plain or wrapped, and the search takes the step `s` from each vertex
that it goes below.  What it gives are tuples of vertices, and a tuple is given if it begins on the route and
no two of its vertices but the last are equal: as often as there are different ways of the step through its
vertices, edge by edge.  So if no two edges lead from one vertex to the same other one, no tuple is given
twice.  The host that takes the steps must be so deep, and read so many items in one go, as one step takes. -/
theorem search_goes_each_way (c : Graph.Caller ω ε GraphElement κ (List GraphElement))
    (r : List GraphElement) (hr : ∀ a ∈ r, Fits graph .vertex a.value.form)
    (hdistinct : (r.map fun a => a.value.key?).Nodup) :
    ∃ L : List (List GraphElement),
      (∀ consume, Graph.search (elementGraph w (w.reachedAlong (h.up n) s)) c.silent Graph.Form.paths {}
        .everything {} consume (.inr r) = Course.act (L.forM consume)) ∧
      (∀ q ∈ L, ∃ i is, (q.map fun a => a.value.key?) = (i :: is).map (vertexKey graph)) ∧
      (∀ i is, (w.waysThrough graph s i is).Nodup ∧
        (L.map (List.map fun a => a.value.key?)).count ((i :: is).map (vertexKey graph)) =
          if (vertexKey graph i ∈ r.map fun a => a.value.key?) ∧ (i :: is).dropLast.Nodup then
            (w.waysThrough graph s i is).length else 0) ∧
      ((∀ i, ((w.alongEdges graph s i).map StoredEdge.arrival).Nodup) →
        (L.map (List.map fun a => a.value.key?)).Nodup) := by
  obtain ⟨L, hsearch, hfits, hcount, hlone⟩ :=
    exists_search_places hkeyed hlabelled hn hfuel c hr hdistinct
  have hinjective : Function.Injective (List.map (vertexKey graph)) :=
    List.map_injective_iff.2 (vertexKey_injective graph)
  have hkeys := map_map_key?_eq fun q hq => (hfits q hq).2
  refine ⟨L, hsearch, fun q hq => ?_, fun i is => ⟨nodup_waysThrough w graph s i is, ?_⟩, fun hnone => ?_⟩
  · obtain ⟨i, is, his⟩ := List.exists_cons_of_ne_nil (l := q.map GraphElement.place)
      fun hnil => (hfits q hq).1 (List.map_eq_nil_iff.1 hnil)
    exact ⟨i, is, his ▸ map_key?_eq (hfits q hq).2⟩
  · rw [hkeys, List.count_map_of_injective _ _ hinjective, hcount, map_key?_eq hr]
    simp only [List.mem_map_of_injective (vertexKey_injective graph)]
  · rw [hkeys]
    exact (hlone hnone).map hinjective

end

/-! ### Vertices with two edges between them -/

/-- A graph of two vertices with these edges. -/
def twoVertices (edges : List (EdgeRecord Value Value)) : World :=
  let vertices : Dictionary Key Value (Option Value) :=
    (Dictionary.empty.put (Value.str "a").spell (.str "a") none).put (Value.str "b").spell (.str "b") none
  { graphs := #[{ vertices, edges := edges.toArray }] }

theorem keyed_twoVertices {edges : List (EdgeRecord Value Value)}
    (hedges : ∀ r ∈ edges, r.label.key?.isSome) : (twoVertices edges).Keyed 0 :=
  fun r hr => hedges r (by simpa [twoVertices, graphAt] using hr)

/-- An edge there and an edge back: a step to both sides leads along each of them, and the search goes to
the second vertex twice. -/
theorem search_goes_each_way_opposite :
    let w := twoVertices [⟨0, 1, .str "road", none⟩, ⟨1, 0, .str "road", none⟩]
    let s : Leg := (.both, .null)
    let r := [lone 0]
    w.Keyed 0 ∧ (legs [s]).Labelled w ∧
      2 * (w.graphAt 0).edges.size + (w.labelsOf s).length + 5 ≤ (host 0).fuel ∧
      (∀ a ∈ r, Fits 0 .vertex a.value.form) ∧ (r.map fun a => a.value.key?).Nodup ∧
      ∃ L : List (List GraphElement),
        (∀ consume, Graph.search (elementGraph w (w.reachedAlong ((host 0).up 5) s)) Graph.scribe.silent
          Graph.Form.paths {} .everything {} consume (.inr r) = Course.act (L.forM consume)) ∧
        (L.map (List.map fun a => a.value.key?)).count ([0, 1].map (vertexKey 0)) = 2 := by
  intro w s r
  have hkeyed : w.Keyed 0 := keyed_twoVertices (by decide)
  have hlabelled : (legs [s]).Labelled w := ⟨⟨[], rfl, by decide⟩, trivial⟩
  have hroute : ∀ a ∈ r, Fits 0 .vertex a.value.form := by
    intro a ha
    obtain rfl := List.mem_singleton.1 ha
    exact ⟨rfl, 0, rfl⟩
  have hdistinct : (r.map fun a => a.value.key?).Nodup := List.nodup_singleton _
  obtain ⟨L, hsearch, -, hcount, -⟩ := search_goes_each_way hkeyed hlabelled (le_refl 5)
    (by decide : 2 * (w.graphAt 0).edges.size + (w.labelsOf s).length + 5 ≤ (host 0).fuel) Graph.scribe r
    hroute hdistinct
  refine ⟨hkeyed, hlabelled, by decide, hroute, hdistinct, L, hsearch, (hcount 0 [1]).2.trans ?_⟩
  decide +kernel

/-- Two edges from a vertex to the same other one: the search gives the tuple of both twice. -/
theorem not_search_goes_once_parallel :
    let w := twoVertices [⟨0, 1, .str "road", none⟩, ⟨0, 1, .str "road", none⟩]
    let s : Leg := (.outgoing, .null)
    ¬ ∀ L : List (List GraphElement),
      (∀ consume, Graph.search (elementGraph w (w.reachedAlong ((host 0).up 5) s)) Graph.scribe.silent
        Graph.Form.paths {} .everything {} consume (.inr [lone 0]) = Course.act (L.forM consume)) →
      (L.map (List.map fun a => a.value.key?)).Nodup := by
  intro w s hnodup
  have hkeyed : w.Keyed 0 := keyed_twoVertices (by decide)
  have hlabelled : (legs [s]).Labelled w := ⟨⟨[], rfl, by decide⟩, trivial⟩
  have hroute : ∀ a ∈ [lone 0], Fits 0 .vertex a.value.form := by
    intro a ha
    obtain rfl := List.mem_singleton.1 ha
    exact ⟨rfl, 0, rfl⟩
  obtain ⟨L, hsearch, hfits, hcount, -⟩ := exists_search_places hkeyed hlabelled (le_refl 5)
    (by decide : 2 * (w.graphAt 0).edges.size + (w.labelsOf s).length + 5 ≤ (host 0).fuel) Graph.scribe
    hroute (List.nodup_singleton _)
  have hplaces : (L.map (List.map GraphElement.place)).Nodup := by
    have hkeys := hnodup L hsearch
    rw [map_map_key?_eq fun q hq => (hfits q hq).2] at hkeys
    exact hkeys.of_map
  have hle := List.nodup_iff_count_le_one.1 hplaces [0, 1]
  have htwice : (L.map (List.map GraphElement.place)).count [0, 1] = 2 := (hcount 0 [1]).trans (by decide +kernel)
  rw [htwice] at hle
  exact absurd hle (by decide)

end GraphRoutes.Session
