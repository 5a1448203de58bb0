/-
**The ways along which steps lead, and the lineages that are left of them.**

Steps along edges lead from a vertex along ways: each step goes on from the vertex at which the last one
has arrived, along an edge that it finds on a side that it may take, and that has an allowed label.  One
edge may be found on both sides of one vertex, and is then followed forward on one way and back on
another.  Ways of as many steps stand in an order: at the first edge in which they differ, what was
reached against its direction stands first, and among edges of one direction the older one.

Whoever is tracked keeps a link to where it was reached.  Along the links of what is reached along a way
one finds the way again, edge by edge, and the vertices between.

Main definitions:

* `GraphRoutes.Session.Leg`, `GraphRoutes.Session.legs` — steps to the vertices at the far ends of edges;
* `GraphRoutes.Session.World.LeadsAlong`, `GraphRoutes.Session.World.Way` — edges and ways along which
  steps lead;
* `GraphRoutes.Session.World.ways` — all of them, in order;
* `GraphRoutes.StoredEdge.Before` — the order of edges at a vertex;
* `GraphRoutes.Session.traces` — the vertices and edges of a way, in turn.

Main results:

* `GraphRoutes.Element.path?_reach` — the lineage of what is reached is longer by one;
* `GraphRoutes.Session.World.mem_ways_iff`, `GraphRoutes.Session.World.pairwise_ways` — **all ways, and
  each of them once**;
* `GraphRoutes.Session.leads_legs` — steps lead to what is reached along the ways;
* `GraphRoutes.Session.path?_reachAlong` — **the lineage of what is reached along a way** is the way.
-/
import GraphRoutes.Proofs.Session.Tracking

set_option relaxedAutoImplicit false
set_option autoImplicit false

namespace GraphRoutes

namespace Element

variable {α : Type} {x y : Element α} {l : Layer}

/-- What is reached is linked to where it was reached. -/
theorem links_reach (hx : x.tracked = true) :
    (x.reach l y).links = x.strip.reach l y :: x.links := by
  cases x with
  | plain => cases hx
  | root | via => rfl

/-- **The lineage of what is reached** is longer by one. -/
theorem path?_reach (hx : x.tracked = true) :
    (x.reach l y).path? = x.path?.map (· ++ [x.strip.reach l y]) := by
  have hreached : (x.reach l y).tracked = true := tracked_reach hx
  have hsound : (x.reach l y).sound = x.sound := by
    rw [sound, sound, hreached, hx, brokenAt?_reach l x y hx]
  rw [path?, path?, hsound, backward, backward, if_pos hreached, if_pos hx, links_reach hx,
    List.reverse_cons]
  cases x.sound <;> rfl

end Element

/-- The order of the edges at a vertex: those that are reached against their direction, and then the
others, each in the order in which they were added. -/
inductive StoredEdge.Before : StoredEdge → StoredEdge → Prop
  | side {e f : StoredEdge} (he : e.reached = some .incoming) (hf : f.reached = some .outgoing) :
      Before e f
  | index {e f : StoredEdge} (hside : e.reached = f.reached) (hindex : e.index < f.index) : Before e f

/-- The vertex at which one arrives along an edge. -/
def StoredEdge.arrival (e : StoredEdge) : ℕ := e.endAt (farEnd e.reached)

namespace Session

open World

/-! ### Ways -/

/-- A step to the vertices at the far ends of the edges in a direction that have an allowed label. -/
abbrev Leg : Type := Direction × Value

/-- Such steps, one after the other. -/
def legs : List Leg → Hops .vertex .vertex
  | [] => .nil
  | (direction, labels) :: rest => .cons (.vertices direction labels) (legs rest)

variable {graph : ℕ} {w : World} {s : Leg} {S : List Leg} {i j : ℕ} {e f : StoredEdge}
  {es fs : List StoredEdge} {a b : Node}

/-- The labels to which a step is restricted. -/
def World.labelsOf (w : World) (s : Leg) : List Value := (w.labels? s.2).getD []

/-- A step leads from the vertex at `i` along an edge: the edge is in the graph, and was reached from a
side that the step may take, at `i`; its label is allowed. -/
structure World.LeadsAlong (w : World) (graph : ℕ) (s : Leg) (i : ℕ) (e : StoredEdge) : Prop where
  stored : ∃ r, (w.graphAt graph).edges[e.index]? = some r ∧ r.source = e.source ∧ r.target = e.target
  side : ∃ side ∈ s.1.sides, e.reached = some side
  departure : e.endAt (nearEnd e.reached) = i
  label : admits (w.labelsOf s) (w.edgeLabel (.stored graph e)) = true

/-- Steps lead from the vertex at `i` along a way, edge by edge. -/
inductive World.Way (w : World) (graph : ℕ) : List Leg → ℕ → List StoredEdge → Prop
  | nil (i : ℕ) : Way w graph [] i []
  | cons {s : Leg} {S : List Leg} {i : ℕ} {e : StoredEdge} {es : List StoredEdge}
      (he : w.LeadsAlong graph s i e) (hes : Way w graph S e.arrival es) :
      Way w graph (s :: S) i (e :: es)

/-- The edges along which a step leads, in order. -/
def World.alongEdges (w : World) (graph : ℕ) (s : Leg) (i : ℕ) : List StoredEdge :=
  s.1.sides.flatMap fun side => ((w.graphAt graph).incident i side).filter fun e =>
    admits (w.labelsOf s) (w.edgeLabel (.stored graph e))

/-- The ways along which steps lead, in order. -/
def World.ways (w : World) (graph : ℕ) : List Leg → ℕ → List (List StoredEdge)
  | [], _ => [[]]
  | s :: S, i => (w.alongEdges graph s i).flatMap fun e =>
      (w.ways graph S e.arrival).map (e :: ·)

/-- The edges on a side of a vertex are those of the graph that leave it on that side. -/
theorem mem_incident_iff {g : Graph} {side : Side} :
    e ∈ g.incident i side ↔ e.reached = some side ∧ e.endAt (nearEnd e.reached) = i ∧
      ∃ r, g.edges[e.index]? = some r ∧ r.source = e.source ∧ r.target = e.target := by
  rw [Store.incident_eq]
  constructor
  · intro he
    obtain ⟨⟨r, n⟩, hr, rfl⟩ := List.mem_map.1 he
    obtain ⟨hmem, hleft⟩ := List.mem_filter.1 hr
    have hn : g.edges.toList[n]? = some r := List.mem_zipIdx_iff_getElem?.1 hmem
    refine ⟨rfl, ?_, r, by rwa [Array.getElem?_toList] at hn, rfl, rfl⟩
    cases side <;> exact of_decide_eq_true hleft
  · rintro ⟨hreached, hnear, r, hr, hsource, htarget⟩
    obtain ⟨n, source, target, reached⟩ := e
    obtain rfl : reached = some side := hreached
    obtain rfl : r.source = source := hsource
    obtain rfl : r.target = target := htarget
    refine List.mem_map.2 ⟨(r, n), List.mem_filter.2 ⟨?_, ?_⟩, rfl⟩
    · rw [List.mem_zipIdx_iff_getElem?, Array.getElem?_toList]
      exact hr
    · cases side <;> exact decide_eq_true hnear

theorem mem_alongEdges_iff : e ∈ w.alongEdges graph s i ↔ w.LeadsAlong graph s i e := by
  simp only [alongEdges, List.mem_flatMap, List.mem_filter, mem_incident_iff]
  constructor
  · rintro ⟨side, hside, ⟨hreached, hnear, hstored⟩, hlabel⟩
    exact ⟨hstored, ⟨side, hside, hreached⟩, hnear, hlabel⟩
  · rintro ⟨hstored, ⟨side, hside, hreached⟩, hnear, hlabel⟩
    exact ⟨side, hside, ⟨hreached, hnear, hstored⟩, hlabel⟩

/-- **All ways** are found. -/
theorem World.mem_ways_iff : es ∈ w.ways graph S i ↔ w.Way graph S i es := by
  induction S generalizing i es with
  | nil =>
      rw [ways, List.mem_singleton]
      constructor
      · rintro rfl
        exact .nil i
      · rintro ⟨⟩
        rfl
  | cons s S ih =>
      simp only [ways, List.mem_flatMap, List.mem_map, mem_alongEdges_iff, ih]
      constructor
      · rintro ⟨e, he, es, hes, rfl⟩
        exact .cons he hes
      · intro hway
        cases hway with
        | cons he hes => exact ⟨_, he, _, hes, rfl⟩

/-! ### The order of the ways -/

theorem pairwise_incident (g : Graph) (i : ℕ) (side : Side) :
    (g.incident i side).Pairwise StoredEdge.Before := by
  have hindices : g.edges.toList.zipIdx.Pairwise fun x y => x.2 < y.2 := by
    rw [← List.pairwise_map (f := Prod.snd) (R := (· < ·)), List.zipIdx_map_snd]
    exact List.pairwise_lt_range'
  rw [Store.incident_eq, List.pairwise_map]
  exact (hindices.filter _).imp fun hlt => .index rfl hlt

theorem pairwise_alongEdges (w : World) (graph : ℕ) (s : Leg) (i : ℕ) :
    (w.alongEdges graph s i).Pairwise StoredEdge.Before := by
  have hside : ∀ side, (((w.graphAt graph).incident i side).filter fun e =>
      admits (w.labelsOf s) (w.edgeLabel (.stored graph e))).Pairwise StoredEdge.Before :=
    fun side => (pairwise_incident _ i side).filter _
  rw [alongEdges, List.pairwise_flatMap]
  refine ⟨fun side _ => hside side, ?_⟩
  have happart : ∀ e ∈ (w.graphAt graph).incident i .incoming,
      ∀ f ∈ (w.graphAt graph).incident i .outgoing, StoredEdge.Before e f := fun e he f hf =>
    .side (mem_incident_iff.1 he).1 (mem_incident_iff.1 hf).1
  cases s.1 with
  | outgoing | incoming => exact List.pairwise_singleton _ _
  | both =>
      refine List.pairwise_pair.2 fun e he f hf => ?_
      exact happart e (List.mem_of_mem_filter he) f (List.mem_of_mem_filter hf)

/-- **Ways stand in order**, so each of them stands once. -/
theorem World.pairwise_ways (w : World) (graph : ℕ) (S : List Leg) (i : ℕ) :
    (w.ways graph S i).Pairwise (List.Lex StoredEdge.Before) := by
  induction S generalizing i with
  | nil => exact List.pairwise_singleton _ _
  | cons s S ih =>
      rw [ways, List.pairwise_flatMap]
      refine ⟨fun e _ => List.pairwise_map.2 ((ih _).imp .cons), ?_⟩
      refine (pairwise_alongEdges w graph s i).imp fun hbefore es hes fs hfs => ?_
      obtain ⟨es, -, rfl⟩ := List.mem_map.1 hes
      obtain ⟨fs, -, rfl⟩ := List.mem_map.1 hfs
      exact .rel hbefore

/-! ### What is reached along a way -/

/-- A plain vertex of a graph. -/
def vertexNode (graph i : ℕ) : Node := .plain (.vertex ⟨graph, i⟩ none)

/-- A plain edge of a graph. -/
def edgeNode (graph : ℕ) (e : StoredEdge) : Node := .plain (.edge (.stored graph e) none)

/-- What is reached from a vertex along the edges of a way. -/
def reachAlong (graph : ℕ) (a : Node) : List StoredEdge → Node
  | [] => a
  | e :: es =>
    reachAlong graph ((a.reach .edge (edgeNode graph e)).reach .vertex (vertexNode graph e.arrival)) es

/-- The vertices and edges of a way that begins at the vertex at `i`, in turn. -/
def traces (graph i : ℕ) (es : List StoredEdge) : List Node :=
  vertexNode graph i :: es.flatMap fun e => [edgeNode graph e, vertexNode graph e.arrival]

/-- The edges along which a step leads, as they are reached. -/
theorem edgesFrom_eq (ha : a.base = .vertex ⟨graph, i⟩ none) (s : Leg) :
    w.edgesFrom s.1 s.2 a = (w.alongEdges graph s i).map fun e => a.reach .edge (edgeNode graph e) := by
  have hedges : ∀ side, w.edgesOf a side (w.labelsOf s) =
      (((w.graphAt graph).incident i side).filter fun e =>
        admits (w.labelsOf s) (w.edgeLabel (.stored graph e))).map fun e =>
          a.reach .edge (edgeNode graph e) := by
    intro side
    rw [edgesOf, ha]
    change ((((w.graphAt graph).incident i side).map (EdgeRef.stored graph)).filter _).map _ = _
    rw [List.filter_map, List.map_map]
    rfl
  rw [edgesFrom, alongEdges, List.map_flatMap]
  exact List.flatMap_congr fun side _ => hedges side

theorem leads_leg (ha : a.base = .vertex ⟨graph, i⟩ none) (s : Leg) :
    (Hop.vertices s.1 s.2).leads w a = (w.alongEdges graph s i).map fun e =>
      (a.reach .edge (edgeNode graph e)).reach .vertex (vertexNode graph e.arrival) := by
  have hfar : ∀ e, w.endOf (farEnd (reachedFrom (a.reach .edge (edgeNode graph e))))
      (a.reach .edge (edgeNode graph e)) =
        (a.reach .edge (edgeNode graph e)).reach .vertex (vertexNode graph e.arrival) := by
    intro e
    have hbase : (a.reach .edge (edgeNode graph e)).base = .edge (.stored graph e) none :=
      Element.base_reach ..
    rw [endOf, reachedFrom, hbase]
    rfl
  rw [Hop.leads, along, edgesFrom_eq ha, List.map_map]
  exact List.map_congr_left fun e _ => hfar e

/-- **Steps lead to what is reached along their ways.** -/
theorem leads_legs (ha : a.base = .vertex ⟨graph, i⟩ none) (S : List Leg) :
    (legs S).leads w a = (w.ways graph S i).map (reachAlong graph a) := by
  induction S generalizing a i with
  | nil => rfl
  | cons s S ih =>
      rw [legs, Hops.leads, leads_leg ha, ways, List.map_flatMap, List.flatMap_map]
      refine List.flatMap_congr fun e _ => ?_
      rw [ih (Element.base_reach ..), List.map_map]
      rfl

theorem tracked_reachAlong (ha : a.tracked = true) (es : List StoredEdge) :
    (reachAlong graph a es).tracked = true := by
  induction es generalizing a with
  | nil => exact ha
  | cons e es ih => exact ih (Element.tracked_reach (Element.tracked_reach ha))

/-- **The lineage of what is reached along a way** from where tracking began is the way. -/
theorem path?_reachAlong (ha : a.tracked = true) (hstrip : a.strip = vertexNode graph i) {p : List Node}
    (hp : a.path? = some p) (es : List StoredEdge) :
    (reachAlong graph a es).path? =
      some (p ++ es.flatMap fun e => [edgeNode graph e, vertexNode graph e.arrival]) := by
  induction es generalizing a i p with
  | nil => rw [reachAlong, hp, List.flatMap_nil, List.append_nil]
  | cons e es ih =>
      have hedge : (a.reach .edge (edgeNode graph e)).strip = edgeNode graph e := by
        rw [Element.strip_reach ha, hstrip]
        rfl
      have htracked := Element.tracked_reach (l := .edge) (y := edgeNode graph e) ha
      have hvertex : ((a.reach .edge (edgeNode graph e)).reach .vertex
          (vertexNode graph e.arrival)).strip = vertexNode graph e.arrival := by
        rw [Element.strip_reach htracked, hedge]
        rfl
      have hpath : ((a.reach .edge (edgeNode graph e)).reach .vertex
          (vertexNode graph e.arrival)).path? =
            some (p ++ [edgeNode graph e] ++ [vertexNode graph e.arrival]) := by
        rw [Element.path?_reach htracked, Element.path?_reach ha, hp, hedge, hstrip]
        rfl
      rw [reachAlong, ih (Element.tracked_reach htracked) hvertex hpath, List.flatMap_cons]
      simp only [List.append_assoc, List.cons_append, List.nil_append]

end Session

end GraphRoutes
