/-
**All edges of a graph, collected from its vertices.**

What is on a lineage is told by the form of an element.  If all vertices of a graph are wrapped, one by one or
as the vertices of the wrapped graph, and a route leads out of them, then each edge of the graph is on the
lineage of one item: the graph of these lineages has lost nothing but the vertices without edges.

Main definitions:

* `GraphRoutes.Session.wrappedOneByOne`, `GraphRoutes.Session.wrappedTogether` — all vertices of a graph,
  wrapped;
* `GraphRoutes.Session.subgraphOut` — the graph of the lineages of the edges that lead out of a route.

Main results:

* `GraphRoutes.Session.rooted_of_form`, `GraphRoutes.Session.edgesOn_eq` — lineages by their forms;
* `GraphRoutes.Session.perm_outEdges` — each edge leads out of one vertex;
* `GraphRoutes.Session.subgraph_copies` — **the graph of the lineages of a route is a copy of the edges that
  are met**, and from all vertices all edges are met.
-/
import GraphRoutes.Proofs.Session.Collections
import GraphRoutes.Proofs.Session.Copies

set_option relaxedAutoImplicit false
set_option autoImplicit false

namespace GraphRoutes.Session

open World

variable {graph place i k n : ℕ} {t u v w : World} {g : Graph} {L : Register} {h H : Host}
  {x route : Value} {xs : List Value} {a : Node} {as : List Node} {e : StoredEdge}

/-! ### Lineages by their forms -/

theorem edgeUnder?_unmark (a : Node) : edgeUnder? (a.unmark (Value.withMark none)) = edgeUnder? a := by
  rw [edgeUnder?, edgeUnder?, Element.base_unmark]
  cases a.base with
  | edge e m => cases e <;> rfl
  | _ => rfl

/-- An element without its marks is of a graph if it is so with them. -/
theorem owns_of_unmark (ha : w.Owns graph (a.unmark (Value.withMark none))) : w.Owns graph a := by
  cases ha with
  | vertex ha =>
      rw [Element.base_unmark] at ha
      cases hbase : a.base with
      | vertex u m =>
          rw [hbase] at ha
          cases ha
          exact .vertex hbase
      | _ =>
          rw [hbase] at ha
          cases ha
  | edge ha he =>
      rw [Element.base_unmark] at ha
      cases hbase : a.base with
      | edge f m =>
          rw [hbase] at ha
          cases ha
          exact .edge hbase he
      | _ =>
          rw [hbase] at ha
          cases ha

/-- A lineage can be read if that of the form can. -/
theorem rooted_of_form (hx : x.form.path? = some as) (has : ∀ a ∈ as, w.Owns graph a) :
    w.Rooted graph x := by
  rw [Value.form, Element.path?_unmark] at hx
  obtain ⟨items, hitems, rfl⟩ := Option.map_eq_some_iff.1 hx
  exact ⟨items, hitems, fun a ha => owns_of_unmark (has _ (List.mem_map_of_mem ha))⟩

/-- The edges on a lineage are those on the lineage of the form. -/
theorem edgesOn_eq (x : Value) : edgesOn x = (x.form.path?.getD []).filterMap edgeUnder? := by
  rw [edgesOn, Value.form, Element.path?_unmark]
  cases x.node.path? with
  | none => rfl
  | some items =>
      rw [Option.map_some, Option.getD_some, Option.getD_some, List.filterMap_map]
      exact List.filterMap_congr fun a _ => (edgeUnder?_unmark a).symm

/-! ### The edges that lead out of all vertices -/

/-- A step to the edges that lead out of a vertex, whatever their labels. -/
def outward : Leg := (.outgoing, .null)

/-- The edges that lead out of the vertices of a graph, vertex by vertex. -/
def World.outEdges (w : World) (graph n : ℕ) : List StoredEdge :=
  (List.range n).flatMap (w.alongEdges graph outward)

theorem leadsAlong_outward : w.LeadsAlong graph outward i e ↔
    w.Stores graph e ∧ e.reached = some .outgoing ∧ e.source = i := by
  constructor
  · rintro ⟨hstored, ⟨side, hside, hreached⟩, hdeparture, -⟩
    obtain rfl := List.mem_singleton.1 hside
    rw [hreached] at hdeparture
    exact ⟨hstored, hreached, hdeparture⟩
  · rintro ⟨hstored, hreached, hsource⟩
    refine ⟨hstored, ⟨.outgoing, List.mem_singleton.2 rfl, hreached⟩, ?_, rfl⟩
    rw [hreached]
    exact hsource

/-- The source of an edge is one of the vertices. -/
theorem source_lt (hshows : g.Shows Value.key? L) {r : EdgeRecord Value Value}
    (hr : g.edges[k]? = some r) : r.source < g.vertexCount := by
  obtain ⟨hlt, rfl⟩ := Array.getElem?_eq_some_iff.1 hr
  have hlt' : k < L.edges.length := hshows.edges.length_eq ▸ hlt
  have hrecords := hshows.edges.get hlt hlt'
  obtain ⟨v, hv, -⟩ := Option.map_eq_some_iff.1 hrecords.source
  rw [hshows.vertexCount_eq]
  exact (List.getElem?_eq_some_iff.1 hv).1

/-- **Each edge leads out of one vertex.** -/
theorem perm_outEdges (hg : w.graphs[graph]? = some g) (hshows : g.Shows Value.key? L) :
    ((w.outEdges graph g.vertexCount).map (·.index)).Perm (List.range g.edges.size) := by
  have hat := graphAt_eq hg
  have hnodup : ((w.outEdges graph g.vertexCount).map (·.index)).Nodup := by
    rw [outEdges, List.map_flatMap, List.nodup_flatMap]
    refine ⟨fun i _ => ?_, List.pairwise_iff_getElem.2 fun i j hi hj hij => ?_⟩
    · rw [List.nodup_iff_pairwise_ne, List.pairwise_map]
      refine (pairwise_alongEdges w graph outward i).imp_of_mem fun he hf hbefore => ?_
      have he := (leadsAlong_outward.1 (mem_alongEdges_iff.1 he)).2.1
      cases hbefore with
      | side hin => cases hin.symm.trans he
      | index _ hindex => exact Nat.ne_of_lt hindex
    · rw [List.getElem_range, List.getElem_range]
      intro k hk hk'
      obtain ⟨e, he, rfl⟩ := List.mem_map.1 hk
      obtain ⟨f, hf, hindex⟩ := List.mem_map.1 hk'
      obtain ⟨⟨r, hr, hsource, -⟩, -, rfl⟩ := leadsAlong_outward.1 (mem_alongEdges_iff.1 he)
      obtain ⟨⟨r', hr', hsource', -⟩, -, rfl⟩ := leadsAlong_outward.1 (mem_alongEdges_iff.1 hf)
      rw [hindex, hr] at hr'
      cases hr'
      exact Nat.ne_of_lt hij (hsource.symm.trans hsource')
  refine (List.perm_ext_iff_of_nodup hnodup List.nodup_range).2 fun k => ?_
  rw [List.mem_map, List.mem_range]
  constructor
  · rintro ⟨e, he, rfl⟩
    obtain ⟨i, -, he⟩ := List.mem_flatMap.1 he
    obtain ⟨⟨r, hr, -⟩, -⟩ := leadsAlong_outward.1 (mem_alongEdges_iff.1 he)
    rw [hat] at hr
    exact (Array.getElem?_eq_some_iff.1 hr).1
  · intro hk
    have hr := Array.getElem?_eq_getElem hk
    refine ⟨⟨k, g.edges[k].source, g.edges[k].target, some .outgoing⟩, List.mem_flatMap.2
      ⟨g.edges[k].source, List.mem_range.2 (source_lt hshows hr), ?_⟩, rfl⟩
    exact mem_alongEdges_iff.2 (leadsAlong_outward.2 ⟨⟨_, hat ▸ hr, rfl, rfl⟩, rfl, rfl⟩)

/-! ### All vertices, wrapped -/

/-- A vertex of a graph that has just been wrapped. -/
def rootNode (graph i : ℕ) : Node := .root .vertex (vertexNode graph i) none

/-- All vertices of a graph, each of them wrapped, as a list. -/
def wrappedOneByOne (H : Host) (graph : ℕ) : M Value := do
  let vertices ← H.ask graph .allVertices []
  let vs ← H.items vertices
  let xs ← vs.mapM fun v => H.callOp .track [v] []
  World.newList xs.toArray

/-- All vertices of a graph that is wrapped itself. -/
def wrappedTogether (H : Host) (graph : ℕ) : M Value := do
  let tracked ← H.callOp .track [.ref .graph graph] []
  H.callMember .allVertices tracked [] []

/-- The graph of the lineages of the edges that lead out of a route. -/
def subgraphOut (H : Host) (route : Value) : M Value := do
  let edges ← H.callOp (.step { direction := .outgoing, gives := .edges, grouped := false })
    [route, .null] []
  H.callOp .subgraph [edges] []

theorem fits_vertexNode (graph i : ℕ) : Fits graph .vertex (vertexNode graph i) := ⟨rfl, i, rfl⟩

theorem map_form_vertexAt {ys : List Value}
    (hys : List.Forall₂ Handed ((List.range n).map (vertexAt graph)) ys) :
    ys.map Value.form = (List.range n).map (vertexNode graph) := by
  rw [map_form_of_handed hys, List.map_map]
  rfl

/-- Vertices that are wrapped one by one. -/
theorem mapM_track {xs : List Value} (hxs : ∀ x ∈ xs, Fits graph .vertex x.form) (H : Host) (w : World) :
    ∃ ys u, xs.mapM (fun x => H.callOp .track [x] []) w = .ok ys u ∧ Spares ∅ w u ∧
      ys.map Value.form = (xs.map Value.form).map fun a => .root .vertex a none := by
  induction xs generalizing w with
  | nil => exact ⟨[], w, rfl, .refl ∅ w, rfl⟩
  | cons x xs ih =>
      rw [List.forall_mem_cons] at hxs
      obtain ⟨y, v, htrack, hspares, hy⟩ := callOp_track hxs.1 H w
      obtain ⟨ys, u, hrest, hspares', hys⟩ := ih hxs.2 v
      refine ⟨y :: ys, u, ?_, hspares.trans hspares', ?_⟩
      · rw [List.mapM_cons, Act.bind_of_ok htrack, Act.bind_of_ok hrest]
        rfl
      · rw [List.map_cons, List.map_cons, List.map_cons, hy, hys]

/-- All vertices, wrapped one by one, are a route. -/
theorem exists_wrappedOneByOne (hg : w.graphs[graph]? = some g) (hshows : g.Shows Value.key? L)
    (hfuel : g.vertexCount < H.fuel) (hfuel' : 0 < h.fuel) :
    ∃ route v P, wrappedOneByOne H.above graph w = .ok route v ∧ v.graphs = w.graphs ∧
      Routed h 3 False route ((List.range g.vertexCount).map (rootNode graph)) P v := by
  obtain ⟨xs, marks, hall, hxs⟩ := exists_allVertices hg hshows
  rw [← hshows.vertexCount_eq] at hxs
  let t : World := { w with marks, lists := w.lists.push xs.toArray }
  have hask : H.above.ask graph .allVertices [] w = .ok (.ref .list w.lists.size) t :=
    (Act.bind_of_ok hall).trans rfl
  have hcollection : t.collection? (.ref .list w.lists.size) = some xs := by
    rw [collection?, listAt_push]
  have hlength : xs.length < H.fuel := by
    rw [← hxs.length_eq, List.length_map, List.length_range]
    exact hfuel
  obtain ⟨ys, u, hitems, hys, hkeeps⟩ := exists_items_collection hcollection hlength
  have hforms : ys.map Value.form = (List.range g.vertexCount).map (vertexNode graph) := by
    rw [map_form_of_handed hys, map_form_vertexAt hxs]
  have hfits : ∀ y ∈ ys, Fits graph .vertex y.form := by
    intro y hy
    obtain ⟨i, -, hi⟩ := List.mem_map.1 (hforms ▸ List.mem_map_of_mem hy)
    exact hi ▸ fits_vertexNode graph i
  obtain ⟨zs, v, htrack, hspares, hzs⟩ := mapM_track hfits H.above u
  obtain ⟨vs, marks', hlist, hvs⟩ := exists_newList zs v
  have hroots : vs.map Value.form = (List.range g.vertexCount).map (rootNode graph) := by
    rw [map_form_of_handed hvs, hzs, hforms, List.map_map]
    rfl
  let r : World := { v with marks := marks', lists := v.lists.push vs.toArray }
  have hroute : r.collection? (.ref .list v.lists.size) = some vs := by
    rw [collection?, listAt_push]
  have hrouted := (routed_collection rfl hroute hfuel').mono (by decide : 1 ≤ 3)
  rw [hroots] at hrouted
  refine ⟨.ref .list v.lists.size, r, ∅, ?_, ?_, hrouted⟩
  · exact (Act.bind_of_ok hask).trans ((Act.bind_of_ok hitems).trans ((Act.bind_of_ok htrack).trans hlist))
  · exact hspares.graphs_eq.trans hkeeps.graphs_eq

/-- The vertices of a graph that is wrapped are a route, and wrapped. -/
theorem exists_wrappedTogether (hg : w.graphs[graph]? = some g) (hshows : g.Shows Value.key? L)
    (hfuel : 0 < h.fuel) :
    ∃ route v P, wrappedTogether H graph w = .ok route v ∧ v.graphs = w.graphs ∧
      Routed h 3 False route ((List.range g.vertexCount).map (rootNode graph)) P v := by
  obtain ⟨tracked, marks, hout, hhanded⟩ := exists_handOut (.trackedGraph (.ref .graph graph) none) w
  obtain ⟨m, rfl⟩ := hhanded.exists_withMark nofun
  have htrack : H.callOp .track [.ref .graph graph] [] w =
      .ok (.trackedGraph (.ref .graph graph) m) { w with marks } := (callOp_of_ok rfl rfl).trans hout
  obtain ⟨xs, marks', hall, hxs⟩ := exists_allVertices (w := { w with marks }) hg hshows
  rw [← hshows.vertexCount_eq] at hxs
  let t : World := { w with marks := marks', lists := w.lists.push xs.toArray }
  have hcollection : t.collection? (.ref .list w.lists.size) = some xs := by
    rw [collection?, listAt_push]
  obtain ⟨u, hiterate, huses, hdelivers⟩ := exists_iterate (h := h) hcollection hfuel
  rw [map_form_vertexAt hxs] at hdelivers
  have hmaps : Maps h 1 (.element False) (.element False) .tracked
      (fun a => .root .vertex a none) ((List.range g.vertexCount).map (vertexNode graph)) u := by
    rintro n - a - x F v - ⟨rfl, rfl, -⟩
    exact ⟨x.wrap .vertex, v, ∅, rfl, .refl ∅ v, Set.empty_subset _, rfl, rfl, fun hasked => hasked.elim⟩
  obtain ⟨v, hnew, hmoves, hwrapped⟩ := exists_newCursor (runs_each hdelivers hmaps) hfuel
  rw [List.map_map] at hwrapped
  refine ⟨_, v, _, (Act.bind_of_ok htrack).trans ?_, ?_, hwrapped.routed.mono (by decide)⟩
  · have hcall : H.callMember .allVertices (.trackedGraph (.ref .graph graph) m) [] [] = (do
        let r ← allTracked (.trackedGraph (.ref .graph graph) m)
        handOut r) := rfl
    have htracked : allTracked (.trackedGraph (.ref .graph graph) m) { w with marks } =
        .ok (.ref .iterator u.cursors.size) v :=
      (Act.bind_of_ok hall).trans ((Act.bind_of_ok hiterate).trans hnew)
    rw [hcall, Act.bind_of_ok htracked]
    rfl
  · rw [hmoves.empty.graphs_eq, huses.empty.graphs_eq]

/-! ### All edges -/

/-- The edges that lead out of vertices that have just been wrapped, as they are reached. -/
def World.outNodes (w : World) (graph n : ℕ) : List Node :=
  (List.range n).flatMap fun i => (w.alongEdges graph outward i).map fun e =>
    (rootNode graph i).reach .edge (edgeNode graph e)

theorem flatMap_along_roots (w : World) (graph n : ℕ) :
    ((List.range n).map (rootNode graph)).flatMap (w.along .outgoing .null .edges) =
      w.outNodes graph n := by
  rw [List.flatMap_map, outNodes]
  exact List.flatMap_congr fun i _ => edgesFrom_eq (s := outward) rfl

/-- The lineage of an edge that leads out of a wrapped vertex: the vertex, and the edge. -/
theorem path?_rootNode_reach (graph i : ℕ) (e : StoredEdge) :
    ((rootNode graph i).reach .edge (edgeNode graph e)).path? =
      some [vertexNode graph i, edgeNode graph e] := Element.path?_reach rfl

theorem length_outNodes (w : World) (graph n : ℕ) :
    (w.outNodes graph n).length = (w.outEdges graph n).length := by
  simp only [outNodes, outEdges, List.length_flatMap, List.length_map]

/-- The edges that are met on lineages are told by the forms of the items. -/
theorem flatMap_edgesOn_eq (xs : List Value) :
    xs.flatMap edgesOn = (xs.map Value.form).flatMap fun a => (a.path?.getD []).filterMap edgeUnder? := by
  rw [List.flatMap_map]
  exact List.flatMap_congr fun x _ => edgesOn_eq x

/-- The edges that are met on the lineages. -/
theorem flatMap_edgesOn (hxs : xs.map Value.form = w.outNodes graph n) :
    xs.flatMap edgesOn = w.outEdges graph n := by
  rw [flatMap_edgesOn_eq, hxs, outNodes, List.flatMap_assoc, outEdges]
  refine List.flatMap_congr fun i _ => ?_
  rw [List.flatMap_map]
  refine (List.flatMap_congr fun e _ => ?_).trans (List.flatMap_singleton' _)
  rw [path?_rootNode_reach]
  rfl

/-- The lineages can be read. -/
theorem rooted_of_outNodes (hxs : xs.map Value.form = w.outNodes graph n) :
    ∀ x ∈ xs, w.Rooted graph x := by
  intro x hx
  have hmem := List.mem_map_of_mem (f := Value.form) hx
  rw [hxs, outNodes, List.mem_flatMap] at hmem
  obtain ⟨i, -, hmem⟩ := hmem
  obtain ⟨e, he, hform⟩ := List.mem_map.1 hmem
  refine rooted_of_form (hform ▸ path?_rootNode_reach graph i e) fun a ha => ?_
  rcases List.mem_pair.1 ha with rfl | rfl
  · exact .vertex rfl
  · exact .edge rfl (leadsAlong_outward.1 (mem_alongEdges_iff.1 he)).1

/-- All edges mention the vertices that have an edge. -/
theorem mem_mentionedBy_iff {ks : List ℕ} (hks : ks.Perm (List.range g.edges.size)) :
    i ∈ g.mentionedBy ks ↔ ∃ r ∈ g.edges, i = r.source ∨ i = r.target := by
  simp only [Graph.mentionedBy, List.mem_eraseDups, List.mem_flatMap, hks.mem_iff, List.mem_range]
  constructor
  · rintro ⟨k, hk, hi⟩
    rw [Graph.endsAt, Array.getElem?_eq_getElem hk] at hi
    exact ⟨_, Array.getElem_mem hk, List.mem_pair.1 hi⟩
  · rintro ⟨r, hr, hi⟩
    obtain ⟨k, hk, rfl⟩ := Array.mem_iff_getElem.1 hr
    refine ⟨k, hk, ?_⟩
    rw [Graph.endsAt, Array.getElem?_eq_getElem hk]
    exact List.mem_pair.2 hi

/-- **The graph of the edges that lead out of all vertices** is a copy of all edges. -/
theorem exists_subgraphOut {P : Set ℕ} (hg : w.graphs[graph]? = some g)
    (hshows : g.Shows Value.key? L) (hkeyed : w.Keyed graph)
    (hroute : Routed h 3 False route ((List.range g.vertexCount).map (rootNode graph)) P w)
    (hn : 5 ≤ n) (hfuel : g.edges.size + g.vertexCount + 4 ≤ h.fuel) :
    ∃ place v ks, subgraphOut (h.up n) route w = .ok (.ref .graph place) v ∧
      Copies w graph v place ks ∧ ks.Perm (List.range g.edges.size) := by
  have hfits : ∀ a ∈ (List.range g.vertexCount).map (rootNode graph), Fits graph .vertex a := by
    intro a ha
    obtain ⟨i, -, rfl⟩ := List.mem_map.1 ha
    exact fits_root (fits_vertexNode graph i)
  have hlabels : ∃ ls, w.labels? .null = some ls ∧ ∀ l ∈ ls, l.key?.isSome := ⟨[], rfl, nofun⟩
  obtain ⟨r, u, Q, hstep, huses, hrouted⟩ := callOp_step_routed hroute (Nat.le_refl 3) hfits hkeyed
    hlabels (by simpa [graphAt_eq hg, labels?] using hfuel) .outgoing .edges (h.up n)
  rw [flatMap_along_roots] at hrouted
  obtain ⟨xs, t, hyields, hxs⟩ := hrouted.yields hn graph
  have hu : u.graphs[graph]? = w.graphs[graph]? := by rw [huses.empty.graphs_eq]
  have hperm := perm_outEdges hg hshows
  have hlength : xs.length < (h.up n).fuel := by
    rw [Host.fuel_up, ← List.length_map (f := Value.form), hxs, length_outNodes,
      ← List.length_map (f := StoredEdge.index), hperm.length_eq, List.length_range]
    omega
  obtain ⟨place, v, hsubgraph, -, hcopies⟩ := callOp_subgraph (hu.trans hg) hshows hyields
    (fun x hx => Rooted.congr (rooted_of_outNodes hxs x hx) hu) hlength
  rw [flatMap_edgesOn hxs] at hcopies
  refine ⟨place, v, _, (Act.bind_of_ok hstep).trans hsubgraph, hcopies.congr hg (hu.trans hg) hshows, ?_⟩
  exact (List.perm_ext_iff_of_nodup (Ledger.nodup_eraseDups _) List.nodup_range).2 fun k =>
    mem_metOf.trans hperm.mem_iff

/-- **The graph of the lineages of a route is a copy of the edges that are met.**  The elements of the route
are of a graph that keeps a ledger; their lineages can be read, wrapped or not; and the route is read to its
end, while the graph stays as it is.  If the route leads out of all vertices, and these are wrapped one by
one or with the graph, the copy has all edges of the graph, and of its vertices those that have an edge. -/
theorem subgraph_copies (hg : w.graphs[graph]? = some g) (hshows : g.Shows Value.key? L) :
    (∀ (H : Host) (route : Value) (xs : List Value) (u : World), Yields H graph route xs w u →
      (∀ x ∈ xs, w.Rooted graph x) → xs.length < H.fuel →
      ∃ place v, H.callOp .subgraph [route] [] w = .ok (.ref .graph place) v ∧
        v.graphs[graph]? = w.graphs[graph]? ∧ Copies w graph v place (metOf (xs.flatMap edgesOn))) ∧
    (w.Keyed graph → ∀ (h : Host) (n : ℕ), 5 ≤ n → g.edges.size + g.vertexCount + 4 ≤ h.fuel →
      ∀ wrapped ∈ [wrappedOneByOne, wrappedTogether], ∃ place v ks, (do
          let route ← wrapped (h.up n) graph
          subgraphOut (h.up n) route) w = .ok (.ref .graph place) v ∧
        Copies w graph v place ks ∧ ks.Perm (List.range g.edges.size) ∧
        ∀ i, i ∈ g.mentionedBy ks ↔ ∃ r ∈ g.edges, i = r.source ∨ i = r.target) := by
  refine ⟨fun H route xs u hroute hxs hfuel => callOp_subgraph hg hshows hroute hxs hfuel,
    fun hkeyed h n hn hfuel wrapped hwrapped => ?_⟩
  have hwraps : ∃ route v P, wrapped (h.up n) graph w = .ok route v ∧ v.graphs = w.graphs ∧
      Routed h 3 False route ((List.range g.vertexCount).map (rootNode graph)) P v := by
    rcases List.mem_pair.1 hwrapped with rfl | rfl
    · obtain ⟨m, rfl⟩ : ∃ m, n = m + 1 := ⟨n - 1, by omega⟩
      exact exists_wrappedOneByOne hg hshows (by rw [Host.fuel_up]; omega) (by omega)
    · exact exists_wrappedTogether hg hshows (by omega)
  obtain ⟨route, v, P, hroute, hgraphs, hrouted⟩ := hwraps
  have hv : v.graphs[graph]? = some g := by rw [hgraphs, hg]
  have hkeyed' : v.Keyed graph := by
    rw [World.Keyed, graphAt_eq hv, ← graphAt_eq hg]
    exact hkeyed
  obtain ⟨place, u, ks, hsubgraph, hcopies, hperm⟩ := exists_subgraphOut hv hshows hkeyed' hrouted hn hfuel
  exact ⟨place, u, ks, (Act.bind_of_ok hroute).trans hsubgraph, hcopies.congr hg hv hshows, hperm,
    fun i => mem_mentionedBy_iff hperm⟩

/-- Two parallel roads and a loop. -/
theorem shows_roads :
    let vertices : Dictionary Key Value (Option Value) :=
      (Dictionary.empty.put (Value.str "a").spell (.str "a") (some (.int 1))).put
        (Value.str "b").spell (.str "b") none
    ({ vertices, edges := #[⟨0, 0, .str "loop", none⟩, ⟨0, 1, .str "road", some (.int 5)⟩,
      ⟨0, 1, .str "road", none⟩] } : Graph).Shows Value.key? {
        vertices := [(.str "a", some (.int 1)), (.str "b", none)]
        edges := [⟨.str "a", .str "a", .str "loop", none⟩, ⟨.str "a", .str "b", .str "road", some (.int 5)⟩,
          ⟨.str "a", .str "b", .str "road", none⟩] } := by
  intro vertices
  have hkey : ∀ s, (Value.str s).key? = some (Value.str s).spell := fun _ => rfl
  have hone : ({ vertices := Dictionary.empty.put (Value.str "a").spell (.str "a") (some (.int 1)) } :
      Graph).Shows Value.key? { vertices := [(.str "a", some (.int 1))] } :=
    Store.shows_empty.put_new (k := (Value.str "a").spell) (hkey "a") rfl _
  have htwo : ({ vertices } : Graph).Shows Value.key?
      { vertices := [(.str "a", some (.int 1)), (.str "b", none)] } := hone.put_new (hkey "b") rfl _
  exact ⟨htwo.vertices, htwo.keyed, htwo.distinct,
    .cons ⟨rfl, rfl, rfl, rfl⟩ (.cons ⟨rfl, rfl, rfl, rfl⟩ (.cons ⟨rfl, rfl, rfl, rfl⟩ .nil))⟩

/-- A road that is met from both of its sides, and a loop without a layer: their lineages can be read. -/
theorem rooted_roads {x : Value} (hroad : ∀ reached, w.Stores 0 ⟨2, 0, 1, reached⟩)
    (hloop : w.Stores 0 ⟨0, 0, 0, none⟩)
    (hx : x.form = ((rootNode 0 0).reach .edge (edgeNode 0 ⟨2, 0, 1, some .outgoing⟩)).reach .vertex (vertexNode 0 1) ∨
      x.form = (Element.root .vertex (rootNode 0 1) none).reach .edge (edgeNode 0 ⟨2, 0, 1, some .incoming⟩) ∨
      x.form = edgeNode 0 ⟨0, 0, 0, none⟩) : w.Rooted 0 x := by
  rcases hx with hform | hform | hform
  · have hpath : x.form.path? =
        some [vertexNode 0 0, edgeNode 0 ⟨2, 0, 1, some .outgoing⟩, vertexNode 0 1] := by
      rw [hform]
      rfl
    refine rooted_of_form hpath ?_
    simp only [List.forall_mem_cons]
    exact ⟨.vertex rfl, .edge rfl (hroad _), .vertex rfl, nofun⟩
  · have hpath : x.form.path? =
        some [rootNode 0 1, (rootNode 0 1).reach .edge (edgeNode 0 ⟨2, 0, 1, some .incoming⟩)] := by
      rw [hform]
      rfl
    refine rooted_of_form hpath ?_
    simp only [List.forall_mem_cons]
    exact ⟨.vertex rfl, .edge rfl (hroad _), nofun⟩
  · have hpath : x.form.path? = some [edgeNode 0 ⟨0, 0, 0, none⟩] := by
      rw [hform]
      rfl
    refine rooted_of_form hpath ?_
    simp only [List.forall_mem_cons]
    exact ⟨.edge rfl hloop, nofun⟩

/-- Two parallel roads and a loop.  One road is met from both of its sides, once under two layers; the loop is
met without any; the other road is not met at all, unless the route leads out of all vertices. -/
theorem subgraph_copies_roads :
    let vertices : Dictionary Key Value (Option Value) :=
      (Dictionary.empty.put (Value.str "a").spell (.str "a") (some (.int 1))).put
        (Value.str "b").spell (.str "b") none
    let g : Graph := { vertices, edges := #[⟨0, 0, .str "loop", none⟩, ⟨0, 1, .str "road", some (.int 5)⟩,
      ⟨0, 1, .str "road", none⟩] }
    let w : World := { graphs := #[g] }
    let there : Node := ((rootNode 0 0).reach .edge (edgeNode 0 ⟨2, 0, 1, some .outgoing⟩)).reach .vertex
      (vertexNode 0 1)
    let back : Node := (Element.root .vertex (rootNode 0 1) none).reach .edge
      (edgeNode 0 ⟨2, 0, 1, some .incoming⟩)
    let route : Value := .tuple [.tracked there, .tracked back, .edge (.stored 0 ⟨0, 0, 0, none⟩) none] none
    (∃ place v, (host 6).callOp .subgraph [route] [] w = .ok (.ref .graph place) v ∧
      v.graphs[0]? = w.graphs[0]? ∧ Copies w 0 v place [2, 0]) ∧
    ∀ wrapped ∈ [wrappedOneByOne, wrappedTogether], ∃ place v ks, (do
        let route ← wrapped (host 6) 0
        subgraphOut (host 6) route) w = .ok (.ref .graph place) v ∧
      Copies w 0 v place ks ∧ ks.Perm (List.range 3) ∧
      ∀ i, i ∈ g.mentionedBy ks ↔ ∃ r ∈ g.edges, i = r.source ∨ i = r.target := by
  intro vertices g w there back route
  have hshows := shows_roads
  rw [host_eq_up 6]
  have hg : w.graphs[0]? = some g := rfl
  refine ⟨?_, (subgraph_copies hg hshows).2 ?_ (host 0) 6 (by decide) ?_⟩
  · have hrouted : Routed (host 0) 1 False route _ ∅ w := routed_collection rfl rfl (by decide)
    obtain ⟨xs, u, hyields, hxs⟩ := hrouted.yields (n := 6) (by decide) 0
    have hrooted : ∀ x ∈ xs, w.Rooted 0 x := by
      intro x hx
      have hform := List.mem_map_of_mem (f := Value.form) hx
      rw [hxs, List.map_cons, List.map_cons, List.map_singleton, List.mem_cons, List.mem_pair] at hform
      exact rooted_roads (fun _ => ⟨_, rfl, rfl, rfl⟩) ⟨_, rfl, rfl, rfl⟩ hform
    have hlength : xs.length < ((host 0).up 6).fuel := by
      rw [← List.length_map (f := Value.form), hxs]
      decide
    have hmet : metOf (xs.flatMap edgesOn) = [2, 0] := by
      rw [flatMap_edgesOn_eq, hxs]
      rfl
    rw [← hmet]
    exact (subgraph_copies hg hshows).1 _ route xs u hyields hrooted hlength
  · intro r hr
    have hr : r = ⟨0, 0, .str "loop", none⟩ ∨ r = ⟨0, 1, .str "road", some (.int 5)⟩ ∨
        r = ⟨0, 1, .str "road", none⟩ := by simpa [graphAt, w, g] using hr
    rcases hr with rfl | rfl | rfl <;> rfl
  · rw [hshows.vertexCount_eq]
    decide

end GraphRoutes.Session
