/-
**The two records of how an element was reached.**

A search keeps the ancestors of the element that it visits, and hands them out with it.  A wrapped vertex
keeps a record of its own: a link to the edge along which it was reached, which is linked to the vertex
before it.  The search knows nothing of the links, and the wrappers know nothing of the search.

Both records agree.  The search starts at vertices at which tracking began, and goes from a vertex to those
that a step along its edges gives.  Then the list of the lineage of what is given last holds the elements of
the tuple, one by one, at its even positions, with the edges between them.  So it has an odd length, and the
lineage of a return begins and ends with the origin.

Wrapped vertices that are equal may have been reached along different ways, and the search tells them apart
by nothing but their keys.  That does not matter: whatever is visited below an element was given as a child
of this element, and not of an equal one.

Main definitions:

* `GraphRoutes.Session.World.reachedAlong` — the vertices that a step gives, for a search;
* `GraphRoutes.Session.Begins` — a vertex at which tracking began;
* `GraphRoutes.Session.Retold`, `GraphRoutes.Session.Retells` — elements at the even positions of a lineage,
  and of a list;
* `GraphRoutes.Session.Encircles` — the list of the lineage of a return.

Main results:

* `GraphRoutes.Session.exists_reachedAlong` — what a step gives is linked to where it was taken;
* `GraphRoutes.Session.charted_of_line` — along a line the lineage grows with the ancestors;
* `GraphRoutes.Session.search_retells` — **the lineage of what a search for paths gives retells the path.**
-/
import GraphRoutes.Proofs.Search.Lines
import GraphRoutes.Proofs.Session.Accounts

set_option relaxedAutoImplicit false
set_option autoImplicit false

namespace GraphRoutes.Session

open World Search

variable {ω ε κ β : Type} {graph n : ℕ} {w : World} {h : Host} {s : Leg} {o a b : GraphElement}
  {q : List GraphElement} {as : List Node}

/-! ### What a step gives to a search -/

/-- A value that is a graph element. -/
def GraphElement.of? (v : Value) : Option GraphElement :=
  if hv : v.ofGraph = true then some ⟨v, hv⟩ else none

/-- The vertices that a step gives from an element, read to the end.  A step that fails gives none; from a
vertex of the graph it does not fail (`GraphRoutes.Session.exists_reachedAlong`). -/
def World.reachedAlong (w : World) (h : Host) (s : Leg) (x : GraphElement) : List GraphElement :=
  match (legs [s]).results h x.value w with
  | .ok xs _ => xs.filterMap GraphElement.of?
  | .error _ _ => []

theorem map_value_filterMap_of? {xs : List Value} (hxs : ∀ x ∈ xs, x.ofGraph = true) :
    (xs.filterMap GraphElement.of?).map GraphElement.value = xs := by
  induction xs with
  | nil => rfl
  | cons x xs ih =>
      obtain ⟨hx, hxs⟩ := List.forall_mem_cons.1 hxs
      have hof : GraphElement.of? x = some ⟨x, hx⟩ := dif_pos hx
      rw [List.filterMap_cons_some hof, List.map_cons, ih hxs]

/-- A step leads along each edge from at most two sides. -/
theorem length_alongEdges_le (w : World) (graph : ℕ) (s : Leg) (i : ℕ) :
    (w.alongEdges graph s i).length ≤ 2 * (w.graphAt graph).edges.size := by
  have hside : ∀ side, (((w.graphAt graph).incident i side).filter fun e =>
      admits (w.labelsOf s) (w.edgeLabel (.stored graph e))).length ≤
        (w.graphAt graph).edges.size := by
    intro side
    refine (List.length_filter_le _ _).trans ?_
    simpa only [edgesAt, List.length_map] using length_edgesAt_le w ⟨graph, i⟩ side
  have hin := hside .incoming
  have hout := hside .outgoing
  rw [alongEdges]
  cases s.1 <;>
    simp only [Direction.sides, List.flatMap_cons, List.flatMap_nil, List.length_append,
      List.length_nil] <;>
    omega

/-- How much is read in one go when a step is taken from any vertex. -/
theorem effort_leg_le (ha : Fits graph .vertex a.value.form) :
    (legs [s]).effort w graph [a.value.form] ≤
      2 * (w.graphAt graph).edges.size + (w.labelsOf s).length + 5 := by
  obtain ⟨-, i, hi⟩ := ha
  have hlength := length_alongEdges_le w graph s i
  simp only [legs, Hops.effort, Hop.effort, leads_leg hi, List.flatMap_cons, List.flatMap_nil,
    List.append_nil, List.length_map, List.length_cons, List.length_nil, labelsOf] at hlength ⊢
  omega

section

variable (hkeyed : w.Keyed graph) (hlabelled : (legs [s]).Labelled w) (hn : 5 ≤ n)
  (hfuel : 2 * (w.graphAt graph).edges.size + (w.labelsOf s).length + 5 ≤ h.fuel)
include hkeyed hlabelled hn hfuel

/-- **What a step gives to a search**: the step is taken without a fault, and each vertex that it gives is
linked, over an edge along which the step leads, to the one from which it was taken. -/
theorem exists_reachedAlong (ha : Fits graph .vertex a.value.form) :
    ∃ i xs u, a.value.form.base = .vertex ⟨graph, i⟩ none ∧
      (legs [s]).results (h.up n) a.value w = .ok xs u ∧
      (w.reachedAlong (h.up n) s a).map GraphElement.value = xs ∧
      xs.map Value.form = (w.alongEdges graph s i).map fun e =>
        (a.value.form.reach .edge (edgeNode graph e)).reach .vertex (vertexNode graph e.arrival) := by
  obtain ⟨i, hi⟩ := ha.2
  obtain ⟨xs, u, hresults, -, hforms⟩ := (legs [s]).results_eq ha hkeyed hlabelled
    (fun hasks => absurd hasks (not_asks_legs _)) hn ((effort_leg_le ha).trans hfuel)
  have hleads : (legs [s]).leads w a.value.form = (Hop.vertices s.1 s.2).leads w a.value.form := by
    rw [legs, legs, Hops.leads]
    exact List.flatMap_singleton' _
  have hgraph : ∀ x ∈ xs, x.ofGraph = true := by
    intro x hx
    have hmem : x.form ∈ (legs [s]).leads w a.value.form := hforms ▸ List.mem_map_of_mem hx
    exact Value.ofGraph_of_fits (fits_of_mem_hopsLeads ha hmem)
  refine ⟨i, xs, u, hi, hresults, ?_, hforms.trans (hleads.trans (leads_leg hi s))⟩
  rw [reachedAlong, hresults]
  exact map_value_filterMap_of? hgraph

theorem form_of_mem_reachedAlong (ha : Fits graph .vertex a.value.form)
    (hb : b ∈ w.reachedAlong (h.up n) s a) :
    Fits graph .vertex b.value.form ∧ ∃ e, b.value.form =
      (a.value.form.reach .edge (edgeNode graph e)).reach .vertex (vertexNode graph e.arrival) := by
  obtain ⟨i, xs, u, hi, -, hxs, hforms⟩ := exists_reachedAlong hkeyed hlabelled hn hfuel ha
  have hmem : b.value.form ∈ xs.map Value.form :=
    List.mem_map_of_mem (hxs ▸ List.mem_map_of_mem hb)
  rw [hforms, ← leads_leg hi s] at hmem
  refine ⟨fits_of_mem_leads ha hmem, ?_⟩
  rw [leads_leg hi s] at hmem
  obtain ⟨e, -, he⟩ := List.mem_map.1 hmem
  exact ⟨e, he.symm⟩

end

/-! ### The lineage grows with the ancestors -/

/-- A vertex at which tracking began. -/
def Begins (graph : ℕ) (x : Value) : Prop :=
  ∃ a, Fits graph .vertex a ∧ x.form = .root .vertex a none

/-- Tracking begins at a vertex that is wrapped. -/
theorem begins_of_track {x y : Value} {H : Host} {u v : World} (hx : Fits graph .vertex x.form)
    (hy : H.callOp .track [x] [] u = .ok y v) : Begins graph y := by
  obtain ⟨z, t, htrack, -, hz⟩ := callOp_track hx H u
  cases hy.symm.trans htrack
  exact ⟨x.form, hx, hz⟩

/-- A lineage retells elements: they stand in it at the even positions, each with one layer less. -/
structure Retold (q : List GraphElement) (as : List Node) : Prop where
  length : as.length + 1 = 2 * q.length
  even : ∀ i (hi : i < q.length), as[2 * i]? = some q[i].value.form.strip
  sorted : ∀ c ∈ as, c.base.sort.isSome = true

/-- The lineage of the last element retells the elements. -/
structure Charted (graph : ℕ) (q : List GraphElement) (b : GraphElement) : Prop where
  fits : Fits graph .vertex b.value.form
  tracked : b.value.form.tracked = true
  path : ∃ as, b.value.form.path? = some as ∧ Retold q as

theorem sort_of_fits {c : Node} (hc : Fits graph .vertex c) : c.base.sort.isSome = true := by
  obtain ⟨-, i, hi⟩ := hc
  rw [hi]
  rfl

/-- Where tracking began, there is nothing but the element. -/
theorem Begins.charted (ho : Begins graph o.value) : Charted graph [o] o := by
  obtain ⟨c, hc, ho⟩ := ho
  refine ⟨ho ▸ fits_root hc, by rw [ho]; rfl, [c], by rw [ho]; rfl, rfl, fun i hi => ?_, ?_⟩
  · obtain rfl := Nat.lt_one_iff.1 hi
    rw [List.getElem_cons_zero, ho]
    rfl
  · exact fun d hd => List.mem_singleton.1 hd ▸ sort_of_fits hc

/-- A lineage that grows by an edge and a vertex retells an element more. -/
theorem Retold.concat {c : Node} (h : Retold q as) (hc : c.base.sort.isSome = true)
    (hb : Fits graph .vertex b.value.form) :
    Retold (q ++ [b]) (as ++ [c, b.value.form.strip]) where
  length := by
    have := h.length
    simp only [List.length_append, List.length_cons, List.length_nil]
    omega
  even i hi := by
    have hlength := h.length
    rw [List.length_append, List.length_singleton] at hi
    rcases Nat.lt_succ_iff_lt_or_eq.1 hi with hlt | rfl
    · rw [List.getElem_append_left hlt, List.getElem?_append_left (by omega)]
      exact h.even i hlt
    · have hlast : 2 * q.length - as.length = 1 := by omega
      rw [List.getElem_concat_length rfl, List.getElem?_append_right (by omega), hlast]
      rfl
  sorted d hd := by
    simp only [List.mem_append, List.mem_cons, List.not_mem_nil, or_false] at hd
    obtain hd | rfl | rfl := hd
    · exact h.sorted d hd
    · exact hc
    · exact sort_of_fits (fits_strip hb)

/-- **One step further both records are longer by one element**, and the lineage by an edge. -/
theorem Charted.concat {e : StoredEdge} (ha : Charted graph q a) (hfits : Fits graph .vertex b.value.form)
    (hb : b.value.form =
      (a.value.form.reach .edge (edgeNode graph e)).reach .vertex (vertexNode graph e.arrival)) :
    Charted graph (q ++ [b]) b := by
  obtain ⟨-, htracked, as, hpath, hretold⟩ := ha
  have hedge : (a.value.form.reach .edge (edgeNode graph e)).tracked = true :=
    Element.tracked_reach htracked
  have hsort : (a.value.form.strip.reach .edge (edgeNode graph e)).base.sort.isSome = true := by
    rw [Element.base_reach]
    rfl
  refine ⟨hfits, hb ▸ Element.tracked_reach hedge, _, ?_, hretold.concat hsort hfits⟩
  rw [hb, Element.path?_reach hedge, Element.path?_reach htracked, hpath, Element.strip_reach hedge,
    Option.map_some, Option.map_some, List.append_assoc]
  rfl

/-- **Along a line the lineage grows with the ancestors.** -/
theorem charted_of_line {c : Graph.Caller ω ε GraphElement κ β} {route : κ ⊕ List GraphElement}
    (hkeyed : w.Keyed graph) (hlabelled : (legs [s]).Labelled w) (hn : 5 ≤ n)
    (hfuel : 2 * (w.graphAt graph).edges.size + (w.labelsOf s).length + 5 ≤ h.fuel)
    (hroute : ∀ o, Source.Item c.next route o → Begins graph o.value)
    (hline : (Terrain.ofGraph (elementGraph w (w.reachedAlong (h.up n) s)) c).Line route q) :
    ∀ b ∈ q.getLast?, Charted graph q b := by
  -- by induction on the line: an element is met on the route, or as a child of the one before it
  induction hline with
  | nil => exact nofun
  | @concat p b _ hmet ih =>
      intro b' hb'
      obtain rfl : b = b' := by simpa only [List.getLast?_concat, Option.mem_some] using hb'
      cases hlast : p.getLast? with
      | none =>
          obtain rfl := List.getLast?_eq_none_iff.1 hlast
          exact (hroute b hmet).charted
      | some a =>
          rw [Terrain.Met, hlast] at hmet
          have ha := ih a hlast
          obtain ⟨hfits, e, he⟩ := form_of_mem_reachedAlong hkeyed hlabelled hn hfuel ha.fits
            (Terrain.mem_succ_of_isChild hmet)
          exact ha.concat hfits he

/-! ### The list of a lineage -/

/-- A list retells elements: they are equal, one by one, to the items at its even positions. -/
structure Retells (q : List GraphElement) (ys : List Value) : Prop where
  length : ys.length = 2 * q.length - 1
  elements : ∀ y ∈ ys, y.ofGraph = true
  even : ∀ i (hi : i < q.length), ∃ y, ys[2 * i]? = some y ∧ ∀ u : World, u.same y q[i].value = .ok true

/-- A list goes round from `o` to `o` in `k` steps. -/
structure Encircles (o : GraphElement) (k : ℕ) (ys : List Value) : Prop where
  length : ys.length = 2 * k + 1
  first : ∃ y ∈ ys.head?, ∀ u : World, u.same y o.value = .ok true
  last : ∃ y ∈ ys.getLast?, ∀ u : World, u.same y o.value = .ok true

/-- A list of the forms of a lineage retells what the lineage retells. -/
theorem Retold.retells {ys : List Value} (h : Retold q as) (hys : ys.map Value.form = as) :
    Retells q ys where
  length := by
    have hlength := h.length
    rw [← hys, List.length_map] at hlength
    omega
  elements y hy := Value.ofGraph_of_form (h.sorted _ (hys ▸ List.mem_map_of_mem hy)) rfl
  even i hi := by
    have heven := h.even i hi
    rw [← hys, List.getElem?_map] at heven
    obtain ⟨y, hy, hform⟩ := Option.map_eq_some_iff.1 heven
    have hsort := h.sorted _ (hys ▸ List.mem_map_of_mem (List.mem_of_getElem? hy))
    refine ⟨y, hy, same_of_base (Value.ofGraph_of_form hsort rfl) q[i].ofGraph ?_⟩
    rw [hform, Element.base_strip]

/-- A list that retells a return goes round. -/
theorem Retells.encircles {p : List GraphElement} {ys : List Value} (hys : Retells (p ++ [b]) ys)
    (ho : p.head? = some o) (hsame : b.value.key? = o.value.key?) : Encircles o p.length ys where
  length := by
    have hlength := hys.length
    rw [List.length_append, List.length_singleton] at hlength
    omega
  first := by
    obtain ⟨y, hy, hequal⟩ := hys.even 0 (by simp)
    cases p with
    | nil => cases ho
    | cons a p =>
        obtain rfl : a = o := Option.some.inj ho
        exact ⟨y, List.head?_eq_getElem?.trans hy, hequal⟩
  last := by
    have hlength := hys.length
    rw [List.length_append, List.length_singleton] at hlength
    obtain ⟨y, hy, hequal⟩ := hys.even p.length (by simp)
    have hlast : ys.length - 1 = 2 * p.length := by omega
    have hygraph := hys.elements y (List.mem_of_getElem? hy)
    refine ⟨y, ?_, fun u => ?_⟩
    · rw [List.getLast?_eq_getElem?, hlast]
      exact hy
    · have hequal := hequal u
      rw [List.getElem_concat_length rfl, same_of_ofGraph u hygraph b.ofGraph, hsame,
        ← same_of_ofGraph u hygraph o.ofGraph] at hequal
      exact hequal

/-! ### What a search gives -/

/-- **The lineage of what a search for paths gives retells the path.**  The search starts at vertices at
which tracking began, and takes the step `s` from each vertex that it goes below.  Its scope is any, cycles
are cut or not, and the route, the tests and the policy do what they like to the world; only the policy puts
nothing in the place of results.  Then the list of the lineage of the last element of each tuple that is
given holds the elements of the tuple at its even positions, whenever and by whom it is asked for.  The
lineage of a return goes round from the first element of the tuple to itself.  The host that takes the steps
must be so deep, and read so many items in one go, as one step takes. -/
theorem search_retells (s : Leg) (hkeyed : w.Keyed graph) (hlabelled : (legs [s]).Labelled w)
    (hn : 5 ≤ n) (hfuel : 2 * (w.graphAt graph).edges.size + (w.labelsOf s).length + 5 ≤ h.fuel)
    (c : Graph.Caller ω ε GraphElement κ β) (guide : Guide ω ε GraphElement)
    (criteria : Criteria ω ε GraphElement) (scope : Search.Scope) (limits : Limits)
    (consume : List GraphElement → Act ω ε Unit) (mark : Mark) (route : κ ⊕ List GraphElement)
    (hroute : ∀ o, Source.Item c.next route o → Begins graph o.value) (w₀ : ω) (q : List GraphElement)
    (hq : Machine.Gives
      (Search.step
        ((Terrain.ofGraph (elementGraph w (w.reachedAlong (h.up n) s)) c).host guide Graph.Form.paths)
        (Terrain.plan Graph.Form.paths criteria scope) limits)
      consume (Search.start (Terrain.plan Graph.Form.paths criteria scope) mark route) w₀ q) :
    ∃ last ∈ q.getLast?, ∀ (H : Host) (u : World), ∃ place v,
      H.callOp .path [last.value] [] u = .ok (.ref .list place) v ∧
      Retells q (v.listAt place).toList ∧
      (scope = .cycles → ∃ o k, q.head? = some o ∧ 0 < k ∧ q.length = k + 1 ∧
        Encircles o k (v.listAt place).toList) := by
  obtain ⟨p, b, rfl, hline, hreturn⟩ := Terrain.line_of_gives (Terrain.barren_ofGraph _ _) hq
  have hlast : (p ++ [b]).getLast? = some b := List.getLast?_concat
  obtain ⟨-, -, as, hpath, hretold⟩ :=
    charted_of_line hkeyed hlabelled hn hfuel hroute hline b hlast
  refine ⟨b, hlast, fun H u => ?_⟩
  obtain ⟨ys, marks, hlist, hforms, -⟩ := callOp_path hpath hretold.sorted H u
  refine ⟨_, _, hlist, ?_⟩
  rw [listAt, Array.getElem?_push_size]
  have hretells : Retells (p ++ [b]) ys := hretold.retells hforms
  refine ⟨hretells, fun hscope => ?_⟩
  obtain ⟨o, ho, w₁, w₂, hsame⟩ := hreturn hscope
  have hkeys : b.value.key? = o.value.key? :=
    (same_elementGraph_iff w (w.reachedAlong (h.up n) s) b o).1 (EStateM.Result.ok.inj hsame).1
  refine ⟨o, p.length, ?_, ?_, List.length_append, hretells.encircles ho hkeys⟩
  · rw [List.head?_append, ho]
    rfl
  · exact List.length_pos_of_mem (List.mem_of_head? ho)

/-- A graph with one edge, which leads from a vertex back to it: the edge is found on both sides of the
vertex, and a search for returns that begins at the wrapped vertex gives a return of one step. -/
theorem search_retells_loop :
    let vertices : Dictionary Key Value (Option Value) :=
      Dictionary.empty.put (Value.str "a").spell (.str "a") none
    let w : World := { graphs := #[{ vertices, edges := #[⟨0, 0, .str "loop", none⟩] }] }
    let o : GraphElement := ⟨.tracked (.root .vertex (.plain (.vertex ⟨0, 0⟩ (some 2))) (some 1)), rfl⟩
    let criteria : Criteria (List (GraphElement ⊕ List GraphElement)) Unit GraphElement :=
      { pred := some (.within 3) }
    let plan := Terrain.plan Graph.Form.paths criteria .cycles
    ∃ q, Machine.Gives
        (Search.step ((Terrain.ofGraph (elementGraph w (w.reachedAlong (host 5) (.both, .null)))
          Graph.scribe).host Guide.giveUp Graph.Form.paths) plan {})
        Graph.write (Search.start plan none (.inr [o])) [] q ∧
      q.length = 2 ∧
      ∃ last ∈ q.getLast?, ∀ (H : Host) (u : World), ∃ place v,
        H.callOp .path [last.value] [] u = .ok (.ref .list place) v ∧
        Retells q (v.listAt place).toList ∧
        (Search.Scope.cycles = .cycles → ∃ o k, q.head? = some o ∧ 0 < k ∧ q.length = k + 1 ∧
          Encircles o k (v.listAt place).toList) := by
  intro vertices w o criteria plan
  obtain ⟨q, hmem, hlength⟩ : ∃ q ∈ Machine.given
      (Search.step ((Terrain.ofGraph (elementGraph w (w.reachedAlong (host 5) (.both, .null)))
        Graph.scribe).host Guide.giveUp Graph.Form.paths) plan {})
      Graph.write 30 (Search.start plan none (.inr [o])) [], q.length = 2 := by
    rw [elementGraph_eq]
    decide +kernel
  have hgives := Machine.gives_of_mem_given .start hmem
  refine ⟨q, hgives, hlength, ?_⟩
  have hkeyed : w.Keyed 0 := by
    intro r hr
    have hloop : r = ⟨0, 0, .str "loop", none⟩ := by simpa [graphAt, w] using hr
    rw [hloop]
    rfl
  have hroute : ∀ x, Source.Item (Graph.scribe (β := List GraphElement)).next (.inr [o]) x →
      Begins 0 x.value := by
    intro x hx
    obtain rfl := List.mem_singleton.1 (Graph.mem_of_item hx)
    have htrack : (host 0).callOp .track [.vertex ⟨0, 0⟩ none] [] w = .ok o.value { w with marks := 3 } :=
      rfl
    exact begins_of_track ⟨rfl, 0, rfl⟩ htrack
  rw [host_eq_up 5] at hgives
  exact search_retells (.both, .null) hkeyed ⟨⟨[], rfl, by decide⟩, trivial⟩ (by decide) (by decide)
    Graph.scribe Guide.giveUp criteria .cycles {} Graph.write none (.inr [o]) hroute [] q hgives

end GraphRoutes.Session
