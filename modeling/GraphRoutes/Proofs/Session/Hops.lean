/-
**What the steps of a traversal lead to.**

A step along edges leads from a vertex to its edges on one side or on both, as far as their labels are
allowed, or to the vertices at their far ends; a step to the ends of an edge leads to its vertices.
Which elements these are is said by the form of the element from which the step is taken.

Main definitions:

* `GraphRoutes.Session.World.edgesOf`, `GraphRoutes.Session.World.endOf` — the edges of a vertex and the
  vertices of an edge, with the links that their layers ask for;
* `GraphRoutes.Session.Fits` — elements of a graph, by what they are in every layer;
* `GraphRoutes.Session.Meaning.element` — values that are elements of a form.
-/
import GraphRoutes.Proofs.Session.Chains
import GraphRoutes.Proofs.Session.Images

set_option relaxedAutoImplicit false
set_option autoImplicit false

namespace GraphRoutes.Session

open World

/-! ### Edges and ends -/

/-- The edges of a vertex on one side that have an allowed label, with the links that the layers of the
vertex ask for. -/
def World.edgesOf (w : World) (a : Node) (side : Side) (ls : List Value) : List Node :=
  match a.base with
  | .vertex u _ =>
    ((w.edgesAt u side).filter fun e => admits ls (w.edgeLabel e)).map fun e =>
      a.reach .edge (.plain (.edge e none))
  | _ => []

/-- A vertex of an edge, with the links that the layers of the edge ask for. -/
def World.endOf (w : World) (i : End) (a : Node) : Node :=
  match a.base with
  | .edge e _ => a.reach .vertex (w.endValue e i).node
  | _ => a

/-- The side from which an edge was reached. -/
def reachedFrom (a : Node) : Option Side :=
  match a.base with
  | .edge e _ => e.reached
  | _ => none

/-- An element of a graph that is, in every layer, a vertex or an edge. -/
def Fits (graph : ℕ) : Layer → Node → Prop
  | .vertex, a => a.uniform Value.sort .vertex = true ∧ ∃ i, a.base = .vertex ⟨graph, i⟩ none
  | .edge, a => a.uniform Value.sort .edge = true ∧ ∃ e, a.base = .edge (.stored graph e) none

/-- An edge of which nobody knows from which side it was reached. -/
def Undirected (a : Node) : Prop := ∃ e, a.base = .edge e none ∧ e.reached = none

/-- Elements of a form can be written, whatever has been read meanwhile. -/
def World.Legible (w : World) (a : Node) : Prop :=
  ∀ v x, Spares ∅ w v → x.form = a → ∃ text, v.display x = .ok text

/-- Values that are elements of a form.  If `asked`, an edge that may be asked for its direction can be
written when it has none. -/
def Meaning.element (asked : Prop) : Meaning Node where
  holds a x F w := F = ∅ ∧ x.form = a ∧ (asked → Undirected a → w.Legible a)
  has := by
    rintro a x F w ⟨rfl, -⟩
    exact fun _ hi => hi.elim
  spared := by
    rintro a x F w v ⟨rfl, hx, hshown⟩ hv
    exact ⟨rfl, hx, fun hasked ha u y hu => hshown hasked ha u y (hv.trans hu)⟩
  handed := by
    rintro a x x' F w ⟨rfl, hx, hshown⟩ hhanded
    exact ⟨rfl, hhanded.form_eq.trans hx, hshown⟩

variable {graph : ℕ} {a b : Node} {i : End} {side : Side} {ls : List Value} {x : Value} {u v w : World}
  {h : Host} {asked : Prop}

theorem mem_edgesOf (ha : Fits graph .vertex a) (hb : b ∈ w.edgesOf a side ls) :
    ∃ e : StoredEdge, e.reached = some side ∧ b = a.reach .edge (.plain (.edge (.stored graph e) none)) := by
  obtain ⟨-, j, hj⟩ := ha
  rw [edgesOf, hj] at hb
  obtain ⟨e, he, rfl⟩ := List.mem_map.1 hb
  obtain ⟨e, he', rfl⟩ := List.mem_map.1 (List.mem_of_mem_filter he)
  exact ⟨e, (of_mem_incident he').2, rfl⟩

/-- The edges of a vertex are edges in every layer, and know from which side they were reached. -/
theorem fits_of_mem_edgesOf (ha : Fits graph .vertex a) (hb : b ∈ w.edgesOf a side ls) :
    Fits graph .edge b ∧ reachedFrom b = some side := by
  obtain ⟨e, he, rfl⟩ := mem_edgesOf ha hb
  refine ⟨⟨Element.uniform_reach _ _ _ _, e, ?_⟩, ?_⟩
  · rw [Element.base_reach]
    rfl
  · rw [reachedFrom, Element.base_reach]
    exact he

theorem not_undirected_vertex (ha : Fits graph .vertex a) : ¬Undirected a := by
  rintro ⟨e, he, -⟩
  obtain ⟨-, j, hj⟩ := ha
  cases hj.symm.trans he

/-- The vertices of an edge are vertices in every layer. -/
theorem fits_endOf (ha : Fits graph .edge a) : Fits graph .vertex (w.endOf i a) := by
  obtain ⟨-, e, he⟩ := ha
  have hend : w.endOf i a = a.reach .vertex (.plain (.vertex ⟨graph, e.endAt i⟩ none)) := by
    rw [endOf, he]
    rfl
  rw [hend]
  refine ⟨Element.uniform_reach _ _ _ _, e.endAt i, ?_⟩
  rw [Element.base_reach]
  rfl

theorem edgeOf?_of_form (ha : Fits graph .edge a) (hx : x.form = a) :
    ∃ e, a.base = .edge (.stored graph e) none ∧ edgeOf? x = some (.stored graph e) := by
  obtain ⟨huniform, e, he⟩ := ha
  subst hx
  refine ⟨e, he, ?_⟩
  rw [edgeOf?_eq, huniform, he]

theorem vertexOf?_of_form (ha : Fits graph .vertex a) (hx : x.form = a) :
    ∃ i m, a.base = .vertex ⟨graph, i⟩ none ∧ x.node.base = .vertex ⟨graph, i⟩ m ∧
      vertexOf? x = some ⟨graph, i⟩ := by
  obtain ⟨huniform, i, hi⟩ := ha
  subst hx
  obtain ⟨m, hm⟩ := Value.exists_base_vertex hi
  refine ⟨i, m, hi, hm, ?_⟩
  rw [vertexOf?, ← Value.uniform_form, huniform, hm]

/-- An edge says what its form says of its direction. -/
theorem reachedSide_eq (ha : Fits graph .edge a) (hx : x.form = a) (v : World) :
    reachedSide x v = .ok (reachedFrom a) v := by
  obtain ⟨e, hbase, hedge⟩ := edgeOf?_of_form ha hx
  have hreached : reachedOf? x = some (reachedFrom a) := by
    rw [reachedOf?, hedge, reachedFrom, hbase]
    rfl
  rw [reachedSide, told, Act.bind_of_ok (m := get) rfl, hreached]
  rfl

/-- A vertex of an edge is told at once. -/
theorem endNode_eq (ha : Fits graph .edge a) (hx : x.form = a) (i : End) (w v : World) :
    ∃ y, endNode x i v = .ok y v ∧ y.form = w.endOf i a := by
  obtain ⟨e, hbase, hedge⟩ := edgeOf?_of_form ha hx
  refine ⟨.ofNode (x.node.reach .vertex (.plain (.vertex ⟨graph, e.endAt i⟩ none))), ?_, ?_⟩
  · rw [endNode, told, Act.bind_of_ok (m := get) rfl, end?, hedge]
    rfl
  · rw [Value.form_reach x .vertex rfl, hx, endOf, hbase]
    rfl

/-! ### Directions -/

/-- The direction of an edge is known, or taken to be forward. -/
theorem followedFrom_eq (ha : Fits graph .edge a) (hx : x.form = a)
    (hshown : Undirected a → v.Legible a) :
    h.followedFrom x .null v = .ok ((reachedFrom a).getD .outgoing) v := by
  have hreached := reachedSide_eq ha hx v
  cases hside : reachedFrom a with
  | some side =>
      rw [hside] at hreached
      rw [Host.followedFrom, Act.bind_of_ok hreached]
      rfl
  | none =>
      obtain ⟨e, hbase, -⟩ := edgeOf?_of_form ha hx
      have hundirected : Undirected a := by
        rw [reachedFrom, hbase] at hside
        exact ⟨_, hbase, hside⟩
      obtain ⟨text, htext⟩ := hshown hundirected v x (.refl ∅ v) hx
      have hdisplayed : displayed x v = .ok text v := by
        rw [displayed, look, htext]
      rw [hside] at hreached
      rw [Host.followedFrom, Act.bind_of_ok hreached]
      exact (Act.bind_of_ok hdisplayed).trans rfl

theorem farEnd_getD (r : Option Side) : farEnd (some (r.getD .outgoing)) = farEnd r := by
  rcases r with _ | _ | _ <;> rfl

/-- The vertex to which an edge was followed. -/
theorem farVertex_eq (ha : Fits graph .edge a) (hx : x.form = a)
    (hshown : Undirected a → v.Legible a) (w : World) :
    ∃ y, h.farVertex x .null v = .ok y v ∧ y.form = w.endOf (farEnd (reachedFrom a)) a := by
  obtain ⟨y, hy, hform⟩ := endNode_eq ha hx (farEnd (reachedFrom a)) w v
  refine ⟨y, ?_, hform⟩
  rw [Host.farVertex, Act.bind_of_ok (followedFrom_eq ha hx hshown), farEnd_getD, hy]

/-- The vertex from which an edge was followed. -/
theorem nearVertex_eq (ha : Fits graph .edge a) (hx : x.form = a)
    (hshown : Undirected a → v.Legible a) (w : World) :
    ∃ y, h.nearVertex x .null v = .ok y v ∧ y.form = w.endOf (nearEnd (reachedFrom a)) a := by
  obtain ⟨y, hy, hform⟩ := endNode_eq ha hx (nearEnd (reachedFrom a)) w v
  refine ⟨y, ?_, hform⟩
  rw [Host.nearVertex, Act.bind_of_ok (followedFrom_eq ha hx hshown), nearEnd, farEnd_getD]
  exact hy

/-! ### The edges of a vertex -/

theorem closed_neighbours (s : Neighbourhood Value EdgeRef Key) : Closed (.neighbours s) :=
  ⟨nofun, nofun, fun _ _ => rfl⟩

theorem spares_edgeLabel {P : Set ℕ} (hv : Spares P w v) : v.edgeLabel = w.edgeLabel := by
  rw [hv.rest]
  rfl

theorem spares_edgesAt {P : Set ℕ} (hv : Spares P w v) : v.edgesAt = w.edgesAt := by
  rw [hv.rest]
  rfl

theorem spares_lets {P : Set ℕ} (hv : Spares P w v) (keys : Option (Std.HashSet Key)) :
    v.lets keys = w.lets keys := by
  funext e
  rw [lets, lets, spares_edgeLabel hv]

/-- The edges that have been read are given, as far as they are let pass. -/
theorem runs_edges (s : Neighbourhood Value EdgeRef Key) (hs : s.vertex = x.node) (hx : x.form = a)
    {es : List EdgeRef} {N : ℕ}
    (hes : ∀ e ∈ es, (w.edgeLabel e).key?.isSome ∧ e.reached.isSome) (hN : es.length < N) :
    Runs h 0 N (.element True) (.neighbours { s with edges := some es })
      ((es.filter (w.lets s.labels)).map fun e => a.reach .edge (.plain (.edge e none))) ∅ w := by
  -- by induction on the edges that are let pass: one read may pass over many others
  generalize hys : es.filter (w.lets s.labels) = ys
  induction ys generalizing es w with
  | nil =>
      refine ⟨closed_neighbours _, fun _ hi => hi.elim, fun n fuel _ hfuel v hv => ?_⟩
      have hlabels : ∀ e ∈ es, (v.edgeLabel e).key?.isSome := fun e he => by
        rw [spares_edgeLabel hv]
        exact (hes e he).1
      rw [← spares_lets hv] at hys
      rcases pull_neighbours (h := h.up n) s hlabels (hN.trans_le hfuel) with
        ⟨-, hpull⟩ | ⟨e, rest, hfilter, -⟩
      · exact ⟨none, v, hpull, .refl ∅ v⟩
      · cases hys.symm.trans hfilter
  | cons e' ys ih =>
      refine ⟨closed_neighbours _, fun _ hi => hi.elim, fun n fuel _ hfuel v hv => ?_⟩
      have hlabels : ∀ e ∈ es, (v.edgeLabel e).key?.isSome := fun e he => by
        rw [spares_edgeLabel hv]
        exact (hes e he).1
      rw [← spares_lets hv] at hys
      rcases pull_neighbours (h := h.up n) s hlabels (hN.trans_le hfuel) with
        ⟨hnil, -⟩ | ⟨e, rest, hfilter, hmem, hlt, hpull⟩
      · cases hys.symm.trans hnil
      · obtain ⟨rfl, hrest⟩ := List.cons.inj (hys.symm.trans hfilter)
        have he : e' ∈ es := List.mem_of_mem_filter (p := v.lets s.labels) (by rw [hys]; exact List.mem_cons_self)
        refine ⟨_, _, v, ∅, ∅, hpull, .refl ∅ v, ⟨Set.empty_subset _, Set.empty_subset _,
          fun _ hi => hi.elim⟩, ⟨rfl, ?_, fun _ hundirected => ?_⟩, ?_⟩
        · rw [hs, Value.form_reach x .edge rfl, hx]
          rfl
        · obtain ⟨e, hbase, hnone⟩ := hundirected
          rw [Element.base_reach] at hbase
          cases hbase
          have hsome := (hes e' he).2
          rw [hnone] at hsome
          cases hsome
        · refine ih ?_ (hlt.trans hN) hrest.symm
          intro e hmem'
          rw [spares_edgeLabel hv]
          exact hes e (hmem e hmem')

/-- All labels of a graph have keys. -/
def World.Keyed (w : World) (graph : ℕ) : Prop :=
  ∀ r ∈ (w.graphAt graph).edges, r.label.key?.isSome

theorem Keyed.spared {P : Set ℕ} (hkeyed : w.Keyed graph) (hv : Spares P w v) : v.Keyed graph := by
  rw [World.Keyed, graphAt, hv.graphs_eq]
  exact hkeyed

theorem isSome_of_mem_edgesAt (hkeyed : w.Keyed graph) {j : ℕ} {e : EdgeRef}
    (he : e ∈ w.edgesAt ⟨graph, j⟩ side) : (w.edgeLabel e).key?.isSome ∧ e.reached.isSome := by
  obtain ⟨e, he', rfl⟩ := List.mem_map.1 he
  obtain ⟨hlt, hreached⟩ := of_mem_incident he'
  have hlabel : w.edgeLabel (.stored graph e) = (w.graphAt graph).edges[e.index].label :=
    edgeLabel_of_getElem? (Array.getElem?_eq_getElem hlt)
  refine ⟨?_, ?_⟩
  · rw [hlabel]
    exact hkeyed _ (Array.getElem_mem hlt)
  · rw [EdgeRef.reached, hreached]
    rfl

theorem length_edgesAt_le (w : World) (u : VertexRef) (side : Side) :
    (w.edgesAt u side).length ≤ (w.graphAt u.graph).edges.size := by
  rw [edgesAt, List.length_map, Store.incident_eq, List.length_map, ← Array.length_toList]
  exact (List.length_filter_le _ _).trans List.length_zipIdx.le

/-- **The edges of a vertex** on one side are read when they are asked for. -/
theorem runs_neighbours (hkeyed : w.Keyed graph) (ha : Fits graph .vertex a) (hx : x.form = a)
    {keys : Option (Std.HashSet Key)}
    (hkeys : ∀ label k, label.key? = some k → passes keys k = admits ls label) (side : Side) :
    Runs h 0 ((w.graphAt graph).edges.size + 2) (.element True)
      (.neighbours { vertex := x.node, side, labels := keys }) (w.edgesOf a side ls) ∅ w := by
  obtain ⟨j, m, hbase, hnode, -⟩ := vertexOf?_of_form ha hx
  let s : Neighbourhood Value EdgeRef Key := { vertex := x.node, side, labels := keys }
  have hedges : w.edgesOf a side ls =
      ((w.edgesAt ⟨graph, j⟩ side).filter (w.lets keys)).map fun e =>
        a.reach .edge (.plain (.edge e none)) := by
    rw [edgesOf, hbase]
    refine congrArg _ (List.filter_congr fun e he => ?_)
    obtain ⟨k, hk⟩ := Option.isSome_iff_exists.1 (isSome_of_mem_edgesAt hkeyed he).1
    rw [lets, hk, Option.any_some, hkeys _ k hk]
  rw [hedges]
  refine runs_of_skip (closed_neighbours s) (fun _ hi => hi.elim) fun n _ v hv => ?_
  refine ⟨.neighbours { s with edges := some (v.edgesAt ⟨graph, j⟩ side) }, v, ∅, ?_, .refl ∅ v,
    Set.empty_subset _, ?_⟩
  · have hstep : neighbourStep s v =
        .ok (.skip { s with edges := some (v.edgesAt ⟨graph, j⟩ side) }) v := by
      simp only [neighbourStep, Neighbourhood.step, s, hnode]
      rfl
    rw [stepCursor, Act.bind_of_ok hstep]
    rfl
  · rw [← spares_edgesAt hv, ← spares_lets hv]
    have hsize : (v.graphAt graph).edges.size = (w.graphAt graph).edges.size := by
      rw [graphAt, hv.graphs_eq, ← graphAt]
    refine runs_edges s rfl hx (fun e he => isSome_of_mem_edgesAt (Keyed.spared hkeyed hv) he) ?_
    rw [← hsize]
    exact Nat.lt_succ_of_le (length_edgesAt_le v ⟨graph, j⟩ side)

end GraphRoutes.Session
