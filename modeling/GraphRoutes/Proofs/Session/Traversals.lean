/-
**Traversals: what a composition of steps gives.**

A traversal takes steps one after the other, from a vertex or an edge.  Nothing is read before the
results are asked for; then each step reads from the step before it, item by item, and makes the
sequences that it needs.  What comes out at the end is what one gets by following the steps, element by
element: the first step leads to some elements, the second leads from each of them to others, and so on.

Main definitions:

* `GraphRoutes.Session.Hop`, `GraphRoutes.Session.Hops` — steps from elements of one kind to elements of
  another, and compositions of steps that fit together;
* `GraphRoutes.Session.Hop.leads`, `GraphRoutes.Session.Hops.leads` — where they lead;
* `GraphRoutes.Session.Hop.take`, `GraphRoutes.Session.Hops.follow`, `GraphRoutes.Session.Hops.results` —
  the calls of a session, and the results that are read from them;
* `GraphRoutes.Session.Routed` — routes, and what they deliver.

Main results:

* `GraphRoutes.Session.Hop.take_routed` — a step delivers the elements to which it leads;
* `GraphRoutes.Session.Hops.results_eq` — **the results of a traversal are the elements to which its
  steps lead**.
-/
import GraphRoutes.Proofs.Session.Hops

set_option relaxedAutoImplicit false
set_option autoImplicit false

namespace GraphRoutes.Session

open World

/-! ### Steps -/

/-- A step of a traversal, from elements of one kind to elements of another. -/
inductive Hop : Layer → Layer → Type
  /-- The edges of a vertex, in a direction. -/
  | edges (direction : Direction) (labels : Value) : Hop .vertex .edge
  /-- The vertices at the far ends of these edges. -/
  | vertices (direction : Direction) (labels : Value) : Hop .vertex .vertex
  /-- The vertices of an edge. -/
  | ends (step : EndStep) : Hop .edge .vertex

/-- The edges of a vertex in a direction that have an allowed label, with the links that the layers of
the vertex ask for. -/
def World.edgesFrom (w : World) (direction : Direction) (labels : Value) (a : Node) : List Node :=
  direction.sides.flatMap fun side => w.edgesOf a side ((w.labels? labels).getD [])

/-- The elements to which a step along edges leads. -/
def World.along (w : World) (direction : Direction) (labels : Value) : Yield → Node → List Node
  | .edges, a => w.edgesFrom direction labels a
  | .vertices, a => (w.edgesFrom direction labels a).map fun e => w.endOf (farEnd (reachedFrom e)) e

/-- The ends of an edge to which a step leads. -/
def endsOf (step : EndStep) (a : Node) : List End :=
  match step with
  | .sources => [.source]
  | .targets => [.target]
  | .targetsThenSources => [.target, .source]
  | .far => [farEnd (reachedFrom a)]
  | .near => [nearEnd (reachedFrom a)]

namespace Hop

variable {k l : Layer}

/-- Takes a step from a route. -/
def take (h : Host) : Hop k l → Value → M Value
  | edges direction labels, route =>
    h.callOp (.step { direction, gives := .edges, grouped := false }) [route, labels] []
  | vertices direction labels, route =>
    h.callOp (.step { direction, gives := .vertices, grouped := false }) [route, labels] []
  | ends step, route => h.callOp (.ends step) [route] []

/-- The elements to which a step leads. -/
def leads (w : World) : Hop k l → Node → List Node
  | edges direction labels, a => w.along direction labels .edges a
  | vertices direction labels, a => w.along direction labels .vertices a
  | ends step, a => (endsOf step a).map fun i => w.endOf i a

/-- Whether a step asks an edge for the direction in which it was followed. -/
def asks : Hop k l → Prop
  | ends .far | ends .near => True
  | _ => False

/-- The labels to which a step is restricted are a collection of values with keys. -/
def Labelled (w : World) : Hop k l → Prop
  | edges _ labels | vertices _ labels => ∃ ls, w.labels? labels = some ls ∧ ∀ l ∈ ls, l.key?.isSome
  | ends _ => True

/-- How many items a step has to read in one go at most. -/
def effort (w : World) (graph : ℕ) (as : List Node) : Hop k l → ℕ
  | edges _ labels | vertices _ labels =>
    (w.graphAt graph).edges.size + as.length + ((w.labels? labels).getD []).length + 4
  | ends _ => 2

end Hop

variable {h : Host} {d n graph : ℕ} {asked : Prop} {k l m : Layer} {a b : Node} {as : List Node}
  {x route labels : Value} {ls : List Value} {P : Set ℕ} {u v w : World} {direction : Direction}

/-! ### Where steps lead in a world that has been left alone -/

theorem spares_labels? (hv : Spares P w v) : v.labels? = w.labels? :=
  funext (labels?_congr hv.lists_eq hv.bags_eq)

theorem spares_graphAt (hv : Spares P w v) : v.graphAt = w.graphAt := by
  rw [hv.rest]
  rfl

theorem spares_edgesOf (hv : Spares P w v) : v.edgesOf = w.edgesOf := by
  funext a side ls
  rw [edgesOf, edgesOf, spares_edgesAt hv, spares_edgeLabel hv]

theorem spares_edgesFrom (hv : Spares P w v) : v.edgesFrom = w.edgesFrom := by
  funext direction labels a
  rw [edgesFrom, edgesFrom, spares_labels? hv, spares_edgesOf hv]

theorem spares_endOf (hv : Spares P w v) : v.endOf = w.endOf := by
  rw [hv.rest]
  rfl

theorem spares_along (hv : Spares P w v) : v.along = w.along := by
  funext direction labels gives a
  cases gives <;> simp only [along, spares_edgesFrom hv, spares_endOf hv]

theorem spares_leads (hv : Spares P w v) (s : Hop k l) : s.leads v = s.leads w := by
  funext a
  cases s with
  | edges | vertices => simp only [Hop.leads, spares_along hv]
  | ends => simp only [Hop.leads, spares_endOf hv]

theorem spares_labelled {s : Hop k l} (hs : s.Labelled w) (hv : Spares P w v) : s.Labelled v := by
  cases s with
  | edges | vertices =>
      rw [Hop.Labelled, spares_labels? hv]
      exact hs
  | ends => trivial

theorem spares_effort (hv : Spares P w v) (s : Hop k l) :
    s.effort v graph as = s.effort w graph as := by
  cases s with
  | edges | vertices => simp only [Hop.effort, spares_labels? hv, spares_graphAt hv]
  | ends => rfl

theorem fits_of_mem_edgesFrom (ha : Fits graph .vertex a) (hb : b ∈ w.edgesFrom direction labels a) :
    Fits graph .edge b := by
  obtain ⟨side, -, hside⟩ := List.mem_flatMap.1 hb
  exact (fits_of_mem_edgesOf ha hside).1

/-- A step leads to elements of its kind. -/
theorem fits_of_mem_leads {s : Hop k l} (ha : Fits graph k a) (hb : b ∈ s.leads w a) :
    Fits graph l b := by
  cases s with
  | edges => exact fits_of_mem_edgesFrom ha hb
  | vertices =>
      obtain ⟨e, he, rfl⟩ := List.mem_map.1 hb
      exact fits_endOf (fits_of_mem_edgesFrom ha he)
  | ends =>
      obtain ⟨i, -, rfl⟩ := List.mem_map.1 hb
      exact fits_endOf ha

/-! ### Routes -/

/-- A route that delivers elements of these forms, whenever it is opened. -/
def Routed (h : Host) (d : ℕ) (asked : Prop) (route : Value) (as : List Node) (P : Set ℕ)
    (w : World) : Prop :=
  Has P w ∧ ∀ v, Spares P w v → ∃ it u Q, openRoute route v = .ok it u ∧ Uses P v u ∧
    Q ⊆ within P v.cursors.size ∧ Delivers h d (.element asked) it as Q u

/-- A lazy sequence is a route. -/
theorem Delivers.routed {place : ℕ} (hit : Delivers h d (.element asked) (.ref .iterator place) as P w) :
    Routed h d asked (.ref .iterator place) as P w :=
  ⟨hit.has, fun v hv => ⟨_, v, P, rfl, .refl P v, subset_within P _, hit.spared hv⟩⟩

theorem isElement_of_form (hx : x.form = a) (ha : Fits graph k a) : x.isElement = true := by
  have huniform : x.node.uniform Value.sort k = true := by
    rw [← Value.uniform_form, hx]
    cases k <;> exact ha.1
  rw [Value.isElement, Value.layer?, Element.layer?_of_uniform _ _ _ huniform]
  rfl

/-- An element is a route of its own. -/
theorem routed_element (hx : x.form = a) (ha : Fits graph k a)
    (hshown : asked → Undirected a → w.Legible a) (hfuel : 0 < h.fuel) :
    Routed h 1 asked x [a] ∅ w := by
  refine ⟨fun _ hi => hi.elim, fun v hv => ?_⟩
  have hopen : openRoute x v = iterateItems .tuple [x] v := by
    have hensure : ensureRoute x = .tuple [x] none := by
      have helement := isElement_of_form hx ha
      cases x with
      | null => cases helement
      | _ => simp only [ensureRoute, helement, if_true]
    rw [openRoute, hensure]
    rfl
  have hholds : (Meaning.element asked).holds a x ∅ v :=
    ⟨rfl, hx, fun hasked ha u y hu => hshown hasked ha u y (hv.trans hu)⟩
  obtain ⟨u, hitems, huses, hit⟩ :=
    exists_items .tuple (.cons hholds .nil fun _ hi => hi.elim) hfuel
  refine ⟨_, u, _, hopen.trans hitems, huses, ?_, hit⟩
  rw [Set.union_empty]
  rintro i (rfl | hi)
  · exact .inr (Nat.le_refl _)
  · exact hi.elim

/-! ### The edges of one vertex -/

section

variable {keys : Option (Std.HashSet Key)}

/-- The edges of a vertex on one side. -/
theorem exists_neighbours (hkeyed : w.Keyed graph) (ha : Fits graph .vertex a) (hx : x.form = a)
    (hkeys : ∀ label k, label.key? = some k → passes keys k = admits ls label)
    (hfuel : (w.graphAt graph).edges.size + 2 ≤ h.fuel) (side : Side) :
    ∃ u, neighbours x side keys w = .ok (.ref .iterator w.cursors.size) u ∧ Uses ∅ w u ∧
      Delivers h 1 (.element True) (.ref .iterator w.cursors.size) (w.edgesOf a side ls)
        {w.cursors.size} u := by
  obtain ⟨u, hnew, huses, hit⟩ := exists_newCursor (h := h)
    (runs_neighbours hkeyed ha hx hkeys side) hfuel
  obtain ⟨i, m, -, -, hvertex⟩ := vertexOf?_of_form ha hx
  refine ⟨u, ?_, huses, by rwa [insert_empty_eq] at hit⟩
  rw [neighbours, neighbourhood, hvertex]
  exact hnew

/-- The edges of a vertex in a direction. -/
theorem exists_incidentEdges (hkeyed : w.Keyed graph) (ha : Fits graph .vertex a) (hx : x.form = a)
    (hkeys : ∀ label k, label.key? = some k → passes keys k = admits ls label)
    (hfuel : (w.graphAt graph).edges.size + 4 ≤ h.fuel) (direction : Direction) :
    ∃ place u F, incidentEdges x direction keys w = .ok (.ref .iterator place) u ∧ Uses ∅ w u ∧
      F ⊆ within ∅ w.cursors.size ∧
      Delivers h 2 (.element True) (.ref .iterator place)
        (direction.sides.flatMap fun side => w.edgesOf a side ls) F u := by
  have hfuel' : (w.graphAt graph).edges.size + 2 ≤ h.fuel := by omega
  have single : ∀ side, ∃ place u F, neighbours x side keys w = .ok (.ref .iterator place) u ∧
      Uses ∅ w u ∧ F ⊆ within ∅ w.cursors.size ∧
      Delivers h 2 (.element True) (.ref .iterator place) ([side].flatMap fun side =>
        w.edgesOf a side ls) F u := by
    intro side
    obtain ⟨u, hnew, huses, hit⟩ := exists_neighbours hkeyed ha hx hkeys hfuel' side
    refine ⟨_, u, _, hnew, huses, Set.singleton_subset_iff.2 (.inr (Nat.le_refl _)), ?_⟩
    rw [List.flatMap_singleton]
    exact hit.mono (by decide)
  cases direction with
  | outgoing => exact single .outgoing
  | incoming => exact single .incoming
  | both =>
      obtain ⟨u₁, hincoming, huses₁, hit₁⟩ := exists_neighbours hkeyed ha hx hkeys hfuel' .incoming
      have hsize₁ : (u₁.graphAt graph).edges.size + 2 ≤ h.fuel := by
        rw [graphAt, huses₁.empty.graphs_eq]
        exact hfuel'
      obtain ⟨u₂, houtgoing, huses₂, hit₂⟩ :=
        exists_neighbours (Keyed.spared hkeyed huses₁.empty) ha hx hkeys hsize₁ .outgoing
      have hspares : Spares {w.cursors.size} u₁ u₂ := huses₂.spares_of_new hit₁.has
      -- the second sequence is newer than the first, so they stand apart
      have hapart : ∀ i ∈ ({w.cursors.size} : Set ℕ), i ∉ ({u₁.cursors.size} : Set ℕ) := by
        rintro i rfl hi
        exact Nat.lt_irrefl _ (hi ▸ hit₁.has _ rfl)
      obtain ⟨place, u, G, hchain, huses, hG, hit⟩ :=
        exists_chain_pair (hit₁.spared hspares) hit₂ hapart (by omega)
      have hnew := (huses₁.trans huses₂ (Set.empty_subset _)).trans huses (Set.empty_subset _)
      have hboth : incidentEdges x .both keys w = .ok (.ref .iterator place) u := by
        have hlast : ([Side.outgoing].mapM fun side => neighbours x side keys) u₁ =
            .ok [.ref .iterator u₁.cursors.size] u₂ := by
          rw [List.mapM_cons, Act.bind_of_ok houtgoing]
          rfl
        have hmap : ([Side.incoming, .outgoing].mapM fun side => neighbours x side keys) w =
            .ok [.ref .iterator w.cursors.size, .ref .iterator u₁.cursors.size] u₂ := by
          rw [List.mapM_cons, Act.bind_of_ok hincoming]
          exact (Act.bind_of_ok hlast).trans rfl
        exact (Act.bind_of_ok hmap).trans hchain
      have hedges : (Direction.both.sides.flatMap fun side => w.edgesOf a side ls) =
          w.edgesOf a .incoming ls ++ u₁.edgesOf a .outgoing ls := by
        rw [spares_edgesOf huses₁.empty]
        simp [Direction.sides]
      rw [hedges]
      refine ⟨place, u, G, hboth, hnew, hG.trans ?_, hit⟩
      rintro i ((rfl | rfl) | hi)
      · exact .inr (Nat.le_refl _)
      · exact .inr huses₁.size
      · exact .inr ((huses₁.size.trans huses₂.size).trans hi)

end

/-! ### The vertices of edges -/

/-- Images that are vertices of edges stand for the vertices of the forms of these edges. -/
theorem maps_vertices {image : Image} {f : Node → Node}
    (hfits : ∀ a ∈ as, Fits graph .vertex (f a))
    (himage : ∀ H, ∀ a ∈ as, ∀ x v, x.form = a → (asked → Undirected a → v.Legible a) →
      ∃ y, image.apply H x v = .ok y v ∧ y.form = f a) :
    Maps h d (.element asked) (.element True) image f as w := by
  rintro n - a ha x F v - ⟨rfl, hx, hshown⟩
  obtain ⟨y, hy, hform⟩ := himage (h.up n) a ha x v hx hshown
  exact ⟨y, v, ∅, hy, .refl ∅ v, Set.empty_subset _, rfl, hform,
    fun _ hundirected => absurd hundirected (not_undirected_vertex (hfits a ha))⟩

/-- How a step finds the vertices at the far ends of the edges that it has followed. -/
def farImage : Direction → Image
  | .outgoing => .endOf .target
  | .incoming => .endOf .source
  | .both => .farVertex .null

/-- The vertices at the far ends of the edges of a vertex. -/
theorem maps_farImage (ha : Fits graph .vertex a) :
    Maps h d (.element True) (.element True) (farImage direction)
      (fun e => w.endOf (farEnd (reachedFrom e)) e)
      (direction.sides.flatMap fun side => w.edgesOf a side ls) v := by
  have hedge : ∀ e ∈ direction.sides.flatMap (fun side => w.edgesOf a side ls),
      Fits graph .edge e := by
    intro e he
    obtain ⟨side, -, hside⟩ := List.mem_flatMap.1 he
    exact (fits_of_mem_edgesOf ha hside).1
  refine maps_vertices (fun e he => fits_endOf (hedge e he)) fun H e he x v hx hshown => ?_
  have onSide : ∀ side, e ∈ [side].flatMap (fun side => w.edgesOf a side ls) →
      ∃ y, endNode x (farEnd (some side)) v = .ok y v ∧
        y.form = w.endOf (farEnd (reachedFrom e)) e := by
    intro side hside
    rw [List.flatMap_singleton] at hside
    rw [(fits_of_mem_edgesOf ha hside).2]
    exact endNode_eq (hedge e he) hx _ w v
  cases direction with
  | outgoing => exact onSide .outgoing he
  | incoming => exact onSide .incoming he
  | both => exact farVertex_eq (hedge e he) hx (hshown trivial) w

/-- The vertices at the far ends of edges are found by a sequence of their own. -/
theorem exists_farVertices {place : ℕ} {F : Set ℕ} (ha : Fits graph .vertex a)
    (hit : Delivers h d (.element True) (.ref .iterator place)
      (direction.sides.flatMap fun side => w.edgesOf a side ls) F v) (hfuel : 0 < h.fuel) :
    ∃ place' u, farVertices direction (.ref .iterator place) v = .ok (.ref .iterator place') u ∧
      Uses ∅ v u ∧
      Delivers h (d + 1) (.element True) (.ref .iterator place')
        ((direction.sides.flatMap fun side => w.edgesOf a side ls).map fun e =>
          w.endOf (farEnd (reachedFrom e)) e) (insert v.cursors.size F) u := by
  have hruns := runs_each hit (maps_farImage (v := v) ha)
  obtain ⟨u, hnew, huses, hdelivers⟩ := exists_newCursor hruns hfuel
  refine ⟨_, u, ?_, huses, hdelivers⟩
  rw [← hnew]
  cases direction <;> rfl

/-! ### Steps along edges -/

/-- The route of one vertex. -/
theorem exists_group {keys : Option (Std.HashSet Key)} (hkeyed : w.Keyed graph)
    (ha : Fits graph .vertex a) (hx : x.form = a) (hlabels : w.labels? labels = some ls)
    (hkeys : ∀ label k, label.key? = some k → passes keys k = admits ls label)
    (hfuel : (w.graphAt graph).edges.size + 4 ≤ h.fuel) (direction : Direction) (gives : Yield)
    (H : Host) :
    ∃ place u F, (Image.group direction gives keys .none).apply H x w = .ok (.ref .iterator place) u ∧
      Uses ∅ w u ∧ F ⊆ within ∅ w.cursors.size ∧
      Delivers h 3 (.element True) (.ref .iterator place) (w.along direction labels gives a) F u := by
  obtain ⟨place, u, F, hincident, huses, hF, hit⟩ :=
    exists_incidentEdges hkeyed ha hx hkeys hfuel direction
  have hedges : w.edgesFrom direction labels a =
      direction.sides.flatMap fun side => w.edgesOf a side ls := by
    rw [edgesFrom, hlabels, Option.getD_some]
  cases gives with
  | edges =>
      refine ⟨place, u, F, (Act.bind_of_ok hincident).trans rfl, huses, hF, ?_⟩
      rw [along, hedges]
      exact hit.mono (by decide)
  | vertices =>
      obtain ⟨place', t, hfar, hmoves, hit'⟩ := exists_farVertices ha hit (by omega)
      refine ⟨place', t, insert u.cursors.size F, ?_, huses.trans hmoves (Set.empty_subset _), ?_, ?_⟩
      · exact (Act.bind_of_ok hincident).trans ((Act.bind_of_ok hfar).trans rfl)
      · exact Set.insert_subset (.inr huses.size) hF
      · rw [along, hedges]
        exact hit'

/-- **One route per vertex**: labels and route are looked at when the first is asked for. -/
theorem runs_groups (hroute : Routed h d asked route as P w) (hd : 3 ≤ d)
    (hfits : ∀ a ∈ as, Fits graph .vertex a) (hkeyed : w.Keyed graph)
    (hlabels : w.labels? labels = some ls) (hls : ∀ l ∈ ls, l.key?.isSome)
    (hfuel : (w.graphAt graph).edges.size + 4 ≤ h.fuel) (hfuel' : ls.length < h.fuel)
    (direction : Direction) (gives : Yield) :
    Runs h d 2 ((Meaning.element True).sequence h (d + 1))
      (.deferred (.groups route labels direction gives .none))
      (as.map (w.along direction labels gives)) P w := by
  refine runs_deferred hroute.1 fun n hn v hv => ?_
  -- to read the labels takes a level of its own
  obtain ⟨m, rfl, -⟩ := exists_level_below (Nat.le_trans hd hn)
  obtain ⟨keys, u, hread, hkeys, hkeeps⟩ := labelKeys_eq (h := h.up m)
    ((congrFun (spares_labels? hv) labels).trans hlabels) hls (by rwa [Host.fuel_up])
  have hreads : Uses ∅ v u := hkeeps.uses (Nat.le_refl _)
  have hu : Spares P w u :=
    hv.trans (hreads.spares_of_new (hroute.1.spared hv))
  obtain ⟨it, t, Q, hopen, hopens, hQ, hit⟩ := hroute.2 u hu
  refine ⟨.each (.group direction gives keys .none) it, t, Q, ?_,
    (hreads.mono (Set.empty_subset P)).trans hopens (subset_within P _),
    hQ.trans (within_mono (subset_within P _) hreads.size), runs_each hit ?_⟩
  · exact (Act.bind_of_ok hread).trans ((Act.bind_of_ok hopen).trans rfl)
  · rintro n - a ha x F v' hv' ⟨rfl, hx, -⟩
    have hw : Spares ∅ w v' := (hu.empty.trans hopens.empty).trans hv'
    obtain ⟨place, t', G, hgroup, hmoves, hG, hdelivers⟩ :=
      exists_group (Keyed.spared hkeyed hw) (hfits a ha) hx
        ((congrFun (spares_labels? hw) labels).trans hlabels) hkeys
        (by rwa [spares_graphAt hw]) direction gives (h.up n)
    rw [spares_along hw] at hdelivers
    exact ⟨_, t', G, hgroup, hmoves, hG, ⟨place, rfl⟩, hdelivers.mono (Nat.le_succ_of_le hd)⟩

/-- A step along edges. -/
theorem callOp_step_routed (hroute : Routed h d asked route as P w) (hd : 3 ≤ d)
    (hfits : ∀ a ∈ as, Fits graph .vertex a) (hkeyed : w.Keyed graph)
    (hlabels : ∃ ls, w.labels? labels = some ls ∧ ∀ l ∈ ls, l.key?.isSome)
    (hfuel : (w.graphAt graph).edges.size + as.length + ((w.labels? labels).getD []).length + 4 ≤
      h.fuel) (direction : Direction) (gives : Yield) (H : Host) :
    ∃ r u Q, H.callOp (.step { direction, gives, grouped := false }) [route, labels] [] w = .ok r u ∧
      Uses P w u ∧ Routed h (d + 2) True r (as.flatMap (w.along direction labels gives)) Q u := by
  obtain ⟨ls, hlabels, hls⟩ := hlabels
  rw [hlabels, Option.getD_some] at hfuel
  have hruns := runs_groups hroute hd hfits hkeyed hlabels hls (by omega) (by omega) direction gives
  obtain ⟨u, hgroups, huses, hit⟩ := exists_newCursor hruns (by omega)
  obtain ⟨t, hchain, hmoves, hdelivers⟩ := exists_chain hit (by rw [List.length_map]; omega)
  rw [← List.flatMap_def] at hdelivers
  have hopen : openStep { direction, gives, grouped := false } route labels .none w =
      .ok (.ref .iterator u.cursors.size) t := (Act.bind_of_ok hgroups).trans hchain
  have hmoved : Uses ∅ w t := huses.trans hmoves (Set.empty_subset _)
  exact ⟨_, t, _, (Act.bind_of_ok hopen).trans rfl, hmoved.mono (Set.empty_subset P), hdelivers.routed⟩

/-! ### Steps to the ends of edges -/

/-- A step that gives one vertex for each edge. -/
theorem openEach_routed {image : Image} {f : Node → Node} (hroute : Routed h d asked route as P w)
    (hfits : ∀ a ∈ as, Fits graph .vertex (f a))
    (himage : ∀ H, ∀ a ∈ as, ∀ x v, x.form = a → (asked → Undirected a → v.Legible a) →
      ∃ y, image.apply H x v = .ok y v ∧ y.form = f a) (hfuel : 0 < h.fuel) :
    ∃ place u Q, (do
        let it ← openRoute route
        World.newCursor (.each image it)) w = .ok (.ref .iterator place) u ∧ Uses P w u ∧
      Routed h (d + 1) True (.ref .iterator place) (as.flatMap fun a => [f a]) Q u := by
  obtain ⟨it, v, Q, hopen, hopens, -, hit⟩ := hroute.2 w (.refl P w)
  obtain ⟨u, hnew, huses, hdelivers⟩ := exists_newCursor
    (runs_each hit (maps_vertices hfits himage)) hfuel
  rw [← List.map_eq_flatMap]
  exact ⟨_, u, _, (Act.bind_of_ok hopen).trans hnew, hopens.trans huses (Set.empty_subset _),
    hdelivers.routed⟩

/-- A vertex of an edge of a form is the vertex of that form. -/
theorem endsAt_endOf (hfits : ∀ a ∈ as, Fits graph .edge a) (i : End) (v : World) :
    EndsAt (.element asked) (.element True) i (w.endOf i) as v := by
  rintro a ha x F v' - ⟨-, hx, -⟩
  obtain ⟨y, hy, hform⟩ := endNode_eq (hfits a ha) hx i w v'
  have hvertex := not_undirected_vertex (fits_endOf (w := w) (i := i) (hfits a ha))
  exact ⟨y, hy, rfl, hform, fun _ hundirected => absurd hundirected hvertex⟩

/-- A step to the ends of edges. -/
theorem openEnds_routed {s : EndStep} (hroute : Routed h d asked route as P w)
    (hfits : ∀ a ∈ as, Fits graph .edge a) (hasked : (Hop.ends s).asks → asked)
    (hfuel : 2 ≤ h.fuel) :
    ∃ place u Q, openEnds s route .null w = .ok (.ref .iterator place) u ∧ Uses P w u ∧
      Routed h (d + 1) True (.ref .iterator place) (as.flatMap ((Hop.ends s).leads w)) Q u := by
  have hpos : 0 < h.fuel := Nat.lt_of_lt_of_le Nat.two_pos hfuel
  cases s with
  | sources =>
      refine openEach_routed hroute (fun a ha => fits_endOf (hfits a ha)) ?_ hpos
      exact fun H a ha x v hx _ => endNode_eq (hfits a ha) hx .source w v
  | targets =>
      refine openEach_routed hroute (fun a ha => fits_endOf (hfits a ha)) ?_ hpos
      exact fun H a ha x v hx _ => endNode_eq (hfits a ha) hx .target w v
  | targetsThenSources =>
      have hruns : Runs h d 2 (.element True) (.deferred (.bothEnds route))
          (as.flatMap ((Hop.ends .targetsThenSources).leads w)) P w := by
        refine runs_deferred hroute.1 fun n _ v hv => ?_
        obtain ⟨it, u, Q, hopen, hopens, hQ, hit⟩ := hroute.2 v hv
        exact ⟨.ends { source := it }, u, Q, (Act.bind_of_ok hopen).trans rfl, hopens, hQ,
          runs_both hit (endsAt_endOf hfits .target u) (endsAt_endOf hfits .source u)⟩
      obtain ⟨u, hnew, huses, hdelivers⟩ := exists_newCursor hruns hfuel
      exact ⟨_, u, _, hnew, huses.mono (Set.empty_subset P), hdelivers.routed⟩
  | far =>
      refine openEach_routed hroute (fun a ha => fits_endOf (hfits a ha)) ?_ hpos
      exact fun H a ha x v hx hshown => farVertex_eq (hfits a ha) hx (hshown (hasked trivial)) w
  | near =>
      refine openEach_routed hroute (fun a ha => fits_endOf (hfits a ha)) ?_ hpos
      exact fun H a ha x v hx hshown => nearVertex_eq (hfits a ha) hx (hshown (hasked trivial)) w

/-! ### Steps -/

/-- What a route delivers, it delivers to hosts of higher levels. -/
theorem Routed.mono {e : ℕ} (hroute : Routed h d asked route as P w) (hd : d ≤ e) :
    Routed h e asked route as P w := by
  refine ⟨hroute.1, fun v hv => ?_⟩
  obtain ⟨it, u, Q, hopen, hopens, hQ, hit⟩ := hroute.2 v hv
  exact ⟨it, u, Q, hopen, hopens, hQ, hit.mono hd⟩

/-- **A step delivers the elements to which it leads.** -/
theorem Hop.take_routed {s : Hop k l} (hroute : Routed h d asked route as P w) (hd : 3 ≤ d)
    (hfits : ∀ a ∈ as, Fits graph k a) (hkeyed : w.Keyed graph) (hlabelled : s.Labelled w)
    (hasked : s.asks → asked) (hfuel : s.effort w graph as ≤ h.fuel) (H : Host) :
    ∃ r u Q, s.take H route w = .ok r u ∧ Uses P w u ∧
      Routed h (d + 2) True r (as.flatMap (s.leads w)) Q u := by
  cases s with
  | edges direction =>
      exact callOp_step_routed hroute hd hfits hkeyed hlabelled hfuel direction .edges H
  | vertices direction =>
      exact callOp_step_routed hroute hd hfits hkeyed hlabelled hfuel direction .vertices H
  | ends s =>
      obtain ⟨place, u, Q, hopen, huses, hrouted⟩ := openEnds_routed hroute hfits hasked hfuel
      have hcall : take H (ends s) route w =
          (do let it ← openEnds s route .null; World.handOut it : M Value) w := by
        cases s <;> rfl
      exact ⟨_, u, Q, hcall.trans ((Act.bind_of_ok hopen).trans rfl), huses,
        hrouted.mono (Nat.le_succ _)⟩

/-! ### Compositions of steps -/

/-- Steps that fit together, one after the other. -/
inductive Hops : Layer → Layer → Type
  | nil {k : Layer} : Hops k k
  | cons {k l m : Layer} (s : Hop k l) (S : Hops l m) : Hops k m

namespace Hops

/-- The elements to which a composition of steps leads. -/
def leads {k l : Layer} (w : World) : Hops k l → Node → List Node
  | nil, a => [a]
  | cons s S, a => (s.leads w a).flatMap (S.leads w)

/-- Takes the steps from a route, one after the other. -/
def follow {k l : Layer} (h : Host) : Hops k l → Value → M Value
  | nil, route => pure route
  | cons s S, route => do
    let r ← s.take h route
    S.follow h r

/-- Takes the steps from a route, and reads what they give to its end. -/
def results {k l : Layer} (h : Host) (S : Hops k l) (route : Value) : M (List Value) := do
  let r ← S.follow h route
  let it ← openRoute r
  h.drain it

/-- Whether the first step asks for the direction of the edge from which it is taken.  Edges that are
met later have one. -/
def asks {k l : Layer} : Hops k l → Prop
  | nil => False
  | cons s _ => s.asks

/-- The labels of all steps are collections of values with keys. -/
def Labelled {k l : Layer} (w : World) : Hops k l → Prop
  | nil => True
  | cons s S => s.Labelled w ∧ S.Labelled w

/-- How many steps there are. -/
def length {k l : Layer} : Hops k l → ℕ
  | nil => 0
  | cons _ S => S.length + 1

/-- How many items are read in one go at most. -/
def effort {k l : Layer} (w : World) (graph : ℕ) : Hops k l → List Node → ℕ
  | nil, as => as.length + 1
  | cons s S, as => max (s.effort w graph as) (S.effort w graph (as.flatMap (s.leads w)))

end Hops

theorem spares_hopsLeads (hv : Spares P w v) (S : Hops k l) : S.leads v = S.leads w := by
  induction S with
  | nil => rfl
  | cons s S ih =>
      funext a
      rw [Hops.leads, Hops.leads, spares_leads hv s, ih]

theorem spares_hopsLabelled {S : Hops k l} (hS : S.Labelled w) (hv : Spares P w v) :
    S.Labelled v := by
  induction S with
  | nil => trivial
  | cons s S ih => exact ⟨spares_labelled hS.1 hv, ih hS.2⟩

theorem spares_hopsEffort (hv : Spares P w v) (S : Hops k l) (as : List Node) :
    S.effort v graph as = S.effort w graph as := by
  induction S generalizing as with
  | nil => rfl
  | cons s S ih => rw [Hops.effort, Hops.effort, spares_effort hv, spares_leads hv, ih]

theorem flatMap_leads_cons (s : Hop k l) (S : Hops l m) (as : List Node) :
    as.flatMap ((Hops.cons s S).leads w) = (as.flatMap (s.leads w)).flatMap (S.leads w) :=
  List.flatMap_assoc.symm

/-- The results are read in one go. -/
theorem length_lt_effort (S : Hops k l) (as : List Node) :
    (as.flatMap (S.leads w)).length < S.effort w graph as := by
  induction S generalizing as with
  | nil => simp [Hops.leads, Hops.effort]
  | cons s S ih =>
      rw [flatMap_leads_cons]
      exact Nat.lt_of_lt_of_le (ih _) (Nat.le_max_right _ _)

/-- Steps that are taken one after the other deliver the elements to which they lead. -/
theorem Hops.follow_routed {S : Hops k l} (hroute : Routed h d asked route as P w) (hd : 3 ≤ d)
    (hfits : ∀ a ∈ as, Fits graph k a) (hkeyed : w.Keyed graph) (hlabelled : S.Labelled w)
    (hasked : S.asks → asked) (hfuel : S.effort w graph as ≤ h.fuel) (H : Host) :
    ∃ asked' r u Q, S.follow H route w = .ok r u ∧ Spares ∅ w u ∧
      Routed h (d + 2 * S.length) asked' r (as.flatMap (S.leads w)) Q u := by
  induction S generalizing d asked route as P w with
  | @nil k =>
      have hsame : as.flatMap ((nil : Hops k k).leads w) = as := by simp [leads]
      rw [hsame]
      exact ⟨asked, route, w, P, rfl, .refl ∅ w, hroute⟩
  | @cons k l m s S ih =>
      obtain ⟨r, u, Q, hstep, huses, hrouted⟩ := Hop.take_routed hroute hd hfits hkeyed hlabelled.1
        hasked ((Nat.le_max_left _ _).trans hfuel) H
      have hfits' : ∀ b ∈ as.flatMap (s.leads w), Fits graph l b := by
        intro b hb
        obtain ⟨a, ha, hb⟩ := List.mem_flatMap.1 hb
        exact fits_of_mem_leads (hfits a ha) hb
      have hfuel' : S.effort u graph (as.flatMap (s.leads w)) ≤ h.fuel := by
        rw [spares_hopsEffort huses]
        exact (Nat.le_max_right _ _).trans hfuel
      -- edges to which a step has led have a direction, so all other steps may ask for it
      obtain ⟨asked', t, v, F, hrest, hspares, hrouted'⟩ := ih hrouted (by omega) hfits'
        (Keyed.spared hkeyed huses) (spares_hopsLabelled hlabelled.2 huses) (fun _ => trivial) hfuel'
      rw [spares_hopsLeads huses, ← flatMap_leads_cons] at hrouted'
      refine ⟨asked', t, v, F, (Act.bind_of_ok hstep).trans hrest, huses.empty.trans hspares,
        hrouted'.mono ?_⟩
      rw [length]
      omega

/-- Values that are elements of the forms of a list have these forms. -/
theorem map_form_of_holds {xs : List Value}
    (hxs : List.Forall₂ (fun a x => ∃ F v, (Meaning.element asked).holds a x F v) as xs) :
    xs.map Value.form = as := by
  induction hxs with
  | nil => rfl
  | cons hx _ ih =>
      obtain ⟨-, -, -, hform, -⟩ := hx
      rw [List.map_cons, hform, ih]

/-- **The results of a traversal are the elements to which its steps lead.** -/
theorem Hops.results_eq (S : Hops k l) (ha : Fits graph k x.form) (hkeyed : w.Keyed graph)
    (hlabelled : S.Labelled w) (hshown : S.asks → Undirected x.form → w.Legible x.form)
    (hn : 3 + 2 * S.length ≤ n) (hfuel : S.effort w graph [x.form] ≤ h.fuel) :
    ∃ xs u, S.results (h.up n) x w = .ok xs u ∧ Spares ∅ w u ∧
      xs.map Value.form = S.leads w x.form := by
  have hleads : [x.form].flatMap (S.leads w) = S.leads w x.form := List.flatMap_singleton _ _
  have hlength : (S.leads w x.form).length < h.fuel := by
    rw [← hleads]
    exact (length_lt_effort S _).trans_le hfuel
  have hroute := routed_element rfl ha hshown (Nat.zero_lt_of_lt hlength)
  obtain ⟨asked, r, u, Q, hfollow, hfollowed, hrouted⟩ := follow_routed (hroute.mono (by decide : 1 ≤ 3))
    (Nat.le_refl 3) (fun a ha' => List.mem_singleton.1 ha' ▸ ha) hkeyed hlabelled id hfuel (h.up n)
  obtain ⟨it, v, F, hopen, hopened, -, hit⟩ := hrouted.2 u (.refl Q u)
  rw [hleads] at hit
  obtain ⟨xs, t, hgives, hgiven, hxs⟩ := hit.gives hn
  have hforms : xs.map Value.form = S.leads w x.form := map_form_of_holds hxs
  have hdrain : (h.up n).drain it v = .ok xs t := by
    refine hgives.drain ?_
    rw [Host.fuel_up, ← List.length_map (f := Value.form), hforms]
    exact hlength
  exact ⟨xs, t, (Act.bind_of_ok hfollow).trans ((Act.bind_of_ok hopen).trans hdrain),
    hfollowed.trans (hopened.empty.trans hgiven), hforms⟩

end GraphRoutes.Session
