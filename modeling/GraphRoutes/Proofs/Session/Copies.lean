/-
**The graph of the lineages of a route.**

A route of elements of a graph is read to its end, and with each item its lineage, from the root on.  Every
edge of the graph that is met is copied into a new graph, once, and with its vertices; then the new graph is
sealed.  Whoever asks it is told, in order, of the edges that were met what they say in the graph from which
they come, and of their vertices, each once and in the order in which the edges mention them.

Main definitions:

* `GraphRoutes.Session.Draws`, `GraphRoutes.Session.Yields` — a route that is read to its end, while a graph
  stays as it is;
* `GraphRoutes.Session.Copies` — what the new graph tells.

Main results:

* `GraphRoutes.Session.Draws.foldFrom` — a loop over what is drawn;
* `GraphRoutes.Session.Routed.yields`, `GraphRoutes.Session.routed_collection` — routes, and collections at
  hand, can be read to their end;
* `GraphRoutes.Session.Gathered.copies_publish` — a store that was made of edges is a copy of them;
* `GraphRoutes.Session.callOp_subgraph` — **the graph of a route is a copy of the edges that are met**.
-/
import GraphRoutes.Proofs.Session.Gathering
import GraphRoutes.Proofs.Session.Lineages
import GraphRoutes.Proofs.Session.Register

set_option relaxedAutoImplicit false
set_option autoImplicit false

namespace GraphRoutes.Session

open World

variable {graph place i k n : ℕ} {t u v w : World} {g : Graph} {L : Register} {h H : Host}
  {it x route : Value} {xs ys : List Value} {es : List StoredEdge} {e : StoredEdge}

/-! ### Routes that are read to their end -/

/-- The items `xs` are drawn from an iterator, one by one and to its end, while the graph at a place stays
as it is. -/
inductive Draws (H : Host) (graph : ℕ) (it : Value) : List Value → World → World → Prop
  | ended {w v : World} (hpull : H.pull it w = .ok none v)
      (hgraph : v.graphs[graph]? = w.graphs[graph]?) : Draws H graph it [] w v
  | item {w v u : World} {x : Value} {xs : List Value} (hpull : H.pull it w = .ok (some x) v)
      (hgraph : v.graphs[graph]? = w.graphs[graph]?) (hrest : Draws H graph it xs v u) :
      Draws H graph it (x :: xs) w u

/-- A route yields the items `xs`: it is opened, and they are drawn from it. -/
def Yields (H : Host) (graph : ℕ) (route : Value) (xs : List Value) (w u : World) : Prop :=
  ∃ it v, openRoute route w = .ok it v ∧ v.graphs[graph]? = w.graphs[graph]? ∧ Draws H graph it xs v u

/-- **A loop over what is drawn**, whose turns look at the graph and leave the world alone. -/
theorem Draws.foldFrom {β : Type} {f : β → Value → M β} (R : List Value → β → Prop)
    (hf : ∀ ys x b v, v.graphs[graph]? = w.graphs[graph]? → x ∈ xs → R ys b →
      ∃ b', f b x v = .ok b' v ∧ R (ys ++ [x]) b')
    (hdraws : Draws H graph it xs w u) (hn : xs.length < n) {b : β} (hb : R ys b) :
    ∃ b', H.foldFrom f it n b w = .ok b' u ∧ R (ys ++ xs) b' ∧ u.graphs[graph]? = w.graphs[graph]? := by
  induction hdraws generalizing n ys b with
  | ended hpull hgraph =>
      obtain ⟨n, rfl⟩ := Nat.exists_eq_succ_of_ne_zero (Nat.ne_of_gt hn)
      refine ⟨b, ?_, by rwa [List.append_nil], hgraph⟩
      rw [Host.foldFrom, Act.bind_of_ok hpull]
      rfl
  | @item w v u x xs hpull hgraph hrest ih =>
      obtain ⟨n, rfl⟩ := Nat.exists_eq_succ_of_ne_zero (Nat.ne_of_gt (Nat.zero_lt_of_lt hn))
      obtain ⟨b', hturn, hb'⟩ := hf ys x b v hgraph List.mem_cons_self hb
      obtain ⟨b'', hfold, hb'', hgraph'⟩ :=
        ih (fun ys y b t ht hy => hf ys y b t (ht.trans hgraph) (List.mem_cons_of_mem x hy))
          (Nat.lt_of_succ_lt_succ hn) hb'
      refine ⟨b'', ?_, by rwa [List.append_assoc] at hb'', hgraph'.trans hgraph⟩
      rw [Host.foldFrom, Act.bind_of_ok hpull]
      exact (Act.bind_of_ok hturn).trans hfold

/-- What is delivered can be drawn. -/
theorem Delivers.draws {α : Type} {R : Meaning α} {d : ℕ} {as : List α} {P : Set ℕ}
    (hit : Delivers h d R it as P w) (hn : d ≤ n) (graph : ℕ) :
    ∃ xs u, Draws (h.up n) graph it xs w u ∧ List.Forall₂ (fun a x => ∃ F v, R.holds a x F v) as xs := by
  induction as generalizing P w with
  | nil =>
      obtain ⟨u, hpull, huses⟩ := hit.2 n hn w (.refl P w)
      exact ⟨[], u, .ended hpull (by rw [huses.empty.graphs_eq]), .nil⟩
  | cons a as ih =>
      obtain ⟨x, v, F, Q, hpull, huses, -, hx, hrest⟩ := hit.2 n hn w (.refl P w)
      obtain ⟨xs, u, hdraws, hxs⟩ := ih hrest
      exact ⟨x :: xs, u, .item hpull (by rw [huses.empty.graphs_eq]) hdraws, .cons ⟨F, v, hx⟩ hxs⟩

/-- A route that delivers elements of some forms yields them. -/
theorem Routed.yields {asked : Prop} {d : ℕ} {as : List Node} {P : Set ℕ}
    (hroute : Routed h d asked route as P w) (hn : d ≤ n) (graph : ℕ) :
    ∃ xs u, Yields (h.up n) graph route xs w u ∧ xs.map Value.form = as := by
  obtain ⟨it, v, Q, hopen, hopens, -, hit⟩ := hroute.2 w (.refl P w)
  obtain ⟨xs, u, hdraws, hxs⟩ := hit.draws hn graph
  exact ⟨xs, u, ⟨it, v, hopen, by rw [hopens.empty.graphs_eq], hdraws⟩, map_form_of_holds hxs⟩

/-- Elements of any forms stand on no cursors. -/
theorem holdings_of_form (xs : List Value) (w : World) :
    Holdings (.element False) w (xs.map Value.form) xs ∅ := by
  induction xs with
  | nil => exact .nil
  | cons x xs ih =>
      have hx : (Meaning.element False).holds x.form x ∅ w := ⟨rfl, rfl, fun hasked => hasked.elim⟩
      have hxs := Holdings.cons hx ih fun _ hi => hi.elim
      rwa [Set.union_empty] at hxs

/-- A collection at hand is delivered, with the forms of its items. -/
theorem exists_iterate (hroute : w.collection? route = some xs) (hfuel : 0 < h.fuel) :
    ∃ u, iterate route w = .ok (.ref .iterator w.cursors.size) u ∧ Uses ∅ w u ∧
      Delivers h 1 (.element False) (.ref .iterator w.cursors.size) (xs.map Value.form)
        {w.cursors.size} u := by
  obtain ⟨c, hiterate, hready⟩ := iterate_collection hroute
  have hdelivers := delivers_ready (h := h) hready (holdings_of_form xs _) (Set.notMem_empty _) hfuel
  rw [insert_empty_eq] at hdelivers
  exact ⟨_, hiterate, uses_push w c, hdelivers⟩

/-- A collection at hand is a route. -/
theorem routed_collection (hopen : ensureRoute route = route) (hroute : w.collection? route = some xs)
    (hfuel : 0 < h.fuel) : Routed h 1 False route (xs.map Value.form) ∅ w := by
  refine ⟨fun _ hi => hi.elim, fun v hv => ?_⟩
  obtain ⟨u, hiterate, huses, hdelivers⟩ :=
    exists_iterate (h := h) ((collection?_congr hv.lists_eq hv.bags_eq route).trans hroute) hfuel
  refine ⟨_, u, _, ?_, huses, Set.singleton_subset_iff.2 (.inr (Nat.le_refl _)), hdelivers⟩
  rw [openRoute, hopen, hiterate]

/-! ### What a copy tells -/

/-- The vertex at a position of a graph, as it shows itself. -/
def World.vertexToldAt (w : World) (graph i : ℕ) : Option (Value × Value) := do
  let _ ← (w.graphAt graph).idAt? i
  w.vertexTold? (vertexAt graph i)

/-- The edge at a position of a graph, as it shows itself. -/
def World.edgeToldAt (w : World) (graph k : ℕ) : Option (Value × Value × Value × Value) := do
  let e ← (w.graphAt graph).allEdges[k]?
  w.edgeTold? (.edge (.stored graph e) none)

/-- The graph at a place is a copy of the edges at the positions `ks` of another graph: it is sealed; its
edges, in order, are as many and tell what those tell in the world `w`; and its vertices are those that these
edges mention, in the order in which they do, and tell the same. -/
structure Copies (w : World) (graph : ℕ) (v : World) (place : ℕ) (ks : List ℕ) : Prop where
  isSealed : readMember (.ref .graph place) .isSealed v = .ok (.bool true) v
  edges : ∀ H : Host, ∃ l u, H.ask place .edges [] v = .ok (.ref .list l) u ∧
    (u.listAt l).toList.map u.edgeTold? = ks.map (w.edgeToldAt graph)
  vertices : ∀ H : Host, ∃ l u, H.ask place .allVertices [] v = .ok (.ref .list l) u ∧
    (u.listAt l).toList.map u.vertexTold? =
      ((w.graphAt graph).mentionedBy ks).map (w.vertexToldAt graph)
  stored : (∀ k ∈ ks, (w.edgeToldAt graph k).isSome) ∧
    ∀ i ∈ (w.graphAt graph).mentionedBy ks, (w.vertexToldAt graph i).isSome

theorem vertexToldAt_eq (hg : w.graphs[graph]? = some g) (hshows : g.Shows Value.key? L) (i : ℕ) :
    w.vertexToldAt graph i = (L.plain.vertices[i]?).map shownVertex := by
  rw [vertexToldAt, graphAt_eq hg, hshows.idAt?_eq, Register.plain, List.getElem?_map]
  cases hx : L.vertices[i]? with
  | none => rfl
  | some x =>
      refine (vertexTold?_eq hg hshows hx none).trans ?_
      simp [shownVertex]

theorem edgeToldAt_eq (hg : w.graphs[graph]? = some g) (hshows : g.Shows Value.key? L) (k : ℕ) :
    w.edgeToldAt graph k = (L.plain.edges[k]?).map shownEdge := by
  have hlinks := congrArg (·[k]?) hshows.map_link?_allEdges
  simp only [List.getElem?_map] at hlinks
  rw [edgeToldAt, graphAt_eq hg, Register.plain, List.getElem?_map]
  cases hl : L.edges[k]? with
  | none =>
      rw [hl, Option.map_none, Option.map_eq_none_iff] at hlinks
      rw [hlinks]
      rfl
  | some l =>
      rw [hl] at hlinks
      obtain ⟨e, he, hlink⟩ := Option.map_eq_some_iff.1 hlinks
      rw [he]
      refine (edgeTold?_eq hg hlink none).trans ?_
      simp [shownEdge]

theorem isSome_of_map_eq {α β : Type} {f : ℕ → Option α} {ps : List ℕ} {ys : List β} {c : β → α}
    (h : ys.map (fun y => some (c y)) = ps.map f) : ∀ p ∈ ps, (f p).isSome := by
  intro p hp
  have hmem := List.mem_map_of_mem (f := f) hp
  rw [← h, List.mem_map] at hmem
  obtain ⟨y, -, hy⟩ := hmem
  rw [← hy, Option.isSome_some]

/-- What a graph tells does not change as long as the graph stays as it is. -/
theorem Copies.congr {ks : List ℕ} (hw : w.graphs[graph]? = some g) (hu : u.graphs[graph]? = some g)
    (hshows : g.Shows Value.key? L) (h : Copies u graph v place ks) : Copies w graph v place ks := by
  have hedges : u.edgeToldAt graph = w.edgeToldAt graph :=
    funext fun k => (edgeToldAt_eq hu hshows k).trans (edgeToldAt_eq hw hshows k).symm
  have hvertices : u.vertexToldAt graph = w.vertexToldAt graph :=
    funext fun i => (vertexToldAt_eq hu hshows i).trans (vertexToldAt_eq hw hshows i).symm
  have hat : u.graphAt graph = w.graphAt graph := by rw [graphAt_eq hu, graphAt_eq hw]
  obtain ⟨hsealed, hask, hask', hstored⟩ := h
  rw [hedges] at hask hstored
  rw [hvertices, hat] at hask' hstored
  exact ⟨hsealed, hask, hask', hstored⟩

/-- **A store that was made of edges**, once it is sealed, is a copy of them. -/
theorem Gathered.copies_publish {made : Gathering Value Key Value Value Token}
    (hg : w.graphs[graph]? = some g) (hshows : g.Shows Value.key? L)
    (hmade : Gathered graph g L.plain es made) (hv : v.graphs[place]? = some made.store.publish) :
    Copies w graph v place (metOf es) := by
  obtain ⟨M, ls, hM, hexcerpt, hls⟩ := hmade.copies
  have hM' : made.store.publish.Shows Value.key? M := ⟨hM.vertices, hM.keyed, hM.distinct, hM.edges⟩
  have hedges : (M.edges.map fun l => some (shownEdge l)) = (metOf es).map (w.edgeToldAt graph) := by
    have hshown := congrArg (List.map (Option.map shownEdge)) hls
    rw [List.map_map, List.map_map] at hshown
    rw [hexcerpt.edges]
    exact hshown.trans (List.map_congr_left fun k _ => (edgeToldAt_eq hg hshows k).symm)
  have hvertices : (M.vertices.map fun x => some (shownVertex x)) =
      (g.mentionedBy (metOf es)).map (w.vertexToldAt graph) := by
    have hshown := congrArg (List.map (Option.map shownVertex)) hexcerpt.vertices
    rw [List.map_map, List.map_map] at hshown
    exact hshown.trans (List.map_congr_left fun i _ => (vertexToldAt_eq hg hshows i).symm)
  refine ⟨?_, fun H => ?_, fun H => ?_, isSome_of_map_eq hedges, ?_⟩
  · rw [readMember, Act.bind_of_ok (m := get) rfl]
    simp only [datum?, graphAt_eq hv, Store.isSealed_publish]
    rfl
  · obtain ⟨l, u, hask, htold, -⟩ := ask_edges hv hM' H
    exact ⟨l, u, hask, htold.trans hedges⟩
  · obtain ⟨l, u, hask, htold⟩ := ask_allVertices hv hM' H
    rw [graphAt_eq hg]
    exact ⟨l, u, hask, htold.trans hvertices⟩
  · rw [graphAt_eq hg]
    exact isSome_of_map_eq hvertices

/-! ### The call -/

/-- A report leaves everything but the log alone, if its text can be made. -/
theorem exists_reportText {level s : String} {text : M String} (htext : text w = .ok s w) :
    ∃ v, reportText level text w = .ok () v ∧ v.graphs = w.graphs := by
  cases hlogging : w.logging with
  | false =>
      refine ⟨w, ?_, rfl⟩
      rw [reportText, Act.bind_of_ok (m := get) rfl, hlogging]
      rfl
  | true =>
      have hlogged : reportText level text w =
          (text >>= fun entry => World.record (.list [.str level, .str entry])) w := by
        rw [reportText, Act.bind_of_ok (m := get) rfl, hlogging]
        rfl
      exact ⟨_, hlogged.trans ((Act.bind_of_ok htext).trans rfl), rfl⟩

/-- To seal an open graph changes nothing else but the log. -/
theorem exists_publish (hg : w.graphs[graph]? = some g) (hopen : g.isSealed = false) :
    ∃ v, publish graph w = .ok (.ref .graph graph) v ∧
      v.graphs = w.graphs.modify graph Store.publish := by
  let t : World := { w with graphs := w.graphs.modify graph Store.publish }
  have htext : (do
      let text ← displayed (.ref .graph graph)
      pure ("Sealed " ++ text) : M String) t = .ok ("Sealed " ++ displayGraph (t.graphAt graph)) t := rfl
  obtain ⟨v, hreport, hgraphs⟩ : ∃ v, reportText "#DEBUG" _ t = .ok () v ∧ v.graphs = t.graphs :=
    exists_reportText htext
  refine ⟨v, ?_, hgraphs⟩
  rw [publish, Act.bind_of_ok (m := get) rfl, graphAt_eq hg, hopen]
  exact (Act.bind_of_ok (m := modify _) rfl).trans ((Act.bind_of_ok hreport).trans rfl)

theorem Rooted.congr (hx : w.Rooted graph x) (hv : v.graphs[graph]? = w.graphs[graph]?) :
    v.Rooted graph x := by
  have hat : v.graphAt graph = w.graphAt graph := by rw [graphAt, graphAt, hv]
  obtain ⟨items, hitems, howns⟩ := hx
  refine ⟨items, hitems, fun a ha => ?_⟩
  cases howns a ha with
  | vertex ha => exact .vertex ha
  | edge ha he =>
      refine .edge ha ?_
      rw [Stores, hat]
      exact he

/-- **The graph of a route that is read to its end** is a copy of the edges on the lineages of its items. -/
theorem callOp_subgraph (hg : w.graphs[graph]? = some g) (hshows : g.Shows Value.key? L)
    (hroute : Yields H graph route xs w u) (hxs : ∀ x ∈ xs, w.Rooted graph x)
    (hfuel : xs.length < H.fuel) :
    ∃ place v, H.callOp .subgraph [route] [] w = .ok (.ref .graph place) v ∧
      v.graphs[graph]? = w.graphs[graph]? ∧ Copies w graph v place (metOf (xs.flatMap edgesOn)) := by
  obtain ⟨it, t, hopen, ht, hdraws⟩ := hroute
  have hnone : Gathered graph g L.plain (([] : List Value).flatMap edgesOn) {} :=
    gathered_nil graph g L.plain
  obtain ⟨made, hfold, hmade, hu⟩ := hdraws.foldFrom (f := absorbLineage)
    (fun ys made => Gathered graph g L.plain (ys.flatMap edgesOn) made)
    (fun ys x made v hv hx hmade => by
      have hv' : v.graphs[graph]? = w.graphs[graph]? := hv.trans ht
      obtain ⟨made', habsorb, hmade'⟩ := hmade.absorbLineage (hv'.trans hg) hshows
        (Rooted.congr (hxs x hx) hv')
      refine ⟨made', habsorb, ?_⟩
      rw [List.flatMap_append, List.flatMap_singleton]
      exact hmade')
    hfuel hnone
  rw [List.nil_append] at hmade
  have hgraph : u.graphs[graph]? = w.graphs[graph]? := hu.trans ht
  -- the new graph is at a new place
  let r : World := { u with graphs := u.graphs.push made.store }
  have hr : r.graphs[u.graphs.size]? = some made.store := Array.getElem?_push_size
  obtain ⟨v, hpublish, hgraphs⟩ := exists_publish hr hmade.isOpen
  have hlt : graph < u.graphs.size := (Array.getElem?_eq_some_iff.1 (hgraph.trans hg)).1
  have hplace : v.graphs[u.graphs.size]? = some made.store.publish := by
    rw [hgraphs, Array.getElem?_modify, if_pos rfl, hr]
    rfl
  have hsource : v.graphs[graph]? = w.graphs[graph]? := by
    rw [hgraphs, Array.getElem?_modify, if_neg (Nat.ne_of_gt hlt), ← hgraph]
    exact Array.getElem?_push_lt hlt |>.trans (Array.getElem?_eq_getElem hlt).symm
  have hperform : H.perform .subgraph { bound := [some route], extra := [] } w =
      .ok (.ref .graph u.graphs.size) v := by
    refine (Act.bind_of_ok hopen).trans ((Act.bind_of_ok hfold).trans ?_)
    exact (Act.bind_of_ok (m := newGraph made.store) rfl).trans hpublish
  exact ⟨_, v, (callOp_of_ok rfl hperform).trans rfl, hsource, hmade.copies_publish hg hshows hplace⟩

end GraphRoutes.Session
