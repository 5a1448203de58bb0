/-
**Tracking changes no traversal.**

Whoever tracks an element gets a wrapper around it, and everything that is reached from the wrapper is a
wrapper around what is reached without it, layer by layer: the edges of a wrapped vertex are the wrapped
edges of the vertex, and the vertices of a wrapped edge are the wrapped vertices of the edge.  So the
elements to which steps lead from a wrapper are, without their outermost layer, those to which they lead
from what it holds.

Main definitions:

* `GraphRoutes.Session.lineageForms?` — the lineage of an element, marks apart;
* `GraphRoutes.Session.Tracks` — one element is another one that is tracked once more.

Main results:

* `GraphRoutes.Session.Hops.map_strip_leads` — **steps lead from a wrapper to wrappers**;
* `GraphRoutes.Session.legible_of_brief` — the edges of a graph can be written, tracked or not;
* `GraphRoutes.Session.Hops.tracks_results` — **a traversal of a tracked element gives the results of the
  traversal of the element, tracked once more**.
-/
import GraphRoutes.Proofs.Elements
import GraphRoutes.Proofs.Session.Traversals

set_option relaxedAutoImplicit false
set_option autoImplicit false

namespace GraphRoutes

namespace Element

variable {α : Type} {x y : Element α} {l : Layer}

/-- What is reached from a wrapper is wrapped. -/
theorem tracked_reach (hx : x.tracked = true) : (x.reach l y).tracked = true := by
  cases x with
  | plain => cases hx
  | root | via => rfl

/-- What is reached from a wrapper holds what is reached from what that wrapper holds. -/
theorem strip_reach (hx : x.tracked = true) : (x.reach l y).strip = x.strip.reach l y := by
  cases x with
  | plain => cases hx
  | root | via => rfl

/-- A wrapper is an `l` all the way through only if what it holds is one. -/
theorem uniform_strip {sort : α → Option Layer} (hx : x.uniform sort l = true) :
    x.strip.uniform sort l = true := by
  cases x with
  | plain => exact hx
  | root k x m => exact (Bool.and_eq_true_iff.1 hx).2
  | via k x p m => exact (Bool.and_eq_true_iff.1 hx).2

end Element

namespace Session

open World

variable {k l m : Layer} {graph n : ℕ} {a b : Node} {as : List Node} {i : End} {side : Side}
  {ls : List Value} {x y : Value} {u v w : World} {h : Host}

/-! ### What steps lead to from a wrapper -/

theorem map_strip_edgesOf (hb : b.tracked = true) :
    (w.edgesOf b side ls).map Element.strip = w.edgesOf b.strip side ls := by
  rw [edgesOf, edgesOf, Element.base_strip]
  cases b.base with
  | vertex u m =>
      rw [List.map_map]
      exact List.map_congr_left fun e _ => Element.strip_reach hb
  | _ => rfl

theorem tracked_of_mem_edgesOf (hb : b.tracked = true) (ha : a ∈ w.edgesOf b side ls) :
    a.tracked = true := by
  rw [edgesOf] at ha
  cases hbase : b.base with
  | vertex u m =>
      rw [hbase] at ha
      obtain ⟨e, -, rfl⟩ := List.mem_map.1 ha
      exact Element.tracked_reach hb
  | _ =>
      rw [hbase] at ha
      cases ha

theorem strip_endOf (hb : b.tracked = true) : (w.endOf i b).strip = w.endOf i b.strip := by
  rw [endOf, endOf, Element.base_strip]
  cases b.base with
  | edge e m => exact Element.strip_reach hb
  | _ => rfl

theorem tracked_endOf (hb : b.tracked = true) : (w.endOf i b).tracked = true := by
  rw [endOf]
  cases b.base with
  | edge e m => exact Element.tracked_reach hb
  | _ => exact hb

/-- A wrapper was reached from where what it holds was reached. -/
theorem reachedFrom_strip (b : Node) : reachedFrom b.strip = reachedFrom b := by
  rw [reachedFrom, reachedFrom, Element.base_strip]

theorem map_strip_edgesFrom (hb : b.tracked = true) (direction : Direction) (labels : Value) :
    (w.edgesFrom direction labels b).map Element.strip = w.edgesFrom direction labels b.strip := by
  rw [edgesFrom, edgesFrom, List.map_flatMap]
  simp only [map_strip_edgesOf hb]

theorem tracked_of_mem_edgesFrom {direction : Direction} {labels : Value} (hb : b.tracked = true)
    (ha : a ∈ w.edgesFrom direction labels b) : a.tracked = true := by
  obtain ⟨side, -, hside⟩ := List.mem_flatMap.1 ha
  exact tracked_of_mem_edgesOf hb hside

/-- A step leads from a wrapper to wrappers. -/
theorem tracked_of_mem_leads {s : Hop k l} (hb : b.tracked = true) (ha : a ∈ s.leads w b) :
    a.tracked = true := by
  cases s with
  | edges => exact tracked_of_mem_edgesFrom hb ha
  | vertices =>
      obtain ⟨e, he, rfl⟩ := List.mem_map.1 ha
      exact tracked_endOf (tracked_of_mem_edgesFrom hb he)
  | ends =>
      obtain ⟨i, -, rfl⟩ := List.mem_map.1 ha
      exact tracked_endOf hb

/-- A step leads from a wrapper to what it leads to from what the wrapper holds, wrapped. -/
theorem Hop.map_strip_leads (s : Hop k l) (hb : b.tracked = true) :
    (s.leads w b).map Element.strip = s.leads w b.strip := by
  cases s with
  | edges direction labels => exact map_strip_edgesFrom hb direction labels
  | vertices direction labels =>
      simp only [leads, along]
      rw [← map_strip_edgesFrom hb, List.map_map, List.map_map]
      refine List.map_congr_left fun e he => ?_
      rw [Function.comp_apply, Function.comp_apply, reachedFrom_strip,
        strip_endOf (tracked_of_mem_edgesFrom hb he)]
  | ends s =>
      have hends : endsOf s b.strip = endsOf s b := by
        cases s <;> simp only [endsOf, reachedFrom_strip]
      rw [leads, leads, hends, List.map_map]
      exact List.map_congr_left fun i _ => strip_endOf hb

theorem tracked_of_mem_hopsLeads {S : Hops k l} (hb : b.tracked = true) (ha : a ∈ S.leads w b) :
    a.tracked = true := by
  induction S generalizing b with
  | nil => exact List.mem_singleton.1 ha ▸ hb
  | cons s S ih =>
      obtain ⟨c, hc, ha⟩ := List.mem_flatMap.1 ha
      exact ih (tracked_of_mem_leads hb hc) ha

theorem map_strip_flatMap {f : Node → List Node} (has : ∀ a ∈ as, a.tracked = true)
    (hf : ∀ a, a.tracked = true → (f a).map Element.strip = f a.strip) :
    (as.flatMap f).map Element.strip = (as.map Element.strip).flatMap f := by
  rw [List.map_flatMap, List.flatMap_map]
  exact List.flatMap_congr fun a ha => hf a (has a ha)

/-- **Steps lead from a wrapper to wrappers**, of what they lead to from what it holds. -/
theorem Hops.map_strip_leads (S : Hops k l) (hb : b.tracked = true) :
    (S.leads w b).map Element.strip = S.leads w b.strip := by
  induction S generalizing b with
  | nil => rfl
  | cons s S ih =>
      rw [leads, leads, ← s.map_strip_leads hb]
      exact map_strip_flatMap (fun a ha => tracked_of_mem_leads hb ha) fun a ha => ih ha

/-- As much is read from wrappers as from what they hold. -/
theorem effort_map_strip (S : Hops k l) (has : ∀ a ∈ as, a.tracked = true) :
    S.effort w graph (as.map Element.strip) = S.effort w graph as := by
  induction S generalizing as with
  | nil => rw [Hops.effort, Hops.effort, List.length_map]
  | cons s S ih =>
      have hstep : s.effort w graph (as.map Element.strip) = s.effort w graph as := by
        cases s <;> simp only [Hop.effort, List.length_map]
      have hleads := map_strip_flatMap (f := s.leads w) has fun a ha => s.map_strip_leads ha
      have htracked : ∀ b ∈ as.flatMap (s.leads w), b.tracked = true := by
        intro b hb
        obtain ⟨a, ha, hb⟩ := List.mem_flatMap.1 hb
        exact tracked_of_mem_leads (has a ha) hb
      rw [Hops.effort, Hops.effort, hstep, ← hleads, ih htracked]

theorem fits_of_mem_hopsLeads {S : Hops k l} (ha : Fits graph k a) (hb : b ∈ S.leads w a) :
    Fits graph l b := by
  induction S generalizing a with
  | nil => exact List.mem_singleton.1 hb ▸ ha
  | cons s S ih =>
      obtain ⟨c, hc, hb⟩ := List.mem_flatMap.1 hb
      exact ih (fits_of_mem_leads ha hc) hb

/-! ### Elements of a graph and their wrappers -/

theorem Value.ofGraph_of_fits (hx : Fits graph k x.form) : x.ofGraph = true := by
  have hbase : x.form.base.sort = x.node.base.sort := by
    rw [base_form, sort_withMark]
  rw [ofGraph, ← hbase]
  cases k with
  | vertex =>
      obtain ⟨-, i, hi⟩ := hx
      rw [hi]
      rfl
  | edge =>
      obtain ⟨-, e, he⟩ := hx
      rw [he]
      rfl

theorem Value.node_ofNode {x : Node} (hx : x.base.sort.isSome = true) : (ofNode x).node = x := by
  cases x with
  | plain v => obtain ⟨u, m, rfl⟩ | ⟨e, m, rfl⟩ := cases_of_sort hx <;> rfl
  | root | via => rfl

theorem Value.ofGraph_ofNode {x : Node} (hx : x.base.sort.isSome = true) :
    (ofNode x).ofGraph = true := by
  rw [ofGraph, node_ofNode hx]
  exact hx

theorem node_strip (hx : x.ofGraph = true) : (strip x).node = x.node.strip := by
  have hbase : x.node.strip.base.sort.isSome = true := by
    rw [Element.base_strip]
    exact hx
  rw [← Value.node_ofNode hbase]
  cases x with
  | trackedGraph => cases hx
  | _ => rfl

/-- Without its outermost layer, an element has the form of what that layer holds. -/
theorem form_strip (hx : x.ofGraph = true) : (strip x).form = x.form.strip := by
  rw [Value.form, node_strip hx, ← Element.strip_unmark]
  rfl

theorem fits_strip (ha : Fits graph k a) : Fits graph k a.strip := by
  cases k with
  | vertex =>
      obtain ⟨huniform, i, hi⟩ := ha
      exact ⟨Element.uniform_strip huniform, i, by rw [Element.base_strip, hi]⟩
  | edge =>
      obtain ⟨huniform, e, he⟩ := ha
      exact ⟨Element.uniform_strip huniform, e, by rw [Element.base_strip, he]⟩

theorem fits_root (ha : Fits graph k a) : Fits graph k (.root k a none) := by
  cases k with
  | vertex => exact ⟨Bool.and_eq_true_iff.2 ⟨rfl, ha.1⟩, ha.2⟩
  | edge => exact ⟨Bool.and_eq_true_iff.2 ⟨rfl, ha.1⟩, ha.2⟩

/-- Elements with the same base are equal, whatever they are wrapped in. -/
theorem same_of_base (hx : x.ofGraph = true) (hy : y.ofGraph = true) (h : x.form.base = y.form.base)
    (w : World) : w.same x y = .ok true := by
  have hspell : ∀ {v : Value}, v.ofGraph = true → v.spell = v.form.base.spell := by
    intro v hv
    rw [Value.base_form, Value.spell_withMark]
    obtain hsort | ⟨n, rfl, hsort⟩ := Value.cases_of_ofGraph hv
    · obtain ⟨u, m, rfl⟩ | ⟨e, m, rfl⟩ := Value.cases_of_sort hsort <;> rfl
    · exact (Value.spellNode_eq n).trans (Value.wrapped_spell_of_sort hsort)
  rw [World.same_of_ofGraph w hx hy, Value.key?_of_ofGraph hx, Value.key?_of_ofGraph hy, hspell hx,
    hspell hy, h, beq_self_eq_true]

/-- Elements of one form are equal. -/
theorem same_of_form (hx : x.ofGraph = true) (hy : y.ofGraph = true) (h : x.form = y.form)
    (w : World) : w.same x y = .ok true := same_of_base hx hy (congrArg Element.base h) w

/-- The lineage of an element, marks apart. -/
def lineageForms? (x : Value) : Option (List Node) :=
  x.node.path?.map fun xs => xs.map (Element.unmark (Value.withMark none))

/-- An element is another one that is tracked once more: without its outermost layer it is that one,
marks apart; it tells the direction of that one; and the layers under the outermost one have the
lineages of that one. -/
structure Tracks (x y : Value) : Prop where
  tracked : y.isTracked = true
  form_eq : (strip y).form = x.form
  same : ∀ w : World, w.same (strip y) x = .ok true
  reached_eq : reachedOf? y = reachedOf? x
  lineage_eq : ∀ n, lineageForms? (strip^[n + 1] y) = lineageForms? (strip^[n] x)

/-- What an element tells of its direction is told by what is under its layers. -/
theorem reachedOf?_eq_of_base (hx : Fits graph k x.form) (hy : Fits graph k y.form)
    (h : x.form.base = y.form.base) : reachedOf? x = reachedOf? y := by
  have hedge : edgeOf? x = edgeOf? y := by
    cases k with
    | vertex =>
        have hnone : ∀ {v : Value}, Fits graph .vertex v.form → edgeOf? v = none := by
          rintro v ⟨-, i, hi⟩
          rw [edgeOf?_eq, hi]
          cases v.form.uniform Value.sort .edge <;> rfl
        rw [hnone hx, hnone hy]
    | edge => rw [edgeOf?_eq, edgeOf?_eq, hx.1, hy.1, h]
  rw [reachedOf?, reachedOf?, hedge]

/-- Elements of one form have lineages of one form, layer by layer. -/
theorem lineageForms?_iterate (hx : x.ofGraph = true) (hy : y.ofGraph = true) (h : x.form = y.form)
    (n : ℕ) : lineageForms? (strip^[n] x) = lineageForms? (strip^[n] y) := by
  induction n generalizing x y with
  | zero => exact path?_eq_of_form h
  | succ n ih =>
      have hstrip : ∀ {v : Value}, v.ofGraph = true → (strip v).ofGraph = true := by
        intro v hv
        rw [Value.ofGraph, node_strip hv, Element.base_strip]
        exact hv
      exact ih (hstrip hx) (hstrip hy) (by rw [form_strip hx, form_strip hy, h])

/-- What has the form of a wrapper around an element tracks it. -/
theorem tracks_of_form (hy : Fits graph l y.form) (htracked : y.form.tracked = true)
    (h : y.form.strip = x.form) : Tracks x y := by
  have hgraph : y.ofGraph = true := Value.ofGraph_of_fits hy
  have hx : Fits graph l x.form := h ▸ fits_strip hy
  have hform : (strip y).form = x.form := (form_strip hgraph).trans h
  have hstrip : (strip y).ofGraph = true := Value.ofGraph_of_fits (hform ▸ hx)
  refine ⟨?_, hform, same_of_form hstrip (Value.ofGraph_of_fits hx) hform, ?_,
    lineageForms?_iterate hstrip (Value.ofGraph_of_fits hx) hform⟩
  · rw [Value.isTracked, ← htracked, Value.form, Element.tracked_unmark]
  · exact reachedOf?_eq_of_base hy hx (by rw [← h, Element.base_strip])

/-- Wrappers, one by one, of the elements of a list track these elements. -/
theorem forall₂_tracks {xs ys : List Value}
    (hys : ∀ y ∈ ys, Fits graph l y.form ∧ y.form.tracked = true)
    (h : (ys.map Value.form).map Element.strip = xs.map Value.form) : List.Forall₂ Tracks xs ys := by
  have hforms : List.Forall₂ (· = ·) ((ys.map Value.form).map Element.strip) (xs.map Value.form) :=
    List.forall₂_eq_eq_eq ▸ h
  rw [List.forall₂_map_left_iff, List.forall₂_map_left_iff, List.forall₂_map_right_iff] at hforms
  have hpairs := (List.forall₂_and_left _ _).2 ⟨hys, hforms⟩
  exact (hpairs.imp fun y x hyx => tracks_of_form hyx.1.1 hyx.1.2 hyx.2).flip

/-! ### Edges that can be written -/

/-- Values that are written without a look at other values. -/
def Brief (v : Value) : Prop := ∀ (u : World) (d : ℕ), ∃ text, u.displayTo (d + 1) [] v = .ok text

theorem exists_displayTo_edge {e : StoredEdge} (hsource : Brief (u.vertexId ⟨graph, e.source⟩))
    (hlabel : Brief (u.edgeLabel (.stored graph e))) (htarget : Brief (u.vertexId ⟨graph, e.target⟩))
    (m : Mark) (d : ℕ) : ∃ text, u.displayTo (d + 2) [] (.edge (.stored graph e) m) = .ok text := by
  obtain ⟨source, hsource⟩ := hsource u d
  obtain ⟨label, hlabel⟩ := hlabel u d
  obtain ⟨target, htarget⟩ := htarget u d
  rw [displayTo]
  simp only [repeated?, inside?, Option.isSome_none, Bool.false_eq_true, if_false, hsource, htarget]
  cases unquoted? (u.edgeLabel (.stored graph e)) with
  | none => exact ⟨_, by simp only [hlabel]; rfl⟩
  | some text => exact ⟨_, rfl⟩

theorem exists_displayTo_tracked {n y : Node} {d : ℕ} (hpath : n.path? = some [y])
    (hy : ∃ text, u.displayTo d [] (Value.stripNode y) = .ok text) :
    ∃ text, u.displayTo (d + 1) [] (.tracked n) = .ok text := by
  obtain ⟨text, hy⟩ := hy
  rw [displayTo]
  simp only [repeated?, inside?, hpath, Option.isSome_none, Bool.false_eq_true, if_false,
    List.mapM_cons, List.mapM_nil, hy]
  exact ⟨_, rfl⟩

/-- The edges of a graph can be written, tracked by themselves or not, if their labels and the ids of
their vertices can. -/
theorem legible_of_brief {e : StoredEdge} (hpath : a.path? = some [b])
    (hb : b.base = .edge (.stored graph e) none) (hsource : Brief (w.vertexId ⟨graph, e.source⟩))
    (hlabel : Brief (w.edgeLabel (.stored graph e)))
    (htarget : Brief (w.vertexId ⟨graph, e.target⟩)) : w.Legible a := by
  rintro u x hu rfl
  have hids : ∀ i, u.vertexId ⟨graph, i⟩ = w.vertexId ⟨graph, i⟩ := fun i => by
    rw [vertexId, vertexId, graphAt, hu.graphs_eq, ← graphAt]
  -- an element of this form has one item on its path, which is this edge but for its marks
  rw [← hids] at hsource htarget
  rw [← spares_edgeLabel hu] at hlabel
  have hitem : ∃ y, x.node.path? = some [y] ∧ y.unmark (Value.withMark none) = b := by
    have hunmarked := (Element.path?_unmark (f := Value.withMark none) x.node).symm.trans hpath
    obtain ⟨ys, hys, hsingle⟩ := Option.map_eq_some_iff.1 hunmarked
    obtain ⟨y, rfl, hy⟩ := List.map_eq_singleton_iff.1 hsingle
    exact ⟨y, hys, hy⟩
  obtain ⟨y, hy, rfl⟩ := hitem
  have hbase : ∃ m, y.base = .edge (.stored graph e) m := by
    have hform : (Value.tracked y).form.base = .edge (.stored graph e) none := hb
    exact Value.exists_base_edge hform
  obtain ⟨m, hm⟩ := hbase
  have hedge := exists_displayTo_edge hsource hlabel htarget m
  have hx : (∃ n, x = .tracked n) ∨ x.node = .plain x := by
    cases x with
    | tracked n => exact .inl ⟨n, rfl⟩
    | _ => exact .inr rfl
  rcases hx with ⟨n, rfl⟩ | hplain
  · refine exists_displayTo_tracked (d := depthLimit - 1) hy ?_
    rw [Value.stripNode_eq, hm]
    exact hedge (depthLimit - 3)
  · rw [hplain] at hy
    obtain rfl : Element.plain x = y := List.singleton_inj.1 (Option.some.inj hy)
    obtain rfl : x = .edge (.stored graph e) m := hm
    exact hedge (depthLimit - 2)

/-! ### Traversals of tracked elements -/

/-- To track an element is to wrap it. -/
theorem callOp_track (hx : Fits graph k x.form) (H : Host) (w : World) :
    ∃ z u, H.callOp .track [x] [] w = .ok z u ∧ Spares ∅ w u ∧
      z.form = .root k x.form none := by
  have hlayer : x.layer? = some k := by
    refine Element.layer?_of_uniform _ _ _ ?_
    rw [← Value.uniform_form]
    cases k <;> exact hx.1
  have htrack : track x w = .ok (x.wrap k) w := by
    simp only [track, hlayer]
    rfl
  obtain ⟨z, marks, hout, hhanded⟩ := exists_handOut (x.wrap k) w
  exact ⟨z, _, (Act.bind_of_ok htrack).trans hout, uses_marks w marks |>.empty, hhanded.form_eq⟩

/-- The results of a traversal of an element that is tracked first are what its steps lead to from the
wrapper. -/
theorem Hops.results_of_track (S : Hops k l) (hx : Fits graph k x.form) (hkeyed : w.Keyed graph)
    (hlabelled : S.Labelled w)
    (hlegible : S.asks → Undirected x.form → w.Legible (.root k x.form none))
    (hn : 3 + 2 * S.length ≤ n) (hfuel : S.effort w graph [x.form] ≤ h.fuel) :
    ∃ ys v, (do
        let y ← (h.up n).callOp .track [x] []
        S.results (h.up n) y) w = .ok ys v ∧
      Spares ∅ w v ∧ ys.map Value.form = S.leads w (.root k x.form none) := by
  obtain ⟨z, t, htrack, hspares, hz⟩ := callOp_track hx (h.up n) w
  have hzfits : Fits graph k z.form := by
    rw [hz]
    exact fits_root hx
  have hzlegible : S.asks → Undirected z.form → t.Legible z.form := by
    intro hasks hundirected v y hv hy
    rw [hz] at hundirected hy
    exact hlegible hasks hundirected v y (hspares.trans hv) hy
  have hzfuel : S.effort t graph [z.form] ≤ h.fuel := by
    have hstrip : [z.form].map Element.strip = [x.form] := by
      rw [hz]
      rfl
    rw [spares_hopsEffort hspares, ← effort_map_strip S (by simp [hz, Element.tracked]), hstrip]
    exact hfuel
  obtain ⟨ys, v, hresults, hgiven, hforms⟩ := S.results_eq hzfits (Keyed.spared hkeyed hspares)
    (spares_hopsLabelled hlabelled hspares) hzlegible hn hzfuel
  rw [spares_hopsLeads hspares, hz] at hforms
  exact ⟨ys, v, (Act.bind_of_ok htrack).trans hresults, hspares.trans hgiven, hforms⟩

/-- **A traversal of a tracked element gives the results of the traversal of the element, tracked once
more**, one by one and in the same order.  The host must be so deep, and read so many items in one go, as
the steps take.  If the first step asks an edge for its direction and it has none, a message is made with
the text of the edge; then it must be one that can be written. -/
theorem Hops.tracks_results (S : Hops k l) (hx : Fits graph k x.form) (hkeyed : w.Keyed graph)
    (hlabelled : S.Labelled w)
    (hlegible : S.asks → Undirected x.form → w.Legible x.form ∧ w.Legible (.root k x.form none))
    (hn : 3 + 2 * S.length ≤ n) (hfuel : S.effort w graph [x.form] ≤ h.fuel) :
    ∃ xs u ys v, S.results (h.up n) x w = .ok xs u ∧
      (do
        let y ← (h.up n).callOp .track [x] []
        S.results (h.up n) y) w = .ok ys v ∧
      List.Forall₂ Tracks xs ys := by
  obtain ⟨xs, u, hresults, -, hforms⟩ := S.results_eq hx hkeyed hlabelled
    (fun hasks hundirected => (hlegible hasks hundirected).1) hn hfuel
  obtain ⟨ys, v, hresults', -, hforms'⟩ := S.results_of_track hx hkeyed hlabelled
    (fun hasks hundirected => (hlegible hasks hundirected).2) hn hfuel
  refine ⟨xs, u, ys, v, hresults, hresults', ?_⟩
  -- both runs go where the forms lead, and the form of the wrapper leads to wrappers
  have hwrappers : ∀ y ∈ ys, Fits graph l y.form ∧ y.form.tracked = true := by
    intro y hy
    have hmem : y.form ∈ S.leads w (.root k x.form none) := hforms' ▸ List.mem_map_of_mem hy
    exact ⟨fits_of_mem_hopsLeads (fits_root hx) hmem, tracked_of_mem_hopsLeads rfl hmem⟩
  refine forall₂_tracks hwrappers ?_
  rw [hforms, hforms', S.map_strip_leads rfl]
  rfl

/-- The hosts of a session stand over one another. -/
theorem host_eq_up (n : ℕ) : host n = (host 0).up n := by
  induction n with
  | zero => rfl
  | succ n ih => rw [host_succ, ih, Host.up]

/-- An edge from `b` to `a` of which nobody knows how it was reached is tracked; its far end is taken to
be `a`, which has `b` as its only neighbour. -/
theorem Hops.tracks_results_road :
    let vertices : Dictionary Key Value (Option Value) :=
      (Dictionary.empty.put (Value.str "a").spell (.str "a") none).put (Value.str "b").spell (.str "b") none
    let w : World := { graphs := #[{ vertices, edges := #[⟨1, 0, .str "road", none⟩] }] }
    let x : Value := .edge (.stored 0 { index := 0, source := 1, target := 0 }) none
    let S : Hops .edge .vertex := .cons (.ends .far) (.cons (.vertices .both (.str "road")) .nil)
    (S.asks ∧ Undirected x.form ∧ (S.leads w x.form).length = 1) ∧
    ∃ xs u ys v, S.results (host 7) x w = .ok xs u ∧
      (do
        let y ← (host 7).callOp .track [x] []
        S.results (host 7) y) w = .ok ys v ∧
      List.Forall₂ Tracks xs ys := by
  intro vertices w x S
  have hnames : vertices.toList.map (·.name) = [.str "a", .str "b"] := by
    let empty : Dictionary Key Value (Option Value) := .empty
    let a : Value := .str "a"
    let b : Value := .str "b"
    have hfirst : (empty.put a.spell a none).toList = [⟨a.spell, a, none⟩] :=
      Dictionary.toList_put_of_notMem a none (by decide)
    have hb : b.spell ∉ (empty.put a.spell a none).keys := by
      rw [Dictionary.keys, hfirst]
      decide
    have hboth : vertices.toList = [⟨a.spell, a, none⟩] ++ [⟨b.spell, b, none⟩] :=
      hfirst ▸ Dictionary.toList_put_of_notMem b none hb
    rw [hboth]
    rfl
  have hbrief : ∀ i, Brief (w.vertexId ⟨0, i⟩) := by
    intro i u d
    have hid : w.vertexId ⟨0, i⟩ = .ofOption ([.str "a", .str "b"][i]? : Option Value) := by
      rw [← hnames, List.getElem?_map, Dictionary.toList, Array.getElem?_toList]
      rfl
    rw [hid]
    rcases i with _ | _ | i <;> exact ⟨_, rfl⟩
  have hlegible : ∀ b : Node, b.base = x → ∀ a : Node, a.path? = some [b] → w.Legible a :=
    fun b hb a ha => legible_of_brief ha hb (hbrief 1) (fun u d => ⟨_, rfl⟩) (hbrief 0)
  refine ⟨⟨trivial, ⟨_, rfl, rfl⟩, ?_⟩, ?_⟩
  · rfl
  · rw [host_eq_up 7]
    refine tracks_results (k := .edge) (S := S) ⟨rfl, _, rfl⟩ ?_ ?_ ?_ ?_ ?_
    · intro r hr
      have hroad : r = ⟨1, 0, .str "road", none⟩ := by simpa [graphAt, w] using hr
      rw [hroad]
      rfl
    · exact ⟨trivial, ⟨[.str "road"], rfl, by decide⟩, trivial⟩
    · exact fun _ _ => ⟨hlegible _ rfl _ rfl, hlegible _ rfl _ rfl⟩
    · decide
    · decide

end Session

end GraphRoutes
