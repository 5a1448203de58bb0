/-
**The results of steps along edges, and what is read off them.**

A vertex is tracked, and steps are taken from it along edges.  Then the results are as many as the ways
along which the steps lead, and stand in the order of the ways; and each result tells its way.  The list of
its lineage begins with the vertex, goes on in turn with an edge and the vertex to which it was followed, and
ends with what the result holds; each edge has a label that its step allows, was followed in a direction that
its step allows, and says of itself that it leads from the vertex before it to the one behind it.  Read back
to the root, the lineage is the reverse of the list.

An edge that is found on both sides of a vertex gives two results with the same lineage, but for the direction
of the edge.  If no step looks on both sides, there is no such edge, and all lineages are different.

Main definitions:

* `GraphRoutes.Session.Between` — what an edge of a lineage says of its neighbours;
* `GraphRoutes.Session.Retraces`, `GraphRoutes.Session.Recounts` — a list that retraces a way, and a result
  that recounts it;
* `GraphRoutes.Session.Distinguished` — results with different lineages.

Main results:

* `GraphRoutes.Session.retraces_of_way` — a lineage along a way retraces it;
* `GraphRoutes.Session.results_recount_ways` — **the results of steps along edges recount their ways**, one
  to one.
-/
import GraphRoutes.Proofs.Session.Lineages
import GraphRoutes.Proofs.Session.Ways

set_option relaxedAutoImplicit false
set_option autoImplicit false

namespace GraphRoutes.Session

open World

variable {graph i n : ℕ} {w u : World} {h H : Host} {s : Leg} {S : List Leg} {e f : StoredEdge}
  {es fs : List StoredEdge} {ls : List Value} {a b x y : Value} {xs ys : List Value}

/-! ### Questions about an edge of a lineage -/

/-- The edge `x` stands on a lineage between the vertices `a` and `b`, and says so itself: it has one of the
labels that are allowed, and leads from `a` to `b`. -/
structure Between (H : Host) (u : World) (graph : ℕ) (ls : List Value) (e : StoredEdge) (a x b : Value) :
    Prop where
  departure : ∃ j m, a = .vertex ⟨graph, j⟩ m
  edge : ∃ m, x = .edge (.stored graph e) m
  arrival : ∃ j m, b = .vertex ⟨graph, j⟩ m
  label : ∃ label v, H.callOp .labelOf [x] [] u = .ok label v ∧ admits ls label = true
  near : ∃ y v, H.callOp (.facing .nearVertex) [x] [] u = .ok y v ∧ Alike y a
  far : ∃ y v, H.callOp (.facing .farVertex) [x] [] u = .ok y v ∧ Alike y b

/-- A value is a vertex without layers if its form is one. -/
theorem eq_vertex_of_form (hgenuine : x.Genuine) (hx : x.form = vertexNode graph i) :
    ∃ m, x = .vertex ⟨graph, i⟩ m := by
  obtain ⟨m, hm⟩ := Value.exists_base_vertex (v := x) (congrArg Element.base hx)
  rw [hgenuine.node_eq (congrArg Element.tracked hx)] at hm
  exact ⟨m, hm⟩

/-- A value is an edge without layers if its form is one. -/
theorem eq_edge_of_form (hgenuine : x.Genuine) (hx : x.form = edgeNode graph e) :
    ∃ m, x = .edge (.stored graph e) m := by
  obtain ⟨m, hm⟩ := Value.exists_base_edge (v := x) (congrArg Element.base hx)
  rw [hgenuine.node_eq (congrArg Element.tracked hx)] at hm
  exact ⟨m, hm⟩

theorem handOut_alike (hx : x.form = vertexNode graph i) (ha : a.form = vertexNode graph i) (u : World) :
    ∃ y v, handOut x u = .ok y v ∧ Alike y a := by
  obtain ⟨y, marks, hout, hhanded⟩ := exists_handOut x u
  have hform : y.form = a.form := by rw [hhanded.form_eq, hx, ha]
  have hgraph : ∀ {v : Value}, v.form = vertexNode graph i → v.ofGraph = true :=
    Value.ofGraph_of_form rfl
  exact ⟨y, _, hout, hform, same_of_form (hgraph (hform.trans ha)) (hgraph ha) hform⟩

/-- An edge along which a step leads tells of its neighbours. -/
theorem between_of_leadsAlong (he : w.LeadsAlong graph s i e) (hu : u.graphs = w.graphs)
    (hgenuine : ∀ y ∈ [a, x, b], y.Genuine) (ha : a.form = vertexNode graph i)
    (hx : x.form = edgeNode graph e) (hb : b.form = vertexNode graph e.arrival) (H : Host) :
    Between H u graph (w.labelsOf s) e a x b := by
  have hedge := eq_edge_of_form (hgenuine x (by simp)) hx
  have hfits : Fits graph .edge (edgeNode graph e) := ⟨rfl, e, rfl⟩
  have hdirected : Undirected (edgeNode graph e) → u.Legible (edgeNode graph e) := by
    rintro ⟨f, hf, hnone⟩
    obtain ⟨side, -, hside⟩ := he.side
    cases hf
    cases hside.symm.trans hnone
  refine ⟨⟨i, eq_vertex_of_form (hgenuine a (by simp)) ha⟩, hedge,
    ⟨_, eq_vertex_of_form (hgenuine b (by simp)) hb⟩, ?_, ?_, ?_⟩
  · obtain ⟨m, rfl⟩ := hedge
    obtain ⟨label, marks, hout, hhanded⟩ := exists_handOut (w.edgeLabel (.stored graph e)) u
    have hlabel : u.edgeLabel (.stored graph e) = w.edgeLabel (.stored graph e) := by
      simp only [edgeLabel, graphAt, hu]
    have hperform : H.perform .labelOf
        { bound := [some (.edge (.stored graph e) m)], extra := [] } u =
          .ok (w.edgeLabel (.stored graph e)) u := hlabel ▸ rfl
    refine ⟨label, _, (callOp_of_ok rfl hperform).trans hout, ?_⟩
    rw [admits, hhanded.key?_eq]
    exact he.label
  · obtain ⟨y, hy, hform⟩ := nearVertex_eq (h := H) hfits hx hdirected w
    have hnear : y.form = vertexNode graph i := hform.trans (congrArg (vertexNode graph) he.departure)
    have hperform : H.perform (.facing .nearVertex) { bound := [some x, none], extra := [] } u =
        .ok y u := hy
    rw [callOp_of_ok rfl hperform]
    exact handOut_alike hnear ha u
  · obtain ⟨y, hy, hform⟩ := farVertex_eq (h := H) hfits hx hdirected w
    have hperform : H.perform (.facing .farVertex) { bound := [some x, none], extra := [] } u =
        .ok y u := hy
    rw [callOp_of_ok rfl hperform]
    exact handOut_alike hform hb u

/-! ### Lists that retrace a way -/

/-- A list retraces a way: vertices and edges stand in it in turn, and each edge tells of its neighbours. -/
inductive Retraces (H : Host) (u w : World) (graph : ℕ) :
    List Leg → List StoredEdge → List Value → Prop
  | nil {a : Value} (ha : ∃ i m, a = .vertex ⟨graph, i⟩ m) : Retraces H u w graph [] [] [a]
  | cons {s : Leg} {S : List Leg} {e : StoredEdge} {es : List StoredEdge} {a x b : Value}
      {xs : List Value} (hside : ∃ side ∈ s.1.sides, e.reached = some side)
      (hbetween : Between H u graph (w.labelsOf s) e a x b)
      (hrest : Retraces H u w graph S es (b :: xs)) :
      Retraces H u w graph (s :: S) (e :: es) (a :: x :: b :: xs)

theorem traces_cons (graph i : ℕ) (e : StoredEdge) (es : List StoredEdge) :
    traces graph i (e :: es) = vertexNode graph i :: edgeNode graph e :: traces graph e.arrival es := rfl

theorem length_traces (graph i : ℕ) (es : List StoredEdge) :
    (traces graph i es).length = 2 * es.length + 1 := by
  induction es generalizing i with
  | nil => rfl
  | cons e es ih => rw [traces_cons, List.length_cons, List.length_cons, ih, List.length_cons, Nat.mul_succ]

theorem sort_of_mem_traces {c : Node} (hc : c ∈ traces graph i es) : c.base.sort.isSome = true := by
  induction es generalizing i with
  | nil =>
      obtain rfl := List.mem_singleton.1 hc
      rfl
  | cons e es ih =>
      rw [traces_cons, List.mem_cons, List.mem_cons] at hc
      rcases hc with rfl | rfl | hc
      · rfl
      · rfl
      · exact ih hc

theorem length_of_way (hway : w.Way graph S i es) : es.length = S.length := by
  induction hway with
  | nil => rfl
  | cons _ _ ih => rw [List.length_cons, List.length_cons, ih]

/-- **A lineage along a way retraces it.** -/
theorem retraces_of_way (hway : w.Way graph S i es) (hu : u.graphs = w.graphs)
    (hxs : xs.map Value.form = traces graph i es) (hgenuine : ∀ y ∈ xs, y.Genuine) (H : Host) :
    Retraces H u w graph S es xs := by
  induction hway generalizing xs with
  | nil i =>
      obtain ⟨a, rfl, ha⟩ := List.map_eq_singleton_iff.1 hxs
      exact .nil ⟨i, eq_vertex_of_form (hgenuine a List.mem_cons_self) ha⟩
  | @cons s S i e es he _ ih =>
      rw [traces_cons] at hxs
      obtain ⟨a, xs, rfl, ha, hxs⟩ := List.map_eq_cons_iff.1 hxs
      obtain ⟨x, xs, rfl, hx, hxs⟩ := List.map_eq_cons_iff.1 hxs
      have hrest := ih hxs fun y hy => hgenuine y (List.mem_cons_of_mem a (List.mem_cons_of_mem x hy))
      obtain ⟨b, xs, rfl, hb, -⟩ := List.map_eq_cons_iff.1 hxs
      have hthree : ∀ y ∈ [a, x, b], y.Genuine := fun y hy =>
        hgenuine y (List.mem_append_left xs hy)
      exact .cons he.side (between_of_leadsAlong he hu hthree ha hx hb H) hrest

/-! ### Results that recount a way -/

/-- The list of a lineage recounts a way from `start` to `x`. -/
structure Account (w : World) (graph : ℕ) (S : List Leg) (start : Value) (es : List StoredEdge) (x : Value)
    (xs : List Value) : Prop where
  length : xs.length = 2 * S.length + 1
  first : ∃ a ∈ xs.head?, Alike a start
  last : ∃ b ∈ xs.getLast?, Alike b (strip x)
  retraces : ∀ (H : Host) (u : World), u.graphs = w.graphs → Retraces H u w graph S es xs

/-- A result recounts a way: the list of its lineage does, whenever it is asked for, and the lineage that is
read back to the root is the reverse of that list. -/
structure Recounts (w : World) (graph : ℕ) (S : List Leg) (start : Value) (es : List StoredEdge)
    (x : Value) : Prop where
  path : ∀ (H : Host) (u : World), u.graphs = w.graphs → ∃ place v,
    H.callOp .path [x] [] u = .ok (.ref .list place) v ∧ v.graphs = w.graphs ∧
      Account w graph S start es x (v.listAt place).toList
  reversed : ∀ (h : Host) (n : ℕ) (u : World), 1 ≤ n → 2 * S.length + 1 < h.fuel → ∃ place place' v,
    (do
      let p ← (h.up n).callOp .path [x] []
      let q ← readBack (h.up n) x
      pure (p, q)) u = .ok (.ref .list place, .ref .list place') v ∧
    List.Forall₂ Alike (v.listAt place').toList (v.listAt place).toList.reverse

/-- The lineage of a wrapper ends with what it holds. -/
theorem getLast?_of_path? {α : Type} {c : Element α} {cs : List (Element α)} (hc : c.tracked = true)
    (hpath : c.path? = some cs) : cs.getLast? = some c.strip := by
  rw [Element.path?] at hpath
  split at hpath
  · obtain rfl := Option.some.inj hpath
    rw [List.getLast?_reverse, Element.backward, if_pos hc]
    cases c with
    | plain => cases hc
    | root | via => rfl
  · cases hpath

theorem exists_mem_of_map_form {o : Option Value} {c : Node} (ho : o.map Value.form = some c) :
    ∃ a ∈ o, a.form = c := by
  obtain ⟨a, rfl, ha⟩ := Option.map_eq_some_iff.1 ho
  exact ⟨a, rfl, ha⟩

/-- **What is reached along a way recounts it.** -/
theorem recounts_of_way (hway : w.Way graph S i es) (hstart : a.form = vertexNode graph i)
    (htracked : x.isTracked = true) (hx : x.form.path? = some (traces graph i es)) :
    Recounts w graph S a es x := by
  have hsort : ∀ c ∈ traces graph i es, c.base.sort.isSome = true := fun c => sort_of_mem_traces
  have hlength : (traces graph i es).length = 2 * S.length + 1 := by
    rw [length_traces, length_of_way hway]
  have hgraph : ∀ {ys : List Value}, ys.map Value.form = traces graph i es → ∀ y ∈ ys, y.ofGraph = true :=
    fun hys y hy => Value.ofGraph_of_form (hsort _ (hys ▸ List.mem_map_of_mem hy)) rfl
  have hlast : (traces graph i es).getLast? = some (strip x).form := by
    have hxtracked : x.form.tracked = true := (Element.tracked_unmark x.node).trans htracked
    rw [getLast?_of_path? hxtracked hx, form_strip]
    have hmem : x.form.strip ∈ traces graph i es :=
      List.mem_of_getLast? (getLast?_of_path? hxtracked hx)
    have hbase := hsort _ hmem
    rw [Element.base_strip] at hbase
    exact Value.ofGraph_of_form hbase rfl
  have haccount : ∀ {ys : List Value}, ys.map Value.form = traces graph i es →
      (∀ y ∈ ys, y.Genuine) → Account w graph S a es x ys := by
    intro ys hys hgenuine
    refine ⟨?_, ?_, ?_, fun H u hu => retraces_of_way hway hu hys hgenuine H⟩
    · rw [← List.length_map (f := Value.form), hys, hlength]
    · have hhead : ys.head?.map Value.form = some a.form := by
        rw [← List.head?_map, hys, hstart]
        rfl
      obtain ⟨b, hb, hform⟩ := exists_mem_of_map_form hhead
      have hmem : b ∈ ys := List.mem_of_head? hb
      exact ⟨b, hb, hform, same_of_form (hgraph hys b hmem) (Value.ofGraph_of_form rfl hstart) hform⟩
    · have hend : ys.getLast?.map Value.form = some (strip x).form := by
        rw [← List.getLast?_map, hys, hlast]
      obtain ⟨b, hb, hform⟩ := exists_mem_of_map_form hend
      have hb' := hgraph hys b (List.mem_of_getLast? hb)
      have hx' : (strip x).ofGraph = true :=
        Value.ofGraph_of_form (hsort _ (List.mem_of_getLast? hlast)) rfl
      exact ⟨b, hb, hform, same_of_form hb' hx' hform⟩
  constructor
  · intro H u hu
    obtain ⟨ys, marks, hpath, hys, hgenuine⟩ := callOp_path hx hsort H u
    refine ⟨_, _, hpath, hu, ?_⟩
    rw [listAt, Array.getElem?_push_size]
    exact haccount hys hgenuine
  · intro h n u hn hfuel
    obtain ⟨ys, marks, hpath, hys, -⟩ := callOp_path hx hsort (h.up n) u
    obtain ⟨zs, v, hread, hlists, hzs⟩ := readBack_eq hx htracked hsort hn (hlength ▸ hfuel)
      { u with marks, lists := u.lists.push ys.toArray }
    refine ⟨_, _, v, (Act.bind_of_ok hpath).trans ((Act.bind_of_ok hread).trans rfl), ?_⟩
    obtain ⟨hfirst, hsecond⟩ := listAt_of_push hlists
    rw [hfirst, hsecond]
    refine forall₂_alike (fun z hz => ?_) ?_
    · exact Value.ofGraph_of_form (hsort _ (List.mem_reverse.1 (hzs ▸ List.mem_map_of_mem hz))) rfl
    · rw [List.map_reverse, hys, hzs]

/-! ### Results with different lineages -/

/-- Two results have different lineages: the lists are not equal, whenever they are asked for. -/
def Distinguished (x y : Value) : Prop :=
  ∀ (H : Host) (u : World), ∃ v, (do
    let p ← H.callOp .path [x] []
    let q ← H.callOp .path [y] []
    H.callOp (.equal false) [p, q] []) u = .ok (.bool false) v

/-- The key of an element is that of its form. -/
theorem key?_eq_form (hx : x.ofGraph = true) : x.key? = x.form.base.key? := by
  have hmark : ∀ {v : Value}, v.sort.isSome = true → (v.withMark none).key? = v.key? := by
    intro v hv
    obtain ⟨u, m, rfl⟩ | ⟨e, m, rfl⟩ := Value.cases_of_sort hv <;> rfl
  rw [Value.base_form, hmark hx, Value.key?_base hx]

/-- Ways of steps that do not look on both sides are told apart by the keys on their lineages. -/
theorem way_unique (hS : ∀ s ∈ S, s.1 ≠ .both) (hes : w.Way graph S i es) (hfs : w.Way graph S i fs)
    (hkeys : (traces graph i es).map (·.base.key?) = (traces graph i fs).map (·.base.key?)) :
    es = fs := by
  induction hes generalizing fs with
  | nil =>
      cases hfs
      rfl
  | @cons s S i e es he _ ih =>
      cases hfs with
      | @cons _ _ _ f fs hf hfs =>
          rw [traces_cons, traces_cons, List.map_cons, List.map_cons, List.map_cons, List.map_cons,
            List.cons.injEq, List.cons.injEq] at hkeys
          obtain ⟨-, hkey, hrest⟩ := hkeys
          have hcoincides : Value.coincides (.edge (.stored graph e) none) (.edge (.stored graph f) none) =
              true := by
            rw [← Value.key?_beq_of_sort rfl rfl]
            exact beq_iff_eq.2 hkey
          have hindex : e.index = f.index := by simpa [Value.coincides] using hcoincides
          -- one record has one source and one target, and a step looks on one side only
          obtain rfl : e = f := by
            obtain ⟨r, hr, hsource, htarget⟩ := he.stored
            obtain ⟨r', hr', hsource', htarget'⟩ := hf.stored
            obtain rfl : r = r' := Option.some.inj (hr.symm.trans (hindex ▸ hr'))
            obtain ⟨side, hside, hreached⟩ := he.side
            obtain ⟨side', hside', hreached'⟩ := hf.side
            obtain rfl : side = side' := by
              have hdirection := hS s List.mem_cons_self
              cases hs : s.1 with
              | both => exact absurd hs hdirection
              | outgoing | incoming =>
                  rw [hs] at hside hside'
                  exact (List.mem_singleton.1 hside).trans (List.mem_singleton.1 hside').symm
            cases e
            cases f
            simp_all
          rw [ih (fun s hs => hS s (List.mem_cons_of_mem _ hs)) hfs hrest]

/-- Results that are reached along different ways have different lineages. -/
theorem distinguished_of_way (hS : ∀ s ∈ S, s.1 ≠ .both) (hes : w.Way graph S i es)
    (hfs : w.Way graph S i fs) (hne : es ≠ fs) (hx : x.form.path? = some (traces graph i es))
    (hy : y.form.path? = some (traces graph i fs)) : Distinguished x y := by
  intro H u
  obtain ⟨xs, marks, hxpath, hxs, -⟩ := callOp_path hx (fun c => sort_of_mem_traces) H u
  obtain ⟨ys, marks', hypath, hys, -⟩ := callOp_path hy (fun c => sort_of_mem_traces) H
    { u with marks, lists := u.lists.push xs.toArray }
  have hgraph : ∀ {zs : List Value} {gs : List StoredEdge}, zs.map Value.form = traces graph i gs →
      ∀ z ∈ zs, z.ofGraph = true := fun hzs z hz =>
    Value.ofGraph_of_form (sort_of_mem_traces (hzs ▸ List.mem_map_of_mem hz)) rfl
  have hkeys : ∀ {zs : List Value} {gs : List StoredEdge}, zs.map Value.form = traces graph i gs →
      zs.map Value.key? = (traces graph i gs).map (·.base.key?) := by
    intro zs gs hzs
    rw [← hzs, List.map_map]
    exact List.map_congr_left fun z hz => key?_eq_form (hgraph hzs z hz)
  let v : World := { u with
    marks := marks', lists := (u.lists.push xs.toArray).push ys.toArray }
  have hlists : v.lists = (u.lists.push xs.toArray).push ys.toArray := rfl
  have hfirst : (v.listAt u.lists.size).toList = xs := by rw [(listAt_of_push hlists).1]
  have hsecond : (v.listAt (u.lists.push xs.toArray).size).toList = ys := by
    rw [(listAt_of_push hlists).2]
  have hlength : xs.length = ys.length := by
    have hxsLength := congrArg List.length hxs
    have hysLength := congrArg List.length hys
    rw [List.length_map, length_traces] at hxsLength hysLength
    rw [hxsLength, hysLength, length_of_way hes, length_of_way hfs]
  have hdiffer : ((xs.map Value.key?) == (ys.map Value.key?)) = false := by
    rw [hkeys hxs, hkeys hys]
    exact beq_false_of_ne fun h => hne (way_unique hS hes hfs h)
  have hequal := callOp_equal_lists (H := H) (w := v) (p := u.lists.size)
    (q := (u.lists.push xs.toArray).size) (by simp) (hfirst ▸ hgraph hxs) (hsecond ▸ hgraph hys)
    (by rw [hfirst, hsecond, hlength]) false
  rw [hfirst, hsecond, hdiffer] at hequal
  exact ⟨v, (Act.bind_of_ok hxpath).trans ((Act.bind_of_ok hypath).trans hequal)⟩

/-! ### Steps from a tracked vertex -/

theorem length_legs (S : List Leg) : (legs S).length = S.length := by
  induction S with
  | nil => rfl
  | cons s S ih => exact congrArg Nat.succ ih

theorem not_asks_legs (S : List Leg) : ¬(legs S).asks := by
  cases S <;> exact id

/-- Ways that stand in order are all different. -/
theorem nodup_of_pairwise_before {gs : List (List StoredEdge)}
    (hgs : gs.Pairwise (List.Lex StoredEdge.Before)) : gs.Nodup := by
  have hbefore : ∀ e : StoredEdge, ¬StoredEdge.Before e e := by
    rintro e (⟨hin, hout⟩ | ⟨-, hlt⟩)
    · cases hin.symm.trans hout
    · exact Nat.lt_irrefl _ hlt
  have hlex : ∀ es : List StoredEdge, ¬List.Lex StoredEdge.Before es es := by
    intro es hes
    induction es with
    | nil => cases hes
    | cons e es ih =>
        cases hes with
        | cons h => exact ih h
        | rel h => exact hbefore e h
  refine hgs.imp fun h => ?_
  rintro rfl
  exact hlex _ h

/-- **The results of steps along edges recount their ways.**  The vertex at `i` is tracked, and steps are
taken from it.  The results stand for the ways along which the steps lead, one to one and in order.  If no
step looks on both sides, all lineages are different.  The host must be so deep, and read so many items in
one go, as the steps take. -/
theorem results_recount_ways (S : List Leg) (m : Mark) (hkeyed : w.Keyed graph)
    (hlabelled : (legs S).Labelled w) (hn : 3 + 2 * S.length ≤ n)
    (hfuel : (legs S).effort w graph [vertexNode graph i] ≤ h.fuel) :
    ∃ xs u ways, (do
        let y ← (h.up n).callOp .track [.vertex ⟨graph, i⟩ m] []
        (legs S).results (h.up n) y) w = .ok xs u ∧ u.graphs = w.graphs ∧
      (∀ es, es ∈ ways ↔ w.Way graph S i es) ∧ ways.Nodup ∧
      ways.Pairwise (List.Lex StoredEdge.Before) ∧
      List.Forall₂ (Recounts w graph S (.vertex ⟨graph, i⟩ m)) ways xs ∧
      ((∀ s ∈ S, s.1 ≠ .both) → xs.Pairwise Distinguished) := by
  have hstart : (Value.vertex ⟨graph, i⟩ m).form = vertexNode graph i := rfl
  obtain ⟨xs, u, hresults, hspares, hxs⟩ := (legs S).results_of_track (n := n) (h := h)
    (x := .vertex ⟨graph, i⟩ m) ⟨rfl, i, rfl⟩ hkeyed hlabelled
    (fun hasks => absurd hasks (not_asks_legs S)) (by rw [length_legs]; exact hn) hfuel
  rw [hstart, leads_legs rfl] at hxs
  have hpath : ∀ {x : Value} {es : List StoredEdge},
      x.form = reachAlong graph (.root .vertex (vertexNode graph i) none) es →
        x.form.path? = some (traces graph i es) := by
    intro x es hx
    rw [hx]
    exact path?_reachAlong (p := [vertexNode graph i]) rfl rfl rfl es
  have hpairwise := w.pairwise_ways graph S i
  have hnodup := nodup_of_pairwise_before hpairwise
  refine ⟨xs, u, w.ways graph S i, hresults, hspares.graphs_eq, fun es => w.mem_ways_iff, hnodup,
    hpairwise, ?_, fun hS => ?_⟩
  · have hforms : List.Forall₂ (· = ·)
        ((w.ways graph S i).map (reachAlong graph (.root .vertex (vertexNode graph i) none)))
        (xs.map Value.form) := List.forall₂_eq_eq_eq ▸ hxs.symm
    rw [List.forall₂_map_left_iff, List.forall₂_map_right_iff] at hforms
    have hways := (List.forall₂_and_left _ _).2 ⟨fun es hes => (w.mem_ways_iff).1 hes, hforms⟩
    refine hways.imp fun es x h => recounts_of_way h.1 hstart ?_ (hpath h.2.symm)
    rw [Value.isTracked, ← Element.tracked_unmark (f := Value.withMark none) x.node, ← Value.form, ← h.2]
    exact tracked_reachAlong rfl es
  · let apart (a b : Node) : Prop := ∀ x y : Value, x.form = a → y.form = b → Distinguished x y
    have hapart : ((w.ways graph S i).map
        (reachAlong graph (.root .vertex (vertexNode graph i) none))).Pairwise apart := by
      refine List.pairwise_map.2 (hnodup.imp_of_mem fun hes hfs hne x y hx hy => ?_)
      exact distinguished_of_way hS ((w.mem_ways_iff).1 hes) ((w.mem_ways_iff).1 hfs) hne (hpath hx)
        (hpath hy)
    rw [← hxs, List.pairwise_map] at hapart
    exact hapart.imp fun h => h _ _ rfl rfl

/-- Two steps from a vertex with one edge, which leads back to it: the first step finds the edge on both
sides, so there are two results. -/
theorem results_recount_ways_loop :
    let vertices : Dictionary Key Value (Option Value) :=
      Dictionary.empty.put (Value.str "a").spell (.str "a") none
    let w : World := { graphs := #[{ vertices, edges := #[⟨0, 0, .str "loop", none⟩] }] }
    let S : List Leg := [(.both, .str "loop"), (.outgoing, .null)]
    w.ways 0 S 0 =
      [[⟨0, 0, 0, some .incoming⟩, ⟨0, 0, 0, some .outgoing⟩],
        [⟨0, 0, 0, some .outgoing⟩, ⟨0, 0, 0, some .outgoing⟩]] ∧
    ∃ xs u ways, (do
        let y ← (host 7).callOp .track [.vertex ⟨0, 0⟩ none] []
        (legs S).results (host 7) y) w = .ok xs u ∧ u.graphs = w.graphs ∧
      (∀ es, es ∈ ways ↔ w.Way 0 S 0 es) ∧ ways.Nodup ∧
      ways.Pairwise (List.Lex StoredEdge.Before) ∧
      List.Forall₂ (Recounts w 0 S (.vertex ⟨0, 0⟩ none)) ways xs ∧
      ((∀ s ∈ S, s.1 ≠ .both) → xs.Pairwise Distinguished) := by
  intro vertices w S
  refine ⟨rfl, ?_⟩
  rw [host_eq_up 7]
  refine results_recount_ways S none ?_ ?_ ?_ ?_
  · intro r hr
    have hloop : r = ⟨0, 0, .str "loop", none⟩ := by simpa [graphAt, w] using hr
    rw [hloop]
    rfl
  · exact ⟨⟨[.str "loop"], rfl, by decide⟩, ⟨[], rfl, by decide⟩, trivial⟩
  · decide
  · decide

end GraphRoutes.Session
