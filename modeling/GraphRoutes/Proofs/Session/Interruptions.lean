/-
**Reading on after an interruption.**

Between two reads of the neighbours of a vertex, anything may be done: a function may be called that logs, changes
lists or reads other sequences.  The sequence of the neighbours looks at the graph only, and keeps what it has
found on cursors of its own.  So it goes on as if nothing had been done, as long as these are left alone.

Where a step is taken from a single vertex, this holds from the first read on: before it, the labels to which
the step is restricted are still to be looked up.

Main definitions:

* `GraphRoutes.Session.World.Intact` — what an interruption must leave alone;
* `GraphRoutes.Session.Proceeds`, `GraphRoutes.Session.Resumes` — **what an iterator gives, whatever is done
  between its reads**.

Main results:

* `GraphRoutes.Session.resumes_neighbours`, `GraphRoutes.Session.exists_resumed_group` — the neighbours of a
  vertex can be read with interruptions;
* `GraphRoutes.Session.exists_proceeding_step` — and so can a step from it.
-/
import GraphRoutes.Proofs.Session.Queries

set_option relaxedAutoImplicit false
set_option autoImplicit false

namespace GraphRoutes.Session

open World Route

namespace World

/-- From one world to the next, the graphs and the cursors in `F` have stayed as they were; new cursors may have
been made. -/
structure Intact (F : Set ℕ) (w v : World) : Prop where
  graphs_eq : v.graphs = w.graphs
  size : w.cursors.size ≤ v.cursors.size
  same : ∀ i ∈ F, v.cursors[i]? = w.cursors[i]?

variable {F G P : Set ℕ} {u v w : World}

theorem Intact.refl (F : Set ℕ) (w : World) : Intact F w w := ⟨rfl, Nat.le_refl _, fun _ _ => rfl⟩

theorem Intact.trans (h : Intact F w v) (h' : Intact F v u) : Intact F w u :=
  ⟨h'.graphs_eq.trans h.graphs_eq, h.size.trans h'.size, fun i hi => (h'.same i hi).trans (h.same i hi)⟩

theorem Intact.mono (h : Intact F w v) (hG : G ⊆ F) : Intact G w v :=
  ⟨h.graphs_eq, h.size, fun i hi => h.same i (hG hi)⟩

theorem Spares.intact (h : Spares F w v) : Intact F w v := ⟨h.graphs_eq, h.size, h.same⟩

/-- What moves other cursors disturbs nothing. -/
theorem Moves.intact (h : Moves P w v) (hF : Has F w) (hapart : ∀ i ∈ F, i ∉ P) : Intact F w v :=
  ⟨h.graphs_eq, h.size, fun i hi => h.same i (hF i hi) (hapart i hi)⟩

theorem Has.intact (h : Has G w) (hv : Intact F w v) : Has G v :=
  fun i hi => Nat.lt_of_lt_of_le (h i hi) hv.size

end World

/-! ### Sequences that are interrupted -/

/-- When it is read from now on, an iterator gives elements of these forms and then comes to its end, whatever is
done after each read, as long as the graphs are left alone and the cursors on which it stands then. -/
def Proceeds (h : Host) (d : ℕ) (it : Value) : List Node → Set ℕ → World → Prop
  | [], F, v => ∀ n, d ≤ n → ∃ u, (h.up n).pull it v = .ok none u ∧ Uses F v u
  | b :: bs, F, v => ∀ n, d ≤ n → ∃ x u G, (h.up n).pull it v = .ok (some x) u ∧ x.form = b ∧ Uses F v u ∧
      G ⊆ within F v.cursors.size ∧ Has G u ∧ ∀ t, Intact G u t → Proceeds h d it bs G t

/-- An iterator proceeds, whatever is done before. -/
def Resumes (h : Host) (d : ℕ) (it : Value) (bs : List Node) (F : Set ℕ) (w : World) : Prop :=
  Has F w ∧ ∀ v, Intact F w v → Proceeds h d it bs F v

variable {h : Host} {d n k graph place : ℕ} {it x labels : Value} {a : Node} {as bs : List Node}
  {ls : List Value} {F G P : Set ℕ} {u v w t : World} {direction : Direction} {side : Side}
  {keys : Option (Std.HashSet Key)} {i o : Value} {s : Flat Value Value}

theorem Resumes.intact (hit : Resumes h d it bs F w) (hv : Intact F w v) : Resumes h d it bs F v :=
  ⟨hit.1.intact hv, fun u hu => hit.2 u (hv.trans hu)⟩

theorem Resumes.spared (hit : Resumes h d it bs F w) (hv : Spares F w v) : Resumes h d it bs F v :=
  hit.intact hv.intact

theorem Resumes.proceeds (hit : Resumes h d it bs F w) : Proceeds h d it bs F w := hit.2 w (.refl F w)

/-! ### The neighbours of a vertex -/

theorem lets_of_graphs (hv : v.graphs = w.graphs) {r : VertexRef} {e : EdgeRef} (he : e ∈ w.edgesAt r side) :
    v.lets keys e = w.lets keys e := by
  rw [lets, lets, edgeLabel_of_graphs hv he]

/-- The edges of a vertex that are still to be looked at are given, as far as they are let pass.  Before they are
looked at, other steps may be taken that read nothing. -/
theorem proceeds_edges {s : Neighbourhood Value EdgeRef Key} {r : VertexRef} {es : List EdgeRef} {c : Cursor}
    {N : ℕ} (hs : s.vertex = x.node) (hx : x.form = a) (hkeyed : v.Keyed r.graph)
    (hes : ∀ e ∈ es, e ∈ v.edgesAt r side) (hc : v.cursors[place]? = some c) (hclosed : Closed c)
    (hbegin : ∀ H, (stepCursor H).pull h.fuel c (v.reading place) =
      (stepCursor H).pull N (.neighbours { s with edges := some es }) (v.reading place))
    (hN : es.length < N) (hfuel : es.length < h.fuel) :
    Proceeds h 1 (.ref .iterator place)
      ((es.filter (v.lets s.labels)).map fun e => a.reach .edge (.plain (.edge e none))) {place} v := by
  -- by induction on the edges that are let pass: one read may pass over many others
  generalize hys : es.filter (v.lets s.labels) = ys
  induction ys generalizing es c v N with
  | nil =>
      intro n hn
      obtain ⟨m, rfl, -⟩ := exists_level_below hn
      have hlabels : ∀ e ∈ es, ((v.reading place).edgeLabel e).key?.isSome := fun e he =>
        (isSome_of_mem_edgesAt hkeyed (hes e he)).1
      rcases pull_neighbours (h := h.up m) s hlabels hN with ⟨-, hpull⟩ | ⟨e, rest, hfilter, -⟩
      · rw [← hbegin, ← h.fuel_up m] at hpull
        exact ⟨_, pull_closed_end hc hclosed hpull, (uses_setCursor v place .running).trans
          (uses_setCursor _ place .finished) (subset_within _ _)⟩
      · cases hys.symm.trans hfilter
  | cons e' ys ih =>
      intro n hn
      obtain ⟨m, rfl, -⟩ := exists_level_below hn
      have hlabels : ∀ e ∈ es, ((v.reading place).edgeLabel e).key?.isSome := fun e he =>
        (isSome_of_mem_edgesAt hkeyed (hes e he)).1
      rcases pull_neighbours (h := h.up m) s hlabels hN with ⟨hnil, -⟩ | ⟨e, rest, hfilter, hmem, hlt, hpull⟩
      · cases hys.symm.trans hnil
      · obtain ⟨rfl, hrest⟩ := List.cons.inj (hys.symm.trans hfilter)
        rw [← hbegin, ← h.fuel_up m] at hpull
        obtain ⟨y, marks, hpulled, hhanded⟩ := exists_pull_closed hc hclosed hpull
        have huses := (uses_setCursor v place .running).trans
          (uses_settle (v.reading place) place (.neighbours { s with edges := some rest }) marks)
          (subset_within _ _)
        have hlt' : place < (v.reading place).cursors.size := by
          rw [size_reading]
          exact (Array.getElem?_eq_some_iff.1 hc).1
        refine ⟨y, _, {place}, hpulled, ?_, huses, subset_within _ _, ?_, fun t ht => ?_⟩
        · rw [hhanded.form_eq, hs, Value.form_reach x .edge rfl, hx]
          rfl
        · rintro i rfl
          exact hlt'.trans_le (Nat.le_of_eq (by simp))
        · have hgraphs : t.graphs = v.graphs := ht.graphs_eq.trans huses.empty.graphs_eq
          have hct : t.cursors[place]? = some (.neighbours { s with edges := some rest }) :=
            (ht.same place rfl).trans (Array.getElem?_setIfInBounds_self_of_lt hlt')
          have hrest' : ∀ e ∈ rest, e ∈ t.edgesAt r side := fun e he => by
            rw [edgesAt_of_graphs hgraphs]
            exact hes e (hmem e he)
          refine ih (keyed_of_graphs hgraphs hkeyed) hrest' hct (closed_neighbours _) (fun _ => rfl)
            (hlt.trans hfuel) (hlt.trans hfuel) ?_
          exact (List.filter_congr fun e he => lets_of_graphs hgraphs (hes e (hmem e he))).trans hrest.symm

/-- **The edges of a vertex on one side** can be read with interruptions. -/
theorem resumes_neighbours (hkeyed : w.Keyed graph) (ha : Fits graph .vertex a) (hx : x.form = a)
    (hkeys : ∀ label k, label.key? = some k → passes keys k = admits ls label)
    (hc : w.cursors[place]? = some (.neighbours { vertex := x.node, side, labels := keys }))
    (hfuel : (w.graphAt graph).edges.size + 2 ≤ h.fuel) :
    Resumes h 1 (.ref .iterator place) (w.edgesOf a side ls) {place} w := by
  obtain ⟨j, m, hbase, hnode, -⟩ := vertexOf?_of_form ha hx
  refine ⟨fun i hi => hi ▸ (Array.getElem?_eq_some_iff.1 hc).1, fun v hv => ?_⟩
  let s : Neighbourhood Value EdgeRef Key := { vertex := x.node, side, labels := keys }
  have hgraph : v.graphAt graph = w.graphAt graph := congrFun (graphAt_congr hv.graphs_eq) graph
  have hkeyed' : v.Keyed graph := keyed_of_graphs hv.graphs_eq hkeyed
  have hlength : (v.edgesAt ⟨graph, j⟩ side).length ≤ (w.graphAt graph).edges.size :=
    hgraph ▸ length_edgesAt_le v ⟨graph, j⟩ side
  have hedges : w.edgesOf a side ls = ((v.edgesAt ⟨graph, j⟩ side).filter (v.lets keys)).map fun e =>
      a.reach .edge (.plain (.edge e none)) := by
    rw [← edgesOf_congr hv.graphs_eq ha, edgesOf, hbase]
    refine congrArg _ (List.filter_congr fun e he => ?_)
    obtain ⟨k, hk⟩ := Option.isSome_iff_exists.1 (isSome_of_mem_edgesAt hkeyed' he).1
    rw [lets, hk, Option.any_some, hkeys _ k hk]
  rw [hedges]
  obtain ⟨fuel, hsucc⟩ := Nat.exists_eq_add_of_le' (Nat.lt_of_lt_of_le (Nat.succ_pos _) hfuel)
  have hstep : ∀ H, stepCursor H (.neighbours s) (v.reading place) =
      .ok (.skip (.neighbours { s with edges := some (v.edgesAt ⟨graph, j⟩ side) })) (v.reading place) := by
    intro H
    have hread : neighbourStep s (v.reading place) =
        .ok (.skip { s with edges := some (v.edgesAt ⟨graph, j⟩ side) }) (v.reading place) := by
      simp only [neighbourStep, Neighbourhood.step, s, hnode]
      rfl
    rw [stepCursor, Act.bind_of_ok hread]
    rfl
  have hread : ∀ e ∈ v.edgesAt ⟨graph, j⟩ side, e ∈ v.edgesAt ⟨graph, j⟩ side := fun _ he => he
  refine proceeds_edges (s := s) (N := fuel) rfl hx hkeyed' hread ((hv.same place rfl).trans hc)
    (closed_neighbours s) (fun H => ?_) (by omega) (by omega)
  rw [hsucc, Machine.pull_of_skip (hstep H)]

/-! ### Images -/

/-- **The images of what is read with interruptions**, if the world is not needed to make them. -/
theorem proceeds_each {image : Image} {f : Node → Node} (hit : Resumes h d it bs F v)
    (hc : v.cursors[place]? = some (.each image it)) (hplace : place ∉ F)
    (himage : ∀ H, ∀ b ∈ bs, ∀ x v, x.form = b → ∃ y, image.apply H x v = .ok y v ∧ y.form = f b)
    (hfuel : 0 < h.fuel) :
    Proceeds h (d + 1) (.ref .iterator place) (bs.map f) (insert place F) v := by
  obtain ⟨fuel, hsucc⟩ := Nat.exists_eq_add_of_le' hfuel
  induction bs generalizing F v with
  | nil =>
      intro n hn
      obtain ⟨m, rfl, hm⟩ := exists_level_below hn
      have hlt : place < v.cursors.size := (Array.getElem?_eq_some_iff.1 hc).1
      have hreading : Spares F v (v.reading place) :=
        spares_reading hplace hit.1 (.refl (insert place F) v)
      obtain ⟨u, hpull, huses⟩ := (hit.spared hreading).proceeds m hm
      have hend : (stepCursor (h.up m)).pull (fuel + 1) (.each image it) (v.reading place) = .ok (.ended none) u :=
        Machine.pull_of_finish (stepCursor_each_end hpull) fuel
      rw [← hsucc, ← h.fuel_up m] at hend
      exact ⟨_, pull_closed_end hc (closed_each image it) hend,
        ((uses_reading v place F).trans huses (subset_within_insert place F _)).trans
          (uses_setCursor u place .finished) (singleton_subset_within place F _)⟩
  | cons b bs ih =>
      intro n hn
      obtain ⟨m, rfl, hm⟩ := exists_level_below hn
      have hlt : place < v.cursors.size := (Array.getElem?_eq_some_iff.1 hc).1
      have hreading : Spares F v (v.reading place) :=
        spares_reading hplace hit.1 (.refl (insert place F) v)
      obtain ⟨x, u, G, hpull, hx, huses, hG, hhas, hrest⟩ := (hit.spared hreading).proceeds m hm
      obtain ⟨y, hy, hform⟩ := himage (h.up m) b List.mem_cons_self x u hx
      have hgive := Machine.pull_of_give (stepCursor_each hpull hy) fuel
      rw [← hsucc, ← h.fuel_up m] at hgive
      obtain ⟨y', marks, hpulled, hhanded⟩ := exists_pull_closed hc (closed_each image it) hgive
      have hltv : place < (v.reading place).cursors.size := by rwa [size_reading]
      have hplace' : place ∉ G := notMem_of_subset_within hG hplace hltv
      have hsettle := uses_settle u place (.each image it) marks
      have hresumes : Resumes h d it bs G u := ⟨hhas, hrest⟩
      have hleft := hresumes.spared (hsettle.spares_of_notMem hhas hplace')
      have hltu : place < u.cursors.size := hltv.trans_le huses.size
      refine ⟨y', _, insert place G, hpulled, hhanded.form_eq.trans hform,
        ((uses_reading v place F).trans huses (subset_within_insert place F _)).trans hsettle
          (singleton_subset_within place F _), ?_, has_insert ?_ hleft.1, fun t ht => ?_⟩
      · rw [size_reading] at hG
        exact insert_subset_within place hG
      · exact hltu.trans_le hsettle.size
      · refine ih (hleft.intact (ht.mono (Set.subset_insert place G))) ?_ hplace'
          fun H b hb => himage H b (List.mem_cons_of_mem _ hb)
        exact (ht.same place (Set.mem_insert place G)).trans (Array.getElem?_setIfInBounds_self_of_lt hltu)

theorem resumes_each {image : Image} {f : Node → Node} (hit : Resumes h d it bs F w)
    (hc : w.cursors[place]? = some (.each image it)) (hplace : place ∉ F)
    (himage : ∀ H, ∀ b ∈ bs, ∀ x v, x.form = b → ∃ y, image.apply H x v = .ok y v ∧ y.form = f b)
    (hfuel : 0 < h.fuel) : Resumes h (d + 1) (.ref .iterator place) (bs.map f) (insert place F) w :=
  ⟨has_insert (Array.getElem?_eq_some_iff.1 hc).1 hit.1, fun _ hv =>
    proceeds_each (hit.intact (hv.mono (Set.subset_insert place F)))
      ((hv.same place (Set.mem_insert place F)).trans hc) hplace himage hfuel⟩

/-- **The neighbours of a vertex on one side** can be read with interruptions. -/
theorem exists_resumed_group (hkeyed : w.Keyed graph) (ha : Fits graph .vertex a) (hx : x.form = a)
    (hkeys : ∀ label k, label.key? = some k → passes keys k = admits ls label)
    (hfuel : (w.graphAt graph).edges.size + 2 ≤ h.fuel) (hsides : direction.sides = [side]) (H : Host) :
    ∃ place u F, (Image.group direction .vertices keys .none).apply H x w = .ok (.ref .iterator place) u ∧
      Uses ∅ w u ∧ F ⊆ within ∅ w.cursors.size ∧
      Resumes h 2 (.ref .iterator place) (w.along direction (.tuple ls none) .vertices a) F u := by
  obtain ⟨i, m, -, -, hvertex⟩ := vertexOf?_of_form ha hx
  let c : Cursor := .neighbours { vertex := x.node, side, labels := keys }
  let v : World := { w with cursors := w.cursors.push c }
  let u : World := { v with cursors := v.cursors.push (.each (farImage direction) (.ref .iterator w.cursors.size)) }
  have hnew : neighbours x side keys w = .ok (.ref .iterator w.cursors.size) v := by
    rw [neighbours, neighbourhood, hvertex]
    rfl
  have hedges : incidentEdges x direction keys w = .ok (.ref .iterator w.cursors.size) v := by
    rw [← hnew]
    cases direction with
    | outgoing | incoming =>
        cases hsides
        rfl
    | both => cases hsides
  have hfar : farVertices direction (.ref .iterator w.cursors.size) v = .ok (.ref .iterator v.cursors.size) u := by
    cases direction <;> rfl
  have huses : Uses ∅ v u := uses_push v _
  have hv : Resumes h 1 (.ref .iterator w.cursors.size) (w.edgesOf a side ls) {w.cursors.size} v :=
    resumes_neighbours (w := v) hkeyed ha hx hkeys Array.getElem?_push_size hfuel
  have hit := hv.spared (huses.spares_of_new hv.1)
  refine ⟨v.cursors.size, u, insert v.cursors.size {w.cursors.size},
    (Act.bind_of_ok hedges).trans ((Act.bind_of_ok hfar).trans rfl),
    (uses_push w c).trans huses (Set.empty_subset _), ?_, ?_⟩
  · refine Set.insert_subset (.inr (uses_push w c).size) (Set.singleton_subset_iff.2 (.inr (Nat.le_refl _)))
  · have halong : w.along direction (.tuple ls none) .vertices a =
        (w.edgesOf a side ls).map fun e => w.endOf (farEnd (reachedFrom e)) e := by
      rw [along, edgesFrom, hsides, List.flatMap_singleton]
      rfl
    rw [halong]
    refine resumes_each hit Array.getElem?_push_size (notMem_of_has hv.1) (fun _ e he _ v hx => ?_) (by omega)
    obtain ⟨hedge, hside⟩ := fits_of_mem_edgesOf ha he
    rw [hside]
    cases direction with
    | outgoing | incoming =>
        cases hsides
        exact endNode_eq hedge hx _ w _
    | both => cases hsides

/-! ### The last part of a chain -/

/-- A chain is in its last part, or enters it when it is read: the part still gives `bs`, and then there are no
more parts. -/
def AtLast (h : Host) (d n place : ℕ) (o : Value) (bs : List Node) (P : Set ℕ) (v : World) : Prop :=
  ∃ s i k t F G, v.cursors[place]? = some (.chained s) ∧
    chainTurn (h.up n) place s v = Flat.ask (chainCell s place) (h.up n).source k i t ∧ Uses P v t ∧
    insert place (F ∪ G) ⊆ within P v.cursors.size ∧
    t.cursors[place]? = some (.chained { outer := some o, part := some i, opened := k }) ∧
    Proceeds h d i bs F t ∧ Resumes h d o [] G t ∧ (∀ j ∈ F, j ∉ G) ∧ place ∉ F ∧ place ∉ G

theorem atLast_inside (hc : v.cursors[place]? = some (.chained { outer := some o, part := some i, opened := k }))
    (hi : Proceeds h d i bs F v) (ho : Resumes h d o [] G v) (hapart : ∀ j ∈ F, j ∉ G) (hplaceF : place ∉ F)
    (hplaceG : place ∉ G) : AtLast h d n place o bs (insert place (F ∪ G)) v := by
  refine ⟨_, i, k, v, F, G, hc, ?_, .refl _ v, subset_within _ _, hc, hi, ho, hapart, hplaceF, hplaceG⟩
  rw [chainTurn, Flat.turn]
  exact Act.bind_of_ok (read_chain hc)

/-- The last part is left when it has come to its end, and then there are no more parts. -/
theorem AtLast.ends (hlast : AtLast h d n place o [] P v) (hn : d ≤ n) (hfuel : 2 ≤ h.fuel) :
    ∃ u, (h.up (n + 1)).pull (.ref .iterator place) v = .ok none u ∧ Uses P v u := by
  obtain ⟨s, i, k, t, F, G, hs, hturn, hbegins, hsub, hct, hi, ho, hapart, hplaceF, hplaceG⟩ := hlast
  have hlt : place < t.cursors.size := (Array.getElem?_eq_some_iff.1 hct).1
  obtain ⟨t', hpart, hasks⟩ := hi n hn
  obtain ⟨u, hask, hleft, hcu⟩ := ask_end (s := s) hpart ((hasks.same place ⟨hlt, hplaceF⟩).trans hct)
  have hleaves : Uses (insert place F) t u := hasks.settle hleft
  obtain ⟨u', hpull, hreads⟩ := (ho.spared (hleaves.spares_of_insert ho.1 hplaceG hapart)).proceeds n hn
  have hltu : place < u.cursors.size := (Array.getElem?_eq_some_iff.1 hcu).1
  obtain ⟨u'', hend, hcloses⟩ := turn_end (s := s) hcu hpull ((hreads.same place ⟨hltu, hplaceG⟩).trans hcu)
  have hpulled : Turn.pull .outOfFuel (chainTurn (h.up n) place s) (h.up n).fuel v = .ok none u'' := by
    obtain ⟨fuel, hsucc⟩ := Nat.exists_eq_add_of_le' hfuel
    rw [h.fuel_up n, hsucc, Turn.pull_of_again (hturn.trans hask), Turn.pull_of_ended hend]
  have hnext : nextItem (h.up n) place v = .ok none u'' := nextItem_of_pull hs rfl hpulled
  have hF : insert place F ⊆ within P v.cursors.size :=
    (Set.insert_subset_insert Set.subset_union_left).trans hsub
  have hG : insert place G ⊆ within P v.cursors.size :=
    (Set.insert_subset_insert Set.subset_union_right).trans hsub
  exact ⟨u'', Act.bind_of_ok hnext, (hbegins.trans hleaves hF).trans (hreads.settle hcloses) hG⟩

/-- An item of the last part is given, and the chain is in its last part still, whatever is done outside it. -/
theorem AtLast.gives {b : Node} (hlast : AtLast h d n place o (b :: bs) P v) (hn : d ≤ n) (hfuel : 0 < h.fuel) :
    ∃ x u Q, (h.up (n + 1)).pull (.ref .iterator place) v = .ok (some x) u ∧ x.form = b ∧ Uses P v u ∧
      Q ⊆ within P v.cursors.size ∧ Has Q u ∧ ∀ t, Intact Q u t → ∀ m, AtLast h d m place o bs Q t := by
  obtain ⟨s, i, k, t, F, G, hs, hturn, hbegins, hsub, hct, hi, ho, hapart, hplaceF, hplaceG⟩ := hlast
  have hlt : place < t.cursors.size := (Array.getElem?_eq_some_iff.1 hct).1
  obtain ⟨x, t', F', hpart, hx, hasks, hF', hhas, hrest⟩ := hi n hn
  obtain ⟨u, hask, hgiven, hcu⟩ := ask_item (s := s) hpart ((hasks.same place ⟨hlt, hplaceF⟩).trans hct)
  have hgives : Uses (insert place F) t u := hasks.settle hgiven
  have hplaceF' : place ∉ F' := notMem_of_subset_within hF' hplaceF hlt
  have hpulled : Turn.pull .outOfFuel (chainTurn (h.up n) place s) (h.up n).fuel v = .ok (some x) u := by
    obtain ⟨fuel, hsucc⟩ := Nat.exists_eq_succ_of_ne_zero (Nat.ne_of_gt hfuel)
    rw [h.fuel_up n, hsucc, Turn.pull_of_give (hturn.trans hask)]
  obtain ⟨x', marks, hpull, hhanded⟩ := pull_of_nextItem (nextItem_of_pull hs rfl hpulled)
  have hmarks : Uses ∅ u { u with marks } := uses_marks u marks
  -- the part and the sequence of the parts are as they were left
  have hi' : Resumes h d i bs F' { u with marks } :=
    Resumes.spared ⟨hhas, hrest⟩ ((hgiven.spares_of_notMem hhas hplaceF').trans (hmarks.spares_of_new fun j hj =>
      (hhas j hj).trans_le hgiven.size))
  have ho' : Resumes h d o [] G { u with marks } :=
    ho.spared ((hgives.spares_of_insert ho.1 hplaceG hapart).trans (hmarks.spares_of_new fun j hj =>
      (ho.1 j hj).trans_le hgives.size))
  have hapart' := apart_of_subset_within hF' hapart ho.1
  have hF : insert place F ⊆ within P v.cursors.size :=
    (Set.insert_subset_insert Set.subset_union_left).trans hsub
  have hwithin : within (F ∪ G) t.cursors.size ⊆ within P v.cursors.size :=
    within_mono ((Set.subset_insert place _).trans hsub) hbegins.size
  refine ⟨x', _, insert place (F' ∪ G), hpull, hhanded.form_eq.trans hx,
    (hbegins.trans hgives hF).trans hmarks (Set.empty_subset _), ?_, ?_, fun t' ht m => ?_⟩
  · refine Set.insert_subset (hsub (Set.mem_insert place _)) (Set.union_subset ?_ ?_)
    · refine (hF'.trans (within_mono ?_ (Nat.le_refl _))).trans hwithin
      exact Set.subset_union_left.trans (subset_within _ _)
    · exact (Set.subset_union_right.trans (Set.subset_insert place _)).trans hsub
  · refine has_insert (Array.getElem?_eq_some_iff.1 hcu).1 ?_
    rintro j (hj | hj)
    · exact hi'.1 j hj
    · exact ho'.1 j hj
  · have ht' := ht.mono (Set.subset_insert place (F' ∪ G))
    exact atLast_inside ((ht.same place (Set.mem_insert place _)).trans hcu)
      (hi'.2 t' (ht'.mono Set.subset_union_left)) (ho'.intact (ht'.mono Set.subset_union_right)) hapart' hplaceF'
      hplaceG

/-- **A chain can be read with interruptions when it has come to its last part**, if that part can. -/
theorem proceeds_atLast (hlast : ∀ n, d ≤ n → AtLast h d n place o bs P v) (hfuel : 2 ≤ h.fuel) :
    Proceeds h (d + 1) (.ref .iterator place) bs P v := by
  induction bs generalizing P v with
  | nil =>
      intro n hn
      obtain ⟨m, rfl, hm⟩ := exists_level_below hn
      exact (hlast m hm).ends hm hfuel
  | cons b bs ih =>
      intro n hn
      obtain ⟨m, rfl, hm⟩ := exists_level_below hn
      obtain ⟨x, u, Q, hpull, hx, huses, hQ, hhas, hrest⟩ := (hlast m hm).gives hm (Nat.lt_of_succ_lt hfuel)
      exact ⟨x, u, Q, hpull, hx, huses, hQ, hhas, fun t ht => ih fun n _ => hrest t ht n⟩

/-! ### A step from one vertex -/

/-- An element is a route of its own. -/
theorem openRoute_element {l : Layer} (hx : x.form = a) (ha : Fits graph l a) (v : World) :
    openRoute x v =
      .ok (.ref .iterator v.cursors.size) { v with cursors := v.cursors.push (.items .tuple [x]) } := by
  have hensure : ensureRoute x = .tuple [x] none := by
    have helement := isElement_of_form hx ha
    cases x with
    | null => cases helement
    | _ => simp only [ensureRoute, helement, if_true]
  rw [openRoute, hensure]
  rfl

theorem resumes_noItems (hc : w.cursors[place]? = some (.items .tuple [])) (hfuel : 0 < h.fuel) :
    Resumes h 1 (.ref .iterator place) [] {place} w := by
  refine ⟨fun i hi => hi ▸ (Array.getElem?_eq_some_iff.1 hc).1, fun v hv n hn => ?_⟩
  obtain ⟨m, rfl, -⟩ := exists_level_below hn
  have hnext : nextItem (h.up m) place v = .ok none v :=
    nextItem_of_turn ((hv.same place rfl).trans hc) rfl rfl rfl (by rwa [Host.fuel_up])
  exact ⟨v, Act.bind_of_ok hnext, .refl _ v⟩

/-- The sequence under a step from one vertex begins: the labels are looked up, and the vertex is opened as a
route. -/
theorem exists_begun_group (ha : Fits graph .vertex a) (hx : x.form = a) (hlabels : w.labels? labels = some ls)
    (hls : ∀ l ∈ ls, l.key?.isSome) (hfuel : ls.length < h.fuel) :
    ∃ keys q v, stepCursor (h.up (n + 1)) (.deferred (.groups x labels direction .vertices .none)) w =
        .ok (.skip (.each (.group direction .vertices keys .none) (.ref .iterator q))) v ∧
      (∀ label k, label.key? = some k → passes keys k = admits ls label) ∧ Uses ∅ w v ∧ w.cursors.size ≤ q ∧
      v.cursors[q]? = some (.items .tuple [x]) := by
  obtain ⟨keys, v, hread, hkeys, hkeeps⟩ := labelKeys_eq (h := h.up n) hlabels hls (by rwa [Host.fuel_up])
  let u : World := { v with cursors := v.cursors.push (.items .tuple [x]) }
  have hv : Uses ∅ w v := hkeeps.uses (Nat.le_refl _)
  have hbegun : beginCursor (h.up (n + 1)) (.groups x labels direction .vertices .none) w =
      .ok (.each (.group direction .vertices keys .none) (.ref .iterator v.cursors.size)) u :=
    (Act.bind_of_ok hread).trans ((Act.bind_of_ok (openRoute_element hx ha v)).trans rfl)
  refine ⟨keys, v.cursors.size, u, ?_, hkeys, hv.trans (uses_push v _) (Set.empty_subset _), hv.size,
    Array.getElem?_push_size⟩
  rw [stepCursor, Act.bind_of_ok hbegun]
  rfl

/-- The sequence under a step from one vertex gives the neighbours of this vertex, and nothing else. -/
theorem exists_first_group (hkeyed : w.Keyed graph) (ha : Fits graph .vertex a) (hx : x.form = a)
    (hlabels : w.labels? labels = some ls) (hls : ∀ l ∈ ls, l.key?.isSome)
    (hfuel : (w.graphAt graph).edges.size + 2 ≤ h.fuel) (hfuel' : ls.length < h.fuel)
    (hsides : direction.sides = [side])
    (hc : w.cursors[place]? = some (.deferred (.groups x labels direction .vertices .none))) (hn : 2 ≤ n) :
    ∃ q u F G, (h.up n).pull (.ref .iterator place) w = .ok (some (.ref .iterator q)) u ∧ Uses {place} w u ∧
      F ⊆ within ∅ w.cursors.size ∧ G ⊆ within {place} w.cursors.size ∧ (∀ j ∈ F, j ∉ G) ∧
      Resumes h 2 (.ref .iterator q) (w.along direction labels .vertices a) F u ∧
      Resumes h 2 (.ref .iterator place) [] G u := by
  obtain ⟨m, rfl, hm⟩ := exists_level_below hn
  obtain ⟨l, rfl, -⟩ := exists_level_below hm
  have hlt : place < w.cursors.size := (Array.getElem?_eq_some_iff.1 hc).1
  have hreading : Uses {place} w (w.reading place) := uses_setCursor w place .running
  have hlabels' : (w.reading place).labels? labels = some ls :=
    (congrFun (spares_labels? hreading.empty) labels).trans hlabels
  obtain ⟨keys, o, v, hbegin, hkeys, hbegins, hle, hcv⟩ := exists_begun_group (n := l) ha hx hlabels' hls hfuel'
  -- the vertex is read, and its neighbours are grouped
  obtain ⟨x', u, hpull, hhanded, hmoves, hcu⟩ := exists_pull_turn (h := h.up l) hcv rfl rfl
    (by rw [Host.fuel_up]; omega)
  have hu : Spares ∅ w u := (hreading.empty.trans hbegins.empty).trans hmoves.empty
  obtain ⟨q, t, F, hgroup, hgroups, hF, hit⟩ := exists_resumed_group (h := h) (Keyed.spared hkeyed hu) ha
    (hhanded.form_eq.trans hx) hkeys (by rwa [spares_graphAt hu]) hsides (h.up (l + 1))
  let c : Cursor := .each (.group direction .vertices keys .none) (.ref .iterator o)
  have hstep : (stepCursor (h.up (l + 1))).pull (h.up (l + 1)).fuel
      (.deferred (.groups x labels direction .vertices .none)) (w.reading place) =
      .ok (.item (.ref .iterator q) c) t := by
    obtain ⟨fuel, hsucc⟩ := Nat.exists_eq_add_of_le' (Nat.le_of_add_left_le hfuel)
    rw [Host.fuel_up, hsucc, Machine.pull_of_skip hbegin]
    exact Machine.pull_of_give (stepCursor_each hpull hgroup) fuel
  obtain ⟨y, marks, hpulled, hhanded'⟩ := exists_pull_closed hc (closed_deferred _) hstep
  obtain rfl := hhanded'.eq_of_marked rfl
  have hsettle := uses_settle t place c marks
  have hle : w.cursors.size ≤ o := by rwa [size_reading] at hle
  have hnew : o < u.cursors.size := (Array.getElem?_eq_some_iff.1 hcu).1
  have hplaceF : place ∉ F := fun hmem =>
    (hF hmem).elim id (Nat.not_le_of_lt (hlt.trans_le (hle.trans hnew.le)))
  have huses : Uses {place} w t := by
    refine ((hreading.trans hbegins (Set.empty_subset _)).trans hmoves ?_).trans hgroups (Set.empty_subset _)
    exact Set.singleton_subset_iff.2 (.inr hle)
  have halong : u.along direction (.tuple ls none) .vertices a = w.along direction labels .vertices a := by
    rw [along_congr hu.graphs_eq ha, along_tuple hlabels]
  rw [halong] at hit
  refine ⟨q, _, F, {place, o}, hpulled, huses.trans hsettle (subset_within _ _),
    hF.trans (within_mono (Set.empty_subset _) (hle.trans hnew.le)), ?_, ?_,
    hit.spared (hsettle.spares_of_notMem hit.1 hplaceF), ?_⟩
  · exact Set.insert_subset (.inl rfl) (Set.singleton_subset_iff.2 (.inr hle))
  · rintro j hj (rfl | rfl)
    · exact hplaceF hj
    · exact (hF hj).elim id (Nat.not_le_of_lt hnew)
  · -- the one vertex has been read
    have hne : place ≠ o := (hlt.trans_le hle).ne
    have hco : (t.cursors.setIfInBounds place c)[o]? = some (.items .tuple []) := by
      rw [Array.getElem?_setIfInBounds_ne hne]
      exact (hgroups.same _ ⟨hnew, Set.notMem_empty _⟩).trans hcu
    have himage : ∀ H, ∀ b ∈ ([] : List Node), ∀ x v, x.form = b →
        ∃ y, (Image.group direction .vertices keys .none).apply H x v = .ok y v ∧ y.form = id b :=
      fun _ _ hb => (List.not_mem_nil hb).elim
    exact resumes_each (resumes_noItems hco (by omega))
      (Array.getElem?_setIfInBounds_self_of_lt (hlt.trans_le huses.size)) hne himage (by omega)

/-- **A step from one vertex** can be read with interruptions from the first read on. -/
theorem exists_proceeding_step (hkeyed : w.Keyed graph) (ha : Fits graph .vertex a) (hx : x.form = a)
    (hlabels : w.labels? labels = some ls) (hls : ∀ l ∈ ls, l.key?.isSome)
    (hfuel : (w.graphAt graph).edges.size + 2 ≤ h.fuel) (hfuel' : ls.length < h.fuel)
    (hsides : direction.sides = [side]) :
    ∃ r u F, openStep { direction, gives := .vertices, grouped := false } x labels .none w =
        .ok (.ref .iterator r) u ∧ Uses ∅ w u ∧ F ⊆ within ∅ w.cursors.size ∧ Has F u ∧
      Proceeds h 3 (.ref .iterator r) (w.along direction labels .vertices a) F u := by
  let c : Cursor := .deferred (.groups x labels direction .vertices .none)
  let v : World := { w with cursors := w.cursors.push c }
  let o : Value := .ref .iterator w.cursors.size
  let u : World := { v with cursors := v.cursors.push (.chained { outer := some o }) }
  have huses : Uses ∅ w u := (uses_push w c).trans (uses_push v _) (Set.empty_subset _)
  have hcv : v.cursors[w.cursors.size]? = some c := Array.getElem?_push_size
  have hlt : w.cursors.size < v.cursors.size := (Array.getElem?_eq_some_iff.1 hcv).1
  have hcu : u.cursors[w.cursors.size]? = some c := ((uses_push v _).same _ ⟨hlt, Set.notMem_empty _⟩).trans hcv
  have hchain : u.cursors[v.cursors.size]? = some (.chained { outer := some o }) := Array.getElem?_push_size
  have hltu : v.cursors.size < u.cursors.size := (Array.getElem?_eq_some_iff.1 hchain).1
  refine ⟨v.cursors.size, u, {v.cursors.size, w.cursors.size}, rfl, huses, ?_, ?_, ?_⟩
  · exact Set.insert_subset (.inr hlt.le) (Set.singleton_subset_iff.2 (.inr (Nat.le_refl _)))
  · rintro j (rfl | rfl)
    · exact hltu
    · exact hlt.trans hltu
  refine proceeds_atLast (o := o) (fun n hn => ?_) (Nat.le_of_add_left_le hfuel)
  obtain ⟨q, t, F, G, hpull, hmoves, hF, hG, hapart, hit, hend⟩ :=
    exists_first_group (w := u) hkeyed ha hx hlabels hls hfuel hfuel' hsides hcu hn
  have hne : v.cursors.size ≠ w.cursors.size := hlt.ne'
  have hplaceF : v.cursors.size ∉ F := fun hmem => (hF hmem).elim id (Nat.not_le_of_lt hltu)
  have hplaceG : v.cursors.size ∉ G := notMem_of_subset_within hG hne hltu
  obtain ⟨t', hturn, henters, hct'⟩ := turn_between (s := { outer := some o }) hchain hpull rfl
    ((hmoves.same _ ⟨hltu, hne⟩).trans hchain)
  have hit' := hit.spared (henters.spares_of_notMem hit.1 hplaceF)
  have hend' := hend.spared (henters.spares_of_notMem hend.1 hplaceG)
  refine ⟨_, .ref .iterator q, 1, t', F, G, hchain, hturn, hmoves.settle henters, ?_, hct', ?_, hend', hapart,
    hplaceF, hplaceG⟩
  · refine Set.insert_subset (subset_within _ _ (Set.mem_insert _ _)) (Set.union_subset ?_ ?_)
    · exact hF.trans (within_mono (Set.empty_subset _) (Nat.le_refl _))
    · exact hG.trans (within_mono ((Set.subset_insert _ _).trans (subset_within _ _)) (Nat.le_refl _))
  · exact hit'.proceeds

end GraphRoutes.Session
