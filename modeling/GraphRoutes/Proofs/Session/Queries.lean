/-
**Queries over routes that need not end.**

Steps along edges are taken from the vertices of a route, one after the other.  The route may be infinite, so
nothing can be read of it in advance: to take the steps reads nothing, and an item is found by reading the
route as far as the vertex from which the item is reached.  Several vertices may be read in one go, as long as
the steps lead nowhere from them, and on each level a part may be in progress; but when the route is read, then
all parts have come to their ends.

Main definitions:

* `GraphRoutes.Session.Fount` — **a finite or infinite route**, as it is read item by item;
* `GraphRoutes.Session.Gauge.Begins` — a route of which nothing has been read;
* `GraphRoutes.Session.Streamed` — routes over a source, and what they stream;
* `GraphRoutes.Session.Hops.AlongEdges` — steps along edges.

Main results:

* `GraphRoutes.Session.exists_step`, `GraphRoutes.Session.Hops.exists_follow` — a step streams the elements to
  which it leads, and so do several;
* `GraphRoutes.Session.queries_stream` — **a query reads as much of its route as it needs**.
-/
import GraphRoutes.Proofs.Session.Currents
import GraphRoutes.Proofs.Session.Multiplicity
import GraphRoutes.Proofs.Session.Splitting
import GraphRoutes.Proofs.Session.Traversals

set_option relaxedAutoImplicit false
set_option autoImplicit false

namespace GraphRoutes.Session

open World Merge Filter

variable {κ : Type} {h : Host} {d n graph : ℕ} {k l m : Layer} {a b : Node} {it x route labels : Value}
  {ls : List Value} {P Q : Set ℕ} {u v w : World} {direction : Direction} {gives : Yield}

/-! ### Where steps lead in a world with the same graphs -/

theorem endOf_congr (ha : Fits graph .edge a) (i : End) (v w : World) : v.endOf i a = w.endOf i a := by
  obtain ⟨-, e, he⟩ := ha
  rw [endOf, endOf, he]
  rfl

theorem graphAt_congr (hv : v.graphs = w.graphs) : v.graphAt = w.graphAt := by
  funext i
  rw [graphAt, graphAt, hv]

theorem keyed_of_graphs (hv : v.graphs = w.graphs) (hkeyed : w.Keyed graph) : v.Keyed graph := by
  rw [World.Keyed, graphAt_congr hv]
  exact hkeyed

theorem edgesAt_of_graphs (hv : v.graphs = w.graphs) : v.edgesAt = w.edgesAt := by
  funext r side
  rw [edgesAt, edgesAt, graphAt_congr hv]

/-- The label of an edge of a vertex is found in the graph. -/
theorem edgeLabel_of_graphs (hv : v.graphs = w.graphs) {r : VertexRef} {side : Side} {e : EdgeRef}
    (he : e ∈ w.edgesAt r side) : v.edgeLabel e = w.edgeLabel e := by
  obtain ⟨f, -, rfl⟩ := List.mem_map.1 he
  rw [edgeLabel, edgeLabel, graphAt_congr hv]

theorem edgesOf_congr (hv : v.graphs = w.graphs) (ha : Fits graph .vertex a) (side : Side) (ls : List Value) :
    v.edgesOf a side ls = w.edgesOf a side ls := by
  obtain ⟨-, i, hi⟩ := ha
  rw [edgesOf, edgesOf, hi]
  simp only [edgesAt_of_graphs hv]
  exact congrArg _ (List.filter_congr fun e he => by rw [edgeLabel_of_graphs hv he])

/-- Where a step leads depends on the graphs and on the labels to which it is restricted. -/
theorem along_congr (hv : v.graphs = w.graphs) (ha : Fits graph .vertex a) (direction : Direction)
    (gives : Yield) (ls : List Value) :
    v.along direction (.tuple ls none) gives a = w.along direction (.tuple ls none) gives a := by
  have hedges : v.edgesFrom direction (.tuple ls none) a = w.edgesFrom direction (.tuple ls none) a :=
    List.flatMap_congr fun side _ => edgesOf_congr hv ha side ls
  cases gives with
  | edges => exact hedges
  | vertices =>
      rw [along, along, hedges]
      exact List.map_congr_left fun e he => endOf_congr (fits_of_mem_edgesFrom ha he) _ v w

/-- It does not matter what the labels are read from. -/
theorem along_tuple (hlabels : w.labels? labels = some ls) (direction : Direction) (gives : Yield) :
    w.along direction labels gives = w.along direction (.tuple ls none) gives := by
  funext a
  cases gives <;> simp only [along, edgesFrom, hlabels] <;> rfl

/-! ### One step -/

section

variable {g : Gauge κ} {as : List (Node × κ)} {e : Option κ}

/-- A route over a source that streams elements of these forms, whenever it is opened. -/
def Streamed (h : Host) (d : ℕ) (g : Gauge κ) (route : Value) (as : List (Node × κ)) (e : Option κ) (P : Set ℕ)
    (w : World) : Prop :=
  Has P w ∧ ∀ v, Spares P w v → ∃ it u Q, openRoute route v = .ok it u ∧ Moves P v u ∧
    Q ⊆ within P v.cursors.size ∧ Streams h d (.element True) g it as e Q u

theorem Streams.streamed {place : ℕ}
    (hit : Streams h d (.element True) g (.ref .iterator place) as e P w) :
    Streamed h d g (.ref .iterator place) as e P w :=
  ⟨hit.has, fun v hv => ⟨_, v, P, rfl, (Uses.refl P v).moves, subset_within P _, hit.spared hv⟩⟩

theorem Streamed.mono {d' : ℕ} (hroute : Streamed h d g route as e P w) (hd : d ≤ d') :
    Streamed h d' g route as e P w := by
  refine ⟨hroute.1, fun v hv => ?_⟩
  obtain ⟨it, u, Q, hopen, hmoves, hQ, hit⟩ := hroute.2 v hv
  exact ⟨it, u, Q, hopen, hmoves, hQ, hit.mono hd⟩

/-- The parts of a route are the edges of its vertices, or the vertices at their far ends. -/
theorem depicts_group {keys : Option (Std.HashSet Key)} {bs : List Node} (hd : 3 ≤ d)
    (hfits : ∀ a ∈ bs, Fits graph .vertex a) (hkeyed : w.Keyed graph)
    (hkeys : ∀ label k, label.key? = some k → passes keys k = admits ls label)
    (hfuel : (w.graphAt graph).edges.size + 4 ≤ h.fuel) :
    Depicts h n (.element True) ((Meaning.element True).opening h d) (.group direction gives keys .none)
      (w.along direction (.tuple ls none) gives) bs w := by
  rintro m - a ha x F v hv ⟨rfl, hx, -⟩
  have hgraph : v.graphAt graph = w.graphAt graph := congrFun (graphAt_congr hv) graph
  have hkeyed' : v.Keyed graph := keyed_of_graphs hv hkeyed
  obtain ⟨place, u, F, hgroup, huses, hF, hit⟩ : ∃ place u F,
      (Image.group direction gives keys .none).apply (h.up m) x v = .ok (.ref .iterator place) u ∧
      Uses ∅ v u ∧ F ⊆ within ∅ v.cursors.size ∧ Delivers h 3 (.element True) (.ref .iterator place)
        (v.along direction (.tuple ls none) gives a) F u :=
    exists_group hkeyed' (hfits a ha) hx rfl hkeys (by rwa [hgraph]) direction gives (h.up m)
  rw [along_congr hv (hfits a ha)] at hit
  exact ⟨_, u, F, hgroup, huses, hF, opening_iterator (hit.mono hd)⟩

/-- **One part for each vertex**: labels and route are looked at when the first is asked for. -/
theorem pours_groups (hroute : Streamed h d g route as e P w) (hd : 3 ≤ d)
    (hfits : ∀ p ∈ as, Fits graph .vertex p.1) (hkeyed : w.Keyed graph)
    (hlabels : w.labels? labels = some ls) (hls : ∀ l ∈ ls, l.key?.isSome)
    (hfuel : (w.graphAt graph).edges.size + 4 ≤ h.fuel) (hfuel' : ls.length < h.fuel)
    (direction : Direction) (gives : Yield) :
    Pours h d 2 ((Meaning.element True).opening h (d + 1)) g
      (.deferred (.groups route labels direction gives .none))
      (as.map fun p => (w.along direction labels gives p.1, p.2)) e P w := by
  refine pours_deferred hroute.1 fun n hn v hv => ?_
  -- to read the labels takes a level of its own
  obtain ⟨m, rfl, -⟩ := exists_level_below (hd.trans hn)
  obtain ⟨keys, u, hread, hkeys, hkeeps⟩ := labelKeys_eq (h := h.up m)
    ((congrFun (spares_labels? hv) labels).trans hlabels) hls (by rwa [Host.fuel_up])
  have hreads : Uses ∅ v u := hkeeps.uses (Nat.le_refl _)
  have hu : Spares P w u := hv.trans (hreads.spares_of_new (hroute.1.spared hv))
  obtain ⟨it, t, Q, hopen, hopens, hQ, hit⟩ := hroute.2 u hu
  have hgraphs : t.graphs = w.graphs := hopens.graphs_eq.trans hu.graphs_eq
  have hgraph : t.graphAt graph = w.graphAt graph := congrFun (graphAt_congr hgraphs) graph
  have hkeyed' : t.Keyed graph := keyed_of_graphs hgraphs hkeyed
  have hfits' : ∀ a ∈ as.map Prod.fst, Fits graph .vertex a := by
    intro a ha
    obtain ⟨p, hp, rfl⟩ := List.mem_map.1 ha
    exact hfits p hp
  have hparts : as.map (fun p => (w.along direction labels gives p.1, p.2)) =
      as.map fun p => (t.along direction (.tuple ls none) gives p.1, p.2) := by
    refine List.map_congr_left fun p hp => ?_
    rw [along_tuple hlabels, along_congr hgraphs (hfits p hp)]
  rw [hparts]
  refine ⟨.each (.group direction gives keys .none) it, t, Q, ?_,
    (hreads.mono (Set.empty_subset P)).moves.trans hopens (subset_within P _),
    hQ.trans (within_mono (subset_within P _) hreads.size),
    pours_each hit (depicts_group (hd.trans (Nat.le_succ d)) hfits' hkeyed' hkeys (by rwa [hgraph]))⟩
  exact (Act.bind_of_ok hread).trans ((Act.bind_of_ok hopen).trans rfl)

end

/-- **A step along edges reads nothing when it is taken**, and streams the elements to which it leads. -/
theorem exists_step (hkeyed : w.Keyed graph) (hlabels : w.labels? labels = some ls)
    (hls : ∀ l ∈ ls, l.key?.isSome) (direction : Direction) (gives : Yield) (route : Value) (P : Set ℕ) :
    ∃ r u Q, (∀ H : Host,
        H.callOp (.step { direction, gives, grouped := false }) [route, labels] [] w = .ok r u) ∧
      Uses ∅ w u ∧ ∀ {h : Host} {d : ℕ} {g : Gauge ℕ} {as : List (Node × ℕ)} {e : Option ℕ}, 3 ≤ d →
        (w.graphAt graph).edges.size + as.length + ls.length + 4 ≤ h.fuel →
        (∀ p ∈ as, Fits graph .vertex p.1) → Streamed h d g route as e P w →
        Streamed h (d + 2) g r (as.flatMap fun p => (w.along direction labels gives p.1).map (·, p.2)) e Q u := by
  let c : Cursor := .deferred (.groups route labels direction gives .none)
  let u : World := { w with cursors := w.cursors.push c }
  let c' : Cursor := .chained { outer := some (.ref .iterator w.cursors.size) }
  have hopen : openStep { direction, gives, grouped := false } route labels .none w =
      .ok (.ref .iterator u.cursors.size) { u with cursors := u.cursors.push c' } := rfl
  refine ⟨_, _, insert u.cursors.size (insert w.cursors.size P), fun H => (Act.bind_of_ok hopen).trans rfl,
    (uses_push w c).trans (uses_push u c') (Set.empty_subset _), ?_⟩
  intro h d g as e hd hfuel hfits hroute
  have hpours := pours_groups hroute hd hfits hkeyed hlabels hls (by omega) (by omega) direction gives
  have hchain := streams_newChain (streams_newCursor hpours (by omega)) (by rw [List.length_map]; omega)
  rw [spread, List.flatMap_map] at hchain
  exact hchain.streamed

/-! ### Several steps -/

/-- A step leads along edges: to them, or to the vertices at their far ends. -/
def Hop.AlongEdges {k l : Layer} : Hop k l → Prop
  | .ends _ => False
  | _ => True

/-- All steps lead along edges: to vertices, and the last one perhaps to edges. -/
def Hops.AlongEdges {k l : Layer} : Hops k l → Prop
  | .nil => True
  | .cons s S => s.AlongEdges ∧ S.AlongEdges

theorem flatMap_pairs {α β γ : Type} (f : α → List β) (f' : β → List γ) (as : List (α × ℕ)) :
    ((as.flatMap fun p => (f p.1).map fun b => (b, p.2)).flatMap fun p => (f' p.1).map fun c => (c, p.2)) =
      as.flatMap fun p => ((f p.1).flatMap f').map fun c => (c, p.2) := by
  rw [List.flatMap_assoc]
  refine List.flatMap_congr fun p _ => ?_
  rw [List.flatMap_map, List.map_flatMap]

theorem map_fst_flatMap {α β : Type} (f : α → List β) (as : List (α × ℕ)) :
    (as.flatMap fun p => (f p.1).map fun b => (b, p.2)).map Prod.fst = (as.map Prod.fst).flatMap f := by
  rw [List.map_flatMap, List.flatMap_map]
  refine List.flatMap_congr fun p _ => ?_
  rw [List.map_map]
  exact List.map_id _

theorem Hop.exists_take {s : Hop k l} (hs : s.AlongEdges) (hkeyed : w.Keyed graph) (hlabelled : s.Labelled w)
    (route : Value) (P : Set ℕ) :
    ∃ r u Q, (∀ H, s.take H route w = .ok r u) ∧ Uses ∅ w u ∧
      ∀ {h : Host} {d : ℕ} {g : Gauge ℕ} {as : List (Node × ℕ)} {e : Option ℕ}, 3 ≤ d →
        s.effort w graph (as.map Prod.fst) ≤ h.fuel → (∀ p ∈ as, Fits graph k p.1) →
        Streamed h d g route as e P w →
        Streamed h (d + 2) g r (as.flatMap fun p => (s.leads w p.1).map (·, p.2)) e Q u := by
  cases s with
  | ends => exact hs.elim
  | edges direction labels | vertices direction labels =>
      obtain ⟨ls, hlabels, hls⟩ := hlabelled
      obtain ⟨r, u, Q, hcall, huses, hstreams⟩ := exists_step hkeyed hlabels hls direction _ route P
      refine ⟨r, u, Q, hcall, huses, fun {h d g as e} hd hfuel hfits hroute => hstreams hd ?_ hfits hroute⟩
      rwa [effort, hlabels, Option.getD_some, List.length_map] at hfuel

/-- **Steps along edges read nothing when they are taken**, and stream the elements to which they lead. -/
theorem Hops.exists_follow {S : Hops k l} (hS : S.AlongEdges) (hkeyed : w.Keyed graph)
    (hlabelled : S.Labelled w) (route : Value) (P : Set ℕ) :
    ∃ r u Q, (∀ H, S.follow H route w = .ok r u) ∧ Uses ∅ w u ∧
      ∀ {h : Host} {d : ℕ} {g : Gauge ℕ} {as : List (Node × ℕ)} {e : Option ℕ}, 3 ≤ d →
        S.effort w graph (as.map Prod.fst) ≤ h.fuel → (∀ p ∈ as, Fits graph k p.1) →
        Streamed h d g route as e P w →
        Streamed h (d + 2 * S.length) g r (as.flatMap fun p => (S.leads w p.1).map (·, p.2)) e Q u := by
  induction S generalizing route P w with
  | @nil k =>
      refine ⟨route, w, P, fun _ => rfl, .refl ∅ w, fun {h d g as e} _ _ _ hroute => ?_⟩
      have hsame : (as.flatMap fun p => ((nil : Hops k k).leads w p.1).map (·, p.2)) = as := by simp [leads]
      rw [hsame]
      exact hroute
  | @cons k l m s S ih =>
      obtain ⟨r, u, Q, htake, huses, hstreams⟩ := s.exists_take hS.1 hkeyed hlabelled.1 route P
      obtain ⟨r', u', Q', hfollow, huses', hstreams'⟩ :=
        ih hS.2 (Keyed.spared hkeyed huses) (spares_hopsLabelled hlabelled.2 huses) r Q
      refine ⟨r', u', Q', fun H => (Act.bind_of_ok (htake H)).trans (hfollow H),
        huses.trans huses' (Set.empty_subset _), ?_⟩
      intro h d g as e hd hfuel hfits hroute
      have hfirst := hstreams hd ((Nat.le_max_left _ _).trans hfuel) hfits hroute
      have hfits' : ∀ p ∈ as.flatMap (fun p => (s.leads w p.1).map (·, p.2)), Fits graph l p.1 := by
        intro p hp
        obtain ⟨q, hq, hp⟩ := List.mem_flatMap.1 hp
        obtain ⟨b, hb, rfl⟩ := List.mem_map.1 hp
        exact fits_of_mem_leads (hfits q hq) hb
      have hrest := hstreams' (hd.trans (Nat.le_add_right d 2)) ?_ hfits' hfirst
      · rw [spares_hopsLeads huses, flatMap_pairs] at hrest
        rw [length, Nat.mul_add, ← Nat.add_assoc, Nat.add_right_comm]
        exact hrest
      · rw [spares_hopsEffort huses, map_fst_flatMap]
        exact (Nat.le_max_right _ _).trans hfuel

/-! ### Reading -/

section

variable {g : Gauge κ} {as : List (Node × κ)} {e : Option κ}

/-- What comes first is read, and by then so much has been read of the source. -/
theorem Streams.exists_reads {α : Type} {R : Meaning α} {bs cs : List (α × κ)}
    (hit : Streams h d R g it (bs ++ cs) e P w) (hn : d ≤ n) :
    ∃ ys u Q, Reads (h.up n) it ys w u ∧ Streams h d R g it cs e Q u ∧ (∀ p ∈ bs.getLast?, g.At p.2 Q u) ∧
      List.Forall₂ (fun p y => ∃ F v, R.holds p.1 y F v) bs ys := by
  induction bs generalizing P w with
  | nil => exact ⟨[], w, P, .none w, hit, nofun, .nil⟩
  | cons p bs ih =>
      obtain ⟨x, v, F, Q, hpull, -, -, hx, hat, hrest⟩ := hit.2 n hn w (.refl P w)
      cases bs with
      | nil =>
          refine ⟨[x], v, Q, .item hpull (.none v), hrest, fun q hq => ?_, .cons ⟨F, v, hx⟩ .nil⟩
          cases hq
          exact hat
      | cons p' bs =>
          obtain ⟨ys, u, Q', hreads, hstreams, hlast, hys⟩ := ih hrest
          exact ⟨x :: ys, u, Q', .item hpull hreads, hstreams, hlast, .cons ⟨F, v, hx⟩ hys⟩

/-- A route is opened, and what it gives first has these forms.  By then so many items of the source have been
read. -/
def Gauge.Reaches (g : Gauge κ) (H : Host) (r : Value) (as : List Node) (k : κ) (w : World) : Prop :=
  ∃ it v ys u P, openRoute r w = .ok it v ∧ Reads H it ys v u ∧ ys.map Value.form = as ∧ g.At k P u

/-- A route is opened, and all that it gives has these forms.  When it comes to its end, then so many items of
the source have been read. -/
def Gauge.Finishes (g : Gauge κ) (H : Host) (r : Value) (as : List Node) (k : κ) (w : World) : Prop :=
  ∃ it v ys u t P, openRoute r w = .ok it v ∧ Reads H it ys v u ∧ ys.map Value.form = as ∧
    H.pull it u = .ok none t ∧ g.At k P t

theorem map_form_of_forall₂ {ys : List Value}
    (hys : List.Forall₂ (fun (p : Node × κ) y => ∃ F v, (Meaning.element True).holds p.1 y F v) as ys) :
    ys.map Value.form = as.map Prod.fst :=
  map_form_of_holds ((List.forall₂_map_left_iff).2 hys)

/-- The items of a route are read as far as one of them. -/
theorem Streamed.reaches {bs cs : List (Node × κ)} {p : Node × κ} (hr : Streamed h d g route (bs ++ p :: cs) e P w)
    (hn : d ≤ n) : g.Reaches (h.up n) route ((bs ++ [p]).map Prod.fst) p.2 w := by
  obtain ⟨it, v, Q, hopen, -, -, hit⟩ := hr.2 w (.refl P w)
  rw [← List.singleton_append, ← List.append_assoc] at hit
  obtain ⟨ys, u, Q', hreads, -, hlast, hys⟩ := hit.exists_reads hn
  exact ⟨it, v, ys, u, Q', hopen, hreads, map_form_of_forall₂ hys, hlast p (by simp)⟩

/-- All items of a route are read. -/
theorem Streamed.finishes {k : κ} (hr : Streamed h d g route as (some k) P w) (hn : d ≤ n) :
    g.Finishes (h.up n) route (as.map Prod.fst) k w := by
  obtain ⟨it, v, Q, hopen, -, -, hit⟩ := hr.2 w (.refl P w)
  rw [← List.append_nil as] at hit
  obtain ⟨ys, u, Q', hreads, hend, -, hys⟩ := hit.exists_reads hn
  obtain ⟨t, Q'', hpull, -, -, hat⟩ := hend.2 k rfl n hn u (.refl Q' u)
  exact ⟨it, v, ys, u, t, Q'', hopen, hreads, map_form_of_forall₂ hys, hpull, hat⟩

theorem Gauge.Finishes.exists_drain {k : κ} {bs : List Node} (hr : g.Finishes h route bs k w)
    (hfuel : bs.length < h.fuel) :
    ∃ ys u, (do let it ← openRoute route; h.drain it : M (List Value)) w = .ok ys u ∧ ys.map Value.form = bs := by
  obtain ⟨it, v, ys, u, t, P, hopen, hreads, rfl, hpull, -⟩ := hr
  rw [List.length_map] at hfuel
  exact ⟨ys, t, (Act.bind_of_ok hopen).trans ((hreads.gives hpull).drain hfuel), rfl⟩

end

/-! ### Routes that need not end -/

section

variable {g : Gauge ℕ} {e : Option ℕ} {xs : Stream'.Seq Node}

/-- What a host reads from a route of which `k` vertices have been read: the next vertex, or nothing at the end.
The gauge tells that it has been read. -/
def Gauge.Advances (g : Gauge ℕ) (H : Host) (xs : Stream'.Seq Node) (k : ℕ) : Prop :=
  ∀ it P w, g.stands it k P w → ∃ r v Q, H.pull it w = .ok r v ∧ Option.Rel (fun a x => x.form = a) (xs.get? k) r ∧
    Moves P w v ∧ Q ⊆ within P w.cursors.size ∧ g.stands it (r.elim k fun _ => k + 1) Q v

/-- **A finite or infinite route**, as it is read when it has been opened.  To get far enough in it, a host may
have to take more steps. -/
def Fount (h : Host) (d : ℕ) (g : Gauge ℕ) (xs : Stream'.Seq Node) : Prop :=
  ∀ k, ∀ᶠ N in atTop, ∀ n, d ≤ n → g.Advances ((h.grant N).up n) xs k

/-- Whenever a route is opened, nothing has been read of it. -/
def Gauge.Begins (g : Gauge ℕ) (route : Value) (P : Set ℕ) (w : World) : Prop :=
  Has P w ∧ ∀ v, Spares P w v → ∃ it u Q, openRoute route v = .ok it u ∧ Moves P v u ∧
    Q ⊆ within P v.cursors.size ∧ g.stands it 0 Q u

/-- The vertices of a route are vertices of a graph. -/
def OfGraph (graph : ℕ) (xs : Stream'.Seq Node) : Prop := ∀ k a, xs.get? k = some a → Fits graph .vertex a

theorem OfGraph.fits_take (hxs : OfGraph graph xs) (K : ℕ) : ∀ b ∈ xs.take K, Fits graph .vertex b := by
  intro b hb
  obtain ⟨k, hk⟩ := List.mem_iff_getElem?.1 hb
  rw [Stream'.Seq.getElem?_take] at hk
  split at hk
  · exact hxs k b hk
  · cases hk

/-- The end of a route may be known. -/
theorem streams_end {k : ℕ} (hgives : ∀ n, d ≤ n → g.Advances (h.up n) xs k) (hstands : g.stands it k P w)
    (he : ∀ q ∈ e, q = k ∧ xs.get? k = none) : Streams h d (.element True) g it [] e P w := by
  refine ⟨g.has hstands, fun q hq n hn v hv => ?_⟩
  obtain ⟨rfl, hend⟩ := he q hq
  obtain ⟨r, u, Q, hpull, hr, hmoves, hQ, hstands'⟩ := hgives n hn it P v (g.spared hstands hv)
  rw [hend] at hr
  cases hr
  exact ⟨u, Q, hpull, hmoves, hQ, it, Q, subset_rfl, hstands'⟩

/-- What a route gives first. -/
theorem streams_slice {K k m : ℕ} (hgives : ∀ k ≤ K, ∀ n, d ≤ n → g.Advances (h.up n) xs k)
    (hxs : OfGraph graph xs) (hstands : g.stands it k P w) (hK : k + m ≤ K)
    (he : ∀ q ∈ e, q = k + (slice xs k m).length ∧ xs.get? q = none) :
    Streams h d (.element True) g it ((slice xs k m).zipIdx (k + 1)) e P w := by
  induction m generalizing k P w with
  | zero =>
      refine streams_end (hgives k hK) hstands fun q hq => ?_
      obtain ⟨hq', hend⟩ := he q hq
      obtain rfl : q = k := hq'
      exact ⟨rfl, hend⟩
  | succ m ih =>
      cases hget : xs.get? k with
      | none =>
          rw [slice_of_none hget] at he ⊢
          exact streams_end (hgives k (Nat.le_of_add_right_le hK)) hstands fun q hq => ⟨(he q hq).1, hget⟩
      | some a =>
          rw [slice_succ_of_get? hget] at he ⊢
          refine ⟨g.has hstands, fun n hn v hv => ?_⟩
          obtain ⟨r, u, Q, hpull, hr, hmoves, hQ, hstands'⟩ :=
            hgives k (Nat.le_of_add_right_le hK) n hn it P v (g.spared hstands hv)
          rw [hget] at hr
          obtain ⟨hx⟩ := hr
          refine ⟨_, u, ∅, Q, hpull, hmoves, ⟨Set.empty_subset _, hQ, fun _ hi => hi.elim⟩,
            ⟨rfl, hx, fun _ hundirected => absurd hundirected (not_undirected_vertex (hxs k a hget))⟩,
            ⟨it, Q, subset_rfl, hstands'⟩, ih hstands' (by omega) fun q hq => ?_⟩
          obtain ⟨hq', hend⟩ := he q hq
          refine ⟨?_, hend⟩
          rw [hq', List.length_cons]
          omega

/-- A route streams its vertices, and each of them is read when it is given. -/
theorem Fount.streamed (hfount : Fount h d g xs) (hbegins : g.Begins route P w) (hxs : OfGraph graph xs) (K : ℕ)
    (he : ∀ q ∈ e, q = (xs.take K).length ∧ xs.get? q = none) :
    ∀ᶠ N in atTop, Streamed (h.grant N) d g route ((xs.take K).zipIdx 1) e P w := by
  have hgives := (eventually_all_finite (Set.finite_le_nat K)).2 fun k _ => hfount k
  filter_upwards [hgives] with N hN
  refine ⟨hbegins.1, fun v hv => ?_⟩
  obtain ⟨it, u, Q, hopen, hopens, hQ, hstands⟩ := hbegins.2 v hv
  have he' : ∀ q ∈ e, q = 0 + (slice xs 0 K).length ∧ xs.get? q = none := by
    intro q hq
    rw [Nat.zero_add]
    exact he q hq
  exact ⟨it, u, Q, hopen, hopens, hQ,
    streams_slice hN hxs hstands (Nat.le_of_eq (Nat.zero_add K)) he'⟩

/-! ### Queries -/

variable {S : Hops .vertex l}

/-- What a query gives first, if the first `K` vertices of its route are read for that. -/
theorem Hops.exists_query (hS : S.AlongEdges) (hlabelled : S.Labelled w) (hkeyed : w.Keyed graph)
    (route : Value) (P : Set ℕ) :
    ∃ r u Q, (∀ H, S.follow H route w = .ok r u) ∧ Uses ∅ w u ∧
      ∀ {h : Host} {d : ℕ} {g : Gauge ℕ} {xs : Stream'.Seq Node} {e : Option ℕ}, Fount h d g xs →
        g.Begins route P w → OfGraph graph xs → ∀ K, (∀ q ∈ e, q = (xs.take K).length ∧ xs.get? q = none) →
        ∀ᶠ N in atTop, ((xs.take K).flatMap (S.leads w)).length < N ∧
          Streamed (h.grant N) (d + 3 + 2 * S.length) g r
            (((xs.take K).zipIdx 1).flatMap fun p => (S.leads w p.1).map (·, p.2)) e Q u := by
  obtain ⟨r, u, Q, hfollow, huses, hstreams⟩ := exists_follow hS hkeyed hlabelled route P
  refine ⟨r, u, Q, hfollow, huses, fun {h d g xs e} hfount hbegins hxs K he => ?_⟩
  filter_upwards [hfount.streamed hbegins hxs K he, eventually_ge_atTop (S.effort w graph (xs.take K))]
    with N hN hfuel
  have hfits : ∀ p ∈ (xs.take K).zipIdx 1, Fits graph .vertex p.1 := fun p hp =>
    hxs.fits_take K p.1 (List.fst_mem_of_mem_zipIdx hp)
  refine ⟨(length_lt_effort S _).trans_le hfuel,
    hstreams (Nat.le_add_left 3 d) ?_ hfits (hN.mono (Nat.le_add_right d 3))⟩
  rw [List.zipIdx_map_fst]
  exact hfuel

/-- What is reached from a vertex of a route comes behind what is reached from the vertices before it. -/
theorem prefix_flatMap_take {n K j : ℕ} (ha : xs.get? n = some a) (hK : n < K) (f : Node → List Node) :
    (xs.take n).flatMap f ++ (f a).take j <+: (xs.take K).flatMap f := by
  obtain ⟨K, rfl⟩ := Nat.exists_eq_add_of_lt hK
  have htake : xs.take (n + K + 1) = xs.take n ++ a :: slice xs (n + 1) K := by
    have hslice := slice_append xs 0 n (K + 1)
    rw [Nat.zero_add, slice_succ_of_get? ha] at hslice
    exact hslice.symm
  rw [htake, List.flatMap_append, List.flatMap_cons, List.prefix_append_right_inj]
  exact (List.take_prefix j (f a)).trans (List.prefix_append _ _)

theorem take_ofList (bs : List Node) : (Stream'.Seq.ofList bs).take bs.length = bs := by
  refine List.ext_getElem? fun i => ?_
  rw [Stream'.Seq.getElem?_take, Stream'.Seq.ofList_get?]
  split
  · rfl
  · exact (List.getElem?_eq_none (Nat.le_of_not_lt ‹_›)).symm

/-- **The results of a query over a finite route** are the elements to which the steps lead from its vertices. -/
theorem Hops.exists_results {bs : List Node} (hS : S.AlongEdges) (hlabelled : S.Labelled w)
    (hkeyed : w.Keyed graph) (hfount : Fount h d g (.ofList bs)) (hbegins : g.Begins route P w)
    (hbs : ∀ b ∈ bs, Fits graph .vertex b) :
    ∀ᶠ N in atTop, ∀ m, d + 3 + 2 * S.length ≤ m →
      ∃ zs t, S.results ((h.grant N).up m) route w = .ok zs t ∧ zs.map Value.form = bs.flatMap (S.leads w) := by
  have hof : OfGraph graph (.ofList bs) := fun k b hb => by
    rw [Stream'.Seq.ofList_get?] at hb
    exact hbs b (List.mem_of_getElem? hb)
  have hend : (Stream'.Seq.ofList bs).get? bs.length = none := by
    rw [Stream'.Seq.ofList_get?, List.getElem?_eq_none (Nat.le_refl _)]
  have hsaid : ∀ q ∈ some bs.length, q = ((Stream'.Seq.ofList bs).take bs.length).length ∧
      (Stream'.Seq.ofList bs).get? q = none := by
    rintro q ⟨⟩
    exact ⟨by rw [take_ofList], hend⟩
  obtain ⟨r, u, Q, hfollow, -, hstreams⟩ := exists_query hS hlabelled hkeyed route P
  filter_upwards [hstreams hfount hbegins hof bs.length hsaid] with N hN m hm
  rw [take_ofList] at hN
  have hfinishes := hN.2.finishes hm
  rw [map_fst_flatMap, List.zipIdx_map_fst] at hfinishes
  obtain ⟨zs, t, hdrain, hzs⟩ := hfinishes.exists_drain (by rw [Host.fuel_up]; exact hN.1)
  exact ⟨zs, t, (Act.bind_of_ok (hfollow _)).trans hdrain, hzs⟩

/-- **A query reads as much of its route as it needs.**  From the vertices of a finite or infinite route, steps
are taken along edges.  To take them reads nothing.  Then the `j`-th item that is reached from the `n`-th vertex
is given behind all items that are reached from the vertices before it, and by then the route has been read up
to that vertex and no further; the items so far are the first of those that are given when the steps are taken
from any finite beginning of the route that holds the vertex, and all is read.  If the route comes to an end,
then it has been read to its end when there are no more items. -/
theorem queries_stream (hS : S.AlongEdges) (hlabelled : S.Labelled w) (hkeyed : w.Keyed graph)
    (hfount : Fount h d g xs) (hbegins : g.Begins route P w) (hxs : OfGraph graph xs) :
    ∃ r u, (∀ H, S.follow H route w = .ok r u) ∧ Uses ∅ w u ∧ (∀ it k Q, g.stands it k Q w → g.stands it k Q u) ∧
      (∀ n a j, xs.get? n = some a → j < (S.leads w a).length →
        let found := (xs.take n).flatMap (S.leads w) ++ (S.leads w a).take (j + 1)
        (∀ᶠ N in atTop, ∀ m, d + 3 + 2 * S.length ≤ m → g.Reaches ((h.grant N).up m) r found (n + 1) u) ∧
        ∀ K, n < K → ∀ h' d' g' route' P', Fount h' d' g' (.ofList (xs.take K)) → g'.Begins route' P' w →
          ∀ᶠ N in atTop, ∀ m, d' + 3 + 2 * S.length ≤ m →
            ∃ zs t, S.results ((h'.grant N).up m) route' w = .ok zs t ∧ found <+: zs.map Value.form) ∧
      ∀ n, xs.get? n = none → ∀ᶠ N in atTop, ∀ m, d + 3 + 2 * S.length ≤ m →
        g.Finishes ((h.grant N).up m) r ((xs.take n).flatMap (S.leads w)) (xs.take n).length u := by
  obtain ⟨r, u, Q, hfollow, huses, hstreams⟩ := Hops.exists_query hS hlabelled hkeyed route P
  refine ⟨r, u, hfollow, huses, fun it k Q hstands => g.spared hstands (huses.spares_of_new (g.has hstands)),
    fun n a j ha hj => ⟨?_, fun K hK h' d' g' route' P' hfount' hbegins' => ?_⟩, fun n hend => ?_⟩
  · have htake : xs.take (n + 1) = xs.take n ++ [a] := take_succ_of_get? ha
    filter_upwards [hstreams (e := none) hfount hbegins hxs (n + 1) nofun] with N hN m hm
    have hsplit : ((xs.take (n + 1)).zipIdx 1).flatMap (fun p => (S.leads w p.1).map fun b => (b, p.2)) =
        (((xs.take n).zipIdx 1).flatMap (fun p => (S.leads w p.1).map fun b => (b, p.2)) ++
          ((S.leads w a).take j).map fun b => (b, n + 1)) ++
            ((S.leads w a)[j], n + 1) :: ((S.leads w a).drop (j + 1)).map fun b => (b, n + 1) := by
      have hleads : ((S.leads w a).take j).map (fun b => (b, n + 1)) ++
          ((S.leads w a)[j], n + 1) :: ((S.leads w a).drop (j + 1)).map (fun b => (b, n + 1)) =
            (S.leads w a).map fun b => (b, n + 1) := by
        rw [← List.map_cons (f := fun b => (b, n + 1)), ← List.map_append, ← List.drop_eq_getElem_cons hj,
          List.take_append_drop]
      rw [htake, List.zipIdx_append, length_take_of_get? ha, List.flatMap_append, List.append_assoc, hleads,
        List.zipIdx_singleton, List.flatMap_singleton, Nat.add_comm 1 n]
    rw [hsplit] at hN
    have hreaches := hN.2.reaches hm
    have hid : ∀ bs : List Node, (bs.map fun b => (b, n + 1)).map Prod.fst = bs := fun bs => by
      rw [List.map_map]
      exact List.map_id _
    rw [List.map_append, List.map_append, map_fst_flatMap, List.zipIdx_map_fst, hid, List.append_assoc,
      List.map_singleton, ← List.take_succ_eq_append_getElem hj] at hreaches
    exact hreaches
  · filter_upwards [Hops.exists_results hS hlabelled hkeyed hfount' hbegins' (hxs.fits_take K)] with N hN m hm
    obtain ⟨zs, t, hresults, hzs⟩ := hN m hm
    exact ⟨zs, t, hresults, hzs ▸ prefix_flatMap_take ha hK _⟩
  · have hsaid : ∀ q ∈ some (xs.take n).length, q = (xs.take n).length ∧ xs.get? q = none := by
      rintro q ⟨⟩
      exact ⟨rfl, (get?_length_take xs n).trans hend⟩
    filter_upwards [hstreams hfount hbegins hxs n hsaid] with N hN m hm
    have hfinishes := hN.2.finishes hm
    rwa [map_fst_flatMap, List.zipIdx_map_fst] at hfinishes

end

/-! ### A tuple of vertices, and an endless route -/

/-- What stands on a place gives an item, and goes on from there. -/
theorem exists_pull_turn {place : ℕ} {c c' : Cursor} {turn : M (Turn Value)} {x : Value}
    (hc : w.cursors[place]? = some c) (hturn : openTurn? h place c = some turn)
    (hgive : turn w = .ok (.give x) { w with cursors := w.cursors.setIfInBounds place c' })
    (hfuel : 0 < h.fuel) :
    ∃ x' v, h.above.pull (.ref .iterator place) w = .ok (some x') v ∧ Handed x x' ∧ Uses {place} w v ∧
      v.cursors[place]? = some c' := by
  obtain ⟨x', marks, hpull, hhanded⟩ := pull_of_nextItem (nextItem_of_turn hc hturn hgive rfl hfuel)
  exact ⟨x', _, hpull, hhanded, uses_settle w place c' marks, getElem?_setCursor hc⟩

/-- How many items have been read of a tuple that has been opened. -/
def Gauge.ofTuple (xs : List Value) : Gauge ℕ where
  stands it k P w := k ≤ xs.length ∧ ∃ place, it = .ref .iterator place ∧ P = {place} ∧
    w.cursors[place]? = some (.items .tuple (xs.drop k))
  has := by
    rintro it k P w ⟨-, place, -, rfl, hc⟩ i rfl
    exact (Array.getElem?_eq_some_iff.1 hc).1
  spared := by
    rintro it k P w v ⟨hk, place, hit, rfl, hc⟩ hv
    exact ⟨hk, place, hit, rfl, (hv.same place rfl).trans hc⟩

/-- A tuple that has been opened is read. -/
theorem exists_pull_ofTuple {xs : List Value} {k : ℕ} (hstands : (Gauge.ofTuple xs).stands it k P w)
    (hfuel : 0 < h.fuel) :
    ∃ r v, h.above.pull it w = .ok r v ∧
      Option.Rel (fun a x => x.form = a) ((Stream'.Seq.ofList (xs.map Value.form)).get? k) r ∧ Uses P w v ∧
      (Gauge.ofTuple xs).stands it (r.elim k fun _ => k + 1) P v := by
  obtain ⟨hk, place, rfl, rfl, hc⟩ := hstands
  rw [Stream'.Seq.ofList_get?, List.getElem?_map, ← List.head?_drop]
  cases hxs : xs.drop k with
  | nil =>
      rw [hxs] at hc
      have hnext : nextItem h place w = .ok none w := nextItem_of_turn hc rfl rfl rfl hfuel
      refine ⟨none, w, Act.bind_of_ok hnext, .none, .refl _ w, hk, place, rfl, rfl, ?_⟩
      rw [hc, Option.elim_none, hxs]
  | cons x ys =>
      rw [hxs] at hc
      obtain ⟨x', v, hpull, hhanded, huses, hcv⟩ := exists_pull_turn hc rfl rfl hfuel
      have hdrop : xs.drop (k + 1) = ys := by rw [← List.drop_drop, hxs, List.drop_one, List.tail_cons]
      have hlt : k < xs.length := by
        by_contra hle
        rw [List.drop_eq_nil_of_le (Nat.le_of_not_lt hle)] at hxs
        cases hxs
      exact ⟨some x', v, hpull, .some hhanded.form_eq, huses, hlt, place, rfl, rfl, hdrop ▸ hcv⟩

/-- A tuple of vertices is a finite route. -/
theorem fount_ofTuple (h : Host) (xs : List Value) :
    Fount h 1 (.ofTuple xs) (.ofList (xs.map Value.form)) := by
  intro k
  filter_upwards [eventually_gt_atTop 0] with N hN n hn it P w hstands
  obtain ⟨n, rfl, -⟩ := exists_level_below hn
  obtain ⟨r, v, hpull, hr, huses, hstands'⟩ :=
    exists_pull_ofTuple (h := (h.grant N).up n) hstands (by rwa [Host.fuel_up])
  exact ⟨r, v, P, hpull, hr, huses.moves, subset_within _ _, hstands'⟩

theorem begins_ofTuple (xs : List Value) (m : Mark) (w : World) : (Gauge.ofTuple xs).Begins (.tuple xs m) ∅ w := by
  refine ⟨fun _ hi => hi.elim, fun v _ => ?_⟩
  refine ⟨_, _, {v.cursors.size}, iterateItems_eq .tuple xs, (uses_push v _).moves, ?_, Nat.zero_le _, _, rfl, rfl,
    Array.getElem?_push_size⟩
  exact Set.singleton_subset_iff.2 (.inr (Nat.le_refl _))

/-- Two roads and a path, and a route that gives the first vertex again and again. -/
def endlessRoute : World :=
  { twoVertices [⟨0, 1, .str "road", none⟩, ⟨0, 1, .str "road", none⟩, ⟨1, 1, .str "path", none⟩] with
    functions := #[.constant (vertexAt 0 0)]
    cursors := #[.countFrom (.int 0) (.int 1), .mapping (.ref .function 0) (.ref .iterator 0) []] }

/-- How many items have been read of the endless route. -/
def Gauge.endless : Gauge ℕ where
  stands it k P w := it = .ref .iterator 1 ∧ P = {0, 1} ∧ w.functions[0]? = some (.constant (vertexAt 0 0)) ∧
    w.cursors[0]? = some (.countFrom (.int k) (.int 1)) ∧
    w.cursors[1]? = some (.mapping (.ref .function 0) (.ref .iterator 0) [])
  has := by
    rintro it k P w ⟨-, rfl, -, hcount, hmap⟩ i (rfl | rfl)
    · exact (Array.getElem?_eq_some_iff.1 hcount).1
    · exact (Array.getElem?_eq_some_iff.1 hmap).1
  spared := by
    rintro it k P w v ⟨hit, rfl, hf, hcount, hmap⟩ hv
    refine ⟨hit, rfl, ?_, (hv.same 0 (.inl rfl)).trans hcount, (hv.same 1 (.inr rfl)).trans hmap⟩
    rw [hv.rest]
    exact hf

/-- The first vertex, again and again. -/
def vertexForever : Stream'.Seq Node := .ofStream (Stream'.const (vertexNode 0 0))

theorem get?_vertexForever (k : ℕ) : vertexForever.get? k = some (vertexNode 0 0) := rfl

theorem fount_endless (h : Host) : Fount h 2 .endless vertexForever := by
  intro k
  filter_upwards [eventually_gt_atTop 0] with N hN n hn it P w
  rintro ⟨rfl, rfl, hf, hcount, hmap⟩
  obtain ⟨m, rfl, hm⟩ := exists_level_below hn
  obtain ⟨n, rfl, -⟩ := exists_level_below hm
  have hfuel : ∀ n, 0 < ((h.grant N).up n).fuel := fun n => by rwa [Host.fuel_up]
  obtain ⟨x, v, hpull, hhanded, huses, hcv⟩ := exists_pull_turn hcount rfl rfl (hfuel n)
  obtain rfl := hhanded.eq_of_marked rfl
  have hmapv := (huses.same 1 ⟨(Array.getElem?_eq_some_iff.1 hmap).1, by simp⟩).trans hmap
  have hfv : v.functions[0]? = some (.constant (vertexAt 0 0)) := by
    rw [huses.rest]
    exact hf
  have happly : ((h.grant N).up (n + 1)).apply (.ref .function 0) [.int k] v = .ok (vertexAt 0 0) v := by
    have hcall : callOver ((h.grant N).up n) (.ref .function 0) [.int k] [] v = .ok (vertexAt 0 0) v := by
      rw [callOver, Act.bind_of_ok (m := get) rfl]
      simp only [hfv]
      rfl
    exact (Act.bind_of_ok rfl).trans hcall
  have hturn : mapTurn ((h.grant N).up (n + 1)) (.ref .function 0) (.ref .iterator 0) [] w =
      .ok (.give (vertexAt 0 0)) v := by
    have hover : ∀ m, mapsOver w m [.ref .function 0] (.ref .iterator 0) =
        ([.ref .function 0], .ref .iterator 0) := by
      intro m
      cases m with
      | zero => rfl
      | succ m => simp only [mapsOver, hcount]
    rw [mapTurn, Act.bind_of_ok (m := get) rfl, hover]
    have hfold : [Value.ref .function 0].foldlM (fun v f => ((h.grant N).up (n + 1)).apply f [v]) (.int k) v =
        .ok (vertexAt 0 0) v := by
      rw [List.foldlM_cons, Act.bind_of_ok happly]
      rfl
    exact (Act.bind_of_ok hpull).trans ((Act.bind_of_ok hfold).trans rfl)
  obtain ⟨x, marks, hpulled, hhanded⟩ :=
    pull_of_nextItem (nextItem_of_turn hmap rfl hturn rfl (hfuel (n + 1)))
  have hmarks : Uses ∅ v { v with marks } := uses_marks v marks
  refine ⟨some x, _, {0, 1}, hpulled, .some hhanded.form_eq, ?_, subset_within _ _, rfl, rfl, hfv, hcv, hmapv⟩
  exact ((huses.trans hmarks (Set.empty_subset _)).mono (by simp)).moves

theorem begins_endless : Gauge.endless.Begins (.ref .iterator 1) {0, 1} endlessRoute := by
  have hstands : Gauge.endless.stands (.ref .iterator 1) 0 {0, 1} endlessRoute := ⟨rfl, rfl, rfl, rfl, rfl⟩
  exact ⟨Gauge.endless.has hstands, fun v hv => ⟨_, v, _, rfl, (Uses.refl _ v).moves, subset_within _ _,
    Gauge.endless.spared hstands hv⟩⟩

/-- Along the roads, and then to the edges that lead on. -/
def roadsThenEdges : Hops .vertex .edge :=
  .cons (.vertices .outgoing (.str "road")) (.cons (.edges .outgoing .null) .nil)

theorem length_leads_roadsThenEdges : (roadsThenEdges.leads endlessRoute (vertexNode 0 0)).length = 2 := by
  decide +kernel

theorem take_vertexForever (n : ℕ) : vertexForever.take n = List.replicate n (vertexNode 0 0) := by
  refine List.ext_getElem? fun i => ?_
  rw [Stream'.Seq.getElem?_take, List.getElem?_replicate]
  rfl

/-- The query streams over the endless route: an item behind `n` times two is reached when `n + 1` vertices have
been read, and the items so far are the first of what is reached from a tuple of as many vertices or more. -/
theorem queries_stream_endless :
    let S := roadsThenEdges
    let w := endlessRoute
    S.AlongEdges ∧ S.Labelled w ∧ w.Keyed 0 ∧ Fount (host 0) 2 .endless vertexForever ∧
      Gauge.endless.Begins (.ref .iterator 1) {0, 1} w ∧ OfGraph 0 vertexForever ∧
      ∃ r u, (∀ H, S.follow H (.ref .iterator 1) w = .ok r u) ∧
        ∀ n j K, j < 2 → n < K → ∃ as, as.length = 2 * n + (j + 1) ∧
          (∀ᶠ N in atTop, ∀ m, 9 ≤ m → Gauge.endless.Reaches (((host 0).grant N).up m) r as (n + 1) u) ∧
          ∀ᶠ N in atTop, ∀ m, 8 ≤ m → ∃ zs t,
            S.results (((host 0).grant N).up m) (.tuple (List.replicate K (vertexAt 0 0)) none) w = .ok zs t ∧
              as <+: zs.map Value.form := by
  intro S w
  have hS : S.AlongEdges := ⟨trivial, trivial, trivial⟩
  have hlabelled : S.Labelled w := ⟨⟨[.str "road"], rfl, by decide⟩, ⟨[], rfl, by decide⟩, trivial⟩
  have hkeyed : w.Keyed 0 := keyed_twoVertices (by decide)
  have hxs : OfGraph 0 vertexForever := fun k a ha => by
    obtain rfl := Option.some.inj ha
    exact ⟨rfl, 0, rfl⟩
  obtain ⟨r, u, hfollow, -, -, hitems, -⟩ :=
    queries_stream hS hlabelled hkeyed (fount_endless (host 0)) begins_endless hxs
  refine ⟨hS, hlabelled, hkeyed, fount_endless _, begins_endless, hxs, r, u, hfollow, fun n j K hj hK => ?_⟩
  have hlength : (S.leads w (vertexNode 0 0)).length = 2 := length_leads_roadsThenEdges
  obtain ⟨hreaches, heager⟩ := hitems n _ j (get?_vertexForever n) (hj.trans_eq hlength.symm)
  refine ⟨_, ?_, hreaches, heager K hK (host 0) 1 _ _ ∅ ?_ (begins_ofTuple _ none w)⟩
  · rw [List.length_append, List.length_flatMap, take_vertexForever, List.map_replicate, List.sum_replicate,
      List.length_take, hlength, Nat.min_eq_left hj]
    exact congrArg (· + (j + 1)) (Nat.mul_comm n 2)
  · have hforms : vertexForever.take K = (List.replicate K (vertexAt 0 0)).map Value.form := by
      rw [take_vertexForever, List.map_replicate]
      rfl
    rw [hforms]
    exact fount_ofTuple _ _

end GraphRoutes.Session
