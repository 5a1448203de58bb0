/-
**Steps whose vertices are sorted.**

A step may sort the neighbours of each vertex of its route by a key function.  When the neighbours of a vertex
are wanted, all of them are read, each is given its key at once, and then they are sorted; the next vertex of the
route is read when they have all been given.  So the items of a vertex stand together, and the function is
called once for each neighbour of a vertex that has been read.

The same comes of it when the neighbours are asked for by a function of their own, section by section.  The two
are put together in different ways: the step is a chain of lists, which are made below it, and the sections are
read by one sequence that opens each list itself.

Main definitions:

* `GraphRoutes.Session.sortedParts` — the sorted neighbours of the vertices of a route;
* `GraphRoutes.Session.Appraising` — a route of vertices, and a key function;
* `GraphRoutes.Session.Gauge.Unfolds` — what comes of the sorted steps, and how far is read for it.

Main results:

* `GraphRoutes.Session.pours_sortedGroups`, `GraphRoutes.Session.pours_sortedSections` — sorted neighbours by
  either way;
* `GraphRoutes.Session.sorted_steps` — **sorted steps give the neighbours of each vertex in stable order**.
-/
import GraphRoutes.Proofs.Session.Appraisals
import GraphRoutes.Proofs.Session.Spelling
import Mathlib.Data.String.Basic

set_option relaxedAutoImplicit false
set_option autoImplicit false

namespace GraphRoutes.Session

open World Route

variable {ρ : Type} [LinearOrder ρ] {h : Host} {d m n N k graph : ℕ} {key it i o r x route labels f : Value}
  {ls : List Value} {s : Scale ρ} {rate : Node → ρ} {near : Node → List Node} {g : Gauge Extent}
  {asked : List Node} {xs : Stream'.Seq Node} {e : Option Extent} {p q : Extent} {a b : Node} {as bs : List Node}
  {P Q F : Set ℕ} {u v w : World} {direction : Direction} {side : Side} {keys : Option (Std.HashSet Key)}
  {parts : Parts}

/-! ### The parts of a flattening sequence -/

theorem stepCursor_parts (s : Flat Value Value) :
    stepCursor h (.parts parts s) = Step.map (.parts parts) <$> flatten h.source (parts.opened h) h.source s := rfl

/-- The part in progress gives its next item. -/
theorem stepCursor_parts_item (hpull : h.pull i w = .ok (some x) v) :
    stepCursor h (.parts parts { outer := some o, part := some i, opened := k }) w =
      .ok (.give x (.parts parts { outer := some o, part := some i, opened := k })) v := by
  simp [stepCursor_parts, flatten, Machine.ofTurn, Flat.turn, Flat.ask, Flat.advance, Cell.read, Cell.modify,
    Cell.beside, Act.beside, bind, EStateM.bind, pure, EStateM.pure, source_of_item hpull, map_eq_pure_bind]
  rfl

/-- The part in progress has come to its end, and is left. -/
theorem stepCursor_parts_left (hpull : h.pull i w = .ok none v) :
    stepCursor h (.parts parts { outer := some o, part := some i, opened := k }) w =
      .ok (.skip (.parts parts { outer := some o, opened := k })) v := by
  simp [stepCursor_parts, flatten, Machine.ofTurn, Flat.turn, Flat.ask, Flat.leave, Cell.read, Cell.modify,
    Cell.beside, Act.beside, bind, EStateM.bind, pure, EStateM.pure, source_of_end hpull, map_eq_pure_bind]
  rfl

/-- The next part is opened, and asked as a part in progress. -/
theorem stepCursor_parts_next (hpull : h.pull o w = .ok (some x) v) (hopened : parts.opened h x v = .ok i u) :
    stepCursor h (.parts parts { outer := some o, opened := k }) w =
      stepCursor h (.parts parts { outer := some o, part := some i, opened := k + 1 }) u := by
  simp [stepCursor_parts, flatten, Machine.ofTurn, Flat.turn, Flat.ask, Flat.enter, Cell.read, Cell.modify,
    Cell.beside, Act.beside, Act.attempt, bind, EStateM.bind, pure, EStateM.pure, source_of_item hpull,
    map_eq_pure_bind, hopened]

/-- There are no more parts. -/
theorem stepCursor_parts_end (hpull : h.pull o w = .ok none v) :
    stepCursor h (.parts parts { outer := some o, opened := k }) w =
      .ok (.idle (.parts parts { outer := none, opened := k })) v := by
  simp [stepCursor_parts, flatten, Machine.ofTurn, Flat.turn, Flat.close, Cell.read, Cell.modify, Cell.beside,
    Act.beside, Act.attempt, bind, EStateM.bind, pure, EStateM.pure, source_of_end hpull, map_eq_pure_bind]
  rfl

theorem closed_parts (parts : Parts) (s : Flat Value Value) : Closed (.parts parts s) :=
  ⟨nofun, nofun, fun _ _ => rfl⟩

/-- The part in progress gives its items while the source stands where it is, and then the parts behind it come. -/
theorem pours_part {α : Type} {R : Meaning α} {κ : Type} {g : Gauge κ} {q : κ} {e : Option κ} {cs : List α}
    {as : List (α × κ)} (hi : Delivers h d R i cs F w) (hat : g.At q P w) (hapart : ∀ j ∈ F, j ∉ P)
    (hrest : Pours h d (N + 1) R g (.parts parts { outer := some o, opened := k }) as e P w) :
    Pours h d (N + 2) R g (.parts parts { outer := some o, part := some i, opened := k })
      (cs.map (fun c => (c, q)) ++ as) e (F ∪ P) w := by
  have hhas : Has (F ∪ P) w := by
    rintro j (hj | hj)
    · exact hi.has j hj
    · exact hrest.has j hj
  induction cs generalizing F w with
  | nil =>
      refine pours_of_skip (closed_parts _ _) hhas fun n hn v hv => ?_
      obtain ⟨u, hpull, huses⟩ := hi.2 n hn v (hv.mono Set.subset_union_left)
      have hrestv := hrest.spared (hv.mono Set.subset_union_right)
      refine ⟨_, u, P, stepCursor_parts_left hpull, huses.moves.mono Set.subset_union_left,
        Set.subset_union_right.trans (subset_within _ _), hrestv.spared ?_⟩
      exact huses.spares hrestv.has fun j hj hmem => hapart j hmem hj
  | cons c cs ih =>
      refine ⟨closed_parts _ _, hhas, fun n fuel hn hfuel v hv => ?_⟩
      obtain ⟨fuel, rfl⟩ := Nat.exists_eq_add_of_le' hfuel
      obtain ⟨x, u, G, F', hpull, huses, hdivides, hx, hi'⟩ := hi.2 n hn v (hv.mono Set.subset_union_left)
      have hrestv := hrest.spared (hv.mono Set.subset_union_right)
      have hatv := hat.spared (hv.mono Set.subset_union_right)
      have hspares : Spares P v u := huses.spares hrestv.has fun j hj hmem => hapart j hmem hj
      -- what the part has made for itself is newer than what is behind it
      have hbehind := apart_of_subset_within hdivides.rest hapart hrestv.has
      refine ⟨x, _, u, G, F' ∪ P, Machine.pull_of_give (stepCursor_parts_item hpull) (fuel + (N + 1)),
        huses.moves.mono Set.subset_union_left, hdivides.union hapart hrestv.has, hx,
        (hatv.spared hspares).mono Set.subset_union_right,
        ih hi' (hatv.spared hspares) hbehind (hrestv.spared hspares) ?_⟩
      rintro j (hj | hj)
      · exact hi'.has j hj
      · exact (hrestv.spared hspares).has j hj

/-! ### The sections of a route -/

/-- The sorted neighbours of the vertices of a route, vertex by vertex, each with how far is read by then. -/
def sortedParts (near : Node → List Node) (rate : Node → ρ) : List Node → Extent → List (List Node × Extent)
  | [], _ => []
  | a :: as, p => (sortedOf rate (near a), (p.1 + 1, p.2 ++ near a)) ::
      sortedParts near rate as (p.1 + 1, p.2 ++ near a)

theorem length_sortedParts (near : Node → List Node) (as : List Node) (p : Extent) :
    (sortedParts near rate as p).length = as.length := by
  induction as generalizing p with
  | nil => rfl
  | cons a as ih => rw [sortedParts, List.length_cons, List.length_cons, ih]

/-- By a host, the first vertices of a route can be read, and the keys of the neighbours of each can be asked for.
The end of the route may be known. -/
inductive Equipped (h : Host) (d : ℕ) (g : Gauge Extent) (xs : Stream'.Seq Node) (near : Node → List Node)
    (s : Scale ρ) (key : Value) (rate : Node → ρ) (e : Option Extent) : List Node → Extent → Prop
  | stop {p : Extent} (hend : ∀ q ∈ e, q = p ∧ xs.get? p.1 = none ∧
        ∀ n, d ≤ n → (g.reading p.2).Advances (h.up n) xs p.1) : Equipped h d g xs near s key rate e [] p
  | read {a : Node} {as : List Node} {p : Extent} (hget : xs.get? p.1 = some a)
      (hadvances : ∀ n, d ≤ n → (g.reading p.2).Advances (h.up n) xs p.1)
      (hrates : ∀ n, d ≤ n → ∀ j b, (near a)[j]? = some b →
        g.Rates s (h.up n) key rate (p.1 + 1, p.2 ++ (near a).take j) b)
      (hrest : Equipped h d g xs near s key rate e as (p.1 + 1, p.2 ++ near a)) :
      Equipped h d g xs near s key rate e (a :: as) p

/-- The next vertex of a route is read, and no keys are asked for. -/
theorem Gauge.Advances.exists_vertex {H : Host} (hadvances : (g.reading p.2).Advances H xs p.1)
    (hget : xs.get? p.1 = some a) (hstands : g.stands it p P w) :
    ∃ x v Q, H.pull it w = .ok (some x) v ∧ x.form = a ∧ Moves P w v ∧ Q ⊆ within P w.cursors.size ∧
      g.stands it (p.1 + 1, p.2) Q v := by
  obtain ⟨r, v, Q, hpull, hr, hmoves, hQ, hstands'⟩ := hadvances it P w hstands
  rw [hget] at hr
  obtain ⟨hx⟩ := hr
  exact ⟨_, v, Q, hpull, hx, hmoves, hQ, hstands'⟩

/-- The end of a route is read, and no keys are asked for. -/
theorem Gauge.Advances.exists_end {H : Host} (hadvances : (g.reading p.2).Advances H xs p.1)
    (hget : xs.get? p.1 = none) (hstands : g.stands it p P w) :
    ∃ v Q, H.pull it w = .ok none v ∧ Moves P w v ∧ Q ⊆ within P w.cursors.size ∧ g.At p Q v := by
  obtain ⟨r, v, Q, hpull, hr, hmoves, hQ, hstands'⟩ := hadvances it P w hstands
  rw [hget] at hr
  cases hr
  exact ⟨v, Q, hpull, hmoves, hQ, it, Q, subset_rfl, hstands'⟩

theorem length_along_le (ha : Fits graph .vertex a) (hsides : direction.sides = [side]) :
    (w.along direction labels .vertices a).length ≤ (w.graphAt graph).edges.size := by
  obtain ⟨-, j, hj⟩ := ha
  rw [along, List.length_map, edgesFrom, hsides, List.flatMap_singleton, edgesOf, hj, List.length_map]
  exact (List.length_filter_le _ _).trans (length_edgesAt_le w ⟨graph, j⟩ side)

theorem fits_of_mem_along (ha : Fits graph .vertex a) (hb : b ∈ w.along direction labels .vertices a) :
    Fits graph .vertex b :=
  fits_of_mem_leads (s := .vertices direction labels) ha hb

/-! ### Sorted lists below a chain -/

theorem apply_group (H : Host) (gives : Yield) (post : Post) :
    (Image.group direction gives keys post).apply H x = (do
      let sub ← (Image.group direction gives keys .none).apply H x
      post.apply H sub : M Value) := by
  cases gives <;> simp only [Image.apply, Post.apply, bind_assoc, bind_pure, pure_bind]

section

variable {t : World} (hkeyed : t.Keyed graph) (hsides : direction.sides = [side]) (hls : ∀ l ∈ ls, l.key?.isSome)
  (hfuel : (t.graphAt graph).edges.size + 2 ≤ h.fuel) (hfuel' : ls.length < h.fuel)
  (hquiet : ∀ {it p P v u}, g.stands it p P v → Quiet P v u → g.stands it p P u)
include hkeyed hsides hfuel hquiet

/-- The neighbours of a vertex are put into a list, sorted. -/
theorem exists_sortedGroup (ha : Fits graph .vertex a) (hx : x.form = a)
    (hkeys : ∀ label k, label.key? = some k → passes keys k = admits ls label) (hw : w.graphs = t.graphs)
    (hstands : g.stands it (k, asked) P w) (hn : 2 ≤ n)
    (hrates : ∀ j b, (t.along direction (.tuple ls none) .vertices a)[j]? = some b →
      g.Rates s (h.up n) key rate (k, asked ++ (t.along direction (.tuple ls none) .vertices a).take j) b)
    (hd : 1 ≤ d) :
    ∃ y u Q, (Image.group direction .vertices keys (.sorts key)).apply (h.up n) x w = .ok y u ∧ Moves P w u ∧
      Q ⊆ within P w.cursors.size ∧
      g.stands it (k, asked ++ t.along direction (.tuple ls none) .vertices a) Q u ∧
      ((Meaning.element True).opening h d).holds
        (sortedOf rate (t.along direction (.tuple ls none) .vertices a)) y ∅ u := by
  have hgraph : w.graphAt graph = t.graphAt graph := congrFun (graphAt_congr hw) graph
  obtain ⟨place, v, F, hgroup, hnew, hF, hit⟩ := exists_resumed_group (h := h) (keyed_of_graphs hw hkeyed) ha hx
    hkeys (by rwa [hgraph]) hsides (h.up n)
  rw [along_congr hw ha] at hit
  have hlength : (t.along direction (.tuple ls none) .vertices a).length ≤ (t.graphAt graph).edges.size :=
    length_along_le ha hsides
  obtain ⟨l, u, Q, hsorts, hrest⟩ := exists_sortedList hstands hnew hF hit.1 hit.proceeds hn hrates hquiet
    (fun _ hb => fits_of_mem_along ha hb) (by omega) hd
  refine ⟨_, u, Q, ?_, hrest⟩
  rw [apply_group, Act.bind_of_ok hgroup]
  exact hsorts

/-- **One sorted list for each vertex.** -/
theorem pours_sortedGroups
    (heq : Equipped h d g xs (t.along direction (.tuple ls none) .vertices) s key rate e as p)
    (hfits : ∀ a ∈ as, Fits graph .vertex a)
    (hkeys : ∀ label k, label.key? = some k → passes keys k = admits ls label) (hw : w.graphs = t.graphs)
    (hstands : g.stands it p P w) (hd : 2 ≤ d) (hn : 1 ≤ n) :
    Pours h d 1 ((Meaning.element True).opening h n) g (.each (.group direction .vertices keys (.sorts key)) it)
      (sortedParts (t.along direction (.tuple ls none) .vertices) rate as p) e P w := by
  induction heq generalizing P w with
  | stop hend =>
      refine ⟨closed_each _ it, g.has hstands, fun q hq m fuel hm hfuel v hv => ?_⟩
      obtain ⟨fuel, rfl⟩ := Nat.exists_eq_add_of_le' hfuel
      obtain ⟨rfl, hget, hadvances⟩ := hend q hq
      obtain ⟨u, Q, hpull, hmoves, hQ, hat⟩ := (hadvances m hm).exists_end hget (g.spared hstands hv)
      exact ⟨none, u, Q, Machine.pull_of_finish (stepCursor_each_end hpull) fuel, hmoves, hQ, hat⟩
  | @read a as p hget hadvances hrates _ ih =>
      refine ⟨closed_each _ it, g.has hstands, fun m fuel hm hfuel' v hv => ?_⟩
      obtain ⟨fuel, rfl⟩ := Nat.exists_eq_add_of_le' hfuel'
      obtain ⟨x, u, Q, hpull, hx, hmoves, hQ, hstandsu⟩ :=
        (hadvances m hm).exists_vertex hget (g.spared hstands hv)
      have hu : u.graphs = t.graphs := (hmoves.graphs_eq.trans hv.graphs_eq).trans hw
      obtain ⟨y, v', Q', hgroup, hmoves', hQ', hstands', hy⟩ := exists_sortedGroup hkeyed hsides hfuel hquiet
        (hfits a List.mem_cons_self) hx hkeys hu hstandsu (hd.trans hm) (hrates m hm) hn
      exact ⟨y, _, v', ∅, Q', Machine.pull_of_give (stepCursor_each hpull hgroup) fuel, hmoves.trans hmoves' hQ,
        ⟨Set.empty_subset _, hQ'.trans (within_mono hQ hmoves.size), fun _ hi => hi.elim⟩, hy,
        ⟨it, Q', subset_rfl, hstands'⟩, ih (fun b hb => hfits b (List.mem_cons_of_mem a hb))
          (hmoves'.graphs_eq.trans hu) hstands'⟩

/-! ### Sorted sections -/

include hls hfuel'

/-- The neighbours of a vertex are asked for by a function, put into a list, sorted, and opened. -/
theorem exists_sortedSection (ha : Fits graph .vertex a) (hx : x.form = a)
    (hlabels : ∀ {it p P v}, g.stands it p P v → v.labels? labels = some ls)
    (hcall : ∀ it p P v x, g.stands it p P v → ∀ H : Host, (h.up n).call f [x] [] v =
      H.callOp (.step { direction, gives := .vertices, grouped := false }) [x, labels] [] v)
    (hw : w.graphs = t.graphs) (hstands : g.stands it (k, asked) P w) (hn : 3 ≤ n)
    (hrates : ∀ j b, (t.along direction (.tuple ls none) .vertices a)[j]? = some b →
      g.Rates s (h.up n) key rate (k, asked ++ (t.along direction (.tuple ls none) .vertices a).take j) b)
    (hd : 1 ≤ d) :
    ∃ i u F Q, (Parts.sortedSections key f).opened (h.up n) x w = .ok i u ∧ Moves P w u ∧
      F ⊆ within P w.cursors.size ∧ Q ⊆ within P w.cursors.size ∧ (∀ j ∈ F, j ∉ Q) ∧
      g.stands it (k, asked ++ t.along direction (.tuple ls none) .vertices a) Q u ∧
      Delivers h d (.element True) i (sortedOf rate (t.along direction (.tuple ls none) .vertices a)) F u := by
  obtain ⟨xs', marks, hhand, hxs⟩ := exists_mapM_handOut [x] w
  cases hxs with
  | @cons _ x' _ _ hhanded hnil =>
  cases hnil
  -- the function is called with the vertex, and takes the step
  let v : World := { w with marks }
  have hmarks : Uses ∅ w v := uses_marks w marks
  have hgraph : v.graphAt graph = t.graphAt graph := congrFun (graphAt_congr hw) graph
  have hstandsv : g.stands it (k, asked) P v := g.spared hstands (hmarks.spares_of_new (g.has hstands))
  obtain ⟨r, u, F, hopen, hopens, hF, hhas, hit⟩ := exists_proceeding_step (w := v) (h := h)
    (keyed_of_graphs hw hkeyed) ha (hhanded.form_eq.trans hx) (hlabels hstandsv) hls (by rwa [hgraph]) hfuel' hsides
  have hcalled : (h.up n).call f [x'] [] v = .ok (.ref .iterator r) u :=
    (hcall it _ P v x' hstandsv h).trans ((Act.bind_of_ok hopen).trans rfl)
  have happly : (h.up n).apply f [x] w = .ok (.ref .iterator r) u := (Act.bind_of_ok hhand).trans hcalled
  have hvw : v.graphs = t.graphs := hw
  rw [along_tuple (hlabels hstandsv), along_congr hvw ha] at hit
  have hlength : (t.along direction (.tuple ls none) .vertices a).length ≤ (t.graphAt graph).edges.size :=
    length_along_le ha hsides
  obtain ⟨l, v', Q, hsorts, hmoves, hQ, hstands', hlist⟩ := exists_sortedList hstands
    (hmarks.trans hopens (Set.empty_subset _)) hF hhas hit hn hrates hquiet (fun _ hb => fits_of_mem_along ha hb)
    (by omega) hd
  obtain ⟨i, u', G, hiterate, huses, hG, hi⟩ := hlist.2.2 v' (.refl ∅ v')
  refine ⟨i, u', G, Q, ?_, hmoves.trans huses.moves (Set.empty_subset _),
    hG.trans (within_mono (Set.empty_subset _) hmoves.size), hQ, fun j hj hmem => ?_,
    g.spared hstands' (huses.spares_of_new (g.has hstands')), hi⟩
  · have hopenRoute : openRoute (.ref .iterator r) u = .ok (.ref .iterator r) u := rfl
    have hbind : (do
        let xs ← (h.up n).sortBy key (.ref .iterator r)
        let sorted ← newList xs.toArray
        iterate sorted : M Value) u = .ok i u' := by
      rw [← bind_assoc]
      exact (Act.bind_of_ok hsorts).trans hiterate
    exact (Act.bind_of_ok happly).trans ((Act.bind_of_ok hopenRoute).trans hbind)
  · exact (hG hj).elim id fun hle => Nat.not_le_of_lt (g.has hstands' j hmem) hle

/-- **One sorted section for each vertex.** -/
theorem pours_sortedSections
    (heq : Equipped h d g xs (t.along direction (.tuple ls none) .vertices) s key rate e as p)
    (hfits : ∀ a ∈ as, Fits graph .vertex a)
    (hlabels : ∀ {it p P v}, g.stands it p P v → v.labels? labels = some ls)
    (hcall : ∀ n, d ≤ n → ∀ it p P v x, g.stands it p P v → ∀ H : Host, (h.up n).call f [x] [] v =
      H.callOp (.step { direction, gives := .vertices, grouped := false }) [x, labels] [] v)
    (hw : w.graphs = t.graphs) (hstands : g.stands it p P w) (hd : 3 ≤ d) :
    Pours h d (as.length + 1) (.element True) g (.parts (.sortedSections key f) { outer := some it, opened := k })
      (spread (sortedParts (t.along direction (.tuple ls none) .vertices) rate as p)) e P w := by
  induction heq generalizing k P w with
  | stop hend =>
      refine ⟨closed_parts _ _, g.has hstands, fun q hq m fuel hm hfuel v hv => ?_⟩
      obtain ⟨fuel, rfl⟩ := Nat.exists_eq_add_of_le' hfuel
      obtain ⟨rfl, hget, hadvances⟩ := hend q hq
      obtain ⟨u, Q, hpull, hmoves, hQ, hat⟩ := (hadvances m hm).exists_end hget (g.spared hstands hv)
      exact ⟨_, u, Q, Machine.pull_of_idle (stepCursor_parts_end hpull) fuel, hmoves, hQ, hat⟩
  | @read a as p hget hadvances hrates _ ih =>
      refine pours_of_step (closed_parts _ _) (g.has hstands) fun m hm v hv => ?_
      obtain ⟨x, u, Q, hpull, hx, hmoves, hQ, hstandsu⟩ :=
        (hadvances m hm).exists_vertex hget (g.spared hstands hv)
      have hu : u.graphs = t.graphs := (hmoves.graphs_eq.trans hv.graphs_eq).trans hw
      obtain ⟨i, v', F, Q', hopened, hmoves', hF, hQ', hapart, hstands', hi⟩ :=
        exists_sortedSection hkeyed hsides hls
        hfuel hfuel' hquiet (hfits a List.mem_cons_self) hx hlabels (hcall m hm) hu hstandsu (hd.trans hm)
        (hrates m hm) (Nat.le_of_add_left_le hd)
      have hwithin := within_mono hQ hmoves.size
      exact ⟨_, v', F ∪ Q', stepCursor_parts_next hpull hopened, hmoves.trans hmoves' hQ,
        Set.union_subset (hF.trans hwithin) (hQ'.trans hwithin),
        pours_part hi ⟨it, Q', subset_rfl, hstands'⟩ hapart
          (ih (fun b hb => hfits b (List.mem_cons_of_mem a hb)) (hmoves'.graphs_eq.trans hu) hstands')⟩

end

/-! ### Sorted steps and sections -/

theorem beginCursor_groups {post : Post} {M' : Option (Std.HashSet Key)} {H : Host}
    (hread : H.labelKeys labels w = .ok M' u) (hopen : openRoute route u = .ok it v) :
    beginCursor H (.groups route labels direction .vertices post) w =
      .ok (.each (.group direction .vertices M' post) it) v :=
  (Act.bind_of_ok hread).trans ((Act.bind_of_ok hopen).trans rfl)

/-- **A step whose vertices are sorted** reads nothing when it is taken, and streams the neighbours of each vertex
in stable order. -/
theorem exists_sortedStep (hkeyed : w.Keyed graph) (hlabels : w.labels? labels = some ls)
    (hls : ∀ l ∈ ls, l.key?.isSome) (hsides : direction.sides = [side]) (route key : Value) (P : Set ℕ) :
    ∃ r u Q, (∀ H : Host, H.callOp (.sortedStep direction) [route, labels, key] [] w = .ok r u) ∧ Uses ∅ w u ∧
      ∀ {σ : Type} [LinearOrder σ] {s : Scale σ} {rate : Node → σ} {h : Host} {d : ℕ} {g : Gauge Extent}
        {xs : Stream'.Seq Node} {e : Option Extent} {as : List Node}, 3 ≤ d →
        (w.graphAt graph).edges.size + as.length + ls.length + 2 ≤ h.fuel →
        (∀ {it p P v u}, g.stands it p P v → Quiet P v u → g.stands it p P u) →
        (∀ a ∈ as, Fits graph .vertex a) → (g.reading []).Begins route P w →
        Equipped h d g xs (w.along direction labels .vertices) s key rate e as (0, []) →
        Streamed h (d + 2) g r (spread (sortedParts (w.along direction labels .vertices) rate as (0, []))) e Q
          u := by
  let c : Cursor := .deferred (.groups route labels direction .vertices (.sorts key))
  let u : World := { w with cursors := w.cursors.push c }
  let c' : Cursor := .chained { outer := some (.ref .iterator w.cursors.size) }
  have hopen : openStep { direction, gives := .vertices, grouped := false } route labels (.sorts key) w =
      .ok (.ref .iterator u.cursors.size) { u with cursors := u.cursors.push c' } := rfl
  refine ⟨_, _, insert u.cursors.size (insert w.cursors.size P), fun H => (Act.bind_of_ok hopen).trans rfl,
    (uses_push w c).trans (uses_push u c') (Set.empty_subset _), ?_⟩
  intro σ _ s rate h d g xs e as hd hfuel hquiet hfits hbegins heq
  rw [along_tuple hlabels] at heq ⊢
  have hlength : (sortedParts (w.along direction (.tuple ls none) .vertices) rate as (0, [])).length = as.length :=
    length_sortedParts _ _ _
  have hpours : Pours h d 2 ((Meaning.element True).opening h (d + 1)) g c
      (sortedParts (w.along direction (.tuple ls none) .vertices) rate as (0, [])) e P w := by
    refine pours_deferred hbegins.1 fun n hn v hv => ?_
    -- to read the labels takes a level of its own
    obtain ⟨m, rfl, -⟩ := exists_level_below (hd.trans hn)
    obtain ⟨keys, u, hread, hkeys, hkeeps⟩ := labelKeys_eq (h := h.up m)
      ((congrFun (spares_labels? hv) labels).trans hlabels) hls (by rw [Host.fuel_up]; omega)
    have hreads : Uses ∅ v u := hkeeps.uses (Nat.le_refl _)
    have hu : Spares P w u := hv.trans (hreads.spares_of_new (hbegins.1.spared hv))
    obtain ⟨it, t, Q, hopen, hopens, hQ, hstands⟩ := hbegins.2 u hu
    exact ⟨_, t, Q, beginCursor_groups hread hopen,
      (hreads.mono (Set.empty_subset P)).moves.trans hopens (subset_within P _),
      hQ.trans (within_mono (subset_within P _) hreads.size),
      pours_sortedGroups hkeyed hsides (by omega) hquiet heq hfits hkeys (hopens.graphs_eq.trans hu.graphs_eq)
        hstands (Nat.le_of_succ_le hd) (Nat.le_add_left 1 d)⟩
  exact (streams_newChain (streams_newCursor hpours (by omega)) (by rw [hlength]; omega)).streamed

/-- **Sections that are sorted** stream the same, if each is what the step gives from its vertex. -/
theorem exists_sortedSections (hkeyed : w.Keyed graph) (hlabels : w.labels? labels = some ls)
    (hls : ∀ l ∈ ls, l.key?.isSome) (hsides : direction.sides = [side]) (route key f : Value) (P : Set ℕ) :
    ∃ r u Q, (∀ H : Host, H.callOp .sortedSections [route, key, f] [] w = .ok r u) ∧ Uses ∅ w u ∧
      ∀ {σ : Type} [LinearOrder σ] {s : Scale σ} {rate : Node → σ} {h : Host} {d : ℕ} {g : Gauge Extent}
        {xs : Stream'.Seq Node} {e : Option Extent} {as : List Node}, 3 ≤ d →
        (w.graphAt graph).edges.size + as.length + ls.length + 2 ≤ h.fuel →
        (∀ {it p P v u}, g.stands it p P v → Quiet P v u → g.stands it p P u) →
        (∀ {it p P v}, g.stands it p P v → v.labels? labels = some ls) →
        (∀ n, d ≤ n → ∀ it p P v x, g.stands it p P v → ∀ H : Host, (h.up n).call f [x] [] v =
          H.callOp (.step { direction, gives := .vertices, grouped := false }) [x, labels] [] v) →
        (∀ a ∈ as, Fits graph .vertex a) → (g.reading []).Begins route P w →
        Equipped h d g xs (w.along direction labels .vertices) s key rate e as (0, []) →
        Streamed h (d + 1) g r (spread (sortedParts (w.along direction labels .vertices) rate as (0, []))) e Q
          u := by
  let c : Cursor := .deferred (.parts route (.sortedSections key f))
  have hdefer : World.defer (.parts route (.sortedSections key f)) w =
      .ok (.ref .iterator w.cursors.size) { w with cursors := w.cursors.push c } := rfl
  refine ⟨_, _, insert w.cursors.size P, fun H => (Act.bind_of_ok hdefer).trans rfl, uses_push w c, ?_⟩
  intro σ _ s rate h d g xs e as hd hfuel hquiet hstable hcall hfits hbegins heq
  rw [along_tuple hlabels] at heq ⊢
  have hpours : Pours h d (as.length + 2) (.element True) g c
      (spread (sortedParts (w.along direction (.tuple ls none) .vertices) rate as (0, []))) e P w := by
    refine pours_deferred hbegins.1 fun n hn v hv => ?_
    obtain ⟨it, t, Q, hopen, hopens, hQ, hstands⟩ := hbegins.2 v hv
    have hbegun : beginCursor (h.up n) (.parts route (.sortedSections key f)) v =
        .ok (.parts (.sortedSections key f) { outer := some it }) t := (Act.bind_of_ok hopen).trans rfl
    exact ⟨_, t, Q, hbegun, hopens, hQ, pours_sortedSections hkeyed hsides hls (by omega) (by omega) hquiet heq hfits
      hstable hcall (hopens.graphs_eq.trans hv.graphs_eq) hstands hd⟩
  exact (streams_newCursor hpours (by omega)).streamed

/-! ### Routes and key functions -/

section

open Merge Filter

/-- **A finite or infinite route, and a function that gives the neighbours of its vertices their keys.**  To read
the route asks for no keys, and to ask for a key does not read the route.  To get far enough, a host may have to
take more steps. -/
structure Appraising (h : Host) (d : ℕ) (g : Gauge Extent) (xs : Stream'.Seq Node) (near : Node → List Node)
    (s : Scale ρ) (key : Value) (rate : Node → ρ) : Prop where
  reads : ∀ asked, Fount h d (g.reading asked) xs
  rates : ∀ k a, xs.get? k = some a → ∀ b ∈ near a, ∀ p, ∀ᶠ N in atTop, ∀ n, d ≤ n →
    g.Rates s ((h.grant N).up n) key rate p b
  quiet : ∀ {it p P v u}, g.stands it p P v → Quiet P v u → g.stands it p P u

theorem Appraising.mono {d' : ℕ} (hroute : Appraising h d g xs near s key rate) (hd : d ≤ d') :
    Appraising h d' g xs near s key rate where
  reads asked k := (hroute.reads asked k).mono fun _ hN n hn => hN n (hd.trans hn)
  rates k a ha b hb p := (hroute.rates k a ha b hb p).mono fun _ hN n hn => hN n (hd.trans hn)
  quiet := hroute.quiet

/-- What a function does that takes a step from each vertex of a route. -/
def Gauge.Steps (g : Gauge Extent) (h : Host) (d : ℕ) (direction : Direction) (labels f : Value) : Prop :=
  ∀ᶠ N in atTop, ∀ n, d ≤ n → ∀ it p P v x, g.stands it p P v → ∀ H : Host, ((h.grant N).up n).call f [x] [] v =
    H.callOp (.step { direction, gives := .vertices, grouped := false }) [x, labels] [] v

/-- The end of a route may be known. -/
theorem Appraising.equipped_end (hroute : Appraising h d g xs near s key rate)
    (he : ∀ q ∈ e, q = p ∧ xs.get? q.1 = none) :
    ∀ᶠ N in atTop, Equipped (h.grant N) d g xs near s key rate e [] p := by
  filter_upwards [hroute.reads p.2 p.1] with N hN
  refine .stop fun q hq => ?_
  obtain ⟨rfl, hend⟩ := he q hq
  exact ⟨rfl, hend, hN⟩

/-- The keys of the neighbours of a vertex are asked for one after the other. -/
theorem Appraising.eventually_rates (hroute : Appraising h d g xs near s key rate) (hget : xs.get? k = some a)
    (p : Extent) :
    ∀ᶠ N in atTop, ∀ n, d ≤ n → ∀ j b, (near a)[j]? = some b →
      g.Rates s ((h.grant N).up n) key rate (p.1, p.2 ++ (near a).take j) b := by
  have hone : ∀ j ∈ {j | j < (near a).length}, ∀ᶠ N in atTop, ∀ n, d ≤ n → ∀ b, (near a)[j]? = some b →
      g.Rates s ((h.grant N).up n) key rate (p.1, p.2 ++ (near a).take j) b := by
    intro j hj
    filter_upwards [hroute.rates k a hget _ (List.getElem_mem hj) (p.1, p.2 ++ (near a).take j)] with N hN n hn b hb
    rw [← (List.getElem?_eq_some_iff.1 hb).2]
    exact hN n hn
  filter_upwards [(eventually_all_finite (Set.finite_lt_nat (near a).length)).2 hone] with N hN n hn j b hj
  exact hN j (List.getElem?_eq_some_iff.1 hj).1 n hn b hj

/-- A host that may take enough steps is equipped to read the first vertices. -/
theorem Appraising.equipped (hroute : Appraising h d g xs near s key rate) (k m : ℕ) (asked : List Node)
    (he : ∀ q ∈ e, q = (k + (slice xs k m).length, asked ++ (slice xs k m).flatMap near) ∧ xs.get? q.1 = none) :
    ∀ᶠ N in atTop, Equipped (h.grant N) d g xs near s key rate e (slice xs k m) (k, asked) := by
  induction m generalizing k asked with
  | zero =>
      have hnil : slice xs k 0 = [] := rfl
      rw [hnil] at he ⊢
      exact hroute.equipped_end (by simpa using he)
  | succ m ih =>
      cases hget : xs.get? k with
      | none =>
          rw [slice_of_none hget] at he ⊢
          exact hroute.equipped_end (by simpa using he)
      | some a =>
          rw [slice_succ_of_get? hget] at he ⊢
          have he' : ∀ q ∈ e, q = (k + 1 + (slice xs (k + 1) m).length,
              asked ++ near a ++ (slice xs (k + 1) m).flatMap near) ∧ xs.get? q.1 = none := by
            intro q hq
            obtain ⟨hq', hend⟩ := he q hq
            refine ⟨?_, hend⟩
            rw [hq', List.length_cons, List.flatMap_cons, List.append_assoc, Nat.add_right_comm, Nat.add_assoc]
          filter_upwards [hroute.reads asked k, hroute.eventually_rates hget (k + 1, asked), ih _ _ he']
            with N hreads hrates hrest
          exact .read hget hreads hrates hrest

/-! ### What comes of the steps -/

theorem map_fst_spread_sortedParts (near : Node → List Node) (as : List Node) (p : Extent) :
    (spread (sortedParts near rate as p)).map Prod.fst = as.flatMap fun a => sortedOf rate (near a) := by
  induction as generalizing p with
  | nil => rfl
  | cons a as ih =>
      have hid : ((sortedOf rate (near a)).map fun b => (b, (p.1 + 1, p.2 ++ near a))).map Prod.fst =
          sortedOf rate (near a) := by
        rw [List.map_map]
        exact List.map_id _
      rw [sortedParts, spread, List.flatMap_cons, List.map_append, hid, List.flatMap_cons]
      exact congrArg _ (ih _)

/-- One vertex more. -/
theorem spread_sortedParts_concat (near : Node → List Node) (as : List Node) (a : Node) (p : Extent) :
    spread (sortedParts near rate (as ++ [a]) p) = spread (sortedParts near rate as p) ++
      (sortedOf rate (near a)).map fun b => (b, (p.1 + as.length + 1, p.2 ++ as.flatMap near ++ near a)) := by
  induction as generalizing p with
  | nil => simp [sortedParts, spread]
  | cons c as ih =>
      have hnext := ih (p.1 + 1, p.2 ++ near c)
      rw [List.cons_append, sortedParts, sortedParts, spread, spread, List.flatMap_cons, List.flatMap_cons,
        List.append_assoc]
      refine congrArg _ (hnext.trans ?_)
      rw [List.length_cons, List.flatMap_cons, Nat.add_right_comm p.1 1, ← Nat.add_assoc, List.append_assoc p.2]
      rfl

/-- **What sorted steps give, and how far is read for it.**  Behind the sorted neighbours of all vertices before,
those of the next vertex come in order; when one of them is given, the route has been read up to its vertex, and a
key has been asked for once for each neighbour of a vertex that has been read, in order.  If the route has an end,
then this holds of all its vertices when the step comes to its end. -/
structure Gauge.Unfolds (g : Gauge Extent) (h : Host) (d : ℕ) (xs : Stream'.Seq Node) (near : Node → List Node)
    (rate : Node → ρ) (r : Value) (w : World) : Prop where
  reaches : ∀ n a j, xs.get? n = some a → j < (near a).length → ∀ᶠ N in atTop, ∀ m, d ≤ m →
    g.Reaches ((h.grant N).up m) r
      ((xs.take n).flatMap (fun a => sortedOf rate (near a)) ++ (sortedOf rate (near a)).take (j + 1))
      (n + 1, (xs.take n).flatMap near ++ near a) w
  finishes : ∀ n, xs.get? n = none → ∀ᶠ N in atTop, ∀ m, d ≤ m →
    g.Finishes ((h.grant N).up m) r ((xs.take n).flatMap fun a => sortedOf rate (near a))
      ((xs.take n).length, (xs.take n).flatMap near) w

theorem unfolds_of_streamed
    (hr : ∀ K (e : Option Extent), (∀ q ∈ e, q = ((xs.take K).length, (xs.take K).flatMap near) ∧
        xs.get? q.1 = none) →
      ∀ᶠ N in atTop, Streamed (h.grant N) d g r (spread (sortedParts near rate (xs.take K) (0, []))) e Q w) :
    g.Unfolds h d xs near rate r w where
  reaches n a j ha hj := by
    have htake : xs.take (n + 1) = xs.take n ++ [a] := take_succ_of_get? ha
    filter_upwards [hr (n + 1) none nofun] with N hN m hm
    rw [htake, spread_sortedParts_concat, length_take_of_get? ha, Nat.zero_add, List.nil_append] at hN
    have hlt : j < (sortedOf rate (near a)).length :=
      hj.trans_eq (stableSort_sortedOf rate (near a)).perm.length_eq.symm
    let q : Extent := (n + 1, (xs.take n).flatMap near ++ near a)
    have hsplit : (sortedOf rate (near a)).map (fun b => (b, q)) =
        ((sortedOf rate (near a)).take j).map (fun b => (b, q)) ++
          ((sortedOf rate (near a))[j], q) :: ((sortedOf rate (near a)).drop (j + 1)).map fun b => (b, q) := by
      rw [← List.map_cons (f := fun b => (b, q)), ← List.map_append, ← List.drop_eq_getElem_cons hlt,
        List.take_append_drop]
    have hid : ∀ bs : List Node, (bs.map fun b => (b, q)).map Prod.fst = bs := fun bs => by
      rw [List.map_map]
      exact List.map_id _
    rw [hsplit, ← List.append_assoc] at hN
    have hreaches := hN.reaches hm
    rwa [List.map_append, List.map_append, map_fst_spread_sortedParts, hid, List.append_assoc, List.map_singleton,
      ← List.take_succ_eq_append_getElem hlt] at hreaches
  finishes n hend := by
    filter_upwards [hr n (some _) fun q hq => by
      cases hq
      exact ⟨rfl, (get?_length_take xs n).trans hend⟩] with N hN m hm
    have hfinishes := hN.finishes hm
    rwa [map_fst_spread_sortedParts] at hfinishes

end

/-! ### Sorted steps -/

open Merge Filter

/-- The neighbours of a vertex are found along its edges, in the order in which these were added. -/
theorem along_eq_alongEdges {j : ℕ} (ha : a.base = .vertex ⟨graph, j⟩ none) (w : World)
    (hsides : direction.sides = [side]) (labels : Value) :
    w.along direction labels .vertices a = (w.alongEdges graph (direction, labels) j).map (fun e =>
        (a.reach .edge (edgeNode graph e)).reach .vertex (vertexNode graph e.arrival)) ∧
      (w.alongEdges graph (direction, labels) j).Pairwise fun e e' => e.index < e'.index := by
  have hpairwise := pairwise_alongEdges w graph (direction, labels) j
  refine ⟨leads_leg ha (direction, labels), hpairwise.imp_of_mem fun {e e'} he he' hbefore => ?_⟩
  have hreached : ∀ e ∈ w.alongEdges graph (direction, labels) j, e.reached = some side := by
    intro e he
    obtain ⟨-, ⟨side', hside, hreached⟩, -⟩ := mem_alongEdges_iff.1 he
    rw [hsides, List.mem_singleton] at hside
    rw [hreached, hside]
  cases hbefore with
  | side hincoming houtgoing =>
      rw [hreached e he] at hincoming
      rw [hreached e' he', hincoming] at houtgoing
      cases houtgoing
  | index _ hindex => exact hindex

/-- **Sorted steps give the neighbours of each vertex of a route in stable order of their keys**, vertex by
vertex: these are the vertices at the far ends of its edges, in the order in which the edges were added, and
sorted stably.  The function that gives the keys is called once for each of them.  The same comes of sections
that are sorted, if a section is what the step gives from its vertex.  And when any sequence is sorted by a
function, then the function is called once for each item, behind its read, the result is in stable order, and
this order is found by the keys alone, whatever stands in the place of the items. -/
theorem sorted_steps (hkeyed : w.Keyed graph) (hlabels : w.labels? labels = some ls)
    (hls : ∀ l ∈ ls, l.key?.isSome) (hdirection : direction ≠ .both) (hxs : OfGraph graph xs)
    (hroute : Appraising h d g xs (w.along direction labels .vertices) s key rate)
    (hbegins : (g.reading []).Begins route P w) :
    let near := w.along direction labels .vertices
    (∀ a j, a.base = .vertex ⟨graph, j⟩ none → near a = (w.alongEdges graph (direction, labels) j).map (fun e =>
        (a.reach .edge (edgeNode graph e)).reach .vertex (vertexNode graph e.arrival)) ∧
      (w.alongEdges graph (direction, labels) j).Pairwise fun e e' => e.index < e'.index) ∧
    (∀ a, StableSort rate (near a) (sortedOf rate (near a))) ∧
    (∃ r u, (∀ H : Host, H.callOp (.sortedStep direction) [route, labels, key] [] w = .ok r u) ∧ Uses ∅ w u ∧
      g.Unfolds h (d + 5) xs near rate r u) ∧
    (∀ f, (∀ {it p P v}, g.stands it p P v → v.labels? labels = some ls) → g.Steps h d direction labels f →
      ∃ r u, (∀ H : Host, H.callOp .sortedSections [route, key, f] [] w = .ok r u) ∧ Uses ∅ w u ∧
        g.Unfolds h (d + 5) xs near rate r u) ∧
    ∀ {σ : Type} [LinearOrder σ] {H : Host} {f coll it : Value} {kxs : List (Value × Value)} {v u t : World}
      {rank : Value → σ}, iterate coll v = .ok it u → Appraised H f it kxs u t →
      t.RankedBy rank (kxs.map Prod.fst) → kxs.length < H.fuel →
      ∃ sorted ys marks, H.callOp .sortBy [f, coll] [] v =
          .ok (.ref .list t.lists.size) { t with marks, lists := t.lists.push ys.toArray } ∧
        List.Forall₂ Handed (sorted.map Prod.snd) ys ∧ StableSort (fun p => rank p.1) kxs sorted ∧
        ∀ {α : Type} (put : Value → α), sortKeyed (kxs.map fun p => (p.1, put p.2)) t =
          .ok ((sorted.map Prod.snd).map put) t := by
  intro near
  obtain ⟨side, hsides⟩ : ∃ side, direction.sides = [side] := by
    cases direction with
    | outgoing | incoming => exact ⟨_, rfl⟩
    | both => exact absurd rfl hdirection
  -- a host that is equipped for the first vertices of the route, and may take enough steps besides
  have hequipped : ∀ K (e : Option Extent), (∀ q ∈ e, q = ((xs.take K).length, (xs.take K).flatMap near) ∧
      xs.get? q.1 = none) → ∀ᶠ N in atTop,
        (w.graphAt graph).edges.size + (xs.take K).length + ls.length + 2 ≤ N ∧
        Equipped (h.grant N) (d + 3) g xs near s key rate e (xs.take K) (0, []) := by
    intro K e he
    refine (eventually_ge_atTop _).and ((hroute.mono (Nat.le_add_right d 3)).equipped 0 K [] fun q hq => ?_)
    rw [Nat.zero_add, List.nil_append]
    exact he q hq
  refine ⟨fun a j ha => along_eq_alongEdges ha w hsides labels, fun a => stableSort_sortedOf rate (near a), ?_,
    fun f hstable hsteps => ?_, fun hiterate hread hranked hfuel => ?_⟩
  · obtain ⟨r, u, Q, hcall, huses, hstreams⟩ := exists_sortedStep hkeyed hlabels hls hsides route key P
    refine ⟨r, u, hcall, huses, unfolds_of_streamed (Q := Q) fun K e he => ?_⟩
    filter_upwards [hequipped K e he] with N hN
    exact hstreams (Nat.le_add_left 3 d) hN.1 hroute.quiet (hxs.fits_take K) hbegins hN.2
  · obtain ⟨r, u, Q, hcall, huses, hstreams⟩ := exists_sortedSections hkeyed hlabels hls hsides route key f P
    refine ⟨r, u, hcall, huses, unfolds_of_streamed (Q := Q) fun K e he => ?_⟩
    filter_upwards [hequipped K e he, hsteps] with N hN hN'
    exact (hstreams (Nat.le_add_left 3 d) hN.1 hroute.quiet hstable (fun n hn => hN' n (Nat.le_of_add_right_le hn))
      (hxs.fits_take K) hbegins hN.2).mono (Nat.le_succ _)
  · obtain ⟨ys, marks, hcall, hys⟩ := exists_callOp_sortBy hiterate hread hranked hfuel
    refine ⟨_, ys, marks, hcall, hys, stableSort_sortedBy _ _, fun put => ?_⟩
    rw [List.map_map]
    exact sortKeyed_map Prod.fst (fun p => put p.2) hranked

/-! ### Logged calls -/

/-- Texts are totally ordered. -/
def Scale.texts : Scale String where
  ranks k i _ := k = .str i
  spared hk _ := hk
  ordered := by
    rintro k l i j w rfl rfl
    have hspell : (Value.str i).spell = (Value.str j).spell ↔ i = j := by simp [Value.spell]
    have hself : w.Comparable (.str j) := w.comparable_of_length rfl (by decide : 1 ≤ depthLimit)
    refine ⟨(w.same_eq rfl rfl hself).trans (congrArg Except.ok (decide_eq_decide.2 hspell)), fun hne => ?_⟩
    have hbefore : w.before (.str i) (.str j) = .ok (decide (i < j) || i == j && false) := rfl
    rw [hbefore, Bool.and_false, Bool.or_false]

/-- The neighbours of a vertex, as an expression of the program. -/
def outExpr : Expr :=
  .call (.name "out" (some (.op (.step { direction := .outgoing, gives := .vertices, grouped := false }))))
    [.name "v" none, .literal .null] []

/-- Two edges to the second vertex, and between them one back to the first. -/
def loggedWorld : World :=
  { twoVertices [⟨0, 1, .str "road", none⟩, ⟨0, 0, .str "road", none⟩, ⟨0, 1, .str "road", none⟩] with
    functions := #[.traced (.str "key") (.op .elementId), .closure ["v"] outExpr []] }

/-- A world in which so many calls have been logged. -/
structure Logged (n : ℕ) (w : World) : Prop where
  log : w.log.size = n
  graphs : w.graphs = loggedWorld.graphs
  functions : w.functions = loggedWorld.functions
  bindings : w.bindings = []

theorem Logged.quiet (hw : Logged n w) (hv : Quiet P w v) : Logged n v := by
  rw [hv.rest]
  exact ⟨hw.log, hw.graphs, hw.functions, hw.bindings⟩

theorem Logged.spared (hw : Logged n w) (hv : Spares P w v) : Logged n v := by
  rw [hv.rest]
  exact ⟨hw.log, hw.graphs, hw.functions, hw.bindings⟩

/-- How many items of a tuple have been read, and for how many elements a key has been asked for: each call has
been logged. -/
def Gauge.logged (xs : List Value) : Gauge Extent where
  stands it p P w := (Gauge.ofTuple xs).stands it p.1 P w ∧ Logged p.2.length w
  has hstands := (Gauge.ofTuple xs).has hstands.1
  spared hstands hv := ⟨(Gauge.ofTuple xs).spared hstands.1 hv, hstands.2.spared hv⟩

theorem fount_logged (h : Host) (xs : List Value) (asked : List Node) :
    Fount h 2 ((Gauge.logged xs).reading asked) (.ofList (xs.map Value.form)) := by
  intro k
  filter_upwards [eventually_gt_atTop 0] with N hN n hn it P w hstands
  obtain ⟨n, rfl, -⟩ := exists_level_below hn
  obtain ⟨r, v, hpull, hr, huses, hstands'⟩ :=
    exists_pull_ofTuple (h := (h.grant N).up n) hstands.1 (by rwa [Host.fuel_up])
  exact ⟨r, v, P, hpull, hr, huses.moves, subset_within _ _, hstands', hstands.2.spared huses⟩

theorem vertexId_twoVertices (edges : List (EdgeRecord Value Value)) :
    (twoVertices edges).vertexId ⟨0, 0⟩ = .str "a" ∧ (twoVertices edges).vertexId ⟨0, 1⟩ = .str "b" := by
  have hlist : ((twoVertices edges).graphAt 0).vertices.toList =
      [⟨(Value.str "a").spell, .str "a", none⟩, ⟨(Value.str "b").spell, .str "b", none⟩] := by
    change Dictionary.toList (Dictionary.put _ _ _ _) = _
    rw [Dictionary.put, Dictionary.toList_adjust, Dictionary.put, Dictionary.toList_adjust]
    rfl
  have hid : ∀ i, (twoVertices edges).vertexId ⟨0, i⟩ =
      .ofOption ((((twoVertices edges).graphAt 0).vertices.toList[i]?).map (·.name)) := by
    intro i
    rw [vertexId, Store.idAt?, Dictionary.entryAt?, Dictionary.toList, Array.getElem?_toList]
  rw [hid, hid, hlist]
  exact ⟨rfl, rfl⟩

/-- A vertex can be logged. -/
theorem exists_shallow {i : ℕ} {id : String} (hx : x.form = vertexNode 0 i)
    (hid : w.vertexId ⟨0, i⟩ = .str id) : ∃ r, World.shallow x w = .ok r w := by
  let lazy : (Value → M Rendered) → Value → M Rendered := fun _ _ => pure (.tagged "lazy" (.bool true))
  have hvertex : ∀ n m, renderTo lazy (n + 2) (.vertex ⟨0, i⟩ m) w = .ok (.tagged "v" (.str id)) w := by
    intro n m
    have hrender : renderTo lazy (n + 2) (.vertex ⟨0, i⟩ m) w =
        (do let r ← renderTo lazy (n + 1) (w.vertexId ⟨0, i⟩)
            pure (.tagged "v" r) : M Rendered) w := rfl
    rw [hrender, hid]
    rfl
  cases x with
  | vertex u m =>
      obtain rfl : u = ⟨0, i⟩ := by
        cases hx
        rfl
      exact ⟨_, hvertex 19998 m⟩
  | tracked e =>
      cases e with
      | plain y =>
          cases y with
          | vertex u m =>
              obtain rfl : u = ⟨0, i⟩ := by
                cases hx
                rfl
              exact ⟨_, Act.bind_of_ok (hvertex 19997 m)⟩
          | _ => cases hx
      | _ => cases hx
  | _ => cases hx

theorem vertexId_logged (hw : w.graphs = loggedWorld.graphs) {i : ℕ} (hi : i < 2) :
    w.vertexId ⟨0, i⟩ = .str (if i = 0 then "a" else "b") := by
  have hid : w.vertexId ⟨0, i⟩ = loggedWorld.vertexId ⟨0, i⟩ := by rw [vertexId, vertexId, graphAt_congr hw]
  rw [hid]
  obtain rfl | rfl : i = 0 ∨ i = 1 := by omega
  · exact (vertexId_twoVertices _).1
  · exact (vertexId_twoVertices _).2

/-- The key of a vertex is its id. -/
def idText (b : Node) : String := if placeOf b = 0 then "a" else "b"

/-- The function that gives the keys is called. -/
theorem exists_key {i : ℕ} (hi : i < 2) (hw : Logged k w) (hx : x.form = vertexNode 0 i) :
    ∃ v, ((h.up n).above.above).apply (.ref .function 0) [x] w = .ok (.str (idText (vertexNode 0 i))) v ∧
      Moves ∅ w v ∧ v.cursors = w.cursors ∧ Logged (k + 1) v := by
  obtain ⟨xs', marks, hhand, hxs⟩ := exists_mapM_handOut [x] w
  cases hxs with
  | @cons _ x' _ _ hhanded hnil =>
  cases hnil
  let u : World := { w with marks }
  have hx' : x'.form = vertexNode 0 i := hhanded.form_eq.trans hx
  have hid := vertexId_logged (w := u) hw.graphs hi
  obtain ⟨r, hshown⟩ := exists_shallow hx' hid
  have hfits : Fits 0 .vertex (vertexNode 0 i) := ⟨rfl, i, rfl⟩
  obtain ⟨j, m, hbase, hnode, -⟩ := vertexOf?_of_form hfits hx'
  cases hbase
  have hfunction : u.functions[0]? = some (.traced (.str "key") (.op .elementId)) := by
    rw [hw.functions]
    rfl
  let v : World := { u with log := u.log.push (.list [.str "key", r]) }
  have hidOf : v.idOf? x' = some (.str (idText (vertexNode 0 i))) := by
    rw [idOf?, hnode]
    exact congrArg some hid
  have hop : (h.up n).above.call (.op .elementId) [x'] [] v = .ok (.str (idText (vertexNode 0 i))) v := by
    have hnodeId : nodeId x' v = .ok (.str (idText (vertexNode 0 i))) v := by
      rw [nodeId, told, Act.bind_of_ok (m := get) rfl, hidOf]
      rfl
    exact (Act.bind_of_ok hnodeId).trans rfl
  have hcall : (h.up n).above.above.call (.ref .function 0) [x'] [] u =
      .ok (.str (idText (vertexNode 0 i))) v := by
    have hname : World.shallow (.str "key") u = .ok (.str "key") u := rfl
    have hargs : renderAll World.shallow [x'] u = .ok [r] u := by
      rw [renderAll, Act.bind_of_ok hshown]
      rfl
    change callOver (h.up n).above (.ref .function 0) [x'] [] u = _
    rw [callOver, Act.bind_of_ok (m := get) rfl]
    simp only [hfunction]
    exact (Act.bind_of_ok hname).trans ((Act.bind_of_ok hargs).trans hop)
  exact ⟨v, (Act.bind_of_ok hhand).trans hcall, ⟨rfl, Nat.le_refl _, fun _ _ _ => rfl⟩, rfl,
    by rw [Array.size_push, hw.log], hw.graphs, hw.functions, hw.bindings⟩

/-- A function of the program that takes the step. -/
theorem steps_logged (xs : List Value) : (Gauge.logged xs).Steps h 2 .outgoing .null (.ref .function 1) := by
  refine .of_forall fun N n hn it p P v x hstands H => ?_
  obtain ⟨m, rfl, hm⟩ := exists_level_below hn
  obtain ⟨l, rfl, -⟩ := exists_level_below hm
  have hfunction : v.functions[1]? = some (.closure ["v"] outExpr []) := by
    rw [hstands.2.functions]
    rfl
  change callOver ((h.grant N).up (l + 1)) (.ref .function 1) [x] [] v = _
  rw [callOver, Act.bind_of_ok (m := get) rfl]
  simp only [hfunction]
  let H' := (h.grant N).up (l + 1)
  let step : Op := .step { direction := .outgoing, gives := .vertices, grouped := false }
  have hout : nameValue [("v", x)] "out" (some (.op step)) v = .ok (.op step) v := by
    have hlookup : ([("v", x)] : Scope).lookup "out" = none := rfl
    rw [nameValue, Act.bind_of_ok (m := get) rfl, hlookup, hstands.2.bindings]
    rfl
  have hargs : evalAll H' [("v", x)] [.name "v" none, .literal .null] v = .ok [x, .null] v := rfl
  change eval H' [("v", x)] outExpr v = _
  rw [outExpr, eval, eval, Act.bind_of_ok hout, Act.bind_of_ok hargs]
  rfl

/-- The vertices to which the step leads. -/
theorem along_logged : loggedWorld.along .outgoing .null .vertices (vertexNode 0 0) =
      [vertexNode 0 1, vertexNode 0 0, vertexNode 0 1] ∧
    loggedWorld.along .outgoing .null .vertices (vertexNode 0 1) = [] := ⟨rfl, rfl⟩

theorem sortedOf_logged : sortedOf idText [vertexNode 0 1, vertexNode 0 0, vertexNode 0 1] =
    [vertexNode 0 0, vertexNode 0 1, vertexNode 0 1] := by
  have hfirst : idText (vertexNode 0 0) = "a" := rfl
  have hsecond : idText (vertexNode 0 1) = "b" := rfl
  have hle : ("a" : String) ≤ "b" := by decide
  have hnot : ¬("b" : String) ≤ "a" := by decide
  simp [sortedOf, List.mergeSort, List.MergeSort.Internal.splitInTwo, List.splitAt, List.splitAt.go, hfirst,
    hsecond, hle, hnot]

/-- A key is asked for. -/
theorem rates_logged (h : Host) (xs : List Value) (p : Extent)
    (hb : b ∈ [vertexNode 0 1, vertexNode 0 0, vertexNode 0 1]) (hn : 2 ≤ n) :
    (Gauge.logged xs).Rates .texts (h.up n) (.ref .function 0) idText p b := by
  obtain ⟨i, hi, rfl⟩ : ∃ i < 2, b = vertexNode 0 i := by
    simp only [List.mem_cons, List.not_mem_nil, or_false] at hb
    rcases hb with rfl | rfl | rfl
    · exact ⟨1, by decide, rfl⟩
    · exact ⟨0, by decide, rfl⟩
    · exact ⟨1, by decide, rfl⟩
  obtain ⟨m, rfl, hm⟩ := exists_level_below hn
  obtain ⟨l, rfl, -⟩ := exists_level_below hm
  rintro it P w x ⟨⟨hk, place, hit, rfl, hc⟩, hlogged⟩ hx
  obtain ⟨v, hkey, hmoves, hcursors, hlogged'⟩ := exists_key (h := h) (n := l) hi hlogged hx
  refine ⟨_, v, {place}, hkey, rfl, fun _ _ hranks => hranks, hmoves.mono (Set.empty_subset _), subset_within _ _,
    ⟨hk, place, hit, rfl, ?_⟩, ?_⟩
  · rw [hcursors]
    exact hc
  · rwa [List.length_append, List.length_singleton]

/-- The route is that of the first vertex, the second, and the first once more. -/
def revisited : List Value := [vertexAt 0 0, vertexAt 0 1, vertexAt 0 0]

theorem appraising_logged (h : Host) :
    Appraising h 2 (.logged revisited) (.ofList (revisited.map Value.form))
      (loggedWorld.along .outgoing .null .vertices) .texts (.ref .function 0) idText where
  reads := fount_logged h revisited
  rates k a ha b hb p := by
    have ha' : a ∈ [vertexNode 0 0, vertexNode 0 1, vertexNode 0 0] := List.mem_of_getElem? ha
    have hb' : b ∈ [vertexNode 0 1, vertexNode 0 0, vertexNode 0 1] := by
      simp only [List.mem_cons, List.not_mem_nil, or_false] at ha'
      rcases ha' with rfl | rfl | rfl
      · exact along_logged.1 ▸ hb
      · rw [along_logged.2] at hb
        exact (List.not_mem_nil hb).elim
      · exact along_logged.1 ▸ hb
    exact .of_forall fun N n hn => rates_logged _ _ p hb' hn
  quiet := by
    rintro it p P v u ⟨⟨hk, place, hit, rfl, hc⟩, hlogged⟩ hv
    exact ⟨⟨hk, place, hit, rfl, (hv.same place rfl).trans hc⟩, hlogged.quiet hv⟩

theorem begins_logged :
    ((Gauge.logged revisited).reading []).Begins (.tuple revisited none) ∅ loggedWorld := by
  have hlogged : Logged 0 loggedWorld := ⟨rfl, rfl, rfl, rfl⟩
  refine ⟨fun _ hi => hi.elim, fun v hv => ?_⟩
  refine ⟨_, _, {v.cursors.size}, iterateItems_eq .tuple revisited, (uses_push v _).moves,
    Set.singleton_subset_iff.2 (.inr (Nat.le_refl _)), ⟨Nat.zero_le _, _, rfl, rfl, Array.getElem?_push_size⟩, ?_⟩
  exact (hlogged.spared hv).spared (uses_push v _)

/-- While the route is open, the neighbours of the first vertex are read, and the key of each is asked for. -/
theorem exists_keys_logged :
    ∃ (r : ℕ) (u t : World) (kxs : List (Value × Value)) (rank : Value → WithBot String), Logged 0 u ∧
      Appraised (((host 0).grant 10).up 3) (.ref .function 0) (.ref .iterator r) kxs u t ∧
      t.RankedBy rank (kxs.map Prod.fst) ∧ kxs.length < (((host 0).grant 10).up 3).fuel ∧ Logged 3 t ∧
      ((sortedBy rank kxs).map Prod.snd).map Value.form = [vertexNode 0 0, vertexNode 0 1, vertexNode 0 1] := by
  let h := (host 0).grant 10
  let g := (Gauge.logged revisited).reading []
  obtain ⟨it, v, Q, -, hmoves, -, hstands⟩ := begins_logged.2 loggedWorld (.refl ∅ loggedWorld)
  have hkeyed : v.Keyed 0 := keyed_of_graphs hmoves.graphs_eq (keyed_twoVertices (by decide))
  have hfuel : (v.graphAt 0).edges.size + 2 ≤ h.fuel := by
    rw [graphAt_congr hmoves.graphs_eq]
    decide
  obtain ⟨r, u, F, -, hopens, hF, hhas, hit⟩ := exists_proceeding_step (h := h) (x := vertexAt 0 0) hkeyed
    ⟨rfl, 0, rfl⟩ rfl (rfl : v.labels? .null = some []) nofun hfuel (by decide)
    (rfl : Direction.outgoing.sides = _)
  have hnear : v.along .outgoing .null .vertices (vertexNode 0 0) =
      [vertexNode 0 1, vertexNode 0 0, vertexNode 0 1] := by
    rw [along_tuple (rfl : v.labels? .null = some []), along_congr hmoves.graphs_eq ⟨rfl, 0, rfl⟩]
    exact along_logged.1
  replace hit : Proceeds h 3 (.ref .iterator r) [vertexNode 0 1, vertexNode 0 0, vertexNode 0 1] F u := hnear ▸ hit
  have hapart : ∀ j ∈ F, j ∉ Q := fun j hj hmem =>
    (hF hj).elim id fun hle => Nat.not_le_of_lt (g.has hstands j hmem) hle
  obtain ⟨kxs, t, Q', hread, hkxs, hranks, -, -, -, hstands'⟩ :=
    exists_appraised (g.spared hstands (hopens.spares_of_new (g.has hstands))) hit hhas hapart (le_refl 3)
      fun j c hc => rates_logged h revisited _ (List.mem_of_getElem? hc) (by decide)
  have hranks' : ∀ l ∈ kxs.map Prod.fst, ∃ i, Scale.texts.ranks l i t := by
    intro l hl
    obtain ⟨p, hp, rfl⟩ := List.mem_map.1 hl
    exact ⟨_, hranks p hp⟩
  obtain ⟨rank, hranked, hrank⟩ := Scale.texts.exists_rankedBy hranks'
  refine ⟨r, u, t, kxs, rank, hstands.2.spared hopens, hread, hranked, ?_, hstands'.2, ?_⟩
  · rw [← List.length_map fun p : Value × Value => p.2.form, hkxs, Host.fuel_up]
    decide
  · rw [map_form_sortedBy fun p hp => hrank _ _ (hranks p hp), hkxs]
    exact sortedOf_logged

/-- The neighbours of the first vertex are sorted twice, and the function is called for each of them; the second
vertex has none. -/
theorem sorted_steps_logged :
    let w := loggedWorld
    let route : Value := .tuple revisited none
    let key : Value := .ref .function 0
    let g := Gauge.logged revisited
    let xs : Stream'.Seq Node := .ofList (revisited.map Value.form)
    let a := vertexNode 0 0
    let b := vertexNode 0 1
    w.Keyed 0 ∧ w.labels? .null = some [] ∧ Direction.outgoing ≠ .both ∧ OfGraph 0 xs ∧
      Appraising (host 0) 2 g xs (w.along .outgoing .null .vertices) .texts key idText ∧
      (g.reading []).Begins route ∅ w ∧ g.Steps (host 0) 2 .outgoing .null (.ref .function 1) ∧
      (∃ r u, (∀ H : Host, H.callOp (.sortedStep .outgoing) [route, .null, key] [] w = .ok r u) ∧
        ∀ᶠ N in atTop, ∀ m, 7 ≤ m →
          g.Finishes (((host 0).grant N).up m) r [a, b, b, a, b, b] (3, [b, a, b, b, a, b]) u) ∧
      (∃ r u, (∀ H : Host, H.callOp .sortedSections [route, key, .ref .function 1] [] w = .ok r u) ∧
        ∀ᶠ N in atTop, ∀ m, 7 ≤ m →
          g.Finishes (((host 0).grant N).up m) r [a, b, b, a, b, b] (3, [b, a, b, b, a, b]) u) ∧
      ∃ H coll v l t, Host.callOp H .sortBy [key, coll] [] v = .ok (.ref .list l) t ∧ Logged 0 v ∧ Logged 3 t ∧
        (t.listAt l).toList.map Value.form = [a, b, b] := by
  intro w route key g xs a b
  let near := w.along .outgoing .null .vertices
  have hkeyed : w.Keyed 0 := keyed_twoVertices (by decide)
  have hlabels : w.labels? .null = some [] := rfl
  have hls : ∀ l ∈ ([] : List Value), l.key?.isSome := nofun
  have hdirection : Direction.outgoing ≠ .both := by decide
  have hxs : OfGraph 0 xs := by
    intro k c hc
    have hc' : c ∈ [vertexNode 0 0, vertexNode 0 1, vertexNode 0 0] := List.mem_of_getElem? hc
    simp only [List.mem_cons, List.not_mem_nil, or_false] at hc'
    rcases hc' with rfl | rfl | rfl <;> exact ⟨rfl, _, rfl⟩
  have hroute := appraising_logged (host 0)
  obtain ⟨-, -, ⟨r, u, hcall, -, hsteps⟩, hsections, hsorts⟩ :=
    sorted_steps hkeyed hlabels hls hdirection hxs hroute begins_logged
  obtain ⟨r', u', hcall', -, hsteps'⟩ := hsections (.ref .function 1) (fun _ => rfl) (steps_logged _)
  have hall : ((xs.take 3).flatMap fun c => sortedOf idText (near c)) = [a, b, b, a, b, b] := by
    have htake : xs.take 3 = [a, b, a] := rfl
    rw [htake, List.flatMap_cons, List.flatMap_cons, List.flatMap_cons, List.flatMap_nil]
    rw [show near a = [b, a, b] from along_logged.1, show near b = [] from along_logged.2, sortedOf_logged]
    simp [sortedOf, a, b]
  have hasked : ((xs.take 3).length, (xs.take 3).flatMap near) = (3, [b, a, b, b, a, b]) := rfl
  refine ⟨hkeyed, hlabels, hdirection, hxs, hroute, begins_logged, steps_logged _, ⟨r, u, hcall, ?_⟩,
    ⟨r', u', hcall', ?_⟩, ?_⟩
  · rw [← hall, ← hasked]
    exact hsteps.finishes 3 rfl
  · rw [← hall, ← hasked]
    exact hsteps'.finishes 3 rfl
  · obtain ⟨r, u, t, kxs, rank, hu, hread, hranked, hfuel, ht, hforms⟩ := exists_keys_logged
    have hiterate : iterate (.ref .iterator r) u = .ok (.ref .iterator r) u := rfl
    obtain ⟨sorted, ys, marks, hsort, hys, hstable, -⟩ := hsorts hiterate hread hranked hfuel
    obtain rfl : sorted = sortedBy rank kxs := hstable.unique (stableSort_sortedBy rank kxs)
    refine ⟨_, _, u, _, _, hsort, hu, ⟨ht.log, ht.graphs, ht.functions, ht.bindings⟩, ?_⟩
    rw [← hforms, ← map_form_of_handed hys]
    simp [listAt]

end GraphRoutes.Session
