/-
**Collecting the edges of lineages.**

Whoever builds a graph from a route reads the lineage of each item from its root on.  An edge that is met
for the first time is copied with its vertices; one that was met before, under whatever layers and from
whichever side, is passed over, and so is every vertex.  So after any number of items the store in the
making is a copy of the edges that have been met, each once and in the order in which they were met first.

Main definitions:

* `GraphRoutes.Session.edgesOn` — the edges on the lineage of an element;
* `GraphRoutes.Session.World.Stores`, `GraphRoutes.Session.World.Owns`, `GraphRoutes.Session.World.Rooted` —
  the edges and the elements of a graph, and lineages that can be read;
* `GraphRoutes.Session.Register.plain` — a ledger without documents that are nothing;
* `GraphRoutes.Session.Gathered` — what a store in the making holds.

Main results:

* `GraphRoutes.Session.exists_facts` — an edge of a graph says what the ledger of the graph says;
* `GraphRoutes.Session.Gathered.absorb`, `GraphRoutes.Session.Gathered.absorbLineage` — **one more edge, and
  one more lineage, is collected**.
-/
import GraphRoutes.Proofs.Session.Calls
import GraphRoutes.Proofs.Session.Ways
import GraphRoutes.Proofs.Store.Excerpt

set_option relaxedAutoImplicit false
set_option autoImplicit false

namespace GraphRoutes.Session

open World
open Ledger (note)

/-! ### Elements of a graph -/

/-- The edge of a graph that is under all layers of an element. -/
def edgeUnder? (a : Node) : Option StoredEdge :=
  match a.base with
  | .edge (.stored _ e) _ => some e
  | _ => none

/-- The edges on the lineage of an element, from its root to the element, without their layers. -/
def edgesOn (x : Value) : List StoredEdge := (x.node.path?.getD []).filterMap edgeUnder?

/-- A graph has an edge: there is a record of it with these vertices. -/
def World.Stores (w : World) (graph : ℕ) (e : StoredEdge) : Prop :=
  ∃ r, (w.graphAt graph).edges[e.index]? = some r ∧ r.source = e.source ∧ r.target = e.target

/-- An element of a graph, in any number of layers. -/
inductive World.Owns (w : World) (graph : ℕ) (a : Node) : Prop
  | vertex {i : ℕ} {m : Mark} (ha : a.base = .vertex ⟨graph, i⟩ m) : Owns w graph a
  | edge {e : StoredEdge} {m : Mark} (ha : a.base = .edge (.stored graph e) m)
      (he : w.Stores graph e) : Owns w graph a

/-- The lineage of an element can be read, and all of its items are elements of a graph. -/
def World.Rooted (w : World) (graph : ℕ) (x : Value) : Prop :=
  ∃ items, x.node.path? = some items ∧ ∀ a ∈ items, w.Owns graph a

/-! ### What an edge says -/

/-- Nothing instead of a document that is nothing. -/
def plainDocument (document : Option Value) : Option Value := (Value.ofOption document).notNull

/-- A ledger without documents that are nothing. -/
def Register.plain (L : Register) : Register where
  vertices := L.vertices.map fun v => (v.1, plainDocument v.2)
  edges := L.edges.map fun l => { l with document := plainDocument l.document }

@[simp] theorem ofOption_plainDocument (document : Option Value) :
    Value.ofOption (plainDocument document) = .ofOption document := by
  rcases document with _ | v
  · rfl
  · cases v <;> rfl

theorem Register.map_key?_plain (L : Register) :
    L.plain.vertices.map (fun v => v.1.key?) = L.vertices.map fun v => v.1.key? := by
  rw [plain, List.map_map]
  rfl

variable {w u : World} {graph i : ℕ} {g : Graph} {L N : Register} {e : StoredEdge} {es : List StoredEdge}
  {x : Value} {a : Node} {as : List Node}

/-- The facts about an edge, one after the other. -/
theorem facts?_stored (w : World) (graph : ℕ) (e : StoredEdge) :
    w.facts? (.stored graph e) = (do
      let document ← w.documentOf? (.edge (.stored graph e) none)
      return {
        source := ← w.idOf? (.vertex ⟨graph, e.source⟩ none)
        sourceDocument := (← w.documentOf? (.vertex ⟨graph, e.source⟩ none)).notNull
        target := ← w.idOf? (.vertex ⟨graph, e.target⟩ none)
        targetDocument := (← w.documentOf? (.vertex ⟨graph, e.target⟩ none)).notNull
        label := w.edgeLabel (.stored graph e), document := document.notNull }) := rfl

/-- **An edge of a graph says what the ledger of the graph says**, of itself and of its vertices. -/
theorem exists_facts (hg : w.graphs[graph]? = some g) (hshows : g.Shows Value.key? L)
    (he : w.Stores graph e) :
    ∃ f, w.facts? (.stored graph e) = some f ∧ L.plain.Describes e.source e.target f ∧
      L.plain.edges[e.index]? = some ⟨f.source, f.target, f.label, f.document⟩ := by
  obtain ⟨r, hr, hsource, htarget⟩ := he
  rw [graphAt_eq hg] at hr
  -- the record of the edge stands in the ledger, and so do its vertices
  obtain ⟨l, hl, hrecords⟩ : ∃ l, L.edges[e.index]? = some l ∧ L.Records r l := by
    obtain ⟨hlt, rfl⟩ := Array.getElem?_eq_some_iff.1 hr
    have hlt' : e.index < L.edges.length := hshows.edges.length_eq ▸ hlt
    exact ⟨_, List.getElem?_eq_getElem hlt', hshows.edges.get hlt hlt'⟩
  obtain ⟨⟨source, sourceDocument⟩, hs, hsourceId⟩ := Option.map_eq_some_iff.1 hrecords.source
  obtain ⟨⟨target, targetDocument⟩, ht, htargetId⟩ := Option.map_eq_some_iff.1 hrecords.target
  rw [hsource] at hs
  rw [htarget] at ht
  have hlabel : w.edgeLabel (.stored graph e) = r.label :=
    edgeLabel_of_getElem? (graphAt_eq hg ▸ hr)
  refine ⟨⟨source, plainDocument sourceDocument, target, plainDocument targetDocument, r.label,
    plainDocument r.document⟩, ?_, ⟨?_, ?_⟩, ?_⟩
  · rw [facts?_stored, documentOf?_edge hg hr, idOf?_of_shows hg hshows hs, idOf?_of_shows hg hshows ht,
      documentOf?_of_shows hg hshows hs, documentOf?_of_shows hg hshows ht, hlabel]
    rfl
  · rw [Register.plain, List.getElem?_map, hs]
    rfl
  · rw [Register.plain, List.getElem?_map, ht]
    rfl
  · rw [Register.plain, List.getElem?_map, hl, Option.map_some, hrecords.label, hrecords.document]
    cases l
    cases hsourceId
    cases htargetId
    rfl

/-! ### A store in the making -/

/-- The positions of the vertices of the edge at a position. -/
def Graph.endsAt (g : Graph) (k : ℕ) : List ℕ :=
  match g.edges[k]? with
  | some r => [r.source, r.target]
  | none => []

/-- The positions of the edges that have been met, each once and in the order in which they were met first. -/
def metOf (es : List StoredEdge) : List ℕ := (es.map (·.index)).eraseDups

/-- The positions of the vertices of edges, each once and in the order in which the edges mention them. -/
def Graph.mentionedBy (g : Graph) (ks : List ℕ) : List ℕ := (ks.flatMap g.endsAt).eraseDups

/-- A store in the making holds a copy of the edges `es` of a graph `g`, and knows which these are. -/
structure Gathered (graph : ℕ) (g : Graph) (N : Register) (es : List StoredEdge)
    (made : Gathering Value Key Value Value Token) : Prop where
  isOpen : made.store.isSealed = false
  seen : ∀ e : StoredEdge, made.seen.contains (EdgeRef.key (.stored graph e)) = true ↔
    e.index ∈ es.map (·.index)
  copies : ∃ M ls, made.store.Shows Value.key? M ∧ N.Excerpt (g.mentionedBy (metOf es)) ls M ∧
    ls.map some = (metOf es).map (N.edges[·]?)

theorem gathered_nil (graph : ℕ) (g : Graph) (N : Register) : Gathered graph g N [] {} where
  isOpen := rfl
  seen e := by simp
  copies := ⟨{}, [], Store.shows_empty, ⟨rfl, rfl⟩, rfl⟩

theorem metOf_concat (es : List StoredEdge) (e : StoredEdge) :
    metOf (es ++ [e]) = note e.index (metOf es) := by
  rw [metOf, List.map_append]
  exact Ledger.eraseDups_concat _ _

theorem mem_metOf : i ∈ metOf es ↔ i ∈ es.map (·.index) := List.mem_eraseDups

theorem mentionedBy_concat (ks : List ℕ) {k s t : ℕ} (hk : g.endsAt k = [s, t]) :
    g.mentionedBy (ks ++ [k]) = note t (note s (g.mentionedBy ks)) := by
  rw [Graph.mentionedBy, Graph.mentionedBy, List.flatMap_append, List.flatMap_singleton, hk,
    ← Ledger.eraseDups_concat, ← Ledger.eraseDups_concat, List.append_assoc]
  rfl

/-- An edge that has been met is passed over. -/
theorem Gathered.of_seen {made : Gathering Value Key Value Value Token} (hmade : Gathered graph g N es made)
    (he : e.index ∈ es.map (·.index)) : Gathered graph g N (es ++ [e]) made := by
  have hmet : metOf (es ++ [e]) = metOf es := by
    rw [metOf_concat, Ledger.note_of_mem (mem_metOf.2 he)]
  refine ⟨hmade.isOpen, fun f => ?_, by rw [hmet]; exact hmade.copies⟩
  rw [hmade.seen, List.map_append, List.mem_append]
  refine ⟨.inl, fun h => h.elim id fun hf => ?_⟩
  rw [List.mem_singleton.1 hf]
  exact he

/-- **One more edge is collected**, unless it is there. -/
theorem Gathered.absorb {made : Gathering Value Key Value Value Token} (hg : w.graphs[graph]? = some g)
    (hshows : g.Shows Value.key? L) (hmade : Gathered graph g L.plain es made) (he : w.Stores graph e) :
    ∃ f made', w.facts? (.stored graph e) = some f ∧
      made.absorb Value.key? (EdgeRef.key (.stored graph e)) f = .ok made' ∧
      Gathered graph g L.plain (es ++ [e]) made' := by
  obtain ⟨f, hfacts, hdescribes, hedge⟩ := exists_facts hg hshows he
  refine ⟨f, ?_⟩
  cases hseen : made.seen.contains (EdgeRef.key (.stored graph e)) with
  | true =>
      refine ⟨made, hfacts, ?_, hmade.of_seen ((hmade.seen e).1 hseen)⟩
      rw [Gathering.absorb, if_pos hseen]
  | false =>
      have hnew : e.index ∉ metOf es := by
        rw [mem_metOf, ← hmade.seen, hseen]
        exact Bool.false_ne_true
      obtain ⟨M, ls, hM, hexcerpt, hls⟩ := hmade.copies
      have hdistinct : (L.plain.vertices.map fun v => v.1.key?).Nodup := by
        rw [Register.map_key?_plain]
        exact hshows.pairwise_ne
      have hkeyed : ∀ v ∈ L.plain.vertices, v.1.key?.isSome := by
        intro v hv
        obtain ⟨x, hx, rfl⟩ := List.mem_map.1 hv
        rw [hshows.vertices] at hx
        obtain ⟨y, hy, rfl⟩ := List.mem_map.1 hx
        rw [hshows.keyed y hy]
        rfl
      obtain ⟨s', M', hadd, hopen, hM', hexcerpt'⟩ :=
        hM.addFacts hdistinct hkeyed hmade.isOpen hexcerpt hdescribes
      refine ⟨{ store := s', seen := made.seen.insert (EdgeRef.key (.stored graph e)) }, hfacts, ?_, hopen,
        fun k => ?_, M', ls ++ [⟨f.source, f.target, f.label, f.document⟩], hM', ?_, ?_⟩
      · rw [Gathering.absorb, hseen, if_neg Bool.false_ne_true, hadd]
      · rw [Std.HashSet.contains_insert, Bool.or_eq_true, beq_iff_eq, hmade.seen, List.map_append,
          List.mem_append, or_comm]
        simp [EdgeRef.key, eq_comm]
      · have hends : g.endsAt e.index = [e.source, e.target] := by
          obtain ⟨r, hr, hsource, htarget⟩ := he
          rw [graphAt_eq hg] at hr
          simp only [Graph.endsAt, hr, hsource, htarget]
        rw [metOf_concat, note, if_neg hnew, mentionedBy_concat _ hends]
        exact hexcerpt'
      · rw [metOf_concat, note, if_neg hnew, List.map_append, List.map_append, hls]
        exact congrArg _ (congrArg (· :: []) hedge.symm)

/-! ### Lineages -/

/-- What an element holds without any layer. -/
theorem stripAll_ofNode (a : Node) : (Value.ofNode a).stripAll = a.base.stripAll := by
  cases a with
  | plain => rfl
  | root | via => exact Value.stripNode_eq _

/-- One more item of a lineage. -/
theorem Gathered.absorbItem {made : Gathering Value Key Value Value Token}
    (hg : w.graphs[graph]? = some g) (hshows : g.Shows Value.key? L)
    (hmade : Gathered graph g L.plain es made) (ha : w.Owns graph a) :
    ∃ made', absorbItem made (.ofNode a) w = .ok made' w ∧
      Gathered graph g L.plain (es ++ (edgeUnder? a).toList) made' := by
  cases ha with
  | vertex ha =>
      refine ⟨made, ?_, ?_⟩
      · rw [Session.absorbItem, stripAll_ofNode, ha]
        rfl
      · rw [edgeUnder?, ha, Option.toList_none, List.append_nil]
        exact hmade
  | @edge e m ha he =>
      obtain ⟨f, made', hfacts, habsorb, hmade'⟩ := hmade.absorb hg hshows he
      have htold : told (fun w => w.facts? (.stored graph e)) w = .ok f w := by
        rw [told, Act.bind_of_ok (m := get) rfl, hfacts]
        rfl
      refine ⟨made', ?_, ?_⟩
      · rw [Session.absorbItem, stripAll_ofNode, ha]
        refine (Act.bind_of_ok htold).trans ?_
        simp only [habsorb]
        rfl
      · rw [edgeUnder?, ha]
        exact hmade'

/-- **One more lineage is collected**, from its root to the element. -/
theorem Gathered.absorbLineage {made : Gathering Value Key Value Value Token}
    (hg : w.graphs[graph]? = some g) (hshows : g.Shows Value.key? L)
    (hmade : Gathered graph g L.plain es made) (hx : w.Rooted graph x) :
    ∃ made', absorbLineage made x w = .ok made' w ∧ Gathered graph g L.plain (es ++ edgesOn x) made' := by
  obtain ⟨items, hitems, howns⟩ := hx
  have hfold : ∃ made', (items.map Value.ofNode).foldlM Session.absorbItem made w = .ok made' w ∧
      Gathered graph g L.plain (es ++ items.filterMap edgeUnder?) made' := by
    clear hitems
    induction items generalizing es made with
    | nil => exact ⟨made, rfl, by rw [List.filterMap_nil, List.append_nil]; exact hmade⟩
    | cons a items ih =>
        rw [List.forall_mem_cons] at howns
        obtain ⟨made₁, hitem, hmade₁⟩ := hmade.absorbItem hg hshows howns.1
        obtain ⟨made₂, hrest, hmade₂⟩ := ih hmade₁ howns.2
        refine ⟨made₂, ?_, ?_⟩
        · rw [List.map_cons, List.foldlM_cons, Act.bind_of_ok hitem, hrest]
        · rw [List.append_assoc] at hmade₂
          cases hunder : edgeUnder? a with
          | none =>
              rw [hunder] at hmade₂
              rwa [List.filterMap_cons_none hunder]
          | some e =>
              rw [hunder] at hmade₂
              rwa [List.filterMap_cons_some hunder]
  obtain ⟨made', hfold, hmade'⟩ := hfold
  have hlineage : lineage x w = .ok (items.map Value.ofNode) w := by
    rw [lineage, hitems]
    rfl
  refine ⟨made', (Act.bind_of_ok hlineage).trans hfold, ?_⟩
  rw [edgesOn, hitems]
  exact hmade'

end GraphRoutes.Session
