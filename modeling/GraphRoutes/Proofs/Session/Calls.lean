/-
**Calls that build a graph write its ledger.**

A session changes a graph by five calls.  Two of them take many vertices or edges at once, as the entries
of any sequence; they are the single calls, one for each entry, as the entries are read.  Reading an
entry may do anything, as long as it leaves the graph alone and does not depend on it: then a call
writes into the ledger of the graph what its entries say.

A call fails only if it sets the document of a vertex that was never mentioned; then it changes nothing
at all.

Main definitions:

* `GraphRoutes.Session.World.Shows` — the graph at a place keeps a ledger;
* `GraphRoutes.Session.Feeds` — the entries of a sequence, as they are read by a call;
* `GraphRoutes.Session.Call` — the calls;
* `GraphRoutes.Session.Call.Makes` — what a call writes;
* `GraphRoutes.Session.Built` — a world in which calls have built a graph.

Main results:

* `GraphRoutes.Session.foldFrom_feeds` — a loop that reads entries and writes each of them;
* `GraphRoutes.Session.Call.Makes.perform` — **what a call does**;
* `GraphRoutes.Session.Built.shows` — **a graph keeps the ledger that its calls have written**;
* `GraphRoutes.Session.feeds_collection` — the entries of a collection at hand.
-/
import GraphRoutes.Proofs.Session.Reading
import GraphRoutes.Proofs.Store.Ledger

set_option relaxedAutoImplicit false
set_option autoImplicit false

namespace GraphRoutes.Session

open Ledger (Change after)

/-- The ledgers of graphs. -/
abbrev Register : Type := Ledger Value Value Value

/-- The graph at a place is not sealed, and keeps a ledger. -/
def World.Shows (w : World) (graph : ℕ) (L : Register) : Prop :=
  ∃ g, w.graphs[graph]? = some g ∧ g.isSealed = false ∧ g.Shows Value.key? L

/-- The world with another graph at a place. -/
def World.withGraph (w : World) (graph : ℕ) (g : Graph) : World :=
  { w with graphs := w.graphs.setIfInBounds graph g }

variable {h : Host} {w v : World} {graph : ℕ} {L : Register}

namespace World

theorem Shows.congr (hw : w.Shows graph L) (hv : v.graphs[graph]? = w.graphs[graph]?) :
    v.Shows graph L := by
  rw [Shows, hv]
  exact hw

theorem shows_withGraph {g₀ g : Graph} (hw : w.graphs[graph]? = some g₀) (hopen : g.isSealed = false)
    (hg : g.Shows Value.key? L) : (w.withGraph graph g).Shows graph L :=
  ⟨g, Array.getElem?_setIfInBounds_self_of_lt (Array.getElem?_eq_some_iff.1 hw).1, hopen, hg⟩

/-! ### What elements of a graph say -/

section

variable {g : Graph} {i : ℕ} {id : Value} {x : Value × Option Value} {e : StoredEdge} {r : EdgeRecord Value Value}

theorem graphAt_eq (hg : w.graphs[graph]? = some g) : w.graphAt graph = g := by
  rw [graphAt, hg, Option.getD_some]

theorem idOf?_vertex (hg : w.graphs[graph]? = some g) (hid : g.idAt? i = some id) (m : Mark) :
    w.idOf? (.vertex ⟨graph, i⟩ m) = some id := by
  change some (Value.ofOption ((w.graphAt graph).idAt? i)) = _
  rw [graphAt_eq hg, hid]
  rfl

/-- A vertex has the id that the ledger of its graph says. -/
theorem idOf?_of_shows (hg : w.graphs[graph]? = some g) (hshows : g.Shows Value.key? L)
    (hx : L.vertices[i]? = some x) (m : Mark) : w.idOf? (.vertex ⟨graph, i⟩ m) = some x.1 :=
  idOf?_vertex hg ((hshows.idAt?_eq i).trans (congrArg (Option.map Prod.fst) hx)) m

/-- A vertex has the document that the ledger of its graph says. -/
theorem documentOf?_of_shows (hg : w.graphs[graph]? = some g) (hshows : g.Shows Value.key? L)
    (hx : L.vertices[i]? = some x) (m : Mark) : w.documentOf? (.vertex ⟨graph, i⟩ m) = some (.ofOption x.2) := by
  change some (Value.ofOption ((w.graphAt graph).documentAt? i)) = _
  rw [graphAt_eq hg, hshows.documentAt?_eq, hx]
  rfl

/-- An edge has the document of its record. -/
theorem documentOf?_edge (hg : w.graphs[graph]? = some g) (hr : g.edges[e.index]? = some r) (m : Mark) :
    w.documentOf? (.edge (.stored graph e) m) = some (.ofOption r.document) := by
  change some (Value.ofOption ((w.graphAt graph).edges[e.index]?.bind (·.document))) = _
  rw [graphAt_eq hg, hr]
  rfl

end

/-! ### Editing a graph -/

variable {α : Type} {edit : Store.Edit Value Key Value Value α} {unknown : M Fault}

/-- An edit that gives a result leaves the graph that it has made. -/
theorem editGraph_of_ok {g₀ g : Graph} {a : α} (hw : w.graphs[graph]? = some g₀)
    (hedit : edit g₀ = .ok a g) :
    editGraph graph unknown edit w = .ok a (w.withGraph graph g) := by
  simp only [editGraph, graphAt_eq hw, hedit, withGraph, Array.setIfInBounds_setIfInBounds]

/-- An edit that finds no vertex fails, and leaves the world as it was if it has left the graph so. -/
theorem editGraph_of_unknown {g₀ : Graph} {e : Fault} (hw : w.graphs[graph]? = some g₀)
    (hedit : edit g₀ = .error .unknown g₀)
    (hunknown : unknown w = .ok e w ∨ unknown w = .error e w) :
    editGraph graph unknown edit w = .error e w := by
  have hback : w.graphs.setIfInBounds graph g₀ = w.graphs := by
    obtain ⟨hlt, hget⟩ := Array.getElem?_eq_some_iff.1 hw
    rw [← hget, Array.setIfInBounds, dif_pos hlt, Array.set_getElem_self]
  simp only [editGraph, graphAt_eq hw, hedit, Array.setIfInBounds_setIfInBounds, hback]
  rcases hunknown with hunknown | hunknown
  · exact (Act.bind_of_ok hunknown).trans rfl
  · exact Act.bind_of_error hunknown

end World

open World

/-! ### Single calls -/

/-- An action writes a change: whatever ledger the graph keeps, the action replaces the graph, and
nothing else, by one that keeps the changed ledger. -/
def Writes {α : Type} (graph : ℕ) (m : M α) (c : Change Value Value Value) : Prop :=
  ∀ w L, World.Shows w graph L → ∃ a g, m w = .ok a (w.withGraph graph g) ∧
    (w.withGraph graph g).Shows graph (L.after Value.key? c)

theorem writes_addVertex {id : Value} (hid : id.key?.isSome) (document : Value) :
    Writes graph (addVertex graph id document) (.mention id document.notNull) := by
  rintro w L ⟨g, hg, hopen, hshows⟩
  obtain ⟨k, hk⟩ := Option.isSome_iff_exists.1 hid
  obtain ⟨i, g', hadd, hopen', hshows', -⟩ := hshows.addVertex hopen hk document.notNull
  refine ⟨vertexAt graph i, g', ?_, shows_withGraph hg hopen' hshows'⟩
  rw [addVertex, Act.bind_of_ok (editGraph_of_ok hg hadd)]
  rfl

theorem writes_addEdge {source target : Value} (hsource : source.key?.isSome)
    (htarget : target.key?.isSome) (label document : Value) :
    Writes graph (addEdge graph source target label document)
      (.link source target label document.notNull) := by
  rintro w L ⟨g, hg, hopen, hshows⟩
  obtain ⟨e, g', hadd, hopen', hshows'⟩ :=
    hshows.addEdge hopen hsource htarget label document.notNull
  refine ⟨.edge (.stored graph e) none, g', ?_, shows_withGraph hg hopen' hshows'⟩
  rw [addEdge, Act.bind_of_ok (editGraph_of_ok hg hadd)]
  rfl

/-- Telling that an id is unknown, or failing to tell, leaves the world alone. -/
theorem exists_unknownId (w : World) (id : Value) :
    ∃ e, unknownId id w = .ok e w ∨ unknownId id w = .error e w := by
  cases htext : w.display id with
  | ok text =>
      refine ⟨.notFound text, .inl ?_⟩
      simp only [unknownId, displayed, look, bind, EStateM.bind, htext]
      rfl
  | error e =>
      refine ⟨e, .inr ?_⟩
      simp only [unknownId, displayed, look, bind, EStateM.bind, htext]

/-- An id that was never mentioned is refused; nothing changes. -/
theorem setDocument_unknown (hw : w.Shows graph L) {id : Value} (hid : id.key?.isSome)
    (hnone : (L.find? Value.key? id).isSome = false) (document : Value) :
    ∃ e, setDocument graph id document w = .error e w := by
  obtain ⟨g, hg, hopen, hshows⟩ := hw
  obtain ⟨k, hk⟩ := Option.isSome_iff_exists.1 hid
  have hedit := hshows.setDocument_unknown hopen hk hnone document.notNull
  obtain ⟨e, he⟩ := exists_unknownId w id
  refine ⟨e, ?_⟩
  rw [setDocument]
  exact Act.bind_of_error (editGraph_of_unknown hg hedit he)

theorem setDocument_known (hw : w.Shows graph L) {id : Value} (hid : id.key?.isSome)
    (hsome : (L.find? Value.key? id).isSome) (document : Value) :
    ∃ a g, setDocument graph id document w = .ok a (w.withGraph graph g) ∧
      (w.withGraph graph g).Shows graph (L.rewrite Value.key? id document.notNull) := by
  obtain ⟨g, hg, hopen, hshows⟩ := hw
  obtain ⟨k, hk⟩ := Option.isSome_iff_exists.1 hid
  obtain ⟨g', hset, hopen', hshows'⟩ := hshows.setDocument hopen hk hsome document.notNull
  refine ⟨.null, g', ?_, shows_withGraph hg hopen' hshows'⟩
  rw [setDocument, Act.bind_of_ok (editGraph_of_ok hg hset)]
  rfl

/-! ### Calls with many entries -/

/-- The entries `as` of a sequence, as a call reads them: each is drawn from the iterator and decoded,
which leaves the graph alone, and what becomes of the graph after that does not matter to the rest. -/
inductive Feeds {α : Type} (h : Host) (graph : ℕ) (decode : Value → M α) (it : Value) :
    List α → World → Prop
  | ended {w v : World} (hpull : h.pull it w = .ok none v)
      (hgraph : v.graphs[graph]? = w.graphs[graph]?) : Feeds h graph decode it [] w
  | entry {w v u : World} {x : Value} {a : α} {as : List α} (hpull : h.pull it w = .ok (some x) v)
      (hdecode : decode x v = .ok a u) (hgraph : u.graphs[graph]? = w.graphs[graph]?)
      (hrest : ∀ g, Feeds h graph decode it as (u.withGraph graph g)) :
      Feeds h graph decode it (a :: as) w

/-- **A loop that reads entries and writes each of them** writes all of them, in order. -/
theorem foldFrom_feeds {α β : Type} {decode : Value → M α} {it : Value} {as : List α}
    {edit : α → M β} {change : α → Change Value Value Value} {body : β → Value → M β}
    (hbody : ∀ b x, body b x = decode x >>= edit)
    (hedit : ∀ a ∈ as, Writes graph (edit a) (change a)) (hfeeds : Feeds h graph decode it as w)
    (hw : w.Shows graph L) {n : ℕ} (hn : as.length < n) (b : β) :
    ∃ b' v, h.foldFrom body it n b w = .ok b' v ∧
      v.Shows graph ((as.map change).foldl (after Value.key?) L) := by
  induction as generalizing w L n b with
  | nil =>
      obtain ⟨n, rfl⟩ := Nat.exists_eq_succ_of_ne_zero (Nat.ne_of_gt hn)
      obtain ⟨hpull, hgraph⟩ := hfeeds
      refine ⟨b, _, ?_, hw.congr hgraph⟩
      rw [Host.foldFrom, Act.bind_of_ok hpull]
      rfl
  | cons a as ih =>
      obtain ⟨n, rfl⟩ := Nat.exists_eq_succ_of_ne_zero (Nat.ne_of_gt (Nat.zero_lt_of_lt hn))
      obtain ⟨⟩ | ⟨hpull, hdecode, hgraph, hrest⟩ := hfeeds
      -- the rest of the entries is fed whatever the write has made of the graph
      obtain ⟨b', g, hwrite, hw'⟩ := hedit a List.mem_cons_self _ L (hw.congr hgraph)
      obtain ⟨b'', v, hfold, hv⟩ := ih (fun x hx => hedit x (List.mem_cons_of_mem a hx)) (hrest g)
        hw' (Nat.lt_of_succ_lt_succ hn) b'
      refine ⟨b'', v, ?_, hv⟩
      rw [Host.foldFrom, Act.bind_of_ok hpull]
      refine (Act.bind_of_ok ?_).trans hfold
      rw [hbody, Act.bind_of_ok hdecode, hwrite]

/-- An entry of a call that adds vertices: an id and a document. -/
def Host.readPair (h : Host) (pair : Value) : M (Value × Value) := do
  match ← h.unpack 2 pair with
  | [id, document] => pure (id, document)
  | _ => throw .badValue

/-- An entry of a call that adds edges: two ids, and perhaps a document. -/
def Host.readEnds (h : Host) (entry : Value) : M (Value × Value × Value) := do
  match ← size entry with
  | .int 2 => do
    match ← h.unpack 2 entry with
    | [source, target] => pure (source, target, .null)
    | _ => throw .badValue
  | .int 3 => do
    match ← h.unpack 3 entry with
    | [source, target, document] => pure (source, target, document)
    | _ => throw .badValue
  | _ => do
    let text ← displayed entry
    throw (.invalid (.edgeEntry text))

theorem readPair_bind (h : Host) (graph : ℕ) (pair : Value) :
    (do
      match ← h.unpack 2 pair with
      | [id, document] => addVertex graph id document
      | _ => throw .badValue : M Value) =
      h.readPair pair >>= fun p => addVertex graph p.1 p.2 := by
  rw [Host.readPair, bind_assoc]
  refine congrArg (h.unpack 2 pair >>= ·) (funext fun xs => ?_)
  rcases xs with _ | ⟨a, _ | ⟨b, _ | ⟨c, xs⟩⟩⟩ <;> rfl

theorem readEnds_bind (h : Host) (graph : ℕ) (label entry : Value) :
    (do
      match ← size entry with
      | .int 2 => do
        match ← h.unpack 2 entry with
        | [source, target] => addEdge graph source target label .null
        | _ => throw .badValue
      | .int 3 => do
        match ← h.unpack 3 entry with
        | [source, target, document] => addEdge graph source target label document
        | _ => throw .badValue
      | _ => do
        let text ← displayed entry
        throw (.invalid (.edgeEntry text)) : M Value) =
      h.readEnds entry >>= fun e => addEdge graph e.1 e.2.1 label e.2.2 := by
  rw [Host.readEnds, bind_assoc]
  refine congrArg (size entry >>= ·) (funext fun n => ?_)
  split
  · rw [bind_assoc]
    refine congrArg (h.unpack 2 entry >>= ·) (funext fun xs => ?_)
    rcases xs with _ | ⟨a, _ | ⟨b, _ | ⟨c, xs⟩⟩⟩ <;> rfl
  · rw [bind_assoc]
    refine congrArg (h.unpack 3 entry >>= ·) (funext fun xs => ?_)
    rcases xs with _ | ⟨a, _ | ⟨b, _ | ⟨c, _ | ⟨d, xs⟩⟩⟩⟩ <;> rfl
  · rw [bind_assoc]
    rfl

/-! ### Calls -/

/-- The calls that build a graph. -/
inductive Call where
  | addVertex (id document : Value)
  | addVertices (pairs : Value)
  | setDocument (id document : Value)
  | addEdge (source target label document : Value)
  | addEdges (label entries : Value)

namespace Call

/-- The member that is called. -/
def member : Call → Member
  | addVertex _ _ => .addVertex
  | addVertices _ => .addVertices
  | setDocument _ _ => .setDocument
  | addEdge _ _ _ _ => .addEdge
  | addEdges _ _ => .addEdges

/-- The arguments of a call. -/
def arguments : Call → List Value
  | addVertex id document | setDocument id document => [id, document]
  | addVertices pairs => [pairs]
  | addEdge source target label document => [source, target, label, document]
  | addEdges label entries => [label, entries]

/-- Performs a call of a graph. -/
def perform (h : Host) (graph : ℕ) (c : Call) : M Value :=
  h.callMember c.member (.ref .graph graph) c.arguments []

/-- What a call writes: ids and labels have keys, and the entries of a call with many entries can be
read, however many there are. -/
inductive Makes (h : Host) (graph : ℕ) (w : World) : Call → List (Change Value Value Value) → Prop
  | addVertex {id document : Value} (hid : id.key?.isSome) :
      Makes h graph w (.addVertex id document) [.mention id document.notNull]
  | addVertices {pairs it : Value} {v : World} {ps : List (Value × Value)}
      (hiterate : iterate pairs w = .ok it v) (hgraph : v.graphs[graph]? = w.graphs[graph]?)
      (hfeeds : Feeds h graph h.readPair it ps v) (hfuel : ps.length < h.fuel)
      (hids : ∀ p ∈ ps, p.1.key?.isSome) :
      Makes h graph w (.addVertices pairs) (ps.map fun p => .mention p.1 p.2.notNull)
  | setDocument {id document : Value} (hid : id.key?.isSome) :
      Makes h graph w (.setDocument id document) [.rewrite id document.notNull]
  | addEdge {source target label document : Value} (hsource : source.key?.isSome)
      (htarget : target.key?.isSome) (hlabel : label.key?.isSome) :
      Makes h graph w (.addEdge source target label document)
        [.link source target label document.notNull]
  | addEdges {label entries it : Value} {v : World} {es : List (Value × Value × Value)}
      (hiterate : iterate entries w = .ok it v) (hgraph : v.graphs[graph]? = w.graphs[graph]?)
      (hfeeds : Feeds h graph h.readEnds it es v) (hfuel : es.length < h.fuel)
      (hids : ∀ e ∈ es, e.1.key?.isSome ∧ e.2.1.key?.isSome) (hlabel : label.key?.isSome) :
      Makes h graph w (.addEdges label entries)
        (es.map fun e => .link e.1 e.2.1 label e.2.2.notNull)

/-- A call that is refused: it sets the document of a vertex that was never mentioned. -/
def Refused (L : Register) (c : Call) : Prop :=
  ∃ id document, c = .setDocument id document ∧ (L.find? Value.key? id).isSome = false

end Call

/-- What a member gives is handed out. -/
theorem perform_of_ok {c : Call} {m : M Value} {r : Value}
    (hc : c.perform h graph = (do
      let r ← m
      handOut r)) (hm : m w = .ok r v) (hv : v.Shows graph L) :
    ∃ r' u, c.perform h graph w = .ok r' u ∧ u.Shows graph L := by
  obtain ⟨r', marks, hout, -⟩ := exists_handOut r v
  refine ⟨r', _, ?_, hv.congr (v := { v with marks }) rfl⟩
  rw [hc, Act.bind_of_ok hm, hout]

/-- **What a call does**: it writes its changes, unless it is refused; then it fails, and the world stays
as it was. -/
theorem Call.Makes.perform {c : Call} {ds : List (Change Value Value Value)}
    (hc : c.Makes h graph w ds) (hw : w.Shows graph L) :
    (c.Refused L ∧ ∃ e, c.perform h graph w = .error e w) ∨
      (¬c.Refused L ∧ ∃ r v, c.perform h graph w = .ok r v ∧
        v.Shows graph (ds.foldl (after Value.key?) L)) := by
  cases hc with
  | @addVertex id document hid =>
      obtain ⟨r, g, hadd, hv⟩ := writes_addVertex hid document w L hw
      exact .inr ⟨nofun, perform_of_ok rfl hadd hv⟩
  | @addEdge source target label document hsource htarget =>
      obtain ⟨r, g, hadd, hv⟩ := writes_addEdge hsource htarget label document w L hw
      exact .inr ⟨nofun, perform_of_ok rfl hadd hv⟩
  | @setDocument id document hid =>
      cases hknown : (L.find? Value.key? id).isSome with
      | false =>
          obtain ⟨e, he⟩ := setDocument_unknown hw hid hknown document
          have hperform : (Call.setDocument id document).perform h graph = (do
              let r ← Session.setDocument graph id document
              handOut r) := rfl
          refine .inl ⟨⟨id, document, rfl, hknown⟩, e, ?_⟩
          rw [hperform, Act.bind_of_error he]
      | true =>
          obtain ⟨r, g, hset, hv⟩ := setDocument_known hw hid hknown document
          refine .inr ⟨?_, perform_of_ok rfl hset hv⟩
          rintro ⟨_, _, ⟨⟩, hnone⟩
          exact Bool.false_ne_true (hnone.symm.trans hknown)
  | @addVertices pairs it v ps hiterate hgraph hfeeds hfuel hids =>
      obtain ⟨b, u, hfold, hu⟩ := foldFrom_feeds (fun _ => readPair_bind h graph)
        (fun p hp => writes_addVertex (hids p hp) p.2) hfeeds (hw.congr hgraph) hfuel Value.null
      have hadd : h.addVertices graph pairs w = .ok (.ref .graph graph) u := by
        rw [Host.addVertices, Act.bind_of_ok hiterate]
        exact Act.bind_of_ok hfold
      exact .inr ⟨nofun, perform_of_ok rfl hadd hu⟩
  | @addEdges label entries it v es hiterate hgraph hfeeds hfuel hids =>
      obtain ⟨b, u, hfold, hu⟩ := foldFrom_feeds (fun _ => readEnds_bind h graph label)
        (fun e he => writes_addEdge (hids e he).1 (hids e he).2 label e.2.2) hfeeds
        (hw.congr hgraph) hfuel Value.null
      have hadd : h.addEdges graph label entries w = .ok (.ref .graph graph) u := by
        rw [Host.addEdges, Act.bind_of_ok hiterate]
        exact Act.bind_of_ok hfold
      exact .inr ⟨nofun, perform_of_ok rfl hadd hu⟩

/-! ### Building -/

/-- The world that an action leaves, whether it gives a result or fails. -/
def worldAfter {α : Type} (m : M α) (w : World) : World :=
  match m w with
  | .ok _ v | .error _ v => v

/-- A world in which a graph has been built by calls that have written these changes, one after the
other.  Each call may be performed by any host, and in between anything may happen that leaves the graph
alone. -/
inductive Built (graph : ℕ) : List (Change Value Value Value) → World → Prop
  | new {w v : World} (hnew : newGraph {} w = .ok (.ref .graph graph) v) : Built graph [] v
  | elsewhere {cs : List (Change Value Value Value)} {w v : World} (hw : Built graph cs w)
      (hv : v.graphs[graph]? = w.graphs[graph]?) : Built graph cs v
  | call {cs ds : List (Change Value Value Value)} {w : World} {h : Host} {c : Call}
      (hw : Built graph cs w) (hc : c.Makes h graph w ds) :
      Built graph (cs ++ ds) (worldAfter (c.perform h graph) w)

/-- Labels that a call writes have keys. -/
theorem Call.Makes.keyed {c : Call} {ds : List (Change Value Value Value)}
    (hc : c.Makes h graph w ds) {source target label : Value} {document : Option Value}
    (hmem : .link source target label document ∈ ds) : label.key?.isSome := by
  cases hc with
  | addEdge hsource htarget hlabel =>
      cases List.mem_singleton.1 hmem
      exact hlabel
  | addEdges hiterate hgraph hfeeds hfuel hids hlabel =>
      obtain ⟨e, -, he⟩ := List.mem_map.1 hmem
      cases he
      exact hlabel
  | addVertices =>
      obtain ⟨p, -, hp⟩ := List.mem_map.1 hmem
      cases hp
  | addVertex | setDocument => cases List.mem_singleton.1 hmem

/-- All labels that have been written have keys. -/
theorem Built.keyed {cs : List (Change Value Value Value)} (hw : Built graph cs w) :
    ∀ l ∈ (Ledger.written Value.key? cs).edges, l.label.key?.isSome := by
  have hlinks : ∀ source target label document, .link source target label document ∈ cs →
      label.key?.isSome := by
    induction hw with
    | new => exact nofun
    | elsewhere _ _ ih => exact ih
    | call _ hc ih =>
        intro source target label document hmem
        rcases List.mem_append.1 hmem with hmem | hmem
        · exact ih source target label document hmem
        · exact hc.keyed hmem
  intro l hl
  rcases Ledger.mem_edges_foldl hl with hl | ⟨source, target, document, hmem⟩
  · cases hl
  · exact hlinks source target l.label document hmem

/-- **A graph keeps the ledger that its calls have written.** -/
theorem Built.shows {cs : List (Change Value Value Value)} (hw : Built graph cs w) :
    w.Shows graph (Ledger.written Value.key? cs) := by
  induction hw with
  | new hnew =>
      cases hnew
      exact ⟨{}, Array.getElem?_push_size, rfl, Store.shows_empty⟩
  | elsewhere _ hv ih => exact ih.congr hv
  | call _ hc ih =>
      rw [Ledger.written, List.foldl_append]
      rcases hc.perform ih with ⟨hrefused, e, he⟩ | ⟨-, r, v, hr, hv⟩
      · -- a refused call rewrites nothing
        obtain ⟨id, document, rfl, hnone⟩ := hrefused
        cases hc
        rw [worldAfter, he]
        refine (congrArg (World.Shows _ graph) ?_).mp ih
        exact (Ledger.rewrite_of_unknown hnone).symm
      · rw [worldAfter, hr]
        exact hv

/-! ### Entries at hand -/

variable {place : ℕ} {xs : List Value}

/-- The first items of a collection, if there are not so many, are all of its items. -/
theorem takeOnto_ready (hready : Ready w place xs) (hfuel : 0 < h.fuel)
    (hxs : ∀ x ∈ xs, x.unmarked = false) {n : ℕ} (hn : xs.length < n) (taken : List Value) :
    ∃ v, Route.takeOnto h.above.source n taken (.ref .iterator place) w =
        .ok (taken.reverse ++ xs, .ref .iterator place) v ∧ Keeps place w v := by
  induction xs generalizing w n taken with
  | nil =>
      obtain ⟨n, rfl⟩ := Nat.exists_eq_succ_of_ne_zero (Nat.ne_of_gt hn)
      obtain ⟨v, hpull, hkeeps⟩ := pull_ready_nil hready hfuel
      have hnext : h.above.source (.ref .iterator place) w = .ok none v := by
        rw [Host.source, Act.bind_of_ok hpull]
        rfl
      refine ⟨v, ?_, hkeeps⟩
      rw [Route.takeOnto, Act.bind_of_ok hnext, List.append_nil]
      rfl
  | cons x xs ih =>
      obtain ⟨n, rfl⟩ := Nat.exists_eq_succ_of_ne_zero (Nat.ne_of_gt (Nat.zero_lt_of_lt hn))
      obtain ⟨x', v, hpull, hhanded, hrest, hkeeps⟩ := pull_ready_cons hready hfuel
      obtain rfl : x' = x := hhanded.eq_of_marked (hxs x List.mem_cons_self)
      have hnext : h.above.source (.ref .iterator place) w =
          .ok (some (x', .ref .iterator place)) v := by
        rw [Host.source, Act.bind_of_ok hpull]
        rfl
      obtain ⟨u, htake, hkeeps'⟩ := ih hrest (fun y hy => hxs y (List.mem_cons_of_mem x' hy))
        (Nat.lt_of_succ_lt_succ hn) (x' :: taken)
      refine ⟨u, ?_, hkeeps.trans hkeeps'⟩
      rw [Route.takeOnto, Act.bind_of_ok hnext]
      simpa using htake

/-- A collection of `n` items is unpacked into them. -/
theorem unpack_collection {x : Value} {n : ℕ} (hx : w.collection? x = some xs)
    (hxs : ∀ x ∈ xs, x.unmarked = false) (hn : xs.length = n) (hfuel : 0 < h.fuel) :
    ∃ v, h.above.unpack n x w = .ok xs v ∧ Keeps w.cursors.size w v := by
  obtain ⟨c, hiterate, hready⟩ := iterate_collection hx
  obtain ⟨v, htake, hkeeps⟩ :=
    takeOnto_ready hready hfuel hxs (Nat.lt_succ_of_le (Nat.le_of_eq hn)) []
  refine ⟨v, ?_, (keeps_push w c).trans hkeeps⟩
  rw [Host.unpack, Act.bind_of_ok hiterate, Route.takeUpTo, Act.bind_of_ok htake]
  change (if xs.length = n then pure xs else throw .badValue : M (List Value)) v = _
  rw [if_pos hn]
  rfl

/-- The decoding of an entry that looks at nothing but the entry, and at lists and sets. -/
def Decodes {α : Type} (decode : Value → M α) (w : World) (x : Value) (a : α) : Prop :=
  x.unmarked = false ∧ ∀ u, u.lists = w.lists → u.bags = w.bags →
    ∃ u', decode x u = .ok a u' ∧ Keeps u.cursors.size u u'

/-- **A collection at hand feeds a call** with what its items are decoded to. -/
theorem feeds_ready {α : Type} {decode : Value → M α} {as : List α}
    (hdecode : List.Forall₂ (Decodes decode w) xs as) (hready : Ready v place xs)
    (hlists : v.lists = w.lists) (hbags : v.bags = w.bags) (hfuel : 0 < h.fuel) :
    Feeds h.above graph decode (.ref .iterator place) as v := by
  induction hdecode generalizing v with
  | nil =>
      obtain ⟨u, hpull, hkeeps⟩ := pull_ready_nil hready hfuel
      exact .ended hpull (by rw [hkeeps.graphs_eq])
  | @cons x a xs as hx _ ih =>
      obtain ⟨x', u, hpull, hhanded, hrest, hkeeps⟩ := pull_ready_cons hready hfuel
      obtain rfl : x' = x := hhanded.eq_of_marked hx.1
      obtain ⟨u', hdecoded, hkeeps'⟩ :=
        hx.2 u (hkeeps.lists_eq.trans hlists) (hkeeps.bags_eq.trans hbags)
      refine .entry hpull hdecoded (by rw [hkeeps'.graphs_eq, hkeeps.graphs_eq]) fun g => ?_
      refine ih ((hrest.keep hkeeps' hrest.lt_size).congr rfl rfl rfl) ?_ ?_
      · exact hkeeps'.lists_eq.trans (hkeeps.lists_eq.trans hlists)
      · exact hkeeps'.bags_eq.trans (hkeeps.bags_eq.trans hbags)

/-- A collection of an id and a document is such a pair. -/
theorem decodes_readPair {x id document : Value} (hx : x.unmarked = false)
    (hitems : w.collection? x = some [id, document]) (hid : id.unmarked = false)
    (hdocument : document.unmarked = false) (hfuel : 0 < h.fuel) :
    Decodes h.above.readPair w x (id, document) := by
  refine ⟨hx, fun u hlists hbags => ?_⟩
  obtain ⟨u', hunpack, hkeeps⟩ := unpack_collection (h := h) (n := 2)
    ((collection?_congr hlists hbags x).trans hitems) (by simp [hid, hdocument]) rfl hfuel
  refine ⟨u', ?_, hkeeps⟩
  rw [Host.readPair, Act.bind_of_ok hunpack]
  rfl

/-- The size of a collection is the number of its items. -/
theorem size_collection {x : Value} (hx : w.collection? x = some xs) :
    size x w = .ok (.int xs.length) w := by
  rw [size, Act.bind_of_ok (m := get) rfl]
  cases x with
  | str s => cases hx; simp [pure, EStateM.pure, ← String.length_toList]
  | dict es m => cases hx; simp [pure, EStateM.pure, Indexed.size, Indexed.toList]
  | set ys m => cases hx; rfl
  | orderedPath ys m => cases hx; rfl
  | tuple ys m => cases hx; rfl
  | typedId k i => cases hx; rfl
  | instruction e d c r => cases hx; rfl
  | ref sort place =>
      cases sort with
      | list => cases hx; simp [pure, EStateM.pure]
      | bag => cases hx; simp [pure, EStateM.pure, Bag.values]
      | _ => cases hx
  | _ => cases hx

/-- Pairs at hand are vertices to add. -/
theorem Call.makes_addVertices {pairs : Value} {ps : List (Value × Value)}
    (hpairs : w.collection? pairs = some xs)
    (hdecode : List.Forall₂ (Decodes h.above.readPair w) xs ps) (hfuel : ps.length < h.fuel)
    (hids : ∀ p ∈ ps, p.1.key?.isSome) :
    (Call.addVertices pairs).Makes h.above graph w (ps.map fun p => .mention p.1 p.2.notNull) := by
  obtain ⟨c, hiterate, hready⟩ := iterate_collection hpairs
  have hfeeds : Feeds h.above graph h.above.readPair _ ps _ :=
    feeds_ready hdecode hready rfl rfl (Nat.zero_lt_of_lt hfuel)
  exact .addVertices hiterate rfl hfeeds hfuel hids

end GraphRoutes.Session
