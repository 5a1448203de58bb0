/-
**Vertices are found by the kind of their id.**

An identifier may name a kind, and a graph lists the vertices of a kind.  It reads the kind off the id
that it keeps, and of equal ids it keeps the one that was named first.  An identifier with a kind is
equal to the plain pair of its parts, which has no kind.  So a vertex is listed under its kind if, of all
ids that are equal to its own, the first one that calls have named is an identifier with a kind, and not
a pair.

A call that fails on the way has named the ids of the entries before; so what is true of the calls that
have succeeded is true of those that have failed as well.

Main definitions:

* `GraphRoutes.Ledger.Change.names` — the ids that a change names;
* `GraphRoutes.Ledger.firstNamed` — of the ids that are equal to one, the first that was named.

Main results:

* `GraphRoutes.Ledger.map_fst_find?_written` — a ledger keeps the first of equal ids;
* `GraphRoutes.Session.Built.addVertices_error`, `GraphRoutes.Session.Built.addEdges_error` — what a call
  has named that fails on the way;
* `GraphRoutes.Session.Built.listed_under_kind` — **a vertex is listed under the kind of an id if the
  first of the equal ids has a kind**;
* `GraphRoutes.Session.not_listed_under_kind` — a pair that was named before hides the kind.
-/
import GraphRoutes.Proofs.Session.Failures
import GraphRoutes.Proofs.Session.Register
import GraphRoutes.Proofs.Session.Spelling

set_option relaxedAutoImplicit false
set_option autoImplicit false

namespace GraphRoutes

namespace Ledger

variable {ι κ ℓ δ : Type}

/-- The ids that a change names.  To set the document of a vertex names none: it must be there. -/
def Change.names : Change ι ℓ δ → List ι
  | .mention id _ => [id]
  | .rewrite _ _ => []
  | .link source target _ _ => [source, target]

variable [DecidableEq κ] {keyOf : ι → Option κ} {L : Ledger ι ℓ δ}

/-- Of the ids that are equal to `id`, the first one that changes have named. -/
def firstNamed (keyOf : ι → Option κ) (cs : List (Change ι ℓ δ)) (id : ι) : Option ι :=
  (cs.flatMap Change.names).find? fun x => keyOf x == keyOf id

theorem map_fst_find? (id : ι) :
    (L.find? keyOf id).map Prod.fst =
      (L.vertices.map Prod.fst).find? fun x => keyOf x == keyOf id := by
  rw [find?, List.find?_map]
  rfl

theorem isSome_firstNamed {cs : List (Change ι ℓ δ)} {id : ι} (h : id ∈ cs.flatMap Change.names) :
    (firstNamed keyOf cs id).isSome :=
  List.find?_isSome.2 ⟨id, h, beq_iff_eq.2 rfl⟩

theorem mem_of_find? {id : ι} {x : ι × Option δ} (h : L.find? keyOf id = some x) :
    x ∈ L.vertices ∧ keyOf x.1 = keyOf id :=
  ⟨List.mem_of_find?_eq_some h,
    beq_iff_eq.1 (List.find?_some (p := fun v : ι × Option δ => keyOf v.1 == keyOf id) h)⟩

/-- After a mention, an id is looked up as if the mention had always been written at the end: where it
is not, an equal id stands before. -/
theorem find?_mention_append (named id : ι) (document : Option δ) (rest : List ι) :
    (((L.mention keyOf named document).vertices.map Prod.fst ++ rest).find?
        fun x => keyOf x == keyOf id) =
      (L.vertices.map Prod.fst ++ (named :: rest)).find? fun x => keyOf x == keyOf id := by
  rw [map_fst_mention]
  cases hknown : (L.find? keyOf named).isSome with
  | false => rw [if_neg Bool.false_ne_true, List.append_assoc, List.singleton_append]
  | true =>
      rw [if_pos rfl, List.append_nil, List.find?_append, List.find?_append]
      cases hid : (L.vertices.map Prod.fst).find? fun x => keyOf x == keyOf id with
      | some x => rfl
      | none =>
          -- the id that is known is not the one that is looked up, for that one is not known
          have hne : (keyOf named == keyOf id) = false := by
            rw [beq_eq_false_iff_ne]
            intro hsame
            rw [← Option.isSome_map (f := Prod.fst), map_fst_find?, hsame, hid] at hknown
            cases hknown
          rw [List.find?_cons, hne]

theorem find?_after_append (c : Change ι ℓ δ) (id : ι) (rest : List ι) :
    (((L.after keyOf c).vertices.map Prod.fst ++ rest).find? fun x => keyOf x == keyOf id) =
      (L.vertices.map Prod.fst ++ (c.names ++ rest)).find? fun x => keyOf x == keyOf id := by
  cases c with
  | mention named document => exact find?_mention_append named id document rest
  | rewrite other document => rw [after, map_fst_rewrite]; rfl
  | link source target label document =>
      change (((L.mention keyOf source none).mention keyOf target none).vertices.map Prod.fst ++
        rest).find? _ = _
      rw [find?_mention_append, find?_mention_append]
      rfl

theorem find?_foldl_append (cs : List (Change ι ℓ δ)) (id : ι) :
    (((cs.foldl (after keyOf) L).vertices.map Prod.fst).find? fun x => keyOf x == keyOf id) =
      (L.vertices.map Prod.fst ++ cs.flatMap Change.names).find? fun x => keyOf x == keyOf id := by
  induction cs generalizing L with
  | nil => rw [List.flatMap_nil, List.append_nil]; rfl
  | cons c cs ih => rw [List.foldl_cons, ih, find?_after_append, List.flatMap_cons]

/-- **A ledger keeps the first of equal ids.** -/
theorem map_fst_find?_written (cs : List (Change ι ℓ δ)) (id : ι) :
    ((written keyOf cs).find? keyOf id).map Prod.fst = firstNamed keyOf cs id := by
  rw [map_fst_find?, written, find?_foldl_append, firstNamed]
  rfl

end Ledger

namespace Store.Shows

variable {ι κ ℓ δ : Type} [DecidableEq κ] [Hashable κ] {keyOf : ι → Option κ} {s : Store ι κ ℓ δ}
  {L : Ledger ι ℓ δ}

/-- **The vertices that pass a test** are those whose ids do so in the ledger, in the same order. -/
theorem map_getElem?_verticesWhere (h : s.Shows keyOf L) (p : ι → Bool) :
    (s.verticesWhere p).map (L.vertices[·]?) = (L.vertices.filter fun x => p x.1).map some := by
  have hat : ∀ e ∈ s.vertices.toList.zipIdx.filter (fun e => p e.1.name),
      L.vertices[e.2]? = some (e.1.name, e.1.value) := by
    intro e he
    have hmem := List.mem_zipIdx_iff_getElem?.1 (List.mem_of_mem_filter he)
    rw [h.vertices, List.getElem?_map, hmem, Option.map_some]
  have hplain : s.vertices.toList.zipIdx.map Prod.fst = s.vertices.toList := List.zipIdx_map_fst 0 _
  calc (s.verticesWhere p).map (L.vertices[·]?)
      = (s.vertices.toList.zipIdx.filter fun e => p e.1.name).map
          fun e => some (e.1.name, e.1.value) := by
        rw [verticesWhere, List.map_map]
        exact List.map_congr_left hat
    _ = (s.vertices.toList.filter fun e => p e.name).map fun e => some (e.name, e.value) := by
        conv_rhs => rw [← hplain, List.filter_map, List.map_map]
        rfl
    _ = (L.vertices.filter fun x => p x.1).map some := by
        rw [h.vertices, List.filter_map, List.map_map]
        rfl

/-- Of the vertices of a ledger, the one with a key is the one that is found by it. -/
theorem eq_of_find? (h : s.Shows keyOf L) {id : ι} {x y : ι × Option δ}
    (hy : L.find? keyOf id = some y) (hx : x ∈ L.vertices) (hkey : keyOf x.1 = keyOf id) : x = y := by
  obtain ⟨hmem, hsame⟩ := Ledger.mem_of_find? hy
  exact List.inj_on_of_nodup_map h.pairwise_ne hx hmem (hkey.trans hsame.symm)

/-- What has been written in a ledger has a key. -/
theorem isSome_keyOf (h : s.Shows keyOf L) {x : ι × Option δ} (hx : x ∈ L.vertices) :
    (keyOf x.1).isSome := by
  rw [h.vertices] at hx
  obtain ⟨e, he, rfl⟩ := List.mem_map.1 hx
  rw [h.keyed e he, Option.isSome_some]

end Store.Shows

namespace Session

open World
open Ledger (Change firstNamed written)

variable {h : Host} {w v u : World} {graph : ℕ} {cs : List (Change Value Value Value)}

/-! ### Calls that fail on the way -/

/-- A single vertex that has been added, in whatever call. -/
theorem Built.addVertex {id document r : Value} (hw : Built graph cs w)
    (hadd : addVertex graph id document w = .ok r v) :
    Built graph (cs ++ [.mention id document.notNull]) v := by
  obtain ⟨g, hg, hopen, -⟩ := hw.shows
  have hid : id.key?.isSome := by
    obtain ⟨i, u, hedit, -⟩ := Act.bind_eq_ok_iff.1 hadd
    obtain ⟨g', hrun, -⟩ := editGraph_eq_ok hedit
    rw [graphAt_eq hg] at hrun
    rw [Option.isSome_iff_ne_none]
    intro hnone
    cases (Store.addVertex_of_unhashable hopen hnone).symm.trans hrun
  obtain ⟨r', marks, hout, -⟩ := exists_handOut r v
  have hcall : (Call.addVertex id document).perform (host 0) graph w = .ok r' { v with marks } :=
    (Act.bind_of_ok hadd).trans hout
  have hmakes : (Call.addVertex id document).Makes (host 0) graph w [.mention id document.notNull] :=
    .addVertex hid
  have hbuilt := hw.call hmakes
  rw [worldAfter, hcall] at hbuilt
  exact hbuilt.elsewhere rfl

/-- A single edge that has been added, in whatever call. -/
theorem Built.addEdge {source target label document r : Value} (hw : Built graph cs w)
    (hlabel : label.key?.isSome) (hadd : addEdge graph source target label document w = .ok r v) :
    Built graph (cs ++ [.link source target label document.notNull]) v := by
  obtain ⟨g, hg, hopen, -⟩ := hw.shows
  obtain ⟨i, u, hedit, -⟩ := Act.bind_eq_ok_iff.1 hadd
  obtain ⟨g', hrun, -⟩ := editGraph_eq_ok hedit
  rw [graphAt_eq hg] at hrun
  have hsource : source.key?.isSome := by
    rw [Option.isSome_iff_ne_none]
    intro hnone
    cases (Store.addEdge_of_source hopen hnone).symm.trans hrun
  have htarget : target.key?.isSome := by
    rw [Option.isSome_iff_ne_none]
    intro hnone
    obtain ⟨j, t, hvertex, hopen'⟩ := Store.exists_addVertex hopen hsource (none : Option Value)
    cases (Store.addEdge_of_target hopen hvertex hopen' hnone).symm.trans hrun
  obtain ⟨r', marks, hout, -⟩ := exists_handOut r v
  have hcall : (Call.addEdge source target label document).perform (host 0) graph w =
      .ok r' { v with marks } := (Act.bind_of_ok hadd).trans hout
  have hmakes : (Call.addEdge source target label document).Makes (host 0) graph w
      [.link source target label document.notNull] := .addEdge hsource htarget hlabel
  have hbuilt := hw.call hmakes
  rw [worldAfter, hcall] at hbuilt
  exact hbuilt.elsewhere rfl

/-- **Entries that have been read and written**, one after the other, have written their changes, where
reading leaves the graph alone, and whatever becomes of the rest. -/
theorem Built.progress {α γ : Type} {read : M (Option α)} {write : α → M γ}
    {change : α → Change Value Value Value} {steps : List (Handled α)}
    (hprogress : Progress read write steps w v)
    (hwrite : ∀ {cs w v a c}, Built graph cs w → write a w = .ok c v → Built graph (cs ++ [change a]) v)
    (hquiet : Unmoved graph steps v u) (hw : Built graph cs w) :
    Built graph (cs ++ steps.map fun x => change x.entry) u := by
  obtain ⟨hsteps, hu⟩ := hquiet
  refine Built.elsewhere ?_ hu
  induction hprogress generalizing cs with
  | start w => rwa [List.map_nil, List.append_nil]
  | next hread hdone hrest ih =>
      obtain ⟨hfirst, hsteps⟩ := List.forall_mem_cons.1 hsteps
      have hrun := ih (hwrite (hw.elsewhere hfirst) hdone) hsteps hu
      rwa [List.append_assoc, List.singleton_append] at hrun

/-- An edge that is refused after its source has been added has named the source. -/
theorem Built.halfAdded {source target : Value} {e : Fault} (hw : Built graph cs w)
    (hhalf : HalfAdded graph source target w e v) : Built graph (cs ++ [.mention source none]) v := by
  obtain ⟨r, hadd⟩ := hhalf.added
  exact hw.addVertex hadd

/-- **A call that adds vertices and fails** has named the ids of the entries before. -/
theorem Built.addVertices_error {pairs : Value} {e : Fault} (hw : Built graph cs w)
    (hadd : h.addVertices graph pairs w = .error e v) :
    v = w ∨ ∃ it s steps t,
      Broken (h.nextEntry h.readPair it) (fun p => Session.addVertex graph p.1 p.2) h.fuel steps s t v e v ∧
      (Unmoved graph steps t v →
        Built graph (cs ++ steps.map fun x => .mention x.entry.1 x.entry.2.notNull) v) := by
  obtain ⟨g, hg, -⟩ := hw.shows
  have hleaves : Leaves h graph g (fun _ => pairs) w e v .addVertices := addVertices_leaves hg hadd
  rcases hleaves with
    hsame | ⟨it, s, hiterate, steps, t, u, hbroken, rfl, -⟩
  · exact .inl hsame
  · have hs : Built graph cs s := hw.elsewhere (by rw [iterate_eq_ok hiterate])
    exact .inr ⟨it, s, steps, t, hbroken, fun hquiet =>
      Built.progress hbroken.progress (fun hw hadd => hw.addVertex hadd) hquiet hs⟩

/-- **A call that adds edges and fails** has named the ids of the entries before, and perhaps the source
of the entry that is refused. -/
theorem Built.addEdges_error {label entries : Value} {e : Fault} (hw : Built graph cs w)
    (hlabel : label.key?.isSome) (hadd : h.addEdges graph label entries w = .error e v) :
    v = w ∨ ∃ it s steps t u,
      Broken (h.nextEntry h.readEnds it) (fun x => Session.addEdge graph x.1 x.2.1 label x.2.2) h.fuel steps
        s t u e v ∧
      (Unmoved graph steps t u → ∃ rest : List Value,
        Built graph (cs ++ (steps.map fun x => .link x.entry.1 x.entry.2.1 label x.entry.2.2.notNull) ++
          rest.map (.mention · none)) v ∧
        ∀ source ∈ rest, ∃ x, h.nextEntry h.readEnds it t = .ok (some x) u ∧ source = x.1) := by
  obtain ⟨g, hg, -⟩ := hw.shows
  let arg : ℕ → Value := fun | 0 => label | _ => entries
  have hleaves : Leaves h graph g arg w e v .addEdges := addEdges_leaves hg hadd
  rcases hleaves with
    hsame | ⟨it, s, hiterate, steps, t, u, hbroken, hrest⟩
  · exact .inl hsame
  · have hs : Built graph cs s := hw.elsewhere (by rw [iterate_eq_ok hiterate])
    refine .inr ⟨it, s, steps, t, u, hbroken, fun hquiet => ?_⟩
    have hu := Built.progress hbroken.progress (fun hw hadd => hw.addEdge hlabel hadd) hquiet hs
    rcases hrest with ⟨rfl, -⟩ | ⟨x, hread, hhalf, -⟩
    · exact ⟨[], by simpa using hu, nofun⟩
    · exact ⟨[x.1], hu.halfAdded hhalf, fun source hsource =>
        ⟨x, hread, List.mem_singleton.1 hsource⟩⟩

/-! ### Kinds -/

/-- An identifier with a kind, of whatever kind. -/
def Value.IsTyped (id : Value) : Prop := ∃ k i, id = .typedId k i

theorem World.comparable_str (w : World) (s : String) : w.Comparable (.str s) :=
  w.comparable_of_length rfl (Nat.le_of_ble_eq_true rfl)

/-- Whether an id is an identifier of a kind. -/
def World.ofKind (w : World) (kind : String) : Value → Bool
  | .typedId k _ => w.foundSame k (.str kind)
  | _ => false

/-- An identifier that is equal to one of a kind is of this kind, if it has a kind. -/
theorem ofKind_iff {id i : Value} {kind : String} (hkeyed : id.key?.isSome)
    (hkey : id.key? = (Value.typedId (.str kind) i).key?) (w : World) :
    w.ofKind kind id ↔ id.IsTyped := by
  cases id
  case typedId k j =>
    refine iff_of_true ?_ ⟨k, j, rfl⟩
    obtain ⟨hlasting, hspell⟩ : k.lasting ∧ k.spell = (Value.str kind).spell := by
      simp only [Value.key?] at hkeyed hkey
      split at hkeyed
      case isFalse => cases hkeyed
      case isTrue hlasting =>
        rw [if_pos hlasting] at hkey
        split at hkey
        case isFalse => cases hkey
        case isTrue =>
          -- after the first token, the kinds are spelled before the rest
          obtain ⟨-, hrest⟩ := List.cons.inj (Option.some.inj hkey)
          exact ⟨(Bool.and_eq_true_iff.1 hlasting).1,
            ((Value.word_spell k).append_inj (Value.word_spell _) hrest).1⟩
    rw [World.ofKind, foundSame, w.same_eq hlasting rfl (w.comparable_str kind), hspell]
    simp
  all_goals
    refine iff_of_false Bool.false_ne_true fun htyped => ?_
    obtain ⟨k, j, hid⟩ := htyped
    cases hid

/-- Vertices that are handed out say what stands at their positions in the ledger. -/
theorem map_vertexTold?_of_positions {g : Graph} {L : Register} (hg : w.graphs[graph]? = some g)
    (hshows : g.Shows Value.key? L) {ps : List ℕ} {xs : List Value}
    {ys : List (Value × Option Value)} (hxs : List.Forall₂ Handed (ps.map (vertexAt graph)) xs)
    (hps : ps.map (L.vertices[·]?) = ys.map some) :
    xs.map w.vertexTold? = ys.map fun x => some (shownVertex x) := by
  induction ps generalizing xs ys with
  | nil =>
      cases hxs
      rw [List.map_eq_nil_iff.1 hps.symm]
      rfl
  | cons p ps ih =>
      obtain ⟨y, ys, rfl⟩ := List.exists_cons_of_ne_nil fun h : ys = [] => by rw [h] at hps; cases hps
      obtain ⟨hp, hps⟩ := List.cons.inj hps
      obtain _ | ⟨hhanded, hxs⟩ := hxs
      obtain ⟨m, rfl⟩ := hhanded.exists_vertex
      rw [List.map_cons, List.map_cons, vertexTold?_eq hg hshows hp, ih hxs hps]

/-- **The vertices of a kind** are listed in the order of the ledger. -/
theorem ask_kind {g : Graph} {L : Register} (hg : w.graphs[graph]? = some g)
    (hshows : g.Shows Value.key? L) (h : Host) (kind : String) :
    ∃ l v, h.ask graph .allVertices [.str kind] w = .ok (.ref .list l) v ∧
      (v.listAt l).toList.map v.vertexTold? =
        (L.vertices.filter fun x => w.ofKind kind x.1).map fun x => some (shownVertex x) := by
  let ps := g.verticesWhere (w.ofKind kind)
  obtain ⟨xs, marks, hlist, hxs⟩ := exists_newList (ps.map (vertexAt graph)) w
  have hall : allVertices graph (.str kind) w =
      .ok (.ref .list w.lists.size) { w with marks, lists := w.lists.push xs.toArray } := by
    rw [← hlist]
    refine (Act.bind_of_ok (m := get) rfl).trans ?_
    rw [graphAt_eq hg]
    refine congrArg (fun p => newList ((g.verticesWhere p).map (vertexAt graph)).toArray w) ?_
    funext id
    cases id <;> rfl
  have hask : h.ask graph .allVertices [.str kind] = (do
      let r ← allVertices graph (.str kind)
      handOut r) := rfl
  refine ⟨_, _, hask ▸ (Act.bind_of_ok hall).trans rfl, ?_⟩
  rw [listAt_push]
  exact map_vertexTold?_of_positions hg hshows hxs (hshows.map_getElem?_verticesWhere _)

/-- **A vertex is listed under the kind of an id if the first of the equal ids has a kind**, and only
then: of all ids that are equal to it, the one that calls have named first is an identifier with a kind,
and not a plain pair. -/
theorem Built.listed_under_kind (hw : Built graph cs w) (h : Host) (kind : String) :
    ∃ l v, h.ask graph .allVertices [.str kind] w = .ok (.ref .list l) v ∧
      ∀ i, .typedId (.str kind) i ∈ cs.flatMap Change.names →
        ((∃ x, firstNamed Value.key? cs (.typedId (.str kind) i) = some x ∧ x.IsTyped) ↔
          ∃ a ∈ v.listAt l, ∃ x document, v.vertexTold? a = some (x, document) ∧
            x.key? = (Value.typedId (.str kind) i).key?) := by
  obtain ⟨g, hg, -, hshows⟩ := hw.shows
  obtain ⟨l, v, hask, htold⟩ := ask_kind hg hshows h kind
  refine ⟨l, v, hask, fun i hnamed => ?_⟩
  -- an id that has been named is there, in the spelling of the first mention
  obtain ⟨y, hy⟩ : ∃ y, (written Value.key? cs).find? Value.key? (.typedId (.str kind) i) = some y := by
    rw [← Option.isSome_iff_exists, ← Option.isSome_map (f := Prod.fst),
      Ledger.map_fst_find?_written]
    exact Ledger.isSome_firstNamed hnamed
  obtain ⟨hmem, hkey⟩ := Ledger.mem_of_find? hy
  have hkind := ofKind_iff (hshows.isSome_keyOf hmem) hkey w
  rw [← Ledger.map_fst_find?_written, hy, Option.map_some]
  have hlisted : ∀ x document, (∃ a ∈ v.listAt l, v.vertexTold? a = some (x, document)) ↔
      ∃ z ∈ (written Value.key? cs).vertices, w.ofKind kind z.1 ∧ shownVertex z = (x, document) := by
    intro x document
    have hin := List.mem_map (f := v.vertexTold?) (b := some (x, document)) (l := (v.listAt l).toList)
    rw [htold, List.mem_map] at hin
    simpa [List.mem_filter, and_assoc] using hin.symm
  constructor
  · rintro ⟨x, hx, htyped⟩
    cases hx
    obtain ⟨a, ha, htold⟩ := (hlisted y.1 (.ofOption y.2)).2 ⟨y, hmem, hkind.2 htyped, rfl⟩
    exact ⟨a, ha, _, _, htold, hkey⟩
  · rintro ⟨a, ha, x, document, htold, hx⟩
    obtain ⟨z, hz, hofKind, hshown⟩ := (hlisted x document).1 ⟨a, ha, htold⟩
    obtain ⟨rfl, rfl⟩ := Prod.mk.inj hshown
    obtain rfl := hshows.eq_of_find? hy hz hx
    exact ⟨z.1, rfl, hkind.1 hofKind⟩

/-- The plain pair of the parts of an identifier. -/
def plainPair (kind : String) (i : Value) : Value := .tuple [.str kind, i] (some 0)

/-- A vertex that was named by an identifier first is listed under its kind, whatever is named after. -/
theorem listed_under_kind_first :
    let id : Value := .typedId (.str "person") (.int 1)
    let pair : Value := plainPair "person" (.int 1)
    let cs : List (Change Value Value Value) := [.mention id none, .mention pair (some (.int 5))]
    let w₁ := worldAfter ((Call.addVertex id .null).perform (host 1) 0) (worldAfter (newGraph {}) {})
    let w₂ := worldAfter ((Call.addVertex pair (.int 5)).perform (host 1) 0) w₁
    Built 0 cs w₂ ∧ firstNamed Value.key? cs id = some id ∧
      ∃ l v, (host 1).ask 0 .allVertices [.str "person"] w₂ = .ok (.ref .list l) v ∧
        ∃ a ∈ v.listAt l, ∃ x document, v.vertexTold? a = some (x, document) ∧ x.key? = id.key? := by
  intro id pair cs w₁ w₂
  have hnew : Built 0 [] (worldAfter (newGraph {}) {}) := .new (w := {}) rfl
  have hid : Built 0 [.mention id none] w₁ := hnew.call (.addVertex rfl)
  have hpair : Built 0 cs w₂ := hid.call (.addVertex rfl)
  have hfirst : firstNamed Value.key? cs id = some id := rfl
  obtain ⟨l, v, hask, hlisted⟩ := Built.listed_under_kind hpair (host 1) "person"
  exact ⟨hpair, hfirst, l, v, hask,
    (hlisted (.int 1) List.mem_cons_self).1 ⟨id, hfirst, .str "person", .int 1, rfl⟩⟩

/-- **A pair that was named before hides the kind**: no vertex is listed under the kind of the identifier
that was added after it. -/
theorem not_listed_under_kind :
    let pair : Value := plainPair "person" (.int 1)
    let id : Value := .typedId (.str "person") (.int 1)
    let w₁ := worldAfter ((Call.addVertex pair .null).perform (host 1) 0) (worldAfter (newGraph {}) {})
    let w₂ := worldAfter ((Call.addVertex id .null).perform (host 1) 0) w₁
    Built 0 [.mention pair none, .mention id none] w₂ ∧
      ∃ l v, (host 1).ask 0 .allVertices [.str "person"] w₂ = .ok (.ref .list l) v ∧
        v.listAt l = #[] := by
  intro pair id w₁ w₂
  have hnew : Built 0 [] (worldAfter (newGraph {}) {}) := .new (w := {}) rfl
  have hpair : Built 0 [.mention pair none] w₁ := hnew.call (.addVertex rfl)
  have hid : Built 0 [.mention pair none, .mention id none] w₂ := hpair.call (.addVertex rfl)
  obtain ⟨g, hg, -, hshows⟩ := hid.shows
  obtain ⟨l, v, hask, htold⟩ := ask_kind hg hshows (host 1) "person"
  -- the ledger keeps the pair alone, and a pair has no kind
  have hnone : (v.listAt l).toList.map v.vertexTold? = [] := htold
  exact ⟨hid, l, v, hask, Array.toList_eq_nil_iff.1 (List.map_eq_nil_iff.1 hnone)⟩

end Session

end GraphRoutes
