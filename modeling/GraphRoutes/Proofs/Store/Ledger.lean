/-
**A store keeps a ledger.**

A store has an index of its keys, entries for its vertices, and records of its edges that point at
those entries.  A ledger is what all of that is meant to say, in two lists: the vertices with their
documents, in the order in which their ids were first mentioned, and the edges with the ids of their
vertices, in the order in which they were added.  Each change of a store is a change of its ledger, and
whatever is read off the store can be read off the ledger.

Two ids are the same if they have the same key.  They may still be spelled differently; a vertex, and
every edge at it, is known by the spelling of the first mention.

Main definitions:

* `GraphRoutes.Ledger`, `GraphRoutes.Link` — the ledger, and its edges;
* `GraphRoutes.Ledger.mention`, `GraphRoutes.Ledger.rewrite`, `GraphRoutes.Ledger.link` — its changes;
* `GraphRoutes.Store.Shows` — a store that keeps a ledger;
* `GraphRoutes.Store.link?` — what a stored edge says.

Main results:

* `GraphRoutes.Store.Shows.addVertex`, `GraphRoutes.Store.Shows.setDocument`,
  `GraphRoutes.Store.Shows.addEdge` — **a change of the store is a change of the ledger**;
* `GraphRoutes.Store.Shows.setDocument_unknown` — an id that was never mentioned has no document to set;
* `GraphRoutes.Store.Shows.find?_eq`, `GraphRoutes.Store.Shows.map_link?_allEdges`,
  `GraphRoutes.Store.Shows.map_link?_incident` — **what is read off the store stands in the ledger**.
-/
import GraphRoutes.Store
import Mathlib.Data.List.Forall2
import Mathlib.Data.List.Nodup

set_option relaxedAutoImplicit false
set_option autoImplicit false

namespace GraphRoutes

/-- An edge of a ledger: the ids of its vertices, its label and its document. -/
structure Link (ι ℓ δ : Type) where
  source : ι
  target : ι
  label : ℓ
  document : Option δ

/-- Vertices with their documents, and edges, each in the order in which they were mentioned. -/
structure Ledger (ι ℓ δ : Type) where
  vertices : List (ι × Option δ) := []
  edges : List (Link ι ℓ δ) := []

variable {ι κ ℓ δ : Type}

/-- The id of the vertex at which an edge is left on a side. -/
def Link.leftAt (l : Link ι ℓ δ) : Side → ι
  | .outgoing => l.source
  | .incoming => l.target

namespace Ledger

/-! ### The plain model -/

/-- An edge that is recorded by the positions of its vertices says the same as one of the ledger. -/
structure Records (L : Ledger ι ℓ δ) (r : EdgeRecord ℓ δ) (l : Link ι ℓ δ) : Prop where
  source : (L.vertices[r.source]?).map Prod.fst = some l.source
  target : (L.vertices[r.target]?).map Prod.fst = some l.target
  label : r.label = l.label
  document : r.document = l.document

section

variable [DecidableEq κ] (keyOf : ι → Option κ)

/-- The vertex with an id. -/
def find? (id : ι) (L : Ledger ι ℓ δ) : Option (ι × Option δ) :=
  L.vertices.find? fun v => keyOf v.1 == keyOf id

/-- The position of the vertex with an id. -/
def position? (id : ι) (L : Ledger ι ℓ δ) : Option ℕ :=
  L.vertices.findIdx? fun v => keyOf v.1 == keyOf id

/-- How an id is spelled: as it was mentioned first. -/
def spelling (id : ι) (L : Ledger ι ℓ δ) : ι := ((L.find? keyOf id).map Prod.fst).getD id

/-- Another document for the vertex with an id; nothing happens if there is none. -/
def rewrite (id : ι) (document : Option δ) (L : Ledger ι ℓ δ) : Ledger ι ℓ δ :=
  { L with
    vertices := L.vertices.map fun v => if keyOf v.1 = keyOf id then (v.1, document) else v }

/-- A vertex is mentioned.  A new one is written at the end; one that is there gets the document, if
one comes with the mention. -/
def mention (id : ι) (document : Option δ) (L : Ledger ι ℓ δ) : Ledger ι ℓ δ :=
  match L.find? keyOf id with
  | none => { L with vertices := L.vertices ++ [(id, document)] }
  | some _ =>
    match document with
    | none => L
    | some d => L.rewrite keyOf id (some d)

/-- An edge is written at the end, after its source and its target have been mentioned. -/
def link (source target : ι) (label : ℓ) (document : Option δ) (L : Ledger ι ℓ δ) :
    Ledger ι ℓ δ :=
  let L := (L.mention keyOf source none).mention keyOf target none
  { L with
    edges := L.edges ++
      [{ source := L.spelling keyOf source, target := L.spelling keyOf target, label, document }] }

end

/-- One change of a ledger. -/
inductive Change (ι ℓ δ : Type) where
  | mention (id : ι) (document : Option δ)
  | rewrite (id : ι) (document : Option δ)
  | link (source target : ι) (label : ℓ) (document : Option δ)

section

variable [DecidableEq κ] (keyOf : ι → Option κ)

/-- The ledger after a change. -/
def after (L : Ledger ι ℓ δ) : Change ι ℓ δ → Ledger ι ℓ δ
  | .mention id document => L.mention keyOf id document
  | .rewrite id document => L.rewrite keyOf id document
  | .link source target label document => L.link keyOf source target label document

/-- The ledger that changes have written. -/
def written (cs : List (Change ι ℓ δ)) : Ledger ι ℓ δ := cs.foldl (after keyOf) {}

variable {keyOf} {L : Ledger ι ℓ δ} {id : ι} {document : Option δ}

theorem find?_eq_bind_position? :
    L.find? keyOf id = (L.position? keyOf id).bind (L.vertices[·]?) :=
  List.find?_eq_bind_findIdx?_getElem?

theorem isSome_position?_iff : (L.position? keyOf id).isSome ↔ (L.find? keyOf id).isSome := by
  rw [position?, find?, List.findIdx?_isSome, List.find?_isSome, List.any_eq_true]

/-- The spelling of an id stands at its position. -/
theorem spelling_eq {i : ℕ} (h : L.position? keyOf id = some i) :
    (L.vertices[i]?).map Prod.fst = some (L.spelling keyOf id) := by
  have hentry : (L.find? keyOf id).isSome := isSome_position?_iff.1 (by rw [h]; rfl)
  obtain ⟨v, hv⟩ := Option.isSome_iff_exists.1 hentry
  rw [spelling, hv, Option.map_some, Option.getD_some]
  rw [find?_eq_bind_position?, h, Option.bind_some] at hv
  rw [hv, Option.map_some]

theorem mention_of_unknown (h : (L.find? keyOf id).isSome = false) :
    L.mention keyOf id document = { L with vertices := L.vertices ++ [(id, document)] } := by
  have hnone : L.find? keyOf id = none := by
    rw [← Option.not_isSome_iff_eq_none, h]
    exact Bool.false_ne_true
  simp only [mention, hnone]

theorem mention_none (h : (L.find? keyOf id).isSome) : L.mention keyOf id none = L := by
  obtain ⟨v, hv⟩ := Option.isSome_iff_exists.1 h
  rw [mention, hv]

theorem mention_some (h : (L.find? keyOf id).isSome) (d : δ) :
    L.mention keyOf id (some d) = L.rewrite keyOf id (some d) := by
  obtain ⟨v, hv⟩ := Option.isSome_iff_exists.1 h
  rw [mention, hv]

/-- Nothing can be rewritten that was never mentioned. -/
theorem rewrite_of_unknown (h : (L.find? keyOf id).isSome = false) :
    L.rewrite keyOf id document = L := by
  have hall : ∀ v ∈ L.vertices, keyOf v.1 ≠ keyOf id := by
    intro v hv hkey
    have hfound : (L.find? keyOf id).isSome :=
      List.find?_isSome.2 ⟨v, hv, beq_iff_eq.2 hkey⟩
    exact Bool.false_ne_true (h.symm.trans hfound)
  have hsame : L.vertices.map (fun v => if keyOf v.1 = keyOf id then (v.1, document) else v) =
      L.vertices := by
    rw [List.map_congr_left fun v hv => if_neg (hall v hv), List.map_id']
  rw [rewrite, hsame]

/-! ### What a change leaves alone -/

theorem map_fst_rewrite :
    (L.rewrite keyOf id document).vertices.map Prod.fst = L.vertices.map Prod.fst := by
  rw [rewrite, List.map_map]
  refine List.map_congr_left fun v _ => ?_
  by_cases h : keyOf v.1 = keyOf id <;> simp [h]

/-- A mention writes at most its own id, at the end. -/
theorem map_fst_mention :
    (L.mention keyOf id document).vertices.map Prod.fst =
      L.vertices.map Prod.fst ++ if (L.find? keyOf id).isSome then [] else [id] := by
  cases h : (L.find? keyOf id).isSome with
  | false =>
      rw [mention_of_unknown h, List.map_append, if_neg Bool.false_ne_true]
      rfl
  | true =>
      rw [if_pos rfl, List.append_nil]
      cases document with
      | none => rw [mention_none h]
      | some d => rw [mention_some h, map_fst_rewrite]

/-- What a change of documents, or a mention, says of the ids. -/
theorem position?_eq_findIdx? :
    L.position? keyOf id = (L.vertices.map Prod.fst).findIdx? fun x => keyOf x == keyOf id := by
  rw [position?, List.findIdx?_map]
  rfl

/-- A mention keeps the positions of the ids that were there. -/
theorem position?_mention_of_some {other : ι} {i : ℕ} (h : L.position? keyOf other = some i) :
    (L.mention keyOf id document).position? keyOf other = some i := by
  rw [position?_eq_findIdx?] at h
  rw [position?_eq_findIdx?, map_fst_mention, List.findIdx?_append, h]
  rfl

/-- Once mentioned, an id has a position: the one that it had, or the last. -/
theorem position?_mention :
    (L.mention keyOf id document).position? keyOf id =
      some ((L.position? keyOf id).getD L.vertices.length) := by
  cases h : L.position? keyOf id with
  | some i => exact position?_mention_of_some h
  | none =>
      have hnone : (L.find? keyOf id).isSome = false := by
        rw [← Bool.not_eq_true, ← isSome_position?_iff, h]
        simp
      rw [position?_eq_findIdx?] at h
      rw [position?_eq_findIdx?, map_fst_mention, List.findIdx?_append, h, hnone]
      simp

theorem Records.mono {L' : Ledger ι ℓ δ} {r : EdgeRecord ℓ δ} {l : Link ι ℓ δ}
    (ids : List ι) (hL : L'.vertices.map Prod.fst = L.vertices.map Prod.fst ++ ids)
    (h : L.Records r l) : L'.Records r l := by
  have keeps : ∀ {i : ℕ} {x : ι}, (L.vertices[i]?).map Prod.fst = some x →
      (L'.vertices[i]?).map Prod.fst = some x := by
    intro i x hx
    rw [← List.getElem?_map] at hx
    rw [← List.getElem?_map, hL, List.getElem?_append_left (List.getElem?_eq_some_iff.1 hx).1, hx]
  exact ⟨keeps h.source, keeps h.target, h.label, h.document⟩

theorem edges_mention (keyOf : ι → Option κ) (L : Ledger ι ℓ δ) (id : ι) (document : Option δ) :
    (L.mention keyOf id document).edges = L.edges := by
  cases h : (L.find? keyOf id).isSome with
  | false => rw [mention_of_unknown h]
  | true =>
      cases document with
      | none => rw [mention_none h]
      | some d => rw [mention_some h]; rfl

/-- An edge stands in a changed ledger if it stood there before, or if the change has written it. -/
theorem mem_edges_after {c : Change ι ℓ δ} {l : Link ι ℓ δ} (hl : l ∈ (L.after keyOf c).edges) :
    l ∈ L.edges ∨ ∃ source target document, c = .link source target l.label document := by
  cases c with
  | mention id document => exact .inl (edges_mention keyOf L id document ▸ hl)
  | rewrite id document => exact .inl hl
  | link source target label document =>
      change l ∈ ((L.mention keyOf source none).mention keyOf target none).edges ++ [_] at hl
      rw [edges_mention, edges_mention, List.mem_append, List.mem_singleton] at hl
      rcases hl with hl | rfl
      · exact .inl hl
      · exact .inr ⟨source, target, document, rfl⟩

/-- An edge that changes have written was there before, or one of them has linked it. -/
theorem mem_edges_foldl {cs : List (Change ι ℓ δ)} {l : Link ι ℓ δ}
    (hl : l ∈ (cs.foldl (after keyOf) L).edges) :
    l ∈ L.edges ∨ ∃ source target document, .link source target l.label document ∈ cs := by
  induction cs generalizing L with
  | nil => exact .inl hl
  | cons c cs ih =>
      rcases ih hl with hl | ⟨source, target, document, hmem⟩
      · rcases mem_edges_after hl with hl | ⟨source, target, document, rfl⟩
        · exact .inl hl
        · exact .inr ⟨source, target, document, List.mem_cons_self⟩
      · exact .inr ⟨source, target, document, List.mem_cons_of_mem c hmem⟩

end

end Ledger

/-! ### Stores that keep a ledger -/

namespace Store

open Ledger

variable [DecidableEq κ] [Hashable κ]

/-- A store keeps a ledger: its entries are the vertices of the ledger, under their own keys, each of
which is there once, and its records are the edges. -/
structure Shows (keyOf : ι → Option κ) (s : Store ι κ ℓ δ) (L : Ledger ι ℓ δ) : Prop where
  vertices : L.vertices = s.vertices.toList.map fun e => (e.name, e.value)
  keyed : ∀ e ∈ s.vertices.toList, keyOf e.name = some e.key
  distinct : s.vertices.keys.Nodup
  edges : List.Forall₂ L.Records s.edges.toList L.edges

variable {keyOf : ι → Option κ}

/-- What a stored edge says. -/
def link? (s : Store ι κ ℓ δ) (e : StoredEdge) : Option (Link ι ℓ δ) := do
  let source ← s.idAt? e.source
  let target ← s.idAt? e.target
  let r ← s.edges[e.index]?
  return { source, target, label := r.label, document := r.document }

/-- A new store keeps an empty ledger. -/
theorem shows_empty : ({} : Store ι κ ℓ δ).Shows keyOf {} where
  vertices := rfl
  keyed _ h := nomatch h
  distinct := List.nodup_nil
  edges := .nil

namespace Shows

variable {s : Store ι κ ℓ δ} {L : Ledger ι ℓ δ} {id : ι} {k : κ} {document : Option δ}

theorem map_keyOf (h : s.Shows keyOf L) :
    L.vertices.map (fun v => keyOf v.1) = s.vertices.keys.map some := by
  rw [h.vertices, Dictionary.keys, List.map_map, List.map_map]
  exact List.map_congr_left h.keyed

/-- The ids of a ledger that a store keeps are pairwise different. -/
theorem pairwise_ne (h : s.Shows keyOf L) : (L.vertices.map fun v => keyOf v.1).Nodup := by
  rw [h.map_keyOf]
  exact h.distinct.map fun _ _ => Option.some.inj

/-- A search for a key finds the vertex with the id. -/
theorem find?_eq (h : s.Shows keyOf L) (hk : keyOf id = some k) :
    s.find? k = L.position? keyOf id := by
  have hsearch : L.position? keyOf id = (s.vertices.keys.map some).findIdx? (· == some k) := by
    rw [← h.map_keyOf, List.findIdx?_map, position?, hk]
    rfl
  rw [hsearch, List.findIdx?_map, Store.find?, Dictionary.position?_eq, Dictionary.keys,
    List.findIdx?_map]
  rfl

theorem mem_keys_iff (h : s.Shows keyOf L) (hk : keyOf id = some k) :
    k ∈ s.vertices.keys ↔ (L.find? keyOf id).isSome := by
  have hkeys : k ∈ s.vertices.keys ↔ some k ∈ L.vertices.map fun v => keyOf v.1 := by
    rw [h.map_keyOf, List.mem_map_of_injective fun _ _ => Option.some.inj]
  rw [hkeys, Ledger.find?, List.find?_isSome, List.mem_map, hk]
  simp only [beq_iff_eq]

/-- Another value under the key of an id is another document for its vertex. -/
theorem put_rewrite (h : s.Shows keyOf L) (hk : keyOf id = some k)
    (hid : (L.find? keyOf id).isSome) (document : Option δ) :
    ({ s with vertices := s.vertices.put k id document } : Store ι κ ℓ δ).Shows keyOf
      (L.rewrite keyOf id document) := by
  have hmem := (h.mem_keys_iff hk).2 hid
  have hlist := Dictionary.toList_put_of_mem id document hmem h.distinct
  refine ⟨?_, ?_, ?_, ?_⟩
  · rw [hlist, rewrite, h.vertices, List.map_map, List.map_map]
    refine List.map_congr_left fun e he => ?_
    have hkey : keyOf e.name = keyOf id ↔ e.key = k := by
      rw [h.keyed e he, hk, Option.some.injEq]
    by_cases hek : e.key = k <;> simp [hkey, hek]
  · intro e he
    rw [hlist, List.mem_map] at he
    obtain ⟨x, hx, rfl⟩ := he
    have hkeyed := h.keyed x hx
    by_cases hxk : x.key = k
    · rw [if_pos hxk]
      exact hkeyed
    · rw [if_neg hxk]
      exact hkeyed
  · rw [Dictionary.put, Dictionary.keys_adjust, if_pos hmem]
    exact h.distinct
  · exact h.edges.imp fun r l hr => hr.mono [] (by rw [map_fst_rewrite, List.append_nil])

/-- A value under a new key is a new vertex. -/
theorem put_new (h : s.Shows keyOf L) (hk : keyOf id = some k)
    (hid : (L.find? keyOf id).isSome = false) (document : Option δ) :
    ({ s with vertices := s.vertices.put k id document } : Store ι κ ℓ δ).Shows keyOf
      { L with vertices := L.vertices ++ [(id, document)] } := by
  have hmem : k ∉ s.vertices.keys := by
    rw [h.mem_keys_iff hk, hid]
    exact Bool.false_ne_true
  have hlist := Dictionary.toList_put_of_notMem id document hmem
  refine ⟨?_, ?_, ?_, ?_⟩
  · rw [hlist, List.map_append, h.vertices]
    rfl
  · intro e he
    rw [hlist, List.mem_append, List.mem_singleton] at he
    rcases he with he | rfl
    · exact h.keyed e he
    · exact hk
  · rw [Dictionary.put, Dictionary.keys_adjust, if_neg hmem]
    exact List.nodup_append.2 ⟨h.distinct, List.nodup_singleton k, by
      rintro a ha b hb rfl
      exact hmem (List.mem_singleton.1 hb ▸ ha)⟩
  · exact h.edges.imp fun r l hr => hr.mono [id] (by rw [List.map_append]; rfl)

theorem vertexCount_eq (h : s.Shows keyOf L) : s.vertexCount = L.vertices.length := by
  rw [h.vertices, List.length_map]
  rfl

theorem idAt?_eq (h : s.Shows keyOf L) (i : ℕ) : s.idAt? i = (L.vertices[i]?).map Prod.fst := by
  rw [h.vertices, idAt?, Dictionary.entryAt?, List.getElem?_map, Option.map_map, Dictionary.toList,
    Array.getElem?_toList]
  rfl

theorem documentAt?_eq (h : s.Shows keyOf L) (i : ℕ) :
    s.documentAt? i = (L.vertices[i]?).bind Prod.snd := by
  rw [h.vertices, documentAt?, Dictionary.entryAt?, List.getElem?_map, Option.bind_map,
    Dictionary.toList, Array.getElem?_toList]
  rfl

/-- All vertices are read in the order of the ledger. -/
theorem verticesWhere_true (h : s.Shows keyOf L) :
    (s.verticesWhere fun _ => true) = List.range L.vertices.length := by
  rw [verticesWhere, List.filter_eq_self.2 fun _ _ => rfl, List.zipIdx_map_snd, ← List.range_eq_range',
    h.vertices, List.length_map]

/-! ### Reading edges -/

/-- Where the record of an edge stands, and what it says. -/
theorem forall₂_zipIdx (h : s.Shows keyOf L) :
    List.Forall₂ (fun x l => L.Records x.1 l ∧ s.edges[x.2]? = some x.1) s.edges.toList.zipIdx
      L.edges := by
  rw [List.forall₂_iff_get]
  refine ⟨List.length_zipIdx.trans h.edges.length_eq, fun i hi hi' => ?_⟩
  have hr := h.edges.get (List.length_zipIdx ▸ hi) hi'
  exact ⟨by simpa using hr, by simp⟩

/-- A record and its place make an edge that says what the ledger says. -/
theorem link?_edgeView (h : s.Shows keyOf L) {r : EdgeRecord ℓ δ} {l : Link ι ℓ δ} {i : ℕ}
    (hr : L.Records r l) (hi : s.edges[i]? = some r) (reached : Option Side) :
    s.link? (edgeView i r reached) = some l := by
  simp only [link?, edgeView, h.idAt?_eq, hr.source, hr.target, hi]
  exact congrArg some (by rw [hr.label, hr.document])

theorem map_eq_map_some {α β : Type} {R : α → β → Prop} {xs : List α} {ys : List β}
    {f : α → Option β} (h : List.Forall₂ R xs ys) (hf : ∀ x y, R x y → f x = some y) :
    xs.map f = ys.map some := by
  rw [← List.forall₂_eq_eq_eq, List.forall₂_map_left_iff, List.forall₂_map_right_iff]
  exact h.imp hf

/-- **All edges** are read in the order of the ledger. -/
theorem map_link?_allEdges (h : s.Shows keyOf L) : s.allEdges.map s.link? = L.edges.map some := by
  rw [allEdges, List.map_map]
  exact map_eq_map_some h.forall₂_zipIdx fun _ _ hx => h.link?_edgeView hx.1 hx.2 none

variable {s' : Store ι κ ℓ δ}

theorem requireOpen_of_not_sealed (hopen : s.isSealed = false) : requireOpen s = .ok () s := by
  rw [requireOpen_eq, hopen, if_neg Bool.false_ne_true]

/-- What adding a vertex does to a store that is not sealed. -/
theorem addVertex_eq (hopen : s.isSealed = false) (hk : keyOf id = some k) (document : Option δ) :
    Store.addVertex keyOf id document s = match s.find? k, document with
      | none, d => .ok s.vertexCount { s with vertices := s.vertices.put k id d }
      | some i, none => .ok i s
      | some i, some d => .ok i { s with vertices := s.vertices.put k id (some d) } := by
  rw [Store.addVertex, Act.bind_of_ok (requireOpen_of_not_sealed hopen), hk, Act.ofOption_some, pure_bind]
  rw [Act.bind_of_ok (m := get) rfl]
  cases s.find? k with
  | none => rfl
  | some i => cases document <;> rfl

/-- **Adding a vertex is a mention** of its id.  It gives the position of the vertex. -/
theorem addVertex (h : s.Shows keyOf L) (hopen : s.isSealed = false) (hk : keyOf id = some k)
    (document : Option δ) :
    ∃ i s', Store.addVertex keyOf id document s = .ok i s' ∧ s'.isSealed = false ∧
      s'.Shows keyOf (L.mention keyOf id document) ∧
      (L.mention keyOf id document).position? keyOf id = some i := by
  rw [addVertex_eq hopen hk, position?_mention, h.find?_eq hk]
  cases hi : L.position? keyOf id with
  | none =>
      have hid : (L.find? keyOf id).isSome = false := by
        rw [← Bool.not_eq_true, ← isSome_position?_iff, hi]
        exact Bool.false_ne_true
      rw [mention_of_unknown hid]
      exact ⟨s.vertexCount, _, rfl, hopen, h.put_new hk hid document,
        congrArg some h.vertexCount_eq.symm⟩
  | some i =>
      have hid : (L.find? keyOf id).isSome = true := isSome_position?_iff.1 (by rw [hi]; rfl)
      cases document with
      | none =>
          rw [mention_none hid]
          exact ⟨i, s, rfl, hopen, h, rfl⟩
      | some d =>
          rw [mention_some hid]
          exact ⟨i, _, rfl, hopen, h.put_rewrite hk hid (some d), rfl⟩

/-- **Setting a document** rewrites the vertex with the id. -/
theorem setDocument (h : s.Shows keyOf L) (hopen : s.isSealed = false) (hk : keyOf id = some k)
    (hid : (L.find? keyOf id).isSome) (document : Option δ) :
    ∃ s', Store.setDocument keyOf id document s = .ok () s' ∧ s'.isSealed = false ∧
      s'.Shows keyOf (L.rewrite keyOf id document) := by
  obtain ⟨i, hi⟩ := Option.isSome_iff_exists.1 (isSome_position?_iff.2 hid)
  refine ⟨{ s with vertices := s.vertices.put k id document }, ?_, hopen,
    h.put_rewrite hk hid document⟩
  rw [Store.setDocument, Act.bind_of_ok (requireOpen_of_not_sealed hopen), hk, Act.ofOption_some,
    pure_bind, Act.bind_of_ok (m := get) rfl, h.find?_eq hk, hi]
  rfl

/-- An id that was never mentioned has no document to set; nothing changes. -/
theorem setDocument_unknown (h : s.Shows keyOf L) (hopen : s.isSealed = false)
    (hk : keyOf id = some k) (hid : (L.find? keyOf id).isSome = false) (document : Option δ) :
    Store.setDocument keyOf id document s = .error .unknown s := by
  have hi : L.position? keyOf id = none := by
    rw [← Option.not_isSome_iff_eq_none, isSome_position?_iff, hid]
    exact Bool.false_ne_true
  rw [Store.setDocument, Act.bind_of_ok (requireOpen_of_not_sealed hopen), hk, Act.ofOption_some,
    pure_bind, Act.bind_of_ok (m := get) rfl, h.find?_eq hk, hi]
  rfl

/-- **Adding an edge** mentions its source and its target, and writes the edge. -/
theorem addEdge (h : s.Shows keyOf L) (hopen : s.isSealed = false) {source target : ι}
    (hsource : (keyOf source).isSome) (htarget : (keyOf target).isSome) (label : ℓ)
    (document : Option δ) :
    ∃ e s', Store.addEdge keyOf source target label document s = .ok e s' ∧ s'.isSealed = false ∧
      s'.Shows keyOf (L.link keyOf source target label document) := by
  obtain ⟨k, hk⟩ := Option.isSome_iff_exists.1 hsource
  obtain ⟨k', hk'⟩ := Option.isSome_iff_exists.1 htarget
  obtain ⟨i, s₁, hadd, hopen₁, h₁, hi⟩ := h.addVertex hopen hk none
  obtain ⟨j, s₂, hadd', hopen₂, h₂, hj⟩ := h₁.addVertex hopen₁ hk' none
  refine ⟨{ index := s₂.edgeCount, source := i, target := j },
    { s₂ with edges := s₂.edges.push { source := i, target := j, label, document } }, ?_, hopen₂,
    h₂.vertices, h₂.keyed, h₂.distinct, ?_⟩
  · rw [Store.addEdge, Act.bind_of_ok (requireOpen_of_not_sealed hopen), Act.bind_of_ok hadd,
      Act.bind_of_ok hadd', Act.bind_of_ok (m := get) rfl]
    rfl
  · rw [Array.toList_push]
    refine List.rel_append (h₂.edges.imp fun _ _ hr => ?_) (.cons ?_ .nil)
    · exact ⟨hr.source, hr.target, hr.label, hr.document⟩
    · -- the target is mentioned second, and leaves the source where it is
      exact ⟨spelling_eq (position?_mention_of_some hi), spelling_eq hj, rfl, rfl⟩

end Shows

end Store

end GraphRoutes
