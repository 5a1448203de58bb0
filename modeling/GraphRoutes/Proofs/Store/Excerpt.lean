/-
**A ledger that is copied in part, edge by edge.**

Edges of a ledger are copied into a new store, one after the other.  With an edge the copy mentions its
source and its target, and only then are their documents written.  In between, the copy is a draft: it may
have a vertex whose document is still to come.  When the edge has been copied nothing is pending any more:
the vertices of the copy are vertices of the ledger with the documents that they have there, in the order in
which the edges have mentioned them, and each of them is there once.

Main definitions:

* `GraphRoutes.Ledger.Describes` — what is said of an edge, and of its vertices by their positions;
* `GraphRoutes.Ledger.Lists`, `GraphRoutes.Ledger.Drafts` — the ids of a copy, and the documents that are
  still pending;
* `GraphRoutes.Ledger.Excerpt` — a copy of some vertices and edges.

Main results:

* `GraphRoutes.Ledger.Excerpt.of_lists` — ids and documents make up a copy;
* `GraphRoutes.Store.Shows.addFacts` — **one more edge is copied** with its vertices.
-/
import GraphRoutes.Lineage
import GraphRoutes.Proofs.Store.Ledger
import Mathlib.Data.List.Induction
import Mathlib.Data.Set.Insert

set_option relaxedAutoImplicit false
set_option autoImplicit false

namespace GraphRoutes

variable {ι κ ℓ δ : Type}

namespace Ledger

/-- What is said of an edge is what stands in a ledger: its vertices at the positions `i` and `j`. -/
structure Describes (N : Ledger ι ℓ δ) (i j : ℕ) (f : EdgeFacts ι ℓ δ) : Prop where
  source : N.vertices[i]? = some (f.source, f.sourceDocument)
  target : N.vertices[j]? = some (f.target, f.targetDocument)

/-- A list with a further item, unless it is there. -/
def note (i : ℕ) (ps : List ℕ) : List ℕ := if i ∈ ps then ps else ps ++ [i]

theorem mem_note {i j : ℕ} {ps : List ℕ} : j ∈ note i ps ↔ j ∈ ps ∨ j = i := by
  rw [note]
  split
  · rename_i hi
    exact ⟨.inl, fun h => h.elim id fun hj => hj ▸ hi⟩
  · rw [List.mem_append, List.mem_singleton]

theorem note_of_mem {i : ℕ} {ps : List ℕ} (hi : i ∈ ps) : note i ps = ps := if_pos hi

/-- To note one item after the other is to leave out repetitions. -/
theorem eraseDups_concat (ps : List ℕ) (i : ℕ) : (ps ++ [i]).eraseDups = note i ps.eraseDups := by
  rw [List.eraseDups_append, note]
  by_cases hi : i ∈ ps <;> simp [List.removeAll, List.eraseDups_cons, hi]

/-- Nothing is left twice. -/
theorem nodup_eraseDups (ps : List ℕ) : ps.eraseDups.Nodup := by
  induction ps using List.reverseRecOn with
  | nil => exact List.nodup_nil
  | append_singleton ps i ih =>
      rw [eraseDups_concat, note]
      split
      · exact ih
      · rename_i hi
        exact List.nodup_append.2 ⟨ih, List.nodup_singleton i, fun a ha b hb hab =>
          hi (List.mem_singleton.1 hb ▸ hab ▸ ha)⟩

/-- The ids of `M` are those at the positions `ps` of `N`. -/
def Lists (N : Ledger ι ℓ δ) (ps : List ℕ) (M : Ledger ι ℓ δ) : Prop :=
  (M.vertices.map Prod.fst).map some = ps.map fun p => (N.vertices[p]?).map Prod.fst

/-- The vertices of `M` are vertices of `N`, but for the documents of those at the positions `P`, which are
still to be written. -/
def Drafts (N : Ledger ι ℓ δ) (P : Set ℕ) (M : Ledger ι ℓ δ) : Prop :=
  ∀ v ∈ M.vertices, v ∈ N.vertices ∨
    v.2 = none ∧ ∃ p ∈ P, (N.vertices[p]?).map Prod.fst = some v.1

/-- The vertices of `M` are those at the positions `ps` of `N`, and its edges are `ls`. -/
structure Excerpt (N : Ledger ι ℓ δ) (ps : List ℕ) (ls : List (Link ι ℓ δ)) (M : Ledger ι ℓ δ) : Prop where
  vertices : M.vertices.map some = ps.map (N.vertices[·]?)
  edges : M.edges = ls

variable {keyOf : ι → Option κ} {N M : Ledger ι ℓ δ} {ps : List ℕ} {P Q : Set ℕ} {i p : ℕ} {v x : ι × Option δ}
  {ls : List (Link ι ℓ δ)}

/-- A ledger of which no two ids have the same key tells its vertices by their keys. -/
theorem eq_of_key (hN : (N.vertices.map fun v => keyOf v.1).Nodup) (hi : N.vertices[i]? = some v)
    (hp : N.vertices[p]? = some x) (hkey : keyOf v.1 = keyOf x.1) : i = p := by
  have hat : (N.vertices.map fun v => keyOf v.1)[i]? = (N.vertices.map fun v => keyOf v.1)[p]? := by
    rw [List.getElem?_map, List.getElem?_map, hi, hp, Option.map_some, Option.map_some, hkey]
  refine (List.getElem?_inj ?_ hN).1 hat
  rw [List.length_map]
  exact (List.getElem?_eq_some_iff.1 hi).1

/-- **A copy with the ids of some vertices, and nothing pending**, is a copy of these vertices. -/
theorem Excerpt.of_lists (hN : (N.vertices.map fun v => keyOf v.1).Nodup) (hlists : N.Lists ps M)
    (hdrafts : N.Drafts ∅ M) : N.Excerpt ps M.edges M := by
  refine ⟨List.ext_getElem? fun t => ?_, rfl⟩
  have hat := congrArg (fun xs : List (Option ι) => xs[t]?) hlists
  simp only [List.getElem?_map] at hat ⊢
  cases hps : ps[t]? with
  | none =>
      rw [hps] at hat
      cases hMt : M.vertices[t]? with
      | none => rfl
      | some x =>
          rw [hMt] at hat
          cases hat
  | some p =>
      rw [hps] at hat
      cases hMt : M.vertices[t]? with
      | none =>
          rw [hMt] at hat
          cases hat
      | some x =>
          rw [hMt] at hat
          obtain ⟨z, hz, hzx⟩ := Option.map_eq_some_iff.1 (Option.some.inj hat).symm
          rcases hdrafts x (List.mem_of_getElem? hMt) with hmem | ⟨-, q, hq, -⟩
          · obtain ⟨q, hq⟩ := List.mem_iff_getElem?.1 hmem
            obtain rfl := eq_of_key hN hq hz (by rw [hzx])
            exact congrArg some (hq.symm)
          · exact hq.elim

theorem Excerpt.lists (hM : N.Excerpt ps ls M) : N.Lists ps M := by
  have hids := congrArg (List.map (Option.map Prod.fst)) hM.vertices
  rw [List.map_map, List.map_map] at hids
  rw [Lists, List.map_map]
  exact hids

theorem Excerpt.drafts (hM : N.Excerpt ps ls M) : N.Drafts P M := by
  intro v hv
  have hmem : some v ∈ ps.map (N.vertices[·]?) := hM.vertices ▸ List.mem_map_of_mem hv
  obtain ⟨p, -, hp⟩ := List.mem_map.1 hmem
  exact .inl (List.mem_of_getElem? hp)

theorem Drafts.mono (hM : N.Drafts P M) (hP : P ⊆ Q) : N.Drafts Q M := by
  intro v hv
  rcases hM v hv with hmem | ⟨hnone, p, hp, hid⟩
  · exact .inl hmem
  · exact .inr ⟨hnone, p, hP hp, hid⟩

variable [DecidableEq κ]

/-- An id of the ledger is in the copy if its position is listed. -/
theorem Lists.isSome_find?_iff (hN : (N.vertices.map fun v => keyOf v.1).Nodup) (hM : N.Lists ps M)
    (hi : N.vertices[i]? = some v) : (M.find? keyOf v.1).isSome ↔ i ∈ ps := by
  rw [find?, List.find?_isSome]
  constructor
  · rintro ⟨y, hy, hkey⟩
    have hmem : some y.1 ∈ ps.map fun p => (N.vertices[p]?).map Prod.fst :=
      hM ▸ List.mem_map_of_mem (List.mem_map_of_mem hy)
    obtain ⟨p, hp, hid⟩ := List.mem_map.1 hmem
    obtain ⟨x, hx, hxy⟩ := Option.map_eq_some_iff.1 hid
    rw [← hxy, beq_iff_eq] at hkey
    exact eq_of_key hN hi hx hkey.symm ▸ hp
  · intro hmem
    have hid : some v.1 ∈ (M.vertices.map Prod.fst).map some := by
      rw [hM]
      exact List.mem_map.2 ⟨i, hmem, by rw [hi]; rfl⟩
    obtain ⟨_, hid, heq⟩ := List.mem_map.1 hid
    obtain ⟨y, hy, rfl⟩ := List.mem_map.1 hid
    exact ⟨y, hy, by rw [Option.some.inj heq, beq_self_eq_true]⟩

/-- A mention of a vertex of the ledger lists its position. -/
theorem Lists.mention (hN : (N.vertices.map fun v => keyOf v.1).Nodup) (hM : N.Lists ps M)
    (hi : N.vertices[i]? = some v) (document : Option δ) :
    N.Lists (note i ps) (M.mention keyOf v.1 document) := by
  rw [Lists, map_fst_mention, List.map_append, hM]
  by_cases hmem : i ∈ ps
  · rw [note_of_mem hmem, if_pos ((hM.isSome_find?_iff hN hi).2 hmem), List.map_nil, List.append_nil]
  · rw [note, if_neg hmem, if_neg fun h => hmem ((hM.isSome_find?_iff hN hi).1 h), List.map_append,
      List.map_singleton, List.map_singleton, hi]
    rfl

/-- The copy spells an id as the ledger does. -/
theorem Lists.spelling (hN : (N.vertices.map fun v => keyOf v.1).Nodup) (hM : N.Lists ps M)
    (hi : N.vertices[i]? = some v) : M.spelling keyOf v.1 = v.1 := by
  rw [Ledger.spelling]
  cases hfind : M.find? keyOf v.1 with
  | none => rfl
  | some y =>
      have hkey : keyOf y.1 = keyOf v.1 := by simpa using List.find?_some hfind
      have hmem : some y.1 ∈ ps.map fun p => (N.vertices[p]?).map Prod.fst :=
        hM ▸ List.mem_map_of_mem (List.mem_map_of_mem (List.mem_of_find?_eq_some hfind))
      obtain ⟨p, -, hid⟩ := List.mem_map.1 hmem
      obtain ⟨x, hx, hxy⟩ := Option.map_eq_some_iff.1 hid
      obtain rfl := eq_of_key hN hi hx (by rw [hxy, hkey])
      obtain rfl := Option.some.inj (hi.symm.trans hx)
      exact hxy.symm

/-- A vertex that is mentioned without its document is pending. -/
theorem Drafts.mention_none (hM : N.Drafts P M) (hi : N.vertices[i]? = some v) :
    N.Drafts (insert i P) (M.mention keyOf v.1 none) := by
  have hold := hM.mono (Set.subset_insert i P)
  cases hknown : (M.find? keyOf v.1).isSome with
  | true =>
      rw [Ledger.mention_none hknown]
      exact hold
  | false =>
      rw [mention_of_unknown hknown]
      intro y hy
      rcases List.mem_append.1 hy with hy | hy
      · exact hold y hy
      · obtain rfl := List.mem_singleton.1 hy
        exact .inr ⟨rfl, i, Set.mem_insert i P, by rw [hi]; rfl⟩

/-- Writes the document of a vertex that is there, if it has one. -/
def settle (keyOf : ι → Option κ) (v : ι × Option δ) (M : Ledger ι ℓ δ) : Ledger ι ℓ δ :=
  match v.2 with
  | none => M
  | some d => M.mention keyOf v.1 (some d)

theorem Lists.settle (hN : (N.vertices.map fun v => keyOf v.1).Nodup) (hM : N.Lists ps M)
    (hi : N.vertices[i]? = some v) (hmem : i ∈ ps) : N.Lists ps (M.settle keyOf v) := by
  obtain ⟨id, _ | d⟩ := v
  · exact hM
  · have hlists := hM.mention hN hi (some d)
    rwa [note_of_mem hmem] at hlists

theorem edges_settle (M : Ledger ι ℓ δ) (v : ι × Option δ) : (M.settle keyOf v).edges = M.edges := by
  obtain ⟨id, _ | d⟩ := v
  · rfl
  · exact edges_mention keyOf M id (some d)

/-- **Once its document is written, a vertex is no longer pending.** -/
theorem Drafts.settle (hN : (N.vertices.map fun v => keyOf v.1).Nodup) (hM : N.Drafts P M)
    (hi : N.vertices[i]? = some v) (hknown : (M.find? keyOf v.1).isSome) :
    N.Drafts (P \ {i}) (M.settle keyOf v) := by
  have hv : v ∈ N.vertices := List.mem_of_getElem? hi
  obtain ⟨id, document⟩ := v
  cases document with
  | none =>
      -- there is no document to write, so the draft of the vertex is as it stands in the ledger
      intro y hy
      rcases hM y hy with hmem | ⟨hnone, p, hp, hid⟩
      · exact .inl hmem
      · by_cases hpi : p = i
        · subst hpi
          rw [hi] at hid
          obtain ⟨y₁, y₂⟩ := y
          obtain rfl : y₂ = none := hnone
          obtain rfl : id = y₁ := Option.some.inj hid
          exact .inl hv
        · exact .inr ⟨hnone, p, ⟨hp, hpi⟩, hid⟩
  | some d =>
      change N.Drafts (P \ {i}) (M.mention keyOf id (some d))
      rw [mention_some hknown]
      intro y hy
      obtain ⟨x, hx, rfl⟩ := List.mem_map.1 hy
      have hown : ∀ {q : ℕ}, (N.vertices[q]?).map Prod.fst = some x.1 → keyOf x.1 = keyOf id → q = i := by
        intro q hq hkey
        obtain ⟨z, hz, hzx⟩ := Option.map_eq_some_iff.1 hq
        exact (eq_of_key hN hi hz (by rw [hzx]; exact hkey.symm)).symm
      by_cases hkey : keyOf x.1 = keyOf id
      · -- whatever stood there, it is now the vertex of the ledger
        rw [if_pos hkey]
        have hspelled : x.1 = id := by
          have hat : ∃ q : ℕ, (N.vertices[q]?).map Prod.fst = some x.1 := by
            rcases hM x hx with hmem | ⟨-, p, -, hid⟩
            · obtain ⟨q, hq⟩ := List.mem_iff_getElem?.1 hmem
              exact ⟨q, by rw [hq]; rfl⟩
            · exact ⟨p, hid⟩
          obtain ⟨q, hq⟩ := hat
          obtain rfl := hown hq hkey
          rw [hi] at hq
          exact (Option.some.inj hq).symm
        rw [hspelled]
        exact .inl hv
      · rw [if_neg hkey]
        rcases hM x hx with hmem | ⟨hnone, p, hp, hid⟩
        · exact .inl hmem
        · refine .inr ⟨hnone, p, ⟨hp, ?_⟩, hid⟩
          rintro rfl
          rw [hi] at hid
          exact hkey (congrArg keyOf (Option.some.inj hid).symm)

end Ledger

namespace Store.Shows

open Ledger

variable [DecidableEq κ] [Hashable κ] {keyOf : ι → Option κ} {s : Store ι κ ℓ δ} {N M : Ledger ι ℓ δ} {ps : List ℕ} {i j : ℕ}
  {ls : List (Link ι ℓ δ)} {f : EdgeFacts ι ℓ δ} {v : ι × Option δ}

/-- The document of a vertex is added if there is one. -/
theorem addDocument (h : s.Shows keyOf M) (hopen : s.isSealed = false) (hkeyed : (keyOf v.1).isSome) :
    ∃ s', Store.addDocument keyOf v.1 v.2 s = .ok () s' ∧ s'.isSealed = false ∧
      s'.Shows keyOf (M.settle keyOf v) := by
  obtain ⟨id, _ | d⟩ := v
  · exact ⟨s, rfl, hopen, h⟩
  · obtain ⟨k, hk⟩ := Option.isSome_iff_exists.1 hkeyed
    obtain ⟨i, s', hadd, hopen', h', -⟩ := h.addVertex hopen hk (some d)
    exact ⟨s', (Act.bind_of_ok hadd).trans rfl, hopen', h'⟩

/-- **One more edge is copied**, and its vertices are, unless they are there. -/
theorem addFacts (hN : (N.vertices.map fun v => keyOf v.1).Nodup)
    (hkeyed : ∀ v ∈ N.vertices, (keyOf v.1).isSome) (h : s.Shows keyOf M) (hopen : s.isSealed = false)
    (hM : N.Excerpt ps ls M) (hf : N.Describes i j f) :
    ∃ s' M', Store.addFacts keyOf f s = .ok () s' ∧ s'.isSealed = false ∧ s'.Shows keyOf M' ∧
      N.Excerpt (note j (note i ps)) (ls ++ [⟨f.source, f.target, f.label, f.document⟩]) M' := by
  have hsource := hkeyed _ (List.mem_of_getElem? hf.source)
  have htarget := hkeyed _ (List.mem_of_getElem? hf.target)
  obtain ⟨e, s₁, hadd, hopen₁, h₁⟩ := h.addEdge hopen hsource htarget f.label f.document
  obtain ⟨s₂, hadd₂, hopen₂, h₂⟩ := h₁.addDocument (v := (f.source, f.sourceDocument)) hopen₁ hsource
  obtain ⟨s₃, hadd₃, hopen₃, h₃⟩ := h₂.addDocument (v := (f.target, f.targetDocument)) hopen₂ htarget
  refine ⟨s₃, _, (Act.bind_of_ok hadd).trans ((Act.bind_of_ok hadd₂).trans hadd₃), hopen₃, h₃, ?_⟩
  -- the ids are those of the edges from the moment when both vertices have been mentioned
  have hi : i ∈ note j (note i ps) := mem_note.2 (.inl (mem_note.2 (.inr rfl)))
  have hj : j ∈ note j (note i ps) := mem_note.2 (.inr rfl)
  have hlists : N.Lists (note j (note i ps)) ((M.mention keyOf f.source none).mention keyOf f.target none) :=
    (hM.lists.mention hN hf.source none).mention hN hf.target none
  have hlinked : N.Lists (note j (note i ps)) (M.link keyOf f.source f.target f.label f.document) := hlists
  have hsettled := hlinked.settle hN hf.source hi
  -- and the documents of both are pending from then on, until they are written
  have hdrafts : N.Drafts {j, i} (M.link keyOf f.source f.target f.label f.document) :=
    ((hM.drafts (P := ∅)).mention_none hf.source |>.mention_none hf.target).mono (by simp)
  have hpending := hdrafts.settle hN hf.source ((hlinked.isSome_find?_iff hN hf.source).2 hi)
  have hdone := (hpending.settle hN hf.target ((hsettled.isSome_find?_iff hN hf.target).2 hj)).mono
    (Q := ∅) fun p hp => (hp.1.1.elim hp.2 hp.1.2).elim
  have hcopy := Excerpt.of_lists hN (hsettled.settle hN hf.target hj) hdone
  refine ⟨hcopy.vertices, ?_⟩
  rw [edges_settle, edges_settle, Ledger.link, edges_mention, edges_mention, hM.edges]
  rw [hlists.spelling hN hf.source, hlists.spelling hN hf.target]

end Store.Shows

end GraphRoutes
