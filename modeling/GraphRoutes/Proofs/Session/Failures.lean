/-
**What a call that fails leaves behind.**

A call that builds a graph may be refused: the graph is sealed, an id has no key, a vertex is not there,
the arguments or the entries are not what they should be.  A call that adds one vertex or sets one
document is refused before it does anything.  A call that adds an edge mentions its source before it
looks at its target; if the target is then refused, the source stays.

A call with many entries reads and writes them one by one, so what it leaves is what the entries before
the refused one have made of the graph, as if each of them had been a call of its own.  Reading an entry
may run the program, which may do anything in the meantime, even to the graph; where it leaves the graph
alone, nothing but the entries counts.

Main definitions:

* `GraphRoutes.Session.HalfAdded` — the source of a refused edge has been added;
* `GraphRoutes.Session.Progress` — entries that have been read and written, one after the other;
* `GraphRoutes.Session.Broken` — how a call with many entries fails;
* `GraphRoutes.Session.Leaves` — what a failed call leaves.

Main results:

* `GraphRoutes.Store.addVertex_error`, `GraphRoutes.Store.setDocument_error`,
  `GraphRoutes.Store.addEdge_error` — what a refused change leaves of a store;
* `GraphRoutes.Session.exists_halfAdded` — an edge that leaves its source behind;
* `GraphRoutes.Session.exists_broken` — a loop that fails has read and written the entries before;
* `GraphRoutes.Session.Progress.graph_eq` — what these entries have made of the graph;
* `GraphRoutes.Session.failed_call_leaves` — **what a failed call leaves**;
* `GraphRoutes.Session.not_failed_call_keeps` — a refused edge may leave its source.
-/
import GraphRoutes.Proofs.Session.Calls

set_option relaxedAutoImplicit false
set_option autoImplicit false

namespace GraphRoutes

/-- Two actions in a row fail if the first one does, or if the second one does. -/
theorem Act.bind_eq_error_iff {ω ε α β : Type} {m : Act ω ε α} {f : α → Act ω ε β} {w v : ω} {e : ε} :
    (m >>= f) w = .error e v ↔ m w = .error e v ∨ ∃ a u, m w = .ok a u ∧ f a u = .error e v := by
  cases hm : m w with
  | ok a u => simp [bind_of_ok hm]
  | error e u => simp [bind_of_error hm]

/-! ### Refused changes of a store -/

namespace Store

variable {ι κ ℓ δ : Type} [DecidableEq κ] [Hashable κ] {keyOf : ι → Option κ} {s t : Store ι κ ℓ δ}
  {id : ι} {document : Option δ} {e : StoreFault}

theorem requireOpen_of_sealed (h : s.isSealed = true) :
    (requireOpen : Edit ι κ ℓ δ Unit) s = .error .isSealed s := by
  rw [requireOpen_eq, if_pos h]

theorem addVertex_of_sealed (h : s.isSealed = true) :
    addVertex keyOf id document s = .error .isSealed s := by
  rw [addVertex, Act.bind_of_error (requireOpen_of_sealed h)]

theorem addVertex_of_unhashable (h : s.isSealed = false) (hid : keyOf id = none) :
    addVertex keyOf id document s = .error .unhashable s := by
  rw [addVertex, Act.bind_of_ok (Shows.requireOpen_of_not_sealed h), hid]
  rfl

/-- A vertex whose id has a key is added to a store that is not sealed. -/
theorem exists_addVertex (h : s.isSealed = false) (hid : (keyOf id).isSome) (document : Option δ) :
    ∃ i t, addVertex keyOf id document s = .ok i t ∧ t.isSealed = false := by
  obtain ⟨k, hk⟩ := Option.isSome_iff_exists.1 hid
  rw [Shows.addVertex_eq h hk]
  cases s.find? k with
  | none => exact ⟨_, _, rfl, h⟩
  | some i =>
      cases document with
      | none => exact ⟨_, _, rfl, h⟩
      | some d => exact ⟨_, _, rfl, h⟩

/-- A vertex that is refused leaves the store as it was. -/
theorem addVertex_error (h : addVertex keyOf id document s = .error e t) : t = s := by
  cases hs : s.isSealed with
  | true => cases (addVertex_of_sealed hs).symm.trans h; rfl
  | false =>
      cases hid : keyOf id with
      | none => cases (addVertex_of_unhashable hs hid).symm.trans h; rfl
      | some k =>
          obtain ⟨i, u, hadd, -⟩ := exists_addVertex hs (Option.isSome_of_eq_some hid) document
          cases hadd.symm.trans h

theorem setDocument_of_sealed (h : s.isSealed = true) :
    setDocument keyOf id document s = .error .isSealed s := by
  rw [setDocument, Act.bind_of_error (requireOpen_of_sealed h)]

/-- A document that is refused leaves the store as it was. -/
theorem setDocument_error (h : setDocument keyOf id document s = .error e t) : t = s := by
  cases hs : s.isSealed with
  | true => cases (setDocument_of_sealed hs).symm.trans h; rfl
  | false =>
      rw [setDocument, Act.bind_of_ok (Shows.requireOpen_of_not_sealed hs)] at h
      cases hid : keyOf id with
      | none =>
          rw [hid] at h
          cases h
          rfl
      | some k =>
          rw [hid, Act.ofOption_some, pure_bind, Act.bind_of_ok (m := get) rfl] at h
          cases hfind : s.find? k with
          | none =>
              rw [hfind] at h
              cases h
              rfl
          | some i =>
              rw [hfind] at h
              cases h

variable {source target : ι} {label : ℓ}

theorem addEdge_of_sealed (h : s.isSealed = true) :
    addEdge keyOf source target label document s = .error .isSealed s := by
  rw [addEdge, Act.bind_of_error (requireOpen_of_sealed h)]

theorem addEdge_of_source (h : s.isSealed = false) (hsource : keyOf source = none) :
    addEdge keyOf source target label document s = .error .unhashable s := by
  rw [addEdge, Act.bind_of_ok (Shows.requireOpen_of_not_sealed h),
    Act.bind_of_error (addVertex_of_unhashable h hsource)]

/-- A target without a key is refused when the source has been added already. -/
theorem addEdge_of_target {i : Nat} (h : s.isSealed = false)
    (hadd : addVertex keyOf source none s = .ok i t) (hopen : t.isSealed = false)
    (htarget : keyOf target = none) :
    addEdge keyOf source target label document s = .error .unhashable t := by
  rw [addEdge, Act.bind_of_ok (Shows.requireOpen_of_not_sealed h), Act.bind_of_ok hadd,
    Act.bind_of_error (addVertex_of_unhashable hopen htarget)]

/-- **What a refused edge leaves of a store**: the store as it was, or the store with the source, if the
target alone has no key. -/
theorem addEdge_error (h : addEdge keyOf source target label document s = .error e t) :
    t = s ∨ s.isSealed = false ∧ (keyOf source).isSome ∧ keyOf target = none ∧ e = .unhashable ∧
      ∃ i, addVertex keyOf source none s = .ok i t := by
  cases hs : s.isSealed with
  | true => cases (addEdge_of_sealed hs).symm.trans h; exact .inl rfl
  | false =>
      cases hsource : keyOf source with
      | none => cases (addEdge_of_source hs hsource).symm.trans h; exact .inl rfl
      | some k =>
          have hkey := Option.isSome_of_eq_some hsource
          obtain ⟨i, u, hadd, hopen⟩ := exists_addVertex hs hkey (none : Option δ)
          cases htarget : keyOf target with
          | none =>
              cases (addEdge_of_target hs hadd hopen htarget).symm.trans h
              exact .inr ⟨rfl, rfl, rfl, rfl, i, hadd⟩
          | some l =>
              obtain ⟨j, u', hadd', -⟩ :=
                exists_addVertex hopen (Option.isSome_of_eq_some htarget) (none : Option δ)
              rw [addEdge, Act.bind_of_ok (Shows.requireOpen_of_not_sealed hs), Act.bind_of_ok hadd,
                Act.bind_of_ok hadd'] at h
              cases h

end Store

namespace Session

open World

variable {h : Host} {w v u : World} {graph : ℕ} {g : Graph} {e : Fault}

/-! ### Refused calls -/

namespace World

/-- To put back what is there changes nothing. -/
theorem withGraph_graphAt (w : World) (graph : ℕ) : w.withGraph graph (w.graphAt graph) = w := by
  by_cases hlt : graph < w.graphs.size
  · rw [withGraph, graphAt, Array.getElem?_eq_getElem hlt, Option.getD_some, Array.setIfInBounds,
      dif_pos hlt, Array.set_getElem_self]
  · rw [withGraph, Array.setIfInBounds, dif_neg hlt]

theorem getElem?_withGraph (hg : w.graphs[graph]? = some g) (g' : Graph) :
    (w.withGraph graph g').graphs[graph]? = some g' :=
  Array.getElem?_setIfInBounds_self_of_lt (Array.getElem?_eq_some_iff.1 hg).1

variable {α : Type} {id : Value} {edit : Store.Edit Value Key Value Value α}

/-- What an edit of a graph comes to, in the world with the graph that it leaves. -/
theorem editGraph_eq (graph : ℕ) (unknown : M Fault) (edit : Store.Edit Value Key Value Value α)
    (w : World) :
    editGraph graph unknown edit w =
      match edit (w.graphAt graph) with
      | .ok a g => .ok a (w.withGraph graph g)
      | .error .isSealed g => .error .sealedGraph (w.withGraph graph g)
      | .error .unhashable g => .error .wrongType (w.withGraph graph g)
      | .error .unknown g => (do throw (← unknown) : M α) (w.withGraph graph g) := by
  cases hrun : edit (w.graphAt graph) with
  | ok a g => simp only [editGraph, hrun, Array.setIfInBounds_setIfInBounds, withGraph]
  | error f g => cases f <;> simp only [editGraph, hrun, Array.setIfInBounds_setIfInBounds, withGraph]

/-- An edit that gives a result leaves the graph that it has made, and nothing else. -/
theorem editGraph_eq_ok {a : α} (hedit : editGraph graph (unknownId id) edit w = .ok a v) :
    ∃ g, edit (w.graphAt graph) = .ok a g ∧ v = w.withGraph graph g := by
  rw [editGraph_eq] at hedit
  cases hrun : edit (w.graphAt graph) with
  | ok b g =>
      rw [hrun] at hedit
      cases hedit
      exact ⟨g, rfl, rfl⟩
  | error f g =>
      rw [hrun] at hedit
      cases f with
      | isSealed => cases hedit
      | unhashable => cases hedit
      | unknown =>
          obtain ⟨e, -, -, ⟨⟩⟩ := Act.bind_eq_ok_iff.1 hedit

/-- An edit that fails leaves the graph that it has left, and nothing else. -/
theorem editGraph_eq_error (hedit : editGraph graph (unknownId id) edit w = .error e v) :
    ∃ f g, edit (w.graphAt graph) = .error f g ∧ v = w.withGraph graph g ∧
      (f = .unhashable → e = .wrongType) := by
  rw [editGraph_eq] at hedit
  cases hrun : edit (w.graphAt graph) with
  | ok b g =>
      rw [hrun] at hedit
      cases hedit
  | error f g =>
      rw [hrun] at hedit
      refine ⟨f, g, rfl, ?_⟩
      cases f with
      | isSealed => cases hedit; exact ⟨rfl, nofun⟩
      | unhashable => cases hedit; exact ⟨rfl, fun _ => rfl⟩
      | unknown =>
          -- to tell which vertex is missing, or to fail in telling, leaves the world alone
          obtain ⟨e', he | he⟩ := exists_unknownId (w.withGraph graph g) id
          · cases (Act.bind_of_ok he).symm.trans hedit
            exact ⟨rfl, nofun⟩
          · cases (Act.bind_of_error he).symm.trans hedit
            exact ⟨rfl, nofun⟩

end World

/-- What one entry of a call that adds vertices makes of a graph. -/
def withVertex (g : Graph) (p : Value × Value) : Graph :=
  match Store.addVertex Value.key? p.1 p.2.notNull g with
  | .ok _ g | .error _ g => g

/-- What one entry of a call that adds edges makes of a graph. -/
def withEdge (label : Value) (g : Graph) (x : Value × Value × Value) : Graph :=
  match Store.addEdge Value.key? x.1 x.2.1 label x.2.2.notNull g with
  | .ok _ g | .error _ g => g

section

variable {id document source target label r : Value}

theorem addVertex_eq_ok (hadd : addVertex graph id document w = .ok r v) :
    v = w.withGraph graph (withVertex (w.graphAt graph) (id, document)) := by
  obtain ⟨i, u, hedit, hr⟩ := Act.bind_eq_ok_iff.1 hadd
  obtain ⟨g, hrun, rfl⟩ := editGraph_eq_ok hedit
  cases hr
  rw [withVertex, hrun]

theorem addEdge_eq_ok (hadd : addEdge graph source target label document w = .ok r v) :
    v = w.withGraph graph (withEdge label (w.graphAt graph) (source, target, document)) := by
  obtain ⟨i, u, hedit, hr⟩ := Act.bind_eq_ok_iff.1 hadd
  obtain ⟨g, hrun, rfl⟩ := editGraph_eq_ok hedit
  cases hr
  rw [withEdge, hrun]

/-- A vertex that is refused leaves the world as it was. -/
theorem addVertex_eq_error (hadd : addVertex graph id document w = .error e v) : v = w := by
  rcases Act.bind_eq_error_iff.1 hadd with hedit | ⟨i, u, -, hr⟩
  · obtain ⟨f, g, hrun, rfl, -⟩ := editGraph_eq_error hedit
    rw [Store.addVertex_error hrun, withGraph_graphAt]
  · cases hr

/-- A document that is refused leaves the world as it was. -/
theorem setDocument_eq_error (hset : setDocument graph id document w = .error e v) : v = w := by
  rcases Act.bind_eq_error_iff.1 hset with hedit | ⟨i, u, -, hr⟩
  · obtain ⟨f, g, hrun, rfl, -⟩ := editGraph_eq_error hedit
    rw [Store.setDocument_error hrun, withGraph_graphAt]
  · cases hr

/-- The source of a refused edge has been added: the graph is not sealed, and the target alone has no key.
The world is the one that adding the source leaves. -/
structure HalfAdded (graph : ℕ) (source target : Value) (w : World) (e : Fault) (v : World) : Prop where
  isOpen : (w.graphAt graph).isSealed = false
  keyed : source.key?.isSome
  unkeyed : target.key? = none
  fault : e = .wrongType
  added : ∃ r, addVertex graph source .null w = .ok r v

/-- An edge that is refused leaves the world as it was, or its source has been added. -/
theorem addEdge_eq_error (hadd : addEdge graph source target label document w = .error e v) :
    v = w ∨ HalfAdded graph source target w e v := by
  rcases Act.bind_eq_error_iff.1 hadd with hedit | ⟨i, u, -, hr⟩
  · obtain ⟨f, g, hrun, rfl, hfault⟩ := editGraph_eq_error hedit
    rcases Store.addEdge_error hrun with rfl | ⟨hopen, hsource, htarget, rfl, i, hvertex⟩
    · exact .inl (withGraph_graphAt w graph)
    · have hadded : editGraph graph (unknownId source)
          (Store.addVertex Value.key? source none) w = .ok i (w.withGraph graph g) := by
        rw [editGraph_eq, hvertex]
      exact .inr ⟨hopen, hsource, htarget, hfault rfl, vertexAt graph i,
        (Act.bind_of_ok hadded).trans rfl⟩
  · cases hr

/-- An edge to a target without a key leaves its source behind, unless that one is refused. -/
theorem exists_halfAdded (hopen : (w.graphAt graph).isSealed = false) (hsource : source.key?.isSome)
    (htarget : target.key? = none) :
    ∃ v, addEdge graph source target label document w = .error .wrongType v ∧
      HalfAdded graph source target w .wrongType v := by
  obtain ⟨i, g, hvertex, hopen'⟩ := Store.exists_addVertex hopen hsource (none : Option Value)
  have hadded : editGraph graph (unknownId source)
      (Store.addVertex Value.key? source none) w = .ok i (w.withGraph graph g) := by
    rw [editGraph_eq, hvertex]
  have hrefused : editGraph graph (unknownId source)
      (Store.addEdge Value.key? source target label document.notNull) w =
        .error .wrongType (w.withGraph graph g) := by
    rw [editGraph_eq, Store.addEdge_of_target hopen hvertex hopen' htarget]
  exact ⟨_, Act.bind_of_error hrefused, hopen, hsource, htarget, rfl, vertexAt graph i,
    (Act.bind_of_ok hadded).trans rfl⟩

end

/-! ### Many entries -/

/-- An entry of a call with many entries: it is read in one world, and written in the next. -/
structure Handled (α : Type) where
  entry : α
  before : World
  read : World

/-- The next entry of an iterator. -/
def Host.nextEntry {α : Type} (h : Host) (decode : Value → M α) (it : Value) : M (Option α) := do
  match ← h.pull it with
  | none => pure none
  | some x => do
    let a ← decode x
    pure (some a)

section

variable {α β γ : Type} {read : M (Option α)} {write : α → M γ} {s t : World}

/-- Entries have been read and written, one after the other. -/
inductive Progress (read : M (Option α)) (write : α → M γ) :
    List (Handled α) → World → World → Prop
  | start (w : World) : Progress read write [] w w
  | next {w u v t : World} {a : α} {c : γ} {steps : List (Handled α)}
      (hread : read w = .ok (some a) u) (hwrite : write a u = .ok c v)
      (hrest : Progress read write steps v t) : Progress read write (⟨a, w, u⟩ :: steps) w t

/-- How a call with many entries fails.  The entries before have been read and written, which has led
from the world `s` to `t`; then, as far as `u`, the next entry was to be read, and either it could not
be read, or it was read and is refused.  (Or more entries were to be read than a session may read in
one go.) -/
structure Broken (read : M (Option α)) (write : α → M γ) (fuel : ℕ) (steps : List (Handled α))
    (s t u : World) (e : Fault) (v : World) : Prop where
  progress : Progress read write steps s t
  fails : read t = .error e u ∧ v = u ∨ (∃ a, read t = .ok (some a) u ∧ write a u = .error e v) ∨
    steps.length = fuel ∧ e = .outOfFuel ∧ u = t ∧ v = t

/-- **A loop that fails has read and written the entries before.** -/
theorem exists_broken {decode : Value → M α} {it : Value} {body : γ → Value → M γ}
    (hbody : ∀ c x, body c x = decode x >>= write) {n : ℕ} {c : γ}
    (hfold : h.foldFrom body it n c s = .error e v) :
    ∃ steps t u, Broken (h.nextEntry decode it) write n steps s t u e v := by
  induction n generalizing c s with
  | zero =>
      cases hfold
      exact ⟨[], _, _, .start _, .inr (.inr ⟨rfl, rfl, rfl, rfl⟩)⟩
  | succ n ih =>
      rcases Act.bind_eq_error_iff.1 hfold with hpull | ⟨x, s', hpull, hrest⟩
      · refine ⟨[], _, _, .start _, .inl ⟨?_, rfl⟩⟩
        rw [Host.nextEntry, Act.bind_of_error hpull]
      · cases x with
        | none => cases hrest
        | some x =>
            have hentry : h.nextEntry decode it s =
                (do let a ← decode x; pure (some a) : M (Option α)) s' :=
              Act.bind_of_ok hpull
            simp only [hbody] at hrest
            rcases Act.bind_eq_error_iff.1 hrest with hdone | ⟨c', w', hdone, hrest⟩
            · rcases Act.bind_eq_error_iff.1 hdone with hdecode | ⟨a, u, hdecode, hwrite⟩
              · exact ⟨[], _, _, .start _,
                  .inl ⟨hentry.trans (Act.bind_of_error hdecode), rfl⟩⟩
              · exact ⟨[], _, _, .start _,
                  .inr (.inl ⟨a, hentry.trans (Act.bind_of_ok hdecode), hwrite⟩)⟩
            · obtain ⟨a, u, hdecode, hwrite⟩ := Act.bind_eq_ok_iff.1 hdone
              obtain ⟨steps, t, u', hprogress, hfails⟩ := ih hrest
              refine ⟨⟨a, s, u⟩ :: steps, t, u', ?_, ?_⟩
              · exact .next (hentry.trans (Act.bind_of_ok hdecode)) hwrite hprogress
              · rcases hfails with hfails | hfails | ⟨hlength, hfails⟩
                · exact .inl hfails
                · exact .inr (.inl hfails)
                · exact .inr (.inr ⟨congrArg Nat.succ hlength, hfails⟩)

/-- Reading the entries has left a graph alone. -/
def Unmoved (graph : ℕ) (steps : List (Handled α)) (t u : World) : Prop :=
  (∀ x ∈ steps, x.read.graphs[graph]? = x.before.graphs[graph]?) ∧
    u.graphs[graph]? = t.graphs[graph]?

/-- Where reading leaves a graph alone, the entries make of it what they make of it one by one. -/
theorem Progress.graph_eq (edit : Graph → α → Graph)
    (hwrite : ∀ w v a c, write a w = .ok c v → v = w.withGraph graph (edit (w.graphAt graph) a))
    {steps : List (Handled α)} (hprogress : Progress read write steps s t)
    (hs : s.graphs[graph]? = some g)
    (hquiet : ∀ x ∈ steps, x.read.graphs[graph]? = x.before.graphs[graph]?) :
    t.graphs[graph]? = some ((steps.map (·.entry)).foldl edit g) := by
  induction hprogress generalizing g with
  | start w => exact hs
  | next hread hdone hrest ih =>
      obtain ⟨hfirst, hquiet⟩ := List.forall_mem_cons.1 hquiet
      have hu := hfirst.trans hs
      refine ih ?_ hquiet
      rw [hwrite _ _ _ _ hdone, getElem?_withGraph hu, graphAt, hu, Option.getD_some]

end

/-! ### Calls -/

/-- To begin to read a value makes at most a new lazy sequence. -/
theorem iterate_cases (x : Value) (w : World) :
    (∃ c, iterate x w = newCursor c w) ∨ iterate x w = .ok x w ∨ iterate x w = .error .wrongType w := by
  unfold iterate
  split
  case h_10 =>
      cases x.tuple? with
      | some xs => exact .inl ⟨_, rfl⟩
      | none => exact .inr (.inr rfl)
  case h_7 => exact .inr (.inl rfl)
  case h_9 place =>
      by_cases htracked : ((w.histories[place]?).getD .null).isTracked
      · exact .inl ⟨_, (Act.bind_of_ok (m := get) rfl).trans (congrFun (if_pos htracked) w)⟩
      · exact .inl ⟨_, (Act.bind_of_ok (m := get) rfl).trans (congrFun (if_neg htracked) w)⟩
  all_goals exact .inl ⟨_, rfl⟩

theorem iterate_eq_ok {x it : Value} (hx : iterate x w = .ok it v) : v.graphs = w.graphs := by
  rcases iterate_cases x w with ⟨c, hc⟩ | hc | hc <;> cases hc.symm.trans hx <;> rfl

theorem iterate_eq_error {x : Value} (hx : iterate x w = .error e v) : v = w := by
  rcases iterate_cases x w with ⟨c, hc⟩ | hc | hc <;> cases hc.symm.trans hx
  rfl

/-- The argument of a parameter of a member, by its position; `null` if it is left out, or if the
arguments do not fit. -/
def argumentOf (m : Member) (args : List Value) (named : List (String × Value)) (i : ℕ) : Value :=
  match m.signature.bind? args named with
  | some (bound, _) => (bound[i]?.join).getD .null
  | none => .null

/-- What a failed call leaves of the world `w`, in which `g` is the graph at its place.  The arguments of
the call are `arg 0`, `arg 1` and so on. -/
def Leaves (h : Host) (graph : ℕ) (g : Graph) (arg : ℕ → Value) (w : World) (e : Fault) (v : World) :
    Member → Prop
  | .addVertex | .setDocument => v = w
  | .addEdge => v = w ∨ HalfAdded graph (arg 0) (arg 1) w e v
  | .addVertices => v = w ∨
      ∃ it s, iterate (arg 0) w = .ok it s ∧ ∃ steps t u,
        Broken (h.nextEntry h.readPair it) (fun p => addVertex graph p.1 p.2) h.fuel steps s t u e v ∧
        v = u ∧
        (Unmoved graph steps t u →
          v.graphs[graph]? = some ((steps.map (·.entry)).foldl withVertex g))
  | .addEdges => v = w ∨
      ∃ it s, iterate (arg 1) w = .ok it s ∧ ∃ steps t u,
        Broken (h.nextEntry h.readEnds it) (fun x => addEdge graph x.1 x.2.1 (arg 0) x.2.2) h.fuel
          steps s t u e v ∧
        (v = u ∧
          (Unmoved graph steps t u →
            v.graphs[graph]? = some ((steps.map (·.entry)).foldl (withEdge (arg 0)) g)) ∨
        ∃ x, h.nextEntry h.readEnds it t = .ok (some x) u ∧ HalfAdded graph x.1 x.2.1 u e v ∧
          (Unmoved graph steps t u →
            v.graphs[graph]? =
              some (withVertex ((steps.map (·.entry)).foldl (withEdge (arg 0)) g) (x.1, .null))))
  | _ => True

/-- A call of a member that builds a graph fails as the member does, or because its arguments do not
fit. -/
theorem callMember_eq_error {m : Member}
    (hm : m ∈ [.addVertex, .addVertices, .setDocument, .addEdge, .addEdges]) {args : List Value}
    {named : List (String × Value)}
    (hfail : h.callMember m (.ref .graph graph) args named w = .error e v) :
    v = w ∨ h.graphMember graph m (argumentOf m args named) w = .error e v := by
  have hdo : h.callMember m (.ref .graph graph) args named w =
      h.doMember m (.ref .graph graph) args named w := by
    simp only [List.mem_cons, List.not_mem_nil, or_false] at hm
    rcases hm with rfl | rfl | rfl | rfl | rfl <;> rfl
  rw [hdo, Host.doMember] at hfail
  cases hbind : m.signature.bind? args named with
  | none =>
      rw [show memberSignature (.ref .graph graph) m = m.signature from rfl, hbind] at hfail
      cases hfail
      exact .inl rfl
  | some bound =>
      rw [show memberSignature (.ref .graph graph) m = m.signature from rfl, hbind] at hfail
      have harg : argumentOf m args named = fun i => (bound.1[i]?.join).getD .null := by
        funext i
        simp only [argumentOf, hbind]
      rw [Act.ofOption_some, pure_bind] at hfail
      rcases Act.bind_eq_error_iff.1 hfail with hrun | ⟨r, u, -, hout⟩
      · exact .inr (harg ▸ hrun)
      · obtain ⟨r', marks, hout', -⟩ := exists_handOut r u
        cases hout'.symm.trans hout

/-- The entries before a refused one have been written, where reading leaves the graph alone. -/
theorem Broken.graph_eq {α γ : Type} {read : M (Option α)} {write : α → M γ} {n : ℕ}
    {steps : List (Handled α)} {s t : World} (hbroken : Broken read write n steps s t u e v)
    (edit : Graph → α → Graph)
    (hwrite : ∀ w v a c, write a w = .ok c v → v = w.withGraph graph (edit (w.graphAt graph) a))
    (hs : s.graphs[graph]? = some g) (hquiet : Unmoved graph steps t u) :
    u.graphs[graph]? = some ((steps.map (·.entry)).foldl edit g) :=
  hquiet.2.trans (hbroken.progress.graph_eq edit hwrite hs hquiet.1)

/-- A call that adds vertices has added those before the one that is refused. -/
theorem addVertices_leaves {arg : ℕ → Value} (hg : w.graphs[graph]? = some g)
    (hadd : h.addVertices graph (arg 0) w = .error e v) : Leaves h graph g arg w e v .addVertices := by
  rcases Act.bind_eq_error_iff.1 hadd with hiterate | ⟨it, s, hiterate, hrest⟩
  · exact .inl (iterate_eq_error hiterate)
  · have hs : s.graphs[graph]? = some g := iterate_eq_ok hiterate ▸ hg
    rcases Act.bind_eq_error_iff.1 hrest with hfold | ⟨c, s', -, hpure⟩
    · obtain ⟨steps, t, u, hbroken⟩ := exists_broken (fun _ => readPair_bind h graph) hfold
      have hgraph := hbroken.graph_eq withVertex (fun _ _ _ _ => addVertex_eq_ok) hs
      obtain rfl : v = u := by
        rcases hbroken.fails with ⟨-, hv⟩ | ⟨p, -, hwrite⟩ | ⟨-, -, hu, hv⟩
        · exact hv
        · exact addVertex_eq_error hwrite
        · exact hv.trans hu.symm
      exact .inr ⟨it, s, hiterate, steps, t, v, hbroken, rfl, hgraph⟩
    · cases hpure

/-- A call that adds edges has added those before the one that is refused, and perhaps the source of
that one. -/
theorem addEdges_leaves {arg : ℕ → Value} (hg : w.graphs[graph]? = some g)
    (hadd : h.addEdges graph (arg 0) (arg 1) w = .error e v) : Leaves h graph g arg w e v .addEdges := by
  rcases Act.bind_eq_error_iff.1 hadd with hiterate | ⟨it, s, hiterate, hrest⟩
  · exact .inl (iterate_eq_error hiterate)
  · have hs : s.graphs[graph]? = some g := iterate_eq_ok hiterate ▸ hg
    rcases Act.bind_eq_error_iff.1 hrest with hfold | ⟨c, s', -, hpure⟩
    · obtain ⟨steps, t, u, hbroken⟩ := exists_broken (fun _ => readEnds_bind h graph (arg 0)) hfold
      have hgraph := hbroken.graph_eq (withEdge (arg 0)) (fun _ _ _ _ => addEdge_eq_ok) hs
      refine .inr ⟨it, s, hiterate, steps, t, u, hbroken, ?_⟩
      rcases hbroken.fails with ⟨-, rfl⟩ | ⟨x, hread, hwrite⟩ | ⟨-, -, rfl, rfl⟩
      · exact .inl ⟨rfl, hgraph⟩
      · rcases addEdge_eq_error hwrite with rfl | hhalf
        · exact .inl ⟨rfl, hgraph⟩
        · refine .inr ⟨x, hread, hhalf, fun hquiet => ?_⟩
          obtain ⟨r, hadded⟩ := hhalf.added
          have hu := hgraph hquiet
          rw [addVertex_eq_ok hadded, getElem?_withGraph hu, graphAt, hu, Option.getD_some]
      · exact .inl ⟨rfl, hgraph⟩
    · cases hpure

/-- **What a failed call leaves.**  A vertex or a document that is refused leaves the world as it was, and
so does an edge, unless its target alone has no key: then its source has been added, and nothing else.  A
call with many entries leaves what the entries before the refused one have made, one by one; to this the
refused one adds at most the source of such an edge. -/
theorem failed_call_leaves {m : Member} {args : List Value} {named : List (String × Value)}
    (hg : w.graphs[graph]? = some g)
    (hfail : h.callMember m (.ref .graph graph) args named w = .error e v) :
    Leaves h graph g (argumentOf m args named) w e v m := by
  cases m
  case addVertex =>
      rcases callMember_eq_error (by simp) hfail with hsame | hadd
      · exact hsame
      · exact addVertex_eq_error hadd
  case setDocument =>
      rcases callMember_eq_error (by simp) hfail with hsame | hset
      · exact hsame
      · exact setDocument_eq_error hset
  case addEdge =>
      rcases callMember_eq_error (by simp) hfail with hsame | hadd
      · exact .inl hsame
      · exact addEdge_eq_error hadd
  case addVertices =>
      rcases callMember_eq_error (by simp) hfail with hsame | hadd
      · exact .inl hsame
      · exact addVertices_leaves hg hadd
  case addEdges =>
      rcases callMember_eq_error (by simp) hfail with hsame | hadd
      · exact .inl hsame
      · exact addEdges_leaves hg hadd
  all_goals trivial

/-- A world with one list, which is empty, and one graph, which is new. -/
def World.beginning : World := { lists := #[#[]], graphs := #[{}] }

/-- An edge to a list is refused by a new graph, and leaves its source. -/
theorem exists_callMember_addEdge :
    ∃ v, (host 1).callMember .addEdge (.ref .graph 0) [.str "a", .ref .list 0, .str "road"] []
        beginning = .error .wrongType v ∧
      HalfAdded 0 (.str "a") (.ref .list 0) beginning .wrongType v := by
  obtain ⟨v, hadd, hhalf⟩ : ∃ v,
      addEdge 0 (.str "a") (.ref .list 0) (.str "road") .null beginning = .error .wrongType v ∧
        HalfAdded 0 (.str "a") (.ref .list 0) beginning .wrongType v :=
    exists_halfAdded rfl rfl rfl
  have hdo : (do
      let r ← addEdge 0 (.str "a") (.ref .list 0) (.str "road") .null
      handOut r : M Value) beginning = .error .wrongType v := Act.bind_of_error hadd
  exact ⟨v, hdo, hhalf⟩

theorem failed_call_leaves_source :
    ∃ v, (host 1).callMember .addEdge (.ref .graph 0) [.str "a", .ref .list 0, .str "road"] []
        beginning = .error .wrongType v ∧
      Leaves (host 1) 0 {} (argumentOf .addEdge [.str "a", .ref .list 0, .str "road"] []) beginning
        .wrongType v .addEdge := by
  obtain ⟨v, hfail, -⟩ := exists_callMember_addEdge
  exact ⟨v, hfail, failed_call_leaves rfl hfail⟩

/-- **A refused edge may leave its source**: the new graph had no vertex, and after the call that fails
it has one. -/
theorem not_failed_call_keeps :
    ∃ v, (host 1).callMember .addEdge (.ref .graph 0) [.str "a", .ref .list 0, .str "road"] []
        beginning = .error .wrongType v ∧
      (beginning.graphAt 0).vertexCount = 0 ∧ (v.graphAt 0).vertexCount = 1 := by
  obtain ⟨v, hfail, hhalf⟩ := exists_callMember_addEdge
  refine ⟨v, hfail, rfl, ?_⟩
  obtain ⟨r, hadded⟩ := hhalf.added
  have hbeginning : beginning.Shows 0 {} := ⟨{}, rfl, rfl, Store.shows_empty⟩
  obtain ⟨r', g, hadded', g', hg, -, hshows⟩ := writes_addVertex hhalf.keyed .null beginning {} hbeginning
  cases hadded.symm.trans hadded'
  rw [graphAt, hg, Option.getD_some, hshows.vertexCount_eq]
  rfl

end Session

end GraphRoutes
