/-
**A sealed graph stays as it is.**

Once a graph is sealed, nothing that a session does changes it any more: no call, no traversal, whether
it gives a result or fails, and whatever functions of the program it calls on the way.  This is a
statement about one graph that every change of a graph keeps, so it endures.

Nor does a call that would change the graph go unnoticed.  A call that builds a graph asks whether the
graph is sealed before it looks at anything else; a call with many entries asks at its first entry.  So
such a call, made of a sealed graph, is refused, unless it is one that does nothing to any graph: then
it leaves the world as it would if it were a call of another graph.

Main definitions:

* `GraphRoutes.Session.World.Stays` — a graph is what it is;
* `GraphRoutes.Session.Leads` — whatever a session may do, step after step;
* `GraphRoutes.Session.builders` — the members that build a graph;
* `GraphRoutes.Session.Matters` — a call makes a difference to a graph;
* `GraphRoutes.Session.Refused`, `GraphRoutes.Session.Together` — an action is refused, or goes the same
  way as another.

Main results:

* `GraphRoutes.Session.enduring_stays` — a sealed graph endures;
* `GraphRoutes.Session.Leads.keeps` — what endures is kept step after step;
* `GraphRoutes.Session.callMember_refused_or_together` — a call of a sealed graph is refused, or does
  nothing to any graph;
* `GraphRoutes.Session.sealed_stays` — **a sealed graph stays as it is, and refuses what would change
  it**.
-/
import GraphRoutes.Proofs.Session.Endurance
import GraphRoutes.Proofs.Session.Failures

set_option relaxedAutoImplicit false
set_option autoImplicit false

namespace GraphRoutes.Session

open Act (Maintains)
open World

variable {h : Host} {w v u : World} {graph place : ℕ} {g : Graph}

/-! ### Sealed graphs endure -/

/-- The graph at a place is `g`. -/
def World.Stays (graph : ℕ) (g : Graph) (w : World) : Prop := w.graphs[graph]? = some g

/-- An action keeps a statement, so the statement holds of the world that the action leaves. -/
theorem worldAfter_of_maintains {α : Type} {I : World → Prop} {m : M α} (hm : Maintains I m) (hw : I w) :
    I (worldAfter m w) := by
  have hrun := hm w hw
  unfold worldAfter
  cases h : m w <;> rw [h] at hrun <;> exact hrun

theorem stays_withGraph {g' : Graph} (hw : w.Stays graph g) (hne : place ≠ graph) :
    (w.withGraph place g').Stays graph g := by
  rw [Stays, withGraph, Array.getElem?_setIfInBounds_ne hne]
  exact hw

/-- A sealed graph refuses an edit; and an edit of another graph does not concern it. -/
theorem maintains_editGraph {α : Type} {edit : Store.Edit Value Key Value Value α} {unknown : M Fault}
    (hunknown : Maintains (Stays graph g) unknown) (hsealed : edit g = .error .isSealed g) :
    Maintains (Stays graph g) (editGraph place unknown edit) := by
  intro w hw
  rw [editGraph_eq]
  by_cases hplace : place = graph
  · subst hplace
    have hg : w.graphAt place = g := by rw [graphAt, hw, Option.getD_some]
    rw [hg, hsealed]
    exact getElem?_withGraph hw g
  · cases edit (w.graphAt place) with
    | ok a g' => exact stays_withGraph hw hplace
    | error e g' =>
        have hw' : (w.withGraph place g').Stays graph g := stays_withGraph hw hplace
        cases e with
        | isSealed => exact hw'
        | unhashable => exact hw'
        | unknown => exact (hunknown.bind fun e => .throw e) _ hw'

/-- **A sealed graph endures**: no way to make or to change a graph changes it. -/
theorem enduring_stays (hsealed : g.isSealed = true) : Enduring (Stays graph g) where
  congr hgraphs _ hw := by rw [Stays, hgraphs]; exact hw
  newGraph g' := .modifyGet fun w hw =>
    (Array.getElem?_push_lt (Array.getElem?_eq_some_iff.1 hw).1).trans
      (Array.getElem?_eq_getElem _ ▸ hw)
  addVertex place id document := (maintains_editGraph (by unfold unknownId; grind)
    (Store.addVertex_of_sealed hsealed)).bind fun _ => .pure _
  setDocument place id document := (maintains_editGraph (by unfold unknownId; grind)
    (Store.setDocument_of_sealed hsealed)).bind fun _ => .pure _
  addEdge place source target label document := (maintains_editGraph (by unfold unknownId; grind)
    (Store.addEdge_of_sealed hsealed)).bind fun _ => .pure _
  publish place w hw := by
    have hpublish : g.publish = g := by rw [Store.publish, ← hsealed]
    rw [Stays, Array.getElem?_modify, hw]
    split
    · rw [Option.map_some, hpublish]
    · rfl

/-! ### Whatever a session does -/

/-- Whatever a session may do, step after step: it calls functions, reads lazy sequences, calls members
of objects, evaluates expressions and runs statements, to any depth, and goes on when they fail. -/
inductive Leads (w : World) : World → Prop
  | start : Leads w w
  | call {v : World} (n : ℕ) (f : Value) (args : List Value) (named : List (String × Value))
      (hrun : Leads w v) : Leads w (worldAfter ((host n).call f args named) v)
  | pull {v : World} (n : ℕ) (it : Value) (hrun : Leads w v) :
      Leads w (worldAfter ((host n).pull it) v)
  | member {v : World} (n : ℕ) (m : Member) (x : Value) (args : List Value)
      (named : List (String × Value)) (hrun : Leads w v) :
      Leads w (worldAfter ((host n).callMember m x args named) v)
  | eval {v : World} (n : ℕ) (scope : Scope) (e : Expr) (hrun : Leads w v) :
      Leads w (worldAfter (eval (host n) scope e) v)
  | statement {v : World} (n : ℕ) (s : Statement) (hrun : Leads w v) :
      Leads w (worldAfter (s.run (host n)) v)

/-- **What endures is kept step after step.** -/
theorem Leads.keeps {I : World → Prop} (hI : Enduring I) (hrun : Leads w v) (hw : I w) : I v := by
  induction hrun with
  | start => exact hw
  | call n f args named hrun ih => exact worldAfter_of_maintains ((maintains_host hI n).call f args named) ih
  | pull n it hrun ih => exact worldAfter_of_maintains ((maintains_host hI n).pull it) ih
  | member n m x args named hrun ih =>
      exact worldAfter_of_maintains (maintains_callMember hI (maintains_host hI n) m x args named) ih
  | eval n scope e hrun ih =>
      exact worldAfter_of_maintains (maintains_eval hI (maintains_host hI n) scope e) ih
  | statement n s hrun ih =>
      exact worldAfter_of_maintains (maintains_statement hI (maintains_host hI n) s) ih

/-! ### Calls that are refused -/

/-- The members that build a graph. -/
def builders : List Member := [.addVertex, .addVertices, .setDocument, .addEdge, .addEdges]

/-- A call of a graph makes a difference to another graph if it leaves that one otherwise when it is
called of that one.  Both calls may run functions of the program, as they read their arguments; so this
compares the calls with each other, and not with the world before. -/
def Matters (h : Host) (graph other : ℕ) (m : Member) (args : List Value)
    (named : List (String × Value)) (w : World) : Prop :=
  (worldAfter (h.callMember m (.ref .graph other) args named) w).graphs[other]? ≠
    (worldAfter (h.callMember m (.ref .graph graph) args named) w).graphs[other]?

/-- An action is refused by a sealed graph. -/
def Refused {α : Type} (m : M α) (w : World) : Prop := ∃ u, m w = .error .sealedGraph u

/-- Two actions go the same way: they fail alike, or they give results alike. -/
def Together {α : Type} (same : α → α → Prop) (m m' : M α) (w : World) : Prop :=
  (∃ e u, m w = .error e u ∧ m' w = .error e u) ∨
    ∃ a b u, m w = .ok a u ∧ m' w = .ok b u ∧ same a b

section

variable {α β : Type}

theorem Refused.bind {m : M α} {f : α → M β} (hm : Refused m w) : Refused (m >>= f) w := by
  obtain ⟨u, hm⟩ := hm
  exact ⟨u, Act.bind_of_error hm⟩

/-- After the same beginning, an action is refused or goes the same way as another, if each of its
continuations does. -/
theorem refused_or_together_bind {I : World → Prop} {same : β → β → Prop} {m : M α} {f f' : α → M β}
    (hm : Maintains I m) (hf : ∀ a u, I u → Refused (f a) u ∨ Together same (f a) (f' a) u) (hw : I w) :
    Refused (m >>= f) w ∨ Together same (m >>= f) (m >>= f') w := by
  have hrun := hm w hw
  cases h : m w with
  | error e u => exact .inr (.inl ⟨e, u, Act.bind_of_error h, Act.bind_of_error h⟩)
  | ok a u =>
      rw [h] at hrun
      simp only [Refused, Together, Act.bind_of_ok h]
      exact hf a u hrun

theorem Together.bind {same : α → α → Prop} {same' : β → β → Prop} {m m' : M α} {f f' : α → M β}
    (hm : Together same m m' w) (hf : ∀ a b u, same a b → Together same' (f a) (f' b) u) :
    Together same' (m >>= f) (m' >>= f') w := by
  rcases hm with ⟨e, u, hm, hm'⟩ | ⟨a, b, u, hm, hm', hsame⟩
  · exact .inl ⟨e, u, Act.bind_of_error hm, Act.bind_of_error hm'⟩
  · rcases hf a b u hsame with ⟨e, v, hf, hf'⟩ | ⟨c, d, v, hf, hf', hsame'⟩
    · exact .inl ⟨e, v, (Act.bind_of_ok hm).trans hf, (Act.bind_of_ok hm').trans hf'⟩
    · exact .inr ⟨c, d, v, (Act.bind_of_ok hm).trans hf, (Act.bind_of_ok hm').trans hf', hsame'⟩

theorem Together.worldAfter_eq {same : α → α → Prop} {m m' : M α} (hm : Together same m m' w) :
    worldAfter m' w = worldAfter m w := by
  rcases hm with ⟨e, u, hm, hm'⟩ | ⟨a, b, u, hm, hm', -⟩ <;> simp only [worldAfter, hm, hm']

end

/-- A sealed graph refuses an edit. -/
theorem refused_editGraph {α : Type} {edit : Store.Edit Value Key Value Value α} {unknown : M Fault}
    (hw : w.Stays graph g) (hsealed : edit g = .error .isSealed g) :
    Refused (editGraph graph unknown edit) w := by
  refine ⟨w.withGraph graph g, ?_⟩
  rw [editGraph_eq, graphAt, hw, Option.getD_some, hsealed]

section

variable (hsealed : g.isSealed = true)

include hsealed

theorem refused_addVertex (hw : w.Stays graph g) (id document : Value) :
    Refused (addVertex graph id document) w :=
  (refused_editGraph hw (Store.addVertex_of_sealed hsealed)).bind

theorem refused_setDocument (hw : w.Stays graph g) (id document : Value) :
    Refused (setDocument graph id document) w :=
  (refused_editGraph hw (Store.setDocument_of_sealed hsealed)).bind

theorem refused_addEdge (hw : w.Stays graph g) (source target label document : Value) :
    Refused (addEdge graph source target label document) w :=
  (refused_editGraph hw (Store.addEdge_of_sealed hsealed)).bind

end

/-- A loop is refused at its first entry, or it has none that can be read. -/
theorem refused_or_together_foldFrom {α β : Type} {I : World → Prop} {it : Value} {decode : Value → M α}
    {write write' : α → M β} {body body' : β → Value → M β} (hbody : ∀ b x, body b x = decode x >>= write)
    (hbody' : ∀ b x, body' b x = decode x >>= write') (hpull : Maintains I (h.pull it))
    (hdecode : ∀ x, Maintains I (decode x)) (hwrite : ∀ a u, I u → Refused (write a) u) (hw : I w)
    (n : ℕ) (b : β) :
    Refused (h.foldFrom body it n b) w ∨
      Together Eq (h.foldFrom body it n b) (h.foldFrom body' it n b) w := by
  cases n with
  | zero => exact .inr (.inl ⟨_, _, rfl, rfl⟩)
  | succ n =>
      refine refused_or_together_bind hpull (fun x u hu => ?_) hw
      cases x with
      | none => exact .inr (.inr ⟨_, _, _, rfl, rfl, rfl⟩)
      | some x =>
          simp only [hbody, hbody', bind_assoc]
          exact refused_or_together_bind (hdecode x) (fun a v hv => .inl (hwrite a v hv).bind) hu

/-- Two calls give each the graph of which they are called. -/
def Chained (graph other : ℕ) (r r' : Value) : Prop := r = .ref .graph graph ∧ r' = .ref .graph other

section

variable (hsealed : g.isSealed = true) (hh : h.Maintains (Stays graph g))

include hsealed hh

theorem maintains_readPair (pair : Value) : Maintains (Stays graph g) (h.readPair pair) := by
  have hI : Enduring (Stays graph g) := enduring_stays hsealed
  unfold Host.readPair
  grind

theorem maintains_readEnds (entry : Value) : Maintains (Stays graph g) (h.readEnds entry) := by
  have hI : Enduring (Stays graph g) := enduring_stays hsealed
  unfold Host.readEnds
  grind

theorem addVertices_refused_or_together (hw : w.Stays graph g) (other : ℕ) (pairs : Value) :
    Refused (h.addVertices graph pairs) w ∨
      Together (Chained graph other) (h.addVertices graph pairs) (h.addVertices other pairs) w := by
  refine refused_or_together_bind (maintains_iterate (enduring_stays hsealed) pairs) (fun it u hu => ?_) hw
  rcases refused_or_together_foldFrom (fun _ => readPair_bind h graph) (fun _ => readPair_bind h other)
      (hh.pull it) (maintains_readPair hsealed hh)
      (fun p u hu => refused_addVertex hsealed hu p.1 p.2) hu h.fuel .null with hrefused | htogether
  · exact .inl hrefused.bind
  · exact .inr (htogether.bind fun _ _ v _ => .inr ⟨_, _, v, rfl, rfl, rfl, rfl⟩)

theorem addEdges_refused_or_together (hw : w.Stays graph g) (other : ℕ) (label entries : Value) :
    Refused (h.addEdges graph label entries) w ∨
      Together (Chained graph other) (h.addEdges graph label entries) (h.addEdges other label entries) w := by
  refine refused_or_together_bind (maintains_iterate (enduring_stays hsealed) entries)
    (fun it u hu => ?_) hw
  rcases refused_or_together_foldFrom (fun _ => readEnds_bind h graph label)
      (fun _ => readEnds_bind h other label) (hh.pull it) (maintains_readEnds hsealed hh)
      (fun x u hu => refused_addEdge hsealed hu x.1 x.2.1 label x.2.2) hu h.fuel .null
    with hrefused | htogether
  · exact .inl hrefused.bind
  · exact .inr (htogether.bind fun _ _ v _ => .inr ⟨_, _, v, rfl, rfl, rfl, rfl⟩)

/-- A member that builds a graph is refused by a sealed one, or does nothing to any graph. -/
theorem graphMember_refused_or_together {m : Member} (hm : m ∈ builders) (hw : w.Stays graph g)
    (other : ℕ) (arg : ℕ → Value) :
    Refused (h.graphMember graph m arg) w ∨
      Together (Chained graph other) (h.graphMember graph m arg) (h.graphMember other m arg) w := by
  simp only [builders, List.mem_cons, List.not_mem_nil, or_false] at hm
  rcases hm with rfl | rfl | rfl | rfl | rfl
  · exact .inl (refused_addVertex hsealed hw _ _)
  · exact addVertices_refused_or_together hsealed hh hw other _
  · exact .inl (refused_setDocument hsealed hw _ _)
  · exact .inl (refused_addEdge hsealed hw _ _ _ _)
  · exact addEdges_refused_or_together hsealed hh hw other _ _

/-- **A call of a sealed graph is refused, or does nothing to any graph**: it fails, or ends, as it would
if it were called of another graph. -/
theorem callMember_refused_or_together {m : Member} (hm : m ∈ builders) (hw : w.Stays graph g)
    (other : ℕ) (args : List Value) (named : List (String × Value)) :
    Refused (h.callMember m (.ref .graph graph) args named) w ∨
      Together (Chained graph other) (h.callMember m (.ref .graph graph) args named)
        (h.callMember m (.ref .graph other) args named) w := by
  have hdo (place : ℕ) : h.callMember m (.ref .graph place) args named w =
      h.doMember m (.ref .graph place) args named w := by
    simp only [builders, List.mem_cons, List.not_mem_nil, or_false] at hm
    rcases hm with rfl | rfl | rfl | rfl | rfl <;> rfl
  simp only [Refused, Together, hdo]
  refine refused_or_together_bind (.ofOption _ _) (fun bound u hu => ?_) hw
  rcases graphMember_refused_or_together hsealed hh hm hu other (fun i => (bound.1[i]?.join).getD .null)
    with hrefused | htogether
  · exact .inl hrefused.bind
  · refine .inr (htogether.bind fun r r' v hchained => ?_)
    obtain ⟨rfl, rfl⟩ := hchained
    exact .inr ⟨_, _, v, rfl, rfl, rfl, rfl⟩

end

/-- **A sealed graph stays as it is, and refuses what would change it.**  Whatever a session does, a graph
that is sealed stays what it is, with its vertices, edges and documents.  A call that builds a graph,
with any arguments, is refused because the graph is sealed, if it makes a difference to any other graph:
to one that is like it but not sealed, say. -/
theorem sealed_stays (hg : w.graphs[graph]? = some g) (hsealed : g.isSealed = true) (hrun : Leads w v) :
    v.graphs[graph]? = some g ∧
      ∀ n, ∀ m ∈ builders, ∀ args named other, Matters (host n) graph other m args named v →
        ∃ u, (host n).callMember m (.ref .graph graph) args named v = .error .sealedGraph u ∧
          u.graphs[graph]? = some g := by
  have hI : Enduring (Stays graph g) := enduring_stays hsealed
  have hv : v.Stays graph g := hrun.keeps hI hg
  refine ⟨hv, fun n m hm args named other hmatters => ?_⟩
  have hh := maintains_host hI n
  rcases callMember_refused_or_together hsealed hh hm hv other args named with ⟨u, hu⟩ | htogether
  · refine ⟨u, hu, ?_⟩
    have hkept := maintains_callMember hI hh m (.ref .graph graph) args named v hv
    rw [hu] at hkept
    exact hkept
  · exact absurd (congrArg (fun u : World => u.graphs[other]?) htogether.worldAfter_eq) hmatters

/-- A world with two new graphs, one of which is sealed. -/
def World.twins : World := { graphs := #[{ isSealed := true }, {}] }

/-- The graph that is not sealed has a vertex more after a call that adds one; the sealed one has not. -/
theorem matters_twins : Matters (host 1) 0 1 .addVertex [.str "a"] [] twins := by
  have hshows : twins.Shows 1 {} := ⟨{}, rfl, rfl, Store.shows_empty⟩
  have hkeyed : (Value.str "a").key?.isSome := rfl
  obtain ⟨r, g, hadded, g', hg', -, hshows'⟩ := writes_addVertex hkeyed .null twins {} hshows
  obtain ⟨r', marks, hout, -⟩ := exists_handOut r (twins.withGraph 1 g)
  have htaken : (host 1).callMember .addVertex (.ref .graph 1) [.str "a"] [] twins =
      .ok r' { twins.withGraph 1 g with marks } := (Act.bind_of_ok hadded).trans hout
  have hcount : g'.vertexCount = 1 := hshows'.vertexCount_eq
  have hrefused : worldAfter ((host 1).callMember .addVertex (.ref .graph 0) [.str "a"] []) twins =
      twins := rfl
  intro hsame
  rw [hrefused, worldAfter, htaken] at hsame
  cases hg'.symm.trans hsame
  cases hcount

/-- A sealed graph, sealed once more, refuses a vertex that the other graph takes. -/
theorem sealed_stays_twins :
    ∃ v, Leads twins v ∧ v.graphs[0]? = some { isSealed := true } ∧
      ∃ u, (host 1).callMember .addVertex (.ref .graph 0) [.str "a"] [] v = .error .sealedGraph u ∧
        u.graphs[0]? = some { isSealed := true } := by
  have hrun : Leads twins (worldAfter ((host 1).callMember .publish (.ref .graph 0) [] []) twins) :=
    .member 1 .publish (.ref .graph 0) [] [] .start
  have hsealed : twins.graphs[0]? = some ({ isSealed := true } : Graph) := rfl
  obtain ⟨hstays, hrefuses⟩ := sealed_stays hsealed rfl hrun
  exact ⟨_, hrun, hstays, hrefuses 1 .addVertex (by decide) [.str "a"] [] 1 matters_twins⟩

end GraphRoutes.Session
