/-
**Graph elements, and how they are told apart.**

Vertices and edges, plain or wrapped any number of times, are told apart by one token: the position of
the plain element in its graph.  A comparison looks only at it, in whatever world it is made, and so
does a set.  Therefore, among graph elements, what is equal has the same key, and what has the same
key is equal.

Main definitions:

* `GraphRoutes.Session.Value.ofGraph` — whether a value is a vertex or an edge, plain or wrapped;
* `GraphRoutes.Session.GraphElement` — such a value;
* `GraphRoutes.Session.elementGraph` — a graph of them, with the comparison and the keys of a session.

Main results:

* `GraphRoutes.Session.Value.key?_of_ofGraph` — graph elements have keys;
* `GraphRoutes.Session.World.same_of_ofGraph` — **a comparison of two graph elements compares their
  keys**, in any world.
-/
import GraphRoutes.Proofs.Search.Graph
import GraphRoutes.Session.Compare

set_option relaxedAutoImplicit false
set_option autoImplicit false

namespace GraphRoutes.Session

namespace Value

variable {v : Value}

/-- Whether a value is a vertex or an edge, plain or wrapped any number of times. -/
def ofGraph (v : Value) : Bool := v.node.base.sort.isSome

/-- A plain element is a vertex or an edge. -/
theorem cases_of_sort (h : v.sort.isSome = true) :
    (∃ u m, v = .vertex u m) ∨ ∃ e m, v = .edge e m := by
  cases v with
  | vertex u m => exact .inl ⟨u, m, rfl⟩
  | edge e m => exact .inr ⟨e, m, rfl⟩
  | _ => cases h

theorem lasting_of_sort (h : v.sort.isSome = true) : v.lasting = true := by
  obtain ⟨u, m, rfl⟩ | ⟨e, m, rfl⟩ := cases_of_sort h <;> rfl

theorem stripAll_of_sort (h : v.sort.isSome = true) : v.stripAll = v := by
  obtain ⟨u, m, rfl⟩ | ⟨e, m, rfl⟩ := cases_of_sort h <;> rfl

theorem isElement_of_sort (h : v.sort.isSome = true) : v.isElement = true := by
  obtain ⟨u, m, rfl⟩ | ⟨e, m, rfl⟩ := cases_of_sort h <;> rfl

/-- A wrapper does not change how a plain element is spelled. -/
theorem wrapped_spell_of_sort (h : v.sort.isSome = true) : Key.wrapped v.spell = v.spell := by
  obtain ⟨u, m, rfl⟩ | ⟨e, m, rfl⟩ := cases_of_sort h
  · rfl
  · cases e <;> rfl

/-- What a wrapper holds without any layer is its base without any layer. -/
theorem stripNode_eq (x : Node) : stripNode x = x.base.stripAll := by
  induction x with
  | plain v => rfl
  | root l x m ih => exact ih
  | via l x p m ih _ => exact ih

/-- A graph element is plain, or a wrapper around one. -/
theorem cases_of_ofGraph (h : v.ofGraph = true) :
    v.sort.isSome = true ∨ ∃ x, v = .tracked x ∧ x.base.sort.isSome = true := by
  cases v with
  | tracked x => exact .inr ⟨x, rfl, h⟩
  | _ => exact .inl h

theorem lasting_of_ofGraph (hv : v.ofGraph = true) : v.lasting = true := by
  obtain h | ⟨x, rfl, h⟩ := cases_of_ofGraph hv
  · exact lasting_of_sort h
  · exact (nodeLasting_eq x).trans (lasting_of_sort h)

/-- A graph element has a key. -/
theorem key?_of_ofGraph (hv : v.ofGraph = true) : v.key? = some v.spell :=
  if_pos (lasting_of_ofGraph hv)

end Value

namespace World

open Value

variable (w : World) {v a b : Value}

/-- A comparison looks at nothing of a graph element but its spelling. -/
theorem outline_of_ofGraph (hv : v.ofGraph = true) : w.outline v = (v.spell, []) := by
  obtain h | ⟨x, rfl, h⟩ := cases_of_ofGraph hv
  · obtain ⟨u, m, rfl⟩ | ⟨e, m, rfl⟩ := cases_of_sort h <;> rfl
  · have hstripped : stripNode x = x.base := (stripNode_eq x).trans (stripAll_of_sort h)
    have hspell : (tracked x).spell = x.base.spell :=
      (spellNode_eq x).trans (wrapped_spell_of_sort h)
    rw [outline, hspell, hstripped, if_pos (isElement_of_sort h)]

theorem sameTo_succ_of_ofGraph (ha : a.ofGraph = true) (depth : ℕ) :
    w.sameTo (depth + 1) a b = sameTo.outlined w depth a b := by
  obtain h | ⟨x, rfl, -⟩ := cases_of_ofGraph ha
  · obtain ⟨u, m, rfl⟩ | ⟨e, m, rfl⟩ := cases_of_sort h <;> simp only [sameTo]
  · simp only [sameTo]

/-- A comparison of two graph elements compares their keys, however deep it may look. -/
theorem sameTo_of_ofGraph (ha : a.ofGraph = true) (hb : b.ofGraph = true) (depth : ℕ) :
    w.sameTo (depth + 1) a b = .ok (a.key? == b.key?) := by
  rw [sameTo_succ_of_ofGraph w ha depth, sameTo.outlined, outline_of_ofGraph w ha,
    outline_of_ofGraph w hb, key?_of_ofGraph ha, key?_of_ofGraph hb, Option.some_beq_some]
  cases hspell : a.spell == b.spell with
  | true => exact if_pos hspell
  | false => exact if_neg (Bool.eq_false_iff.1 hspell)

/-- **A comparison of two graph elements compares their keys.** -/
theorem same_of_ofGraph (ha : a.ofGraph = true) (hb : b.ofGraph = true) :
    w.same a b = .ok (a.key? == b.key?) :=
  sameTo_of_ofGraph w ha hb 19999

theorem foundSame_of_ofGraph (ha : a.ofGraph = true) (hb : b.ofGraph = true) :
    w.foundSame a b = (a.key? == b.key?) := by
  rw [foundSame, same_of_ofGraph w ha hb]

end World

/-- A vertex or an edge, plain or wrapped any number of times. -/
structure GraphElement where
  value : Value
  ofGraph : value.ofGraph = true := by rfl

/-- A graph of vertices and edges, which are told apart as in a session whose world is `w`. -/
def elementGraph (w : World) (succ : GraphElement → List GraphElement) :
    GraphRoutes.Graph GraphElement Key where
  succ
  keyOf a := a.value.key?
  same a b := w.foundSame a.value b.value
  identical a b := a.value.key? == b.value.key? && a.value.mark == b.value.mark
  identical_self a := by simp

variable (w : World) (succ : GraphElement → List GraphElement)

/-- A graph of vertices and edges compares them by their keys. -/
theorem elementGraph_eq :
    elementGraph w succ = { elementGraph w succ with same a b := a.value.key? == b.value.key? } := by
  have hsame : ∀ a b : GraphElement, w.foundSame a.value b.value = (a.value.key? == b.value.key?) :=
    fun a b => w.foundSame_of_ofGraph a.ofGraph b.ofGraph
  simp only [elementGraph, hsame]

theorem isSome_keyOf_elementGraph (a : GraphElement) :
    ((elementGraph w succ).keyOf a).isSome = true :=
  Option.isSome_iff_exists.2 ⟨_, Value.key?_of_ofGraph a.ofGraph⟩

theorem same_elementGraph_iff (a b : GraphElement) :
    (elementGraph w succ).same a b = true ↔
      (elementGraph w succ).keyOf a = (elementGraph w succ).keyOf b := by
  rw [elementGraph_eq]
  exact beq_iff_eq

end GraphRoutes.Session
