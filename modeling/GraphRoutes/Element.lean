/-
**Elements, and the lineage that a tracked element carries.**

An element is a plain vertex or edge, or one that is wrapped so that it remembers how it was
reached.  A wrapper is a layer, of vertices or of edges, around an element: it is a root, or it is
linked to the element from which it was reached.  A wrapped vertex wraps each edge that it gives and
links it to itself, a wrapped edge does the same with its vertices, and nothing else is kept: the
lineage of an element is the chain of its links.  Wrapping may be repeated, and each layer then has
a lineage of its own.

Wrappers may be alike and still be told apart by marks, which they are given by whoever hands them
out.  What this module makes has no mark, and what it says of an element does not depend on marks.

A wrapper says what it is by its layer, whatever it holds.  It works as a vertex only if it is one
all the way through, so `GraphRoutes.Element.uniform` asks every layer and the plain thing under
them.

Main definitions:

* `GraphRoutes.Element` — plain and wrapped elements;
* `GraphRoutes.Element.strip`, `GraphRoutes.Element.base` — one layer less, and no layer at all;
* `GraphRoutes.Element.reach` — what an element leads to, with the links that its layers ask for;
* `GraphRoutes.Element.backward`, `GraphRoutes.Element.brokenAt?` — the lineage from the element to
  its root, and where it breaks off.

Main results:

* `GraphRoutes.Element.base_strip` — taking off a layer keeps the base;
* `GraphRoutes.Element.base_marked` — so does marking, but for the mark of the base;
* `GraphRoutes.Element.base_reach` — what is reached is reached, whatever it is wrapped in.
-/
import GraphRoutes.Mark
import GraphRoutes.Store

set_option relaxedAutoImplicit false
set_option autoImplicit false

namespace GraphRoutes

/-- What a layer wraps. -/
inductive Layer where
  | vertex
  | edge
  deriving DecidableEq, Repr, Ord

/-- Plain elements in `α`, and wrapped elements. -/
inductive Element (α : Type) where
  | plain (a : α)
  /-- A wrapped element at which tracking began. -/
  | root (layer : Layer) (inner : Element α) (mark : Mark)
  /-- A wrapped element that was reached from `previous`. -/
  | via (layer : Layer) (inner previous : Element α) (mark : Mark)
  deriving DecidableEq, Repr

namespace Element

variable {α : Type}

/-- Whether the element is wrapped. -/
def tracked : Element α → Bool
  | root _ _ _ | via _ _ _ _ => true
  | plain _ => false

/-- One layer less; an element without layers is left as it is. -/
def strip : Element α → Element α
  | root _ x _ | via _ x _ _ => x
  | x => x

/-- What is under all layers. -/
def base : Element α → α
  | plain a => a
  | root _ x _ | via _ x _ _ => base x

/-- The element without any layer. -/
def stripAll (x : Element α) : Element α := plain x.base

@[simp] theorem base_strip (x : Element α) : x.strip.base = x.base := by
  cases x <;> rfl

@[simp] theorem base_stripAll (x : Element α) : x.stripAll.base = x.base := rfl

/-- The outermost layer; without layers, what `sort` says of the plain element. -/
def layer? (sort : α → Option Layer) : Element α → Option Layer
  | plain a => sort a
  | root l _ _ | via l _ _ _ => some l

/-- Whether every layer is one of `l`, and `sort` says the same of what is under them. -/
def uniform (sort : α → Option Layer) (l : Layer) : Element α → Bool
  | plain a => sort a == some l
  | root m x _ | via m x _ _ => m == l && uniform sort l x

/-- An element that is an `l` all the way through is one on the outside. -/
theorem layer?_of_uniform (sort : α → Option Layer) (l : Layer) (x : Element α)
    (h : x.uniform sort l = true) : x.layer? sort = some l := by
  cases x <;> simp_all [uniform, layer?]

/-! ### Marks -/

/-- The mark of the outermost wrapper. -/
def mark : Element α → Mark
  | root _ _ m | via _ _ _ m => m
  | plain _ => none

/-- Marks every wrapper around what is plain with a number of its own, from `n` on, down to the first
that has a mark; `plainMarked` does the same with what is plain.  The result comes with the next
number. -/
def marked (plainMarked : Nat → α → α × Nat) (n : Nat) : Element α → Element α × Nat
  | plain a => ((plainMarked n a).map plain id)
  | root l x none =>
    let (x, next) := marked plainMarked (n + 1) x
    (root l x (some n), next)
  | via l x p none =>
    let (x, next) := marked plainMarked (n + 1) x
    (via l x p (some n), next)
  | x => (x, n)

/-- What does not see the marks of plain things does not see the marks of wrappers. -/
theorem base_marked {γ : Type} (plainMarked : Nat → α → α × Nat) (seen : α → γ)
    (h : ∀ n a, seen (plainMarked n a).1 = seen a) (n : Nat) (x : Element α) :
    seen (x.marked plainMarked n).1.base = seen x.base := by
  induction x generalizing n with
  | plain a => simp [marked, base, h]
  | root l x m ih => cases m <;> simp [marked, base, ih]
  | via l x p m ih _ => cases m <;> simp [marked, base, ih]

/-! ### Steps between elements -/

/-- The element `y` as it is reached from `x`: each layer of `x` wraps it as a `l`, and links it to
that layer and what is under it. -/
def reach (l : Layer) : Element α → Element α → Element α
  | plain _, y => y
  | root k x m, y => via l (reach l x y) (root k x m) none
  | via k x p m, y => via l (reach l x y) (via k x p m) none

/-- What is reached is reached, whatever it is wrapped in. -/
@[simp] theorem base_reach (l : Layer) (x y : Element α) : (x.reach l y).base = y.base := by
  induction x with
  | plain => rfl
  | root k x m ih => simpa [reach, base] using ih
  | via k x p m ih _ => simpa [reach, base] using ih

/-! ### Lineage -/

/-- The lineage of a wrapped element from itself towards its root, each item with one layer less;
what is not wrapped has none. -/
def links : Element α → List (Element α)
  | root _ x _ => [x]
  | via _ x p _ => x :: links p
  | plain _ => []

/-- The plain thing at which the links of an element break off; nothing if they end in a root. -/
def brokenAt? : Element α → Option α
  | root _ _ _ => none
  | via _ _ p _ => brokenAt? p
  | plain a => some a

/-- The lineage from an element back to its root.  An element that is not wrapped is its own
lineage. -/
def backward (x : Element α) : List (Element α) :=
  if x.tracked then x.links else [x]

/-- Whether the lineage of an element can be read to its end. -/
def sound (x : Element α) : Bool := !x.tracked || x.brokenAt?.isNone

/-- The lineage from the root to the element, if it can be read to its end. -/
def path? (x : Element α) : Option (List (Element α)) :=
  if x.sound then some x.backward.reverse else none

@[simp] theorem links_root (l : Layer) (x : Element α) (m : Mark) : (root l x m).links = [x] := rfl

@[simp] theorem links_via (l : Layer) (x p : Element α) (m : Mark) :
    (via l x p m).links = x :: p.links := rfl

@[simp] theorem brokenAt?_root (l : Layer) (x : Element α) (m : Mark) :
    (root l x m).brokenAt? = none := rfl

@[simp] theorem brokenAt?_via (l : Layer) (x p : Element α) (m : Mark) :
    (via l x p m).brokenAt? = p.brokenAt? := rfl

/-- Reaching on from an element with a sound lineage keeps the lineage sound. -/
theorem brokenAt?_reach (l : Layer) (x y : Element α) (h : x.tracked = true) :
    (x.reach l y).brokenAt? = x.brokenAt? := by
  cases x with
  | plain => simp [tracked] at h
  | root => rfl
  | via => rfl

end Element

end GraphRoutes
