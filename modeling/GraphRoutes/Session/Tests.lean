/-
**The tests of filters, and the images of projections.**

Main definitions:

* `GraphRoutes.Session.Host.looksAhead` — whether the route behind an element has an allowed size;
* `GraphRoutes.Session.Test.holds` — whether a filter keeps an item;
* `GraphRoutes.Session.Host.sortBy` — stable sorting by keys;
* `GraphRoutes.Session.Image.apply` — the image of an item;
* `GraphRoutes.Session.Parts.opened` — an item of a flattening sequence as an iterator.
-/
import GraphRoutes.Route.Lookahead
import GraphRoutes.Session.Descents
import GraphRoutes.Session.Edges
import GraphRoutes.Sorting.Stable

set_option relaxedAutoImplicit false
set_option autoImplicit false

namespace GraphRoutes.Session

open GraphRoutes.Route

/-! ### Counts -/

/-- The largest number of items that a slice may be asked for. -/
def sliceLimit : Int := 9223372036854775807

/-- A number of items. -/
def itemCount (n : Int) : M Nat :=
  if 0 ≤ n ∧ n ≤ sliceLimit then pure n.toNat else throw .badValue

/-- A number of items, or no number. -/
def itemCount? (v : Value) : M (Option Nat) := do
  match v, v.int? with
  | .null, _ => pure none
  | _, some n => do
    let n ← itemCount n
    pure (some n)
  | _, none => throw .badValue

namespace Host

/-- Whether the route that `made` makes of an element has an allowed size. -/
def sizeAllowed (h : Host) (bounds : Bounds) (made : Value → M Value) (x : Value) : M Bool :=
  lookahead bounds made itemCount openRoute h.source x

/-- Whether the route behind an element has an allowed size.  A bound that is no number is refused
when it is first used: the largest size before the route is made, the least size alone after that,
and next to a largest one after counting. -/
def looksAhead (h : Host) (f least most x : Value) : M Bool := do
  match least, most with
  | .null, .null => h.sizeAllowed {} (fun x => h.apply f [x]) x
  | least, .null =>
    match least.int? with
    | some n => h.sizeAllowed { least := some n } (fun x => h.apply f [x]) x
    | none => do
      let _ ← h.apply f [x]
      throw .badValue
  | least, most => do
    let n ← Act.ofOption .wrongType most.int?
    match least, least.int? with
    | .null, _ => h.sizeAllowed { most := some n } (fun x => h.apply f [x]) x
    | _, some m => h.sizeAllowed { least := some m, most := some n } (fun x => h.apply f [x]) x
    | _, none => do
      let _ ← h.sizeAllowed { most := some n } (fun x => h.apply f [x]) x
      throw .wrongType

/-- Whether children lead from an element back to itself within a bound. -/
def closesCycle (h : Host) (children bound x : Value) : M Bool :=
  h.sizeAllowed {} (openSearch { shape := { scope := .cycles }, children, pred := bound }) x

end Host

/-- Adds a value to a set that may grow. -/
def addTo (seen x : Value) : M Unit := do
  match seen with
  | .ref .bag place => do
    let k ← keyOf x
    modify fun w => { w with bags := w.bags.modify place (Bag.add k x) }
  | _ => throw .noAttribute

/-- Whether a filter keeps an item. -/
def Test.holds (h : Host) : Test → Value → M Bool
  | .equals v negated, x => do
    let r ← areSame x v
    pure (r != negated)
  | .among pool negated, x => do
    let k ← soughtKey x
    let w ← get
    pure (w.inPool k pool != negated)
  | .projects f wanted, x => do
    let y ← h.apply f [x]
    if wanted.isSet then inSet wanted y else areSame y wanted
  | .idMatches m negated, x => do
    let id ← nodeId x
    let r ← h.matchesValue m id
    pure (r != negated)
  | .labelMatches m, x => do
    let l ← nodeLabel x
    h.matchesValue m l
  | .kindMatches m, x => do
    let k ← nodeKind x
    h.matchesValue m k
  | .hasProperty key value, x => do
    match ← nodeDocument x with
    | .dict entries _ => do
      let k ← keyOf key
      areSame (.ofOption ((entries.find? k).map (·.2))) value
    | _ => pure false
  | .looksAhead f least most negated, x => do
    let r ← h.looksAhead f least most x
    pure (r != negated)
  | .closesCycle children bound negated, x => do
    let r ← h.closesCycle children bound x
    pure (r != negated)
  | .unseen seen update, x =>
    Route.unseen (fun x => h.contains x seen) (addTo seen) (isTrue update) x

/-! ### Sorting -/

/-- Whether a sort key stands before another; equal keys are told by their positions. -/
def keyBefore (w : World) (a b : Value × Nat) : Except Fault Bool := do
  if ← w.same a.1 b.1 then .ok (a.2 < b.2) else w.before a.1 b.1

/-- Keyed values in stable order of their keys. -/
def sortKeyed {α : Type} (keyed : List (Value × α)) : M (List α) := do
  let placed := keyed.zipIdx.map fun (x, i) => ((x.1, i), x.2)
  let sorted ← World.look fun w => Sorting.sortByKey (keyBefore w) placed
  pure (sorted.map (·.2))

/-- The items of an iterator in stable order of their keys; each key is computed once. -/
def Host.sortBy (h : Host) (key it : Value) : M (List Value) := do
  let keyed ← h.fold it (#[] : Array (Value × Value)) fun keyed x => do
    let k ← h.apply key [x]
    pure (keyed.push (k, x))
  sortKeyed keyed.toList

/-! ### Images -/

/-- What a step does with the route of a vertex before it hands it out. -/
def Post.apply (h : Host) (post : Post) (sub : Value) : M Value := do
  match post with
  | .none => pure sub
  | .calls f => h.apply f [sub]
  | .sorts key => do
    let it ← iterate sub
    let xs ← h.sortBy key it
    World.newList xs.toArray

/-- The vertices at the far ends of the edges that a step in a direction follows. -/
def farVertices (direction : Direction) (edges : Value) : M Value := do
  let it ← openRoute edges
  World.newCursor (.each (match direction with
    | .outgoing => .endOf .target
    | .incoming => .endOf .source
    | .both => .farVertex .null) it)

/-- The image of an item. -/
def Image.apply (h : Host) : Image → Value → M Value
  | .endOf i, x => endNode x i
  | .farVertex onUnknown, x => h.farVertex x onUnknown
  | .nearVertex onUnknown, x => h.nearVertex x onUnknown
  | .document, x => nodeDocument x
  | .pairedWith f, x => do
    let y ← h.apply f [x]
    pure (.tuple [x, y] none)
  | .pairOf f g, x => do
    let y ← h.apply f [x]
    let z ← h.apply g [x]
    pure (.tuple [y, z] none)
  | .tracked, x => pure (x.wrap .vertex)
  | .route, x => pure (ensureRoute x)
  | .group direction gives labels post, x => do
    let edges ← incidentEdges x direction labels
    let sub ← match gives with
      | .edges => pure edges
      | .vertices => farVertices direction edges
    post.apply h sub

/-! ### Parts -/

/-- An item of a flattening sequence as an iterator over its part. -/
def Parts.opened (h : Host) : Parts → Value → M Value
  | .routes, x => openRoute x
  | .sections f sectionOf, x => do
    let s ← h.apply sectionOf [x]
    let r ← h.apply f [s]
    openRoute r
  | .contexts f sectionOf, x => do
    let s ← h.apply sectionOf [x]
    let r ← h.apply f [x, s]
    openRoute r
  | .sortedSections key sectionOf, x => do
    let s ← h.apply sectionOf [x]
    let it ← openRoute s
    let xs ← h.sortBy key it
    let sorted ← World.newList xs.toArray
    iterate sorted

end GraphRoutes.Session
