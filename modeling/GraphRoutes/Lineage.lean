/-
**What a lineage tells: a repeated edge, and the graph that was walked.**

Walking back from a tracked element one may ask for the first edge that is met for the second time,
or collect every edge of the lineages of a whole route into a new store.

Main definitions:

* `GraphRoutes.firstRepeat` — the first repeated edge among the items of a lineage;
* `GraphRoutes.EdgeFacts`, `GraphRoutes.Store.addFacts` — an edge with all that it says, and how a
  store takes it over;
* `GraphRoutes.Gathering.absorb` — collecting the edges of lineages.
-/
import GraphRoutes.Element
import Std.Data.HashSet

set_option relaxedAutoImplicit false
set_option autoImplicit false

namespace GraphRoutes

/-! ### Repeated edges -/

/-- What a search for a repeated item comes to. -/
inductive Repeat (α : Type) where
  /-- The first item that is met again. -/
  | found (a : α)
  /-- So many items were remembered that the search is over. -/
  | gaveUp
  /-- There are no items left. -/
  | ranOut
  deriving DecidableEq, Repr

/-- The first item whose key was seen before.  Items without a key are passed over.  The search is
over once `remaining` more items would have to be remembered (no number: never). -/
def firstRepeat {α κ : Type} [DecidableEq κ] [Hashable κ] (keyOf : α → Option κ) :
    Std.HashSet κ → Option Nat → List α → Repeat α
  | _, _, [] => .ranOut
  | seen, remaining, a :: as =>
    match keyOf a with
    | none => firstRepeat keyOf seen remaining as
    | some k =>
      if seen.contains k then .found a
      else
        match remaining with
        | none => firstRepeat keyOf (seen.insert k) none as
        | some 0 => .gaveUp
        | some (n + 1) => firstRepeat keyOf (seen.insert k) (some n) as

/-! ### The graph of the lineages -/

/-- An edge with all that it says: its vertices with their documents, its label, its document. -/
structure EdgeFacts (ι ℓ δ : Type) where
  source : ι
  sourceDocument : Option δ
  target : ι
  targetDocument : Option δ
  label : ℓ
  document : Option δ
  deriving Repr

variable {ι κ ℓ δ : Type} [DecidableEq κ] [Hashable κ]

/-- Sets the document of a vertex if there is one. -/
def Store.addDocument (keyOf : ι → Option κ) (id : ι) (document : Option δ) :
    Store.Edit ι κ ℓ δ Unit := do
  match document with
  | none => pure ()
  | some d => do
    let _ ← Store.addVertex keyOf id (some d)

/-- Adds an edge and the documents of its vertices. -/
def Store.addFacts (keyOf : ι → Option κ) (f : EdgeFacts ι ℓ δ) :
    Store.Edit ι κ ℓ δ Unit := do
  let _ ← Store.addEdge keyOf f.source f.target f.label f.document
  Store.addDocument keyOf f.source f.sourceDocument
  Store.addDocument keyOf f.target f.targetDocument

/-- A store in the making, with the keys of the edges that it already holds. -/
structure Gathering (ι κ ℓ δ ηkey : Type) [DecidableEq κ] [Hashable κ] [DecidableEq ηkey]
    [Hashable ηkey] where
  store : Store ι κ ℓ δ := {}
  seen : Std.HashSet ηkey := {}

/-- Takes over an edge, told by its key, unless it is held already. -/
def Gathering.absorb {ηkey : Type} [DecidableEq ηkey] [Hashable ηkey] (keyOf : ι → Option κ)
    (edge : ηkey) (facts : EdgeFacts ι ℓ δ) (g : Gathering ι κ ℓ δ ηkey) :
    Except StoreFault (Gathering ι κ ℓ δ ηkey) :=
  if g.seen.contains edge then .ok g
  else
    match Store.addFacts keyOf facts g.store with
    | .ok _ store => .ok { store, seen := g.seen.insert edge }
    | .error fault _ => .error fault

end GraphRoutes
