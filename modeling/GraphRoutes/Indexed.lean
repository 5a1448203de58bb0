/-
**Items in a row, with an index of their keys.**

A collection that does not change keeps its items in a row, and tells by an index where each key
stands first.  The index is made when it is first asked for, unless it is at hand, and says nothing
that the items do not say themselves.

Main definitions:

* `GraphRoutes.Indexed` — items in a row, with their index;
* `GraphRoutes.Indexed.ofList`, `GraphRoutes.Indexed.push`, `GraphRoutes.Dictionary.indexed` — making
  such rows;
* `GraphRoutes.Indexed.position?`, `GraphRoutes.Indexed.find?` — looking a key up.

Main results:

* `GraphRoutes.Indexed.position?_ofList`, `GraphRoutes.Indexed.position?_push` — the index agrees with
  a search through the items.
-/
import GraphRoutes.Dictionary

set_option relaxedAutoImplicit false
set_option autoImplicit false

namespace GraphRoutes

/-- Items in a row, and the position of the first item with each key. -/
structure Indexed (key α : Type) [DecidableEq key] [Hashable key] where
  items : Array α
  positions : Thunk (Std.HashMap key Nat)

namespace Indexed

variable {key name α β : Type} [DecidableEq key] [Hashable key]

instance : Inhabited (Indexed key α) := ⟨{ items := #[], positions := .pure {} }⟩

/-! ### Reading -/

/-- The items, in order. -/
def toList (r : Indexed key α) : List α := r.items.toList

/-- The number of items. -/
def size (r : Indexed key α) : Nat := r.items.size

/-- The position of the first item with a key. -/
def position? (r : Indexed key α) (k : key) : Option Nat := r.positions.get[k]?

/-- The first item with a key. -/
def find? (r : Indexed key α) (k : key) : Option α := (r.position? k).bind fun i => r.items[i]?

/-- Whether some item has a key. -/
def contains (r : Indexed key α) (k : key) : Bool := (r.position? k).isSome

/-! ### Making -/

/-- An index with the positions of the keys of a row that begins at a position. -/
def extended (keyOf : α → key) : Nat → List α → Std.HashMap key Nat → Std.HashMap key Nat
  | _, [], index => index
  | i, x :: xs, index => extended keyOf (i + 1) xs (index.insertIfNew (keyOf x) i)

/-- A row of items, with the key of each. -/
def ofList (keyOf : α → key) (items : List α) : Indexed key α where
  items := items.toArray
  positions := .mk fun _ => extended keyOf 0 items {}

/-- One item more, with its key. -/
def push (k : key) (x : α) (r : Indexed key α) : Indexed key α where
  items := r.items.push x
  positions := .pure (r.positions.get.insertIfNew k r.items.size)

/-- What is extended keeps its positions, and a new key stands where it is found first. -/
theorem getElem?_extended (keyOf : α → key) (k : key) (i : Nat) (xs : List α)
    (index : Std.HashMap key Nat) :
    (extended keyOf i xs index)[k]?
      = (index[k]?).or ((xs.findIdx? fun x => keyOf x == k).map (· + i)) := by
  induction xs generalizing i index with
  | nil => simp [extended]
  | cons x xs ih =>
    rw [extended, ih, Std.HashMap.getElem?_insertIfNew, List.findIdx?_cons]
    by_cases hx : keyOf x = k
    · subst hx
      by_cases hm : keyOf x ∈ index
      · simp [hm]
      · simp [hm]
    · cases index[k]? <;> simp [hx, Function.comp_def, Nat.add_comm, Nat.add_left_comm]

/-- The index of a row agrees with a search for the key. -/
theorem position?_ofList (keyOf : α → key) (items : List α) (k : key) :
    (ofList keyOf items).position? k = items.findIdx? fun x => keyOf x == k := by
  simp [position?, ofList, Thunk.get, getElem?_extended]

/-- If the index of a row agrees with a search, so does that of the row with one item more. -/
theorem position?_push {keyOf : α → key} {r : Indexed key α} {x : α}
    (h : ∀ k, r.position? k = r.toList.findIdx? fun y => keyOf y == k) (k : key) :
    (r.push (keyOf x) x).position? k
      = (r.push (keyOf x) x).toList.findIdx? fun y => keyOf y == k := by
  have hk := h k
  simp only [position?, toList] at hk
  simp only [position?, push, Thunk.pure, Thunk.get, toList, Array.toList_push,
    List.findIdx?_append, Std.HashMap.getElem?_insertIfNew, List.findIdx?_cons]
  by_cases e : keyOf x = k
  · subst e
    by_cases hm : keyOf x ∈ r.positions.fn ()
    · simp_all [Thunk.get, ← hk]
    · simp_all [Thunk.get, ← hk]
  · simp_all [Thunk.get]

end Indexed

/-- The entries of a dictionary as a row, with the index that the dictionary has. -/
def Dictionary.indexed {key name α β : Type} [DecidableEq key] [Hashable key]
    (f : Entry key name β → α) (d : Dictionary key name β) : Indexed key α where
  items := d.entries.map f
  positions := .pure d.positions

end GraphRoutes
