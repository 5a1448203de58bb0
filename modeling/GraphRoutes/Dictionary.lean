/-
**Dictionaries that remember the order and the spelling of their names.**

Two names may be spelled differently and still be the same: what tells them apart is their key.
A dictionary keeps one entry per key, at the place and under the name of the first mention, with
the value of the last.  An index tells the position of each key, so that no look-up has to go
through the entries; it says nothing that the entries do not say themselves.

Main definitions:

* `GraphRoutes.Dictionary` — entries in order of first mention, with their index;
* `GraphRoutes.Dictionary.toList`, `GraphRoutes.Dictionary.keys` — the entries, and their keys;
* `GraphRoutes.Dictionary.position?`, `GraphRoutes.Dictionary.find?` — the place of a key, and the
  value under it;
* `GraphRoutes.Dictionary.adjust`, `GraphRoutes.Dictionary.put` — changing or adding an entry.

Main results:

* `GraphRoutes.Dictionary.position?_eq`, `GraphRoutes.Dictionary.find?_eq` — the index agrees with
  a search through the entries;
* `GraphRoutes.Dictionary.toList_adjust`, `GraphRoutes.Dictionary.toList_put_of_notMem`,
  `GraphRoutes.Dictionary.toList_put_of_mem` — what a change does to the entries;
* `GraphRoutes.Dictionary.find?_adjust` — and to the values;
* `GraphRoutes.Dictionary.keys_adjust` — and to the keys.
-/
import Std.Data.HashMap

set_option relaxedAutoImplicit false
set_option autoImplicit false

namespace GraphRoutes

/-- One entry: the key, the name under which it was first mentioned, and the value. -/
structure Entry (key name β : Type) where
  key : key
  name : name
  value : β
  deriving Repr

/-- The entry with a changed value. -/
def Entry.update {key name β : Type} (f : β → β) (e : Entry key name β) : Entry key name β :=
  { e with value := f e.value }

/-- Entries in order of first mention, and the position of each key. -/
structure Dictionary (key name β : Type) [DecidableEq key] [Hashable key] where
  entries : Array (Entry key name β) := #[]
  positions : Std.HashMap key Nat := {}
  /-- A key stands at the position of its first entry. -/
  positions_eq : ∀ x, positions[x]? = entries.findIdx? (·.key == x) := by simp

namespace Dictionary

variable {key name β : Type}

/-- The dictionary without entries. -/
def empty [DecidableEq key] [Hashable key] : Dictionary key name β := {}

/-! ### Entries in a row -/

/-- Changes the value of the first entry with the key `x`, or adds an entry for it at the end. -/
def adjustIn [DecidableEq key] (x : key) (n : name) (f : Option β → β) :
    List (Entry key name β) → List (Entry key name β)
  | [] => [⟨x, n, f none⟩]
  | e :: es => if e.key = x then e.update (f ∘ some) :: es else e :: adjustIn x n f es

/-- A change of values leaves every key in its place. -/
theorem findIdx?_modify (entries : Array (Entry key name β)) (i : Nat) (f : β → β)
    (p : key → Bool) :
    (entries.modify i (Entry.update f)).findIdx? (fun e => p e.key)
      = entries.findIdx? fun e => p e.key := by
  have byKeys (xs : Array (Entry key name β)) :
      xs.findIdx? (fun e => p e.key) = (xs.map (·.key)).findIdx? p := by
    simp [Array.findIdx?_map, Function.comp_def]
  rw [byKeys, byKeys]
  congr 1
  apply Array.ext
  · simp
  · intro j _ _
    simp only [Array.getElem_map, Array.getElem_modify, Entry.update]
    split <;> rfl

variable [DecidableEq key] [Hashable key]

/-! ### Reading -/

/-- The entries, in order. -/
def toList (d : Dictionary key name β) : List (Entry key name β) := d.entries.toList

/-- The keys, in order. -/
def keys (d : Dictionary key name β) : List key := d.toList.map (·.key)

/-- The number of entries. -/
def size (d : Dictionary key name β) : Nat := d.entries.size

/-- The position of a key. -/
def position? (d : Dictionary key name β) (x : key) : Option Nat := d.positions[x]?

/-- The entry at a position. -/
def entryAt? (d : Dictionary key name β) (i : Nat) : Option (Entry key name β) := d.entries[i]?

/-- The value under a key. -/
def find? (d : Dictionary key name β) (x : key) : Option β :=
  ((d.position? x).bind d.entryAt?).map (·.value)

/-- Whether there is an entry for a key. -/
def contains (d : Dictionary key name β) (x : key) : Bool := (d.position? x).isSome

@[simp] theorem length_toList (d : Dictionary key name β) : d.toList.length = d.size := rfl

/-- The index agrees with a search for the key. -/
theorem position?_eq (d : Dictionary key name β) (x : key) :
    d.position? x = d.toList.findIdx? (·.key == x) := by
  rw [position?, d.positions_eq, toList, ← List.findIdx?_toArray, Array.toArray_toList]

/-- The value under a key is that of its first entry. -/
theorem find?_eq (d : Dictionary key name β) (x : key) :
    d.find? x = (d.toList.find? (·.key == x)).map (·.value) := by
  have h : d.entryAt? = fun i => d.toList[i]? := by funext i; simp [entryAt?, toList]
  rw [find?, position?_eq, List.find?_eq_bind_findIdx?_getElem?, h]

/-! ### Changing -/

/-- Changes the value at a position. -/
def modifyAt (i : Nat) (f : β → β) (d : Dictionary key name β) : Dictionary key name β where
  entries := d.entries.modify i (Entry.update f)
  positions := d.positions
  positions_eq x := by rw [d.positions_eq, findIdx?_modify d.entries i f (· == x)]

/-- Adds an entry at the end for a key that has none. -/
def append (x : key) (n : name) (v : β) (d : Dictionary key name β) (h : d.position? x = none) :
    Dictionary key name β :=
  let i := d.entries.size
  { entries := d.entries.push ⟨x, n, v⟩
    positions := d.positions.insert x i
    positions_eq y := by
      have hx := d.positions_eq x
      rw [Std.HashMap.getElem?_insert, Array.findIdx?_push, d.positions_eq y]
      by_cases e : x = y
      · subst e
        rw [position?] at h
        simp [← hx, h, i]
      · simp [e] }

/-- Changes the value under the key `x`, or adds an entry for it at the end. -/
def adjust (x : key) (n : name) (f : Option β → β) (d : Dictionary key name β) :
    Dictionary key name β :=
  match h : d.position? x with
  | some i => d.modifyAt i (f ∘ some)
  | none => d.append x n (f none) h

/-- Sets the value under the key `x`. -/
def put (x : key) (n : name) (v : β) (d : Dictionary key name β) : Dictionary key name β :=
  d.adjust x n (fun _ => v)

/-- A change concerns the first entry of its key, and adds one at the end if there is none. -/
theorem toList_adjust (x : key) (n : name) (f : Option β → β) (d : Dictionary key name β) :
    (d.adjust x n f).toList = adjustIn x n f d.toList := by
  have inRow (es : List (Entry key name β)) : adjustIn x n f es =
      match es.findIdx? (·.key == x) with
      | some i => es.modify i (Entry.update (f ∘ some))
      | none => es ++ [⟨x, n, f none⟩] := by
    induction es with
    | nil => rfl
    | cons e es ih =>
      by_cases he : e.key = x
      · simp [adjustIn, List.findIdx?_cons, he]
      · simp only [adjustIn, List.findIdx?_cons, beq_iff_eq, he, if_false, ih]
        cases es.findIdx? (·.key == x) <;> simp
  rw [inRow, ← position?_eq, adjust]
  split
  · rename_i i h
    simp [h, toList, modifyAt]
  · rename_i h
    simp [h, toList, append]

@[simp] theorem find?_empty (x : key) : (empty : Dictionary key name β).find? x = none := by
  simp [find?_eq, toList, empty]

/-- A change is seen under its own key only. -/
theorem find?_adjust (x y : key) (n : name) (f : Option β → β) (d : Dictionary key name β) :
    (d.adjust x n f).find? y = if x = y then some (f (d.find? x)) else d.find? y := by
  simp only [find?_eq, toList_adjust]
  induction d.toList with
  | nil => by_cases h : x = y <;> simp [adjustIn, h]
  | cons e es ih =>
    by_cases hx : e.key = x
    · by_cases hy : e.key = y <;> simp_all [adjustIn, Entry.update]
    · by_cases hy : e.key = y
      · subst hy
        have : ¬ x = e.key := fun h => hx h.symm
        simp [adjustIn, hx, this]
      · simp [adjustIn, hx, hy, ih]

/-- A change adds its key at the end if there is no entry for it. -/
theorem keys_adjust (x : key) (n : name) (f : Option β → β) (d : Dictionary key name β) :
    (d.adjust x n f).keys = if x ∈ d.keys then d.keys else d.keys ++ [x] := by
  have inRow (es : List (Entry key name β)) : (adjustIn x n f es).map (·.key)
      = if x ∈ es.map (·.key) then es.map (·.key) else es.map (·.key) ++ [x] := by
    induction es with
    | nil => simp [adjustIn]
    | cons e es ih =>
      by_cases hx : e.key = x
      · simp [adjustIn, hx, Entry.update]
      · have hx' : ¬ x = e.key := fun h => hx h.symm
        by_cases hm : x ∈ List.map (fun e => e.key) es <;> simp_all [adjustIn]
  rw [keys, toList_adjust, inRow]
  rfl

/-- A value under a new key stands at the end. -/
theorem toList_put_of_notMem {x : key} (n : name) (v : β) {d : Dictionary key name β}
    (h : x ∉ d.keys) : (d.put x n v).toList = d.toList ++ [⟨x, n, v⟩] := by
  rw [keys] at h
  rw [put, toList_adjust]
  generalize d.toList = es at h ⊢
  induction es with
  | nil => rfl
  | cons e es ih =>
    rw [List.map_cons, List.mem_cons, not_or] at h
    rw [adjustIn, if_neg fun he => h.1 he.symm, ih h.2, List.cons_append]

/-- A value under a key that is there, and is there once, takes the place of the old one. -/
theorem toList_put_of_mem {x : key} (n : name) (v : β) {d : Dictionary key name β} (h : x ∈ d.keys)
    (hd : d.keys.Nodup) :
    (d.put x n v).toList = d.toList.map fun e => if e.key = x then { e with value := v } else e := by
  rw [keys] at h hd
  rw [put, toList_adjust]
  generalize d.toList = es at h hd ⊢
  induction es with
  | nil => cases h
  | cons e es ih =>
    rw [List.map_cons, List.nodup_cons] at hd
    rw [adjustIn, List.map_cons]
    by_cases he : e.key = x
    · -- no other entry has the key
      have rest : es.map (fun e => if e.key = x then { e with value := v } else e) = es := by
        refine (List.map_congr_left fun y hy => if_neg fun hyx => hd.1 ?_).trans (List.map_id' es)
        rw [he, ← hyx]
        exact List.mem_map_of_mem hy
      rw [if_pos he, if_pos he, rest]
      rfl
    · rw [if_neg he, if_neg he]
      rw [List.map_cons, List.mem_cons] at h
      rw [ih (h.resolve_left fun hx => he hx.symm) hd.2]

end Dictionary

end GraphRoutes
