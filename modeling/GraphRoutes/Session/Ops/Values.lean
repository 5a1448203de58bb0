/-
**Operations on plain values: arithmetic, texts, collections and functions.**

Main definitions:

* `GraphRoutes.Session.add`, `GraphRoutes.Session.multiply`, `GraphRoutes.Session.remainder` —
  arithmetic;
* `GraphRoutes.Session.item`, `GraphRoutes.Session.lookUp`, `GraphRoutes.Session.size` — reading
  collections;
* `GraphRoutes.Session.Host.total`, `GraphRoutes.Session.Host.extreme` — folding sequences;
* `GraphRoutes.Session.Host.dictOf` — making dictionaries.
-/
import GraphRoutes.Session.Tests
import GraphRoutes.Text.Upper

set_option relaxedAutoImplicit false
set_option autoImplicit false

namespace GraphRoutes.Session

/-! ### Arithmetic and order -/

/-- A number. -/
def number (v : Value) : M Int := Act.ofOption .wrongType v.int?

/-- The sum of numbers; texts, lists and tuples are joined.  A tuple to which nothing is joined stays
the same object. -/
def add (a b : Value) : M Value := do
  match a.int?, b.int? with
  | some m, some n => pure (.int (m + n))
  | _, _ => do
    match a, b with
    | .str s, .str t => pure (.str (s ++ t))
    | .ref .list p, .ref .list q => do
      let w ← get
      World.newList (w.listAt p ++ w.listAt q)
    | .tuple [] _, .tuple _ _ => pure b
    | .tuple _ _, .tuple [] _ => pure a
    | a, b =>
      match a.tuple?, b.tuple? with
      | some xs, some ys => pure (.tuple (xs ++ ys) none)
      | _, _ => throw .wrongType

/-- The largest size that a sequence may be repeated to. -/
def repeatLimit : Nat := Nat.pow 2 28

/-- Items so many times over; a number below zero is taken for zero. -/
def times {α : Type} (xs : List α) (n : Int) : M (List α) :=
  if n < -sliceLimit - 1 ∨ sliceLimit < n then throw .overflow
  else if repeatLimit < xs.length * n.toNat then throw .outOfMemory
  else if xs.isEmpty then pure []
  else pure (List.replicate n.toNat xs).flatten

/-- A text, a list or a tuple so many times over. -/
def repeated (v : Value) (n : Int) : M Value := do
  match v with
  | .str s => do
    let cs ← times s.toList n
    pure (.str (String.ofList cs))
  | .ref .list place => do
    let w ← get
    let xs ← times (w.listAt place).toList n
    World.newList xs.toArray
  | .tuple xs m => do
    let ys ← times xs n
    pure (.tuple ys (if n = 1 then m else none))
  | v => do
    let xs ← Act.ofOption .wrongType v.tuple?
    let xs ← times xs n
    pure (.tuple xs none)

/-- The product of numbers, or of a number and a sequence. -/
def multiply (a b : Value) : M Value :=
  match a.int?, b.int? with
  | some m, some n => pure (.int (m * n))
  | some m, none => repeated b m
  | none, some n => repeated a n
  | none, none => throw .wrongType

/-- The remainder of a division towards minus infinity: it has the sign of the divisor. -/
def remainder (a b : Value) : M Value := do
  let m ← number a
  let n ← number b
  if n = 0 then throw .divisionByZero
  pure (.int (Int.fmod m n))

/-- Whether a value stands before another. -/
def isLess (a b : Value) : M Bool := World.look fun w => w.before a b

/-! ### Collections -/

/-- The number of items of a collection. -/
def size (v : Value) : M Value := do
  let w ← get
  match v with
  | .str s => pure (.int s.length)
  | .dict es _ => pure (.int es.size)
  | .orderedPath xs _ | .set xs _ => pure (.int xs.size)
  | .ref .list place => pure (.int (w.listAt place).size)
  | .ref .bag place => pure (.int (w.bagAt place).size)
  | v => do
    let xs ← Act.ofOption .wrongType v.tuple?
    pure (.int xs.length)

/-- The index that a position stands for among so many items; negative positions count from the
end. -/
def indexOf (position : Value) (count : Nat) : M Nat := do
  let i ← number position
  let j := if i < 0 then i + count else i
  if j < 0 then throw .badIndex
  pure j.toNat

/-- An item by its position. -/
def itemAt {α : Type} (xs : List α) (position : Value) : M α := do
  let i ← indexOf position xs.length
  Act.ofOption .badIndex xs[i]?

/-- An item of a collection. -/
def item (collection i : Value) : M Value := do
  let w ← get
  match collection with
  | .str s => do
    let c ← itemAt s.toList i
    pure (.str (String.singleton c))
  | .orderedPath xs _ => do
    let i ← indexOf i xs.size
    Act.ofOption .badIndex xs.items[i]?
  | .dict es _ => do
    let k ← keyOf i
    Act.ofOption .missingKey ((es.find? k).map (·.2))
  | .ref .list place => do
    let xs := w.listAt place
    let i ← indexOf i xs.size
    Act.ofOption .badIndex xs[i]?
  | v => do
    let xs ← Act.ofOption .wrongType v.tuple?
    itemAt xs i

/-- The value under a key of a dictionary, or a default. -/
def lookUp (dict key default : Value) : M Value := do
  match dict with
  | .dict es _ => do
    let k ← keyOf key
    pure (((es.find? k).map (·.2)).getD default)
  | _ => throw .noAttribute

/-- Adds an item to a list. -/
def append (list x : Value) : M Value := do
  match list with
  | .ref .list place => do
    modify fun w => { w with lists := w.lists.modify place fun xs => xs.push x }
    pure .null
  | _ => throw .noAttribute

/-- The entries of a dictionary under construction. -/
def entriesOf (d : Dictionary Key Value Value) : Value :=
  .dict (d.indexed fun e => (e.name, e.value)) none

/-- A dictionary with the entries of a list, whose keys differ. -/
def dictOfEntries (entries : List (Value × Value)) : Value :=
  .dict (.ofList (·.1.spell) entries) none

/-- Exactly `n` items of a sequence. -/
def Host.unpack (h : Host) (n : Nat) (v : Value) : M (List Value) := do
  let it ← iterate v
  let (xs, _) ← Route.takeUpTo h.source (n + 1) it
  if xs.length = n then pure xs else throw .badValue

namespace Host

/-- A dictionary of pairs. -/
def dictOf (h : Host) (pairs : Value) : M Value := do
  match pairs with
  | .dict es _ => pure (.dict es none)
  | pairs => do
    let it ← iterate pairs
    let d ← h.fold it (.empty : Dictionary Key Value Value) fun d pair => do
      match ← h.items pair with
      | [k, v] => do
        let key ← keyOf k
        pure (d.put key k v)
      | _ => throw .badValue
    pure (entriesOf d)

/-- The sum of a sequence, beginning with a value that is no text. -/
def total (h : Host) (v start : Value) : M Value := do
  let it ← iterate v
  match start with
  | .str _ => throw .wrongType
  | start => h.fold it start add

/-- The first item of an iterator whose key no other key beats, if there is an item. -/
def extreme (h : Host) (beats : Value → Value → M Bool) (key it : Value) : M (Option Value) := do
  let best ← h.fold it (none : Option (Value × Value)) fun best x => do
    let k ← match key with
      | .null => pure x
      | f => h.apply f [x]
    match best with
    | none => pure (some (k, x))
    | some b => do
      let better ← beats k b.1
      pure (some (if better then (k, x) else b))
  pure (best.map (·.2))

/-- The first of several values, or of the items of a sequence, whose key no other key beats.  Only
for a sequence there may be a default. -/
def extremeOf (h : Host) (beats : Value → Value → M Bool) (key : Value) (default : Option Value)
    (vs : List Value) : M Value := do
  match vs, default with
  | [], _ | _ :: _ :: _, some _ => throw .wrongType
  | [v], default => do
    let it ← iterate v
    let best ← h.extreme beats key it
    Act.ofOption .badValue (best.or default)
  | vs, none => do
    let it ← iterateItems .tuple vs
    let best ← h.extreme beats key it
    Act.ofOption .badValue best

/-- The next item of an iterator, or a default at its end. -/
def next (h : Host) (it : Value) (default : Option Value) : M Value := do
  match it with
  | .ref .iterator _ => do
    match ← h.pull it with
    | some v => pure v
    | none => Act.ofOption .exhausted default
  | _ => throw .wrongType

end Host

/-! ### Lazy sequences -/

/-- At most so many items of a sequence. -/
def takeItems (n r : Value) : M Value := do
  let left ← itemCount? n
  let source ← iterate r
  World.newCursor (.taking { left, source := some source })

/-- The values of a function on the items of a sequence, or of several in step. -/
def mapItems (f r : Value) (others : List Value) : M Value := do
  let it ← iterate r
  let others ← others.mapM iterate
  World.newCursor (.mapping f it others)

/-- The answers of a function, until one equals the sentinel. -/
def answersUntil (f sentinel : Value) : M Value :=
  if f.callable then World.newCursor (.calling f sentinel false) else throw .wrongType

/-- The numbers from `start` on, by steps of one size. -/
def countFrom (start step : Value) : M Value := do
  let first ← number start
  let size ← number step
  World.newCursor (.countFrom (if size = 1 then .int first else start) step)

/-- The items of a sequence over and over. -/
def loop (r : Value) : M Value := do
  let it ← iterate r
  World.newCursor (.looping { source := some it })

/-- The upper case of a text. -/
def upperCase (v : Value) : M Value :=
  match v with
  | .str s => pure (.str (Text.upper s))
  | _ => throw .noAttribute

end GraphRoutes.Session
