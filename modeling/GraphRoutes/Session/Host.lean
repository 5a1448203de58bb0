/-
**What the operations of a session ask of the session: calls, and the items of sequences.**

An operation may call a function of the program or read a lazy sequence, and either may lead to any
other operation.  So operations are written over a host, which calls and reads for them.

Main definitions:

* `GraphRoutes.Session.Host` — calls and reads;
* `GraphRoutes.Session.iterate`, `GraphRoutes.Session.openRoute` — an iterator over a sequence, and
  over a route;
* `GraphRoutes.Session.Host.fold`, `GraphRoutes.Session.Host.items` — reading to the end;
* `GraphRoutes.Session.keyOf`, `GraphRoutes.Session.inSet`, `GraphRoutes.Session.Host.contains` —
  keys and membership;
* `GraphRoutes.Session.Host.resolve` — resolving a condition.
-/
import GraphRoutes.Dictionary
import GraphRoutes.Session.Display

set_option relaxedAutoImplicit false
set_option autoImplicit false

namespace GraphRoutes.Session

/-- What operations ask of the session. -/
structure Host where
  /-- Calls a value with arguments, by position and by name. -/
  call : Value → List Value → List (String × Value) → M Value
  /-- The next item of an iterator. -/
  pull : Value → M (Option Value)
  /-- How many items may be read in one go. -/
  fuel : Nat

/-! ### Sequences and routes -/

/-- An iterator over items that are at hand. -/
def iterateItems (of : ItemsOf) (xs : List Value) : M Value := World.newCursor (.items of xs)

/-- An iterator over a sequence. -/
def iterate (v : Value) : M Value := do
  match v with
  | .str s =>
    let cs := s.toList
    iterateItems (.text (cs.all fun c => c.toNat < 128))
      (cs.map fun c => .str (String.singleton c))
  | .dict es _ => iterateItems .dict (es.toList.map (·.1))
  | .set xs _ => iterateItems .set xs.toList
  | .orderedPath xs _ => iterateItems .tuple xs.toList
  | .ref .list place => World.newCursor (.listFrom place (some 0))
  | .ref .bag place => do
    let w ← get
    let xs := w.bagAt place
    World.newCursor (.members place (some xs.size) xs.values)
  | .ref .iterator _ => pure v
  | .ref .blocks place => World.newCursor (.blockItems { outer := some place })
  | .ref .history place => do
    let w ← get
    let start := (w.histories[place]?).getD .null
    if start.isTracked then World.newCursor (.links (some start.node))
    else iterateItems .gathered [start]
  | v =>
    match v.tuple? with
    | some xs => iterateItems .tuple xs
    | none => throw .wrongType

/-- The branches of a merge: the values of a dictionary, or the items of a sequence. -/
def branches (v : Value) : M Value :=
  match v with
  | .dict es _ => iterateItems .gathered (es.toList.map (·.2))
  | v => iterate v

/-- A route as a sequence: nothing is the empty one, and an element stands for itself. -/
def ensureRoute (v : Value) : Value :=
  match v with
  | .null => .tuple [] none
  | v => if v.isElement then .tuple [v] none else v

/-- An iterator over a route. -/
def openRoute (v : Value) : M Value := iterate (ensureRoute v)

namespace Host

/-- An iterator as a source of values. -/
@[inline] def source (h : Host) : Source World Fault Value Value := fun it => do
  match ← h.pull it with
  | none => pure none
  | some v => pure (some (v, it))

/-- Reads an iterator to its end, in at most so many steps. -/
def foldFrom {β : Type} (h : Host) (f : β → Value → M β) (it : Value) : Nat → β → M β
  | 0, _ => throw .outOfFuel
  | fuel + 1, b => do
    match ← h.pull it with
    | none => pure b
    | some v => do
      let b ← f b v
      foldFrom h f it fuel b

/-- Reads an iterator to its end. -/
def fold {β : Type} (h : Host) (it : Value) (b : β) (f : β → Value → M β) : M β :=
  foldFrom h f it h.fuel b

/-- The items of an iterator. -/
def drain (h : Host) (it : Value) : M (List Value) := do
  let xs ← h.fold it (#[] : Array Value) fun xs v => pure (xs.push v)
  pure xs.toList

/-- The items of a sequence. -/
def items (h : Host) (v : Value) : M (List Value) := do
  let it ← iterate v
  h.drain it

/-- Calls a value with arguments by position, which are handed out to it. -/
@[inline] def apply (h : Host) (f : Value) (args : List Value) : M Value := do
  let args ← args.mapM World.handOut
  h.call f args []

end Host

/-! ### Keys and membership -/

/-- Whether a value counts as true. -/
def isTrue (v : Value) : M Bool := do
  let w ← get
  pure (w.truth v)

/-- Whether two values are equal. -/
def areSame (a b : Value) : M Bool := World.look fun w => w.same a b

/-- Whether a value equals one of several. -/
def isAmong (v : Value) (xs : List Value) : M Bool := World.look fun w => w.member v xs

/-- The key of a value under which it can be stored. -/
def keyOf (v : Value) : M Key := Act.ofOption .wrongType v.key?

/-- The key under which a value is looked for in a set: a set that may grow is looked for by its
members. -/
def soughtKey (v : Value) : M Key := do
  match v with
  | .ref .bag place => do
    let w ← get
    pure (Key.ofSet (w.bagAt place).keys)
  | v => keyOf v

/-- One member more, unless there is one with the same key. -/
def addMember (members : Indexed Key Value) (v : Value) : M (Indexed Key Value) := do
  let k ← keyOf v
  pure (if members.contains k then members else members.push k v)

/-- Whether a set of either kind has a member with a key. -/
def World.inSet (w : World) (k : Key) : Value → Bool
  | .set xs _ => xs.contains k
  | .ref .bag place => (w.bagAt place).contains k
  | _ => false

/-- Whether the set in which a filter looks its items up has a member with a key. -/
def World.inPool (w : World) (k : Key) : Pool → Bool
  | .fixed members => members.contains k
  | .live place => (w.bagAt place).contains k

/-- Whether a value is in a set. -/
def inSet (pool v : Value) : M Bool := do
  let k ← soughtKey v
  let w ← get
  pure (w.inSet k pool)

namespace Host

/-- The items of a sequence without repetitions, as a set. -/
def distinctItems (h : Host) (v : Value) : M Bag := do
  let it ← iterate v
  h.fold it (.empty : Bag) fun b x => do
    let k ← keyOf x
    pure (b.add k x)

/-- The members of a sequence as a set that does not change; one that is such a set already stays as
it is. -/
def setOf (h : Host) (v : Value) : M Value := do
  match v with
  | .set _ _ => pure v
  | v => do
    let members ← h.distinctItems v
    pure (.set members.members none)

/-- Whether the rest of an iterator holds a value. -/
def holds (h : Host) (it v : Value) : Nat → M Bool
  | 0 => throw .outOfFuel
  | fuel + 1 => do
    match ← h.pull it with
    | none => pure false
    | some x => do
      if ← areSame x v then pure true else holds h it v fuel

/-- Whether a text occurs in another. -/
def occursIn (s t : List Char) : Bool :=
  match t with
  | [] => s.isEmpty
  | _ :: rest => s.isPrefixOf t || occursIn s rest

/-- Whether a collection holds a value. -/
def contains (h : Host) (v collection : Value) : M Bool := do
  match collection with
  | .str t =>
    match v with
    | .str s => pure (occursIn s.toList t.toList)
    | _ => throw .wrongType
  | .dict es _ => do
    let k ← keyOf v
    pure (es.contains k)
  | .set _ _ | .ref .bag _ => inSet collection v
  | .orderedPath xs _ => do
    let k ← soughtKey v
    pure (xs.contains k)
  | .ref .graph place => do
    let k ← keyOf v
    let w ← get
    pure ((w.graphAt place).find? k).isSome
  | .ref .list place => do
    let w ← get
    isAmong v (w.listAt place).toList
  | .ref .iterator _ | .ref .blocks _ | .ref .history _ => do
    let it ← iterate collection
    h.holds it v h.fuel
  | collection =>
    match collection.tuple? with
    | some xs => isAmong v xs
    | none => throw .wrongType

/-- Whether a value matches: by membership in a set, by the answer of a function, or by equality. -/
def matchesValue (h : Host) (m v : Value) : M Bool := do
  if m.isSet then inSet m v
  else if m.callable then do
    let r ← h.apply m [v]
    isTrue r
  else areSame v m

/-! ### Conditions -/

/-- The failure of an unresolved condition. -/
def fatal : Value → Fault
  | .condition kind value message data _ => .condition kind value message data
  | _ => .noAttribute

/-- A function as a handler: to answer with nothing is to decline. -/
def handler (h : Host) (f : Value) : Handler World Fault Value Value := fun c => do
  let decision ← h.apply f [c]
  pure decision.notNull

/-- Resolves a condition by a handler, if there is one, or by a default. -/
def resolve (h : Host) (f : Value) (default : Option Value) (c : Value) : M Value :=
  GraphRoutes.resolve fatal (f.notNull.map h.handler) default c

end Host

/-- An end reported from inside a lazy sequence is a failure of its own. -/
def insideSequence {α : Type} (m : M α) : M α := do
  match ← Act.attempt m with
  | .ok a => pure a
  | .error .exhausted => throw .interrupted
  | .error e => throw e

/-- Adds an entry to the log if what the library reports is logged. -/
def reportText (level : String) (text : M String) : M Unit := do
  let w ← get
  if w.logging then
    let entry ← text
    World.record (.list [.str level, .str entry])

end GraphRoutes.Session
