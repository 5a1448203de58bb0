/-
**The values of a session.**

Values are what the expressions of a session compute: numbers and texts, collections, graph elements
and the objects that steer a traversal.  Whatever can change lives in the world of the session, and a
value refers to it by its place there.

Tuples, dictionaries, elements and other objects do not change, but one may still ask whether two of
them are one and the same: an object that holds itself, by way of a list, is written with dots where
it comes round again, and a member that waits to be called belongs to one object.  So an object
carries a mark, which it gets when it is first handed out.  Nothing else depends on marks.

Nothing keeps a program from wrapping a value that is no element, so a wrapper may hold any value,
and its link may break off at any value.

Values are told apart by keys.  A key is a flat list of tokens that spells out a value up to
equality: a truth value is spelled as a number, an id of a kind and an instruction as the tuples
that they are, a wrapped element as the element under its layers, an edge without the direction in
which it was reached, and the members of a set in a fixed order.  Lists, dictionaries and sets that
may change have no key by themselves.

Main definitions:

* `GraphRoutes.Session.Value` — the values;
* `GraphRoutes.Session.Value.withMark`, `GraphRoutes.Session.Value.marked` — objects under other
  marks, and objects that get the marks they lack;
* `GraphRoutes.Session.Value.node`, `GraphRoutes.Session.Value.ofNode` — values as elements;
* `GraphRoutes.Session.Token`, `GraphRoutes.Session.Key` — what tells values apart;
* `GraphRoutes.Session.Value.spell`, `GraphRoutes.Session.Value.key?` — how a value is spelled, and
  the key of a value that may be stored under it;
* `GraphRoutes.Session.Keyed` — a value beside its key;
* `GraphRoutes.Session.Value.stripAll` — a value without any layer.

Main results:

* `GraphRoutes.Session.Value.key?_tracked` — a wrapped element has the key of what it holds;
* `GraphRoutes.Session.Value.key?_withMark`, `GraphRoutes.Session.Value.key?_marked` — marks do not
  tell values apart.
-/
import GraphRoutes.Element
import GraphRoutes.Indexed
import GraphRoutes.Session.Operation

set_option relaxedAutoImplicit false
set_option autoImplicit false

namespace GraphRoutes.Session

/-- A vertex: its graph, and its position in the store. -/
structure VertexRef where
  graph : Nat
  index : Nat
  deriving DecidableEq, Repr

/-- An edge: of a graph, or one that stands by itself. -/
inductive EdgeRef where
  | stored (graph : Nat) (edge : StoredEdge)
  | bare (place : Nat)
  deriving DecidableEq, Repr

/-- What lives in the world of a session. -/
inductive RefSort where
  /-- A list, which may grow. -/
  | list
  /-- A set that may grow. -/
  | bag
  /-- A graph. -/
  | graph
  /-- A function made by the session. -/
  | function
  /-- A lazy sequence that can be read once. -/
  | iterator
  /-- A source of blocks. -/
  | blocks
  /-- A lineage that can be read again and again. -/
  | history
  deriving DecidableEq, Repr, Ord

/-- A piece of a key.  A token that opens a collection tells how many keys follow. -/
inductive Token where
  | null
  | int (n : Int)
  | str (s : String)
  | tuple (size : Nat)
  | list (size : Nat)
  | dict (size : Nat)
  | set (size : Nat)
  | orderedPath (size : Nat)
  | vertex (graph index : Nat)
  | edge (graph index : Nat)
  | bareEdge (place : Nat)
  /-- A wrapper around what is no element. -/
  | wrapper
  | trackedGraph
  | condition (kind : ConditionKind)
  | action (a : Action)
  | resolution
  | checkpoint
  | failsafe
  | config
  | op (o : Op)
  | ref (sort : RefSort) (place : Nat)
  | method (m : Member)
  /-- An object, by its mark. -/
  | object (mark : Nat)
  deriving DecidableEq, Repr, Ord

/-- Numbers, texts and elements are what large collections mostly hold. -/
instance : Hashable Token where
  hash
    | .int n => mixHash 3 (hash n)
    | .str s => mixHash 5 (hash s)
    | .tuple size => mixHash 7 (hash size)
    | .vertex graph index => mixHash 11 (mixHash (hash graph) (hash index))
    | .edge graph index => mixHash 13 (mixHash (hash graph) (hash index))
    | .bareEdge place => mixHash 17 (hash place)
    | .ref _ place => mixHash 19 (hash place)
    | .object mark => mixHash 29 (hash mark)
    | _ => 23

/-- What tells values apart. -/
abbrev Key : Type := List Token

/-- The values of a session.  An object carries a mark, by which it is told from its equals. -/
inductive Value where
  | null
  | bool (b : Bool)
  | int (n : Int)
  | str (s : String)
  /-- The id of a thing of some kind. -/
  | typedId (kind id : Value)
  | instruction (emit descend continueSiblings resetPath : Value)
  | action (a : Action)
  | op (o : Op)
  | ref (sort : RefSort) (place : Nat)
  /-- A member of an object that is waiting to be called. -/
  | method (m : Member) (self : Value)
  -- objects
  | tuple (items : List Value) (mark : Mark)
  | dict (entries : Indexed Key (Value × Value)) (mark : Mark)
  | set (members : Indexed Key Value) (mark : Mark)
  /-- A path that also answers membership. -/
  | orderedPath (items : Indexed Key Value) (mark : Mark)
  | vertex (v : VertexRef) (mark : Mark)
  | edge (e : EdgeRef) (mark : Mark)
  /-- A wrapped element, whose wrappers carry marks. -/
  | tracked (x : Element Value)
  /-- A graph whose vertices are handed out wrapped. -/
  | trackedGraph (graph : Value) (mark : Mark)
  | condition (kind : ConditionKind) (value message data : Value) (mark : Mark)
  | resolution (action value : Value) (mark : Mark)
  | checkpoint (path element depth : Value) (mark : Mark)
  | failsafe (checkpoint noResults : Value) (mark : Mark)
  | config (ceiling interval policy maxDepth : Value) (mark : Mark)
  deriving Inhabited

/-- The elements of a session: a value, or a wrapper around values. -/
abbrev Node : Type := Element Value

/-- What tells an edge apart: the direction in which it was reached does not. -/
def EdgeRef.key : EdgeRef → Token
  | .stored graph e => .edge graph e.index
  | .bare place => .bareEdge place

namespace Key

/-- Whether a key stands before another or is equal to it, in the order of their tokens. -/
def le : Key → Key → Bool
  | [], _ => true
  | _ :: _, [] => false
  | a :: as, b :: bs =>
    match compare a b with
    | .lt => true
    | .gt => false
    | .eq => le as bs

/-- The keys in order. -/
def sort (keys : List Key) : List Key := keys.mergeSort le

/-- The key of a set with members of these keys. -/
def ofSet (keys : List Key) : Key :=
  .set keys.length :: (sort keys).flatten

/-- The key of a wrapper around what has the key `k`.  A wrapped vertex or edge is that vertex or
edge, and a graph whose vertices are handed out wrapped counts as a layer. -/
def wrapped : Key → Key
  | .trackedGraph :: k => wrapped k
  | .vertex graph index :: k => .vertex graph index :: k
  | .edge graph index :: k => .edge graph index :: k
  | .bareEdge place :: k => .bareEdge place :: k
  | .wrapper :: k => .wrapper :: k
  | k => .wrapper :: k

end Key

namespace Value

/-- A truth value or a number as a number. -/
def int? : Value → Option Int
  | bool b => some (if b then 1 else 0)
  | int n => some n
  | _ => none

/-- The items of a value that is a tuple. -/
def tuple? : Value → Option (List Value)
  | tuple xs _ => some xs
  | typedId k i => some [k, i]
  | instruction e d c r => some [e, d, c, r]
  | _ => none

/-- Nothing for `null`. -/
def notNull : Value → Option Value
  | null => none
  | v => some v

/-- `null` for nothing. -/
def ofOption : Option Value → Value
  | none => null
  | some v => v

@[simp] theorem notNull_null : notNull null = none := rfl

@[simp] theorem ofOption_none : ofOption none = null := rfl

@[simp] theorem ofOption_some (v : Value) : ofOption (some v) = v := rfl

/-! ### Elements -/

/-- A value as an element. -/
def node : Value → Node
  | tracked x => x
  | v => .plain v

/-- An element as a value. -/
def ofNode : Node → Value
  | .plain v => v
  | x => tracked x

@[simp] theorem node_ofNode_root (l : Layer) (x : Node) (m : Mark) :
    node (ofNode (.root l x m)) = .root l x m := rfl

@[simp] theorem node_ofNode_via (l : Layer) (x p : Node) (m : Mark) :
    node (ofNode (.via l x p m)) = .via l x p m := rfl

/-- What a plain element is. -/
def sort : Value → Option Layer
  | vertex _ _ => some .vertex
  | edge _ _ => some .edge
  | _ => none

/-- What a value is as an element, by its outermost layer. -/
def layer? (v : Value) : Option Layer := v.node.layer? sort

/-- Whether a value is an element. -/
def isElement (v : Value) : Bool := v.layer?.isSome

/-- Whether a value is a wrapped element. -/
def isTracked (v : Value) : Bool := v.node.tracked

/-- A wrapper around a value, at which tracking begins. -/
def wrap (l : Layer) (v : Value) : Value := tracked (.root l v.node none)

mutual

/-- A value without any layer. -/
def stripAll : Value → Value
  | tracked x => stripNode x
  | trackedGraph g _ => stripAll g
  | v => v

/-- What an element holds, without any layer. -/
def stripNode : Node → Value
  | .plain v => stripAll v
  | .root _ x _ | .via _ x _ _ => stripNode x

end

/-! ### Marks -/

/-- The mark of an object. -/
def mark : Value → Mark
  | tuple _ m | dict _ m | set _ m | orderedPath _ m | vertex _ m | edge _ m | trackedGraph _ m
  | condition _ _ _ _ m | resolution _ _ m | checkpoint _ _ _ m | failsafe _ _ m
  | config _ _ _ _ m => m
  | tracked x => x.mark
  | _ => none

/-- Whether a value is an object without a mark. -/
def unmarked : Value → Bool
  | tuple _ m | dict _ m | set _ m | orderedPath _ m | vertex _ m | edge _ m | trackedGraph _ m
  | condition _ _ _ _ m | resolution _ _ m | checkpoint _ _ _ m | failsafe _ _ m
  | config _ _ _ _ m => m.isNone
  | tracked x => x.mark.isNone
  | _ => false

/-- The same object under another mark; a wrapped element, and what is no object, stay as they are. -/
def withMark (m : Mark) : Value → Value
  | tuple xs _ => tuple xs m
  | dict es _ => dict es m
  | set xs _ => set xs m
  | orderedPath xs _ => orderedPath xs m
  | vertex v _ => vertex v m
  | edge e _ => edge e m
  | trackedGraph g _ => trackedGraph g m
  | condition kind v message data _ => condition kind v message data m
  | resolution a v _ => resolution a v m
  | checkpoint p e d _ => checkpoint p e d m
  | failsafe c n _ => failsafe c n m
  | config c i p d _ => config c i p d m
  | v => v

/-- Marks an object that has no mark with the number `n`, but not what it holds.  The result comes
with the next number. -/
def markedAlone (n : Nat) (v : Value) : Value × Nat :=
  if v.unmarked then (v.withMark (some n), n + 1) else (v, n)

/-- Marks an object that has no mark with a number of its own, and a wrapped element in all its
layers, from `n` on.  The result comes with the next number. -/
def marked (n : Nat) : Value → Value × Nat
  | tracked x => (x.marked markedAlone n).map tracked id
  | v => markedAlone n v

/-! ### Keys -/

mutual

/-- How a value is spelled, where what lives in the world is told by its place. -/
def spell : Value → Key
  | null => [.null]
  | bool b => [.int (if b then 1 else 0)]
  | int n => [.int n]
  | str s => [.str s]
  | typedId k i => .tuple 2 :: (spell k ++ spell i)
  | instruction e d c r => .tuple 4 :: (spell e ++ spell d ++ spell c ++ spell r)
  | action a => [.action a]
  | op o => [.op o]
  | ref sort place => [.ref sort place]
  | method m self => .method m :: (match self.mark with
    | some n => [.object n]
    | none => spell self)
  | tuple xs _ => .tuple xs.length :: spellAll xs
  | dict ⟨⟨es⟩, _⟩ _ => .dict es.length :: spellEntries es
  | set ⟨⟨xs⟩, _⟩ _ => Key.ofSet (spellEach xs)
  | orderedPath ⟨⟨xs⟩, _⟩ _ => .orderedPath xs.length :: spellAll xs
  | vertex v _ => [.vertex v.graph v.index]
  | edge e _ => [e.key]
  | tracked x => spellNode x
  | trackedGraph g _ => .trackedGraph :: spell g
  | condition kind v m _ _ => .condition kind :: (spell v ++ spell m)
  | resolution a v _ => .resolution :: (spell a ++ spell v)
  | checkpoint p e d _ => .checkpoint :: (spell p ++ spell e ++ spell d)
  | failsafe c n _ => .failsafe :: (spell c ++ spell n)
  | config c i p d _ => .config :: (spell c ++ spell i ++ spell p ++ spell d)

/-- How values are spelled, one after the other. -/
def spellAll : List Value → Key
  | [] => []
  | x :: xs => spell x ++ spellAll xs

/-- How each of several values is spelled. -/
def spellEach : List Value → List Key
  | [] => []
  | x :: xs => spell x :: spellEach xs

/-- How the entries of a dictionary are spelled. -/
def spellEntries : List (Value × Value) → Key
  | [] => []
  | (k, v) :: es => spell k ++ spell v ++ spellEntries es

/-- How a wrapped element is spelled. -/
def spellNode : Node → Key
  | .plain v => Key.wrapped (spell v)
  | .root _ x _ | .via _ x _ _ => spellNode x

end

mutual

/-- Whether a value may be stored under its key: collections that may change may not, nor may what
holds them. -/
def lasting : Value → Bool
  | typedId k i => lasting k && lasting i
  | instruction e d c r => lasting e && lasting d && lasting c && lasting r
  | tuple xs _ | set ⟨⟨xs⟩, _⟩ _ | orderedPath ⟨⟨xs⟩, _⟩ _ => allLasting xs
  | tracked x => nodeLasting x
  | trackedGraph g _ => lasting g
  | condition _ v m _ _ => lasting v && lasting m
  | resolution a v _ => lasting a && lasting v
  | checkpoint p e d _ => lasting p && lasting e && lasting d
  | failsafe c n _ => lasting c && lasting n
  | config c i p d _ => lasting c && lasting i && lasting p && lasting d
  | dict _ _ | ref .list _ | ref .bag _ => false
  | _ => true

/-- Whether all of several values may be stored under their keys. -/
def allLasting : List Value → Bool
  | [] => true
  | x :: xs => lasting x && allLasting xs

/-- Whether a wrapped element may be stored under its key. -/
def nodeLasting : Node → Bool
  | .plain v => lasting v
  | .root _ x _ | .via _ x _ _ => nodeLasting x

end

/-- The key of a value, if it may be stored under one. -/
def key? (v : Value) : Option Key := if v.lasting then some v.spell else none

/-- A mark does not change how an object is spelled. -/
@[simp] theorem spell_withMark (v : Value) (m : Mark) : (v.withMark m).spell = v.spell := by
  cases v <;> rfl

/-- A mark does not change the key of an object. -/
@[simp] theorem key?_withMark (v : Value) (m : Mark) : (v.withMark m).key? = v.key? := by
  cases v <;> rfl

/-- A wrapped element is spelled by what it holds. -/
theorem spellNode_eq (x : Node) : spellNode x = Key.wrapped x.base.spell := by
  induction x with
  | plain v => simp [spellNode, Element.base]
  | root l x m ih => simpa [spellNode, Element.base] using ih
  | via l x p m ih _ => simpa [spellNode, Element.base] using ih

/-- A wrapped element may be stored if what it holds may be. -/
theorem nodeLasting_eq (x : Node) : nodeLasting x = x.base.lasting := by
  induction x with
  | plain v => simp [nodeLasting, Element.base]
  | root l x m ih => simpa [nodeLasting, Element.base] using ih
  | via l x p m ih _ => simpa [nodeLasting, Element.base] using ih

/-- A wrapped element has the key of what it holds. -/
theorem key?_tracked (x : Node) : key? (tracked x) = (key? x.base).map Key.wrapped := by
  by_cases h : x.base.lasting <;>
    simp [key?, lasting, spell, nodeLasting_eq, spellNode_eq, h]

@[simp] theorem key?_markedAlone (n : Nat) (v : Value) : (v.markedAlone n).1.key? = v.key? := by
  unfold markedAlone
  split <;> simp

/-- Handing out an object does not change its key. -/
@[simp] theorem key?_marked (n : Nat) (v : Value) : (v.marked n).1.key? = v.key? := by
  cases v with
  | tracked x =>
    simp [marked, key?_tracked, Element.base_marked markedAlone key? key?_markedAlone]
  | _ => simp [marked]

@[simp] theorem key?_edge (e : EdgeRef) (m : Mark) : key? (edge e m) = some [e.key] := by
  simp [key?, lasting, spell]

@[simp] theorem key?_vertex (v : VertexRef) (m : Mark) :
    key? (vertex v m) = some [.vertex v.graph v.index] := by
  simp [key?, lasting, spell]

/-- Whether a value can be called. -/
def callable : Value → Bool
  | op _ | ref .function _ | method _ _ => true
  | _ => false

/-- Whether a value is a set, of either kind. -/
def isSet : Value → Bool
  | set _ _ => true
  | ref .bag _ => true
  | _ => false

/-- The value of an instruction. -/
def ofPreset (p : Preset) : Value :=
  let i := p.instruction
  instruction (bool i.emit) (bool i.descend) (bool i.continueSiblings) (bool i.resetPath)

end Value

/-- A value beside its key, for a value whose key is asked for again and again. -/
structure Keyed where
  value : Value
  key : Option Key
  key_eq : key = value.key? := by rfl

/-- The value with its key. -/
def Value.keyed (v : Value) : Keyed := { value := v, key := v.key? }

end GraphRoutes.Session
