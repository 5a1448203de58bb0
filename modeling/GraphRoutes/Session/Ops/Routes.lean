/-
**Operations on routes: steps, filters, merges, and collecting.**

Main definitions:

* `GraphRoutes.Session.openStep`, `GraphRoutes.Session.openEnds` — steps;
* `GraphRoutes.Session.openFilter` — filters;
* `GraphRoutes.Session.Host.branch`, `GraphRoutes.Session.openExhaustive` — branching and merging;
* `GraphRoutes.Session.Host.counts`, `GraphRoutes.Session.Host.groupByCount` — counting;
* `GraphRoutes.Session.Host.indexBy`, `GraphRoutes.Session.Host.indexByMulti` — indexing.
-/
import GraphRoutes.Route.Tally
import GraphRoutes.Session.Ops.Values

set_option relaxedAutoImplicit false
set_option autoImplicit false

namespace GraphRoutes.Session

open GraphRoutes.Route

/-! ### Steps -/

/-- A step from the vertices of a route. -/
def openStep (s : StepShape) (route labels : Value) (post : Post) : M Value := do
  let groups ← World.defer (.groups route labels s.direction s.gives post)
  if s.grouped then pure groups else chain groups

/-- What is done with each group where a function may be given. -/
def postOf : Value → Post
  | .null => .none
  | f => .calls f

/-- A step from the edges of a route to their vertices. -/
def openEnds (s : EndStep) (route onUnknown : Value) : M Value := do
  match s with
  | .targetsThenSources => World.defer (.bothEnds route)
  | s => do
    let it ← openRoute route
    World.newCursor (.each (match s with
      | .sources => .endOf .source
      | .far => .farVertex onUnknown
      | .near => .nearVertex onUnknown
      | _ => .endOf .target) it)

/-! ### Filters -/

/-- The items of a route that pass a test. -/
def openFilter (test : Test) (route : Value) : M Value := do
  let it ← openRoute route
  World.newCursor (.select test it)

namespace Host

/-- The items of a route that are, or are not, among several values. -/
def keepAmong (h : Host) (negated : Bool) (route values : Value) : M Value := do
  let pool : Pool ← match values with
    | .set xs _ => pure (.fixed xs)
    | .ref .bag place => pure (.live place)
    | values => do
      let members ← h.distinctItems values
      pure (.fixed members.members)
  openFilter (.among pool negated) route

/-- The first item of an iterator for which a function answers with something true. -/
def firstWhere (h : Host) (f it : Value) : Nat → M Value
  | 0 => throw .outOfFuel
  | fuel + 1 => do
    match ← h.pull it with
    | none => pure .null
    | some x => do
      let r ← insideSequence (h.apply f [x])
      if ← isTrue r then pure x else firstWhere h f it fuel

/-! ### Branching and merging -/

/-- Applies the functions of an iterator to the values of a list, in turn.  There must be as many
functions as values. -/
def applyEach (h : Host) (it : Value) : List Value → M (List Value)
  | [] => do
    match ← h.pull it with
    | none => pure []
    | some _ => throw .badValue
  | x :: xs => do
    match ← h.pull it with
    | none => throw .badValue
    | some f => do
      let r ← h.apply f [x]
      let rs ← applyEach h it xs
      pure (r :: rs)

/-- So many readers of an iterator, which see all of its items. -/
def copies (it : Value) (n : Nat) : M (List Value) := do
  let w ← get
  let reader := match it with
    | .ref .iterator place => w.cursors[place]?
    | _ => none
  let copiesOf (shared position n : Nat) : M (List Value) :=
    (List.range n).mapM fun _ => World.newCursor (.copy shared position)
  match reader, n with
  | _, 0 => pure []
  | some (.copy shared position), n + 1 => do
    let others ← copiesOf shared position n
    pure (it :: others)
  | _, n => do
    let shared ← World.newShared { source := it }
    copiesOf shared 0 n

/-- The results of several functions of one route; an iterator is read once for all of them. -/
def branch (h : Host) (route fs : Value) : M (List Value) := do
  match route with
  | .ref .iterator _ => do
    let n ← size fs
    let readers ← copies route (n.int?.getD 0).toNat
    let it ← iterate fs
    h.applyEach it readers
  | route => do
    let it ← iterate fs
    let rs ← h.fold it (#[] : Array Value) fun rs f => do
      let r ← h.apply f [route]
      pure (rs.push r)
    pure rs.toList

/-- The results of several functions of one route, under the keys of the functions. -/
def keyedBranch (h : Host) (route fs : Value) : M Value := do
  let keys ← h.items fs
  let functions ← keys.mapM (item fs)
  let list ← World.newList functions.toArray
  let rs ← h.branch route list
  let d ← (keys.zip rs).foldlM (fun (d : Dictionary Key Value Value) (k, r) => do
    let key ← keyOf k
    pure (d.put key k r)) .empty
  pure (entriesOf d)

end Host

/-- Branches one after the other. -/
def openExhaustive (rs : Value) : M Value := do
  let it ← branches rs
  let outer ← World.newCursor (.each .route it)
  chain outer

/-- A source of blocks. -/
def makeBlocks (blocks : Value) : M Value := do
  let it ← iterate blocks
  World.newBlocks it

/-- A sequence cut into blocks of one size. -/
def chunked (items size : Value) : M Value := do
  let n ← number size
  if n < 1 then
    let text ← displayedPlain size
    throw (.invalid (.blockSize text))
  let source ← iterate items
  let cut ← World.newCursor (.cut { source, size := n.toNat })
  World.newBlocks cut

/-! ### Composing and collecting -/

/-- A guard over a route.  Whether it is `strict` is asked at every repeat. -/
def openGuard (route handler strict : Value) : M Value := do
  let source ← openRoute route
  World.newCursor (.guard handler strict { source })

namespace Host

/-- Steps one after the other, beginning with a route. -/
def runPipeline (h : Host) (steps : List Value) (route : Value) : M Value :=
  steps.foldlM (fun r step => h.apply step [r]) (ensureRoute route)

/-- A function applied again and again. -/
def iterateTimes (h : Host) (f : Value) : Nat → Value → M Value
  | 0, r => pure r
  | n + 1, r => do
    let r ← h.apply f [r]
    iterateTimes h f n r

/-- A list that holds one list: of the items given first, and those of a route. -/
def gather (h : Host) (route into : Value) : M Value := do
  let given ← isTrue into
  let first ← if given then h.items into else pure []
  let it ← openRoute route
  let rest ← h.drain it
  let all ← World.newList (first ++ rest).toArray
  World.newList #[all]

/-- A function of the items of a route, as a set and as a list. -/
def intoSet (h : Host) (route f : Value) : M Value := do
  let it ← openRoute route
  let xs ← h.drain it
  let members ← xs.foldlM (fun (b : Bag) x => do
    let k ← keyOf x
    pure (b.add k x)) .empty
  let list ← World.newList xs.toArray
  h.apply f [.set members.members none, list]

/-- The items of a route under their keys; the last item of a key counts. -/
def indexBy (h : Host) (route toKey toValue : Value) : M Value := do
  let it ← openRoute route
  let d ← h.fold it (.empty : Dictionary Key Value Value) fun d x => do
    let k ← h.apply toKey [x]
    let v ← match toValue with
      | .null => pure x
      | f => h.apply f [x]
    let key ← keyOf k
    pure (d.put key k v)
  pure (entriesOf d)

/-- The items of a route under each of their keys; the last item of a key counts. -/
def indexByMulti (h : Host) (route toKeys toValue : Value) : M Value := do
  let it ← openRoute route
  let d ← h.fold it (.empty : Dictionary Key Value Value) fun d x => do
    let v ← match toValue with
      | .null => pure x
      | f => h.apply f [x]
    let ks ← h.apply toKeys [x]
    let keys ← iterate ks
    h.fold keys d fun d k => do
      let key ← keyOf k
      pure (d.put key k v)
  pure (entriesOf d)

/-! ### Counting -/

/-- How often the items of a route occur, or the values of a function on them.  A dictionary is
taken to hold counts already. -/
def counts (h : Host) (route f : Value) : M (List (Value × Value)) := do
  let one (d : Dictionary Key Value Nat) (x : Value) : M (Dictionary Key Value Nat) := do
    let k ← keyOf x
    pure (recount d (k, x))
  let items ← match f, ensureRoute route with
    | .null, .dict es _ => return es.toList
    | .null, route => iterate route
    | f, route => mapItems f route []
  let d ← h.fold items .empty one
  pure (d.toList.map fun e => (e.name, .int e.value))

/-- Whether a bound stands before a count or is equal to it. -/
def reaches (least count : Value) : M Bool := World.look fun w => w.ordered .upTo least count

/-- The items under each count that reaches a bound. -/
def groupByCount (h : Host) (route f least : Value) : M (List (Value × List Value)) := do
  let all ← h.counts route f
  let kept ← all.filterM fun e => reaches least e.2
  let _ ← kept.mapM fun e => keyOf e.2
  let groups := invert (fun v : Value => v.key?) kept
  pure (groups.toList.map fun e => (e.name, e.value.toList))

end Host

end GraphRoutes.Session
