/-
**Reading lazy sequences.**

Every lazy sequence of a session is one of the sequences of this library, with its items in the
world of the session.  Reading one takes steps until there is an item, the end or a failure.

An open sequence takes its turns on its place in the world.  An end that is reported from inside it
is its own end.  A closed sequence takes its steps apart from the world: while it does, it cannot be
read; a failure is its end; and an end that is reported from inside it becomes a failure.

A map over a map over a map, however deep, is read in one go: the source under all of them is asked,
and the functions are applied to its item from the inside out.

Main definitions:

* `GraphRoutes.Session.beginCursor` — the beginning of a sequence;
* `GraphRoutes.Session.openTurn?` — one turn of an open sequence;
* `GraphRoutes.Session.stepCursor` — one step of a closed sequence;
* `GraphRoutes.Session.Host.readBlock` — the next block of a source of blocks;
* `GraphRoutes.Session.readCursor` — the next item.
-/
import GraphRoutes.Session.Render
import GraphRoutes.Session.Tests

set_option relaxedAutoImplicit false
set_option autoImplicit false

namespace GraphRoutes.Session

open GraphRoutes.Route

/-! ### Blocks -/

/-- The next block of a source of blocks that holds anything. -/
def Host.readBlock (h : Host) : Source World Fault Nat (List Value) := fun place => do
  let w ← get
  match w.blocks[place]? with
  | none => pure none
  | some it => do
    match ← Machine.pull (Merge.nextBlock h.source h.items) h.fuel it with
    | .item block _ => pure (some (block, place))
    | .ended _ => pure none
    | .failed e _ => throw e
    | .unsettled => throw .outOfFuel

/-! ### Beginnings -/

/-- One branch of a merge. -/
def openBranch (v : Value) : M (Merge.Branch Value Nat) := do
  match v with
  | .ref .blocks place => pure (.blocks place)
  | v => do
    let it ← openRoute v
    pure (.plain it)

/-- The beginning of a sequence, in the order in which it asks for what it needs. -/
def beginCursor (h : Host) : Opening → M Cursor
  | .groups route labels direction gives post => do
    let labels ← h.labelKeys labels
    let it ← openRoute route
    pure (.each (.group direction gives labels post) it)
  | .neighbours x side labels => do
    let labels ← h.labelKeys labels
    let s ← neighbourhood x side labels
    pure (.neighbours s)
  | .bothEnds route => do
    let it ← openRoute route
    pure (.ends { source := it })
  | .property route key value => do
    let it ← openRoute route
    pure (.select (.hasProperty key value) it)
  | .parts route parts => do
    let it ← match parts with
      | .routes => iterate route
      | _ => openRoute route
    pure (.parts parts { outer := some it })
  | .distinctBy route key => do
    let it ← openRoute route
    pure (.distinct key { source := it })
  | .distinctIn route seen update => do
    let it ← openRoute route
    pure (.select (.unseen seen update) it)
  | .alternate sizes collection keepFirst => do
    let source ← iterate collection
    let sizes ← iterate sizes
    pure (.alternate { sizes, source, keepNext := keepFirst })
  | .roundRobin rs => do
    let it ← branches rs
    let waiting ← h.fold it (#[] : Array (Merge.Branch Value Nat)) fun waiting r => do
      let b ← openBranch r
      pure (waiting.push b)
    pure (.rotation { waiting := waiting.toList })
  | .descent plan route path => do
    let tuning ← tuningOf plan.config
    let it ← openRoute route
    pure (.descent plan tuning (Walk.start path it))
  | .search plan route => do
    let tuning ← tuningOf plan.config
    let it ← openRoute route
    let mark ← World.newMark
    pure (.search plan tuning (Search.start (plan.plan h) mark it))
  | .spying name route => do
    let it ← iterate route
    pure (.spying name it)

/-! ### Open sequences -/

/-- One turn of a list that is being read.  Items that were added meanwhile are read too, but none
once the end has been reached. -/
def listTurn (place list : Nat) (position : Option Nat) : M (Turn Value) := do
  let w ← get
  match position with
  | none => pure .ended
  | some i =>
    match (w.listAt list)[i]? with
    | some v => do
      World.setCursor place (.listFrom list (some (i + 1)))
      pure (.give v)
    | none => do
      World.setCursor place (.listFrom list none)
      pure .ended

/-- One turn of the members of a set that may grow.  Once the set is found to have grown, its members
cannot be read on. -/
def membersTurn (place bag : Nat) (size : Option Nat) (rest : List Value) : M (Turn Value) := do
  let w ← get
  if size = some (w.bagAt bag).size then
    match rest with
    | [] => do
      World.setCursor place (.items .set [])
      pure .ended
    | x :: xs => do
      World.setCursor place (.members bag size xs)
      pure (.give x)
  else do
    World.setCursor place (.members bag none rest)
    throw .interrupted

/-- One turn of a count. -/
def countTurn (place : Nat) (next step : Value) : M (Turn Value) := do
  let n ← Act.ofOption .wrongType next.int?
  let k ← Act.ofOption .wrongType step.int?
  World.setCursor place (.countFrom (.int (n + k)) step)
  pure (.give next)

/-- The functions of maps over maps, from the inside out, in front of those in `fs`, and the source
under them. -/
def mapsOver (w : World) : Nat → List Value → Value → List Value × Value
  | 0, fs, it => (fs, it)
  | fuel + 1, fs, it =>
    match it with
    | .ref .iterator place =>
      match w.cursors[place]? with
      | some (.mapping f source []) => mapsOver w fuel (f :: fs) source
      | _ => (fs, it)
    | _ => (fs, it)

/-- The next items of several iterators, unless one of them has come to its end. -/
def pullEach (h : Host) : List Value → M (Option (List Value))
  | [] => pure (some [])
  | it :: its => do
    match ← h.pull it with
    | none => pure none
    | some v => do
      let vs ← pullEach h its
      pure (vs.map (v :: ·))

/-- One turn of a map. -/
def mapTurn (h : Host) (f source : Value) (others : List Value) : M (Turn Value) := do
  match others with
  | [] => do
    let w ← get
    let (fs, source) := mapsOver w w.cursors.size [f] source
    match ← h.pull source with
    | none => pure .ended
    | some v => do
      let v ← fs.foldlM (fun v f => h.apply f [v]) v
      pure (.give v)
  | others => do
    match ← pullEach h (source :: others) with
    | none => pure .ended
    | some vs => do
      let v ← h.apply f vs
      pure (.give v)

/-- One turn of the answers of a function.  An end that is reported from inside the function is the
end, too. -/
def callingTurn (h : Host) (place : Nat) (f sentinel : Value) (done : Bool) : M (Turn Value) := do
  if done then pure .ended
  else
    let ending : M (Turn Value) := do
      World.setCursor place (.calling f sentinel true)
      pure .ended
    match ← Act.attempt (h.apply f []) with
    | .ok v => do
      let last ← areSame sentinel v
      if last then ending else pure (.give v)
    | .error .exhausted => ending
    | .error e => throw e

/-- One turn of one of the readers of a shared source. -/
def copyTurn (h : Host) (place shared position : Nat) : M (Turn Value) := do
  match ← Merge.Shared.read (World.sharedCell shared) .interrupted h.source position with
  | none => pure .ended
  | some v => do
    World.setCursor place (.copy shared (position + 1))
    pure (.give v)

/-- One turn of a route that is cut into blocks. -/
def cutTurn (h : Host) (place : Nat) (s : Merge.Cut Value) : M (Turn Value) := do
  if sliceLimit < s.size then throw .badValue
  let cell := World.cursorCell s (fun | .cut s => some s | _ => none) .cut place
  match ← Merge.Cut.turn cell h.source with
  | .give items => do
    let block ← World.newList items.toArray
    pure (.give block)
  | .again => pure .again
  | .ended => pure .ended

/-- The decision of a guard about a repeated element. -/
def guardDecision (h : Host) (handler strict x : Value) (position : Nat) : M Bool := do
  let text ← displayed x
  let message := "Element " ++ text ++ " repeated at position " ++ toString position
  let c := Value.condition .cycle x (.str message)
    (.dict (.ofList (·.1.spell) [(.str "position", .int position)]) none) none
  let fatal ← isTrue strict
  let decision ← h.resolve handler (if fatal then none else some (.bool false)) c
  isTrue decision

/-- What is logged of a guard that truncates its route. -/
def reportTruncation (x : Value) (position : Nat) : M Unit :=
  reportText "#DEBUG" do
    let text ← displayed x
    pure ("Route truncated at repeated element " ++ text ++ " (position " ++ toString position
      ++ ")")

/-- One turn of the sequence at a place, if it is an open one. -/
def openTurn? (h : Host) (place : Nat) : Cursor → Option (M (Turn Value))
  | .items _ [] => some (pure .ended)
  | .items of (x :: xs) => some do
    World.setCursor place (.items of xs)
    pure (.give x)
  | .listFrom list position => some (listTurn place list position)
  | .members bag size rest => some (membersTurn place bag size rest)
  | .countFrom next step => some (countTurn place next step)
  | .looping _ =>
    let cell := World.cursorCell { source := none } (fun | .looping s => some s | _ => none)
      .looping place
    some (Loop.turn cell h.source)
  | .taking s =>
    let cell := World.cursorCell s (fun | .taking s => some s | _ => none) .taking place
    some (Slice.turn cell h.source)
  | .mapping f source others => some (mapTurn h f source others)
  | .calling f sentinel done => some (callingTurn h place f sentinel done)
  | .copy shared position => some (copyTurn h place shared position)
  | .cut s => some (cutTurn h place s)
  | .chained s =>
    let cell := World.cursorCell s (fun | .chained s => some s | _ => none) .chained place
    some (Flat.turn cell h.source iterate h.source)
  | .guard handler strict _ =>
    let cell := World.cursorCell { source := .null } (fun | .guard _ _ s => some s | _ => none)
      (.guard handler strict) place
    some (Guard.turn cell h.source soughtKey keyOf (guardDecision h handler strict)
      reportTruncation)
  | _ => none

/-! ### Closed sequences -/

/-- One step of a lineage that is walked back.  A checkpoint in the place of a link has an element,
but leads no further. -/
def linkStep : Option Node → M (Step Cursor Value Fault)
  | none => pure .finish
  | some (.root _ x _) => pure (.give (.ofNode x) (.links none))
  | some (.via _ x p _) => pure (.give (.ofNode x) (.links (some p)))
  | some (.plain (.checkpoint _ x _ _)) => pure (.give x (.links (some (.plain .null))))
  | some (.plain _) => throw .noAttribute

/-- One step of a sequence that logs its items. -/
def spyStep (h : Host) (name source : Value) : M (Step Cursor Value Fault) := do
  let v ← h.pull source
  let shownName ← World.shallow name
  match v with
  | some v => do
    let shown ← World.shallow v
    World.record (.list [shownName, shown])
    pure (.give v (.spying name source))
  | none => do
    World.record (.list [shownName])
    pure .finish

/-- The next size of an alternating route. -/
def nextSize (h : Host) : Source World Fault Value (Option Nat) := fun it => do
  match ← h.pull it with
  | none => pure none
  | some v => do
    let n ← itemCount? v
    pure (some (n, it))

/-- One step of a closed sequence. -/
def stepCursor (h : Host) : Machine World Fault Cursor Value
  | .deferred o => do
    let c ← beginCursor h o
    pure (.skip c)
  | .spying name source => spyStep h name source
  | .blockItems s => Step.map .blockItems <$> flatten h.readBlock pure Source.ofList s
  | .links x => linkStep x
  | .neighbours s => do
    let r ← neighbourStep s
    pure ((r.map .neighbours).mapItem .ofNode)
  | .select test it => Step.map (.select test) <$> select h.source (test.holds h) it
  | .each image it => Step.map (.each image) <$> each h.source (image.apply h) it
  | .ends s =>
    Step.map .ends <$>
      both h.source (fun x => endNode x .target) (fun x => endNode x .source) s
  | .parts parts s =>
    Step.map (.parts parts) <$> flatten h.source (parts.opened h) h.source s
  | .distinct key s =>
    Step.map (.distinct key) <$>
      distinct h.source (fun x => h.apply key [x]) soughtKey keyOf s
  | .rotation s => Step.map .rotation <$> Merge.roundRobin h.source h.readBlock s
  | .alternate s => Step.map .alternate <$> alternate (nextSize h) h.source s
  | .descent plan tuning s => Step.map (.descent plan tuning) <$> plan.step h tuning s
  | .search plan tuning s => Step.map (.search plan tuning) <$> plan.step h tuning s
  | _ => pure .finish

/-- The next item of the closed sequence `c` at a place. -/
def readClosed (h : Host) (place : Nat) (c : Cursor) : M (Option Value) := do
  World.setCursor place .running
  match ← Machine.pull (stepCursor h) h.fuel c with
  | .item v c => do
    World.setCursor place c
    pure (some v)
  | .ended _ => do
    World.setCursor place .finished
    pure none
  | .failed e _ => do
    World.setCursor place .finished
    match e with
    | .exhausted => throw .interrupted
    | e => throw e
  | .unsettled => throw .outOfFuel

/-- The next item of the lazy sequence at a place, before it is handed out. -/
def nextItem (h : Host) (place : Nat) : M (Option Value) := do
  let w ← get
  match w.cursors[place]?.getD .finished with
  | .finished => pure none
  | .running => throw .badValue
  | c =>
    match openTurn? h place c with
    | some turn => do
      match ← Act.attempt (Turn.pull .outOfFuel turn h.fuel) with
      | .ok v => pure v
      | .error .exhausted => pure none
      | .error e => throw e
    | none => readClosed h place c

/-- The next item of the lazy sequence at a place. -/
def readCursor (h : Host) (place : Nat) : M (Option Value) := do
  match ← nextItem h place with
  | none => pure none
  | some v => do
    let v ← World.handOut v
    pure (some v)

end GraphRoutes.Session
