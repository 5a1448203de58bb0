/-
**Performing operations, and calling functions.**

Main definitions:

* `GraphRoutes.Session.Host.perform` — an operation with bound arguments;
* `GraphRoutes.Session.Host.callOp` — an operation with arguments by position and by name;
* `GraphRoutes.Session.Host.callFunction` — a function that the session has made.
-/
import GraphRoutes.Session.Members
import GraphRoutes.Session.Ops.Routes

set_option relaxedAutoImplicit false
set_option autoImplicit false

namespace GraphRoutes.Session

/-- The arguments of an operation in the order of its parameters, and the further ones. -/
structure Arguments where
  bound : List (Option Value)
  extra : List Value

namespace Arguments

/-- The argument of a parameter, if it was given. -/
def given (a : Arguments) (i : Nat) : Option Value := a.bound[i]?.join

/-- The argument of a parameter, or `null`. -/
def arg (a : Arguments) (i : Nat) : Value := (a.given i).getD .null

/-- The only argument, a sequence that is empty unless it was given. -/
def sequence (a : Arguments) : Value := (a.given 0).getD (.tuple [] none)

end Arguments

/-- The truth of an action as a value. -/
def asValue (m : M Bool) : M Value := do
  let b ← m
  pure (.bool b)

/-- Whether a value is a graph. -/
def isGraph : Value → Bool
  | .ref .graph _ | .trackedGraph _ _ => true
  | _ => false

namespace Host

/-- The operations on plain values. -/
def performValue (h : Host) (o : Op) (a : Arguments) : M Value :=
  match o with
  | .equal negated => asValue do
    let r ← areSame (a.arg 0) (a.arg 1)
    pure (r != negated)
  | .less => asValue (isLess (a.arg 0) (a.arg 1))
  | .greater => asValue (isLess (a.arg 1) (a.arg 0))
  | .add => add (a.arg 0) (a.arg 1)
  | .multiply => multiply (a.arg 0) (a.arg 1)
  | .remainder => remainder (a.arg 0) (a.arg 1)
  | .negate => do
    let n ← number (a.arg 0)
    pure (.int (-n))
  | .not => asValue do
    let b ← isTrue (a.arg 0)
    pure !b
  | .truth => asValue (isTrue ((a.given 0).getD (.bool false)))
  | .size => size (a.arg 0)
  | .display => do
    let text ← displayed (a.arg 0)
    pure (.str text)
  | .upper => upperCase (a.arg 0)
  | .sameHash => asValue do
    let k ← keyOf (a.arg 0)
    let l ← keyOf (a.arg 1)
    pure (k = l)
  | .contains => asValue (h.contains (a.arg 0) (a.arg 1))
  | .item => item (a.arg 0) (a.arg 1)
  | .lookUp => lookUp (a.arg 0) (a.arg 1) (a.arg 2)
  | .makeList => World.newList a.extra.toArray
  | .makeTuple => pure (.tuple a.extra none)
  | .listOf => do
    let xs ← h.items a.sequence
    World.newList xs.toArray
  | .setOf => h.setOf a.sequence
  | .bagOf => do
    let members ← h.distinctItems a.sequence
    World.newBag members
  | .dictOf => h.dictOf (a.arg 0)
  | .iterator =>
    match a.given 1 with
    | none => iterate (a.arg 0)
    | some sentinel => answersUntil (a.arg 0) sentinel
  | .next => h.next (a.arg 0) (a.given 1)
  | .append => append (a.arg 0) (a.arg 1)
  | .apply => h.apply (a.arg 0) a.extra
  | .constant => World.newFunction (.constant (a.arg 0))
  | .total => h.total (a.arg 0) ((a.given 1).getD (.int 0))
  | .largest => h.extremeOf (fun x best => isLess best x) (a.arg 0) (a.given 1) a.extra
  | .smallest => h.extremeOf (fun x best => isLess x best) (a.arg 0) (a.given 1) a.extra
  | .raise => do
    let text ← displayedPlain (a.arg 0)
    throw (.raised text)
  | .countFrom => countFrom ((a.given 0).getD (.int 0)) ((a.given 1).getD (.int 1))
  | .loop => loop (a.arg 0)
  | .take => takeItems (a.arg 0) (a.arg 1)
  | .map => mapItems (a.arg 0) (a.arg 1) a.extra
  | .spy => World.defer (.spying (a.arg 0) (a.arg 1))
  | .trace => World.newFunction (.traced (a.arg 0) (a.arg 1))
  | _ => throw .wrongType

/-- The operations on graphs, elements, lineages and conditions. -/
def performElement (h : Host) (o : Op) (a : Arguments) : M Value :=
  match o with
  | .isVertex => pure (.bool ((a.arg 0).layer? = some .vertex))
  | .isEdge => pure (.bool ((a.arg 0).layer? = some .edge))
  | .isElement => pure (.bool (a.arg 0).isElement)
  | .isGraph => pure (.bool (isGraph (a.arg 0)))
  | .elementId => nodeId (a.arg 0)
  | .documentOf => nodeDocument (a.arg 0)
  | .labelOf => nodeLabel (a.arg 0)
  | .kindOf => nodeKind (a.arg 0)
  | .edgesAt side => h.callMember (.edgesAt side) (a.arg 0) [a.arg 1] []
  | .endOf i => endNode (a.arg 0) i
  | .verticesOf => h.callMember .allVertices (a.arg 0) [] []
  | .vertexWith => h.callMember .getVertex (a.arg 0) [a.arg 1] []
  | .typedId _ => pure (.typedId (a.arg 0) (a.arg 1))
  | .prepareLabels => do
    let labels ← h.labelSet (a.arg 0)
    pure (.ofOption labels)
  | .newGraph => World.newGraph {}
  | .bareEdge =>
    World.newBareEdge
      { id := a.arg 0, label := a.arg 1, source := a.arg 2, target := a.arg 3, document := a.arg 4 }
  | .track => track (a.arg 0)
  | .isTracked => pure (.bool (a.arg 0).isTracked)
  | .path => do
    let xs ← lineage (a.arg 0)
    World.newList xs.toArray
  | .reversePath => World.newHistory (a.arg 0)
  | .strip => pure (strip (a.arg 0))
  | .stripAll => pure (a.arg 0).stripAll
  | .repeatedEdge => repeatedEdge (a.arg 0) (a.arg 1)
  | .trackVertex => pure (trackElement .vertex (a.arg 0) (a.arg 1))
  | .trackEdge => pure (trackElement .edge (a.arg 0) (a.arg 1))
  | .trackGraph => pure (.trackedGraph (a.arg 0) none)
  | .subgraph => h.subgraph (a.arg 0)
  | .condition kind =>
    pure (.condition kind (a.arg 0) ((a.given 1).getD (.str ""))
      ((a.given 2).getD (.dict default none)) none)
  | .resolve => h.resolve (a.arg 1) (a.given 2) (a.arg 0)
  | .chainHandlers => World.newFunction (.chained a.extra)
  | .refuse => do
    let decision ← Handler.refuse fatal (a.arg 0)
    pure (.ofOption decision)
  | .always => World.newFunction (.deciding (a.arg 0))
  | .facing .forward => asValue (h.forward (a.arg 0) (a.arg 1))
  | .facing .reverse => asValue do
    let b ← h.forward (a.arg 0) (a.arg 1)
    pure !b
  | .facing .nearVertex => h.nearVertex (a.arg 0) (a.arg 1)
  | .facing .farVertex => h.farVertex (a.arg 0) (a.arg 1)
  | o => h.performValue o a

/-- The operations on routes. -/
def performRoute (h : Host) (o : Op) (a : Arguments) : M Value :=
  match o with
  | .step s => openStep s (a.arg 0) (a.arg 1) (postOf (a.arg 2))
  | .sortedStep direction =>
    openStep { direction, gives := .vertices, grouped := false } (a.arg 0) (a.arg 1) (.sorts (a.arg 2))
  | .ends s => openEnds s (a.arg 0) (a.arg 1)
  | .keepEqual negated => openFilter (.equals (a.arg 1) negated) (a.arg 0)
  | .keepAmong negated => h.keepAmong negated (a.arg 0) (a.arg 1)
  | .keepProjected => openFilter (.projects (a.arg 1) (a.arg 2)) (a.arg 0)
  | .keepId negated => openFilter (.idMatches (a.arg 1) negated) (a.arg 0)
  | .keepLabel => openFilter (.labelMatches (a.arg 1)) (a.arg 0)
  | .keepKind => openFilter (.kindMatches (a.arg 1)) (a.arg 0)
  | .keepProperty => World.defer (.property (a.arg 0) (a.arg 1) (a.arg 2))
  | .matcher => World.newFunction (.matching (a.arg 0))
  | .lookahead negated => openFilter (.looksAhead (a.arg 1) (a.arg 2) (a.arg 3) negated) (a.arg 0)
  | .lookaheadElement => do
    let kept ← h.looksAhead (a.arg 1) (a.arg 2) (a.arg 3) (a.arg 0)
    pure (if kept then a.arg 0 else .null)
  | .keepCyclic negated =>
    openFilter (.closesCycle (a.arg 1) ((a.given 2).getD (.int 1)) negated) (a.arg 0)
  | .guard => openGuard (a.arg 0) (a.arg 1) ((a.given 2).getD (.bool false))
  | .truncateOnRepeat => openGuard (a.arg 0) .null (.bool false)
  | .failOnRepeat => openGuard (a.arg 0) (a.arg 1) (.bool true)
  | .blocks => makeBlocks (a.arg 0)
  | .chunked => chunked (a.arg 0) (a.arg 1)
  | .branch => do
    let rs ← h.branch (a.arg 0) (a.arg 1)
    World.newList rs.toArray
  | .keyedBranch => h.keyedBranch (a.arg 0) (a.arg 1)
  | .mergeExhaustive => openExhaustive (a.arg 0)
  | .mergeRoundRobin => World.defer (.roundRobin (a.arg 0))
  | .ensureRoute => pure (ensureRoute (a.arg 0))
  | .pipeline => World.newFunction (.pipeline a.extra)
  | .iterate => do
    let n ← number (a.arg 2)
    h.iterateTimes (a.arg 1) n.toNat (a.arg 0)
  | .gather => h.gather (a.arg 0) (a.arg 1)
  | .join => World.defer (.parts (a.arg 0) .routes)
  | .documents => do
    let it ← openRoute (a.arg 0)
    World.newCursor (.each .document it)
  | .pairs => do
    let it ← openRoute (a.arg 0)
    World.newCursor (.each (match a.arg 2 with
      | .null => .pairedWith (a.arg 1)
      | g => .pairOf (a.arg 1) g) it)
  | .sections => World.defer (.parts (a.arg 0) (.sections (a.arg 1) (a.arg 2)))
  | .contexts => World.defer (.parts (a.arg 0) (.contexts (a.arg 1) (a.arg 2)))
  | .sortedSections => World.defer (.parts (a.arg 0) (.sortedSections (a.arg 1) (a.arg 2)))
  | .sortBy => do
    let it ← iterate (a.arg 1)
    let xs ← h.sortBy (a.arg 0) it
    World.newList xs.toArray
  | .intoSet => h.intoSet (a.arg 0) (a.arg 1)
  | .distinctBy => World.defer (.distinctBy (a.arg 0) (a.arg 1))
  | .distinctIn => World.defer (.distinctIn (a.arg 0) (a.arg 1) ((a.given 2).getD (.bool true)))
  | .pluck => do
    let it ← openRoute (a.arg 0)
    h.firstWhere (a.arg 1) it h.fuel
  | .indexBy => h.indexBy (a.arg 0) (a.arg 1) (a.arg 2)
  | .indexByMulti => h.indexByMulti (a.arg 0) (a.arg 1) (a.arg 2)
  | .groupCount sorted => do
    let es ← h.counts (a.arg 0) (a.arg 1)
    let es ← if sorted then sortKeyed (es.map fun e => (e.1, e)) else pure es
    pure (dictOfEntries es)
  | .groupByCount sorted => do
    let es ← h.groupByCount (a.arg 0) (a.arg 1) ((a.given 2).getD (.int 1))
    let es ← if sorted then sortKeyed (es.map fun e => (e.1, e)) else pure es
    let es ← es.mapM fun e => do
      let names ← World.newList e.2.toArray
      pure (e.1, names)
    pure (dictOfEntries es)
  | .alternate keepFirst => World.defer (.alternate (a.arg 0) (a.arg 1) keepFirst)
  | o => h.performElement o a

/-- The operations of descents, and all others. -/
def perform (h : Host) (o : Op) (a : Arguments) : M Value :=
  match o with
  | .descend givesPaths =>
    openDescent givesPaths (a.arg 0) (a.arg 1) (a.arg 2)
      ((a.given 3).getD (if givesPaths then .tuple [] none else .null)) (a.arg 4)
  | .search shape =>
    openSearch
      { shape, children := a.arg 1, pred := a.arg 2, pathPred := a.arg 3, elementPred := a.arg 4
        config := a.arg 5 } (a.arg 0)
  | .config =>
    let l := Limits.standard
    makeConfig ((a.given 0).getD (.int l.ceiling)) ((a.given 1).getD (.int l.interval))
      ((a.given 2).getD (.op .cutNoResults)) (a.arg 3)
  | .checkpoint => pure (.checkpoint (a.arg 0) (a.arg 1) (a.arg 2) none)
  | .failsafe => pure (.failsafe (a.arg 0) (a.arg 1) none)
  | .resolution => pure (.resolution (a.arg 0) (a.arg 1) none)
  | .instruction =>
    pure (.instruction (a.arg 0) (a.arg 1) (a.arg 2) ((a.given 3).getD (.bool false)))
  | .coerceInstruction => coerceInstruction (a.arg 0)
  | .resetPath => resetPath (a.arg 0)
  | .cutNoResults => h.callMember .cut (a.arg 0) [] []
  | .continueNoResults => h.callMember .descend (a.arg 0) [] []
  | .raiseNoResults => raiseNoResults (a.arg 0)
  | .valueForNoResults => World.newFunction (.substituting (a.arg 0))
  | .defaultControl => pure (.ofPreset .emitAndContinue)
  | .extendPath => extendPath (a.arg 0) (a.arg 1)
  | .emptyPath => emptyPath (a.arg 0)
  | .isOrderedPath => asValue (isOrderedPath (a.arg 0))
  | .orderedPath => h.orderedPath ((a.given 0).getD (.tuple [] none))
  | o => h.performRoute o a

/-- An operation with arguments by position and by name. -/
def callOp (h : Host) (o : Op) (args : List Value) (named : List (String × Value)) : M Value := do
  let (bound, extra) ← Act.ofOption .wrongType (o.signature.bind? args named)
  let v ← h.perform o { bound, extra }
  World.handOut v

/-- The argument of a function that has one parameter. -/
def onlyArgument (parameter : String) (args : List Value) (named : List (String × Value)) :
    M Value := do
  match Signature.bind? { required := [parameter] } args named with
  | some ([some x], _) => pure x
  | _ => throw .wrongType

/-- A function that the session has made, but for those of the program. -/
def callFunction (h : Host) (f : Function) (args : List Value) (named : List (String × Value)) :
    M Value := do
  match f with
  | .closure _ _ _ => throw .wrongType
  | .constant v => if named.isEmpty then pure v else throw .wrongType
  | .traced name f => do
    let shownName ← World.shallow name
    let shown ← renderAll World.shallow args
    World.record (.list (shownName :: shown))
    h.call f args named
  | .matching m => do
    let x ← onlyArgument "value" args named
    asValue (h.matchesValue m x)
  | .pipeline steps => do
    let r ← onlyArgument "r" args named
    h.runPipeline steps r
  | .chained handlers => do
    let c ← onlyArgument "condition" args named
    let decision ← Handler.chain (handlers.map h.handler) c
    pure (.ofOption decision)
  | .deciding v => do
    let c ← onlyArgument "condition" args named
    let decision ← Handler.always v.notNull c
    pure (.ofOption decision)
  | .substituting v => do
    let context ← onlyArgument "context" args named
    h.callMember .substitute context [v] []

end Host

end GraphRoutes.Session
