/-
**Descents and searches along functions of a program.**

Main definitions:

* `GraphRoutes.Session.extendPath`, `GraphRoutes.Session.emptyPath` — how a path of any kind grows;
* `GraphRoutes.Session.coerceInstruction` — the instruction that a value stands for;
* `GraphRoutes.Session.tuningOf`, `GraphRoutes.Session.makeConfig` — configurations;
* `GraphRoutes.Session.DescentPlan.step` — the step of a descent;
* `GraphRoutes.Session.openSearch`, `GraphRoutes.Session.SearchPlan.step` — the beginning and the
  step of a search.
-/
import GraphRoutes.Session.Host

set_option relaxedAutoImplicit false
set_option autoImplicit false

namespace GraphRoutes.Session

/-! ### Paths -/

/-- The items of an ordered path. -/
def pathItems? (w : World) : Value → Option (List Value)
  | .orderedPath xs _ => some xs.toList
  | v => (w.sequence? v).map (·.2)

/-- A path of the same kind with one element more. -/
def extendPath (path element : Value) : M Value := do
  let w ← get
  match path with
  | .null => pure .null
  | .orderedPath xs _ => do
    let k ← keyOf element
    pure (.orderedPath (xs.push k element) none)
  | .ref .list place => World.newList ((w.listAt place).push element)
  | path =>
    match path.tuple?, w.members? path with
    | some xs, _ => pure (.tuple (xs ++ [element]) none)
    | none, some xs => do
      let xs ← addMember xs element
      pure (.set xs none)
    | none, none => throw (.invalid (.unsupportedPath (w.typeName path)))

/-- An empty path of the same kind. -/
def emptyPath (path : Value) : M Value := do
  let w ← get
  match path with
  | .null => pure .null
  | .orderedPath _ _ => pure (.orderedPath default none)
  | .ref .list _ => World.newList #[]
  | path =>
    match path.tuple?, w.members? path with
    | some _, _ => pure (.tuple [] none)
    | none, some _ => pure (.set default none)
    | none, none => throw (.invalid (.unsupportedPath (w.typeName path)))

/-- The ancestors that a search keeps, as a value. -/
def trailValue (t : Trail Keyed) : Value :=
  let items := t.items.map (·.value)
  match t.kind with
  | .untracked => .null
  | .sequence => .tuple items t.mark
  | .set => .set (.ofList Value.spell items) t.mark
  | .indexed => .orderedPath (.ofList Value.spell items) t.mark

/-! ### Instructions -/

/-- The preset that a value names. -/
def presetOf? : Value → Option Preset
  | .str s => Preset.ofName? s
  | _ => none

/-- The instruction that a value is or names. -/
def coerceInstruction (v : Value) : M Value := do
  match v with
  | .instruction _ _ _ _ => pure v
  | v =>
    match presetOf? v with
    | some p => pure (.ofPreset p)
    | none => do
      let text ← displayed v
      throw (.invalid (.notInstruction text))

/-- The decisions of a value that must be an instruction, or name one. -/
def readInstruction (v : Value) : M (Instruction Value) := do
  match ← coerceInstruction v with
  | .instruction e d c r =>
    pure { emit := e, descend := d, continueSiblings := c, resetPath := r }
  | _ => throw .wrongType

/-! ### Configurations -/

/-- A number that must be below one, or not. -/
def isBelow (v : Value) (bound : Int) : M Bool := do
  let n ← Act.ofOption .wrongType v.int?
  pure (n < bound)

/-- A configuration, if its parts are in range. -/
def makeConfig (ceiling interval policy maxDepth : Value) : M Value := do
  if ← isBelow ceiling 1 then
    let text ← displayedPlain ceiling
    throw (.invalid (.ceilingNotPositive text))
  if ← isBelow interval 1 then
    let text ← displayedPlain interval
    throw (.invalid (.intervalNotPositive text))
  match maxDepth with
  | .null => pure ()
  | d =>
    if ← isBelow d 0 then
      let text ← displayedPlain d
      throw (.invalid (.depthNegative text))
  if !policy.callable then
    let text ← displayed policy
    throw (.invalid (.policyNotCallable text))
  pure (.config ceiling interval policy maxDepth none)

/-- The configuration where none is given.  It is one object for all. -/
def defaultConfig : Value :=
  let l := Limits.standard
  .config (.int l.ceiling) (.int l.interval) (.op .cutNoResults) .null (some 0)

/-- The limits of a configuration. -/
def limitsOf (ceiling interval maxDepth : Value) : Limits :=
  let c := ((ceiling.int?).getD 0).toNat
  let i := ((interval.int?).getD 0).toNat
  let d := maxDepth.int?.map Int.toNat
  if hc : 0 < c then
    if hi : 0 < i then { ceiling := c, interval := i, maxDepth := d, ceiling_pos := hc, interval_pos := hi }
    else { Limits.standard with maxDepth := d }
  else { Limits.standard with maxDepth := d }

/-- The limits and the policy of a value that must be a configuration. -/
def tuningOf (v : Value) : M Tuning :=
  match v with
  | .config c i p d _ => pure { limits := limitsOf c i d, policy := p }
  | _ => throw .noAttribute

/-- A value that counts as true, or a default in its place. -/
def orDefault (v default : Value) : M Value := do
  let given ← isTrue v
  pure (if given then v else default)

/-! ### What a fruitless search does -/

/-- Asks a policy. -/
def askPolicy (h : Host) (policy path element : Value) (depth n : Nat) : M (Resolution Value) := do
  let path ← World.handOut path
  let checkpoint ← World.handOut (.checkpoint path element (.int depth) none)
  match ← h.apply policy [.failsafe checkpoint (.int n) none] with
  | .resolution (.action .advance) _ _ => pure .advance
  | .resolution (.action .cut) _ _ => pure .cut
  | .resolution (.action .substitute) v _ => pure (.substitute v)
  | .resolution _ _ _ => pure .descend
  | _ => throw .noAttribute

/-- The log entry for what a descent reports; `valueOf` is the value of an element. -/
def reportNote {α : Type} (valueOf : α → Value) (note : Note α Value) : M Unit := do
  match note with
  | .checkpoint n x =>
    reportText "#DEBUG" do
      let element ← displayed (valueOf x)
      pure ("Failsafe checkpoint after " ++ toString n ++ " fruitless steps at " ++ element)
  | .abandoned n depth x =>
    reportText "#WARNING" do
      let element ← displayed (valueOf x)
      pure ("Abandoning fruitless branch at " ++ element ++ " (depth " ++ toString depth
        ++ ") after " ++ toString n ++ " steps without results")
  | .abandonedWithSiblings n depth x =>
    reportText "#WARNING" do
      let element ← displayed (valueOf x)
      pure ("Abandoning fruitless branch at " ++ element ++ " and its siblings (depth "
        ++ toString depth ++ ") after " ++ toString n ++ " steps without results")
  | .substituted n x v =>
    reportText "#WARNING" do
      let element ← displayed (valueOf x)
      let result ← displayed v
      pure ("Ending fruitless search at " ++ element ++ " after " ++ toString n
        ++ " steps; substituting " ++ result)

/-! ### Descents -/

/-- The result of a descent for an element below a path: the element, or the path with it. -/
def descentResult (givesPaths : Bool) (path element : Value) : M Value := do
  if givesPaths then do
    let w ← get
    let items ← Act.ofOption .wrongType (pathItems? w path)
    pure (.tuple (items ++ [element]) none)
  else pure element

/-- The walk of a descent. -/
def DescentPlan.env (h : Host) (plan : DescentPlan) (policy : Value) :
    Walk.Env World Fault Value Value Value Value Value where
  next := h.source
  control path x := do
    let answer ← h.apply plan.control [path, x]
    readInstruction answer
  truth := isTrue
  result := descentResult plan.givesPaths
  extend path x := do
    let path ← extendPath path x
    World.handOut path
  restart path := do
    let path ← emptyPath path
    World.handOut path
  children path x := do
    let route ← h.apply plan.children [path, x]
    openRoute route
  policy := askPolicy h policy
  report := reportNote id

/-- One step of a descent. -/
def DescentPlan.step (h : Host) (plan : DescentPlan) (t : Tuning) :
    Machine World Fault (Walk Value Value Value Value) Value :=
  Walk.step (plan.env h t.policy) t.limits

/-- A descent that has not begun.  Paths can only be given if they have an order. -/
def openDescent (givesPaths : Bool) (route children control path config : Value) : M Value := do
  let w ← get
  if givesPaths && (pathItems? w path).isNone then
    throw (.invalid (.unorderedPath (w.typeName path)))
  let control ← orDefault control (.op .defaultControl)
  let config ← orDefault config defaultConfig
  World.defer (.descent { children, control, config, givesPaths } route path)

/-! ### Searches -/

/-- Refuses a bound on the length of a path that is not positive. -/
def checkBound (parameter : String) (v : Value) : M Unit := do
  if v.callable then pure ()
  else
    match v with
    | .null => pure ()
    | v => do
      let refused ← match v with
        | .bool _ => pure true
        | v => isBelow v 1
      if refused then
        let text ← displayed v
        throw (.invalid (.lengthBound parameter text))

/-- The gate that a test of a search stands for. -/
def gate (h : Host) (v : Value) (args : Trail Keyed → Keyed → List Value) :
    Option (Search.Gate World Fault Keyed) :=
  if v.callable then
    some (.asks fun t x => do
      let r ← h.apply v (args t x)
      isTrue r)
  else v.int?.map .within

/-- The tests and the scope of a search. -/
def SearchPlan.plan (h : Host) (p : SearchPlan) : Search.Plan World Fault Keyed where
  criteria := {
    cutCycles := p.shape.cutCycles
    pred := gate h p.pred fun t x => [trailValue t, x.value]
    pathPred := gate h p.pathPred fun t _ => [trailValue t]
    elementPred := p.elementPred.notNull.map fun f => fun x => do
      let r ← h.apply f [x.value]
      isTrue r }
  scope := p.shape.scope
  givesPaths := p.shape.givesPaths

/-- What a search asks of the session. -/
def SearchPlan.host (h : Host) (p : SearchPlan) (policy : Value) :
    Search.Host World Fault Keyed Value Value Key where
  next it := do
    match ← h.pull it with
    | none => pure none
    | some v => pure (some (v.keyed, it))
  children x := do
    let route ← h.apply p.children [x.value]
    openRoute route
  nothing := iterateItems .gathered []
  keyOf := Keyed.key
  unhashable := .wrongType
  identical x y := x.key == y.key && x.value.mark == y.value.mark
  same x y := areSame x.value y.value
  mark := World.newMark
  result t x :=
    if p.shape.givesPaths then .tuple (t.items.map (·.value) ++ [x.value]) none else x.value
  policy t x depth n := askPolicy h policy (trailValue t) x.value depth n
  report := reportNote Keyed.value

/-- One step of a search. -/
def SearchPlan.step (h : Host) (p : SearchPlan) (t : Tuning) :
    Machine World Fault (Search Keyed Value) Value :=
  Search.step (p.host h t.policy) (p.plan h) t.limits

/-- A search that has not begun. -/
def openSearch (p : SearchPlan) (route : Value) : M Value := do
  checkBound "pred" p.pred
  checkBound "path_pred" p.pathPred
  let config ← orDefault p.config defaultConfig
  World.defer (.search { p with config } route)

end GraphRoutes.Session
