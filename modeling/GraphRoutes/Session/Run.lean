/-
**Running programs.**

Expressions are evaluated over a host.  The host of a session calls functions and reads sequences by
evaluating expressions and taking steps over a host of less depth, so everything a session does ends
at the latest when its depth is used up.  Programs that nest their calls less deeply never notice.

Main definitions:

* `GraphRoutes.Session.eval` — the value of an expression;
* `GraphRoutes.Session.call`, `GraphRoutes.Session.pull`, `GraphRoutes.Session.host` — the host of a
  session, to a depth;
* `GraphRoutes.Session.Program.run` — the answers of a program.
-/
import GraphRoutes.Session.Perform

set_option relaxedAutoImplicit false
set_option autoImplicit false

namespace GraphRoutes.Session

/-! ### Expressions -/

mutual

/-- The value of a datum; lists and dictionaries are made anew. -/
def Datum.value : Datum → M Value
  | .null => pure .null
  | .bool b => pure (.bool b)
  | .int n => pure (.int n)
  | .str s => pure (.str s)
  | .list xs => do
    let vs ← Datum.values xs
    World.newList vs.toArray
  | .dict es => do
    let vs ← Datum.entries es
    World.handOut (dictOfEntries vs)

/-- The values of data. -/
def Datum.values : List Datum → M (List Value)
  | [] => pure []
  | x :: xs => do
    let v ← Datum.value x
    let vs ← Datum.values xs
    pure (v :: vs)

/-- The entries of a dictionary of data. -/
def Datum.entries : List (String × Datum) → M (List (Value × Value))
  | [] => pure []
  | (k, x) :: es => do
    let v ← Datum.value x
    let vs ← Datum.entries es
    pure ((.str k, v) :: vs)

end

/-- The value that a name stands for. -/
def Standing.value : Standing → Value
  | op o => .op o
  | preset p => .ofPreset p
  | defaultConfig => Session.defaultConfig

/-- The parameters bound around an expression, innermost first. -/
abbrev Scope : Type := List (String × Value)

/-- The value of a name. -/
def nameValue (scope : Scope) (x : String) (standing : Option Standing) : M Value := do
  let w ← get
  match scope.lookup x with
  | some v => pure v
  | none =>
    match w.bindings.lookup x with
    | some v => pure v
    | none =>
      match standing with
      | some s => pure s.value
      | none => throw .missingKey

mutual

/-- The value of an expression. -/
def eval (h : Host) (scope : Scope) : Expr → M Value
  | .literal d => d.value
  | .name x standing => nameValue scope x standing
  | .function parameters body => World.newFunction (.closure parameters body scope)
  | .choose c yes no => do
    let v ← eval h scope c
    if ← isTrue v then eval h scope yes else eval h scope no
  | .and a b => do
    let v ← eval h scope a
    if ← isTrue v then eval h scope b else pure v
  | .or a b => do
    let v ← eval h scope a
    if ← isTrue v then pure v else eval h scope b
  | .inOrder es => do
    let vs ← evalAll h scope es
    pure ((vs.getLast?).getD .null)
  | .call f args named => do
    let f ← eval h scope f
    let args ← evalAll h scope args
    let named ← evalNamed h scope named
    h.call f args named
  | .method m self args named => do
    let self ← eval h scope self
    let args ← evalAll h scope args
    let named ← evalNamed h scope named
    h.callMember m self args named
  | .attribute m self => do
    let self ← eval h scope self
    readMember self m

/-- The values of expressions, in order. -/
def evalAll (h : Host) (scope : Scope) : List Expr → M (List Value)
  | [] => pure []
  | e :: es => do
    let v ← eval h scope e
    let vs ← evalAll h scope es
    pure (v :: vs)

/-- The values of named expressions, in order. -/
def evalNamed (h : Host) (scope : Scope) : List (String × Expr) → M (List (String × Value))
  | [] => pure []
  | (x, e) :: es => do
    let v ← eval h scope e
    let vs ← evalNamed h scope es
    pure ((x, v) :: vs)

end

/-- Calls a value over a host. -/
def callOver (h : Host) (f : Value) (args : List Value) (named : List (String × Value)) :
    M Value := do
  match f with
  | .op o => h.callOp o args named
  | .ref .function place => do
    let w ← get
    match w.functions[place]? with
    | some (.closure parameters body scope) =>
      if parameters.length = args.length && named.isEmpty then
        eval h ((parameters.zip args).reverse ++ scope) body
      else throw .wrongType
    | some f => h.callFunction f args named
    | none => throw .wrongType
  | .method m self => h.doMember m self args named
  | _ => throw .wrongType

/-- Reads an iterator over a host. -/
def pullOver (h : Host) (it : Value) : M (Option Value) :=
  match it with
  | .ref .iterator place => readCursor h place
  | _ => throw .wrongType

/-! ### The host of a session -/

/-- How deep a session nests its calls and reads. -/
def nestingLimit : Nat := 50000

mutual

/-- Calls a value, to a depth. -/
def call : Nat → Value → List Value → List (String × Value) → M Value
  | 0, _, _, _ => throw .outOfFuel
  | depth + 1, f, args, named =>
    callOver
      { call := fun f args named => call depth f args named, pull := fun it => pull depth it
        fuel := World.itemLimit } f args named

/-- Reads an iterator, to a depth. -/
def pull : Nat → Value → M (Option Value)
  | 0, _ => throw .outOfFuel
  | depth + 1, it =>
    pullOver
      { call := fun f args named => call depth f args named, pull := fun it => pull depth it
        fuel := World.itemLimit } it

end

/-- The host of a session. -/
def host (depth : Nat) : Host where
  call := call depth
  pull := pull depth
  fuel := World.itemLimit

/-! ### Programs -/

/-- The answer to a statement, before the log is added. -/
def Statement.answer (h : Host) : Statement → M (List (String × Rendered))
  | .bind x e => do
    let v ← eval h [] e
    modify fun w => { w with bindings := (x, v) :: w.bindings }
    pure [("ok", .bool true)]
  | .show e => do
    let v ← eval h [] e
    let r ← render h v
    pure [("v", r)]

/-- The answer to a statement, with what it has logged. -/
def Statement.run (h : Host) (s : Statement) : M Rendered := do
  modify fun w => { w with log := #[] }
  let answer ← Act.attempt (s.answer h)
  let failed ← match answer with
    | .ok _ => pure none
    | .error e => do
      match ← Act.attempt (renderFault e) with
      | .ok r => pure (some r)
      | .error _ => pure none
  let w ← get
  let logged := if w.log.isEmpty then [] else [("log", .list w.log.toList)]
  match answer, failed with
  | .ok fields, _ => pure (.record (fields ++ logged))
  | .error _, some (.failure kind details) => pure (.failure kind (details ++ logged))
  | .error e, _ => pure (.failure e.kind logged)

/-- The answers to statements, in order. -/
def runAll (h : Host) : List Statement → M (List Rendered)
  | [] => pure []
  | s :: ss => do
    let r ← s.run h
    let rs ← runAll h ss
    pure (r :: rs)

/-- The answers of a program, in a world of its own. -/
def Program.run (p : Program) : Rendered :=
  let w : World := { logging := p.logging }
  match (runAll (host nestingLimit) p.statements) w with
  | .ok rs _ => .tagged "out" (.list rs)
  | .error e _ => .failure e.kind []

end GraphRoutes.Session
