/-
**Values as text.**

A collection that holds itself is written with dots where it comes round again.

Main definitions:

* `GraphRoutes.Session.World.display` — a value as text, with quoted texts inside;
* `GraphRoutes.Session.World.plain` — the same, where a text stands for itself.
-/
import GraphRoutes.Session.Compare
import GraphRoutes.Session.Nodes
import GraphRoutes.Session.TypeName

set_option relaxedAutoImplicit false
set_option autoImplicit false

namespace GraphRoutes.Session

/-- The name of a kind of conditions, as a tag. -/
def conditionTag : ConditionKind → String
  | .general => "condition"
  | .cycle => "on_cycle"
  | .unknownDirection => "traversal_direction/unknown"

/-- How an action is written. -/
def Action.tag : Action → String
  | descend => "descend"
  | advance => "advance"
  | cut => "cut"
  | substitute => "substitute"

/-- How an action is written in capitals. -/
def Action.capitals : Action → String
  | descend => "DESCEND"
  | advance => "ADVANCE"
  | cut => "CUT"
  | substitute => "SUBSTITUTE"

namespace World

/-- Texts between brackets, separated by commas. -/
def bracketed (opening : String) (items : List String) (closing : String) : String :=
  opening ++ ", ".intercalate items ++ closing

/-- Fields between round brackets, each with its name. -/
def withFields (type : String) (fields : List (String × String)) : String :=
  bracketed (type ++ "(") (fields.map fun f => f.1 ++ "=" ++ f.2) ")"

/-- The text of a graph. -/
def displayGraph (g : Graph) : String :=
  "RustworkxGraph(vertices=" ++ toString g.vertexCount ++ ", edges=" ++ toString g.edgeCount
    ++ (if g.isSealed then ", sealed)" else ")")

/-- A number is written out only if it is below this limit, its sign apart. -/
def numberLimit : Nat := Nat.pow 10 4300

/-- What stands for itself where texts are not quoted. -/
def unquoted? : Value → Option String
  | .str s => some s
  | .action a => some ("FailsafeAction." ++ a.capitals)
  | _ => none

/-- What is written for an object inside itself; nothing for what is written again and again. -/
def inside? : Value → Option String
  | .ref .list _ => some "[...]"
  | .ref .bag _ => some "set(...)"
  | .tuple _ _ => some "(...)"
  | .dict _ _ => some "\x7b...\x7d"
  | .set _ _ => some "frozenset(...)"
  | .condition _ _ _ _ _ | .resolution _ _ _ | .checkpoint _ _ _ _ | .failsafe _ _ _
  | .config _ _ _ _ _ => some "..."
  | _ => none

/-- Whether two values are one and the same object: what lives in the world is told by its place,
other objects by their marks. -/
def identical : Value → Value → Bool
  | .ref s p, .ref t q => s == t && p == q
  | a, b => a.mark.isSome && a.mark == b.mark

/-- What is written for a value that is being written already. -/
def repeated? (writing : List Value) (v : Value) : Option String := do
  let text ← inside? v
  if writing.any (identical v) then some text else none

/-- The items of a lineage that can be read again and again, from the element back to its root. -/
def historyItems (w : World) (place : Nat) : Except Fault (List Value) :=
  match w.histories[place]? with
  | some v =>
    if v.node.sound then .ok (v.node.backward.map Value.ofNode) else .error .noAttribute
  | none => .ok []

/-- A value as text, to a depth, inside the values `writing`; texts are quoted.  A wrapped element
is written with its lineage, which must be sound. -/
def displayTo (w : World) : Nat → List Value → Value → Except Fault String
  | 0, _, _ => .error .outOfFuel
  | depth + 1, writing, v =>
    match repeated? writing v with
    | some text => .ok text
    | none =>
      let value := displayTo w depth (if (inside? v).isSome then v :: writing else writing)
      let label (l : Value) : Except Fault String :=
        match unquoted? l with
        | some text => .ok text
        | none => value l
      let fields (type : String) (fs : List (String × Value)) : Except Fault String := do
        let texts ← fs.mapM fun f => do
          let text ← value f.2
          .ok (f.1, text)
        .ok (withFields type texts)
      let all (opening : String) (xs : List Value) (closing : String) : Except Fault String := do
        let texts ← xs.mapM value
        .ok (bracketed opening texts closing)
      match v with
      | .null => .ok "None"
      | .bool b => .ok (if b then "True" else "False")
      | .int n => if n.natAbs < numberLimit then .ok (toString n) else .error .badValue
      | .str s => .ok (Text.quoted s)
      | .tuple [x] _ => all "(" [x] ",)"
      | .tuple xs _ => all "(" xs ")"
      | .typedId k i => all "k(" [k, i] ")"
      | .instruction e d c r =>
        fields "Instruction" [("emit", e), ("descend", d), ("continue_siblings", c), ("reset_path", r)]
      | .dict es _ => do
        let texts ← es.toList.mapM fun e => do
          let k ← value e.1
          let x ← value e.2
          .ok (k ++ ": " ++ x)
        .ok (bracketed "\x7b" texts "\x7d")
      | .set xs _ =>
        match xs.toList with
        | [] => .ok "frozenset()"
        | xs => all "frozenset(\x7b" xs "\x7d)"
      | .orderedPath xs _ => all "OrderedPath([" xs.toList "])"
      | .vertex u _ => do
        let id ← value (w.vertexId u)
        .ok ("v(" ++ id ++ ")")
      | .edge (.stored graph e) _ => do
        let source ← value (w.vertexId ⟨graph, e.source⟩)
        let l ← label (w.edgeLabel (.stored graph e))
        let target ← value (w.vertexId ⟨graph, e.target⟩)
        .ok ("e(" ++ source ++ " -[" ++ l ++ "]-> " ++ target ++ ")")
      | .edge (.bare place) _ => do
        let id ← value (w.bareAt place).id
        .ok ("bare(" ++ id ++ ")")
      | .tracked x =>
        match x.path? with
        | none => .error .noAttribute
        | some items => do
          let texts ← items.mapM fun y => value (Value.stripNode y)
          let opening := match x.layer? Value.sort with
            | some .vertex => "PathVertex["
            | _ => "PathEdge["
          .ok (opening ++ " ".intercalate texts ++ "]")
      | .trackedGraph g _ => all "PathGraph(" [g] ")"
      | .condition kind v m d _ =>
        fields (conditionTypeName kind) [("value", v), ("message", m), ("data", d)]
      | .action a => .ok ("<FailsafeAction." ++ a.capitals ++ ": " ++ Text.quoted a.tag ++ ">")
      | .resolution a v _ => fields "Resolution" [("action", a), ("value", v)]
      | .checkpoint p e d _ =>
        fields "SearchCheckpoint" [("path", p), ("element", e), ("depth", d)]
      | .failsafe c n _ => fields "FailsafeContext" [("checkpoint", c), ("no_results", n)]
      | .config c i p d _ =>
        fields "TraversalConfig" [("no_result_ceiling", c), ("no_result_interval", i),
          ("no_result_policy", p), ("max_depth", d)]
      | .ref .list place => all "[" (w.listAt place).toList "]"
      | .ref .bag place =>
        match (w.bagAt place).values with
        | [] => .ok "set()"
        | xs => all "\x7b" xs "\x7d"
      | .ref .graph place => .ok (displayGraph (w.graphAt place))
      | .ref .history place => do
        let items ← w.historyItems place
        all "ReversePath([" items "])"
      | .ref .iterator place =>
        match w.cursors[place]? with
        | some (.countFrom n step) =>
          all "count(" (if step.int? = some 1 then [n] else [n, step]) ")"
        | _ => .ok "<iterator>"
      | .ref .blocks _ => .ok "<Chunks>"
      | .ref .function _ => .ok "<function>"
      | .op o => .ok o.sort.text
      | .method m self => do
        let text ← value self
        .ok ("<bound method " ++ w.typeName self ++ "." ++ m.name ++ " of " ++ text ++ ">")

/-- A value as text; texts are quoted. -/
def display (w : World) (v : Value) : Except Fault String := w.displayTo depthLimit [] v

/-- A value as text; a text stands for itself. -/
def plain (w : World) (v : Value) : Except Fault String :=
  match unquoted? v with
  | some text => .ok text
  | none => w.display v

end World

/-- A value as text, in the world as it is; texts are quoted. -/
def displayed (v : Value) : M String := World.look fun w => w.display v

/-- A value as text, in the world as it is; a text stands for itself. -/
def displayedPlain (v : Value) : M String := World.look fun w => w.plain v

end GraphRoutes.Session
