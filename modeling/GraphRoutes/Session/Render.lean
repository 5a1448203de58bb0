/-
**Values as they are shown.**

A lazy sequence is shown by reading it, up to a number of items, each item shown completely before
the next one is read.  Where nothing may be read, it is shown as a lazy sequence.  A failure while an
item is read or shown is part of what is shown of the sequence, and the item is not; a failure that
cannot be shown itself is one of whatever holds the sequence.  Reading may change what is being shown:
items that a list is given meanwhile are shown too, and a set that grows meanwhile cannot be shown.

Main definitions:

* `GraphRoutes.Session.renderTo` — a value, where `lazy` shows the lazy sequences;
* `GraphRoutes.Session.World.shallow` — a value without reading anything;
* `GraphRoutes.Session.renderFault` — a failure.
-/
import GraphRoutes.Session.Host

set_option relaxedAutoImplicit false
set_option autoImplicit false

namespace GraphRoutes.Session

/-- Whether an edge was followed forward, as a tree. -/
def renderDirection : Option Side → Rendered
  | none => .null
  | some .outgoing => .bool true
  | some .incoming => .bool false

/-- Several trees, in order. -/
def renderAll {α : Type} (one : α → M Rendered) : List α → M (List Rendered)
  | [] => pure []
  | v :: vs => do
    let r ← one v
    let rs ← renderAll one vs
    pure (r :: rs)

/-- The items of a list from the position `i` on, behind those in `shown`. -/
def renderList (one : Value → M Rendered) (place : Nat) :
    Nat → Nat → Array Rendered → M (List Rendered)
  | 0, _, _ => throw .outOfFuel
  | fuel + 1, i, shown => do
    let w ← get
    match (w.listAt place)[i]? with
    | none => pure shown.toList
    | some v => do
      let r ← one v
      renderList one place fuel (i + 1) (shown.push r)

/-- The members of a set that may grow, as long as it does not. -/
def renderBag (one : Value → M Rendered) (place : Nat) : M (List Rendered) := do
  let w ← get
  let b := w.bagAt place
  renderAll (fun v => do
    let r ← one v
    let w ← get
    if (w.bagAt place).size = b.size then pure r else throw .interrupted) b.values

/-- A value, to a depth; `lazy one v` shows a lazy sequence `v` whose items are shown by `one`. -/
def renderTo (lazy : (Value → M Rendered) → Value → M Rendered) : Nat → Value → M Rendered
  | 0, _ => throw .outOfFuel
  | depth + 1, v => do
    let one := renderTo lazy depth
    let tuple (tag : String) (xs : List Value) : M Rendered := do
      let rs ← renderAll one xs
      pure (.tagged tag (.list rs))
    match v with
    | .null => pure .null
    | .bool b => pure (.bool b)
    | .int n => pure (.int n)
    | .str s => pure (.str s)
    | .tuple xs _ => tuple "t" xs
    | .typedId k i => tuple "k" [k, i]
    | .instruction e d c r => tuple "instr" [e, d, c, r]
    | .dict es _ => do
      let rs ← renderAll (fun (k, v) => do
        let k ← one k
        let v ← one v
        pure (.list [k, v])) es.toList
      pure (.tagged "d" (.list rs))
    | .set xs _ => do
      let rs ← renderAll one xs.toList
      pure (.tagged "set" (.list (Rendered.sortByText rs)))
    | .orderedPath xs _ => tuple "op" xs.toList
    | .vertex u _ => do
      let w ← get
      let id ← one (w.vertexId u)
      pure (.tagged "v" id)
    | .edge (.stored graph e) _ => do
      let w ← get
      let source ← one (w.vertexId ⟨graph, e.source⟩)
      let label ← one (w.edgeLabel (.stored graph e))
      let target ← one (w.vertexId ⟨graph, e.target⟩)
      pure (.tagged "e" (.list [.int e.index, source, label, target, renderDirection e.reached]))
    | .edge (.bare place) _ => do
      let w ← get
      let id ← one (w.bareAt place).id
      pure (.tagged "bare" id)
    | .tracked x => do
      let r ← one (.ofNode x.strip)
      pure (.tagged (match x.layer? Value.sort with
        | some .vertex => "pv"
        | _ => "pe") r)
    | .trackedGraph g _ => do
      let r ← one g
      pure (.tagged "pg" r)
    | .condition kind v m d _ => tuple "cond" [.str (conditionTag kind), v, m, d]
    | .action a => pure (.tagged "action" (.str a.tag))
    | .resolution a v _ => do
      let action ← match a with
        | .action a => pure (.str a.tag)
        | .condition _ a _ _ _ | .resolution _ a _ => one a
        | _ => throw .noAttribute
      let r ← one v
      pure (.tagged "res" (.list [action, r]))
    | .checkpoint p e d _ => tuple "ckpt" [p, e, d]
    | .failsafe c n _ => tuple "ctx" [c, n]
    | .config c i _ d _ => tuple "config" [c, i, d]
    | .op _ | .ref .function _ | .method _ _ => pure (.tagged "fn" (.bool true))
    | .ref .list place => do
      let rs ← renderList one place World.itemLimit 0 #[]
      pure (.list rs)
    | .ref .bag place => do
      let rs ← renderBag one place
      pure (.tagged "set" (.list (Rendered.sortByText rs)))
    | .ref .graph place => do
      let w ← get
      let g := w.graphAt place
      pure (.tagged "g" (.list [.int g.vertexCount, .int g.edgeCount, .bool g.isSealed]))
    | .ref .iterator _ | .ref .blocks _ | .ref .history _ => lazy one v

/-- A value without reading anything. -/
def World.shallow (v : Value) : M Rendered :=
  renderTo (fun _ _ => pure (.tagged "lazy" (.bool true))) World.depthLimit v

/-- A failure, with its text and with what belongs to its kind. -/
def renderFault (e : Fault) : M Rendered := do
  match e with
  | .condition kind value message data => do
    let text ← displayedPlain message
    let v ← World.shallow value
    let d ← World.shallow data
    pure (.failure (.condition kind) [("message", .str text), ("value", v), ("data", d)])
  | .fruitless message n => do
    let r ← World.shallow n
    pure (.failure .fruitless [("message", .str message), ("no_results", r)])
  | e =>
    pure (.failure e.kind (match e.message? with
      | some m => [("message", .str m)]
      | none => []))

/-- The most items of a lazy sequence that are shown. -/
def shownItems : Nat := 200

/-- Reads and shows one item. -/
def renderNext (h : Host) (one : Value → M Rendered) (it : Value) : M (Option Rendered) := do
  match ← h.pull it with
  | none => pure none
  | some v => do
    let r ← one v
    pure (some r)

/-- Reads and shows at most so many items; what is shown of the end is none, a failure, or that
there may be more. -/
def renderItems (h : Host) (one : Value → M Rendered) (it : Value) :
    Nat → Array Rendered → M (Array Rendered × List (String × Rendered))
  | 0, shown => pure (shown, [("more", .bool true)])
  | left + 1, shown => do
    match ← Act.attempt (renderNext h one it) with
    | .ok none => pure (shown, [])
    | .ok (some r) => renderItems h one it left (shown.push r)
    | .error e => do
      let r ← renderFault e
      pure (shown, [("raised", r)])

/-- A lazy sequence, by reading it. -/
def renderLazy (h : Host) (one : Value → M Rendered) (v : Value) : M Rendered := do
  let it ← iterate v
  let (shown, ending) ← renderItems h one it shownItems #[]
  pure (.record (("iter", .list shown.toList) :: ending))

/-- A value, with its lazy sequences read. -/
def render (h : Host) (v : Value) : M Rendered :=
  renderTo (renderLazy h) World.depthLimit v

end GraphRoutes.Session
