/-
**Everything that a session does keeps what endures.**

The members of objects, the operations, the functions and the expressions of a session are gone through
one by one; each is built from ways to look at the world, from ways to make something new in it, and from
calls and reads of the host.  The host of a session calls and reads over a host of less depth, so that it
keeps what endures follows by induction on the depth.

Main results:

* `GraphRoutes.Session.maintains_callMember`, `GraphRoutes.Session.maintains_callOp`,
  `GraphRoutes.Session.maintains_callFunction` — calls of members, operations and functions;
* `GraphRoutes.Session.maintains_eval` — expressions;
* `GraphRoutes.Session.maintains_host` — **the calls and reads of a session**, to any depth;
* `GraphRoutes.Session.maintains_statement`, `GraphRoutes.Session.maintains_runAll` — statements and
  programs.
-/
import GraphRoutes.Proofs.Session.Upkeep
import GraphRoutes.Session.Run

set_option relaxedAutoImplicit false
set_option autoImplicit false

namespace GraphRoutes.Session

open Act (Maintains)
open World Route

variable {I : World → Prop} {α : Type}

/-! ### Operations on plain values -/

@[grind ←] theorem maintains_number (v : Value) : Maintains I (number v) := .ofOption _ _

@[grind ←] theorem maintains_times (xs : List α) (n : Int) : Maintains I (times xs n) := by
  unfold times
  grind

@[grind ←] theorem maintains_remainder (a b : Value) : Maintains I (remainder a b) := by
  unfold remainder
  grind

@[grind ←] theorem maintains_isLess (a b : Value) : Maintains I (isLess a b) := maintains_look _

@[grind ←] theorem maintains_size (v : Value) : Maintains I (size v) := by
  unfold size
  grind

@[grind ←] theorem maintains_indexOf (position : Value) (count : Nat) :
    Maintains I (indexOf position count) := by
  unfold indexOf
  grind

@[grind ←] theorem maintains_item (collection i : Value) : Maintains I (item collection i) := by
  unfold item itemAt
  grind

@[grind ←] theorem maintains_lookUp (dict key default : Value) : Maintains I (lookUp dict key default) := by
  unfold lookUp
  grind

@[grind ←] theorem maintains_upperCase (v : Value) : Maintains I (upperCase v) := by
  unfold upperCase
  grind

section

variable (hI : Enduring I)

include hI

@[grind ←] theorem maintains_add (a b : Value) : Maintains I (add a b) := by
  unfold add
  grind

@[grind ←] theorem maintains_multiply (a b : Value) : Maintains I (multiply a b) := by
  unfold multiply repeated
  grind

@[grind ←] theorem maintains_append (list x : Value) : Maintains I (append list x) := by
  unfold append
  split
  · exact Maintains.bind (.modify fun _ => hI.congr rfl fun _ _ => id) fun _ => .pure _
  · exact .throw _

@[grind ←] theorem maintains_takeItems (n r : Value) : Maintains I (takeItems n r) := by
  unfold takeItems
  grind

@[grind ←] theorem maintains_mapItems (f r : Value) (others : List Value) :
    Maintains I (mapItems f r others) := by
  unfold mapItems
  grind

@[grind ←] theorem maintains_answersUntil (f sentinel : Value) :
    Maintains I (answersUntil f sentinel) := by
  unfold answersUntil
  grind

@[grind ←] theorem maintains_countFrom (start step : Value) : Maintains I (countFrom start step) := by
  unfold countFrom
  grind

@[grind ←] theorem maintains_loop (r : Value) : Maintains I (loop r) := by
  unfold loop
  grind

/-! ### Operations on graphs and lineages -/

@[grind ←] theorem maintains_publish (graph : Nat) : Maintains I (publish graph) := by
  have hseal : Maintains I (modify fun w : World =>
      { w with graphs := w.graphs.modify graph Store.publish } : M Unit) :=
    .modify fun w => hI.publish graph w
  unfold publish
  grind

@[grind ←] theorem maintains_allVertices (graph : Nat) (kind : Value) :
    Maintains I (allVertices graph kind) := by
  unfold allVertices
  grind

@[grind ←] theorem maintains_allEdges (graph : Nat) : Maintains I (allEdges graph) := by
  unfold allEdges
  grind

@[grind ←] theorem maintains_allTracked (v : Value) : Maintains I (allTracked v) := by
  fun_induction allTracked v <;> grind

end

@[grind ←] theorem maintains_getVertex (graph : Nat) (id : Value) : Maintains I (getVertex graph id) := by
  unfold getVertex findVertex
  grind

@[grind ←] theorem maintains_vertex (graph : Nat) (id : Value) : Maintains I (vertex graph id) := by
  unfold vertex findVertex unknownId
  grind

@[grind ←] theorem maintains_getTracked (v id : Value) : Maintains I (getTracked v id) := by
  fun_induction getTracked v id <;> grind

@[grind ←] theorem maintains_lineage (v : Value) : Maintains I (lineage v) := by
  unfold lineage
  grind

@[grind ←] theorem maintains_absorbLineage (g : Gathering Value Key Value Value Token) (v : Value) :
    Maintains I (absorbLineage g v) := by
  unfold absorbLineage absorbItem
  grind

@[grind ←] theorem maintains_track (v : Value) : Maintains I (track v) := by
  unfold track
  grind

@[grind ←] theorem maintains_repeatedEdge (e maxDepth : Value) : Maintains I (repeatedEdge e maxDepth) := by
  unfold repeatedEdge
  grind

/-! ### Configurations and paths -/

@[grind ←] theorem maintains_evolve (config : Value) (ceiling interval policy maxDepth : Option Value) :
    Maintains I (evolve config ceiling interval policy maxDepth) := by
  unfold evolve
  grind

@[grind ←] theorem maintains_failsafeDue (config n : Value) : Maintains I (failsafeDue config n) := by
  unfold failsafeDue
  grind

@[grind ←] theorem maintains_resetPath (v : Value) : Maintains I (resetPath v) := by
  unfold resetPath
  grind

@[grind ←] theorem maintains_isOrderedPath (v : Value) : Maintains I (isOrderedPath v) := by
  unfold isOrderedPath
  grind

/-! ### Operations on routes -/

@[grind ←] theorem maintains_reaches (least count : Value) : Maintains I (Host.reaches least count) :=
  maintains_look _

section

variable (hI : Enduring I)

include hI

@[grind ←] theorem maintains_openStep (s : StepShape) (route labels : Value) (post : Post) :
    Maintains I (openStep s route labels post) := by
  unfold openStep
  grind

@[grind ←] theorem maintains_openEnds (s : EndStep) (route onUnknown : Value) :
    Maintains I (openEnds s route onUnknown) := by
  unfold openEnds
  grind

@[grind ←] theorem maintains_openFilter (test : Test) (route : Value) :
    Maintains I (openFilter test route) := by
  unfold openFilter
  grind

@[grind ←] theorem maintains_copies (it : Value) (n : Nat) : Maintains I (Host.copies it n) := by
  have hcopies (shared position n : Nat) :
      Maintains I ((List.range n).mapM fun _ => newCursor (.copy shared position)) :=
    .mapM (fun _ => maintains_newCursor hI _) _
  unfold Host.copies
  refine Maintains.get.bind fun w => ?_
  extract_lets reader copiesOf
  clear_value reader
  split
  · exact .pure _
  · exact (hcopies _ _ _).bind fun _ => .pure _
  · exact (maintains_newShared hI _).bind fun shared => hcopies shared 0 _

@[grind ←] theorem maintains_openExhaustive (rs : Value) : Maintains I (openExhaustive rs) := by
  unfold openExhaustive
  grind

@[grind ←] theorem maintains_makeBlocks (blocks : Value) : Maintains I (makeBlocks blocks) := by
  unfold makeBlocks
  grind

@[grind ←] theorem maintains_chunked (items size : Value) : Maintains I (chunked items size) := by
  unfold chunked
  grind

@[grind ←] theorem maintains_openGuard (route handler strict : Value) :
    Maintains I (openGuard route handler strict) := by
  unfold openGuard
  grind

end

/-! ### Operations that call and read -/

section

variable (hI : Enduring I) {h : Host} (hh : h.Maintains I)

include hI hh

@[grind ←] theorem maintains_unpack (n : Nat) (v : Value) : Maintains I (h.unpack n v) := by
  have htake (n : Nat) (it : Value) := maintains_takeUpTo (maintains_source hh) n it
  unfold Host.unpack
  grind

@[grind ←] theorem maintains_dictOf (pairs : Value) : Maintains I (h.dictOf pairs) := by
  unfold Host.dictOf
  split
  · exact .pure _
  · refine (maintains_iterate hI pairs).bind fun it =>
      (maintains_fold hh (fun d pair => ?_) it _).bind fun d => .pure _
    grind

@[grind ←] theorem maintains_total (v start : Value) : Maintains I (h.total v start) := by
  unfold Host.total
  grind

@[grind ←] theorem maintains_extreme {beats : Value → Value → M Bool}
    (hbeats : ∀ a b, Maintains I (beats a b)) (key it : Value) :
    Maintains I (h.extreme beats key it) := by
  unfold Host.extreme
  refine (maintains_fold hh (fun best x => ?_) it _).bind fun best => .pure _
  grind

@[grind ←] theorem maintains_extremeOf {beats : Value → Value → M Bool}
    (hbeats : ∀ a b, Maintains I (beats a b)) (key : Value) (default : Option Value)
    (vs : List Value) : Maintains I (h.extremeOf beats key default vs) := by
  unfold Host.extremeOf
  grind

omit hI in
@[grind ←] theorem maintains_next (it : Value) (default : Option Value) :
    Maintains I (h.next it default) := by
  unfold Host.next
  grind

@[grind ←] theorem maintains_orderedPath (items : Value) : Maintains I (h.orderedPath items) := by
  unfold Host.orderedPath
  grind

@[grind ←] theorem maintains_addVertices (graph : Nat) (pairs : Value) :
    Maintains I (h.addVertices graph pairs) := by
  have hadd := hI.addVertex graph
  unfold Host.addVertices
  refine (maintains_iterate hI pairs).bind fun it =>
    (maintains_fold hh (fun _ pair => ?_) it _).bind fun _ => .pure _
  grind

@[grind ←] theorem maintains_addEdges (graph : Nat) (label entries : Value) :
    Maintains I (h.addEdges graph label entries) := by
  have hadd := hI.addEdge graph
  unfold Host.addEdges
  refine (maintains_iterate hI entries).bind fun it =>
    (maintains_fold hh (fun _ entry => ?_) it _).bind fun _ => .pure _
  grind

@[grind ←] theorem maintains_subgraph (route : Value) : Maintains I (h.subgraph route) := by
  have hnew := hI.newGraph
  unfold Host.subgraph
  grind

@[grind ←] theorem maintains_keepAmong (negated : Bool) (route values : Value) :
    Maintains I (h.keepAmong negated route values) := by
  unfold Host.keepAmong
  grind

@[grind ←] theorem maintains_firstWhere (f it : Value) (n : Nat) : Maintains I (h.firstWhere f it n) := by
  induction n with
  | zero => exact .throw _
  | succ n ih =>
      unfold Host.firstWhere
      grind

@[grind ←] theorem maintains_applyEach (it : Value) (xs : List Value) :
    Maintains I (h.applyEach it xs) := by
  induction xs with
  | nil =>
      unfold Host.applyEach
      grind
  | cons x xs ih =>
      unfold Host.applyEach
      grind

@[grind ←] theorem maintains_branch (route fs : Value) : Maintains I (h.branch route fs) := by
  unfold Host.branch
  grind

@[grind ←] theorem maintains_keyedBranch (route fs : Value) : Maintains I (h.keyedBranch route fs) := by
  unfold Host.keyedBranch
  refine (maintains_items hI hh fs).bind fun keys => (Maintains.mapM (maintains_item fs) keys).bind
    fun functions => (maintains_newList hI _).bind fun list =>
      (maintains_branch hI hh route list).bind fun rs =>
        (Maintains.foldlM (fun d e => ?_) _ _).bind fun d => .pure _
  grind

@[grind ←] theorem maintains_runPipeline (steps : List Value) (route : Value) :
    Maintains I (h.runPipeline steps route) :=
  .foldlM (fun r step => maintains_apply hI hh step [r]) _ steps

@[grind ←] theorem maintains_iterateTimes (f : Value) (n : Nat) (r : Value) :
    Maintains I (h.iterateTimes f n r) := by
  induction n generalizing r with
  | zero => exact .pure _
  | succ n ih => exact (maintains_apply hI hh f [r]).bind ih

@[grind ←] theorem maintains_gather (route into : Value) : Maintains I (h.gather route into) := by
  unfold Host.gather
  grind

@[grind ←] theorem maintains_intoSet (route f : Value) : Maintains I (h.intoSet route f) := by
  unfold Host.intoSet
  grind

@[grind ←] theorem maintains_indexBy (route toKey toValue : Value) :
    Maintains I (h.indexBy route toKey toValue) := by
  unfold Host.indexBy
  refine (maintains_openRoute hI route).bind fun it =>
    (maintains_fold hh (fun d x => ?_) it _).bind fun d => .pure _
  grind

@[grind ←] theorem maintains_indexByMulti (route toKeys toValue : Value) :
    Maintains I (h.indexByMulti route toKeys toValue) := by
  unfold Host.indexByMulti
  refine (maintains_openRoute hI route).bind fun it =>
    (maintains_fold hh (fun d x => ?_) it _).bind fun d => .pure _
  grind

@[grind ←] theorem maintains_counts (route f : Value) : Maintains I (h.counts route f) := by
  unfold Host.counts
  grind

@[grind ←] theorem maintains_groupByCount (route f least : Value) :
    Maintains I (h.groupByCount route f least) := by
  unfold Host.groupByCount
  exact (maintains_counts hI hh route f).bind fun all =>
    (Maintains.filterM (fun e => maintains_reaches least e.2) all).bind fun kept =>
      (Maintains.mapM (fun e => maintains_keyOf e.2) kept).bind fun _ => .pure _

/-! ### Members, operations and functions -/

omit hI hh in
@[grind ←] theorem maintains_elementMember (hI : Enduring I) (v : Value) (m : Member) (arg : Nat → Value) :
    Maintains I (Host.elementMember v m arg) := by
  unfold Host.elementMember
  grind

omit hh in
@[grind ←] theorem maintains_readMember (v : Value) (m : Member) : Maintains I (readMember v m) := by
  unfold readMember
  grind

@[grind ←] theorem maintains_graphMember (graph : Nat) (m : Member) (arg : Nat → Value) :
    Maintains I (h.graphMember graph m arg) := by
  have hvertex := hI.addVertex graph
  have hdocument := hI.setDocument graph
  have hedge := hI.addEdge graph
  unfold Host.graphMember
  grind

@[grind ←] theorem maintains_blockOrNull (place : Nat) : Maintains I (h.blockOrNull place) := by
  unfold Host.blockOrNull
  grind [maintains_readBlock]

@[grind ←] theorem maintains_performMember (m : Member) (v : Value) (given : Nat → Option Value) :
    Maintains I (h.performMember m v given) := by
  unfold Host.performMember
  grind

@[grind ←] theorem maintains_doMember (m : Member) (v : Value) (args : List Value)
    (named : List (String × Value)) : Maintains I (h.doMember m v args named) := by
  unfold Host.doMember
  grind

@[grind ←] theorem maintains_callMember (m : Member) (v : Value) (args : List Value)
    (named : List (String × Value)) : Maintains I (h.callMember m v args named) := by
  have hcall := hh.call
  unfold Host.callMember
  grind

omit hI hh in
@[grind ←] theorem maintains_raiseNoResults (hI : Enduring I) (context : Value) : Maintains I (raiseNoResults context) := by
  unfold raiseNoResults
  grind

@[grind ←] theorem maintains_performValue (o : Op) (a : Arguments) :
    Maintains I (h.performValue o a) := by
  unfold Host.performValue asValue
  grind

@[grind ←] theorem maintains_performElement (o : Op) (a : Arguments) :
    Maintains I (h.performElement o a) := by
  have hnew := hI.newGraph
  unfold Host.performElement asValue
  grind

@[grind ←] theorem maintains_performRoute (o : Op) (a : Arguments) :
    Maintains I (h.performRoute o a) := by
  have hlists (es : List (Value × List Value)) : Maintains I (es.mapM fun e => do
      let names ← newList e.2.toArray
      pure (e.1, names)) :=
    .mapM (fun e => (maintains_newList hI _).bind fun _ => .pure _) es
  unfold Host.performRoute
  grind

@[grind ←] theorem maintains_perform (o : Op) (a : Arguments) : Maintains I (h.perform o a) := by
  unfold Host.perform asValue
  grind

@[grind ←] theorem maintains_callOp (o : Op) (args : List Value) (named : List (String × Value)) :
    Maintains I (h.callOp o args named) := by
  unfold Host.callOp
  grind

omit hI hh in
@[grind ←] theorem maintains_onlyArgument (parameter : String) (args : List Value)
    (named : List (String × Value)) : Maintains I (Host.onlyArgument parameter args named) := by
  unfold Host.onlyArgument
  grind

@[grind ←] theorem maintains_callFunction (f : Function) (args : List Value)
    (named : List (String × Value)) : Maintains I (h.callFunction f args named) := by
  cases f with
  | traced name f =>
      exact (maintains_shallow name).bind fun _ => (maintains_renderAll maintains_shallow args).bind
        fun _ => (maintains_record hI _).bind fun _ => hh.call f args named
  | chained handlers =>
      refine (maintains_onlyArgument _ args named).bind fun c =>
        (Handler.maintains_chain fun f hf => ?_).bind fun _ => .pure _
      obtain ⟨x, -, rfl⟩ := List.mem_map.1 hf
      exact maintains_handler hI hh x c
  | deciding v => exact (maintains_onlyArgument _ args named).bind fun c => .pure _
  | _ =>
      unfold Host.callFunction asValue
      grind

/-! ### Showing -/

omit hI in
theorem maintains_renderItems {one : Value → M Rendered} (hone : ∀ v, Maintains I (one v)) (it : Value)
    (left : Nat) (shown : Array Rendered) : Maintains I (renderItems h one it left shown) := by
  have hnext : Maintains I (renderNext h one it) := by
    unfold renderNext
    grind
  induction left generalizing shown with
  | zero => exact .pure _
  | succ left ih =>
      refine hnext.attempt.bind fun r => ?_
      rcases r with e | _ | r
      · exact (maintains_renderFault e).bind fun _ => .pure _
      · exact .pure _
      · exact ih _

@[grind ←] theorem maintains_render (v : Value) : Maintains I (render h v) :=
  maintains_renderTo (fun _ v hone => (maintains_iterate hI v).bind fun it =>
    (maintains_renderItems hh hone it _ _).bind fun _ => .pure _) _ v

end

/-! ### Expressions -/

mutual

theorem maintains_datum (hI : Enduring I) : ∀ d : Datum, Maintains I d.value
  | .null | .bool _ | .int _ | .str _ => .pure _
  | .list ds => (maintains_data hI ds).bind fun _ => maintains_newList hI _
  | .dict es => (maintains_dataEntries hI es).bind fun _ => maintains_handOut hI _

theorem maintains_data (hI : Enduring I) : ∀ ds : List Datum, Maintains I (Datum.values ds)
  | [] => .pure _
  | d :: ds => (maintains_datum hI d).bind fun _ => (maintains_data hI ds).bind fun _ => .pure _

theorem maintains_dataEntries (hI : Enduring I) :
    ∀ es : List (String × Datum), Maintains I (Datum.entries es)
  | [] => .pure _
  | (_, d) :: es => (maintains_datum hI d).bind fun _ => (maintains_dataEntries hI es).bind
      fun _ => .pure _

end

theorem maintains_nameValue (scope : Scope) (x : String) (standing : Option Standing) :
    Maintains I (nameValue scope x standing) := by
  unfold nameValue
  grind

mutual

/-- **To evaluate an expression** keeps what endures. -/
theorem maintains_eval (hI : Enduring I) {h : Host} (hh : h.Maintains I) (scope : Scope) :
    ∀ e : Expr, Maintains I (eval h scope e)
  | .literal d => maintains_datum hI d
  | .name x standing => maintains_nameValue scope x standing
  | .function _ _ => maintains_newFunction hI _
  | .choose c yes no => (maintains_eval hI hh scope c).bind fun v => (maintains_isTrue v).bind fun b => by
      split
      · exact maintains_eval hI hh scope yes
      · exact maintains_eval hI hh scope no
  | .and a b => (maintains_eval hI hh scope a).bind fun v => (maintains_isTrue v).bind fun c => by
      split
      · exact maintains_eval hI hh scope b
      · exact .pure v
  | .or a b => (maintains_eval hI hh scope a).bind fun v => (maintains_isTrue v).bind fun c => by
      split
      · exact .pure v
      · exact maintains_eval hI hh scope b
  | .inOrder es => (maintains_evalAll hI hh scope es).bind fun _ => .pure _
  | .call f args named => (maintains_eval hI hh scope f).bind fun f =>
      (maintains_evalAll hI hh scope args).bind fun args =>
        (maintains_evalNamed hI hh scope named).bind fun named => hh.call f args named
  | .method m self args named => (maintains_eval hI hh scope self).bind fun self =>
      (maintains_evalAll hI hh scope args).bind fun args =>
        (maintains_evalNamed hI hh scope named).bind fun named =>
          maintains_callMember hI hh m self args named
  | .attribute m self => (maintains_eval hI hh scope self).bind fun self => maintains_readMember hI self m

theorem maintains_evalAll (hI : Enduring I) {h : Host} (hh : h.Maintains I) (scope : Scope) :
    ∀ es : List Expr, Maintains I (evalAll h scope es)
  | [] => .pure _
  | e :: es => (maintains_eval hI hh scope e).bind fun _ =>
      (maintains_evalAll hI hh scope es).bind fun _ => .pure _

theorem maintains_evalNamed (hI : Enduring I) {h : Host} (hh : h.Maintains I) (scope : Scope) :
    ∀ es : List (String × Expr), Maintains I (evalNamed h scope es)
  | [] => .pure _
  | (_, e) :: es => (maintains_eval hI hh scope e).bind fun _ =>
      (maintains_evalNamed hI hh scope es).bind fun _ => .pure _

end

/-! ### Calls and programs -/

section

variable (hI : Enduring I) {h : Host} (hh : h.Maintains I)

include hI hh

theorem maintains_callOver (f : Value) (args : List Value) (named : List (String × Value)) :
    Maintains I (callOver h f args named) := by
  have heval := maintains_eval hI hh
  unfold callOver
  grind

theorem maintains_pullOver (it : Value) : Maintains I (pullOver h it) := by
  have hread := maintains_readCursor hI hh
  unfold pullOver
  grind

omit hh in
/-- **Calls and reads of a session** keep what endures, however deep they are nested. -/
theorem maintains_host (n : Nat) : (host n).Maintains I := by
  induction n with
  | zero => exact ⟨fun _ _ _ => .throw _, fun _ => .throw _⟩
  | succ n ih => exact ⟨maintains_callOver hI ih, maintains_pullOver hI ih⟩

theorem maintains_answer (s : Statement) : Maintains I (s.answer h) := by
  cases s with
  | bind x e =>
      exact (maintains_eval hI hh [] e).bind fun v =>
        Maintains.bind (.modify fun _ => hI.congr rfl fun _ _ => id) fun _ => .pure _
  | «show» e =>
      exact (maintains_eval hI hh [] e).bind fun v => (maintains_render hI hh v).bind fun _ => .pure _

theorem maintains_statement (s : Statement) : Maintains I (s.run h) := by
  have hanswer := (maintains_answer hI hh s).attempt
  have hclear : Maintains I (modify fun w : World => { w with log := #[] } : M Unit) :=
    .modify fun _ => hI.congr rfl fun _ _ => id
  unfold Statement.run
  refine hclear.bind fun _ => hanswer.bind fun answer => ?_
  cases answer with
  | ok fields => grind
  | error e =>
      refine (maintains_renderFault e).attempt.bind fun r => ?_
      grind

/-- **A session keeps what endures**, whatever it runs. -/
theorem maintains_runAll (ss : List Statement) : Maintains I (runAll h ss) := by
  induction ss with
  | nil => exact .pure _
  | cons s ss ih => exact (maintains_statement hI hh s).bind fun _ => ih.bind fun _ => .pure _

end

end GraphRoutes.Session
