/-
**Reading a lazy sequence keeps what endures.**

Whatever a session does, it changes its graphs in few ways: it makes new ones, adds vertices and edges,
sets documents, and seals; and no function is changed once it is there.  A statement about the world endures
if it speaks of the graphs and of functions that are there alone, and is kept by each of these ways.  Here it is shown that reading a lazy sequence keeps what endures, as long as
calls and reads of the session do: the sequence may be in any state, and its functions may be any.

Main definitions:

* `GraphRoutes.Session.Recalls` — a world has the functions of another;
* `GraphRoutes.Session.Enduring` — statements about the graphs that every change of a graph keeps;
* `GraphRoutes.Session.Host.Maintains` — a host whose calls and reads keep a statement.

Main results:

* `GraphRoutes.Session.maintains_openTurn` — one turn of a sequence that stands open;
* `GraphRoutes.Session.maintains_stepCursor` — one step of any other sequence;
* `GraphRoutes.Session.maintains_readCursor` — **to read a lazy sequence keeps what endures**.
-/
import GraphRoutes.Proofs.Maintains
import GraphRoutes.Session.Cursors
import GraphRoutes.Session.Ops.Graphs

set_option relaxedAutoImplicit false
set_option autoImplicit false

namespace GraphRoutes.Session

open Act (Maintains)
open World Route

/-- A world has the functions of another. -/
def Recalls (w v : World) : Prop :=
  ∀ (p : Nat) (f : Function), w.functions[p]? = some f → v.functions[p]? = some f

theorem Recalls.trans {u v w : World} (h : Recalls w v) (h' : Recalls v u) : Recalls w u :=
  fun p f hp => h' p f (h p f hp)

/-- A statement about the world that speaks of its graphs and of functions that are there, and that every way to
make or to change a graph keeps. -/
structure Enduring (I : World → Prop) : Prop where
  congr : ∀ {w v : World}, v.graphs = w.graphs → Recalls w v → I w → I v
  newGraph : ∀ g, Maintains I (newGraph g)
  addVertex : ∀ graph id document, Maintains I (addVertex graph id document)
  setDocument : ∀ graph id document, Maintains I (setDocument graph id document)
  addEdge : ∀ graph source target label document, Maintains I (addEdge graph source target label document)
  publish : ∀ graph w, I w → I { w with graphs := w.graphs.modify graph Store.publish }

/-- Calls and reads of a host keep a statement. -/
structure Host.Maintains (I : World → Prop) (h : Host) : Prop where
  call : ∀ f args named, Act.Maintains I (h.call f args named)
  pull : ∀ it, Act.Maintains I (h.pull it)

variable {I : World → Prop} {α β : Type}

/-! ### The world -/

@[grind ←] theorem maintains_look (f : World → Except Fault α) : Maintains I (look f) := by
  intro w hw
  unfold look
  cases f w <;> exact hw

section

variable (hI : Enduring I)

include hI

@[grind ←] theorem maintains_handOut (v : Value) : Maintains I (handOut v) := by
  unfold handOut
  split
  · exact .modifyGet fun _ => hI.congr rfl fun _ _ => id
  · exact .pure v

@[grind ←] theorem maintains_newMark : Maintains I newMark := .modifyGet fun _ => hI.congr rfl fun _ _ => id

@[grind ←] theorem maintains_newList (items : Array Value) : Maintains I (newList items) := by
  unfold newList
  obtain ⟨items⟩ := items
  rw [List.mapM_toArray]
  exact ((Maintains.mapM (maintains_handOut hI) _).map _).bind fun _ => .modifyGet fun _ => hI.congr rfl fun _ _ => id

@[grind ←] theorem maintains_newBag (members : Bag) : Maintains I (newBag members) :=
  .modifyGet fun _ => hI.congr rfl fun _ _ => id

@[grind ←] theorem maintains_newBareEdge (e : BareEdge) : Maintains I (newBareEdge e) :=
  .modifyGet fun _ => hI.congr rfl fun _ _ => id

@[grind ←] theorem maintains_newFunction (f : Function) : Maintains I (newFunction f) :=
  .modifyGet fun _ => hI.congr rfl fun _ _ hp =>
    (Array.getElem?_push_lt (Array.getElem?_eq_some_iff.1 hp).1).trans (Array.getElem?_eq_getElem _ ▸ hp)

@[grind ←] theorem maintains_newCursor (c : Cursor) : Maintains I (newCursor c) :=
  .modifyGet fun _ => hI.congr rfl fun _ _ => id

@[grind ←] theorem maintains_defer (o : Opening) : Maintains I (defer o) :=
  maintains_newCursor hI (.deferred o)

@[grind ←] theorem maintains_newBlocks (source : Value) : Maintains I (newBlocks source) :=
  .modifyGet fun _ => hI.congr rfl fun _ _ => id

@[grind ←] theorem maintains_newHistory (start : Value) : Maintains I (newHistory start) :=
  .modifyGet fun _ => hI.congr rfl fun _ _ => id

@[grind ←] theorem maintains_newShared (s : Merge.Shared Value Value) : Maintains I (newShared s) :=
  .modifyGet fun _ => hI.congr rfl fun _ _ => id

@[grind ←] theorem maintains_setCursor (place : Nat) (c : Cursor) : Maintains I (setCursor place c) :=
  .modify fun _ => hI.congr rfl fun _ _ => id

@[grind ←] theorem maintains_record (entry : Rendered) : Maintains I (record entry) :=
  .modify fun _ => hI.congr rfl fun _ _ => id

@[grind ←] theorem maintains_cursorCell {σ : Type} (start : σ) (view : Cursor → Option σ)
    (make : σ → Cursor) (place : Nat) : (cursorCell start view make place).Maintains I :=
  fun _ w => hI.congr (w := w) rfl fun _ _ => id

@[grind ←] theorem maintains_sharedCell (place : Nat) : (sharedCell place).Maintains I :=
  fun _ w => hI.congr (w := w) rfl fun _ _ => id

end

/-! ### Looking -/

@[grind ←] theorem maintains_displayed (v : Value) : Maintains I (displayed v) := maintains_look _

@[grind ←] theorem maintains_displayedPlain (v : Value) : Maintains I (displayedPlain v) :=
  maintains_look _

@[grind ←] theorem maintains_isTrue (v : Value) : Maintains I (isTrue v) :=
  .bind .get fun _ => .pure _

@[grind ←] theorem maintains_areSame (a b : Value) : Maintains I (areSame a b) := maintains_look _

@[grind ←] theorem maintains_isAmong (v : Value) (xs : List Value) : Maintains I (isAmong v xs) :=
  maintains_look _

@[grind ←] theorem maintains_keyOf (v : Value) : Maintains I (keyOf v) := .ofOption _ _

@[grind ←] theorem maintains_soughtKey (v : Value) : Maintains I (soughtKey v) := by
  unfold soughtKey
  grind

@[grind ←] theorem maintains_addMember (members : Indexed Key Value) (v : Value) :
    Maintains I (addMember members v) := by
  unfold addMember
  grind

@[grind ←] theorem maintains_inSet (pool v : Value) : Maintains I (inSet pool v) := by
  unfold inSet
  grind

@[grind ←] theorem maintains_told (f : World → Option α) : Maintains I (told f) := by
  unfold told
  grind

@[grind ←] theorem maintains_nodeId (v : Value) : Maintains I (nodeId v) := maintains_told _

@[grind ←] theorem maintains_nodeDocument (v : Value) : Maintains I (nodeDocument v) :=
  maintains_told _

@[grind ←] theorem maintains_nodeLabel (v : Value) : Maintains I (nodeLabel v) := maintains_told _

@[grind ←] theorem maintains_nodeKind (v : Value) : Maintains I (nodeKind v) := maintains_told _

@[grind ←] theorem maintains_endNode (v : Value) (i : End) : Maintains I (endNode v i) :=
  maintains_told _

@[grind ←] theorem maintains_insideSequence {m : M α} (hm : Maintains I m) :
    Maintains I (insideSequence m) := by
  unfold insideSequence
  refine hm.attempt.bind fun r => ?_
  split
  · exact .pure _
  · exact .throw _
  · exact .throw _

@[grind ←] theorem maintains_itemCount (n : Int) : Maintains I (itemCount n) := by
  unfold itemCount
  grind

@[grind ←] theorem maintains_itemCount? (v : Value) : Maintains I (itemCount? v) := by
  unfold itemCount?
  grind

@[grind ←] theorem maintains_sortKeyed (keyed : List (Value × α)) : Maintains I (sortKeyed keyed) := by
  unfold sortKeyed
  grind

/-! ### Values as they are shown -/

@[grind ←] theorem maintains_renderAll {one : α → M Rendered} (hone : ∀ v, Maintains I (one v))
    (vs : List α) : Maintains I (renderAll one vs) := by
  induction vs with
  | nil => exact .pure _
  | cons v vs ih =>
      unfold renderAll
      grind

@[grind ←] theorem maintains_renderList {one : Value → M Rendered} (hone : ∀ v, Maintains I (one v))
    (place n i : Nat) (shown : Array Rendered) : Maintains I (renderList one place n i shown) := by
  induction n generalizing i shown with
  | zero => exact .throw _
  | succ n ih =>
      unfold renderList
      grind

@[grind ←] theorem maintains_renderBag {one : Value → M Rendered} (hone : ∀ v, Maintains I (one v))
    (place : Nat) : Maintains I (renderBag one place) := by
  unfold renderBag
  grind

/-- To show a value keeps whatever is kept by showing a lazy sequence. -/
theorem maintains_renderTo {lazy : (Value → M Rendered) → Value → M Rendered}
    (hlazy : ∀ one v, (∀ v, Maintains I (one v)) → Maintains I (lazy one v)) (n : Nat) (v : Value) :
    Maintains I (renderTo lazy n v) := by
  induction n generalizing v with
  | zero => exact .throw _
  | succ n ih =>
      unfold renderTo
      cases v <;> grind

@[grind ←] theorem maintains_shallow (v : Value) : Maintains I (shallow v) :=
  maintains_renderTo (fun _ _ _ => .pure _) _ v

@[grind ←] theorem maintains_renderFault (e : Fault) : Maintains I (renderFault e) := by
  unfold renderFault
  grind

/-! ### Sequences and routes -/

section

variable (hI : Enduring I)

include hI

@[grind ←] theorem maintains_reportText (level : String) {text : M String} (h : Maintains I text) :
    Maintains I (reportText level text) := by
  unfold reportText
  grind

@[grind ←] theorem maintains_iterateItems (of : ItemsOf) (xs : List Value) :
    Maintains I (iterateItems of xs) := maintains_newCursor hI _

@[grind ←] theorem maintains_iterate (v : Value) : Maintains I (iterate v) := by
  unfold iterate
  grind

@[grind ←] theorem maintains_branches (v : Value) : Maintains I (branches v) := by
  unfold branches
  grind

@[grind ←] theorem maintains_openRoute (v : Value) : Maintains I (openRoute v) :=
  maintains_iterate hI _

end

/-! ### Calls and reads -/

section

variable (hI : Enduring I) {h : Host} (hh : h.Maintains I)

include hh

@[grind ←] theorem maintains_pull (it : Value) : Maintains I (h.pull it) := hh.pull it

@[grind ←] theorem maintains_source (it : Value) : Maintains I (h.source it) := by
  unfold Host.source
  grind

theorem maintains_foldFrom {f : β → Value → M β} (hf : ∀ b v, Maintains I (f b v)) (it : Value)
    (n : Nat) (b : β) : Maintains I (h.foldFrom f it n b) := by
  induction n generalizing b with
  | zero => exact .throw _
  | succ n ih =>
      unfold Host.foldFrom
      grind

@[grind ←] theorem maintains_fold {f : β → Value → M β} (hf : ∀ b v, Maintains I (f b v)) (it : Value)
    (b : β) : Maintains I (h.fold it b f) := maintains_foldFrom hh hf it h.fuel b

@[grind ←] theorem maintains_drain (it : Value) : Maintains I (h.drain it) := by
  unfold Host.drain
  grind

@[grind ←] theorem maintains_holds (it v : Value) (n : Nat) : Maintains I (h.holds it v n) := by
  induction n with
  | zero => exact .throw _
  | succ n ih =>
      unfold Host.holds
      grind

include hI

@[grind ←] theorem maintains_items (v : Value) : Maintains I (h.items v) := by
  unfold Host.items
  grind

@[grind ←] theorem maintains_apply (f : Value) (args : List Value) : Maintains I (h.apply f args) :=
  (Maintains.mapM (maintains_handOut hI) args).bind fun args => hh.call f args []

@[grind ←] theorem maintains_distinctItems (v : Value) : Maintains I (h.distinctItems v) := by
  unfold Host.distinctItems
  grind

@[grind ←] theorem maintains_setOf (v : Value) : Maintains I (h.setOf v) := by
  unfold Host.setOf
  grind

@[grind ←] theorem maintains_contains (v collection : Value) : Maintains I (h.contains v collection) := by
  unfold Host.contains
  grind

@[grind ←] theorem maintains_matchesValue (m v : Value) : Maintains I (h.matchesValue m v) := by
  unfold Host.matchesValue
  grind

theorem maintains_handler (f c : Value) : Maintains I (h.handler f c) := by
  unfold Host.handler
  grind

@[grind ←] theorem maintains_resolve (f : Value) (default : Option Value) (c : Value) :
    Maintains I (h.resolve f default c) := by
  refine GraphRoutes.maintains_resolve (fun g hg c => ?_) default c
  obtain ⟨x, -, rfl⟩ := Option.map_eq_some_iff.1 hg
  exact maintains_handler hI hh x c

@[grind ←] theorem maintains_followedFrom (e onUnknown : Value) :
    Maintains I (h.followedFrom e onUnknown) := by
  unfold Host.followedFrom reachedSide
  grind

@[grind ←] theorem maintains_forward (e onUnknown : Value) : Maintains I (h.forward e onUnknown) := by
  unfold Host.forward
  grind

@[grind ←] theorem maintains_farVertex (e onUnknown : Value) :
    Maintains I (h.farVertex e onUnknown) := by
  unfold Host.farVertex
  grind

@[grind ←] theorem maintains_nearVertex (e onUnknown : Value) :
    Maintains I (h.nearVertex e onUnknown) := by
  unfold Host.nearVertex
  grind

@[grind ←] theorem maintains_labelSet (labels : Value) : Maintains I (h.labelSet labels) := by
  unfold Host.labelSet
  grind

@[grind ←] theorem maintains_labelKeys (labels : Value) : Maintains I (h.labelKeys labels) := by
  unfold Host.labelKeys
  grind

end

/-! ### Edges -/

@[grind ←] theorem maintains_neighbourStep (s : Neighbourhood Value EdgeRef Key) :
    Maintains I (neighbourStep s) := by
  unfold neighbourStep
  refine Neighbourhood.maintains_step ?_ ?_ _ s <;> grind

@[grind ←] theorem maintains_neighbourhood (v : Value) (side : Side)
    (labels : Option (Std.HashSet Key)) : Maintains I (neighbourhood v side labels) := by
  unfold neighbourhood
  grind

section

variable (hI : Enduring I)

include hI

@[grind ←] theorem maintains_neighbours (v : Value) (side : Side) (labels : Option (Std.HashSet Key)) :
    Maintains I (neighbours v side labels) := by
  unfold neighbours
  grind

@[grind ←] theorem maintains_chain (outer : Value) : Maintains I (chain outer) :=
  maintains_newCursor hI _

@[grind ←] theorem maintains_incidentEdges (v : Value) (direction : Direction)
    (labels : Option (Std.HashSet Key)) : Maintains I (incidentEdges v direction labels) := by
  unfold incidentEdges
  grind

@[grind ←] theorem maintains_farVertices (direction : Direction) (edges : Value) :
    Maintains I (farVertices direction edges) := by
  unfold farVertices
  grind

/-! ### Paths and policies -/

@[grind ←] theorem maintains_extendPath (path element : Value) :
    Maintains I (extendPath path element) := by
  unfold extendPath
  grind

@[grind ←] theorem maintains_emptyPath (path : Value) : Maintains I (emptyPath path) := by
  unfold emptyPath
  grind

@[grind ←] theorem maintains_reportNote (valueOf : α → Value) (note : Note α Value) :
    Maintains I (reportNote valueOf note) := by
  unfold reportNote
  grind

end

@[grind ←] theorem maintains_coerceInstruction (v : Value) : Maintains I (coerceInstruction v) := by
  unfold coerceInstruction
  grind

@[grind ←] theorem maintains_readInstruction (v : Value) : Maintains I (readInstruction v) := by
  unfold readInstruction
  grind

@[grind ←] theorem maintains_isBelow (v : Value) (bound : Int) : Maintains I (isBelow v bound) := by
  unfold isBelow
  grind

@[grind ←] theorem maintains_makeConfig (ceiling interval policy maxDepth : Value) :
    Maintains I (makeConfig ceiling interval policy maxDepth) := by
  unfold makeConfig
  grind

@[grind ←] theorem maintains_tuningOf (v : Value) : Maintains I (tuningOf v) := by
  unfold tuningOf
  grind

@[grind ←] theorem maintains_orDefault (v default : Value) : Maintains I (orDefault v default) := by
  unfold orDefault
  grind

@[grind ←] theorem maintains_descentResult (givesPaths : Bool) (path element : Value) :
    Maintains I (descentResult givesPaths path element) := by
  unfold descentResult
  grind

@[grind ←] theorem maintains_checkBound (parameter : String) (v : Value) :
    Maintains I (checkBound parameter v) := by
  unfold checkBound
  grind

section

variable (hI : Enduring I) {h : Host} (hh : h.Maintains I)

include hI

@[grind ←] theorem maintains_openDescent (givesPaths : Bool) (route children control path config : Value) :
    Maintains I (openDescent givesPaths route children control path config) := by
  unfold openDescent
  grind

@[grind ←] theorem maintains_openSearch (p : SearchPlan) (route : Value) :
    Maintains I (openSearch p route) := by
  unfold openSearch
  grind

@[grind ←] theorem maintains_addTo (seen x : Value) : Maintains I (addTo seen x) := by
  unfold addTo
  split
  · exact (maintains_keyOf x).bind fun k => .modify fun _ => hI.congr rfl fun _ _ => id
  · exact .throw _

include hh

@[grind ←] theorem maintains_askPolicy (policy path element : Value) (depth n : Nat) :
    Maintains I (askPolicy h policy path element depth n) := by
  unfold askPolicy
  grind

theorem maintains_descent (plan : DescentPlan) (t : Tuning) (s : Walk Value Value Value Value) :
    Maintains I (plan.step h t s) := by
  refine Walk.maintains_step ?_ t.limits s
  unfold DescentPlan.env
  constructor <;> grind

theorem maintains_gate {v : Value} {args : Trail Keyed → Keyed → List Value}
    {g : Search.Gate World Fault Keyed} (hg : gate h v args = some g) (t : Trail Keyed) (x : Keyed) :
    Maintains I (g.passes t x) := by
  unfold gate at hg
  split at hg
  · cases hg
    exact (maintains_apply hI hh v (args t x)).bind fun r => maintains_isTrue r
  · obtain ⟨n, -, rfl⟩ := Option.map_eq_some_iff.1 hg
    exact .pure _

theorem maintains_search (plan : SearchPlan) (t : Tuning) (s : Search Keyed Value) :
    Maintains I (plan.step h t s) := by
  refine Search.maintains_step ?_ ?_ t.limits s
  · unfold SearchPlan.host
    constructor <;> grind
  · constructor
    · rintro g (hg | hg)
      · exact maintains_gate hI hh hg
      · exact maintains_gate hI hh hg
    · intro test htest x
      obtain ⟨f, -, rfl⟩ := Option.map_eq_some_iff.1 htest
      exact (maintains_apply hI hh f [x.value]).bind fun r => maintains_isTrue r

@[grind ←] theorem maintains_sizeAllowed (bounds : Bounds) {made : Value → M Value}
    (hmade : ∀ x, Maintains I (made x)) (x : Value) : Maintains I (h.sizeAllowed bounds made x) :=
  maintains_lookahead (maintains_source hh) hmade maintains_itemCount (maintains_openRoute hI) bounds x

@[grind ←] theorem maintains_looksAhead (f least most x : Value) :
    Maintains I (h.looksAhead f least most x) := by
  unfold Host.looksAhead
  grind

@[grind ←] theorem maintains_closesCycle (children bound x : Value) :
    Maintains I (h.closesCycle children bound x) := by
  unfold Host.closesCycle
  grind

@[grind ←] theorem maintains_holdsTest (test : Test) (x : Value) : Maintains I (test.holds h x) := by
  cases test with
  | unseen seen update =>
      exact maintains_unseen (fun x => maintains_contains hI hh x seen) (maintains_addTo hI seen)
        (maintains_isTrue update) x
  | _ =>
      unfold Test.holds
      grind

@[grind ←] theorem maintains_sortBy (key it : Value) : Maintains I (h.sortBy key it) := by
  unfold Host.sortBy
  grind

@[grind ←] theorem maintains_applyPost (post : Post) (sub : Value) : Maintains I (post.apply h sub) := by
  unfold Post.apply
  grind

@[grind ←] theorem maintains_applyImage (image : Image) (x : Value) :
    Maintains I (image.apply h x) := by
  cases image <;> unfold Image.apply <;> grind

@[grind ←] theorem maintains_openedParts (parts : Parts) (x : Value) :
    Maintains I (parts.opened h x) := by
  cases parts <;> unfold Parts.opened <;> grind

end

/-! ### Lazy sequences -/

section

variable (hI : Enduring I) {h : Host} (hh : h.Maintains I)

include hI hh

theorem maintains_readBlock (place : Nat) : Maintains I (h.readBlock place) := by
  have hnext : ∀ it n, Maintains I (Machine.pull (Merge.nextBlock h.source h.items) n it) := fun it n =>
    Machine.maintains_pull (Merge.maintains_nextBlock (maintains_source hh) (maintains_items hI hh)) n it
  unfold Host.readBlock
  grind

omit hh in
@[grind ←] theorem maintains_openBranch (v : Value) : Maintains I (openBranch v) := by
  unfold openBranch
  grind

@[grind ←] theorem maintains_beginCursor (o : Opening) : Maintains I (beginCursor h o) := by
  cases o <;> unfold beginCursor <;> grind

omit hh in
@[grind ←] theorem maintains_listTurn (place list : Nat) (position : Option Nat) :
    Maintains I (listTurn place list position) := by
  unfold listTurn
  grind

omit hh in
@[grind ←] theorem maintains_membersTurn (place bag : Nat) (size : Option Nat) (rest : List Value) :
    Maintains I (membersTurn place bag size rest) := by
  unfold membersTurn
  grind

omit hh in
@[grind ←] theorem maintains_countTurn (place : Nat) (next step : Value) :
    Maintains I (countTurn place next step) := by
  unfold countTurn
  grind

omit hI in
@[grind ←] theorem maintains_pullEach (its : List Value) : Maintains I (pullEach h its) := by
  induction its with
  | nil => exact .pure _
  | cons it its ih =>
      unfold pullEach
      grind

@[grind ←] theorem maintains_mapTurn (f source : Value) (others : List Value) :
    Maintains I (mapTurn h f source others) := by
  have hcalls (fs : List Value) (v : Value) :
      Maintains I (fs.foldlM (fun v f => h.apply f [v]) v) :=
    .foldlM (fun v f => maintains_apply hI hh f [v]) v fs
  unfold mapTurn
  grind

@[grind ←] theorem maintains_callingTurn (place : Nat) (f sentinel : Value) (done : Bool) :
    Maintains I (callingTurn h place f sentinel done) := by
  unfold callingTurn
  grind

@[grind ←] theorem maintains_copyTurn (place shared position : Nat) :
    Maintains I (copyTurn h place shared position) := by
  have hread := Merge.Shared.maintains_read (maintains_source hh) (maintains_sharedCell hI shared)
    Fault.interrupted position
  unfold copyTurn
  grind

@[grind ←] theorem maintains_cutTurn (place : Nat) (s : Merge.Cut Value) :
    Maintains I (cutTurn h place s) := by
  have hturn (view : Cursor → Option (Merge.Cut Value)) :=
    Merge.Cut.maintains_turn (maintains_source hh) (maintains_cursorCell hI s view .cut place)
  unfold cutTurn
  grind

@[grind ←] theorem maintains_guardDecision (handler strict x : Value) (position : Nat) :
    Maintains I (guardDecision h handler strict x position) := by
  unfold guardDecision
  grind

omit hh in
@[grind ←] theorem maintains_reportTruncation (x : Value) (position : Nat) :
    Maintains I (reportTruncation x position) := by
  unfold reportTruncation
  grind

/-- **One turn of an open sequence** keeps what endures. -/
theorem maintains_openTurn {place : Nat} {c : Cursor} {turn : M (Turn Value)}
    (hturn : openTurn? h place c = some turn) : Maintains I turn := by
  have hcell {σ : Type} (start : σ) (view : Cursor → Option σ) (make : σ → Cursor) :=
    maintains_cursorCell hI start view make place
  cases c with
  | items of rest =>
      cases rest <;> cases hturn
      · exact .pure _
      · exact (maintains_setCursor hI place _).bind fun _ => .pure _
  | listFrom list position => cases hturn; exact maintains_listTurn hI place list position
  | members bag size rest => cases hturn; exact maintains_membersTurn hI place bag size rest
  | countFrom next step => cases hturn; exact maintains_countTurn hI place next step
  | looping s => cases hturn; exact Loop.maintains_turn (maintains_source hh) (hcell _ _ _)
  | taking s => cases hturn; exact Slice.maintains_turn (maintains_source hh) (hcell _ _ _)
  | mapping f source others => cases hturn; exact maintains_mapTurn hI hh f source others
  | calling f sentinel done => cases hturn; exact maintains_callingTurn hI hh place f sentinel done
  | copy shared position => cases hturn; exact maintains_copyTurn hI hh place shared position
  | cut s => cases hturn; exact maintains_cutTurn hI hh place s
  | chained s =>
      cases hturn
      exact Flat.maintains_turn (hcell _ _ _) (maintains_source hh) (maintains_iterate hI)
        (maintains_source hh)
  | guard handler strict s =>
      cases hturn
      exact Guard.maintains_turn (maintains_source hh) (hcell _ _ _) maintains_soughtKey maintains_keyOf
        (maintains_guardDecision hI hh handler strict) (maintains_reportTruncation hI)
  | _ => cases hturn

omit hI hh in
theorem maintains_linkStep (x : Option Node) : Maintains I (linkStep x) := by
  unfold linkStep
  grind

theorem maintains_spyStep (name source : Value) : Maintains I (spyStep h name source) := by
  unfold spyStep
  grind

omit hI in
theorem maintains_nextSize (it : Value) : Maintains I (nextSize h it) := by
  unfold nextSize
  grind

/-- **One step of a closed sequence** keeps what endures. -/
theorem maintains_stepCursor (c : Cursor) : Maintains I (stepCursor h c) := by
  have hsource := maintains_source hh
  cases c with
  | deferred o => exact (maintains_beginCursor hI hh o).bind fun _ => .pure _
  | spying name source => exact maintains_spyStep hI hh name source
  | blockItems s =>
      exact (maintains_flatten (maintains_readBlock hI hh) (fun _ => .pure _)
        Source.maintains_ofList s).map _
  | links x => exact maintains_linkStep x
  | neighbours s => exact (maintains_neighbourStep s).bind fun _ => .pure _
  | select test it => exact (maintains_select hsource (maintains_holdsTest hI hh test) it).map _
  | each image it => exact (maintains_each hsource (maintains_applyImage hI hh image) it).map _
  | ends s =>
      exact (maintains_both hsource (fun x => maintains_endNode x _) (fun x => maintains_endNode x _) s).map _
  | parts parts s =>
      exact (maintains_flatten hsource (maintains_openedParts hI hh parts) hsource s).map _
  | distinct key s =>
      exact (maintains_distinct hsource (fun x => maintains_apply hI hh key [x]) maintains_soughtKey
        maintains_keyOf s).map _
  | rotation s => exact (Merge.maintains_roundRobin hsource (maintains_readBlock hI hh) s).map _
  | alternate s => exact (maintains_alternate hsource (maintains_nextSize hh) s).map _
  | descent plan tuning s => exact (maintains_descent hI hh plan tuning s).map _
  | search plan tuning s => exact (maintains_search hI hh plan tuning s).map _
  | _ => exact .pure _

theorem maintains_readClosed (place : Nat) (c : Cursor) : Maintains I (readClosed h place c) := by
  have hpull := Machine.maintains_pull (maintains_stepCursor hI hh) h.fuel c
  unfold readClosed
  grind

theorem maintains_nextItem (place : Nat) : Maintains I (nextItem h place) := by
  unfold nextItem
  refine Maintains.get.bind fun w => ?_
  split
  · exact .pure _
  · exact .throw _
  · split
    · rename_i turn hturn
      refine (Turn.maintains_pull (maintains_openTurn hI hh hturn) _ _).attempt.bind fun r => ?_
      grind
    · exact maintains_readClosed hI hh place _

/-- **Reading a lazy sequence** keeps what endures. -/
theorem maintains_readCursor (place : Nat) : Maintains I (readCursor h place) := by
  unfold readCursor
  grind [maintains_nextItem]

end

end GraphRoutes.Session
