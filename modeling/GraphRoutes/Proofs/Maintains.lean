/-
**What holds of the world and goes on to hold.**

The machines of this library ask their callers for items, keys and answers, and keep their own states in
the cells that they are given.  Whatever holds of the world before a machine takes a step, and is kept by
all that the machine asks for and by every change of its cell, holds afterwards, whether the step gives a
result or fails.  So a statement about the world that is kept by what a caller does is kept by every
sequence that is built over it.

Main definitions:

* `GraphRoutes.Act.Maintains` — an action keeps a statement about the world;
* `GraphRoutes.Cell.Maintains` — so do the changes of a cell.

Main results:

* `GraphRoutes.Act.Maintains.bind`, `GraphRoutes.Act.Maintains.attempt`,
  `GraphRoutes.Act.Maintains.mapM`, `GraphRoutes.Act.Maintains.foldlM` — the rules;
* `GraphRoutes.Machine.maintains_pull`, `GraphRoutes.Turn.maintains_pull` — reading a sequence;
* `GraphRoutes.Route.Flat.maintains_turn`, `GraphRoutes.Walk.maintains_step`,
  `GraphRoutes.Search.maintains_step` and their like — **one step of each sequence**.
-/
import GraphRoutes.Descent.Search
import GraphRoutes.Merge.Blocks
import GraphRoutes.Merge.RoundRobin
import GraphRoutes.Merge.Shared
import GraphRoutes.Neighbourhood
import GraphRoutes.Condition
import GraphRoutes.Route.Distinct
import GraphRoutes.Route.Flatten
import GraphRoutes.Route.Guard
import GraphRoutes.Route.Lookahead
import GraphRoutes.Route.Loop
import GraphRoutes.Route.Select

set_option relaxedAutoImplicit false
set_option autoImplicit false

namespace GraphRoutes

variable {ω ε σ τ κ α β γ δ : Type}

/-! ### Rules -/

/-- Whatever world an action begins in, if `I` holds of it, `I` holds of the world that the action
leaves, also where it fails. -/
def Act.Maintains (I : ω → Prop) (m : Act ω ε α) : Prop :=
  ∀ w, I w → match m w with
    | .ok _ v | .error _ v => I v

namespace Act

variable {I : ω → Prop}

@[grind ←] theorem Maintains.pure (a : α) : Maintains I (pure a : Act ω ε α) := fun _ hw => hw

@[grind ←] theorem Maintains.throw (e : ε) : Maintains I (throw e : Act ω ε α) := fun _ hw => hw

@[grind ←] theorem Maintains.get : Maintains I (get : Act ω ε ω) := fun _ hw => hw

theorem Maintains.modify {f : ω → ω} (hf : ∀ w, I w → I (f w)) :
    Maintains I (modify f : Act ω ε PUnit) := hf

theorem Maintains.modifyGet {f : ω → α × ω} (hf : ∀ w, I w → I (f w).2) :
    Maintains I (modifyGet f : Act ω ε α) := hf

@[grind ←] theorem Maintains.bind {m : Act ω ε α} {f : α → Act ω ε β} (hm : Maintains I m)
    (hf : ∀ a, Maintains I (f a)) : Maintains I (m >>= f) := by
  intro w hw
  have hrun := hm w hw
  cases h : m w with
  | ok a v =>
      rw [h] at hrun
      rw [bind_of_ok h]
      exact hf a v hrun
  | error e v =>
      rw [h] at hrun
      rw [bind_of_error h]
      exact hrun

/-- What would follow a failure does not matter. -/
@[grind ←] theorem Maintains.throw_bind (e : ε) (f : α → Act ω ε β) :
    Maintains I (MonadExcept.throw e >>= f : Act ω ε β) := fun _ hw => hw

@[grind ←] theorem Maintains.map {m : Act ω ε α} (f : α → β) (hm : Maintains I m) :
    Maintains I (f <$> m) := by
  rw [map_eq_pure_bind]
  exact hm.bind fun _ => .pure _

@[grind ←] theorem Maintains.attempt {m : Act ω ε α} (hm : Maintains I m) :
    Maintains I (attempt m) := by
  intro w hw
  have hrun := hm w hw
  unfold Act.attempt
  cases h : m w with
  | ok a v =>
      rw [h] at hrun
      exact hrun
  | error e v =>
      rw [h] at hrun
      exact hrun

@[grind ←] theorem Maintains.ofOption (e : ε) (x : Option α) :
    Maintains I (ofOption e x : Act ω ε α) := by
  cases x with
  | none => exact .throw e
  | some a => exact .pure a

@[grind ←] theorem Maintains.mapM {f : α → Act ω ε β} (hf : ∀ a, Maintains I (f a)) (xs : List α) :
    Maintains I (xs.mapM f) := by
  induction xs with
  | nil => exact .pure _
  | cons x xs ih =>
      rw [List.mapM_cons]
      exact (hf x).bind fun _ => ih.bind fun _ => .pure _

@[grind ←] theorem Maintains.foldlM {f : β → α → Act ω ε β} (hf : ∀ b a, Maintains I (f b a)) (b : β)
    (xs : List α) : Maintains I (xs.foldlM f b) := by
  induction xs generalizing b with
  | nil => exact .pure _
  | cons x xs ih =>
      rw [List.foldlM_cons]
      exact (hf b x).bind fun c => ih c

@[grind ←] theorem Maintains.filterM {f : α → Act ω ε Bool} (hf : ∀ a, Maintains I (f a))
    (xs : List α) : Maintains I (xs.filterM f) := by
  have onto (kept : List α) : Maintains I (xs.filterAuxM f kept) := by
    induction xs generalizing kept with
    | nil => exact .pure _
    | cons x xs ih =>
        rw [List.filterAuxM]
        exact (hf x).bind fun b => ih _
  rw [List.filterM]
  exact (onto []).bind fun _ => .pure _

/-- `I` holds of a world that has a state beside it. -/
def Beside (I : ω → Prop) (p : σ × ω) : Prop := I p.2

@[grind ←] theorem Maintains.beside {m : Act ω ε α} (hm : Maintains I m) :
    Maintains (Beside I) (Act.beside m : Act (σ × ω) ε α) := by
  rintro ⟨s, w⟩ hw
  have hrun := hm w hw
  unfold Act.beside
  cases h : m w with
  | ok a v =>
      rw [h] at hrun
      exact hrun
  | error e v =>
      rw [h] at hrun
      exact hrun

end Act

open Act (Maintains Beside)

/-- However the state in a cell is changed, `I` goes on to hold. -/
def Cell.Maintains (I : ω → Prop) (c : Cell ω σ) : Prop := ∀ f w, I w → I (c.update f w)

variable {I : ω → Prop}

@[grind ←] theorem Cell.maintains_read (c : Cell ω σ) : Act.Maintains I (c.read : Act ω ε σ) :=
  fun _ hw => hw

@[grind ←] theorem Cell.Maintains.modify {c : Cell ω σ} (hc : c.Maintains I) (f : σ → σ) :
    Act.Maintains I (c.modify f : Act ω ε Unit) := fun w hw => hc f w hw

@[grind ←] theorem Cell.maintains_beside :
    (Cell.beside : Cell (σ × ω) σ).Maintains (Beside I) := fun _ _ hw => hw

/-! ### Reading a sequence -/

theorem Machine.maintains_pull {m : Machine ω ε σ α} (hm : ∀ s, Maintains I (m s)) (n : Nat) (s : σ) :
    Maintains I (m.pull n s) := by
  induction n generalizing s with
  | zero => exact .pure _
  | succ n ih =>
      rw [pull_succ]
      refine (hm s).attempt.bind fun r => ?_
      rcases r with e | ⟨a, t⟩ | t | _ | t | ⟨e, t⟩
      case ok.skip => exact ih t
      all_goals exact .pure _

theorem Turn.maintains_pull {turn : Act ω ε (Turn α)} (hturn : Maintains I turn) (unsettled : ε)
    (n : Nat) : Maintains I (Turn.pull unsettled turn n) := by
  induction n with
  | zero => exact .throw _
  | succ n ih =>
      rw [pull_succ]
      refine hturn.bind fun r => ?_
      cases r with
      | give a => exact .pure _
      | again => exact ih
      | ended => exact .pure _

theorem Machine.maintains_ofTurn {turn : Act (σ × ω) ε (Turn α)}
    (hturn : Maintains (Beside I) turn) (s : σ) :
    Maintains I (Machine.ofTurn turn s) := by
  intro w hw
  have hrun := hturn (s, w) hw
  unfold Machine.ofTurn
  rcases h : turn (s, w) with ⟨_ | _ | _, t, v⟩ | ⟨e, t, v⟩ <;> rw [h] at hrun <;> exact hrun

theorem Machine.maintains_beside {m : Machine (τ × ω) ε σ α}
    (hm : ∀ s, Maintains (Beside I) (m s)) (s : σ × τ) :
    Maintains I (m.beside s) := by
  intro w hw
  have hrun := hm s.1 (s.2, w) hw
  unfold Machine.beside
  rcases h : m s.1 (s.2, w) with ⟨r, t, v⟩ | ⟨e, t, v⟩ <;> rw [h] at hrun <;> exact hrun

@[grind ←] theorem Source.maintains_ofList (xs : List α) :
    Maintains I (Source.ofList xs : Act ω ε (Option (α × List α))) := by
  cases xs <;> exact .pure _

/-! ### Routes -/

namespace Route

variable {ι ρ key : Type} [DecidableEq key] [Hashable key] {next : Source ω ε κ α}
  (hnext : ∀ k, Maintains I (next k))

include hnext

theorem maintains_select {test : α → Act ω ε Bool} (htest : ∀ a, Maintains I (test a)) (k : κ) :
    Maintains I (select next test k) := by
  unfold select
  grind

theorem maintains_each {f : α → Act ω ε β} (hf : ∀ a, Maintains I (f a)) (k : κ) :
    Maintains I (each next f k) := by
  unfold each
  grind

theorem maintains_both {f g : α → Act ω ε β} (hf : ∀ a, Maintains I (f a))
    (hg : ∀ a, Maintains I (g a)) (s : Both κ α) : Maintains I (both next f g s) := by
  unfold both
  grind

theorem maintains_distinct {image : α → Act ω ε β} {sought keyOf : β → Act ω ε key}
    (himage : ∀ a, Maintains I (image a)) (hsought : ∀ b, Maintains I (sought b))
    (hkey : ∀ b, Maintains I (keyOf b)) (s : Distinct κ key) :
    Maintains I (distinct next image sought keyOf s) := by
  unfold distinct
  grind

theorem maintains_alternate {size : Source ω ε ι (Option Nat)} (hsize : ∀ i, Maintains I (size i))
    (s : Alternating ι κ) : Maintains I (alternate size next s) := by
  unfold alternate
  grind

theorem Loop.maintains_turn {c : Cell ω (Loop κ α)} (hc : c.Maintains I) :
    Maintains I (Loop.turn c next) := by
  unfold Loop.turn
  grind

theorem Slice.maintains_turn {c : Cell ω (Slice κ)} (hc : c.Maintains I) :
    Maintains I (Slice.turn c next) := by
  unfold Slice.turn
  grind

theorem Guard.maintains_turn {c : Cell ω (Guard κ key α)} (hc : c.Maintains I)
    {sought keyOf : α → Act ω ε key} {decide : α → Nat → Act ω ε Bool}
    {report : α → Nat → Act ω ε Unit} (hsought : ∀ a, Maintains I (sought a))
    (hkey : ∀ a, Maintains I (keyOf a)) (hdecide : ∀ a i, Maintains I (decide a i))
    (hreport : ∀ a i, Maintains I (report a i)) :
    Maintains I (Guard.turn c next sought keyOf decide report) := by
  unfold Guard.turn
  refine (Cell.maintains_read c).bind fun s => ?_
  split
  · exact .pure _
  · refine (hnext s.source).bind fun r => ?_
    rcases r with _ | ⟨a, k⟩
    · exact .pure _
    · -- an element has arrived: the world may be another one, so the cell is read again
      refine (Cell.maintains_read c).bind fun s => (hc.modify _).bind fun _ =>
        (hsought a).bind fun x => ?_
      grind

theorem maintains_takeOnto (n : Nat) (taken : List α) (k : κ) :
    Maintains I (takeOnto next n taken k) := by
  induction n generalizing taken k with
  | zero => exact .pure _
  | succ n ih =>
      unfold takeOnto
      grind

theorem maintains_takeUpTo (n : Nat) (k : κ) : Maintains I (takeUpTo next n k) :=
  maintains_takeOnto hnext n [] k

theorem maintains_countUpTo (limit counted : Nat) (k : κ) :
    Maintains I (countUpTo next limit counted k) := by
  induction limit generalizing counted k with
  | zero => exact .pure _
  | succ limit ih =>
      unfold countUpTo
      grind

theorem maintains_lookahead {made : β → Act ω ε ρ} {checked : Int → Act ω ε Nat}
    {opened : ρ → Act ω ε κ} (hmade : ∀ b, Maintains I (made b))
    (hchecked : ∀ n, Maintains I (checked n)) (hopened : ∀ r, Maintains I (opened r))
    (bounds : Bounds) (b : β) : Maintains I (lookahead bounds made checked opened next b) := by
  unfold lookahead
  grind [maintains_countUpTo]

omit hnext in
theorem maintains_unseen {mem : α → Act ω ε Bool} {add : α → Act ω ε Unit} {update : Act ω ε Bool}
    (hmem : ∀ a, Maintains I (mem a)) (hadd : ∀ a, Maintains I (add a)) (hupdate : Maintains I update)
    (a : α) : Maintains I (unseen mem add update a) := by
  unfold unseen
  grind

omit hnext in
theorem Flat.maintains_ask {c : Cell ω (Flat κ ρ)} (hc : c.Maintains I) {inner : Source ω ε ρ α}
    (hinner : ∀ p, Maintains I (inner p)) (n : Nat) (p : ρ) : Maintains I (Flat.ask c inner n p) := by
  unfold Flat.ask
  grind

omit hnext in
theorem Flat.maintains_turn {c : Cell ω (Flat κ ρ)} (hc : c.Maintains I) {outer : Source ω ε κ ι}
    {opened : ι → Act ω ε ρ} {inner : Source ω ε ρ α} (houter : ∀ k, Maintains I (outer k))
    (hopened : ∀ i, Maintains I (opened i)) (hinner : ∀ p, Maintains I (inner p)) :
    Maintains I (Flat.turn c outer opened inner) := by
  have hask := Flat.maintains_ask hc hinner
  unfold Flat.turn
  refine (Cell.maintains_read c).bind fun s => ?_
  split
  · exact .pure _
  · exact hask _ _
  · refine (houter _).attempt.bind fun r => ?_
    rcases r with e | _ | ⟨i, k⟩
    · exact (hc.modify _).bind fun _ => .throw e
    · exact (hc.modify _).bind fun _ => .pure _
    · refine (hopened i).attempt.bind fun r => ?_
      cases r with
      | error e => exact (hc.modify _).bind fun _ => .throw e
      | ok p => exact (hc.modify _).bind fun _ => (Cell.maintains_read c).bind fun s => hask _ _

omit hnext in
theorem maintains_flatten {outer : Source ω ε κ ι} {opened : ι → Act ω ε ρ} {inner : Source ω ε ρ α}
    (houter : ∀ k, Maintains I (outer k)) (hopened : ∀ i, Maintains I (opened i))
    (hinner : ∀ p, Maintains I (inner p)) (s : Flat κ ρ) :
    Maintains I (flatten outer opened inner s) :=
  Machine.maintains_ofTurn (Flat.maintains_turn Cell.maintains_beside (fun k => (houter k).beside)
    (fun i => (hopened i).beside) fun p => (hinner p).beside) s

end Route

/-! ### Merges -/

namespace Merge

variable {ρ : Type} {next : Source ω ε κ α} (hnext : ∀ k, Maintains I (next k))

theorem maintains_nextBlock {next : Source ω ε κ ρ} {read : ρ → Act ω ε (List α)}
    (hnext : ∀ k, Maintains I (next k)) (hread : ∀ r, Maintains I (read r)) (k : κ) :
    Maintains I (nextBlock next read k) := by
  unfold nextBlock
  grind

include hnext

theorem Cut.maintains_turn {c : Cell ω (Cut κ)} (hc : c.Maintains I) :
    Maintains I (Cut.turn c next) := by
  unfold Cut.turn
  grind [Route.maintains_takeUpTo]

theorem maintains_roundRobin {nextBlock : Source ω ε β (List α)}
    (hblock : ∀ b, Maintains I (nextBlock b)) (s : Rotation κ β α) :
    Maintains I (roundRobin next nextBlock s) := by
  unfold roundRobin
  grind

theorem Shared.maintains_read {c : Cell ω (Shared κ α)} (hc : c.Maintains I) (busy : ε)
    (position : Nat) : Maintains I (Shared.read c busy next position) := by
  unfold Shared.read
  refine (Cell.maintains_read c).bind fun s => ?_
  split
  · exact .pure _
  · split
    · exact .throw _
    · refine (hc.modify _).bind fun _ => (hnext s.source).attempt.bind fun r => ?_
      grind

end Merge

theorem Neighbourhood.maintains_step {η key : Type} [BEq key] [Hashable key]
    {read : α → Side → Act ω ε (List η)} {labelKey : η → Act ω ε key}
    (hread : ∀ a side, Maintains I (read a side)) (hlabel : ∀ e, Maintains I (labelKey e))
    (edge : η → α) (s : Neighbourhood α η key) :
    Maintains I (Neighbourhood.step read labelKey edge s) := by
  unfold Neighbourhood.step Neighbourhood.wants
  grind

/-! ### Conditions -/

theorem Handler.maintains_chain {hs : List (Handler ω ε γ δ)} {c : γ}
    (h : ∀ f ∈ hs, Maintains I (f c)) : Maintains I (Handler.chain hs c) := by
  induction hs with
  | nil => exact .pure _
  | cons f hs ih =>
      rw [Handler.chain_cons]
      refine (h f List.mem_cons_self).bind fun d => ?_
      cases d with
      | none => exact ih fun g hg => h g (List.mem_cons_of_mem f hg)
      | some d => exact .pure _

@[grind ←] theorem Handler.maintains_refuse (fatal : γ → ε) (c : γ) :
    Maintains I (Handler.refuse fatal c : Act ω ε (Option δ)) := .throw _

theorem maintains_resolve {fatal : γ → ε} {handler : Option (Handler ω ε γ δ)}
    (h : ∀ f ∈ handler, ∀ c, Maintains I (f c)) (default : Option δ) (c : γ) :
    Maintains I (resolve fatal handler default c) := by
  unfold resolve
  cases handler with
  | none => grind
  | some f => exact (h f rfl c).bind (by grind)

/-! ### Descents -/

namespace Walk

variable {π : Type}

/-- All that a walk asks of its caller keeps `I`. -/
structure Env.Maintains (I : ω → Prop) (env : Env ω ε α π κ τ β) : Prop where
  next : ∀ k, Act.Maintains I (env.next k)
  control : ∀ p a, Act.Maintains I (env.control p a)
  truth : ∀ t, Act.Maintains I (env.truth t)
  result : ∀ p a, Act.Maintains I (env.result p a)
  extend : ∀ p a, Act.Maintains I (env.extend p a)
  restart : ∀ p, Act.Maintains I (env.restart p)
  children : ∀ p a, Act.Maintains I (env.children p a)
  policy : ∀ p a depth n, Act.Maintains I (env.policy p a depth n)
  report : ∀ note, Act.Maintains I (env.report note)

variable {env : Env ω ε α π κ τ β} (henv : env.Maintains I)

include henv

theorem maintains_enter (frame : Frame π κ) (outer : List (Frame π κ)) (n : Nat) (p : Pending α τ) :
    Maintains I (enter env frame outer n p) := by
  unfold enter
  grind [Env.Maintains]

theorem maintains_answer (frame : Frame π κ) (outer : List (Frame π κ)) (n : Nat) (p : Pending α τ) :
    Maintains I (answer env frame outer n p) := by
  unfold answer
  grind [Env.Maintains, maintains_enter]

theorem maintains_below (limits : Limits) (frame : Frame π κ) (outer : List (Frame π κ))
    (fruitless : Nat) (p : Pending α τ) : Maintains I (below env limits frame outer fruitless p) := by
  unfold below
  grind [Env.Maintains, maintains_enter, maintains_answer]

theorem maintains_visit (frame : Frame π κ) (outer : List (Frame π κ)) (fruitless : Nat) :
    Maintains I (visit env frame outer fruitless) := by
  unfold visit
  split
  · exact .pure _
  · refine (henv.next _).bind fun r => ?_
    rcases r with _ | ⟨a, k⟩
    · exact .pure _
    · refine (henv.control _ _).bind fun i => (henv.truth _).bind fun goesOn =>
        (henv.truth _).bind fun emits => ?_
      grind [Env.Maintains]

/-- **One step of a walk** keeps what its caller keeps. -/
theorem maintains_step (limits : Limits) (s : Walk α π κ τ) :
    Maintains I (Walk.step env limits s) := by
  unfold Walk.step
  grind [maintains_below, maintains_visit]

end Walk

/-! ### Searches -/

namespace Search

variable {key : Type}

/-- All that a search asks of its caller keeps `I`. -/
structure Host.Maintains (I : ω → Prop) (host : Host ω ε α κ β key) : Prop where
  next : ∀ k, Act.Maintains I (host.next k)
  children : ∀ a, Act.Maintains I (host.children a)
  nothing : Act.Maintains I host.nothing
  same : ∀ a b, Act.Maintains I (host.same a b)
  mark : Act.Maintains I host.mark
  policy : ∀ t a depth n, Act.Maintains I (host.policy t a depth n)
  report : ∀ note, Act.Maintains I (host.report note)

/-- All that the tests of a search ask keeps `I`. -/
structure Criteria.Maintains (I : ω → Prop) (c : Criteria ω ε α) : Prop where
  gate : ∀ g, c.pred = some g ∨ c.pathPred = some g → ∀ t a, Act.Maintains I (g.passes t a)
  element : ∀ test, c.elementPred = some test → ∀ a, Act.Maintains I (test a)

variable {host : Host ω ε α κ β key} (hhost : host.Maintains I) {plan : Plan ω ε α}
  (hplan : plan.criteria.Maintains I)

theorem maintains_isNew [DecidableEq key] (t : Trail α) (a : α) : Maintains I (isNew host t a) := by
  unfold isNew
  grind

theorem maintains_both {first second : Act ω ε Bool} (hfirst : Maintains I first)
    (hsecond : Maintains I second) : Maintains I (both first second) := by
  unfold both
  grind

include hplan in
theorem maintains_passes [DecidableEq key] (t : Trail α) (a : α) : Maintains I (passes host plan t a) := by
  unfold passes
  have hpred : Maintains I (Gate.passesAny plan.criteria.pred t a) := by
    unfold Gate.passesAny
    grind [Criteria.Maintains]
  have hpath : Maintains I (Gate.passesAny plan.criteria.pathPred t a) := by
    unfold Gate.passesAny
    grind [Criteria.Maintains]
  have helement : Maintains I (passesElement plan.criteria.elementPred a) := by
    unfold passesElement
    split
    · exact hplan.element _ ‹_› a
    · exact .pure _
  grind [maintains_both, maintains_isNew]

include hhost

theorem maintains_ahead (s : Ahead α κ) : Maintains I (Ahead.next host.next s) := by
  unfold Ahead.next
  grind [Host.Maintains]

theorem maintains_fromStart (a : α) : Maintains I (fromStart host a) := by
  unfold fromStart
  grind [Host.Maintains]

theorem maintains_control (t : Trail α) (a : α) : Maintains (Beside I) (control host plan t a) := by
  unfold control
  grind [Host.Maintains, slot]

theorem maintains_extend [DecidableEq key] (t : Trail α) (a : α) : Maintains I (extend host t a) := by
  unfold extend
  grind [Host.Maintains]

theorem maintains_restart (t : Trail α) : Maintains I (restart host t) := by
  unfold restart
  grind [Host.Maintains]

variable [DecidableEq key]

include hplan

theorem maintains_expand (t : Trail α) (a : α) : Maintains (Beside I) (expand host plan t a) := by
  unfold expand
  grind [Host.Maintains, slot, maintains_passes, maintains_fromStart]

/-- **One step of a search** keeps what its caller keeps. -/
theorem maintains_step (limits : Limits) (s : Search α κ) :
    Maintains I (step host plan limits s) := by
  refine Machine.maintains_beside (fun t => Walk.maintains_step ?_ limits t) s
  exact {
    next := fun k => (maintains_ahead hhost k).beside
    control := maintains_control hhost
    truth := fun _ => .pure _
    result := fun _ _ => .pure _
    extend := fun t a => (maintains_extend hhost t a).beside
    restart := fun t => (maintains_restart hhost t).beside
    children := maintains_expand hhost hplan
    policy := fun t a depth n => (hhost.policy t a depth n).beside
    report := fun note => (hhost.report note).beside }

end Search

end GraphRoutes
