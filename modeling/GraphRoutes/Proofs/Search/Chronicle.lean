/-
**The chronicle of a search.**

Much of what a search does cannot be seen in what it gives: which tests it asks, about which elements,
and from which source an element was read.  A chronicle writes it down: whose children are opened, what
is read, what is visited, which tests of the caller are asked, and what they answer.  A test that fails
leaves its question behind, so the chronicle speaks of calls that never come back, too.

A chronicle makes no difference.  It stands beside the world of the caller, who cannot see it, and each
step of the search does to that world what it does without the chronicle, also where it fails.

Main definitions:

* `GraphRoutes.Act.Mirrors` — an action that does to a part of its world what another one does;
* `GraphRoutes.Search.Question`, `GraphRoutes.Search.Occurrence`, `GraphRoutes.Search.Chronicle` — what
  is written down, newest first;
* `GraphRoutes.Search.Host.chronicled`, `GraphRoutes.Search.Criteria.chronicled` — a caller and tests
  with a chronicle;
* `GraphRoutes.Search.chronicledEnv`, `GraphRoutes.Search.stepChronicled` — the walk of a search with a
  chronicle, and its step.

Main results:

* `GraphRoutes.Walk.Env.Mirrors.step` — a walk mirrors another one if all does that it asks for;
* `GraphRoutes.Search.step_chronicled` — **the chronicle makes no difference to a step**;
* `GraphRoutes.Search.exists_chronicle` — every run of a search has a chronicle.
-/
import GraphRoutes.Descent.Search
import GraphRoutes.Proofs.Descent.Move

set_option relaxedAutoImplicit false
set_option autoImplicit false

namespace GraphRoutes

variable {ω ω' ε α π κ τ β γ δ σ key : Type}

/-! ### A part of the world -/

namespace Act

/-- An outcome as it is seen in a part of its world. -/
def seen (view : ω' → ω) : EStateM.Result ε ω' γ → EStateM.Result ε ω γ
  | .ok c w => .ok c (view w)
  | .error e w => .error e (view w)

/-- `m'` does to a part of its world what `m` does, and comes to the same. -/
def Mirrors (view : ω' → ω) (m' : Act ω' ε γ) (m : Act ω ε γ) : Prop :=
  ∀ w, seen view (m' w) = m (view w)

variable {view : ω' → ω}

theorem Mirrors.pure (c : γ) : Mirrors view (pure c : Act ω' ε γ) (pure c : Act ω ε γ) := fun _ => rfl

theorem Mirrors.throw (e : ε) : Mirrors view (throw e : Act ω' ε γ) (throw e : Act ω ε γ) :=
  fun _ => rfl

theorem Mirrors.bind {m' : Act ω' ε δ} {m : Act ω ε δ} {f' : δ → Act ω' ε γ} {f : δ → Act ω ε γ}
    (h : Mirrors view m' m) (hf : ∀ d, Mirrors view (f' d) (f d)) :
    Mirrors view (m' >>= f') (m >>= f) := by
  intro w
  have hw := h w
  rcases hm' : m' w with ⟨d, v⟩ | ⟨e, v⟩
  · rw [hm'] at hw
    rw [bind_of_ok hm', bind_of_ok hw.symm]
    exact hf d v
  · rw [hm'] at hw
    rw [bind_of_error hm', bind_of_error hw.symm]
    rfl

/-- What comes first is not seen. -/
theorem Mirrors.unseen_bind {m' : Act ω' ε δ} {d : δ} {f' : δ → Act ω' ε γ} {m : Act ω ε γ}
    (h : Mirrors view m' (Pure.pure d : Act ω ε δ)) (hf : Mirrors view (f' d) m) :
    Mirrors view (m' >>= f') m := by
  intro w
  have hw := h w
  rcases hm' : m' w with ⟨d', v⟩ | ⟨e, v⟩
  · rw [hm'] at hw
    obtain ⟨rfl, hv⟩ : d' = d ∧ view v = view w := by
      injection hw with hd hv
      exact ⟨hd, hv⟩
    rw [bind_of_ok hm', ← hv]
    exact hf v
  · rw [hm'] at hw
    cases hw

/-- What follows is not seen. -/
theorem Mirrors.bind_unseen {m' : Act ω' ε γ} {m : Act ω ε γ} {f' : γ → Act ω' ε γ}
    (h : Mirrors view m' m) (hf : ∀ c, Mirrors view (f' c) (Pure.pure c : Act ω ε γ)) :
    Mirrors view (m' >>= f') m := by
  rw [← bind_pure m]
  exact h.bind hf

theorem Mirrors.ite {p : Prop} [Decidable p] {m' n' : Act ω' ε γ} {m n : Act ω ε γ}
    (h : Mirrors view m' m) (h' : Mirrors view n' n) :
    Mirrors view (if p then m' else n') (if p then m else n) := by
  split
  · exact h
  · exact h'

/-- An action leaves alone what stands beside its world. -/
theorem mirrors_beside (m : Act ω ε γ) : Mirrors (Prod.snd : σ × ω → ω) (beside m) m := by
  intro w
  simp only [beside]
  cases m w.2 <;> rfl

/-- Two actions beside a state that is the same for both. -/
theorem Mirrors.beside {m' : Act ω' ε γ} {m : Act ω ε γ} (h : Mirrors view m' m) :
    Mirrors (Prod.map (id : σ → σ) view) (beside m') (beside m) := by
  intro w
  have hw := h w.2
  simp only [Act.beside, Prod.map_snd]
  rw [← hw]
  cases m' w.2 <;> rfl

theorem mirrors_read :
    Mirrors (Prod.map (id : σ → σ) view) (Cell.beside.read : Act (σ × ω') ε σ) Cell.beside.read :=
  fun _ => rfl

theorem mirrors_modify (f : σ → σ) :
    Mirrors (Prod.map id view) (Cell.beside.modify f : Act (σ × ω') ε Unit) (Cell.beside.modify f) :=
  fun _ => rfl

end Act

open Act (Mirrors)

/-- A machine that keeps a part of its world to itself. -/
theorem Machine.mirrors_beside {view : ω' → ω} {m' : Machine (τ × ω') ε σ α} {m : Machine (τ × ω) ε σ α}
    (h : ∀ s, Mirrors (Prod.map id view) (m' s) (m s)) (x : σ × τ) :
    Mirrors view (m'.beside x) (m.beside x) := by
  intro w
  have hx := h x.1 (x.2, w)
  simp only [Machine.beside]
  rw [show m x.1 (x.2, view w) = Act.seen (Prod.map id view) (m' x.1 (x.2, w)) from hx.symm]
  cases m' x.1 (x.2, w) <;> rfl

/-- A run of a machine is one of a machine that mirrors it. -/
theorem Machine.exists_reached {view : ω' → ω} {m' : Machine ω' ε σ α} {m : Machine ω ε σ α}
    {consume' : α → Act ω' ε Unit} {consume : α → Act ω ε Unit} {s₀ s : σ} {w : ω} (w₀ : ω')
    (hstep : ∀ s, Mirrors view (m' s) (m s)) (hconsume : ∀ a, Mirrors view (consume' a) (consume a))
    (h : Machine.Reached m consume s₀ (view w₀) s w) :
    ∃ w', view w' = w ∧ Machine.Reached m' consume' s₀ w₀ s w' := by
  -- an outcome that is seen comes from the same one before it is seen
  have result : ∀ {γ : Type} {n' : Act ω' ε γ} {n : Act ω ε γ} {c : γ} {u' : ω'} {v : ω},
      Mirrors view n' n → n (view u') = .ok c v → ∃ v', view v' = v ∧ n' u' = .ok c v' := by
    intro γ n' n c u' v hn hv
    have hu := hn u'
    rw [hv] at hu
    rcases hn' : n' u' with ⟨c', v'⟩ | ⟨e, v'⟩
    · rw [hn'] at hu
      cases hu
      exact ⟨v', rfl, rfl⟩
    · rw [hn'] at hu
      cases hu
  induction h with
  | start => exact ⟨w₀, rfl, .start⟩
  | skip _ hs ih =>
      obtain ⟨w', rfl, hr⟩ := ih
      obtain ⟨v', hv', hs'⟩ := result (hstep _) hs
      exact ⟨v', hv', hr.skip hs'⟩
  | give _ hs hc ih =>
      obtain ⟨w', rfl, hr⟩ := ih
      obtain ⟨v', rfl, hs'⟩ := result (hstep _) hs
      obtain ⟨u', hu', hc'⟩ := result (hconsume _) hc
      exact ⟨u', hu', hr.give hs' hc'⟩

/-! ### Walks over a part of the world -/

namespace Walk

/-- A walk mirrors another one in all that it asks for. -/
structure Env.Mirrors (view : ω' → ω) (env' : Env ω' ε α π κ τ β) (env : Env ω ε α π κ τ β) : Prop where
  next (k : κ) : Act.Mirrors view (env'.next k) (env.next k)
  control (path : π) (a : α) : Act.Mirrors view (env'.control path a) (env.control path a)
  truth (d : τ) : Act.Mirrors view (env'.truth d) (env.truth d)
  result (path : π) (a : α) : Act.Mirrors view (env'.result path a) (env.result path a)
  extend (path : π) (a : α) : Act.Mirrors view (env'.extend path a) (env.extend path a)
  restart (path : π) : Act.Mirrors view (env'.restart path) (env.restart path)
  children (path : π) (a : α) : Act.Mirrors view (env'.children path a) (env.children path a)
  policy (path : π) (a : α) (depth n : ℕ) :
    Act.Mirrors view (env'.policy path a depth n) (env.policy path a depth n)
  report (note : Note α β) : Act.Mirrors view (env'.report note) (env.report note)

section

variable {view : ω' → ω} {env' : Env ω' ε α π κ τ β} {env : Env ω ε α π κ τ β}

theorem sequential_mirrors : Sequential (ε := ε) fun {_} => Act.Mirrors view where
  pure := .pure
  bind hm hf := hm.bind hf

theorem Env.Mirrors.related (h : Env.Mirrors view env' env) :
    Env.Related (fun {_} => Act.Mirrors view) env' env :=
  ⟨h.next, h.control, h.truth, h.result, h.extend, h.restart, h.children, h.policy, h.report⟩

/-- **A walk mirrors another one** if all does that it asks for. -/
theorem Env.Mirrors.step (h : Env.Mirrors view env' env) (limits : Limits) (s : Walk α π κ τ) :
    Act.Mirrors view (Walk.step env' limits s) (Walk.step env limits s) :=
  h.related.step sequential_mirrors limits s

end

end Walk

/-! ### Chronicles -/

namespace Search

/-- A question to a test of the caller, with what the test is told. -/
inductive Question (α : Type) where
  | pred (path : Trail α) (element : α)
  | pathPred (path : Trail α)
  | elementPred (element : α)

/-- What happens in a search. -/
inductive Occurrence (α κ : Type) where
  /-- The children of an element are opened. -/
  | opens (element : α) (children : κ)
  /-- An item is read from a source. -/
  | reads (source : κ) (item : α) (rest : κ)
  /-- An element is visited below its ancestors. -/
  | visits (path : Trail α) (element : α)
  /-- A test is asked. -/
  | asks (question : Question α)
  /-- The test that was asked last has answered. -/
  | answers (passed : Bool)

/-- What has happened, newest first. -/
abbrev Chronicle (α κ : Type) : Type := List (Occurrence α κ)

/-- Writes down what happens. -/
def chronicle (e : Occurrence α κ) : Act (Chronicle α κ × ω) ε Unit := Cell.beside.modify (e :: ·)

/-- A test whose question and answer are written down. -/
def asked (q : Question α) (test : Act ω ε Bool) : Act (Chronicle α κ × ω) ε Bool := do
  chronicle (.asks q)
  let passed ← Act.beside test
  chronicle (.answers passed)
  pure passed

/-- A gate with a chronicle.  Only a test is asked. -/
def Gate.chronicled (question : Trail α → α → Question α) :
    Gate ω ε α → Gate (Chronicle α κ × ω) ε α
  | within n => within n
  | asks test => asks fun t a => asked (question t a) (test t a)

/-- Tests with a chronicle. -/
def Criteria.chronicled (c : Criteria ω ε α) : Criteria (Chronicle α κ × ω) ε α where
  cutCycles := c.cutCycles
  pred := c.pred.map (Gate.chronicled .pred)
  pathPred := c.pathPred.map (Gate.chronicled fun t _ => .pathPred t)
  elementPred := c.elementPred.map fun test a => asked (.elementPred a) (test a)

/-- A plan with a chronicle. -/
def Plan.chronicled (p : Plan ω ε α) : Plan (Chronicle α κ × ω) ε α where
  criteria := p.criteria.chronicled
  scope := p.scope
  givesPaths := p.givesPaths

/-- A caller with a chronicle. -/
def Host.chronicled (host : Host ω ε α κ β key) : Host (Chronicle α κ × ω) ε α κ β key where
  next k := do
    match ← Act.beside (host.next k) with
    | none => pure none
    | some (a, rest) => do
      chronicle (.reads k a rest)
      pure (some (a, rest))
  children a := do
    let k ← Act.beside (host.children a)
    chronicle (.opens a k)
    pure k
  nothing := Act.beside host.nothing
  keyOf := host.keyOf
  unhashable := host.unhashable
  identical := host.identical
  same a b := Act.beside (host.same a b)
  mark := Act.beside host.mark
  result := host.result
  policy t a depth n := Act.beside (host.policy t a depth n)
  report note := Act.beside (host.report note)

variable (host : Host ω ε α κ β key) (plan : Plan ω ε α) (limits : Limits)

section

variable [DecidableEq key]

/-- The walk of a search with a chronicle.  An element is visited when the control is asked. -/
def chronicledEnv : Walk.Env (Slot α κ × (Chronicle α κ × ω)) ε α (Trail α) (Ahead α κ) Bool β :=
  { env host.chronicled plan.chronicled with
    control := fun t a => do
      Act.beside (chronicle (.visits t a))
      control host.chronicled plan.chronicled t a }

/-- One step of a search with a chronicle. -/
def stepChronicled : Machine (Chronicle α κ × ω) ε (Search α κ) β :=
  Machine.beside (Walk.step (chronicledEnv host plan) limits)

end

/-! ### The chronicle makes no difference -/

/-- The world of a search without its chronicle. -/
abbrev unchronicled : Slot α κ × (Chronicle α κ × ω) → Slot α κ × ω := Prod.map id Prod.snd

theorem mirrors_chronicle (e : Occurrence α κ) :
    Mirrors Prod.snd (chronicle e : Act (Chronicle α κ × ω) ε Unit) (pure () : Act ω ε Unit) :=
  fun _ => rfl

theorem mirrors_asked (q : Question α) (test : Act ω ε Bool) :
    Mirrors Prod.snd (asked q test : Act (Chronicle α κ × ω) ε Bool) test := by
  refine (mirrors_chronicle _).unseen_bind ((Act.mirrors_beside test).bind_unseen fun passed => ?_)
  exact (mirrors_chronicle _).unseen_bind (.pure passed)

theorem mirrors_passesAny (question : Trail α → α → Question α) (g : Option (Gate ω ε α)) (t : Trail α)
    (a : α) :
    Mirrors Prod.snd
      (Gate.passesAny (g.map (Gate.chronicled question)) t a : Act (Chronicle α κ × ω) ε Bool)
      (Gate.passesAny g t a) := by
  cases g with
  | none => exact .pure _
  | some g =>
      cases g with
      | within n => exact .pure _
      | asks test => exact mirrors_asked _ _

theorem mirrors_both {first' second' : Act (Chronicle α κ × ω) ε Bool} {first second : Act ω ε Bool}
    (h : Mirrors Prod.snd first' first) (h' : Mirrors Prod.snd second' second) :
    Mirrors Prod.snd (both first' second') (both first second) := by
  refine h.bind fun passed => ?_
  cases passed with
  | true => exact h'
  | false => exact .pure _

theorem mirrors_next (k : κ) : Mirrors Prod.snd (host.chronicled.next k) (host.next k) := by
  refine (Act.mirrors_beside _).bind_unseen fun found => ?_
  cases found with
  | none => exact .pure _
  | some x => exact (mirrors_chronicle _).unseen_bind (.pure _)

theorem mirrors_children (a : α) : Mirrors Prod.snd (host.chronicled.children a) (host.children a) := by
  exact (Act.mirrors_beside _).bind_unseen fun _ => (mirrors_chronicle _).unseen_bind (.pure _)

theorem mirrors_ahead (k : Ahead α κ) :
    Mirrors Prod.snd (Ahead.next host.chronicled.next k) (Ahead.next host.next k) := by
  obtain ⟨_ | a, rest⟩ := k
  · refine (mirrors_next host rest).bind fun found => ?_
    cases found with
    | none => exact .pure _
    | some x => exact .pure _
  · exact .pure _

theorem mirrors_control (t : Trail α) (a : α) :
    Mirrors unchronicled (control host.chronicled plan.chronicled t a) (control host plan t a) := by
  simp only [control, Plan.chronicled]
  cases plan.scope with
  | everything => exact .pure _
  | leaves =>
      refine (Act.mirrors_modify _).bind fun _ => (mirrors_children host a).beside.bind fun k =>
        (mirrors_next host k).beside.bind fun found => ?_
      cases found with
      | none => exact .pure _
      | some x => exact (Act.mirrors_modify _).bind fun _ => .pure _
  | cycles =>
      cases t.origin? with
      | none => exact .pure _
      | some origin =>
          refine (Act.mirrors_beside _).beside.bind fun same => ?_
          cases same with
          | true => exact .pure _
          | false => exact .pure _

theorem mirrors_fromStart (a : α) :
    Mirrors Prod.snd (fromStart host.chronicled a) (fromStart host a) :=
  (mirrors_children host a).bind fun _ => .pure _

variable [DecidableEq key]

theorem mirrors_isNew (t : Trail α) (a : α) :
    Mirrors Prod.snd (isNew host.chronicled t a : Act (Chronicle α κ × ω) ε Bool) (isNew host t a) := by
  have known : ∀ found : Option Bool, Mirrors Prod.snd
      (Act.ofOption host.unhashable found : Act (Chronicle α κ × ω) ε Bool)
      (Act.ofOption host.unhashable found : Act ω ε Bool) := by
    intro found
    cases found with
    | none => exact .throw _
    | some b => exact .pure _
  exact (known _).bind fun _ => .pure _

/-- The tests with their chronicle. -/
theorem mirrors_passes (t : Trail α) (a : α) :
    Mirrors Prod.snd (passes host.chronicled plan.chronicled t a : Act (Chronicle α κ × ω) ε Bool)
      (passes host plan t a) := by
  refine mirrors_both ((mirrors_isNew host t a).ite (.pure _)) (mirrors_both (mirrors_passesAny _ _ _ _)
    (mirrors_both (mirrors_passesAny _ _ _ _) ?_))
  simp only [Plan.chronicled, Criteria.chronicled]
  cases plan.criteria.elementPred with
  | none => exact .pure _
  | some test => exact mirrors_asked _ _

theorem mirrors_expand (t : Trail α) (a : α) :
    Mirrors unchronicled (expand host.chronicled plan.chronicled t a) (expand host plan t a) := by
  refine (mirrors_passes host plan t a).beside.bind fun passed => ?_
  cases passed with
  | true =>
      refine Act.mirrors_read.bind fun slot => ?_
      cases slot with
      | none => exact (mirrors_fromStart host a).beside
      | some c =>
          exact Mirrors.ite ((Act.mirrors_modify _).bind fun _ => .pure _) (mirrors_fromStart host a).beside
  | false =>
      exact (Act.mirrors_modify _).bind fun _ =>
        (Act.mirrors_beside _).beside.bind fun _ => .pure _

theorem mirrors_extend (t : Trail α) (a : α) :
    Mirrors Prod.snd (extend host.chronicled t a : Act (Chronicle α κ × ω) ε (Trail α))
      (extend host t a) := by
  have keyed : ∀ mark, Mirrors Prod.snd (do
        let _ ← Act.ofOption host.unhashable (host.keyOf a)
        pure (t.extend host.keyOf a mark) : Act (Chronicle α κ × ω) ε (Trail α)) (do
        let _ ← Act.ofOption host.unhashable (host.keyOf a)
        pure (t.extend host.keyOf a mark) : Act ω ε (Trail α)) := by
    intro mark
    cases host.keyOf a with
    | none => exact .throw _
    | some k => exact .pure _
  refine (Act.mirrors_beside _).bind fun mark => ?_
  cases t.kind with
  | untracked => exact .pure _
  | sequence => exact .pure _
  | set => exact keyed mark
  | indexed => exact keyed mark

theorem mirrors_chronicledEnv :
    Walk.Env.Mirrors unchronicled (chronicledEnv host plan) (env host plan) where
  next k := (mirrors_ahead host k).beside
  control t a := (mirrors_chronicle (.visits t a)).beside.unseen_bind (mirrors_control host plan t a)
  truth _ := .pure _
  result _ _ := .pure _
  extend t a := (mirrors_extend host t a).beside
  restart _ := ((Act.mirrors_beside host.mark).bind fun _ => .pure _).beside
  children t a := mirrors_expand host plan t a
  policy _ _ _ _ := (Act.mirrors_beside _).beside
  report _ := (Act.mirrors_beside _).beside

/-- **The chronicle makes no difference to a step.** -/
theorem step_chronicled (x : Search α κ) :
    Mirrors Prod.snd (stepChronicled host plan limits x) (step host plan limits x) :=
  Machine.mirrors_beside (fun s => (mirrors_chronicledEnv host plan).step limits s) x

/-- **Every run of a search has a chronicle.** -/
theorem exists_chronicle {consume : β → Act ω ε Unit} {x₀ x : Search α κ} {w₀ w : ω}
    (h : Machine.Reached (step host plan limits) consume x₀ w₀ x w) :
    ∃ log, Machine.Reached (stepChronicled host plan limits) (fun b => Act.beside (consume b)) x₀
      ([], w₀) x (log, w) := by
  obtain ⟨⟨log, w'⟩, rfl, hr⟩ := Machine.exists_reached (([] : Chronicle α κ), w₀)
    (step_chronicled host plan limits) (fun b => Act.mirrors_beside (consume b)) h
  exact ⟨log, hr⟩

end Search

end GraphRoutes
