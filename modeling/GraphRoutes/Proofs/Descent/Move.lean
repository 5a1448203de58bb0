/-
**The moves of a walk: all that one step can do.**

A step of a walk takes a few actions of its caller one after the other, and stops at the first that
fails.  A move lists the actions of a step that came to a result, with the worlds between them.  What
holds at all states of a run is proved move by move.

Main definitions:

* `GraphRoutes.Walk.Consulted` — what the policy comes to, if it is asked at all;
* `GraphRoutes.Walk.Visit` — a candidate, and the decisions about it;
* `GraphRoutes.Walk.Move` — **one step of a walk with a result**;
* `GraphRoutes.Walk.Env.Related` — walks that ask for related actions;
* `GraphRoutes.Machine.Gives`, `GraphRoutes.Machine.given` — an item is given in a run, and those
  given in its first steps;
* `GraphRoutes.Machine.stands` — where a run stands after so many steps.

Main results:

* `GraphRoutes.Walk.move_of_step` — every step that comes to a result is a move;
* `GraphRoutes.Walk.Env.Related.step` — the steps of walks that ask for related actions are related;
* `GraphRoutes.Machine.Reached.beside_induction` — what every step keeps holds in a whole run.
-/
import GraphRoutes.Proofs.Drive
import GraphRoutes.Descent.Walk

set_option relaxedAutoImplicit false
set_option autoImplicit false

namespace GraphRoutes

variable {ω ε α π κ τ β σ : Type}

/-- An element that is visited, with what its instruction leaves to be decided. -/
def Pending.of (a : α) (i : Instruction τ) : Pending α τ :=
  { element := a, descend := i.descend, resetPath := i.resetPath }

namespace Walk

/-- What the policy says about the element `a` at the `n`-th fruitless step.  Where it is not asked,
the walk goes on. -/
inductive Consulted (env : Env ω ε α π κ τ β) (limits : Limits) (path : π) (a : α) (depth n : ℕ)
    (w : ω) : Resolution β → ω → Prop
  | unasked : limits.due n = false → Consulted env limits path a depth n w .descend w
  | asked {r : Resolution β} {u v : ω} : limits.due n = true →
      env.report (.checkpoint n a) w = .ok () u → env.policy path a depth n u = .ok r v →
      Consulted env limits path a depth n w r v

/-- The candidate `a` is taken, with the instruction `i`, and there are candidates behind it if its
siblings are to be visited. -/
structure Visit (env : Env ω ε α π κ τ β) (path : π) (k : κ) (w : ω) (a : α) (i : Instruction τ)
    (emits : Bool) (rest : Option κ) (v : ω) : Prop where
  exists_worlds : ∃ (k' : κ) (goesOn : Bool) (w₁ w₂ w₃ : ω),
    env.next k w = .ok (some (a, k')) w₁ ∧ env.control path a w₁ = .ok i w₂ ∧
      env.truth i.continueSiblings w₂ = .ok goesOn w₃ ∧ env.truth i.emit w₃ = .ok emits v ∧
      rest = if goesOn then some k' else none

/-- The element is gone below: its children are opened, below the path `below`. -/
structure Entry (env : Env ω ε α π κ τ β) (path : π) (p : Pending α τ) (w : ω) (below : π) (k : κ)
    (v : ω) : Prop where
  exists_worlds : ∃ (resets : Bool) (w₁ w₂ : ω), env.truth p.resetPath w = .ok resets w₁ ∧
    (if resets then env.restart path else env.extend path p.element) w₁ = .ok below w₂ ∧
    env.children path p.element w₂ = .ok k v

/-- **One step of a walk with a result.** -/
inductive Move (env : Env ω ε α π κ τ β) (limits : Limits) :
    Walk α π κ τ → ω → Step (Walk α π κ τ) β ε → ω → Prop
  /-- There is no level any more. -/
  | finish {n : ℕ} {pending : Option (Pending α τ)} {w : ω} :
      Move env limits { levels := [], fruitless := n, pending } w .finish w
  /-- A level whose candidates were dropped is left. -/
  | leave {path : π} {outer : List (Frame π κ)} {n : ℕ} {w : ω} :
      Move env limits { levels := { path, candidates := none } :: outer, fruitless := n } w
        (.skip { levels := outer, fruitless := n }) w
  /-- A level whose candidates have come to an end is left. -/
  | exhaust {path : π} {k : κ} {outer : List (Frame π κ)} {n : ℕ} {w v : ω} :
      env.next k w = .ok none v →
      Move env limits { levels := { path, candidates := some k } :: outer, fruitless := n } w
        (.skip { levels := outer, fruitless := n }) v
  /-- An element is visited and given. -/
  | give {path : π} {k : κ} {rest : Option κ} {outer : List (Frame π κ)} {n : ℕ} {w u v : ω} {a : α}
      {i : Instruction τ} {b : β} : Visit env path k w a i true rest u →
      env.result path a u = .ok b v →
      Move env limits { levels := { path, candidates := some k } :: outer, fruitless := n } w
        (.give b { levels := { path, candidates := rest } :: outer, pending := some (.of a i) }) v
  /-- An element is visited and not given. -/
  | pass {path : π} {k : κ} {rest : Option κ} {outer : List (Frame π κ)} {n : ℕ} {w v : ω} {a : α}
      {i : Instruction τ} : Visit env path k w a i false rest v →
      Move env limits { levels := { path, candidates := some k } :: outer, fruitless := n } w
        (.skip { levels := { path, candidates := rest } :: outer, fruitless := n,
                 pending := some (.of a i) }) v
  /-- An element is not gone below, for its instruction or for its depth. -/
  | stay {frame : Frame π κ} {outer : List (Frame π κ)} {n : ℕ} {p : Pending α τ} {w v : ω}
      {descends : Bool} : env.truth p.descend w = .ok descends v →
      (descends = false ∨ limits.stopsBelow outer = true) →
      Move env limits { levels := frame :: outer, fruitless := n, pending := some p } w
        (.skip { levels := frame :: outer, fruitless := n }) v
  /-- An element is gone below. -/
  | enter {frame : Frame π κ} {outer : List (Frame π κ)} {n : ℕ} {p : Pending α τ} {w w₁ w₂ v : ω}
      {below : π} {k : κ} : env.truth p.descend w = .ok true w₁ → limits.stopsBelow outer = false →
      Consulted env limits frame.path p.element outer.length (n + 1) w₁ .descend w₂ →
      Entry env frame.path p w₂ below k v →
      Move env limits { levels := frame :: outer, fruitless := n, pending := some p } w
        (.skip { levels := { path := below, candidates := some k } :: frame :: outer,
                 fruitless := n + 1 }) v
  /-- The policy gives up what is below an element. -/
  | advance {frame : Frame π κ} {outer : List (Frame π κ)} {n : ℕ} {p : Pending α τ} {w w₁ w₂ v : ω} :
      env.truth p.descend w = .ok true w₁ → limits.stopsBelow outer = false →
      Consulted env limits frame.path p.element outer.length (n + 1) w₁ .advance w₂ →
      env.report (.abandoned (n + 1) outer.length p.element) w₂ = .ok () v →
      Move env limits { levels := frame :: outer, fruitless := n, pending := some p } w
        (.skip { levels := frame :: outer, fruitless := n + 1 }) v
  /-- The policy gives up what is below an element and beside it. -/
  | cut {frame : Frame π κ} {outer : List (Frame π κ)} {n : ℕ} {p : Pending α τ} {w w₁ w₂ v : ω} :
      env.truth p.descend w = .ok true w₁ → limits.stopsBelow outer = false →
      Consulted env limits frame.path p.element outer.length (n + 1) w₁ .cut w₂ →
      env.report (.abandonedWithSiblings (n + 1) outer.length p.element) w₂ = .ok () v →
      Move env limits { levels := frame :: outer, fruitless := n, pending := some p } w
        (.skip { levels := { frame with candidates := none } :: outer, fruitless := n + 1 }) v
  /-- The policy puts a result in the place of all that is left. -/
  | substitute {frame : Frame π κ} {outer : List (Frame π κ)} {n : ℕ} {p : Pending α τ}
      {w w₁ w₂ v : ω} {b : β} :
      env.truth p.descend w = .ok true w₁ → limits.stopsBelow outer = false →
      Consulted env limits frame.path p.element outer.length (n + 1) w₁ (.substitute b) w₂ →
      env.report (.substituted (n + 1) p.element b) w₂ = .ok () v →
      Move env limits { levels := frame :: outer, fruitless := n, pending := some p } w
        (.give b { levels := [] }) v

section Inversion

variable {env : Env ω ε α π κ τ β} {limits : Limits} {frame : Frame π κ} {outer : List (Frame π κ)}
  {n : ℕ} {p : Pending α τ} {w v : ω} {r : Step (Walk α π κ τ) β ε}

theorem entry_of_enter (h : enter env frame outer n p w = .ok r v) : ∃ below k,
    Entry env frame.path p w below k v ∧
      r = .skip { levels := { path := below, candidates := some k } :: frame :: outer,
                  fruitless := n } := by
  obtain ⟨resets, w₁, hresets, h⟩ := Act.bind_eq_ok_iff.1 h
  cases resets with
  | true =>
      obtain ⟨below, w₂, hbelow, h⟩ := Act.bind_eq_ok_iff.1 h
      obtain ⟨k, w₃, hk, h⟩ := Act.bind_eq_ok_iff.1 h
      cases h
      exact ⟨below, k, ⟨true, w₁, w₂, hresets, hbelow, hk⟩, rfl⟩
  | false =>
      obtain ⟨below, w₂, hbelow, h⟩ := Act.bind_eq_ok_iff.1 h
      obtain ⟨k, w₃, hk, h⟩ := Act.bind_eq_ok_iff.1 h
      cases h
      exact ⟨below, k, ⟨false, w₁, w₂, hresets, hbelow, hk⟩, rfl⟩

theorem move_of_below (h : below env limits frame outer n p w = .ok r v) :
    Move env limits { levels := frame :: outer, fruitless := n, pending := some p } w r v := by
  obtain ⟨descends, w₁, hdescends, h⟩ := Act.bind_eq_ok_iff.1 h
  by_cases hstop : (!descends || limits.stopsBelow outer) = true
  · rw [if_pos hstop] at h
    cases h
    exact .stay hdescends (by simpa using hstop)
  · rw [if_neg hstop] at h
    obtain ⟨rfl, hdepth⟩ : descends = true ∧ limits.stopsBelow outer = false := by simpa using hstop
    by_cases hdue : limits.due (n + 1) = true
    · simp only [hdue, if_true] at h
      obtain ⟨⟨⟩, w₂, hreport, h⟩ := Act.bind_eq_ok_iff.1 h
      obtain ⟨resolution, w₃, hpolicy, h⟩ := Act.bind_eq_ok_iff.1 h
      have consulted := Consulted.asked hdue hreport hpolicy
      cases resolution with
      | descend =>
          obtain ⟨below, k, hentry, rfl⟩ := entry_of_enter h
          exact .enter hdescends hdepth consulted hentry
      | advance =>
          obtain ⟨⟨⟩, w₄, htold, h⟩ := Act.bind_eq_ok_iff.1 h
          cases h
          exact .advance hdescends hdepth consulted htold
      | cut =>
          obtain ⟨⟨⟩, w₄, htold, h⟩ := Act.bind_eq_ok_iff.1 h
          cases h
          exact .cut hdescends hdepth consulted htold
      | substitute b =>
          obtain ⟨⟨⟩, w₄, htold, h⟩ := Act.bind_eq_ok_iff.1 h
          cases h
          exact .substitute hdescends hdepth consulted htold
    · simp only [hdue, Bool.false_eq_true, if_false] at h
      obtain ⟨below, k, hentry, rfl⟩ := entry_of_enter h
      exact .enter hdescends hdepth (.unasked (by simpa using hdue)) hentry

theorem move_of_visit {path : π} {k : κ}
    (h : visit env { path, candidates := some k } outer n w = .ok r v) :
    Move env limits { levels := { path, candidates := some k } :: outer, fruitless := n } w r v := by
  obtain ⟨found, w₁, hnext, h⟩ := Act.bind_eq_ok_iff.1 h
  rcases found with _ | ⟨a, k'⟩
  · cases h
    exact .exhaust hnext
  · obtain ⟨i, w₂, hcontrol, h⟩ := Act.bind_eq_ok_iff.1 h
    obtain ⟨goesOn, w₃, hgoesOn, h⟩ := Act.bind_eq_ok_iff.1 h
    obtain ⟨emits, w₄, hemits, h⟩ := Act.bind_eq_ok_iff.1 h
    have visited : Visit env path k w a i emits (if goesOn then some k' else none) w₄ :=
      ⟨k', goesOn, w₁, w₂, w₃, hnext, hcontrol, hgoesOn, hemits, rfl⟩
    cases emits with
    | true =>
        obtain ⟨b, w₅, hb, h⟩ := Act.bind_eq_ok_iff.1 h
        cases h
        exact .give visited hb
    | false =>
        cases h
        exact .pass visited

/-- **Every step that comes to a result is a move.** -/
theorem move_of_step {s : Walk α π κ τ} (h : step env limits s w = .ok r v) :
    Move env limits s w r v := by
  obtain ⟨levels, n, pending⟩ := s
  cases levels with
  | nil =>
      cases h
      exact .finish
  | cons frame outer =>
      cases pending with
      | some p => exact move_of_below h
      | none =>
          obtain ⟨path, _ | k⟩ := frame
          · cases h
            exact .leave
          · exact move_of_visit h

end Inversion

/-! ### Related environments -/

section Related

variable {ω' : Type} {R : ∀ {γ : Type}, Act ω' ε γ → Act ω ε γ → Prop}

/-- Actions that return the same at once are related, and so are related actions one after the other. -/
structure Sequential (R : ∀ {γ : Type}, Act ω' ε γ → Act ω ε γ → Prop) : Prop where
  pure {γ : Type} (c : γ) : R (Pure.pure c) (Pure.pure c)
  bind {γ δ : Type} {m' : Act ω' ε δ} {m : Act ω ε δ} {f' : δ → Act ω' ε γ} {f : δ → Act ω ε γ} :
    R m' m → (∀ d, R (f' d) (f d)) → R (m' >>= f') (m >>= f)

/-- All that two walks ask for is related. -/
structure Env.Related (R : ∀ {γ : Type}, Act ω' ε γ → Act ω ε γ → Prop) (env' : Env ω' ε α π κ τ β)
    (env : Env ω ε α π κ τ β) : Prop where
  next (k : κ) : R (env'.next k) (env.next k)
  control (path : π) (a : α) : R (env'.control path a) (env.control path a)
  truth (d : τ) : R (env'.truth d) (env.truth d)
  result (path : π) (a : α) : R (env'.result path a) (env.result path a)
  extend (path : π) (a : α) : R (env'.extend path a) (env.extend path a)
  restart (path : π) : R (env'.restart path) (env.restart path)
  children (path : π) (a : α) : R (env'.children path a) (env.children path a)
  policy (path : π) (a : α) (depth n : ℕ) : R (env'.policy path a depth n) (env.policy path a depth n)
  report (note : Note α β) : R (env'.report note) (env.report note)

namespace Env.Related

variable {env' : Env ω' ε α π κ τ β} {env : Env ω ε α π κ τ β}

theorem enter (h : Env.Related R env' env) (hR : Sequential R) (frame : Frame π κ) (outer : List (Frame π κ))
    (n : ℕ) (p : Pending α τ) : R (Walk.enter env' frame outer n p) (Walk.enter env frame outer n p) := by
  refine hR.bind (h.truth _) fun resets => ?_
  cases resets with
  | true => exact hR.bind (h.restart _) fun _ => hR.bind (h.children _ _) fun _ => hR.pure _
  | false => exact hR.bind (h.extend _ _) fun _ => hR.bind (h.children _ _) fun _ => hR.pure _

theorem answer (h : Env.Related R env' env) (hR : Sequential R) (frame : Frame π κ) (outer : List (Frame π κ))
    (n : ℕ) (p : Pending α τ) : R (Walk.answer env' frame outer n p) (Walk.answer env frame outer n p) := by
  refine hR.bind (h.report _) fun _ => hR.bind (h.policy _ _ _ _) fun resolution => ?_
  cases resolution with
  | descend => exact h.enter hR frame outer n p
  | advance => exact hR.bind (h.report _) fun _ => hR.pure _
  | cut => exact hR.bind (h.report _) fun _ => hR.pure _
  | substitute b => exact hR.bind (h.report _) fun _ => hR.pure _

theorem below (h : Env.Related R env' env) (hR : Sequential R) (limits : Limits) (frame : Frame π κ)
    (outer : List (Frame π κ)) (n : ℕ) (p : Pending α τ) :
    R (Walk.below env' limits frame outer n p) (Walk.below env limits frame outer n p) := by
  refine hR.bind (h.truth _) fun descends => ?_
  split
  · exact hR.pure _
  · dsimp only
    split
    · exact h.answer hR frame outer (n + 1) p
    · exact h.enter hR frame outer (n + 1) p

theorem visit (h : Env.Related R env' env) (hR : Sequential R) (frame : Frame π κ) (outer : List (Frame π κ))
    (n : ℕ) : R (Walk.visit env' frame outer n) (Walk.visit env frame outer n) := by
  obtain ⟨path, _ | k⟩ := frame
  · exact hR.pure _
  · refine hR.bind (h.next k) fun found => ?_
    rcases found with _ | ⟨a, rest⟩
    · exact hR.pure _
    · refine hR.bind (h.control path a) fun i => hR.bind (h.truth _) fun goesOn =>
        hR.bind (h.truth _) fun emits => ?_
      cases emits with
      | true => exact hR.bind (h.result path a) fun _ => hR.pure _
      | false => exact hR.pure _

/-- **A step does nothing but ask its environment**: the steps of two walks are related if all is that they ask
for. -/
theorem step (h : Env.Related R env' env) (hR : Sequential R) (limits : Limits) (s : Walk α π κ τ) :
    R (Walk.step env' limits s) (Walk.step env limits s) := by
  obtain ⟨levels, n, pending⟩ := s
  cases levels with
  | nil => exact hR.pure _
  | cons frame outer =>
      cases pending with
      | some p => exact h.below hR limits frame outer n p
      | none => exact h.visit hR frame outer n

end Env.Related

end Related

end Walk

namespace Machine

/-- An item is given in a run. -/
def Gives (m : Machine ω ε σ α) (consume : α → Act ω ε Unit) (s₀ : σ) (w₀ : ω) (a : α) : Prop :=
  ∃ s w t v, Reached m consume s₀ w₀ s w ∧ m s w = .ok (.give a t) v

/-- The items that are given in the first `n` steps of a run. -/
def given (m : Machine ω ε σ α) (consume : α → Act ω ε Unit) : ℕ → σ → ω → List α
  | 0, _, _ => []
  | n + 1, s, w =>
    match m s w with
    | .ok (.give a t) v =>
      a :: match consume a v with
        | .ok _ u => given m consume n t u
        | .error _ _ => []
    | .ok (.skip t) v => given m consume n t v
    | _ => []

/-- What is given in the first steps is given. -/
theorem gives_of_mem_given {m : Machine ω ε σ α} {consume : α → Act ω ε Unit} {s₀ s : σ} {w₀ w : ω}
    {n : ℕ} {a : α} (hr : Reached m consume s₀ w₀ s w) (ha : a ∈ given m consume n s w) :
    Gives m consume s₀ w₀ a := by
  induction n generalizing s w with
  | zero => cases ha
  | succ n ih =>
      rcases hs : m s w with ⟨r, v⟩ | ⟨e, v⟩
      · rw [given, hs] at ha
        cases r with
        | give b t =>
            rcases List.mem_cons.1 ha with rfl | ha
            · exact ⟨s, w, t, v, hr, hs⟩
            · rcases hc : consume b v with ⟨⟨⟩, u⟩ | ⟨e, u⟩
              · rw [hc] at ha
                exact ih (hr.give hs hc) ha
              · rw [hc] at ha
                cases ha
        | skip t => exact ih (hr.skip hs) ha
        | finish => cases ha
        | idle t => cases ha
        | fail e t => cases ha
      · rw [given, hs] at ha
        cases ha

/-- The state and the world in which a run stands after `n` steps. -/
def stands (m : Machine ω ε σ α) (consume : α → Act ω ε Unit) : ℕ → σ → ω → Option (σ × ω)
  | 0, s, w => some (s, w)
  | n + 1, s, w =>
    match m s w with
    | .ok (.give a t) v =>
      match consume a v with
      | .ok _ u => stands m consume n t u
      | .error _ _ => none
    | .ok (.skip t) v => stands m consume n t v
    | _ => none

/-- A run comes through the states in which it stands. -/
theorem reached_of_stands {m : Machine ω ε σ α} {consume : α → Act ω ε Unit} {s₀ s t : σ} {w₀ w v : ω}
    {n : ℕ} (hr : Reached m consume s₀ w₀ s w) (h : stands m consume n s w = some (t, v)) :
    Reached m consume s₀ w₀ t v := by
  induction n generalizing s w with
  | zero =>
      cases h
      exact hr
  | succ n ih =>
      rcases hs : m s w with ⟨r, v'⟩ | ⟨e, v'⟩
      · rw [stands, hs] at h
        cases r with
        | give a t' =>
            rcases hc : consume a v' with ⟨⟨⟩, u⟩ | ⟨e, u⟩
            · dsimp only at h
              rw [hc] at h
              exact ih (hr.give hs hc) h
            · dsimp only at h
              rw [hc] at h
              cases h
        | skip t' => exact ih (hr.skip hs) h
        | finish => cases h
        | idle t' => cases h
        | fail e t' => cases h
      · rw [stands, hs] at h
        cases h

/-- A step of a machine that keeps a part of its world to itself. -/
theorem step_of_beside {m : Machine (τ × ω) ε σ α} {x : σ × τ} {w v : ω} {r : Step (σ × τ) α ε}
    (h : m.beside x w = .ok r v) :
    ∃ r' t, m x.1 (x.2, w) = .ok r' (t, v) ∧ r = r'.map fun s => (s, t) := by
  unfold Machine.beside at h
  split at h
  · rename_i r' t v' hm
    cases h
    exact ⟨r', t, hm, rfl⟩
  · cases h

/-- **What every step keeps holds in a whole run**, whatever the consumer does to the world. -/
theorem Reached.beside_induction {m : Machine (τ × ω) ε σ α} {consume : α → Act ω ε Unit} {s₀ : σ}
    {t₀ : τ} {w₀ : ω} {P : σ → τ → ω → Prop} (hstart : P s₀ t₀ w₀)
    (hskip : ∀ {s t w s' t' v}, P s t w → m s (t, w) = .ok (.skip s') (t', v) → P s' t' v)
    (hgive : ∀ {s t w a s' t' v}, P s t w → m s (t, w) = .ok (.give a s') (t', v) → ∀ u, P s' t' u)
    {x : σ × τ} {w : ω} (h : Reached m.beside consume (s₀, t₀) w₀ x w) : P x.1 x.2 w := by
  induction h with
  | start => exact hstart
  | skip _ hs ih =>
      obtain ⟨r, t, hm, hr⟩ := step_of_beside hs
      cases r <;> cases hr
      exact hskip ih hm
  | give _ hs _ ih =>
      obtain ⟨r, t, hm, hr⟩ := step_of_beside hs
      cases r <;> cases hr
      exact hgive ih hm _

end Machine

end GraphRoutes
