/-
**The journal of a walk.**

When a walk asks its policy, and what it tells it, depends on what has happened before.  A journal
writes down what counts for that: that an element is to be gone below, that the policy is asked, that
children are asked for, and that a result is given.

The walk itself knows its count and its number of levels.  The journal must not take them from there,
so candidates and elements carry their depth on them: what the route gives stands at depth zero, and
the children of an element one step below it.  The decision to go below an element carries the visit
that it is about, and is written down when it is read and holds.

What is carried makes no difference.  A walk with a journal takes the steps of the walk without it,
so every run has a journal (`GraphRoutes.Walk.exists_journal`).

Main definitions:

* `GraphRoutes.Walk.Happening`, `GraphRoutes.Walk.Journal` — what is written down, newest first;
* `GraphRoutes.Walk.Env.journaled`, `GraphRoutes.Walk.startJournaled` — a walk with a journal;
* `GraphRoutes.Walk.plain` — the state of the walk without it.

Main results:

* `GraphRoutes.Walk.step_journaled` — **the journal makes no difference to a step;**
* `GraphRoutes.Walk.exists_journal` — every run has a journal.
-/
import GraphRoutes.Proofs.Drive
import GraphRoutes.Descent.Walk

set_option relaxedAutoImplicit false
set_option autoImplicit false

namespace GraphRoutes

variable {ω ε α α' π κ τ β γ δ : Type}

/-- The same report about another element. -/
def Note.mapElement (f : α → α') : Note α β → Note α' β
  | checkpoint n a => .checkpoint n (f a)
  | abandoned n depth a => .abandoned n depth (f a)
  | abandonedWithSiblings n depth a => .abandonedWithSiblings n depth (f a)
  | substituted n a b => .substituted n (f a) b

/-- A level without what its candidates carry. -/
def Frame.plain (f : Frame π (κ × ℕ)) : Frame π κ :=
  { path := f.path, candidates := f.candidates.map Prod.fst }

namespace Walk

open Course

/-- What happens in a walk between two results, and the results. -/
inductive Happening (α π : Type) where
  /-- The instruction for an element says to go below it. -/
  | descends (path : π) (element : α) (depth : ℕ)
  | policy (path : π) (element : α) (depth fruitless : ℕ)
  | children (path : π) (element : α) (depth : ℕ)
  | give

/-- What has happened, newest first. -/
abbrev Journal (α π : Type) : Type := List (Happening α π)

/-- A decision, and the visit that it is about if it is the one to go below. -/
structure Decision (α π τ : Type) where
  value : τ
  descent : Option (π × α × ℕ) := none

/-- The decisions about the element `a` at a depth. -/
def decisions (path : π) (a : α) (depth : ℕ) (i : Instruction τ) : Instruction (Decision α π τ) where
  emit := { value := i.emit }
  descend := { value := i.descend, descent := some (path, a, depth) }
  continueSiblings := { value := i.continueSiblings }
  resetPath := { value := i.resetPath }

/-- Writes down what happens. -/
def jot (e : Happening α π) : Act (Journal α π × ω) ε Unit := Cell.beside.modify (e :: ·)

/-- A walk with a journal, over elements and candidates that carry their depth. -/
def Env.journaled (env : Env ω ε α π κ τ β) :
    Env (Journal α π × ω) ε (α × ℕ) π (κ × ℕ) (Decision α π τ) β where
  next k := do
    let found ← Act.beside (env.next k.1)
    pure (found.map fun x => ((x.1, k.2), (x.2, k.2)))
  control path a := do
    let i ← Act.beside (env.control path a.1)
    pure (decisions path a.1 a.2 i)
  truth d := do
    let holds ← Act.beside (env.truth d.value)
    match d.descent, holds with
    | some (path, a, depth), true => do
      jot (.descends path a depth)
      pure true
    | _, holds => pure holds
  result path a := Act.beside (env.result path a.1)
  extend path a := Act.beside (env.extend path a.1)
  restart path := Act.beside (env.restart path)
  children path a := do
    jot (.children path a.1 a.2)
    let k ← Act.beside (env.children path a.1)
    pure (k, a.2 + 1)
  policy path a depth n := do
    jot (.policy path a.1 depth n)
    Act.beside (env.policy path a.1 depth n)
  report note := Act.beside (env.report (note.mapElement Prod.fst))

/-- A consumer whose results are written down. -/
def journaledConsume (consume : β → Act ω ε Unit) (b : β) : Act (Journal α π × ω) ε Unit := do
  jot .give
  Act.beside (consume b)

/-- A walk with a journal, over candidates below a path. -/
def startJournaled (path : π) (k : κ) : Walk (α × ℕ) π (κ × ℕ) (Decision α π τ) := start path (k, 0)

/-- An element that is still to be gone below, without what it carries. -/
def Decision.plain (p : Pending (α × ℕ) (Decision α π τ)) : Pending α τ :=
  { element := p.element.1, descend := p.descend.value, resetPath := p.resetPath.value }

/-- The state of a walk without what its parts carry. -/
def plain (s : Walk (α × ℕ) π (κ × ℕ) (Decision α π τ)) : Walk α π κ τ where
  levels := s.levels.map Frame.plain
  fruitless := s.fruitless
  pending := s.pending.map Decision.plain

/-! ### The journal makes no difference -/

section Plain

variable (env : Env ω ε α π κ τ β) (limits : Limits)

@[simp] theorem carry_jot (log : Journal α π) (e : Happening α π) :
    carry log (act (jot e : Act (Journal α π × ω) ε Unit)) = pure ((), e :: log) := rfl

theorem next_journaled (log : Journal α π) (k : κ × ℕ) :
    Alike (fun x found => x = (found.map fun y => ((y.1, k.2), (y.2, k.2)), log))
      (carry log (act (env.journaled.next k))) (act (env.next k.1)) := by
  simp only [Env.journaled, act_bind, carry_bind, carry_act_beside, bind_assoc, pure_bind, act_pure,
    carry_pure]
  rw [← bind_pure (act (env.next k.1)), bind_assoc]
  exact Alike.bind_same _ fun _ => Alike.pure rfl

theorem control_journaled (log : Journal α π) (path : π) (a : α × ℕ) :
    Alike (fun x i => x = (decisions path a.1 a.2 i, log))
      (carry log (act (env.journaled.control path a))) (act (env.control path a.1)) := by
  simp only [Env.journaled, act_bind, carry_bind, carry_act_beside, bind_assoc, pure_bind, act_pure,
    carry_pure]
  rw [← bind_pure (act (env.control path a.1)), bind_assoc]
  exact Alike.bind_same _ fun _ => Alike.pure rfl

theorem truth_journaled (log : Journal α π) (d : Decision α π τ) :
    Alike (fun x holds => x.1 = holds) (carry log (act (env.journaled.truth d)))
      (act (env.truth d.value)) := by
  simp only [Env.journaled, act_bind, carry_bind, carry_act_beside, bind_assoc, pure_bind]
  rw [← bind_pure (act (env.truth d.value)), bind_assoc]
  refine Alike.bind_same _ fun holds => ?_
  rw [pure_bind]
  split
  · simp only [act_bind, carry_bind, carry_jot, pure_bind, act_pure, carry_pure]
    exact Alike.pure rfl
  · simp only [act_pure, carry_pure]
    exact Alike.pure rfl

theorem children_journaled (log : Journal α π) (path : π) (a : α × ℕ) :
    Alike (fun x k => x.1 = (k, a.2 + 1)) (carry log (act (env.journaled.children path a)))
      (act (env.children path a.1)) := by
  simp only [Env.journaled, act_bind, carry_bind, carry_jot, carry_act_beside, bind_assoc, pure_bind,
    act_pure, carry_pure]
  rw [← bind_pure (act (env.children path a.1)), bind_assoc]
  exact Alike.bind_same _ fun _ => Alike.pure rfl

theorem policy_journaled (log : Journal α π) (path : π) (a : α × ℕ) (depth n : ℕ) :
    Alike (fun x r => x.1 = r) (carry log (act (env.journaled.policy path a depth n)))
      (act (env.policy path a.1 depth n)) := by
  simp only [Env.journaled, act_bind, carry_bind, carry_jot, carry_act_beside, pure_bind]
  rw [← bind_pure (act (env.policy path a.1 depth n)), bind_assoc]
  exact Alike.bind_same _ fun _ => Alike.pure rfl

theorem result_journaled (log : Journal α π) (path : π) (a : α × ℕ) :
    carry log (act (env.journaled.result path a)) =
      act (env.result path a.1) >>= fun b => pure (b, log) := carry_act_beside log _

theorem extend_journaled (log : Journal α π) (path : π) (a : α × ℕ) :
    carry log (act (env.journaled.extend path a)) =
      act (env.extend path a.1) >>= fun path => pure (path, log) := carry_act_beside log _

theorem restart_journaled (log : Journal α π) (path : π) :
    carry log (act (env.journaled.restart path)) =
      act (env.restart path) >>= fun path => pure (path, log) := carry_act_beside log _

theorem report_journaled (log : Journal α π) (note : Note (α × ℕ) β) :
    carry log (act (env.journaled.report note)) =
      act (env.report (note.mapElement Prod.fst)) >>= fun _ => pure ((), log) :=
  carry_act_beside log _

/-- Two steps that differ in what is carried. -/
def SameStep (x : Step (Walk (α × ℕ) π (κ × ℕ) (Decision α π τ)) β ε × Journal α π)
    (r : Step (Walk α π κ τ) β ε) : Prop :=
  x.1.map plain = r

theorem SameStep.pure {log : Journal α π} {r : Step (Walk (α × ℕ) π (κ × ℕ) (Decision α π τ)) β ε}
    {r' : Step (Walk α π κ τ) β ε} (h : r.map plain = r') :
    Alike SameStep (carry log (act (pure r : Act (Journal α π × ω) ε _)))
      (act (pure r' : Act ω ε _)) := by
  rw [act_pure, carry_pure]
  exact Alike.pure h

variable (frame : Frame π (κ × ℕ)) (outer : List (Frame π (κ × ℕ))) (n : ℕ)
  (p : Pending (α × ℕ) (Decision α π τ))

theorem enter_journaled (log : Journal α π) :
    Alike SameStep (carry log (act (enter env.journaled frame outer n p)))
      (act (enter env frame.plain (outer.map Frame.plain) n (Decision.plain p))) := by
  simp only [enter, act_bind, carry_bind]
  refine (truth_journaled env log p.resetPath).bind ?_
  rintro ⟨resets, log⟩ _ rfl
  cases resets with
  | true =>
      simp only [if_true, act_bind, carry_bind, restart_journaled, bind_assoc, pure_bind]
      refine Alike.bind_same _ fun path => (children_journaled env log frame.path p.element).bind ?_
      rintro ⟨_, log⟩ k rfl
      exact SameStep.pure rfl
  | false =>
      simp only [Bool.false_eq_true, if_false, act_bind, carry_bind, extend_journaled, bind_assoc,
        pure_bind]
      refine Alike.bind_same _ fun path => (children_journaled env log frame.path p.element).bind ?_
      rintro ⟨_, log⟩ k rfl
      exact SameStep.pure rfl

theorem answer_journaled (log : Journal α π) :
    Alike SameStep (carry log (act (answer env.journaled frame outer n p)))
      (act (answer env frame.plain (outer.map Frame.plain) n (Decision.plain p))) := by
  simp only [answer, act_bind, carry_bind, report_journaled, bind_assoc, pure_bind, List.length_map]
  refine Alike.bind_same _ fun _ =>
    (policy_journaled env log frame.path p.element outer.length n).bind ?_
  rintro ⟨resolution, log⟩ _ rfl
  cases resolution with
  | descend => exact enter_journaled env frame outer n p log
  | advance =>
      simp only [act_bind, carry_bind, report_journaled, bind_assoc, pure_bind]
      exact Alike.bind_same _ fun _ => SameStep.pure rfl
  | cut =>
      simp only [act_bind, carry_bind, report_journaled, bind_assoc, pure_bind]
      exact Alike.bind_same _ fun _ => SameStep.pure rfl
  | substitute b =>
      simp only [act_bind, carry_bind, report_journaled, bind_assoc, pure_bind]
      exact Alike.bind_same _ fun _ => SameStep.pure rfl

theorem below_journaled (log : Journal α π) :
    Alike SameStep (carry log (act (below env.journaled limits frame outer n p)))
      (act (below env limits frame.plain (outer.map Frame.plain) n (Decision.plain p))) := by
  simp only [below, act_bind, carry_bind, Limits.stopsBelow_eq, List.length_map]
  refine (truth_journaled env log p.descend).bind ?_
  rintro ⟨descends, log⟩ _ rfl
  dsimp only
  split
  · exact SameStep.pure rfl
  · split
    · exact answer_journaled env frame outer (n + 1) p log
    · exact enter_journaled env frame outer (n + 1) p log

theorem visit_journaled (log : Journal α π) :
    Alike SameStep (carry log (act (visit env.journaled frame outer n)))
      (act (visit env frame.plain (outer.map Frame.plain) n)) := by
  obtain ⟨path, _ | k⟩ := frame
  · exact SameStep.pure rfl
  · simp only [visit, Frame.plain, Option.map_some, act_bind, carry_bind]
    refine (next_journaled env log k).bind ?_
    rintro _ found rfl
    rcases found with _ | ⟨a, rest⟩
    · exact SameStep.pure rfl
    · simp only [Option.map_some, act_bind, carry_bind]
      refine (control_journaled env log path (a, k.2)).bind ?_
      rintro _ i rfl
      refine (truth_journaled env log _).bind ?_
      rintro ⟨goesOn, log⟩ _ rfl
      refine (truth_journaled env log _).bind ?_
      rintro ⟨emits, log⟩ _ rfl
      cases emits with
      | true =>
          simp only [if_true, act_bind, carry_bind, result_journaled, bind_assoc, pure_bind]
          refine Alike.bind_same _ fun b => ?_
          cases goesOn with
          | true => exact SameStep.pure rfl
          | false => exact SameStep.pure rfl
      | false =>
          cases goesOn with
          | true => exact SameStep.pure rfl
          | false => exact SameStep.pure rfl

/-- **The journal makes no difference to a step.** -/
theorem step_journaled (s : Walk (α × ℕ) π (κ × ℕ) (Decision α π τ)) (log : Journal α π) :
    Alike SameStep (carry log (act (step env.journaled limits s))) (act (step env limits s.plain)) := by
  obtain ⟨levels, n, pending⟩ := s
  cases levels with
  | nil => exact SameStep.pure rfl
  | cons frame outer =>
      cases pending with
      | some p => exact below_journaled env limits frame outer n p log
      | none => exact visit_journaled env frame outer n log

end Plain

section Runs

variable {env : Env ω ε α π κ τ β} {limits : Limits} {consume : β → Act ω ε Unit} {w v : ω}

/-- A step of the walk is one of the walk with a journal. -/
theorem exists_step_journaled {s : Walk (α × ℕ) π (κ × ℕ) (Decision α π τ)}
    {r : Step (Walk α π κ τ) β ε} (log : Journal α π) (h : step env limits s.plain w = .ok r v) :
    ∃ r' log', step env.journaled limits s (log, w) = .ok r' (log', v) ∧ r'.map plain = r := by
  have same := step_journaled env limits s log w
  simp only [carry, act, h] at same
  rcases hs : step env.journaled limits s (log, w) with ⟨r', log', v'⟩ | ⟨e, v'⟩
  · rw [hs] at same
    cases same with
    | ok _ hr => exact ⟨r', log', rfl, hr⟩
  · rw [hs] at same
    cases same

/-- **Every run has a journal.** -/
theorem exists_journal {path : π} {k : κ} {w₀ : ω} {s : Walk α π κ τ}
    (h : Machine.Reached (step env limits) consume (start path k) w₀ s w) :
    ∃ t log, Machine.Reached (step env.journaled limits) (journaledConsume consume)
      (startJournaled path k) ([], w₀) t (log, w) ∧ t.plain = s := by
  induction h with
  | start => exact ⟨startJournaled path k, [], .start, rfl⟩
  | skip _ hs ih =>
      obtain ⟨t, log, hr, rfl⟩ := ih
      obtain ⟨r, log', ht, hsame⟩ := exists_step_journaled log hs
      cases r <;> cases hsame
      exact ⟨_, log', hr.skip ht, rfl⟩
  | give _ hs hc ih =>
      obtain ⟨t, log, hr, rfl⟩ := ih
      obtain ⟨r, log', ht, hsame⟩ := exists_step_journaled log hs
      cases r <;> cases hsame
      refine ⟨_, .give :: log', hr.give ht ?_, rfl⟩
      exact Act.bind_eq_ok_iff.2 ⟨(), (.give :: log', _), rfl, Act.beside_eq_ok_iff.2 ⟨hc, rfl⟩⟩

end Runs

end Walk

end GraphRoutes
