/-
**Walks that give what they go below.**

The count of a walk begins anew at every result, and a step down adds one to it.  If a walk gives each
element before it goes below it, the count is one at every step down.  A ceiling above one is then out
of reach: the walk never asks its policy, reports nothing, and is the same walk whatever its ceiling,
its interval and its policy are.  A ceiling of one is reached at once.

The instruction of an element is read decision by decision, and each decision may look different in
another world.  So the condition on a walk speaks of all that its decisions may come to.

Main definitions:

* `GraphRoutes.Walk.Env.under` — a walk with another policy;
* `GraphRoutes.Walk.Fruitful` — **what is gone below was given before**;
* `GraphRoutes.Walk.Rested` — an element that may be gone below was given just now;
* `GraphRoutes.Walk.Unquestioned`, `GraphRoutes.Walk.Unasked` — a journal without a question to the
  policy, and a walk all of whose journals are so.

Main results:

* `GraphRoutes.Walk.Fruitful.rested_of_step`, `GraphRoutes.Walk.Rested.step_under` — what a step leaves
  behind, and that it does not depend on the policy;
* `GraphRoutes.Walk.Fruitful.drive_under` — **a fruitful walk is the same under any policy;**
* `GraphRoutes.Walk.Fruitful.unasked` — **a fruitful walk never asks.**
-/
import GraphRoutes.Proofs.Descent.Attempts

set_option relaxedAutoImplicit false
set_option autoImplicit false

namespace GraphRoutes

variable {ω ε α π κ τ β γ : Type}

/-- The first fruitless step is not due under a ceiling above one. -/
theorem Limits.due_one {limits : Limits} (h : 1 < limits.ceiling) : limits.due 1 = false := by
  refine Bool.eq_false_iff.2 fun hdue => ?_
  obtain ⟨j, hj⟩ := (limits.due_iff 1).1 hdue
  omega

namespace Walk

/-- The same walk with another policy, which reports to somebody else. -/
def Env.under (env : Env ω ε α π κ τ β) (policy : π → α → ℕ → ℕ → Act ω ε (Resolution β))
    (report : Note α β → Act ω ε Unit) : Env ω ε α π κ τ β :=
  { env with policy, report }

/-- **What is gone below was given before**: of an instruction that may say not to give its element,
none of the decisions to go below it holds. -/
def Fruitful (env : Env ω ε α π κ τ β) : Prop :=
  ∀ path a w i v, env.control path a w = .ok i v →
    (∀ u u', env.truth i.emit u ≠ .ok false u') ∨ ∀ u u', env.truth i.descend u ≠ .ok true u'

/-- An element that may be gone below was given just now. -/
def Rested (env : Env ω ε α π κ τ β) (s : Walk α π κ τ) : Prop :=
  ∀ p ∈ s.pending, (∃ u u', env.truth p.descend u = .ok true u') → s.fruitless = 0

/-- Whether the policy is asked. -/
def asksPolicy : Happening α π → Bool
  | .policy _ _ _ _ => true
  | _ => false

/-- The journal holds no question to the policy. -/
def Unquestioned (log : Journal α π) : Prop := ∀ e ∈ log, asksPolicy e = false

/-- The policy is not asked in any run, as far as it goes. -/
def Unasked (env : Env ω ε α π κ τ β) (limits : Limits) (consume : β → Act ω ε Unit) (path : π)
    (k : κ) (w₀ : ω) : Prop :=
  ∀ log, Kept env limits consume path k w₀ log → Unquestioned log

section Step

variable {env : Env ω ε α π κ τ β} {limits limits' : Limits} {s t : Walk α π κ τ} {w v : ω}

theorem rested_start (env : Env ω ε α π κ τ β) (path : π) (k : κ) :
    Rested env (start path k : Walk α π κ τ) := nofun

/-- **Behind every step** an element that may be gone below was given just now. -/
theorem Fruitful.rested_of_step (h : Fruitful env) {r : Step (Walk α π κ τ) β ε}
    (hstep : step env limits s w = .ok r v) (ht : r = .skip t ∨ ∃ b, r = .give b t) :
    Rested env t := by
  have hmove := move_of_step hstep
  rcases ht with rfl | ⟨b, rfl⟩
  · cases hmove with
    | pass hvisit =>
        obtain ⟨_, _, w₁, _, w₃, -, hcontrol, -, hemits, -⟩ := hvisit.exists_worlds
        rintro p ⟨⟩ ⟨u, u', hdescends⟩
        rcases h _ _ _ _ _ hcontrol with hgiven | hstays
        · exact absurd hemits (hgiven _ _)
        · exact absurd hdescends (hstays u u')
    | leave => nofun
    | exhaust _ => nofun
    | stay _ _ => nofun
    | enter _ _ _ _ => nofun
    | advance _ _ _ _ => nofun
    | cut _ _ _ _ => nofun
  · cases hmove with
    | give _ _ => exact fun _ _ _ => rfl
    | substitute _ _ _ _ => nofun

/-- **A step does not depend on the policy** where an element that may be gone below was given just
now: the step below it is the first one, which is not due. -/
theorem Rested.step_under (h : Rested env s) (hdepth : limits'.maxDepth = limits.maxDepth)
    (hceiling : 1 < limits.ceiling) (hceiling' : 1 < limits'.ceiling)
    (policy : π → α → ℕ → ℕ → Act ω ε (Resolution β)) (report : Note α β → Act ω ε Unit) :
    step (env.under policy report) limits' s = step env limits s := by
  obtain ⟨levels, n, pending⟩ := s
  cases levels with
  | nil => rfl
  | cons frame outer =>
      cases pending with
      | none => rfl
      | some p =>
          have hstops : limits'.stopsBelow outer = limits.stopsBelow outer := by
            rw [Limits.stopsBelow_eq, Limits.stopsBelow_eq, hdepth]
          funext w
          change below (env.under policy report) limits' frame outer n p w =
            below env limits frame outer n p w
          rcases hdescends : env.truth p.descend w with ⟨descends, v⟩ | ⟨e, v⟩
          · rw [below, below, Act.bind_of_ok hdescends,
              Act.bind_of_ok (m := (env.under policy report).truth p.descend) hdescends]
            cases descends with
            | false => rfl
            | true =>
                obtain rfl : n = 0 := h p rfl ⟨w, v, hdescends⟩
                simp only [hstops, Nat.zero_add, Limits.due_one hceiling, Limits.due_one hceiling',
                  Bool.false_eq_true, if_false]
                rfl
          · rw [below, below, Act.bind_of_error hdescends,
              Act.bind_of_error (m := (env.under policy report).truth p.descend) hdescends]

end Step

/-! ### The policy is not asked -/

section Journal

variable {env : Env ω ε α π κ τ β} {limits : Limits} {log : Journal α π}

theorem Unquestioned.cons {e : Happening α π} (h : Unquestioned log) (he : asksPolicy e = false) :
    Unquestioned (e :: log) := List.forall_mem_cons.2 ⟨he, h⟩

/-- A decision that is written down is the decision. -/
theorem truth_of_journaled {d : Decision α π τ} {holds : Bool} {u v : Journal α π × ω}
    (h : env.journaled.truth d u = .ok holds v) : env.truth d.value u.2 = .ok holds v.2 := by
  obtain ⟨holds', u', hholds, h⟩ := Act.bind_eq_ok_iff.1 h
  obtain ⟨htruth, -⟩ := Act.beside_eq_ok_iff.1 hholds
  obtain ⟨value, _ | descent⟩ := d
  · cases h
    exact htruth
  · cases holds' with
    | true =>
        obtain ⟨⟨⟩, w, hjot, h⟩ := Act.bind_eq_ok_iff.1 h
        cases hjot
        cases h
        exact htruth
    | false =>
        cases h
        exact htruth

theorem Fruitful.journaled (h : Fruitful env) : Fruitful env.journaled := by
  rintro path ⟨a, depth⟩ w i v hcontrol
  obtain ⟨i', w', hcontrol, hi⟩ := Act.bind_eq_ok_iff.1 hcontrol
  cases hi
  rcases h _ _ _ _ _ (Act.beside_eq_ok_iff.1 hcontrol).1 with hgiven | hstays
  · exact .inl fun u u' hemits => hgiven _ _ (truth_of_journaled hemits)
  · exact .inr fun u u' hdescends => hstays _ _ (truth_of_journaled hdescends)

/-- A decision writes down no question. -/
theorem unquestioned_truth (h : Unquestioned log) (d : Decision α π τ) :
    Writes Unquestioned log (env.journaled.truth d) fun _ => Unquestioned := by
  refine Writes.beside_bind h fun holds _ => ?_
  split
  · exact Writes.jot_bind (Writes.pure (h.cons rfl))
  · exact Writes.pure h

theorem unquestioned_enter (h : Unquestioned log) (frame : Frame π (κ × ℕ))
    (outer : List (Frame π (κ × ℕ))) (n : ℕ) (p : Pending (α × ℕ) (Decision α π τ)) :
    Writes Unquestioned log (enter env.journaled frame outer n p) fun _ => Unquestioned := by
  refine (unquestioned_truth h _).bind fun resets log' h' => ?_
  have opened : ∀ path : π, Writes Unquestioned log' (do
      let candidates ← env.journaled.children frame.path p.element
      let below : Frame π (κ × ℕ) := { path, candidates := some candidates }
      pure (Step.skip { levels := below :: frame :: outer, fruitless := n } :
        Step (Walk (α × ℕ) π (κ × ℕ) (Decision α π τ)) β ε)) fun _ => Unquestioned := by
    intro path
    rw [Env.journaled]
    simp only [bind_assoc]
    exact Writes.jot_bind (Writes.beside_bind (h'.cons rfl) fun _ _ => Writes.pure (h'.cons rfl))
  cases resets with
  | true => exact Writes.beside_bind h' fun path _ => opened path
  | false => exact Writes.beside_bind h' fun path _ => opened path

theorem unquestioned_visit (h : Unquestioned log) (frame : Frame π (κ × ℕ))
    (outer : List (Frame π (κ × ℕ))) (n : ℕ) :
    Writes Unquestioned log (visit env.journaled frame outer n)
      fun (_ : Step (Walk (α × ℕ) π (κ × ℕ) (Decision α π τ)) β ε) => Unquestioned := by
  obtain ⟨path, _ | k⟩ := frame
  · exact Writes.pure h
  · simp only [visit]
    rw [Env.journaled, bind_assoc]
    refine Writes.beside_bind h fun found _ => ?_
    rw [pure_bind]
    rcases found with _ | ⟨a, rest⟩
    · exact Writes.pure h
    · dsimp only [Option.map_some]
      rw [bind_assoc]
      refine Writes.beside_bind h fun i _ => ?_
      rw [pure_bind]
      refine (unquestioned_truth h _).bind fun goesOn log' h' =>
        (unquestioned_truth h' _).bind fun emits log' h' => ?_
      cases emits with
      | true => exact Writes.beside_bind h' fun b _ => Writes.pure h'
      | false => exact Writes.pure h'

/-- **A step writes down no question** where an element that may be gone below was given just now. -/
theorem Rested.unquestioned_step {t : Walk (α × ℕ) π (κ × ℕ) (Decision α π τ)}
    (ht : Rested env.journaled t) (hceiling : 1 < limits.ceiling) (h : Unquestioned log) :
    Writes Unquestioned log (step env.journaled limits t) fun _ => Unquestioned := by
  obtain ⟨levels, n, pending⟩ := t
  cases levels with
  | nil => exact Writes.pure h
  | cons frame outer =>
      cases pending with
      | none => exact unquestioned_visit h frame outer n
      | some p =>
          -- if the element is gone below, then at the first step
          have first : Writes Unquestioned log (env.journaled.truth p.descend)
              fun descends log' => Unquestioned log' ∧ (descends = true → n = 0) := by
            have decided : Writes Unquestioned log (env.journaled.truth p.descend)
                fun _ => Unquestioned := unquestioned_truth h p.descend
            intro w
            have hw := decided w
            rcases htruth : env.journaled.truth p.descend (log, w) with ⟨descends, v⟩ | ⟨e, v⟩
            · rw [htruth] at hw
              refine ⟨hw, ?_⟩
              rintro rfl
              exact ht p rfl ⟨_, _, htruth⟩
            · rw [htruth] at hw
              exact hw
          refine first.bind ?_
          rintro descends log' ⟨h', hfirst⟩
          cases descends with
          | false => exact Writes.pure h'
          | true =>
              obtain rfl : n = 0 := hfirst rfl
              simp only [Nat.zero_add, Limits.due_one hceiling, Bool.not_true, Bool.false_or,
                Bool.false_eq_true, if_false]
              split
              · exact Writes.pure h'
              · exact unquestioned_enter h' frame outer 1 p

end Journal

/-! ### Whole runs -/

section Runs

variable {env : Env ω ε α π κ τ β} {limits limits' : Limits} {consume : β → Act ω ε Unit}

/-- At every state of a run, an element that may be gone below was given just now. -/
theorem Fruitful.rested_of_reached (h : Fruitful env) {s₀ s : Walk α π κ τ} {w₀ w : ω}
    (hs₀ : Rested env s₀) (hr : Machine.Reached (step env limits) consume s₀ w₀ s w) :
    Rested env s := by
  cases hr with
  | start => exact hs₀
  | skip _ hs => exact h.rested_of_step hs (.inl rfl)
  | give _ hs _ => exact h.rested_of_step hs (.inr ⟨_, rfl⟩)

/-- **A fruitful walk is the same under any policy**, and under any ceiling above one and any
interval. -/
theorem Fruitful.drive_under (h : Fruitful env) (hdepth : limits'.maxDepth = limits.maxDepth)
    (hceiling : 1 < limits.ceiling) (hceiling' : 1 < limits'.ceiling)
    (policy : π → α → ℕ → ℕ → Act ω ε (Resolution β)) (report : Note α β → Act ω ε Unit)
    (consume : β → Act ω ε Unit) (path : π) (k : κ) :
    Machine.drive (step (env.under policy report) limits') consume (start path k) =
      Machine.drive (step env limits) consume (start path k) := by
  funext w
  refine Machine.drive_congr_of_reached fun s v hr => ?_
  have hrested : Rested env s := h.rested_of_reached (rested_start env path k) hr
  exact congrFun (hrested.step_under hdepth hceiling hceiling' policy report) v

/-- **A fruitful walk never asks its policy**, as far as its runs go, if its ceiling is above one. -/
theorem Fruitful.unasked (h : Fruitful env) (hceiling : 1 < limits.ceiling)
    (consume : β → Act ω ε Unit) (path : π) (k : κ) (w₀ : ω) :
    Unasked env limits consume path k w₀ := by
  have rested : ∀ {t w}, Machine.Reached (step env.journaled limits) (journaledConsume consume)
      (startJournaled path k) ([], w₀) t w → Rested env.journaled t :=
    fun hr => h.journaled.rested_of_reached (rested_start _ _ _) hr
  have reached : ∀ {t w}, Machine.Reached (step env.journaled limits) (journaledConsume consume)
      (startJournaled path k) ([], w₀) t w → Unquestioned w.1 := by
    intro t w hr
    induction hr with
    | start => exact fun _ he => absurd he List.not_mem_nil
    | @skip _ _ w _ hr hs ih =>
        have hw := (rested hr).unquestioned_step hceiling ih w.2
        rw [hs] at hw
        exact hw
    | @give _ _ w _ _ _ hr hs hc ih =>
        have hw := (rested hr).unquestioned_step hceiling ih w.2
        rw [hs] at hw
        rw [journal_of_consume hc]
        exact hw.cons rfl
  intro log hlog
  cases hlog with
  | reached hr => exact reached hr
  | @failed _ w _ _ hr hs =>
      have hw := (rested hr).unquestioned_step hceiling (reached hr) w.2
      rw [hs] at hw
      exact hw
  | @refused _ _ w _ _ _ _ hr hs hc =>
      have hw := (rested hr).unquestioned_step hceiling (reached hr) w.2
      rw [hs] at hw
      rw [journal_of_refusal hc]
      exact hw.cons rfl

end Runs

end Walk

end GraphRoutes
