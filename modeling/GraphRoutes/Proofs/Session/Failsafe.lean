/-
**The failsafe leaves alone what gives all that it visits.**

A search for everything gives each element before it goes below it, and so does a descent under the
default control, which answers every element with the instruction to give it and to go on.  Such walks are
fruitful: two tunings with the same depth, and with ceilings above one, make the same search of them, and
the policy of neither is ever asked.  The functions of the program that are called meanwhile may do anything.

Under a ceiling of one the policy is asked at the first step below each element, however much is given.

Main definitions:

* `GraphRoutes.Session.SearchPlan.NeverAsks`, `GraphRoutes.Session.DescentPlan.NeverAsks` — no run asks the
  policy.

Main results:

* `GraphRoutes.Search.fruitful_env`, `GraphRoutes.Session.DescentPlan.fruitful_env` — what gives all that it
  goes below;
* `GraphRoutes.Session.failsafe_silent` — **the failsafe changes nothing**.
-/
import GraphRoutes.Proofs.Descent.Fruitful
import GraphRoutes.Proofs.Session.Layers

set_option relaxedAutoImplicit false
set_option autoImplicit false

namespace GraphRoutes

variable {ω ε α κ β key : Type}

/-- A search for everything gives all that it goes below. -/
theorem Search.fruitful_env [DecidableEq key] (host : Search.Host ω ε α κ β key)
    (plan : Search.Plan ω ε α) (hscope : plan.scope = .everything) :
    Walk.Fruitful (Search.env host plan) := by
  intro t a w i v hcontrol
  have hgiven : i = Preset.emitAndContinue.instruction := by
    simp only [env, control, hscope] at hcontrol
    cases hcontrol
    rfl
  subst hgiven
  left
  rintro u u' ⟨⟩

namespace Session

open Course

/-- No run of a search asks the policy of its tuning. -/
def SearchPlan.NeverAsks (h : Host) (plan : SearchPlan) (t : Tuning) (consume : Value → M Unit)
    (mark : Mark) (k : Value) (w : World) : Prop :=
  Walk.Unasked (Search.env (plan.host h t.policy) (plan.plan h)) t.limits
    (fun v => Act.beside (consume v)) { kind := (plan.plan h).trailKind, mark } { rest := k } (none, w)

/-- No run of a descent asks the policy of its tuning. -/
def DescentPlan.NeverAsks (h : Host) (plan : DescentPlan) (t : Tuning) (consume : Value → M Unit)
    (path k : Value) (w : World) : Prop :=
  Walk.Unasked (plan.env h t.policy) t.limits consume path k w

variable {h : Host}

/-- The default control answers every element with the instruction to give it and to go on. -/
theorem apply_defaultControl {path x v : Value} {w u : World}
    (happly : h.above.apply (.op .defaultControl) [path, x] w = .ok v u) :
    v = .ofPreset .emitAndContinue := by
  obtain ⟨args, w₁, hargs, hcall⟩ := Act.bind_eq_ok_iff.1 happly
  obtain ⟨a, b, rfl⟩ : ∃ a b, args = [a, b] := by
    simp only [List.mapM_cons, List.mapM_nil] at hargs
    obtain ⟨a, _, -, hargs⟩ := Act.bind_eq_ok_iff.1 hargs
    obtain ⟨rest, _, hrest, hargs⟩ := Act.bind_eq_ok_iff.1 hargs
    obtain ⟨b, _, -, hrest⟩ := Act.bind_eq_ok_iff.1 hrest
    cases hrest
    cases hargs
    exact ⟨a, b, rfl⟩
  have hperform : h.perform .defaultControl { bound := [some a, some b], extra := [] } w₁ =
      .ok (.ofPreset .emitAndContinue) w₁ := rfl
  cases (callOp_of_ok rfl hperform).symm.trans hcall
  rfl

/-- A descent under the default control gives all that it goes below. -/
theorem DescentPlan.fruitful_env (plan : DescentPlan) (hcontrol : plan.control = .op .defaultControl)
    (policy : Value) : Walk.Fruitful (plan.env h.above policy) := by
  intro path x w i v hi
  obtain ⟨answer, w₁, hanswer, hi⟩ := Act.bind_eq_ok_iff.1 hi
  rw [hcontrol] at hanswer
  rw [apply_defaultControl hanswer] at hi
  cases hi
  left
  rintro u u' ⟨⟩

/-- **The failsafe changes nothing** in a search for everything, with cycles cut or not and giving paths or
elements, nor in a descent under the default control.  Of two tunings with one depth and with ceilings above
one, both give the same items to any consumer, do the same to the world, and ask their policies nothing. -/
theorem failsafe_silent (h : Host) {t t' : Tuning} (hdepth : t'.limits.maxDepth = t.limits.maxDepth)
    (ht : 1 < t.limits.ceiling) (ht' : 1 < t'.limits.ceiling) (consume : Value → M Unit) :
    (∀ plan : SearchPlan, plan.shape.scope = .everything → ∀ mark k,
      Machine.drive (plan.step h t') consume (Search.start (plan.plan h) mark k) =
        Machine.drive (plan.step h t) consume (Search.start (plan.plan h) mark k) ∧
      ∀ w, plan.NeverAsks h t consume mark k w ∧ plan.NeverAsks h t' consume mark k w) ∧
    (∀ plan : DescentPlan, plan.control = .op .defaultControl → ∀ path k,
      Machine.drive (plan.step h.above t') consume (Walk.start path k) =
        Machine.drive (plan.step h.above t) consume (Walk.start path k) ∧
      ∀ w, plan.NeverAsks h.above t consume path k w ∧ plan.NeverAsks h.above t' consume path k w) := by
  refine ⟨fun plan hscope mark k => ⟨?_, fun w => ⟨?_, ?_⟩⟩,
    fun plan hcontrol path k => ⟨?_, fun w => ⟨?_, ?_⟩⟩⟩
  · have hfruitful := Search.fruitful_env (plan.host h t.policy) (plan.plan h) hscope
    rw [SearchPlan.step, SearchPlan.step, Search.step, Search.step, Search.start,
      Machine.drive_beside, Machine.drive_beside]
    rw [← hfruitful.drive_under hdepth ht ht'
      (Search.env (plan.host h t'.policy) (plan.plan h)).policy
      (Search.env (plan.host h t'.policy) (plan.plan h)).report]
    rfl
  · exact (Search.fruitful_env _ _ hscope).unasked ht _ _ _ _
  · exact (Search.fruitful_env _ _ hscope).unasked ht' _ _ _ _
  · exact (plan.fruitful_env hcontrol t.policy).drive_under hdepth ht ht' (askPolicy h.above t'.policy)
      (reportNote id) consume path k
  · exact (plan.fruitful_env hcontrol t.policy).unasked ht consume path k w
  · exact (plan.fruitful_env hcontrol t'.policy).unasked ht' consume path k w

/-- A route of two numbers, and a function that answers every call with a third. -/
def threeNumbers : World where
  functions := #[.constant (.tuple [.int 3] none)]
  cursors := #[.items .tuple [.int 1, .int 2]]

/-- A search for everything below the two numbers. -/
def everyNumber : SearchPlan := { shape := { scope := .everything }, children := .ref .function 0 }

/-- One step below the numbers of the route, two tunings have the same four visits, though the one would cut
at every second step without a result, and the other would fail at the third. -/
theorem failsafe_silent_numbers :
    let t : Tuning := { limits := { ceiling := 2, interval := 1, maxDepth := some 1 }, policy := .op .cutNoResults }
    let t' : Tuning := { limits := { ceiling := 3, interval := 7, maxDepth := some 1 }, policy := .op .raiseNoResults }
    let start := Search.start (everyNumber.plan (host 9)) none (.ref .iterator 0)
    let consume : Value → M Unit := fun _ => pure ()
    t'.limits.maxDepth = t.limits.maxDepth ∧ 1 < t.limits.ceiling ∧ 1 < t'.limits.ceiling ∧
      everyNumber.shape.scope = .everything ∧
      (Machine.given (everyNumber.step (host 9) t) consume 20 start threeNumbers).map Value.int? =
        [some 1, some 3, some 2, some 3] ∧
      Machine.drive (everyNumber.step (host 9) t') consume start =
        Machine.drive (everyNumber.step (host 9) t) consume start ∧
      ∀ w, everyNumber.NeverAsks (host 9) t consume none (.ref .iterator 0) w ∧
        everyNumber.NeverAsks (host 9) t' consume none (.ref .iterator 0) w := by
  intro t t' start consume
  refine ⟨rfl, by decide, by decide, rfl, by decide +kernel, ?_⟩
  obtain ⟨hsearch, -⟩ := @failsafe_silent (host 9) t t' rfl (by decide) (by decide) consume
  exact hsearch everyNumber rfl none (.ref .iterator 0)

/-- Under a ceiling of one the search for everything is cut short below the first number, and a consumer
who refuses the second does not hear of it. -/
theorem not_failsafe_silent_at_once :
    let start := Search.start (everyNumber.plan (host 9)) none (.ref .iterator 0)
    ¬ ∀ t t' : Tuning, t'.limits.maxDepth = t.limits.maxDepth → ∀ consume,
      Machine.drive (everyNumber.step (host 9) t') consume start threeNumbers =
        Machine.drive (everyNumber.step (host 9) t) consume start threeNumbers := by
  intro start h
  let t : Tuning := { limits := { maxDepth := some 1 }, policy := .op .cutNoResults }
  let t' : Tuning := { limits := { ceiling := 1, maxDepth := some 1 }, policy := .op .cutNoResults }
  let refuseSecond (v : Value) : M Unit := if v.int? = some 2 then throw .wrongType else pure ()
  let fails : EStateM.Result Fault World Unit → Bool
    | .ok _ _ => false
    | .error _ _ => true
  let run (t : Tuning) := unfold (Machine.driveStep (everyNumber.step (host 9) t) refuseSecond) 20 start
    threeNumbers
  have heard : (run t).map fails = some true := by decide +kernel
  have unheard : (run t').map fails = some false := by decide +kernel
  obtain ⟨r, hr, hfails⟩ := Option.map_eq_some_iff.1 heard
  obtain ⟨r', hr', hends⟩ := Option.map_eq_some_iff.1 unheard
  have same := h t t' rfl refuseSecond
  rw [(Machine.drive_eq_some_iff _ _).2 ⟨20, hr⟩, (Machine.drive_eq_some_iff _ _).2 ⟨20, hr'⟩] at same
  cases same
  rw [hfails] at hends
  cases hends

end Session

end GraphRoutes
