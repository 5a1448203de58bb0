/-
**Drives: a consumer takes all that a lazy sequence gives.**

A lazy sequence does nothing between two pulls, but its consumer may: it may read the very sources
that the sequence reads, and it may stop for good.  A drive is the whole of such a consumption.  The
consumer is an arbitrary action on each item, which ends the drive by failing.  Two sequences whose
drives agree for every consumer give the same items in the same order, and do the same to the world
before each of them.

Main definitions:

* `GraphRoutes.Machine.drive` — a consumer that takes the items of a sequence one by one;
* `GraphRoutes.Machine.Reached` — the states through which a drive comes;
* `GraphRoutes.Machine.passesThrough` — whether all of them pass a test, where the drive is short.

Main results:

* `GraphRoutes.Machine.drive_eq`, `GraphRoutes.Machine.drive_le` — one step of a drive, and what
  lies above a drive;
* `GraphRoutes.Machine.exists_drive_eq_some` — a drive with a measure comes to an end;
* `GraphRoutes.Machine.drive_beside` — a machine that keeps a part of its world to itself;
* `GraphRoutes.Machine.drive_congr_of_reached` — only the steps at reached states count.
-/
import GraphRoutes.Proofs.Course
import GraphRoutes.Route.Turn

set_option relaxedAutoImplicit false
set_option autoImplicit false

namespace GraphRoutes.Machine

open Course

variable {ω ε σ τ α : Type}

/-! ### One step -/

/-- What follows a step: an item is taken before the sequence goes on. -/
def after (consume : α → Act ω ε Unit) (next : σ → Course ω ε Unit) :
    Step σ α ε → Course ω ε Unit
  | .give a s => do
    act (consume a)
    next s
  | .skip s => next s
  | .finish => pure ()
  | .idle _ => pure ()
  | .fail e _ => act (throw e)

/-- One step of a drive, and what follows it. -/
def driveStep (m : Machine ω ε σ α) (consume : α → Act ω ε Unit) (next : σ → Course ω ε Unit)
    (s : σ) : Course ω ε Unit :=
  act (m s) >>= after consume next

/-- **A drive**: the items of a sequence are taken one by one, to its end. -/
noncomputable def drive (m : Machine ω ε σ α) (consume : α → Act ω ε Unit) : σ → Course ω ε Unit :=
  fix (driveStep m consume)

section

variable (m : Machine ω ε σ α) (consume : α → Act ω ε Unit)

theorem finitary_driveStep (s : σ) : Finitary fun f => driveStep m consume f s := by
  refine Finitary.bind (Finitary.const _) fun r => ?_
  cases r with
  | give a s => exact Finitary.bind (Finitary.const _) fun _ => Finitary.call s
  | skip s => exact Finitary.call s
  | finish => exact Finitary.const _
  | idle s => exact Finitary.const _
  | fail e s => exact Finitary.const _

theorem monotone_driveStep : Monotone (driveStep m consume) :=
  fun _ _ h s => (finitary_driveStep m consume s).mono h

/-- A drive takes a step, and goes on from there. -/
theorem drive_eq (s : σ) : drive m consume s = act (m s) >>= after consume (drive m consume) :=
  congrFun (fix_eq (finitary_driveStep m consume)) s

/-- Whatever is closed under steps lies above the drive. -/
theorem drive_le {G : σ → Course ω ε Unit} (h : ∀ s, driveStep m consume G s ≤ G s) (s : σ) :
    drive m consume s ≤ G s :=
  fix_le (monotone_driveStep m consume) h s

/-- A drive comes to an outcome if some number of steps does. -/
theorem drive_eq_some_iff {s : σ} {w : ω} {r : EStateM.Result ε ω Unit} :
    drive m consume s w = some r ↔ ∃ n, unfold (driveStep m consume) n s w = some r :=
  fix_eq_some_iff (monotone_driveStep m consume)

end

/-- A drive comes to an end if every step that does not end it makes a measure smaller. -/
theorem exists_drive_eq_some {γ : Type} [Preorder γ] [WellFoundedLT γ] (m : Machine ω ε σ α)
    (consume : α → Act ω ε Unit) (measure : σ → ω → γ)
    (hskip : ∀ s w t v, m s w = .ok (.skip t) v → measure t v < measure s w)
    (hgive : ∀ s w a t v u, m s w = .ok (.give a t) v → consume a v = .ok () u →
      measure t u < measure s w) (s : σ) (w : ω) : ∃ r, drive m consume s w = some r := by
  induction h : measure s w using WellFoundedLT.induction generalizing s w with
  | ind k ih =>
      subst h
      rw [drive_eq]
      rcases hs : m s w with ⟨r, v⟩ | ⟨e, v⟩
      · rw [act_bind_of_ok hs]
        cases r with
        | give a t =>
            change ∃ r, (act (consume a) >>= fun _ => _) v = some r
            rcases hc : consume a v with ⟨⟨⟩, u⟩ | ⟨e, u⟩
            · rw [act_bind_of_ok hc]
              exact ih _ (hgive s w a t v u hs hc) t u rfl
            · rw [act_bind_of_error hc]
              exact ⟨_, rfl⟩
        | skip t => exact ih _ (hskip s w t v hs) t v rfl
        | finish => exact ⟨_, rfl⟩
        | idle t => exact ⟨_, rfl⟩
        | fail e t => exact ⟨_, rfl⟩
      · rw [act_bind_of_error hs]
        exact ⟨_, rfl⟩

/-! ### A part of the world kept apart -/

/-- A step beside the world is the step on the world with that part carried along. -/
theorem act_beside_alike (m : Machine (τ × ω) ε σ α) (s : σ) (t : τ) :
    Alike (fun r x => r = x.1.map fun s => (s, x.2)) (act (m.beside (s, t)))
      (carry t (act (m s))) := by
  intro w
  rcases h : m s (t, w) with ⟨r, v⟩ | ⟨e, v⟩
  · simp only [act, carry, Machine.beside, h]
    exact Matches.ok v.2 rfl
  · simp only [act, carry, Machine.beside, h]
    exact Matches.error e v.2

/-- **A machine that keeps a part of its world to itself** is driven as the machine on that world,
by a consumer who leaves the part alone. -/
theorem drive_beside (m : Machine (τ × ω) ε σ α) (consume : α → Act ω ε Unit) (s : σ) (t : τ) :
    drive m.beside consume (s, t) =
      Prod.fst <$> carry t (drive m (fun a => Act.beside (consume a)) s) := by
  have alike : ∀ n s t, Alike (fun _ _ => True) (unfold (driveStep m.beside consume) n (s, t))
      (carry t (unfold (driveStep m fun a => Act.beside (consume a)) n s)) := by
    intro n
    induction n with
    | zero => exact fun _ _ _ => Matches.endless
    | succ n ih =>
        intro s t
        rw [unfold_succ, unfold_succ, driveStep, driveStep, carry_bind]
        refine (act_beside_alike m s t).bind ?_
        rintro _ ⟨r, t'⟩ rfl
        cases r with
        | give a s' =>
            simp only [Step.map, after, carry_bind, carry_act_beside, bind_assoc, pure_bind]
            exact Alike.bind_same _ fun _ => ih s' t'
        | skip s' => exact ih s' t'
        | finish => exact fun w => Matches.ok w trivial
        | idle s' => exact fun w => Matches.ok w trivial
        | fail e s' => exact fun w => Matches.error e w
  have hm : ∀ s, Monotone fun n => unfold (driveStep m fun a => Act.beside (consume a)) n s :=
    fun s _ _ h => monotone_unfold (monotone_driveStep _ _) h s
  have limits : Alike (fun _ _ => True) (drive m.beside consume (s, t))
      (carry t (drive m (fun a => Act.beside (consume a)) s)) := by
    rw [drive, drive, fix, fix, carry_limit t (hm s)]
    exact Alike.limit (fun _ _ h => monotone_unfold (monotone_driveStep _ _) h _)
      (fun _ _ h => monotone_carry t (hm s h)) fun n => alike n s t
  rw [← id_map (drive m.beside consume (s, t))]
  exact limits.eq fun _ _ _ => rfl

/-! ### Reached states -/

/-- The states and worlds through which a drive comes. -/
inductive Reached (m : Machine ω ε σ α) (consume : α → Act ω ε Unit) (s₀ : σ) (w₀ : ω) :
    σ → ω → Prop
  | start : Reached m consume s₀ w₀ s₀ w₀
  | skip {s t : σ} {w v : ω} : Reached m consume s₀ w₀ s w → m s w = .ok (.skip t) v →
      Reached m consume s₀ w₀ t v
  | give {s t : σ} {w v u : ω} {a : α} : Reached m consume s₀ w₀ s w →
      m s w = .ok (.give a t) v → consume a v = .ok () u → Reached m consume s₀ w₀ t u

/-- Two machines that take the same steps at all states that are reached have the same drive. -/
theorem drive_congr_of_reached {m m' : Machine ω ε σ α} {consume : α → Act ω ε Unit} {s₀ : σ}
    {w₀ : ω} (h : ∀ s w, Reached m consume s₀ w₀ s w → m' s w = m s w) :
    drive m' consume s₀ w₀ = drive m consume s₀ w₀ := by
  have same : ∀ n s w, Reached m consume s₀ w₀ s w →
      unfold (driveStep m' consume) n s w = unfold (driveStep m consume) n s w := by
    intro n
    induction n with
    | zero => exact fun _ _ _ => rfl
    | succ n ih =>
        intro s w hr
        rw [unfold_succ, unfold_succ, driveStep, driveStep]
        rcases hs : m s w with ⟨r, v⟩ | ⟨e, v⟩
        · rw [act_bind_of_ok hs, act_bind_of_ok ((h s w hr).trans hs)]
          cases r with
          | give a t =>
              rcases hc : consume a v with ⟨⟨⟩, u⟩ | ⟨e, u⟩
              · change (act (consume a) >>= fun _ => _) v = (act (consume a) >>= fun _ => _) v
                rw [act_bind_of_ok hc, act_bind_of_ok hc]
                exact ih t u (hr.give hs hc)
              · change (act (consume a) >>= fun _ => _) v = (act (consume a) >>= fun _ => _) v
                rw [act_bind_of_error hc, act_bind_of_error hc]
          | skip t => exact ih t v (hr.skip hs)
          | finish => rfl
          | idle t => rfl
          | fail e t => rfl
        · rw [act_bind_of_error hs, act_bind_of_error ((h s w hr).trans hs)]
  apply Option.ext
  intro r
  rw [drive_eq_some_iff, drive_eq_some_iff]
  exact exists_congr fun n => by rw [same n s₀ w₀ Reached.start]

/-- Whether a drive ends within `n` steps, and all states through which it comes pass a test. -/
def passesThrough (m : Machine ω ε σ α) (consume : α → Act ω ε Unit) (test : σ → Bool) :
    ℕ → σ → ω → Bool
  | 0, _, _ => false
  | n + 1, s, w =>
    test s && match m s w with
      | .ok (.give a t) v =>
        match consume a v with
        | .ok _ u => passesThrough m consume test n t u
        | .error _ _ => true
      | .ok (.skip t) v => passesThrough m consume test n t v
      | _ => true

/-- Such a drive comes through no state that fails the test. -/
theorem Reached.test {m : Machine ω ε σ α} {consume : α → Act ω ε Unit} {test : σ → Bool} {s₀ s : σ}
    {w₀ w : ω} {n : ℕ} (h : passesThrough m consume test n s₀ w₀ = true)
    (hr : Reached m consume s₀ w₀ s w) : test s = true := by
  have passed : ∃ n, passesThrough m consume test n s w = true := by
    induction hr with
    | start => exact ⟨n, h⟩
    | skip _ hs ih =>
        obtain ⟨n, hn⟩ := ih
        cases n with
        | zero => cases hn
        | succ n =>
            simp only [passesThrough, hs, Bool.and_eq_true] at hn
            exact ⟨n, hn.2⟩
    | give _ hs hc ih =>
        obtain ⟨n, hn⟩ := ih
        cases n with
        | zero => cases hn
        | succ n =>
            simp only [passesThrough, hs, hc, Bool.and_eq_true] at hn
            exact ⟨n, hn.2⟩
  obtain ⟨n, hn⟩ := passed
  cases n with
  | zero => cases hn
  | succ n =>
      simp only [passesThrough, Bool.and_eq_true] at hn
      exact hn.1

end GraphRoutes.Machine
