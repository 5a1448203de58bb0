/-
**Fruitless searches come to an end.**

A walk may have elements with children for ever, and a control that gives none of them.  It comes back
to its consumer all the same, if its policy is asked at every attempt from the ceiling on and never
sends it on, and if its candidates come to an end.

The measure counts first the attempts that are left below the ceiling, and then the candidates on the
stack.  Going below an element makes the first smaller, and there is no going below from the ceiling
on; every other step takes a candidate, leaves a level or settles what was to be gone below.
Candidates may stand in the world and share it, so what is left of them is a function of the world,
and nothing that the walk asks for may add to it.

Main definitions:

* `GraphRoutes.Walk.Exhaustible` — candidates that come to an end, as far as they are opened;
* `GraphRoutes.Walk.remaining` — the measure;
* `GraphRoutes.Walk.Total` — callers that never fail.

Main results:

* `GraphRoutes.Walk.Exhaustible.step_lt` — a step without a result comes nearer to one;
* `GraphRoutes.Walk.Exhaustible.exists_pull` — a walk comes back;
* `GraphRoutes.Walk.fruitless_walk` — **when the policy is asked, and that the walk comes back.**
-/
import GraphRoutes.Proofs.Descent.Attempts
import GraphRoutes.Proofs.Pull
import Mathlib.Algebra.GroupWithZero.Nat
import Mathlib.Data.Prod.Lex
import Mathlib.Order.WellFounded

set_option relaxedAutoImplicit false
set_option autoImplicit false

namespace GraphRoutes

variable {ω ε α π κ τ β γ δ : Type}

namespace Walk

/-! ### Candidates that come to an end -/

/-- From one world to another, what is opened stays opened, and nothing was added to it. -/
def Lighter (opened : ω → κ → Prop) (left : ω → κ → ℕ) (w v : ω) : Prop :=
  ∀ k, opened w k → opened v k ∧ left v k ≤ left w k

/-- The action adds to no candidates. -/
def Spares (opened : ω → κ → Prop) (left : ω → κ → ℕ) (m : Act ω ε γ) : Prop :=
  ∀ {w c v}, m w = .ok c v → Lighter opened left w v

/-- **Candidates that come to an end**, as far as they are opened: each one that is taken leaves less
behind it, and nothing else that the walk asks for adds to them. -/
structure Exhaustible (env : Env ω ε α π κ τ β) (opened : ω → κ → Prop) (left : ω → κ → ℕ) : Prop where
  next : ∀ k, Spares opened left (env.next k)
  next_lt : ∀ {k w a rest v}, opened w k → env.next k w = .ok (some (a, rest)) v →
    opened v rest ∧ left v rest < left w k
  control : ∀ path a, Spares opened left (env.control path a)
  truth : ∀ d, Spares opened left (env.truth d)
  result : ∀ path a, Spares opened left (env.result path a)
  extend : ∀ path a, Spares opened left (env.extend path a)
  restart : ∀ path, Spares opened left (env.restart path)
  children : ∀ path a, Spares opened left (env.children path a)
  children_opened : ∀ {path a w k v}, env.children path a w = .ok k v → opened v k
  policy : ∀ path a depth n, Spares opened left (env.policy path a depth n)
  report : ∀ note, Spares opened left (env.report note)

section Ends

variable {env : Env ω ε α π κ τ β} {limits : Limits} {opened : ω → κ → Prop} {left : ω → κ → ℕ}
  {frames : List (Frame π κ)} {w v u : ω}

/-- The candidates of all levels are opened. -/
def Opened (opened : ω → κ → Prop) (w : ω) (frames : List (Frame π κ)) : Prop :=
  ∀ frame ∈ frames, ∀ k ∈ frame.candidates, opened w k

/-- What is left to be done at a level: its candidates, and to leave it. -/
def load (left : ω → κ → ℕ) (w : ω) (frame : Frame π κ) : ℕ :=
  2 * frame.candidates.elim 0 (left w) + 2

/-- What is left to be done at all levels. -/
def weight (left : ω → κ → ℕ) (w : ω) (frames : List (Frame π κ)) : ℕ :=
  (frames.map (load left w)).sum

theorem Lighter.refl (opened : ω → κ → Prop) (left : ω → κ → ℕ) (w : ω) : Lighter opened left w w :=
  fun _ hk => ⟨hk, le_refl _⟩

theorem Lighter.trans (h : Lighter opened left w v) (h' : Lighter opened left v u) :
    Lighter opened left w u := by
  intro k hk
  obtain ⟨hv, hle⟩ := h k hk
  obtain ⟨hu, hle'⟩ := h' k hv
  exact ⟨hu, hle'.trans hle⟩

theorem Lighter.opened_frames (h : Lighter opened left w v) (hframes : Opened opened w frames) :
    Opened opened v frames :=
  fun frame hframe k hk => (h k (hframes frame hframe k hk)).1

@[simp] theorem weight_cons (left : ω → κ → ℕ) (w : ω) (frame : Frame π κ)
    (outer : List (Frame π κ)) :
    weight left w (frame :: outer) = load left w frame + weight left w outer := by
  simp [weight]

theorem Opened.outer {frame : Frame π κ} {outer : List (Frame π κ)}
    (h : Opened opened w (frame :: outer)) : Opened opened w outer :=
  fun f hf => h f (List.mem_cons_of_mem _ hf)

theorem Opened.cons {frame : Frame π κ} {outer : List (Frame π κ)} (h : Opened opened w outer)
    (hframe : ∀ k ∈ frame.candidates, opened w k) : Opened opened w (frame :: outer) := by
  intro f hf
  rcases List.mem_cons.1 hf with rfl | hf
  · exact hframe
  · exact h f hf

theorem Lighter.weight_le (h : Lighter opened left w v) (hframes : Opened opened w frames) :
    weight left v frames ≤ weight left w frames := by
  induction frames with
  | nil => exact le_refl _
  | cons frame outer ih =>
      have houter := ih hframes.outer
      obtain ⟨path, _ | k⟩ := frame
      · simp only [weight_cons, load, Option.elim_none]
        omega
      · have hle := (h k (hframes _ List.mem_cons_self k rfl)).2
        simp only [weight_cons, load, Option.elim_some]
        omega

/-- A visit takes a candidate. -/
theorem Exhaustible.visit (h : Exhaustible env opened left) {path : π} {k : κ} {a : α}
    {i : Instruction τ} {emits : Bool} {rest : Option κ} (hk : opened w k)
    (hv : Visit env path k w a i emits rest v) :
    Lighter opened left w v ∧ 0 < left w k ∧ ∀ k' ∈ rest, opened v k' ∧ left v k' < left w k := by
  obtain ⟨k', goesOn, w₁, w₂, w₃, hnext, hcontrol, hgoesOn, hemits, rfl⟩ := hv.exists_worlds
  have behind : Lighter opened left w₁ v :=
    ((h.control path a hcontrol).trans (h.truth _ hgoesOn)).trans (h.truth _ hemits)
  obtain ⟨hopened, hlt⟩ := h.next_lt hk hnext
  refine ⟨(h.next k hnext).trans behind, Nat.zero_lt_of_lt hlt, ?_⟩
  cases goesOn with
  | true =>
      rintro _ ⟨⟩
      obtain ⟨hopened', hle⟩ := behind k' hopened
      exact ⟨hopened', hle.trans_lt hlt⟩
  | false => nofun

theorem Exhaustible.consulted (h : Exhaustible env opened left) {path : π} {a : α} {depth n : ℕ}
    {r : Resolution β} (hc : Consulted env limits path a depth n w r v) :
    Lighter opened left w v := by
  cases hc with
  | unasked _ => exact Lighter.refl opened left w
  | asked _ hreport hpolicy => exact (h.report _ hreport).trans (h.policy _ _ _ _ hpolicy)

/-- New candidates are opened. -/
theorem Exhaustible.entry (h : Exhaustible env opened left) {path below : π} {p : Pending α τ} {k : κ}
    (he : Entry env path p w below k v) : Lighter opened left w v ∧ opened v k := by
  obtain ⟨resets, w₁, w₂, hresets, hbelow, hk⟩ := he.exists_worlds
  have hpath : Lighter opened left w₁ w₂ := by
    cases resets with
    | true => exact h.restart _ hbelow
    | false => exact h.extend _ _ hbelow
  exact ⟨((h.truth _ hresets).trans hpath).trans (h.children _ _ hk), h.children_opened hk⟩

/-- How far a walk is from its next result: the attempts that are left below the ceiling, and then
what is left to be done. -/
def remaining (limits : Limits) (left : ω → κ → ℕ) (s : Walk α π κ τ) (w : ω) : ℕ ×ₗ ℕ :=
  toLex (limits.ceiling - s.fruitless, weight left w s.levels + if s.pending.isSome then 1 else 0)

/-- A walk is nearer to its next result when less is left to be done, and no attempt has been won back. -/
theorem remaining_lt {s t : Walk α π κ τ} (hfruitless : s.fruitless ≤ t.fruitless)
    (hless : weight left v t.levels + (if t.pending.isSome then 1 else 0) <
      weight left w s.levels + if s.pending.isSome then 1 else 0) :
    remaining limits left t v < remaining limits left s w := by
  rw [remaining, remaining, Prod.Lex.toLex_lt_toLex]
  rcases Nat.lt_or_ge (limits.ceiling - t.fruitless) (limits.ceiling - s.fruitless) with hlt | hge
  · exact .inl hlt
  · exact .inr ⟨Nat.le_antisymm (Nat.sub_le_sub_left hfruitless _) hge, hless⟩

/-- **A step without a result comes nearer to one**, if the policy is asked at every attempt from the
ceiling on and never sends the walk on. -/
theorem Exhaustible.step_lt (h : Exhaustible env opened left) (hinterval : limits.interval = 1)
    (hnever : ∀ path a depth n w v, env.policy path a depth n w ≠ .ok .descend v)
    {s t : Walk α π κ τ} (hs : Opened opened w s.levels) (hstep : step env limits s w = .ok (.skip t) v) :
    Opened opened v t.levels ∧ remaining limits left t v < remaining limits left s w := by
  have hmove := move_of_step hstep
  -- every move but going below does something of what is left; going below opens a level, and uses up
  -- one of the attempts below the ceiling
  cases hmove with
  | leave =>
      refine ⟨hs.outer, remaining_lt (le_refl _) ?_⟩
      simp [load]
  | exhaust hnext =>
      have hlighter := h.next _ hnext
      refine ⟨hlighter.opened_frames hs.outer, remaining_lt (le_refl _) ?_⟩
      have hle := hlighter.weight_le hs.outer
      simp only [weight_cons, load, Option.isSome_none]
      omega
  | @pass _ k rest _ _ _ _ _ _ hvisit =>
      obtain ⟨hlighter, hpos, hrest⟩ := h.visit (hs _ List.mem_cons_self k rfl) hvisit
      refine ⟨(hlighter.opened_frames hs.outer).cons fun k' hk' => (hrest k' hk').1,
        remaining_lt (le_refl _) ?_⟩
      have hle := hlighter.weight_le hs.outer
      have hload : rest.elim 0 (left v) < left w k := by
        cases rest with
        | none => exact hpos
        | some k' => exact (hrest k' rfl).2
      simp only [weight_cons, load, Option.elim_some, Option.isSome_some, Option.isSome_none, if_true,
        Bool.false_eq_true, if_false]
      omega
  | stay hdescends _ =>
      have hlighter := h.truth _ hdescends
      refine ⟨hlighter.opened_frames hs, remaining_lt (le_refl _) ?_⟩
      exact Nat.lt_succ_of_le (hlighter.weight_le hs)
  | enter hdescends _ hconsulted hentry =>
      obtain ⟨hlighter, hk⟩ := h.entry hentry
      have hopened := (((h.truth _ hdescends).trans (h.consulted hconsulted)).trans
        hlighter).opened_frames hs
      refine ⟨hopened.cons ?_, Prod.Lex.toLex_lt_toLex.2 (Or.inl ?_)⟩
      · rintro _ ⟨⟩
        exact hk
      · cases hconsulted with
        | unasked hundue =>
            have hlt := lt_ceiling_of_undue hinterval hundue
            dsimp only
            omega
        | asked _ _ hpolicy => exact absurd hpolicy (hnever _ _ _ _ _ _)
  | advance hdescends _ hconsulted hreport =>
      have hlighter := ((h.truth _ hdescends).trans (h.consulted hconsulted)).trans
        (h.report _ hreport)
      refine ⟨hlighter.opened_frames hs, remaining_lt (Nat.le_succ _) ?_⟩
      exact Nat.lt_succ_of_le (hlighter.weight_le hs)
  | @cut frame _ _ _ _ _ _ _ hdescends _ hconsulted hreport =>
      have hlighter := ((h.truth _ hdescends).trans (h.consulted hconsulted)).trans
        (h.report _ hreport)
      refine ⟨(hlighter.opened_frames hs.outer).cons nofun, remaining_lt (Nat.le_succ _) ?_⟩
      have hle := hlighter.weight_le hs.outer
      simp only [weight_cons, load, Option.elim_none, Option.isSome_some, Option.isSome_none, if_true,
        Bool.false_eq_true, if_false]
      omega

/-- Behind a result nothing was added either. -/
theorem Exhaustible.step_give (h : Exhaustible env opened left) {s t : Walk α π κ τ} {b : β}
    (hs : Opened opened w s.levels) (hstep : step env limits s w = .ok (.give b t) v) :
    Opened opened v t.levels := by
  have hmove := move_of_step hstep
  cases hmove with
  | @give _ k _ _ _ _ _ _ _ _ _ hvisit hresult =>
      obtain ⟨hlighter, -, hrest⟩ := h.visit (hs _ List.mem_cons_self k rfl) hvisit
      have hgiven := h.result _ _ hresult
      exact ((hlighter.trans hgiven).opened_frames hs.outer).cons
        fun k' hk' => (hgiven k' (hrest k' hk').1).1
  | substitute _ _ _ _ => nofun

/-- At all states of a run the candidates are opened, if the consumer adds to none of them. -/
theorem Exhaustible.opened_of_reached (h : Exhaustible env opened left)
    (hinterval : limits.interval = 1)
    (hnever : ∀ path a depth n w v, env.policy path a depth n w ≠ .ok .descend v)
    {consume : β → Act ω ε Unit} (hconsume : ∀ b, Spares opened left (consume b))
    {s₀ s : Walk α π κ τ} {w₀ : ω} (hs₀ : Opened opened w₀ s₀.levels)
    (hr : Machine.Reached (step env limits) consume s₀ w₀ s w) : Opened opened w s.levels := by
  induction hr with
  | start => exact hs₀
  | skip _ hs ih => exact (h.step_lt hinterval hnever ih hs).1
  | give _ hs hc ih => exact (hconsume _ hc).opened_frames (h.step_give ih hs)

end Ends

/-! ### Callers that never fail -/

/-- The action has a result in every world. -/
def Succeeds (m : Act ω ε γ) : Prop := ∀ w, ∃ c v, m w = .ok c v

theorem Succeeds.pure (c : γ) : Succeeds (pure c : Act ω ε γ) := fun w => ⟨c, w, rfl⟩

theorem Succeeds.bind {m : Act ω ε δ} {f : δ → Act ω ε γ} (hm : Succeeds m)
    (hf : ∀ d, Succeeds (f d)) : Succeeds (m >>= f) := by
  intro w
  obtain ⟨d, u, hd⟩ := hm w
  obtain ⟨c, v, hc⟩ := hf d u
  exact ⟨c, v, Act.bind_eq_ok_iff.2 ⟨d, u, hd, hc⟩⟩

/-- Nothing that the walk asks for fails. -/
structure Total (env : Env ω ε α π κ τ β) : Prop where
  next : ∀ k, Succeeds (env.next k)
  control : ∀ path a, Succeeds (env.control path a)
  truth : ∀ d, Succeeds (env.truth d)
  result : ∀ path a, Succeeds (env.result path a)
  extend : ∀ path a, Succeeds (env.extend path a)
  restart : ∀ path, Succeeds (env.restart path)
  children : ∀ path a, Succeeds (env.children path a)
  policy : ∀ path a depth n, Succeeds (env.policy path a depth n)
  report : ∀ note, Succeeds (env.report note)

section Callers

variable {env : Env ω ε α π κ τ β} {limits : Limits}

theorem sequential_succeeds : Sequential fun {_} (m _ : Act ω ε _) => Succeeds m where
  pure := .pure
  bind hm hf := hm.bind hf

theorem Total.related (h : Total env) : Env.Related (fun {_} (m _ : Act ω ε _) => Succeeds m) env env :=
  ⟨h.next, h.control, h.truth, h.result, h.extend, h.restart, h.children, h.policy, h.report⟩

/-- No step of the walk fails by itself. -/
theorem Total.step (h : Total env) (s : Walk α π κ τ) : Succeeds (step env limits s) :=
  h.related.step sequential_succeeds limits s

/-- **A walk comes back**: with a result, with its end, or with a fault of its caller. -/
theorem Exhaustible.exists_pull {opened : ω → κ → Prop} {left : ω → κ → ℕ}
    (h : Exhaustible env opened left) (hinterval : limits.interval = 1)
    (hnever : ∀ path a depth n w v, env.policy path a depth n w ≠ .ok .descend v)
    {s : Walk α π κ τ} {w : ω} (hs : Opened opened w s.levels) :
    ∃ N r v, (∀ fuel, N ≤ fuel → Machine.pull (Walk.step env limits) fuel s w = .ok r v) ∧
      ((∃ b t, r = .item b t) ∨ r = .ended none ∨ (∃ e, r = .failed e none) ∧ ¬ Total env) := by
  obtain ⟨N, t, u, -, hsettles, hpull⟩ := Machine.exists_pull_eq_step (Walk.step env limits)
    (fun s w => Opened opened w s.levels) (remaining limits left)
    (fun _ _ _ _ hs hstep => h.step_lt hinterval hnever hs hstep) s w hs
  -- steps without a result come to an end; the step behind them settles the pull
  have settled : ∃ r v, Machine.pull (Walk.step env limits) 1 t u = .ok r v ∧
      ((∃ b t, r = .item b t) ∨ r = .ended none ∨ (∃ e, r = .failed e none) ∧ ¬ Total env) := by
    rcases hstep : Walk.step env limits t u with ⟨r, v⟩ | ⟨e, v⟩
    · cases r with
      | give b x => exact ⟨_, v, Machine.pull_of_give hstep 0, Or.inl ⟨b, x, rfl⟩⟩
      | skip x => exact absurd hstep (hsettles x v)
      | finish => exact ⟨_, v, Machine.pull_of_finish hstep 0, Or.inr (Or.inl rfl)⟩
      | idle x => cases move_of_step hstep
      | fail e x => cases move_of_step hstep
    · refine ⟨_, v, Machine.pull_of_error hstep 0, Or.inr (Or.inr ⟨⟨e, rfl⟩, fun htotal => ?_⟩)⟩
      obtain ⟨r, v', hok⟩ : ∃ r v', Walk.step env limits t u = .ok r v' := htotal.step t u
      rw [hstep] at hok
      cases hok
  obtain ⟨r, v, hr, houtcome⟩ := settled
  refine ⟨N + 1, r, v, fun fuel hfuel => ?_, houtcome⟩
  obtain ⟨fuel, rfl⟩ := Nat.exists_eq_add_of_le' hfuel
  exact (hpull _ (Nat.le_add_left N fuel)).trans hr

end Callers

/-- **When the policy is asked, and that the walk comes back.**  In every run, as far as it goes, the
policy is asked at exactly those attempts whose number since the last result is due, and no such
attempt is passed over.  If it is asked at every attempt from the ceiling on and never sends the walk
on, then children are asked for less often than the ceiling says between two results; and if, besides,
all candidates come to an end, then every pull of the consumer does. -/
theorem fruitless_walk (env : Env ω ε α π κ τ β) (limits : Limits) (consume : β → Act ω ε Unit)
    (path : π) (k : κ) (w₀ : ω) :
    (∀ s w, Machine.Reached (step env limits) consume (start path k) w₀ s w →
      ∃ t log, Machine.Reached (step env.journaled limits) (journaledConsume consume)
        (startJournaled path k) ([], w₀) t (log, w) ∧ t.plain = s) ∧
    (∀ log, Kept env limits consume path k w₀ log → AsksWhenDue limits log) ∧
    (∀ t log w, Machine.Reached (step env.journaled limits) (journaledConsume consume)
        (startJournaled path k) ([], w₀) t (log, w) →
      ∀ path a depth older j, log = .descends path a depth :: older → allowed limits depth = true →
        attempts limits older + 1 ≠ limits.ceiling + j * limits.interval) ∧
    (limits.interval = 1 → (∀ path a depth n w v, env.policy path a depth n w ≠ .ok .descend v) →
      (∀ newer segment past, Kept env limits consume path k w₀ (newer ++ (segment ++ past)) →
        .give ∉ segment → segment.countP asksChildren ≤ limits.ceiling - 1) ∧
      ∀ opened left, Exhaustible env opened left → opened w₀ k →
        (∀ b, Spares opened left (consume b)) →
        ∀ s w, Machine.Reached (step env limits) consume (start path k) w₀ s w →
          ∃ N r v, (∀ fuel, N ≤ fuel → Machine.pull (step env limits) fuel s w = .ok r v) ∧
            ((∃ b t, r = .item b t) ∨ r = .ended none ∨ (∃ e, r = .failed e none) ∧ ¬ Total env)) := by
  refine ⟨fun s w hr => exists_journal hr, ?_, ?_, ?_⟩
  · intro log hlog
    have hlawful : Lawful limits True log := lawful_of_kept (fun _ _ _ _ _ _ _ => trivial) hlog
    exact hlawful.asksWhenDue
  · intro t log w hr path a depth older j hlog hallowed hj
    have htold : Told limits True t log := told_of_reached (fun _ _ _ _ _ _ _ => trivial) hr
    have hquestion := question?_eq_some_iff.2 ⟨older, j, hlog, hallowed, rfl, hj⟩
    have hsettled := htold.settled
    rw [hquestion] at hsettled
    cases hsettled
  · intro hinterval hnever
    refine ⟨fun newer segment past hlog hgive => ?_, ?_⟩
    · have hlawful : Lawful limits False (newer ++ (segment ++ past)) :=
        lawful_of_kept (fun _ _ _ _ _ _ h => hnever _ _ _ _ _ _ h) hlog
      exact children_le hinterval hlawful hgive
    · intro opened left hends hk hconsume s w hr
      refine hends.exists_pull hinterval hnever ?_
      refine hends.opened_of_reached hinterval hnever hconsume ?_ hr
      refine Opened.cons nofun ?_
      rintro _ ⟨⟩
      exact hk

/-- A walk along the numbers, which never gives any of them, and whose policy cuts. -/
def endless : Env Unit Empty ℕ (List ℕ) (List ℕ) Bool ℕ where
  next := Source.ofList
  control _ _ := pure Preset.proceed.instruction
  truth := pure
  result _ a := pure a
  extend path a := pure (path ++ [a])
  restart _ := pure []
  children _ a := pure [a + 1]
  policy _ _ _ _ := pure .cut
  report _ := pure ()

/-- The numbers never come to an end, and the walk does. -/
theorem fruitless_walk_endless :
    ∃ limits : Limits, limits.ceiling = 3 ∧ limits.interval = 1 ∧
      (∀ path a depth n w v, endless.policy path a depth n w ≠ .ok .descend v) ∧
      Exhaustible endless (fun _ _ => True) (fun _ => List.length) ∧ Total endless ∧
      ∃ N r v, (∀ fuel, N ≤ fuel → Machine.pull (step endless limits) fuel (start [] [0]) () = .ok r v) ∧
        ((∃ b t, r = .item b t) ∨ r = .ended none) := by
  have hnever : ∀ path a depth n w v, endless.policy path a depth n w ≠ .ok .descend v := by
    intro path a depth n w v h
    cases h
  have spares : ∀ {γ : Type} (c : γ), Spares (fun _ (_ : List ℕ) => True) (fun _ => List.length)
      (pure c : Act Unit Empty γ) := fun _ _ _ _ _ _ hk => ⟨hk, le_refl _⟩
  have hends : Exhaustible endless (fun _ _ => True) (fun _ => List.length) := {
    next := fun k _ _ _ _ _ hk => ⟨hk, le_refl _⟩
    next_lt := by
      rintro (_ | ⟨a, as⟩) _ _ _ _ - ⟨⟩
      exact ⟨trivial, Nat.lt_succ_self _⟩
    control := fun _ _ => spares _
    truth := fun _ => spares _
    result := fun _ _ => spares _
    extend := fun _ _ => spares _
    restart := fun _ => spares _
    children := fun _ _ => spares _
    children_opened := fun _ => trivial
    policy := fun _ _ _ _ => spares _
    report := fun _ => spares _ }
  have htotal : Total endless := {
    next := by
      rintro (_ | ⟨a, as⟩)
      · exact .pure _
      · exact .pure _
    control := fun _ _ => .pure _
    truth := fun _ => .pure _
    result := fun _ _ => .pure _
    extend := fun _ _ => .pure _
    restart := fun _ => .pure _
    children := fun _ _ => .pure _
    policy := fun _ _ _ _ => .pure _
    report := fun _ => .pure _ }
  refine ⟨{ ceiling := 3, interval := 1 }, rfl, rfl, hnever, hends, htotal, ?_⟩
  obtain ⟨-, -, -, hcut⟩ := fruitless_walk endless { ceiling := 3, interval := 1 }
    (fun _ => pure ()) [] [0] ()
  obtain ⟨N, r, v, hpull, houtcome⟩ := (hcut rfl hnever).2 _ _ hends trivial
    (fun _ => spares _) (start [] [0]) () .start
  refine ⟨N, r, v, hpull, ?_⟩
  rcases houtcome with hitem | hended | ⟨-, hfails⟩
  · exact Or.inl hitem
  · exact Or.inr hended
  · exact absurd htotal hfails

end Walk

end GraphRoutes
