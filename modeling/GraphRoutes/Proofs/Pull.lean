/-
**Pulls: the beginning of a drive.**

A pull takes the steps of a lazy sequence up to its next item, within a number of steps.  A drive by a
consumer who refuses every item takes the same steps and ends at the same item, however many steps
that needs.  So if the drives of a sequence are known for all consumers, its first pull is known: it
gives something if there is anything to give, once it is allowed enough steps.

A lookahead that only asks whether there is anything pulls once.  A filter whose tests all come to a
result, given enough steps, gives the items that pass.

Main definitions:

* `GraphRoutes.Machine.refuse` — a consumer who fails at the first item;
* `GraphRoutes.Machine.source` — a lazy sequence as a source;
* `GraphRoutes.Pull.map` — a pull between states of another type.

Main results:

* `GraphRoutes.Machine.source_of_drive` — **what the first pull of a sequence gives**;
* `GraphRoutes.Machine.pull_map` — the pulls of a machine that takes the steps of another one;
* `GraphRoutes.Machine.pull_congr_of_reached` — only the steps up to the first item count;
* `GraphRoutes.Machine.exists_pull_eq_step` — a pull with a measure comes to an end;
* `GraphRoutes.Route.lookahead_eq` — a lookahead without bounds asks whether there is an item;
* `GraphRoutes.Route.drive_select` — a filter gives what passes its test.
-/
import GraphRoutes.Proofs.Drive
import GraphRoutes.Route.Lookahead
import GraphRoutes.Route.Select

set_option relaxedAutoImplicit false
set_option autoImplicit false

namespace GraphRoutes

open Course

variable {ω ε σ κ ρ α β : Type}

/-- The same pull between states of another type. -/
def Pull.map {τ : Type} (f : σ → τ) : Pull σ α ε → Pull τ α ε
  | item a s => .item a (f s)
  | ended s => .ended (s.map f)
  | failed e s => .failed e (s.map f)
  | unsettled => .unsettled

namespace Machine

variable {m m' : Machine ω ε σ α} {s t : σ} {w v : ω} {e : ε}

/-- A consumer who takes nothing. -/
def refuse (e : ε) (_ : α) : Act ω ε Unit := throw e

/-- A lazy sequence as a source, whose pulls are allowed so many steps. -/
def source (m : Machine ω ε σ α) (unsettled : ε) (fuel : ℕ) : Source ω ε (Option σ) α
  | none => pure none
  | some s => do
    match ← m.pull fuel s with
    | .item a s => pure (some (a, some s))
    | .ended _ => pure none
    | .failed e _ => throw e
    | .unsettled => throw unsettled

/-! ### One step -/

theorem pull_of_give {a : α} (h : m s w = .ok (.give a t) v) (fuel : ℕ) :
    m.pull (fuel + 1) s w = .ok (.item a t) v := by
  simp only [pull_succ, Act.attempt, bind, EStateM.bind, h]
  rfl

theorem pull_of_skip (h : m s w = .ok (.skip t) v) (fuel : ℕ) :
    m.pull (fuel + 1) s w = m.pull fuel t v := by
  simp only [pull_succ, Act.attempt, bind, EStateM.bind, h]

theorem pull_of_finish (h : m s w = .ok .finish v) (fuel : ℕ) :
    m.pull (fuel + 1) s w = .ok (.ended none) v := by
  simp only [pull_succ, Act.attempt, bind, EStateM.bind, h]
  rfl

theorem pull_of_idle (h : m s w = .ok (.idle t) v) (fuel : ℕ) :
    m.pull (fuel + 1) s w = .ok (.ended (some t)) v := by
  simp only [pull_succ, Act.attempt, bind, EStateM.bind, h]
  rfl

theorem pull_of_error (h : m s w = .error e v) (fuel : ℕ) :
    m.pull (fuel + 1) s w = .ok (.failed e none) v := by
  simp only [pull_succ, Act.attempt, bind, EStateM.bind, h]
  rfl

/-- Where a machine takes the steps of another one, its pulls are those of the other one. -/
theorem pull_map {τ : Type} {m : Machine ω ε σ α} {m' : Machine ω ε τ α} (f : σ → τ)
    (h : ∀ s, m' (f s) = Step.map f <$> m s) (fuel : ℕ) (s : σ) :
    m'.pull fuel (f s) = Pull.map f <$> m.pull fuel s := by
  induction fuel generalizing s with
  | zero => rfl
  | succ fuel ih =>
      funext w
      simp only [pull_succ, Act.attempt, h, Functor.map, EStateM.map, bind, EStateM.bind]
      cases hm : m s w with
      | error e v => rfl
      | ok r v =>
          cases r with
          | skip t => exact congrFun (ih t) v
          | _ => rfl

/-- A pull comes to an end if every step without an item makes a measure smaller: some state on its
way takes a step that settles it, however many steps the pull may take beyond that. -/
theorem exists_pull_eq_step {γ : Type} [Preorder γ] [WellFoundedLT γ] (m : Machine ω ε σ α)
    (inv : σ → ω → Prop) (measure : σ → ω → γ)
    (hskip : ∀ s w t v, inv s w → m s w = .ok (.skip t) v → inv t v ∧ measure t v < measure s w)
    (s : σ) (w : ω) (hs : inv s w) :
    ∃ N t v, inv t v ∧ (∀ x u, m t v ≠ .ok (.skip x) u) ∧
      ∀ fuel, N ≤ fuel → m.pull (fuel + 1) s w = m.pull 1 t v := by
  induction h : measure s w using WellFoundedLT.induction generalizing s w with
  | ind k ih =>
      subst h
      by_cases hnext : ∃ t v, m s w = .ok (.skip t) v
      · obtain ⟨t, v, hstep⟩ := hnext
        obtain ⟨ht, hlt⟩ := hskip s w t v hs hstep
        obtain ⟨N, x, u, hx, hsettles, hpull⟩ := ih _ hlt t v ht rfl
        refine ⟨N + 1, x, u, hx, hsettles, fun fuel hfuel => ?_⟩
        obtain ⟨fuel, rfl⟩ := Nat.exists_eq_add_of_le' hfuel
        rw [pull_of_skip hstep]
        exact hpull _ (Nat.le_add_left N fuel)
      · refine ⟨0, s, w, hs, fun x u hstep => hnext ⟨x, u, hstep⟩, fun fuel _ => ?_⟩
        rcases hstep : m s w with ⟨r, v⟩ | ⟨e, v⟩
        · cases r with
          | give a t => rw [pull_of_give hstep, pull_of_give hstep]
          | skip t => exact absurd ⟨t, v, hstep⟩ hnext
          | finish => rw [pull_of_finish hstep, pull_of_finish hstep]
          | idle t => rw [pull_of_idle hstep, pull_of_idle hstep]
          | fail e t => simp only [pull_succ, Act.attempt, bind, EStateM.bind, hstep]
        · rw [pull_of_error hstep, pull_of_error hstep]

/-! ### The first item -/

section

variable (unsettled : ε)

theorem source_of_skip (h : m s w = .ok (.skip t) v) (fuel : ℕ) :
    m.source unsettled (fuel + 1) (some s) w = m.source unsettled fuel (some t) v := by
  simp only [source, bind, EStateM.bind, pull_of_skip h]

/-- A drive whose consumer refuses the first item tells what the first pull gives, if the sequence
does not fail by itself. -/
theorem source_of_unfold {n : ℕ} {r : EStateM.Result ε ω Unit}
    (h : unfold (driveStep m (refuse e)) n s w = some r)
    (hall : ∃ u, drive m (fun _ => pure ()) s w = some (.ok () u)) :
    (∃ v, r = .ok () v ∧
        ∀ fuel, n ≤ fuel → m.source unsettled fuel (some s) w = .ok none v) ∨
      ∃ v x, r = .error e v ∧
        ∀ fuel, n ≤ fuel → m.source unsettled fuel (some s) w = .ok (some x) v := by
  induction n generalizing s w with
  | zero => cases h
  | succ n ih =>
      have more : ∀ {P : ℕ → Prop}, (∀ fuel, n ≤ fuel → P (fuel + 1)) →
          ∀ fuel, n + 1 ≤ fuel → P fuel := by
        intro P hP fuel hfuel
        obtain ⟨k, rfl⟩ := Nat.exists_eq_add_of_le' hfuel
        exact hP _ (Nat.le_add_left n k)
      rw [unfold_succ, driveStep] at h
      rw [drive_eq] at hall
      rcases hs : m s w with ⟨step, v⟩ | ⟨e', v⟩
      · rw [act_bind_of_ok hs] at h hall
        cases step with
        | give a t =>
            cases h
            refine .inr ⟨v, (a, some t), rfl, more fun fuel _ => ?_⟩
            simp only [source, bind, EStateM.bind, pull_of_give hs]
            rfl
        | skip t =>
            rcases ih h hall with ⟨v', hr, hsource⟩ | ⟨v', x, hr, hsource⟩
            · refine .inl ⟨v', hr, more fun fuel hfuel => ?_⟩
              rw [source_of_skip unsettled hs, hsource fuel hfuel]
            · refine .inr ⟨v', x, hr, more fun fuel hfuel => ?_⟩
              rw [source_of_skip unsettled hs, hsource fuel hfuel]
        | finish =>
            cases h
            refine .inl ⟨v, rfl, more fun fuel _ => ?_⟩
            simp only [source, bind, EStateM.bind, pull_of_finish hs]
            rfl
        | idle t =>
            cases h
            refine .inl ⟨v, rfl, more fun fuel _ => ?_⟩
            simp only [source, bind, EStateM.bind, pull_of_idle hs]
            rfl
        | fail e' t =>
            obtain ⟨u, hu⟩ := hall
            cases hu
      · rw [act_bind_of_error hs] at hall
        obtain ⟨u, hu⟩ := hall
        cases hu

/-- **The first pull of a sequence** gives an item if there is one, given enough steps. -/
theorem source_of_drive {bs : List α} (h : ∀ consume, drive m consume s w = act (bs.forM consume) w)
    (e : ε) :
    ∃ N x, (∀ fuel, N ≤ fuel → m.source unsettled fuel (some s) w = .ok x w) ∧
      x.isSome = !bs.isEmpty := by
  have hall : drive m (fun _ => pure ()) s w = some (.ok () w) := by
    rw [h]
    clear h
    induction bs with
    | nil => rfl
    | cons b bs ih => exact ih
  cases bs with
  | nil =>
      obtain ⟨n, hn⟩ := (drive_eq_some_iff m (refuse e)).1 (h (refuse e))
      rcases source_of_unfold unsettled hn ⟨w, hall⟩ with ⟨v, hr, hsource⟩ | ⟨v, x, hr, -⟩
      · cases hr
        exact ⟨n, none, hsource, rfl⟩
      · cases hr
  | cons b bs =>
      obtain ⟨n, hn⟩ := (drive_eq_some_iff m (refuse e)).1 (h (refuse e))
      rcases source_of_unfold unsettled hn ⟨w, hall⟩ with ⟨v, hr, -⟩ | ⟨v, x, hr, hsource⟩
      · cases hr
      · cases hr
        exact ⟨n, some x, hsource, rfl⟩

theorem Reached.trans {consume : α → Act ω ε Unit} {x : σ} {u : ω} (h : Reached m consume s w t v)
    (h' : Reached m consume t v x u) : Reached m consume s w x u := by
  induction h' with
  | start => exact h
  | skip _ hs ih => exact ih.skip hs
  | give _ hs hc ih => exact ih.give hs hc

/-- Two machines that take the same steps up to the first item have the same first pull. -/
theorem pull_congr_of_reached {consume : α → Act ω ε Unit}
    (h : ∀ t v, Reached m consume s w t v → m' t v = m t v) (fuel : ℕ) :
    m'.pull fuel s w = m.pull fuel s w := by
  induction fuel generalizing s w with
  | zero => rfl
  | succ fuel ih =>
      have hstep : m' s w = m s w := h s w .start
      rcases hs : m s w with ⟨r, v⟩ | ⟨e, v⟩
      · cases r with
        | skip t =>
            rw [pull_of_skip hs, pull_of_skip (hstep.trans hs)]
            exact ih fun x u hx => h x u ((Reached.start.skip hs).trans hx)
        | give a t => rw [pull_of_give hs, pull_of_give (hstep.trans hs)]
        | finish => rw [pull_of_finish hs, pull_of_finish (hstep.trans hs)]
        | idle t => rw [pull_of_idle hs, pull_of_idle (hstep.trans hs)]
        | fail e t => simp only [pull_succ, Act.attempt, bind, EStateM.bind, hstep, hs]
      · simp only [pull_succ, Act.attempt, bind, EStateM.bind, hstep, hs]

theorem source_congr_of_reached {consume : α → Act ω ε Unit}
    (h : ∀ t v, Reached m consume s w t v → m' t v = m t v) (fuel : ℕ) :
    m'.source unsettled fuel (some s) w = m.source unsettled fuel (some s) w := by
  simp only [source, bind, EStateM.bind, pull_congr_of_reached h]

end

end Machine

namespace Route

/-- A lookahead without bounds asks whether there is an item. -/
theorem lookahead_eq {made : α → Act ω ε ρ} {checked : ℤ → Act ω ε ℕ} {opened : ρ → Act ω ε κ}
    {next : Source ω ε κ β} {a : α} {r : ρ} {k : κ} {x : Option (β × κ)} {w v : ω}
    (hmade : made a = pure r) (hchecked : checked 1 = pure 1) (hopened : opened r = pure k)
    (hnext : next k w = .ok x v) :
    lookahead {} made checked opened next a w = .ok x.isSome v := by
  simp only [lookahead, Bounds.limit, hmade, hchecked, hopened, pure_bind, countUpTo]
  simp only [bind, EStateM.bind, hnext]
  cases x <;> rfl

/-- **A filter gives what passes its test**, if its tests come to a result when they are allowed
enough steps, and leave the world alone. -/
theorem drive_select {test : ℕ → α → Act ω ε Bool} {keeps : α → Bool} {consume : α → Act ω ε Unit}
    {r : List α}
    (htest : ∀ a ∈ r, ∀ w, ∃ N, ∀ fuel, N ≤ fuel → test fuel a w = .ok (keeps a) w) (w : ω) :
    ∃ N, ∀ fuel, N ≤ fuel →
      Machine.drive (select Source.ofList (test fuel)) consume r w =
        act ((r.filter keeps).forM consume) w := by
  induction r generalizing w with
  | nil =>
      refine ⟨0, fun fuel _ => ?_⟩
      rw [Machine.drive_eq]
      rfl
  | cons a r ih =>
      obtain ⟨N₁, htested⟩ := htest a List.mem_cons_self w
      have hrest := ih fun b hb => htest b (List.mem_cons_of_mem _ hb)
      have hstep : ∀ fuel, N₁ ≤ fuel → select Source.ofList (test fuel) (a :: r) w =
          .ok (if keeps a then .give a r else .skip r) w := by
        intro fuel hfuel
        refine Act.bind_eq_ok_iff.2 ⟨some (a, r), w, rfl, ?_⟩
        refine Act.bind_eq_ok_iff.2 ⟨keeps a, w, htested fuel hfuel, ?_⟩
        cases keeps a <;> rfl
      cases hkeeps : keeps a with
      | false =>
          rw [List.filter_cons_of_neg (by simp [hkeeps])]
          obtain ⟨N₂, hdrive⟩ := hrest w
          refine ⟨max N₁ N₂, fun fuel hfuel => ?_⟩
          have hskip := hstep fuel ((le_max_left _ _).trans hfuel)
          rw [hkeeps] at hskip
          rw [Machine.drive_eq, act_bind_of_ok hskip]
          exact hdrive fuel ((le_max_right _ _).trans hfuel)
      | true =>
          rw [List.filter_cons_of_pos hkeeps]
          -- how many steps are enough behind the item depends on what its consumer does
          obtain ⟨N₂, hdrive⟩ : ∃ N, ∀ fuel, N ≤ fuel → ∀ u v, consume a w = .ok u v →
              Machine.drive (select Source.ofList (test fuel)) consume r v =
                act ((r.filter keeps).forM consume) v := by
            rcases consume a w with ⟨u, v⟩ | ⟨e, v⟩
            · obtain ⟨N, hdrive⟩ := hrest v
              refine ⟨N, fun fuel hfuel u v hv => ?_⟩
              cases hv
              exact hdrive fuel hfuel
            · exact ⟨0, fun _ _ _ _ => nofun⟩
          refine ⟨max N₁ N₂, fun fuel hfuel => ?_⟩
          have hgive := hstep fuel ((le_max_left _ _).trans hfuel)
          rw [hkeeps] at hgive
          rw [Machine.drive_eq, act_bind_of_ok hgive]
          change _ = act (consume a >>= fun _ => (r.filter keeps).forM consume) w
          rw [act_bind]
          exact act_bind_congr (hdrive fuel ((le_max_right _ _).trans hfuel))

end Route

end GraphRoutes
