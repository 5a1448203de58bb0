/-
**The events of a walk, and the walk on a stack performs those of the recursive walk.**

What a walk does can be observed: it asks for candidates, for instructions, for answers of the policy
and for children, and it gives results.  An observer writes down each of these before it happens, and
stops the walk when a number of them has been written down.  So the first `N` events can be compared
also where a walk goes on for ever.

An event holds all that was handed over with it.  The observer leaves alone what each of them does to
the world, so the walk takes the same way as without it.

Main definitions:

* `GraphRoutes.Walk.Event` — the events of a walk;
* `GraphRoutes.Walk.see`, `GraphRoutes.Walk.Env.observed` — an observed walk;
* `GraphRoutes.Walk.Counts` — how many events an observed action has seen.

Main results:

* `GraphRoutes.Walk.exists_drive_observed` — an observed walk comes to an end;
* `GraphRoutes.Walk.drive_start_eq_level` — **the same events in the same order**, for every consumer.
-/
import GraphRoutes.Proofs.Descent.Level
import Mathlib.Data.Prod.Lex
import Mathlib.Order.WellFounded

set_option relaxedAutoImplicit false
set_option autoImplicit false

namespace GraphRoutes.Walk

open Course

variable {ω ε α π κ τ β γ δ : Type}

/-- The events of a walk, with all that is handed over. -/
inductive Event (α π κ β : Type) where
  | pull (candidates : κ)
  | control (path : π) (element : α)
  | policy (path : π) (element : α) (depth fruitless : ℕ)
  | children (path : π) (element : α)
  | give (result : β)

/-- A world with the events that were seen in it, newest first. -/
abbrev Seen (ω α π κ β : Type) : Type := List (Event α π κ β) × ω

/-- Writes down an event, unless `N` events have been seen: then the walk is stopped, with a fault of
its own. -/
def see (N : ℕ) (event : Event α π κ β) : Act (Seen ω α π κ β) (Option ε) Unit := fun w =>
  if w.1.length < N then .ok () (event :: w.1, w.2) else .error none w

/-- An action that is no event. -/
def unseen (m : Act ω ε γ) : Act (Seen ω α π κ β) (Option ε) γ := fun w =>
  match m w.2 with
  | .ok c v => .ok c (w.1, v)
  | .error e v => .error (some e) (w.1, v)

/-- An observed walk, which is stopped after `N` events. -/
def Env.observed (N : ℕ) (env : Env ω ε α π κ τ β) :
    Env (Seen ω α π κ β) (Option ε) α π κ τ β where
  next k := do
    see N (.pull k)
    unseen (env.next k)
  control path a := do
    see N (.control path a)
    unseen (env.control path a)
  truth d := unseen (env.truth d)
  result path a := unseen (env.result path a)
  extend path a := unseen (env.extend path a)
  restart path := unseen (env.restart path)
  children path a := do
    see N (.children path a)
    unseen (env.children path a)
  policy path a depth n := do
    see N (.policy path a depth n)
    unseen (env.policy path a depth n)
  report note := unseen (env.report note)

/-- An observed consumer. -/
def observedConsume (N : ℕ) (consume : β → Act ω ε Unit) (b : β) :
    Act (Seen ω α π κ β) (Option ε) Unit := do
  see N (.give b)
  unseen (consume b)

/-! ### An observed walk comes to an end -/

/-- Where `n` events have been seen before, every result of `m` comes after a number of events that
`Q` allows. -/
def Counts (n : ℕ) (m : Act (Seen ω α π κ β) (Option ε) γ) (Q : γ → ℕ → Prop) : Prop :=
  ∀ w c v, w.1.length = n → m w = .ok c v → Q c v.1.length

section Counts

variable {n N : ℕ} {Q : γ → ℕ → Prop}

theorem Counts.pure {c : γ} (h : Q c n) :
    Counts n (pure c : Act (Seen ω α π κ β) (Option ε) γ) Q := by
  rintro w _ _ rfl ⟨⟩
  exact h

theorem Counts.mono {P : γ → ℕ → Prop} {m : Act (Seen ω α π κ β) (Option ε) γ}
    (h : Counts n m P) (hPQ : ∀ c k, P c k → Q c k) : Counts n m Q :=
  fun w c v hw hm => hPQ c _ (h w c v hw hm)

/-- What comes first is no event. -/
theorem Counts.unseen_bind {m : Act ω ε δ} {f : δ → Act (Seen ω α π κ β) (Option ε) γ}
    (h : ∀ d, Counts n (f d) Q) : Counts n (unseen m >>= f) Q := by
  intro w c v hw hm
  obtain ⟨d, u, hd, hc⟩ := Act.bind_eq_ok_iff.1 hm
  unfold unseen at hd
  split at hd
  · rename_i u' _
    cases hd
    exact h d (w.1, u') c v hw hc
  · cases hd

/-- What comes first is an event. -/
theorem Counts.see_bind {event : Event α π κ β} {f : Unit → Act (Seen ω α π κ β) (Option ε) γ}
    (h : n < N → Counts (n + 1) (f ()) Q) : Counts n (see N event >>= f) Q := by
  intro w c v hw hm
  obtain ⟨d, u, hd, hc⟩ := Act.bind_eq_ok_iff.1 hm
  unfold see at hd
  split at hd
  · rename_i hn
    cases hd
    subst hw
    exact h hn _ c v rfl hc
  · cases hd

/-- What comes first is an event and what it leads to. -/
theorem Counts.event_bind {event : Event α π κ β} {m : Act ω ε δ}
    {f : δ → Act (Seen ω α π κ β) (Option ε) γ} (h : n < N → ∀ d, Counts (n + 1) (f d) Q) :
    Counts n ((do see N event; unseen m) >>= f) Q := by
  rw [bind_assoc]
  exact Counts.see_bind fun hn => Counts.unseen_bind (h hn)

end Counts

section Step

variable {N n : ℕ} (env : Env ω ε α π κ τ β) (limits : Limits)

/-- Going below an element asks for its children. -/
theorem counts_enter (frame : Frame π κ) (outer : List (Frame π κ)) (m : ℕ) (p : Pending α τ) :
    Counts n (enter (env.observed N) frame outer m p) fun _ k => n < k ∧ k ≤ N := by
  have rest : ∀ path, Counts n (do
      let candidates ← (env.observed N).children frame.path p.element
      let below : Frame π κ := { path, candidates := some candidates }
      pure (Step.skip { levels := below :: frame :: outer, fruitless := m } :
        Step (Walk α π κ τ) β (Option ε))) fun _ k => n < k ∧ k ≤ N := by
    intro path
    exact Counts.event_bind fun hn _ => Counts.pure ⟨Nat.lt_succ_self n, hn⟩
  refine Counts.unseen_bind fun resets => ?_
  cases resets with
  | true => exact Counts.unseen_bind fun path => rest path
  | false => exact Counts.unseen_bind fun path => rest path

/-- An answer of the policy has been asked for. -/
theorem counts_answer (frame : Frame π κ) (outer : List (Frame π κ)) (m : ℕ) (p : Pending α τ) :
    Counts n (answer (env.observed N) frame outer m p) fun _ k => n < k ∧ k ≤ N := by
  refine Counts.unseen_bind fun _ => Counts.event_bind fun hn resolution => ?_
  have told : ∀ (note : Note α β) (r : Step (Walk α π κ τ) β (Option ε)),
      Counts (n + 1) (do (env.observed N).report note; pure r) fun _ k => n < k ∧ k ≤ N := by
    intro note r
    exact Counts.unseen_bind fun _ => Counts.pure ⟨Nat.lt_succ_self n, hn⟩
  cases resolution with
  | descend =>
      refine (counts_enter env frame outer m p).mono ?_
      rintro _ k ⟨hk, hN⟩
      exact ⟨Nat.lt_of_succ_lt hk, hN⟩
  | advance => exact told _ _
  | cut => exact told _ _
  | substitute b => exact told _ _

/-- A candidate has been asked for. -/
theorem counts_visit (path : π) (candidates : κ) (outer : List (Frame π κ)) (m : ℕ) :
    Counts n (visit (env.observed N) { path, candidates := some candidates } outer m)
      fun _ k => n < k ∧ k ≤ N := by
  refine Counts.event_bind fun hn next => ?_
  rcases next with _ | ⟨a, rest⟩
  · exact Counts.pure ⟨Nat.lt_succ_self n, hn⟩
  · refine Counts.event_bind fun hn i => Counts.unseen_bind fun goesOn =>
      Counts.unseen_bind fun emits => ?_
    have hlt : n < n + 1 + 1 := Nat.lt_add_of_pos_right Nat.two_pos
    cases emits with
    | true => exact Counts.unseen_bind fun b => Counts.pure ⟨hlt, hn⟩
    | false => exact Counts.pure ⟨hlt, hn⟩

/-- A result has been given. -/
theorem counts_consume (consume : β → Act ω ε Unit) (b : β) :
    Counts n (observedConsume N consume b : Act (Seen ω α π κ β) (Option ε) Unit)
      fun _ k => n < k ∧ k ≤ N := by
  refine Counts.see_bind fun hn => ?_
  rw [← bind_pure (unseen (consume b))]
  exact Counts.unseen_bind fun _ => Counts.pure ⟨Nat.lt_succ_self n, hn⟩

/-- How much a walk can still do without an event: leave its levels, and its pending element. -/
def size (s : Walk α π κ τ) : ℕ := 2 * s.levels.length + if s.pending.isSome then 1 else 0

/-- A step sees an event, or leaves less to do without one. -/
theorem counts_step (s : Walk α π κ τ) :
    Counts n (step (env.observed N) limits s) fun r k =>
      n ≤ k ∧ ∀ t, r = .skip t → (n < k ∧ k ≤ N) ∨ (k = n ∧ size t < size s) := by
  obtain ⟨levels, m, pending⟩ := s
  cases levels with
  | nil => exact Counts.pure ⟨le_refl n, fun _ h => nomatch h⟩
  | cons frame outer =>
      have seen : ∀ {m : Act (Seen ω α π κ β) (Option ε) (Step (Walk α π κ τ) β (Option ε))}
          {s : Walk α π κ τ}, Counts n m (fun _ k => n < k ∧ k ≤ N) →
          Counts n m fun r k =>
            n ≤ k ∧ ∀ t, r = .skip t → (n < k ∧ k ≤ N) ∨ (k = n ∧ size t < size s) := by
        intro m s h
        refine h.mono ?_
        rintro r k ⟨hk, hN⟩
        exact ⟨hk.le, fun _ _ => Or.inl ⟨hk, hN⟩⟩
      cases pending with
      | some p =>
          refine Counts.unseen_bind fun descends => ?_
          split
          · refine Counts.pure ⟨le_refl n, ?_⟩
            rintro t ⟨⟩
            exact Or.inr ⟨rfl, by simp [size]⟩
          · dsimp only
            split
            · exact seen (counts_answer env frame outer (m + 1) p)
            · exact seen (counts_enter env frame outer (m + 1) p)
      | none =>
          obtain ⟨path, _ | k⟩ := frame
          · refine Counts.pure ⟨le_refl n, ?_⟩
            rintro t ⟨⟩
            exact Or.inr ⟨rfl, by simp [size]⟩
          · exact seen (counts_visit env path k outer m)

/-- **An observed walk comes to an end**, whatever it walks over. -/
theorem exists_drive_observed (N : ℕ) (consume : β → Act ω ε Unit) (s : Walk α π κ τ)
    (w : Seen ω α π κ β) :
    ∃ r, Machine.drive (step (env.observed N) limits) (observedConsume N consume) s w = some r := by
  refine Machine.exists_drive_eq_some _ _
    (fun s w => toLex (N - w.1.length, size s)) ?_ ?_ s w
  · intro s w t v h
    obtain ⟨-, hskip⟩ := counts_step env limits s w _ v rfl h
    rw [Prod.Lex.toLex_lt_toLex]
    rcases hskip t rfl with ⟨hlt, hN⟩ | ⟨heq, hsize⟩
    · exact Or.inl (by omega)
    · exact Or.inr ⟨by rw [heq], hsize⟩
  · intro s w b t v u h hc
    obtain ⟨hle, -⟩ := counts_step env limits s w _ v rfl h
    obtain ⟨hlt, hN⟩ := counts_consume consume b v _ u rfl hc
    exact Prod.Lex.toLex_lt_toLex.2 (Or.inl (by omega))

end Step

/-- **The walk on a stack performs the events of the recursive walk**, in the same order, and does
the same to the world and to its consumer.  Where the walk goes on for ever, so does the recursion,
and the events agree up to any number of them. -/
theorem drive_start_eq_level (env : Env ω ε α π κ τ β) (limits : Limits)
    (consume : β → Act ω ε Unit) (path : π) (candidates : κ) :
    Machine.drive (step env limits) consume (start path candidates) =
        (fun _ => ()) <$> level env limits consume { path, depth := 0, candidates } ∧
      ∀ (N : ℕ) (w : ω), ∃ r,
        Machine.drive (step (env.observed N) limits) (observedConsume N consume)
            (start path candidates) ([], w) = some r ∧
          ((fun _ => ()) <$> level (env.observed N) limits (observedConsume N consume)
            { path, depth := 0, candidates }) ([], w) = some r := by
  refine ⟨drive_start env limits consume path candidates, fun N w => ?_⟩
  obtain ⟨r, hr⟩ := exists_drive_observed env limits N consume (start path candidates) ([], w)
  refine ⟨r, hr, ?_⟩
  rwa [← drive_start]

end GraphRoutes.Walk
