/-
**Courses: what a computation comes to, if it comes to anything.**

A route may be endless, and a walk may go down for ever, so what a consumer sees of a lazy sequence
cannot be a total function of the world.  A *course* gives for each world an outcome and the world
that it leaves, or nothing at all where it goes on for ever.  Every action is a course.

A recursion need not end either.  It is given by its body, a function of what the recursive calls
come to, and what it comes to is the limit of its finite unfoldings.  Two facts carry all proofs
about recursions: the limit solves the equation of its body (`GraphRoutes.Course.fix_eq`), if the
body is *finitary*, and it lies below every other solution (`GraphRoutes.Course.fix_le`).

Main definitions:

* `GraphRoutes.Course`, `GraphRoutes.Course.act` — courses, and the course of an action;
* `GraphRoutes.Course.limit` — what an ascending sequence of courses comes to;
* `GraphRoutes.Course.Finitary` — a body that needs only finitely many unfoldings for an outcome;
* `GraphRoutes.Course.unfold`, `GraphRoutes.Course.fix` — the unfoldings of a recursion, and their
  limit;
* `GraphRoutes.Course.Alike` — two courses with related outcomes;
* `GraphRoutes.Course.carry` — a course over a world with a state beside it, as one that carries the
  state along.

Main results:

* `GraphRoutes.Course.fix_eq`, `GraphRoutes.Course.fix_le` — **the least solution of a recursion**;
* `GraphRoutes.Course.fix_eq_some_iff` — an outcome of a recursion is one of a finite unfolding;
* `GraphRoutes.Course.Alike.bind`, `GraphRoutes.Course.Alike.limit` — simulation, step by step.
-/
import GraphRoutes.Cell
import Mathlib.Order.Monotone.Basic

set_option relaxedAutoImplicit false
set_option autoImplicit false

namespace GraphRoutes

/-- What a computation over the world `ω` comes to: an outcome and the world that it leaves, or
nothing if it goes on for ever. -/
def Course (ω ε α : Type) : Type := ω → Option (EStateM.Result ε ω α)

namespace Course

variable {ω ε α β γ τ ι : Type}

/-- The course of an action, which always comes to an end. -/
def act (m : Act ω ε α) : Course ω ε α := fun w => some (m w)

/-- Goes on for ever. -/
def endless : Course ω ε α := fun _ => none

instance : Monad (Course ω ε) where
  pure a := act (pure a)
  bind m f := fun w =>
    match m w with
    | none => none
    | some (.ok a v) => f a v
    | some (.error e v) => some (.error e v)

theorem act_apply (m : Act ω ε α) (w : ω) : act m w = some (m w) := rfl

/-- How an outcome of a sequence of two courses comes about. -/
theorem bind_eq_some_iff {m : Course ω ε α} {f : α → Course ω ε β} {w : ω}
    {r : EStateM.Result ε ω β} :
    (m >>= f) w = some r ↔ (∃ a v, m w = some (.ok a v) ∧ f a v = some r) ∨
      ∃ e v, m w = some (.error e v) ∧ r = .error e v := by
  rcases h : m w with _ | ⟨a, v⟩ | ⟨e, v⟩
  · simp [bind, h]
  · simp only [bind, h, Option.some.injEq, EStateM.Result.ok.injEq, reduceCtorEq, false_and,
      exists_false, or_false]
    constructor
    · intro hr
      exact ⟨a, v, ⟨rfl, rfl⟩, hr⟩
    · rintro ⟨_, _, ⟨rfl, rfl⟩, hr⟩
      exact hr
  · simp only [bind, h, Option.some.injEq, EStateM.Result.error.injEq, reduceCtorEq, false_and,
      exists_false, false_or]
    constructor
    · rintro rfl
      exact ⟨e, v, ⟨rfl, rfl⟩, rfl⟩
    · rintro ⟨_, _, ⟨rfl, rfl⟩, hr⟩
      exact hr.symm

theorem bind_of_ok {m : Course ω ε α} {f : α → Course ω ε β} {w v : ω} {a : α}
    (h : m w = some (.ok a v)) : (m >>= f) w = f a v := by
  simp only [bind, h]

theorem bind_of_error {m : Course ω ε α} {f : α → Course ω ε β} {w v : ω} {e : ε}
    (h : m w = some (.error e v)) : (m >>= f) w = some (.error e v) := by
  simp only [bind, h]

theorem bind_of_none {m : Course ω ε α} {f : α → Course ω ε β} {w : ω} (h : m w = none) :
    (m >>= f) w = none := by
  simp only [bind, h]

theorem act_bind_of_ok {m : Act ω ε α} {f : α → Course ω ε β} {w v : ω} {a : α}
    (h : m w = .ok a v) : (act m >>= f) w = f a v :=
  bind_of_ok (congrArg some h)

theorem act_bind_of_error {m : Act ω ε α} {f : α → Course ω ε β} {w v : ω} {e : ε}
    (h : m w = .error e v) : (act m >>= f) w = some (.error e v) :=
  bind_of_error (congrArg some h)

/-- What follows an action counts only for what the action gives. -/
theorem act_bind_congr {m : Act ω ε α} {f g : α → Course ω ε β} {w : ω}
    (h : ∀ a v, m w = .ok a v → f a v = g a v) : (act m >>= f) w = (act m >>= g) w := by
  rcases hm : m w with ⟨a, v⟩ | ⟨e, v⟩
  · rw [act_bind_of_ok hm, act_bind_of_ok hm]
    exact h a v hm
  · rw [act_bind_of_error hm, act_bind_of_error hm]

theorem bind_assoc_course (m : Course ω ε α) (f : α → Course ω ε β) (g : β → Course ω ε γ) :
    m >>= f >>= g = m >>= fun a => f a >>= g := by
  funext w
  rcases h : m w with _ | ⟨a, v⟩ | ⟨e, v⟩
  · rw [bind_of_none h, bind_of_none (bind_of_none h)]
  · rw [bind_of_ok h]
    simp only [bind, h]
  · rw [bind_of_error h, bind_of_error (bind_of_error h)]

instance : LawfulMonad (Course ω ε) := by
  refine LawfulMonad.mk' _ (fun m => ?_) (fun _ _ => rfl) bind_assoc_course
  funext w
  change (m >>= pure) w = m w
  rcases h : m w with _ | ⟨a, v⟩ | ⟨e, v⟩
  · exact bind_of_none h
  · exact bind_of_ok h
  · exact bind_of_error h

@[simp] theorem act_pure (a : α) : act (pure a : Act ω ε α) = pure a := rfl

@[simp] theorem act_bind (m : Act ω ε α) (f : α → Act ω ε β) :
    act (m >>= f) = act m >>= fun a => act (f a) := by
  funext w
  simp only [act, bind, EStateM.bind]
  cases m w <;> rfl

/-! ### The order of courses -/

/-- A course lies below another if that one comes to all outcomes to which it comes. -/
instance : PartialOrder (Course ω ε α) where
  le m m' := ∀ w r, m w = some r → m' w = some r
  le_refl _ _ _ h := h
  le_trans _ _ _ h h' w r hr := h' w r (h w r hr)
  le_antisymm m m' h h' := by
    funext w
    cases hw : m w with
    | some r => exact (h w r hw).symm
    | none =>
        cases hw' : m' w with
        | none => rfl
        | some r => rw [h' w r hw'] at hw; exact hw.symm

theorem endless_le (m : Course ω ε α) : endless ≤ m := fun _ _ h => nomatch h

theorem bind_le_bind {m m' : Course ω ε α} {f f' : α → Course ω ε β} (hm : m ≤ m')
    (hf : ∀ a, f a ≤ f' a) : m >>= f ≤ m' >>= f' := by
  intro w r h
  rcases bind_eq_some_iff.1 h with ⟨a, v, ha, hr⟩ | ⟨e, v, he, rfl⟩
  · exact bind_eq_some_iff.2 (Or.inl ⟨a, v, hm _ _ ha, hf a _ _ hr⟩)
  · exact bind_eq_some_iff.2 (Or.inr ⟨e, v, hm _ _ he, rfl⟩)

/-! ### Limits -/

open Classical in
/-- What an ascending sequence of courses comes to. -/
noncomputable def limit (f : ℕ → Course ω ε α) : Course ω ε α := fun w =>
  if h : ∃ r n, f n w = some r then some h.choose else none

theorem limit_eq_some_iff {f : ℕ → Course ω ε α} (hf : Monotone f) {w : ω}
    {r : EStateM.Result ε ω α} : limit f w = some r ↔ ∃ n, f n w = some r := by
  -- two members of an ascending sequence come to the same outcome, so the choice does not matter
  have unique : ∀ {r r' : EStateM.Result ε ω α} {n n' : ℕ},
      f n w = some r → f n' w = some r' → r = r' := by
    intro r r' n n' h h'
    have hr := hf (Nat.le_max_left n n') w r h
    rw [hf (Nat.le_max_right n n') w r' h'] at hr
    exact (Option.some.inj hr).symm
  unfold limit
  split
  · rename_i h
    constructor
    · intro hr
      rw [← hr]
      exact h.choose_spec
    · rintro ⟨n, hn⟩
      obtain ⟨k, hk⟩ := h.choose_spec
      rw [unique hk hn]
  · rename_i h
    constructor
    · intro hr
      exact nomatch hr
    · rintro ⟨n, hn⟩
      exact absurd ⟨r, n, hn⟩ h

theorem le_limit {f : ℕ → Course ω ε α} (hf : Monotone f) (n : ℕ) : f n ≤ limit f :=
  fun _ _ h => (limit_eq_some_iff hf).2 ⟨n, h⟩

theorem limit_le {f : ℕ → Course ω ε α} (hf : Monotone f) {m : Course ω ε α}
    (h : ∀ n, f n ≤ m) : limit f ≤ m := by
  intro w r hr
  obtain ⟨n, hn⟩ := (limit_eq_some_iff hf).1 hr
  exact h n w r hn

/-! ### Recursions -/

/-- A body that needs only finitely many unfoldings of what it calls to come to an outcome. -/
structure Finitary (F : (ι → Course ω ε α) → Course ω ε β) : Prop where
  mono : Monotone F
  exists_of_limit : ∀ f : ℕ → ι → Course ω ε α, Monotone f → ∀ w r,
    F (fun i => limit fun n => f n i) w = some r → ∃ n, F (f n) w = some r

/-- A body that calls nothing. -/
theorem Finitary.const (m : Course ω ε β) : Finitary fun _ : ι → Course ω ε α => m where
  mono _ _ _ := le_refl m
  exists_of_limit _ _ _ _ h := ⟨0, h⟩

/-- A single call. -/
theorem Finitary.call (i : ι) : Finitary fun f : ι → Course ω ε α => f i where
  mono _ _ h := h i
  exists_of_limit _ hf _ _ h := (limit_eq_some_iff fun _ _ hn => hf hn i).1 h

/-- One body after the other. -/
theorem Finitary.bind {F : (ι → Course ω ε α) → Course ω ε β}
    {G : β → (ι → Course ω ε α) → Course ω ε γ} (hF : Finitary F) (hG : ∀ b, Finitary (G b)) :
    Finitary fun f => F f >>= fun b => G b f where
  mono _ _ h := bind_le_bind (hF.mono h) fun b => (hG b).mono h
  exists_of_limit f hf w r h := by
    rcases bind_eq_some_iff.1 h with ⟨b, v, hb, hr⟩ | ⟨e, v, he, rfl⟩
    · obtain ⟨n, hn⟩ := hF.exists_of_limit f hf w _ hb
      obtain ⟨k, hk⟩ := (hG b).exists_of_limit f hf v r hr
      have hn' := hF.mono (hf (Nat.le_max_left n k)) w _ hn
      have hk' := (hG b).mono (hf (Nat.le_max_right n k)) v r hk
      exact ⟨max n k, bind_eq_some_iff.2 (Or.inl ⟨b, v, hn', hk'⟩)⟩
    · obtain ⟨n, hn⟩ := hF.exists_of_limit f hf w _ he
      exact ⟨n, bind_eq_some_iff.2 (Or.inr ⟨e, v, hn, rfl⟩)⟩

/-- What a recursion with the body `F` comes to within `n` unfoldings. -/
def unfold (F : (ι → Course ω ε α) → ι → Course ω ε α) : ℕ → ι → Course ω ε α
  | 0 => fun _ => endless
  | n + 1 => F (unfold F n)

theorem unfold_succ (F : (ι → Course ω ε α) → ι → Course ω ε α) (n : ℕ) :
    unfold F (n + 1) = F (unfold F n) := rfl

/-- What a recursion with the body `F` comes to. -/
noncomputable def fix (F : (ι → Course ω ε α) → ι → Course ω ε α) (i : ι) : Course ω ε α :=
  limit fun n => unfold F n i

section Recursion

variable {F : (ι → Course ω ε α) → ι → Course ω ε α}

theorem monotone_unfold (hF : Monotone F) : Monotone (unfold F) := by
  refine monotone_nat_of_le_succ fun n => ?_
  induction n with
  | zero => exact fun i => endless_le _
  | succ n ih => exact hF ih

theorem fix_eq_some_iff (hF : Monotone F) {i : ι} {w : ω} {r : EStateM.Result ε ω α} :
    fix F i w = some r ↔ ∃ n, unfold F n i w = some r :=
  limit_eq_some_iff fun _ _ h => monotone_unfold hF h i

theorem unfold_le_fix (hF : Monotone F) (n : ℕ) : unfold F n ≤ fix F :=
  fun i => le_limit (fun _ _ h => monotone_unfold hF h i) n

/-- **A recursion solves its equation.** -/
theorem fix_eq (hF : ∀ i, Finitary fun f => F f i) : fix F = F (fix F) := by
  have mono : Monotone F := fun f g h i => (hF i).mono h
  apply le_antisymm
  · intro i
    refine limit_le (fun _ _ h => monotone_unfold mono h i) fun n => ?_
    exact (monotone_unfold mono (Nat.le_succ n) i).trans (mono (unfold_le_fix mono n) i)
  · intro i w r h
    obtain ⟨n, hn⟩ := (hF i).exists_of_limit (unfold F) (monotone_unfold mono) w r h
    exact (fix_eq_some_iff mono).2 ⟨n + 1, hn⟩

/-- **A recursion lies below every other solution of its equation.** -/
theorem fix_le (hF : Monotone F) {G : ι → Course ω ε α} (hG : F G ≤ G) : fix F ≤ G := by
  intro i
  refine limit_le (fun _ _ h => monotone_unfold hF h i) fun n => ?_
  induction n generalizing i with
  | zero => exact endless_le _
  | succ n ih => exact (hF ih i).trans (hG i)

/-- What follows a recursion lies below all that lies above what follows its unfoldings. -/
theorem fix_bind_le (hF : Monotone F) {i : ι} {f : α → Course ω ε β} {m : Course ω ε β}
    (h : ∀ n, unfold F n i >>= f ≤ m) : fix F i >>= f ≤ m := by
  intro w r hr
  rcases bind_eq_some_iff.1 hr with ⟨a, v, ha, hr⟩ | ⟨e, v, he, rfl⟩
  · obtain ⟨n, hn⟩ := (fix_eq_some_iff hF).1 ha
    exact h n w r (bind_eq_some_iff.2 (Or.inl ⟨a, v, hn, hr⟩))
  · obtain ⟨n, hn⟩ := (fix_eq_some_iff hF).1 he
    exact h n w _ (bind_eq_some_iff.2 (Or.inr ⟨e, v, hn, rfl⟩))

end Recursion

/-! ### Courses with related outcomes -/

/-- Two outcomes in one world: both are missing, both are the same failure, or both are results, and
these are related. -/
inductive Matches (R : α → β → Prop) :
    Option (EStateM.Result ε ω α) → Option (EStateM.Result ε ω β) → Prop
  | endless : Matches R none none
  | ok {a : α} {b : β} (w : ω) : R a b → Matches R (some (.ok a w)) (some (.ok b w))
  | error (e : ε) (w : ω) : Matches R (some (.error e w)) (some (.error e w))

/-- Two courses do the same to every world, and their results are related. -/
def Alike (R : α → β → Prop) (m : Course ω ε α) (c : Course ω ε β) : Prop :=
  ∀ w, Matches R (m w) (c w)

section Simulation

variable {R : α → β → Prop}

theorem Alike.refl (m : Course ω ε α) : Alike Eq m m := by
  intro w
  rcases m w with _ | ⟨a, v⟩ | ⟨e, v⟩
  · exact Matches.endless
  · exact Matches.ok v rfl
  · exact Matches.error e v

theorem Alike.pure {a : α} {b : β} (h : R a b) :
    Alike R (pure a : Course ω ε α) (pure b : Course ω ε β) :=
  fun w => Matches.ok w h

theorem Alike.bind {α' β' : Type} {S : α' → β' → Prop} {m : Course ω ε α} {c : Course ω ε β}
    {f : α → Course ω ε α'} {g : β → Course ω ε β'} (h : Alike R m c)
    (hfg : ∀ a b, R a b → Alike S (f a) (g b)) : Alike S (m >>= f) (c >>= g) := by
  intro w
  have hw := h w
  rcases hm : m w with _ | ⟨a, v⟩ | ⟨e, v⟩ <;> rcases hc : c w with _ | ⟨b, v'⟩ | ⟨e', v'⟩ <;>
    rw [hm, hc] at hw <;> cases hw
  · rw [bind_of_none hm, bind_of_none hc]
    exact Matches.endless
  · rename_i hab
    rw [bind_of_ok hm, bind_of_ok hc]
    exact hfg a b hab v
  · rw [bind_of_error hm, bind_of_error hc]
    exact Matches.error e v

/-- A common beginning. -/
theorem Alike.bind_same {α' β' : Type} {S : α' → β' → Prop} (m : Course ω ε α)
    {f : α → Course ω ε α'} {g : α → Course ω ε β'} (hfg : ∀ a, Alike S (f a) (g a)) :
    Alike S (m >>= f) (m >>= g) :=
  (Alike.refl m).bind fun a _ h => h ▸ hfg a

/-- A common beginning, an action of which it is known what it gives. -/
theorem Alike.act_bind {α' β' : Type} {S : α' → β' → Prop} (m : Act ω ε α)
    {f : α → Course ω ε α'} {g : α → Course ω ε β'}
    (hfg : ∀ w a v, m w = .ok a v → Alike S (f a) (g a)) : Alike S (act m >>= f) (act m >>= g) := by
  intro w
  rcases hm : m w with ⟨a, v⟩ | ⟨e, v⟩
  · rw [act_bind_of_ok hm, act_bind_of_ok hm]
    exact hfg w a v hm v
  · rw [act_bind_of_error hm, act_bind_of_error hm]
    exact Matches.error e v

/-- What is alike at every unfolding is alike in the limit. -/
theorem Alike.limit {f : ℕ → Course ω ε α} {g : ℕ → Course ω ε β} (hf : Monotone f)
    (hg : Monotone g) (h : ∀ n, Alike R (f n) (g n)) : Alike R (limit f) (limit g) := by
  intro w
  cases hw : Course.limit f w with
  | some r =>
      obtain ⟨n, hn⟩ := (limit_eq_some_iff hf).1 hw
      have hnw := h n w
      rw [hn] at hnw
      cases hg' : g n w with
      | none => rw [hg'] at hnw; cases hnw
      | some s => rwa [(limit_eq_some_iff hg).2 ⟨n, hg'⟩, ← hg']
  | none =>
      cases hw' : Course.limit g w with
      | none => exact Matches.endless
      | some s =>
          obtain ⟨n, hn⟩ := (limit_eq_some_iff hg).1 hw'
          have hnw := h n w
          rw [hn] at hnw
          cases hf' : f n w with
          | none => rw [hf'] at hnw; cases hnw
          | some r => rw [(limit_eq_some_iff hf).2 ⟨n, hf'⟩] at hw; cases hw

theorem Alike.mono {S : α → β → Prop} {m : Course ω ε α} {c : Course ω ε β} (h : Alike R m c)
    (hRS : ∀ a b, R a b → S a b) : Alike S m c := by
  intro w
  have hw := h w
  generalize m w = x at hw ⊢
  generalize c w = y at hw ⊢
  cases hw with
  | endless => exact Matches.endless
  | ok v hab => exact Matches.ok v (hRS _ _ hab)
  | error e v => exact Matches.error e v

/-- What follows alike courses is the same, if it is the same for related results. -/
theorem Alike.bind_eq {m : Course ω ε α} {c : Course ω ε β} {f : α → Course ω ε γ}
    {g : β → Course ω ε γ} (h : Alike R m c) (hfg : ∀ a b, R a b → f a = g b) :
    m >>= f = c >>= g := by
  funext w
  have hw := h w
  rcases hm : m w with _ | ⟨a, v⟩ | ⟨e, v⟩ <;> rcases hc : c w with _ | ⟨b, v'⟩ | ⟨e', v'⟩ <;>
    rw [hm, hc] at hw <;> cases hw
  · rw [bind_of_none hm, bind_of_none hc]
  · rename_i hab
    rw [bind_of_ok hm, bind_of_ok hc, hfg a b hab]
  · rw [bind_of_error hm, bind_of_error hc]

/-- Courses without results that are alike are the same. -/
theorem Alike.eq {m : Course ω ε α} {c : Course ω ε β} {f : α → γ} {g : β → γ}
    (h : Alike R m c) (hR : ∀ a b, R a b → f a = g b) : f <$> m = g <$> c := by
  rw [map_eq_pure_bind, map_eq_pure_bind]
  exact h.bind_eq fun a b hab => by rw [hR a b hab]

end Simulation

/-! ### A state carried along -/

/-- A course over a world with a state beside it, as a course over the world alone that carries the
state along. -/
def carry (t : τ) (m : Course (τ × ω) ε α) : Course ω ε (α × τ) := fun w =>
  match m (t, w) with
  | none => none
  | some (.ok a v) => some (.ok (a, v.1) v.2)
  | some (.error e v) => some (.error e v.2)

section Carry

variable (t : τ)

@[simp] theorem carry_pure (a : α) : carry t (pure a : Course (τ × ω) ε α) = pure (a, t) := rfl

@[simp] theorem carry_bind (m : Course (τ × ω) ε α) (f : α → Course (τ × ω) ε β) :
    carry t (m >>= f) = carry t m >>= fun x => carry x.2 (f x.1) := by
  funext w
  rcases h : m (t, w) with _ | ⟨a, v⟩ | ⟨e, v⟩ <;> simp only [carry, Bind.bind, h]

theorem carry_map (f : α → β) (m : Course (τ × ω) ε α) :
    carry t (f <$> m) = (fun x => (f x.1, x.2)) <$> carry t m := by
  rw [map_eq_pure_bind, map_eq_pure_bind, carry_bind]
  rfl

@[simp] theorem carry_act_beside (m : Act ω ε α) :
    carry t (act (Act.beside m)) = act m >>= fun a => pure (a, t) := by
  funext w
  rcases h : m w with ⟨a, v⟩ | ⟨e, v⟩
  · simp only [carry, act, Act.beside, Bind.bind, h]
    rfl
  · simp only [carry, act, Act.beside, Bind.bind, h]

@[simp] theorem carry_read :
    carry t (act (Cell.beside.read : Act (τ × ω) ε τ)) = pure (t, t) := rfl

@[simp] theorem carry_modify (f : τ → τ) :
    carry t (act (Cell.beside.modify f : Act (τ × ω) ε Unit)) = pure ((), f t) := rfl

theorem monotone_carry : Monotone (carry t : Course (τ × ω) ε α → Course ω ε (α × τ)) := by
  intro m m' h w r hr
  rcases hm : m (t, w) with _ | ⟨a, v⟩ | ⟨e, v⟩ <;> simp only [carry, hm, reduceCtorEq] at hr
  · simpa only [carry, h _ _ hm] using hr
  · simpa only [carry, h _ _ hm] using hr

theorem carry_limit {f : ℕ → Course (τ × ω) ε α} (hf : Monotone f) :
    carry t (limit f) = limit fun n => carry t (f n) := by
  have hcf : Monotone fun n => carry t (f n) := fun _ _ h => monotone_carry t (hf h)
  apply le_antisymm
  · intro w r hr
    rw [limit_eq_some_iff hcf]
    cases hw : limit f (t, w) with
    | none => simp only [carry, hw, reduceCtorEq] at hr
    | some s =>
        obtain ⟨n, hn⟩ := (limit_eq_some_iff hf).1 hw
        refine ⟨n, ?_⟩
        simp only [carry, hw] at hr
        simpa only [carry, hn] using hr
  · exact limit_le hcf fun n => monotone_carry t (le_limit hf n)

end Carry

end Course

end GraphRoutes
