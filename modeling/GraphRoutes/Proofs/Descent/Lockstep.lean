/-
**Walks in lockstep: what a walk does cannot depend on how it keeps its ancestors.**

Two walks over the same candidates may keep different things of the ancestors of an element, and
give their results in different forms.  They go in lockstep if all that they ask of their callers
comes to the same at related paths.  Then they ask for the same things in the same order, and give
results that correspond to each other.

The paths below an element may fall apart, provided that nothing is visited there: an ancestor that
is equal to another one may be kept by one walk and not by the other, if it has no children.  So two
levels do the same if their paths are related, or if their candidates have come to an end.

Main definitions:

* `GraphRoutes.Resolution.Rel`, `GraphRoutes.Note.Rel` — answers and reports with corresponding
  results;
* `GraphRoutes.Walk.Lockstep` — all that two walks ask for comes to the same;
* `GraphRoutes.Walk.InStep` — two recursions do the same at related levels.

Main results:

* `GraphRoutes.Walk.Lockstep.levelStep` — one unfolding in lockstep;
* `GraphRoutes.Walk.Lockstep.drive_start` — **walks in lockstep do the same.**
-/
import GraphRoutes.Proofs.Descent.Level

set_option relaxedAutoImplicit false
set_option autoImplicit false

namespace GraphRoutes

open Course

variable {ω ε α π ρ κ τ β γ : Type}

/-- The same answer of two policies, with results that correspond. -/
inductive Resolution.Rel (S : β → γ → Prop) : Resolution β → Resolution γ → Prop
  | descend : Resolution.Rel S .descend .descend
  | advance : Resolution.Rel S .advance .advance
  | cut : Resolution.Rel S .cut .cut
  | substitute {b : β} {c : γ} : S b c → Resolution.Rel S (.substitute b) (.substitute c)

/-- The same report of two descents, with results that correspond. -/
inductive Note.Rel (S : β → γ → Prop) : Note α β → Note α γ → Prop
  | checkpoint (n : ℕ) (a : α) : Note.Rel S (.checkpoint n a) (.checkpoint n a)
  | abandoned (n depth : ℕ) (a : α) : Note.Rel S (.abandoned n depth a) (.abandoned n depth a)
  | abandonedWithSiblings (n depth : ℕ) (a : α) :
      Note.Rel S (.abandonedWithSiblings n depth a) (.abandonedWithSiblings n depth a)
  | substituted (n : ℕ) (a : α) {b : β} {c : γ} :
      S b c → Note.Rel S (.substituted n a b) (.substituted n a c)

namespace Walk

/-- **Two walks in lockstep.**  `R` relates their paths and `S` their results; `below p a` says that
something may be visited below the element `a` with the path `p`. -/
structure Lockstep (env : Env ω ε α π κ τ β) (env' : Env ω ε α ρ κ τ γ) (consume : β → Act ω ε Unit)
    (consume' : γ → Act ω ε Unit) (R : π → ρ → Prop) (S : β → γ → Prop) (below : π → α → Prop) :
    Prop where
  next : env'.next = env.next
  truth : env'.truth = env.truth
  consume {b : β} {c : γ} : S b c → consume' c = consume b
  report {note : Note α β} {note' : Note α γ} :
    Note.Rel S note note' → env'.report note' = env.report note
  control {p : π} {q : ρ} : R p q → ∀ a, env'.control q a = env.control p a
  result {p : π} {q : ρ} : R p q → ∀ a, Alike S (act (env.result p a)) (act (env'.result q a))
  policy {p : π} {q : ρ} : R p q → ∀ a depth n,
    Alike (Resolution.Rel S) (act (env.policy p a depth n)) (act (env'.policy q a depth n))
  children {p : π} {q : ρ} : R p q → ∀ a, env'.children q a = env.children p a
  restart {p : π} {q : ρ} : R p q → Alike R (act (env.restart p)) (act (env'.restart q))
  extend {p : π} {q : ρ} : R p q → ∀ a,
    Alike (fun p' q' => below p a → R p' q') (act (env.extend p a)) (act (env'.extend q a))
  barren {p : π} {q : ρ} : R p q → ∀ {a w k v}, ¬ below p a → env.children p a w = .ok k v →
    ∃ u, env.next k v = .ok none u

/-- Two recursions do the same at levels whose paths are related, and at levels whose candidates have
come to an end. -/
def InStep (next : Source ω ε κ α) (R : π → ρ → Prop) (level : Level π κ → Course ω ε (Option ℕ))
    (level' : Level ρ κ → Course ω ε (Option ℕ)) : Prop :=
  ∀ path path' depth candidates n w, (R path path' ∨ ∃ u, next candidates w = .ok none u) →
    level { path, depth, candidates, fruitless := n } w =
      level' { path := path', depth, candidates, fruitless := n } w

namespace Lockstep

variable {env : Env ω ε α π κ τ β} {env' : Env ω ε α ρ κ τ γ} {consume : β → Act ω ε Unit}
  {consume' : γ → Act ω ε Unit} {R : π → ρ → Prop} {S : β → γ → Prop} {below : π → α → Prop}
  {level : Level π κ → Course ω ε (Option ℕ)} {level' : Level ρ κ → Course ω ε (Option ℕ)}
  {limits : Limits} {p : π} {q : ρ}

/-- What is given corresponds. -/
theorem emit (h : Lockstep env env' consume consume' R S below) (hpq : R p q) (a : α)
    (i : Instruction τ) (n : ℕ) :
    emit env consume p a i n = Walk.emit env' consume' q a i n := by
  simp only [Walk.emit, h.truth]
  refine bind_congr fun emits => ?_
  cases emits with
  | false => rfl
  | true =>
      simp only [if_true]
      refine (h.result hpq a).bind_eq fun b c hbc => ?_
      rw [h.consume hbc]

/-- The paths of the children are related, if there are any children to be visited. -/
theorem childPath (h : Lockstep env env' consume consume' R S below) (hpq : R p q)
    (pending : Pending α τ) :
    Alike (fun p' q' => below p pending.element → R p' q') (childPath env p pending)
      (Walk.childPath env' q pending) := by
  simp only [Walk.childPath, h.truth]
  refine Alike.bind_same _ fun resets => ?_
  cases resets with
  | true =>
      simp only [if_true]
      exact (h.restart hpq).mono fun _ _ hR _ => hR
  | false =>
      simp only [Bool.false_eq_true, if_false]
      exact h.extend hpq pending.element

theorem descend (h : Lockstep env env' consume consume' R S below) (hl : InStep env.next R level level')
    (hpq : R p q) (depth : ℕ) (pending : Pending α τ) (n : ℕ) :
    descend env level p depth pending n = Walk.descend env' level' q depth pending n := by
  simp only [Walk.descend]
  refine (h.childPath hpq pending).bind_eq fun p' q' hrest => ?_
  rw [h.children hpq]
  funext w
  refine act_bind_congr fun k v hk => ?_
  -- either the paths are related, or nothing is visited below the element
  have done : level { path := p', depth := depth + 1, candidates := k, fruitless := n } v =
      level' { path := q', depth := depth + 1, candidates := k, fruitless := n } v := by
    refine hl p' q' (depth + 1) k n v ?_
    by_cases hbelow : below p pending.element
    · exact Or.inl (hrest hbelow)
    · exact Or.inr (h.barren hpq hbelow hk)
  simp only [Bind.bind, done]

theorem subtree (h : Lockstep env env' consume consume' R S below) (hl : InStep env.next R level level')
    (hpq : R p q) (depth : ℕ) (pending : Pending α τ) (n : ℕ) :
    subtree env limits consume level p depth pending n =
      Walk.subtree env' limits consume' level' q depth pending n := by
  have hdescend := h.descend hl hpq depth pending
  simp only [Walk.subtree, h.truth]
  refine bind_congr fun descends => ?_
  split
  · rfl
  · split
    · exact hdescend (n + 1)
    · rw [h.report (Note.Rel.checkpoint (n + 1) pending.element)]
      refine bind_congr fun _ => ?_
      refine (h.policy hpq pending.element depth (n + 1)).bind_eq fun r r' hr => ?_
      cases hr with
      | descend => exact hdescend (n + 1)
      | advance => rw [h.report (Note.Rel.abandoned (n + 1) depth pending.element)]
      | cut => rw [h.report (Note.Rel.abandonedWithSiblings (n + 1) depth pending.element)]
      | substitute hbc =>
          simp only [h.report (Note.Rel.substituted (n + 1) pending.element hbc), h.consume hbc]

/-- **One unfolding in lockstep.** -/
theorem levelStep (h : Lockstep env env' consume consume' R S below)
    (hl : InStep env.next R level level') :
    InStep env.next R (levelStep env limits consume level)
      (Walk.levelStep env' limits consume' level') := by
  rintro p q depth candidates n w hrelated
  simp only [Walk.levelStep, h.next]
  refine act_bind_congr fun found v hfound => ?_
  rcases found with _ | ⟨a, rest⟩
  · rfl
  · rcases hrelated with hpq | ⟨u, hend⟩
    · -- the siblings stand below the same paths
      have siblings : ∀ m, level { path := p, depth, candidates := rest, fruitless := m } =
          level' { path := q, depth, candidates := rest, fruitless := m } :=
        fun m => funext fun w => hl p q depth rest m w (Or.inl hpq)
      simp only [h.control hpq, h.truth, h.emit hpq, h.subtree hl hpq, siblings]
    · rw [hend] at hfound
      cases hfound

theorem unfold (h : Lockstep env env' consume consume' R S below) (n : ℕ) :
    InStep env.next R (Course.unfold (Walk.levelStep env limits consume) n)
      (Course.unfold (Walk.levelStep env' limits consume') n) := by
  induction n with
  | zero => exact fun _ _ _ _ _ _ _ => rfl
  | succ n ih => exact h.levelStep ih

/-- **Walks in lockstep do the same**, if their first paths are related. -/
theorem drive_start (h : Lockstep env env' consume consume' R S below) (limits : Limits) (hpq : R p q)
    (k : κ) :
    Machine.drive (step env limits) consume (start p k) =
      Machine.drive (step env' limits) consume' (start q k) := by
  have levels : level env limits consume { path := p, depth := 0, candidates := k } =
      Walk.level env' limits consume' { path := q, depth := 0, candidates := k } := by
    funext w
    apply Option.ext
    intro r
    rw [Walk.level, Walk.level, fix_eq_some_iff (monotone_levelStep env limits consume),
      fix_eq_some_iff (monotone_levelStep env' limits consume')]
    exact exists_congr fun n => by rw [h.unfold n p q 0 k 0 w (Or.inl hpq)]
  rw [Walk.drive_start, Walk.drive_start, levels]

end Lockstep

end Walk

end GraphRoutes
