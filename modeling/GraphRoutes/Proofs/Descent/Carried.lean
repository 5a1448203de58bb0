/-
**Walks whose paths live in a world of their own.**

A path may be a list, which lives in a world, and every path that is made there changes that world.  Whoever
else acts on a walk (its candidates, its control, its consumer) may live in another world and know nothing of
it.  Then the walk can be compared with one that keeps its paths nowhere: if all that is asked about a path
comes to the same, both do the same in the world of the others.

The world of the paths grows as the walk goes on, and a path of an outer level is looked at again when the
inner levels are done.  So a path must stand for what it stands for in every later world.

Main definitions:

* `GraphRoutes.Walk.Carried` — a walk stands for another that keeps its paths nowhere;
* `GraphRoutes.Walk.CarriedLevels` — two recursions do the same at levels whose paths stand for each other.

Main results:

* `GraphRoutes.Walk.Carried.levelStep` — one unfolding;
* `GraphRoutes.Walk.Carried.drive_start` — **the world of the paths does not show.**
-/
import GraphRoutes.Proofs.Descent.Level

set_option relaxedAutoImplicit false
set_option autoImplicit false

namespace GraphRoutes.Walk

open Course

variable {τ ω ε α π ρ κ δ β : Type}

/-- **A walk with a world of its own for its paths**, and one that keeps its paths nowhere.  `R t p q` says
that in the world `t` the path `p` stands for `q`, `grows` that one such world comes after another, and `good`
is what is known of all elements that are visited. -/
structure Carried (env : Env (τ × ω) ε α π κ δ β) (env' : Env ω ε α ρ κ δ β) (good : α → Prop)
    (grows : τ → τ → Prop) (R : τ → π → ρ → Prop) : Prop where
  refl (t : τ) : grows t t
  trans {t u v : τ} : grows t u → grows u v → grows t v
  stable {t u : τ} {p : π} {q : ρ} : grows t u → R t p q → R u p q
  next (k : κ) : env.next k = Act.beside (env'.next k)
  visited {k k' : κ} {a : α} {w v : ω} : env'.next k w = .ok (some (a, k')) v → good a
  truth (d : δ) : env.truth d = Act.beside (env'.truth d)
  report (note : Note α β) : env.report note = Act.beside (env'.report note)
  control {t : τ} {p : π} {q : ρ} {a : α} : R t p q → good a →
    carry t (act (env.control p a)) = act (env'.control q a) >>= fun i => pure (i, t)
  result {t : τ} {p : π} {q : ρ} : R t p q → ∀ a,
    carry t (act (env.result p a)) = act (env'.result q a) >>= fun b => pure (b, t)
  policy {t : τ} {p : π} {q : ρ} {a : α} : R t p q → good a → ∀ depth n,
    carry t (act (env.policy p a depth n)) = act (env'.policy q a depth n) >>= fun r => pure (r, t)
  children {t : τ} {p : π} {q : ρ} {a : α} : R t p q → good a →
    carry t (act (env.children p a)) = act (env'.children q a) >>= fun k => pure (k, t)
  restart {t : τ} {p : π} {q : ρ} : R t p q →
    Alike (fun x q' => R x.2 x.1 q' ∧ grows t x.2) (carry t (act (env.restart p)))
      (act (env'.restart q))
  extend {t : τ} {p : π} {q : ρ} {a : α} : R t p q → good a →
    Alike (fun x q' => R x.2 x.1 q' ∧ grows t x.2) (carry t (act (env.extend p a)))
      (act (env'.extend q a))

/-- Two recursions do the same at levels whose paths stand for each other. -/
def CarriedLevels (grows : τ → τ → Prop) (R : τ → π → ρ → Prop)
    (level : Level π κ → Course (τ × ω) ε (Option ℕ)) (level' : Level ρ κ → Course ω ε (Option ℕ)) :
    Prop :=
  ∀ t p q depth k n, R t p q → Alike (fun x o => x.1 = o ∧ grows t x.2)
    (carry t (level { path := p, depth, candidates := k, fruitless := n }))
    (level' { path := q, depth, candidates := k, fruitless := n })

namespace Carried

variable {env : Env (τ × ω) ε α π κ δ β} {env' : Env ω ε α ρ κ δ β} {good : α → Prop}
  {grows : τ → τ → Prop} {R : τ → π → ρ → Prop}
  {level : Level π κ → Course (τ × ω) ε (Option ℕ)} {level' : Level ρ κ → Course ω ε (Option ℕ)}
  {limits : Limits} {consume : β → Act ω ε Unit} {t : τ} {p : π} {q : ρ} {a : α}

/-- What is known already is the same in a later world. -/
theorem known {γ : Type} (c : γ) {u : τ} (hgrows : grows t u) :
    Alike (fun x y => x.1 = y ∧ grows t x.2) (carry u (pure c : Course (τ × ω) ε γ))
      (pure c : Course ω ε γ) := by
  rw [carry_pure]
  refine Alike.pure ?_
  exact ⟨rfl, hgrows⟩

/-- What is given is the same. -/
theorem emit (h : Carried env env' good grows R) (hpq : R t p q) (a : α) (i : Instruction δ) (n : ℕ) :
    carry t (emit env (fun b => Act.beside (consume b)) p a i n) =
      Walk.emit env' consume q a i n >>= fun n => pure (n, t) := by
  simp only [Walk.emit, h.truth, carry_bind, carry_act_beside, bind_assoc, pure_bind]
  refine bind_congr fun emits => ?_
  cases emits with
  | false => simp only [Bool.false_eq_true, if_false, carry_pure, pure_bind]
  | true =>
      simp only [if_true, carry_bind, h.result hpq, bind_assoc, pure_bind, carry_act_beside, carry_pure]

/-- The path of the children stands for that of the other walk. -/
theorem childPath (h : Carried env env' good grows R) (hpq : R t p q) {pending : Pending α δ}
    (hgood : good pending.element) :
    Alike (fun x q' => R x.2 x.1 q' ∧ grows t x.2) (carry t (childPath env p pending))
      (Walk.childPath env' q pending) := by
  simp only [Walk.childPath, h.truth, carry_bind, carry_act_beside, bind_assoc, pure_bind]
  refine Alike.bind_same _ fun resets => ?_
  cases resets with
  | true => exact h.restart hpq
  | false => exact h.extend hpq hgood

theorem descend (h : Carried env env' good grows R) (hl : CarriedLevels grows R level level')
    (hpq : R t p q) (depth : ℕ) {pending : Pending α δ} (hgood : good pending.element) (n : ℕ) :
    Alike (fun x s => x.1 = s ∧ grows t x.2) (carry t (descend env level p depth pending n))
      (Walk.descend env' level' q depth pending n) := by
  simp only [Walk.descend, carry_bind, carry_pure]
  refine (h.childPath hpq hgood).bind ?_
  rintro ⟨p', u⟩ q' ⟨hpq', hgrows⟩
  rw [h.children (h.stable hgrows hpq) hgood, bind_assoc]
  refine Alike.bind_same _ fun k => ?_
  rw [pure_bind]
  refine (hl u p' q' (depth + 1) k n hpq').bind ?_
  rintro ⟨done, v⟩ _ ⟨rfl, hlater⟩
  exact known _ (h.trans hgrows hlater)

theorem subtree (h : Carried env env' good grows R) (hl : CarriedLevels grows R level level')
    (hpq : R t p q) (depth : ℕ) {pending : Pending α δ} (hgood : good pending.element) (n : ℕ) :
    Alike (fun x s => x.1 = s ∧ grows t x.2)
      (carry t (subtree env limits (fun b => Act.beside (consume b)) level p depth pending n))
      (Walk.subtree env' limits consume level' q depth pending n) := by
  have hdescend := h.descend hl hpq depth hgood
  simp only [Walk.subtree, h.truth, carry_bind, carry_act_beside, bind_assoc, pure_bind]
  refine Alike.bind_same _ fun descends => ?_
  split
  · exact known _ (h.refl t)
  · split
    · exact hdescend (n + 1)
    · simp only [h.report, h.policy hpq hgood, carry_bind, carry_act_beside, bind_assoc, pure_bind]
      refine Alike.bind_same _ fun _ => Alike.bind_same _ fun resolution => ?_
      cases resolution with
      | descend => exact hdescend (n + 1)
      | advance | cut =>
          simp only [carry_bind, carry_act_beside, bind_assoc, pure_bind]
          exact Alike.bind_same _ fun _ => known _ (h.refl t)
      | substitute b =>
          simp only [carry_bind, carry_act_beside, bind_assoc, pure_bind]
          exact Alike.bind_same _ fun _ => Alike.bind_same _ fun _ => known _ (h.refl t)

/-- **One unfolding** at levels whose paths stand for each other. -/
theorem levelStep (h : Carried env env' good grows R) (hl : CarriedLevels grows R level level') :
    CarriedLevels grows R (levelStep env limits (fun b => Act.beside (consume b)) level)
      (Walk.levelStep env' limits consume level') := by
  intro t p q depth k n hpq
  simp only [Walk.levelStep, h.next, carry_bind, carry_act_beside, bind_assoc, pure_bind]
  refine Alike.act_bind _ fun w found v hfound => ?_
  rcases found with _ | ⟨a, rest⟩
  · exact known _ (h.refl t)
  · have hgood := h.visited hfound
    simp only [carry_bind, h.control hpq hgood, h.truth, carry_act_beside, h.emit hpq, bind_assoc, pure_bind]
    refine Alike.bind_same _ fun i => Alike.bind_same _ fun goesOn => Alike.bind_same _ fun n => ?_
    refine (h.subtree hl hpq depth hgood n).bind ?_
    rintro ⟨sequel, u⟩ _ ⟨rfl, hgrows⟩
    cases sequel with
    | ended | leave n => exact known _ hgrows
    | siblings n =>
        cases goesOn with
        | false => exact known _ hgrows
        | true =>
            -- the siblings have the same path, and it stands for the same in the later world
            refine (hl u p q depth rest n (h.stable hgrows hpq)).mono ?_
            rintro ⟨o, v⟩ _ ⟨rfl, hlater⟩
            exact ⟨rfl, h.trans hgrows hlater⟩

theorem unfold (h : Carried env env' good grows R) (limits : Limits) (consume : β → Act ω ε Unit)
    (n : ℕ) : CarriedLevels grows R
      (Course.unfold (Walk.levelStep env limits fun b => Act.beside (consume b)) n)
      (Course.unfold (Walk.levelStep env' limits consume) n) := by
  induction n with
  | zero => exact fun _ _ _ _ _ _ _ _ => Matches.endless
  | succ n ih => exact h.levelStep ih

/-- **The world of the paths does not show.**  A walk does in the world of the others what it would do if it
kept its paths nowhere. -/
theorem drive_start (h : Carried env env' good grows R) (limits : Limits) (consume : β → Act ω ε Unit)
    (hpq : R t p q) (k : κ) :
    Prod.fst <$> carry t
        (Machine.drive (step env limits) (fun b => Act.beside (consume b)) (start p k)) =
      Machine.drive (step env' limits) consume (start q k) := by
  let l : Level π κ := { path := p, depth := 0, candidates := k }
  let l' : Level ρ κ := { path := q, depth := 0, candidates := k }
  have hmono : Monotone fun n =>
      Course.unfold (Walk.levelStep env limits fun b => Act.beside (consume b)) n l :=
    fun _ _ hn => monotone_unfold (monotone_levelStep _ _ _) hn l
  have hmono' : Monotone fun n => Course.unfold (Walk.levelStep env' limits consume) n l' :=
    fun _ _ hn => monotone_unfold (monotone_levelStep _ _ _) hn l'
  have levels := Alike.limit (fun _ _ hn => monotone_carry t (hmono hn)) hmono' fun n =>
    h.unfold limits consume n t p q 0 k 0 hpq
  rw [← carry_limit t hmono] at levels
  rw [Walk.drive_start, Walk.drive_start, carry_map, Functor.map_map]
  exact levels.eq fun _ _ _ => rfl

end Carried

end GraphRoutes.Walk
