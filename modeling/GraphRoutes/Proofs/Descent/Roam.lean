/-
**Walks that are never given up.**

A walk asks its policy what to do when it has found nothing for long.  If the policy always sends it
on, and nobody hears of it, then the count of fruitless steps decides nothing, and can be forgotten.
The same holds if every element is given before the walk goes below it, and one step alone is never
too long.  What remains is the plain recursion over levels, without a count and without an answer
that ends it (`GraphRoutes.Walk.roam`).

Main definitions:

* `GraphRoutes.Walk.Patient` — the policy has no say;
* `GraphRoutes.Walk.roamStep`, `GraphRoutes.Walk.roam` — the recursion without a count;
* `GraphRoutes.Walk.asks` — whether the next step asks the policy;
* `GraphRoutes.Walk.siblings` — the loop over one level, where it is known what is done below.

Main results:

* `GraphRoutes.Walk.roam_eq`, `GraphRoutes.Walk.roam_le` — its equation, and what lies above it;
* `GraphRoutes.Walk.level_eq_roam` — **a patient walk only roams**;
* `GraphRoutes.Walk.step_tireless` — a policy that is not asked makes no difference;
* `GraphRoutes.Walk.roam_eq_siblings` — one level of the recursion is a loop.
-/
import GraphRoutes.Proofs.Descent.Level

set_option relaxedAutoImplicit false
set_option autoImplicit false

namespace GraphRoutes.Walk

open Course

variable {ω ε α π κ β : Type}

/-- Whenever the policy is asked below an element, it sends the walk on, and nobody hears of it.  The
count begins anew where the element is given. -/
def Patient (env : Env ω ε α π κ Bool β) (limits : Limits) : Prop :=
  ∀ path a w i v, env.control path a w = .ok i v → i.descend = true →
    ∀ n, (i.emit = true → n = 0) → limits.due (n + 1) = true →
      (∀ depth, env.policy path a depth (n + 1) = pure .descend) ∧
        env.report (.checkpoint (n + 1) a) = pure ()

section Recursion

variable (env : Env ω ε α π κ Bool β) (limits : Limits) (consume : β → Act ω ε Unit)

/-- Gives an element if its instruction says so. -/
def offer (path : π) (a : α) (i : Instruction Bool) : Course ω ε Unit :=
  if i.emit then do
    let b ← act (env.result path a)
    act (consume b)
  else pure ()

/-- Visits the level below an element, if its instruction and the depth allow it. -/
def roamBelow (roam : Level π κ → Course ω ε Unit) (l : Level π κ) (a : α) (i : Instruction Bool) :
    Course ω ε Unit :=
  if !i.descend || limits.maxDepth.any (· ≤ l.depth) then pure ()
  else do
    let below ← childPath env l.path { element := a, descend := i.descend, resetPath := i.resetPath }
    let children ← act (env.children l.path a)
    roam { path := below, depth := l.depth + 1, candidates := children }

/-- One level of the recursion without a count. -/
def roamStep (roam : Level π κ → Course ω ε Unit) (l : Level π κ) : Course ω ε Unit := do
  match ← act (env.next l.candidates) with
  | none => pure ()
  | some (a, rest) => do
    let i ← act (env.control l.path a)
    offer env consume l.path a i
    roamBelow env limits roam l a i
    if i.continueSiblings then
      roam { path := l.path, depth := l.depth, candidates := rest }
    else pure ()

/-- **The recursive walk without a count.** -/
noncomputable def roam : Level π κ → Course ω ε Unit := fix (roamStep env limits consume)

theorem finitary_roamStep (l : Level π κ) :
    Finitary fun roam => roamStep env limits consume roam l := by
  refine Finitary.bind (Finitary.const _) fun next => ?_
  rcases next with _ | ⟨a, rest⟩
  · exact Finitary.const _
  · refine Finitary.bind (Finitary.const _) fun i => Finitary.bind (Finitary.const _) fun _ =>
      Finitary.bind ?_ fun _ => ?_
    · unfold roamBelow
      split
      · exact Finitary.const _
      · exact Finitary.bind (Finitary.const _) fun _ => Finitary.bind (Finitary.const _) fun _ =>
          Finitary.call _
    · split
      · exact Finitary.call _
      · exact Finitary.const _

theorem monotone_roamStep : Monotone (roamStep env limits consume) :=
  fun _ _ h l => (finitary_roamStep env limits consume l).mono h

theorem roam_eq (l : Level π κ) :
    roam env limits consume l = roamStep env limits consume (roam env limits consume) l :=
  congrFun (fix_eq (finitary_roamStep env limits consume)) l

/-- Whatever is closed under the recursion lies above it. -/
theorem roam_le {G : Level π κ → Course ω ε Unit} (h : ∀ l, roamStep env limits consume G l ≤ G l)
    (l : Level π κ) : roam env limits consume l ≤ G l :=
  fix_le (monotone_roamStep env limits consume) h l

end Recursion

/-! ### One level is a loop -/

section Siblings

variable (env : Env ω ε α π κ Bool β) (consume : β → Act ω ε Unit) (path : π)
  (below : α → Instruction Bool → Course ω ε Unit)

/-- One candidate of a level, where `below` is what is done below an element. -/
def siblingsStep (loop : κ → Course ω ε Unit) (k : κ) : Course ω ε Unit := do
  match ← act (env.next k) with
  | none => pure ()
  | some (a, rest) => do
    let i ← act (env.control path a)
    offer env consume path a i
    below a i
    if i.continueSiblings then loop rest else pure ()

/-- The loop over the candidates of a level. -/
noncomputable def siblings : κ → Course ω ε Unit := fix (siblingsStep env consume path below)

theorem finitary_siblingsStep (k : κ) :
    Finitary fun loop => siblingsStep env consume path below loop k := by
  refine Finitary.bind (Finitary.const _) fun next => ?_
  rcases next with _ | ⟨a, rest⟩
  · exact Finitary.const _
  · refine Finitary.bind (Finitary.const _) fun i => Finitary.bind (Finitary.const _) fun _ =>
      Finitary.bind (Finitary.const _) fun _ => ?_
    split
    · exact Finitary.call _
    · exact Finitary.const _

theorem monotone_siblingsStep : Monotone (siblingsStep env consume path below) :=
  fun _ _ h k => (finitary_siblingsStep env consume path below k).mono h

theorem siblings_eq (k : κ) : siblings env consume path below k =
    siblingsStep env consume path below (siblings env consume path below) k :=
  congrFun (fix_eq (finitary_siblingsStep env consume path below)) k

variable {below} in
theorem siblingsStep_mono {below' : α → Instruction Bool → Course ω ε Unit}
    {loop loop' : κ → Course ω ε Unit} (hbelow : ∀ a i, below a i ≤ below' a i)
    (hloop : ∀ k, loop k ≤ loop' k) (k : κ) :
    siblingsStep env consume path below loop k ≤ siblingsStep env consume path below' loop' k := by
  refine bind_le_bind (le_refl _) fun next => ?_
  rcases next with _ | ⟨a, rest⟩
  · exact le_refl _
  · refine bind_le_bind (le_refl _) fun i => bind_le_bind (le_refl _) fun _ =>
      bind_le_bind (hbelow a i) fun _ => ?_
    split
    · exact hloop rest
    · exact le_refl _

/-- Two loops are the same if they do the same to each candidate. -/
theorem siblings_congr {env' : Env ω ε α π κ Bool β} {path' : π} {below' : α → Instruction Bool →
    Course ω ε Unit} (hnext : env.next = env'.next) (hcontrol : env.control path = env'.control path')
    (hoffer : ∀ a i, offer env consume path a i = offer env' consume path' a i)
    (hbelow : ∀ a w i v, env.control path a w = .ok i v → below a i = below' a i) :
    siblings env consume path below = siblings env' consume path' below' := by
  refine congrArg fix (funext fun loop => funext fun k => ?_)
  simp only [siblingsStep, hnext]
  refine bind_congr fun next => ?_
  rcases next with _ | ⟨a, rest⟩
  · rfl
  · rw [← hcontrol]
    funext w
    refine act_bind_congr fun i v hi => ?_
    rw [hoffer, hbelow a w i v hi]

variable (limits : Limits)

theorem roamBelow_mono {f g : Level π κ → Course ω ε Unit} (h : ∀ l, f l ≤ g l) (l : Level π κ)
    (a : α) (i : Instruction Bool) :
    roamBelow env limits f l a i ≤ roamBelow env limits g l a i := by
  unfold roamBelow
  split
  · exact le_refl _
  · exact bind_le_bind (le_refl _) fun _ => bind_le_bind (le_refl _) fun _ => h _

/-- **A level is the loop over its candidates**, with the levels below it inside. -/
theorem roam_eq_siblings (l : Level π κ) :
    roam env limits consume l =
      siblings env consume l.path (roamBelow env limits (roam env limits consume) l)
        l.candidates := by
  let loop (l : Level π κ) : Course ω ε Unit :=
    siblings env consume l.path (roamBelow env limits (roam env limits consume) l) l.candidates
  have loop_le : ∀ l, loop l ≤ roam env limits consume l := by
    intro l
    have uncounted : roam env limits consume l = roam env limits consume
        { path := l.path, depth := l.depth, candidates := l.candidates } := by
      rw [roam_eq, roam_eq]
      rfl
    rw [uncounted]
    let G (k : κ) := roam env limits consume { path := l.path, depth := l.depth, candidates := k }
    refine fix_le (G := G) (monotone_siblingsStep _ _ _ _) (fun k => ?_) l.candidates
    exact (roam_eq env limits consume { path := l.path, depth := l.depth, candidates := k }).ge
  apply le_antisymm
  · refine roam_le env limits consume (G := loop) (fun l => ?_) l
    change _ ≤ siblings env consume l.path _ l.candidates
    rw [siblings_eq]
    exact siblingsStep_mono env consume l.path (roamBelow_mono env limits loop_le l)
      (fun k => le_refl _) l.candidates
  · exact loop_le l

end Siblings

/-! ### The count decides nothing -/

section

variable {env : Env ω ε α π κ Bool β} {limits : Limits} {consume : β → Act ω ε Unit}
  {level : Level π κ → Course ω ε (Option ℕ)} {roam : Level π κ → Course ω ε Unit}

/-- The two recursions do the same at a level, and that with the count never ends the whole walk. -/
def Agree (level : Level π κ → Course ω ε (Option ℕ)) (roam : Level π κ → Course ω ε Unit) : Prop :=
  ∀ path depth candidates n,
    Alike (fun o _ => o.isSome = true) (level { path, depth, candidates, fruitless := n })
      (roam { path, depth, candidates })

theorem descend_alike (h : Agree level roam) (path : π) (depth : ℕ) (p : Pending α Bool) (n : ℕ) :
    Alike (fun sequel _ => ∃ n, sequel = .siblings n) (descend env level path depth p n) (do
      let below ← childPath env path p
      let children ← act (env.children path p.element)
      roam { path := below, depth := depth + 1, candidates := children }) := by
  refine Alike.bind_same _ fun below => Alike.bind_same _ fun children => ?_
  rw [← bind_pure (roam _)]
  refine (h below (depth + 1) children n).bind ?_
  rintro (_ | n) _ ho
  · cases ho
  · exact Alike.pure ⟨n, rfl⟩

theorem subtree_alike (htruth : env.truth = pure) (h : Agree level roam) (l : Level π κ) (a : α)
    (i : Instruction Bool) (n : ℕ)
    (hquiet : i.descend = true → limits.due (n + 1) = true →
      (∀ depth, env.policy l.path a depth (n + 1) = pure .descend) ∧
        env.report (.checkpoint (n + 1) a) = pure ()) :
    Alike (fun sequel _ => ∃ n, sequel = .siblings n)
      (subtree env limits consume level l.path l.depth
        { element := a, descend := i.descend, resetPath := i.resetPath } n)
      (roamBelow env limits roam l a i) := by
  simp only [subtree, roamBelow, htruth, act_pure, pure_bind]
  by_cases hstop : (!i.descend || limits.maxDepth.any (· ≤ l.depth)) = true
  · simp only [hstop, if_true]
    exact Alike.pure ⟨n, rfl⟩
  · have hd : i.descend = true := by
      cases hd : i.descend
      · simp [hd] at hstop
      · rfl
    simp only [hstop, Bool.false_eq_true, if_false]
    by_cases hdue : limits.due (n + 1) = true
    · obtain ⟨hpolicy, hreport⟩ := hquiet hd hdue
      simp only [hdue, Bool.not_true, Bool.false_eq_true, if_false, hpolicy, hreport, act_pure,
        pure_bind]
      exact descend_alike h _ _ _ _
    · simp only [hdue, Bool.not_false, if_true]
      exact descend_alike h _ _ _ _

theorem levelStep_alike (htruth : env.truth = pure) (hpatient : Patient env limits)
    (h : Agree level roam) :
    Agree (levelStep env limits consume level) (roamStep env limits consume roam) := by
  intro path depth candidates n
  refine Alike.bind_same _ fun next => ?_
  rcases next with _ | ⟨a, rest⟩
  · exact Alike.pure rfl
  · refine Alike.act_bind _ fun w i v hi => ?_
    simp only [htruth, act_pure, pure_bind]
    have hquiet := hpatient path a w i v hi
    -- behind an element that was given the count is zero
    have emitted : Alike (fun m _ => i.emit = true → m = 0) (emit env consume path a i n)
        (offer env consume path a i) := by
      simp only [emit, offer, htruth, act_pure, pure_bind]
      by_cases he : i.emit = true
      · simp only [he, if_true]
        refine Alike.bind_same _ fun b => ?_
        rw [← bind_pure (act (consume b)), bind_assoc]
        exact Alike.bind_same _ fun _ => Alike.pure fun _ => rfl
      · simp only [he, Bool.false_eq_true, if_false]
        exact Alike.pure fun h => absurd h (by decide)
    refine emitted.bind fun m _ hm => ?_
    refine (subtree_alike htruth h { path, depth, candidates } a i m
      fun hd hdue => hquiet hd m hm hdue).bind ?_
    rintro _ _ ⟨k, rfl⟩
    by_cases hgoes : i.continueSiblings = true
    · simp only [hgoes, if_true]
      exact h path depth rest k
    · simp only [hgoes, Bool.false_eq_true, if_false]
      exact Alike.pure rfl

end

/-- **A patient walk only roams.** -/
theorem level_eq_roam {env : Env ω ε α π κ Bool β} {limits : Limits} (htruth : env.truth = pure)
    (hpatient : Patient env limits) (consume : β → Act ω ε Unit) (path : π) (depth : ℕ)
    (candidates : κ) :
    (fun _ => ()) <$> level env limits consume { path, depth, candidates } =
      roam env limits consume { path, depth, candidates } := by
  have unfolded : ∀ n, Agree (unfold (levelStep env limits consume) n)
      (unfold (roamStep env limits consume) n) := by
    intro n
    induction n with
    | zero => exact fun _ _ _ _ _ => Matches.endless
    | succ n ih => exact levelStep_alike htruth hpatient ih
  have alike : Alike (fun o _ => o.isSome = true)
      (level env limits consume { path, depth, candidates })
      (roam env limits consume { path, depth, candidates }) :=
    Alike.limit (fun _ _ h => monotone_unfold (monotone_levelStep env limits consume) h _)
      (fun _ _ h => monotone_unfold (monotone_roamStep env limits consume) h _)
      fun n => unfolded n path depth candidates 0
  rw [← id_map (roam env limits consume { path, depth, candidates })]
  exact alike.eq fun _ _ _ => rfl

/-! ### Policies that are never asked -/

/-- A walk with a policy that always sends it on, and that nobody hears of. -/
def Env.tireless (env : Env ω ε α π κ Bool β) : Env ω ε α π κ Bool β :=
  { env with policy := fun _ _ _ _ => pure .descend, report := fun _ => pure () }

theorem patient_tireless (env : Env ω ε α π κ Bool β) (limits : Limits) :
    Patient env.tireless limits := by
  intro path a w i v _ _ n _ _
  exact ⟨fun _ => rfl, rfl⟩

/-- Whether the next step of a walk asks the policy. -/
def asks (limits : Limits) (s : Walk α π κ Bool) : Bool :=
  match s.levels, s.pending with
  | _ :: outer, some p =>
    p.descend && !limits.stopsBelow outer && limits.due (s.fruitless + 1)
  | _, _ => false

/-- A step that does not ask the policy is the same under any policy. -/
theorem step_tireless {env : Env ω ε α π κ Bool β} {limits : Limits} (htruth : env.truth = pure)
    {s : Walk α π κ Bool} (h : asks limits s = false) :
    step env.tireless limits s = step env limits s := by
  obtain ⟨levels, n, pending⟩ := s
  cases levels with
  | nil => rfl
  | cons frame outer =>
      cases pending with
      | none => rfl
      | some p =>
          have below_eq : ∀ env' : Env ω ε α π κ Bool β, env'.truth = pure →
              below env' limits frame outer n p =
                if !p.descend || limits.stopsBelow outer then
                  pure (.skip { levels := frame :: outer, fruitless := n })
                else enter env' frame outer (n + 1) p := by
            intro env' htruth'
            simp only [below, htruth', pure_bind]
            by_cases hstop : (!p.descend || limits.stopsBelow outer) = true
            · simp only [hstop, if_true]
            · have hdue : limits.due (n + 1) = false := by
                simp only [asks] at h
                cases hd : p.descend <;> cases hb : limits.stopsBelow outer <;>
                  simp_all
              simp only [hstop, hdue, Bool.false_eq_true, if_false]
          change below env.tireless limits frame outer n p = below env limits frame outer n p
          rw [below_eq env.tireless htruth, below_eq env htruth]
          rfl

end GraphRoutes.Walk
