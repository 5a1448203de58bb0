/-
**The recursive walk, and why the walk on a stack is the same.**

A level of a walk is a path, a depth and candidates.  The recursive walk takes the candidates of a
level one at a time, goes below each of them by visiting a level of its own, and counts the steps
down since the last result from one level to the next.  `GraphRoutes.Walk.step` does the same with a
stack of frames: it drops the siblings of an element before it has gone below it, and is suspended in
the middle of an element whenever it gives something.

The two are compared by what they come to under a consumer.  What is left to do at a state of the
stack walk is what the recursive walk has still to do at the levels of the stack, from the innermost
outwards (`GraphRoutes.Walk.resume`), and one step of the stack walk is one unfolding of it.

Main definitions:

* `GraphRoutes.Walk.Level`, `GraphRoutes.Walk.Sequel` — a level, and what is left of it behind an
  element;
* `GraphRoutes.Walk.levelStep`, `GraphRoutes.Walk.level` — **the recursive walk**;
* `GraphRoutes.Walk.unwind`, `GraphRoutes.Walk.resume` — what is left to do at a stack.

Main results:

* `GraphRoutes.Walk.level_eq` — the recursive walk solves its equation;
* `GraphRoutes.Walk.drive_eq_unwind`, `GraphRoutes.Walk.drive_start` — **the walk on a stack does
  what the recursive walk does**.
-/
import GraphRoutes.Proofs.Drive
import GraphRoutes.Descent.Walk

set_option relaxedAutoImplicit false
set_option autoImplicit false

namespace GraphRoutes.Walk

open Course

variable {ω ε α π κ τ β : Type}

/-! ### The recursion -/

/-- A level of a walk: the path above it, its depth, its candidates, and how many steps have gone
down since the last result. -/
structure Level (π κ : Type) where
  path : π
  depth : ℕ
  candidates : κ
  fruitless : ℕ := 0

/-- What is left of a level behind an element and all that is below it, with the count of fruitless
steps. -/
inductive Sequel where
  /-- Nothing, and nothing of the outer levels either. -/
  | ended
  /-- The level is left. -/
  | leave (fruitless : ℕ)
  /-- The siblings of the element. -/
  | siblings (fruitless : ℕ)

section Recursion

variable (env : Env ω ε α π κ τ β) (limits : Limits) (consume : β → Act ω ε Unit)
  (level : Level π κ → Course ω ε (Option ℕ))

/-- The path of the children of the element `p`. -/
def childPath (path : π) (p : Pending α τ) : Course ω ε π := do
  if ← act (env.truth p.resetPath) then act (env.restart path)
  else act (env.extend path p.element)

/-- Gives an element if its instruction says so.  The result is the count of fruitless steps. -/
def emit (path : π) (a : α) (i : Instruction τ) (n : ℕ) : Course ω ε ℕ := do
  if ← act (env.truth i.emit) then do
    let b ← act (env.result path a)
    act (consume b)
    pure 0
  else pure n

/-- What is left of a level behind an element, when the level below it is done. -/
def Sequel.ofBelow : Option ℕ → Sequel
  | none => .ended
  | some n => .siblings n

/-- Goes below the element `p`: visits the level of its children. -/
def descend (path : π) (depth : ℕ) (p : Pending α τ) (n : ℕ) : Course ω ε Sequel := do
  let below ← childPath env path p
  let children ← act (env.children path p.element)
  let done ← level { path := below, depth := depth + 1, candidates := children, fruitless := n }
  pure (.ofBelow done)

/-- Goes below the element `p` if its instruction, the depth and the policy allow it. -/
def subtree (path : π) (depth : ℕ) (p : Pending α τ) (n : ℕ) : Course ω ε Sequel := do
  let descends ← act (env.truth p.descend)
  if !descends || limits.maxDepth.any (· ≤ depth) then
    pure (.siblings n)
  else if !limits.due (n + 1) then
    descend env level path depth p (n + 1)
  else do
    act (env.report (.checkpoint (n + 1) p.element))
    match ← act (env.policy path p.element depth (n + 1)) with
    | .descend => descend env level path depth p (n + 1)
    | .advance => do
      act (env.report (.abandoned (n + 1) depth p.element))
      pure (.siblings (n + 1))
    | .cut => do
      act (env.report (.abandonedWithSiblings (n + 1) depth p.element))
      pure (.leave (n + 1))
    | .substitute b => do
      act (env.report (.substituted (n + 1) p.element b))
      act (consume b)
      pure .ended

/-- One level of the recursive walk, given what is done at other levels.  The result is the count of
fruitless steps, unless the whole walk is over. -/
def levelStep (l : Level π κ) : Course ω ε (Option ℕ) := do
  match ← act (env.next l.candidates) with
  | none => pure (some l.fruitless)
  | some (a, rest) => do
    let i ← act (env.control l.path a)
    let goesOn ← act (env.truth i.continueSiblings)
    let n ← emit env consume l.path a i l.fruitless
    let p : Pending α τ := { element := a, descend := i.descend, resetPath := i.resetPath }
    match ← subtree env limits consume level l.path l.depth p n with
    | .ended => pure none
    | .leave n => pure (some n)
    | .siblings n =>
      if goesOn then level { l with candidates := rest, fruitless := n } else pure (some n)

end Recursion

section

variable (env : Env ω ε α π κ τ β) (limits : Limits) (consume : β → Act ω ε Unit)

/-- **The recursive walk**, level by level. -/
noncomputable def level : Level π κ → Course ω ε (Option ℕ) := fix (levelStep env limits consume)

theorem finitary_descend (path : π) (depth : ℕ) (p : Pending α τ) (n : ℕ) :
    Finitary fun level => descend env level path depth p n :=
  Finitary.bind (Finitary.const _) fun _ => Finitary.bind (Finitary.const _) fun _ =>
    Finitary.bind (Finitary.call _) fun _ => Finitary.const _

theorem finitary_subtree (path : π) (depth : ℕ) (p : Pending α τ) (n : ℕ) :
    Finitary fun level => subtree env limits consume level path depth p n := by
  refine Finitary.bind (Finitary.const _) fun descends => ?_
  split
  · exact Finitary.const _
  · split
    · exact finitary_descend env path depth p (n + 1)
    · refine Finitary.bind (Finitary.const _) fun _ => Finitary.bind (Finitary.const _) fun r => ?_
      cases r with
      | descend => exact finitary_descend env path depth p (n + 1)
      | advance => exact Finitary.const _
      | cut => exact Finitary.const _
      | substitute b => exact Finitary.const _

theorem finitary_levelStep (l : Level π κ) :
    Finitary fun level => levelStep env limits consume level l := by
  refine Finitary.bind (Finitary.const _) fun next => ?_
  rcases next with _ | ⟨a, rest⟩
  · exact Finitary.const _
  · refine Finitary.bind (Finitary.const _) fun i => Finitary.bind (Finitary.const _) fun goesOn =>
      Finitary.bind (Finitary.const _) fun n =>
        Finitary.bind (finitary_subtree env limits consume _ _ _ n) fun sequel => ?_
    cases sequel with
    | ended => exact Finitary.const _
    | leave n => exact Finitary.const _
    | siblings n =>
        cases goesOn with
        | true => exact Finitary.call _
        | false => exact Finitary.const _

theorem monotone_levelStep : Monotone (levelStep env limits consume) :=
  fun _ _ h l => (finitary_levelStep env limits consume l).mono h

/-- **The recursive walk solves its equation.** -/
theorem level_eq (l : Level π κ) :
    level env limits consume l = levelStep env limits consume (level env limits consume) l :=
  congrFun (fix_eq (finitary_levelStep env limits consume)) l

/-! ### What is left to do at a stack -/

/-- What follows a level: `rest`, which is told the count of fruitless steps, unless the walk is
over. -/
def outward (rest : ℕ → Course ω ε Unit) : Option ℕ → Course ω ε Unit
  | none => pure ()
  | some n => rest n

section

variable (level : Level π κ → Course ω ε (Option ℕ)) (rest : ℕ → Course ω ε Unit)

/-- What is left to do at a frame that stands at a depth, and behind it. -/
def onward (frame : Frame π κ) (depth n : ℕ) : Course ω ε Unit :=
  match frame.candidates with
  | none => rest n
  | some k =>
    level { path := frame.path, depth, candidates := k, fruitless := n } >>= outward rest

/-- What is left to do at a frame behind an element of it. -/
def Sequel.followed (frame : Frame π κ) (depth : ℕ) : Sequel → Course ω ε Unit
  | .ended => pure ()
  | .leave n => rest n
  | .siblings n => onward level rest frame depth n

/-- What is left to do at the element `p` of a frame, and behind it. -/
def pendingOnward (frame : Frame π κ) (depth : ℕ) (p : Pending α τ) (n : ℕ) : Course ω ε Unit :=
  subtree env limits consume level frame.path depth p n >>=
    Sequel.followed level rest frame depth

end

section Related

variable {env limits consume}
variable {r : Course ω ε Unit → Course ω ε Unit → Prop}
  {level : Level π κ → Course ω ε (Option ℕ)} {rest : ℕ → Course ω ε Unit}
  {next : Walk α π κ τ → Course ω ε Unit} {outer : List (Frame π κ)}

/-- A visit on the stack and a visit of the recursion are related if what follows them is, for every
relation that a common beginning respects. -/
theorem visit_related
    (hr : ∀ {γ : Type} (m : Course ω ε γ) (f g : γ → Course ω ε Unit),
      (∀ c, r (f c) (g c)) → r (m >>= f) (m >>= g))
    (path : π) (k : κ) (n : ℕ)
    (hrest : ∀ n, r (rest n) (next { levels := outer, fruitless := n }))
    (hpending : ∀ frame n p, frame.path = path →
      r (pendingOnward env limits consume level rest frame outer.length p n)
        (next { levels := frame :: outer, fruitless := n, pending := some p })) :
    r (levelStep env limits consume level
          { path, depth := outer.length, candidates := k, fruitless := n } >>= outward rest)
      (act (visit env { path, candidates := some k } outer n) >>= Machine.after consume next) := by
  simp only [levelStep, visit, act_bind, bind_assoc]
  refine hr _ _ _ fun found => ?_
  rcases found with _ | ⟨a, k'⟩
  · exact hrest n
  · simp only [act_bind, bind_assoc, emit]
    refine hr _ _ _ fun i => hr _ _ _ fun goesOn => hr _ _ _ fun emits => ?_
    -- the frame on the stack has lost its siblings already, if they are not to be visited
    let frame : Frame π κ := { path, candidates := if goesOn then some k' else none }
    let p : Pending α τ := { element := a, descend := i.descend, resetPath := i.resetPath }
    have followed : ∀ sequel : Sequel, (do
          match sequel with
          | .ended => pure none
          | .leave n => pure (some n)
          | .siblings n =>
            if goesOn then level { path, depth := outer.length, candidates := k', fruitless := n }
            else pure (some n)) >>= outward rest =
        Sequel.followed level rest frame outer.length sequel := by
      intro sequel
      cases sequel with
      | ended => rfl
      | leave n => rfl
      | siblings n => cases goesOn <;> rfl
    simp only [followed]
    cases emits with
    | true =>
        simp only [if_true, bind_assoc, act_bind, pure_bind]
        exact hr _ _ _ fun b => hr _ _ _ fun _ => hpending frame 0 p rfl
    | false => exact hpending frame n p rfl

/-- The same at the descent below an element. -/
theorem descend_related
    (hr : ∀ {γ : Type} (m : Course ω ε γ) (f g : γ → Course ω ε Unit),
      (∀ c, r (f c) (g c)) → r (m >>= f) (m >>= g))
    (frame : Frame π κ) (n : ℕ) (p : Pending α τ)
    (hbelow : ∀ path k,
      r (level { path, depth := outer.length + 1, candidates := k, fruitless := n } >>=
          outward (onward level rest frame outer.length))
        (next { levels := { path, candidates := some k } :: frame :: outer, fruitless := n })) :
    r (descend env level frame.path outer.length p n >>=
        Sequel.followed level rest frame outer.length)
      (act (enter env frame outer n p) >>= Machine.after consume next) := by
  simp only [descend, enter, childPath, act_bind, bind_assoc]
  refine hr _ _ _ fun resets => ?_
  have done : ∀ o : Option ℕ,
      (pure (Sequel.ofBelow o) >>= Sequel.followed level rest frame outer.length) =
        outward (onward level rest frame outer.length) o := by
    intro o
    cases o <;> rfl
  simp only [done]
  cases resets with
  | true =>
      simp only [if_true, bind_assoc, act_bind, act_pure, pure_bind]
      exact hr _ _ _ fun path => hr _ _ _ fun k => hbelow path k
  | false =>
      simp only [Bool.false_eq_true, if_false, bind_assoc, act_bind, act_pure, pure_bind]
      exact hr _ _ _ fun path => hr _ _ _ fun k => hbelow path k

/-- The same below an element that was visited. -/
theorem below_related
    (hr : ∀ {γ : Type} (m : Course ω ε γ) (f g : γ → Course ω ε Unit),
      (∀ c, r (f c) (g c)) → r (m >>= f) (m >>= g))
    (frame : Frame π κ) (n : ℕ) (p : Pending α τ)
    (hended : r (pure ()) (next { levels := [] }))
    (hleave : ∀ n, r (rest n)
      (next { levels := { frame with candidates := none } :: outer, fruitless := n }))
    (hsiblings : ∀ n, r (onward level rest frame outer.length n)
      (next { levels := frame :: outer, fruitless := n }))
    (hbelow : ∀ path k n,
      r (level { path, depth := outer.length + 1, candidates := k, fruitless := n } >>=
          outward (onward level rest frame outer.length))
        (next { levels := { path, candidates := some k } :: frame :: outer, fruitless := n })) :
    r (pendingOnward env limits consume level rest frame outer.length p n)
      (act (below env limits frame outer n p) >>= Machine.after consume next) := by
  have hdescend : r (descend env level frame.path outer.length p (n + 1) >>=
        Sequel.followed level rest frame outer.length)
      (act (enter env frame outer (n + 1) p) >>= Machine.after consume next) :=
    descend_related hr frame (n + 1) p fun path k => hbelow path k (n + 1)
  simp only [pendingOnward, subtree, below, act_bind, bind_assoc, Limits.stopsBelow_eq]
  refine hr _ _ _ fun descends => ?_
  by_cases hstop : (!descends || limits.maxDepth.any (· ≤ outer.length)) = true
  · simp only [hstop, if_true]
    exact hsiblings n
  · simp only [hstop, if_false, Bool.false_eq_true]
    by_cases hdue : limits.due (n + 1) = true
    · simp only [hdue, if_true, Bool.not_true, Bool.false_eq_true, if_false, answer, act_bind,
        bind_assoc]
      refine hr _ _ _ fun _ => hr _ _ _ fun resolution => ?_
      cases resolution with
      | descend => exact hdescend
      | advance =>
          simp only [act_bind, bind_assoc]
          exact hr _ _ _ fun _ => hsiblings (n + 1)
      | cut =>
          simp only [act_bind, bind_assoc]
          exact hr _ _ _ fun _ => hleave (n + 1)
      | substitute b =>
          simp only [act_bind, bind_assoc]
          exact hr _ _ _ fun _ => hr _ _ _ fun _ => hended
    · simp only [hdue, Bool.not_false, if_true, Bool.false_eq_true, if_false]
      exact hdescend

end Related

/-! ### The walk on a stack -/

/-- What is left to do at the levels of a stack, from the innermost outwards. -/
noncomputable def unwind : List (Frame π κ) → ℕ → Course ω ε Unit
  | [], _ => pure ()
  | frame :: outer, n =>
    onward (level env limits consume) (unwind outer) frame outer.length n

/-- What is left to do at a state of the walk on a stack. -/
noncomputable def resume (s : Walk α π κ τ) : Course ω ε Unit :=
  match s.levels, s.pending with
  | frame :: outer, some p =>
    pendingOnward env limits consume (level env limits consume) (unwind env limits consume outer)
      frame outer.length p s.fruitless
  | levels, _ => unwind env limits consume levels s.fruitless

theorem resume_of_not_pending (levels : List (Frame π κ)) (n : ℕ) :
    resume env limits consume { levels, fruitless := n } = unwind env limits consume levels n := by
  cases levels <;> rfl

/-- A frame without candidates is left. -/
theorem drive_dropped (path : π) (outer : List (Frame π κ)) (n : ℕ) :
    Machine.drive (step env limits) consume
        { levels := { path, candidates := none } :: outer, fruitless := n } =
      Machine.drive (step env limits) consume { levels := outer, fruitless := n } := by
  rw [Machine.drive_eq]
  rfl

/-- Nothing is left to do without a frame. -/
theorem drive_nil (n : ℕ) :
    Machine.drive (step env limits) consume { levels := [], fruitless := n } = pure () := by
  rw [Machine.drive_eq]
  rfl

/-- One step of the walk on a stack is one unfolding of what is left to do. -/
theorem driveStep_resume (s : Walk α π κ τ) :
    Machine.driveStep (step env limits) consume (resume env limits consume) s =
      resume env limits consume s := by
  have common : ∀ {γ : Type} (m : Course ω ε γ) (f g : γ → Course ω ε Unit),
      (∀ c, f c = g c) → m >>= f = m >>= g := fun m f g h => by rw [funext h]
  obtain ⟨levels, n, pending⟩ := s
  cases levels with
  | nil => cases pending <;> rfl
  | cons frame outer =>
      cases pending with
      | some p =>
          exact (below_related (r := (· = ·)) common frame n p rfl (fun _ => rfl) (fun _ => rfl)
            fun _ _ _ => rfl).symm
      | none =>
          obtain ⟨path, _ | k⟩ := frame
          · exact resume_of_not_pending env limits consume outer n
          · change _ = level env limits consume _ >>= _
            rw [level_eq]
            have hrest := fun n => (resume_of_not_pending env limits consume outer n).symm
            exact (visit_related (r := (· = ·)) common path k n hrest fun _ _ _ _ => rfl).symm

/-- What the recursion does at a level, the walk on a stack does with a frame. -/
theorem unfold_level_le_drive (m : ℕ) (frame : Frame π κ) (outer : List (Frame π κ)) (n : ℕ) :
    onward (unfold (levelStep env limits consume) m)
        (fun n => Machine.drive (step env limits) consume { levels := outer, fruitless := n })
        frame outer.length n ≤
      Machine.drive (step env limits) consume { levels := frame :: outer, fruitless := n } := by
  have common : ∀ {γ : Type} (m : Course ω ε γ) (f g : γ → Course ω ε Unit),
      (∀ c, f c ≤ g c) → m >>= f ≤ m >>= g := fun m _ _ h => bind_le_bind (le_refl m) h
  induction m generalizing frame outer n with
  | zero =>
      obtain ⟨path, _ | k⟩ := frame
      · exact (drive_dropped env limits consume path outer n).ge
      · exact endless_le _
  | succ m ih =>
      obtain ⟨path, _ | k⟩ := frame
      · exact (drive_dropped env limits consume path outer n).ge
      · rw [Machine.drive_eq]
        refine visit_related (r := (· ≤ ·)) common path k n (fun _ => le_refl _) ?_
        intro frame n p _
        rw [Machine.drive_eq]
        refine below_related (r := (· ≤ ·)) common frame n p ?_ ?_ (fun n => ih frame outer n) ?_
        · exact (drive_nil env limits consume 0).ge
        · exact fun n => (drive_dropped env limits consume frame.path outer n).ge
        · intro path k n
          refine (bind_le_bind (le_refl _) fun o => ?_).trans
            (ih { path, candidates := some k } (frame :: outer) n)
          cases o with
          | none => exact le_refl _
          | some n => exact ih frame outer n

/-- What is left to do at a stack, the walk on the stack does. -/
theorem unwind_le_drive (levels : List (Frame π κ)) (n : ℕ) :
    unwind env limits consume levels n ≤
      Machine.drive (step env limits) consume { levels, fruitless := n } := by
  induction levels generalizing n with
  | nil => exact (drive_nil env limits consume n).ge
  | cons frame outer ih =>
      obtain ⟨path, _ | k⟩ := frame
      · rw [drive_dropped]
        exact ih n
      · refine fix_bind_le (monotone_levelStep env limits consume) fun m => ?_
        refine (bind_le_bind (le_refl _) fun o => ?_).trans
          (unfold_level_le_drive env limits consume m { path, candidates := some k } outer n)
        cases o with
        | none => exact le_refl _
        | some n => exact ih n

/-- **The walk on a stack does what the recursive walk does**, from every state that has visited no
element without going below it. -/
theorem drive_eq_unwind (levels : List (Frame π κ)) (n : ℕ) :
    Machine.drive (step env limits) consume { levels, fruitless := n } =
      unwind env limits consume levels n := by
  apply le_antisymm
  · rw [← resume_of_not_pending]
    exact Machine.drive_le _ _ (fun s => (driveStep_resume env limits consume s).le) _
  · exact unwind_le_drive env limits consume levels n

/-- **A walk from its beginning** is the recursive walk at its first level. -/
theorem drive_start (path : π) (candidates : κ) :
    Machine.drive (step env limits) consume (start path candidates) =
      (fun _ => ()) <$> level env limits consume { path, depth := 0, candidates } := by
  rw [start, drive_eq_unwind]
  change level env limits consume _ >>= _ = _
  rw [map_eq_pure_bind]
  refine bind_congr fun o => ?_
  cases o <;> rfl

end

end GraphRoutes.Walk
