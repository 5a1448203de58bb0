/-
**Attempts: when a walk asks its policy.**

A step down is an attempt, if the depth allows it.  Attempts are numbered from one again after every
result, and the policy is asked at those whose number is due.  The count of the walk survives the end
of a level, a cut and the siblings of an element, and it does not count what the depth stops; the
journal of the walk is read without it.

If the policy is asked at every attempt from the ceiling on, and never sends the walk on, then between
two results children are asked for less often than the ceiling says.

The invariant about the journal is that each happening is called for by those before it
(`GraphRoutes.Walk.Lawful`).  It is kept within a step, too, so it holds where a step fails.

Main definitions:

* `GraphRoutes.Walk.attempts`, `GraphRoutes.Walk.question?` — the attempts since the last result, and
  the question to the policy that is called for;
* `GraphRoutes.Walk.Follows`, `GraphRoutes.Walk.Lawful` — what may happen next, and a journal in which
  nothing else happens;
* `GraphRoutes.Walk.AsksWhenDue` — the policy is asked exactly at the attempts that are due;
* `GraphRoutes.Walk.Writes` — what an action leaves in the journal, also where it fails;
* `GraphRoutes.Walk.Told` — the walk knows what its journal says;
* `GraphRoutes.Walk.Kept` — the journals of a run, also where it fails.

Main results:

* `GraphRoutes.Walk.told_step` — **what one step writes down;**
* `GraphRoutes.Walk.lawful_of_kept` — every journal is lawful;
* `GraphRoutes.Walk.children_le` — how often children are asked for between two results.
-/
import GraphRoutes.Proofs.Descent.Journal
import GraphRoutes.Proofs.Descent.Move

set_option relaxedAutoImplicit false
set_option autoImplicit false

namespace GraphRoutes

variable {ω ε α π κ τ β γ δ : Type}

namespace Walk

/-! ### Journals -/

section Journals

variable (limits : Limits)

/-- Whether the depth allows a step down. -/
def allowed (depth : ℕ) : Bool := !limits.maxDepth.any (· ≤ depth)

/-- The attempts since the last result. -/
def attempts : Journal α π → ℕ
  | [] => 0
  | .give :: _ => 0
  | .descends _ _ depth :: past => attempts past + if allowed limits depth then 1 else 0
  | .policy _ _ _ _ :: past => attempts past
  | .children _ _ _ :: past => attempts past

/-- The question to the policy that is called for: about the element of an attempt whose number is
due. -/
def question? : Journal α π → Option (π × α × ℕ × ℕ)
  | .descends path a depth :: past =>
    if allowed limits depth && limits.due (attempts limits past + 1) then
      some (path, a, depth, attempts limits past + 1)
    else none
  | _ => none

/-- What may happen next.  Where a question is called for it is asked, and children are those of an
element to be gone below, or `resumes` says that the policy may send the walk on. -/
def Follows (resumes : Prop) (past : Journal α π) : Happening α π → Prop
  | .policy path a depth n => question? limits past = some (path, a, depth, n)
  | .children path a depth => question? limits past = none ∧
      (resumes ∨ ∃ older, past = .descends path a depth :: older ∧ allowed limits depth = true)
  | _ => question? limits past = none

/-- Each happening may follow those before it. -/
def Lawful (resumes : Prop) : Journal α π → Prop
  | [] => True
  | e :: past => Follows limits resumes past e ∧ Lawful resumes past

variable {limits} {resumes : Prop} {past : Journal α π} {path : π} {a : α} {depth n : ℕ}

theorem Lawful.follows {newer log : Journal α π} {e : Happening α π} (h : Lawful limits resumes log)
    (hlog : log = newer ++ e :: past) : Follows limits resumes past e := by
  subst hlog
  induction newer with
  | nil => exact h.1
  | cons _ newer ih => exact ih h.2

theorem Lawful.of_append {newer : Journal α π} (h : Lawful limits resumes (newer ++ past)) :
    Lawful limits resumes past := by
  induction newer with
  | nil => exact h
  | cons _ newer ih => exact ih h.2

/-- Which question is called for. -/
theorem question?_eq_some_iff : question? limits past = some (path, a, depth, n) ↔
    ∃ older k, past = .descends path a depth :: older ∧ allowed limits depth = true ∧
      n = attempts limits older + 1 ∧ n = limits.ceiling + k * limits.interval := by
  constructor
  · intro h
    match past, h with
    | .descends path' a' depth' :: older, h =>
      rw [question?] at h
      split at h
      · rename_i hdue
        obtain ⟨hallowed, hdue⟩ := Bool.and_eq_true_iff.1 hdue
        obtain ⟨k, hk⟩ := (limits.due_iff _).1 hdue
        cases h
        exact ⟨older, k, rfl, hallowed, rfl, hk⟩
      · cases h
  · rintro ⟨older, k, rfl, hallowed, rfl, hk⟩
    have hdue := (limits.due_iff _).2 ⟨k, hk⟩
    rw [question?, hallowed, hdue]
    rfl

/-- **In a lawful journal** the policy is asked if and only if the question is called for. -/
theorem Follows.policy_iff {e : Happening α π} (h : Follows limits resumes past e) :
    e = .policy path a depth n ↔ question? limits past = some (path, a, depth, n) := by
  constructor
  · rintro rfl
    exact h
  · intro hquestion
    cases e with
    | policy path' a' depth' n' =>
        have hsame := h.symm.trans hquestion
        cases hsame
        rfl
    | descends _ _ _ => exact absurd (h.symm.trans hquestion) nofun
    | children _ _ _ => exact absurd (h.1.symm.trans hquestion) nofun
    | give => exact absurd (h.symm.trans hquestion) nofun

/-- **The policy is asked if and only if an attempt is due**, and it is told the path, the element and
the depth of the attempt, and its number. -/
def AsksWhenDue (limits : Limits) (log : Journal α π) : Prop :=
  ∀ newer e past, log = newer ++ e :: past → ∀ path a depth n, e = .policy path a depth n ↔
    ∃ older j, past = .descends path a depth :: older ∧ allowed limits depth = true ∧
      n = attempts limits older + 1 ∧ n = limits.ceiling + j * limits.interval

theorem Lawful.asksWhenDue {log : Journal α π} (h : Lawful limits resumes log) :
    AsksWhenDue limits log := by
  intro newer e past hlog path a depth n
  rw [(h.follows hlog).policy_iff, question?_eq_some_iff]

/-- Whether children are asked for. -/
def asksChildren : Happening α π → Bool
  | .children _ _ _ => true
  | _ => false

/-- How often children were asked for since the last result. -/
def openings : Journal α π → ℕ
  | [] => 0
  | .give :: _ => 0
  | e :: past => openings past + if asksChildren e then 1 else 0

/-- Within a part without results, only that part counts. -/
theorem openings_append {segment : Journal α π} (h : .give ∉ segment) :
    openings (segment ++ past) = openings past + segment.countP asksChildren := by
  induction segment with
  | nil => rfl
  | cons e segment ih =>
      have hsegment := ih fun hmem => h (List.mem_cons_of_mem _ hmem)
      rw [List.countP_cons]
      cases e with
      | give => exact absurd List.mem_cons_self h
      | descends _ _ _ => exact congrArg (· + 0) hsegment
      | policy _ _ _ _ => exact congrArg (· + 0) hsegment
      | children _ _ _ =>
          change openings (segment ++ past) + 1 = _
          rw [hsegment]
          rfl

/-- Only below the ceiling the policy is not asked, if the interval is one. -/
theorem lt_ceiling_of_undue (hinterval : limits.interval = 1) (h : limits.due n = false) :
    n < limits.ceiling := by
  by_contra hle
  have hdue : limits.due n = true := by
    refine (limits.due_iff n).2 ⟨n - limits.ceiling, ?_⟩
    rw [hinterval]
    omega
  rw [h] at hdue
  cases hdue

/-- Where the policy never sends the walk on, children are asked for at most once for each attempt,
and only below the first number at which the policy is asked at every attempt. -/
theorem openings_le (hinterval : limits.interval = 1) {log : Journal α π}
    (h : Lawful limits False log) :
    openings log ≤ attempts limits log ∧ openings log ≤ limits.ceiling - 1 := by
  induction hlength : log.length using Nat.strongRecOn generalizing log with
  | ind length ih =>
      subst hlength
      match log, h with
      | [], _ => exact ⟨le_refl 0, Nat.zero_le _⟩
      | .give :: past, _ => exact ⟨le_refl 0, Nat.zero_le _⟩
      | .policy _ _ _ _ :: past, h =>
          obtain ⟨hattempts, hceiling⟩ := ih _ (Nat.lt_succ_self _) h.2 rfl
          exact ⟨hattempts, hceiling⟩
      | .descends _ _ _ :: past, h =>
          obtain ⟨hattempts, hceiling⟩ := ih _ (Nat.lt_succ_self _) h.2 rfl
          exact ⟨hattempts.trans (Nat.le_add_right _ _), hceiling⟩
      | .children path a depth :: past, h =>
          -- children stand right behind the attempt for which they are asked, so both are taken off
          obtain ⟨⟨hquestion, hcalled⟩, hpast⟩ := h
          obtain ⟨older, rfl, hallowed⟩ := hcalled.resolve_left id
          have hshorter : older.length < older.length + 1 + 1 := Nat.lt_add_of_pos_right Nat.two_pos
          have holder : openings older ≤ attempts limits older := (ih _ hshorter hpast.2 rfl).1
          have hundue : limits.due (attempts limits older + 1) = false := by
            by_contra hdue
            rw [question?, hallowed, Bool.of_not_eq_false hdue] at hquestion
            cases hquestion
          have hlt := lt_ceiling_of_undue hinterval hundue
          have hopenings : openings (.children path a depth :: .descends path a depth :: older) =
              openings older + 1 := rfl
          have hattempts : attempts limits (.children path a depth :: .descends path a depth :: older) =
              attempts limits older + 1 := by
            rw [attempts, attempts, hallowed]
            rfl
          rw [hopenings, hattempts]
          omega

/-- **Between two results** children are asked for less often than the ceiling says. -/
theorem children_le (hinterval : limits.interval = 1) {newer segment : Journal α π}
    (h : Lawful limits False (newer ++ (segment ++ past))) (hgive : .give ∉ segment) :
    segment.countP asksChildren ≤ limits.ceiling - 1 := by
  have hle := (openings_le hinterval h.of_append).2
  rw [openings_append hgive] at hle
  exact (Nat.le_add_left _ _).trans hle

end Journals

/-! ### What an action writes down -/

/-- With the journal `log`, every result of `m` comes with one that `Q` allows, and every failure with
one that `P` allows. -/
def Writes (P : Journal α π → Prop) (log : Journal α π) (m : Act (Journal α π × ω) ε γ)
    (Q : γ → Journal α π → Prop) : Prop :=
  ∀ w, match m (log, w) with
    | .ok c v => Q c v.1
    | .error _ v => P v.1

section Writes

variable {P : Journal α π → Prop} {log : Journal α π} {Q : γ → Journal α π → Prop}

theorem Writes.pure {c : γ} (h : Q c log) :
    Writes P log (pure c : Act (Journal α π × ω) ε γ) Q :=
  fun _ => h

theorem Writes.bind {R : δ → Journal α π → Prop} {m : Act (Journal α π × ω) ε δ}
    {f : δ → Act (Journal α π × ω) ε γ} (hm : Writes P log m R)
    (hf : ∀ d log', R d log' → Writes P log' (f d) Q) : Writes P log (m >>= f) Q := by
  intro w
  have hw := hm w
  simp only [Bind.bind, EStateM.bind]
  rcases hresult : m (log, w) with ⟨d, v⟩ | ⟨e, v⟩
  · rw [hresult] at hw
    exact hf d v.1 hw v.2
  · rw [hresult] at hw
    exact hw

/-- An action of the walk's caller writes nothing down. -/
theorem Writes.beside {m : Act ω ε δ} (h : P log) :
    Writes P log (Act.beside m) fun d log' => log' = log ∧ ∃ w v, m w = .ok d v := by
  intro w
  simp only [Act.beside]
  rcases hm : m w with ⟨d, v⟩ | ⟨e, v⟩
  · exact ⟨rfl, w, v, hm⟩
  · exact h

theorem Writes.beside_bind {m : Act ω ε δ} {f : δ → Act (Journal α π × ω) ε γ} (h : P log)
    (hf : ∀ d, (∃ w v, m w = .ok d v) → Writes P log (f d) Q) :
    Writes P log (Act.beside m >>= f) Q := by
  refine (Writes.beside h).bind ?_
  rintro d _ ⟨rfl, hd⟩
  exact hf d hd

theorem Writes.jot_bind {e : Happening α π} {f : Unit → Act (Journal α π × ω) ε γ}
    (hf : Writes P (e :: log) (f ()) Q) : Writes P log (jot e >>= f) Q :=
  fun w => hf w

end Writes

/-! ### One step -/

/-- The candidates of each level carry its depth. -/
def Deep : List (Frame π (κ × ℕ)) → Prop
  | [] => True
  | frame :: outer => (∀ k ∈ frame.candidates, k.2 = outer.length) ∧ Deep outer

/-- An element that is still to be gone below carries its depth, and so does the decision about it. -/
def About (path : π) (depth : ℕ) (p : Pending (α × ℕ) (Decision α π τ)) : Prop :=
  p.element.2 = depth ∧ p.descend.descent = some (path, p.element.1, depth) ∧
    p.resetPath.descent = none

/-- **A walk knows what its journal says**: its count is that of the attempts, its levels are as many
as their candidates say, and no question is left open. -/
structure Told (limits : Limits) (resumes : Prop) (s : Walk (α × ℕ) π (κ × ℕ) (Decision α π τ))
    (log : Journal α π) : Prop where
  lawful : Lawful limits resumes log
  settled : question? limits log = none
  count : s.fruitless = attempts limits log
  deep : Deep s.levels
  about : ∀ frame outer p, s.levels = frame :: outer → s.pending = some p →
    About frame.path outer.length p

/-- What a step must leave: a walk that knows what its journal says, once its result is given. -/
def TellsAfter (limits : Limits) (resumes : Prop) :
    Step (Walk (α × ℕ) π (κ × ℕ) (Decision α π τ)) β ε → Journal α π → Prop
  | .skip t, log => Told limits resumes t log
  | .give _ t, log => Told limits resumes t (.give :: log)
  | _, _ => True

section Step

variable {env : Env ω ε α π κ τ β} {limits : Limits} {resumes : Prop} {log : Journal α π}
  {frame : Frame π (κ × ℕ)} {outer : List (Frame π (κ × ℕ))} {n : ℕ}

/-- A decision that is not about going below writes nothing down. -/
theorem writes_truth {d : Decision α π τ} (hd : d.descent = none) {P : Journal α π → Prop}
    {Q : γ → Journal α π → Prop} {f : Bool → Act (Journal α π × ω) ε γ} (h : P log)
    (hf : ∀ holds, Writes P log (f holds) Q) : Writes P log (env.journaled.truth d >>= f) Q := by
  refine Writes.bind (R := fun _ log' => log' = log) ?_ ?_
  · refine Writes.beside_bind h fun holds _ => ?_
    rw [hd]
    exact Writes.pure rfl
  · rintro holds _ rfl
    exact hf holds

/-- The decision about going below an element writes down that it holds. -/
theorem writes_descends {p : Pending (α × ℕ) (Decision α π τ)} {path : π} {depth : ℕ}
    (hp : About path depth p) {P : Journal α π → Prop} {Q : γ → Journal α π → Prop}
    {f : Bool → Act (Journal α π × ω) ε γ} (h : P log) (hstays : Writes P log (f false) Q)
    (hgoes : Writes P (.descends path p.element.1 depth :: log) (f true) Q) :
    Writes P log (env.journaled.truth p.descend >>= f) Q := by
  refine Writes.bind (R := fun holds log' =>
    log' = if holds then .descends path p.element.1 depth :: log else log) ?_ ?_
  · refine Writes.beside_bind h fun holds _ => ?_
    rw [hp.2.1]
    cases holds with
    | true => exact Writes.jot_bind (Writes.pure rfl)
    | false => exact Writes.pure rfl
  · rintro holds _ rfl
    cases holds with
    | true => exact hgoes
    | false => exact hstays

/-- Going below an element asks for its children, which stand one step below it. -/
theorem told_enter {p : Pending (α × ℕ) (Decision α π τ)} (hlawful : Lawful limits resumes log)
    (hsettled : question? limits log = none) (hcount : n = attempts limits log)
    (hdeep : Deep (frame :: outer)) (hp : About frame.path outer.length p)
    (hcalled : resumes ∨ ∃ older, log = .descends frame.path p.element.1 outer.length :: older ∧
      allowed limits outer.length = true) :
    Writes (Lawful limits resumes) log (enter env.journaled frame outer n p)
      (TellsAfter (β := β) (ε := ε) limits resumes) := by
  have opened : ∀ path : π, Writes (Lawful limits resumes) log (do
      let candidates ← env.journaled.children frame.path p.element
      let below : Frame π (κ × ℕ) := { path, candidates := some candidates }
      pure (Step.skip { levels := below :: frame :: outer, fruitless := n } :
        Step (Walk (α × ℕ) π (κ × ℕ) (Decision α π τ)) β ε)) (TellsAfter limits resumes) := by
    intro path
    have hlawful' : Lawful limits resumes
        (.children frame.path p.element.1 p.element.2 :: log) := by
      rw [hp.1]
      exact ⟨⟨hsettled, hcalled⟩, hlawful⟩
    rw [Env.journaled]
    simp only [bind_assoc]
    refine Writes.jot_bind (Writes.beside_bind hlawful' fun k _ => Writes.pure ?_)
    refine ⟨hlawful', rfl, hcount, ⟨?_, hdeep⟩, by simp⟩
    rintro _ ⟨⟩
    exact congrArg (· + 1) hp.1
  refine writes_truth hp.2.2 hlawful fun resets => ?_
  cases resets with
  | true => exact Writes.beside_bind hlawful fun path _ => opened path
  | false => exact Writes.beside_bind hlawful fun path _ => opened path

/-- A question that is called for is asked, and the walk goes on as it is answered. -/
theorem told_answer {p : Pending (α × ℕ) (Decision α π τ)} (hlawful : Lawful limits resumes log)
    (hquestion : question? limits log = some (frame.path, p.element.1, outer.length, n))
    (hcount : n = attempts limits log) (hdeep : Deep (frame :: outer))
    (hp : About frame.path outer.length p)
    (hresumes : ∀ path a depth n w v, env.policy path a depth n w = .ok .descend v → resumes) :
    Writes (Lawful limits resumes) log (answer env.journaled frame outer n p)
      (TellsAfter (β := β) (ε := ε) limits resumes) := by
  have hlawful' : Lawful limits resumes
      (.policy frame.path p.element.1 outer.length n :: log) := ⟨hquestion, hlawful⟩
  have told : ∀ (note : Note (α × ℕ) β) (r : Step (Walk (α × ℕ) π (κ × ℕ) (Decision α π τ)) β ε),
      TellsAfter limits resumes r (.policy frame.path p.element.1 outer.length n :: log) →
      Writes (Lawful limits resumes) (.policy frame.path p.element.1 outer.length n :: log)
        (do env.journaled.report note; pure r) (TellsAfter limits resumes) := by
    intro note r hr
    exact Writes.beside_bind hlawful' fun _ _ => Writes.pure hr
  refine Writes.beside_bind hlawful fun _ _ => ?_
  rw [Env.journaled]
  simp only [bind_assoc]
  refine Writes.jot_bind (Writes.beside_bind hlawful' fun resolution hanswer => ?_)
  cases resolution with
  | descend =>
      obtain ⟨w, v, hanswer⟩ := hanswer
      exact told_enter hlawful' rfl hcount hdeep hp (Or.inl (hresumes _ _ _ _ _ _ hanswer))
  | advance => exact told _ _ ⟨hlawful', rfl, hcount, hdeep, by simp⟩
  | cut => exact told _ _ ⟨hlawful', rfl, hcount, ⟨by simp, hdeep.2⟩, by simp⟩
  | substitute b => exact told _ _ ⟨⟨rfl, hlawful'⟩, rfl, rfl, trivial, by simp⟩

/-- An element that is still to be gone below: the attempt is written down, and the question if its
number is due. -/
theorem told_below {p : Pending (α × ℕ) (Decision α π τ)} (hlawful : Lawful limits resumes log)
    (hsettled : question? limits log = none) (hcount : n = attempts limits log)
    (hdeep : Deep (frame :: outer)) (hp : About frame.path outer.length p)
    (hresumes : ∀ path a depth n w v, env.policy path a depth n w = .ok .descend v → resumes) :
    Writes (Lawful limits resumes) log (below env.journaled limits frame outer n p)
      (TellsAfter (β := β) (ε := ε) limits resumes) := by
  refine writes_descends hp hlawful (Writes.pure ⟨hlawful, hsettled, hcount, hdeep, nofun⟩) ?_
  have hlawful' : Lawful limits resumes
      (.descends frame.path p.element.1 outer.length :: log) := ⟨hsettled, hlawful⟩
  rw [Limits.stopsBelow_eq]
  cases hstops : limits.maxDepth.any (· ≤ outer.length) with
  | true =>
      -- what stops at the depth is written down, and is no attempt
      have hallowed : allowed limits outer.length = false := by rw [allowed, hstops]; rfl
      refine Writes.pure ⟨hlawful', ?_, ?_, hdeep, nofun⟩
      · rw [question?, hallowed, Bool.false_and]
        rfl
      · rw [attempts, hallowed]
        exact hcount
  | false =>
      have hallowed : allowed limits outer.length = true := by rw [allowed, hstops]; rfl
      have hcount' : n + 1 =
          attempts limits (.descends frame.path p.element.1 outer.length :: log) := by
        rw [attempts, hallowed, hcount]
        rfl
      have hquestion : question? limits (.descends frame.path p.element.1 outer.length :: log) =
          if limits.due (n + 1) then some (frame.path, p.element.1, outer.length, n + 1)
          else none := by
        rw [question?, hallowed, Bool.true_and, hcount]
      simp only [Bool.not_true, Bool.false_or, Bool.false_eq_true, if_false]
      cases hdue : limits.due (n + 1) with
      | true =>
          rw [hdue] at hquestion
          exact told_answer hlawful' hquestion hcount' hdeep hp hresumes
      | false =>
          rw [hdue] at hquestion
          exact told_enter hlawful' hquestion hcount' hdeep hp (Or.inr ⟨log, rfl, hallowed⟩)

/-- A candidate is visited at the depth that it carries. -/
theorem told_visit (hlawful : Lawful limits resumes log) (hsettled : question? limits log = none)
    (hcount : n = attempts limits log) (hdeep : Deep (frame :: outer)) :
    Writes (Lawful limits resumes) log (visit env.journaled frame outer n)
      (TellsAfter (β := β) (ε := ε) limits resumes) := by
  obtain ⟨path, _ | k⟩ := frame
  · exact Writes.pure ⟨hlawful, hsettled, hcount, hdeep.2, nofun⟩
  · have hdepth : k.2 = outer.length := hdeep.1 k rfl
    simp only [visit]
    rw [Env.journaled, bind_assoc]
    refine Writes.beside_bind hlawful fun found _ => ?_
    rw [pure_bind]
    rcases found with _ | ⟨a, rest⟩
    · exact Writes.pure ⟨hlawful, hsettled, hcount, hdeep.2, nofun⟩
    · dsimp only [Option.map_some]
      rw [bind_assoc]
      refine Writes.beside_bind hlawful fun i _ => ?_
      rw [pure_bind]
      refine writes_truth rfl hlawful fun goesOn => writes_truth rfl hlawful fun emits => ?_
      have hdeep' : Deep ({ path, candidates := if goesOn then some (rest, k.2) else none } :: outer) := by
        refine ⟨fun k' hk' => ?_, hdeep.2⟩
        cases goesOn with
        | true =>
            cases hk'
            exact hdepth
        | false => cases hk'
      have habout : ∀ frame outer' p, (({ path, candidates := if goesOn then some (rest, k.2) else none } :
            Frame π (κ × ℕ)) :: outer) = frame :: outer' →
          some (Pending.of (a, k.2) (decisions path a k.2 i)) = some p →
          About frame.path outer'.length p := by
        rintro _ _ _ ⟨⟩ ⟨⟩
        exact ⟨hdepth, by rw [← hdepth]; rfl, rfl⟩
      cases emits with
      | true =>
          exact Writes.beside_bind hlawful fun b _ =>
            Writes.pure ⟨⟨hsettled, hlawful⟩, rfl, rfl, hdeep', habout⟩
      | false => exact Writes.pure ⟨hlawful, hsettled, hcount, hdeep', habout⟩

/-- **What one step writes down**: a walk that knows what its journal says still knows it then. -/
theorem told_step {s : Walk (α × ℕ) π (κ × ℕ) (Decision α π τ)} (h : Told limits resumes s log)
    (hresumes : ∀ path a depth n w v, env.policy path a depth n w = .ok .descend v → resumes) :
    Writes (Lawful limits resumes) log (step env.journaled limits s)
      (TellsAfter (β := β) (ε := ε) limits resumes) := by
  obtain ⟨levels, n, pending⟩ := s
  cases levels with
  | nil => exact Writes.pure trivial
  | cons frame outer =>
      cases pending with
      | some p =>
          exact told_below h.lawful h.settled h.count h.deep (h.about _ _ _ rfl rfl) hresumes
      | none => exact told_visit h.lawful h.settled h.count h.deep

end Step

/-! ### A whole run -/

/-- The journals of a run: of the states that are reached, and of a failure of the walk or of its
consumer there. -/
inductive Kept (env : Env ω ε α π κ τ β) (limits : Limits) (consume : β → Act ω ε Unit) (path : π)
    (k : κ) (w₀ : ω) : Journal α π → Prop
  | reached {t : Walk (α × ℕ) π (κ × ℕ) (Decision α π τ)} {log : Journal α π} {w : ω} :
      Machine.Reached (step env.journaled limits) (journaledConsume consume) (startJournaled path k)
        ([], w₀) t (log, w) → Kept env limits consume path k w₀ log
  | failed {t : Walk (α × ℕ) π (κ × ℕ) (Decision α π τ)} {w v : Journal α π × ω} {e : ε} :
      Machine.Reached (step env.journaled limits) (journaledConsume consume) (startJournaled path k)
        ([], w₀) t w → step env.journaled limits t w = .error e v →
      Kept env limits consume path k w₀ v.1
  | refused {t t' : Walk (α × ℕ) π (κ × ℕ) (Decision α π τ)} {w u v : Journal α π × ω} {b : β} {e : ε} :
      Machine.Reached (step env.journaled limits) (journaledConsume consume) (startJournaled path k)
        ([], w₀) t w → step env.journaled limits t w = .ok (.give b t') u →
      journaledConsume consume b u = .error e v → Kept env limits consume path k w₀ v.1

section Runs

variable {env : Env ω ε α π κ τ β} {limits : Limits} {consume : β → Act ω ε Unit} {path : π} {k : κ}
  {w₀ : ω} {resumes : Prop}

/-- What a consumer does with a result, behind its note. -/
theorem journal_of_consume {b : β} {u v : Journal α π × ω}
    (h : journaledConsume consume b u = .ok () v) : v.1 = .give :: u.1 := by
  obtain ⟨⟨⟩, u', hu', h⟩ := Act.bind_eq_ok_iff.1 h
  cases hu'
  exact (Act.beside_eq_ok_iff.1 h).2

theorem journal_of_refusal {b : β} {u v : Journal α π × ω} {e : ε}
    (h : journaledConsume consume b u = .error e v) : v.1 = .give :: u.1 := by
  have h' : Act.beside (consume b) (.give :: u.1, u.2) = .error e v := h
  unfold Act.beside at h'
  split at h'
  · cases h'
  · cases h'
    rfl

/-- At every state of a run, the walk knows what its journal says. -/
theorem told_of_reached
    (hresumes : ∀ path a depth n w v, env.policy path a depth n w = .ok .descend v → resumes)
    {t : Walk (α × ℕ) π (κ × ℕ) (Decision α π τ)} {w : Journal α π × ω}
    (h : Machine.Reached (step env.journaled limits) (journaledConsume consume)
      (startJournaled path k) ([], w₀) t w) : Told limits resumes t w.1 := by
  induction h with
  | start =>
      refine ⟨trivial, rfl, rfl, ⟨?_, trivial⟩, nofun⟩
      rintro _ ⟨⟩
      rfl
  | @skip _ _ w v _ hs ih =>
      have hw := told_step ih hresumes w.2
      rw [hs] at hw
      exact hw
  | @give _ _ w u v b _ hs hc ih =>
      have hw := told_step ih hresumes w.2
      rw [hs] at hw
      rw [journal_of_consume hc]
      exact hw

/-- **Every journal is lawful.** -/
theorem lawful_of_kept
    (hresumes : ∀ path a depth n w v, env.policy path a depth n w = .ok .descend v → resumes)
    {log : Journal α π} (h : Kept env limits consume path k w₀ log) : Lawful limits resumes log := by
  cases h with
  | reached hr => exact (told_of_reached hresumes hr).lawful
  | @failed t w v e hr hs =>
      have hw := told_step (told_of_reached hresumes hr) hresumes w.2
      rw [hs] at hw
      exact hw
  | @refused t t' w u v b e hr hs hc =>
      have hw := told_step (told_of_reached hresumes hr) hresumes w.2
      rw [hs] at hw
      rw [journal_of_refusal hc]
      exact hw.lawful

end Runs

end Walk

end GraphRoutes
