/-
**The questions of a search that cuts cycles.**

A search may ask its caller about an element before it goes below it: about the path and the element,
about the path alone, about the element alone.  Read from the chronicle, every question is asked in its
turn.  It is about the element that was visited last, with the path of that visit.  The element is not
among its own ancestors.  The path holds its ancestors and nothing else: the first was read from the
route, each other one was read from the children of the one before, no two of them have the same key,
and each was cleared by every test at its own visit, with the path that it had then.  The tests before
the one that is asked have been made since the visit, and the element has passed them.

The path below an element is made before the tests are, and an element that they refuse has a level
too.  Nothing is read there, so nothing is asked about it.  A search for leaves begins to read the
children of an element at its visit, and hands them on if the tests let it pass; they come from the
same element.

Main definitions:

* `GraphRoutes.Act.Ensures` — what an action leads to from one world, also where it fails;
* `GraphRoutes.Search.Check`, `GraphRoutes.Search.Criteria.checks` — the tests at an element, in order;
* `GraphRoutes.Search.Stems`, `GraphRoutes.Search.Found` — where a source and an item come from;
* `GraphRoutes.Search.HasPassed`, `GraphRoutes.Search.Ancestry`, `GraphRoutes.Search.Placed` — what the
  chronicle says of a visit, of ancestors, and of an element below them;
* `GraphRoutes.Search.InTurn`, `GraphRoutes.Search.AsksInTurn`, `GraphRoutes.Search.AsksOnce` — **what
  holds of every question**.

Main results:

* `GraphRoutes.Search.criteria_checks_sublist` — the tests come up in order, and each once;
* `GraphRoutes.Search.Placed.ancestry_concat` — an element that is cleared at its place is an ancestor;
* `GraphRoutes.Search.AsksInTurn.once` — **if the questions are asked in their turn, no test is asked twice
  at a visit**.
-/
import GraphRoutes.Proofs.Search.Chronicle
import Mathlib.Data.List.Infix
import Mathlib.Data.List.Nodup

set_option relaxedAutoImplicit false
set_option autoImplicit false

namespace GraphRoutes

variable {ω ε α κ β γ δ σ key : Type}

/-! ### What an action leads to -/

namespace Act

/-- From the world `w`, an action comes to what `Q` allows, or fails in a world that `E` allows. -/
def Ensures (w : ω) (m : Act ω ε γ) (Q : γ → ω → Prop) (E : ω → Prop) : Prop :=
  match m w with
  | .ok c v => Q c v
  | .error _ v => E v

variable {w : ω} {Q : γ → ω → Prop} {E : ω → Prop}

theorem Ensures.pure {c : γ} (h : Q c w) : Ensures w (pure c : Act ω ε γ) Q E := h

theorem Ensures.bind {m : Act ω ε δ} {f : δ → Act ω ε γ} {P : δ → ω → Prop} {F : ω → Prop}
    (h : Ensures w m P F) (hf : ∀ d v, P d v → Ensures v (f d) Q E) (hF : ∀ v, F v → E v) :
    Ensures w (m >>= f) Q E := by
  unfold Ensures at h
  rcases hm : m w with ⟨d, v⟩ | ⟨e, v⟩
  · rw [hm] at h
    rw [Ensures, bind_of_ok hm]
    exact hf d v h
  · rw [hm] at h
    rw [Ensures, bind_of_error hm]
    exact hF v h

theorem Ensures.imp {m : Act ω ε γ} {P : γ → ω → Prop} {F : ω → Prop} (h : Ensures w m P F)
    (hPQ : ∀ c v, P c v → Q c v) (hFE : ∀ v, F v → E v) : Ensures w m Q E := by
  unfold Ensures at h ⊢
  rcases hm : m w with ⟨c, v⟩ | ⟨e, v⟩
  · rw [hm] at h
    exact hPQ c v h
  · rw [hm] at h
    exact hFE v h

/-- An action beside a state. -/
theorem Ensures.beside {s : σ} {m : Act ω ε γ} {Q : γ → σ × ω → Prop} {E : σ × ω → Prop}
    (h : Ensures w m (fun c v => Q c (s, v)) fun v => E (s, v)) : Ensures (s, w) (beside m) Q E := by
  unfold Ensures at h ⊢
  simp only [Act.beside]
  rcases hm : m w with ⟨c, v⟩ | ⟨e, v⟩
  · rw [hm] at h
    exact h
  · rw [hm] at h
    exact h

/-- An action of which only its results are known. -/
theorem ensures_of_ok {m : Act ω ε γ} (hE : ∀ v, E v) (hQ : ∀ c v, m w = .ok c v → Q c v) :
    Ensures w m Q E := by
  unfold Ensures
  rcases hm : m w with ⟨c, v⟩ | ⟨e, v⟩
  · exact hQ c v hm
  · exact hE v

end Act

open Act (Ensures ensures_of_ok)

namespace Search

/-! ### The tests at an element -/

/-- The tests of the caller. -/
inductive Criterion where
  | pred
  | pathPred
  | elementPred
  deriving DecidableEq

/-- The test that a question is put to. -/
def Question.criterion : Question α → Criterion
  | pred _ _ => .pred
  | pathPred _ => .pathPred
  | elementPred _ => .elementPred

/-- A test as it comes up at an element: a bound, and whether it is met, or a question to the caller. -/
inductive Check (α : Type) where
  | bound (met : Bool)
  | question (q : Question α)

/-- A gate as it comes up at an element. -/
def Gate.check (question : Trail α → α → Question α) (t : Trail α) (a : α) : Gate ω ε α → Check α
  | within n => .bound ((t.length : ℤ) < n)
  | asks _ => .question (question t a)

/-- The tests of the caller at an element, in the order in which they are made. -/
def Criteria.checks (c : Criteria ω ε α) (t : Trail α) (a : α) : List (Check α) :=
  (c.pred.map (Gate.check .pred t a)).toList ++
    ((c.pathPred.map (Gate.check (fun t _ => .pathPred t) t a)).toList ++
      (c.elementPred.map fun _ => .question (.elementPred a)).toList)

/-- What a check that is passed leaves in the chronicle. -/
def Check.trace : Check α → Chronicle α κ
  | bound _ => []
  | question q => [.answers true, .asks q]

/-- What checks leave in the chronicle if all of them are passed, newest first. -/
def transcript (cs : List (Check α)) : Chronicle α κ := cs.reverse.flatMap Check.trace

theorem transcript_append (cs ds : List (Check α)) :
    (transcript (cs ++ ds) : Chronicle α κ) = transcript ds ++ transcript cs := by
  simp [transcript]

theorem asks_mem_transcript {q : Question α} {cs : List (Check α)} :
    Occurrence.asks q ∈ (transcript cs : Chronicle α κ) ↔ .question q ∈ cs := by
  simp only [transcript, List.mem_flatMap, List.mem_reverse]
  constructor
  · rintro ⟨c, hc, hq⟩
    cases c with
    | bound met => cases hq
    | question q' =>
        obtain rfl : q = q' := by simpa [Check.trace] using hq
        exact hc
  · intro hq
    exact ⟨_, hq, by simp [Check.trace]⟩

/-- The test to which a question is put, if it is one. -/
def Check.criterion? : Check α → Option Criterion
  | bound _ => none
  | question q => some q.criterion

/-- **The tests come up in order**, and each of them once at most. -/
theorem criteria_checks_sublist (c : Criteria ω ε α) (t : Trail α) (a : α) :
    ((c.checks t a).filterMap Check.criterion?).Sublist [.pred, .pathPred, .elementPred] := by
  have gate : ∀ (question : Trail α → α → Question α) (g : Option (Gate ω ε α)),
      ((g.map (Gate.check question t a)).toList.filterMap Check.criterion?).Sublist
        [(question t a).criterion] := by
    rintro question (_ | _ | _)
    · exact List.nil_sublist _
    · exact List.nil_sublist _
    · exact List.Sublist.refl _
  have element : ∀ f : Option (α → Act ω ε Bool),
      ((f.map fun _ => Check.question (.elementPred a)).toList.filterMap Check.criterion?).Sublist
        [.elementPred] := by
    rintro (_ | _)
    · exact List.nil_sublist _
    · exact List.Sublist.refl _
  rw [Criteria.checks, List.filterMap_append, List.filterMap_append]
  exact (gate .pred c.pred).append ((gate (fun t _ => .pathPred t) c.pathPred).append (element _))

/-- A test does not come up twice. -/
theorem criterion_ne_of_checks {c : Criteria ω ε α} {t : Trail α} {a : α} {before after : List (Check α)}
    {q q' : Question α} (h : c.checks t a = before ++ .question q :: after)
    (hq : .question q' ∈ before) : q'.criterion ≠ q.criterion := by
  have hnodup := (criteria_checks_sublist c t a).nodup (by decide)
  have hasked : Check.criterion? (.question q) = some q.criterion := rfl
  rw [h, List.filterMap_append, List.filterMap_cons_some hasked, List.nodup_append'] at hnodup
  intro hsame
  refine hnodup.2.2 (List.mem_filterMap.2 ⟨_, hq, rfl⟩) ?_
  rw [hsame]
  exact List.mem_cons_self

/-! ### What a chronicle says -/

/-- Whether an element is visited. -/
def Occurrence.isVisit : Occurrence α κ → Bool
  | visits _ _ => true
  | _ => false

/-- Whether a test is asked. -/
def Occurrence.isQuestion : Occurrence α κ → Bool
  | asks _ => true
  | _ => false

/-- Whether a test is asked, or answers. -/
def Occurrence.inquires : Occurrence α κ → Bool
  | asks _ => true
  | answers _ => true
  | _ => false

/-- Whether a question is put to a test. -/
def Occurrence.asksFor (d : Criterion) : Occurrence α κ → Bool
  | asks q => q.criterion = d
  | _ => false

theorem Occurrence.asksFor_iff {e : Occurrence α κ} {d : Criterion} :
    e.asksFor d = true ↔ ∃ q, e = .asks q ∧ q.criterion = d := by
  cases e <;> simp [asksFor]

/-- **Where a source comes from**: it is the route, or the children of an element were opened as this
source, or it is what was left when an item was read from such a source. -/
inductive Stems (log : Chronicle α κ) (route : κ) : Option α → κ → Prop
  | route : Stems log route none route
  | opened {a : α} {k : κ} : .opens a k ∈ log → Stems log route (some a) k
  | rest {o : Option α} {k k' : κ} {b : α} : Stems log route o k → .reads k b k' ∈ log →
      Stems log route o k'

/-- An item was read from the children of the element `o`, or from the route if there is none. -/
def Found (log : Chronicle α κ) (route : κ) (o : Option α) (b : α) : Prop :=
  ∃ k k', Stems log route o k ∧ .reads k b k' ∈ log

/-- **The element visited last is `a`, below the path `t`**, and the tests that were made at the visit
are `cs`: each bound among them is met, each question among them was asked and answered with yes, in
this order, and nothing else was asked. -/
def HasPassed (log : Chronicle α κ) (t : Trail α) (a : α) (cs : List (Check α)) : Prop :=
  ∃ since past, log = since ++ .visits t a :: past ∧ (∀ e ∈ since, e.isVisit = false) ∧
    since.filter Occurrence.inquires = transcript cs ∧ .bound false ∉ cs

/-- At one of its visits, below the path `t`, an element passed all tests. -/
def Criteria.Cleared (c : Criteria ω ε α) (log : Chronicle α κ) (t : Trail α) (a : α) : Prop :=
  ∃ past, past <:+ log ∧ HasPassed past t a (c.checks t a)

/-- **Ancestors**: the first was found on the route, and each other one among the children of the one
before; no two of them have the same key; and each passed all tests, below those before it. -/
structure Ancestry (keyOf : α → Option key) (c : Criteria ω ε α) (route : κ) (log : Chronicle α κ)
    (p : List α) : Prop where
  found : ∀ i (hi : i < p.length), Found log route (p.take i).getLast? p[i]
  distinct : (p.map keyOf).Nodup
  cleared : ∀ i (hi : i < p.length), ∃ t : Trail α, t.items = p.take i ∧ c.Cleared log t p[i]

section Asked

variable [DecidableEq key]

/-- **An element at its place**: it is not among its ancestors, and was found below the last of them. -/
structure Placed (keyOf : α → Option key) (c : Criteria ω ε α) (route : κ) (log : Chronicle α κ)
    (t : Trail α) (a : α) : Prop where
  new : t.mem? keyOf a = some false
  found : Found log route t.items.getLast? a
  ancestry : Ancestry keyOf c route log t.items

/-- **A question is asked in its turn**: it is one of the tests at the element that was visited last,
which stands at its place and has passed the tests before this one. -/
def InTurn (keyOf : α → Option key) (c : Criteria ω ε α) (route : κ) (past : Chronicle α κ)
    (q : Question α) : Prop :=
  ∃ t a before after, c.checks t a = before ++ .question q :: after ∧ HasPassed past t a before ∧
    Placed keyOf c route past t a

/-- Every question is asked in its turn. -/
def AsksInTurn (keyOf : α → Option key) (c : Criteria ω ε α) (route : κ) (log : Chronicle α κ) : Prop :=
  ∀ newer q past, log = newer ++ .asks q :: past → InTurn keyOf c route past q

end Asked

/-- At each visit, no test is asked twice. -/
def AsksOnce (log : Chronicle α κ) : Prop :=
  ∀ newer segment past, log = newer ++ (segment ++ past) → (∀ e ∈ segment, e.isVisit = false) →
    ∀ d, segment.countP (Occurrence.asksFor d) ≤ 1

/-! ### What is written down stays -/

section Grows

variable {log log' : Chronicle α κ} {route : κ} {o : Option α} {k : κ} {b : α} {t : Trail α} {a : α}
  {cs : List (Check α)} {c : Criteria ω ε α} {p : List α} {keyOf : α → Option key}

theorem Stems.mono (hlog : log <:+ log') (h : Stems log route o k) : Stems log' route o k := by
  induction h with
  | route => exact .route
  | opened hk => exact .opened (hlog.subset hk)
  | rest _ hk ih => exact .rest ih (hlog.subset hk)

theorem Found.mono (hlog : log <:+ log') (h : Found log route o b) : Found log' route o b := by
  obtain ⟨k, k', hk, hb⟩ := h
  exact ⟨k, k', hk.mono hlog, hlog.subset hb⟩

theorem Criteria.Cleared.mono (hlog : log <:+ log') (h : c.Cleared log t a) : c.Cleared log' t a := by
  obtain ⟨past, hpast, hpassed⟩ := h
  exact ⟨past, hpast.trans hlog, hpassed⟩

theorem Ancestry.mono (hlog : log <:+ log') (h : Ancestry keyOf c route log p) :
    Ancestry keyOf c route log' p where
  found i hi := (h.found i hi).mono hlog
  distinct := h.distinct
  cleared i hi := by
    obtain ⟨t, ht, hcleared⟩ := h.cleared i hi
    exact ⟨t, ht, hcleared.mono hlog⟩

theorem Ancestry.nil : Ancestry keyOf c route log [] := ⟨nofun, List.nodup_nil, nofun⟩

theorem Placed.mono [DecidableEq key] (hlog : log <:+ log') (h : Placed keyOf c route log t a) :
    Placed keyOf c route log' t a :=
  ⟨h.new, h.found.mono hlog, h.ancestry.mono hlog⟩

/-- An element at its place that passes all tests is one of the ancestors of what is found below it. -/
theorem Placed.ancestry_concat [DecidableEq key] (h : Placed keyOf c route log t a)
    (hcleared : c.Cleared log t a) : Ancestry keyOf c route log (t.items ++ [a]) where
  found := Trail.forall_concat (P := fun p a => Found log route p.getLast? a) h.ancestry.found h.found
  distinct := Trail.nodup_concat_of_new h.ancestry.distinct h.new
  cleared := Trail.forall_concat (P := fun p a => ∃ t : Trail α, t.items = p ∧ c.Cleared log t a)
    h.ancestry.cleared ⟨t, rfl, hcleared⟩

/-- A visit, at which nothing was asked yet. -/
theorem HasPassed.visit : HasPassed (.visits t a :: log) t a [] := ⟨[], log, rfl, nofun, rfl, nofun⟩

/-- What has nothing to do with the tests changes nothing. -/
theorem HasPassed.cons (h : HasPassed log t a cs) {e : Occurrence α κ} (hvisit : e.isVisit = false)
    (hasks : e.inquires = false) : HasPassed (e :: log) t a cs := by
  obtain ⟨since, past, rfl, hsince, htranscript, hbounds⟩ := h
  refine ⟨e :: since, past, rfl, List.forall_mem_cons.2 ⟨hvisit, hsince⟩, ?_, hbounds⟩
  rw [List.filter_cons_of_neg (by simp [hasks]), htranscript]

/-- One question more was answered with yes. -/
theorem HasPassed.answered (h : HasPassed log t a cs) (q : Question α) :
    HasPassed (.answers true :: .asks q :: log) t a (cs ++ [.question q]) := by
  obtain ⟨since, past, rfl, hsince, htranscript, hbounds⟩ := h
  refine ⟨.answers true :: .asks q :: since, past, rfl, ?_, ?_, by simpa using hbounds⟩
  · exact List.forall_mem_cons.2 ⟨rfl, List.forall_mem_cons.2 ⟨rfl, hsince⟩⟩
  · rw [List.filter_cons_of_pos rfl, List.filter_cons_of_pos rfl, htranscript, transcript_append]
    rfl

/-- One bound more is met. -/
theorem HasPassed.met (h : HasPassed log t a cs) : HasPassed log t a (cs ++ [.bound true]) := by
  obtain ⟨since, past, rfl, hsince, htranscript, hbounds⟩ := h
  refine ⟨since, past, rfl, hsince, ?_, by simpa using hbounds⟩
  rw [htranscript, transcript_append]
  rfl

end Grows

/-! ### Questions in their turn -/

section Turn

variable [DecidableEq key] {keyOf : α → Option key} {c : Criteria ω ε α} {route : κ}
  {log : Chronicle α κ} {q : Question α}

theorem asksInTurn_nil : AsksInTurn keyOf c route ([] : Chronicle α κ) := by
  intro newer q past h
  cases newer <;> cases h

/-- What is no question. -/
theorem AsksInTurn.cons (h : AsksInTurn keyOf c route log) {e : Occurrence α κ}
    (he : e.isQuestion = false) : AsksInTurn keyOf c route (e :: log) := by
  intro newer q past hlog
  cases newer with
  | nil =>
      cases hlog
      cases he
  | cons _ newer =>
      cases hlog
      exact h newer q past rfl

/-- One question more. -/
theorem AsksInTurn.ask (h : AsksInTurn keyOf c route log) (hq : InTurn keyOf c route log q) :
    AsksInTurn keyOf c route (.asks q :: log) := by
  intro newer q' past hlog
  cases newer with
  | nil =>
      cases hlog
      exact hq
  | cons _ newer =>
      cases hlog
      exact h newer q' past rfl

/-- Since the visit that a question is about, the same test was not asked. -/
theorem InTurn.not_asked {segment past : Chronicle α κ} (h : InTurn keyOf c route (segment ++ past) q)
    (hsegment : ∀ e ∈ segment, e.isVisit = false) {q' : Question α} (hq : .asks q' ∈ segment) :
    q'.criterion ≠ q.criterion := by
  obtain ⟨t, a, before, after, hchecks, ⟨since, older, hlog, -, htranscript, -⟩, -⟩ := h
  have hmem : Occurrence.asks q' ∈ since := by
    rcases List.append_eq_append_iff.1 hlog with ⟨m, rfl, -⟩ | ⟨m, rfl, hm⟩
    · exact List.mem_append_left m hq
    · -- the visit is older than the segment
      cases m with
      | nil => simpa using hq
      | cons y m =>
          obtain ⟨rfl, -⟩ := List.cons.inj hm
          have hvisit := hsegment (.visits t a) (List.mem_append_right since List.mem_cons_self)
          cases hvisit
  refine criterion_ne_of_checks hchecks ?_
  rw [← asks_mem_transcript (κ := κ), ← htranscript]
  exact List.mem_filter.2 ⟨hmem, rfl⟩

/-- **At each visit, no test is asked twice.** -/
theorem AsksInTurn.once (h : AsksInTurn keyOf c route log) : AsksOnce log := by
  rintro newer segment past rfl hsegment d
  induction segment generalizing newer with
  | nil => exact Nat.zero_le 1
  | cons e segment ih =>
      have hvisits := (List.forall_mem_cons.1 hsegment).2
      have hrest := ih (newer ++ [e]) (by simpa using h) hvisits
      by_cases he : e.asksFor d = true
      · obtain ⟨q, rfl, rfl⟩ := Occurrence.asksFor_iff.1 he
        have hnone : segment.countP (Occurrence.asksFor q.criterion) = 0 := by
          refine List.countP_eq_zero.2 fun x hx hasks => ?_
          obtain ⟨q', rfl, hq'⟩ := Occurrence.asksFor_iff.1 hasks
          exact (h newer q (segment ++ past) rfl).not_asked hvisits hx hq'
        rw [List.countP_cons_of_pos he, hnone]
      · rw [List.countP_cons_of_neg he]
        exact hrest

end Turn

end Search

end GraphRoutes
