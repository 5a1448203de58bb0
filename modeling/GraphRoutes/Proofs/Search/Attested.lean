/-
**A search that cuts cycles asks its questions in their turn.**

The invariant says of each level on the stack that its path holds ancestors, as the chronicle knows
them, and that its candidates are found below the last of them.  An element that the tests refuse has a
level as well, below a path that the invariant says nothing of: its candidates are a source without
items, which is read at once.  So the walk leaves that level in its next step.

While an element waits to be gone below, it is the last one that was visited, and nothing was asked
about it.  What a search for leaves has put into the slot are then children of this element.  Between
two elements the slot may hold what was not handed on; the next visit clears it.

The invariant is kept within a step, so the questions are asked in their turn where a step fails, too.
Of the caller it is only assumed that a source without items has none when it is read at once.

Main definitions:

* `GraphRoutes.Search.Host.Vacant` — a source without items gives none when it is read at once;
* `GraphRoutes.Search.Draws` — where the candidates of a level come from;
* `GraphRoutes.Search.Climbed`, `GraphRoutes.Search.Shut` — a level below ancestors, and a level at which
  nothing will be read;
* `GraphRoutes.Search.Tested`, `GraphRoutes.Search.Expanded`, `GraphRoutes.Search.Controlled` — what the
  tests, the expansion and the control leave behind;
* `GraphRoutes.Search.Attested` — **the invariant of the walk**;
* `GraphRoutes.Search.Chronicled` — the chronicles of a run, also where it fails.

Main results:

* `GraphRoutes.Search.ensures_tests`, `GraphRoutes.Search.ensures_expand` — what the tests ask, and what
  is handed on behind them;
* `GraphRoutes.Search.attested_step` — **what one step keeps**;
* `GraphRoutes.Search.asksInTurn_of_chronicled` — **every question of a run is asked in its turn**.
-/
import GraphRoutes.Proofs.Descent.Move
import GraphRoutes.Proofs.Search.Questions

set_option relaxedAutoImplicit false
set_option autoImplicit false

namespace GraphRoutes

open Act (Ensures ensures_of_ok)

variable {ω ε α κ β key : Type}

namespace Search

/-- A source without items gives none when it is read at once. -/
def Host.Vacant (host : Host ω ε α κ β key) : Prop :=
  ∀ w k v, host.nothing w = .ok k v → ∀ x u, host.next k v ≠ .ok (some x) u

/-- What a source gives, whose first item may have been read, is found below `o`. -/
def Draws (log : Chronicle α κ) (route : κ) (o : Option α) (k : Ahead α κ) : Prop :=
  (∀ b ∈ k.first, Found log route o b) ∧ Stems log route o k.rest

variable {host : Host ω ε α κ β key} {plan : Plan ω ε α} {limits : Limits} {route : κ}
  {log log' : Chronicle α κ} {held : Slot α κ} {w : ω} {t : Trail α} {a : α}

theorem Draws.mono (hlog : log <:+ log') {o : Option α} {k : Ahead α κ} (h : Draws log route o k) :
    Draws log' route o k :=
  ⟨fun b hb => (h.1 b hb).mono hlog, h.2.mono hlog⟩

/-! ### What is written down -/

section Written

variable {γ δ : Type} {Q : γ → Chronicle α κ × ω → Prop} {E : Chronicle α κ × ω → Prop}

theorem ensures_chronicle_bind {e : Occurrence α κ} {f : Unit → Act (Chronicle α κ × ω) ε γ}
    (h : Ensures (e :: log, w) (f ()) Q E) : Ensures (log, w) (chronicle e >>= f) Q E := h

/-- An action of the caller writes nothing down. -/
theorem ensures_caller_bind {m : Act ω ε δ} {f : δ → Act (Chronicle α κ × ω) ε γ}
    (hE : ∀ v, E (log, v)) (h : ∀ d v, m w = .ok d v → Ensures (log, v) (f d) Q E) :
    Ensures (log, w) (Act.beside m >>= f) Q E := by
  refine Ensures.bind (P := fun d v => v.1 = log ∧ m w = .ok d v.2) (F := fun v => v.1 = log)
    (Ensures.beside (ensures_of_ok (fun _ => rfl) fun _ _ hm => ⟨rfl, hm⟩)) ?_ ?_
  · rintro d ⟨_, v⟩ ⟨rfl, hm⟩
    exact h d v hm
  · rintro ⟨_, v⟩ rfl
    exact hE v

/-- Neither does it to what the search keeps to itself. -/
theorem ensures_outside_bind {m : Act ω ε δ} {f : δ → Act (Slot α κ × Chronicle α κ × ω) ε γ}
    {Q : γ → Slot α κ × Chronicle α κ × ω → Prop} {E : Slot α κ × Chronicle α κ × ω → Prop}
    (hE : ∀ v, E (held, log, v))
    (h : ∀ d v, m w = .ok d v → Ensures (held, log, v) (f d) Q E) :
    Ensures (held, log, w) (Act.beside (Act.beside m) >>= f) Q E := by
  refine Ensures.bind (P := fun d v => v.1 = held ∧ v.2.1 = log ∧ m w = .ok d v.2.2)
    (F := fun v => v.1 = held ∧ v.2.1 = log) (Ensures.beside (Ensures.beside
      (ensures_of_ok (fun _ => ⟨rfl, rfl⟩) fun _ _ hm => ⟨rfl, rfl, hm⟩))) ?_ ?_
  · rintro d ⟨_, _, v⟩ ⟨rfl, rfl, hm⟩
    exact h d v hm
  · rintro ⟨_, _, v⟩ ⟨rfl, rfl⟩
    exact hE v

theorem ensures_read_bind {v : Chronicle α κ × ω} {f : Slot α κ → Act (Slot α κ × Chronicle α κ × ω) ε γ}
    {Q : γ → Slot α κ × Chronicle α κ × ω → Prop} {E : Slot α κ × Chronicle α κ × ω → Prop}
    (h : Ensures (held, v) (f held) Q E) : Ensures (held, v) (Search.slot.read >>= f) Q E := h

theorem ensures_modify_bind {v : Chronicle α κ × ω} {g : Slot α κ → Slot α κ}
    {f : Unit → Act (Slot α κ × Chronicle α κ × ω) ε γ}
    {Q : γ → Slot α κ × Chronicle α κ × ω → Prop} {E : Slot α κ × Chronicle α κ × ω → Prop}
    (h : Ensures (g held, v) (f ()) Q E) : Ensures (held, v) (Search.slot.modify g >>= f) Q E := h

/-- What a question and its answer leave behind. -/
theorem ensures_asked (q : Question α) (test : Act ω ε Bool) :
    Ensures (log, w) (asked q test) (fun passed v => v.1 = .answers passed :: .asks q :: log)
      fun v => v.1 = .asks q :: log :=
  ensures_chronicle_bind (ensures_caller_bind (fun _ => rfl) fun _ _ _ => ensures_chronicle_bind rfl)

/-- What is written down when a source is read. -/
theorem ensures_next (k : κ) :
    Ensures (log, w) (host.chronicled.next k)
      (fun found v => host.next k w = .ok found v.2 ∧
        v.1 = (found.map fun x => .reads k x.1 x.2).toList ++ log) fun v => v.1 = log := by
  refine ensures_caller_bind (fun _ => rfl) fun found v hnext => ?_
  cases found with
  | none => exact ⟨hnext, rfl⟩
  | some x => exact ensures_chronicle_bind ⟨hnext, rfl⟩

/-- What is written down when the children of an element are opened. -/
theorem ensures_children :
    Ensures (log, w) (host.chronicled.children a) (fun k v => v.1 = .opens a k :: log)
      fun v => v.1 = log :=
  ensures_caller_bind (fun _ => rfl) fun _ _ _ => ensures_chronicle_bind rfl

end Written

/-- What is read from a source is found where the source comes from. -/
theorem Stems.read {o : Option α} {k : κ} (h : Stems log route o k) (b : α) (rest : κ) :
    Found (.reads k b rest :: log) route o b ∧ Stems (.reads k b rest :: log) route o rest := by
  have hgrown : Stems (.reads k b rest :: log) route o k := h.mono (List.suffix_cons _ log)
  exact ⟨⟨k, rest, hgrown, List.mem_cons_self⟩, .rest hgrown List.mem_cons_self⟩

/-! ### Levels -/

/-- A level below ancestors, whose candidates are found below the last of them. -/
structure Climbed (host : Host ω ε α κ β key) (plan : Plan ω ε α) (route : κ) (log : Chronicle α κ)
    (frame : Frame (Trail α) (Ahead α κ)) : Prop where
  kind : frame.path.kind = .set ∨ frame.path.kind = .indexed
  ancestry : Ancestry host.keyOf plan.criteria route log frame.path.items
  draws : ∀ k ∈ frame.candidates, Draws log route frame.path.items.getLast? k

/-- A level at which nothing will be read. -/
def Shut (host : Host ω ε α κ β key) (frame : Frame (Trail α) (Ahead α κ)) (w : ω) : Prop :=
  ∃ k, frame.candidates = some k ∧ k.first = none ∧ ∀ x u, host.next k.rest w ≠ .ok (some x) u

/-- An element that waits to be gone below: it was visited last, and not asked about yet.  What was
begun are its children. -/
structure Awaits (route : κ) (log : Chronicle α κ) (held : Slot α κ) (t : Trail α) (p : Pending α Bool) :
    Prop where
  keeps : p.resetPath = false
  visited : HasPassed log t p.element []
  found : Found log route t.items.getLast? p.element
  begun : ∀ c ∈ held, Draws log route (some p.element) c.children

variable {frame : Frame (Trail α) (Ahead α κ)}

theorem Climbed.mono (hlog : log <:+ log') (h : Climbed host plan route log frame) :
    Climbed host plan route log' frame :=
  ⟨h.kind, h.ancestry.mono hlog, fun k hk => (h.draws k hk).mono hlog⟩

/-- A level without candidates, to be left. -/
theorem Climbed.dropped (h : Climbed host plan route log frame) :
    Climbed host plan route log { frame with candidates := none } :=
  ⟨h.kind, h.ancestry, nofun⟩

/-! ### The tests -/

variable [DecidableEq key]

/-- Every question so far was asked in its turn. -/
abbrev Proper (host : Host ω ε α κ β key) (plan : Plan ω ε α) (route : κ) (log : Chronicle α κ) : Prop :=
  AsksInTurn host.keyOf plan.criteria route log

/-- An element as it stands at its place. -/
abbrev Stands (host : Host ω ε α κ β key) (plan : Plan ω ε α) (route : κ) (log : Chronicle α κ)
    (t : Trail α) (a : α) : Prop :=
  Placed host.keyOf plan.criteria route log t a

/-- The second test is made if the first is passed. -/
theorem ensures_both {v : Chronicle α κ × ω} {first second : Act (Chronicle α κ × ω) ε Bool}
    {P Q : Bool → Chronicle α κ × ω → Prop} {E : Chronicle α κ × ω → Prop} (h : Ensures v first P E)
    (htrue : ∀ u, P true u → Ensures u second Q E) (hfalse : ∀ u, P false u → Q false u) :
    Ensures v (both first second) Q E := by
  refine h.bind (fun passed u hu => ?_) fun _ h => h
  cases passed with
  | true => exact htrue u hu
  | false => exact hfalse u hu

/-- What tests leave behind, where the chronicle was `log` before: the questions were asked in their turn,
and if the tests are passed, so are all those in `cs`. -/
structure Tested (host : Host ω ε α κ β key) (plan : Plan ω ε α) (route : κ) (log : Chronicle α κ)
    (t : Trail α) (a : α) (cs : List (Check α)) (passed : Bool) (v : Chronicle α κ × ω) : Prop where
  proper : Proper host plan route v.1
  grows : log <:+ v.1
  hasPassed : passed = true → HasPassed v.1 t a cs

/-- One question more is asked in its turn. -/
theorem Tested.ask {v : Chronicle α κ × ω} {before after : List (Check α)} {q : Question α}
    (h : Tested host plan route log t a before true v) (hstands : Stands host plan route log t a)
    (hchecks : plan.criteria.checks t a = before ++ .question q :: after) (test : Act ω ε Bool) :
    Ensures v (asked q test) (Tested host plan route log t a (before ++ [.question q]))
      fun u => Proper host plan route u.1 := by
  have hturn : InTurn host.keyOf plan.criteria route v.1 q :=
    ⟨t, a, before, after, hchecks, h.hasPassed rfl, hstands.mono h.grows⟩
  obtain ⟨past, v⟩ := v
  refine Ensures.imp (ensures_asked q test) ?_ ?_
  · intro passed u hu
    refine ⟨?_, ?_, ?_⟩
    · rw [hu]
      exact (h.proper.ask hturn).cons rfl
    · rw [hu]
      exact (h.grows.trans (List.suffix_cons _ _)).trans (List.suffix_cons _ _)
    · rintro rfl
      rw [hu]
      exact (h.hasPassed rfl).answered q
  · intro u hu
    rw [hu]
    exact h.proper.ask hturn

/-- One gate more, if there is one. -/
theorem Tested.gate {v : Chronicle α κ × ω} {before after : List (Check α)}
    {question : Trail α → α → Question α} {g : Option (Gate ω ε α)}
    (h : Tested host plan route log t a before true v) (hstands : Stands host plan route log t a)
    (hchecks : plan.criteria.checks t a =
      before ++ ((g.map (Gate.check question t a)).toList ++ after)) :
    Ensures v (Gate.passesAny (g.map (Gate.chronicled question)) t a)
      (Tested host plan route log t a (before ++ (g.map (Gate.check question t a)).toList))
      fun u => Proper host plan route u.1 := by
  cases g with
  | none =>
      refine Ensures.pure ⟨h.proper, h.grows, fun _ => ?_⟩
      rw [Option.map_none, Option.toList_none, List.append_nil]
      exact h.hasPassed rfl
  | some g =>
      cases g with
      | within n =>
          refine Ensures.pure ⟨h.proper, h.grows, fun hmet => ?_⟩
          rw [Option.map_some, Option.toList_some, Gate.check, hmet]
          exact (h.hasPassed rfl).met
      | asks test => exact h.ask hstands hchecks (test t a)

/-- The test on the element alone, if there is one. -/
theorem Tested.element {v : Chronicle α κ × ω} {before : List (Check α)} {f : Option (α → Act ω ε Bool)}
    (h : Tested host plan route log t a before true v) (hstands : Stands host plan route log t a)
    (hchecks : plan.criteria.checks t a =
      before ++ (f.map fun _ => Check.question (.elementPred a)).toList) :
    Ensures v (passesElement (f.map fun test a => asked (.elementPred a) (test a)) a)
      (Tested host plan route log t a (plan.criteria.checks t a)) fun u => Proper host plan route u.1 := by
  rw [hchecks]
  cases f with
  | none =>
      refine Ensures.pure ⟨h.proper, h.grows, fun _ => ?_⟩
      rw [Option.map_none, Option.toList_none, List.append_nil]
      exact h.hasPassed rfl
  | some test => exact h.ask hstands hchecks (test a)

/-- Whether an element is among its ancestors is found out without a question. -/
theorem ensures_isNew :
    Ensures (log, w) (isNew host.chronicled t a : Act (Chronicle α κ × ω) ε Bool)
      (fun passed v => v = (log, w) ∧ (passed = true → t.mem? host.keyOf a = some false))
      fun v => v.1 = log := by
  cases hmem : t.mem? host.keyOf a with
  | none =>
      simp only [isNew, Host.chronicled, hmem]
      exact rfl
  | some known =>
      simp only [isNew, Host.chronicled, hmem]
      refine ⟨rfl, fun hnew => ?_⟩
      rw [Bool.not_eq_true'] at hnew
      rw [hnew]

/-- **The tests are asked in order**, up to the first that is not passed. -/
theorem ensures_tests (hproper : Proper host plan route log) (hvisited : HasPassed log t a [])
    (hstands : Stands host plan route log t a) :
    Ensures (log, w)
      (both (Gate.passesAny (plan.criteria.pred.map (Gate.chronicled .pred)) t a)
        (both (Gate.passesAny (plan.criteria.pathPred.map (Gate.chronicled fun t _ => .pathPred t)) t a)
          (passesElement (plan.criteria.elementPred.map fun test a => asked (.elementPred a) (test a)) a)))
      (Tested host plan route log t a (plan.criteria.checks t a)) fun v => Proper host plan route v.1 := by
  have htested : Tested host plan route log t a [] true (log, w) :=
    ⟨hproper, List.suffix_rfl, fun _ => hvisited⟩
  have refused : ∀ {cs : List (Check α)} {v : Chronicle α κ × ω},
      Tested host plan route log t a cs false v →
        Tested host plan route log t a (plan.criteria.checks t a) false v :=
    fun h => ⟨h.proper, h.grows, fun hpassed => absurd hpassed Bool.false_ne_true⟩
  refine ensures_both (htested.gate hstands rfl) (fun v hv => ?_) fun _ => refused
  refine ensures_both (hv.gate hstands rfl) (fun v hv => ?_) fun _ => refused
  exact hv.element hstands (List.append_assoc _ _ _).symm

/-- What all tests ask of an element that was visited and not asked about yet. -/
theorem ensures_passes (hcut : plan.criteria.cutCycles = true) (hproper : Proper host plan route log)
    (hvisited : HasPassed log t a []) (hfound : Found log route t.items.getLast? a)
    (hancestry : Ancestry host.keyOf plan.criteria route log t.items) :
    Ensures (log, w) (passes host.chronicled plan.chronicled t a)
      (fun passed v => Tested host plan route log t a (plan.criteria.checks t a) passed v ∧
        (passed = true → Stands host plan route log t a))
      fun v => Proper host plan route v.1 := by
  have hcut' : (plan.chronicled : Plan (Chronicle α κ × ω) ε α).criteria.cutCycles = true := hcut
  simp only [passes, hcut', if_true]
  refine ensures_both (ensures_isNew.imp (fun _ _ h => h) ?_) ?_ ?_
  · rintro ⟨_, v⟩ rfl
    exact hproper
  · rintro _ ⟨rfl, hnew⟩
    have hstands : Stands host plan route log t a := ⟨hnew rfl, hfound, hancestry⟩
    exact (ensures_tests hproper hvisited hstands).imp (fun _ _ h => ⟨h, fun _ => hstands⟩) fun _ h => h
  · rintro _ ⟨rfl, -⟩
    have hrefused : ¬ false = true := Bool.false_ne_true
    exact ⟨⟨hproper, List.suffix_rfl, fun h => absurd h hrefused⟩, fun h => absurd h hrefused⟩

/-! ### What is handed on -/

/-- The candidates of the level below an element: its children, if it passed all tests, or nothing. -/
inductive HandedOn (host : Host ω ε α κ β key) (plan : Plan ω ε α) (route : κ) (t : Trail α) (a : α)
    (k : Ahead α κ) (log : Chronicle α κ) (w : ω) : Prop
  | children : Stands host plan route log t a → plan.criteria.Cleared log t a →
      Draws log route (some a) k → HandedOn host plan route t a k log w
  | nothing : k.first = none → (∀ x u, host.next k.rest w ≠ .ok (some x) u) →
      HandedOn host plan route t a k log w

/-- What the expansion of an element leaves behind, where the chronicle was `log` before. -/
structure Expanded (host : Host ω ε α κ β key) (plan : Plan ω ε α) (route : κ) (held : Slot α κ)
    (log : Chronicle α κ) (t : Trail α) (a : α) (k : Ahead α κ) (v : Slot α κ × Chronicle α κ × ω) : Prop where
  proper : Proper host plan route v.2.1
  grows : log <:+ v.2.1
  idle : held = none → v.1 = none
  handed : HandedOn host plan route t a k v.2.1 v.2.2

omit [DecidableEq key] in
theorem ensures_fromStart :
    Ensures (log, w) (fromStart host.chronicled a)
      (fun k v => k.first = none ∧ v.1 = .opens a k.rest :: log) fun v => v.1 = log :=
  ensures_children.bind (fun _ _ hv => ⟨rfl, hv⟩) fun _ h => h

/-- **What is handed on** below an element that was visited and not asked about yet. -/
theorem ensures_expand (hcut : plan.criteria.cutCycles = true) (hvacant : host.Vacant)
    (hproper : Proper host plan route log) (hvisited : HasPassed log t a [])
    (hfound : Found log route t.items.getLast? a)
    (hancestry : Ancestry host.keyOf plan.criteria route log t.items)
    (hslot : ∀ c ∈ held, Draws log route (some a) c.children) :
    Ensures (held, log, w) (expand host.chronicled plan.chronicled t a)
      (Expanded host plan route held log t a) fun v => Proper host plan route v.2.1 := by
  refine Ensures.bind (Ensures.beside (Q := fun passed v => v.1 = held ∧
    Tested host plan route log t a (plan.criteria.checks t a) passed v.2 ∧
      (passed = true → Stands host plan route log t a)) (E := fun v => Proper host plan route v.2.1)
    ((ensures_passes hcut hproper hvisited hfound hancestry).imp (fun _ _ h => ⟨rfl, h⟩) fun _ h => h))
    ?_ fun _ h => h
  rintro passed ⟨held, log', v⟩ ⟨rfl, htested, hstands⟩
  cases passed with
  | false =>
      refine ensures_modify_bind ?_
      refine ensures_outside_bind (fun _ => htested.proper) fun k u hnothing => ?_
      exact ⟨htested.proper, htested.grows, fun _ => rfl, .nothing rfl (hvacant _ _ _ hnothing)⟩
  | true =>
      have hcleared : plan.criteria.Cleared log' t a := ⟨log', List.suffix_rfl, htested.hasPassed rfl⟩
      have hstands : Stands host plan route log' t a := (hstands rfl).mono htested.grows
      -- the children are opened from the start
      have opened : Ensures (held, log', v) (Act.beside (fromStart host.chronicled a))
          (Expanded host plan route held log t a) fun v => Proper host plan route v.2.1 := by
        refine Ensures.beside (ensures_fromStart.imp ?_ ?_)
        · rintro ⟨_, k⟩ ⟨_, u⟩ ⟨rfl, rfl⟩
          have hgrows : log' <:+ .opens a k :: log' := List.suffix_cons _ _
          refine ⟨htested.proper.cons rfl, htested.grows.trans hgrows, id, ?_⟩
          exact .children (hstands.mono hgrows) (hcleared.mono hgrows)
            ⟨nofun, .opened List.mem_cons_self⟩
        · rintro ⟨_, u⟩ rfl
          exact htested.proper
      refine ensures_read_bind ?_
      cases held with
      | none => exact opened
      | some c =>
          dsimp only
          split
          · refine ensures_modify_bind ?_
            exact ⟨htested.proper, htested.grows, nofun,
              .children hstands hcleared ((hslot c rfl).mono htested.grows)⟩
          · exact opened

/-! ### The invariant -/

/-- **The invariant of a search that cuts cycles**: the chronicle bears out what stands on its levels. -/
structure Attested (host : Host ω ε α κ β key) (plan : Plan ω ε α) (route : κ)
    (s : Walk α (Trail α) (Ahead α κ) Bool) (held : Slot α κ) (log : Chronicle α κ) (w : ω) : Prop where
  proper : Proper host plan route log
  idle : plan.scope ≠ .leaves → held = none
  inner : ∀ f ∈ s.levels.head?, Climbed host plan route log f ∨ s.pending = none ∧ Shut host f w
  outer : ∀ f ∈ s.levels.tail, Climbed host plan route log f
  awaits : ∀ p ∈ s.pending, ∀ f ∈ s.levels.head?, Awaits route log held f.path p

/-- What a step must leave.  The consumer of a result may do anything to the world. -/
def AttestedAfter (host : Host ω ε α κ β key) (plan : Plan ω ε α) (route : κ) :
    Step (Walk α (Trail α) (Ahead α κ) Bool) β ε → Slot α κ × Chronicle α κ × ω → Prop
  | .skip s, v => Attested host plan route s v.1 v.2.1 v.2.2
  | .give _ s, v => ∀ u, Attested host plan route s v.1 v.2.1 u
  | _, v => Proper host plan route v.2.1

section Step

variable {outer : List (Frame (Trail α) (Ahead α κ))} {n : ℕ} {p : Pending α Bool}
  {w' : ω}

/-- Nothing waits, and all levels are below ancestors. -/
theorem Attested.of_levels (hproper : Proper host plan route log) (hidle : plan.scope ≠ .leaves → held = none)
    {levels : List (Frame (Trail α) (Ahead α κ))} (h : ∀ f ∈ levels, Climbed host plan route log f) :
    Attested host plan route { levels, fruitless := n } held log w where
  proper := hproper
  idle := hidle
  inner f hf := .inl (h f (List.mem_of_mem_head? hf))
  outer f hf := h f (List.mem_of_mem_tail hf)
  awaits := nofun

theorem ensures_truth_bind {γ : Type} {v : Slot α κ × Chronicle α κ × ω} {d : Bool}
    {f : Bool → Act (Slot α κ × Chronicle α κ × ω) ε γ}
    {Q : γ → Slot α κ × Chronicle α κ × ω → Prop} {E : Slot α κ × Chronicle α κ × ω → Prop}
    (h : Ensures v (f d) Q E) :
    Ensures v ((chronicledEnv host plan).truth d >>= f) Q E := h

/-- The trail below an element is made without a word. -/
theorem ensures_extend :
    Ensures (log, w) (extend host.chronicled t a)
      (fun u v => v.1 = log ∧ ∃ mark, u = t.extend host.keyOf a mark) fun v => v.1 = log := by
  refine ensures_caller_bind (fun _ => rfl) fun mark v _ => ?_
  have keyed : Ensures (log, v) (do
      let _ ← Act.ofOption host.unhashable (host.keyOf a)
      pure (t.extend host.keyOf a mark) : Act (Chronicle α κ × ω) ε (Trail α))
      (fun u v => v.1 = log ∧ ∃ mark, u = t.extend host.keyOf a mark) fun v => v.1 = log := by
    cases host.keyOf a with
    | none => exact rfl
    | some k => exact ⟨rfl, mark, rfl⟩
  cases t.kind with
  | untracked => exact ⟨rfl, mark, rfl⟩
  | sequence => exact ⟨rfl, mark, rfl⟩
  | set => exact keyed
  | indexed => exact keyed

/-- The level below an element at its place that has passed all tests. -/
theorem Climbed.extended (hkind : t.kind = .set ∨ t.kind = .indexed)
    (hstands : Stands host plan route log t a) (hcleared : plan.criteria.Cleared log t a) {k : Ahead α κ}
    (hdraws : Draws log route (some a) k) (mark : Mark) :
    Climbed host plan route log { path := t.extend host.keyOf a mark, candidates := some k } := by
  have hitems := Trail.items_extend_of_new hkind hstands.new mark
  refine ⟨?_, ?_, ?_⟩
  · rw [Trail.kind_extend]
    exact hkind
  · rw [hitems]
    exact hstands.ancestry_concat hcleared
  · rintro _ ⟨⟩
    rw [hitems, List.getLast?_concat]
    exact hdraws

section Below

variable (hcut : plan.criteria.cutCycles = true) (hvacant : host.Vacant)
  (hproper : Proper host plan route log) (hidle : plan.scope ≠ .leaves → held = none)
  (hlevels : ∀ f ∈ frame :: outer, Climbed host plan route log f)
  (hawaits : Awaits route log held frame.path p)
include hcut hvacant hproper hidle hlevels hawaits

/-- **An element is gone below**: the level below it stands below ancestors, or it is left at once. -/
theorem attested_enter :
    Ensures (held, log, w) (Walk.enter (chronicledEnv host plan) frame outer n p)
      (AttestedAfter host plan route) fun v => Proper host plan route v.2.1 := by
  have hframe := hlevels frame List.mem_cons_self
  unfold Walk.enter
  rw [hawaits.keeps]
  refine ensures_truth_bind ?_
  simp only [Bool.false_eq_true, if_false]
  refine Ensures.bind (P := fun u v => v = (held, log, v.2.2) ∧
      ∃ mark, u = frame.path.extend host.keyOf p.element mark)
    (Ensures.beside (ensures_extend.imp ?_ ?_)) ?_ fun _ h => h
  · rintro u ⟨_, v⟩ ⟨rfl, hmark⟩
    exact ⟨rfl, hmark⟩
  · rintro ⟨_, v⟩ rfl
    exact hproper
  · rintro u ⟨_, _, v⟩ ⟨hv, mark, rfl⟩
    cases hv
    refine Ensures.bind (ensures_expand hcut hvacant hproper hawaits.visited hawaits.found hframe.ancestry
      hawaits.begun) ?_ fun _ h => h
    rintro k ⟨held', log', v'⟩ hexpanded
    refine ⟨hexpanded.proper, fun hscope => hexpanded.idle (hidle hscope), ?_,
      fun f hf => (hlevels f hf).mono hexpanded.grows, nofun⟩
    rintro _ ⟨⟩
    cases hexpanded.handed with
    | children hstands hcleared hdraws =>
        exact .inl (.extended hframe.kind hstands hcleared hdraws mark)
    | nothing hfirst hnone => exact .inr ⟨rfl, k, rfl, hfirst, hnone⟩

/-- Also where the search is fruitless, whatever the policy answers. -/
theorem attested_answer :
    Ensures (held, log, w) (Walk.answer (chronicledEnv host plan) frame outer n p)
      (AttestedAfter host plan route) fun v => Proper host plan route v.2.1 := by
  obtain ⟨hframe, houter⟩ := List.forall_mem_cons.1 hlevels
  refine ensures_outside_bind (fun _ => hproper) fun _ w _ =>
    ensures_outside_bind (fun _ => hproper) fun resolution w _ => ?_
  cases resolution with
  | descend => exact attested_enter hcut hvacant hproper hidle hlevels hawaits
  | advance =>
      refine ensures_outside_bind (fun _ => hproper) fun _ w _ => ?_
      exact Attested.of_levels hproper hidle hlevels
  | cut =>
      refine ensures_outside_bind (fun _ => hproper) fun _ w _ => ?_
      exact Attested.of_levels hproper hidle (List.forall_mem_cons.2 ⟨hframe.dropped, houter⟩)
  | substitute b =>
      refine ensures_outside_bind (fun _ => hproper) fun _ w _ => ?_
      exact fun _ => Attested.of_levels hproper hidle nofun

theorem attested_below :
    Ensures (held, log, w) (Walk.below (chronicledEnv host plan) limits frame outer n p)
      (AttestedAfter host plan route) fun v => Proper host plan route v.2.1 := by
  refine ensures_truth_bind ?_
  split
  · exact Attested.of_levels hproper hidle hlevels
  · dsimp only
    split
    · exact attested_answer hcut hvacant hproper hidle hlevels hawaits
    · exact attested_enter hcut hvacant hproper hidle hlevels hawaits

end Below

/-- What the control leaves behind at an element that was visited last, where the chronicle was `log`
before: nothing was asked, and what was begun are children of the element. -/
structure Controlled (host : Host ω ε α κ β key) (plan : Plan ω ε α) (route : κ) (log : Chronicle α κ)
    (t : Trail α) (a : α) (i : Instruction Bool) (v : Slot α κ × Chronicle α κ × ω) : Prop where
  keeps : i.resetPath = false
  proper : Proper host plan route v.2.1
  grows : log <:+ v.2.1
  visited : HasPassed v.2.1 t a []
  idle : plan.scope ≠ .leaves → v.1 = none
  begun : ∀ c ∈ v.1, Draws v.2.1 route (some a) c.children

/-- A control that writes nothing down, and keeps nothing to itself. -/
theorem Controlled.of_silent {i : Instruction Bool} (hkeeps : i.resetPath = false)
    (hproper : Proper host plan route log) (hvisited : HasPassed log t a []) :
    Controlled host plan route log t a i (none, log, w) :=
  ⟨hkeeps, hproper, List.suffix_rfl, hvisited, fun _ => rfl, nofun⟩

/-- Where the children of the element were opened, and the first of them was read, if there is one. -/
theorem Controlled.of_begun {i : Instruction Bool} (hkeeps : i.resetPath = false)
    (hproper : Proper host plan route log) (hvisited : HasPassed log t a [])
    (hscope : plan.scope = .leaves) (k : κ) (found : Option (α × κ)) :
    Controlled host plan route log t a i
      (found.map fun x => { element := a, children := { first := some x.1, rest := x.2 } },
        (found.map fun x => .reads k x.1 x.2).toList ++ .opens a k :: log, w) := by
  have hopened : Stems (.opens a k :: log) route (some a) k := .opened List.mem_cons_self
  have hproper := hproper.cons (e := .opens a k) rfl
  have hvisited := hvisited.cons (e := .opens a k) rfl rfl
  cases found with
  | none => exact ⟨hkeeps, hproper, List.suffix_cons _ _, hvisited, fun _ => rfl, nofun⟩
  | some x =>
      obtain ⟨hfound, hrest⟩ := hopened.read x.1 x.2
      refine ⟨hkeeps, hproper.cons rfl, (List.suffix_cons _ _).trans (List.suffix_cons _ _),
        hvisited.cons rfl rfl, absurd hscope, ?_⟩
      rintro _ ⟨⟩
      refine ⟨?_, hrest⟩
      rintro _ ⟨⟩
      exact hfound

/-- **The control** asks nothing either.  What it begins to read are children of the element. -/
theorem ensures_control (hproper : Proper host plan route log) (hvisited : HasPassed log t a [])
    (hidle : plan.scope ≠ .leaves → held = none) :
    Ensures (held, log, w) (control host.chronicled plan.chronicled t a)
      (Controlled host plan route log t a) fun v => Proper host plan route v.2.1 := by
  have hcontrol : (plan.chronicled : Plan (Chronicle α κ × ω) ε α).scope = plan.scope := rfl
  rw [control, hcontrol]
  cases hscope : plan.scope with
  | everything =>
      obtain rfl := hidle (by rw [hscope]; decide)
      exact .of_silent rfl hproper hvisited
  | leaves =>
      refine ensures_modify_bind (Ensures.bind (P := fun k v => v = (none, .opens a k :: log, v.2.2))
        (Ensures.beside (ensures_children.imp ?_ ?_)) ?_ fun _ h => h)
      · rintro k ⟨_, v⟩ rfl
        rfl
      · rintro ⟨_, v⟩ rfl
        exact hproper
      rintro k ⟨_, _, v⟩ hv
      cases hv
      refine Ensures.bind (P := fun found v => v.1 = none ∧
          v.2.1 = (found.map fun x => .reads k x.1 x.2).toList ++ .opens a k :: log)
        (Ensures.beside ((ensures_next k).imp ?_ ?_)) ?_ fun _ h => h
      · rintro found ⟨_, v⟩ ⟨-, hv⟩
        exact ⟨rfl, hv⟩
      · rintro ⟨_, v⟩ rfl
        exact hproper.cons rfl
      rintro found ⟨_, _, v⟩ ⟨rfl, rfl⟩
      cases found with
      | none => exact Ensures.pure (.of_begun rfl hproper hvisited hscope k none)
      | some x =>
          exact ensures_modify_bind (Ensures.pure (.of_begun rfl hproper hvisited hscope k (some x)))
  | cycles =>
      obtain rfl := hidle (by rw [hscope]; decide)
      cases t.origin? with
      | none => exact .of_silent rfl hproper hvisited
      | some origin =>
          refine ensures_outside_bind (fun _ => hproper) fun same w _ => ?_
          cases same with
          | true => exact .of_silent rfl hproper hvisited
          | false => exact .of_silent rfl hproper hvisited

/-- A level below ancestors is read: what is read is found below them, and so is what is left. -/
theorem ensures_ahead {o : Option α} {k : Ahead α κ} (hproper : Proper host plan route log)
    (hdraws : Draws log route o k) :
    Ensures (log, w) (Ahead.next host.chronicled.next k)
      (fun found v => Proper host plan route v.1 ∧ log <:+ v.1 ∧
        ∀ x ∈ found, Found v.1 route o x.1 ∧ Draws v.1 route o x.2)
      fun v => Proper host plan route v.1 := by
  obtain ⟨first, rest⟩ := k
  cases first with
  | some b =>
      refine ⟨hproper, List.suffix_rfl, ?_⟩
      rintro _ ⟨⟩
      exact ⟨hdraws.1 b rfl, nofun, hdraws.2⟩
  | none =>
      refine Ensures.bind (ensures_next rest) ?_ ?_
      · rintro found ⟨_, v⟩ ⟨-, rfl⟩
        cases found with
        | none => exact ⟨hproper, List.suffix_rfl, nofun⟩
        | some x =>
            obtain ⟨hfound, hrest⟩ := hdraws.2.read x.1 x.2
            refine ⟨hproper.cons rfl, List.suffix_cons _ _, ?_⟩
            rintro _ ⟨⟩
            exact ⟨hfound, nofun, hrest⟩
      · rintro ⟨_, v⟩ rfl
        exact hproper

omit [DecidableEq key] in
/-- A level at which nothing will be read. -/
theorem ensures_shut {k : Ahead α κ} (hfirst : k.first = none)
    (hnone : ∀ x u, host.next k.rest w ≠ .ok (some x) u) :
    Ensures (log, w) (Ahead.next host.chronicled.next k) (fun found v => found = none ∧ v.1 = log)
      fun v => v.1 = log := by
  obtain ⟨_, rest⟩ := k
  cases hfirst
  refine Ensures.bind (ensures_next rest) ?_ fun _ h => h
  rintro found ⟨_, v⟩ ⟨hnext, rfl⟩
  cases found with
  | none => exact ⟨rfl, rfl⟩
  | some x => exact absurd hnext (hnone x v)

/-- An element waits to be gone below, once the control has answered.  Its siblings stay, if they are to
be visited. -/
theorem Attested.of_visit (hkind : t.kind = .set ∨ t.kind = .indexed)
    (hancestry : Ancestry host.keyOf plan.criteria route log t.items)
    (houter : ∀ f ∈ outer, Climbed host plan route log f) (hfound : Found log route t.items.getLast? a)
    {rest : Ahead α κ} (hrest : Draws log route t.items.getLast? rest) {i : Instruction Bool}
    (hi : Controlled host plan route (.visits t a :: log) t a i (held, log', w)) (goesOn : Bool) :
    Attested host plan route
      { levels := { path := t, candidates := if goesOn then some rest else none } :: outer, fruitless := n,
        pending := some { element := a, descend := i.descend, resetPath := i.resetPath } } held log' w' := by
  have hgrows : log <:+ log' := (List.suffix_cons _ _).trans hi.grows
  refine ⟨hi.proper, hi.idle, ?_, fun f hf => (houter f hf).mono hgrows, ?_⟩
  · rintro _ ⟨⟩
    refine .inl ⟨hkind, hancestry.mono hgrows, ?_⟩
    rintro k hk
    cases goesOn with
    | true =>
        cases hk
        exact hrest.mono hgrows
    | false => cases hk
  · rintro _ ⟨⟩ _ ⟨⟩
    exact ⟨hi.keeps, hi.visited, hfound.mono hgrows, hi.begun⟩

/-- **An element is visited**, and waits to be gone below. -/
theorem attested_visit (hproper : Proper host plan route log)
    (hidle : plan.scope ≠ .leaves → held = none)
    (hframe : Climbed host plan route log frame ∨ Shut host frame w)
    (houter : ∀ f ∈ outer, Climbed host plan route log f) :
    Ensures (held, log, w) (Walk.visit (chronicledEnv host plan) frame outer n)
      (AttestedAfter host plan route) fun v => Proper host plan route v.2.1 := by
  obtain ⟨t, _ | k⟩ := frame
  · exact Attested.of_levels hproper hidle houter
  rcases hframe with hframe | ⟨_, ⟨⟩, hfirst, hnone⟩
  · refine Ensures.bind (P := fun found v => v.1 = held ∧ Proper host plan route v.2.1 ∧ log <:+ v.2.1 ∧
        ∀ x ∈ found, Found v.2.1 route t.items.getLast? x.1 ∧ Draws v.2.1 route t.items.getLast? x.2)
      (Ensures.beside ((ensures_ahead hproper (hframe.draws k rfl)).imp (fun _ _ h => ⟨rfl, h⟩)
        fun _ h => h)) ?_ fun _ h => h
    rintro found ⟨held, log, w⟩ ⟨rfl, hproper, hgrows, hfound⟩
    cases found with
    | none => exact Attested.of_levels hproper hidle fun f hf => (houter f hf).mono hgrows
    | some x =>
        obtain ⟨a, rest⟩ := x
        obtain ⟨hfound, hrest⟩ := hfound _ rfl
        have hcontrol : Ensures (held, log, w) ((chronicledEnv host plan).control t a) _ _ :=
          ensures_control (w := w) (hproper.cons (e := .visits t a) rfl) .visit hidle
        refine Ensures.bind hcontrol ?_ fun _ h => h
        rintro i ⟨held', log', w'⟩ hi
        have hframe := hframe.mono hgrows
        have houter : ∀ f ∈ outer, Climbed host plan route log f := fun f hf => (houter f hf).mono hgrows
        refine ensures_truth_bind (ensures_truth_bind ?_)
        cases i.emit with
        | true => exact fun _ => .of_visit hframe.kind hframe.ancestry houter hfound hrest hi _
        | false => exact .of_visit hframe.kind hframe.ancestry houter hfound hrest hi _
  · refine Ensures.bind (P := fun found v => found = none ∧ v = (held, log, v.2.2))
      (Ensures.beside ((ensures_shut hfirst hnone).imp ?_ ?_)) ?_ fun _ h => h
    · rintro found ⟨_, v⟩ ⟨rfl, rfl⟩
      exact ⟨rfl, rfl⟩
    · rintro ⟨_, v⟩ rfl
      exact hproper
    · rintro _ ⟨_, _, v⟩ ⟨rfl, hv⟩
      cases hv
      exact Attested.of_levels hproper hidle houter

/-- **What one step keeps**, and what it leaves behind where it fails. -/
theorem attested_step (hcut : plan.criteria.cutCycles = true) (hvacant : host.Vacant)
    {s : Walk α (Trail α) (Ahead α κ) Bool} (h : Attested host plan route s held log w) :
    Ensures (held, log, w) (Walk.step (chronicledEnv host plan) limits s)
      (AttestedAfter host plan route) fun v => Proper host plan route v.2.1 := by
  obtain ⟨levels, n, pending⟩ := s
  cases levels with
  | nil => exact h.proper
  | cons frame outer =>
      cases pending with
      | none =>
          exact attested_visit h.proper h.idle ((h.inner frame rfl).imp id And.right) h.outer
      | some p =>
          have hframe : Climbed host plan route log frame := by
            rcases h.inner frame rfl with hframe | ⟨hnone, -⟩
            · exact hframe
            · cases hnone
          exact attested_below hcut hvacant h.proper h.idle (List.forall_mem_cons.2 ⟨hframe, h.outer⟩)
            (h.awaits p rfl frame rfl)

end Step

/-! ### A whole run -/

/-- The chronicles of a run: at the states that are reached, and where a step fails there.  The consumer
writes nothing down. -/
inductive Chronicled (host : Host ω ε α κ β key) (plan : Plan ω ε α) (limits : Limits)
    (consume : β → Act ω ε Unit) (mark : Mark) (route : κ) (w₀ : ω) : Chronicle α κ → Prop
  | reached {x : Search α κ} {log : Chronicle α κ} {w : ω} :
      Machine.Reached (stepChronicled host plan limits) (fun b => Act.beside (consume b))
        (start plan mark route) ([], w₀) x (log, w) → Chronicled host plan limits consume mark route w₀ log
  | failed {x : Search α κ} {w v : Chronicle α κ × ω} {e : ε} :
      Machine.Reached (stepChronicled host plan limits) (fun b => Act.beside (consume b))
        (start plan mark route) ([], w₀) x w → stepChronicled host plan limits x w = .error e v →
      Chronicled host plan limits consume mark route w₀ v.1

section Run

variable {consume : β → Act ω ε Unit} {mark : Mark} {w₀ : ω}

/-- A search that cuts cycles asks for the ancestors of an element whether it is among them. -/
theorem trailKind_of_cut (hcut : plan.criteria.cutCycles = true) :
    plan.trailKind = .set ∨ plan.trailKind = .indexed := by
  simp only [Plan.trailKind, hcut]
  cases plan.givesPaths || plan.scope == .cycles || plan.criteria.looks with
  | true => exact .inr rfl
  | false => exact .inl rfl

/-- At every state of a run, the chronicle bears out what stands on its levels. -/
theorem attested_of_reached (hcut : plan.criteria.cutCycles = true) (hvacant : host.Vacant)
    {x : Search α κ} {v : Chronicle α κ × ω}
    (h : Machine.Reached (stepChronicled host plan limits) (fun b => Act.beside (consume b))
      (start plan mark route) ([], w₀) x v) : Attested host plan route x.1 x.2 v.1 v.2 := by
  induction h with
  | start =>
      refine Attested.of_levels asksInTurn_nil (fun _ => rfl) ?_
      intro f hf
      obtain rfl := List.mem_singleton.1 hf
      refine ⟨trailKind_of_cut hcut, .nil, ?_⟩
      rintro _ ⟨⟩
      exact ⟨nofun, .route⟩
  | @skip x y v u _ hs ih =>
      have hstep : Ensures _ (Walk.step (chronicledEnv host plan) limits x.1) _ _ :=
        attested_step hcut hvacant ih
      obtain ⟨r, held, hm, hr⟩ := Machine.step_of_beside hs
      cases r <;> cases hr
      rw [Ensures, hm] at hstep
      exact hstep
  | @give x y v u z b _ hs hc ih =>
      have hstep : Ensures _ (Walk.step (chronicledEnv host plan) limits x.1) _ _ :=
        attested_step hcut hvacant ih
      obtain ⟨r, held, hm, hr⟩ := Machine.step_of_beside hs
      cases r <;> cases hr
      rw [Ensures, hm] at hstep
      rw [(Act.beside_eq_ok_iff.1 hc).2]
      exact hstep _

/-- **Every question of a run is asked in its turn**, also where the run fails. -/
theorem asksInTurn_of_chronicled (hcut : plan.criteria.cutCycles = true) (hvacant : host.Vacant)
    (h : Chronicled host plan limits consume mark route w₀ log) :
    AsksInTurn host.keyOf plan.criteria route log := by
  cases h with
  | reached hr => exact (attested_of_reached hcut hvacant hr).proper
  | @failed x w v e hr hs =>
      have hstep : Ensures _ (Walk.step (chronicledEnv host plan) limits x.1) _ _ :=
        attested_step hcut hvacant (attested_of_reached hcut hvacant hr)
      rw [stepChronicled, Machine.beside] at hs
      split at hs
      · cases hs
      · rename_i hm
        cases hs
        rw [Ensures, hm] at hstep
        exact hstep

end Run

end Search

end GraphRoutes
