/-
**The branches of a search that cuts cycles.**

Wherever a search stands, the ancestors that it keeps form a branch: the first of them is an element
of the route, each other one is a child of the one before, no two of them are equal, and each has
passed the tests below those before it.  This is so at every level on the stack of the walk, as long
as the level has any candidates.  Below an element that the tests refuse there may stand a trail that
is no branch; but that level is left before anything is visited on it.

The terrain is arbitrary, so what is known of an element is where it was once found: an item of a
source is one that the source gives in some world, now or after others.

Main definitions:

* `GraphRoutes.Source.Item` — an item of a source;
* `GraphRoutes.Search.Criteria.Passed` — the tests of the caller that an element has passed;
* `GraphRoutes.Terrain.IsChild`, `GraphRoutes.Terrain.Met` — children, and elements that are met below
  ancestors;
* `GraphRoutes.Terrain.Line`, `GraphRoutes.Terrain.Branch` — ancestors one below the other, and
  ancestors that a search without repetitions has gone below;
* `GraphRoutes.Terrain.Expanded` — what an expansion can do;
* `GraphRoutes.Terrain.Sound` — the invariant of the walk.

Main results:

* `GraphRoutes.Terrain.Branch.isChain`, `GraphRoutes.Terrain.Branch.nodup`,
  `GraphRoutes.Terrain.Branch.passed` — what a branch is like;
* `GraphRoutes.Terrain.Sound.skip`, `GraphRoutes.Terrain.Sound.give` — what one step keeps;
* `GraphRoutes.Terrain.sound_of_reached` — **every run of a search keeps to its branches.**
-/
import GraphRoutes.Proofs.Descent.Move
import GraphRoutes.Proofs.Search.Terrain
import Mathlib.Data.List.Chain
import Mathlib.Data.List.Nodup

set_option relaxedAutoImplicit false
set_option autoImplicit false

namespace GraphRoutes

open Search

variable {ω ε α κ β key : Type}

/-- An item that a source gives, now or after others. -/
inductive Source.Item (next : Source ω ε κ α) : κ → α → Prop
  | here {k k' : κ} {w v : ω} {a : α} : next k w = .ok (some (a, k')) v → Source.Item next k a
  | later {k k' : κ} {w v : ω} {a b : α} : next k w = .ok (some (b, k')) v →
      Source.Item next k' a → Source.Item next k a

/-- The tests of the caller, cycles apart, that an element with a trail has passed at some time. -/
structure Search.Criteria.Passed (c : Criteria ω ε α) (t : Trail α) (a : α) : Prop where
  pred : ∀ g ∈ c.pred, ∃ w v, g.passes t a w = .ok true v
  pathPred : ∀ g ∈ c.pathPred, ∃ w v, g.passes t a w = .ok true v
  elementPred : ∀ test ∈ c.elementPred, ∃ w v, test a w = .ok true v

/-- An element that passes a bound has fewer ancestors. -/
theorem Search.Gate.length_lt_of_passes {n : ℤ} {t : Trail α} {a : α} {w v : ω}
    (h : (Gate.within n : Gate ω ε α).passes t a w = .ok true v) : (t.items.length : ℤ) < n := by
  simp only [Gate.passes] at h
  cases hlt : decide ((t.length : ℤ) < n) with
  | true =>
      rw [Trail.length_items]
      exact of_decide_eq_true hlt
  | false =>
      rw [hlt] at h
      cases h

namespace Terrain

variable (T : Terrain ω ε α κ key)

/-- `b` is one of the children of `a`. -/
def IsChild (a b : α) : Prop := ∃ w k v, T.children a w = .ok k v ∧ Source.Item T.next k b

/-- `b` is met below the ancestors `p`: as a child of the last of them, or on the route. -/
def Met (route : κ) (p : List α) (b : α) : Prop :=
  match p.getLast? with
  | none => Source.Item T.next route b
  | some a => T.IsChild a b

/-- What is met below a branch comes after it. -/
theorem isChain_append_of_met {T : Terrain ω ε α κ key} {route : κ} {p : List α} {b : α}
    (hp : p.IsChain T.IsChild) (hb : T.Met route p b) : (p ++ [b]).IsChain T.IsChild := by
  refine hp.append (List.isChain_singleton b) fun x hx y hy => ?_
  obtain rfl : b = y := Option.some.inj hy
  simpa only [Met, Option.mem_def.1 hx] using hb

/-- **A line**: elements each of which is met below those before it. -/
inductive Line (T : Terrain ω ε α κ key) (route : κ) : List α → Prop
  | nil : Line T route []
  | concat {p : List α} {a : α} : Line T route p → T.Met route p a → Line T route (p ++ [a])

/-- Each item of a line is a child of the one before. -/
theorem Line.isChain {T : Terrain ω ε α κ key} {route : κ} {p : List α} (h : T.Line route p) :
    p.IsChain T.IsChild := by
  induction h with
  | nil => exact List.isChain_nil
  | concat _ hmet ih => exact isChain_append_of_met ih hmet

/-- The first item of a line is an element of the route. -/
theorem Line.item_of_head {T : Terrain ω ε α κ key} {route : κ} {p : List α} (h : T.Line route p)
    {o : α} (ho : p.head? = some o) : Source.Item T.next route o := by
  induction h with
  | nil => cases ho
  | @concat p a _ hmet ih =>
      cases p with
      | nil =>
          obtain rfl : a = o := Option.some.inj ho
          exact hmet
      | cons x xs => exact ih ho

variable [DecidableEq key]

/-- **A branch**: ancestors that the search has gone below, one after the other. -/
inductive Branch (criteria : Criteria ω ε α) (kind : TrailKind) (route : κ) : List α → Prop
  | root : Branch criteria kind route []
  | step {t : Trail α} {a : α} : Branch criteria kind route t.items → t.kind = kind →
      T.Met route t.items a → t.mem? T.keyOf a = some false → criteria.Passed t a →
      Branch criteria kind route (t.items ++ [a])

/-! ### What a branch is like -/

variable {T} {criteria : Criteria ω ε α} {kind : TrailKind} {route : κ} {p : List α}

namespace Branch

/-- A branch is a line. -/
theorem line (h : T.Branch criteria kind route p) : T.Line route p := by
  induction h with
  | root => exact .nil
  | step _ _ hmet _ _ ih => exact .concat ih hmet

/-- Each item of a branch is a child of the one before. -/
theorem isChain (h : T.Branch criteria kind route p) : p.IsChain T.IsChild := h.line.isChain

/-- The first item of a branch is an element of the route. -/
theorem item_of_head (h : T.Branch criteria kind route p) {o : α} (ho : p.head? = some o) :
    Source.Item T.next route o := h.line.item_of_head ho

/-- The items of a branch have keys. -/
theorem keyed (h : T.Branch criteria kind route p) {x : α} (hx : x ∈ p) : (T.keyOf x).isSome := by
  induction h with
  | root => cases hx
  | @step t a _ _ _ hnew _ ih =>
      rcases List.mem_append.1 hx with hx | hx
      · exact ih hx
      · obtain rfl := List.mem_singleton.1 hx
        cases hkey : T.keyOf x with
        | none => simp [Trail.mem?, hkey] at hnew
        | some k => rfl

/-- The items of a branch are pairwise different. -/
theorem nodup (h : T.Branch criteria kind route p) : (p.map T.keyOf).Nodup := by
  induction h with
  | root => exact List.nodup_nil
  | step _ _ _ hnew _ ih => exact Trail.nodup_concat_of_new ih hnew

/-- Each item of a branch has passed the tests below those before it. -/
theorem passed (h : T.Branch criteria kind route p) {i : ℕ} (hi : i < p.length) :
    ∃ t : Trail α, t.kind = kind ∧ t.items = p.take i ∧ criteria.Passed t p[i] := by
  induction h generalizing i with
  | root => cases hi
  | @step t a _ hkind _ _ hpassed ih =>
      exact Trail.forall_concat
        (P := fun p a => ∃ t : Trail α, t.kind = kind ∧ t.items = p ∧ criteria.Passed t a)
        (fun _ hi => ih hi) ⟨t, hkind, rfl, hpassed⟩ i hi

/-- A branch is no longer than a bound allows. -/
theorem length_le (h : T.Branch criteria kind route p) (hp : p ≠ []) {n : ℤ}
    (hbound : criteria.pred = some (.within n) ∨ criteria.pathPred = some (.within n)) :
    (p.length : ℤ) ≤ n := by
  cases h with
  | root => exact absurd rfl hp
  | @step t a _ _ _ _ hpassed =>
      have hlt : (t.items.length : ℤ) < n := by
        rcases hbound with hbound | hbound
        · obtain ⟨w, v, hpasses⟩ := hpassed.pred _ hbound
          exact Gate.length_lt_of_passes hpasses
        · obtain ⟨w, v, hpasses⟩ := hpassed.pathPred _ hbound
          exact Gate.length_lt_of_passes hpasses
      rw [List.length_append, List.length_singleton]
      omega

end Branch

/-! ### What the search asks for -/

section Asked

variable {guide : Guide ω ε α} {form : Graph.Form α β} {scope : Scope} {t : Trail α} {a : α}

/-- How a search comes to go below an element. -/
theorem passed_of_passes {w v : ω}
    (h : passes (T.host guide form) (plan form criteria scope) t a w = .ok true v) :
    (criteria.cutCycles = true → t.mem? T.keyOf a = some false) ∧ criteria.Passed t a := by
  have both_true : ∀ {m m' : Act ω ε Bool} {w v : ω}, both m m' w = .ok true v →
      ∃ u, m w = .ok true u ∧ m' u = .ok true v := by
    intro m m' w v h
    obtain ⟨b, u, hb, h⟩ := Act.bind_eq_ok_iff.1 h
    cases b with
    | true => exact ⟨u, hb, h⟩
    | false => cases h
  obtain ⟨w₁, hnew, h⟩ := both_true h
  obtain ⟨w₂, hpred, h⟩ := both_true h
  obtain ⟨w₃, hpath, helement⟩ := both_true h
  refine ⟨fun hcut => ?_, ?_, ?_, ?_⟩
  · have hnew : isNew (T.host guide form) t a w = .ok true w₁ := by
      rw [← hnew]
      simp only [plan, hcut, if_true]
    obtain ⟨known, u, hknown, hnew⟩ := Act.bind_eq_ok_iff.1 hnew
    simp only [host] at hknown
    cases hmem : t.mem? T.keyOf a with
    | none =>
        rw [hmem] at hknown
        cases hknown
    | some b =>
        rw [hmem] at hknown
        cases hknown
        cases known with
        | true => cases hnew
        | false => rfl
  · rintro g hg
    obtain hg : criteria.pred = some g := hg
    simp only [plan, hg] at hpred
    exact ⟨_, _, hpred⟩
  · rintro g hg
    obtain hg : criteria.pathPred = some g := hg
    simp only [plan, hg] at hpath
    exact ⟨_, _, hpath⟩
  · rintro test htest
    obtain htest : criteria.elementPred = some test := htest
    simp only [plan, htest] at helement
    exact ⟨_, _, helement⟩

/-- **What an expansion can do**, with the slot before it and behind it. -/
inductive Expanded (T : Terrain ω ε α κ key) (guide : Guide ω ε α) (form : Graph.Form α β)
    (criteria : Criteria ω ε α) (scope : Scope) (t : Trail α) (a : α) (slot : Slot α κ) (w : ω) :
    Ahead α κ → Slot α κ → ω → Prop
  /-- The tests refuse the element. -/
  | refused {k : κ} {u v : ω} :
      passes (T.host guide form) (plan form criteria scope) t a w = .ok false u →
      T.nothing u = .ok k v → Expanded T guide form criteria scope t a slot w { rest := k } none v
  /-- The element passes, and its children are opened. -/
  | opened {k : κ} {u v : ω} :
      passes (T.host guide form) (plan form criteria scope) t a w = .ok true u →
      T.children a u = .ok k v → Expanded T guide form criteria scope t a slot w { rest := k } slot v
  /-- The element passes, and its children were begun before. -/
  | begun {c : Peeked α κ} {u : ω} :
      passes (T.host guide form) (plan form criteria scope) t a w = .ok true u →
      slot = some c → Expanded T guide form criteria scope t a slot w c.children none u

theorem expanded_of_expand {w v : Slot α κ × ω} {k : Ahead α κ}
    (h : expand (T.host guide form) (plan form criteria scope) t a w = .ok k v) :
    Expanded T guide form criteria scope t a w.1 w.2 k v.1 v.2 := by
  obtain ⟨passed, u, hpasses, h⟩ := Act.bind_eq_ok_iff.1 h
  obtain ⟨hpasses, hslot⟩ := Act.beside_eq_ok_iff.1 hpasses
  have hopened : ∀ {k v}, Act.beside (fromStart (T.host guide form) a) u = .ok k v →
      passed = true → Expanded T guide form criteria scope t a w.1 w.2 k v.1 v.2 := by
    rintro k ⟨slot, v⟩ hfromStart rfl
    obtain ⟨hfromStart, rfl⟩ := Act.beside_eq_ok_iff.1 hfromStart
    obtain ⟨k', _, hchildren, hk⟩ := Act.bind_eq_ok_iff.1 hfromStart
    cases hk
    rw [hslot]
    exact .opened hpasses hchildren
  cases passed with
  | false =>
      obtain ⟨⟨⟩, u', hcleared, h⟩ := Act.bind_eq_ok_iff.1 h
      obtain ⟨k', v', hnothing, h⟩ := Act.bind_eq_ok_iff.1 h
      obtain ⟨hnothing, hslot'⟩ := Act.beside_eq_ok_iff.1 hnothing
      cases h
      cases hcleared
      rw [hslot']
      exact .refused hpasses hnothing
  | true =>
      obtain ⟨found, u', hfound, h⟩ := Act.bind_eq_ok_iff.1 h
      obtain ⟨rfl, rfl⟩ : found = u.1 ∧ u' = u := by
        cases hfound
        exact ⟨rfl, rfl⟩
      cases hpeeked : u'.1 with
      | none =>
          rw [hpeeked] at h
          exact hopened h rfl
      | some c =>
          rw [hpeeked] at h
          by_cases hsame : (T.host guide form).identical c.element a = true
          · simp only [hsame, if_true] at h
            obtain ⟨⟨⟩, v', hcleared, h⟩ := Act.bind_eq_ok_iff.1 h
            cases h
            cases hcleared
            exact .begun hpasses (hslot.symm.trans hpeeked)
          · simp only [hsame, Bool.false_eq_true, if_false] at h
            exact hopened h rfl

/-- What is known of an expansion where no children were begun before. -/
inductive Opened (T : Terrain ω ε α κ key) (criteria : Criteria ω ε α) (t : Trail α) (a : α)
    (k : Ahead α κ) (w : ω) : Prop
  /-- The tests have let the element pass, and these are its children. -/
  | children : (criteria.cutCycles = true → t.mem? T.keyOf a = some false) →
      criteria.Passed t a → (∀ b, Source.Item T.next k.rest b → T.IsChild a b) →
      Opened T criteria t a k w
  /-- The element is refused. -/
  | nothing {u : ω} : T.next k.rest w = .ok none u → Opened T criteria t a k w

theorem opened_of_expand {w v : Slot α κ × ω} {k : Ahead α κ} (hw : w.1 = none)
    (h : expand (T.host guide form) (plan form criteria scope) t a w = .ok k v) :
    v.1 = none ∧ k.first = none ∧ Opened T criteria t a k v.2 := by
  obtain ⟨slot, v⟩ := v
  cases expanded_of_expand h with
  | refused _ hnothing =>
      obtain ⟨u, hu⟩ := T.next_nothing hnothing
      exact ⟨rfl, rfl, .nothing hu⟩
  | opened hpasses hchildren =>
      obtain ⟨hnew, hpassed⟩ := passed_of_passes hpasses
      exact ⟨hw, rfl, .children hnew hpassed fun b hb => ⟨_, _, _, hchildren, hb⟩⟩
  | begun _ hslot => cases hw.symm.trans hslot

omit [DecidableEq key] in
/-- The instruction for an element in a search for returns. -/
theorem instruction_of_cycles {w v : Slot α κ × ω} {i : Instruction Bool}
    (h : Search.control (T.host guide form) (plan form criteria .cycles) t a w = .ok i v) :
    v.1 = w.1 ∧ (i = Preset.proceed.instruction ∨ i = Preset.emitAndCut.instruction ∧
      ∃ o, t.origin? = some o ∧ T.same a o w.2 = .ok true v.2) := by
  simp only [Search.control, plan] at h
  cases ho : t.origin? with
  | none =>
      rw [ho] at h
      cases h
      exact ⟨rfl, .inl rfl⟩
  | some o =>
      rw [ho] at h
      obtain ⟨b, u, hb, h⟩ := Act.bind_eq_ok_iff.1 h
      obtain ⟨hsame, hslot⟩ := Act.beside_eq_ok_iff.1 hb
      cases b with
      | true =>
          cases h
          exact ⟨hslot, .inr ⟨rfl, o, rfl, hsame⟩⟩
      | false =>
          cases h
          exact ⟨hslot, .inl rfl⟩

omit [DecidableEq key] in
/-- Only the search for leaves begins to read children, and no search lets its paths begin anew. -/
theorem slot_of_control (hscope : scope ≠ .leaves) {w v : Slot α κ × ω} {i : Instruction Bool}
    (h : Search.control (T.host guide form) (plan form criteria scope) t a w = .ok i v) :
    v.1 = w.1 ∧ i.resetPath = false := by
  cases scope with
  | everything =>
      cases h
      exact ⟨rfl, rfl⟩
  | leaves => exact absurd rfl hscope
  | cycles =>
      obtain ⟨hslot, rfl | ⟨rfl, -⟩⟩ := instruction_of_cycles h <;> exact ⟨hslot, rfl⟩

/-- The trail below an element that is not among its own ancestors. -/
theorem items_of_extend (hkind : t.kind = .set ∨ t.kind = .indexed)
    {w v : ω} {u : Trail α} (h : Search.extend (T.host guide form) t a w = .ok u v) :
    u.kind = t.kind ∧ (t.mem? T.keyOf a = some false → u.items = t.items ++ [a]) := by
  obtain ⟨mark, rfl⟩ := exists_of_extend h
  exact ⟨Trail.kind_extend _ _ _ _, fun hnew => Trail.items_extend_of_new hkind hnew mark⟩

end Asked

/-! ### The invariant -/

/-- A level whose candidates may be visited. -/
structure Alive (T : Terrain ω ε α κ key) (criteria : Criteria ω ε α) (kind : TrailKind) (route : κ)
    (frame : Frame (Trail α) (Ahead α κ)) : Prop where
  kind_eq : frame.path.kind = kind
  branch : T.Branch criteria kind route frame.path.items
  unread : ∀ k ∈ frame.candidates, k.first = none
  met : ∀ k ∈ frame.candidates, ∀ a, Source.Item T.next k.rest a → T.Met route frame.path.items a

/-- A level whose candidates have come to an end. -/
def Spent (T : Terrain ω ε α κ key) (frame : Frame (Trail α) (Ahead α κ)) (w : ω) : Prop :=
  ∃ k, frame.candidates = some k ∧ k.first = none ∧ ∃ u, T.next k.rest w = .ok none u

/-- **The invariant of a search that does not read ahead**: all levels may be visited, but for the
innermost one if it has come to an end. -/
inductive Sound (T : Terrain ω ε α κ key) (criteria : Criteria ω ε α) (kind : TrailKind) (route : κ) :
    Walk α (Trail α) (Ahead α κ) Bool → Slot α κ → ω → Prop
  | alive {levels : List (Frame (Trail α) (Ahead α κ))} {n : ℕ} {w : ω} :
      (∀ f ∈ levels, Alive T criteria kind route f) →
      Sound T criteria kind route { levels, fruitless := n } none w
  | pending {frame : Frame (Trail α) (Ahead α κ)} {outer : List (Frame (Trail α) (Ahead α κ))} {n : ℕ}
      {p : Pending α Bool} {w : ω} : (∀ f ∈ frame :: outer, Alive T criteria kind route f) →
      T.Met route frame.path.items p.element → p.resetPath = false →
      Sound T criteria kind route { levels := frame :: outer, fruitless := n, pending := some p } none
        w
  | spent {frame : Frame (Trail α) (Ahead α κ)} {outer : List (Frame (Trail α) (Ahead α κ))} {n : ℕ}
      {w : ω} : (∀ f ∈ outer, Alive T criteria kind route f) → Spent T frame w →
      Sound T criteria kind route { levels := frame :: outer, fruitless := n } none w

section Steps

variable {guide : Guide ω ε α} {form : Graph.Form α β} {scope : Scope} {limits : Limits}
  {s s' : Walk α (Trail α) (Ahead α κ) Bool} {w v : Slot α κ × ω}
  {frame : Frame (Trail α) (Ahead α κ)} {outer : List (Frame (Trail α) (Ahead α κ))}

/-- An unread source has the items of the source behind it. -/
theorem next_of_unread {k : Ahead α κ} (hk : k.first = none) {x : Option (α × Ahead α κ)}
    (h : (env (T.host guide form) (plan form criteria scope)).next k w = .ok x v) :
    v.1 = w.1 ∧ ((x = none ∧ T.next k.rest w.2 = .ok none v.2) ∨ ∃ a k', x = some (a, k') ∧
      k'.first = none ∧ T.next k.rest w.2 = .ok (some (a, k'.rest)) v.2) := by
  obtain ⟨h, hslot⟩ := Act.beside_eq_ok_iff.1 h
  simp only [Ahead.next, hk] at h
  obtain ⟨found, u, hfound, h⟩ := Act.bind_eq_ok_iff.1 h
  refine ⟨hslot, ?_⟩
  rcases found with _ | ⟨a, k'⟩
  · cases h
    exact .inl ⟨rfl, hfound⟩
  · cases h
    exact .inr ⟨a, { rest := k' }, rfl, rfl, hfound⟩

/-- A visit of a level that may be visited: the element is met there, and so are its siblings. -/
theorem Alive.visit (hscope : scope ≠ .leaves) {t : Trail α} {k : Ahead α κ}
    (h : Alive T criteria kind route { path := t, candidates := some k }) {a : α}
    {i : Instruction Bool} {emits : Bool} {rest : Option (Ahead α κ)}
    (hv : Walk.Visit (env (T.host guide form) (plan form criteria scope)) t k w a i emits rest v) :
    v.1 = w.1 ∧ T.Met route t.items a ∧ i.resetPath = false ∧
      Alive T criteria kind route { path := t, candidates := rest } := by
  obtain ⟨k', goesOn, w₁, w₂, w₃, hnext, hcontrol, hgoesOn, hemits, rfl⟩ := hv
  obtain ⟨hslot, hfound⟩ := next_of_unread (h.unread k rfl) hnext
  rcases hfound with ⟨hnone, -⟩ | ⟨a', k'', hsome, hfirst, hitem⟩
  · cases hnone
  · cases hsome
    obtain ⟨hslot', hreset⟩ := slot_of_control hscope hcontrol
    have hslot'' : v.1 = w₂.1 := by
      cases hgoesOn
      cases hemits
      rfl
    refine ⟨hslot''.trans (hslot'.trans hslot), h.met k rfl a (.here hitem), hreset,
      h.kind_eq, h.branch, ?_, ?_⟩
    · cases goesOn with
      | true => rintro _ ⟨⟩; exact hfirst
      | false => exact nofun
    · cases goesOn with
      | true => rintro _ ⟨⟩ b hb; exact h.met k rfl b (.later hitem hb)
      | false => exact nofun

/-- The level below an element that was met may be visited, unless it has come to an end. -/
theorem Alive.enter (hcut : criteria.cutCycles = true) (hkind : kind = .set ∨ kind = .indexed)
    {p : Pending α Bool} (h : Alive T criteria kind route frame)
    (hp : T.Met route frame.path.items p.element) (hw : w.1 = none) {below : Trail α} {k : Ahead α κ}
    (hreset : p.resetPath = false)
    (hentry : Walk.Entry (env (T.host guide form) (plan form criteria scope)) frame.path p w below k
      v) :
    v.1 = none ∧ (Alive T criteria kind route { path := below, candidates := some k } ∨
      Spent T { path := below, candidates := some k } v.2) := by
  obtain ⟨resets, w₁, w₂, hresets, hbelow, hk⟩ := hentry
  obtain ⟨rfl, rfl⟩ : resets = false ∧ w₁ = w := by
    rw [hreset] at hresets
    cases hresets
    exact ⟨rfl, rfl⟩
  obtain ⟨hbelow, hslot⟩ := Act.beside_eq_ok_iff.1 hbelow
  obtain ⟨hslot', hfirst, hopened⟩ := opened_of_expand (hslot.trans hw) hk
  have hkind' : frame.path.kind = .set ∨ frame.path.kind = .indexed := by rwa [h.kind_eq]
  obtain ⟨hbelowKind, hitems⟩ := items_of_extend hkind' hbelow
  refine ⟨hslot', ?_⟩
  cases hopened with
  | children hnew hpassed hchild =>
      have hitems := hitems (hnew hcut)
      refine .inl ⟨hbelowKind.trans h.kind_eq, ?_, ?_, ?_⟩
      · change T.Branch criteria kind route below.items
        rw [hitems]
        exact .step h.branch h.kind_eq hp (hnew hcut) hpassed
      · rintro _ ⟨⟩
        exact hfirst
      · rintro _ ⟨⟩ b hb
        simpa only [Met, hitems, List.getLast?_concat] using hchild b hb
  | nothing hnone => exact .inr ⟨k, rfl, hfirst, _, hnone⟩

/-- A level without candidates may be visited, to be left. -/
theorem Alive.dropped (h : Alive T criteria kind route frame) :
    Alive T criteria kind route { frame with candidates := none } :=
  ⟨h.kind_eq, h.branch, nofun, nofun⟩

/-- What is consulted leaves the slot alone. -/
theorem slot_of_consulted {t : Trail α} {a : α} {depth n : ℕ} {r : Resolution β}
    (h : Walk.Consulted (env (T.host guide form) (plan form criteria scope)) limits t a depth n w r
      v) :
    v.1 = w.1 ∧ ∀ b, r ≠ .substitute b := by
  cases h with
  | unasked _ => exact ⟨rfl, nofun⟩
  | asked _ hreport hpolicy =>
      obtain ⟨-, hslot⟩ := Act.beside_eq_ok_iff.1 hreport
      obtain ⟨hpolicy, hslot'⟩ := Act.beside_eq_ok_iff.1 hpolicy
      refine ⟨hslot'.trans hslot, ?_⟩
      obtain ⟨r, _, _, hr⟩ := Act.bind_eq_ok_iff.1 hpolicy
      cases hr
      cases r <;> exact nofun

/-- A decision comes to what it says. -/
theorem of_truth {d b : Bool}
    (h : (env (T.host guide form) (plan form criteria scope)).truth d w = .ok b v) :
    b = d ∧ v = w := by
  cases h
  exact ⟨rfl, rfl⟩

/-- A state whose innermost level is about to be left. -/
theorem Sound.of_leave {t : Trail α} {n : ℕ} {slot : Slot α κ} {u : ω}
    (h : Sound T criteria kind route
      { levels := { path := t, candidates := none } :: outer, fruitless := n } slot u) :
    slot = none ∧ ∀ f ∈ outer, Alive T criteria kind route f := by
  cases h with
  | alive halive => exact ⟨rfl, fun f hf => halive f (List.mem_cons_of_mem _ hf)⟩
  | spent houter _ => exact ⟨rfl, houter⟩

/-- A state with an element that is to be gone below. -/
theorem Sound.of_pending {n : ℕ} {p : Pending α Bool} {slot : Slot α κ} {u : ω}
    (h : Sound T criteria kind route { levels := frame :: outer, fruitless := n, pending := some p }
      slot u) :
    slot = none ∧ (∀ f ∈ frame :: outer, Alive T criteria kind route f) ∧
      T.Met route frame.path.items p.element ∧ p.resetPath = false := by
  cases h with
  | pending halive hmet hreset => exact ⟨rfl, halive, hmet, hreset⟩

/-- A state whose innermost level is about to be visited. -/
theorem Sound.of_visit {t : Trail α} {k : Ahead α κ} {n : ℕ} {slot : Slot α κ} {u : ω}
    (h : Sound T criteria kind route
      { levels := { path := t, candidates := some k } :: outer, fruitless := n } slot u) :
    slot = none ∧ (∀ f ∈ outer, Alive T criteria kind route f) ∧ k.first = none ∧
      (Alive T criteria kind route { path := t, candidates := some k } ∨
        ∃ u', T.next k.rest u = .ok none u') := by
  cases h with
  | alive halive =>
      obtain ⟨hlevel, houter⟩ := List.forall_mem_cons.1 halive
      exact ⟨rfl, houter, hlevel.unread k rfl, .inl hlevel⟩
  | spent houter hspent =>
      obtain ⟨k', hk, hfirst, hend⟩ := hspent
      cases hk
      exact ⟨rfl, houter, hfirst, .inr hend⟩

/-- A level that has come to an end is not visited. -/
theorem not_visit_of_spent {t : Trail α} {k : Ahead α κ} (hfirst : k.first = none)
    (hend : ∃ u', T.next k.rest w.2 = .ok none u') {a : α} {i : Instruction Bool} {emits : Bool}
    {rest : Option (Ahead α κ)} :
    ¬ Walk.Visit (env (T.host guide form) (plan form criteria scope)) t k w a i emits rest v := by
  rintro ⟨k', _, w₁, _, _, hnext, -⟩
  obtain ⟨u', hend⟩ := hend
  rcases (next_of_unread hfirst hnext).2 with ⟨hnone, -⟩ | ⟨_, _, _, _, hitem⟩
  · cases hnone
  · rw [hend] at hitem
    cases hitem

/-- A visit in a state that keeps the invariant. -/
theorem Sound.visit (hscope : scope ≠ .leaves) {t : Trail α} {k : Ahead α κ} {n : ℕ}
    (h : Sound T criteria kind route
      { levels := { path := t, candidates := some k } :: outer, fruitless := n } w.1 w.2)
    {a : α} {i : Instruction Bool} {emits : Bool} {rest : Option (Ahead α κ)}
    (hv : Walk.Visit (env (T.host guide form) (plan form criteria scope)) t k w a i emits rest v) :
    v.1 = none ∧ T.Branch criteria kind route t.items ∧ T.Met route t.items a ∧ ∀ m u,
      Sound T criteria kind route
        { levels := { path := t, candidates := rest } :: outer, fruitless := m,
          pending := some (.of a i) } none u := by
  obtain ⟨hslot, houter, hfirst, halive | hend⟩ := h.of_visit
  · obtain ⟨hslot', hmet, hreset, hrest⟩ := halive.visit hscope hv
    refine ⟨hslot'.trans hslot, halive.branch, hmet, fun m u => .pending ?_ hmet hreset⟩
    exact List.forall_mem_cons.2 ⟨hrest, houter⟩
  · exact absurd hv (not_visit_of_spent hfirst hend)

/-- **A step without a result keeps the invariant.** -/
theorem Sound.skip (hcut : criteria.cutCycles = true) (hkind : kind = .set ∨ kind = .indexed)
    (hscope : scope ≠ .leaves) (h : Sound T criteria kind route s w.1 w.2)
    (hm : Walk.Move (env (T.host guide form) (plan form criteria scope)) limits s w (.skip s') v) :
    Sound T criteria kind route s' v.1 v.2 := by
  cases hm with
  | leave =>
      obtain ⟨hslot, houter⟩ := h.of_leave
      rw [hslot]
      exact .alive houter
  | exhaust hnext =>
      obtain ⟨hslot, houter, hfirst, -⟩ := h.of_visit
      rw [(next_of_unread hfirst hnext).1, hslot]
      exact .alive houter
  | pass hv =>
      obtain ⟨hslot, -, -, hsound⟩ := h.visit hscope hv
      rw [hslot]
      exact hsound _ _
  | stay htruth _ =>
      obtain ⟨-, rfl⟩ := of_truth htruth
      obtain ⟨hslot, halive, -, -⟩ := h.of_pending
      rw [hslot]
      exact .alive halive
  | enter htruth _ hconsulted hentry =>
      obtain ⟨-, rfl⟩ := of_truth htruth
      obtain ⟨hslot, halive, hmet, hreset⟩ := h.of_pending
      have hslot' := (slot_of_consulted hconsulted).1.trans hslot
      obtain ⟨hslot'', hbelow⟩ :=
        (halive _ List.mem_cons_self).enter hcut hkind hmet hslot' hreset hentry
      rw [hslot'']
      rcases hbelow with hbelow | hbelow
      · exact .alive (List.forall_mem_cons.2 ⟨hbelow, halive⟩)
      · exact .spent halive hbelow
  | advance htruth _ hconsulted hreport =>
      obtain ⟨-, rfl⟩ := of_truth htruth
      obtain ⟨hslot, halive, -, -⟩ := h.of_pending
      rw [(Act.beside_eq_ok_iff.1 hreport).2, (slot_of_consulted hconsulted).1, hslot]
      exact .alive halive
  | cut htruth _ hconsulted hreport =>
      obtain ⟨-, rfl⟩ := of_truth htruth
      obtain ⟨hslot, halive, -, -⟩ := h.of_pending
      rw [(Act.beside_eq_ok_iff.1 hreport).2, (slot_of_consulted hconsulted).1, hslot]
      obtain ⟨hframe, houter⟩ := List.forall_mem_cons.1 halive
      exact .alive (List.forall_mem_cons.2 ⟨hframe.dropped, houter⟩)

/-- **A step with a result** gives an element that is met below a branch, as its instruction says, and
keeps the invariant, whatever the consumer does to the world. -/
theorem Sound.give (hscope : scope ≠ .leaves) (h : Sound T criteria kind route s w.1 w.2) {b : β}
    (hm : Walk.Move (env (T.host guide form) (plan form criteria scope)) limits s w (.give b s') v) :
    (∃ t a w₁ w₂ i, b = form.result t a ∧ T.Branch criteria kind route t.items ∧
        T.Met route t.items a ∧ i.emit = true ∧
        Search.control (T.host guide form) (plan form criteria scope) t a w₁ = .ok i w₂) ∧
      v.1 = none ∧ ∀ u, Sound T criteria kind route s' none u := by
  cases hm with
  | give hv hresult =>
      obtain ⟨hslot, hbranch, hmet, hsound⟩ := h.visit hscope hv
      obtain ⟨k', goesOn, w₁, w₂, w₃, -, hcontrol, -, hemits, -⟩ := hv
      obtain ⟨hemit, rfl⟩ := of_truth hemits
      cases hresult
      exact ⟨⟨_, _, w₁, w₂, _, rfl, hbranch, hmet, hemit.symm, hcontrol⟩, hslot, hsound 0⟩
  | substitute _ _ hconsulted _ => exact absurd rfl ((slot_of_consulted hconsulted).2 _)

end Steps

/-- **Every run of a search keeps to its branches.** -/
theorem sound_of_reached {guide : Guide ω ε α} {form : Graph.Form α β} {scope : Scope}
    {limits : Limits} {consume : β → Act ω ε Unit} {mark : Mark} (hcut : criteria.cutCycles = true)
    (hscope : scope ≠ .leaves) {x : Search α κ} {w₀ w : ω}
    (h : Machine.Reached (Search.step (T.host guide form) (plan form criteria scope) limits) consume
      (Search.start (plan form criteria scope) mark route) w₀ x w) :
    Sound T criteria (plan form criteria scope).trailKind route x.1 x.2 w := by
  have hkind : (plan form criteria scope).trailKind = .set ∨
      (plan form criteria scope).trailKind = .indexed := by
    simp only [Plan.trailKind, plan, hcut]
    cases form.givesPaths || scope == .cycles || criteria.looks with
    | true => exact .inr rfl
    | false => exact .inl rfl
  refine Machine.Reached.beside_induction
    (P := Sound T criteria (plan form criteria scope).trailKind route) ?_ ?_ ?_ h
  · refine .alive fun f hf => ?_
    obtain rfl := List.mem_singleton.1 hf
    refine ⟨rfl, .root, ?_, ?_⟩
    · rintro _ ⟨⟩
      rfl
    · rintro _ ⟨⟩ a ha
      exact ha
  · intro s t w s' t' v hsound hstep
    exact Sound.skip (w := (t, w)) (v := (t', v)) hcut hkind hscope hsound (Walk.move_of_step hstep)
  · intro s t w b s' t' v hsound hstep u
    obtain ⟨-, rfl, hafter⟩ :=
      Sound.give (w := (t, w)) (v := (t', v)) hscope hsound (Walk.move_of_step hstep)
    exact hafter u

end Terrain

end GraphRoutes
