/-
**One read of a guard, between its source and its handler.**

A guard stands between a source and whoever reads it, with a handler at its side, or without one.  What the
source gives next, and what the handler answers, may depend on anything that has happened to them so far;
they only leave the guard itself alone.  So what they do is told by a predicate on worlds, which knows how
many items the source has given and which calls the handler has had.  It is abstract: whoever wants to
count the items, or to write down the calls, is free to choose it so.

A repeat is an element with the key of an earlier one.  The handler is asked about a repeat, with its
element and its position, and the item passes if it decides so.

Main definitions:

* `GraphRoutes.Session.Spaced` — reads with anything in between;
* `GraphRoutes.Session.Watch` — what a guard has been put to;
* `GraphRoutes.Session.Watch.Again`, `GraphRoutes.Session.Watch.repeats` — repeats, and all of them so far;
* `GraphRoutes.Session.Watch.Passes` — whether an item is let through;
* `GraphRoutes.Session.Attended` — **a source and a handler that leave the guard alone**;
* `GraphRoutes.Session.OnDuty` — a guard that has let its first items through;
* `GraphRoutes.Session.Watch.Verdict` — what the next read of a guard comes to.

Main results:

* `GraphRoutes.Session.Decides.guardDecision_eq` — what a guard decides;
* `GraphRoutes.Session.OnDuty.exists_turn` — a guard looks at its next item;
* `GraphRoutes.Session.OnDuty.verdict` — **one read of a guard**.
-/
import GraphRoutes.Proofs.Session.Transparency
import Mathlib.Data.Seq.Basic

set_option relaxedAutoImplicit false
set_option autoImplicit false

namespace GraphRoutes.Session

open World Value Route

/-! ### Reads with anything in between -/

/-- **Reads of an iterator**, with anything in between that is allowed: the items that it has given. -/
inductive Spaced (h : Host) (it : Value) (between : World → World → Prop) (w : World) :
    List Value → World → Prop
  | start : Spaced h it between w [] w
  | read {ys : List Value} {y : Value} {u v : World} (hw : Spaced h it between w ys u)
      (hpull : h.pull it u = .ok (some y) v) : Spaced h it between w (ys ++ [y]) v
  | meanwhile {ys : List Value} {u v : World} (hw : Spaced h it between w ys u)
      (hbetween : between u v) : Spaced h it between w ys v

/-- Reads with nothing in between. -/
theorem Spaced.of_reads {h : Host} {it : Value} {between : World → World → Prop} {u v w : World}
    {ys zs : List Value} (hw : Spaced h it between w zs u) (hreads : Reads h it ys u v) :
    Spaced h it between w (zs ++ ys) v := by
  induction hreads generalizing zs with
  | none => rwa [List.append_nil]
  | item hpull _ ih =>
      rw [List.append_cons]
      exact ih (.read hw hpull)

/-- From one world to the next, the cursor at `g` has not moved, and nothing that stands has been
disturbed. -/
def Undisturbed {ι : Type} (g : ℕ) (stands : ι → World → Prop) (u v : World) : Prop :=
  v.cursors[g]? = u.cursors[g]? ∧ ∀ i, stands i u → stands i v

/-! ### What a guard is put to -/

/-- **What a guard has been put to**: a source, the items that are behind it, and a handler, with what it
decides when it has had certain calls; nothing if it declines.  A call tells the repeated element and its
position. -/
structure Watch where
  source : Value
  items : Stream'.Seq Value
  handler : Value
  decides : List (Value × ℕ) → Option Bool
  strict : Bool

namespace Watch

variable (G : Watch)

/-- An item repeats an earlier one. -/
def Again (i : ℕ) : Prop :=
  ∃ j < i, ∃ x y, G.items.get? j = some x ∧ G.items.get? i = some y ∧ x.key? = y.key?

open Classical in
/-- The repeats among the first `n` items, with their positions. -/
noncomputable def repeats (n : ℕ) : List (Value × ℕ) :=
  (List.range n).filterMap fun i => if G.Again i then (G.items.get? i).map (·, i) else none

/-- The calls of the handler about the first `n` items, if there is a handler. -/
noncomputable def calls (n : ℕ) : List (Value × ℕ) :=
  match G.handler.notNull with
  | none => []
  | some _ => G.repeats n

/-- What is decided at a repeat: nothing if there is no handler, or if it declines. -/
noncomputable def decision (i : ℕ) : Option Bool :=
  match G.handler.notNull with
  | none => none
  | some _ => G.decides (G.repeats (i + 1))

/-- The item at a position is let through: it repeats none, or the decision is to go on. -/
def Passes (i : ℕ) : Prop := (G.items.get? i).isSome ∧ (G.Again i → G.decision i = some true)

variable {G} {n : ℕ} {x : Value}

theorem repeats_succ_of_again (hx : G.items.get? n = some x) (hagain : G.Again n) :
    G.repeats (n + 1) = G.repeats n ++ [(x, n)] := by
  simp [repeats, List.range_succ, List.filterMap_append, hx, hagain]

theorem repeats_succ_of_not_again (hnew : ¬G.Again n) : G.repeats (n + 1) = G.repeats n := by
  simp [repeats, List.range_succ, List.filterMap_append, hnew]

theorem calls_of_null (hnull : G.handler = .null) (n : ℕ) : G.calls n = [] := by
  rw [calls, hnull]
  rfl

theorem calls_of_handler {f : Value} (hf : G.handler.notNull = some f) (n : ℕ) :
    G.calls n = G.repeats n := by
  rw [calls, hf]

theorem calls_succ_of_not_again (hnew : ¬G.Again n) : G.calls (n + 1) = G.calls n := by
  rw [calls, calls, repeats_succ_of_not_again hnew]

end Watch

/-- What a handler is told about an element that is repeated. -/
def recurrence (x : Value) (i : ℕ) (text : String) : Value :=
  .condition .cycle x
    (.str ("Element " ++ text ++ " repeated at position " ++ toString i))
    (.dict (.ofList (·.1.spell) [(.str "position", .int i)]) none) none

/-- **A source and a handler that leave the guard at `g` alone.**  Whenever the source has given `n` items
and the handler has had some calls, the source can be asked for its next item, and the handler about that
item; neither moves the guard.  What the guard itself does, it does beside them: it moves its cursor, and
may log. -/
structure Attended (h : Host) (g : ℕ) (G : Watch)
    (stands : ℕ → List (Value × ℕ) → World → Prop) : Prop where
  item : ∀ {n calls w x}, stands n calls w → G.items.get? n = some x →
    ∃ v, h.pull G.source w = .ok (some x) v ∧ stands (n + 1) calls v ∧ v.cursors[g]? = w.cursors[g]?
  finishes : ∀ {n calls w}, stands n calls w → G.items.get? n = none →
    ∃ v, h.pull G.source w = .ok none v ∧ stands n calls v ∧ v.cursors[g]? = w.cursors[g]?
  /-- A handler returns. -/
  asked : ∀ {n calls w x text}, stands (n + 1) calls w → G.items.get? n = some x →
    G.handler ≠ .null → w.display x = .ok text →
    ∃ d v, h.apply G.handler [recurrence x n text] w = .ok d v ∧ stands (n + 1) (calls ++ [(x, n)]) v ∧
      v.cursors[g]? = w.cursors[g]? ∧ d.notNull.map v.truth = G.decides (calls ++ [(x, n)])
  /-- An element can be written. -/
  written : ∀ {n i calls w x}, stands n calls w → G.items.get? i = some x →
    ∃ text, w.display x = .ok text
  moved : ∀ {n calls w}, stands n calls w → ∀ c,
    stands n calls (w.withCursor g c)
  logged : ∀ {n calls w}, stands n calls w → ∀ entry,
    stands n calls { w with log := w.log.push entry }
  hashable : ∀ {i x}, G.items.get? i = some x → ∃ k, x.key? = some k
  /-- A source has handed out what it gives. -/
  handed : ∀ {i x}, G.items.get? i = some x → x.unmarked = false

/-! ### Decisions -/

variable {h : Host} {g n i : ℕ} {G : Watch} {stands : ℕ → List (Value × ℕ) → World → Prop}
  {u v w : World} {x : Value} {text : String} {calls : List (Value × ℕ)}

theorem displayed_of_ok (hx : w.display x = .ok text) : displayed x w = .ok text w := by
  rw [displayed, look, hx]

/-- What comes of asking a handler, if there is one. -/
inductive Decides (h : Host) (c : Value) (w : World) : Value → Option Bool → World → Prop
  | nobody : Decides h c w .null none w
  | handler {f d : Value} {v : World} (hf : f ≠ .null) (hd : h.apply f [c] w = .ok d v) :
      Decides h c w f (d.notNull.map v.truth) v

/-- The decision of a guard is that of its handler; if nobody decides, a guard that is strict fails. -/
theorem Decides.guardDecision_eq {handler : Value} {r : Option Bool}
    (hr : Decides h (recurrence x i text) w handler r v) (hx : w.display x = .ok text) (strict : Bool) :
    guardDecision h handler (.bool strict) x i w =
      match (motive := _ → _ → EStateM.Result Fault World Bool) r, strict with
      | some b, _ => .ok b v
      | none, false => .ok false v
      | none, true => .error (Host.fatal (recurrence x i text)) v := by
  have hstart : guardDecision h handler (.bool strict) x i w = (do
      let d ← h.resolve handler (if strict then none else some (.bool false)) (recurrence x i text)
      isTrue d) w :=
    (Act.bind_of_ok (displayed_of_ok hx)).trans rfl
  rw [hstart, Host.resolve, GraphRoutes.resolve.eq_def]
  cases hr with
  | nobody => cases strict <;> rfl
  | @handler _ d _ hf hd =>
      have hsome : handler.notNull = some handler := by
        cases handler with
        | null => exact absurd rfl hf
        | _ => rfl
      have hasked : h.handler handler (recurrence x i text) w = .ok d.notNull v := Act.bind_of_ok hd
      rw [hsome, Option.map_some]
      simp only [bind, EStateM.bind, hasked]
      cases d.notNull with
      | some d => rfl
      | none => cases strict <;> rfl

/-- At a repeat, the handler is asked once. -/
theorem Attended.exists_decides (hG : Attended h g G stands) (hw : stands (n + 1) (G.calls n) w)
    (hx : G.items.get? n = some x) (hagain : G.Again n) (htext : w.display x = .ok text) :
    ∃ v, Decides h (recurrence x n text) w G.handler (G.decision n) v ∧
      stands (n + 1) (G.calls (n + 1)) v ∧ v.cursors[g]? = w.cursors[g]? := by
  by_cases hnull : G.handler = .null
  · have hnobody : G.decision n = none := by
      rw [Watch.decision, hnull]
      rfl
    refine ⟨w, ?_, ?_, rfl⟩
    · rw [hnobody, hnull]
      exact .nobody
    · rwa [Watch.calls_of_null hnull] at hw ⊢
  · obtain ⟨f, hf⟩ : ∃ f, G.handler.notNull = some f := by
      cases hhandler : G.handler with
      | null => exact absurd hhandler hnull
      | _ => exact ⟨_, rfl⟩
    obtain ⟨d, v, hd, hv, hkept, hdecided⟩ := hG.asked hw hx hnull htext
    have hcalls : G.calls n ++ [(x, n)] = G.calls (n + 1) := by
      rw [Watch.calls_of_handler hf, Watch.calls_of_handler hf, Watch.repeats_succ_of_again hx hagain]
    have hdecision : G.decision n = d.notNull.map v.truth := by
      rw [hdecided, hcalls, Watch.calls_of_handler hf, Watch.decision, hf]
    refine ⟨v, ?_, hcalls ▸ hv, hkept⟩
    rw [hdecision]
    exact .handler hnull hd

/-! ### One turn -/

/-- A guard that has let the first `n` items through. -/
structure OnDuty (g : ℕ) (G : Watch) (stands : ℕ → List (Value × ℕ) → World → Prop) (n : ℕ)
    (w : World) : Prop where
  standing : stands n (G.calls n) w
  state : ∃ s, w.cursors[g]? = some (.guard G.handler (.bool G.strict) s) ∧ s.source = G.source ∧
    s.truncated = false ∧ s.repeated = none ∧ s.position = n ∧
    ∀ k, s.seen.contains k = true ↔ ∃ i < n, ∃ x, G.items.get? i = some x ∧ x.key? = some k

/-- What a guard shows: whether it is truncated, and what has been repeated. -/
def Shows (g : ℕ) (truncated : Bool) (repeated : Value) (w : World) : Prop :=
  readMember (.ref .iterator g) .truncated w = .ok (.bool truncated) w ∧
    readMember (.ref .iterator g) .repeated w = .ok repeated w

theorem shows_of_guard {handler strict : Value} {s : Guard Value Key Value}
    (hg : w.cursors[g]? = some (.guard handler strict s)) (hr : (ofOption s.repeated).unmarked = false) :
    Shows g s.truncated (ofOption s.repeated) w := by
  have hguard : w.guardAt? g = some s := by
    rw [guardAt?, hg]
  constructor
  · rw [readMember, Act.bind_of_ok (m := get) rfl, datum?, hguard]
    rfl
  · rw [readMember, Act.bind_of_ok (m := get) rfl, datum?, hguard]
    simp only [Option.map_some, handOut, hr]
    rfl

/-- What has been handed out before is read as it is. -/
theorem pull_of_marked {y : Option Value} (hnext : nextItem h g w = .ok y v)
    (hmarked : ∀ x, y = some x → x.unmarked = false) : h.above.pull (.ref .iterator g) w = .ok y v := by
  change readCursor h g w = _
  rw [readCursor, Act.bind_of_ok hnext]
  cases y with
  | none => rfl
  | some x =>
      refine (Act.bind_of_ok (a := x) (v := v) ?_).trans rfl
      rw [handOut, hmarked x rfl]
      rfl

/-- An open sequence is read by its turn. -/
theorem pull_of_turn {c : Cursor} {turn : M (Turn Value)} {r : Turn Value} {y : Option Value}
    (hc : w.cursors[g]? = some c) (hturn : openTurn? h g c = some turn) (hr : turn w = .ok r v)
    (hy : y.elim .ended .give = r) (hmarked : ∀ x, y = some x → x.unmarked = false)
    (hfuel : 0 < h.fuel) : h.above.pull (.ref .iterator g) w = .ok y v :=
  pull_of_marked (nextItem_of_turn hc hturn hr hy hfuel) hmarked

/-- An open sequence is at its end if its turn is. -/
theorem pull_of_turn_ended {c : Cursor} {turn : M (Turn Value)} (hc : w.cursors[g]? = some c)
    (hturn : openTurn? h g c = some turn) (hr : turn w = .ok .ended v) (hfuel : 0 < h.fuel) :
    h.above.pull (.ref .iterator g) w = .ok none v :=
  pull_of_turn hc hturn hr rfl (by rintro _ ⟨⟩) hfuel

/-- A failure of a turn that is no end is a failure of the read. -/
theorem pull_of_turn_error {c : Cursor} {turn : M (Turn Value)} {e : Fault}
    (hc : w.cursors[g]? = some c) (hturn : openTurn? h g c = some turn) (he : turn w = .error e v)
    (hopen : e ≠ .exhausted) (hfuel : 0 < h.fuel) :
    h.above.pull (.ref .iterator g) w = .error e v := by
  obtain ⟨n, hn⟩ := Nat.exists_eq_succ_of_ne_zero (Nat.ne_of_gt hfuel)
  have hattempt : Act.attempt (Turn.pull .outOfFuel turn h.fuel) w = .ok (.error e) v := by
    rw [Act.attempt, hn, Turn.pull_succ, Act.bind_of_error he]
  have hnext : nextItem h g w = .error e v := by
    rw [nextItem, Act.bind_of_ok (m := get) rfl, hc, Option.getD_some]
    cases c with
    | running | finished => cases hturn
    | _ =>
        simp only [hturn]
        rw [Act.bind_of_ok hattempt]
        cases e with
        | exhausted => exact absurd rfl hopen
        | _ => rfl
  change readCursor h g w = _
  rw [readCursor, Act.bind_of_error hnext]

/-- A guard that is truncated reports the end, and asks nothing any more. -/
theorem pull_of_truncated {handler strict : Value} {s : Guard Value Key Value}
    (hg : w.cursors[g]? = some (.guard handler strict s)) (ht : s.truncated = true)
    (hfuel : 0 < h.fuel) : h.above.pull (.ref .iterator g) w = .ok none w := by
  have hturn : guardTurn h handler strict g w = .ok .ended w := by
    rw [guardTurn, Guard.turn, Act.bind_of_ok (read_guard hg), ht]
    rfl
  exact pull_of_turn_ended hg rfl hturn hfuel

/-! ### One read -/

/-- **The next read of a guard that has let the first `n` items through.**  What it gives, and what the
handler is asked, is up to the next item: it may pass, be a repeat at which the guard stops or fails, or be
missing. -/
structure Watch.Verdict (G : Watch) (h : Host) (g : ℕ) (stands : ℕ → List (Value × ℕ) → World → Prop)
    (n : ℕ) (w : World) : Prop where
  passes : ∀ x, G.items.get? n = some x → G.Passes n →
    ∃ v, h.above.pull (.ref .iterator g) w = .ok (some x) v ∧ stands (n + 1) (G.calls (n + 1)) v ∧
      Shows g false .null v
  stops : ∀ x, G.items.get? n = some x → G.Again n →
    G.decision n = some false ∨ G.decision n = none ∧ G.strict = false →
    ∃ v, h.above.pull (.ref .iterator g) w = .ok none v ∧ stands (n + 1) (G.calls (n + 1)) v ∧
      ∀ u, u.cursors[g]? = v.cursors[g]? →
        Shows g true x u ∧ h.above.pull (.ref .iterator g) u = .ok none u
  fails : ∀ x, G.items.get? n = some x → G.Again n → G.decision n = none → G.strict = true →
    ∃ text v, h.above.pull (.ref .iterator g) w = .error (Host.fatal (recurrence x n text)) v ∧
      stands (n + 1) (G.calls (n + 1)) v ∧ Shows g false .null v
  ends : G.items.get? n = none →
    ∃ v, h.above.pull (.ref .iterator g) w = .ok none v ∧ stands n (G.calls n) v ∧ Shows g false .null v

theorem OnDuty.shows (hw : OnDuty g G stands n w) : Shows g false .null w := by
  obtain ⟨s, hg, -, ht, hr, -⟩ := hw.state
  have hnull : (ofOption s.repeated).unmarked = false := by
    rw [hr]
    rfl
  have hshows := shows_of_guard hg hnull
  rwa [ht, hr] at hshows

/-- A repeat has a key that a guard has seen. -/
theorem Watch.again_iff {k : Key} (hx : G.items.get? n = some x) (hk : x.key? = some k) :
    G.Again n ↔ ∃ i < n, ∃ y, G.items.get? i = some y ∧ y.key? = some k := by
  constructor
  · rintro ⟨j, hj, y, x', hy, hx', hkeys⟩
    obtain rfl : x = x' := Option.some_inj.1 (hx.symm.trans hx')
    exact ⟨j, hj, y, hy, hkeys.trans hk⟩
  · rintro ⟨j, hj, y, hy, hyk⟩
    exact ⟨j, hj, y, x, hy, hx, hyk.trans hk.symm⟩

/-- With one more item, its key is among those that there have been. -/
theorem Watch.seen_succ_iff {k k' : Key} (hx : G.items.get? n = some x) (hk : x.key? = some k) :
    (∃ i < n + 1, ∃ y, G.items.get? i = some y ∧ y.key? = some k') ↔
      (∃ i < n, ∃ y, G.items.get? i = some y ∧ y.key? = some k') ∨ k = k' := by
  constructor
  · rintro ⟨i, hi, y, hy, hyk⟩
    rcases Nat.lt_succ_iff_lt_or_eq.1 hi with hlt | rfl
    · exact .inl ⟨i, hlt, y, hy, hyk⟩
    · obtain rfl : x = y := Option.some_inj.1 (hx.symm.trans hy)
      exact .inr (Option.some_inj.1 (hk.symm.trans hyk))
  · rintro (⟨i, hi, y, hy, hyk⟩ | rfl)
    · exact ⟨i, Nat.lt_succ_of_lt hi, y, hy, hyk⟩
    · exact ⟨n, Nat.lt_succ_self n, x, hx, hk⟩

/-- A guard looks at the item at position `n`: it has moved on, but remembers only what was before. -/
structure Watch.Considers (G : Watch) (g : ℕ) (n : ℕ) (s : Guard Value Key Value) (w : World) : Prop where
  cursor : w.cursors[g]? = some (.guard G.handler (.bool G.strict) s)
  source : s.source = G.source
  untruncated : s.truncated = false
  unrepeated : s.repeated = none
  position : s.position = n + 1
  seen : ∀ k, s.seen.contains k = true ↔ ∃ i < n, ∃ x, G.items.get? i = some x ∧ x.key? = some k

namespace Watch.Considers

variable {s : Guard Value Key Value}

theorem kept (hs : G.Considers g n s w) (hv : v.cursors[g]? = w.cursors[g]?) : G.Considers g n s v :=
  { hs with cursor := hv.trans hs.cursor }

/-- A guard that lets a repeat through remembers nothing new. -/
theorem onDuty_of_again (hs : G.Considers g n s w) (hw : stands (n + 1) (G.calls (n + 1)) w)
    (hx : G.items.get? n = some x) {k : Key} (hk : x.key? = some k) (hagain : G.Again n) :
    OnDuty g G stands (n + 1) w := by
  refine ⟨hw, s, hs.cursor, hs.source, hs.untruncated, hs.unrepeated, hs.position, fun k' => ?_⟩
  rw [hs.seen, Watch.seen_succ_iff hx hk]
  constructor
  · exact .inl
  · rintro (hseen | rfl)
    · exact hseen
    · exact (Watch.again_iff hx hk).1 hagain

/-- A guard that gives a new item remembers it. -/
theorem onDuty_of_new (hs : G.Considers g n s w) (hG : Attended h g G stands)
    (hw : stands (n + 1) (G.calls (n + 1)) w) (hx : G.items.get? n = some x) {k : Key}
    (hk : x.key? = some k) :
    OnDuty g G stands (n + 1)
      (w.withCursor g (.guard G.handler (.bool G.strict) (Guard.remember k s))) := by
  refine ⟨hG.moved hw _, _, getElem?_setCursor hs.cursor, hs.source, hs.untruncated, hs.unrepeated,
    hs.position, fun k' => ?_⟩
  rw [Guard.remember, contains_insert_iff, hs.seen, Watch.seen_succ_iff hx hk]

end Watch.Considers

/-- **A guard looks at its next item**, which the source has given: at a repeat it decides, and otherwise
remembers the item. -/
theorem OnDuty.exists_turn (hw : OnDuty g G stands n w) (hG : Attended h g G stands)
    (hx : G.items.get? n = some x) {k : Key} (hk : x.key? = some k) :
    ∃ s u, G.Considers g n s u ∧ stands (n + 1) (G.calls n) u ∧
      (G.Again n → guardTurn h G.handler (.bool G.strict) g w =
        guardRepeat h G.handler (.bool G.strict) g x n u) ∧
      (¬G.Again n → guardTurn h G.handler (.bool G.strict) g w =
        .ok (.give x) (u.withCursor g (.guard G.handler (.bool G.strict) (Guard.remember k s)))) := by
  obtain ⟨s, hg, hsource, ht, hr, hposition, hseen⟩ := hw.state
  obtain ⟨v, hpull, hv, hkept⟩ := hG.item hw.standing hx
  have hg' := hkept.trans hg
  have hturn := guardTurn_of_item hg ht (hsource ▸ hpull) hg' hsource hk
  have hconsiders : G.Considers g n (Guard.arrive G.source s)
      (v.withCursor g (.guard G.handler (.bool G.strict) (Guard.arrive G.source s))) :=
    { cursor := getElem?_setCursor hg'
      source := rfl
      untruncated := ht
      unrepeated := hr
      position := congrArg (· + 1) hposition
      seen := hseen }
  refine ⟨_, _, hconsiders, hG.moved hv _, fun hagain => ?_, fun hnew => ?_⟩
  · rw [hturn, if_pos ((hseen k).2 ((Watch.again_iff hx hk).1 hagain)), hposition]
  · rw [hturn, if_neg fun hcontains => hnew ((Watch.again_iff hx hk).2 ((hseen k).1 hcontains))]
    exact Act.bind_of_ok (modify_guard_eq hconsiders.cursor _)

/-- What the handler decides about a repeat, and where that leaves the guard. -/
theorem OnDuty.exists_decision (hw : OnDuty g G stands n w) (hG : Attended h g G stands)
    (hx : G.items.get? n = some x) (hagain : G.Again n) :
    ∃ text s u v, G.Considers g n s v ∧ stands (n + 1) (G.calls (n + 1)) v ∧
      Decides h (recurrence x n text) u G.handler (G.decision n) v ∧ u.display x = .ok text ∧
      guardTurn h G.handler (.bool G.strict) g w = guardRepeat h G.handler (.bool G.strict) g x n u := by
  obtain ⟨k, hk⟩ := hG.hashable hx
  obtain ⟨s, u, hs, hu, hturn, -⟩ := hw.exists_turn hG hx hk
  obtain ⟨text, htext⟩ := hG.written hu hx
  obtain ⟨v, hdecides, hv, hkept⟩ := hG.exists_decides hu hx hagain htext
  exact ⟨text, s, u, v, hs.kept hkept, hv, hdecides, htext, hturn hagain⟩

/-- An item that passes is given. -/
theorem OnDuty.exists_pass (hw : OnDuty g G stands n w) (hG : Attended h g G stands)
    (hx : G.items.get? n = some x) (hpasses : G.Passes n) (hfuel : 0 < h.fuel) :
    ∃ v, h.above.pull (.ref .iterator g) w = .ok (some x) v ∧ OnDuty g G stands (n + 1) v := by
  have hmarked : ∀ y, some x = some y → y.unmarked = false := by
    rintro _ ⟨⟩
    exact hG.handed hx
  obtain ⟨k, hk⟩ := hG.hashable hx
  obtain ⟨s₀, hg₀, -⟩ := hw.state
  by_cases hagain : G.Again n
  · obtain ⟨text, s, u, v, hs, hv, hdecides, htext, hturn⟩ := hw.exists_decision hG hx hagain
    refine ⟨v, pull_of_turn hg₀ rfl (hturn.trans ?_) rfl hmarked hfuel,
      hs.onDuty_of_again hv hx hk hagain⟩
    rw [hpasses.2 hagain] at hdecides
    exact Act.bind_of_ok (hdecides.guardDecision_eq htext G.strict)
  · obtain ⟨s, u, hs, hu, -, hturn⟩ := hw.exists_turn hG hx hk
    rw [← Watch.calls_succ_of_not_again hagain] at hu
    exact ⟨_, pull_of_turn hg₀ rfl (hturn hagain) rfl hmarked hfuel, hs.onDuty_of_new hG hu hx hk⟩

/-- A truncation is written down if the session logs. -/
theorem Attended.exists_report (hG : Attended h g G stands) (hw : stands n calls w)
    (hx : G.items.get? i = some x) (position : ℕ) :
    ∃ v, reportTruncation x position w = .ok () v ∧ stands n calls v ∧ v.cursors = w.cursors := by
  rw [reportTruncation, reportText, Act.bind_of_ok (m := get) rfl]
  by_cases hlogging : w.logging = true
  · obtain ⟨text, htext⟩ := hG.written hw hx
    rw [if_pos hlogging]
    have hentry := Act.bind_of_ok (f := fun shown => pure ("Route truncated at repeated element " ++ shown ++
      " (position " ++ toString position ++ ")")) (displayed_of_ok htext)
    exact ⟨_, (Act.bind_of_ok hentry).trans rfl, hG.logged hw _, rfl⟩
  · rw [if_neg hlogging]
    exact ⟨w, rfl, hw, rfl⟩

/-- A guard that is not told to go on past a repeat is truncated there. -/
theorem OnDuty.exists_stop (hw : OnDuty g G stands n w) (hG : Attended h g G stands)
    (hx : G.items.get? n = some x) (hagain : G.Again n)
    (hstops : G.decision n = some false ∨ G.decision n = none ∧ G.strict = false) (hfuel : 0 < h.fuel) :
    ∃ v, h.above.pull (.ref .iterator g) w = .ok none v ∧ stands (n + 1) (G.calls (n + 1)) v ∧
      ∀ u, u.cursors[g]? = v.cursors[g]? →
        Shows g true x u ∧ h.above.pull (.ref .iterator g) u = .ok none u := by
  obtain ⟨s₀, hg₀, -⟩ := hw.state
  obtain ⟨text, s, u, v, hs, hv, hdecides, htext, hturn⟩ := hw.exists_decision hG hx hagain
  have hdecision : guardDecision h G.handler (.bool G.strict) x n u = .ok false v := by
    rw [hdecides.guardDecision_eq htext]
    rcases hstops with hfalse | ⟨hnone, hlenient⟩
    · rw [hfalse]
    · rw [hnone, hlenient]
  have htruncate := modify_guard_eq hs.cursor (Guard.truncate x)
  obtain ⟨t, hreport, ht, hcursors⟩ := hG.exists_report (hG.moved hv _) hx n
  have hend : guardTurn h G.handler (.bool G.strict) g w = .ok .ended t := by
    rw [hturn, guardRepeat, Act.bind_of_ok hdecision]
    exact (Act.bind_of_ok htruncate).trans ((Act.bind_of_ok hreport).trans rfl)
  refine ⟨t, pull_of_turn_ended hg₀ rfl hend hfuel, ht, fun u' hu' => ?_⟩
  have hg : u'.cursors[g]? = some (.guard G.handler (.bool G.strict) (Guard.truncate x s)) := by
    rw [hu', hcursors]
    exact getElem?_setCursor hs.cursor
  exact ⟨shows_of_guard hg (hG.handed hx), pull_of_truncated hg rfl hfuel⟩

/-- A guard that is strict fails at a repeat about which nobody decides, and is behind it then. -/
theorem OnDuty.exists_fail (hw : OnDuty g G stands n w) (hG : Attended h g G stands)
    (hx : G.items.get? n = some x) (hagain : G.Again n) (hnone : G.decision n = none)
    (hstrict : G.strict = true) (hfuel : 0 < h.fuel) :
    ∃ text v, h.above.pull (.ref .iterator g) w = .error (Host.fatal (recurrence x n text)) v ∧
      OnDuty g G stands (n + 1) v := by
  obtain ⟨k, hk⟩ := hG.hashable hx
  obtain ⟨s₀, hg₀, -⟩ := hw.state
  obtain ⟨text, s, u, v, hs, hv, hdecides, htext, hturn⟩ := hw.exists_decision hG hx hagain
  have hdecision := hdecides.guardDecision_eq htext G.strict
  rw [hnone, hstrict] at hdecision
  rw [hstrict] at hturn hg₀
  refine ⟨text, v, pull_of_turn_error hg₀ rfl (hturn.trans ?_) (by rintro ⟨⟩) hfuel,
    hs.onDuty_of_again hv hx hk hagain⟩
  exact Act.bind_of_error hdecision

/-- At the end of its source, a guard ends, and is not truncated. -/
theorem OnDuty.exists_end (hw : OnDuty g G stands n w) (hG : Attended h g G stands)
    (hx : G.items.get? n = none) (hfuel : 0 < h.fuel) :
    ∃ v, h.above.pull (.ref .iterator g) w = .ok none v ∧ OnDuty g G stands n v := by
  obtain ⟨s, hg, hsource, ht, hrest⟩ := hw.state
  obtain ⟨v, hpull, hv, hkept⟩ := hG.finishes hw.standing hx
  have hturn : guardTurn h G.handler (.bool G.strict) g w = .ok .ended v := by
    rw [guardTurn, Guard.turn, Act.bind_of_ok (read_guard hg), ht, hsource]
    exact (Act.bind_of_ok (source_of_end hpull)).trans rfl
  exact ⟨v, pull_of_turn_ended hg rfl hturn hfuel, hv, s, hkept.trans hg, hsource, ht, hrest⟩

/-- **One read of a guard.** -/
theorem OnDuty.verdict (hw : OnDuty g G stands n w) (hG : Attended h g G stands) (hfuel : 0 < h.fuel) :
    G.Verdict h g stands n w where
  passes x hx hpasses := by
    obtain ⟨v, hpull, hv⟩ := hw.exists_pass hG hx hpasses hfuel
    exact ⟨v, hpull, hv.standing, hv.shows⟩
  stops x hx hagain hstops := hw.exists_stop hG hx hagain hstops hfuel
  fails x hx hagain hnone hstrict := by
    obtain ⟨text, v, hpull, hv⟩ := hw.exists_fail hG hx hagain hnone hstrict hfuel
    exact ⟨text, v, hpull, hv.standing, hv.shows⟩
  ends hx := by
    obtain ⟨v, hpull, hv⟩ := hw.exists_end hG hx hfuel
    exact ⟨v, hpull, hv.standing, hv.shows⟩

end GraphRoutes.Session
