/-
**A guard passes on what its source gives, up to the first repeat that nobody lets through.**

However a guard is read, and whatever goes on in between that leaves it alone, it has given the first items
of its source, each of which has passed, and its handler has been asked once about each repeat among them,
in order.  What it does at the next item is told by the verdict on that.

A guard that meets a repeat which cannot be written fails, since it tells what is repeated; and a handler
that reads the source takes items away from the guard.

Main definitions:

* `GraphRoutes.Session.Guards` — the ways to put a guard behind a route.

Main results:

* `GraphRoutes.Session.OnDuty.onDuty_of_reads` — a guard that has been read has let through what it has
  given;
* `GraphRoutes.Session.guard_passes_on` — **all reads of a guard, and all calls of its handler**;
* `GraphRoutes.Session.attended_numbers` — numbers at hand, and a handler with one decision.
-/
import GraphRoutes.Proofs.Session.RoundRobin
import GraphRoutes.Proofs.Session.Watches

set_option relaxedAutoImplicit false
set_option autoImplicit false

namespace GraphRoutes.Session

open World Value Route

variable {h : Host} {g n : ℕ} {G : Watch} {stands : ℕ → List (Value × ℕ) → World → Prop}
  {u v w : World} {x : Value}

/-! ### All reads -/

/-- An item passes, or it is a repeat about which the decision is to stop, or about which there is none. -/
theorem Watch.passes_or_not (hx : G.items.get? n = some x) :
    G.Passes n ∨ (G.Again n ∧ (G.decision n = some false ∨ G.decision n = none ∧ G.strict = false)) ∨
      G.Again n ∧ G.decision n = none ∧ G.strict = true := by
  have hsome : (G.items.get? n).isSome := by
    rw [hx]
    rfl
  by_cases hagain : G.Again n
  · rcases hdecision : G.decision n with _ | _ | _
    · cases hstrict : G.strict with
      | true => exact .inr (.inr ⟨hagain, rfl, rfl⟩)
      | false => exact .inr (.inl ⟨hagain, .inr ⟨rfl, rfl⟩⟩)
    · exact .inr (.inl ⟨hagain, .inl rfl⟩)
    · exact .inl ⟨hsome, fun _ => hdecision⟩
  · exact .inl ⟨hsome, fun h => absurd h hagain⟩

/-- A guard gives an item only if that passes. -/
theorem Watch.Verdict.passes_of_give {y : Value} (hverdict : G.Verdict h g stands n w)
    (hpull : h.above.pull (.ref .iterator g) w = .ok (some y) v) :
    G.Passes n ∧ G.items.get? n = some y := by
  cases hx : G.items.get? n with
  | none =>
      obtain ⟨u, hends, -⟩ := hverdict.ends hx
      cases hpull.symm.trans hends
  | some x =>
      rcases Watch.passes_or_not hx with hpasses | ⟨hagain, hstops⟩ | ⟨hagain, hnone, hstrict⟩
      · obtain ⟨u, hgives, -⟩ := hverdict.passes x hx hpasses
        cases hpull.symm.trans hgives
        exact ⟨hpasses, rfl⟩
      · obtain ⟨u, hends, -⟩ := hverdict.stops x hx hagain hstops
        cases hpull.symm.trans hends
      · obtain ⟨text, u, hfails, -⟩ := hverdict.fails x hx hagain hnone hstrict
        cases hpull.symm.trans hfails

/-- **However a guard is read** from a position on, it has let all items through that it has given. -/
theorem OnDuty.onDuty_of_reads {m : ℕ} {ys : List Value} (hw : OnDuty g G stands m w)
    (hread : Spaced h.above (.ref .iterator g) (Undisturbed g (Function.uncurry stands)) w ys v)
    (hG : Attended h g G stands) (hfuel : 0 < h.fuel) :
    ys = (G.items.drop m).take ys.length ∧ (∀ i < ys.length, G.Passes (m + i)) ∧
      OnDuty g G stands (m + ys.length) v := by
  induction hread with
  | start => exact ⟨rfl, nofun, hw⟩
  | @read ys y u v hread hpull ih =>
      obtain ⟨hys, hall, hu⟩ := ih
      obtain ⟨hpasses, hy⟩ := (hu.verdict hG hfuel).passes_of_give hpull
      obtain ⟨t, hgives, ht⟩ := hu.exists_pass hG hy hpasses hfuel
      rw [hpull] at hgives
      cases hgives
      rw [List.length_append, List.length_singleton]
      refine ⟨?_, fun i hi => ?_, ht⟩
      · rw [Merge.take_succ_of_get? ((Stream'.Seq.drop_get? ..).trans hy), ← hys]
      · rcases Nat.lt_succ_iff_lt_or_eq.1 hi with hlt | rfl
        · exact hall i hlt
        · exact hpasses
  | @meanwhile ys u v hread hbetween ih =>
      obtain ⟨hys, hall, hstanding, s, hg, hs⟩ := ih
      exact ⟨hys, hall, hbetween.2 (m + ys.length, _) hstanding, s, hbetween.1.trans hg, hs⟩

/-- As long as items pass, they can be read. -/
theorem OnDuty.exists_reads (hw : OnDuty g G stands 0 w) (hG : Attended h g G stands)
    (hall : ∀ i < n, G.Passes i) (hfuel : 0 < h.fuel) :
    ∃ v, Reads h.above (.ref .iterator g) (G.items.take n) w v ∧ OnDuty g G stands n v := by
  induction n with
  | zero => exact ⟨w, .none w, hw⟩
  | succ n ih =>
      obtain ⟨v, hreads, hv⟩ := ih fun i hi => hall i (Nat.lt_succ_of_lt hi)
      have hpasses := hall n (Nat.lt_succ_self n)
      obtain ⟨x, hx⟩ := Option.isSome_iff_exists.1 hpasses.1
      obtain ⟨u, hpull, hu⟩ := hv.exists_pass hG hx hpasses hfuel
      refine ⟨u, ?_, hu⟩
      rw [Merge.take_succ_of_get? hx]
      exact hreads.append (.item hpull (.none u))

/-- Where a route has been opened, a guard is put behind it. -/
def World.guarding (w : World) (it handler : Value) (strict : Bool) : World :=
  { w with cursors := w.cursors.push (.guard handler (.bool strict) { source := it }) }

/-- A guard that has just been opened has let nothing through yet. -/
theorem onDuty_guarding
    (hw : stands 0 [] (w.guarding G.source G.handler G.strict)) :
    OnDuty w.cursors.size G stands 0 (w.guarding G.source G.handler G.strict) := by
  have hcalls : G.calls 0 = [] := by
    rw [Watch.calls]
    cases G.handler.notNull <;> rfl
  refine ⟨hcalls ▸ hw, _, Array.getElem?_push_size, rfl, rfl, rfl, rfl, fun k => ?_⟩
  simp

/-- **The ways to put a guard behind a route.**  A guard that is meant to fail is strict, and one that is
meant to truncate is not, and has no handler. -/
inductive Guards (r handler : Value) : Bool → Op → List Value → List (String × Value) → Prop
  | guard (strict : Bool) : Guards r handler strict .guard [r, handler] [("strict", .bool strict)]
  | lenient : Guards r handler false .guard [r, handler] []
  | truncates (hnull : handler = .null) : Guards r handler false .truncateOnRepeat [r] []
  | fails : Guards r handler true .failOnRepeat [r, handler] []

/-- A guard asks its source nothing when it is opened. -/
theorem Guards.callOp_eq {r it handler : Value} {strict : Bool} {o : Op} {args : List Value}
    {named : List (String × Value)} (ho : Guards r handler strict o args named)
    (hr : openRoute r w = .ok it u) (H : Host) :
    H.callOp o args named w =
      .ok (.ref .iterator u.cursors.size) (u.guarding it handler strict) := by
  have hopen : openGuard r handler (.bool strict) w =
      .ok (.ref .iterator u.cursors.size) (u.guarding it handler strict) := Act.bind_of_ok hr
  cases ho with
  | guard =>
      have hperform : H.perform .guard
          { bound := [some r, some handler, some (.bool strict)], extra := [] } w = _ := hopen
      exact (callOp_of_ok rfl hperform).trans rfl
  | lenient =>
      have hperform : H.perform .guard { bound := [some r, some handler, none], extra := [] } w = _ :=
        hopen
      exact (callOp_of_ok rfl hperform).trans rfl
  | truncates hnull =>
      subst hnull
      have hperform : H.perform .truncateOnRepeat { bound := [some r], extra := [] } w = _ := hopen
      exact (callOp_of_ok rfl hperform).trans rfl
  | fails =>
      have hperform : H.perform .failOnRepeat { bound := [some r, some handler], extra := [] } w = _ :=
        hopen
      exact (callOp_of_ok rfl hperform).trans rfl

/-- **A guard passes on what its source gives, up to the first repeat that nobody lets through.**  However
it is read, it has given the first items of its source, all of which pass, and its handler has been asked
once about each repeat among them; what it does at its next item is told by its verdict, and it can be read
as long as items pass. -/
theorem guard_passes_on {r : Value} {o : Op} {args : List Value} {named : List (String × Value)}
    (ho : Guards r G.handler G.strict o args named) (hr : openRoute r w = .ok G.source u)
    (hG : Attended h u.cursors.size G stands)
    (hstands : stands 0 [] (u.guarding G.source G.handler G.strict)) (hfuel : 0 < h.fuel) (H : Host) :
    let g := u.cursors.size
    let opened := u.guarding G.source G.handler G.strict
    H.callOp o args named w = .ok (.ref .iterator g) opened ∧
      (∀ ys v, Spaced h.above (.ref .iterator g) (Undisturbed g (Function.uncurry stands)) opened ys v →
        ys = G.items.take ys.length ∧ (∀ i < ys.length, G.Passes i) ∧
          stands ys.length (G.calls ys.length) v ∧ Shows g false .null v ∧
          G.Verdict h g stands ys.length v) ∧
      ∀ n, (∀ i < n, G.Passes i) →
        ∃ v, Reads h.above (.ref .iterator g) (G.items.take n) opened v := by
  intro g opened
  have hopened : OnDuty g G stands 0 opened := onDuty_guarding hstands
  refine ⟨ho.callOp_eq hr H, fun ys v hread => ?_, fun n hall => ?_⟩
  · obtain ⟨hys, hall, hv⟩ := hopened.onDuty_of_reads hread hG hfuel
    rw [Nat.zero_add] at hv
    exact ⟨hys, fun i hi => Nat.zero_add i ▸ hall i hi, hv.standing, hv.shows, hv.verdict hG hfuel⟩
  · obtain ⟨v, hreads, -⟩ := hopened.exists_reads hG hall hfuel
    exact ⟨v, hreads⟩

/-! ### Numbers at hand, and a handler with one decision -/

section

variable {k : Host} {p q : ℕ} {of : ItemsOf} {ys : List Value}

theorem pull_items (hp : w.cursors[p]? = some (.items of (x :: ys))) (hx : x.unmarked = false)
    (hfuel : 0 < k.fuel) :
    k.above.pull (.ref .iterator p) w = .ok (some x) (w.withCursor p (.items of ys)) := by
  have hturn : openTurn? k p (.items of (x :: ys)) = some (do
    World.setCursor p (.items of ys)
    pure (.give x)) := rfl
  refine pull_of_turn hp hturn rfl rfl ?_ hfuel
  rintro _ ⟨⟩
  exact hx

theorem pull_items_nil (hp : w.cursors[p]? = some (.items of [])) (hfuel : 0 < k.fuel) :
    k.above.pull (.ref .iterator p) w = .ok none w :=
  pull_of_turn_ended hp rfl rfl hfuel

/-- Short numbers can be written. -/
theorem lt_numberLimit {m : ℕ} (hm : m < 10) : m < numberLimit := by
  have hpow : ∀ n, n ≠ 0 → m < Nat.pow 10 n := fun n hn => Nat.lt_of_lt_of_le hm (Nat.le_self_pow hn 10)
  delta numberLimit
  apply hpow
  decide

/-- A number that is not too long is written in digits. -/
theorem display_int (w : World) {m : ℤ} (hm : m.natAbs < numberLimit) :
    w.display (.int m) = .ok (toString m) := by
  rw [display, depthLimit, displayTo]
  simp only [hm]
  rfl

theorem display_int_of_le (w : World) {m : ℤ} (hm : numberLimit ≤ m.natAbs) :
    w.display (.int m) = .error .badValue := by
  rw [display, depthLimit, displayTo]
  simp only [Nat.not_lt.2 hm]
  rfl

/-- A guard over numbers, with a handler that has decided once and for all. -/
def numbersWatch (p q : ℕ) (ns : List ℤ) (b strict : Bool) : Watch where
  source := .ref .iterator p
  items := .ofList (ns.map .int)
  handler := .ref .function q
  decides _ := some b
  strict := strict

/-- Where the numbers stand when `n` of them have been given, and the handler. -/
def numbersStand (p q : ℕ) (ns : List ℤ) (b : Bool) (n : ℕ) (_ : List (Value × ℕ)) (w : World) : Prop :=
  w.cursors[p]? = some (.items .tuple ((ns.map Value.int).drop n)) ∧
    w.functions[q]? = some (.deciding (.bool b))

theorem exists_of_get?_numbers {ns : List ℤ}
    (hx : (Stream'.Seq.ofList (ns.map Value.int)).get? n = some x) :
    (ns.map Value.int)[n]? = some x ∧ ∃ m ∈ ns, x = .int m := by
  rw [Stream'.Seq.ofList_get?] at hx
  obtain ⟨m, hm, rfl⟩ := Option.map_eq_some_iff.1 (List.getElem?_map ▸ hx)
  exact ⟨hx, m, List.mem_of_getElem? hm, rfl⟩

/-- Numbers that are at hand, and can be written, and a handler with one decision leave any guard alone. -/
theorem attended_numbers (hfuel : 0 < k.fuel) {ns : List ℤ} (hns : ∀ m ∈ ns, m.natAbs < numberLimit)
    (b strict : Bool) (hg : p ≠ g) :
    Attended k.above g (numbersWatch p q ns b strict) (numbersStand p q ns b) where
  item {n calls w x} hw hx := by
    obtain ⟨hget, m, -, rfl⟩ := exists_of_get?_numbers hx
    have hdrop : (ns.map Value.int).drop n = .int m :: (ns.map Value.int).drop (n + 1) := by
      obtain ⟨hlt, hx⟩ := List.getElem?_eq_some_iff.1 hget
      rw [List.drop_eq_getElem_cons hlt, hx]
    rw [numbersStand, hdrop] at hw
    refine ⟨_, pull_items hw.1 rfl hfuel, ⟨getElem?_setCursor hw.1, hw.2⟩, ?_⟩
    exact Array.getElem?_setIfInBounds_ne hg
  finishes {n calls w} hw hx := by
    rw [numbersWatch, Stream'.Seq.ofList_get?] at hx
    have hdrop : (ns.map Value.int).drop n = [] :=
      List.drop_eq_nil_of_le (List.getElem?_eq_none_iff.1 hx)
    refine ⟨w, ?_, hw, rfl⟩
    rw [numbersStand, hdrop] at hw
    exact pull_items_nil hw.1 hfuel
  asked {n calls w x text} hw hx _ _ := by
    obtain ⟨args, marks, hargs, hhanded⟩ := exists_mapM_handOut [recurrence x n text] w
    obtain ⟨c, rfl⟩ : ∃ c, args = [c] := List.length_eq_one_iff.1 hhanded.length_eq.symm
    have hcall : callOver k (.ref .function q) [c] [] { w with marks } =
        .ok (.bool b) { w with marks } := by
      rw [callOver, Act.bind_of_ok (m := get) rfl]
      simp only [hw.2]
      rfl
    exact ⟨.bool b, { w with marks }, (Act.bind_of_ok hargs).trans hcall, hw, rfl, rfl⟩
  written {n i calls w x} _ hx := by
    obtain ⟨-, m, hm, rfl⟩ := exists_of_get?_numbers hx
    exact ⟨toString m, display_int w (hns m hm)⟩
  moved {n calls w} hw c := by
    refine ⟨?_, hw.2⟩
    rw [withCursor, Array.getElem?_setIfInBounds_ne hg.symm]
    exact hw.1
  logged hw _ := hw
  hashable hx := by
    obtain ⟨-, m, -, rfl⟩ := exists_of_get?_numbers hx
    exact ⟨_, rfl⟩
  handed hx := by
    obtain ⟨-, m, -, rfl⟩ := exists_of_get?_numbers hx
    rfl

end

/-- A world with a handler that has decided once and for all. -/
def deciding (b : Bool) : World where
  functions := #[.deciding (.bool b)]

/-- Of the numbers 1, 2, 1, 3, a guard gives two if its handler lets nothing through. -/
theorem guard_passes_on_numbers :
    ∃ w v u, (host 4).callOp .failOnRepeat
        [.tuple [.int 1, .int 2, .int 1, .int 3] none, .ref .function 0] [] (deciding false) =
          .ok (.ref .iterator 1) w ∧
      Reads (host 4) (.ref .iterator 1) [.int 1, .int 2] w v ∧
      (host 4).pull (.ref .iterator 1) v = .ok none u ∧ Shows 1 true (.int 1) u := by
  let G := numbersWatch 0 0 [1, 2, 1, 3] false true
  have hitem : ∀ i, G.items.get? i = ([1, 2, 1, 3].map Value.int)[i]? := fun i =>
    Stream'.Seq.ofList_get? ..
  have hnew : ∀ i < 2, ¬G.Again i := by
    rintro i hi ⟨j, hj, x, y, hx, hy, hkeys⟩
    obtain rfl : i = 1 := by omega
    obtain rfl : j = 0 := by omega
    rw [hitem] at hx hy
    cases hx
    cases hy
    cases hkeys
  have hpasses : ∀ i < 2, G.Passes i := fun i hi =>
    ⟨by rw [hitem]; simp; omega, fun hagain => absurd hagain (hnew i hi)⟩
  have hagain : G.Again 2 := ⟨0, by omega, .int 1, .int 1, hitem 0, hitem 2, rfl⟩
  have hshort : ∀ m ∈ ([1, 2, 1, 3] : List ℤ), m.natAbs < 10 := by decide
  have hattended : Attended (host 3) 1 G (numbersStand 0 0 [1, 2, 1, 3] false) :=
    attended_numbers (k := host 2) (by decide) (fun m hm => lt_numberLimit (hshort m hm)) false true (by decide)
  obtain ⟨hopen, hall, hreads⟩ := guard_passes_on (G := G) (h := host 3) (w := deciding false)
    (u := { deciding false with cursors := #[.items .tuple ([1, 2, 1, 3].map Value.int)] })
    (r := .tuple [.int 1, .int 2, .int 1, .int 3] none) .fails rfl hattended ⟨rfl, rfl⟩ (by decide) (host 4)
  obtain ⟨v, hv⟩ := hreads 2 hpasses
  obtain ⟨-, -, -, -, hverdict⟩ := hall _ v (.of_reads .start hv)
  obtain ⟨u, hend, -, hlater⟩ := hverdict.stops (.int 1) (hitem 2) hagain (.inl rfl)
  exact ⟨_, v, u, hopen, hv, hend, (hlater u rfl).1⟩

/-! ### Guards that do not pass on what they should -/

/-- A guard that has met a number and nothing else, in `i` items of the cursor at 0. -/
def met (n : ℤ) (i : ℕ) : Guard Value Key Value :=
  Guard.remember [.int n] { source := .ref .iterator 0, position := i }

/-- The world `w` with a guard at 1 that reads the items at 0. -/
def World.guarded (w : World) (items : List Value) (handler : Value) (s : Guard Value Key Value) : World :=
  { w with cursors := #[.items .tuple items, .guard handler (.bool false) s] }

/-- The first number is new. -/
theorem pull_guarded {k : Host} (hk : 0 < k.fuel) (w : World) (n : ℤ) (items : List Value) (handler : Value) :
    k.above.above.pull (.ref .iterator 1)
        (w.guarded (.int n :: items) handler { source := .ref .iterator 0 }) =
      .ok (some (.int n)) (w.guarded items handler (met n 1)) := by
  have hturn := guardTurn_of_item (h := k.above) (g := 1) (x := .int n) (k := [.int n])
    (w := w.guarded (.int n :: items) handler { source := .ref .iterator 0 }) rfl rfl
    (pull_items rfl rfl hk) rfl rfl rfl
  let s : Guard Value Key Value := { source := .ref .iterator 0 }
  have hnew : ¬s.seen.contains [.int n] = true := by simp [s]
  refine pull_of_turn (h := k.above) rfl rfl (hturn.trans (congrFun (if_neg hnew) _)) rfl ?_ hk
  rintro _ ⟨⟩
  rfl

/-- The second time, it is a repeat. -/
theorem guardTurn_guarded {k : Host} (hk : 0 < k.fuel) (w : World) (n : ℤ) (items : List Value)
    (handler : Value) :
    guardTurn k.above handler (.bool false) 1 (w.guarded (.int n :: items) handler (met n 1)) =
      guardRepeat k.above handler (.bool false) 1 (.int n) 1 (w.guarded items handler (met n 2)) := by
  have hturn := guardTurn_of_item (h := k.above) (g := 1) (x := .int n) (k := [.int n])
    (w := w.guarded (.int n :: items) handler (met n 1)) rfl rfl (pull_items rfl rfl hk) rfl rfl rfl
  have hseen : (met n 1).seen.contains [.int n] = true := by simp [met, Guard.remember]
  exact hturn.trans (congrFun (if_pos hseen) _)

/-- A number that is too long to be written cannot be reported as a repeat, so a guard fails there. -/
theorem guard_fails_at_long_number :
    let n : Value := .int numberLimit
    ∃ w v u, (host 4).callOp .truncateOnRepeat [.tuple [n, n] none] [] {} = .ok (.ref .iterator 1) w ∧
      Reads (host 4) (.ref .iterator 1) [n] w v ∧
      (host 4).pull (.ref .iterator 1) v = .error .badValue u ∧ Shows 1 false .null u := by
  intro n
  let after (items : List Value) := World.guarded {} items .null
  have hlong : displayed n (after [] (met numberLimit 2)) = .error .badValue (after [] (met numberLimit 2)) := by
    rw [displayed, look, display_int_of_le _ (Int.natAbs_natCast numberLimit).ge]
  have hturn := guardTurn_guarded (k := host 2) (by decide) {} numberLimit [] .null
  refine ⟨_, after [n] (met numberLimit 1), after [] (met numberLimit 2), rfl,
    .item (pull_guarded (k := host 2) (by decide) {} numberLimit [n] .null) (.none _),
    pull_of_turn_error rfl rfl (hturn.trans ?_) (by rintro ⟨⟩) (by decide), ?_⟩
  · exact Act.bind_of_error (Act.bind_of_error hlong)
  · exact shows_of_guard (s := met numberLimit 2) rfl rfl

/-- A handler that reads the source of its guard. -/
def meddling : World where
  cursors := #[.items .tuple [.int 1, .int 1, .int 2]]
  functions := #[.closure ["c"] (.call (.name "next" (some (.op .next))) [.name "it" none] [])
    [("it", .ref .iterator 0)]]

/-- A handler that reads the source takes an item from the guard. -/
theorem guard_ends_after_meddling :
    ∃ w v u, (host 8).callOp .guard [.ref .iterator 0, .ref .function 0] [] meddling =
        .ok (.ref .iterator 1) w ∧
      Reads (host 8) (.ref .iterator 1) [.int 1, .int 1] w v ∧
      (host 8).pull (.ref .iterator 1) v = .ok none u := by
  have hturn := guardTurn_guarded (k := host 6) (by decide) meddling 1 [.int 2] (.ref .function 0)
  have happly : ∃ v, (host 7).apply (.ref .function 0) [recurrence (.int 1) 1 (toString 1)]
      (meddling.guarded [.int 2] (.ref .function 0) (met 1 2)) = .ok (.int 2) v ∧
        v.cursors = (meddling.guarded [] (.ref .function 0) (met 1 2)).cursors := ⟨_, rfl, rfl⟩
  obtain ⟨v, happly, hv⟩ := happly
  have hhandler : Value.ref .function 0 ≠ .null := by rintro ⟨⟩
  have hdecision := (Decides.handler hhandler happly).guardDecision_eq
    (display_int _ (lt_numberLimit (by decide))) false
  have hfirst := pull_guarded (k := host 6) (by decide) meddling 1 [.int 1, .int 2] (.ref .function 0)
  have hsecond : (host 8).pull (.ref .iterator 1)
      (meddling.guarded [.int 1, .int 2] (.ref .function 0) (met 1 1)) = .ok (some (.int 1)) v := by
    refine pull_of_turn (h := host 7) rfl rfl (hturn.trans (Act.bind_of_ok hdecision)) rfl ?_ (by decide)
    rintro _ ⟨⟩
    rfl
  have hg : v.cursors[1]? = some (.guard (.ref .function 0) (.bool false) (met 1 2)) := by
    rw [hv]
    rfl
  have hend : guardTurn (host 7) (.ref .function 0) (.bool false) 1 v = .ok .ended v := by
    have hp : v.cursors[0]? = some (.items .tuple []) := by
      rw [hv]
      rfl
    rw [guardTurn, Guard.turn, Act.bind_of_ok (read_guard hg)]
    exact (Act.bind_of_ok (source_of_end (pull_items_nil (k := host 6) hp (by decide)))).trans rfl
  exact ⟨_, v, v, rfl, .item hfirst (.item hsecond (.none v)), pull_of_turn_ended hg rfl hend (by decide)⟩

/-- A guard does not always pass on its source up to the repeat at which it stops. -/
theorem not_guard_passes_on_always :
    (let n : Value := .int numberLimit
    ∃ w v u, (host 4).callOp .truncateOnRepeat [.tuple [n, n] none] [] {} = .ok (.ref .iterator 1) w ∧
      Reads (host 4) (.ref .iterator 1) [n] w v ∧
      (host 4).pull (.ref .iterator 1) v = .error .badValue u ∧ Shows 1 false .null u) ∧
    ∃ w v u, (host 8).callOp .guard [.ref .iterator 0, .ref .function 0] [] meddling =
        .ok (.ref .iterator 1) w ∧
      Reads (host 8) (.ref .iterator 1) [.int 1, .int 1] w v ∧
      (host 8).pull (.ref .iterator 1) v = .ok none u :=
  ⟨guard_fails_at_long_number, guard_ends_after_meddling⟩

end GraphRoutes.Session
