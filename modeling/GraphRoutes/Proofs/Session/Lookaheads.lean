/-
**A lookahead counts no further than it needs, and keeps what it should.**

A lookahead asks for the next item of its route, calls a function about it, opens the route that this
returns, and counts: up to one item more than the largest allowed size, or up to the least one.  The route
behind an item may be finite or not.  What the route, the function and the routes that it returns do may
depend on anything that has happened to them so far, so it is told by a predicate on worlds, which knows
how far the lookahead has come and what it has taken from each route on its way.

A count that has stopped at the limit tells whether the size is allowed, since it can tell the limit from
all smaller sizes, and no allowed size is larger than the limit unless all larger sizes are allowed too.

Main definitions:

* `GraphRoutes.Session.Lookout` — what a lookahead is put to;
* `GraphRoutes.Session.Lookout.Allows`, `GraphRoutes.Session.Lookout.limit` — the allowed sizes, and how far
  to count;
* `GraphRoutes.Session.Lookout.taken` — what is taken from the route behind an item;
* `GraphRoutes.Session.Explored` — **a route, and the routes behind its items**.

Main results:

* `GraphRoutes.Session.Lookout.admits_eq` — a truncated count tells whether a size is allowed;
* `GraphRoutes.Session.Explored.exists_count` — how much is counted;
* `GraphRoutes.Session.Explored.exists_holds` — **the test of one item**.
-/
import GraphRoutes.Proofs.Session.Watches
import Mathlib.Data.ENat.Lattice

set_option relaxedAutoImplicit false
set_option autoImplicit false

namespace GraphRoutes.Session

open World Value Route

/-! ### What a lookahead is put to -/

/-- **What a lookahead is put to**: a route, the items behind it, a function, the sizes of the routes that
it returns for the items, and the bounds. -/
structure Lookout where
  source : Value
  items : Stream'.Seq Value
  f : Value
  size : ℕ → ℕ∞
  least : Option ℕ
  most : Option ℕ

/-- What has been taken from a route: so many items, and its end or not. -/
structure Taken where
  items : ℕ
  ended : Bool

namespace Lookout

variable (L : Lookout)

/-- The sizes within the bounds.  Without bounds, a route must not be empty. -/
def Allows (s : ℕ∞) : Prop :=
  (∀ m, L.least = some m → m ≤ s) ∧ (∀ m, L.most = some m → s ≤ m) ∧
    (L.least = none → L.most = none → 1 ≤ s)

/-- How far to count. -/
def limit : ℕ :=
  match L.most, L.least with
  | some most, _ => most + 1
  | none, some least => least
  | none, none => 1

open Classical in
/-- What is taken from the route behind the item at a position: its items up to the limit, and its end if
that comes first. -/
noncomputable def taken (i : ℕ) : Taken where
  items := (min (L.size i) L.limit).toNat
  ended := decide (L.size i < L.limit)

/-- What is taken from the routes behind the first `n` items. -/
noncomputable def log (n : ℕ) : List Taken := (List.range n).map L.taken

/-- The item at a position is kept, or, by a lookahead that is negated, every other one. -/
def Keeps (negated : Bool) (i : ℕ) : Prop := L.Allows (L.size i) ↔ negated = false

/-- The bounds as they are given to a function. -/
def named : List (String × Value) :=
  (L.least.map fun m => ("min_count", Value.int m)).toList ++
    (L.most.map fun m => ("max_count", Value.int m)).toList

/-- The bounds as a test keeps them. -/
def test (negated : Bool) : Test :=
  .looksAhead L.f (.ofOption (L.least.map fun m => .int m)) (.ofOption (L.most.map fun m => .int m)) negated

/-- The filter of a lookahead. -/
def cursor (negated : Bool) : Cursor := .select (L.test negated) L.source

/-- The bounds as numbers. -/
def bounds : Bounds where
  least := L.least.map Nat.cast
  most := L.most.map Nat.cast

variable {L}

theorem log_succ (n : ℕ) : L.log (n + 1) = L.log n ++ [L.taken n] := by
  rw [log, List.range_succ, List.map_append]
  rfl

@[simp] theorem length_log (n : ℕ) : (L.log n).length = n := by
  rw [log, List.length_map, List.length_range]

theorem limit_bounds : L.bounds.limit = L.limit := by
  rw [bounds, Bounds.limit, limit]
  cases L.most with
  | some most => simp
  | none => cases L.least <;> rfl

theorem min_natCast (n m : ℕ) : min (n : ℕ∞) m = (min n m : ℕ) := Nat.mono_cast.map_min.symm

/-- A finite size that is counted up to the limit is within the bounds if it is so itself. -/
theorem admits_min (n : ℕ) : L.bounds.admits (min n L.limit) = true ↔ L.Allows n := by
  rw [bounds, Bounds.admits, limit, Allows]
  cases L.least with
  | none => cases L.most <;> simp
  | some least =>
      cases L.most with
      | none =>
          simp only [Option.map_none, Option.map_some, decide_eq_true_eq, Option.some.injEq, Nat.cast_le,
            forall_eq', reduceCtorEq, IsEmpty.forall_iff, implies_true, Nat.one_le_cast, forall_const,
            and_self, and_true]
          omega
      | some most =>
          simp only [Option.map_some, Bool.decide_and, Bool.and_eq_true, decide_eq_true_eq,
            Option.some.injEq, Nat.cast_le, forall_eq', reduceCtorEq, Nat.one_le_cast, IsEmpty.forall_iff,
            and_true]
          omega

/-- A count that reaches the limit is within the bounds if no size is too large. -/
theorem admits_limit : L.bounds.admits L.limit = true ↔ L.Allows ⊤ := by
  rw [bounds, Bounds.admits, limit, Allows]
  cases L.least with
  | none => cases L.most <;> simp
  | some least => cases L.most <;> simp

open Classical in
/-- **A truncated count tells whether a size is allowed.** -/
theorem admits_eq (s : ℕ∞) : L.bounds.admits (min s L.limit).toNat = decide (L.Allows s) := by
  rw [Bool.eq_iff_iff, decide_eq_true_iff]
  cases s with
  | top => rw [top_inf_eq, ENat.toNat_natCast, admits_limit]
  | coe n => rw [min_natCast, ENat.toNat_natCast, admits_min]

/-- What a test does with its bounds. -/
theorem looksAhead_eq (h : Host) (x : Value) :
    h.looksAhead L.f (.ofOption (L.least.map fun m => .int m)) (.ofOption (L.most.map fun m => .int m)) x =
      h.sizeAllowed L.bounds (fun x => h.apply L.f [x]) x := by
  rw [bounds]
  cases L.least <;> cases L.most <;> rfl

end Lookout

/-- To ask for one item at least is to ask without bounds. -/
theorem holds_looksAhead_one (h : Host) (f : Value) (negated : Bool) (x : Value) :
    (Test.looksAhead f (.int 1) .null negated).holds h x = (Test.looksAhead f .null .null negated).holds h x := by
  have hadmits : Bounds.admits { least := some 1 } = Bounds.admits {} := by
    funext count
    simp only [Bounds.admits, decide_eq_decide]
    omega
  have hsize : h.sizeAllowed { least := some 1 } (fun x => h.apply f [x]) x =
      h.sizeAllowed {} (fun x => h.apply f [x]) x := by
    rw [Host.sizeAllowed, Host.sizeAllowed, lookahead, lookahead, hadmits]
    rfl
  rw [Test.holds, Test.holds]
  exact congrArg (· >>= fun r => pure (r != negated)) hsize

/-! ### A route, and the routes behind its items -/

/-- How far a lookahead has come. -/
inductive Phase where
  /-- It is done with the first items of its route: what it has taken from the routes behind them. -/
  | between (log : List Taken)
  /-- It has been given the next item. -/
  | item (log : List Taken)
  /-- The function has returned a route for that. -/
  | made (log : List Taken) (r : Value)
  /-- That route has been opened, and something taken from it. -/
  | inside (log : List Taken) (it : Value) (taken : Taken)

/-- **A route, and the routes behind its items**, which a lookahead asks in turn.  They need not be asked to
their ends, and what the sequence at `g` does to its own cursor leaves them alone. -/
structure Explored (h : Host) (g : ℕ) (L : Lookout) (stands : Phase → World → Prop) : Prop where
  item : ∀ {log w x}, stands (.between log) w → L.items.get? log.length = some x →
    ∃ v, h.pull L.source w = .ok (some x) v ∧ stands (.item log) v
  finishes : ∀ {log w}, stands (.between log) w → L.items.get? log.length = none →
    ∃ v, h.pull L.source w = .ok none v ∧ stands (.between log) v
  called : ∀ {log w x}, stands (.item log) w → L.items.get? log.length = some x →
    ∃ r v, h.apply L.f [x] w = .ok r v ∧ stands (.made log r) v
  opened : ∀ {log r w}, stands (.made log r) w →
    ∃ it v, openRoute r w = .ok it v ∧ stands (.inside log it ⟨0, false⟩) v
  more : ∀ {log it n w}, stands (.inside log it ⟨n, false⟩) w → n < L.size log.length →
    ∃ x v, h.pull it w = .ok (some x) v ∧ stands (.inside log it ⟨n + 1, false⟩) v
  ends : ∀ {log it n w}, stands (.inside log it ⟨n, false⟩) w → n = L.size log.length →
    ∃ v, h.pull it w = .ok none v ∧ stands (.inside log it ⟨n, true⟩) v
  left : ∀ {log it taken w}, stands (.inside log it taken) w → stands (.between (log ++ [taken])) w
  moved : ∀ {phase w}, stands phase w → ∀ c, stands phase (w.withCursor g c)
  placed : ∀ {phase w}, stands phase w → g < w.cursors.size
  /-- A route has handed out what it gives. -/
  handed : ∀ {i x}, L.items.get? i = some x → x.unmarked = false

variable {h : Host} {g n i : ℕ} {L : Lookout} {stands : Phase → World → Prop} {u v w : World}
  {x it : Value} {log : List Taken} {negated : Bool}

/-- One step of a filter. -/
theorem stepCursor_select {test : Test} {r : Step Value Value Fault}
    (hr : select h.source (test.holds h) it w = .ok r v) :
    stepCursor h (.select test it) w = .ok (r.map (.select test)) v := by
  change (Step.map (Cursor.select test) <$> select h.source (test.holds h) it : M _) w = _
  rw [map_eq_pure_bind, Act.bind_of_ok hr]
  rfl

namespace Explored

open Classical in
/-- What is counted, if `n` items have been counted before, and `m` more may be. -/
theorem exists_count (hL : Explored h g L stands) (m : ℕ) {n : ℕ} {w : World}
    (hw : stands (.inside log it ⟨n, false⟩) w) (hn : n ≤ L.size log.length) :
    ∃ v, countUpTo h.source m n it w = .ok (min (L.size log.length) (n + m : ℕ)).toNat v ∧
      stands (.inside log it ⟨(min (L.size log.length) (n + m : ℕ)).toNat,
        decide (L.size log.length < (n + m : ℕ))⟩) v := by
  induction m generalizing n w with
  | zero =>
      have hmin : min (L.size log.length) (n + 0 : ℕ) = n := min_eq_right hn
      have hmore : ¬L.size log.length < (n + 0 : ℕ) := not_lt_of_ge hn
      rw [hmin, ENat.toNat_natCast, decide_eq_false hmore]
      exact ⟨w, rfl, hw⟩
  | succ m ih =>
      rcases hn.lt_or_eq with hlt | heq
      · obtain ⟨x, u, hpull, hu⟩ := hL.more hw hlt
        have hle : ((n + 1 : ℕ) : ℕ∞) ≤ L.size log.length := by
          rw [Nat.cast_add, Nat.cast_one]
          exact Order.add_one_le_of_lt hlt
        obtain ⟨v, hcount, hv⟩ := ih hu hle
        rw [Nat.add_right_comm, Nat.add_assoc] at hcount hv
        exact ⟨v, (Act.bind_of_ok (source_of_item hpull)).trans hcount, hv⟩
      · obtain ⟨v, hpull, hv⟩ := hL.ends hw heq
        have hlt : n < n + (m + 1) := by omega
        have hmin : min (n : ℕ∞) (n + (m + 1) : ℕ) = n := min_eq_left (Nat.cast_le.2 hlt.le)
        rw [← heq, hmin, ENat.toNat_natCast, decide_eq_true (Nat.cast_lt.2 hlt)]
        exact ⟨v, (Act.bind_of_ok (source_of_end hpull)).trans rfl, hv⟩

open Classical in
/-- The function is called once about an item, and from the route that it returns no more is taken than what
decides. -/
theorem exists_sizeAllowed (hL : Explored h g L stands) (hw : stands (.item log) w)
    (hx : L.items.get? log.length = some x) (hlimit : (L.limit : ℤ) ≤ sliceLimit) :
    ∃ v, h.sizeAllowed L.bounds (fun x => h.apply L.f [x]) x w =
        .ok (decide (L.Allows (L.size log.length))) v ∧
      stands (.between (log ++ [L.taken log.length])) v := by
  obtain ⟨r, w₁, hmade, hw₁⟩ := hL.called hw hx
  have hchecked : itemCount L.bounds.limit w₁ = .ok L.limit w₁ := by
    rw [Lookout.limit_bounds, itemCount, if_pos ⟨Int.natCast_nonneg _, hlimit⟩, Int.toNat_natCast]
    rfl
  obtain ⟨it, w₂, hopen, hw₂⟩ := hL.opened hw₁
  obtain ⟨v, hcount, hv⟩ := hL.exists_count L.limit hw₂ (by simp)
  rw [Nat.zero_add] at hcount hv
  refine ⟨v, ?_, hL.left hv⟩
  rw [Host.sizeAllowed, lookahead, Act.bind_of_ok hmade, Act.bind_of_ok hchecked, Act.bind_of_ok hopen,
    Act.bind_of_ok hcount, Lookout.admits_eq]
  rfl

open Classical in
/-- **The test of one item.** -/
theorem exists_holds (hL : Explored h g L stands) (hw : stands (.item log) w)
    (hx : L.items.get? log.length = some x) (hlimit : (L.limit : ℤ) ≤ sliceLimit) (negated : Bool) :
    ∃ v, (L.test negated).holds h x w = .ok (decide (L.Keeps negated log.length)) v ∧
      stands (.between (log ++ [L.taken log.length])) v := by
  obtain ⟨v, hsize, hv⟩ := hL.exists_sizeAllowed hw hx hlimit
  refine ⟨v, ?_, hv⟩
  rw [Lookout.test, Test.holds, Act.bind_of_ok ((congrFun (Lookout.looksAhead_eq h x) w).trans hsize)]
  have hkeeps : (decide (L.Allows (L.size log.length)) != negated) =
      decide (L.Keeps negated log.length) := by
    cases negated <;> simp [Lookout.Keeps]
  rw [hkeeps]
  rfl

/-! ### Reads -/

open Classical in
/-- One step over an item: it is given if it is kept. -/
theorem exists_step (hL : Explored h g L stands) (hw : stands (.between (L.log n)) w)
    (hx : L.items.get? n = some x) (hlimit : (L.limit : ℤ) ≤ sliceLimit) (negated : Bool) :
    ∃ v, stepCursor h (L.cursor negated) w =
        .ok (if L.Keeps negated n then .give x (L.cursor negated) else .skip (L.cursor negated)) v ∧
      stands (.between (L.log (n + 1))) v := by
  have hlength : (L.log n).length = n := Lookout.length_log n
  obtain ⟨u, hpull, hu⟩ := hL.item hw (by rwa [hlength])
  obtain ⟨v, hholds, hv⟩ := hL.exists_holds hu (by rwa [hlength]) hlimit negated
  rw [hlength] at hholds hv
  refine ⟨v, ?_, Lookout.log_succ n ▸ hv⟩
  have hselect : select h.source ((L.test negated).holds h) L.source w =
      .ok (if L.Keeps negated n then .give x L.source else .skip L.source) v := by
    rw [select, Act.bind_of_ok (source_of_item hpull)]
    refine (Act.bind_of_ok hholds).trans ?_
    by_cases hkeeps : L.Keeps negated n <;> simp [hkeeps] <;> rfl
  rw [Lookout.cursor, stepCursor_select hselect]
  by_cases hkeeps : L.Keeps negated n <;> simp [hkeeps] <;> rfl

end Explored

end GraphRoutes.Session
