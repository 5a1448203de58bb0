/-
**A guard behind a repeat.**

A guard that has stopped at a repeat is truncated: it asks its source nothing any more, and ends whenever it
is read again.  A guard that fails at a repeat is not.  Its turn is broken off before it marks itself, and it
has moved past the repeat by then; so the next read looks at the next item, as if the repeat had been let
through and taken out.

Main results:

* `GraphRoutes.Session.ends_of_reads` — a guard that is truncated gives nothing any more;
* `GraphRoutes.Session.guard_behind_repeat` — **a guard that has stopped stays so, and one that has failed
  goes on**;
* `GraphRoutes.Session.not_guard_behind_repeat_ends` — a guard that fails at a repeat, and then gives the
  number behind it.
-/
import GraphRoutes.Proofs.Session.Guards

set_option relaxedAutoImplicit false
set_option autoImplicit false

namespace GraphRoutes.Session

open World Value Route

variable {h : Host} {g n : ℕ} {G : Watch} {stands : ℕ → List (Value × ℕ) → World → Prop}
  {u v w : World} {x : Value}

/-- What leaves the cursor at a place where it is. -/
def World.StaysPut (g : ℕ) (u v : World) : Prop := v.cursors[g]? = u.cursors[g]?

/-- A sequence that ends without moving, whatever else has moved, gives nothing, however it is read. -/
theorem ends_of_reads {it : Value} {ys : List Value} (hread : Spaced h it (StaysPut g) w ys v)
    (hend : ∀ u, StaysPut g w u → h.pull it u = .ok none u) : ys = [] ∧ h.pull it v = .ok none v := by
  suffices hall : ys = [] ∧ StaysPut g w v from ⟨hall.1, hend v hall.2⟩
  induction hread with
  | start => exact ⟨rfl, rfl⟩
  | read _ hpull ih => cases hpull.symm.trans (hend _ ih.2)
  | meanwhile _ hbetween ih => exact ⟨ih.1, hbetween.trans ih.2⟩

/-- **A guard that has stopped at a repeat stays so, and one that has failed goes on.**  Behind a repeat at
position `n`, a guard that has stopped ends whenever it is read, whatever has gone on in between that leaves
its cursor alone.  A guard that has failed gives the items from position `n + 1` on, as if it had just come
there. -/
theorem guard_behind_repeat (hw : OnDuty g G stands n w) (hG : Attended h g G stands)
    (hx : G.items.get? n = some x) (hagain : G.Again n) (hfuel : 0 < h.fuel) :
    (G.decision n = some false ∨ G.decision n = none ∧ G.strict = false →
      ∃ v, h.above.pull (.ref .iterator g) w = .ok none v ∧
        ∀ ys u, Spaced h.above (.ref .iterator g) (StaysPut g) v ys u →
          ys = [] ∧ h.above.pull (.ref .iterator g) u = .ok none u) ∧
      (G.decision n = none → G.strict = true →
        ∃ text v, h.above.pull (.ref .iterator g) w = .error (Host.fatal (recurrence x n text)) v ∧
          ∀ ys u, Spaced h.above (.ref .iterator g) (Undisturbed g (Function.uncurry stands)) v ys u →
            ys = (G.items.drop (n + 1)).take ys.length ∧ (∀ i < ys.length, G.Passes (n + 1 + i)) ∧
              OnDuty g G stands (n + 1 + ys.length) u ∧ G.Verdict h g stands (n + 1 + ys.length) u) := by
  refine ⟨fun hstops => ?_, fun hnone hstrict => ?_⟩
  · obtain ⟨v, hpull, -, hlater⟩ := hw.exists_stop hG hx hagain hstops hfuel
    exact ⟨v, hpull, fun ys u hread => ends_of_reads hread fun t ht => (hlater t ht).2⟩
  · obtain ⟨text, v, hpull, hv⟩ := hw.exists_fail hG hx hagain hnone hstrict hfuel
    refine ⟨text, v, hpull, fun ys u hread => ?_⟩
    obtain ⟨hys, hall, hu⟩ := hv.onDuty_of_reads hread hG hfuel
    exact ⟨hys, hall, hu, hu.verdict hG hfuel⟩

/-! ### Numbers at hand, and nobody who decides -/

/-- A guard over numbers without a handler. -/
def unattendedWatch (p : ℕ) (ns : List ℤ) (strict : Bool) : Watch :=
  { numbersWatch p 0 ns true strict with handler := .null }

theorem attended_unattended {k : Host} {p : ℕ} (hfuel : 0 < k.fuel) {ns : List ℤ}
    (hns : ∀ m ∈ ns, m.natAbs < numberLimit) (strict : Bool) (hg : p ≠ g) :
    Attended k.above g (unattendedWatch p ns strict) (numbersStand p 0 ns true) :=
  { attended_numbers (q := 0) hfuel hns true strict hg with
    asked := fun _ _ hnull => absurd rfl hnull }

/-- Where a number comes twice at the beginning, the second one is a repeat. -/
theorem again_unattended (p : ℕ) (m : ℤ) (ns : List ℤ) (strict : Bool) :
    (unattendedWatch p (m :: m :: ns) strict).Again 1 :=
  ⟨0, Nat.zero_lt_one, .int m, .int m, rfl, rfl, rfl⟩

/-- A guard that has just been opened gives the first number. -/
theorem exists_first_unattended {k : Host} (hk : 0 < k.fuel) {m : ℤ} {ns : List ℤ}
    (hns : ∀ l ∈ m :: ns, l.natAbs < numberLimit) (strict : Bool) :
    let u : World := { deciding true with cursors := #[.items .tuple ((m :: ns).map Value.int)] }
    let G := unattendedWatch 0 (m :: ns) strict
    ∃ v, k.above.above.pull (.ref .iterator 1) (u.guarding G.source .null strict) = .ok (some (.int m)) v ∧
      OnDuty 1 G (numbersStand 0 0 (m :: ns) true) 1 v := by
  intro u G
  have hopened : OnDuty 1 G (numbersStand 0 0 (m :: ns) true) 0 (u.guarding G.source .null strict) :=
    onDuty_guarding (w := u) (G := G) ⟨rfl, rfl⟩
  have hpasses : G.Passes 0 := ⟨rfl, fun ⟨j, hj, _⟩ => absurd hj (Nat.not_lt_zero j)⟩
  exact hopened.exists_pass (attended_unattended hk hns strict (by decide)) rfl hpasses hk

/-- Short numbers. -/
theorem short_numbers : ∀ m ∈ ([1, 1, 2] : List ℤ), m.natAbs < numberLimit := by
  have hshort : ∀ m ∈ ([1, 1, 2] : List ℤ), m.natAbs < 10 := by decide
  exact fun m hm => lt_numberLimit (hshort m hm)

/-- Of the numbers 1, 1, 2, a guard that truncates gives one, and nothing any more. -/
theorem guard_behind_repeat_truncated :
    ∃ w v u, (host 4).callOp .truncateOnRepeat [.tuple [.int 1, .int 1, .int 2] none] [] (deciding true) =
        .ok (.ref .iterator 1) w ∧
      (host 4).pull (.ref .iterator 1) w = .ok (some (.int 1)) v ∧
      (host 4).pull (.ref .iterator 1) v = .ok none u ∧
      ∀ ys t, Spaced (host 4) (.ref .iterator 1) (StaysPut 1) u ys t →
        ys = [] ∧ (host 4).pull (.ref .iterator 1) t = .ok none t := by
  obtain ⟨v, hfirst, hv⟩ := exists_first_unattended (k := host 2) (by decide) short_numbers false
  obtain ⟨u, hstop, hlater⟩ := (guard_behind_repeat hv
    (attended_unattended (k := host 2) (by decide) short_numbers false (by decide)) rfl
    (again_unattended 0 1 [2] false) (by decide)).1 (.inr ⟨rfl, rfl⟩)
  exact ⟨_, v, u, rfl, hfirst, hstop, hlater⟩

/-- Of the numbers 1, 1, 2, a guard that fails at the second one gives the third one afterwards. -/
theorem not_guard_behind_repeat_ends :
    ∃ w v u t text, (host 4).callOp .failOnRepeat [.tuple [.int 1, .int 1, .int 2] none, .null] []
        (deciding true) = .ok (.ref .iterator 1) w ∧
      (host 4).pull (.ref .iterator 1) w = .ok (some (.int 1)) v ∧
      (host 4).pull (.ref .iterator 1) v = .error (Host.fatal (recurrence (.int 1) 1 text)) u ∧
      (host 4).pull (.ref .iterator 1) u = .ok (some (.int 2)) t := by
  have hattended : Attended (host 3) 1 (unattendedWatch 0 [1, 1, 2] true) (numbersStand 0 0 [1, 1, 2] true) :=
    attended_unattended (k := host 2) (by decide) short_numbers true (by decide)
  obtain ⟨v, hfirst, hv⟩ := exists_first_unattended (k := host 2) (by decide) short_numbers true
  obtain ⟨text, u, hfail, hu⟩ :=
    hv.exists_fail hattended rfl (again_unattended 0 1 [2] true) rfl rfl (by decide)
  have hnew : ¬(unattendedWatch 0 [1, 1, 2] true).Again 2 := by
    rintro ⟨j, hj, x, y, hx, hy, hkeys⟩
    cases hy
    rcases (by omega : j = 0 ∨ j = 1) with rfl | rfl <;> cases hx <;> cases hkeys
  obtain ⟨t, hgives, -⟩ := hu.exists_pass hattended rfl ⟨rfl, fun hagain => absurd hagain hnew⟩ (by decide)
  exact ⟨_, v, u, t, text, rfl, hfirst, hfail, hgives⟩

end GraphRoutes.Session
