/-
**Where a test begins to hold.**

A test on positions that fails up to some point and holds from there on has a boundary: the first
position at which it holds.  Halving finds it between two positions.  Galloping looks for it from a
hint, in strides that double, and halves the last stride, so it is quick if the boundary is near the
hint.  A test may also fail, or have no boundary; then the answer depends on the positions that are
asked, so these are fixed.

Main definitions:

* `GraphRoutes.Sorting.halve` — the boundary between two positions;
* `GraphRoutes.Sorting.stride`, `GraphRoutes.Sorting.gallop` — the boundary from a hint on.

Main results:

* `GraphRoutes.Sorting.halve_eq`, `GraphRoutes.Sorting.gallop_eq` — a boundary is found.
-/

set_option relaxedAutoImplicit false
set_option autoImplicit false

namespace GraphRoutes.Sorting

variable {ε : Type}

/-- The boundary of a test that does not hold in front of `low` and holds from `high` on. -/
def halve (test : Nat → Except ε Bool) (low high : Nat) : Except ε Nat := do
  if _h : low < high then
    let middle := low + (high - low) / 2
    if ← test middle then halve test low middle else halve test (middle + 1) high
  else
    .ok low
  termination_by high - low
  decreasing_by all_goals omega

/-- Strides that double, as long as nothing is `found` in front of the limit: the end of the last
stride but one, and the end of the last. -/
def stride (found : Nat → Except ε Bool) (limit last next : Nat) : Except ε (Nat × Nat) := do
  if _h : next < limit then
    if ← found next then .ok (last, next) else stride found limit next (2 * next + 1)
  else
    .ok (last, limit)
  termination_by limit - next

/-- The boundary of a test among so many positions, looked for from a hint on. -/
def gallop (test : Nat → Except ε Bool) (count hint : Nat) : Except ε Nat := do
  if ← test hint then
    let missed (d : Nat) : Except ε Bool := do
      let held ← test (hint - d)
      .ok !held
    let (near, far) ← stride missed (hint + 1) 0 1
    halve test (hint + 1 - far) (hint - near)
  else
    let (near, far) ← stride (fun d => test (hint + d)) (count - hint) 0 1
    halve test (hint + near + 1) (hint + far)

/-- Halving finds the boundary. -/
theorem halve_eq {test : Nat → Except ε Bool} {b : Nat}
    (h : ∀ p, test p = .ok (decide (b ≤ p))) {low high : Nat} (hl : low ≤ b) (hh : b ≤ high) :
    halve test low high = .ok b := by
  induction low, high using halve.induct with
  | case1 low high hlt middle ihLow ihHigh =>
    rw [halve, dif_pos hlt]
    show (test middle >>= _) = _
    rw [h]
    by_cases hm : b ≤ middle
    · simpa [hm, bind, Except.bind] using ihLow hl hm
    · simpa [hm, bind, Except.bind] using ihHigh (by omega) hh
  | case2 low high hlt =>
    rw [halve, dif_neg hlt]
    congr 1
    omega

/-- What is found from the distance `m` on lies between the ends of the last two strides, unless the
limit is in front of it. -/
theorem stride_eq {found : Nat → Except ε Bool} {limit m : Nat}
    (h : ∀ d, d < limit → found d = .ok (decide (m ≤ d))) {last next : Nat} (hm : last < m) :
    ∃ near far, stride found limit last next = .ok (near, far) ∧ near < m
      ∧ (m ≤ far ∨ far = limit) := by
  induction last, next using stride.induct limit with
  | case1 last next hlt ih =>
    rw [stride, dif_pos hlt, h next hlt]
    by_cases hn : m ≤ next
    · exact ⟨last, next, by simp [hn, bind, Except.bind], hm, .inl hn⟩
    · simpa [hn, bind, Except.bind] using ih (by omega)
  | case2 last next hlt =>
    exact ⟨last, limit, by rw [stride, dif_neg hlt], hm, .inr rfl⟩

/-- Galloping finds the boundary. -/
theorem gallop_eq {test : Nat → Except ε Bool} {b count hint : Nat}
    (h : ∀ p, test p = .ok (decide (b ≤ p))) (hb : b ≤ count) (hh : hint < count) :
    gallop test count hint = .ok b := by
  by_cases hit : b ≤ hint
  · have missed : ∀ d, d < hint + 1 → (do
        let held ← test (hint - d)
        .ok !held : Except ε Bool) = .ok (decide (hint - b + 1 ≤ d)) := fun d hd => by
      have : (!decide (b ≤ hint - d)) = decide (hint - b + 1 ≤ d) := by
        rw [← decide_not]
        exact decide_eq_decide.2 (by omega)
      simp [h, bind, Except.bind, this]
    have start : 0 < hint - b + 1 := by omega
    obtain ⟨near, far, hs, hn, hf⟩ := @stride_eq ε _ _ _ missed 0 1 start
    simp only [gallop, h, hit, decide_true, bind, Except.bind, if_true]
    simp only [bind, Except.bind, h] at hs
    rw [hs]
    exact halve_eq h (by omega) (by omega)
  · have reached : ∀ d, d < count - hint →
        test (hint + d) = .ok (decide (b - hint ≤ d)) := fun d _ => by
      rw [h]
      congr 1
      exact decide_eq_decide.2 (by omega)
    have start : 0 < b - hint := by omega
    obtain ⟨near, far, hs, hn, hf⟩ := @stride_eq ε _ _ _ reached 0 1 start
    simp only [gallop, h, hit, decide_false, bind, Except.bind]
    simp only [h] at hs
    rw [if_neg (by simp), hs]
    exact halve_eq h (by omega) (by omega)

end GraphRoutes.Sorting
