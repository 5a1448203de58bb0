/-
**A search asks inside its bounds only.**

To find where a test begins to hold, halving and galloping ask at positions in front of a count, and
nowhere else.  So a boundary is found if the test has one among these positions, whatever it says behind
them; and a list in which the test never fails again once it has held is cut in two by its boundary.

Main results:

* `GraphRoutes.Sorting.gallop_congr` — a search does not ask behind its count;
* `GraphRoutes.Sorting.exists_cut` — a list is cut where a test begins to hold;
* `GraphRoutes.Sorting.exists_halve`, `GraphRoutes.Sorting.exists_gallop` — **the cut is found**.
-/
import GraphRoutes.Sorting.Boundary

set_option relaxedAutoImplicit false
set_option autoImplicit false

namespace GraphRoutes.Sorting

variable {ε β : Type} {test test' : Nat → Except ε Bool}

/-! ### Where a search asks -/

theorem halve_congr {low high : Nat} (h : ∀ p, low ≤ p → p < high → test p = test' p) :
    halve test low high = halve test' low high := by
  induction low, high using halve.induct with
  | case1 low high hlt middle ihLow ihHigh =>
      have hmiddle : low ≤ middle ∧ middle < high := by omega
      have hlow : halve test low middle = halve test' low middle :=
        ihLow fun p hp hp' => h p hp (by omega)
      have hhigh : halve test (middle + 1) high = halve test' (middle + 1) high :=
        ihHigh fun p hp hp' => h p (by omega) hp'
      rw [halve, dif_pos hlt, halve, dif_pos hlt]
      change (test middle >>= _) = (test' middle >>= _)
      rw [h middle hmiddle.1 hmiddle.2]
      exact congrArg (test' middle >>= ·) (funext fun held => by rw [hlow, hhigh])
  | case2 low high hlt => rw [halve, dif_neg hlt, halve, dif_neg hlt]

theorem stride_congr {found found' : Nat → Except ε Bool} {limit : Nat}
    (h : ∀ d, d < limit → found d = found' d) (last next : Nat) :
    stride found limit last next = stride found' limit last next := by
  induction last, next using stride.induct limit with
  | case1 last next hlt ih =>
      conv => lhs; rw [stride, dif_pos hlt, h next hlt]
      conv => rhs; rw [stride, dif_pos hlt]
      exact congrArg (found' next >>= ·) (funext fun held => by rw [ih])
  | case2 last next hlt => rw [stride, dif_neg hlt, stride, dif_neg hlt]

/-- The last stride ends at the limit at the latest. -/
theorem far_le_of_stride {found : Nat → Except ε Bool} {limit last next near far : Nat}
    (h : stride found limit last next = .ok (near, far)) : far ≤ limit := by
  induction last, next using stride.induct limit with
  | case1 last next hlt ih =>
      rw [stride, dif_pos hlt] at h
      rcases hfound : found next with e | held
      · rw [hfound] at h; cases h
      · rw [hfound] at h
        cases held with
        | true => cases h; exact Nat.le_of_lt hlt
        | false => exact ih h
  | case2 last next hlt =>
      rw [stride, dif_neg hlt] at h
      cases h
      exact Nat.le_refl limit

/-- **A search does not ask behind its count.** -/
theorem gallop_congr {count hint : Nat} (h : ∀ p, p < count → test p = test' p) (hh : hint < count) :
    gallop test count hint = gallop test' count hint := by
  have hback : stride (fun d => do
        let held ← test (hint - d)
        .ok !held) (hint + 1) 0 1 = stride (fun d => do
        let held ← test' (hint - d)
        .ok !held) (hint + 1) 0 1 :=
    stride_congr (fun d _ => by rw [h (hint - d) (by omega)]) 0 1
  have hforth : stride (fun d => test (hint + d)) (count - hint) 0 1 =
      stride (fun d => test' (hint + d)) (count - hint) 0 1 :=
    stride_congr (fun d hd => h (hint + d) (by omega)) 0 1
  rw [gallop, gallop, h hint hh]
  refine congrArg (test' hint >>= ·) (funext fun held => ?_)
  cases held with
  | true =>
      simp only [if_true, hback]
      refine congrArg (Except.bind _) (funext fun ends => ?_)
      exact halve_congr fun p _ hp => h p (by omega)
  | false =>
      simp only [Bool.false_eq_true, if_false, hforth]
      cases hstride : stride (fun d => test' (hint + d)) (count - hint) 0 1 with
      | error e => rfl
      | ok ends =>
          have hfar : ends.2 ≤ count - hint := far_le_of_stride hstride
          exact halve_congr fun p _ hp => h p (by omega)

/-! ### Cutting a list -/

variable {Q : β → Prop} [DecidablePred Q] {xs : List β}

/-- **A list is cut where a test begins to hold**, if it never fails again. -/
theorem exists_cut (hmono : xs.Pairwise fun x y => Q x → Q y) :
    ∃ n, n ≤ xs.length ∧ (∀ x ∈ xs.take n, ¬Q x) ∧ ∀ x ∈ xs.drop n, Q x := by
  induction xs with
  | nil => exact ⟨0, Nat.le_refl 0, nofun, nofun⟩
  | cons x xs ih =>
      rw [List.pairwise_cons] at hmono
      by_cases hx : Q x
      · exact ⟨0, Nat.zero_le _, nofun,
          List.forall_mem_cons.2 ⟨hx, fun y hy => hmono.1 y hy hx⟩⟩
      · obtain ⟨n, hn, htake, hdrop⟩ := ih hmono.2
        exact ⟨n + 1, Nat.succ_le_succ hn, List.forall_mem_cons.2 ⟨hx, htake⟩, hdrop⟩

/-- At which side of a cut a position lies is told by the test. -/
theorem decide_of_cut {n p : Nat} (htake : ∀ x ∈ xs.take n, ¬Q x) (hdrop : ∀ x ∈ xs.drop n, Q x)
    (hp : p < xs.length) : decide (Q xs[p]) = decide (n ≤ p) := by
  refine decide_eq_decide.2 ⟨fun hq => ?_, fun hn => ?_⟩
  · by_cases hn : n ≤ p
    · exact hn
    · exact absurd hq (htake _ (List.mem_take_iff_getElem.2 ⟨p, by omega, rfl⟩))
  · exact hdrop _ (List.mem_drop_iff_getElem.2 ⟨p - n, by omega, by simp [Nat.add_sub_cancel' hn]⟩)

/-- **The cut is found by halving.** -/
theorem exists_halve (hmono : xs.Pairwise fun x y => Q x → Q y)
    (htest : ∀ p (hp : p < xs.length), test p = .ok (decide (Q xs[p]))) :
    ∃ n, halve test 0 xs.length = .ok n ∧ n ≤ xs.length ∧ (∀ x ∈ xs.take n, ¬Q x) ∧
      ∀ x ∈ xs.drop n, Q x := by
  obtain ⟨n, hn, htake, hdrop⟩ := exists_cut hmono
  have hsame : halve test 0 xs.length = halve (fun p => .ok (decide (n ≤ p))) 0 xs.length :=
    halve_congr fun p _ hp => (htest p hp).trans (congrArg Except.ok (decide_of_cut htake hdrop hp))
  exact ⟨n, hsame.trans (halve_eq (fun _ => rfl) (Nat.zero_le n) hn), hn, htake, hdrop⟩

/-- **The cut is found by galloping**, from whatever hint. -/
theorem exists_gallop (hmono : xs.Pairwise fun x y => Q x → Q y)
    (htest : ∀ p (hp : p < xs.length), test p = .ok (decide (Q xs[p]))) {hint : Nat}
    (hhint : hint < xs.length) :
    ∃ n, gallop test xs.length hint = .ok n ∧ n ≤ xs.length ∧ (∀ x ∈ xs.take n, ¬Q x) ∧
      ∀ x ∈ xs.drop n, Q x := by
  obtain ⟨n, hn, htake, hdrop⟩ := exists_cut hmono
  have hsame : gallop test xs.length hint = gallop (fun p => .ok (decide (n ≤ p))) xs.length hint :=
    gallop_congr (fun p hp =>
      (htest p hp).trans (congrArg Except.ok (decide_of_cut htake hdrop hp))) hhint
  exact ⟨n, hsame.trans (gallop_eq (fun _ => rfl) hn hhint), hn, htake, hdrop⟩

end GraphRoutes.Sorting
