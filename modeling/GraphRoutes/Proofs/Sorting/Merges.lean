/-
**Two runs in order are merged into one.**

A merge goes on from one tip of two runs: from the front, or from the back.  Seen from there, items come in
an order, which is the order of their ranks at the front and the opposite order at the back.  One of the
runs is the keeper: its far end was cut so that its last item comes behind the whole other run.  As long as
more than one item of the keeper is left, and anything of the other run, the merge goes on, and what has
been taken comes before all that is left; then the rest of the other run and the rest of the keeper follow.

How many items are taken at a time, and when galloping begins, does not matter to any of this.  It is
enough that items are taken which come before all of the other run.

Main definitions:

* `GraphRoutes.Sorting.Decides` — a test that compares keys by the ranks of their items;
* `GraphRoutes.Sorting.Tip.seen`, `GraphRoutes.Sorting.Tip.Comes` — lists and their order, from a tip;
* `GraphRoutes.Sorting.Halfway` — a merge that is going on, as lists;
* `GraphRoutes.Sorting.Merging.Sound` — a merge that is going on as it should.

Main results:

* `GraphRoutes.Sorting.Halfway.takeKeeper`, `GraphRoutes.Sorting.Halfway.takeOther` — one step;
* `GraphRoutes.Sorting.Merging.Sound.exists_run` — a whole merge;
* `GraphRoutes.Sorting.exists_mergeRuns` — **two runs in order are one run in order**.
-/
import GraphRoutes.Proofs.Sorting.Boundaries
import GraphRoutes.Sorting.Merge
import Mathlib.Order.Lattice

set_option relaxedAutoImplicit false
set_option autoImplicit false

namespace GraphRoutes.Sorting

variable {ε key α β ρ : Type} [LinearOrder ρ]

/-- A test compares the keys of items by the ranks of the items; it does not fail. -/
def Decides (lt : Less ε key) (rank : key × α → ρ) (xs : List (key × α)) : Prop :=
  ∀ x ∈ xs, ∀ y ∈ xs, lt x.1 y.1 = .ok (decide (rank x < rank y))

/-- Items are in the order of their ranks. -/
def InOrder (rank : β → ρ) (xs : List β) : Prop := xs.Pairwise fun x y => rank x ≤ rank y

namespace InOrder

variable {rank : β → ρ} {xs ys : List β} {x : β}

theorem append (hx : InOrder rank xs) (hy : InOrder rank ys)
    (hxy : ∀ x ∈ xs, ∀ y ∈ ys, rank x ≤ rank y) : InOrder rank (xs ++ ys) :=
  List.pairwise_append.2 ⟨hx, hy, hxy⟩

theorem drop (h : InOrder rank xs) {n : ℕ} : InOrder rank (xs.drop n) := List.Pairwise.drop h

theorem take (h : InOrder rank xs) {n : ℕ} : InOrder rank (xs.take n) := List.Pairwise.take h

/-- Nothing comes behind the last item. -/
theorem le_getLast (h : InOrder rank xs) (hx : xs.getLast? = some x) : ∀ y ∈ xs, rank y ≤ rank x := by
  obtain ⟨ys, rfl⟩ := List.getLast?_eq_some_iff.1 hx
  intro y hy
  rcases List.mem_append.1 hy with hy | hy
  · exact (List.pairwise_append.1 h).2.2 y hy x (List.mem_singleton_self x)
  · rw [List.mem_singleton.1 hy]

/-- Nothing comes before the first item. -/
theorem head_le (h : InOrder rank xs) (hx : xs.head? = some x) : ∀ y ∈ xs, rank x ≤ rank y := by
  obtain ⟨ys, rfl⟩ := List.head?_eq_some_iff.1 hx
  exact List.forall_mem_cons.2 ⟨le_rfl, fun y hy => List.rel_of_pairwise_cons h hy⟩

end InOrder

theorem Decides.mono {lt : Less ε key} {rank : key × α → ρ} {xs ys : List (key × α)}
    (h : Decides lt rank xs) (hsub : ys ⊆ xs) : Decides lt rank ys :=
  fun x hx y hy => h x (hsub hx) y (hsub hy)

/-- A key is compared with that of the item at a position. -/
theorem belowAt_eq {lt : Less ε key} {rank : key × α → ρ} {xs : Array (key × α)} {p : ℕ} {y z : key × α}
    (hz : xs[p]? = some z) (hlt : lt y.1 z.1 = .ok (decide (rank y < rank z))) :
    belowAt lt y.1 xs p = .ok (decide (rank y < rank z)) := by
  rw [belowAt, hz]
  exact hlt

theorem notBelowAt_eq {lt : Less ε key} {rank : key × α → ρ} {xs : Array (key × α)} {p : ℕ}
    {x z : key × α} (hz : xs[p]? = some z) (hlt : lt z.1 x.1 = .ok (decide (rank z < rank x))) :
    Merging.notBelowAt lt xs x.1 p = .ok (decide (¬rank z < rank x)) := by
  rw [Merging.notBelowAt, hz]
  change lt z.1 x.1 >>= _ = _
  rw [hlt]
  exact congrArg Except.ok (Bool.eq_iff_iff.2 (by simp))

/-! ### Tips -/

namespace Tip

/-- The items of a list, one after the other, from a tip. -/
def seen : Tip → List β → List β
  | .front, xs => xs
  | .back, xs => xs.reverse

/-- An item may come before another, from a tip. -/
def Comes (rank : β → ρ) : Tip → β → β → Prop
  | .front, x, y => rank x ≤ rank y
  | .back, x, y => rank y ≤ rank x

variable {rank : β → ρ} {tip : Tip} {x y z : β} {xs : List β}

theorem Comes.trans (hxy : tip.Comes rank x y) (hyz : tip.Comes rank y z) : tip.Comes rank x z := by
  cases tip with
  | front => exact le_trans hxy hyz
  | back => exact le_trans hyz hxy

theorem comes_of_not (h : ¬tip.Comes rank y x) : tip.Comes rank x y := by
  cases tip with
  | front => exact le_of_not_ge h
  | back => exact le_of_not_ge h

theorem length_seen (tip : Tip) (xs : List β) : (tip.seen xs).length = xs.length := by
  cases tip with
  | front => rfl
  | back => exact List.length_reverse

theorem mem_seen : x ∈ tip.seen xs ↔ x ∈ xs := by
  cases tip with
  | front => rfl
  | back => exact List.mem_reverse

theorem perm_seen (tip : Tip) (xs : List β) : (tip.seen xs).Perm xs := by
  cases tip with
  | front => exact .refl xs
  | back => exact xs.reverse_perm

theorem pairwise_seen : (tip.seen xs).Pairwise (tip.Comes rank) ↔ InOrder rank xs := by
  cases tip with
  | front => rfl
  | back => exact List.pairwise_reverse

/-- What comes before the first item of a list in order comes before all of them. -/
theorem Comes.of_head (hx : tip.Comes rank x y) (hys : (y :: xs).Pairwise (tip.Comes rank)) :
    ∀ z ∈ y :: xs, tip.Comes rank x z :=
  List.forall_mem_cons.2 ⟨hx, fun _ hz => hx.trans (List.rel_of_pairwise_cons hys hz)⟩

end Tip

/-! ### What is left of a run -/

namespace Rest

/-- What is left of a run stands in it. -/
structure Fits (r : Rest β) : Prop where
  low_le : r.low ≤ r.high
  high_le : r.high ≤ r.items.size

/-- What is left of a run, from a tip. -/
def seen (r : Rest β) (tip : Tip) : List β := tip.seen r.toArray.toList

variable {r : Rest β} {n : ℕ} {tip : Tip}

theorem toList_toArray (r : Rest β) :
    r.toArray.toList = (r.items.toList.drop r.low).take (r.high - r.low) := by
  rw [toArray, Array.toList_extract]

namespace Fits

theorem length_toArray (h : r.Fits) : r.toArray.toList.length = r.count := by
  have := h.low_le
  have := h.high_le
  rw [toList_toArray, List.length_take, List.length_drop, Array.length_toList, count]
  omega

theorem length_seen (h : r.Fits) (tip : Tip) : (r.seen tip).length = r.count :=
  (tip.length_seen _).trans h.length_toArray

/-- An item that is left stands where it stood in the run. -/
theorem getElem?_items (h : r.Fits) {p : ℕ} (hp : p < r.count) :
    r.items[r.low + p]? = r.toArray.toList[p]? := by
  have := h.low_le
  rw [count] at hp
  rw [toList_toArray, List.getElem?_take_of_lt hp, List.getElem?_drop, Array.getElem?_toList]

theorem next?_eq (h : r.Fits) (hcount : 0 < r.count) : r.next? tip = (r.seen tip).head? := by
  have := h.low_le
  cases tip with
  | front =>
      have hat := h.getElem?_items hcount
      rw [Nat.add_zero] at hat
      rw [next?, hat, seen, Tip.seen, List.head?_eq_getElem?]
  | back =>
      have hlast : r.high - 1 = r.low + (r.count - 1) := by
        rw [count] at hcount ⊢
        omega
      rw [next?, hlast, h.getElem?_items (by omega), seen, Tip.seen, List.head?_reverse,
        List.getLast?_eq_getElem?, h.length_toArray]

theorem toList_taken (h : r.Fits) (hn : n ≤ r.count) : (r.taken n tip).toList = (r.seen tip).take n := by
  have := h.low_le
  rw [count] at hn
  cases tip with
  | front =>
      rw [taken, Array.toList_extract, List.extract_eq_take_drop, seen, Tip.seen, toList_toArray,
        List.take_take, Nat.add_sub_cancel_left, Nat.min_eq_left hn]
  | back =>
      have hlength := h.length_toArray
      rw [taken, Array.toList_reverse, Array.toList_extract, List.extract_eq_take_drop, seen, Tip.seen,
        List.take_reverse, hlength, toList_toArray, List.drop_take, List.drop_drop, count]
      congr 2
      · omega
      · congr 1
        omega

theorem seen_without (h : r.Fits) (hn : n ≤ r.count) :
    (r.without n tip).seen tip = (r.seen tip).drop n := by
  have := h.low_le
  rw [count] at hn
  cases tip with
  | front =>
      simp only [seen, Tip.seen, without, toList_toArray, List.drop_take, List.drop_drop]
      congr 1
      omega
  | back =>
      have hlength := h.length_toArray
      rw [seen, seen, Tip.seen, Tip.seen, List.drop_reverse, hlength, toList_toArray, toList_toArray,
        List.take_take, count]
      simp only [without]
      congr 2
      omega

protected theorem without (h : r.Fits) (hn : n ≤ r.count) : (r.without n tip).Fits := by
  have := h.low_le
  have := h.high_le
  rw [count] at hn
  cases tip with
  | front => exact ⟨by simp only [Rest.without]; omega, h.high_le⟩
  | back => exact ⟨by simp only [Rest.without]; omega, by simp only [Rest.without]; omega⟩

theorem count_without (h : r.Fits) (hn : n ≤ r.count) : (r.without n tip).count = r.count - n := by
  rw [← (h.without hn).length_seen tip, h.seen_without hn, List.length_drop, h.length_seen]

end Fits

end Rest

/-! ### Halfway through a merge -/

/-- A merge that is going on, as lists from its tip: what has been merged, what is left of the keeper, and
what is left of the other run.  What has been merged is in order and comes before all that is left; what
is left of each run is in order; and the last item of the keeper comes behind the other run. -/
structure Halfway (comes : β → β → Prop) (items merged keeper other : List β) : Prop where
  perm : (merged ++ (keeper ++ other)).Perm items
  merged_inOrder : merged.Pairwise comes
  keeper_inOrder : keeper.Pairwise comes
  other_inOrder : other.Pairwise comes
  first : ∀ x ∈ merged, ∀ y ∈ keeper ++ other, comes x y
  last : ∃ z, keeper.getLast? = some z ∧ ∀ y ∈ other, ¬comes z y

namespace Halfway

variable {comes : β → β → Prop} {items merged keeper other : List β} {n : ℕ}

/-- **Items of the keeper are taken**: not all of them, and each comes before the other run. -/
theorem takeKeeper (h : Halfway comes items merged keeper other) (hn : n < keeper.length)
    (htaken : ∀ x ∈ keeper.take n, ∀ y ∈ other, comes x y) :
    Halfway comes items (merged ++ keeper.take n) (keeper.drop n) other := by
  have hkeeper := h.keeper_inOrder
  rw [← List.take_append_drop n keeper, List.pairwise_append] at hkeeper
  obtain ⟨z, hz, hother⟩ := h.last
  refine ⟨?_, ?_, hkeeper.2.1, h.other_inOrder, ?_, z, ?_, hother⟩
  · rw [List.append_assoc, ← List.append_assoc (keeper.take n), List.take_append_drop]
    exact h.perm
  · refine List.pairwise_append.2 ⟨h.merged_inOrder, hkeeper.1, fun x hx y hy => ?_⟩
    exact h.first x hx y (List.mem_append_left _ (List.mem_of_mem_take hy))
  · intro x hx y hy
    rcases List.mem_append.1 hx with hx | hx
    · refine h.first x hx y ?_
      rcases List.mem_append.1 hy with hy | hy
      · exact List.mem_append_left _ (List.mem_of_mem_drop hy)
      · exact List.mem_append_right _ hy
    · rcases List.mem_append.1 hy with hy | hy
      · exact hkeeper.2.2 x hx y hy
      · exact htaken x hx y hy
  · rw [List.getLast?_drop, if_neg (Nat.not_le_of_lt hn), hz]

/-- **Items of the other run are taken**: each comes before the keeper. -/
theorem takeOther (h : Halfway comes items merged keeper other)
    (htaken : ∀ y ∈ other.take n, ∀ x ∈ keeper, comes y x) :
    Halfway comes items (merged ++ other.take n) keeper (other.drop n) := by
  have hother := h.other_inOrder
  rw [← List.take_append_drop n other, List.pairwise_append] at hother
  obtain ⟨z, hz, hlast⟩ := h.last
  refine ⟨?_, ?_, h.keeper_inOrder, hother.2.1, ?_, z, hz,
    fun y hy => hlast y (List.mem_of_mem_drop hy)⟩
  · -- the items that are taken are moved in front of the keeper
    have hmoved : (other.take n ++ (keeper ++ other.drop n)).Perm (keeper ++ other) := by
      calc (other.take n ++ (keeper ++ other.drop n)).Perm (keeper ++ (other.take n ++ other.drop n)) :=
            List.perm_append_comm_assoc _ _ _
        _ = keeper ++ other := by rw [List.take_append_drop]
    rw [List.append_assoc]
    exact (hmoved.append_left merged).trans h.perm
  · refine List.pairwise_append.2 ⟨h.merged_inOrder, hother.1, fun x hx y hy => ?_⟩
    exact h.first x hx y (List.mem_append_right _ (List.mem_of_mem_take hy))
  · intro x hx y hy
    rcases List.mem_append.1 hx with hx | hx
    · refine h.first x hx y ?_
      rcases List.mem_append.1 hy with hy | hy
      · exact List.mem_append_left _ hy
      · exact List.mem_append_right _ (List.mem_of_mem_drop hy)
    · rcases List.mem_append.1 hy with hy | hy
      · exact htaken x hx y hy
      · exact hother.2.2 x hx y hy

/-- The keeper is never taken whole, for its last item comes behind the other run. -/
theorem lt_length (h : Halfway comes items merged keeper other) {y : β} (hy : y ∈ other)
    (htaken : ∀ x ∈ keeper.take n, comes x y) : n < keeper.length := by
  obtain ⟨z, hz, hlast⟩ := h.last
  by_contra hn
  rw [List.take_of_length_le (Nat.le_of_not_lt hn)] at htaken
  exact hlast y hy (htaken z (List.mem_of_getLast? hz))

theorem keeper_ne_nil (h : Halfway comes items merged keeper other) : keeper ≠ [] := by
  obtain ⟨z, hz, -⟩ := h.last
  rintro rfl
  cases hz

/-- **In the end** the rest of the other run follows, and then the rest of the keeper. -/
theorem inOrder (h : Halfway comes items merged keeper other)
    (htotal : ∀ x y, ¬comes y x → comes x y) (hover : other = [] ∨ keeper.length ≤ 1) :
    (merged ++ (other ++ keeper)).Pairwise comes ∧ (merged ++ (other ++ keeper)).Perm items := by
  obtain ⟨z, hz, hlast⟩ := h.last
  refine ⟨List.pairwise_append.2 ⟨h.merged_inOrder, List.pairwise_append.2
    ⟨h.other_inOrder, h.keeper_inOrder, fun y hy x hx => ?_⟩, fun x hx y hy => ?_⟩, ?_⟩
  · rcases hover with rfl | hover
    · cases hy
    · -- the one item that is left of the keeper is its last one
      have hone : keeper = [z] := by
        cases keeper with
        | nil => cases hz
        | cons a keeper =>
            obtain rfl : keeper = [] := List.length_eq_zero_iff.1 (by simpa using hover)
            exact congrArg (fun z => [z]) (Option.some.inj hz)
      rw [hone, List.mem_singleton] at hx
      exact htotal y x (hx ▸ hlast y hy)
  · rw [List.mem_append, or_comm, ← List.mem_append] at hy
    exact h.first x hx y hy
  · exact (List.perm_append_comm.append_left merged).trans h.perm

end Halfway

/-! ### Merges -/

namespace Merging

/-- The run whose far end was cut. -/
def keeper (m : Merging β) : Rest β :=
  match m.tip with
  | .front => m.left
  | .back => m.right

/-- The run that is not the keeper. -/
def other (m : Merging β) : Rest β :=
  match m.tip with
  | .front => m.right
  | .back => m.left

section

variable {m : Merging β}

theorem keeper_of_front (h : m.tip = .front) : m.keeper = m.left := by rw [keeper, h]

theorem keeper_of_back (h : m.tip = .back) : m.keeper = m.right := by rw [keeper, h]

theorem other_of_front (h : m.tip = .front) : m.other = m.right := by rw [other, h]

theorem other_of_back (h : m.tip = .back) : m.other = m.left := by rw [other, h]

end

/-- A merge of items that is going on as it should. -/
structure Sound (rank : β → ρ) (items : List β) (m : Merging β) : Prop where
  left_fits : m.left.Fits
  right_fits : m.right.Fits
  halfway : Halfway (m.tip.Comes rank) items m.merged.toList (m.keeper.seen m.tip)
    (m.other.seen m.tip)

/-- How many items are left. -/
def remaining (m : Merging β) : ℕ := m.left.count + m.right.count

namespace Sound

variable {rank : β → ρ} {items : List β} {m : Merging β} {n : ℕ}

theorem left_inOrder (h : m.Sound rank items) : (m.left.seen m.tip).Pairwise (m.tip.Comes rank) := by
  cases htip : m.tip with
  | front => exact htip ▸ keeper_of_front htip ▸ h.halfway.keeper_inOrder
  | back => exact htip ▸ other_of_back htip ▸ h.halfway.other_inOrder

theorem right_inOrder (h : m.Sound rank items) : (m.right.seen m.tip).Pairwise (m.tip.Comes rank) := by
  cases htip : m.tip with
  | front => exact htip ▸ other_of_front htip ▸ h.halfway.other_inOrder
  | back => exact htip ▸ keeper_of_back htip ▸ h.halfway.keeper_inOrder

/-- Items of the left run are taken, if they come before the right run; and not all of them, if the left
run is the keeper. -/
theorem takeLeft (h : m.Sound rank items) (hn : n ≤ m.left.count)
    (hkeeps : m.tip = .front → n < m.left.count)
    (htaken : ∀ x ∈ (m.left.seen m.tip).take n, ∀ y ∈ m.right.seen m.tip, m.tip.Comes rank x y) :
    (m.takeLeft n).Sound rank items := by
  refine ⟨h.left_fits.without hn, h.right_fits, ?_⟩
  have hhalfway := h.halfway
  rw [Merging.takeLeft, Array.toList_append, h.left_fits.toList_taken hn]
  cases htip : m.tip with
  | front =>
      rw [keeper_of_front htip, other_of_front htip] at hhalfway
      rw [htip] at hhalfway htaken
      rw [keeper_of_front rfl, other_of_front rfl, h.left_fits.seen_without hn]
      exact hhalfway.takeKeeper (by rw [h.left_fits.length_seen]; exact hkeeps htip) htaken
  | back =>
      rw [keeper_of_back htip, other_of_back htip] at hhalfway
      rw [htip] at hhalfway htaken
      rw [keeper_of_back rfl, other_of_back rfl, h.left_fits.seen_without hn]
      exact hhalfway.takeOther htaken

/-- Items of the right run are taken, if they come before the left run; and not all of them, if the right
run is the keeper. -/
theorem takeRight (h : m.Sound rank items) (hn : n ≤ m.right.count)
    (hkeeps : m.tip = .back → n < m.right.count)
    (htaken : ∀ y ∈ (m.right.seen m.tip).take n, ∀ x ∈ m.left.seen m.tip, m.tip.Comes rank y x) :
    (m.takeRight n).Sound rank items := by
  refine ⟨h.left_fits, h.right_fits.without hn, ?_⟩
  have hhalfway := h.halfway
  rw [Merging.takeRight, Array.toList_append, h.right_fits.toList_taken hn]
  cases htip : m.tip with
  | front =>
      rw [keeper_of_front htip, other_of_front htip] at hhalfway
      rw [htip] at hhalfway htaken
      rw [keeper_of_front rfl, other_of_front rfl, h.right_fits.seen_without hn]
      exact hhalfway.takeOther htaken
  | back =>
      rw [keeper_of_back htip, other_of_back htip] at hhalfway
      rw [htip] at hhalfway htaken
      rw [keeper_of_back rfl, other_of_back rfl, h.right_fits.seen_without hn]
      exact hhalfway.takeKeeper (by rw [h.right_fits.length_seen]; exact hkeeps htip) htaken

theorem mem_left (h : m.Sound rank items) {x : β} (hx : x ∈ m.left.seen m.tip) : x ∈ items := by
  refine h.halfway.perm.subset (List.mem_append_right _ ?_)
  rw [keeper, other]
  cases htip : m.tip <;> rw [htip] at hx <;> simp [hx]

theorem mem_right (h : m.Sound rank items) {y : β} (hy : y ∈ m.right.seen m.tip) : y ∈ items := by
  refine h.halfway.perm.subset (List.mem_append_right _ ?_)
  rw [keeper, other]
  cases htip : m.tip <;> rw [htip] at hy <;> simp [hy]

/-- How patient a merge is does not matter. -/
theorem patient (h : m.Sound rank items) (patience : ℕ) : ({ m with patience } : Merging β).Sound rank items :=
  ⟨h.left_fits, h.right_fits, h.halfway⟩

/-- A merge that goes on has items of both runs, and more than one of the keeper. -/
theorem counts_of_not_over (hover : m.isOver = false) :
    0 < m.left.count ∧ 0 < m.right.count ∧ (m.tip = .front → 1 < m.left.count) ∧
      (m.tip = .back → 1 < m.right.count) := by
  rw [isOver] at hover
  cases htip : m.tip <;> rw [htip] at hover <;>
    simp only [Bool.or_eq_false_iff, beq_eq_false_iff_ne, decide_eq_false_iff_not] at hover
  · exact ⟨by omega, by omega, fun _ => by omega, nofun⟩
  · exact ⟨by omega, by omega, nofun, fun _ => by omega⟩

/-- **A merge that is over** has its items in order. -/
theorem result (h : m.Sound rank items) (hover : m.isOver = true) :
    InOrder rank m.result.toList ∧ m.result.toList.Perm items := by
  have hhalfway := h.halfway
  have hcounts : m.other.count = 0 ∨ m.keeper.count ≤ 1 := by
    rw [isOver] at hover
    rw [keeper, other]
    cases htip : m.tip <;> rw [htip] at hover <;> simpa using hover
  have hfits : m.keeper.Fits ∧ m.other.Fits := by
    rw [keeper, other]
    cases m.tip
    · exact ⟨h.left_fits, h.right_fits⟩
    · exact ⟨h.right_fits, h.left_fits⟩
  have hover' : m.other.seen m.tip = [] ∨ (m.keeper.seen m.tip).length ≤ 1 := by
    rwa [← List.length_eq_zero_iff, hfits.1.length_seen, hfits.2.length_seen]
  obtain ⟨hordered, hperm⟩ := hhalfway.inOrder (fun _ _ => Tip.comes_of_not) hover'
  have hseen : m.merged.toList ++ (m.other.seen m.tip ++ m.keeper.seen m.tip) =
      m.tip.seen m.result.toList := by
    rw [Merging.result, keeper, other]
    cases m.tip <;> simp [Rest.seen, Tip.seen]
  rw [hseen] at hordered hperm
  exact ⟨Tip.pairwise_seen.1 hordered, (m.tip.perm_seen _).symm.trans hperm⟩

/-! ### Steps of a merge -/

/-- One item of the left run is taken, if it comes before the right run. -/
theorem stepLeft (h : m.Sound rank items) (hover : m.isOver = false)
    (hnext : ∀ x ∈ (m.left.seen m.tip).head?, ∀ y ∈ m.right.seen m.tip, m.tip.Comes rank x y) :
    (m.takeLeft 1).Sound rank items := by
  obtain ⟨hleft, -, hfront, -⟩ := counts_of_not_over hover
  refine h.takeLeft hleft hfront fun x hx => hnext x ?_
  rwa [List.take_one, Option.mem_toList] at hx

/-- One item of the right run is taken, if it comes before the left run. -/
theorem stepRight (h : m.Sound rank items) (hover : m.isOver = false)
    (hnext : ∀ y ∈ (m.right.seen m.tip).head?, ∀ x ∈ m.left.seen m.tip, m.tip.Comes rank y x) :
    (m.takeRight 1).Sound rank items := by
  obtain ⟨-, hright, -, hback⟩ := counts_of_not_over hover
  refine h.takeRight hright hback fun y hy => hnext y ?_
  rwa [List.take_one, Option.mem_toList] at hy

theorem remaining_takeLeft (h : m.Sound rank items) (hn : n ≤ m.left.count) :
    (m.takeLeft n).remaining = m.remaining - n := by
  change (m.left.without n m.tip).count + m.right.count = m.left.count + m.right.count - n
  rw [h.left_fits.count_without hn]
  omega

theorem remaining_takeRight (h : m.Sound rank items) (hn : n ≤ m.right.count) :
    (m.takeRight n).remaining = m.remaining - n := by
  change m.left.count + (m.right.without n m.tip).count = m.left.count + m.right.count - n
  rw [h.right_fits.count_without hn]
  omega

/-- Something is left of a merge that goes on as it should, even when it is over. -/
theorem remaining_pos (h : m.Sound rank items) : 0 < m.remaining := by
  have hkeeper := List.length_pos_iff.2 h.halfway.keeper_ne_nil
  rw [remaining]
  cases htip : m.tip with
  | front =>
      rw [keeper_of_front htip, h.left_fits.length_seen] at hkeeper
      omega
  | back =>
      rw [keeper_of_back htip, h.right_fits.length_seen] at hkeeper
      omega

/-- What is left of the runs in a merge that goes on begins with an item. -/
theorem exists_next (h : m.Sound rank items) (hover : m.isOver = false) :
    (∃ x xs, m.left.next? m.tip = some x ∧ m.left.seen m.tip = x :: xs) ∧
      ∃ y ys, m.right.next? m.tip = some y ∧ m.right.seen m.tip = y :: ys := by
  obtain ⟨hleft, hright, -⟩ := counts_of_not_over hover
  have hhead : ∀ r : Rest β, r.Fits → 0 < r.count →
      ∃ x xs, r.next? m.tip = some x ∧ r.seen m.tip = x :: xs := by
    intro r hr hcount
    obtain ⟨x, xs, hxs⟩ := List.exists_cons_of_length_pos (by rwa [hr.length_seen m.tip])
    exact ⟨x, xs, by rw [hr.next?_eq hcount, hxs, List.head?_cons], hxs⟩
  exact ⟨hhead _ h.left_fits hleft, hhead _ h.right_fits hright⟩

end Sound

/-! ### Leads -/

/-- **A lead is the number of items on one side of a cut**: at the front those for which the test fails,
at the back those for which it holds. -/
theorem exists_lead {Q : β → Prop} [DecidablePred Q] {xs : List β} {test : ℕ → Except ε Bool} (tip : Tip)
    (hmono : xs.Pairwise fun x y => Q x → Q y)
    (htest : ∀ p (hp : p < xs.length), test p = .ok (decide (Q xs[p]))) (hxs : 0 < xs.length) :
    ∃ n, lead tip test xs.length = .ok n ∧ n ≤ xs.length ∧
      (∀ x ∈ (tip.seen xs).take n, Q x ↔ tip = .back) ∧
      ∀ x ∈ (tip.seen xs).drop n, Q x ↔ tip = .front := by
  cases tip with
  | front =>
      obtain ⟨n, hgallop, hn, htake, hdrop⟩ := exists_gallop hmono htest hxs
      exact ⟨n, hgallop, hn, fun x hx => iff_of_false (htake x hx) nofun,
        fun x hx => iff_of_true (hdrop x hx) rfl⟩
  | back =>
      obtain ⟨n, hgallop, hn, htake, hdrop⟩ :=
        exists_gallop hmono htest (Nat.sub_lt hxs Nat.one_pos)
      refine ⟨xs.length - n, ?_, by omega, fun x hx => ?_, fun x hx => ?_⟩
      · rw [lead, hgallop]
        rfl
      · rw [Tip.seen, List.take_reverse, Nat.sub_sub_self hn, List.mem_reverse] at hx
        exact iff_of_true (hdrop x hx) rfl
      · rw [Tip.seen, List.drop_reverse, Nat.sub_sub_self hn, List.mem_reverse] at hx
        exact iff_of_false (htake x hx) nofun

variable {lt : Less ε key} {rank : key × α → ρ} {items : List (key × α)} {m : Merging (key × α)}

namespace Sound

/-- Items of the left run are taken, up to a cut at the next item of the right run. -/
theorem cutLeft (h : m.Sound rank items) {n : ℕ} (hn : n ≤ m.left.count) {y : key × α} {ys : List (key × α)}
    (hright : m.right.seen m.tip = y :: ys) (htaken : ∀ x ∈ (m.left.seen m.tip).take n, m.tip.Comes rank x y)
    (hrest : ∀ x ∈ (m.left.seen m.tip).drop n, m.tip.Comes rank y x) :
    (m.takeLeft n).Sound rank items ∧ ∀ y ∈ ((m.takeLeft n).right.seen (m.takeLeft n).tip).head?,
      ∀ x ∈ (m.takeLeft n).left.seen (m.takeLeft n).tip, (m.takeLeft n).tip.Comes rank y x := by
  refine ⟨h.takeLeft hn (fun htip => ?_) fun x hx z hz => ?_, fun z hz x hx => ?_⟩
  · have hlt_length := h.halfway.lt_length (n := n) (y := y)
    rw [keeper_of_front htip, other_of_front htip, h.left_fits.length_seen] at hlt_length
    exact hlt_length (hright ▸ List.mem_cons_self) htaken
  · rw [hright] at hz
    exact (htaken x hx).of_head (hright ▸ h.right_inOrder) z hz
  · change z ∈ (m.right.seen m.tip).head? at hz
    rw [hright, List.head?_cons, Option.mem_some_iff] at hz
    change x ∈ (m.left.without n m.tip).seen m.tip at hx
    rw [h.left_fits.seen_without hn] at hx
    exact hz ▸ hrest x hx

/-- Items of the right run are taken, up to a cut at the next item of the left run. -/
theorem cutRight (h : m.Sound rank items) {n : ℕ} (hn : n ≤ m.right.count) {x : key × α} {xs : List (key × α)}
    (hleft : m.left.seen m.tip = x :: xs) (htaken : ∀ y ∈ (m.right.seen m.tip).take n, m.tip.Comes rank y x)
    (hrest : ∀ y ∈ (m.right.seen m.tip).drop n, m.tip.Comes rank x y) :
    (m.takeRight n).Sound rank items ∧ ∀ x ∈ ((m.takeRight n).left.seen (m.takeRight n).tip).head?,
      ∀ y ∈ (m.takeRight n).right.seen (m.takeRight n).tip, (m.takeRight n).tip.Comes rank x y := by
  refine ⟨h.takeRight hn (fun htip => ?_) fun y hy z hz => ?_, fun z hz y hy => ?_⟩
  · have hlt_length := h.halfway.lt_length (n := n) (y := x)
    rw [keeper_of_back htip, other_of_back htip, h.right_fits.length_seen] at hlt_length
    exact hlt_length (hleft ▸ List.mem_cons_self) htaken
  · rw [hleft] at hz
    exact (htaken y hy).of_head (hleft ▸ h.left_inOrder) z hz
  · change z ∈ (m.left.seen m.tip).head? at hz
    rw [hleft, List.head?_cons, Option.mem_some_iff] at hz
    change y ∈ (m.right.without n m.tip).seen m.tip at hy
    rw [h.right_fits.seen_without hn] at hy
    exact hz ▸ hrest y hy

/-- **The lead of the left run** is taken: what comes before the next item of the right run, which then
comes before all that is left of the left run. -/
theorem exists_leftLead (h : m.Sound rank items) (hlt : Decides lt rank items)
    (hover : m.isOver = false) :
    ∃ n, m.leftLead lt = .ok n ∧ n ≤ m.left.count ∧ (m.takeLeft n).Sound rank items ∧
      ∀ y ∈ ((m.takeLeft n).right.seen (m.takeLeft n).tip).head?,
        ∀ x ∈ (m.takeLeft n).left.seen (m.takeLeft n).tip, (m.takeLeft n).tip.Comes rank y x := by
  obtain ⟨hleft, -⟩ := counts_of_not_over hover
  obtain ⟨-, y, ys, hnext, hright⟩ := h.exists_next hover
  have hy : y ∈ m.right.seen m.tip := hright ▸ List.mem_cons_self
  have htest : ∀ p (hp : p < m.left.toArray.toList.length),
      belowAt lt y.1 m.left.items (m.left.low + p) =
        .ok (decide (rank y < rank m.left.toArray.toList[p])) := by
    intro p hp
    have hat := h.left_fits.getElem?_items (h.left_fits.length_toArray ▸ hp)
    rw [List.getElem?_eq_getElem hp] at hat
    exact belowAt_eq hat
      (hlt y (h.mem_right hy) _ (h.mem_left (Tip.mem_seen.2 (List.getElem_mem hp))))
  have hmono : m.left.toArray.toList.Pairwise fun a b => rank y < rank a → rank y < rank b :=
    (Tip.pairwise_seen.1 h.left_inOrder).imp fun hab hya => lt_of_lt_of_le hya hab
  obtain ⟨n, hlead, hn, htake, hdrop⟩ :=
    exists_lead m.tip hmono htest (by rwa [h.left_fits.length_toArray])
  rw [h.left_fits.length_toArray] at hlead hn
  have htaken : ∀ x ∈ (m.left.seen m.tip).take n, m.tip.Comes rank x y := by
    intro x hx
    have hx := htake x hx
    cases htip : m.tip <;> rw [htip] at hx
    · exact le_of_not_gt (by simpa using hx)
    · exact le_of_lt (hx.2 rfl)
  have hrest : ∀ x ∈ (m.left.seen m.tip).drop n, m.tip.Comes rank y x := by
    intro x hx
    have hx := hdrop x hx
    cases htip : m.tip <;> rw [htip] at hx
    · exact le_of_lt (hx.2 rfl)
    · exact le_of_not_gt (by simpa using hx)
  exact ⟨n, by rw [leftLead, hnext]; exact hlead, hn, h.cutLeft hn hright htaken hrest⟩

/-- **The lead of the right run** is taken: what comes before the next item of the left run, which then
comes before all that is left of the right run. -/
theorem exists_rightLead (h : m.Sound rank items) (hlt : Decides lt rank items)
    (hover : m.isOver = false) :
    ∃ n, m.rightLead lt = .ok n ∧ n ≤ m.right.count ∧ (m.takeRight n).Sound rank items ∧
      ∀ x ∈ ((m.takeRight n).left.seen (m.takeRight n).tip).head?,
        ∀ y ∈ (m.takeRight n).right.seen (m.takeRight n).tip, (m.takeRight n).tip.Comes rank x y := by
  obtain ⟨-, hright, -⟩ := counts_of_not_over hover
  obtain ⟨⟨x, xs, hnext, hleft⟩, -⟩ := h.exists_next hover
  have hx : x ∈ m.left.seen m.tip := hleft ▸ List.mem_cons_self
  have htest : ∀ p (hp : p < m.right.toArray.toList.length),
      notBelowAt lt m.right.items x.1 (m.right.low + p) =
        .ok (decide (¬rank m.right.toArray.toList[p] < rank x)) := by
    intro p hp
    have hat := h.right_fits.getElem?_items (h.right_fits.length_toArray ▸ hp)
    rw [List.getElem?_eq_getElem hp] at hat
    exact notBelowAt_eq hat
      (hlt _ (h.mem_right (Tip.mem_seen.2 (List.getElem_mem hp))) x (h.mem_left hx))
  have hmono : m.right.toArray.toList.Pairwise fun a b => ¬rank a < rank x → ¬rank b < rank x :=
    (Tip.pairwise_seen.1 h.right_inOrder).imp fun hab ha hb => ha (lt_of_le_of_lt hab hb)
  obtain ⟨n, hlead, hn, htake, hdrop⟩ :=
    exists_lead m.tip hmono htest (by rwa [h.right_fits.length_toArray])
  rw [h.right_fits.length_toArray] at hlead hn
  have htaken : ∀ y ∈ (m.right.seen m.tip).take n, m.tip.Comes rank y x := by
    intro y hy
    have hy := htake y hy
    cases htip : m.tip <;> rw [htip] at hy
    · exact le_of_lt (by simpa using hy)
    · exact le_of_not_gt (hy.2 rfl)
  have hrest : ∀ y ∈ (m.right.seen m.tip).drop n, m.tip.Comes rank x y := by
    intro y hy
    have hy := hdrop y hy
    cases htip : m.tip <;> rw [htip] at hy
    · exact le_of_not_gt (hy.2 rfl)
    · exact le_of_lt (by simpa using hy)
  exact ⟨n, by rw [rightLead, hnext]; exact hlead, hn, h.cutRight hn hleft htaken hrest⟩

/-- The first item of one run is taken, if it comes before the first item of the other. -/
theorem stepLeft_of_comes (h : m.Sound rank items) (hover : m.isOver = false) {x y : key × α}
    {xs ys : List (key × α)} (hleft : m.left.seen m.tip = x :: xs) (hright : m.right.seen m.tip = y :: ys)
    (hxy : m.tip.Comes rank x y) : (m.takeLeft 1).Sound rank items := by
  refine h.stepLeft hover fun z hz => ?_
  rw [hleft, List.head?_cons, Option.mem_some_iff] at hz
  rw [hright, ← hz]
  exact hxy.of_head (hright ▸ h.right_inOrder)

theorem stepRight_of_comes (h : m.Sound rank items) (hover : m.isOver = false) {x y : key × α}
    {xs ys : List (key × α)} (hleft : m.left.seen m.tip = x :: xs) (hright : m.right.seen m.tip = y :: ys)
    (hyx : m.tip.Comes rank y x) : (m.takeRight 1).Sound rank items := by
  refine h.stepRight hover fun z hz => ?_
  rw [hright, List.head?_cons, Option.mem_some_iff] at hz
  rw [hleft, ← hz]
  exact hyx.of_head (hleft ▸ h.left_inOrder)

/-- **One turn of a merge** that is going on: it comes to its end, or there is less left and it goes on. -/
def Turns (lt : Less ε key) (rank : key × α → ρ) (items : List (key × α)) (fuel : ℕ) (pace : Pace)
    (m : Merging (key × α)) : Prop :=
  ∃ m' : Merging (key × α), m'.Sound rank items ∧
    (run lt (fuel + 1) pace m = .ok m' ∧ m'.isOver = true ∨
      m'.remaining < m.remaining ∧ ∃ pace', run lt (fuel + 1) pace m = run lt fuel pace' m')

variable {fuel : ℕ}

/-- One item is taken, and the left run comes first where the ranks are the same. -/
theorem turns_stepping (h : m.Sound rank items) (hlt : Decides lt rank items) (hover : m.isOver = false)
    (left right : ℕ) : Turns lt rank items fuel (.stepping left right) m := by
  obtain ⟨⟨x, xs, hnextx, hleft⟩, y, ys, hnexty, hright⟩ := h.exists_next hover
  have hbelow := hlt y (h.mem_right (hright ▸ List.mem_cons_self)) x (h.mem_left (hleft ▸ List.mem_cons_self))
  obtain ⟨hcount, hcount', -⟩ := counts_of_not_over hover
  have hpos := h.remaining_pos
  rw [Turns, run, hover, if_neg Bool.false_ne_true, hnextx, hnexty]
  simp only [hbelow, bind, Except.bind]
  split
  case isTrue hside =>
    have hyx : m.tip.Comes rank y x := by
      cases htip : m.tip <;> rw [htip] at hside
      · exact le_of_lt (of_decide_eq_true hside)
      · exact le_of_not_gt (of_decide_eq_false hside)
    refine ⟨_, h.stepRight_of_comes hover hleft hright hyx, .inr ⟨?_, _, rfl⟩⟩
    rw [h.remaining_takeRight hcount']
    omega
  case isFalse hside =>
    have hxy : m.tip.Comes rank x y := by
      cases htip : m.tip <;> rw [htip] at hside
      · exact le_of_not_gt fun hlt => hside (decide_eq_true hlt)
      · exact le_of_not_gt fun hlt => hside (decide_eq_false (not_lt_of_ge hlt.le))
    refine ⟨_, h.stepLeft_of_comes hover hleft hright hxy, .inr ⟨?_, _, rfl⟩⟩
    rw [h.remaining_takeLeft hcount]
    omega

/-- The lead of each run is taken, and behind each lead the next item of the other run. -/
theorem turns_galloping (h : m.Sound rank items) (hlt : Decides lt rank items) (hover : m.isOver = false)
    (first : Bool) : Turns lt rank items fuel (.galloping first) m := by
  -- a turn of galloping begins as if it were as patient as it is going to be
  obtain ⟨m₀, hm₀, h₀, hover₀, hremaining₀⟩ : ∃ m₀ : Merging (key × α),
      (if (!first && decide (1 < m.patience)) = true then { m with patience := m.patience - 1 }
        else m) = m₀ ∧ m₀.Sound rank items ∧ m₀.isOver = false ∧ m₀.remaining = m.remaining := by
    split
    · exact ⟨_, rfl, h.patient _, hover, rfl⟩
    · exact ⟨_, rfl, h, hover, rfl⟩
  obtain ⟨a, hlead₁, ha, h₁, hnext₁⟩ := h₀.exists_leftLead hlt hover₀
  have hremaining₁ := h₀.remaining_takeLeft ha
  rw [Turns, run, hover, if_neg Bool.false_ne_true]
  simp only [hm₀, hlead₁, bind, Except.bind]
  generalize m₀.takeLeft a = m₁ at h₁ hnext₁ hremaining₁ ⊢
  cases hover₁ : m₁.isOver with
  | true => exact ⟨m₁, h₁, .inl ⟨rfl, hover₁⟩⟩
  | false =>
  have h₂ := h₁.stepRight hover₁ hnext₁
  have hremaining₂ := h₁.remaining_takeRight (n := 1) (counts_of_not_over hover₁).2.1
  rw [if_neg Bool.false_ne_true]
  generalize m₁.takeRight 1 = m₂ at h₂ hremaining₂ ⊢
  cases hover₂ : m₂.isOver with
  | true => exact ⟨m₂, h₂, .inl ⟨rfl, hover₂⟩⟩
  | false =>
  obtain ⟨b, hlead₃, hb, h₃, hnext₃⟩ := h₂.exists_rightLead hlt hover₂
  have hremaining₃ := h₂.remaining_takeRight hb
  rw [if_neg Bool.false_ne_true]
  simp only [hlead₃]
  generalize m₂.takeRight b = m₃ at h₃ hnext₃ hremaining₃ ⊢
  cases hover₃ : m₃.isOver with
  | true => exact ⟨m₃, h₃, .inl ⟨rfl, hover₃⟩⟩
  | false =>
  have h₄ := h₃.stepLeft hover₃ hnext₃
  have hremaining₄ := h₃.remaining_takeLeft (n := 1) (counts_of_not_over hover₃).1
  rw [if_neg Bool.false_ne_true]
  generalize m₃.takeLeft 1 = m₄ at h₄ hremaining₄ ⊢
  cases hover₄ : m₄.isOver with
  | true => exact ⟨m₄, h₄, .inl ⟨rfl, hover₄⟩⟩
  | false =>
  have hpos := h₁.remaining_pos
  have hless : m₄.remaining < m.remaining := by omega
  rw [if_neg Bool.false_ne_true]
  split
  · exact ⟨m₄, h₄, .inr ⟨hless, _, rfl⟩⟩
  · exact ⟨_, h₄.patient (m₄.patience + 1), .inr ⟨hless, _, rfl⟩⟩

/-- **A merge comes to its end**, and its items are in order then. -/
theorem exists_run (h : m.Sound rank items) (hlt : Decides lt rank items) (pace : Pace)
    (hfuel : m.remaining ≤ fuel) :
    ∃ m', run lt fuel pace m = .ok m' ∧ m'.Sound rank items ∧ m'.isOver = true := by
  induction fuel generalizing m pace with
  | zero => exact absurd h.remaining_pos (by omega)
  | succ fuel ih =>
      cases hover : m.isOver with
      | true => exact ⟨m, by cases pace <;> simp [run, hover, pure, Except.pure], h, hover⟩
      | false =>
          have hturn : Turns lt rank items fuel pace m := by
            cases pace with
            | stepping left right => exact h.turns_stepping hlt hover left right
            | galloping first => exact h.turns_galloping hlt hover first
          obtain ⟨m', h', ⟨hrun, hover'⟩ | ⟨hless, pace', hrun⟩⟩ := hturn
          · exact ⟨m', hrun, h', hover'⟩
          · exact hrun ▸ ih h' pace' (by omega)

end Sound

/-- **A merge begins as it should**, from whichever tip: the last item on the left comes behind the whole
run on the right, and the first item on the right comes before the whole run on the left. -/
theorem sound_start {rank : β → ρ} {left right : Rest β} (hl : left.Fits) (hr : right.Fits)
    (hleft : InOrder rank left.toArray.toList) (hright : InOrder rank right.toArray.toList) {x y : β}
    (hx : left.toArray.toList.getLast? = some x) (hy : right.toArray.toList.head? = some y)
    (habove : ∀ z ∈ left.toArray.toList, rank y < rank z)
    (hbelow : ∀ z ∈ right.toArray.toList, rank z < rank x) (tip : Tip) (patience : ℕ) :
    Sound rank (left.toArray.toList ++ right.toArray.toList) { tip, left, right, patience } := by
  refine ⟨hl, hr, ?_⟩
  cases tip with
  | front =>
      exact ⟨.refl _, .nil, hleft, hright, nofun, x, hx, fun z hz => not_le_of_gt (hbelow z hz)⟩
  | back =>
      refine ⟨?_, .nil, Tip.pairwise_seen.2 hright, Tip.pairwise_seen.2 hleft, nofun, y, ?_,
        fun z hz => not_le_of_gt (habove z (List.mem_reverse.1 hz))⟩
      · exact ((Tip.perm_seen .back _).append (Tip.perm_seen .back _)).trans List.perm_append_comm
      · exact List.getLast?_reverse.trans hy

end Merging

/-! ### Two runs as one -/

variable {lt : Less ε key} {rank : key × α → ρ} {a b : Array (key × α)}

/-- A whole merge of what is left of two runs. -/
theorem Merging.exists_merged {left right : Rest (key × α)} (hl : left.Fits) (hr : right.Fits)
    (hlt : Decides lt rank (left.toArray.toList ++ right.toArray.toList))
    (hleft : InOrder rank left.toArray.toList) (hright : InOrder rank right.toArray.toList)
    {x y : key × α} (hx : left.toArray.toList.getLast? = some x)
    (hy : right.toArray.toList.head? = some y) (habove : ∀ z ∈ left.toArray.toList, rank y < rank z)
    (hbelow : ∀ z ∈ right.toArray.toList, rank z < rank x) (patience : ℕ) {fuel : ℕ}
    (hfuel : left.count + right.count ≤ fuel) :
    ∃ m : Merging (key × α),
      run lt fuel (.stepping 0 0) (if left.count ≤ right.count then
        takeRight 1 { tip := .front, left, right, patience }
      else takeLeft 1 { tip := .back, left, right, patience }) = .ok m ∧
      InOrder rank m.result.toList ∧
      m.result.toList.Perm (left.toArray.toList ++ right.toArray.toList) := by
  have hlcount : 0 < left.count := by
    rw [← hl.length_toArray]
    exact List.length_pos_of_mem (List.mem_of_getLast? hx)
  have hrcount : 0 < right.count := by
    rw [← hr.length_toArray]
    exact List.length_pos_of_mem (List.mem_of_head? hy)
  have hstart := sound_start hl hr hleft hright hx hy habove hbelow
  split
  · -- from the front, the first item on the right comes first
    have hm := (hstart .front patience).takeRight (n := 1) hrcount nofun fun z hz u hu => by
      rw [List.take_one, Option.mem_toList] at hz
      cases hy.symm.trans hz
      exact le_of_lt (habove u hu)
    have hremaining := (hstart .front patience).remaining_takeRight hrcount
    obtain ⟨m, hrun, hm', hover⟩ :=
      hm.exists_run hlt (.stepping 0 0)
        (Nat.le_trans (Nat.le_of_eq hremaining) (Nat.le_trans (Nat.sub_le _ _) hfuel))
    exact ⟨m, hrun, hm'.result hover⟩
  · -- from the back, the last item on the left comes first
    have hm := (hstart .back patience).takeLeft (n := 1) hlcount nofun fun z hz u hu => by
      rw [List.take_one, Option.mem_toList] at hz
      cases hx.symm.trans (List.head?_reverse.symm.trans hz)
      exact le_of_lt (hbelow u (List.mem_reverse.1 hu))
    have hremaining := (hstart .back patience).remaining_takeLeft hlcount
    obtain ⟨m, hrun, hm', hover⟩ :=
      hm.exists_run hlt (.stepping 0 0)
        (Nat.le_trans (Nat.le_of_eq hremaining) (Nat.le_trans (Nat.sub_le _ _) hfuel))
    exact ⟨m, hrun, hm'.result hover⟩

/-- The items of a run in order are cut where those begin that are above an item. -/
theorem exists_cutAbove {y : key × α} (ha : InOrder rank a.toList)
    (hlt : ∀ u ∈ a.toList, lt y.1 u.1 = .ok (decide (rank y < rank u))) (hsize : 0 < a.toList.length) :
    ∃ k, gallop (belowAt lt y.1 a) a.size 0 = .ok k ∧ k ≤ a.size ∧ (∀ u ∈ a.toList.take k, rank u ≤ rank y) ∧
      ∀ u ∈ a.toList.drop k, rank y < rank u := by
  have hbelow : ∀ p (hp : p < a.toList.length), belowAt lt y.1 a p = .ok (decide (rank y < rank a.toList[p])) :=
    fun p hp => belowAt_eq (by rw [← Array.getElem?_toList, List.getElem?_eq_getElem hp])
      (hlt _ (List.getElem_mem hp))
  have hmono : a.toList.Pairwise fun u v => rank y < rank u → rank y < rank v :=
    ha.imp fun huv hu => lt_of_lt_of_le hu huv
  obtain ⟨k, hgallop, hk, htake, hdrop⟩ := exists_gallop hmono hbelow hsize
  rw [Array.length_toList] at hgallop hk
  exact ⟨k, hgallop, hk, fun u hu => le_of_not_gt (htake u hu), hdrop⟩

/-- The items of a run in order are cut behind those that are below an item. -/
theorem exists_cutBelow {x : key × α} (hb : InOrder rank b.toList)
    (hlt : ∀ v ∈ b.toList, lt v.1 x.1 = .ok (decide (rank v < rank x))) (hsize : 0 < b.toList.length) :
    ∃ n, gallop (Merging.notBelowAt lt b x.1) b.size (b.size - 1) = .ok n ∧ n ≤ b.size ∧
      (∀ v ∈ b.toList.take n, rank v < rank x) ∧ ∀ v ∈ b.toList.drop n, rank x ≤ rank v := by
  have hnotBelow : ∀ p (hp : p < b.toList.length),
      Merging.notBelowAt lt b x.1 p = .ok (decide (¬rank b.toList[p] < rank x)) := fun p hp =>
    notBelowAt_eq (by rw [← Array.getElem?_toList, List.getElem?_eq_getElem hp]) (hlt _ (List.getElem_mem hp))
  have hmono : b.toList.Pairwise fun u v => ¬rank u < rank x → ¬rank v < rank x :=
    hb.imp fun huv hu hv => hu (lt_of_le_of_lt huv hv)
  obtain ⟨n, hgallop, hn, htake, hdrop⟩ := exists_gallop hmono hnotBelow (Nat.sub_lt hsize Nat.one_pos)
  rw [Array.length_toList] at hgallop hn
  exact ⟨n, hgallop, hn, fun v hv => not_not.1 (htake v hv), fun v hv => le_of_not_gt (hdrop v hv)⟩

/-- **Only the middle is merged**: what stays on the left is at most the first item on the right, and what stays
on the right is at least the last item on the left. -/
theorem InOrder.around {rank : β → ρ} {as bs ms : List β} (ha : InOrder rank as) (hb : InOrder rank bs)
    (hms : InOrder rank ms) {k n : ℕ} (hperm : ms.Perm (as.drop k ++ bs.take n)) {x y : β}
    (hax : ∀ u ∈ as, rank u ≤ rank x) (hby : ∀ v ∈ bs, rank y ≤ rank v)
    (hlow : ∀ u ∈ as.take k, rank u ≤ rank y) (habove : ∀ u ∈ as.drop k, rank y < rank u)
    (hbelow : ∀ v ∈ bs.take n, rank v < rank x) (hhigh : ∀ v ∈ bs.drop n, rank x ≤ rank v) :
    InOrder rank (as.take k ++ ms ++ bs.drop n) ∧ (as.take k ++ ms ++ bs.drop n).Perm (as ++ bs) := by
  have hmiddle : ∀ z ∈ ms, z ∈ as.drop k ∨ z ∈ bs.take n := fun z hz => List.mem_append.1 (hperm.subset hz)
  constructor
  · refine (ha.take.append hms fun u hu v hv => ?_).append hb.drop fun u hu v hv => ?_
    · rcases hmiddle v hv with hv | hv
      · exact (hlow u hu).trans (habove v hv).le
      · exact (hlow u hu).trans (hby v (List.mem_of_mem_take hv))
    · rcases List.mem_append.1 hu with hu | hu
      · exact (hlow u hu).trans (hby v (List.mem_of_mem_drop hv))
      · rcases hmiddle u hu with hu | hu
        · exact (hax u (List.mem_of_mem_drop hu)).trans (hhigh v hv)
        · exact (hbelow u hu).le.trans (hhigh v hv)
  · calc (as.take k ++ ms ++ bs.drop n).Perm (as.take k ++ (as.drop k ++ bs.take n) ++ bs.drop n) :=
          (hperm.append_left _).append_right _
      _ = as ++ bs := by rw [← List.append_assoc, List.take_append_drop, List.append_assoc, List.take_append_drop]

/-- The middle of two runs is merged: the items on the left from the `k`-th on, and the first `n` on the right. -/
theorem exists_mergedMiddle (hlt : Decides lt rank (a.toList ++ b.toList)) (ha : InOrder rank a.toList)
    (hb : InOrder rank b.toList) {k n : ℕ} (hk : k < a.size) (hn : n ≤ b.size) (hpos : n ≠ 0) {x y : key × α}
    (hx : a.toList.getLast? = some x) (hy : b.toList.head? = some y) (habove : ∀ u ∈ a.toList.drop k, rank y < rank u)
    (hbelow : ∀ v ∈ b.toList.take n, rank v < rank x) (patience : ℕ) :
    let left : Rest (key × α) := { items := a, low := k, high := a.size }
    let right : Rest (key × α) := { items := b, low := 0, high := n }
    ∃ m : Merging (key × α),
      Merging.run lt (a.size + b.size) (.stepping 0 0) (if left.count ≤ right.count then
        Merging.takeRight 1 { tip := .front, left, right, patience }
      else Merging.takeLeft 1 { tip := .back, left, right, patience }) = .ok m ∧
      InOrder rank m.result.toList ∧ m.result.toList.Perm (a.toList.drop k ++ b.toList.take n) := by
  intro left right
  have hl : left.Fits := ⟨hk.le, Nat.le_refl _⟩
  have hr : right.Fits := ⟨Nat.zero_le n, hn⟩
  have hleft : left.toArray.toList = a.toList.drop k := by
    rw [Rest.toList_toArray]
    exact List.take_of_length_le (Nat.le_of_eq (by rw [List.length_drop, Array.length_toList]))
  have hright : right.toArray.toList = b.toList.take n := Rest.toList_toArray right
  have hsub : a.toList.drop k ++ b.toList.take n ⊆ a.toList ++ b.toList :=
    List.append_subset.2 ⟨fun z hz => List.mem_append_left _ (List.mem_of_mem_drop hz),
      fun z hz => List.mem_append_right _ (List.mem_of_mem_take hz)⟩
  have hlast : left.toArray.toList.getLast? = some x := by
    rw [hleft, List.getLast?_drop, Array.length_toList, if_neg (Nat.not_le_of_lt hk), hx]
  have hfirst : right.toArray.toList.head? = some y := by
    rw [hright, List.head?_take, if_neg hpos, hy]
  have hfuel : left.count + right.count ≤ a.size + b.size :=
    Nat.add_le_add (Nat.sub_le _ _) (Nat.le_trans (Nat.sub_le _ _) hn)
  obtain ⟨m, hrun, hordered, hperm⟩ := Merging.exists_merged hl hr
    (hleft ▸ hright ▸ hlt.mono hsub) (hleft ▸ ha.drop) (hright ▸ hb.take) hlast hfirst (hleft ▸ habove)
    (hright ▸ hbelow) patience hfuel
  rw [hleft, hright] at hperm
  exact ⟨m, hrun, hordered, hperm⟩

/-- What stays on the left, what was merged, and what stays on the right. -/
theorem toList_around (a b c : Array β) (k n : ℕ) :
    (a.extract 0 k ++ c ++ b.extract n b.size).toList = a.toList.take k ++ c.toList ++ b.toList.drop n := by
  have hrest : (b.toList.drop n).length = b.size - n := by rw [List.length_drop, Array.length_toList]
  rw [Array.toList_append, Array.toList_append, Array.toList_extract, Array.toList_extract,
    List.extract_eq_take_drop, List.extract_eq_take_drop, List.drop_zero, Nat.sub_zero, ← hrest, List.take_length]

/-- **Two runs in order are one run in order**, with the items of both. -/
theorem exists_mergeRuns (hlt : Decides lt rank (a.toList ++ b.toList)) (ha : InOrder rank a.toList)
    (hb : InOrder rank b.toList) (patience : ℕ) :
    ∃ c patience', mergeRuns lt patience a b = .ok (c, patience') ∧ InOrder rank c.toList ∧
      c.toList.Perm (a.toList ++ b.toList) := by
  have hhead : b[0]? = b.toList.head? := by rw [List.head?_eq_getElem?, Array.getElem?_toList]
  rw [mergeRuns, ← Array.getLast?_toList, hhead]
  cases hx : a.toList.getLast? with
  | none =>
      rw [List.getLast?_eq_none_iff] at hx
      exact ⟨a ++ b, patience, rfl, by rwa [Array.toList_append, hx, List.nil_append],
        by rw [Array.toList_append]⟩
  | some x =>
  cases hy : b.toList.head? with
  | none =>
      rw [List.head?_eq_none_iff] at hy
      exact ⟨a ++ b, patience, rfl, by rwa [Array.toList_append, hy, List.append_nil],
        by rw [Array.toList_append]⟩
  | some y =>
  have hxa : x ∈ a.toList := List.mem_of_getLast? hx
  have hyb : y ∈ b.toList := List.mem_of_head? hy
  have hax : ∀ z ∈ a.toList, rank z ≤ rank x := ha.le_getLast hx
  have hby : ∀ z ∈ b.toList, rank y ≤ rank z := hb.head_le hy
  -- the items of the left run that stay where they are, and those of the right run
  obtain ⟨k, hgallop, hk, hktake, hkdrop⟩ := exists_cutAbove ha
    (fun u hu => hlt y (List.mem_append_right _ hyb) u (List.mem_append_left _ hu)) (List.length_pos_of_mem hxa)
  obtain ⟨n, hgallop', hn, hntake, hndrop⟩ := exists_cutBelow hb
    (fun v hv => hlt v (List.mem_append_right _ hv) x (List.mem_append_left _ hxa)) (List.length_pos_of_mem hyb)
  simp only [hgallop, hgallop', bind, Except.bind]
  split
  case isTrue hall =>
    refine ⟨a ++ b, patience, rfl, ?_, by rw [Array.toList_append]⟩
    rw [List.take_of_length_le hall] at hktake
    rw [Array.toList_append]
    exact ha.append hb fun u hu v hv => (hktake u hu).trans (hby v hv)
  case isFalse hk' =>
  split
  case isTrue hnone =>
    refine ⟨a ++ b, patience, rfl, ?_, by rw [Array.toList_append]⟩
    rw [hnone, List.drop_zero] at hndrop
    rw [Array.toList_append]
    exact ha.append hb fun u hu v hv => (hax u hu).trans (hndrop v hv)
  case isFalse hn' =>
  obtain ⟨m, hrun, hordered, hperm⟩ := exists_mergedMiddle hlt ha hb
    (Nat.lt_of_not_le fun hle => hk' (Nat.le_trans (Nat.le_of_eq Array.length_toList) hle)) hn hn' hx hy hkdrop
    hntake patience
  obtain ⟨hwhole, hwholePerm⟩ := ha.around hb hordered hperm hax hby hktake hkdrop hntake hndrop
  rw [← toList_around] at hwhole hwholePerm
  refine ⟨_, m.patience, ?_, hwhole, hwholePerm⟩
  rw [hrun]

end GraphRoutes.Sorting
