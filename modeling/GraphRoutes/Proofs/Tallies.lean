/-
**Entries that are made by adjusting are groups.**

A dictionary that is filled by adjusting an entry for each item of a list has one entry for each key, in
the order in which the keys are first seen, and under the name of the first item of that key; its value is
made of the items of that key, in their order.  So a tally says of each key how many items have it, and an
inverted tally lists the names of each count.

Main definitions:

* `GraphRoutes.Route.groupsBy` — the items of a list by their keys;
* `GraphRoutes.Route.inverted` — the names of each count.

Main results:

* `GraphRoutes.Route.perm_groupsBy` — **groups share the items out**;
* `GraphRoutes.Route.toList_foldl_adjust` — what a dictionary is made of that is filled by adjusting;
* `GraphRoutes.Route.toList_tally`, `GraphRoutes.Route.toList_invert` — tallies, and what they are inverted
  to;
* `GraphRoutes.Route.mem_inverted_iff`, `GraphRoutes.Route.perm_inverted`,
  `GraphRoutes.Route.sum_inverted` — **what an inverted tally holds**.
-/
import GraphRoutes.Route.Tally
import Mathlib.Algebra.BigOperators.Group.List.Basic
import Mathlib.Algebra.Group.Action.Defs
import Mathlib.Algebra.Ring.Nat
import Mathlib.Data.List.Forall2
import Mathlib.Data.List.Induction

set_option relaxedAutoImplicit false
set_option autoImplicit false

namespace GraphRoutes.Route

variable {α β γ κ : Type} [DecidableEq κ]

/-! ### First items -/

/-- The items of a list that are the first ones of their keys. -/
def firstsBy (k : α → κ) : List α → List α
  | [] => []
  | x :: xs => x :: (firstsBy k xs).filter fun y => k y ≠ k x

variable {k : α → κ} {xs : List α} {x y : α}

theorem firstsBy_sublist (k : α → κ) (xs : List α) : (firstsBy k xs).Sublist xs := by
  induction xs with
  | nil => exact .slnil
  | cons x xs ih => exact (List.filter_sublist.trans ih).cons_cons x

theorem pairwise_firstsBy (k : α → κ) (xs : List α) : (firstsBy k xs).Pairwise fun x y => k x ≠ k y := by
  induction xs with
  | nil => exact .nil
  | cons x xs ih =>
      refine List.pairwise_cons.2 ⟨fun y hy => ?_, ih.filter _⟩
      exact (of_decide_eq_true (List.mem_filter.1 hy).2).symm

/-- Each item has the key of a first one. -/
theorem exists_mem_firstsBy (hx : x ∈ xs) : ∃ y ∈ firstsBy k xs, k y = k x := by
  induction xs with
  | nil => cases hx
  | cons z xs ih =>
      by_cases hkey : k z = k x
      · exact ⟨z, List.mem_cons_self, hkey⟩
      · obtain ⟨y, hy, hyx⟩ := ih ((List.mem_cons.1 hx).resolve_left fun hxz => hkey (hxz ▸ rfl))
        refine ⟨y, List.mem_cons_of_mem _ (List.mem_filter.2 ⟨hy, decide_eq_true fun hyz => ?_⟩), hyx⟩
        exact hkey (hyz ▸ hyx)

/-- An item at the end is a first one if no other item has its key. -/
theorem firstsBy_append_singleton (k : α → κ) (xs : List α) (x : α) :
    firstsBy k (xs ++ [x]) = firstsBy k xs ++ if k x ∈ xs.map k then [] else [x] := by
  induction xs with
  | nil => rfl
  | cons z xs ih =>
      rw [List.cons_append, firstsBy, ih, List.filter_append, firstsBy, List.cons_append, List.map_cons]
      congr 2
      by_cases hz : k x = k z
      · simp only [hz, List.mem_cons_self, if_true]
        split
        · rfl
        · exact List.filter_eq_nil_iff.2 fun y hy => by simp [List.mem_singleton.1 hy, hz]
      · simp only [List.mem_cons, hz, false_or]
        split
        · rfl
        · exact List.filter_eq_self.2 fun y hy => by simp [List.mem_singleton.1 hy, hz]

/-- Which items are the first ones is said by any spelling of the keys. -/
theorem firstsBy_comp {ι : Type} [DecidableEq ι] {j : κ → ι} (hj : Function.Injective j) (k : α → κ)
    (xs : List α) : firstsBy (fun x => j (k x)) xs = firstsBy k xs := by
  induction xs with
  | nil => rfl
  | cons x xs ih =>
      rw [firstsBy, firstsBy, ih]
      exact congrArg (x :: ·) (List.filter_congr fun y _ => decide_eq_decide.2 (not_congr hj.eq_iff))

/-! ### Groups -/

/-- The first item of each key, and all items of that key. -/
def groupsBy (k : α → κ) (xs : List α) : List (α × List α) :=
  (firstsBy k xs).map fun x => (x, xs.filter fun y => k y = k x)

theorem groupsBy_comp {ι : Type} [DecidableEq ι] {j : κ → ι} (hj : Function.Injective j) (k : α → κ)
    (xs : List α) : groupsBy (fun x => j (k x)) xs = groupsBy k xs := by
  rw [groupsBy, groupsBy, firstsBy_comp hj]
  exact List.map_congr_left fun x _ => congrArg (Prod.mk x)
    (List.filter_congr fun y _ => decide_eq_decide.2 hj.eq_iff)

/-- The groups of a list whose first item has a group of its own. -/
theorem groupsBy_cons (k : α → κ) (x : α) (xs : List α) :
    groupsBy k (x :: xs) = (x, x :: xs.filter fun y => k y = k x) ::
      (groupsBy k xs).filter fun g => k g.1 ≠ k x := by
  rw [groupsBy, firstsBy, List.map_cons, groupsBy, List.filter_map]
  congr 1
  · simp
  · refine List.map_congr_left fun z hz => ?_
    have hzx : k z ≠ k x := of_decide_eq_true (List.mem_filter.1 hz).2
    rw [List.filter_cons_of_neg (by simpa using hzx.symm)]

/-- Those items whose groups are kept are the items that are kept by the same test of keys. -/
theorem flatMap_filter_groupsBy (p : κ → Bool) (k : α → κ) (xs : List α) :
    (((groupsBy k xs).filter fun g => p (k g.1)).flatMap Prod.snd).Perm (xs.filter fun x => p (k x)) := by
  induction xs generalizing p with
  | nil => exact .nil
  | cons x xs ih =>
      have hrest : (((groupsBy k xs).filter fun g => k g.1 ≠ k x && p (k g.1)).flatMap Prod.snd).Perm
          (xs.filter fun y => k y ≠ k x && p (k y)) := ih fun j => j ≠ k x && p j
      rw [groupsBy_cons]
      cases hx : p (k x) with
      | false =>
          -- the group of the item is dropped, and none of the others has its key
          have hne : ∀ j, p j = (decide (j ≠ k x) && p j) := fun j => by
            by_cases hj : j = k x <;> simp [hj, hx]
          rw [List.filter_cons_of_neg (by simp [hx]), List.filter_cons_of_neg (by simp [hx]),
            List.filter_filter, List.filter_congr fun y _ => hne (k y)]
          simpa only [Bool.and_comm] using hrest
      | true =>
          rw [List.filter_cons_of_pos (by simp [hx]), List.filter_cons_of_pos (by simp [hx]),
            List.flatMap_cons, List.cons_append, List.filter_filter]
          refine .cons x ?_
          have hsame : xs.filter (fun y => decide (k y = k x)) =
              (xs.filter fun y => p (k y)).filter fun y => k y = k x := by
            rw [List.filter_filter]
            refine List.filter_congr fun y _ => ?_
            by_cases hy : k y = k x <;> simp [hy, hx]
          have hother : (xs.filter fun y => k y ≠ k x && p (k y)) =
              (xs.filter fun y => p (k y)).filter fun y => !decide (k y = k x) := by
            rw [List.filter_filter]
            exact List.filter_congr fun y _ => by simp [Bool.and_comm]
          rw [hother] at hrest
          rw [hsame]
          refine ((List.Perm.refl _).append ?_).trans (List.filter_append_perm _ _)
          simpa only [Bool.and_comm] using hrest

/-- **Groups share the items out.** -/
theorem perm_groupsBy (k : α → κ) (xs : List α) : ((groupsBy k xs).flatMap Prod.snd).Perm xs := by
  simpa using flatMap_filter_groupsBy (fun _ => true) k xs

/-! ### Dictionaries that are filled by adjusting -/

section

variable {ν : Type} {n : ν} {f : Option β → β} {es : List (Entry κ ν β)} {j : κ}

theorem adjustIn_of_notMem (hj : j ∉ es.map (·.key)) :
    Dictionary.adjustIn j n f es = es ++ [⟨j, n, f none⟩] := by
  induction es with
  | nil => rfl
  | cons e es ih =>
      rw [List.map_cons, List.mem_cons, not_or] at hj
      rw [Dictionary.adjustIn, if_neg fun he => hj.1 he.symm, ih hj.2, List.cons_append]

theorem adjustIn_of_mem (hj : j ∈ es.map (·.key)) (hes : (es.map (·.key)).Nodup) :
    Dictionary.adjustIn j n f es = es.map fun e => if e.key = j then e.update (f ∘ some) else e := by
  induction es with
  | nil => cases hj
  | cons e es ih =>
      rw [List.map_cons, List.nodup_cons] at hes
      rw [Dictionary.adjustIn, List.map_cons]
      by_cases he : e.key = j
      · -- no other entry has the key
        have hrest : es.map (fun e => if e.key = j then e.update (f ∘ some) else e) = es := by
          refine (List.map_congr_left fun y hy => if_neg fun hyj => hes.1 ?_).trans (List.map_id' es)
          rw [he, ← hyj]
          exact List.mem_map_of_mem hy
        rw [if_pos he, if_pos he, hrest]
      · rw [if_neg he, if_neg he]
        rw [List.map_cons, List.mem_cons] at hj
        rw [ih (hj.resolve_left fun hje => he hje.symm) hes.2]

end

section

variable [Hashable κ] {ν : Type} (n : α → ν) (g : α → Option β → β) (total : List α → β)

/-- **A dictionary that is filled by adjusting** has an entry for each group, whose value is made of the items
of the group, one after the other. -/
theorem toList_foldl_adjust (hone : ∀ x, total [x] = g x none)
    (hmore : ∀ xs x, xs ≠ [] → total (xs ++ [x]) = g x (some (total xs))) (k : α → κ) (xs : List α) :
    (xs.foldl (fun d x => d.adjust (k x) (n x) (g x)) (.empty : Dictionary κ ν β)).toList =
      (groupsBy k xs).map fun a => ⟨k a.1, n a.1, total a.2⟩ := by
  let entry (xs : List α) (y : α) : Entry κ ν β := ⟨k y, n y, total (xs.filter fun z => k z = k y)⟩
  have hgroups : ∀ xs, (groupsBy k xs).map (fun a => (⟨k a.1, n a.1, total a.2⟩ : Entry κ ν β)) =
      (firstsBy k xs).map (entry xs) := fun xs => List.map_map
  rw [hgroups]
  induction xs using List.reverseRecOn with
  | nil => rfl
  | append_singleton xs x ih =>
      rw [List.foldl_append, List.foldl_cons, List.foldl_nil, Dictionary.toList_adjust, ih,
        firstsBy_append_singleton]
      have hkeys : ((firstsBy k xs).map (entry xs)).map (·.key) = (firstsBy k xs).map k := List.map_map
      have hmem : k x ∈ (firstsBy k xs).map k ↔ k x ∈ xs.map k := by
        refine ⟨fun hx => ((firstsBy_sublist k xs).map k).subset hx, fun hx => ?_⟩
        obtain ⟨y, hy, hyx⟩ := List.mem_map.1 hx
        obtain ⟨z, hz, hzy⟩ := exists_mem_firstsBy (k := k) hy
        exact List.mem_map.2 ⟨z, hz, hzy.trans hyx⟩
      have hfilter : ∀ y, (xs ++ [x]).filter (fun z => k z = k y) =
          xs.filter (fun z => k z = k y) ++ if k x = k y then [x] else [] := by
        intro y
        rw [List.filter_append]
        by_cases hxy : k x = k y <;> simp [hxy]
      by_cases hx : k x ∈ xs.map k
      · -- the item joins the group of its key
        have hnodup : ((firstsBy k xs).map k).Nodup := List.pairwise_map.2 (pairwise_firstsBy k xs)
        rw [adjustIn_of_mem (hkeys ▸ hmem.2 hx) (hkeys ▸ hnodup), if_pos hx, List.append_nil, List.map_map]
        refine List.map_congr_left fun y hy => ?_
        simp only [Function.comp_apply, entry, hfilter, eq_comm (a := k x)]
        split
        case isTrue hyx =>
          have hne : xs.filter (fun z => k z = k y) ≠ [] := List.ne_nil_of_mem
            (List.mem_filter.2 ⟨(firstsBy_sublist k xs).subset hy, decide_eq_true rfl⟩)
          rw [hmore _ _ hne]
          rfl
        case isFalse => rw [List.append_nil]
      · -- the item begins a group of its own
        have hother : ∀ y ∈ xs, k y ≠ k x := fun y hy hyx => hx (hyx ▸ List.mem_map_of_mem hy)
        rw [adjustIn_of_notMem (hkeys ▸ fun h => hx (hmem.1 h)), if_neg hx, List.map_append]
        congr 1
        · refine List.map_congr_left fun y hy => ?_
          have hxy : k x ≠ k y := (hother y ((firstsBy_sublist k xs).subset hy)).symm
          simp only [entry, hfilter, if_neg hxy, List.append_nil]
        · have hnone : xs.filter (fun z => k z = k x) = [] :=
            List.filter_eq_nil_iff.2 fun y hy => by simpa using hother y hy
          simp only [List.map_cons, List.map_nil, entry, hfilter, hnone, if_true, List.nil_append, hone]

end

/-! ### Tallies, and what they are inverted to -/

section

variable [Hashable κ] {ν : Type}

/-- **A tally** says of each key how many items have it. -/
theorem toList_tally (item : α → κ × ν) (xs : List α) :
    (tally (xs.map item)).toList =
      (groupsBy (fun x => (item x).1) xs).map fun a => ⟨(item a.1).1, (item a.1).2, a.2.length⟩ := by
  rw [tally, List.foldl_map]
  exact toList_foldl_adjust (fun x => (item x).2) (fun _ m => m.getD 0 + 1) List.length (fun _ => rfl)
    (fun xs _ _ => List.length_append) (fun x => (item x).1) xs

/-- **An inverted row** lists the names under each value. -/
theorem toList_invert (keyOf : β → κ) (entry : α → ν × β) (xs : List α) :
    (invert keyOf (xs.map entry)).toList =
      (groupsBy (fun x => keyOf (entry x).2) xs).map fun a =>
        ⟨keyOf (entry a.1).2, (entry a.1).2, (a.2.map fun x => (entry x).1).toArray⟩ := by
  rw [invert, List.foldl_map]
  exact toList_foldl_adjust (fun x => (entry x).2) (fun x names => (names.getD #[]).push (entry x).1)
    (fun xs => (xs.map fun x => (entry x).1).toArray) (fun _ => rfl) (fun xs x _ => by simp)
    (fun x => keyOf (entry x).2) xs

end

/-- The names of each count, in the order in which the counts are first met. -/
def inverted (counts : List (α × κ)) : List (κ × List α) :=
  (groupsBy Prod.snd counts).map fun a => (a.1.2, a.2.map Prod.fst)

section

variable {counts : List (α × κ)} {c : κ} {names : List α}

/-- A count has one list, of the names that it is the count of. -/
theorem mem_inverted_iff : (c, names) ∈ inverted counts ↔
    c ∈ counts.map Prod.snd ∧ names = (counts.filter fun e => e.2 = c).map Prod.fst := by
  constructor
  · intro h
    obtain ⟨g, hg, hcg⟩ := List.mem_map.1 h
    obtain ⟨e, he, rfl⟩ := List.mem_map.1 hg
    obtain ⟨rfl, rfl⟩ := Prod.mk.inj hcg
    exact ⟨List.mem_map_of_mem ((firstsBy_sublist _ _).subset he), rfl⟩
  · rintro ⟨hc, rfl⟩
    obtain ⟨e, he, rfl⟩ := List.mem_map.1 hc
    obtain ⟨e', he', hee'⟩ := exists_mem_firstsBy (k := Prod.snd) he
    refine List.mem_map.2 ⟨_, List.mem_map_of_mem he', ?_⟩
    rw [hee']

/-- **A name is in the list of its count**, and in no other. -/
theorem exists_mem_inverted_iff :
    (∃ names, (c, names) ∈ inverted counts ∧ x ∈ names) ↔ (x, c) ∈ counts := by
  simp only [mem_inverted_iff]
  constructor
  · rintro ⟨_, ⟨-, rfl⟩, hx⟩
    obtain ⟨⟨x, d⟩, he, rfl⟩ := List.mem_map.1 hx
    obtain ⟨he, hd⟩ := List.mem_filter.1 he
    exact of_decide_eq_true hd ▸ he
  · intro he
    exact ⟨_, ⟨List.mem_map_of_mem he, rfl⟩, List.mem_map_of_mem (f := Prod.fst)
      (List.mem_filter.2 ⟨he, decide_eq_true rfl⟩)⟩

theorem nodup_inverted (counts : List (α × κ)) : ((inverted counts).map Prod.fst).Nodup := by
  rw [inverted, groupsBy, List.map_map, List.map_map]
  exact List.pairwise_map.2 (pairwise_firstsBy _ _)

/-- **Each name is listed once.** -/
theorem perm_inverted (counts : List (α × κ)) :
    ((inverted counts).flatMap Prod.snd).Perm (counts.map Prod.fst) := by
  have h := (perm_groupsBy Prod.snd counts).map Prod.fst
  rw [List.map_flatMap] at h
  rw [inverted, List.flatMap_map]
  exact h

/-- No list is empty, and a list has its names in their order. -/
theorem ne_nil_of_mem_inverted (h : (c, names) ∈ inverted counts) :
    names ≠ [] ∧ names.Sublist (counts.map Prod.fst) := by
  obtain ⟨hc, rfl⟩ := mem_inverted_iff.1 h
  obtain ⟨e, he, rfl⟩ := List.mem_map.1 hc
  refine ⟨List.ne_nil_of_mem (List.mem_map_of_mem
    (List.mem_filter.2 ⟨he, decide_eq_true rfl⟩)), List.filter_sublist.map _⟩

end

/-- **The lists make up for the counts.** -/
theorem sum_inverted (counts : List (α × ℕ)) :
    ((inverted counts).map fun g => g.1 * g.2.length).sum = (counts.map Prod.snd).sum := by
  have hgroup : ∀ g ∈ groupsBy Prod.snd counts, g.1.2 * g.2.length = (g.2.map Prod.snd).sum := by
    intro g hg
    obtain ⟨e, -, rfl⟩ := List.mem_map.1 hg
    refine ((List.sum_eq_card_nsmul _ e.2 fun c hc => ?_).trans ?_).symm
    · obtain ⟨e', he', rfl⟩ := List.mem_map.1 hc
      exact of_decide_eq_true (List.mem_filter.1 he').2
    · rw [List.length_map, smul_eq_mul, mul_comm]
  calc ((inverted counts).map fun g => g.1 * g.2.length).sum
      = ((groupsBy Prod.snd counts).map fun g => (g.2.map Prod.snd).sum).sum := by
        rw [inverted, List.map_map]
        refine congrArg List.sum (List.map_congr_left fun g hg => ?_)
        rw [Function.comp_apply, List.length_map, hgroup g hg]
    _ = (((groupsBy Prod.snd counts).flatMap Prod.snd).map Prod.snd).sum := by
        rw [List.map_flatMap, List.flatMap_def, List.sum_flatten, List.map_map]
        rfl
    _ = (counts.map Prod.snd).sum := ((perm_groupsBy Prod.snd counts).map Prod.snd).sum_eq

/-- As many items as there are have been counted. -/
theorem sum_length_groupsBy (k : α → κ) (xs : List α) :
    ((groupsBy k xs).map fun g => g.2.length).sum = xs.length := by
  rw [← (perm_groupsBy k xs).length_eq, List.length_flatMap]

end GraphRoutes.Route
