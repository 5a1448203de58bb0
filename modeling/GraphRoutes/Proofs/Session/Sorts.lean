/-
**Values are sorted by their keys, and equal keys keep the order of the items.**

To sort items, the program places each of them: it writes the position of the item behind its key, and
keys that are equal are told by these positions.  So no two of them are the same, the items themselves are
never compared, and the order is that of a stable sort, whatever the sort does otherwise.

Keys are totally ordered if they have ranks: equal keys have the same rank, and of two others the one
with the lower rank stands before the other.

Main definitions:

* `GraphRoutes.Session.World.RankedBy` — keys that are totally ordered, by their ranks;
* `GraphRoutes.Session.StableSort` — what it is to be sorted stably;
* `GraphRoutes.Session.sortedBy` — items in stable order of the ranks of their keys.

Main results:

* `GraphRoutes.Session.StableSort.unique` — there is only one stable order;
* `GraphRoutes.Session.sortKeyed_eq` — **keyed values are sorted stably**.
-/
import GraphRoutes.Proofs.Session.Reading
import GraphRoutes.Proofs.Sorting.Piles
import GraphRoutes.Session.Tests
import Mathlib.Data.Prod.Lex

set_option relaxedAutoImplicit false
set_option autoImplicit false

namespace GraphRoutes.Session

open Sorting (Decides InOrder)

variable {α β ρ : Type} [LinearOrder ρ] {w : World} {rank : Value → ρ} {keyed : List (Value × α)}

/-- **Keys are totally ordered** if they have ranks: they are equal if their ranks are, and else the one
of lower rank stands before the other. -/
def World.RankedBy (w : World) (rank : Value → ρ) (ks : List Value) : Prop :=
  ∀ a ∈ ks, ∀ b ∈ ks, w.same a b = .ok (decide (rank a = rank b)) ∧
    (rank a ≠ rank b → w.before a b = .ok (decide (rank a < rank b)))

/-! ### Stable order -/

theorem rankLE_trans (rank : β → ρ) (x y z : β) (hxy : decide (rank x ≤ rank y) = true)
    (hyz : decide (rank y ≤ rank z) = true) : decide (rank x ≤ rank z) = true :=
  decide_eq_true (le_trans (of_decide_eq_true hxy) (of_decide_eq_true hyz))

theorem rankLE_total (rank : β → ρ) (x y : β) :
    (decide (rank x ≤ rank y) || decide (rank y ≤ rank x)) = true := by
  simpa using le_total (rank x) (rank y)

theorem pairwise_mergeSort_rank (rank : β → ρ) (xs : List β) :
    (xs.mergeSort fun x y => decide (rank x ≤ rank y)).Pairwise fun x y => rank x ≤ rank y :=
  (List.pairwise_mergeSort (rankLE_trans rank) (rankLE_total rank) xs).imp of_decide_eq_true

/-- What has one rank keeps its order. -/
theorem filter_mergeSort_rank (rank : β → ρ) (xs : List β) (k : ρ) :
    (xs.mergeSort fun x y => decide (rank x ≤ rank y)).filter (fun x => decide (rank x = k)) =
      xs.filter fun x => decide (rank x = k) := by
  let sorted := xs.mergeSort fun x y => decide (rank x ≤ rank y)
  let sameRank (x : β) : Bool := decide (rank x = k)
  have hpairwise : (xs.filter sameRank).Pairwise fun x y => decide (rank x ≤ rank y) = true := by
    refine List.pairwise_of_forall_mem_list fun x hx y hy => decide_eq_true ?_
    rw [of_decide_eq_true (List.mem_filter.1 hx).2, of_decide_eq_true (List.mem_filter.1 hy).2]
  have hsublist : (xs.filter sameRank).Sublist (sorted.filter sameRank) := by
    have hkept := (List.sublist_mergeSort (rankLE_trans rank) (rankLE_total rank) hpairwise
      List.filter_sublist).filter sameRank
    rwa [List.filter_filter, funext fun x => Bool.and_self (sameRank x)] at hkept
  exact (hsublist.eq_of_length ((List.mergeSort_perm xs _).filter sameRank).length_eq.symm).symm

/-- The items `ys` are those of `xs`, in the order of their ranks, and items of one rank stand as they stand in
`xs`. -/
structure StableSort (rank : β → ρ) (xs ys : List β) : Prop where
  perm : ys.Perm xs
  ordered : ys.Pairwise fun x y => rank x ≤ rank y
  stable : ∀ i, ys.filter (fun x => decide (rank x = i)) = xs.filter fun x => decide (rank x = i)

theorem stableSort_mergeSort (rank : β → ρ) (xs : List β) :
    StableSort rank xs (xs.mergeSort fun x y => decide (rank x ≤ rank y)) :=
  ⟨List.mergeSort_perm xs _, pairwise_mergeSort_rank rank xs, filter_mergeSort_rank rank xs⟩

theorem mem_iff_of_filter_rank {rank : β → ρ} {ys zs : List β}
    (hfilter : ∀ i, ys.filter (fun x => decide (rank x = i)) = zs.filter fun x => decide (rank x = i)) (x : β) :
    x ∈ ys ↔ x ∈ zs := by
  have hsame := congrArg (x ∈ ·) (hfilter (rank x))
  simpa using hsame

/-- What is in order is told by the items of each rank. -/
theorem eq_of_filter_rank {rank : β → ρ} {ys zs : List β}
    (hys : ys.Pairwise fun x y => rank x ≤ rank y) (hzs : zs.Pairwise fun x y => rank x ≤ rank y)
    (hfilter : ∀ i, ys.filter (fun x => decide (rank x = i)) = zs.filter fun x => decide (rank x = i)) :
    ys = zs := by
  have hmem := mem_iff_of_filter_rank hfilter
  induction ys generalizing zs with
  | nil => exact (List.eq_nil_iff_forall_not_mem.2 fun x hx => List.not_mem_nil ((hmem x).2 hx)).symm
  | cons y ys ih =>
      cases zs with
      | nil => exact absurd ((hmem y).1 List.mem_cons_self) List.not_mem_nil
      | cons z zs =>
          obtain ⟨hy, hys'⟩ := List.pairwise_cons.1 hys
          obtain ⟨hz, hzs'⟩ := List.pairwise_cons.1 hzs
          -- both begin with an item of the lowest rank
          have hrank : rank y = rank z := by
            refine le_antisymm ?_ ?_
            · exact (List.mem_cons.1 ((hmem z).2 List.mem_cons_self)).elim (fun h => h ▸ le_refl _) (hy z)
            · exact (List.mem_cons.1 ((hmem y).1 List.mem_cons_self)).elim (fun h => h ▸ le_refl _) (hz y)
          have hfirst := hfilter (rank z)
          rw [List.filter_cons, List.filter_cons, if_pos (decide_eq_true hrank), if_pos (decide_eq_true rfl)] at hfirst
          obtain ⟨rfl, -⟩ := List.cons.inj hfirst
          have hrest : ∀ i, ys.filter (fun x => decide (rank x = i)) = zs.filter fun x => decide (rank x = i) := by
            intro i
            have hi := hfilter i
            rw [List.filter_cons, List.filter_cons] at hi
            split at hi
            · exact (List.cons.inj hi).2
            · exact hi
          exact congrArg _ (ih hys' hzs' hrest (mem_iff_of_filter_rank hrest))

/-- There is only one stable order. -/
theorem StableSort.unique {rank : β → ρ} {xs ys zs : List β} (hys : StableSort rank xs ys)
    (hzs : StableSort rank xs zs) : ys = zs :=
  eq_of_filter_rank hys.ordered hzs.ordered fun i => (hys.stable i).trans (hzs.stable i).symm

/-- Keyed items in stable order of the ranks of their keys. -/
def sortedBy (rank : Value → ρ) (keyed : List (Value × α)) : List (Value × α) :=
  keyed.mergeSort fun x y => decide (rank x.1 ≤ rank y.1)

theorem stableSort_sortedBy (rank : Value → ρ) (keyed : List (Value × α)) :
    StableSort (fun x => rank x.1) keyed (sortedBy rank keyed) := stableSort_mergeSort _ keyed

/-! ### Placed keys -/

/-- A placed key has its rank and its place. -/
def placeRank (rank : Value → ρ) (x : (Value × ℕ) × α) : ρ ×ₗ ℕ := toLex (rank x.1.1, x.1.2)

theorem keyBefore_eq {ks : List Value} (h : w.RankedBy rank ks) {a b : Value × ℕ} (ha : a.1 ∈ ks)
    (hb : b.1 ∈ ks) :
    keyBefore w a b = .ok (decide (toLex (rank a.1, a.2) < toLex (rank b.1, b.2))) := by
  obtain ⟨hsame, hbefore⟩ := h a.1 ha b.1 hb
  rw [keyBefore, hsame]
  simp only [bind, Except.bind, decide_eq_true_eq]
  split
  case isTrue heq => simp [Prod.Lex.toLex_lt_toLex, heq]
  case isFalse hne =>
    rw [hbefore hne]
    simp [Prod.Lex.toLex_lt_toLex, hne]

/-- The position of an item of a list that is counted out tells the item. -/
theorem eq_of_mem_zipIdx {xs : List β} {x y : β × ℕ} (hx : x ∈ xs.zipIdx) (hy : y ∈ xs.zipIdx)
    (hplace : x.2 = y.2) : x = y := by
  rw [List.mem_zipIdx_iff_getElem?] at hx hy
  rw [hplace, hy] at hx
  exact Prod.ext (Option.some.inj hx).symm hplace

/-- **Keyed values are sorted stably.** -/
theorem sortKeyed_eq (h : w.RankedBy rank (keyed.map Prod.fst)) :
    sortKeyed keyed w = .ok ((sortedBy rank keyed).map Prod.snd) w := by
  let placed : List ((Value × ℕ) × α) := keyed.zipIdx.map fun x => ((x.1.1, x.2), x.1.2)
  let unplaced (x : (Value × ℕ) × α) : (Value × α) × ℕ := ((x.1.1, x.2), x.1.2)
  have hunplaced : placed.map unplaced = keyed.zipIdx := by
    rw [List.map_map]
    exact List.map_id _
  have hdecides : Decides (keyBefore w) (placeRank rank) placed := by
    intro x hx y hy
    have hmem : ∀ z ∈ placed, z.1.1 ∈ keyed.map Prod.fst := by
      intro z hz
      obtain ⟨⟨kx, i⟩, hkx, rfl⟩ := List.mem_map.1 hz
      exact List.mem_map_of_mem (List.fst_mem_of_mem_zipIdx hkx)
    exact keyBefore_eq h (hmem x hx) (hmem y hy)
  obtain ⟨ys, hsort, hordered, hperm⟩ := Sorting.exists_sortByKey hdecides
  let le : (Value × α) × ℕ → (Value × α) × ℕ → Bool :=
    List.zipIdxLE fun x y => decide (rank x.1 ≤ rank y.1)
  have hle : ∀ x y : (Value × ℕ) × α, placeRank rank x ≤ placeRank rank y →
      le (unplaced x) (unplaced y) = true := by
    intro x y hxy
    rw [placeRank, placeRank, Prod.Lex.toLex_le_toLex] at hxy
    simp only [le, List.zipIdxLE, unplaced, decide_eq_true_eq]
    grind
  -- the places differ, so there is one order only
  have hys : ys.map unplaced = keyed.zipIdx.mergeSort le := by
    have hanti : ∀ x y, x ∈ ys.map unplaced → y ∈ keyed.zipIdx.mergeSort le → le x y = true →
        le y x = true → x = y := by
      intro x y hx hy hxy hyx
      have hx' : x ∈ keyed.zipIdx := hunplaced ▸ (hperm.map unplaced).subset hx
      have hy' : y ∈ keyed.zipIdx := (List.mergeSort_perm _ _).subset hy
      refine eq_of_mem_zipIdx hx' hy' ?_
      simp only [le, List.zipIdxLE] at hxy hyx
      grind
    refine List.Perm.eq_of_pairwise hanti ?_ ?_ ?_
    · exact List.pairwise_map.2 (hordered.imp fun hxy => hle _ _ hxy)
    · exact List.pairwise_mergeSort (List.zipIdxLE_trans (rankLE_trans fun x : Value × α => rank x.1))
        (List.zipIdxLE_total (rankLE_total fun x : Value × α => rank x.1)) _
    · exact (hunplaced ▸ hperm.map unplaced).trans (List.mergeSort_perm _ _).symm
  have hresult : ys.map Prod.snd = (sortedBy rank keyed).map Prod.snd := by
    rw [sortedBy, ← List.mergeSort_zipIdx, ← hys, List.map_map, List.map_map]
    rfl
  have hlook : World.look (fun w => Sorting.sortByKey (keyBefore w) placed) w = .ok ys w := by
    simp only [World.look, hsort]
  rw [← hresult]
  exact Act.bind_of_ok hlook

/-- The order of the items is found by their keys alone, whatever stands in the place of the items. -/
theorem sortKeyed_map (key : β → Value) (put : β → α) {xs : List β} (h : w.RankedBy rank (xs.map key)) :
    sortKeyed (xs.map fun x => (key x, put x)) w =
      .ok ((xs.mergeSort fun x y => decide (rank (key x) ≤ rank (key y))).map put) w := by
  have hkeys : (xs.map fun x => (key x, put x)).map Prod.fst = xs.map key := List.map_map
  have hsorted : (xs.mergeSort fun x y => decide (rank (key x) ≤ rank (key y))).map (fun x => (key x, put x)) =
      sortedBy rank (xs.map fun x => (key x, put x)) := List.map_mergeSort fun _ _ _ _ => rfl
  rw [sortKeyed_eq (hkeys.symm ▸ h), ← hsorted, List.map_map]
  rfl

/-- What is sorted by the ranks of its keys is in their order. -/
theorem exists_sortKeyed (key : β → Value) (xs : List β)
    (h : w.RankedBy rank (xs.map key)) (g : β → α) :
    ∃ ys : List β, sortKeyed (xs.map fun x => (key x, g x)) w = .ok (ys.map g) w ∧ ys.Perm xs ∧
      ys.Pairwise fun x y => rank (key x) ≤ rank (key y) :=
  have hstable := stableSort_mergeSort (fun x => rank (key x)) xs
  ⟨_, sortKeyed_map key g h, hstable.perm, hstable.ordered⟩

end GraphRoutes.Session
