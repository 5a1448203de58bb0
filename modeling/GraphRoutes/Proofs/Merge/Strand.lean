/-
**What a branch has to give, turn by turn.**

A branch of a merge is a plain route, a source of blocks, or a route that is cut into blocks of one size.
What there is under it is a sequence, finite or not: of items, of blocks that may be empty, or of items
that are to be cut.  The turns of a branch are made of it: single items, the blocks that hold anything,
and slices.

To take a turn, a branch asks what is under it as often as it must.  What it has been given by then are
just the items of its turns so far.

Main definitions:

* `GraphRoutes.Merge.Strand`, `GraphRoutes.Merge.Strand.turn` — what is under a branch, and its turns;
* `GraphRoutes.Merge.Strand.Fair` — no endless run of empty blocks, and no empty slices;
* `GraphRoutes.Merge.Strand.answer`, `GraphRoutes.Merge.Strand.pulled` — what is given when it is asked
  once more, and how often it has been asked for the first turns;
* `GraphRoutes.Merge.Schedule.ofStrands` — the schedule of some branches.

Main results:

* `GraphRoutes.Merge.Strand.given_pulled` — **no more is taken than what the turns give**;
* `GraphRoutes.Merge.Strand.finite_iff` — a branch comes to its end if what is under it does.
-/
import GraphRoutes.Proofs.Merge.Schedule
import Mathlib.Data.Nat.Nth
import Mathlib.Data.Seq.Basic

set_option relaxedAutoImplicit false
set_option autoImplicit false

namespace GraphRoutes.Merge

open Stream' (Seq)

variable {α : Type}

/-- What is under a branch of a merge. -/
inductive Strand (α : Type) where
  | plain (items : Seq α)
  | blocks (blocks : Seq (List α))
  | chunked (items : Seq α) (size : ℕ)

/-- The next items of a sequence behind its first `k`, at most `n`. -/
def slice (s : Seq α) (k n : ℕ) : List α := (s.drop k).take n

/-- A list that holds anything. -/
def filled? : List α → Option (List α)
  | [] => none
  | a :: as => some (a :: as)

namespace Strand

/-- A place in a sequence of blocks that counts: it holds a block with items, or is behind the end. -/
def Counts (s : Seq (List α)) (k : ℕ) : Prop := s.get? k ≠ some []

/-- What a branch gives at its turn `t`, unless it has ended. -/
noncomputable def turn : Strand α → ℕ → Option (List α)
  | plain s, t => (s.get? t).map fun a => [a]
  | blocks s, t => s.get? (Nat.nth (Counts s) t)
  | chunked s n, t => filled? (slice s (t * n) n)

/-- There is no endless run of empty blocks, and slices are not empty. -/
def Fair : Strand α → Prop
  | plain _ => True
  | blocks s => ∀ k, ∃ m, k ≤ m ∧ Counts s m
  | chunked _ n => 0 < n

/-- What is given when that which is under a branch is asked for the `k`-th time. -/
def answer : Strand α → ℕ → Option (List α)
  | plain s, k | chunked s _, k => (s.get? k).map fun a => [a]
  | blocks s, k => s.get? k

/-- What has been given after the first `k` questions. -/
def given : Strand α → ℕ → List α
  | plain s, k | chunked s _, k => s.take k
  | blocks s, k => (s.take k).flatten

/-- How often that which is under a branch is asked for the first `q` turns. -/
noncomputable def pulled : Strand α → ℕ → ℕ
  | plain _, q => q
  | blocks _, 0 => 0
  | blocks s, q + 1 => Nat.nth (Counts s) q + 1
  | chunked s n, q => ((List.range q).map fun t => min n ((slice s (t * n) n).length + 1)).sum

/-- What is under a branch comes to an end. -/
def Finite : Strand α → Prop
  | plain s | chunked s _ => s.Terminates
  | blocks s => s.Terminates

/-- All that a branch gives in its first `t` turns. -/
noncomputable def items (x : Strand α) (t : ℕ) : List α := (List.range t).flatMap fun r => (x.turn r).getD []

/-- What a branch gives from a turn on, before turn `T`. -/
noncomputable def rest (x : Strand α) (T t : ℕ) : List α :=
  (List.range' t (T - t)).flatMap fun r => (x.turn r).getD []

/-- The `k`-th item that a branch gives. -/
noncomputable def item? (x : Strand α) (k : ℕ) : Option α := (x.items (k + 1))[k]?

end Strand

/-! ### Slices -/

section

variable {s : Seq α} {k m n : ℕ}

theorem getElem?_slice (s : Seq α) (k n i : ℕ) :
    (slice s k n)[i]? = if i < n then s.get? (k + i) else none := by
  rw [slice, Stream'.Seq.getElem?_take, Stream'.Seq.drop_get?]

theorem length_slice_le (s : Seq α) (k n : ℕ) : (slice s k n).length ≤ n := Stream'.Seq.length_take_le

/-- A slice that is too short has come to the end. -/
theorem get?_of_length_slice_lt (h : (slice s k n).length < n) :
    s.get? (k + (slice s k n).length) = none := by
  have hget := getElem?_slice s k n (slice s k n).length
  rw [if_pos h] at hget
  rw [← hget, List.getElem?_eq_none (Nat.le_refl _)]

/-- Behind the end there is nothing. -/
theorem slice_of_none (h : s.get? k = none) (n : ℕ) : slice s k n = [] := by
  refine List.eq_nil_iff_forall_not_mem.2 fun a ha => ?_
  obtain ⟨i, hi⟩ := List.mem_iff_getElem?.1 ha
  rw [getElem?_slice, Stream'.Seq.le_stable s (Nat.le_add_right k i) h] at hi
  split at hi <;> cases hi

theorem slice_succ (s : Seq α) (k n : ℕ) :
    slice s k (n + 1) = (s.get? k).toList ++ slice s (k + 1) n := by
  cases h : s.get? k with
  | none =>
      rw [slice_of_none h, slice_of_none (Stream'.Seq.le_stable s (Nat.le_succ k) h)]
      rfl
  | some a =>
      rw [← Stream'.Seq.head_dropn] at h
      rw [slice, Stream'.Seq.head_eq_some h, Stream'.Seq.take_succ_cons]
      rfl

theorem slice_succ_of_get? {a : α} (ha : s.get? k = some a) : slice s k (n + 1) = a :: slice s (k + 1) n := by
  rw [slice_succ, ha, Option.toList_some, List.singleton_append]

theorem slice_one (s : Seq α) (k : ℕ) : slice s k 1 = (s.get? k).toList := by
  rw [slice_succ]
  exact List.append_nil _

/-- One slice behind the other. -/
theorem slice_append (s : Seq α) (k m n : ℕ) : slice s k m ++ slice s (k + m) n = slice s k (m + n) := by
  induction m generalizing k with
  | zero =>
      rw [Nat.zero_add]
      rfl
  | succ m ih =>
      rw [slice_succ, Nat.succ_add, slice_succ, List.append_assoc, ← ih (k + 1), Nat.add_right_comm k 1 m]
      rfl

theorem take_succ (s : Seq α) (k : ℕ) : s.take (k + 1) = s.take k ++ (s.get? k).toList := by
  have h := slice_append s 0 k 1
  rw [Nat.zero_add, slice_one] at h
  exact h.symm

theorem take_succ_of_get? {a : α} (ha : s.get? n = some a) : s.take (n + 1) = s.take n ++ [a] := by
  rw [take_succ, ha, Option.toList_some]

/-- A beginning that is too short has come to the end. -/
theorem get?_of_length_take_lt (h : (s.take n).length < n) : s.get? (s.take n).length = none := by
  have hend : s.get? (0 + (s.take n).length) = none := get?_of_length_slice_lt h
  rwa [Nat.zero_add] at hend

/-- What comes behind a beginning, comes where the beginning ends. -/
theorem get?_length_take (s : Seq α) (n : ℕ) : s.get? (s.take n).length = s.get? n := by
  rcases Nat.lt_or_eq_of_le (length_slice_le s 0 n) with hlt | heq
  · have hend := get?_of_length_take_lt hlt
    exact hend.trans (Stream'.Seq.le_stable s (Nat.le_of_lt hlt) hend).symm
  · exact congrArg s.get? heq

theorem length_take_of_get? {a : α} (ha : s.get? n = some a) : (s.take n).length = n := by
  refine Nat.le_antisymm (length_slice_le s 0 n) (Nat.le_of_not_lt fun hlt => ?_)
  have hend := get?_of_length_take_lt hlt
  rw [get?_length_take, ha] at hend
  cases hend

/-- Behind the end, nothing is added. -/
theorem take_of_get?_none (hend : s.get? n = none) (hmn : n ≤ m) : s.take m = s.take n := by
  induction m, hmn using Nat.le_induction with
  | base => rfl
  | succ m hm ih => rw [take_succ, ih, Stream'.Seq.le_stable s hm hend, Option.toList_none, List.append_nil]

/-- A sequence has not come to its end if it has as many items as were asked of it. -/
theorem length_take_mono (s : Seq α) (hmn : m ≤ n) : (s.take m).length ≤ (s.take n).length := by
  cases hget : s.get? m with
  | none => rw [take_of_get?_none hget hmn]
  | some a =>
      rcases Nat.eq_or_lt_of_le hmn with rfl | hlt
      · exact Nat.le_refl _
      · have hmem : (s.take n)[m]? = some a := by rw [Stream'.Seq.getElem?_take, if_pos hlt, hget]
        rw [length_take_of_get? hget]
        exact Nat.le_of_lt (List.getElem?_eq_some_iff.1 hmem).1

theorem filled?_eq_none {as : List α} : filled? as = none ↔ as = [] := by
  cases as <;> simp [filled?]

theorem getD_filled? (as : List α) : (filled? as).getD [] = as := by
  cases as <;> rfl

theorem filled?_ne_nil (as : List α) : filled? as ≠ some [] := by
  cases as <;> simp [filled?]

/-- An empty slice, unless it is meant to be empty, is one behind the end. -/
theorem get?_of_slice_nil (h : slice s k n = []) (hn : 0 < n) : s.get? k = none := by
  have hget := get?_of_length_slice_lt (s := s) (k := k) (n := n) (by rw [h]; exact hn)
  rwa [h] at hget

end

namespace Strand

/-! ### The blocks that count -/

section

variable {s : Seq (List α)}

theorem infinite_counts (h : (blocks s).Fair) : (Set.ofPred (Counts s)).Infinite := by
  refine Set.infinite_of_forall_exists_gt fun k => ?_
  obtain ⟨m, hm, hcounts⟩ := h (k + 1)
  exact ⟨m, hcounts, hm⟩

/-- A turn is not taken before those before it. -/
theorem pulled_le_nth (h : (blocks s).Fair) (q : ℕ) : (blocks s).pulled q ≤ Nat.nth (Counts s) q := by
  cases q with
  | zero => exact Nat.zero_le _
  | succ q => exact Nat.nth_strictMono (infinite_counts h) (Nat.lt_succ_self q)

/-- Between two turns there are empty blocks only. -/
theorem get?_of_skipped {q k : ℕ} (hk : (blocks s).pulled q ≤ k) (hlt : k < Nat.nth (Counts s) q) :
    s.get? k = some [] := by
  by_contra hcounts
  cases q with
  | zero =>
      rw [Nat.nth_zero] at hlt
      exact Nat.not_lt_of_le (Nat.sInf_le hcounts) hlt
  | succ q => exact Nat.not_lt_of_le (Nat.le_nth_of_lt_nth_succ hlt hcounts) hk

theorem counts_turn (h : (blocks s).Fair) (t : ℕ) : Counts s (Nat.nth (Counts s) t) :=
  Nat.nth_mem_of_infinite (infinite_counts h) t

end

/-! ### Turns -/

theorem filled {x : Strand α} (hx : x.Fair) (t : ℕ) : x.turn t ≠ some [] := by
  cases x with
  | plain s =>
      rw [turn]
      cases s.get? t <;> simp
  | blocks s => exact counts_turn hx t
  | chunked s n => exact filled?_ne_nil _

theorem stays {x : Strand α} (hx : x.Fair) {t : ℕ} (ht : x.turn t = none) : x.turn (t + 1) = none := by
  cases x with
  | plain s =>
      rw [turn, Option.map_eq_none_iff] at ht ⊢
      exact Stream'.Seq.le_stable s (Nat.le_succ t) ht
  | blocks s =>
      exact Stream'.Seq.le_stable s
        (Nat.nth_monotone (infinite_counts hx) (Nat.le_succ t)) ht
  | chunked s n =>
      rw [turn, filled?_eq_none] at ht ⊢
      refine slice_of_none (Stream'.Seq.le_stable s ?_ (get?_of_slice_nil ht hx)) n
      exact Nat.mul_le_mul_right n (Nat.le_succ t)

/-- What has ended stays ended. -/
theorem turn_eq_none_of_le {x : Strand α} (hx : x.Fair) {r t : ℕ} (hr : x.turn r = none) (hrt : r ≤ t) :
    x.turn t = none :=
  Nat.le_induction hr (fun _ _ => stays hx) t hrt

/-- **A branch comes to its end if what is under it does.** -/
theorem finite_iff {x : Strand α} (hx : x.Fair) : x.Finite ↔ ∃ t, x.turn t = none := by
  cases x with
  | plain s =>
      refine exists_congr fun t => ?_
      rw [turn, Option.map_eq_none_iff]
      rfl
  | blocks s =>
      constructor
      · rintro ⟨k, hk⟩
        have hle : k ≤ Nat.nth (Counts s) k :=
          Nat.le_nth fun hfinite => absurd hfinite (infinite_counts hx)
        exact ⟨k, Stream'.Seq.le_stable s hle hk⟩
      · rintro ⟨t, ht⟩
        exact ⟨_, ht⟩
  | chunked s n =>
      constructor
      · rintro ⟨k, hk⟩
        refine ⟨k, filled?_eq_none.2 (slice_of_none ?_ n)⟩
        exact Stream'.Seq.le_stable s (Nat.le_mul_of_pos_right k hx) hk
      · rintro ⟨t, ht⟩
        exact ⟨_, get?_of_slice_nil (filled?_eq_none.1 ht) hx⟩

/-! ### What the turns take -/

theorem items_succ (x : Strand α) (t : ℕ) : x.items (t + 1) = x.items t ++ (x.turn t).getD [] := by
  simp [items, List.range_succ]

theorem rest_zero (x : Strand α) (T : ℕ) : x.rest T 0 = x.items T := by
  rw [rest, items, List.range_eq_range']
  rfl

/-- A branch that has ended gives nothing from then on. -/
theorem rest_of_none {x : Strand α} (hx : x.Fair) {t : ℕ} (h : x.turn t = none) (T : ℕ) :
    x.rest T t = [] := by
  refine List.flatMap_eq_nil_iff.2 fun r hr => ?_
  rw [turn_eq_none_of_le hx h (List.mem_range'_1.1 hr).1]
  rfl

/-- A branch that has a turn gives that, and then the rest. -/
theorem rest_of_lt {x : Strand α} {T t : ℕ} {block : List α} (h : x.turn t = some block) (hlt : t < T) :
    x.rest T t = block ++ x.rest T (t + 1) := by
  obtain ⟨n, hn⟩ := Nat.exists_eq_add_of_lt hlt
  have hfirst : T - t = n + 1 := by omega
  have hrest : T - (t + 1) = n := by omega
  rw [rest, rest, hfirst, hrest, List.range'_succ, List.flatMap_cons, h]
  rfl

/-- Nothing is left behind the last turn. -/
theorem rest_self (x : Strand α) (T : ℕ) : x.rest T T = [] := by
  rw [rest, Nat.sub_self]
  rfl

/-- The first turns, and then the rest. -/
theorem items_append_rest (x : Strand α) {T t : ℕ} (ht : t ≤ T) : x.items t ++ x.rest T t = x.items T := by
  rw [← rest_zero, ← rest_zero, rest, rest, rest, ← List.flatMap_append, Nat.sub_zero, Nat.sub_zero]
  have happend := List.range'_append_1 (s := 0) (m := t) (n := T - t)
  rw [Nat.zero_add, Nat.add_sub_cancel' ht] at happend
  rw [happend]

/-- Every turn holds anything, so there are as many items as turns at least. -/
theorem le_length_items {x : Strand α} (hx : x.Fair) {t : ℕ} (ht : x.turn t ≠ none) :
    t + 1 ≤ (x.items (t + 1)).length := by
  induction t with
  | zero =>
      obtain ⟨block, hblock⟩ := Option.ne_none_iff_exists'.1 ht
      rw [items_succ, hblock, List.length_append]
      exact Nat.le_add_left_of_le (List.length_pos_iff.2 fun hnil => filled hx 0 (hnil ▸ hblock))
  | succ t ih =>
      obtain ⟨block, hblock⟩ := Option.ne_none_iff_exists'.1 ht
      rw [items_succ, hblock, List.length_append]
      exact Nat.add_le_add (ih fun hnone => ht (stays hx hnone))
        (List.length_pos_iff.2 fun hnil => filled hx (t + 1) (hnil ▸ hblock))

/-- An item of any number of turns is what the branch gives at its place. -/
theorem item?_of_getElem? {x : Strand α} (hx : x.Fair) {T k : ℕ} {a : α} (ha : (x.items T)[k]? = some a) :
    x.item? k = some a := by
  rcases Nat.le_total T (k + 1) with hle | hle
  · rw [item?, ← items_append_rest x hle, List.getElem?_append_left (List.getElem?_eq_some_iff.1 ha).1, ha]
  · rw [← items_append_rest x hle] at ha
    cases hturn : x.turn k with
    | none => rwa [rest_of_none hx (stays hx hturn), List.append_nil] at ha
    | some block =>
        have hlt : k < (x.items (k + 1)).length := le_length_items hx (by simp [hturn])
        rwa [List.getElem?_append_left hlt] at ha

/-- A branch that has ended gives nothing behind its items. -/
theorem item?_of_none {x : Strand α} (hx : x.Fair) {t k : ℕ} (ht : x.turn t = none)
    (hk : (x.items t).length ≤ k) : x.item? k = none := by
  rw [item?, List.getElem?_eq_none]
  rcases Nat.le_total t (k + 1) with hle | hle
  · rwa [← items_append_rest x hle, rest_of_none hx ht, List.append_nil]
  · have hlength := congrArg List.length (items_append_rest x hle)
    rw [List.length_append] at hlength
    omega

theorem items_plain (s : Seq α) (t : ℕ) : (plain s).items t = s.take t := by
  induction t with
  | zero => rfl
  | succ t ih =>
      rw [items_succ, ih, take_succ, turn]
      cases s.get? t <;> rfl

/-- The items of a route. -/
@[simp] theorem item?_plain (s : Seq α) (k : ℕ) : (plain s).item? k = s.get? k := by
  rw [item?, items_plain, Stream'.Seq.getElem?_take, if_pos (Nat.lt_succ_self k)]

theorem pulled_succ_chunked (s : Seq α) (n q : ℕ) : (chunked s n).pulled (q + 1) =
    (chunked s n).pulled q + min n ((slice s (q * n) n).length + 1) := by
  simp [pulled, List.range_succ]

/-- Slices are taken without a gap, up to the end. -/
theorem pulled_chunked (s : Seq α) (n q : ℕ) :
    (chunked s n).pulled q = q * n ∨
      (chunked s n).pulled q ≤ q * n ∧ ∃ e < (chunked s n).pulled q, s.get? e = none := by
  induction q with
  | zero => exact .inl (Nat.zero_mul n).symm
  | succ q ih =>
      rw [pulled_succ_chunked, Nat.succ_mul]
      rcases ih with hq | ⟨hle, e, he, hend⟩
      · rw [hq]
        by_cases hshort : (slice s (q * n) n).length < n
        · refine .inr ⟨Nat.add_le_add_left (Nat.min_le_left _ _) _, _, ?_, get?_of_length_slice_lt hshort⟩
          rw [Nat.min_eq_right hshort]
          exact Nat.add_lt_add_left (Nat.lt_succ_self _) _
        · rw [Nat.min_eq_left (Nat.le_succ_of_le (Nat.le_of_not_lt hshort))]
          exact .inl rfl
      · exact .inr ⟨Nat.add_le_add hle (Nat.min_le_left _ _), e, Nat.lt_add_right _ he, hend⟩

/-- Where the next slice is taken, there are the items of the next turn. -/
theorem get?_pulled_chunked (s : Seq α) (n q i : ℕ) :
    s.get? ((chunked s n).pulled q + i) = s.get? (q * n + i) := by
  rcases pulled_chunked s n q with hq | ⟨hle, e, he, hend⟩
  · rw [hq]
  · have hfirst : s.get? ((chunked s n).pulled q + i) = none :=
      Stream'.Seq.le_stable s (Nat.le_add_right_of_le (Nat.le_of_lt he)) hend
    have hsecond : s.get? (q * n + i) = none :=
      Stream'.Seq.le_stable s (Nat.le_add_right_of_le (Nat.le_trans (Nat.le_of_lt he) hle)) hend
    rw [hfirst, hsecond]

theorem slice_pulled_chunked (s : Seq α) (n q : ℕ) :
    slice s ((chunked s n).pulled q) n = slice s (q * n) n := by
  refine List.ext_getElem? fun i => ?_
  rw [getElem?_slice, getElem?_slice, get?_pulled_chunked]

/-- **No more is taken than what the turns give**: what has been given for the first turns are just
their items. -/
theorem given_pulled {x : Strand α} (hx : x.Fair) (q : ℕ) : x.given (x.pulled q) = x.items q := by
  induction q with
  | zero => cases x <;> rfl
  | succ q ih =>
      rw [items_succ, ← ih]
      cases x with
      | plain s =>
          rw [given, pulled, take_succ, turn]
          cases s.get? q <;> rfl
      | blocks s =>
          have hskipped : (slice s ((blocks s).pulled q)
              (Nat.nth (Counts s) q - (blocks s).pulled q)).flatten = [] := by
            refine List.flatten_eq_nil_iff.2 fun block hblock => ?_
            obtain ⟨i, hi⟩ := List.mem_iff_getElem?.1 hblock
            rw [getElem?_slice] at hi
            split at hi
            · next hlt =>
                rw [get?_of_skipped (Nat.le_add_right _ i) (by omega)] at hi
                exact (Option.some.inj hi).symm
            · cases hi
          have hsplit := slice_append s 0 ((blocks s).pulled q)
            (Nat.nth (Counts s) q - (blocks s).pulled q)
          rw [Nat.zero_add, Nat.add_sub_cancel' (pulled_le_nth hx q)] at hsplit
          have htake : (s.take (Nat.nth (Counts s) q)).flatten = (s.take ((blocks s).pulled q)).flatten := by
            have hflat := congrArg List.flatten hsplit
            rw [List.flatten_append, hskipped, List.append_nil] at hflat
            exact hflat.symm
          rw [given, pulled, take_succ, List.flatten_append, htake, turn, given]
          cases s.get? (Nat.nth (Counts s) q) <;> simp
      | chunked s n =>
          have hslice := slice_append s 0 ((chunked s n).pulled q)
            (min n ((slice s (q * n) n).length + 1))
          rw [Nat.zero_add] at hslice
          rw [given, given, pulled_succ_chunked, turn, getD_filled?]
          refine hslice.symm.trans (congrArg (List.append _) ?_)
          refine List.ext_getElem? fun i => ?_
          rw [getElem?_slice, getElem?_slice, get?_pulled_chunked]
          -- an item behind a slice that is too short is behind the end
          by_cases hshort : (slice s (q * n) n).length < n
          · rw [Nat.min_eq_right hshort]
            by_cases hi : i < (slice s (q * n) n).length + 1
            · rw [if_pos hi, if_pos (by omega)]
            · rw [if_neg hi, Stream'.Seq.le_stable s (by omega) (get?_of_length_slice_lt hshort), ite_self]
          · rw [Nat.min_eq_left (Nat.le_succ_of_le (Nat.le_of_not_lt hshort))]

end Strand

/-! ### Schedules -/

/-- The schedule of some branches. -/
noncomputable def Schedule.ofStrands (xs : List (Strand α)) (hxs : ∀ x ∈ xs, x.Fair) : Schedule α where
  size := xs.length
  turn i t := xs[i]?.bind fun x => x.turn t
  filled i t := by
    cases hx : xs[i]? with
    | none => simp
    | some x => exact Strand.filled (hxs x (List.mem_of_getElem? hx)) t
  stays i t := by
    cases hx : xs[i]? with
    | none => simp
    | some x => exact Strand.stays (hxs x (List.mem_of_getElem? hx))

theorem Schedule.turn_ofStrands {xs : List (Strand α)} (hxs : ∀ x ∈ xs, x.Fair) {i : ℕ} {x : Strand α}
    (hx : xs[i]? = some x) (t : ℕ) : (Schedule.ofStrands xs hxs).turn i t = x.turn t := by
  change (xs[i]?.bind fun x => x.turn t) = x.turn t
  rw [hx, Option.bind_some]

end GraphRoutes.Merge
