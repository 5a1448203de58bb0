/-
**The order in which branches take their turns.**

Branches take turns in rounds: in each round every branch that still has a turn takes it, in the order
of the branches.  A branch is due in the first round, and in any other round if it took its turn in the
round before; the round in which a branch is due and has no turn is the one in which its end is found.

The rounds, one behind the other, make up a row of slots, one slot for each branch in each round.  At
any time the branches that are waiting are those that are due among the next slots, as many as there
are branches.

Main definitions:

* `GraphRoutes.Merge.Schedule` — the turns that each branch has;
* `GraphRoutes.Merge.Schedule.rounds`, `GraphRoutes.Merge.Schedule.before` — **what the branches
  give**, in the first rounds and in a part of a round;
* `GraphRoutes.Merge.Schedule.asked` — how often a branch has been asked after some rounds;
* `GraphRoutes.Merge.Schedule.output`, `GraphRoutes.Merge.Schedule.queue` — what the first slots
  give, and the slots at which the waiting branches are due.

Main results:

* `GraphRoutes.Merge.Schedule.slot_induction` — from slot to slot, round by round;
* `GraphRoutes.Merge.Schedule.output_eq`, `GraphRoutes.Merge.Schedule.asks_eq` — slots and rounds;
* `GraphRoutes.Merge.Schedule.queue_eq`, `GraphRoutes.Merge.Schedule.queue_succ` — how the waiting
  branches move on by one slot;
* `GraphRoutes.Merge.Schedule.perm_rounds` — **nothing is lost and nothing is doubled**.
-/
import Mathlib.Data.List.Perm.Basic
import Mathlib.Data.List.Range

set_option relaxedAutoImplicit false
set_option autoImplicit false

namespace GraphRoutes.Merge

/-- The turns of some branches: what each of them gives at which turn, as long as it has any. -/
structure Schedule (γ : Type) where
  size : ℕ
  turn : ℕ → ℕ → Option (List γ)
  filled : ∀ i t, turn i t ≠ some []
  stays : ∀ i t, turn i t = none → turn i (t + 1) = none

namespace Schedule

variable {γ : Type} (S : Schedule γ)

/-! ### Rounds -/

/-- Whether a branch is asked in a round: it had a turn in the round before. -/
def due (i : ℕ) : ℕ → Bool
  | 0 => true
  | t + 1 => (S.turn i t).isSome

/-- How often a branch has been asked after the first `t` rounds. -/
def asked (i t : ℕ) : ℕ := (List.range t).countP (S.due i)

/-- What the branches before the `i`-th give in a round. -/
def before (i t : ℕ) : List γ := (List.range i).flatMap fun j => (S.turn j t).getD []

/-- What all branches give in a round. -/
def round (t : ℕ) : List γ := S.before S.size t

/-- What all branches give in the first `t` rounds. -/
def rounds (t : ℕ) : List γ := (List.range t).flatMap S.round

/-- All that one branch gives in its first `t` turns. -/
def share (i t : ℕ) : List γ := (List.range t).flatMap fun r => (S.turn i r).getD []

theorem before_succ (i t : ℕ) : S.before (i + 1) t = S.before i t ++ (S.turn i t).getD [] := by
  simp [before, List.range_succ]

theorem rounds_succ (t : ℕ) : S.rounds (t + 1) = S.rounds t ++ S.round t := by
  simp [rounds, List.range_succ]

theorem share_succ (i t : ℕ) : S.share i (t + 1) = S.share i t ++ (S.turn i t).getD [] := by
  simp [share, List.range_succ]

theorem asked_succ (i t : ℕ) :
    S.asked i (t + 1) = S.asked i t + if S.due i t then 1 else 0 := by
  simp [asked, List.range_succ, List.countP_append, List.countP_singleton]

/-- What has ended stays ended. -/
theorem turn_eq_none_of_le {i r t : ℕ} (h : S.turn i r = none) (hrt : r ≤ t) : S.turn i t = none := by
  induction t, hrt using Nat.le_induction with
  | base => exact h
  | succ t _ ih => exact S.stays i t ih

/-- A branch that is due has been due in all rounds before. -/
theorem due_of_le {i r t : ℕ} (h : S.due i t = true) (hrt : r ≤ t) : S.due i r = true := by
  cases r with
  | zero => rfl
  | succ r =>
      obtain ⟨t, rfl⟩ := Nat.exists_eq_add_of_le' (Nat.le_trans (Nat.succ_le_succ (Nat.zero_le r)) hrt)
      by_contra hr
      rw [due, Option.not_isSome_iff_eq_none] at hr
      rw [due, S.turn_eq_none_of_le hr (Nat.le_of_succ_le_succ hrt)] at h
      cases h

/-- A branch that is due has been asked in every round. -/
theorem asked_of_due {i t : ℕ} (h : S.due i t = true) : S.asked i t = t := by
  have hall : ∀ r ∈ List.range t, S.due i r = true := fun r hr =>
    S.due_of_le h (Nat.le_of_lt (List.mem_range.1 hr))
  rw [asked, List.countP_eq_length.2 hall, List.length_range]

theorem turn_of_not_due {i t : ℕ} (h : S.due i t = false) : S.turn i t = none := by
  cases t with
  | zero => cases h
  | succ t =>
      rw [due, Option.isSome_eq_false_iff, Option.isNone_iff_eq_none] at h
      exact S.stays i t h

/-- A branch that still has a turn has given something in every round before. -/
theorem le_length_rounds {i t : ℕ} (hi : i < S.size) (h : S.due i t = true) : t ≤ (S.rounds t).length := by
  induction t with
  | zero => exact Nat.zero_le _
  | succ t ih =>
      obtain ⟨block, hturn⟩ := Option.isSome_iff_exists.1 h
      obtain ⟨a, ha⟩ := List.exists_mem_of_ne_nil block fun hnil => S.filled i t (hnil ▸ hturn)
      have hround : a ∈ S.round t := by
        refine List.mem_flatMap.2 ⟨i, List.mem_range.2 hi, ?_⟩
        rwa [hturn]
      rw [rounds_succ, List.length_append]
      exact Nat.add_le_add (ih (S.due_of_le h (Nat.le_succ t))) (List.length_pos_of_mem hround)

/-- **Nothing is lost and nothing is doubled**: the rounds hold what the branches give, branch by
branch, in another order. -/
theorem perm_rounds (t : ℕ) :
    (S.rounds t).Perm ((List.range S.size).flatMap fun i => S.share i t) := by
  induction t with
  | zero => simp [rounds, share]
  | succ t ih =>
      rw [rounds_succ]
      refine (ih.append_right _).trans ?_
      have hshare : (fun i => S.share i (t + 1)) =
          fun i => S.share i t ++ (S.turn i t).getD [] := by
        funext i
        exact S.share_succ i t
      rw [hshare]
      exact List.flatMap_append_perm (List.range S.size) _ _

/-! ### Slots -/

/-- What is given at a slot. -/
def slot (m : ℕ) : Option (List γ) := S.turn (m % S.size) (m / S.size)

/-- Whether the branch of a slot is asked there. -/
def dueAt (m : ℕ) : Bool := S.due (m % S.size) (m / S.size)

/-- What is given at the first `m` slots. -/
def output (m : ℕ) : List γ := (List.range m).flatMap fun n => (S.slot n).getD []

/-- How often a branch has been asked at the first `m` slots. -/
def asks (m i : ℕ) : ℕ := (List.range m).countP fun n => n % S.size = i && S.dueAt n

/-- The slots at which those branches are due that wait at a slot, apart from its own. -/
def others (m : ℕ) : List ℕ := (List.range' (m + 1) (S.size - 1)).filter S.dueAt

/-- The slots at which the branches are due that wait at a slot. -/
def queue (m : ℕ) : List ℕ := (List.range' m S.size).filter S.dueAt

theorem output_succ (m : ℕ) : S.output (m + 1) = S.output m ++ (S.slot m).getD [] := by
  simp [output, List.range_succ]

theorem asks_succ (m : ℕ) : S.asks (m + 1) =
    if S.dueAt m then Function.update (S.asks m) (m % S.size) (S.asks m (m % S.size) + 1)
    else S.asks m := by
  funext i
  have hcount : S.asks (m + 1) i =
      S.asks m i + if m % S.size = i && S.dueAt m then 1 else 0 := by
    simp [asks, List.range_succ, List.countP_append, List.countP_singleton]
  rw [hcount]
  cases S.dueAt m with
  | false => simp
  | true =>
      by_cases hi : m % S.size = i
      · simp [hi]
      · simp [hi, Function.update_of_ne (Ne.symm hi)]

variable {S} {i t m : ℕ}

theorem slot_mod (hi : i < S.size) (t : ℕ) : (t * S.size + i) % S.size = i := by
  rw [Nat.add_comm, Nat.add_mul_mod_self_right, Nat.mod_eq_of_lt hi]

theorem slot_div (hi : i < S.size) (t : ℕ) : (t * S.size + i) / S.size = t := by
  rw [Nat.add_comm, Nat.add_mul_div_right _ _ (Nat.zero_lt_of_lt hi), Nat.div_eq_of_lt hi, Nat.zero_add]

/-- What is given at the slot of a branch in a round. -/
theorem slot_eq (hi : i < S.size) (t : ℕ) : S.slot (t * S.size + i) = S.turn i t := by
  rw [slot, slot_mod hi, slot_div hi]

theorem dueAt_eq (hi : i < S.size) (t : ℕ) : S.dueAt (t * S.size + i) = S.due i t := by
  rw [dueAt, slot_mod hi, slot_div hi]

/-- What holds at the first slot of all, behind a slot if it holds there, and at the end of a round if it
holds at the beginning of the next, holds at every slot of every round. -/
theorem slot_induction {motive : ℕ → ℕ → Prop} (zero : motive 0 0)
    (step : ∀ t i, i < S.size → motive t i → motive t (i + 1))
    (wrap : ∀ t, motive t S.size → motive (t + 1) 0) (t : ℕ) (hi : i ≤ S.size) : motive t i := by
  have hround : ∀ t, motive t 0 → ∀ i ≤ S.size, motive t i := by
    intro t h i hi
    induction i with
    | zero => exact h
    | succ i ih => exact step t i hi (ih (Nat.le_of_lt hi))
  have hstart : ∀ t, motive t 0 := by
    intro t
    induction t with
    | zero => exact zero
    | succ t ih => exact wrap t (hround t ih S.size (Nat.le_refl _))
  exact hround t (hstart t) i hi

theorem slot_of_not_dueAt (h : S.dueAt m = false) : S.slot m = none := S.turn_of_not_due h

/-- **Slots and rounds**: what is given before the slot of a branch in a round. -/
theorem output_eq (hi : i ≤ S.size) (t : ℕ) :
    S.output (t * S.size + i) = S.rounds t ++ S.before i t := by
  refine slot_induction (motive := fun t i => S.output (t * S.size + i) = S.rounds t ++ S.before i t)
    ?_ ?_ ?_ t hi
  · rw [Nat.zero_mul]
    rfl
  · intro t i hi ih
    rw [← Nat.add_assoc, output_succ, ih, slot_eq hi, before_succ, List.append_assoc]
  · intro t ih
    rw [Nat.succ_mul, Nat.add_zero, ih, rounds_succ]
    exact (List.append_nil _).symm

/-- How often a branch has been asked before the slot of a branch in a round. -/
theorem asks_eq (hi : i ≤ S.size) (t : ℕ) {j : ℕ} (hj : j < S.size) :
    S.asks (t * S.size + i) j = S.asked j (if j < i then t + 1 else t) := by
  refine slot_induction
    (motive := fun t i => S.asks (t * S.size + i) j = S.asked j (if j < i then t + 1 else t)) ?_ ?_ ?_ t hi
  · rw [Nat.zero_mul]
    rfl
  · intro t i hi ih
    rw [← Nat.add_assoc, asks_succ, slot_mod hi, dueAt_eq hi]
    rcases Nat.lt_trichotomy j i with hlt | rfl | hlt
    · rw [if_pos hlt] at ih
      rw [if_pos (Nat.lt_succ_of_lt hlt), ← ih]
      cases S.due i t with
      | false => rfl
      | true => exact Function.update_of_ne (Nat.ne_of_lt hlt) _ _
    · rw [if_neg (Nat.lt_irrefl j)] at ih
      rw [if_pos (Nat.lt_succ_self j), asked_succ]
      cases S.due j t <;> simp [ih]
    · rw [if_neg (Nat.not_lt_of_lt hlt)] at ih
      rw [if_neg (Nat.not_lt_of_le hlt), ← ih]
      cases S.due i t with
      | false => rfl
      | true => exact Function.update_of_ne (Nat.ne_of_gt hlt) _ _
  · intro t ih
    rw [if_pos hj] at ih
    rw [Nat.succ_mul, Nat.add_zero, ih]
    rfl

/-- A branch that is due at a slot has been asked once in each round before. -/
theorem asks_of_dueAt (hsize : 0 < S.size) (hm : S.dueAt m = true) :
    S.asks m (m % S.size) = m / S.size := by
  have hmod : m % S.size < S.size := Nat.mod_lt m hsize
  have h := asks_eq (Nat.le_of_lt hmod) (m / S.size) hmod
  rw [Nat.div_add_mod', if_neg (Nat.lt_irrefl _)] at h
  rw [h, S.asked_of_due hm]

/-- The branch of a slot is the first one that waits, if it is due. -/
theorem queue_eq (hsize : 0 < S.size) (m : ℕ) :
    S.queue m = (if S.dueAt m then [m] else []) ++ S.others m := by
  obtain ⟨n, hn⟩ := Nat.exists_eq_succ_of_ne_zero (Nat.ne_of_gt hsize)
  rw [queue, others, hn, List.range'_succ, List.filter_cons]
  split <;> rfl

/-- Behind a slot its branch waits again if it has had its turn there. -/
theorem queue_succ (hsize : 0 < S.size) (m : ℕ) :
    S.queue (m + 1) = S.others m ++ if (S.slot m).isSome then [m + S.size] else [] := by
  have hdue : S.dueAt (m + S.size) = (S.slot m).isSome := by
    rw [dueAt, Nat.add_mod_right, Nat.add_div_right m hsize]
    rfl
  have hrange : List.range' (m + 1) S.size = List.range' (m + 1) (S.size - 1) ++ [m + S.size] := by
    obtain ⟨n, hn⟩ := Nat.exists_eq_succ_of_ne_zero (Nat.ne_of_gt hsize)
    rw [hn, Nat.succ_sub_one, List.range'_concat, Nat.one_mul, Nat.add_right_comm, Nat.add_assoc]
  rw [queue, others, hrange, List.filter_append, List.filter_singleton, hdue]
  cases (S.slot m).isSome <;> rfl

/-- A branch without a turn in a round is not in the queue behind it. -/
theorem queue_of_ended {T : ℕ} (hend : ∀ i < S.size, S.turn i T = none) :
    S.queue ((T + 1) * S.size) = [] := by
  refine List.filter_eq_nil_iff.2 fun n hn => ?_
  obtain ⟨i, hi, rfl⟩ := List.mem_range'.1 hn
  rw [Nat.one_mul, dueAt_eq hi, due, hend i hi]
  exact Bool.false_ne_true

/-- If nobody has a turn in a round, nothing is given there. -/
theorem rounds_of_ended {T : ℕ} (hend : ∀ i < S.size, S.turn i T = none) :
    S.rounds (T + 1) = S.rounds T := by
  rw [rounds_succ, round, before, List.flatMap_eq_nil_iff.2, List.append_nil]
  intro i hi
  rw [hend i (List.mem_range.1 hi)]
  rfl

end Schedule

end GraphRoutes.Merge
