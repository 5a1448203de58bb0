/-
**Merging branches in turn.**

Of branches that do not share an iterator, a merge gives for round after round the turn of every branch
that still has one, in the order of the branches.  It reads no branch ahead of the turn that is being given,
so branches may go on for ever.

Main definitions:

* `GraphRoutes.Session.TakesTurns` — what a merge in turn does.

Main results:

* `GraphRoutes.Session.round_robin_takes_turns` — **a merge takes turns**;
* `GraphRoutes.Session.not_round_robin_takes_turns_always` — not if blocks are longer than a sequence can be,
  and not like a merge one after the other if the branches change meanwhile.
-/
import GraphRoutes.Proofs.Session.Exhaustive

set_option relaxedAutoImplicit false
set_option autoImplicit false

namespace GraphRoutes

namespace Merge

variable {α : Type}

/-- Round by round there is what there is branch by branch. -/
theorem Schedule.perm_rounds_ofStrands {xs : List (Strand α)} (hxs : ∀ x ∈ xs, x.Fair) (T : ℕ) :
    ((Schedule.ofStrands xs hxs).rounds T).Perm (xs.flatMap (·.items T)) := by
  have hshare : (List.range xs.length).map (fun i => (Schedule.ofStrands xs hxs).share i T) =
      xs.map (·.items T) := by
    refine List.ext_getElem (by simp) fun i hi hi' => ?_
    rw [List.length_map] at hi'
    have hx : xs[i]? = some xs[i] := List.getElem?_eq_getElem hi'
    simp only [List.getElem_map, List.getElem_range, share, Strand.items, turn_ofStrands hxs hx]
  have hflat : (List.range xs.length).flatMap (fun i => (Schedule.ofStrands xs hxs).share i T) =
      xs.flatMap (·.items T) := by
    rw [List.flatMap_def, hshare, List.flatMap_def]
  exact hflat ▸ (Schedule.ofStrands xs hxs).perm_rounds T

end Merge

namespace Session

open World Merge Filter

variable {α : Type} {h : Host} {d : ℕ} {R : α → Value → Prop} {r : Value} {rs : List Value}
  {xs : List (Strand α)} {stands : Positions → Set ℕ → World → Prop} {w : World}

/-- What a merge in turn does, for every host that may take enough steps. -/
structure TakesTurns (hm : Mergeable h d R r rs xs stands w) (it : Value) (u : World) : Prop where
  /-- Up to any item of any turn it gives the turns of the rounds before, those of the branches before, and
  the turn itself up to there.  By then, a branch up to the one whose turn it is has been asked for its turns
  up to this round, and another one for those up to the round before, except behind its end. -/
  reads : ∀ {i t j : ℕ} {block : List α}, hm.schedule.turn i t = some block → j < block.length →
    ∀ᶠ N in atTop, ∀ n, d + 2 ≤ n → ∃ ys v, Reads ((h.grant N).up n) it ys u v ∧
      List.Forall₂ R (hm.schedule.rounds t ++ hm.schedule.before i t ++ block.take (j + 1)) ys ∧
      Asked stands xs (fun k => hm.schedule.asked k (if k ≤ i then t + 1 else t)) v
  /-- What is under a branch has been asked for the items of these turns, and not beyond. -/
  given : ∀ x ∈ xs, ∀ q, x.given (x.pulled q) = x.items q
  /-- It gives nothing but the turns of the branches. -/
  gives : ∀ {T : ℕ}, (∀ x ∈ xs, x.turn T = none) →
    ∀ᶠ N in atTop, ∀ n, d + 2 ≤ n → ∃ ys v, Gives ((h.grant N).up n) it ys u v ∧
      List.Forall₂ R (hm.schedule.rounds T) ys
  /-- It ends if every branch does, and only then. -/
  ends_iff : (∃ k, ∀ᶠ N in atTop, ∀ n, d + 2 ≤ n → ∃ ys v, Gives ((h.grant N).up n) it ys u v ∧
    ys.length = k) ↔ ∀ x ∈ xs, x.Finite
  /-- A merge that reads one branch after the other gives the same items in another order, if reading the
  branches does not change which ones there are. -/
  exhaustive : (∀ f P v, stands f P v → v.branches? r = some rs) →
    ∃ e v, (∀ H : Host, H.callOp .mergeExhaustive [r] [] w = .ok e v) ∧
      ∀ T, (∀ x ∈ xs, x.turn T = none) → (hm.schedule.rounds T).Perm (xs.flatMap (·.items T)) ∧
        ∀ᶠ N in atTop, ∀ n, d + 3 ≤ n → ∃ zs v', Gives ((h.grant N).up n) e zs v v' ∧
          List.Forall₂ R (xs.flatMap (·.items T)) zs

/-- **A merge takes turns.** -/
theorem round_robin_takes_turns (hm : Mergeable h d R r rs xs stands w) :
    ∃ it u, (∀ H : Host, H.callOp .mergeRoundRobin [r] [] w = .ok it u) ∧ TakesTurns hm it u := by
  refine ⟨_, _, fun H => callOp_mergeRoundRobin H r w, ?_⟩
  exact {
    reads := hm.eventually_reads
    given := fun x hx q => Strand.given_pulled (hm.fair x hx) q
    gives := hm.eventually_gives
    ends_iff := hm.ends_iff
    exhaustive := fun hkept => by
      obtain ⟨p, outer, place, v, hcall, hat⟩ := hm.exists_exhaustive
      exact ⟨_, v, hcall, fun T hT => ⟨Schedule.perm_rounds_ofStrands hm.fair T,
        hm.eventually_gives_each hkept hT hat⟩⟩ }

/-! ### Numbers -/

/-- A count that does not end, and three numbers that are cut into pairs. -/
def countAndPairs : World where
  cursors := #[.countFrom (.int 0) (.int 1), .items .tuple [.int 7, .int 8, .int 9],
    .cut (cutOf (.ref .iterator 1) 2)]
  blocks := #[.ref .iterator 2]

/-- The numbers that are cut. -/
def threeNumbersToCut : List ℤ := [7, 8, 9]

/-- The numbers of a count, and three numbers in pairs. -/
def numberStrands : List (Strand ℤ) :=
  [.plain (Stream'.Seq.ofStream fun n => (n : ℤ)), .chunked (Stream'.Seq.ofList threeNumbersToCut) 2]

/-- Where a count and three numbers stand. -/
inductive NumbersStand : Positions → Set ℕ → World → Prop
  | mk {f : Positions} {w : World} (k l : ℕ) (h₀ : f 0 = none ∧ k = 0 ∨ f 0 = some (.ref .iterator 0, k))
      (h₁ : f 1 = some (.ref .iterator 1, l)) (hc : w.cursors[0]? = some (.countFrom (.int k) (.int 1)))
      (hi : w.cursors[1]? = some (.items .tuple ((threeNumbersToCut.drop l).map .int))) :
      NumbersStand f {0, 1} w

theorem footing_numbers : Footing (fun (a : ℤ) v => v = .int a) NumbersStand where
  handed a x x' hx hhanded := by
    subst hx
    exact hhanded.eq_of_marked rfl
  has f P w hstands := by
    obtain ⟨k, l, -, -, hc, hi⟩ := hstands
    rintro j (rfl | rfl)
    · exact (Array.getElem?_eq_some_iff.1 hc).1
    · exact (Array.getElem?_eq_some_iff.1 hi).1
  quiet f P w v hstands hv := by
    obtain ⟨k, l, h₀, h₁, hc, hi⟩ := hstands
    exact ⟨k, l, h₀, h₁, (hv.same 0 (.inl rfl)).trans hc, (hv.same 1 (.inr rfl)).trans hi⟩

/-- What stands on a place gives an item, and goes on from there. -/
theorem exists_pull_number {h : Host} {place : ℕ} {c c' : Cursor} {turn : M (Turn Value)} {n : ℤ}
    (hc : w.cursors[place]? = some c) (hturn : openTurn? h place c = some turn)
    (hgive : turn w = .ok (.give (.int n)) { w with cursors := w.cursors.setIfInBounds place c' })
    (hfuel : 0 < h.fuel) :
    ∃ v, h.above.pull (.ref .iterator place) w = .ok (some (.int n)) v ∧ Uses {place} w v ∧
      v.cursors[place]? = some c' := by
  obtain ⟨x, marks, hpull, hhanded⟩ := pull_of_nextItem (nextItem_of_turn hc hturn hgive rfl hfuel)
  obtain rfl := hhanded.eq_of_marked rfl
  exact ⟨_, hpull, uses_settle w place c' marks, getElem?_setCursor hc⟩

/-- A count and three numbers are apart from one another. -/
theorem apart_numbers : Apart (host 0) 1 (fun (a : ℤ) v => v = .int a)
    [.ref .iterator 0, .ref .blocks 0] numberStrands NumbersStand where
  toFooting := footing_numbers
  opens := by
    intro f P w i r r' hstands hf hr hhanded
    obtain ⟨k, l, h₀, h₁, hc, hi⟩ := hstands
    match i, hr with
    | 0, hr =>
        cases hr
        obtain rfl := hhanded.eq_of_marked rfl
        obtain ⟨-, rfl⟩ | h₀ := h₀
        · exact ⟨_, w, {0, 1}, rfl, subset_within _ _, 0, l, .inr rfl, h₁, hc, hi⟩
        · cases hf.symm.trans h₀
    | 1, hr => cases hf.symm.trans h₁
  answers := by
    intro k
    filter_upwards [eventually_gt_atTop 0] with N hN n hn f P w i x it hx hstands hf
    obtain ⟨n, rfl, -⟩ := exists_level_below (d := 0) hn
    have hfuel : 0 < (((host 0).grant N).up n).fuel := by rwa [Host.fuel_up]
    obtain ⟨k', l, h₀, h₁, hc, hi⟩ := hstands
    have hlt₀ := (Array.getElem?_eq_some_iff.1 hc).1
    have hlt₁ := (Array.getElem?_eq_some_iff.1 hi).1
    match i, hx with
    | 0, hx =>
        cases hx
        obtain ⟨hnone, -⟩ | h₀ := h₀
        · cases hf.symm.trans hnone
        · cases hf.symm.trans h₀
          obtain ⟨v, hpull, huses, hcv⟩ := exists_pull_number hc rfl rfl hfuel
          exact ⟨some [.int k], v, {0, 1}, Act.bind_of_ok hpull, .some (.cons rfl .nil),
            huses.confined.mono (by simp), subset_within _ _, k + 1, l, .inr rfl, h₁, hcv,
            (huses.same 1 ⟨hlt₁, by simp⟩).trans hi⟩
    | 1, hx =>
        cases hx
        cases hf.symm.trans h₁
        have hget : (Stream'.Seq.ofList threeNumbersToCut).get? k = (threeNumbersToCut.drop k).head? := by
          rw [Stream'.Seq.ofList_get?, List.head?_drop]
        have hdrop : threeNumbersToCut.drop (k + 1) = (threeNumbersToCut.drop k).tail := by
          rw [List.tail_drop]
        rw [Strand.answer, hget]
        cases hnumbers : threeNumbersToCut.drop k with
        | nil =>
            rw [hnumbers] at hi hdrop
            have hnext : nextItem (((host 0).grant N).up n) 1 w = .ok none w :=
              nextItem_of_turn hi rfl rfl rfl hfuel
            have hpull : (((host 0).grant N).up n).above.pull (.ref .iterator 1) w = .ok none w :=
              Act.bind_of_ok hnext
            refine ⟨none, w, {0, 1}, Act.bind_of_ok hpull, .none, .refl _ w, subset_within _ _, k', k + 1,
              h₀, rfl, hc, ?_⟩
            rw [hi, hdrop]
            rfl
        | cons a as =>
            rw [hnumbers] at hi hdrop
            obtain ⟨v, hpull, huses, hiv⟩ := exists_pull_number hi rfl rfl hfuel
            refine ⟨some [.int a], v, {0, 1}, Act.bind_of_ok hpull, .some (.cons rfl .nil),
              huses.confined.mono (by simp), subset_within _ _, k', k + 1, h₀, rfl,
              (huses.same 0 ⟨hlt₀, by simp⟩).trans hc, ?_⟩
            rw [hiv, hdrop]
            rfl
    | i + 2, hx => cases hx

/-- A count and three numbers may be merged. -/
theorem mergeable_numbers :
    Mergeable (host 0) 1 (fun (a : ℤ) v => v = .int a) (.tuple [.ref .iterator 0, .ref .blocks 0] none)
      [.ref .iterator 0, .ref .blocks 0] numberStrands NumbersStand countAndPairs where
  apart := apart_numbers
  fair := by
    intro x hx
    simp only [numberStrands, List.mem_cons, List.not_mem_nil, or_false] at hx
    rcases hx with rfl | rfl
    · trivial
    · exact Nat.succ_pos 1
  limit := by
    intro s n hs
    simp only [numberStrands, List.mem_cons, List.not_mem_nil, or_false, reduceCtorEq, false_or,
      Strand.chunked.injEq] at hs
    rw [hs.2]
    decide
  length := rfl
  branches := rfl
  own := by
    intro i j q q' it hi hj _ _
    match i, j, hi, hj with
    | 1, 1, _, _ => rfl
    | 0, _, hi, _ => cases hi
    | _, 0, _, hj => cases hj
    | i + 2, _, hi, _ => cases hi
    | _, j + 2, _, hj => cases hj
  begins := by
    refine ⟨fun i => if i = 1 then some (.ref .iterator 1, 0) else none, {0, 1},
      ⟨0, 0, .inl ⟨rfl, rfl⟩, rfl, rfl, rfl⟩, fun i r x hr hx => ?_⟩
    match i, hr, hx with
    | 0, hr, hx =>
        cases hr
        cases hx
        exact .plain _ nofun
    | 1, hr, hx =>
        cases hr
        cases hx
        exact .chunked _ rfl rfl (by simp)

/-- A count that does not end takes turns with three numbers in pairs. -/
theorem round_robin_takes_turns_numbers :
    mergeable_numbers.schedule.rounds 4 = [0, 7, 8, 1, 9, 2, 3] ∧
      ∃ it u, (∀ H : Host, H.callOp .mergeRoundRobin [.tuple [.ref .iterator 0, .ref .blocks 0] none] []
          countAndPairs = .ok it u) ∧
        TakesTurns mergeable_numbers it u :=
  ⟨rfl, round_robin_takes_turns mergeable_numbers⟩

/-! ### Branches that are not merged so -/

/-- One number that is cut into blocks of `2 ^ 63` numbers. -/
def oversized : World where
  cursors := #[.items .tuple [.int 1], .cut (cutOf (.ref .iterator 0) 9223372036854775808)]
  blocks := #[.ref .iterator 1]

/-- A list of one branch, which appends another one to the list when it is read. -/
def growing : World where
  lists := #[#[.ref .iterator 0]]
  cursors := #[.mapping (.op .append) (.ref .iterator 1) [.ref .iterator 2], .items .tuple [.ref .list 0],
    .items .tuple [.tuple [.int 9] none]]

/-- What the first `n` reads of an iterator come to, up to one that fails: an item, or the end. -/
def firstReads (h : Host) (it : Value) : ℕ → World → List (Option Value)
  | 0, _ => []
  | n + 1, w =>
    match h.pull it w with
    | .ok x v => x :: firstReads h it n v
    | .error _ _ => []

/-- The only turn of a number in oversized blocks would be the number, but no host can take it, however many
steps it may take.  From a list that grows, a merge that reads one branch after the other gives more than
one that has opened its branches before. -/
theorem not_round_robin_takes_turns_always :
    (let x : Strand ℤ := .chunked (Stream'.Seq.ofList [1]) 9223372036854775808
    let r : Value := .tuple [.ref .blocks 0] none
    x.Fair ∧ x.turn 0 = some [1] ∧ ∃ it u, (∀ H : Host, H.callOp .mergeRoundRobin [r] [] oversized = .ok it u) ∧
      ¬∀ᶠ N in atTop, ∀ n, 3 ≤ n → ∃ ys v, Reads (((host 0).grant N).up n) it ys u v ∧
        List.Forall₂ (fun (a : ℤ) v => v = .int a) [1] ys) ∧
    (let itemsOf (o : Op) : List Bool :=
      match (host 5).callOp o [.ref .list 0] [] growing with
      | .ok it u => (firstReads (host 5) it 2 u).map Option.isSome
      | .error _ _ => []
    itemsOf .mergeRoundRobin = [true, false] ∧ itemsOf .mergeExhaustive = [true, true]) := by
  constructor
  · intro x r
    have hturn : ∀ n, (Strand.chunked (Stream'.Seq.ofList [(1 : ℤ)]) (n + 1)).turn 0 = some [1] := by
      intro n
      rw [Strand.turn, Nat.zero_mul, slice_succ, slice_of_none (by rw [Stream'.Seq.ofList_get?]; rfl),
        Stream'.Seq.ofList_get?]
      rfl
    refine ⟨Nat.succ_pos _, hturn 9223372036854775807, _, _, fun H => callOp_mergeRoundRobin H r oversized,
      fun h => ?_⟩
    obtain ⟨N, hN, hle⟩ := (h.and (eventually_ge_atTop 3)).exists
    obtain ⟨N, rfl⟩ := Nat.exists_eq_add_of_le' hle
    obtain ⟨ys, v, hreads, hys⟩ := hN 3 (Nat.le_refl 3)
    have hfails : ∃ u, (((host 0).grant (N + 3)).up 3).pull (.ref .iterator 2) (oversized.merging r) =
        .error .badValue u := ⟨_, rfl⟩
    obtain ⟨u, hfails⟩ := hfails
    obtain _ | ⟨-, -⟩ := hys
    cases hreads with
    | item hpull => cases hfails.symm.trans hpull
  · decide +kernel

end Session

end GraphRoutes
