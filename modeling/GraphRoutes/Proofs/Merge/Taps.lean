/-
**A source of blocks that is tapped by several.**

Whoever asks a source of blocks directly is given whole blocks.  A reader is given items: it takes a block when it
has nothing at hand, gives the first item, and keeps the others for later.  All of them take their blocks from one
source, in whatever order they ask.

A tap keeps a ledger of who has been handed which block, and a log of who has been given what.  What is given by a
source, and what is taken for it, only depends on who has asked, and in which order.

Main definitions:

* `GraphRoutes.Merge.Tap`, `GraphRoutes.Merge.Tap.ask` — a source of blocks, and what a question does to it;
* `GraphRoutes.Merge.SharedOut` — **how blocks are shared out**;
* `GraphRoutes.Merge.cut`, `GraphRoutes.Merge.CutInto` — a list that is cut into blocks of one size.

Main results:

* `GraphRoutes.Merge.Tap.Sound.ask` — what every question keeps;
* `GraphRoutes.Merge.Tap.perm_after` — **nothing is lost and nothing is doubled**, at any time;
* `GraphRoutes.Merge.sharedOut` — whoever asks in whatever order, blocks are shared out;
* `GraphRoutes.Merge.Strand.turn_ofList` — the turns of a source are the blocks that hold anything;
* `GraphRoutes.Merge.cutInto` — a list is cut without a gap.
-/
import GraphRoutes.Proofs.Merge.Strand
import Mathlib.Data.List.ReduceOption

set_option relaxedAutoImplicit false
set_option autoImplicit false

namespace GraphRoutes.Merge

open scoped List

variable {α β : Type}

/-! ### Who takes what -/

/-- Somebody who takes blocks out of a source: one who asks for them, or the reader at a place. -/
inductive Taker where
  | direct
  | reader (place : ℕ)
  deriving DecidableEq, Repr

namespace Taker

/-- What somebody is given of the items at hand: a reader is given one at a time. -/
def part : Taker → List α → List α
  | direct, as => as
  | reader _, as => as.take 1

/-- What stays at hand. -/
def rest : Taker → List α → List α
  | direct, _ => []
  | reader _, as => as.drop 1

theorem part_append_rest (k : Taker) (as : List α) : k.part as ++ k.rest as = as := by
  cases k with
  | direct => exact List.append_nil as
  | reader => exact List.take_append_drop 1 as

/-- The entries of somebody. -/
def of (k : Taker) (xs : List (Taker × β)) : List β := (xs.filter fun x => x.1 = k).map (·.2)

theorem of_concat (k k' : Taker) (xs : List (Taker × β)) (x : β) :
    k.of (xs ++ [(k', x)]) = k.of xs ++ if k' = k then [x] else [] := by
  by_cases hk : k' = k <;> simp [of, List.filter_append, hk]

end Taker

/-- **A source of blocks that is tapped**: the blocks that are left, what each taker has at hand, who has been
handed which block, and who has been given what, or nothing any more. -/
structure Tap (α : Type) where
  left : List (List α)
  hands : Taker → List α := fun _ => []
  ledger : List (Taker × List α) := []
  log : List (Taker × Option (List α)) := []

namespace Tap

/-- A block is handed out to somebody who has nothing at hand. -/
def deal (s : Tap α) (k : Taker) (b : List α) (bs : List (List α)) : Tap α :=
  { s with left := bs, hands := Function.update s.hands k b, ledger := s.ledger ++ [(k, b)] }

/-- Somebody is given what they have at hand, or a part of it. -/
def give (s : Tap α) (k : Taker) : Tap α :=
  { s with
    hands := Function.update s.hands k (k.rest (s.hands k))
    log := s.log ++ [(k, some (k.part (s.hands k)))] }

/-- There is nothing more for somebody. -/
def refuse (s : Tap α) (k : Taker) : Tap α := { s with log := s.log ++ [(k, none)] }

/-- Somebody asks. -/
def ask (s : Tap α) (k : Taker) : Tap α :=
  match s.hands k, s.left with
  | [], [] => s.refuse k
  | [], b :: bs => (s.deal k b bs).give k
  | _ :: _, _ => s.give k

/-- The tap of some blocks, after some have asked. -/
def after (blocks : List (List α)) (ks : List Taker) : Tap α := ks.foldl ask { left := blocks }

theorem after_concat (blocks : List (List α)) (ks : List Taker) (k : Taker) :
    after blocks (ks ++ [k]) = (after blocks ks).ask k := by
  rw [after, List.foldl_append]
  rfl

variable {blocks bs : List (List α)} {s s' : Tap α} {k : Taker} {b : List α}

/-- **What comes of a question.** -/
inductive Asked (s : Tap α) (k : Taker) : Tap α → Prop
  | nothing (hhand : s.hands k = []) (hleft : s.left = []) : Asked s k (s.refuse k)
  | block {b : List α} {bs : List (List α)} (hhand : s.hands k = []) (hleft : s.left = b :: bs) :
      Asked s k ((s.deal k b bs).give k)
  | hand (hhand : s.hands k ≠ []) : Asked s k (s.give k)

theorem asked (s : Tap α) (k : Taker) : s.Asked k (s.ask k) := by
  rw [ask]
  split
  · next hhand hleft => exact .nothing hhand hleft
  · next hhand hleft => exact .block hhand hleft
  · next hhand =>
      refine .hand ?_
      rw [hhand]
      exact List.cons_ne_nil _ _

theorem ask_of_hand (hhand : s.hands k ≠ []) : s.ask k = s.give k := by
  obtain ⟨a, as, hcons⟩ := List.exists_cons_of_ne_nil hhand
  rw [ask, hcons]

theorem ledger_deal (s : Tap α) (k : Taker) (b : List α) (bs : List (List α)) :
    (s.deal k b bs).ledger = s.ledger ++ [(k, b)] := rfl

theorem hands_deal (s : Tap α) (k : Taker) (b : List α) (bs : List (List α)) : (s.deal k b bs).hands k = b :=
  Function.update_self ..

theorem hands_deal_of_ne {k' : Taker} (hk : k' ≠ k) : (s.deal k b bs).hands k' = s.hands k' :=
  Function.update_of_ne hk ..

theorem hands_give (s : Tap α) (k : Taker) : (s.give k).hands k = k.rest (s.hands k) :=
  Function.update_self ..

theorem hands_give_of_ne {k' : Taker} (hk : k' ≠ k) : (s.give k).hands k' = s.hands k' :=
  Function.update_of_ne hk ..

/-- Nobody else's items at hand change. -/
theorem Asked.hands_of_ne (h : s.Asked k s') {k' : Taker} (hk : k' ≠ k) : s'.hands k' = s.hands k' := by
  cases h with
  | nothing => rfl
  | block => exact (hands_give_of_ne hk).trans (hands_deal_of_ne hk)
  | hand => exact hands_give_of_ne hk

/-- Once no block is left, none is. -/
theorem Asked.left_of_nil (h : s.Asked k s') (hleft : s.left = []) : s'.left = [] := by
  cases h with
  | nothing => exact hleft
  | block _ hcons => cases hcons.symm.trans hleft
  | hand => exact hleft

/-! ### What every question keeps -/

/-- What somebody has been given so far. -/
def given (s : Tap α) (k : Taker) : List (List α) := (k.of s.log).reduceOption

theorem given_deal (s : Tap α) (k k' : Taker) (b : List α) (bs : List (List α)) :
    (s.deal k b bs).given k' = s.given k' := rfl

theorem given_give (s : Tap α) (k k' : Taker) :
    (s.give k).given k' = s.given k' ++ if k = k' then [k.part (s.hands k)] else [] := by
  rw [given, give, Taker.of_concat, List.reduceOption_append]
  split <;> rfl

theorem given_refuse (s : Tap α) (k k' : Taker) : (s.refuse k).given k' = s.given k' := by
  rw [given, refuse, Taker.of_concat, List.reduceOption_append]
  split <;> exact List.append_nil _

/-- **What is so of a tap at any time.** -/
structure Sound (blocks : List (List α)) (s : Tap α) : Prop where
  /-- Blocks are handed out in order. -/
  inOrder : s.ledger.map (·.2) ++ s.left = blocks
  /-- Everybody has been given the items of their blocks, in order, but for those at hand. -/
  given : ∀ k, (s.given k).flatten ++ s.hands k = (k.of s.ledger).flatten
  /-- If somebody has been given nothing, then there is nothing more for them. -/
  ended : ∀ k, (k, none) ∈ s.log → s.left = [] ∧ s.hands k = []
  /-- Somebody who has been given nothing is not given anything later on. -/
  stays : s.log.Pairwise fun x y => x.2 = none → y.1 = x.1 → y.2 = none

theorem sound_full (blocks : List (List α)) : Sound blocks { left := blocks } where
  inOrder := rfl
  given _ := rfl
  ended := nofun
  stays := .nil

theorem Sound.deal (h : s.Sound blocks) (hhand : s.hands k = []) (hleft : s.left = b :: bs) :
    (s.deal k b bs).Sound blocks where
  inOrder := by
    rw [← h.inOrder, hleft, ledger_deal, List.map_append, List.append_assoc]
    rfl
  given k' := by
    have hgiven := h.given k'
    rw [given_deal, ledger_deal, Taker.of_concat, List.flatten_append, ← hgiven]
    by_cases hk : k = k'
    · subst hk
      rw [hhand, List.append_nil, hands_deal, if_pos rfl, List.flatten_singleton]
    · rw [hands_deal_of_ne (Ne.symm hk), if_neg hk, List.flatten_nil, List.append_nil]
  ended k' hmem := by cases hleft.symm.trans (h.ended k' hmem).1
  stays := h.stays

/-- Whoever has been given nothing before is not given anything now. -/
theorem Sound.stays_concat {d : Option (List α)} (h : s.Sound blocks) (hd : (k, none) ∈ s.log → d = none) :
    (s.log ++ [(k, d)]).Pairwise fun x y => x.2 = none → y.1 = x.1 → y.2 = none := by
  refine List.pairwise_append.2 ⟨h.stays, List.pairwise_singleton _ _, ?_⟩
  rintro ⟨k', d'⟩ hmem y hy hd' hk
  obtain rfl := List.mem_singleton.1 hy
  obtain rfl : k = k' := hk
  obtain rfl : d' = none := hd'
  exact hd hmem

theorem Sound.give (h : s.Sound blocks) (hnew : (k, none) ∉ s.log) : (s.give k).Sound blocks where
  inOrder := h.inOrder
  given k' := by
    have hgiven := h.given k'
    rw [given_give, List.flatten_append]
    by_cases hk : k = k'
    · subst hk
      rw [hands_give, if_pos rfl, List.flatten_singleton, List.append_assoc, k.part_append_rest]
      exact hgiven
    · rw [hands_give_of_ne (Ne.symm hk), if_neg hk, List.flatten_nil, List.append_nil]
      exact hgiven
  ended k' hmem := by
    have hmem' : (k', none) ∈ s.log := by
      rcases List.mem_append.1 hmem with hmem | hmem
      · exact hmem
      · cases List.mem_singleton.1 hmem
    obtain ⟨hleft, hhand⟩ := h.ended k' hmem'
    refine ⟨hleft, ?_⟩
    rw [hands_give_of_ne, hhand]
    rintro rfl
    exact hnew hmem'
  stays := h.stays_concat fun hmem => absurd hmem hnew

theorem Sound.refuse (h : s.Sound blocks) (hhand : s.hands k = []) (hleft : s.left = []) :
    (s.refuse k).Sound blocks where
  inOrder := h.inOrder
  given k' := by
    rw [given_refuse]
    exact h.given k'
  ended k' hmem := by
    rcases List.mem_append.1 hmem with hmem | hmem
    · exact h.ended k' hmem
    · cases List.mem_singleton.1 hmem
      exact ⟨hleft, hhand⟩
  stays := h.stays_concat fun _ => rfl

/-- **Every question keeps what is so of a tap.** -/
theorem Sound.ask (h : s.Sound blocks) (hasked : s.Asked k s') : s'.Sound blocks := by
  cases hasked with
  | nothing hhand hleft => exact h.refuse hhand hleft
  | block hhand hleft =>
      refine (h.deal hhand hleft).give fun hmem => ?_
      cases hleft.symm.trans (h.ended k hmem).1
  | hand hhand => exact h.give fun hmem => hhand (h.ended k hmem).2

theorem sound_after (blocks : List (List α)) (ks : List Taker) : (after blocks ks).Sound blocks := by
  induction ks using List.reverseRecOn with
  | nil => exact sound_full blocks
  | append_singleton ks k ih =>
      rw [after_concat]
      exact ih.ask (asked _ k)

/-- Whoever asks directly is given whole blocks, and has nothing at hand. -/
theorem direct_after (blocks : List (List α)) (ks : List Taker) :
    (after blocks ks).hands .direct = [] ∧ (after blocks ks).given .direct = Taker.direct.of (after blocks ks).ledger := by
  induction ks using List.reverseRecOn with
  | nil => exact ⟨rfl, rfl⟩
  | append_singleton ks k ih =>
      obtain ⟨hhand, hgiven⟩ := ih
      rw [after_concat]
      have hasked := asked (after blocks ks) k
      generalize (after blocks ks).ask k = s at hasked
      cases hasked with
      | nothing => exact ⟨hhand, (given_refuse ..).trans hgiven⟩
      | @block b bs =>
          change _ ∧ _ = Taker.direct.of ((after blocks ks).deal k b bs).ledger
          rw [given_give, given_deal, hgiven, hands_deal, ledger_deal, Taker.of_concat]
          by_cases hk : k = .direct
          · subst hk
            exact ⟨hands_give .., rfl⟩
          · rw [hands_give_of_ne (Ne.symm hk), hands_deal_of_ne (Ne.symm hk), if_neg hk, if_neg hk]
            exact ⟨hhand, rfl⟩
      | hand hk =>
          have hne : k ≠ .direct := by
            rintro rfl
            exact hk hhand
          rw [given_give, hands_give_of_ne hne.symm, if_neg hne, List.append_nil]
          exact ⟨hhand, hgiven⟩

/-! ### Nothing is lost and nothing is doubled -/

/-- What has been given, what is at hand, and what is left. -/
def items (takers : List Taker) (s : Tap α) : List α :=
  (s.log.filterMap (·.2)).flatten ++ takers.flatMap s.hands ++ s.left.flatten

/-- What somebody has at hand, and then the others. -/
theorem perm_flatMap_update {takers : List Taker} (hnodup : takers.Nodup) (hk : k ∈ takers)
    (hands : Taker → List α) (as : List α) :
    (takers.flatMap (Function.update hands k as)).Perm (as ++ (takers.erase k).flatMap hands) := by
  refine ((List.perm_cons_erase hk).flatMap_right _).trans ?_
  rw [List.flatMap_cons, Function.update_self]
  refine .of_eq (congrArg (as ++ ·) (List.flatMap_congr fun k' hk' => ?_))
  rw [Function.update_of_ne]
  rintro rfl
  exact hnodup.not_mem_erase hk'

variable {takers : List Taker}

theorem perm_deal (hnodup : takers.Nodup) (hk : k ∈ takers) (hhand : s.hands k = []) (hleft : s.left = b :: bs) :
    ((s.deal k b bs).items takers).Perm (s.items takers) := by
  have hafter := perm_flatMap_update hnodup hk s.hands b
  have hbefore := perm_flatMap_update hnodup hk s.hands []
  rw [← hhand, Function.update_eq_self, hhand, List.nil_append] at hbefore
  rw [items, items, hleft, List.append_assoc, List.append_assoc]
  refine .append_left _ ?_
  calc
    takers.flatMap (s.deal k b bs).hands ++ bs.flatten
    _ ~ (b ++ (takers.erase k).flatMap s.hands) ++ bs.flatten := hafter.append_right _
    _ ~ (b ++ takers.flatMap s.hands) ++ bs.flatten := (hbefore.symm.append_left b).append_right _
    _ ~ (takers.flatMap s.hands ++ b) ++ bs.flatten := List.perm_append_comm.append_right _
    _ = takers.flatMap s.hands ++ (b :: bs).flatten := List.append_assoc ..

theorem perm_give (hnodup : takers.Nodup) (hk : k ∈ takers) (s : Tap α) :
    ((s.give k).items takers).Perm (s.items takers) := by
  have hafter := perm_flatMap_update hnodup hk s.hands (k.rest (s.hands k))
  have hbefore := perm_flatMap_update hnodup hk s.hands (s.hands k)
  rw [Function.update_eq_self] at hbefore
  refine .append_right _ ?_
  rw [give, List.filterMap_append, List.flatten_append, List.append_assoc]
  refine .append_left _ ?_
  calc
    k.part (s.hands k) ++ [] ++ takers.flatMap (s.give k).hands
    _ ~ k.part (s.hands k) ++ [] ++ (k.rest (s.hands k) ++ (takers.erase k).flatMap s.hands) :=
      hafter.append_left _
    _ = s.hands k ++ (takers.erase k).flatMap s.hands := by
      rw [List.append_nil, ← List.append_assoc, k.part_append_rest]
    _ ~ takers.flatMap s.hands := hbefore.symm

/-- **Nothing is lost and nothing is doubled**, whoever asks in whatever order. -/
theorem perm_after (hnodup : takers.Nodup) (blocks : List (List α)) {ks : List Taker} (hks : ∀ k ∈ ks, k ∈ takers) :
    ((after blocks ks).items takers).Perm blocks.flatten := by
  -- the last question is taken off, since it is asked of what the others have left
  induction ks using List.reverseRecOn with
  | nil =>
      refine .of_eq ?_
      simp [after, items]
  | append_singleton ks k ih =>
      have hk : k ∈ takers := hks k (List.mem_append_right _ List.mem_cons_self)
      refine .trans ?_ (ih fun k' hk' => hks k' (List.mem_append_left _ hk'))
      rw [after_concat]
      have hasked := asked (after blocks ks) k
      generalize (after blocks ks).ask k = s at hasked
      cases hasked with
      | nothing =>
          refine .of_eq ?_
          simp [refuse, items]
      | block hhand hleft => exact (perm_give hnodup hk _).trans (perm_deal hnodup hk hhand hleft)
      | hand => exact perm_give hnodup hk _

end Tap

/-! ### How blocks are shared out -/

/-- **How blocks are shared out** among those who ask for blocks and some readers. -/
structure SharedOut (blocks : List (List α)) (readers : List ℕ) (s : Tap α) : Prop where
  /-- The blocks that have been handed out are the first ones, in order. -/
  inOrder : s.ledger.map (·.2) <+: blocks
  /-- Whoever asks for blocks has been given those handed out to them, in order. -/
  direct : s.given .direct = Taker.direct.of s.ledger
  /-- A reader has been given the items of the blocks handed out to it, in order, but for those at hand. -/
  reader : ∀ c, (s.given (.reader c)).flatten ++ s.hands (.reader c) = ((Taker.reader c).of s.ledger).flatten
  /-- If there was no block any more for somebody who asked, then all of them have been handed out. -/
  ended : (.direct, none) ∈ s.log → s.ledger.map (·.2) = blocks
  /-- Whoever has been given nothing is given nothing later on. -/
  stays : s.log.Pairwise fun x y => x.2 = none → y.1 = x.1 → y.2 = none
  /-- When the readers have come to their ends as well, everybody has been given all items of their blocks; and
  all items have been given, each to one of them. -/
  delivered : (.direct, none) ∈ s.log → (∀ c ∈ readers, (.reader c, none) ∈ s.log) →
    (∀ c ∈ readers, (s.given (.reader c)).flatten = ((Taker.reader c).of s.ledger).flatten) ∧
      (s.log.filterMap (·.2)).flatten ~ blocks.flatten

/-- **Blocks are shared out**, whoever asks in whatever order. -/
theorem sharedOut {readers : List ℕ} (hnodup : readers.Nodup) (blocks : List (List α)) {ks : List Taker}
    (hks : ∀ c, .reader c ∈ ks → c ∈ readers) : SharedOut blocks readers (Tap.after blocks ks) := by
  have hsound := Tap.sound_after blocks ks
  obtain ⟨hdirect, hwhole⟩ := Tap.direct_after blocks ks
  have htakers : (Taker.direct :: readers.map .reader).Nodup := by
    refine List.nodup_cons.2 ⟨by simp, hnodup.map fun c c' hc => ?_⟩
    cases hc
    rfl
  have hknown : ∀ k ∈ ks, k ∈ Taker.direct :: readers.map .reader := by
    intro k hk
    cases k with
    | direct => exact List.mem_cons_self
    | reader c => exact List.mem_cons_of_mem _ (List.mem_map_of_mem (hks c hk))
  have hperm := Tap.perm_after htakers blocks hknown
  refine ⟨⟨_, hsound.inOrder⟩, hwhole, fun c => hsound.given (.reader c), fun hnone => ?_, hsound.stays,
    fun hnone hread => ⟨fun c hc => ?_, ?_⟩⟩
  · have hall := hsound.inOrder
    rwa [(hsound.ended _ hnone).1, List.append_nil] at hall
  · have hgiven := hsound.given (.reader c)
    rwa [(hsound.ended _ (hread c hc)).2, List.append_nil] at hgiven
  · -- nothing is at hand and nothing is left, so all items have been given
    have hhands : (Taker.direct :: readers.map .reader).flatMap (Tap.after blocks ks).hands = [] := by
      refine List.flatMap_eq_nil_iff.2 fun k hk => ?_
      rcases List.mem_cons.1 hk with rfl | hk
      · exact hdirect
      · obtain ⟨c, hc, rfl⟩ := List.mem_map.1 hk
        exact (hsound.ended _ (hread c hc)).2
    rwa [Tap.items, hhands, (hsound.ended _ hnone).1, List.flatten_nil, List.append_nil, List.append_nil] at hperm

/-- A reader takes a block, the other block is asked for, and both go on to their ends. -/
example : (Tap.after [[7, 8], [9]] [.reader 0, .direct, .reader 0, .direct, .reader 0]).log =
    [(.reader 0, some [7]), (.direct, some [9]), (.reader 0, some [8]), (.direct, none), (.reader 0, none)] := rfl

/-! ### Finitely many blocks -/

theorem fair_blocks_ofList (bs : List (List α)) : (Strand.blocks (.ofList bs)).Fair := by
  intro k
  refine ⟨max k bs.length, Nat.le_max_left _ _, ?_⟩
  rw [Strand.Counts, Stream'.Seq.ofList_get?, List.getElem?_eq_none (Nat.le_max_right _ _)]
  simp

/-- The blocks that hold anything. -/
def filledBlocks (bs : List (List α)) : List (List α) := bs.filter fun b => !b.isEmpty

open Classical in
/-- The blocks that hold anything, among the first ones, are the turns that have been taken by then. -/
theorem filledBlocks_take (bs : List (List α)) {k : ℕ} (hk : k ≤ bs.length) :
    filledBlocks (bs.take k) = (List.range (Nat.count (Strand.Counts (.ofList bs)) k)).map fun t =>
      ((Strand.blocks (.ofList bs)).turn t).getD [] := by
  induction k with
  | zero => rfl
  | succ k ih =>
      have hget : (Stream'.Seq.ofList bs).get? k = some bs[k] := by
        rw [Stream'.Seq.ofList_get?, List.getElem?_eq_getElem hk]
      rw [List.take_add_one, List.getElem?_eq_getElem hk, filledBlocks, List.filter_append, Nat.count_succ]
      refine (congrArg (· ++ _) (ih (Nat.le_of_succ_le hk))).trans ?_
      by_cases hcounts : Strand.Counts (.ofList bs) k
      · have hblock : bs[k].isEmpty = false := by
          rw [List.isEmpty_eq_false_iff]
          rintro hnil
          exact hcounts (hnil ▸ hget)
        rw [if_pos hcounts, List.range_succ, List.map_append, List.map_singleton, Strand.turn,
          Nat.nth_count hcounts, hget]
        simp [hblock]
      · have hblock : bs[k] = [] := Option.some_inj.1 (hget.symm.trans (not_not.1 hcounts))
        rw [if_neg hcounts, Nat.add_zero]
        simp [hblock]

/-- **The turns of finitely many blocks** are those that hold anything. -/
theorem Strand.turn_ofList (bs : List (List α)) (t : ℕ) :
    (Strand.blocks (.ofList bs)).turn t = (filledBlocks bs)[t]? := by
  classical
  have hinfinite := infinite_counts (fair_blocks_ofList bs)
  have hfilled := filledBlocks_take bs (Nat.le_refl _)
  rw [List.take_length] at hfilled
  rw [hfilled, List.getElem?_map]
  by_cases ht : t < Nat.count (Strand.Counts (.ofList bs)) bs.length
  · have hlt := (Nat.lt_nth_iff_count_lt hinfinite).1 ht
    rw [List.getElem?_range ht, Option.map_some, turn, Stream'.Seq.ofList_get?, List.getElem?_eq_getElem hlt]
    rfl
  · have hle : bs.length ≤ Nat.nth (Strand.Counts (.ofList bs)) t := by
      rw [← Nat.not_lt, ← Nat.lt_nth_iff_count_lt hinfinite]
      exact ht
    rw [List.getElem?_eq_none (by simpa using ht), Option.map_none, turn, Stream'.Seq.ofList_get?,
      List.getElem?_eq_none hle]

/-! ### Blocks of one size -/

/-- A list is cut into blocks of `n` items. -/
def cut {n : ℕ} (hn : 0 < n) : List α → List (List α)
  | [] => []
  | a :: as => (a :: as).take n :: cut hn ((a :: as).drop n)
termination_by as => as.length
decreasing_by
  simp only [List.length_drop, List.length_cons]
  omega

/-- **A list is cut into blocks of `n` items**: the last one may be shorter, and none is empty. -/
structure CutInto (n : ℕ) (as : List α) (blocks : List (List α)) : Prop where
  flatten : blocks.flatten = as
  full : ∀ b ∈ blocks.dropLast, b.length = n
  short : ∀ b ∈ blocks, b ≠ [] ∧ b.length ≤ n

theorem cutInto {n : ℕ} (hn : 0 < n) (as : List α) : CutInto n as (cut hn as) := by
  fun_induction cut hn as with
  | case1 => exact ⟨rfl, nofun, nofun⟩
  | case2 a as ih =>
      obtain ⟨hflatten, hfull, hshort⟩ := ih
      have hne : (a :: as).take n ≠ [] := by
        rw [Ne, List.take_eq_nil_iff]
        rintro (hzero | hnil)
        · exact Nat.ne_of_gt hn hzero
        · cases hnil
      refine ⟨?_, ?_, List.forall_mem_cons.2 ⟨⟨hne, List.length_take_le n _⟩, hshort⟩⟩
      · rw [List.flatten_cons, hflatten, List.take_append_drop]
      · by_cases hlast : (a :: as).drop n = []
        · rw [hlast, cut]
          nofun
        · have hmore : cut hn ((a :: as).drop n) ≠ [] := fun hnil => hlast (by rw [← hflatten, hnil]; rfl)
          rw [List.dropLast_cons_of_ne_nil hmore]
          refine List.forall_mem_cons.2 ⟨?_, hfull⟩
          rw [List.drop_eq_nil_iff, Nat.not_le] at hlast
          exact List.length_take_of_le hlast.le

/-- The slices of a list, one behind the other. -/
theorem getElem?_cut {n : ℕ} (hn : 0 < n) (as : List α) (t : ℕ) :
    (cut hn as)[t]? = filled? ((as.drop (t * n)).take n) := by
  induction t generalizing as with
  | zero =>
      rw [Nat.zero_mul, List.drop_zero]
      cases as with
      | nil => rw [cut, List.take_nil]; rfl
      | cons a as =>
          rw [cut]
          obtain ⟨n, rfl⟩ := Nat.exists_eq_succ_of_ne_zero (Nat.ne_of_gt hn)
          rfl
  | succ t ih =>
      cases as with
      | nil => rw [cut, List.drop_nil, List.take_nil]; rfl
      | cons a as =>
          rw [cut, List.getElem?_cons_succ, ih, List.drop_drop, Nat.succ_mul, Nat.add_comm]

theorem slice_ofList (as : List α) (k n : ℕ) : slice (.ofList as) k n = (as.drop k).take n := by
  refine List.ext_getElem? fun i => ?_
  rw [getElem?_slice, Stream'.Seq.ofList_get?, List.getElem?_take, List.getElem?_drop]

/-- A block of a list that is cut holds something. -/
theorem filledBlocks_cut {n : ℕ} (hn : 0 < n) (as : List α) : filledBlocks (cut hn as) = cut hn as := by
  refine List.filter_eq_self.2 fun b hb => ?_
  rw [Bool.not_eq_true', List.isEmpty_eq_false_iff]
  exact ((cutInto hn as).short b hb).1

end GraphRoutes.Merge
