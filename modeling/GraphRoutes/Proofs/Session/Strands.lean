/-
**Branches of a session that are read in turns.**

What is under a branch is an iterator.  Reading it may do anything to the world, as long as it leaves
alone the cursors that it does not stand on, and the sources of blocks.  Several branches are apart from
one another if what each of them gives at a read depends only on how often it has been read itself.  Where
they stand, and on which cursors, is said by a predicate on worlds; it is not moved by what goes on beside
the branches: new lists and cursors, cursors of others, and the marks that are given.

Sources of blocks, and routes that are cut into blocks, read what is under them several times in a turn.

Main definitions:

* `GraphRoutes.Session.Host.grant` — a host that may read so many items in one go;
* `GraphRoutes.Session.World.Quiet`, `GraphRoutes.Session.World.Confined` — what goes on beside the
  branches, and what reading them may do;
* `GraphRoutes.Session.Footing`, `GraphRoutes.Session.Apart` — **branches that do not share an iterator**;
* `GraphRoutes.Session.Seat`, `GraphRoutes.Session.Seated` — opened branches, and where they stand.

Main results:

* `GraphRoutes.Session.Answers.readBlock_blocks`, `GraphRoutes.Session.Answers.readBlock_chunked` — the
  next block that holds anything, and the next slice;
* `GraphRoutes.Session.Sits.turn` — an open branch takes its turn;
* `GraphRoutes.Session.Seated.asked`, `GraphRoutes.Session.independent_of_answers` — **branches that are
  apart may take their turns in any order**.
-/
import GraphRoutes.Proofs.Merge.Rotation
import GraphRoutes.Proofs.Merge.Strand
import GraphRoutes.Proofs.Session.Collections
import GraphRoutes.Proofs.Session.Streams
import Mathlib.Order.Filter.AtTopBot.Basic

set_option relaxedAutoImplicit false
set_option autoImplicit false

namespace GraphRoutes.Session

open World Merge Route

/-- The host that may read `n` items in one go. -/
def Host.grant (h : Host) (n : ℕ) : Host := { h with fuel := n }

/-! ### What goes on beside the branches, and what they do -/

namespace World

/-- Of two worlds, the second differs from the first in its marks, its cursors and new lists only, and
has the cursors in `P` as they were. -/
structure Quiet (P : Set ℕ) (w v : World) : Prop where
  rest : v = { w with cursors := v.cursors, marks := v.marks, lists := v.lists }
  size : w.cursors.size ≤ v.cursors.size
  same : ∀ i ∈ P, v.cursors[i]? = w.cursors[i]?
  lists : ∀ (i : ℕ) xs, w.lists[i]? = some xs → v.lists[i]? = some xs

/-- From one world to the next, no cursors have moved but those in `P`, and no source of blocks has
changed. -/
structure Confined (P : Set ℕ) (w v : World) : Prop where
  size : w.cursors.size ≤ v.cursors.size
  same : ∀ i < w.cursors.size, i ∉ P → v.cursors[i]? = w.cursors[i]?
  blocks : ∀ (i : ℕ) it, w.blocks[i]? = some it → v.blocks[i]? = some it

variable {P Q : Set ℕ} {u v w : World}

theorem Quiet.trans (h : Quiet P w v) (h' : Quiet P v u) : Quiet P w u where
  rest := by rw [h'.rest, h.rest]
  size := Nat.le_trans h.size h'.size
  same i hi := (h'.same i hi).trans (h.same i hi)
  lists i xs hxs := h'.lists i xs (h.lists i xs hxs)

theorem Spares.quiet (h : Spares P w v) : Quiet P w v where
  rest := by rw [h.rest]
  size := h.size
  same := h.same
  lists i xs hxs := by rwa [h.lists_eq]

/-- A new list. -/
theorem quiet_newList (P : Set ℕ) (w : World) (marks : ℕ) (xs : Array Value) :
    Quiet P w { w with marks, lists := w.lists.push xs } where
  rest := rfl
  size := Nat.le_refl _
  same _ _ := rfl
  lists i ys hys := by
    have hlt : i < w.lists.size := (Array.getElem?_eq_some_iff.1 hys).1
    exact (Array.getElem?_push_lt hlt).trans ((Array.getElem?_eq_getElem hlt).symm.trans hys)

theorem Confined.refl (P : Set ℕ) (w : World) : Confined P w w :=
  ⟨Nat.le_refl _, fun _ _ _ => rfl, fun _ _ => id⟩

theorem Confined.trans (h : Confined P w v) (h' : Confined Q v u) (hQ : Q ⊆ within P w.cursors.size) :
    Confined P w u where
  size := Nat.le_trans h.size h'.size
  same i hi hP := by
    have hnot : i ∉ Q := fun hmem => (hQ hmem).elim hP fun hle => Nat.not_le_of_lt hi hle
    exact (h'.same i (Nat.lt_of_lt_of_le hi h.size) hnot).trans (h.same i hi hP)
  blocks i it hit := h'.blocks i it (h.blocks i it hit)

theorem Confined.mono (h : Confined P w v) (hP : P ⊆ Q) : Confined Q w v :=
  ⟨h.size, fun i hi hmem => h.same i hi fun hi => hmem (hP hi), h.blocks⟩

theorem Uses.confined (h : Uses P w v) : Confined P w v where
  size := h.size
  same i hi hP := h.same i ⟨hi, hP⟩
  blocks i it hit := by
    rw [h.rest]
    exact hit

theorem confined_newList (w : World) (marks : ℕ) (xs : Array Value) :
    Confined ∅ w { w with marks, lists := w.lists.push xs } :=
  ⟨Nat.le_refl _, fun _ _ _ => rfl, fun _ _ => id⟩

end World

/-! ### Branches that do not share an iterator -/

variable {α : Type}

/-- One question to that which is under a branch: the next item, or the items of the next block. -/
def ask (x : Strand α) (h : Host) (it : Value) : M (Option (List Value)) := do
  match ← h.pull it with
  | none => pure none
  | some v =>
    match x with
    | .blocks _ => do
      let vs ← h.items v
      pure (some vs)
    | .plain _ | .chunked _ _ => pure (some [v])

/-- Where some branches stand: one that is open has an iterator, which has been asked so many times. -/
abbrev Positions : Type := ℕ → Option (Value × ℕ)

/-- What a host is given when it asks a branch for the `k`-th time: the next items that the branch has,
and nothing behind its end.  It moves that branch only. -/
def Answers (h : Host) (R : α → Value → Prop) (xs : List (Strand α))
    (stands : Positions → Set ℕ → World → Prop) (k : ℕ) : Prop :=
  ∀ (f : Positions) P w i x it, xs[i]? = some x → stands f P w → f i = some (it, k) →
    ∃ r v Q, ask x h it w = .ok r v ∧ Option.Rel (List.Forall₂ R) (x.answer k) r ∧ Confined P w v ∧
      Q ⊆ within P w.cursors.size ∧ stands (Function.update f i (some (it, k + 1))) Q v

/-- A predicate says where branches stand, and on which cursors, and nothing that goes on beside them moves
them; what stands for an item goes on to do so when it is handed out. -/
structure Footing (R : α → Value → Prop) (stands : Positions → Set ℕ → World → Prop) : Prop where
  handed : ∀ a x x', R a x → Handed x x' → R a x'
  has : ∀ f P w, stands f P w → Has P w
  quiet : ∀ f P w v, stands f P w → Quiet P w v → stands f P v

/-- **Branches that do not share an iterator.**  Opening a route moves no other branch, and neither does
reading one, if the host may take enough steps. -/
structure Apart (h : Host) (d : ℕ) (R : α → Value → Prop) (rs : List Value) (xs : List (Strand α))
    (stands : Positions → Set ℕ → World → Prop) : Prop extends Footing R stands where
  opens : ∀ {f : Positions} {P w i r r'}, stands f P w → f i = none → rs[i]? = some r → Handed r r' →
    ∃ it v Q, openRoute r' w = .ok it v ∧ Q ⊆ within P w.cursors.size ∧
      stands (Function.update f i (some (it, 0))) Q v
  answers : ∀ k, ∀ᶠ N in Filter.atTop, ∀ n, d ≤ n → Answers ((h.grant N).up n) R xs stands k

/-! ### Sources of blocks -/

section

variable {h : Host} {R : α → Value → Prop} {xs : List (Strand α)}
  {stands : Positions → Set ℕ → World → Prop} {f : Positions} {P Q : Set ℕ} {u v w : World} {i k m q K : ℕ}
  {it : Value} {s : Stream'.Seq α} {bs : Stream'.Seq (List α)}

theorem nextBlock_of_ended (hask : ask (.blocks bs) h it w = .ok none v) :
    nextBlock h.source h.items it w = .ok (.idle it) v := by
  obtain ⟨r, u, hpull, hr⟩ := Act.bind_eq_ok_iff.1 hask
  cases r with
  | some x =>
      obtain ⟨vs, t, -, hvs⟩ := Act.bind_eq_ok_iff.1 hr
      cases hvs
  | none =>
      cases hr
      have hattempt : Act.attempt (h.source it) w = .ok (.ok none) v := by
        rw [Act.attempt, source_of_end hpull]
      exact Act.bind_of_ok hattempt

/-- An empty block is passed over, and one that holds anything is given. -/
theorem nextBlock_of_block {vs : List Value} (hask : ask (.blocks bs) h it w = .ok (some vs) v) :
    nextBlock h.source h.items it w = .ok (if vs = [] then .skip it else .give vs it) v := by
  obtain ⟨r, u, hpull, hr⟩ := Act.bind_eq_ok_iff.1 hask
  cases r with
  | none => cases hr
  | some x =>
      obtain ⟨ys, t, hitems, hys⟩ := Act.bind_eq_ok_iff.1 hr
      cases hys
      have hnext : Act.attempt (h.source it) w = .ok (.ok (some (x, it))) u := by
        rw [Act.attempt, source_of_item hpull]
      have hread : Act.attempt (h.items x) u = .ok (.ok vs) v := by
        rw [Act.attempt, hitems]
      refine (Act.bind_of_ok hnext).trans ((Act.bind_of_ok hread).trans ?_)
      cases vs <;> rfl

/-- A read of a source of blocks pulls its iterator. -/
theorem readBlock_of_pull (hq : w.blocks[q]? = some it) {r : Option (List Value)}
    (hpull : (nextBlock h.source h.items).pull h.fuel it w =
      .ok (r.elim (.ended (some it)) (.item · it)) v) :
    h.readBlock q w = .ok (r.map fun block => (block, q)) v := by
  rw [Host.readBlock, Act.bind_of_ok (m := get) rfl]
  simp only [hq]
  refine (Act.bind_of_ok hpull).trans ?_
  cases r <;> rfl

/-- Empty blocks are passed over up to the next place that counts. -/
theorem Answers.pull_blocks (hA : ∀ k < K, Answers h R xs stands k) (hi : xs[i]? = some (.blocks bs))
    (hstands : stands f P w) (hf : f i = some (it, k)) (hkm : k ≤ m)
    (hskipped : ∀ j, k ≤ j → j < m → bs.get? j = some []) (hm : Strand.Counts bs m) (hK : m < K)
    {fuel : ℕ} (hfuel : m - k < fuel) :
    ∃ r v Q, (nextBlock h.source h.items).pull fuel it w =
        .ok (r.elim (.ended (some it)) (.item · it)) v ∧
      Option.Rel (List.Forall₂ R) (bs.get? m) r ∧ Confined P w v ∧ Q ⊆ within P w.cursors.size ∧
      stands (Function.update f i (some (it, m + 1))) Q v := by
  induction n : m - k generalizing k f P w fuel with
  | zero =>
      obtain rfl : k = m := Nat.le_antisymm hkm (Nat.sub_eq_zero_iff_le.1 n)
      obtain ⟨fuel, rfl⟩ := Nat.exists_eq_succ_of_ne_zero (Nat.ne_of_gt (Nat.zero_lt_of_lt hfuel))
      obtain ⟨r, v, Q, hask, hr, hconfined, hQ, hstands'⟩ := hA k hK f P w i _ it hi hstands hf
      refine ⟨r, v, Q, ?_, hr, hconfined, hQ, hstands'⟩
      cases r with
      | none => exact Machine.pull_of_idle (nextBlock_of_ended hask) fuel
      | some vs =>
          have hvs : vs ≠ [] := by
            rintro rfl
            rw [Strand.answer] at hr
            cases hget : bs.get? k with
            | none => rw [hget] at hr; cases hr
            | some block =>
                rw [hget] at hr
                obtain ⟨hblock⟩ := hr
                cases hblock
                exact hm hget
          have hstep := nextBlock_of_block hask
          rw [if_neg hvs] at hstep
          exact Machine.pull_of_give hstep fuel
  | succ n ih =>
      obtain ⟨fuel, rfl⟩ := Nat.exists_eq_succ_of_ne_zero (Nat.ne_of_gt (Nat.zero_lt_of_lt hfuel))
      have hlt : k < m := Nat.lt_of_sub_pos (by rw [n]; exact Nat.succ_pos _)
      obtain ⟨r, v, Q, hask, hr, hconfined, hQ, hstands'⟩ :=
        hA k (Nat.lt_trans hlt hK) f P w i _ it hi hstands hf
      rw [Strand.answer, hskipped k (Nat.le_refl k) hlt] at hr
      obtain ⟨hblock⟩ := hr
      cases hblock
      have hstep := nextBlock_of_block hask
      rw [if_pos rfl] at hstep
      obtain ⟨r, u, Q', hpull, hr, hconfined', hQ', hstands''⟩ :=
        ih hstands' (Function.update_self ..) hlt (fun j hj => hskipped j (Nat.le_of_succ_le hj))
          (show m - (k + 1) < fuel by omega) (by omega)
      refine ⟨r, u, Q', ?_, hr, hconfined.trans hconfined' hQ, ?_, ?_⟩
      · rw [Machine.pull_of_skip hstep, hpull]
      · exact hQ'.trans (within_mono hQ hconfined.size)
      · rwa [Function.update_idem] at hstands''

/-- **The next block that holds anything.** -/
theorem Answers.readBlock_blocks (hA : ∀ k < K, Answers h R xs stands k)
    (hi : xs[i]? = some (.blocks bs)) (hq : w.blocks[q]? = some it) (hstands : stands f P w)
    (hf : f i = some (it, k)) (hkm : k ≤ m) (hskipped : ∀ j, k ≤ j → j < m → bs.get? j = some [])
    (hm : Strand.Counts bs m) (hK : m < K) (hfuel : K < h.fuel) :
    ∃ r v Q, h.readBlock q w = .ok (r.map fun block => (block, q)) v ∧
      Option.Rel (List.Forall₂ R) (bs.get? m) r ∧ Confined P w v ∧ Q ⊆ within P w.cursors.size ∧
      stands (Function.update f i (some (it, m + 1))) Q v := by
  obtain ⟨r, v, Q, hpull, hr, hconfined, hQ, hstands'⟩ :=
    Answers.pull_blocks hA hi hstands hf hkm hskipped hm hK (show m - k < h.fuel by omega)
  exact ⟨r, v, Q, readBlock_of_pull hq hpull, hr, hconfined, hQ, hstands'⟩

/-! ### Routes that are cut into blocks -/

/-- A question to an iterator over items reads it once. -/
theorem pull_of_ask {x : Strand α} {r : Option (List Value)} (hx : ∀ bs, x ≠ .blocks bs)
    (hask : ask x h it w = .ok r v) :
    ∃ y : Option Value, r = y.map (fun y => [y]) ∧ h.pull it w = .ok y v := by
  obtain ⟨y, u, hpull, hr⟩ := Act.bind_eq_ok_iff.1 hask
  cases y with
  | none =>
      cases hr
      exact ⟨none, rfl, hpull⟩
  | some y =>
      cases x with
      | blocks bs => exact absurd rfl (hx bs)
      | plain | chunked =>
          cases hr
          exact ⟨some y, rfl, hpull⟩

theorem source_of_pull {y : Option Value} (hpull : h.pull it w = .ok y v) :
    h.source it w = .ok (y.map fun y => (y, it)) v := by
  cases y with
  | none => exact source_of_end hpull
  | some y => exact source_of_item hpull

/-- The next items, at most `n`, are taken one by one. -/
theorem Answers.takeOnto {z n : ℕ} (hA : ∀ k < K, Answers h R xs stands k)
    (hi : xs[i]? = some (.chunked s z)) (hstands : stands f P w) (hf : f i = some (it, k))
    (hK : k + min n ((slice s k n).length + 1) ≤ K) (taken : List Value) :
    ∃ vs v Q, Route.takeOnto h.source n taken it w = .ok (taken.reverse ++ vs, it) v ∧
      List.Forall₂ R (slice s k n) vs ∧ Confined P w v ∧ Q ⊆ within P w.cursors.size ∧
      stands (Function.update f i (some (it, k + min n ((slice s k n).length + 1)))) Q v := by
  induction n generalizing k f P w taken with
  | zero =>
      refine ⟨[], w, P, ?_, .nil, .refl P w, subset_within _ _, ?_⟩
      · rw [List.append_nil]
        rfl
      · rwa [Nat.zero_min, Nat.add_zero, ← hf, Function.update_eq_self]
  | succ n ih =>
      have hlt : k < K := Nat.lt_of_lt_of_le (Nat.lt_add_of_pos_right (by simp)) hK
      obtain ⟨r, v, Q, hask, hr, hconfined, hQ, hstands'⟩ := hA k hlt f P w i _ it hi hstands hf
      obtain ⟨y, rfl, hpull⟩ := pull_of_ask (by simp) hask
      have hsource := source_of_pull hpull
      rw [Strand.answer] at hr
      cases hget : s.get? k with
      | none =>
          cases y with
          | some y =>
              rw [hget] at hr
              cases hr
          | none =>
              have hnil : slice s k (n + 1) = [] := slice_of_none hget _
              rw [hnil]
              refine ⟨[], v, Q, ?_, .nil, hconfined, hQ, ?_⟩
              · rw [List.append_nil, Route.takeOnto, Act.bind_of_ok hsource]
                rfl
              · simpa using hstands'
      | some a =>
          cases y with
          | none =>
              rw [hget] at hr
              cases hr
          | some y =>
              rw [hget] at hr
              obtain ⟨hblock⟩ := hr
              obtain _ | ⟨ha, -⟩ := hblock
              rw [slice_succ_of_get? hget] at hK ⊢
              have hsum : k + 1 + min n ((slice s (k + 1) n).length + 1) =
                  k + min (n + 1) ((a :: slice s (k + 1) n).length + 1) := by
                rw [List.length_cons, Nat.add_min_add_right, Nat.add_assoc, Nat.add_comm 1]
              obtain ⟨vs, u, Q', htake, hvs, hconfined', hQ', hstands''⟩ :=
                ih hstands' (Function.update_self ..) (hsum ▸ hK) (y :: taken)
              refine ⟨y :: vs, u, Q', ?_, .cons ha hvs, hconfined.trans hconfined' hQ,
                hQ'.trans (within_mono hQ hconfined.size), ?_⟩
              · rw [Route.takeOnto, Act.bind_of_ok hsource]
                refine htake.trans ?_
                rw [List.reverse_cons, List.append_assoc]
                rfl
              · rwa [Function.update_idem, hsum] at hstands''

/-- The state of a route that is cut into blocks of `n` items. -/
def cutOf (it : Value) (n : ℕ) : Cut Value := { source := it, size := n }

/-- Where a route that is cut into blocks keeps its state. -/
def cutCell (it : Value) (n c : ℕ) : Cell World (Cut Value) :=
  cursorCell (cutOf it n) (fun | .cut s => some s | _ => none) .cut c

theorem read_cut {n c : ℕ} (hc : w.cursors[c]? = some (.cut (cutOf it n))) :
    ((cutCell it n c).read : M (Cut Value)) w = .ok (cutOf it n) w :=
  read_cursorCell (cutOf it n) hc rfl

theorem modify_cut {n c : ℕ} (hc : w.cursors[c]? = some (.cut (cutOf it n))) (g : Cut Value → Cut Value) :
    ∃ v, ((cutCell it n c).modify g : M Unit) w = .ok () v ∧
      v.cursors[c]? = some (.cut (g (cutOf it n))) ∧ Uses {c} w v :=
  modify_cursorCell (cutOf it n) hc rfl g

/-- A slice that is empty ends the cutting. -/
theorem cutTurn_of_nil {n c : ℕ} (hn : (n : ℤ) ≤ sliceLimit)
    (hc : w.cursors[c]? = some (.cut (cutOf it n)))
    (htake : Route.takeOnto h.source n [] it w = .ok ([], it) u)
    (hcu : u.cursors[c]? = some (.cut (cutOf it n))) :
    ∃ v, cutTurn h c (cutOf it n) w = .ok .ended v ∧ Uses {c} u v ∧
      v.cursors[c]? = some (.cut (cutOf it n).close) := by
  obtain ⟨v, hclose, hcv, hmoves⟩ := modify_cut hcu Cut.close
  refine ⟨v, ?_, hmoves, hcv⟩
  have hturn : Cut.turn (cutCell it n c) h.source w = .ok .ended v := by
    rw [Cut.turn]
    refine (Act.bind_of_ok (read_cut hc)).trans ?_
    refine (Act.bind_of_ok htake).trans ((Act.bind_of_ok (read_cut hcu)).trans ?_)
    exact Act.bind_of_ok hclose
  rw [cutTurn, if_neg (show ¬sliceLimit < ((cutOf it n).size : ℤ) from not_lt_of_ge hn)]
  exact Act.bind_of_ok hturn

/-- A slice that holds anything is given as a new list. -/
theorem cutTurn_of_cons {n c : ℕ} {vs : List Value} (hn : (n : ℤ) ≤ sliceLimit)
    (hc : w.cursors[c]? = some (.cut (cutOf it n)))
    (htake : Route.takeOnto h.source n [] it w = .ok (vs, it) u) (hvs : vs ≠ [])
    (hcu : u.cursors[c]? = some (.cut (cutOf it n))) :
    ∃ t vs' marks, Uses {c} u t ∧ t.cursors[c]? = some (.cut (cutOf it n)) ∧
      List.Forall₂ Handed vs vs' ∧ cutTurn h c (cutOf it n) w =
        .ok (.give (.ref .list t.lists.size)) { t with marks, lists := t.lists.push vs'.toArray } := by
  obtain ⟨t, hadvance, hct, hmoves⟩ := modify_cut hcu (Cut.advance it)
  obtain ⟨vs', marks, hnew, hhanded⟩ := exists_newList vs t
  refine ⟨t, vs', marks, hmoves, hct, hhanded, ?_⟩
  have hturn : Cut.turn (cutCell it n c) h.source w = .ok (.give vs) t := by
    have hempty : vs.isEmpty = false := by rwa [List.isEmpty_eq_false_iff]
    rw [Cut.turn]
    refine (Act.bind_of_ok (read_cut hc)).trans ?_
    refine (Act.bind_of_ok htake).trans ((Act.bind_of_ok (read_cut hcu)).trans ?_)
    simp only [cutOf, Bool.not_true, Bool.false_eq_true, if_false, hempty]
    exact Act.bind_of_ok hadvance
  rw [cutTurn, if_neg (show ¬sliceLimit < ((cutOf it n).size : ℤ) from not_lt_of_ge hn)]
  exact (Act.bind_of_ok hturn).trans ((Act.bind_of_ok hnew).trans rfl)

/-- What stands for the items goes on to stand for them when it is handed out. -/
theorem forall₂_handed (hR : ∀ a x x', R a x → Handed x x' → R a x') {as : List α} {vs vs' : List Value}
    (hvs : List.Forall₂ R as vs) (hhanded : List.Forall₂ Handed vs vs') : List.Forall₂ R as vs' := by
  induction hvs generalizing vs' with
  | nil =>
      cases hhanded
      exact .nil
  | cons ha _ ih =>
      obtain _ | ⟨hx, hrest⟩ := hhanded
      exact .cons (hR _ _ _ ha hx) (ih hrest)

/-- A slice that is empty answers a question with the end. -/
theorem ask_cut_of_nil {n c : ℕ} (bs : Stream'.Seq (List α)) (hn : (n : ℤ) ≤ sliceLimit)
    (hc : w.cursors[c]? = some (.cut (cutOf it n)))
    (htake : Route.takeOnto h.source n [] it w = .ok ([], it) u)
    (hcu : u.cursors[c]? = some (.cut (cutOf it n))) (hfuel : 0 < h.fuel) :
    ∃ v, ask (.blocks bs) h.above (.ref .iterator c) w = .ok none v ∧ Uses {c} u v ∧
      v.cursors[c]? = some (.cut (cutOf it n).close) := by
  obtain ⟨v, hturn, hmoves, hcv⟩ := cutTurn_of_nil hn hc htake hcu
  have hnext : nextItem h c w = .ok none v := nextItem_of_turn hc rfl hturn rfl hfuel
  have hpull : h.above.pull (.ref .iterator c) w = .ok none v := Act.bind_of_ok hnext
  exact ⟨v, Act.bind_of_ok hpull, hmoves, hcv⟩

/-- A slice that holds anything answers it with its items: the new list is read back at once. -/
theorem ask_cut_of_cons {n c : ℕ} {vs : List Value} (bs : Stream'.Seq (List α)) (hn : (n : ℤ) ≤ sliceLimit)
    (hc : w.cursors[c]? = some (.cut (cutOf it n)))
    (htake : Route.takeOnto h.source n [] it w = .ok (vs, it) u)
    (hcu : u.cursors[c]? = some (.cut (cutOf it n))) (hvs : vs ≠ []) (hlength : vs.length < h.fuel)
    (hP : Has P u) (hcP : c ∉ P) :
    ∃ vs' vs'' v, ask (.blocks bs) h.above (.ref .iterator c) w = .ok (some vs'') v ∧
      List.Forall₂ Handed vs vs' ∧ List.Forall₂ Handed vs' vs'' ∧ Confined {c} u v ∧ Quiet P u v ∧
      v.cursors[c]? = some (.cut (cutOf it n)) := by
  obtain ⟨t, vs', marks, hmoves, hct, hhanded, hturn⟩ := cutTurn_of_cons hn hc htake hvs hcu
  have hnext := nextItem_of_turn (x := some (.ref .list t.lists.size)) hc rfl hturn rfl (Nat.zero_lt_of_lt hlength)
  obtain ⟨x, marks', hpull, hx⟩ := pull_of_nextItem hnext
  obtain rfl := hx.eq_of_marked rfl
  let t' : World := { t with marks := marks', lists := t.lists.push vs'.toArray }
  have hlist : t'.collection? (.ref .list t.lists.size) = some vs' := by
    change some ((t.lists.push vs'.toArray)[t.lists.size]?.getD #[]).toList = some vs'
    rw [Array.getElem?_push_size, Option.getD_some]
  obtain ⟨vs'', v, hitems, hhanded', hkeeps⟩ := exists_items_collection hlist (hhanded.length_eq ▸ hlength)
  have hread : Uses ∅ t' v := hkeeps.uses (Nat.le_refl _)
  have hspares : Spares P u t := hmoves.spares_of_notMem hP hcP
  refine ⟨vs', vs'', v, (Act.bind_of_ok hpull).trans ((Act.bind_of_ok hitems).trans rfl), hhanded, hhanded',
    ?_, ?_, ?_⟩
  · exact (hmoves.confined.trans (confined_newList t marks' vs'.toArray) (Set.empty_subset _)).trans
      hread.confined (Set.empty_subset _)
  · have hPt : Has P t := hP.spared hspares
    refine hspares.quiet.trans ((quiet_newList P t marks' vs'.toArray).trans ?_)
    exact (hread.spares_of_new (w := t') hPt).quiet
  · have hct' : t'.cursors[c]? = some (.cut (cutOf it n)) := hct
    exact (hread.same c ⟨(Array.getElem?_eq_some_iff.1 hct').1, fun hi => hi⟩).trans hct'

/-- A question to a route that is cut into blocks: the next slice, or the end. -/
theorem Answers.ask_cut {z n c : ℕ} (bs : Stream'.Seq (List α)) (hA : ∀ k < K, Answers h R xs stands k)
    (hfooting : Footing R stands)
    (hi : xs[i]? = some (.chunked s z)) (hstands : stands f P w) (hf : f i = some (it, k))
    (hK : k + min n ((slice s k n).length + 1) ≤ K) (hfuel : K < h.fuel) (hn : (n : ℤ) ≤ sliceLimit)
    (hc : w.cursors[c]? = some (.cut (cutOf it n))) (hcP : c ∉ P) :
    ∃ r v Q, ask (.blocks bs) h.above (.ref .iterator c) w = .ok r v ∧
      Option.Rel (List.Forall₂ R) (filled? (slice s k n)) r ∧ Confined (insert c P) w v ∧
      Q ⊆ within P w.cursors.size ∧
      stands (Function.update f i (some (it, k + min n ((slice s k n).length + 1)))) Q v ∧
      (slice s k n ≠ [] → v.cursors[c]? = some (.cut (cutOf it n))) ∧
      (slice s k n = [] → v.cursors[c]? = some (.cut (cutOf it n).close)) := by
  have hcw : c < w.cursors.size := (Array.getElem?_eq_some_iff.1 hc).1
  obtain ⟨vs, u, Q, htake, hvs, hconfined, hQ, hstands'⟩ := Answers.takeOnto hA hi hstands hf hK []
  rw [List.reverse_nil, List.nil_append] at htake
  have hhas : Has Q u := hfooting.has _ _ _ hstands'
  have hcu : u.cursors[c]? = some (.cut (cutOf it n)) := (hconfined.same c hcw hcP).trans hc
  have hcQ : c ∉ Q := notMem_of_subset_within hQ hcP hcw
  have hown : ({c} : Set ℕ) ⊆ within (insert c P) w.cursors.size := singleton_subset_within c P _
  have hbegin : Confined (insert c P) w u := hconfined.mono (Set.subset_insert c P)
  cases hs : slice s k n with
  | nil =>
      rw [hs] at hvs hstands'
      cases hvs
      obtain ⟨v, hask, hmoves, hcv⟩ := ask_cut_of_nil bs hn hc htake hcu (Nat.zero_lt_of_lt hfuel)
      refine ⟨none, v, Q, hask, .none, hbegin.trans hmoves.confined hown, hQ, ?_, absurd rfl, fun _ => hcv⟩
      exact hfooting.quiet _ _ _ _ hstands' (hmoves.spares_of_notMem hhas hcQ).quiet
  | cons a as =>
      have hlength := hvs.length_eq
      have hle := length_slice_le s k n
      have hnil : vs ≠ [] := by
        rintro rfl
        rw [hs] at hvs
        cases hvs
      obtain ⟨vs', vs'', v, hask, hhanded, hhanded', hmoves, hquiet, hcv⟩ :=
        ask_cut_of_cons bs hn hc htake hcu hnil (by omega) hhas hcQ
      have hall := forall₂_handed hfooting.handed (forall₂_handed hfooting.handed hvs hhanded) hhanded'
      rw [hs] at hall hstands'
      exact ⟨some vs'', v, Q, hask, .some hall, hbegin.trans hmoves hown, hQ,
        hfooting.quiet _ _ _ _ hstands' hquiet, fun _ => hcv, nofun⟩

/-- **The next slice.** -/
theorem Answers.readBlock_chunked {z n c : ℕ} (hA : ∀ k < K, Answers h R xs stands k)
    (hfooting : Footing R stands)
    (hi : xs[i]? = some (.chunked s z)) (hstands : stands f P w) (hf : f i = some (it, k))
    (hK : k + min n ((slice s k n).length + 1) ≤ K) (hfuel : K < h.fuel) (hn : (n : ℤ) ≤ sliceLimit)
    (hq : w.blocks[q]? = some (.ref .iterator c)) (hc : w.cursors[c]? = some (.cut (cutOf it n)))
    (hcP : c ∉ P) :
    ∃ r v Q, h.above.readBlock q w = .ok (r.map fun block => (block, q)) v ∧
      Option.Rel (List.Forall₂ R) (filled? (slice s k n)) r ∧ Confined (insert c P) w v ∧
      Q ⊆ within P w.cursors.size ∧
      stands (Function.update f i (some (it, k + min n ((slice s k n).length + 1)))) Q v ∧
      (slice s k n ≠ [] → v.cursors[c]? = some (.cut (cutOf it n))) := by
  obtain ⟨r, v, Q, hask, hr, hconfined, hQ, hstands', hcursor, -⟩ := Answers.ask_cut .nil hA hfooting hi hstands hf
    hK hfuel hn hc hcP
  refine ⟨r, v, Q, readBlock_of_pull hq ?_, hr, hconfined, hQ, hstands', hcursor⟩
  obtain ⟨fuel, hsucc⟩ := Nat.exists_eq_succ_of_ne_zero (Nat.ne_of_gt (Nat.zero_lt_of_lt hfuel))
  rw [Host.fuel_above, hsucc]
  cases r with
  | none => exact Machine.pull_of_idle (nextBlock_of_ended hask) fuel
  | some vs =>
      have hstep := nextBlock_of_block hask
      have hvs : vs ≠ [] := by
        rintro rfl
        cases hs : slice s k n with
        | nil => rw [hs] at hr; cases hr
        | cons a as =>
            rw [hs] at hr
            obtain ⟨hblock⟩ := hr
            cases hblock
      rw [if_neg hvs] at hstep
      exact Machine.pull_of_give hstep fuel

end

/-! ### Open branches -/

/-- An open branch: an iterator, a source of blocks over an iterator, or one over a route that is cut into
blocks. -/
inductive Seat where
  | plain (it : Value)
  | blocks (place : ℕ) (it : Value)
  | chunked (place cut : ℕ) (it : Value)

namespace Seat

/-- The branch, as a merge has it. -/
def branch : Seat → Branch Value ℕ
  | plain it => .plain it
  | blocks place _ | chunked place _ _ => .blocks place

/-- The iterator under the branch. -/
def source : Seat → Value
  | plain it | blocks _ it | chunked _ _ it => it

/-- The cursor of its own that a branch has. -/
def own? : Seat → Option ℕ
  | plain _ | blocks _ _ => none
  | chunked _ cut _ => some cut

end Seat

/-- An open branch sits in a world.  A route that is cut into blocks has its cursor as long as it has not
come to its end. -/
inductive Sits (w : World) : Bool → Strand α → Seat → Prop
  | plain {live : Bool} (s : Stream'.Seq α) (it : Value) : Sits w live (.plain s) (.plain it)
  | blocks {live : Bool} (s : Stream'.Seq (List α)) {place : ℕ} {it : Value}
      (hplace : w.blocks[place]? = some it) : Sits w live (.blocks s) (.blocks place it)
  | chunked {live : Bool} (s : Stream'.Seq α) {n place cut : ℕ} {it : Value}
      (hplace : w.blocks[place]? = some (.ref .iterator cut)) (hcut : cut < w.cursors.size)
      (hlive : live = true → w.cursors[cut]? = some (.cut (cutOf it n))) :
      Sits w live (.chunked s n) (.chunked place cut it)

/-- Open branches of a merge at a place, which have been asked for so many turns each. -/
structure Seated (p : ℕ) (xs : List (Strand α)) (seats : List Seat)
    (stands : Positions → Set ℕ → World → Prop) (S : Schedule α) (f : ℕ → ℕ) (w : World) : Prop where
  stands : ∃ (g : Positions) (P : Set ℕ), stands g P w ∧ p ∉ P ∧
    ∀ (i : ℕ) x seat, xs[i]? = some x → seats[i]? = some seat →
      g i = some (seat.source, x.pulled (f i)) ∧ Sits w (S.due i (f i)) x seat ∧
      ∀ c, seat.own? = some c → c ≠ p ∧ c ∉ P
  place : p < w.cursors.size

section

variable {h : Host} {R : α → Value → Prop} {xs : List (Strand α)} {x : Strand α} {seat : Seat}
  {seats : List Seat} {stands : Positions → Set ℕ → World → Prop} {S : Schedule α} {f : ℕ → ℕ}
  {g : Positions} {P Q : Set ℕ} {v w : World} {i p K T : ℕ} {live live' : Bool}

theorem Sits.own_lt (h : Sits w live x seat) {c : ℕ} (hc : seat.own? = some c) : c < w.cursors.size := by
  cases h with
  | plain | blocks => cases hc
  | chunked s hplace hcut =>
      cases hc
      exact hcut

/-- A branch goes on to sit where it sits while other branches are asked. -/
theorem Sits.confined (h : Sits w live x seat) {E : Set ℕ} (hv : Confined E w v)
    (hown : ∀ c, seat.own? = some c → c ∉ E) : Sits v live x seat := by
  cases h with
  | plain s it => exact .plain s it
  | blocks s hplace => exact .blocks s (hv.blocks _ _ hplace)
  | chunked s hplace hcut hlive =>
      refine .chunked s (hv.blocks _ _ hplace) (Nat.lt_of_lt_of_le hcut hv.size) fun h => ?_
      exact (hv.same _ hcut (hown _ rfl)).trans (hlive h)

/-- The branches stand where they stood, after what goes on at the place of the merge. -/
theorem Seated.calm (hfooting : Footing R stands) (h : Seated p xs seats stands S f w)
    (hv : Uses {p} w v) : Seated p xs seats stands S f v := by
  obtain ⟨⟨g, P, hstands, hp, hsits⟩, hplace⟩ := h
  refine ⟨⟨g, P, ?_, hp, fun i x seat hx hseat => ?_⟩, Nat.lt_of_lt_of_le hplace hv.size⟩
  · exact hfooting.quiet _ _ _ _ hstands
      (hv.spares_of_notMem (hfooting.has _ _ _ hstands) hp).quiet
  · obtain ⟨hg, hsit, hown⟩ := hsits i x seat hx hseat
    exact ⟨hg, hsit.confined hv.confined fun c hc => (hown c hc).1, hown⟩

/-- **One branch has been asked**, and the others stand where they stood. -/
theorem Seated.asked (hx : xs[i]? = some x) (hseat : seats[i]? = some seat)
    (hown : ∀ (j : ℕ) seat' c, seats[j]? = some seat' → seat.own? = some c → seat'.own? = some c → j = i)
    (hp : p ∉ P) (hplace : p < w.cursors.size)
    (hsits : ∀ (j : ℕ) y seat', xs[j]? = some y → seats[j]? = some seat' →
      g j = some (seat'.source, y.pulled (f j)) ∧ Sits w (S.due j (f j)) y seat' ∧
      ∀ c, seat'.own? = some c → c ≠ p ∧ c ∉ P)
    (hconfined : Confined {c | seat.own? = some c ∨ c ∈ P} w v) (hQ : Q ⊆ within P w.cursors.size)
    (hstands : stands (Function.update g i (some (seat.source, x.pulled (f i + 1)))) Q v)
    (hsit : Sits v (S.due i (f i + 1)) x seat) :
    Seated p xs seats stands S (Function.update f i (f i + 1)) v := by
  refine ⟨⟨_, Q, hstands, notMem_of_subset_within hQ hp hplace, fun j y seat' hy hseat' => ?_⟩,
    Nat.lt_of_lt_of_le hplace hconfined.size⟩
  obtain ⟨hg, hsit', hown'⟩ := hsits j y seat' hy hseat'
  have hapart : ∀ c, seat'.own? = some c → c ≠ p ∧ c ∉ Q := fun c hc =>
    ⟨(hown' c hc).1, notMem_of_subset_within hQ (hown' c hc).2 (hsit'.own_lt hc)⟩
  by_cases hj : j = i
  · subst hj
    cases hx.symm.trans hy
    cases hseat.symm.trans hseat'
    rw [Function.update_self, Function.update_self]
    exact ⟨rfl, hsit, hapart⟩
  · rw [Function.update_of_ne hj, Function.update_of_ne hj]
    refine ⟨hg, hsit'.confined hconfined fun c hc => ?_, hapart⟩
    rintro (hmine | hmem)
    · exact hj (hown j seat' c hseat' hmine hc)
    · exact (hown' c hc).2 hmem

theorem turn_of_source {it : Value} {y : Option Value} (hsource : h.source it w = .ok (y.map fun y => (y, it)) v) :
    (Branch.plain it).turn h.source h.readBlock w =
      .ok ((y.map fun y => [y]).map fun block => (block, .plain it)) v := by
  refine (Act.bind_of_ok hsource).trans ?_
  cases y <;> rfl

theorem turn_of_readBlock {q : ℕ} {r : Option (List Value)}
    (hread : h.readBlock q w = .ok (r.map fun block => (block, q)) v) :
    (Branch.blocks q).turn h.source h.readBlock w = .ok (r.map fun block => (block, .blocks q)) v := by
  refine (Act.bind_of_ok hread).trans ?_
  cases r <;> rfl

/-- **An open branch takes its turn**, and sits where it sat. -/
theorem Sits.turn {t : ℕ} (hfooting : Footing R stands) (hA : ∀ k < K, Answers h R xs stands k)
    (hA' : ∀ k < K, Answers h.above R xs stands k) (hx : xs[i]? = some x) (hfair : x.Fair)
    (hlimit : ∀ s n, x = .chunked s n → (n : ℤ) ≤ sliceLimit) (hstands : stands g P w)
    (hg : g i = some (seat.source, x.pulled t)) (hsit : Sits w true x seat)
    (hown : ∀ c, seat.own? = some c → c ∉ P) (hpulled : x.pulled (t + 1) ≤ K) (hfuel : K < h.fuel) :
    ∃ r v Q, seat.branch.turn h.above.source h.above.readBlock w =
        .ok (r.map fun block => (block, seat.branch)) v ∧
      Option.Rel (List.Forall₂ R) (x.turn t) r ∧ Confined {c | seat.own? = some c ∨ c ∈ P} w v ∧
      Q ⊆ within P w.cursors.size ∧
      stands (Function.update g i (some (seat.source, x.pulled (t + 1)))) Q v ∧
      Sits v (x.turn t).isSome x seat := by
  have hsub : P ⊆ {c | seat.own? = some c ∨ c ∈ P} := fun c hc => .inr hc
  cases hsit with
  | plain s it =>
      obtain ⟨r, v, Q, hask, hr, hconfined, hQ, hstands'⟩ :=
        hA' t hpulled g P w i _ it hx hstands hg
      obtain ⟨y, rfl, hpull⟩ := pull_of_ask (by simp) hask
      exact ⟨_, v, Q, turn_of_source (source_of_pull hpull), hr, hconfined.mono hsub, hQ, hstands', .plain s it⟩
  | @blocks s q it hq =>
      obtain ⟨r, v, Q, hread, hr, hconfined, hQ, hstands'⟩ :=
        Answers.readBlock_blocks hA' hx hq hstands hg (Strand.pulled_le_nth hfair t)
          (fun j hj hlt => Strand.get?_of_skipped hj hlt) (Strand.counts_turn hfair t) hpulled hfuel
      exact ⟨_, v, Q, turn_of_readBlock hread, hr, hconfined.mono hsub, hQ, hstands',
        .blocks s (hconfined.blocks _ _ hq)⟩
  | @chunked s n q c it hq hcut hlive =>
      have hslice := Strand.slice_pulled_chunked s n t
      rw [Strand.pulled_succ_chunked, ← hslice] at hpulled
      obtain ⟨r, v, Q, hread, hr, hconfined, hQ, hstands', hcursor⟩ :=
        Answers.readBlock_chunked hA hfooting hx hstands hg hpulled hfuel (hlimit s n rfl) hq
          (hlive rfl) (hown c rfl)
      rw [hslice] at hr hstands' hcursor
      rw [← Strand.pulled_succ_chunked] at hstands'
      refine ⟨_, v, Q, turn_of_readBlock hread, hr, hconfined.mono ?_, hQ, hstands', ?_⟩
      · rintro j (rfl | hj)
        · exact .inl rfl
        · exact .inr hj
      · refine .chunked s (hconfined.blocks _ _ hq) (Nat.lt_of_lt_of_le hcut hconfined.size) fun h => ?_
        refine hcursor fun hnil => ?_
        rw [Strand.turn, hnil] at h
        cases h

/-- **Branches that are apart may take their turns in any order.** -/
theorem independent_of_answers (hfooting : Footing R stands) (hA : ∀ k < K, Answers h R xs stands k)
    (hA' : ∀ k < K, Answers h.above R xs stands k) (hfair : ∀ x ∈ xs, x.Fair)
    (hlimit : ∀ s n, Strand.chunked s n ∈ xs → (n : ℤ) ≤ sliceLimit) (hlength : seats.length = xs.length)
    (hown : ∀ (i j : ℕ) seat seat' c, seats[i]? = some seat → seats[j]? = some seat' →
      seat.own? = some c → seat'.own? = some c → j = i)
    (hT : ∀ x ∈ xs, ∀ t < T, x.pulled (t + 1) ≤ K) (hfuel : K < h.fuel) (p : ℕ) :
    Independent h.above.source h.above.readBlock R (.ofStrands xs hfair) T (seats.map Seat.branch)
      (Seated p xs seats stands (.ofStrands xs hfair)) where
  size := by rw [List.length_map, hlength]; rfl
  turn := by
    intro f w i b hb hseated hfT hdue
    rw [List.getElem?_map] at hb
    obtain ⟨seat, hseat, rfl⟩ := Option.map_eq_some_iff.1 hb
    obtain ⟨hi, -⟩ := List.getElem?_eq_some_iff.1 hseat
    obtain ⟨x, hx⟩ : ∃ x, xs[i]? = some x := ⟨_, List.getElem?_eq_getElem (hlength ▸ hi)⟩
    have hmem : x ∈ xs := List.mem_of_getElem? hx
    have hturn := Schedule.turn_ofStrands hfair hx (f i)
    have hdue' : (Schedule.ofStrands xs hfair).due i (f i + 1) = (x.turn (f i)).isSome := by
      rw [Schedule.due, hturn]
    obtain ⟨⟨g, P, hstands, hp, hsits⟩, hplace⟩ := hseated
    obtain ⟨hg, hsit, hapart⟩ := hsits i x seat hx hseat
    rw [hdue] at hsit
    obtain ⟨r, v, Q, hasked, hr, hconfined, hQ, hstands', hsit'⟩ :=
      hsit.turn hfooting hA hA' hx (hfair x hmem) (fun s n hs => hlimit s n (hs ▸ hmem)) hstands hg
        (fun c hc => (hapart c hc).2) (hT x hmem (f i) hfT) hfuel
    rw [hturn]
    exact ⟨r, v, hasked, hr, Seated.asked hx hseat
      (fun j seat' c hseat' hc hc' => hown i j seat seat' c hseat hseat' hc hc') hp hplace hsits hconfined
      hQ hstands' (hdue' ▸ hsit')⟩

end

end GraphRoutes.Session
