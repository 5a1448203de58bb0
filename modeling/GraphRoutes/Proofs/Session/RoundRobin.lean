/-
**A merge reads its branches in turn.**

A merge that is read from the beginning gives the turns of its branches, round by round, and each round in
the order of the branches.  By the time it has given an item, every branch has been asked for its turns up
to the round of that item, or, behind the branch of the item, up to the round before; a branch that was
found to have ended has not been asked again.  So infinite branches are read as far as it takes, and the
merge ends if all its branches do.

Main definitions:

* `GraphRoutes.Session.Merging`, `GraphRoutes.Session.Giving` — a merge that has given everything of some
  slots, and one that is giving a turn.

Main results:

* `GraphRoutes.Session.Merging.pull`, `GraphRoutes.Session.Giving.pull` — one read;
* `GraphRoutes.Session.Merging.run`, `GraphRoutes.Session.Merging.run_into` — **reads from the beginning**;
* `GraphRoutes.Session.Apart.exists_run`, `GraphRoutes.Session.Apart.exists_end` — what a merge of branches
  that are apart gives, once its host may take enough steps.
-/
import GraphRoutes.Proofs.Session.Openings
import GraphRoutes.Proofs.Session.Transparency
import Mathlib.Order.Filter.AtTopBot.Finite

set_option relaxedAutoImplicit false
set_option autoImplicit false

namespace GraphRoutes.Session

open World Merge

/-! ### Reads, one after the other -/

section

variable {h : Host} {it : Value} {xs ys : List Value} {u v v' w : World}

theorem Reads.append (hxs : Reads h it xs w v) (hys : Reads h it ys v u) : Reads h it (xs ++ ys) w u := by
  induction hxs with
  | none => exact hys
  | item hpull _ ih => exact .item hpull (ih hys)

theorem Reads.gives (hxs : Reads h it xs w v) (hend : h.pull it v = .ok Option.none u) : Gives h it xs w u := by
  induction hxs with
  | none => exact .ended hend
  | item hpull _ ih => exact .item hpull (ih hend)

/-- No more is read than what is given to the end. -/
theorem Gives.length_le (hxs : Gives h it xs w v) (hys : Reads h it ys w v') : ys.length ≤ xs.length := by
  induction hxs generalizing ys with
  | ended hpull =>
      cases hys with
      | none => exact Nat.le_refl _
      | item hpull' => cases hpull.symm.trans hpull'
  | item hpull _ ih =>
      cases hys with
      | none => exact Nat.zero_le _
      | item hpull' hrest =>
          cases hpull.symm.trans hpull'
          exact Nat.succ_le_succ (ih hrest)

end

/-! ### A merge that is being read -/

variable {α : Type}

section

variable (h : Host) (R : α → Value → Prop) (S : Schedule α) (branches : List (Branch Value ℕ))
  (Stand : (ℕ → ℕ) → World → Prop) (p : ℕ)

/-- A merge at a place has given everything of the first `m` slots; perhaps it has not begun, since there
was nothing. -/
inductive Merging (m : ℕ) (w : World) : Prop
  | fresh {r : Value} {s : Rotation Value ℕ Value} {v : World}
      (hc : w.cursors[p]? = some (.deferred (.roundRobin r)))
      (hbegin : beginCursor h (.roundRobin r) (w.reading p) = .ok (.rotation s) v)
      (hbehind : Behind R S branches Stand m s v)
  | running {s : Rotation Value ℕ Value} (hc : w.cursors[p]? = some (.rotation s))
      (hbehind : Behind R S branches Stand m s (w.reading p))

/-- A merge at a place has still to give the items `cs` of the turn at the `m`-th slot. -/
structure Giving (m : ℕ) (cs : List α) (w : World) : Prop where
  inside : ∃ s, w.cursors[p]? = some (.rotation s) ∧ Inside R S branches Stand m cs s (w.reading p)

/-- What a merge asks of the way in which its branches stand: it has its own place, and what goes on there
does not move them. -/
structure Steady : Prop where
  handed : ∀ a x x', R a x → Handed x x' → R a x'
  place : ∀ f w, Stand f w → p < w.cursors.size
  calm : ∀ f w v, Stand f w → Uses {p} w v → Stand f v

end

section

variable {h : Host} {R : α → Value → Prop} {S : Schedule α} {branches : List (Branch Value ℕ)}
  {Stand : (ℕ → ℕ) → World → Prop} {p m T : ℕ} {u v w : World} {c : Cursor} {a : α} {as cs ds : List α}
  {x : Value} {s s' : Rotation Value ℕ Value}

theorem pull_rotation (fuel : ℕ) (s : Rotation Value ℕ Value) :
    (stepCursor h).pull fuel (.rotation s) =
      Pull.map .rotation <$> (roundRobin h.source h.readBlock).pull fuel s := by
  have hstep : ∀ s, stepCursor h (.rotation s) =
      Step.map Cursor.rotation <$> roundRobin h.source h.readBlock s := fun _ => rfl
  exact Machine.pull_map Cursor.rotation hstep fuel s

/-- An item that is given from inside is handed out, and the merge waits behind it. -/
theorem Giving.of_pull (hsteady : Steady R Stand p) (hc : w.cursors[p]? = some c)
    (hclosed : Closed c) (hpull : (stepCursor h).pull h.fuel c (w.reading p) =
      .ok (.item x (.rotation s)) v) (ha : R a x)
    (hinside : Inside R S branches Stand m as s v) :
    ∃ x' v', h.above.pull (.ref .iterator p) w = .ok (some x') v' ∧ R a x' ∧
      Giving R S branches Stand p m as v' := by
  obtain ⟨x', marks, hread, hhanded⟩ := exists_pull_closed hc hclosed hpull
  have hlt : p < v.cursors.size := hsteady.place _ _ hinside.standing
  let v' : World := { v with cursors := v.cursors.setIfInBounds p (.rotation s), marks }
  have hmoves : Uses {p} v v' := uses_settle v p (.rotation s) marks
  have hreading : Uses {p} v (v'.reading p) :=
    hmoves.trans (uses_setCursor v' p .running) (subset_within {p} _)
  exact ⟨x', v', hread, hsteady.handed _ _ _ ha hhanded,
    ⟨s, Array.getElem?_setIfInBounds_self_of_lt hlt, hinside.carry fun f hf => hsteady.calm f _ _ hf hreading⟩⟩

theorem closed_rotation (s : Rotation Value ℕ Value) : Closed (.rotation s) := ⟨nofun, nofun, fun _ _ => rfl⟩

theorem closed_roundRobin (r : Value) : Closed (.deferred (.roundRobin r)) := ⟨nofun, nofun, fun _ _ => rfl⟩

/-- A merge that has not begun begins when it is read. -/
theorem pull_fresh {r : Value} {fuel : ℕ} (hbegin : beginCursor h (.roundRobin r) w = .ok (.rotation s) v) :
    (stepCursor h).pull (fuel + 1) (.deferred (.roundRobin r)) w =
      (stepCursor h).pull fuel (.rotation s) v :=
  Machine.pull_of_skip (Act.bind_of_ok hbegin) fuel

/-- A slot at which nothing is given is passed. -/
theorem Merging.pass (hm : Merging h R S branches Stand p m w) (hslot : S.slot m = none) :
    Merging h R S branches Stand p (m + 1) w := by
  cases hm with
  | fresh hc hbegin hbehind => exact .fresh hc hbegin (.pass hbehind hslot)
  | running hc hbehind => exact .running hc (.pass hbehind hslot)

/-- When a turn has been given, so has everything of its slot. -/
theorem Giving.done (hg : Giving R S branches Stand p m [] w) : Merging h R S branches Stand p (m + 1) w := by
  obtain ⟨s, hc, hinside⟩ := hg
  exact .running hc (.inside hinside)

/-- **One read** gives the next item of the turn that is being given. -/
theorem Giving.pull (hsteady : Steady R Stand p) (hg : Giving R S branches Stand p m (a :: as) w)
    (hfuel : 0 < h.fuel) :
    ∃ x v, h.above.pull (.ref .iterator p) w = .ok (some x) v ∧ R a x ∧
      Giving R S branches Stand p m as v := by
  obtain ⟨s, hc, hinside⟩ := hg
  obtain ⟨fuel, hsucc⟩ := Nat.exists_eq_succ_of_ne_zero (Nat.ne_of_gt hfuel)
  obtain ⟨x, s', hpull, ha, hinside'⟩ := hinside.pull h.source h.readBlock fuel
  refine Giving.of_pull hsteady hc (closed_rotation s) (s := s') (x := x) ?_ ha hinside'
  rw [pull_rotation, hsucc, map_eq_pure_bind]
  exact Act.bind_of_ok hpull

section

variable (hind : Independent h.source h.readBlock R S T branches Stand) (hpos : 0 < S.size)
  (hsteady : Steady R Stand p)

include hind hpos hsteady

/-- **One read** of a merge that has given everything before a slot with a turn. -/
theorem Merging.pull (hm : Merging h R S branches Stand p m w) (hT : ∀ n ≤ m, n / S.size < T)
    (hslot : S.slot m = some (a :: as)) (hfuel : m + 4 ≤ h.fuel) :
    ∃ x v, h.above.pull (.ref .iterator p) w = .ok (some x) v ∧ R a x ∧
      Giving R S branches Stand p m as v := by
  have hitem : ∀ s v fuel, m + 3 ≤ fuel → Behind R S branches Stand m s v →
      ∃ x s' u, (stepCursor h).pull fuel (.rotation s) v = .ok (.item x (.rotation s')) u ∧ R a x ∧
        Inside R S branches Stand m as s' u := by
    intro s v fuel hfuel hbehind
    obtain ⟨x, s', u, hpull, ha, hinside⟩ := hbehind.pull hind hpos hT hslot hfuel
    refine ⟨x, s', u, ?_, ha, hinside⟩
    rw [pull_rotation, map_eq_pure_bind]
    exact Act.bind_of_ok hpull
  cases hm with
  | @fresh r s v hc hbegin hbehind =>
      obtain ⟨fuel, hsucc⟩ := Nat.exists_eq_succ_of_ne_zero (Nat.ne_of_gt (Nat.zero_lt_of_lt hfuel))
      obtain ⟨x, s', u, hpull, ha, hinside⟩ := hitem s v fuel (by omega) hbehind
      refine Giving.of_pull hsteady hc (closed_roundRobin r) (s := s') (x := x) ?_ ha hinside
      rw [hsucc, Nat.succ_eq_add_one, pull_fresh hbegin, hpull]
  | @running s hc hbehind =>
      obtain ⟨x, s', u, hpull, ha, hinside⟩ := hitem s _ h.fuel (by omega) hbehind
      exact Giving.of_pull hsteady hc (closed_rotation s) hpull ha hinside

end

/-- A merge whose branches have all been found to have ended gives nothing more. -/
theorem Merging.pull_end (hind : Independent h.source h.readBlock R S T branches Stand)
    (hm : Merging h R S branches Stand p m w) (hpos : 0 < m → 0 < S.size) (hT : ∀ n < m, n / S.size < T)
    (hqueue : S.queue m = []) (hfuel : m + 3 ≤ h.fuel) :
    ∃ v, h.above.pull (.ref .iterator p) w = .ok none v := by
  have hended : ∀ s v fuel, m + 2 ≤ fuel → Behind R S branches Stand m s v →
      ∃ u, (stepCursor h).pull fuel (.rotation s) v = .ok (.ended none) u := by
    intro s v fuel hfuel hbehind
    obtain ⟨u, hpull⟩ := hbehind.pull_end hind hpos hT hqueue hfuel
    refine ⟨u, ?_⟩
    rw [pull_rotation, map_eq_pure_bind]
    exact Act.bind_of_ok hpull
  have hread : ∀ c, w.cursors[p]? = some c → Closed c →
      (∃ u, (stepCursor h).pull h.fuel c (w.reading p) = .ok (.ended none) u) →
      ∃ v, h.above.pull (.ref .iterator p) w = .ok none v := by
    rintro c hc hclosed ⟨u, hpull⟩
    exact ⟨_, pull_closed_end hc hclosed hpull⟩
  cases hm with
  | @fresh r s v hc hbegin hbehind =>
      refine hread _ hc (closed_roundRobin r) ?_
      obtain ⟨fuel, hsucc⟩ := Nat.exists_eq_succ_of_ne_zero (Nat.ne_of_gt (Nat.zero_lt_of_lt hfuel))
      obtain ⟨u, hpull⟩ := hended s v fuel (by omega) hbehind
      exact ⟨u, by rw [hsucc, Nat.succ_eq_add_one, pull_fresh hbegin, hpull]⟩
  | @running s hc hbehind =>
      exact hread _ hc (closed_rotation s) (hended s _ h.fuel (by omega) hbehind)

/-! ### Reads from the beginning -/

/-- The items of a turn are read one by one. -/
theorem Giving.run (hsteady : Steady R Stand p) (hg : Giving R S branches Stand p m (cs ++ ds) w)
    (hfuel : 0 < h.fuel) :
    ∃ ys v, Reads h.above (.ref .iterator p) ys w v ∧ List.Forall₂ R cs ys ∧
      Giving R S branches Stand p m ds v := by
  induction cs generalizing w with
  | nil => exact ⟨[], w, .none w, .nil, hg⟩
  | cons a cs ih =>
      obtain ⟨x, v, hpull, ha, hrest⟩ := hg.pull hsteady hfuel
      obtain ⟨ys, u, hreads, hys, hdone⟩ := ih hrest
      exact ⟨x :: ys, u, .item hpull hreads, .cons ha hys, hdone⟩

section

variable (hind : Independent h.source h.readBlock R S T branches Stand) (hsteady : Steady R Stand p)

include hind hsteady

/-- A turn is read, or its beginning. -/
theorem Merging.turn (hm : Merging h R S branches Stand p m w) (ds : List α) (hpos : 0 < S.size)
    (hT : ∀ n ≤ m, n / S.size < T) (hslot : S.slot m = some (a :: cs ++ ds)) (hfuel : m + 4 ≤ h.fuel) :
    ∃ ys v, Reads h.above (.ref .iterator p) ys w v ∧ List.Forall₂ R (a :: cs) ys ∧
      Giving R S branches Stand p m ds v := by
  obtain ⟨x, v, hpull, ha, hgiving⟩ := hm.pull hind hpos hsteady hT hslot hfuel
  obtain ⟨ys, u, hreads, hys, hdone⟩ := hgiving.run hsteady (Nat.zero_lt_of_lt hfuel)
  exact ⟨x :: ys, u, .item hpull hreads, .cons ha hys, hdone⟩

/-- **Reads from the beginning** give the turns of the first slots, one behind the other. -/
theorem Merging.run (hm : Merging h R S branches Stand p 0 w) (m : ℕ) (hpos : 0 < m → 0 < S.size) (hT : ∀ n < m, n / S.size < T)
    (hfuel : m + 4 ≤ h.fuel) :
    ∃ ys v, Reads h.above (.ref .iterator p) ys w v ∧ List.Forall₂ R (S.output m) ys ∧
      Merging h R S branches Stand p m v := by
  induction m with
  | zero => exact ⟨[], w, .none w, .nil, hm⟩
  | succ m ih =>
      obtain ⟨ys, v, hreads, hys, hmerging⟩ := ih (fun _ => hpos (Nat.succ_pos m)) (fun n hn => hT n (Nat.lt_succ_of_lt hn)) (by omega)
      rw [Schedule.output_succ]
      cases hslot : S.slot m with
      | none =>
          refine ⟨ys, v, hreads, ?_, hmerging.pass hslot⟩
          rwa [Option.getD_none, List.append_nil]
      | some block =>
          obtain ⟨a, cs, rfl⟩ := List.exists_cons_of_ne_nil fun hnil : block = [] =>
            S.filled _ _ (hnil ▸ hslot)
          obtain ⟨zs, u, hreads', hzs, hgiving⟩ := hmerging.turn hind hsteady []
            (hpos (Nat.succ_pos m)) (fun n hn => hT n (Nat.lt_succ_of_le hn)) (by rw [List.append_nil, hslot]) (by omega)
          exact ⟨ys ++ zs, u, hreads.append hreads', List.rel_append hys hzs, hgiving.done⟩

/-- Reads from the beginning into a turn. -/
theorem Merging.run_into (hm : Merging h R S branches Stand p 0 w) {block : List α} {j : ℕ}
    (hpos : 0 < S.size) (hT : ∀ n ≤ m, n / S.size < T) (hslot : S.slot m = some block) (hj : j < block.length)
    (hfuel : m + 4 ≤ h.fuel) :
    ∃ ys v, Reads h.above (.ref .iterator p) ys w v ∧
      List.Forall₂ R (S.output m ++ block.take (j + 1)) ys ∧ Stand (S.asks (m + 1)) (v.reading p) := by
  obtain ⟨ys, v, hreads, hys, hmerging⟩ :=
    hm.run hind hsteady m (fun _ => hpos) (fun n hn => hT n (Nat.le_of_lt hn)) hfuel
  obtain ⟨a, cs, rfl⟩ := List.exists_cons_of_length_pos (Nat.zero_lt_of_lt hj)
  have hsplit : a :: cs = a :: cs.take j ++ cs.drop j := by
    rw [List.cons_append, List.take_append_drop]
  obtain ⟨zs, u, hreads', hzs, s, hc, hinside⟩ :=
    hmerging.turn hind hsteady _ hpos hT (hsplit ▸ hslot) hfuel
  exact ⟨ys ++ zs, u, hreads.append hreads', List.rel_append hys hzs, hinside.standing⟩

end

end

end GraphRoutes.Session
