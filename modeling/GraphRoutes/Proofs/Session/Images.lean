/-
**Images of what a sequence delivers.**

A closed sequence that maps the items of another gives their images; one that gives two images of each
item gives both.  A sequence that has not begun gives what it gives once it has begun.

Main definitions:

* `GraphRoutes.Session.Maps`, `GraphRoutes.Session.EndsAt` — what the images of items stand for.

Main results:

* `GraphRoutes.Session.runs_each`, `GraphRoutes.Session.runs_both` — **images**;
* `GraphRoutes.Session.runs_of_skip`, `GraphRoutes.Session.runs_deferred` — sequences that have not begun.
-/
import GraphRoutes.Proofs.Session.Streams

set_option relaxedAutoImplicit false
set_option autoImplicit false

namespace GraphRoutes.Session

open World

variable {α β : Type} {h : Host} {d N : ℕ} {R : Meaning α} {S : Meaning β} {it x y : Value}
  {as : List α} {P : Set ℕ} {t u v w : World} {image : Image}

/-! ### Images -/

theorem closed_each (image : Image) (it : Value) : Closed (.each image it) :=
  ⟨nofun, nofun, fun _ _ => rfl⟩

theorem stepCursor_each (hpull : h.pull it w = .ok (some x) u) (himage : image.apply h x u = .ok y t) :
    stepCursor h (.each image it) w = .ok (.give y (.each image it)) t := by
  have heach : Route.each h.source (image.apply h) it w = .ok (.give y it) t := by
    rw [Route.each, Act.bind_of_ok (source_of_item hpull)]
    exact Act.bind_of_ok himage
  rw [stepCursor, map_eq_pure_bind, Act.bind_of_ok heach]
  rfl

theorem stepCursor_each_end (hpull : h.pull it w = .ok none u) :
    stepCursor h (.each image it) w = .ok .finish u := by
  have heach : Route.each h.source (image.apply h) it w = .ok .finish u := by
    rw [Route.each, Act.bind_of_ok (source_of_end hpull)]
    rfl
  rw [stepCursor, map_eq_pure_bind, Act.bind_of_ok heach]
  rfl

/-- Whatever an item stands for, its image stands for `f` of that, on the cursors of the item and new
ones. -/
def Maps (h : Host) (d : ℕ) (R : Meaning α) (S : Meaning β) (image : Image) (f : α → β) (as : List α)
    (w : World) : Prop :=
  ∀ n, d ≤ n → ∀ a ∈ as, ∀ x F v, Spares ∅ w v → R.holds a x F v →
    ∃ y u G, image.apply (h.up n) x v = .ok y u ∧ Uses F v u ∧ G ⊆ within F v.cursors.size ∧
      S.holds (f a) y G u

/-- **The images of what a sequence delivers.** -/
theorem runs_each {f : α → β} (hit : Delivers h d R it as P w) (hmaps : Maps h d R S image f as w) :
    Runs h d 1 S (.each image it) (as.map f) P w := by
  induction as generalizing P w with
  | nil =>
      refine ⟨closed_each image it, hit.has, fun n fuel hn hfuel v hv => ?_⟩
      obtain ⟨fuel, rfl⟩ := Nat.exists_eq_add_of_le' hfuel
      obtain ⟨u, hpull, huses⟩ := hit.2 n hn v hv
      exact ⟨none, u, Machine.pull_of_finish (stepCursor_each_end hpull) fuel, huses⟩
  | cons a as ih =>
      refine ⟨closed_each image it, hit.has, fun n fuel hn hfuel v hv => ?_⟩
      obtain ⟨fuel, rfl⟩ := Nat.exists_eq_add_of_le' hfuel
      obtain ⟨x, u, F, Q, hpull, huses, hdivides, hx, hrest⟩ := hit.2 n hn v hv
      have hwu : Spares ∅ w u := hv.empty.trans huses.empty
      obtain ⟨y, t, G, himage, hmoves, hG, hy⟩ := hmaps n hn a List.mem_cons_self x F u hwu hx
      have hwt : Spares ∅ w t := hwu.trans hmoves.empty
      -- the image is made on the cursors of the item, from which those of the rest are apart
      have hrest' : Delivers h d R it as Q t :=
        hrest.spared (hmoves.spares hrest.has fun i hi hmem => hdivides.apart i hmem hi)
      refine ⟨y, .each image it, t, G, Q, Machine.pull_of_give (stepCursor_each hpull himage) fuel,
        huses.trans hmoves hdivides.item, hdivides.image hG huses.size hrest.has, hy,
        ih hrest' fun n hn b hb x F v hv => ?_⟩
      exact hmaps n hn b (List.mem_cons_of_mem a hb) x F v (hwt.trans hv)

/-! ### Two images -/

theorem closed_ends (s : Route.Both Value Value) : Closed (.ends s) :=
  ⟨nofun, nofun, fun _ _ => rfl⟩

theorem stepCursor_ends_first (hpull : h.pull it w = .ok (some x) u)
    (himage : endNode x .target u = .ok y t) :
    stepCursor h (.ends { source := it }) w = .ok (.give y (.ends { source := it, due := some x })) t := by
  have hboth : Route.both h.source (fun x => endNode x .target) (fun x => endNode x .source)
      { source := it } w = .ok (.give y { source := it, due := some x }) t :=
    (Act.bind_of_ok (source_of_item hpull)).trans (Act.bind_of_ok himage)
  rw [stepCursor, map_eq_pure_bind, Act.bind_of_ok hboth]
  rfl

theorem stepCursor_ends_second (himage : endNode x .source w = .ok y t) :
    stepCursor h (.ends { source := it, due := some x }) w = .ok (.give y (.ends { source := it })) t := by
  have hboth : Route.both h.source (fun x => endNode x .target) (fun x => endNode x .source)
      { source := it, due := some x } w = .ok (.give y { source := it }) t :=
    Act.bind_of_ok himage
  rw [stepCursor, map_eq_pure_bind, Act.bind_of_ok hboth]
  rfl

theorem stepCursor_ends_end (hpull : h.pull it w = .ok none u) :
    stepCursor h (.ends { source := it }) w = .ok .finish u := by
  have hboth : Route.both h.source (fun x => endNode x .target) (fun x => endNode x .source)
      { source := it } w = .ok .finish u :=
    (Act.bind_of_ok (source_of_end hpull)).trans rfl
  rw [stepCursor, map_eq_pure_bind, Act.bind_of_ok hboth]
  rfl

/-- Whatever an item stands for, its vertex at an end stands for `f` of that. -/
def EndsAt (R : Meaning α) (S : Meaning β) (i : End) (f : α → β) (as : List α) (w : World) : Prop :=
  ∀ a ∈ as, ∀ x F v, Spares ∅ w v → R.holds a x F v →
    ∃ y, endNode x i v = .ok y v ∧ S.holds (f a) y ∅ v

/-- **Two images of each item**: the second is made when it is asked for. -/
theorem runs_both {f g : α → β} (hit : Delivers h d R it as P w) (hf : EndsAt R S .target f as w)
    (hg : EndsAt R S .source g as w) :
    Runs h d 1 S (.ends { source := it }) (as.flatMap fun a => [f a, g a]) P w := by
  induction as generalizing P w with
  | nil =>
      refine ⟨closed_ends _, hit.has, fun n fuel hn hfuel v hv => ?_⟩
      obtain ⟨fuel, rfl⟩ := Nat.exists_eq_add_of_le' hfuel
      obtain ⟨u, hpull, huses⟩ := hit.2 n hn v hv
      exact ⟨none, u, Machine.pull_of_finish (stepCursor_ends_end hpull) fuel, huses⟩
  | cons a as ih =>
      refine ⟨closed_ends _, hit.has, fun n fuel hn hfuel v hv => ?_⟩
      obtain ⟨fuel, rfl⟩ := Nat.exists_eq_add_of_le' hfuel
      obtain ⟨x, u, F, Q, hpull, huses, hdivides, hx, hrest⟩ := hit.2 n hn v hv
      have hwu : Spares ∅ w u := hv.empty.trans huses.empty
      obtain ⟨y, hy, hyholds⟩ := hf a List.mem_cons_self x F u hwu hx
      have hFQ : Has (F ∪ Q) u := by
        rintro i (hi | hi)
        · exact R.has hx i hi
        · exact hrest.has i hi
      refine ⟨y, _, u, ∅, F ∪ Q, Machine.pull_of_give (stepCursor_ends_first hpull hy) fuel, huses,
        ⟨Set.empty_subset _, Set.union_subset hdivides.item hdivides.rest, fun _ hi => hi.elim⟩,
        hyholds, closed_ends _, hFQ, fun n fuel hn hfuel v' hv' => ?_⟩
      -- the item is kept until its second image is asked for
      obtain ⟨fuel, rfl⟩ := Nat.exists_eq_add_of_le' hfuel
      have hwv : Spares ∅ w v' := hwu.trans hv'.empty
      have hx' := R.spared hx (hv'.mono Set.subset_union_left)
      have hrest' := hrest.spared (hv'.mono Set.subset_union_right)
      obtain ⟨z, hz, hzholds⟩ := hg a List.mem_cons_self x F v' hwv hx'
      refine ⟨z, _, v', ∅, Q, Machine.pull_of_give (stepCursor_ends_second hz) fuel, .refl _ v',
        ⟨Set.empty_subset _, Set.subset_union_right.trans (subset_within _ _), fun _ hi => hi.elim⟩,
        hzholds, ih hrest' ?_ ?_⟩
      · exact fun b hb x F v hv => hf b (List.mem_cons_of_mem a hb) x F v (hwv.trans hv)
      · exact fun b hb x F v hv => hg b (List.mem_cons_of_mem a hb) x F v (hwv.trans hv)

/-! ### Sequences that have not begun -/

/-- A sequence whose first step gives nothing gives what it gives from there. -/
theorem runs_of_skip {c : Cursor} {as : List α} (hclosed : Closed c) (hP : Has P w)
    (hskip : ∀ n, d ≤ n → ∀ v, Spares P w v → ∃ c' u Q,
      stepCursor (h.up n) c v = .ok (.skip c') u ∧ Uses P v u ∧ Q ⊆ within P v.cursors.size ∧
        Runs h d N R c' as Q u) :
    Runs h d (N + 1) R c as P w := by
  cases as with
  | nil =>
      refine ⟨hclosed, hP, fun n fuel hn hfuel v hv => ?_⟩
      obtain ⟨fuel, rfl⟩ := Nat.exists_eq_add_of_le' hfuel
      obtain ⟨c', u, Q, hstep, huses, hQ, hruns⟩ := hskip n hn v hv
      obtain ⟨rest, t, hpull, hmoves⟩ := hruns.2.2 n (fuel + N) hn (Nat.le_add_left N fuel) u (.refl Q u)
      refine ⟨rest, t, ?_, huses.trans hmoves hQ⟩
      rw [← Nat.add_assoc, Machine.pull_of_skip hstep, hpull]
  | cons a as =>
      refine ⟨hclosed, hP, fun n fuel hn hfuel v hv => ?_⟩
      obtain ⟨fuel, rfl⟩ := Nat.exists_eq_add_of_le' hfuel
      obtain ⟨c', u, Q, hstep, huses, hQ, hruns⟩ := hskip n hn v hv
      obtain ⟨x, c'', t, F, Q', hpull, hmoves, hdivides, hx, hrest⟩ :=
        hruns.2.2 n (fuel + N) hn (Nat.le_add_left N fuel) u (.refl Q u)
      have hwithin := within_mono hQ huses.size
      refine ⟨x, c'', t, F, Q', ?_, huses.trans hmoves hQ, hdivides.mono hwithin, hx, hrest.mono (Nat.le_succ N)⟩
      rw [← Nat.add_assoc, Machine.pull_of_skip hstep, hpull]

theorem closed_deferred (o : Opening) : Closed (.deferred o) := ⟨nofun, nofun, fun _ _ => rfl⟩

/-- **A sequence that has not begun** gives what it gives once it has begun. -/
theorem runs_deferred {o : Opening} {as : List α} (hP : Has P w)
    (hbegin : ∀ n, d ≤ n → ∀ v, Spares P w v → ∃ c u Q, beginCursor (h.up n) o v = .ok c u ∧
      Uses P v u ∧ Q ⊆ within P v.cursors.size ∧ Runs h d N R c as Q u) :
    Runs h d (N + 1) R (.deferred o) as P w := by
  refine runs_of_skip (closed_deferred o) hP fun n hn v hv => ?_
  obtain ⟨c, u, Q, hc, hrest⟩ := hbegin n hn v hv
  refine ⟨c, u, Q, ?_, hrest⟩
  rw [stepCursor, Act.bind_of_ok hc]
  rfl

end GraphRoutes.Session
