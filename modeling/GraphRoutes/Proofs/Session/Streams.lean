/-
**Lazy sequences, and the cursors that they stand on.**

A lazy sequence reads other sequences, and makes new ones while it is read.  What it gives depends on
no other cursors than those that it stands on: its own, those of the sequences that it reads, and those
that it makes for itself.  So two sequences that stand on different cursors may be read in turns.

A sequence delivers a list if, whatever has happened to the other cursors meanwhile, each read gives the
next item of the list and moves no cursors but its own, to the end.  An item may be a sequence itself;
from then on the item has its cursors to itself.

Main definitions:

* `GraphRoutes.Session.World.Spares`, `GraphRoutes.Session.World.Uses` — what an action leaves alone,
  and what it moves;
* `GraphRoutes.Session.Meaning` — what a value stands for, and on which cursors it stands;
* `GraphRoutes.Session.Delivers` — what an iterator gives, however often others are read in between;
* `GraphRoutes.Session.Runs` — what a closed sequence gives;
* `GraphRoutes.Session.Meaning.sequence` — iterators, and what they deliver.

Main results:

* `GraphRoutes.Session.World.read_cursorCell`, `GraphRoutes.Session.World.modify_cursorCell_eq` — the state
  that a sequence keeps at its place;
* `GraphRoutes.Session.delivers_of_runs` — **a closed sequence delivers what it gives**;
* `GraphRoutes.Session.delivers_ready` — so do items at hand;
* `GraphRoutes.Session.Delivers.gives` — what is delivered is what an iterator gives to its end.
-/
import GraphRoutes.Proofs.Session.Forms
import GraphRoutes.Proofs.Session.Incident
import Mathlib.Data.Set.Insert

set_option relaxedAutoImplicit false
set_option autoImplicit false

namespace GraphRoutes.Session

/-! ### Hosts -/

/-- The host that is so many levels above another. -/
def Host.up (h : Host) : ℕ → Host
  | 0 => h
  | n + 1 => (h.up n).above

@[simp] theorem Host.fuel_up (h : Host) (n : ℕ) : (h.up n).fuel = h.fuel := by
  induction n with
  | zero => rfl
  | succ n ih => exact ih

/-! ### What an action leaves alone -/

namespace World

/-- Of two worlds, the second differs from the first in its marks and its cursors only, and has the
cursors in `P` as they were. -/
structure Spares (P : Set ℕ) (w v : World) : Prop where
  rest : v = { w with cursors := v.cursors, marks := v.marks }
  size : w.cursors.size ≤ v.cursors.size
  same : ∀ i ∈ P, v.cursors[i]? = w.cursors[i]?

/-- From one world to the next, only cursors in `P` have moved, and new ones have been made. -/
def Uses (P : Set ℕ) (w v : World) : Prop := Spares {i | i < w.cursors.size ∧ i ∉ P} w v

/-- The places in `P`, and those from the `n`-th on. -/
def within (P : Set ℕ) (n : ℕ) : Set ℕ := {i | i ∈ P ∨ n ≤ i}

/-- All places in a set are places of cursors. -/
def Has (P : Set ℕ) (w : World) : Prop := ∀ i ∈ P, i < w.cursors.size

variable {P Q : Set ℕ} {t u v w : World} {n m : ℕ}

theorem Spares.refl (P : Set ℕ) (w : World) : Spares P w w := ⟨rfl, Nat.le_refl _, fun _ _ => rfl⟩

theorem Spares.trans (h : Spares P w v) (h' : Spares P v u) : Spares P w u where
  rest := by rw [h'.rest, h.rest]
  size := Nat.le_trans h.size h'.size
  same i hi := (h'.same i hi).trans (h.same i hi)

theorem Spares.mono (h : Spares P w v) (hQ : Q ⊆ P) : Spares Q w v :=
  ⟨h.rest, h.size, fun i hi => h.same i (hQ hi)⟩

theorem Spares.empty (h : Spares P w v) : Spares ∅ w v := h.mono (Set.empty_subset P)

theorem Spares.graphs_eq (h : Spares P w v) : v.graphs = w.graphs := by rw [h.rest]

theorem Spares.lists_eq (h : Spares P w v) : v.lists = w.lists := by rw [h.rest]

theorem Spares.bags_eq (h : Spares P w v) : v.bags = w.bags := by rw [h.rest]

theorem Has.spared (h : Has P w) (hv : Spares Q w v) : Has P v :=
  fun i hi => Nat.lt_of_lt_of_le (h i hi) hv.size

theorem Uses.refl (P : Set ℕ) (w : World) : Uses P w w := Spares.refl _ w

theorem Uses.size (h : Uses P w v) : w.cursors.size ≤ v.cursors.size := Spares.size h

theorem Uses.empty (h : Uses P w v) : Spares ∅ w v := Spares.empty h

/-- What moves cursors in `P` leaves those alone that are not in `P`. -/
theorem Uses.spares (h : Uses P w v) (hQ : Has Q w) (hPQ : ∀ i ∈ Q, i ∉ P) : Spares Q w v :=
  Spares.mono h fun i hi => ⟨hQ i hi, hPQ i hi⟩

/-- What moves one cursor leaves the others alone. -/
theorem Uses.spares_of_notMem {place : ℕ} (h : Uses {place} w v) (hQ : Has Q w) (hplace : place ∉ Q) :
    Spares Q w v :=
  h.spares hQ fun _ hi hmem => hplace (hmem ▸ hi)

/-- What moves one cursor and others leaves those alone that are apart from both. -/
theorem Uses.spares_of_insert {place : ℕ} (h : Uses (insert place P) w v) (hQ : Has Q w)
    (hplace : place ∉ Q) (hPQ : ∀ i ∈ P, i ∉ Q) : Spares Q w v := by
  refine h.spares hQ fun i hi hmem => ?_
  rcases hmem with rfl | hmem
  · exact hplace hi
  · exact hPQ i hmem hi

/-- What only makes new cursors leaves all others alone. -/
theorem Uses.spares_of_new (h : Uses ∅ w v) (hQ : Has Q w) : Spares Q w v :=
  h.spares hQ fun _ _ hmem => hmem.elim

theorem Uses.mono (h : Uses P w v) (hP : P ⊆ Q) : Uses Q w v :=
  Spares.mono h fun _ hi => ⟨hi.1, fun hmem => hi.2 (hP hmem)⟩

/-- One action may move the cursors that the action before it has made. -/
theorem Uses.trans (h : Uses P w v) (h' : Uses Q v u) (hQ : Q ⊆ within P w.cursors.size) :
    Uses P w u := by
  have hsecond : Spares {i | i < w.cursors.size ∧ i ∉ P} v u := by
    refine Spares.mono h' fun i hi => ⟨Nat.lt_of_lt_of_le hi.1 h.size, fun hmem => ?_⟩
    rcases hQ hmem with hP | hnew
    · exact hi.2 hP
    · exact Nat.not_lt_of_le hnew hi.1
  exact Spares.trans h hsecond

/-- An action moves its own cursor last. -/
theorem Uses.settle {place : ℕ} (h : Uses P w v) (h' : Uses {place} v u) :
    Uses (insert place P) w u :=
  (h.mono (Set.subset_insert place P)).trans h' (Set.singleton_subset_iff.2 (.inl (Set.mem_insert place P)))

theorem uses_marks (w : World) (marks : ℕ) : Uses ∅ w { w with marks } :=
  ⟨rfl, Nat.le_refl _, fun _ _ => rfl⟩

/-- The world with another cursor at a place. -/
def withCursor (w : World) (place : ℕ) (c : Cursor) : World :=
  { w with cursors := w.cursors.setIfInBounds place c }

@[simp] theorem size_withCursor (w : World) (place : ℕ) (c : Cursor) :
    (w.withCursor place c).cursors.size = w.cursors.size :=
  Array.size_setIfInBounds

theorem uses_setCursor (w : World) (place : ℕ) (c : Cursor) :
    Uses {place} w { w with cursors := w.cursors.setIfInBounds place c } where
  rest := rfl
  size := by simp
  same _ hi := Array.getElem?_setIfInBounds_ne fun h => hi.2 h.symm

theorem uses_push (w : World) (c : Cursor) : Uses ∅ w { w with cursors := w.cursors.push c } where
  rest := rfl
  size := by simp
  same i hi := by rw [Array.getElem?_push_lt hi.1, Array.getElem?_eq_getElem hi.1]

/-- A new cursor is at the first place that there was not. -/
theorem newCursor_eq (c : Cursor) (w : World) :
    newCursor c w =
      .ok (.ref .iterator w.cursors.size) { w with cursors := w.cursors.push c } := rfl

/-- Where a sequence keeps its state, there it is read. -/
theorem read_cursorCell {σ : Type} {view : Cursor → Option σ} {make : σ → Cursor} {place : ℕ} {c : Cursor}
    {x : σ} (start : σ) (hc : w.cursors[place]? = some c) (hview : view c = some x) :
    ((cursorCell start view make place).read : M σ) w = .ok x w := by
  change EStateM.Result.ok ((w.cursors[place]?.bind view).getD start) w = _
  rw [hc, Option.bind_some, hview, Option.getD_some]

/-- A sequence that changes its state moves its own cursor, and does nothing else. -/
theorem modify_cursorCell_eq {σ : Type} {view : Cursor → Option σ} {make : σ → Cursor} {place : ℕ}
    {c : Cursor} {x : σ} (start : σ) (hc : w.cursors[place]? = some c) (hview : view c = some x)
    (f : σ → σ) :
    ((cursorCell start view make place).modify f : M Unit) w =
      .ok () (w.withCursor place (make (f x))) := by
  have hcursors : (w.cursors.modify place fun c => make (f ((view c).getD start))) =
      w.cursors.setIfInBounds place (make (f x)) := by
    refine Array.ext_getElem? fun i => ?_
    rw [Array.getElem?_modify, Array.getElem?_setIfInBounds]
    by_cases hi : place = i
    · subst hi
      rw [if_pos rfl, if_pos rfl, if_pos (Array.getElem?_eq_some_iff.1 hc).1, hc, Option.map_some, hview,
        Option.getD_some]
    · rw [if_neg hi, if_neg hi]
  change EStateM.Result.ok () { w with cursors := w.cursors.modify place _ } = _
  rw [hcursors, withCursor]

/-- A sequence that changes its state moves its own cursor. -/
theorem modify_cursorCell {σ : Type} {view : Cursor → Option σ} {make : σ → Cursor} {place : ℕ} {c : Cursor}
    {x : σ} (start : σ) (hc : w.cursors[place]? = some c) (hview : view c = some x) (f : σ → σ) :
    ∃ v, ((cursorCell start view make place).modify f : M Unit) w = .ok () v ∧
      v.cursors[place]? = some (make (f x)) ∧ Uses {place} w v :=
  ⟨_, modify_cursorCell_eq start hc hview f,
    Array.getElem?_setIfInBounds_self_of_lt (Array.getElem?_eq_some_iff.1 hc).1, uses_setCursor w place _⟩

theorem Keeps.uses (h : Keeps n w v) (hn : w.cursors.size ≤ n) : Uses ∅ w v :=
  ⟨h.rest, h.size, fun i hi => h.below i (Nat.lt_of_lt_of_le hi.1 hn)⟩

theorem subset_within (P : Set ℕ) (n : ℕ) : P ⊆ within P n := fun _ hi => .inl hi

theorem subset_within_insert (place : ℕ) (P : Set ℕ) (n : ℕ) : P ⊆ within (insert place P) n :=
  (Set.subset_insert place P).trans (subset_within _ n)

theorem singleton_subset_within (place : ℕ) (P : Set ℕ) (n : ℕ) :
    ({place} : Set ℕ) ⊆ within (insert place P) n :=
  Set.singleton_subset_iff.2 (.inl (Set.mem_insert place P))

theorem within_mono (hP : P ⊆ within Q m) (hm : m ≤ n) : within P n ⊆ within Q m := by
  rintro i (hi | hi)
  · exact hP hi
  · exact .inr (Nat.le_trans hm hi)

theorem within_subset_insert (place : ℕ) (P : Set ℕ) (n : ℕ) : within P n ⊆ within (insert place P) n :=
  within_mono (subset_within_insert place P n) (Nat.le_refl n)

theorem insert_subset_within (place : ℕ) (hQ : Q ⊆ within P n) : insert place Q ⊆ within (insert place P) n :=
  Set.insert_subset (singleton_subset_within place P n rfl) (hQ.trans (within_subset_insert place P n))

/-- A place below the `n`-th that is not in `P` is not among those in `P` and those from the `n`-th on. -/
theorem notMem_of_subset_within {place : ℕ} (hQ : Q ⊆ within P n) (hplace : place ∉ P) (hn : place < n) :
    place ∉ Q := by
  intro hmem
  rcases hQ hmem with hP | hle
  · exact hplace hP
  · exact Nat.not_le_of_lt hn hle

end World

open World

/-! ### What values stand for -/

/-- What values stand for, and on which cursors they stand.  A value goes on to stand for what it stands
for as long as its cursors are left alone, and handing it out changes nothing. -/
structure Meaning (α : Type) where
  holds : α → Value → Set ℕ → World → Prop
  has : ∀ {a x F w}, holds a x F w → Has F w
  spared : ∀ {a x F w v}, holds a x F w → Spares F w v → holds a x F v
  handed : ∀ {a x x' F w}, holds a x F w → Handed x x' → holds a x' F w

/-- A read divides the cursors of a sequence, and those that it has made, between the item that it
gives and what is still to come. -/
structure Divides (P : Set ℕ) (n : ℕ) (F Q : Set ℕ) : Prop where
  item : F ⊆ within P n
  rest : Q ⊆ within P n
  apart : ∀ i ∈ F, i ∉ Q

theorem Divides.mono {P P' F Q : Set ℕ} {n n' : ℕ} (h : Divides P n F Q) (hP : within P n ⊆ within P' n') :
    Divides P' n' F Q :=
  ⟨h.item.trans hP, h.rest.trans hP, h.apart⟩

/-- The cursor of a sequence that stands over another one does not belong to the items of that. -/
theorem Divides.insert {place n : ℕ} {P F Q : Set ℕ} (h : Divides P n F Q) (hplace : place ∉ P)
    (hlt : place < n) : Divides (insert place P) n F (insert place Q) where
  item := h.item.trans (within_subset_insert place P n)
  rest := insert_subset_within place h.rest
  apart := by
    rintro i hi (rfl | hmem)
    · exact notMem_of_subset_within h.item hplace hlt hi
    · exact h.apart i hi hmem

/-- What a sequence has, and what it has made, is apart from what stands beside it. -/
theorem apart_of_subset_within {n : ℕ} {P Q F : Set ℕ} (hF : F ⊆ within P n) (hapart : ∀ i ∈ P, i ∉ Q)
    (hQ : ∀ i ∈ Q, i < n) : ∀ i ∈ F, i ∉ Q := fun i hi hmem =>
  notMem_of_subset_within hF (fun hP => hapart i hP hmem) (hQ i hmem) hi

/-- What is made of an item is apart from what is still to come, like the item. -/
theorem Divides.image {n m : ℕ} {P F Q G : Set ℕ} (h : Divides P n F Q) (hG : G ⊆ within F m) (hm : n ≤ m)
    (hQ : ∀ i ∈ Q, i < m) : Divides P n G Q :=
  ⟨hG.trans (within_mono h.item hm), h.rest, apart_of_subset_within hG h.apart hQ⟩

/-- A read of the first of two sequences divides the cursors of both. -/
theorem Divides.union {n : ℕ} {P P' F Q : Set ℕ} (h : Divides P n F Q) (hapart : ∀ i ∈ P, i ∉ P')
    (hP' : ∀ i ∈ P', i < n) : Divides (P ∪ P') n F (Q ∪ P') := by
  have hwithin : within P n ⊆ within (P ∪ P') n :=
    within_mono (Set.subset_union_left.trans (subset_within _ n)) (Nat.le_refl n)
  refine ⟨h.item.trans hwithin, ?_, ?_⟩
  · exact Set.union_subset (h.rest.trans hwithin) (Set.subset_union_right.trans (subset_within _ n))
  · rintro i hi (hmem | hmem)
    · exact h.apart i hi hmem
    · exact apart_of_subset_within h.item hapart hP' i hi hmem

variable {α β : Type}

/-- The iterator `it`, which stands on the cursors in `P`, delivers items that stand for those of a
list: it is read by any host that is at least `d` levels above `h`, in any world that has left its
cursors alone. -/
def Delivers (h : Host) (d : ℕ) (R : Meaning α) (it : Value) : List α → Set ℕ → World → Prop
  | [], P, w => Has P w ∧ ∀ n, d ≤ n → ∀ v, Spares P w v →
      ∃ u, (h.up n).pull it v = .ok none u ∧ Uses P v u
  | a :: as, P, w => Has P w ∧ ∀ n, d ≤ n → ∀ v, Spares P w v →
      ∃ x u F Q, (h.up n).pull it v = .ok (some x) u ∧ Uses P v u ∧
        Divides P v.cursors.size F Q ∧ R.holds a x F u ∧ Delivers h d R it as Q u

/-- A sequence that is closed: it takes its steps apart from the world. -/
structure Closed (c : Cursor) : Prop where
  notRunning : c ≠ .running
  notFinished : c ≠ .finished
  notOpen : ∀ h place, openTurn? h place c = none

/-- A closed sequence gives items that stand for those of a list, if each read may take `N` steps. -/
def Runs (h : Host) (d N : ℕ) (R : Meaning α) : Cursor → List α → Set ℕ → World → Prop
  | c, [], P, w => Closed c ∧ Has P w ∧ ∀ n fuel, d ≤ n → N ≤ fuel → ∀ v, Spares P w v →
      ∃ rest u, (stepCursor (h.up n)).pull fuel c v = .ok (.ended rest) u ∧ Uses P v u
  | c, a :: as, P, w => Closed c ∧ Has P w ∧ ∀ n fuel, d ≤ n → N ≤ fuel → ∀ v, Spares P w v →
      ∃ x c' u F Q, (stepCursor (h.up n)).pull fuel c v = .ok (.item x c') u ∧ Uses P v u ∧
        Divides P v.cursors.size F Q ∧ R.holds a x F u ∧ Runs h d N R c' as Q u

section

variable {h : Host} {d e N K : ℕ} {R : Meaning α} {it : Value} {c : Cursor} {as : List α}
  {P Q : Set ℕ} {u v w : World}

theorem Delivers.has (hit : Delivers h d R it as P w) : Has P w := by
  cases as <;> exact hit.1

theorem Delivers.spared (hit : Delivers h d R it as P w) (hv : Spares P w v) :
    Delivers h d R it as P v := by
  cases as <;> exact ⟨hit.1.spared hv, fun n hn u hu => hit.2 n hn u (hv.trans hu)⟩

theorem Delivers.mono (hit : Delivers h d R it as P w) (hd : d ≤ e) :
    Delivers h e R it as P w := by
  induction as generalizing P w with
  | nil => exact ⟨hit.1, fun n hn => hit.2 n (Nat.le_trans hd hn)⟩
  | cons a as ih =>
      refine ⟨hit.1, fun n hn v hv => ?_⟩
      obtain ⟨x, u, F, Q, hpull, huses, hdivides, hx, hrest⟩ := hit.2 n (Nat.le_trans hd hn) v hv
      exact ⟨x, u, F, Q, hpull, huses, hdivides, hx, ih hrest⟩

theorem Runs.closed (hc : Runs h d N R c as P w) : Closed c := by
  cases as <;> exact hc.1

theorem Runs.has (hc : Runs h d N R c as P w) : Has P w := by
  cases as <;> exact hc.2.1

theorem Runs.spared (hc : Runs h d N R c as P w) (hv : Spares P w v) : Runs h d N R c as P v := by
  cases as <;> exact ⟨hc.1, hc.2.1.spared hv,
    fun n fuel hn hfuel u hu => hc.2.2 n fuel hn hfuel u (hv.trans hu)⟩

theorem Runs.mono (hc : Runs h d N R c as P w) (hN : N ≤ K) : Runs h d K R c as P w := by
  induction as generalizing c P w with
  | nil => exact ⟨hc.1, hc.2.1, fun n fuel hn hfuel => hc.2.2 n fuel hn (Nat.le_trans hN hfuel)⟩
  | cons a as ih =>
      refine ⟨hc.1, hc.2.1, fun n fuel hn hfuel v hv => ?_⟩
      obtain ⟨x, c', u, F, Q, hpull, huses, hdivides, hx, hrest⟩ :=
        hc.2.2 n fuel hn (Nat.le_trans hN hfuel) v hv
      exact ⟨x, c', u, F, Q, hpull, huses, hdivides, hx, ih hrest⟩

/-- Iterators, and what they deliver. -/
def Meaning.sequence (h : Host) (d : ℕ) (R : Meaning α) : Meaning (List α) where
  holds as x F w := (∃ place, x = .ref .iterator place) ∧ Delivers h d R x as F w
  has hx := hx.2.has
  spared hx hv := ⟨hx.1, hx.2.spared hv⟩
  handed := by
    rintro as x x' F w ⟨⟨place, rfl⟩, hx⟩ hhanded
    obtain rfl := hhanded.eq_of_marked rfl
    exact ⟨⟨place, rfl⟩, hx⟩

/-! ### Reading -/

theorem source_of_item {x : Value} (hpull : h.pull it w = .ok (some x) u) :
    h.source it w = .ok (some (x, it)) u := by
  rw [Host.source, Act.bind_of_ok hpull]
  rfl

theorem source_of_end (hpull : h.pull it w = .ok none u) : h.source it w = .ok none u := by
  rw [Host.source, Act.bind_of_ok hpull]
  rfl

/-- A cursor that moves and what it gives, when that is handed out, are all that a read changes. -/
theorem uses_settle (u : World) (place : ℕ) (c : Cursor) (marks : ℕ) :
    Uses {place} u { u with cursors := u.cursors.setIfInBounds place c, marks } :=
  (uses_setCursor u place c).trans (uses_marks _ marks) (Set.empty_subset _)

theorem has_insert {place : ℕ} (hplace : place < w.cursors.size) (hP : Has P w) :
    Has (insert place P) w := by
  rintro i (rfl | hi)
  · exact hplace
  · exact hP i hi

theorem exists_level_below {n : ℕ} (hn : d + 1 ≤ n) : ∃ m, n = m + 1 ∧ d ≤ m :=
  ⟨n - 1, (Nat.succ_pred_eq_of_pos (Nat.zero_lt_of_lt hn)).symm, Nat.le_pred_of_lt hn⟩

/-- While a sequence is being read, the cursors of the sequences under it are spared. -/
theorem spares_reading {place : ℕ} (hplace : place ∉ P) (hP : Has P w)
    (hv : Spares (insert place P) w v) : Spares P w (v.reading place) := by
  have hspares : Spares P w v := hv.mono (Set.subset_insert place P)
  exact hspares.trans ((uses_setCursor v place .running).spares_of_notMem (hP.spared hspares) hplace)

theorem size_reading (v : World) (place : ℕ) : (v.reading place).cursors.size = v.cursors.size := by
  simp [reading]

theorem uses_reading (v : World) (place : ℕ) (P : Set ℕ) :
    Uses (insert place P) v (v.reading place) :=
  (uses_setCursor v place .running).mono (Set.singleton_subset_iff.2 (Set.mem_insert place P))

/-- A read of a closed sequence gives the item that its steps give. -/
theorem exists_pull_closed {place : ℕ} {c' : Cursor} {x : Value} (hc : w.cursors[place]? = some c)
    (hclosed : Closed c)
    (hpull : (stepCursor h).pull h.fuel c (w.reading place) = .ok (.item x c') u) :
    ∃ x' marks, h.above.pull (.ref .iterator place) w =
        .ok (some x') { u with cursors := u.cursors.setIfInBounds place c', marks } ∧ Handed x x' := by
  have hnext := readClosed_of_item hpull
  rw [← nextItem_of_closed hc (hclosed.notOpen _ _) hclosed.notRunning hclosed.notFinished] at hnext
  exact pull_of_nextItem hnext

/-- A closed sequence that has come to its end is finished. -/
theorem pull_closed_end {place : ℕ} {rest : Option Cursor} (hc : w.cursors[place]? = some c)
    (hclosed : Closed c)
    (hpull : (stepCursor h).pull h.fuel c (w.reading place) = .ok (.ended rest) u) :
    h.above.pull (.ref .iterator place) w =
      .ok none { u with cursors := u.cursors.setIfInBounds place .finished } := by
  have hnext := readClosed_of_ended hpull
  rw [← nextItem_of_closed hc (hclosed.notOpen _ _) hclosed.notRunning hclosed.notFinished] at hnext
  exact Act.bind_of_ok hnext

/-- A sequence that is over gives nothing. -/
theorem pull_finished {place : ℕ} (hc : w.cursors[place]? = some .finished) :
    h.above.pull (.ref .iterator place) w = .ok none w := by
  have hnext : nextItem h place w = .ok none w := by
    rw [nextItem, Act.bind_of_ok (m := get) rfl, hc]
    rfl
  exact Act.bind_of_ok hnext

/-- **A closed sequence delivers what it gives.** -/
theorem delivers_of_runs {place : ℕ} (hc : w.cursors[place]? = some c) (hruns : Runs h d N R c as P w)
    (hplace : place ∉ P) (hN : N ≤ h.fuel) :
    Delivers h (d + 1) R (.ref .iterator place) as (insert place P) w := by
  induction as generalizing c P w with
  | nil =>
      have hlt : place < w.cursors.size := (Array.getElem?_eq_some_iff.1 hc).1
      refine ⟨has_insert hlt hruns.has, fun n hn v hv => ?_⟩
      obtain ⟨m, rfl, hm⟩ := exists_level_below hn
      have hcv : v.cursors[place]? = some c := (hv.same place (Set.mem_insert place P)).trans hc
      obtain ⟨rest, u, hpull, huses⟩ := hruns.2.2 m (h.up m).fuel hm (by rwa [Host.fuel_up])
        (v.reading place) (spares_reading hplace hruns.has hv)
      refine ⟨_, pull_closed_end hcv hruns.closed hpull, ?_⟩
      have hbegin := (uses_reading v place P).trans huses (subset_within_insert place P _)
      exact hbegin.trans (uses_setCursor u place .finished) (singleton_subset_within place P _)
  | cons a as ih =>
      have hlt : place < w.cursors.size := (Array.getElem?_eq_some_iff.1 hc).1
      refine ⟨has_insert hlt hruns.has, fun n hn v hv => ?_⟩
      obtain ⟨m, rfl, hm⟩ := exists_level_below hn
      have hcv : v.cursors[place]? = some c := (hv.same place (Set.mem_insert place P)).trans hc
      obtain ⟨x, c', u, F, Q, hpull, huses, hdivides, hx, hrest⟩ :=
        hruns.2.2 m (h.up m).fuel hm (by rwa [Host.fuel_up]) (v.reading place)
          (spares_reading hplace hruns.has hv)
      obtain ⟨x', marks, hpulled, hhanded⟩ := exists_pull_closed hcv hruns.closed hpull
      -- its own cursor belongs neither to the item nor to what is still to come from below
      have hltv : place < v.cursors.size := Nat.lt_of_lt_of_le hlt hv.size
      rw [size_reading] at hdivides
      have hF : place ∉ F := notMem_of_subset_within hdivides.item hplace hltv
      have hQ : place ∉ Q := notMem_of_subset_within hdivides.rest hplace hltv
      have hsettle := uses_settle u place c' marks
      have hitem := hsettle.spares_of_notMem (R.has hx) hF
      have hleft := hsettle.spares_of_notMem hrest.has hQ
      have hbegin := (uses_reading v place P).trans huses (subset_within_insert place P _)
      have hltu : place < u.cursors.size := Nat.lt_of_lt_of_le hltv hbegin.size
      exact ⟨x', _, F, insert place Q, hpulled, hbegin.trans hsettle (singleton_subset_within place P _),
        hdivides.insert hplace hltv, R.handed (R.spared hx hitem) hhanded,
        ih (Array.getElem?_setIfInBounds_self_of_lt hltu) (hrest.spared hleft) hQ⟩

theorem notMem_of_has (hP : Has P w) : w.cursors.size ∉ P := fun hmem =>
  Nat.lt_irrefl _ (hP _ hmem)

/-- What has just been made stands on its own cursor and those that were given to it. -/
theorem spares_push (hP : Has P w) (c : Cursor) :
    Spares P w { w with cursors := w.cursors.push c } :=
  (uses_push w c).spares_of_new hP

/-- A new closed sequence. -/
theorem exists_newCursor (hruns : Runs h d N R c as P w) (hN : N ≤ h.fuel) :
    ∃ u, newCursor c w = .ok (.ref .iterator w.cursors.size) u ∧ Uses ∅ w u ∧
      Delivers h (d + 1) R (.ref .iterator w.cursors.size) as (insert w.cursors.size P) u :=
  ⟨_, newCursor_eq c w, uses_push w c, delivers_of_runs Array.getElem?_push_size
    (hruns.spared (spares_push hruns.has c)) (notMem_of_has hruns.has) hN⟩

/-- What is delivered is what an iterator gives to its end. -/
theorem Delivers.gives {n : ℕ} (hit : Delivers h d R it as P w) (hn : d ≤ n) :
    ∃ xs u, Gives (h.up n) it xs w u ∧ Spares ∅ w u ∧
      List.Forall₂ (fun a x => ∃ F v, R.holds a x F v) as xs := by
  induction as generalizing P w with
  | nil =>
      obtain ⟨u, hpull, huses⟩ := hit.2 n hn w (.refl P w)
      exact ⟨[], u, .ended hpull, huses.empty, .nil⟩
  | cons a as ih =>
      obtain ⟨x, v, F, Q, hpull, huses, -, hx, hrest⟩ := hit.2 n hn w (.refl P w)
      obtain ⟨xs, u, hgives, hspares, hxs⟩ := ih hrest
      exact ⟨x :: xs, u, .item hpull hgives, huses.empty.trans hspares, .cons ⟨F, v, hx⟩ hxs⟩

/-! ### Items at hand -/

/-- Values that stand for the items of a list, each on cursors of its own. -/
inductive Holdings (R : Meaning α) (w : World) : List α → List Value → Set ℕ → Prop
  | nil : Holdings R w [] [] ∅
  | cons {a : α} {as : List α} {x : Value} {xs : List Value} {F P : Set ℕ} (hx : R.holds a x F w)
      (hxs : Holdings R w as xs P) (hapart : ∀ i ∈ F, i ∉ P) : Holdings R w (a :: as) (x :: xs) (F ∪ P)

theorem Holdings.has {xs : List Value} (hxs : Holdings R w as xs P) : Has P w := by
  induction hxs with
  | nil => exact fun _ hi => hi.elim
  | cons hx _ _ ih =>
      rintro i (hi | hi)
      · exact R.has hx i hi
      · exact ih i hi

theorem Holdings.spared {xs : List Value} (hxs : Holdings R w as xs P) (hv : Spares P w v) :
    Holdings R v as xs P := by
  induction hxs with
  | nil => exact .nil
  | cons hx _ hapart ih =>
      exact .cons (R.spared hx (hv.mono Set.subset_union_left)) (ih (hv.mono Set.subset_union_right))
        hapart

/-- Items at hand are delivered. -/
theorem delivers_ready {place : ℕ} {xs : List Value} (hready : Ready w place xs)
    (hxs : Holdings R w as xs P) (hplace : place ∉ P) (hfuel : 0 < h.fuel) :
    Delivers h 1 R (.ref .iterator place) as (insert place P) w := by
  induction as generalizing xs P w with
  | nil =>
      cases hxs
      refine ⟨has_insert hready.lt_size fun _ hi => hi.elim, fun n hn v hv => ?_⟩
      obtain ⟨m, rfl, -⟩ := exists_level_below hn
      have hreadyv := hready.congr (hv.same place (Set.mem_insert place ∅)) hv.lists_eq hv.bags_eq
      obtain ⟨cs, hpull, hsize, hcs⟩ :=
        exists_pull_ready_nil (h := h.up m) hreadyv (by rwa [Host.fuel_up])
      exact ⟨_, hpull, rfl, hsize.ge, fun i hi => hcs i fun h => hi.2 (h ▸ Set.mem_insert place ∅)⟩
  | cons a as ih =>
      cases hxs with
      | @cons _ _ x xs F P hx hxs hapart =>
          have hP : Has (insert place (F ∪ P)) w :=
            has_insert hready.lt_size (Holdings.cons hx hxs hapart).has
          refine ⟨hP, fun n hn v hv => ?_⟩
          obtain ⟨m, rfl, -⟩ := exists_level_below hn
          have hreadyv := hready.congr (hv.same place (Set.mem_insert place _)) hv.lists_eq hv.bags_eq
          obtain ⟨x', c, marks, hpulled, hhanded, hrest⟩ :=
            exists_pull_ready (h := h.up m) hreadyv (by rwa [Host.fuel_up])
          have hsettle := uses_settle v place c marks
          rw [Set.mem_union, not_or] at hplace
          have hsub : F ∪ P ⊆ insert place (F ∪ P) := Set.subset_insert place _
          have hxv := R.spared hx (hv.mono (Set.subset_union_left.trans hsub))
          have hxsv := hxs.spared (hv.mono (Set.subset_union_right.trans hsub))
          have hitem := hsettle.spares_of_notMem (R.has hxv) hplace.1
          have hleft := hsettle.spares_of_notMem hxsv.has hplace.2
          refine ⟨x', _, F, insert place P, hpulled, hsettle.mono (Set.singleton_subset_iff.2
            (Set.mem_insert place _)), ⟨?_, ?_, ?_⟩, R.handed (R.spared hxv hitem) hhanded,
            ih hrest (hxsv.spared hleft) hplace.2⟩
          · exact (Set.subset_union_left.trans hsub).trans (subset_within _ _)
          · exact (Set.insert_subset_insert Set.subset_union_right).trans (subset_within _ _)
          · rintro i hi (rfl | hmem)
            · exact hplace.1 hi
            · exact hapart i hi hmem

/-- A new sequence of items at hand. -/
theorem exists_items {xs : List Value} (of : ItemsOf) (hxs : Holdings R w as xs P)
    (hfuel : 0 < h.fuel) :
    ∃ u, iterateItems of xs w = .ok (.ref .iterator w.cursors.size) u ∧ Uses ∅ w u ∧
      Delivers h 1 R (.ref .iterator w.cursors.size) as (insert w.cursors.size P) u :=
  ⟨_, iterateItems_eq of xs, uses_push w _, delivers_ready (.items of Array.getElem?_push_size)
    (hxs.spared (spares_push hxs.has _)) (notMem_of_has hxs.has) hfuel⟩

end

end GraphRoutes.Session
