/-
**A consumer of several routes.**

A consumer opens the routes that it is given, and pulls them in any order: it may leave some of them alone,
read one far ahead of another, or come back to one that has ended.  In between it may go on beside them, as
long as it leaves alone the cursors that the routes may stand on.  If the routes are apart from one another,
then the `k`-th pull of a route gives its `k`-th item, whatever has been pulled before.

Main definitions:

* `GraphRoutes.Session.Consumed` — **pulls in any order**;
* `GraphRoutes.Session.Placed`, `GraphRoutes.Session.Attending` — where routes stand while they are read.

Main results:

* `GraphRoutes.Session.Attending.opened_next`, `GraphRoutes.Session.Attending.pulled_next` — one step of a
  consumer;
* `GraphRoutes.Session.Consumed.exists_attending` — **what has been given by then**.
-/
import GraphRoutes.Proofs.Session.Exhaustive

set_option relaxedAutoImplicit false
set_option autoImplicit false

namespace GraphRoutes.Session

open World Merge

variable {α : Type}

/-- The cursors that there are in the second world, and not in the first. -/
def World.newCursors (w v : World) : Set ℕ := {c | w.cursors.size ≤ c ∧ c < v.cursors.size}

/-- **Pulls in any order.**  Some of the routes `rs` have been opened, and it is said by `its` which iterators
they have; what these have given, pull by pull, is said by `given`.  The cursors that the routes may stand on
are those that there were at the beginning, and those that have been made when they were read.  A route may be
handed out before it is opened. -/
inductive Consumed (H : Host) (rs : List Value) (w : World) :
    (ℕ → Option Value) → (ℕ → List (Option Value)) → Set ℕ → World → Prop
  | start : Consumed H rs w (fun _ => none) (fun _ => []) {c | c < w.cursors.size} w
  | opened {its : ℕ → Option Value} {given : ℕ → List (Option Value)} {own : Set ℕ} {u v : World} {i : ℕ}
      {r r' it : Value} (hu : Consumed H rs w its given own u) (hr : rs[i]? = some r) (hr' : Handed r r')
      (hi : its i = none) (hopen : openRoute r' u = .ok it v) :
      Consumed H rs w (Function.update its i (some it)) given (own ∪ newCursors u v) v
  | pulled {its : ℕ → Option Value} {given : ℕ → List (Option Value)} {own : Set ℕ} {u v : World} {i : ℕ}
      {it : Value} {x : Option Value} (hu : Consumed H rs w its given own u) (hi : its i = some it)
      (hpull : H.pull it u = .ok x v) :
      Consumed H rs w its (Function.update given i (given i ++ [x])) (own ∪ newCursors u v) v
  | beside {its : ℕ → Option Value} {given : ℕ → List (Option Value)} {own : Set ℕ} {u v : World}
      (hu : Consumed H rs w its given own u) (hv : Quiet own u v) : Consumed H rs w its given own v

/-- Where a route stands that has been pulled `k` times: its iterator, if it has been opened, and the cursor
that has been made to read it, if it is a source of blocks. -/
inductive Placed (R : α → Value → Prop) (i : ℕ) (r : Value) (y : Strand α) (k : ℕ) (g : Positions)
    (P : Set ℕ) (w : World) : Option Value → Option ℕ → Prop
  | unread (h : Unopened w P r y (g i)) : Placed R i r y k g P w none none
  | plain {s : Stream'.Seq α} {it : Value} (hy : y = .plain s) (hg : g i = some (it, k)) :
      Placed R i r y k g P w (some it) none
  | blocks {seat : Seat} {q c t : ℕ} {cs : List α} (hseat : seat.branch = .blocks q)
      (hr : r = .ref .blocks q) (hunderway : Underway i y seat t g P w)
      (hpart : Part R seat P w cs (.ref .iterator c)) (hcs : cs = (y.items t).drop k)
      (hk : k ≤ (y.items t).length) (ht : t ≤ k + 1) :
      Placed R i r y k g P w (some (.ref .iterator c)) (some c)
  | spent {c t : ℕ} (hc : w.cursors[c]? = some .finished) (hcP : c ∉ P) (hend : y.turn t = none)
      (hk : (y.items t).length ≤ k) : Placed R i r y k g P w (some (.ref .iterator c)) (some c)

/-- **Where routes stand while they are read.**  It is said by `reserved` which cursors have been made to read
sources of blocks, and no two of them are the same. -/
structure Attending (R : α → Value → Prop) (rs : List Value) (ys : List (Strand α))
    (stands : Positions → Set ℕ → World → Prop) (its : ℕ → Option Value) (given : ℕ → List (Option Value))
    (own : Set ℕ) (reserved : ℕ → Option ℕ) (g : Positions) (P : Set ℕ) (w : World) : Prop where
  stands : stands g P w
  sources : w.Sources rs
  mine : P ⊆ own
  known : ∀ c ∈ own, c < w.cursors.size
  cuts : ∀ (i q c : ℕ), rs[i]? = some (.ref .blocks q) → w.blocks[q]? = some (.ref .iterator c) → c ∈ own
  held : ∀ i c, reserved i = some c → c ∈ own
  apart : ∀ i j c, reserved i = some c → reserved j = some c → j = i
  unread : ∀ i, its i = none → given i = []
  opened : ∀ i it, its i = some it → i < rs.length
  branch : ∀ (i : ℕ) r y, rs[i]? = some r → ys[i]? = some y →
    Placed R i r y (given i).length g P w (its i) (reserved i)

section

variable {h : Host} {d i j k K T : ℕ} {R : α → Value → Prop} {r r' : Value} {rs : List Value} {y : Strand α}
  {ys : List (Strand α)} {stands : Positions → Set ℕ → World → Prop} {its : ℕ → Option Value}
  {given : ℕ → List (Option Value)} {own P Q E : Set ℕ} {reserved : ℕ → Option ℕ} {g g' : Positions}
  {u v w : World} {it : Option Value} {cell : Option ℕ}

/-- The cursor that has been made to read a source of blocks is not under the routes. -/
theorem Placed.notMem (hs : Placed R i r y k g P w it cell) {c : ℕ} (hc : cell = some c) : c ∉ P := by
  cases hs with
  | unread | plain => cases hc
  | blocks hseat hr hunderway hpart hcs hk ht =>
      cases hc
      cases hpart with
      | plain hplain => cases hplain.symm.trans hseat
      | blocks hseat' hc' hcs' hcP => exact hcP
  | spent hc' hcP =>
      cases hc
      exact hcP

/-- It holds the items of blocks, or is over. -/
theorem Placed.cursor (hs : Placed R i r y k g P w it cell) {c : ℕ} (hc : cell = some c) :
    (∃ s, w.cursors[c]? = some (.blockItems s)) ∨ w.cursors[c]? = some .finished := by
  cases hs with
  | unread | plain => cases hc
  | blocks hseat hr hunderway hpart hcs hk ht =>
      cases hc
      cases hpart with
      | plain hplain => cases hplain.symm.trans hseat
      | blocks hseat' hc' hcs' hcP => exact .inl ⟨_, hc'⟩
  | spent hc' hcP =>
      cases hc
      exact .inr hc'

/-- What does not move its cursors leaves a route where it stands. -/
theorem Placed.confined (hs : Placed R i r y k g P w it cell) (hv : Confined E w v)
    (hQ : Q ⊆ within P w.cursors.size) (hg : g' i = g i) (hcell : ∀ c, cell = some c → c ∉ E)
    (hcut : ∀ q c s, r = .ref .blocks q → w.blocks[q]? = some (.ref .iterator c) →
      w.cursors[c]? = some (.cut s) → c ∉ P → c ∉ E) : Placed R i r y k g' Q v it cell := by
  cases hs with
  | unread hbegin =>
      refine .unread ?_
      rw [hg]
      exact hbegin.confined hv hQ hcut
  | plain hy hposition => exact .plain hy (hg.trans hposition)
  | @blocks seat q c t cs hseat hr hunderway hpart hcs hk ht =>
      obtain ⟨hposition, hsits, hown⟩ := hunderway
      have hfree : ∀ c', seat.own? = some c' → c' ∉ E := by
        intro c' hc'
        obtain ⟨q', hq', hplace⟩ := hsits.own_blocks hc'
        obtain ⟨s, hs⟩ := hsits.own_cut hc'
        cases hseat.symm.trans hq'
        exact hcut _ c' s hr hplace hs (hown c' hc')
      refine .blocks hseat hr ⟨hg.trans hposition, hsits.confined hv hfree, fun c' hc' => ?_⟩ ?_ hcs hk ht
      · exact notMem_of_subset_within hQ (hown c' hc') (hsits.own_lt hc')
      · cases hpart with
        | plain hplain => cases hplain.symm.trans hseat
        | blocks hseat' hc' hcs' hcP =>
            have hlt : c < w.cursors.size := (Array.getElem?_eq_some_iff.1 hc').1
            exact .blocks hseat' ((hv.same c hlt (hcell c rfl)).trans hc') hcs'
              (notMem_of_subset_within hQ hcP hlt)
  | @spent c t hc hcP hend hk =>
      have hlt : c < w.cursors.size := (Array.getElem?_eq_some_iff.1 hc).1
      exact .spent ((hv.same c hlt (hcell c rfl)).trans hc) (notMem_of_subset_within hQ hcP hlt) hend hk

/-- Cursors that are own or new. -/
theorem subset_own (hP : P ⊆ own) (hQ : Q ⊆ within P w.cursors.size) (hhas : Has Q v) :
    Q ⊆ own ∪ newCursors w v := fun c hc =>
  (hQ hc).imp (fun hmem => hP hmem) fun hle => ⟨hle, hhas c hc⟩

/-- What goes on beside the routes leaves them where they stand. -/
theorem Attending.beside (hfooting : Footing R stands)
    (hu : Attending R rs ys stands its given own reserved g P u) (hv : Quiet own u v) :
    Attending R rs ys stands its given own reserved g P v := by
  have hconfined : Confined {c | c ∉ own} u v :=
    ⟨hv.size, fun c _ hc => hv.same c (not_not.1 hc), fun q it hq => by rw [hv.rest]; exact hq⟩
  have hown : Quiet P u v := ⟨hv.rest, hv.size, fun c hc => hv.same c (hu.mine hc), hv.lists⟩
  refine ⟨hfooting.quiet _ _ _ _ hu.stands hown, hu.sources.confined hconfined, hu.mine,
    fun c hc => Nat.lt_of_lt_of_le (hu.known c hc) hv.size, fun i q c hr hq => hu.cuts i q c hr ?_,
    hu.held, hu.apart, hu.unread, hu.opened, fun i r y hr hy => ?_⟩
  · rw [hv.rest] at hq
    exact hq
  · refine (hu.branch i r y hr hy).confined hconfined (subset_within P _) rfl (fun c hc hout => ?_) ?_
    · exact hout (hu.held i c hc)
    · rintro q c s rfl hq - - hout
      exact hout (hu.cuts i q c hr hq)

/-- A cursor that no other route has is given to a route: no two routes have the same. -/
theorem apart_update (hapart : ∀ i j c, reserved i = some c → reserved j = some c → j = i)
    (hcell : ∀ j c, cell = some c → reserved j = some c → j = i) {j j' c : ℕ}
    (hc : Function.update reserved i cell j = some c) (hc' : Function.update reserved i cell j' = some c) :
    j' = j := by
  by_cases hj : j = i
  · subst hj
    rw [Function.update_self] at hc
    by_contra hj'
    rw [Function.update_of_ne hj'] at hc'
    exact hj' (hcell j' c hc hc')
  · rw [Function.update_of_ne hj] at hc
    by_cases hj' : j' = i
    · subst hj'
      rw [Function.update_self] at hc'
      exact absurd (hcell j c hc' hc) hj
    · rw [Function.update_of_ne hj'] at hc'
      exact hapart j j' c hc hc'

/-- One route has been opened or pulled, and the others stand where they stood. -/
theorem Attending.next (x : Value) (zs : List (Option Value)) (cell : Option ℕ)
    (hu : Attending R rs ys stands its given own reserved g P u) (hi : i < rs.length) (hv : Confined E u v)
    (hQ : Q ⊆ within P u.cursors.size) (hhas : Has Q v) (hstands : stands g' Q v)
    (hg : ∀ j, j ≠ i → g' j = g j)
    (hcell : ∀ c, cell = some c → reserved i = some c ∨ c ∈ newCursors u v)
    (hE : ∀ (j c : ℕ) r y, j ≠ i → rs[j]? = some r → ys[j]? = some y → reserved j = some c → c ∉ E)
    (hcut : ∀ (j q c : ℕ) s, j ≠ i → rs[j]? = some (.ref .blocks q) →
      u.blocks[q]? = some (.ref .iterator c) → u.cursors[c]? = some (.cut s) → c ∉ P → c ∉ E)
    (hself : ∀ r y, rs[i]? = some r → ys[i]? = some y →
      Placed R i r y zs.length g' Q v (some x) cell) :
    Attending R rs ys stands (Function.update its i (some x)) (Function.update given i zs)
      (own ∪ newCursors u v) (Function.update reserved i cell) g' Q v := by
  have hnew : ∀ c, c ∈ newCursors u v → c ∉ own := fun c hc hmem =>
    Nat.not_lt_of_le hc.1 (hu.known c hmem)
  refine ⟨hstands, hu.sources.confined hv, subset_own hu.mine hQ hhas, ?_, fun j q c hr hq => .inl ?_,
    fun j c hc => ?_, fun j j' c hc hc' => ?_, fun j hj => ?_, fun j it hj => ?_, fun j r y hr hy => ?_⟩
  · rintro c (hc | hc)
    · exact Nat.lt_of_lt_of_le (hu.known c hc) hv.size
    · exact hc.2
  · obtain ⟨it, hit⟩ := hu.sources.known j q hr
    cases hq.symm.trans (hv.blocks _ _ hit)
    exact hu.cuts j q c hr hit
  · by_cases hj : j = i
    · subst hj
      rw [Function.update_self] at hc
      exact (hcell c hc).imp_left (hu.held j c)
    · rw [Function.update_of_ne hj] at hc
      exact .inl (hu.held j c hc)
  · refine apart_update hu.apart (fun k c hself hc => ?_) hc hc'
    rcases hcell c hself with hold | hfresh
    · exact hu.apart i k c hold hc
    · exact absurd (hu.held k c hc) (hnew c hfresh)
  · by_cases hji : j = i
    · subst hji
      rw [Function.update_self] at hj
      cases hj
    · rw [Function.update_of_ne hji] at hj ⊢
      exact hu.unread j hj
  · by_cases hji : j = i
    · exact hji ▸ hi
    · rw [Function.update_of_ne hji] at hj
      exact hu.opened j it hj
  · by_cases hji : j = i
    · subst hji
      rw [Function.update_self, Function.update_self, Function.update_self]
      exact hself r y hr hy
    · rw [Function.update_of_ne hji, Function.update_of_ne hji, Function.update_of_ne hji]
      refine (hu.branch j r y hr hy).confined hv hQ (hg j hji) (fun c hc => hE j c r y hji hr hy hc) ?_
      rintro q c s rfl hq hs hcP
      exact hcut j q c s hji hr hq hs hcP

/-- **A route is opened.** -/
theorem Attending.opened_next (hapart : Apart h d R rs ys stands) (hlength : rs.length = ys.length)
    (hu : Attending R rs ys stands its given own reserved g P u) (hr : rs[i]? = some r) (hhanded : Handed r r')
    (hi : its i = none) :
    ∃ x v reserved' g' Q, openRoute r' u = .ok x v ∧ Attending R rs ys stands (Function.update its i (some x))
      given (own ∪ newCursors u v) reserved' g' Q v := by
  have hlt : i < rs.length := (List.getElem?_eq_some_iff.1 hr).1
  obtain ⟨y, hy⟩ : ∃ y, ys[i]? = some y := ⟨_, List.getElem?_eq_getElem (hlength ▸ hlt)⟩
  have hbegin : Unopened u P r y (g i) := by
    have hs := hu.branch i r y hr hy
    rw [hi] at hs
    generalize reserved i = cell at hs
    cases hs with
    | unread hbegin => exact hbegin
  obtain ⟨x, seat, v, g', Q, hopen, huses, hstands, hQ, hg, hunderway, hpart, hseat⟩ :=
    exists_opened hapart hu.stands hbegin hr hhanded
  have hgiven := hu.unread i hi
  have hkeep : given = Function.update given i [] := by
    rw [← hgiven, Function.update_eq_self]
  have hnext := fun cell hcell hself => hu.next x [] cell hlt huses.confined hQ
    (hapart.has _ _ _ hstands) hstands hg hcell (fun _ _ _ _ _ _ _ _ hmem => hmem)
    (fun _ _ _ _ _ _ _ _ _ hmem => hmem)
    hself
  rw [← hkeep] at hnext
  cases hpart with
  | plain hplain =>
      obtain ⟨hposition, hsits, -⟩ := hunderway
      cases hsits with
      | blocks | chunked => cases hplain
      | plain s it =>
          cases hplain
          refine ⟨x, v, _, g', Q, hopen, hnext none nofun fun r' y' _ hy' => ?_⟩
          cases hy.symm.trans hy'
          exact .plain rfl hposition
  | @blocks q c n part cs hbranch hc hcs hcQ =>
      obtain ⟨hr', hplace⟩ := hseat q hbranch
      have hcv : c < v.cursors.size := (Array.getElem?_eq_some_iff.1 hc).1
      refine ⟨_, v, _, g', Q, hopen, hnext (some c) (fun c' hc' => ?_) fun r' y' hr₂ hy' => ?_⟩
      · cases hc'
        cases hplace
        exact .inr ⟨Nat.le_refl _, hcv⟩
      · cases hy.symm.trans hy'
        cases hr'.symm.trans hr₂
        exact .blocks hbranch rfl hunderway (.blocks hbranch hc hcs hcQ) rfl (Nat.zero_le _) (Nat.zero_le _)

/-- What a read of a part leaves: its item, and what is behind it. -/
theorem exists_placed {seat : Seat} {q c t t' : ℕ} {a : α} {l cs : List α} (hfair : y.Fair)
    (hseat : seat.branch = .blocks q) (hcs : cs = (y.items t).drop k) (hk : k ≤ (y.items t).length)
    (ht : t ≤ k + 1) (ht' : t' ≤ t + 1)
    (hdue : cs ++ y.rest (t + 1) t = a :: (l ++ y.rest (t + 1) t'))
    (hunderway : Underway i y seat t' g' Q v) (hpart : Part R seat Q v l (.ref .iterator c)) :
    y.item? k = some a ∧ Placed R i (.ref .blocks q) y (k + 1) g' Q v (some (.ref .iterator c)) (some c) := by
  have hdrop : (y.items (t + 1)).drop k = a :: (l ++ y.rest (t + 1) t') := by
    rw [← hdue, hcs, ← Strand.items_append_rest y (Nat.le_succ t), List.drop_append_of_le_length hk]
  have hlength : (y.items (t + 1)).length = k + 1 + l.length + (y.rest (t + 1) t').length := by
    have hlength := congrArg List.length hdrop
    rw [List.length_drop, List.length_cons, List.length_append] at hlength
    omega
  have hsplit := Strand.items_append_rest y ht'
  have hk' : (y.items t').length = k + 1 + l.length := by
    have hlength' := congrArg List.length hsplit
    rw [List.length_append, hlength] at hlength'
    omega
  refine ⟨Strand.item?_of_getElem? (T := t + 1) hfair ?_, .blocks hseat rfl hunderway hpart ?_ (by omega) (by omega)⟩
  · rw [← List.head?_drop, hdrop]
    rfl
  · have hrest : (y.items (t + 1)).drop (k + 1) = l ++ y.rest (t + 1) t' := by
      rw [← List.drop_drop, hdrop]
      rfl
    rw [← hsplit, List.drop_append_of_le_length (by omega)] at hrest
    exact (List.append_cancel_right hrest).symm

/-- The cursors that may be moved when a route is pulled. -/
def Placed.cursors (r : Value) (cell : Option ℕ) (P : Set ℕ) (w : World) : Set ℕ :=
  {c | c ∈ P ∨ cell = some c ∨
    ∃ q s, r = .ref .blocks q ∧ w.blocks[q]? = some (.ref .iterator c) ∧ w.cursors[c]? = some (.cut s)}

/-- What the next pull of a route comes to. -/
structure Placed.Pulled (H : Host) (R : α → Value → Prop) (stands : Positions → Set ℕ → World → Prop) (i : ℕ)
    (r : Value) (y : Strand α) (k : ℕ) (x : Value) (cell : Option ℕ) (g : Positions) (P : Set ℕ)
    (w : World) : Prop where
  pulled : ∃ z v g' Q, H.pull x w = .ok z v ∧ Option.Rel R (y.item? k) z ∧
    Confined (Placed.cursors r cell P w) w v ∧ Q ⊆ within P w.cursors.size ∧ stands g' Q v ∧
    (∀ j, j ≠ i → g' j = g j) ∧ Placed R i r y (k + 1) g' Q v (some x) cell

section

variable {H : Host} {x : Value}

/-- A route gives what its iterator gives. -/
theorem Placed.pull_plain {s : Stream'.Seq α} (hA : Answers H R ys stands k)
    (hy : ys[i]? = some (.plain s)) (hstands : stands g P u) (hg : g i = some (x, k)) :
    Placed.Pulled H R stands i r (.plain s) k x none g P u := by
  obtain ⟨z, v, Q, hask, hz, hconfined, hQ, hstands'⟩ := hA g P u i _ x hy hstands hg
  obtain ⟨z, rfl, hpull⟩ := pull_of_ask (by simp) hask
  refine ⟨z, v, _, Q, hpull, ?_, hconfined.mono fun c hc => .inl hc, hQ, hstands',
    fun j hj => Function.update_of_ne hj .., .plain rfl (Function.update_self ..)⟩
  rw [Strand.item?_plain]
  rw [Strand.answer] at hz
  generalize s.get? k = a at hz
  cases z with
  | none =>
      cases a with
      | none => exact .none
      | some a => cases hz
  | some z =>
      cases a with
      | none => cases hz
      | some a =>
          obtain ⟨hz⟩ := hz
          obtain _ | ⟨ha, -⟩ := hz
          exact .some ha

/-- The items of blocks are given one by one. -/
theorem Placed.pull_blocks {seat : Seat} {q c t : ℕ} {cs : List α} (hfooting : Footing R stands)
    (hy : ys[i]? = some y) (hfair : y.Fair) (hlimit : ∀ s n, y = .chunked s n → (n : ℤ) ≤ sliceLimit)
    (hA : ∀ k < K, ∀ n, Answers (H.up n) R ys stands k) (hK : ∀ t' < t + 2, y.pulled (t' + 1) ≤ K)
    (hfuel : K < H.fuel) (htwo : 1 < H.fuel) (hstands : stands g P u) (hseat : seat.branch = .blocks q)
    (hr : r = .ref .blocks q) (hunderway : Underway i y seat t g P u)
    (hpart : Part R seat P u cs (.ref .iterator c)) (hcs : cs = (y.items t).drop k)
    (hk : k ≤ (y.items t).length) (ht : t ≤ k + 1) :
    Placed.Pulled H.above.above R stands i r y k (.ref .iterator c) (some c) g P u := by
  obtain ⟨z, v, g', Q, hpull, hconfined, hQ, hstands', hg, hleft⟩ := (hpart.pull (T := t + 1) hfooting hy
    hfair hK hstands (Nat.le_succ t) (fun _ _ _ => Nat.lt_succ_self t) hA hlimit hfuel htwo hunderway).pulled
  have hsub : seat.cursors (.ref .iterator c) P u ⊆ Placed.cursors r (some c) P u := by
    rintro c' (hown | hP | ⟨⟨⟩, -⟩)
    · obtain ⟨q', hq', hplace⟩ := hunderway.sits.own_blocks hown
      obtain ⟨s, hs⟩ := hunderway.sits.own_cut hown
      cases hseat.symm.trans hq'
      exact .inr (.inr ⟨q, s, hr, hplace, hs⟩)
    · exact .inl hP
    · exact .inr (.inl rfl)
  subst hr
  cases hdue : cs ++ y.rest (t + 1) t with
  | nil =>
      rw [hdue] at hleft
      obtain ⟨hnil, hrest⟩ := List.append_eq_nil_iff.1 hdue
      have hturn : y.turn t = none := by
        by_contra hsome
        obtain ⟨block, hblock⟩ := Option.ne_none_iff_exists'.1 hsome
        rw [Strand.rest_of_lt hblock (Nat.lt_succ_self t), List.append_eq_nil_iff] at hrest
        exact Strand.filled hfair t (hrest.1 ▸ hblock)
      have hlength : (y.items t).length ≤ k := List.drop_eq_nil_iff.1 (hcs ▸ hnil)
      cases hleft with
      | ended hover =>
          rcases hover with hplain | ⟨c', hc', hfinished, hcQ⟩
          · cases hplain.symm.trans hseat
          · cases hc'
            refine ⟨none, v, g', Q, hpull, ?_, hconfined.mono hsub, hQ, hstands', hg,
              .spent hfinished hcQ hturn (Nat.le_succ_of_le hlength)⟩
            rw [Strand.item?_of_none hfair hturn hlength]
            exact .none
  | cons a due =>
      rw [hdue] at hleft
      cases hleft with
      | @item a l z t' ha ht' hunderway' hpart' =>
          obtain ⟨hitem, hplaced⟩ := exists_placed hfair hseat hcs hk ht ht' hdue hunderway' hpart'
          refine ⟨some z, v, g', Q, hpull, ?_, hconfined.mono hsub, hQ, hstands', hg, hplaced⟩
          rw [hitem]
          exact .some ha

/-- **The next pull of a route** gives its next item. -/
theorem Placed.pull (hapart : Apart h d R rs ys stands) (hfair : ∀ y ∈ ys, y.Fair)
    (hlimit : ∀ s n, Strand.chunked s n ∈ ys → (n : ℤ) ≤ sliceLimit)
    (hA : ∀ k < K, ∀ n, Answers (H.up n) R ys stands k)
    (hK : ∀ y ∈ ys, ∀ t < T + 2, y.pulled (t + 1) ≤ K) (hfuel : K < H.fuel) (htwo : 1 < H.fuel)
    (hy : ys[i]? = some y) (hstands : stands g P u) (hk : k < T)
    (hplaced : Placed R i r y k g P u (some x) cell) :
    Placed.Pulled H.above.above R stands i r y k x cell g P u := by
  have hmem : y ∈ ys := List.mem_of_getElem? hy
  cases hplaced with
  | plain hplain hposition =>
      subst hplain
      have hlt : k < K := Nat.lt_of_lt_of_le (Nat.lt_succ_self k) (hK _ hmem k (by omega))
      exact Placed.pull_plain (hA k hlt 2) hy hstands hposition
  | @blocks seat q c t cs hseat hrq hunderway hpart hcs hk' ht =>
      exact Placed.pull_blocks hapart.toFooting hy (hfair y hmem) (fun s n hs => hlimit s n (hs ▸ hmem)) hA
        (fun t' ht' => hK y hmem t' (by omega)) hfuel htwo hstands hseat hrq hunderway hpart hcs hk' ht
  | @spent c t hc hcP hend hlength =>
      refine ⟨none, u, g, P, pull_finished hc, ?_, .refl _ u, subset_within P _, hstands, fun _ _ => rfl,
        .spent hc hcP hend (Nat.le_succ_of_le hlength)⟩
      rw [Strand.item?_of_none (hfair y hmem) hend hlength]
      exact .none

/-- **A route is pulled**, and the others stand where they stood. -/
theorem Attending.pulled_next (hapart : Apart h d R rs ys stands)
    (hlength : rs.length = ys.length) (hfair : ∀ y ∈ ys, y.Fair)
    (hlimit : ∀ s n, Strand.chunked s n ∈ ys → (n : ℤ) ≤ sliceLimit)
    (hA : ∀ k < K, ∀ n, Answers (H.up n) R ys stands k)
    (hK : ∀ y ∈ ys, ∀ t < T + 2, y.pulled (t + 1) ≤ K) (hfuel : K < H.fuel) (htwo : 1 < H.fuel)
    (hu : Attending R rs ys stands its given own reserved g P u) (hi : its i = some x)
    (hT : (given i).length < T) :
    ∃ z v reserved' g' Q, H.above.above.pull x u = .ok z v ∧
      (∀ y, ys[i]? = some y → Option.Rel R (y.item? (given i).length) z) ∧
      Attending R rs ys stands its (Function.update given i (given i ++ [z])) (own ∪ newCursors u v)
        reserved' g' Q v := by
  have hlt := hu.opened i x hi
  obtain ⟨r, hr⟩ : ∃ r, rs[i]? = some r := ⟨_, List.getElem?_eq_getElem hlt⟩
  obtain ⟨y, hy⟩ : ∃ y, ys[i]? = some y := ⟨_, List.getElem?_eq_getElem (hlength ▸ hlt)⟩
  have hplaced := hu.branch i r y hr hy
  rw [hi] at hplaced
  obtain ⟨z, v, g', Q, hpull, hz, hconfined, hQ, hstands, hg, hself⟩ :=
    (hplaced.pull hapart hfair hlimit hA hK hfuel htwo hy hu.stands hT).pulled
  have hnext := hu.next x (given i ++ [z]) (reserved i) hlt hconfined hQ
    (hapart.has _ _ _ hstands) hstands hg (fun c hc => .inl hc) ?_ ?_ ?_
  · rw [← hi, Function.update_eq_self] at hnext
    refine ⟨z, v, _, g', Q, hpull, fun y' hy' => ?_, hnext⟩
    cases hy.symm.trans hy'
    exact hz
  · rintro j c r' y' hj hr' hy' hc (hP | hcell | ⟨q, s, -, -, hs⟩)
    · exact (hu.branch j r' y' hr' hy').notMem hc hP
    · exact hj (hu.apart i j c hcell hc)
    · rcases (hu.branch j r' y' hr' hy').cursor hc with ⟨s', hs'⟩ | hs' <;> cases hs.symm.trans hs'
  · rintro j q c s hj hr' hq hs hcP (hP | hcell | ⟨q', s', hq', hplace, -⟩)
    · exact hcP hP
    · rcases hplaced.cursor hcell with ⟨s', hs'⟩ | hs' <;> cases hs.symm.trans hs'
    · exact hj (hu.sources.own i j q' q _ (hr.trans (congrArg some hq')) hr' hplace hq)
  · intro r' y' hr' hy'
    cases hr.symm.trans hr'
    cases hy.symm.trans hy'
    rwa [List.length_append]

/-- Routes that have not been opened. -/
theorem attending_start (hapart : Apart h d R rs ys stands) (hsources : w.Sources rs)
    (hknown : ∀ (i q c : ℕ), rs[i]? = some (.ref .blocks q) → w.blocks[q]? = some (.ref .iterator c) →
      c < w.cursors.size)
    (hstands : stands g P w)
    (hbegins : ∀ (i : ℕ) r y, rs[i]? = some r → ys[i]? = some y → Unopened w P r y (g i)) :
    Attending R rs ys stands (fun _ => none) (fun _ => []) {c | c < w.cursors.size} (fun _ => none) g P w where
  stands := hstands
  sources := hsources
  mine := hapart.has _ _ _ hstands
  known _ hc := hc
  cuts := hknown
  held _ _ hc := nomatch hc
  apart _ _ _ hc := nomatch hc
  unread _ _ := rfl
  opened _ _ hi := nomatch hi
  branch i r y hr hy := .unread (hbegins i r y hr hy)

/-- **What has been given by then**: each route has given its first items, in order, and the next step of a
consumer does not fail. -/
theorem Consumed.exists_attending (hapart : Apart h d R rs ys stands) (hlength : rs.length = ys.length)
    (hfair : ∀ y ∈ ys, y.Fair) (hlimit : ∀ s n, Strand.chunked s n ∈ ys → (n : ℤ) ≤ sliceLimit)
    (hA : ∀ k < K, ∀ n, Answers (H.up n) R ys stands k)
    (hK : ∀ y ∈ ys, ∀ t < T + 2, y.pulled (t + 1) ≤ K) (hfuel : K < H.fuel) (htwo : 1 < H.fuel)
    (hstart : Attending R rs ys stands (fun _ => none) (fun _ => []) {c | c < w.cursors.size}
      (fun _ => none) g P w)
    (hu : Consumed H.above.above rs w its given own u) (hT : ∀ i, (given i).length ≤ T) :
    (∃ reserved g P, Attending R rs ys stands its given own reserved g P u) ∧
      ∀ (i : ℕ) y, ys[i]? = some y →
        List.Forall₂ (Option.Rel R) ((List.range (given i).length).map y.item?) (given i) := by
  induction hu with
  | start => exact ⟨⟨_, _, _, hstart⟩, fun i y hy => .nil⟩
  | opened hu hr hhanded hi hopen ih =>
      obtain ⟨⟨reserved, g, P, hattending⟩, hgiven⟩ := ih hT
      obtain ⟨x, v, reserved', g', Q, hopen', hnext⟩ :=
        hattending.opened_next hapart hlength hr hhanded hi
      cases hopen.symm.trans hopen'
      exact ⟨⟨_, _, _, hnext⟩, hgiven⟩
  | @pulled its given own u v i it x hu hi hpull ih =>
      have hlt : (given i).length < T := by
        have hle := hT i
        rwa [Function.update_self, List.length_append] at hle
      obtain ⟨⟨reserved, g, P, hattending⟩, hgiven⟩ := ih fun j => by
        by_cases hj : j = i
        · exact hj ▸ Nat.le_of_lt hlt
        · have hle := hT j
          rwa [Function.update_of_ne hj] at hle
      obtain ⟨z, v', reserved', g', Q, hpull', hz, hnext⟩ :=
        hattending.pulled_next hapart hlength hfair hlimit hA hK hfuel htwo hi hlt
      cases hpull.symm.trans hpull'
      refine ⟨⟨_, _, _, hnext⟩, fun j y hy => ?_⟩
      by_cases hj : j = i
      · subst hj
        rw [Function.update_self, List.length_append, List.length_singleton, List.range_succ, List.map_append]
        exact List.rel_append (hgiven j y hy) (.cons (hz y hy) .nil)
      · rw [Function.update_of_ne hj]
        exact hgiven j y hy
  | beside hu hv ih =>
      obtain ⟨⟨reserved, g, P, hattending⟩, hgiven⟩ := ih hT
      exact ⟨⟨_, _, _, hattending.beside hapart.toFooting hv⟩, hgiven⟩

end

end

end GraphRoutes.Session
