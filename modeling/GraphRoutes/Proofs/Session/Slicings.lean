/-
**Slices of a collection, alternately kept and dropped.**

Sizes cut a collection into slices, one behind the other; every second slice is kept.  An item is kept if it
lies in such a slice, and that is told by the sizes in front of it alone.

An alternation draws its sizes and its items one by one.  It stands between two slices, or inside of one, of
which some items are still to come.  Each of its steps draws a size, or an item, or is done with a slice; only
the sizes tell when it ends.  If the collection comes to its end in the middle of a slice, the alternation goes
on with the next one.

Where the sizes and the items stand is told by a predicate on worlds; they may do anything else on their way.

Main definitions:

* `GraphRoutes.Session.Sliced` — sizes, and a collection;
* `GraphRoutes.Session.Sliced.Keeps` — an item is kept;
* `GraphRoutes.Session.Supplied` — **sizes and items that are drawn one by one**;
* `GraphRoutes.Session.Sliced.Reached` — how far an alternation has come.

Main results:

* `GraphRoutes.Session.Sliced.Lies.unique` — no item lies in two slices;
* `GraphRoutes.Session.Sliced.keeps_flip_iff` — **what is dropped would be kept the other way round**;
* `GraphRoutes.Session.Supplied.exists_pull` — the steps of an alternation.
-/
import GraphRoutes.Proofs.Session.Sharing

set_option relaxedAutoImplicit false
set_option autoImplicit false

namespace GraphRoutes.Session

open World Value Route

/-! ### Slices -/

/-- **Sizes, and a collection**: what they have been given as, the sizes and the items that they give, and
whether the first slice is kept. -/
structure Sliced where
  steps : Value
  collection : Value
  lengths : Stream'.Seq ℕ
  items : Stream'.Seq Value
  keepFirst : Bool

namespace Sliced

variable {S : Sliced} {i j k m n : ℕ}

/-- Where a slice begins: behind all those in front of it. -/
def start (S : Sliced) (j : ℕ) : ℕ := (S.lengths.take j).sum

/-- A slice is kept. -/
def keeping (S : Sliced) (j : ℕ) : Bool := decide (Even j) == S.keepFirst

/-- An item lies in a slice. -/
def Lies (S : Sliced) (i j : ℕ) : Prop := S.start j ≤ i ∧ i < S.start (j + 1)

/-- An item is kept: it lies in a slice that is. -/
def Keeps (S : Sliced) (i : ℕ) : Prop := ∃ j, S.Lies i j ∧ S.keeping j = true

/-- The slices the other way round: what was kept is dropped. -/
def flip (S : Sliced) : Sliced := { S with keepFirst := !S.keepFirst }

/-- The slices behind an empty one. -/
def behindEmpty (S : Sliced) : Sliced := { S.flip with lengths := .cons 0 S.lengths }

theorem start_zero (S : Sliced) : S.start 0 = 0 := by
  rw [start, Stream'.Seq.take_zero, List.sum_nil]

theorem start_succ (hk : S.lengths.get? j = some k) : S.start (j + 1) = S.start j + k := by
  rw [start, Merge.take_succ_of_get? hk, List.sum_append, List.sum_singleton]
  rfl

/-- Behind the last size, there is nothing more. -/
theorem start_succ_of_none (hj : S.lengths.get? j = none) : S.start (j + 1) = S.start j := by
  rw [start, start]
  refine congrArg List.sum (List.ext_getElem? fun i => ?_)
  rw [Stream'.Seq.getElem?_take, Stream'.Seq.getElem?_take]
  by_cases hi : i < j
  · rw [if_pos hi, if_pos (Nat.lt_succ_of_lt hi)]
  · rw [if_neg hi, Stream'.Seq.le_stable S.lengths (Nat.le_of_not_lt hi) hj, ite_self]

theorem start_le_succ (S : Sliced) (j : ℕ) : S.start j ≤ S.start (j + 1) := by
  cases hk : S.lengths.get? j with
  | none => exact (start_succ_of_none hk).ge
  | some k =>
      rw [start_succ hk]
      exact Nat.le_add_right _ k

theorem start_mono (S : Sliced) : Monotone S.start := monotone_nat_of_le_succ S.start_le_succ

theorem keeping_zero (S : Sliced) : S.keeping 0 = S.keepFirst := by simp [keeping]

theorem keeping_succ (S : Sliced) (j : ℕ) : S.keeping (j + 1) = !S.keeping j := by
  rw [keeping, keeping]
  by_cases hj : Even j <;> cases S.keepFirst <;> simp [hj, Nat.even_add_one]

/-- **No item lies in two slices.** -/
theorem Lies.unique {j' : ℕ} (h : S.Lies i j) (h' : S.Lies i j') : j = j' := by
  rcases Nat.lt_trichotomy j j' with hlt | heq | hlt
  · exact absurd (Nat.lt_of_lt_of_le h.2 (S.start_mono hlt)) (Nat.not_lt_of_le h'.1)
  · exact heq
  · exact absurd (Nat.lt_of_lt_of_le h'.2 (S.start_mono hlt)) (Nat.not_lt_of_le h.1)

/-- An item in front of where a slice begins lies in one of those before that. -/
theorem exists_lies (hi : i < S.start m) : ∃ j, S.Lies i j := by
  induction m with
  | zero =>
      rw [start_zero] at hi
      cases hi
  | succ m ih =>
      rcases Nat.lt_or_ge i (S.start m) with hlt | hge
      · exact ih hlt
      · exact ⟨m, hge, hi⟩

theorem Lies.keeps_iff (h : S.Lies i j) : S.Keeps i ↔ S.keeping j = true := by
  constructor
  · rintro ⟨j', h', hkeeping⟩
    exact h.unique h' ▸ hkeeping
  · exact fun hkeeping => ⟨j, h, hkeeping⟩

/-- **What is dropped would be kept the other way round.** -/
theorem keeps_flip_iff (hi : i < S.start m) : S.flip.Keeps i ↔ ¬S.Keeps i := by
  obtain ⟨j, hj⟩ := exists_lies hi
  have hflip : S.flip.Lies i j := hj
  rw [hflip.keeps_iff, hj.keeps_iff, keeping, keeping, flip]
  by_cases heven : Even j <;> cases S.keepFirst <;> simp [heven]

/-- **An empty slice in front** turns the others round. -/
theorem keeps_behindEmpty (S : Sliced) (i : ℕ) : S.behindEmpty.Keeps i ↔ S.Keeps i := by
  have hstart : ∀ j, S.behindEmpty.start (j + 1) = S.start j := by
    intro j
    rw [start, behindEmpty, Stream'.Seq.take_succ_cons, List.sum_cons, Nat.zero_add]
    rfl
  have hkeeping : ∀ j, S.behindEmpty.keeping (j + 1) = S.keeping j := by
    intro j
    rw [keeping, keeping, behindEmpty, flip]
    by_cases heven : Even j <;> cases S.keepFirst <;> simp [heven, Nat.even_add_one]
  constructor
  · rintro ⟨_ | j, ⟨hj, hj'⟩, hkeeps⟩
    · rw [hstart, start_zero] at hj'
      cases hj'
    · rw [hstart] at hj hj'
      exact ⟨j, ⟨hj, hj'⟩, hkeeping j ▸ hkeeps⟩
  · rintro ⟨j, ⟨hj, hj'⟩, hkeeps⟩
    refine ⟨j + 1, ⟨?_, ?_⟩, (hkeeping j).trans hkeeps⟩ <;> rwa [hstart]

open Classical in
/-- The items that are kept among the first `n`. -/
noncomputable def kept (S : Sliced) (n : ℕ) : List Value :=
  (List.range n).filterMap fun i => if S.Keeps i then S.items.get? i else none

theorem kept_behindEmpty (S : Sliced) (n : ℕ) : S.behindEmpty.kept n = S.kept n := by
  have hkeeps : S.behindEmpty.Keeps = S.Keeps := funext fun i => propext (S.keeps_behindEmpty i)
  rw [kept, kept, hkeeps]
  rfl

/-- Between two positions of the collection, all items are dropped. -/
def Passed (S : Sliced) (n n' : ℕ) : Prop := ∀ i, n ≤ i → i < n' → (S.items.get? i).isSome ∧ ¬S.Keeps i

theorem Passed.refl (S : Sliced) (n : ℕ) : S.Passed n n := fun _ hn hi => absurd hn (Nat.not_le_of_lt hi)

theorem Passed.cons {n' : ℕ} (hn : (S.items.get? n).isSome ∧ ¬S.Keeps n) (h : S.Passed (n + 1) n') :
    S.Passed n n' := by
  intro i hi hlt
  rcases Nat.eq_or_lt_of_le hi with rfl | hlt'
  · exact hn
  · exact h i hlt' hlt

theorem kept_succ_of_keeps {x : Value} (hx : S.items.get? n = some x) (hkeeps : S.Keeps n) :
    S.kept (n + 1) = S.kept n ++ [x] := by
  simp [kept, List.range_succ, List.filterMap_append, hx, hkeeps]

theorem kept_succ_of_not_keeps (hkeeps : ¬S.Keeps n) : S.kept (n + 1) = S.kept n := by
  simp [kept, List.range_succ, List.filterMap_append, hkeeps]

theorem kept_succ_of_none (hx : S.items.get? n = none) : S.kept (n + 1) = S.kept n := by
  simp [kept, List.range_succ, List.filterMap_append, hx]

/-- Where nothing is kept, what has been kept stays the same. -/
theorem kept_eq_of_le {n' : ℕ} (hn : n ≤ n')
    (hnone : ∀ i, n ≤ i → i < n' → (S.items.get? i).isSome → ¬S.Keeps i) : S.kept n' = S.kept n := by
  induction n', hn using Nat.le_induction with
  | base => rfl
  | succ n' hn ih =>
      rw [← ih fun i hi hlt => hnone i hi (Nat.lt_succ_of_lt hlt)]
      cases hx : S.items.get? n' with
      | none => exact kept_succ_of_none hx
      | some x =>
          refine kept_succ_of_not_keeps (hnone n' hn (Nat.lt_succ_self n') ?_)
          rw [hx]
          rfl

theorem Passed.kept_eq {n' : ℕ} (h : S.Passed n n') (hn : n ≤ n') : S.kept n' = S.kept n :=
  kept_eq_of_le hn fun i hi hlt _ => (h i hi hlt).2

/-! ### How far an alternation has come -/

/-- **How far an alternation has come** that has drawn `m` sizes and `n` items: it stands between two slices, or
inside of one, of which at most so many items are still to come.  If the collection has ended, it has drawn
fewer items than it might have. -/
structure Reached (S : Sliced) (m n : ℕ) (left : Option ℕ) : Prop where
  drawn : ∀ j < m, (S.lengths.get? j).isSome
  le : n + left.getD 0 ≤ S.start m
  here : n + left.getD 0 = S.start m ∨ S.items.get? n = none
  within : ∀ l, left = some l → ∃ j k, m = j + 1 ∧ S.lengths.get? j = some k ∧ l ≤ k

variable {l : ℕ} {left : Option ℕ} {x : Value}

theorem reached_zero (S : Sliced) : S.Reached 0 0 none where
  drawn := nofun
  le := Nat.zero_le _
  here := .inl S.start_zero.symm
  within := nofun

/-- One size more. -/
theorem Reached.next (h : S.Reached m n none) (hk : S.lengths.get? m = some k) :
    S.Reached (m + 1) n (some k) where
  drawn j hj := by
    rcases Nat.lt_succ_iff_lt_or_eq.1 hj with hlt | rfl
    · exact h.drawn j hlt
    · rw [hk]
      rfl
  le := by
    rw [start_succ hk]
    exact Nat.add_le_add_right h.le k
  here := by
    rw [start_succ hk]
    exact h.here.imp_left fun hn => congrArg (· + k) hn
  within l hl := ⟨m, k, rfl, hk, (Option.some_inj.1 hl).ge⟩

/-- A slice of which no more items are to come, or can come, is done. -/
theorem Reached.done (h : S.Reached m n (some l)) (hl : l = 0 ∨ S.items.get? n = none) : S.Reached m n none where
  drawn := h.drawn
  le := Nat.le_of_add_right_le h.le
  here := by
    rcases hl with rfl | hnone
    · exact h.here
    · exact .inr hnone
  within := nofun

/-- One item more. -/
theorem Reached.item (h : S.Reached m n (some (l + 1))) (hx : S.items.get? n = some x) :
    S.Reached m (n + 1) (some l) where
  drawn := h.drawn
  le := by
    have hle := h.le
    simp only [Option.getD_some] at hle ⊢
    omega
  here := by
    rcases h.here with hhere | hnone
    · simp only [Option.getD_some] at hhere ⊢
      exact .inl (by omega)
    · cases hx.symm.trans hnone
  within := by
    rintro _ ⟨⟩
    obtain ⟨j, k, hm, hk, hle⟩ := h.within _ rfl
    exact ⟨j, k, hm, hk, Nat.le_of_succ_le hle⟩

/-- The next item of a slice is kept unless the next slice is. -/
theorem Reached.keeps_iff (h : S.Reached m n (some (l + 1))) (hx : S.items.get? n = some x) :
    S.Keeps n ↔ S.keeping m = false := by
  obtain ⟨j, k, rfl, hk, hle⟩ := h.within _ rfl
  have hlies : S.Lies n j := by
    rcases h.here with hhere | hnone
    · rw [start_succ hk, Option.getD_some] at hhere
      exact ⟨by omega, by rw [start_succ hk]; omega⟩
    · cases hx.symm.trans hnone
  rw [hlies.keeps_iff, keeping_succ]
  cases S.keeping j <;> simp

/-- When all sizes have been drawn, there is nothing more to keep. -/
theorem Reached.not_keeps (h : S.Reached m n none) (hm : S.lengths.get? m = none) {i : ℕ} (hi : n ≤ i)
    (hsome : (S.items.get? i).isSome) : ¬S.Keeps i := by
  rintro ⟨j, ⟨hj, hj'⟩, -⟩
  have hlt : S.start (j + 1) ≤ S.start m := by
    rcases Nat.lt_or_ge j m with hlt | hge
    · exact S.start_mono hlt
    · exact absurd (Nat.lt_of_le_of_lt hj hj') (start_succ_of_none (Stream'.Seq.le_stable S.lengths hge hm)).not_gt
  rcases h.here with hhere | hnone
  · exact absurd (Nat.lt_of_lt_of_le hj' hlt) (Nat.not_lt_of_le (hhere ▸ hi))
  · rw [Stream'.Seq.le_stable S.items hi hnone] at hsome
    cases hsome

/-- How many steps it takes to come so far. -/
def rank (m n : ℕ) (left : Option ℕ) : ℕ := 2 * m + n + if left.isNone then 1 else 0

/-! ### Drawing sizes and items -/

/-- Where an alternation stands: it has not begun, or it has drawn so many sizes and items from its
iterators. -/
inductive Phase where
  | waiting
  | drawn (sizes source : Value) (m n : ℕ)

/-- How many items have been drawn. -/
def Phase.given : Phase → ℕ
  | waiting => 0
  | drawn _ _ _ n => n

/-- The state of an alternation that has drawn `m` sizes.  The slice in front of one that is kept is
dropped. -/
def state (S : Sliced) (sizes source : Value) (m : ℕ) (left : Option ℕ) : Alternating Value Value where
  sizes := sizes
  source := source
  keepNext := S.keeping m
  doing := match left with
    | none => .between
    | some l => if S.keeping m then .dropping l else .keeping (some l)

/-- An alternation that has drawn `m` sizes. -/
def cursor (S : Sliced) (sizes source : Value) (m : ℕ) (left : Option ℕ) : Cursor :=
  .alternate (S.state sizes source m left)

end Sliced

/-- **Sizes and items that are drawn one by one** for an alternation at a place.  Drawing may do anything, as long
as the state of the alternation is left alone. -/
structure Supplied (h : Host) (g : ℕ) (S : Sliced) (stands : Sliced.Phase → World → Prop) : Prop where
  opens : ∀ {w}, stands .waiting w → ∃ p q u v, iterate S.collection w = .ok q u ∧
    iterate S.steps u = .ok p v ∧ stands (.drawn p q 0 0) v
  size : ∀ {w p q m n k}, stands (.drawn p q m n) w → S.lengths.get? m = some k →
    ∃ x v, h.pull p w = .ok (some x) v ∧ x.int? = some (k : ℤ) ∧ stands (.drawn p q (m + 1) n) v
  noSize : ∀ {w p q m n}, stands (.drawn p q m n) w → S.lengths.get? m = none →
    ∃ v, h.pull p w = .ok none v ∧ stands (.drawn p q m n) v
  item : ∀ {w p q m n x}, stands (.drawn p q m n) w → S.items.get? n = some x →
    ∃ v, h.pull q w = .ok (some x) v ∧ stands (.drawn p q m (n + 1)) v
  noItem : ∀ {w p q m n}, stands (.drawn p q m n) w → S.items.get? n = none →
    ∃ v, h.pull q w = .ok none v ∧ stands (.drawn p q m n) v
  moved : ∀ {w phase}, stands phase w → ∀ c, stands phase (w.withCursor g c)
  placed : ∀ {w phase}, stands phase w → g < w.cursors.size
  /-- A collection has handed out what it gives. -/
  handed : ∀ {i x}, S.items.get? i = some x → x.unmarked = false

variable {h : Host} {g m n l : ℕ} {S : Sliced} {stands : Sliced.Phase → World → Prop} {u v w : World}
  {p q x : Value} {left : Option ℕ}

/-- A size that is not too large is a size. -/
theorem itemCount?_of_int {k : ℕ} (hx : x.int? = some (k : ℤ)) (hk : (k : ℤ) ≤ sliceLimit) :
    itemCount? x w = .ok (some k) w := by
  have hcount : itemCount (k : ℤ) w = .ok k w := by
    rw [itemCount, if_pos ⟨Int.natCast_nonneg k, hk⟩]
    rfl
  unfold itemCount?
  cases x with
  | null => cases hx
  | _ =>
      simp only [hx]
      exact (Act.bind_of_ok hcount).trans rfl

theorem stepCursor_alternate {s : Alternating Value Value} {r : Step (Alternating Value Value) Value Fault}
    (hr : alternate (nextSize h) h.source s w = .ok r v) :
    stepCursor h (.alternate s) w = .ok (r.map .alternate) v := by
  change (Step.map Cursor.alternate <$> alternate (nextSize h) h.source s : M _) w = _
  rw [map_eq_pure_bind, Act.bind_of_ok hr]
  rfl

namespace Supplied

/-- Between two slices, a size is drawn. -/
theorem exists_step_size {k : ℕ} (hS : Supplied h g S stands) (hw : stands (.drawn p q m n) w)
    (hk : S.lengths.get? m = some k) (hlimit : (k : ℤ) ≤ sliceLimit) :
    ∃ v, stepCursor h (S.cursor p q m none) w = .ok (.skip (S.cursor p q (m + 1) (some k))) v ∧
      stands (.drawn p q (m + 1) n) v := by
  obtain ⟨x, v, hpull, hx, hv⟩ := hS.size hw hk
  have hsize : nextSize h p w = .ok (some (some k, p)) v :=
    (Act.bind_of_ok hpull).trans ((Act.bind_of_ok (itemCount?_of_int hx hlimit)).trans rfl)
  have hstep : alternate (nextSize h) h.source (S.state p q m none) w =
      .ok (.skip (S.state p q (m + 1) (some k))) v := by
    rw [Sliced.state, Sliced.state, S.keeping_succ]
    cases S.keeping m <;> exact (Act.bind_of_ok hsize).trans rfl
  exact ⟨v, stepCursor_alternate hstep, hv⟩

/-- If there are no more sizes, the alternation ends. -/
theorem exists_step_end (hS : Supplied h g S stands) (hw : stands (.drawn p q m n) w)
    (hm : S.lengths.get? m = none) :
    ∃ v, stepCursor h (S.cursor p q m none) w = .ok .finish v ∧ stands (.drawn p q m n) v := by
  obtain ⟨v, hpull, hv⟩ := hS.noSize hw hm
  have hsize : nextSize h p w = .ok none v := (Act.bind_of_ok hpull).trans rfl
  have hstep : alternate (nextSize h) h.source (S.state p q m none) w = .ok .finish v :=
    (Act.bind_of_ok hsize).trans rfl
  exact ⟨v, stepCursor_alternate hstep, hv⟩

/-- A slice of which no more items are to come is done. -/
theorem step_done (h : Host) (S : Sliced) (p q : Value) (m : ℕ) (w : World) :
    stepCursor h (S.cursor p q m (some 0)) w = .ok (.skip (S.cursor p q m none)) w := by
  have hstep : alternate (nextSize h) h.source (S.state p q m (some 0)) w = .ok (.skip (S.state p q m none)) w := by
    rw [Sliced.state, Sliced.state]
    cases S.keeping m <;> rfl
  exact stepCursor_alternate hstep

/-- A slice is done when the collection has ended. -/
theorem exists_step_short (hS : Supplied h g S stands) (hw : stands (.drawn p q m n) w)
    (hn : S.items.get? n = none) (l : ℕ) :
    ∃ v, stepCursor h (S.cursor p q m (some (l + 1))) w = .ok (.skip (S.cursor p q m none)) v ∧
      stands (.drawn p q m n) v := by
  obtain ⟨v, hpull, hv⟩ := hS.noItem hw hn
  have hstep : alternate (nextSize h) h.source (S.state p q m (some (l + 1))) w =
      .ok (.skip (S.state p q m none)) v := by
    rw [Sliced.state, Sliced.state]
    cases S.keeping m <;> exact (Act.bind_of_ok (source_of_end hpull)).trans rfl
  exact ⟨v, stepCursor_alternate hstep, hv⟩

/-- Inside of a slice, an item is drawn, and given unless it is dropped. -/
theorem exists_step_item (hS : Supplied h g S stands) (hw : stands (.drawn p q m n) w)
    (hx : S.items.get? n = some x) (l : ℕ) :
    ∃ v, stepCursor h (S.cursor p q m (some (l + 1))) w =
        .ok (if S.keeping m then .skip (S.cursor p q m (some l)) else .give x (S.cursor p q m (some l))) v ∧
      stands (.drawn p q m (n + 1)) v := by
  obtain ⟨v, hpull, hv⟩ := hS.item hw hx
  have hstep : alternate (nextSize h) h.source (S.state p q m (some (l + 1))) w =
      .ok (if S.keeping m then .skip (S.state p q m (some l)) else .give x (S.state p q m (some l))) v := by
    rw [Sliced.state, Sliced.state]
    cases S.keeping m <;> exact (Act.bind_of_ok (source_of_item hpull)).trans rfl
  refine ⟨v, (stepCursor_alternate hstep).trans ?_, hv⟩
  cases S.keeping m <;> rfl

end Supplied

/-! ### Some steps -/

/-- **What some steps of an alternation come to**: the next item that is kept, or the end of the sizes, or neither
yet. -/
inductive Sliced.Comes (S : Sliced) (stands : Sliced.Phase → World → Prop) (p q : Value) (n rank fuel : ℕ) :
    Pull Cursor Value Fault → World → Prop
  | gives {m' n' l : ℕ} {x : Value} {v : World} (hn : n ≤ n') (hx : S.items.get? n' = some x) (hkeeps : S.Keeps n')
      (hpassed : S.Passed n n') (hreached : S.Reached m' (n' + 1) (some l))
      (hv : stands (.drawn p q m' (n' + 1)) v) :
      Comes S stands p q n rank fuel (.item x (S.cursor p q m' (some l))) v
  | ends {m' n' : ℕ} {v : World} (hn : n ≤ n') (hm : S.lengths.get? m' = none) (hpassed : S.Passed n n')
      (hreached : S.Reached m' n' none) (hv : stands (.drawn p q m' n') v) :
      Comes S stands p q n rank fuel (.ended none) v
  | goesOn {m' n' : ℕ} {left' : Option ℕ} {v : World} (hn : n ≤ n') (hpassed : S.Passed n n')
      (hreached : S.Reached m' n' left') (hrank : Sliced.rank m' n' left' = rank + fuel) :
      Comes S stands p q n rank fuel .unsettled v

/-- A step that draws no item. -/
theorem Sliced.Comes.skip {rank fuel : ℕ} {r : Pull Cursor Value Fault}
    (hr : S.Comes stands p q n (rank + 1) fuel r v) : S.Comes stands p q n rank (fuel + 1) r v := by
  cases hr with
  | gives hn hx hkeeps hpassed hreached hv => exact .gives hn hx hkeeps hpassed hreached hv
  | ends hn hm hpassed hreached hv => exact .ends hn hm hpassed hreached hv
  | goesOn hn hpassed hreached hrank => exact .goesOn hn hpassed hreached (hrank.trans (by omega))

/-- A step that drops an item. -/
theorem Sliced.Comes.drop {rank fuel : ℕ} {r : Pull Cursor Value Fault}
    (hn : (S.items.get? n).isSome ∧ ¬S.Keeps n) (hr : S.Comes stands p q (n + 1) (rank + 1) fuel r v) :
    S.Comes stands p q n rank (fuel + 1) r v := by
  cases hr with
  | gives hle hx hkeeps hpassed hreached hv =>
      exact .gives (Nat.le_of_succ_le hle) hx hkeeps (hpassed.cons hn) hreached hv
  | ends hle hm hpassed hreached hv => exact .ends (Nat.le_of_succ_le hle) hm (hpassed.cons hn) hreached hv
  | goesOn hle hpassed hreached hrank =>
      exact .goesOn (Nat.le_of_succ_le hle) (hpassed.cons hn) hreached (hrank.trans (by omega))

/-- **The steps of an alternation.** -/
theorem Supplied.exists_pull (hS : Supplied h g S stands)
    (hlimit : ∀ j k, S.lengths.get? j = some k → (k : ℤ) ≤ sliceLimit) (fuel : ℕ) {m n : ℕ} {left : Option ℕ}
    {w : World} (hreached : S.Reached m n left) (hw : stands (.drawn p q m n) w) :
    ∃ r v, (stepCursor h).pull fuel (S.cursor p q m left) w = .ok r v ∧
      S.Comes stands p q n (Sliced.rank m n left) fuel r v := by
  induction fuel generalizing m n left w with
  | zero => exact ⟨.unsettled, w, rfl, .goesOn (Nat.le_refl n) (.refl S n) hreached rfl⟩
  | succ fuel ih =>
      rcases left with _ | _ | l
      · cases hk : S.lengths.get? m with
        | none =>
            obtain ⟨v, hstep, hv⟩ := hS.exists_step_end hw hk
            exact ⟨_, v, Machine.pull_of_finish hstep fuel, .ends (Nat.le_refl n) hk (.refl S n) hreached hv⟩
        | some k =>
            obtain ⟨v, hstep, hv⟩ := hS.exists_step_size hw hk (hlimit m k hk)
            obtain ⟨r, u, hpull, hr⟩ := ih (hreached.next hk) hv
            refine ⟨r, u, (Machine.pull_of_skip hstep fuel).trans hpull, .skip ?_⟩
            convert hr using 1
            simp [Sliced.rank]
            omega
      · obtain ⟨r, u, hpull, hr⟩ := ih (hreached.done (.inl rfl)) hw
        exact ⟨r, u, (Machine.pull_of_skip (Supplied.step_done h S p q m w) fuel).trans hpull, .skip hr⟩
      · cases hx : S.items.get? n with
        | none =>
            obtain ⟨v, hstep, hv⟩ := hS.exists_step_short hw hx l
            obtain ⟨r, u, hpull, hr⟩ := ih (hreached.done (.inr hx)) hv
            exact ⟨r, u, (Machine.pull_of_skip hstep fuel).trans hpull, .skip hr⟩
        | some x =>
            obtain ⟨v, hstep, hv⟩ := hS.exists_step_item hw hx l
            have hkeeps := hreached.keeps_iff hx
            cases hkeeping : S.keeping m with
            | false =>
                rw [hkeeping, if_neg Bool.false_ne_true] at hstep
                exact ⟨_, v, Machine.pull_of_give hstep fuel,
                  .gives (Nat.le_refl n) hx (hkeeps.2 hkeeping) (.refl S n) (hreached.item hx) hv⟩
            | true =>
                rw [hkeeping, if_pos rfl] at hstep
                obtain ⟨r, u, hpull, hr⟩ := ih (hreached.item hx) hv
                refine ⟨r, u, (Machine.pull_of_skip hstep fuel).trans hpull, .drop ⟨?_, ?_⟩ ?_⟩
                · rw [hx]
                  rfl
                · rw [hkeeps, hkeeping]
                  exact Bool.true_eq_false_eq_False
                · convert hr using 1
                  simp [Sliced.rank]
                  omega

end GraphRoutes.Session
