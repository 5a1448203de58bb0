/-
**All reads of an alternation.**

However an alternation is read, and whatever goes on in between that leaves it alone, it has given the items
that are kept, in order, up to a position of the collection, and no item behind that has been drawn.  The next
read drops the items that are not kept; if it may take enough steps, it gives the next one that is, or comes to
the end of the sizes.  Of a collection that has more items than the sizes count, the others are never drawn.

Main definitions:

* `GraphRoutes.Session.Sliced.Held` — an alternation that has drawn some items;
* `GraphRoutes.Session.Sliced.Verdict` — what the next read of an alternation comes to.

Main results:

* `GraphRoutes.Session.Sliced.Held.exists_read` — one read;
* `GraphRoutes.Session.Sliced.Held.exists_of_reads` — what an alternation has given, however it has been read;
* `GraphRoutes.Session.alternation_keeps` — **an alternation keeps every second slice**;
* `GraphRoutes.Session.supplied_numbers` — numbers at hand, as sizes and as items.
-/
import GraphRoutes.Proofs.Session.Slicings

set_option relaxedAutoImplicit false
set_option autoImplicit false

namespace GraphRoutes.Session

open World Value Route

variable {h : Host} {g m n M : ℕ} {S : Sliced} {stands : Sliced.Phase → World → Prop} {u v w : World}
  {x : Value} {ys : List Value} {left : Option ℕ}

namespace Sliced

/-- An alternation that has not begun. -/
def unopened (S : Sliced) : Cursor := .deferred (.alternate S.steps S.collection S.keepFirst)

/-- **An alternation at a place that has drawn `n` items.** -/
inductive Held (S : Sliced) (g : ℕ) (stands : Phase → World → Prop) : ℕ → World → Prop
  | waiting {w : World} (hc : w.cursors[g]? = some S.unopened) (hw : stands .waiting w) : Held S g stands 0 w
  | begun {w : World} {p q : Value} {m n : ℕ} {left : Option ℕ} (hc : w.cursors[g]? = some (S.cursor p q m left))
      (hreached : S.Reached m n left) (hw : stands (.drawn p q m n) w) : Held S g stands n w

theorem Held.standing (hw : S.Held g stands n w) : ∃ phase, stands phase w ∧ phase.given = n := by
  cases hw with
  | waiting _ hw => exact ⟨.waiting, hw, rfl⟩
  | begun _ _ hw => exact ⟨_, hw, rfl⟩

theorem Held.undisturbed (hw : S.Held g stands n w) (hv : Undisturbed g stands w v) : S.Held g stands n v := by
  cases hw with
  | waiting hc hw => exact .waiting (hv.1.trans hc) (hv.2 _ hw)
  | begun hc hreached hw => exact .begun (hv.1.trans hc) hreached (hv.2 _ hw)

theorem closed_unopened (S : Sliced) : Closed S.unopened := ⟨nofun, nofun, fun _ _ => rfl⟩

theorem closed_cursor (S : Sliced) (p q : Value) (m : ℕ) (left : Option ℕ) : Closed (S.cursor p q m left) :=
  ⟨nofun, nofun, fun _ _ => rfl⟩

/-- An alternation begins when it is read for the first time. -/
theorem exists_begin (hS : Supplied h g S stands) (hw : stands .waiting w) :
    ∃ p q v, stepCursor h S.unopened w = .ok (.skip (S.cursor p q 0 none)) v ∧ stands (.drawn p q 0 0) v := by
  obtain ⟨p, q, u, v, hcollection, hsteps, hv⟩ := hS.opens hw
  refine ⟨p, q, v, ?_, hv⟩
  have hbegin : beginCursor h (.alternate S.steps S.collection S.keepFirst) w = .ok (S.cursor p q 0 none) v := by
    refine (Act.bind_of_ok hcollection).trans ((Act.bind_of_ok hsteps).trans ?_)
    rw [cursor, state, S.keeping_zero]
    rfl
  exact (Act.bind_of_ok hbegin).trans rfl

/-- What a read comes to, wherever an alternation stands. -/
theorem Held.exists_pull (hw : S.Held g stands n w) (hS : Supplied h g S stands)
    (hlimit : ∀ j k, S.lengths.get? j = some k → (k : ℤ) ≤ sliceLimit) :
    ∃ c p q rank fuel r v, w.cursors[g]? = some c ∧ Closed c ∧
      (stepCursor h).pull h.fuel c (w.reading g) = .ok r v ∧ S.Comes stands p q n rank fuel r v ∧
      h.fuel ≤ rank + fuel := by
  cases hw with
  | @begun _ p q m n left hc hreached hw =>
      obtain ⟨r, v, hpull, hr⟩ := hS.exists_pull hlimit h.fuel hreached (hS.moved hw .running)
      exact ⟨_, p, q, _, h.fuel, r, v, hc, S.closed_cursor p q m left, hpull, hr, Nat.le_add_left _ _⟩
  | waiting hc hw =>
      obtain ⟨p, q, v, hstep, hv⟩ := S.exists_begin hS (hS.moved hw .running)
      cases hfuel : h.fuel with
      | zero =>
          refine ⟨_, p, q, rank 0 0 none, 0, .unsettled, _, hc, S.closed_unopened, rfl, ?_, Nat.zero_le _⟩
          exact .goesOn (Nat.le_refl 0) (.refl S 0) S.reached_zero rfl
      | succ fuel =>
          obtain ⟨r, t, hpull, hr⟩ := hS.exists_pull hlimit fuel S.reached_zero hv
          refine ⟨_, p, q, _, fuel, r, t, hc, S.closed_unopened,
            (Machine.pull_of_skip hstep fuel).trans hpull, hr, ?_⟩
          simp [rank]

/-- **One read of an alternation.** -/
theorem Held.exists_read (hw : S.Held g stands n w) (hS : Supplied h g S stands)
    (hlimit : ∀ j k, S.lengths.get? j = some k → (k : ℤ) ≤ sliceLimit) :
    (∃ j x v, n ≤ j ∧ S.items.get? j = some x ∧ S.Keeps j ∧ S.Passed n j ∧
      h.above.pull (.ref .iterator g) w = .ok (some x) v ∧ S.Held g stands (j + 1) v) ∨
    (∃ m j phase v, n ≤ j ∧ S.lengths.get? m = none ∧ S.Reached m j none ∧ S.Passed n j ∧
      h.above.pull (.ref .iterator g) w = .ok none v ∧ stands phase v ∧ phase.given = j ∧
      v.cursors[g]? = some .finished) ∨
    ∃ m j left v, n ≤ j ∧ S.Reached m j left ∧ S.Passed n j ∧ h.fuel ≤ rank m j left ∧
      h.above.pull (.ref .iterator g) w = .error .outOfFuel v := by
  obtain ⟨c, p, q, rank, fuel, r, v, hc, hclosed, hpull, hr, hrank⟩ := hw.exists_pull hS hlimit
  cases hr with
  | @gives m' j l x v hn hx hkeeps hpassed hreached hv =>
      refine .inl ⟨j, x, v.withCursor g (S.cursor p q m' (some l)), hn, hx, hkeeps, hpassed, ?_,
        .begun ?_ hreached (hS.moved hv _)⟩
      · refine pull_of_closed hc hclosed (readClosed_of_item hpull) ?_
        rintro _ ⟨⟩
        exact hS.handed hx
      · exact Array.getElem?_setIfInBounds_self_of_lt (hS.placed hv)
  | @ends m' j v hn hm hpassed hreached hv =>
      refine .inr (.inl ⟨m', j, .drawn p q m' j, v.withCursor g .finished, hn, hm, hreached, hpassed, ?_,
        hS.moved hv _, rfl, ?_⟩)
      · exact pull_of_closed hc hclosed (readClosed_of_ended hpull) (by rintro _ ⟨⟩)
      · exact Array.getElem?_setIfInBounds_self_of_lt (hS.placed hv)
  | @goesOn m' j left' v hn hpassed hreached hrank' =>
      refine .inr (.inr ⟨m', j, left', v, hn, hreached, hpassed, hrank'.ge.trans' hrank, ?_⟩)
      exact pull_of_closed_error hc hclosed (readClosed_of_unsettled hpull)

/-! ### When the sizes end -/

/-- If there are `M` sizes, an alternation draws no more than those, and no more items than they count. -/
theorem Reached.le_of_none (hreached : S.Reached m n left) (hM : S.lengths.get? M = none) :
    m ≤ M ∧ n ≤ S.start M := by
  have hm : m ≤ M := by
    by_contra hlt
    have hsome := hreached.drawn M (Nat.lt_of_not_le hlt)
    rw [hM] at hsome
    cases hsome
  exact ⟨hm, (Nat.le_of_add_right_le hreached.le).trans (S.start_mono hm)⟩

/-- So it does not take many steps. -/
theorem Reached.rank_le (hreached : S.Reached m n left) (hM : S.lengths.get? M = none) :
    rank m n left ≤ 2 * M + S.start M + 1 := by
  obtain ⟨hm, hn⟩ := hreached.le_of_none hM
  rw [rank]
  split <;> omega

/-- What comes of an alternation that has drawn `n` items: the next item that is kept, or the end. -/
structure Verdict (S : Sliced) (h : Host) (g : ℕ) (stands : Phase → World → Prop) (n : ℕ) (w : World) : Prop where
  gives : ∀ j x, n ≤ j → S.items.get? j = some x → S.Keeps j →
    (∀ i, n ≤ i → i < j → (S.items.get? i).isSome → ¬S.Keeps i) →
    ∃ phase v, h.above.pull (.ref .iterator g) w = .ok (some x) v ∧ stands phase v ∧ phase.given = j + 1
  ends : (∀ j, n ≤ j → (S.items.get? j).isSome → ¬S.Keeps j) →
    ∃ phase v, h.above.pull (.ref .iterator g) w = .ok none v ∧ stands phase v ∧ n ≤ phase.given ∧
      (∀ m, S.lengths.get? m = none → phase.given ≤ S.start m) ∧
      ∀ u, u.cursors[g]? = v.cursors[g]? → h.above.pull (.ref .iterator g) u = .ok none u

/-- Of two kept items with nothing kept in between, the first is read. -/
theorem eq_of_passed {j k : ℕ} (hj : n ≤ j) (hkeeps : S.Keeps j)
    (hnone : ∀ i, n ≤ i → i < j → (S.items.get? i).isSome → ¬S.Keeps i) (hk : n ≤ k)
    (hx' : (S.items.get? k).isSome) (hkeeps' : S.Keeps k) (hpassed : S.Passed n k) : k = j := by
  rcases Nat.lt_trichotomy k j with hlt | heq | hlt
  · exact absurd hkeeps' (hnone k hk hlt hx')
  · exact heq
  · exact absurd hkeeps (hpassed j hj hlt).2

theorem Held.verdict (hw : S.Held g stands n w) (hS : Supplied h g S stands)
    (hlimit : ∀ j k, S.lengths.get? j = some k → (k : ℤ) ≤ sliceLimit) (hM : S.lengths.get? M = none)
    (hfuel : 2 * M + S.start M + 1 < h.fuel) : S.Verdict h g stands n w where
  gives j x hj hx hkeeps hnone := by
    have hsome : (S.items.get? j).isSome := by
      rw [hx]
      rfl
    rcases hw.exists_read hS hlimit with ⟨k, y, v, hk, hy, hkeeps', hpassed, hpull, hv⟩ |
      ⟨m, k, -, v, hk, hm, hreached, hpassed, -⟩ | ⟨m, k, left, v, -, hreached, -, hrank, -⟩
    · have hsome' : (S.items.get? k).isSome := by
        rw [hy]
        rfl
      obtain rfl := eq_of_passed hj hkeeps hnone hk hsome' hkeeps' hpassed
      obtain rfl := Option.some_inj.1 (hx.symm.trans hy)
      obtain ⟨phase, hphase, hgiven⟩ := hv.standing
      exact ⟨phase, v, hpull, hphase, hgiven⟩
    · rcases Nat.lt_or_ge j k with hlt | hge
      · exact absurd hkeeps (hpassed j hj hlt).2
      · exact absurd hkeeps (hreached.not_keeps hm hge hsome)
    · exact absurd (hreached.rank_le hM) (Nat.not_le_of_lt (Nat.lt_of_lt_of_le hfuel hrank))
  ends hnone := by
    rcases hw.exists_read hS hlimit with ⟨k, y, v, hk, hy, hkeeps', -⟩ |
      ⟨m, k, phase, v, hk, hm, hreached, -, hpull, hphase, hgiven, hover⟩ |
      ⟨m, k, left, v, -, hreached, -, hrank, -⟩
    · refine absurd hkeeps' (hnone k hk ?_)
      rw [hy]
      rfl
    · exact ⟨phase, v, hpull, hphase, hk.trans hgiven.ge, fun m' hm' => hgiven ▸ (hreached.le_of_none hm').2,
        fun u hu => pull_finished (hu.trans hover)⟩
    · exact absurd (hreached.rank_le hM) (Nat.not_le_of_lt (Nat.lt_of_lt_of_le hfuel hrank))

/-! ### All reads -/

/-- **However an alternation is read**, it has given what it keeps, up to the last item that it has drawn. -/
theorem Held.exists_of_reads (hw : S.Held g stands 0 w)
    (hread : Spaced h.above (.ref .iterator g) (Undisturbed g stands) w ys v) (hS : Supplied h g S stands)
    (hlimit : ∀ j k, S.lengths.get? j = some k → (k : ℤ) ≤ sliceLimit) :
    ∃ n, ys = S.kept n ∧ (∀ i < n, (S.items.get? i).isSome) ∧ (∀ i, n = i + 1 → S.Keeps i) ∧
      S.Held g stands n v := by
  -- the induction is on the reads; what goes on in between leaves the alternation where it is
  induction hread with
  | start => exact ⟨0, rfl, nofun, nofun, hw⟩
  | @read ys y u v _ hpull ih =>
      obtain ⟨n, rfl, hsome, -, hu⟩ := ih
      rcases hu.exists_read hS hlimit with ⟨j, x, t, hj, hx, hkeeps, hpassed, hgives, ht⟩ |
        ⟨m, j, phase, t, -, -, -, -, hends, -⟩ | ⟨m, j, left, t, -, -, -, -, hfails⟩
      · cases hpull.symm.trans hgives
        refine ⟨j + 1, ?_, fun i hi => ?_, ?_, ht⟩
        · rw [kept_succ_of_keeps hx hkeeps, hpassed.kept_eq hj]
        · rcases Nat.lt_succ_iff_lt_or_eq.1 hi with hlt | rfl
          · rcases Nat.lt_or_ge i n with hin | hin
            · exact hsome i hin
            · exact (hpassed i hin hlt).1
          · rw [hx]
            rfl
        · rintro _ ⟨⟩
          exact hkeeps
      · cases hpull.symm.trans hends
      · cases hpull.symm.trans hfails
  | @meanwhile ys u v _ hbetween ih =>
      obtain ⟨n, hys, hsome, hlast, hu⟩ := ih
      exact ⟨n, hys, hsome, hlast, hu.undisturbed hbetween⟩

/-- What is kept among some items can be read, if each of them is within reach of a read. -/
theorem Held.exists_reads (hw : S.Held g stands 0 w) (hS : Supplied h g S stands)
    (hlimit : ∀ j k, S.lengths.get? j = some k → (k : ℤ) ≤ sliceLimit) (n : ℕ)
    (hreach : ∀ m j left i, S.Reached m j left → i < n → j ≤ i → (S.items.get? i).isSome → S.Keeps i →
      rank m j left < h.fuel) :
    ∃ m v, m ≤ n ∧ (∀ i, m ≤ i → i < n → (S.items.get? i).isSome → ¬S.Keeps i) ∧
      Reads h.above (.ref .iterator g) (S.kept n) w v ∧ S.Held g stands m v := by
  induction n with
  | zero => exact ⟨0, w, Nat.le_refl 0, nofun, .none w, hw⟩
  | succ n ih =>
      obtain ⟨m, v, hm, hnone, hreads, hv⟩ :=
        ih fun m j left i hreached hi => hreach m j left i hreached (Nat.lt_succ_of_lt hi)
      by_cases hkeeps : (S.items.get? n).isSome ∧ S.Keeps n
      · -- nothing is kept in between, so the next read gives this item
        obtain ⟨hsome, hkeeps⟩ := hkeeps
        obtain ⟨x, hx⟩ := Option.isSome_iff_exists.1 hsome
        rcases hv.exists_read hS hlimit with ⟨k, y, u, hk, hy, hkeeps', hpassed, hpull, hu⟩ |
          ⟨m', k, -, u, hk, hm', hreached, hpassed, -⟩ | ⟨m', k, left, u, hk, hreached, hpassed, hrank, -⟩
        · have hsome' : (S.items.get? k).isSome := by
            rw [hy]
            rfl
          obtain rfl := eq_of_passed hm hkeeps hnone hk hsome' hkeeps' hpassed
          obtain rfl := Option.some_inj.1 (hx.symm.trans hy)
          refine ⟨k + 1, u, Nat.le_refl _, fun i hi hlt => absurd hi (Nat.not_le_of_lt hlt), ?_, hu⟩
          rw [kept_succ_of_keeps hx hkeeps]
          exact hreads.append (.item hpull (.none u))
        · rcases Nat.lt_or_ge n k with hlt | hge
          · exact absurd hkeeps (hpassed n hm hlt).2
          · exact absurd hkeeps (hreached.not_keeps hm' hge hsome)
        · rcases Nat.lt_or_ge n k with hlt | hge
          · exact absurd hkeeps (hpassed n hm hlt).2
          · exact absurd hrank (Nat.not_le_of_lt
              (hreach m' k left n hreached (Nat.lt_succ_self n) hge hsome hkeeps))
      · have hnot : (S.items.get? n).isSome → ¬S.Keeps n := fun hsome hk => hkeeps ⟨hsome, hk⟩
        refine ⟨m, v, Nat.le_succ_of_le hm, fun i hi hlt => ?_, ?_, hv⟩
        · rcases Nat.lt_succ_iff_lt_or_eq.1 hlt with hlt | rfl
          · exact hnone i hi hlt
          · exact hnot
        · rwa [kept_eq_of_le (Nat.le_succ n) fun i hi hlt => ?_]
          obtain rfl := Nat.le_antisymm hi (Nat.le_of_lt_succ hlt)
          exact hnot

/-! ### Finitely many sizes -/

variable {ns : List ℕ}

theorem start_ofList (hns : S.lengths = .ofList ns) (j : ℕ) : S.start j = (ns.take j).sum := by
  rw [start, hns]
  refine congrArg List.sum (List.ext_getElem? fun i => ?_)
  rw [Stream'.Seq.getElem?_take, Stream'.Seq.ofList_get?, List.getElem?_take]

theorem keeping_iff (S : Sliced) (j : ℕ) : S.keeping j = true ↔ (Even j ↔ S.keepFirst = true) := by
  rw [keeping]
  by_cases hj : Even j <;> cases S.keepFirst <;> simp [hj]

/-- An item is kept if its position is counted by the sizes in every second place. -/
theorem keeps_iff_ofList (hns : S.lengths = .ofList ns) (i : ℕ) : S.Keeps i ↔
    ∃ j, (ns.take j).sum ≤ i ∧ i < (ns.take (j + 1)).sum ∧ (Even j ↔ S.keepFirst = true) := by
  simp only [Keeps, Lies, start_ofList hns, keeping_iff, and_assoc]

theorem start_length (hns : S.lengths = .ofList ns) : S.start ns.length = ns.sum := by
  rw [S.start_ofList hns, List.take_length]

/-- Nothing behind the last size is kept. -/
theorem Keeps.lt_sum {i : ℕ} (hkeeps : S.Keeps i) (hns : S.lengths = .ofList ns) : i < ns.sum := by
  obtain ⟨j, -, hj, -⟩ := (S.keeps_iff_ofList hns i).1 hkeeps
  refine Nat.lt_of_lt_of_le hj ?_
  conv_rhs => rw [← List.take_append_drop (j + 1) ns, List.sum_append]
  exact Nat.le_add_right _ _

/-- **What one way round keeps, the other drops**; together they keep the items that the sizes count. -/
theorem lt_sum_iff (hns : S.lengths = .ofList ns) (i : ℕ) :
    (i < ns.sum ↔ S.Keeps i ∨ S.flip.Keeps i) ∧ ¬(S.Keeps i ∧ S.flip.Keeps i) := by
  have hflip : i < ns.sum → (S.flip.Keeps i ↔ ¬S.Keeps i) := by
    rw [← start_length hns]
    exact S.keeps_flip_iff
  refine ⟨⟨fun hi => ?_, ?_⟩, fun ⟨hkeeps, hkeeps'⟩ => (hflip (hkeeps.lt_sum hns)).1 hkeeps' hkeeps⟩
  · rw [hflip hi]
    exact Classical.em _
  · rintro (hkeeps | hkeeps)
    · exact hkeeps.lt_sum hns
    · exact hkeeps.lt_sum (S := S.flip) hns

end Sliced

/-! ### Alternations of a session -/

/-- Where an alternation has been made, nothing has been opened yet. -/
def World.sliced (w : World) (S : Sliced) : World := { w with cursors := w.cursors.push S.unopened }

theorem callOp_alternate (S : Sliced) (H : Host) (w : World) :
    H.callOp (.alternate S.keepFirst) [S.steps, S.collection] [] w =
      .ok (.ref .iterator w.cursors.size) (w.sliced S) :=
  (callOp_of_ok rfl rfl).trans rfl

theorem held_sliced (hstands : stands .waiting (w.sliced S)) :
    S.Held w.cursors.size stands 0 (w.sliced S) := .waiting Array.getElem?_push_size hstands

/-- **An alternation keeps every second slice.**  Let finitely many sizes, none of which is too large to count
with, be given together with any collection.  Making an alternation of them opens nothing.

An item is kept if its position is counted by the sizes in every second place.  What one way round keeps, the
other drops; together they keep the items at the positions that the sizes count, each once.  An empty slice in
front turns the slices round.

However the alternation is read, it has given the items that are kept, in order, and has drawn nothing behind the
last of them; the next read gives the next one, and if there is none, it ends, for good.  All items that are kept
can be read, and then the alternation ends; not more items are ever drawn than the sizes count. -/
theorem alternation_keeps {ns : List ℕ} (hns : S.lengths = .ofList ns)
    (hS : Supplied h w.cursors.size S stands) (hlimit : ∀ k ∈ ns, (k : ℤ) ≤ sliceLimit)
    (hstands : stands .waiting (w.sliced S)) (hfuel : 2 * ns.length + ns.sum + 1 < h.fuel) (H : Host) :
    let g := w.cursors.size
    let opened := w.sliced S
    H.callOp (.alternate S.keepFirst) [S.steps, S.collection] [] w = .ok (.ref .iterator g) opened ∧
    (∀ i, S.Keeps i ↔
      ∃ j, (ns.take j).sum ≤ i ∧ i < (ns.take (j + 1)).sum ∧ (Even j ↔ S.keepFirst = true)) ∧
    (∀ i, (i < ns.sum ↔ S.Keeps i ∨ S.flip.Keeps i) ∧ ¬(S.Keeps i ∧ S.flip.Keeps i)) ∧
    (∀ n, S.behindEmpty.kept n = S.kept n) ∧
    (∀ ys v, Spaced h.above (.ref .iterator g) (Undisturbed g stands) opened ys v →
      ∃ n phase, ys = S.kept n ∧ (∀ i < n, (S.items.get? i).isSome) ∧ (∀ i, n = i + 1 → S.Keeps i) ∧
        stands phase v ∧ phase.given = n ∧ n ≤ ns.sum ∧ S.Verdict h g stands n v) ∧
    (∀ n, ns.sum ≤ n → S.kept n = S.kept ns.sum) ∧
    ∃ phase v u, Reads h.above (.ref .iterator g) (S.kept ns.sum) opened v ∧
      h.above.pull (.ref .iterator g) v = .ok none u ∧ stands phase u ∧ phase.given ≤ ns.sum := by
  intro g opened
  have hM : S.lengths.get? ns.length = none := by
    rw [hns, Stream'.Seq.ofList_get?, List.getElem?_eq_none (Nat.le_refl _)]
  have hlimit' : ∀ j k, S.lengths.get? j = some k → (k : ℤ) ≤ sliceLimit := by
    intro j k hk
    rw [hns, Stream'.Seq.ofList_get?] at hk
    exact hlimit k (List.mem_of_getElem? hk)
  have hfuel' : 2 * ns.length + S.start ns.length + 1 < h.fuel := by rwa [S.start_length hns]
  have hheld := held_sliced hstands
  have hbehind : ∀ i, ns.sum ≤ i → ¬S.Keeps i := fun i hi hkeeps =>
    absurd (hkeeps.lt_sum hns) (Nat.not_lt_of_le hi)
  refine ⟨callOp_alternate S H w, S.keeps_iff_ofList hns, S.lt_sum_iff hns, S.kept_behindEmpty,
    fun ys v hread => ?_, fun n hn => ?_, ?_⟩
  · obtain ⟨n, hys, hsome, hlast, hv⟩ := hheld.exists_of_reads hread hS hlimit'
    obtain ⟨phase, hphase, hgiven⟩ := hv.standing
    refine ⟨n, phase, hys, hsome, hlast, hphase, hgiven, ?_, hv.verdict hS hlimit' hM hfuel'⟩
    cases n with
    | zero => exact Nat.zero_le _
    | succ n => exact (hlast n rfl).lt_sum hns
  · exact S.kept_eq_of_le hn fun i hi _ _ => hbehind i hi
  · obtain ⟨m, v, hm, hnone, hreads, hv⟩ := hheld.exists_reads hS hlimit' ns.sum
      fun m j left i hreached _ _ _ _ => Nat.lt_of_le_of_lt (hreached.rank_le hM) hfuel'
    obtain ⟨phase, u, hpull, hphase, -, hgiven, -⟩ := (hv.verdict hS hlimit' hM hfuel').ends
      fun j hj hsome => (Nat.lt_or_ge j ns.sum).elim (fun hlt => hnone j hj hlt hsome) (hbehind j)
    exact ⟨phase, v, u, hreads, hpull, hphase, S.start_length hns ▸ hgiven ns.length hM⟩

/-! ### Numbers at hand -/

section

variable {k : Host} {a b i : ℕ} {p q : Value} {sizeAt : ℕ → Cursor} {lengths : Stream'.Seq ℕ} {ns : List ℕ}
  {xs : List ℤ} {waiting : World → Prop}

/-- Numbers behind sizes. -/
def slicedNumbers (steps : Value) (lengths : Stream'.Seq ℕ) (xs : List ℤ) (keepFirst : Bool) : Sliced where
  steps := steps
  collection := .tuple (xs.map .int) none
  lengths := lengths
  items := .ofList (xs.map .int)
  keepFirst := keepFirst

/-- An iterator that has given `m` sizes, and one that has given `n` numbers, apart from an alternation. -/
structure SlicedStand (g : ℕ) (sizeAt : ℕ → Cursor) (xs : List ℤ) (a b m n : ℕ) (w : World) : Prop where
  sizes : w.cursors[a]? = some (sizeAt m)
  items : w.cursors[b]? = some (.items .tuple ((xs.map Value.int).drop n))
  place : g < w.cursors.size
  apart : a ≠ b ∧ a ≠ g ∧ b ≠ g

/-- Where sizes and numbers stand. -/
def slicedStand (g : ℕ) (sizeAt : ℕ → Cursor) (xs : List ℤ) (waiting : World → Prop) : Sliced.Phase → World → Prop
  | .waiting, w => waiting w ∧ g < w.cursors.size
  | .drawn p q m n, w => ∃ a b, p = .ref .iterator a ∧ q = .ref .iterator b ∧ SlicedStand g sizeAt xs a b m n w

theorem SlicedStand.size (hw : SlicedStand g sizeAt xs a b m n w) (m' : ℕ) :
    SlicedStand g sizeAt xs a b m' n (w.withCursor a (sizeAt m')) where
  sizes := getElem?_setCursor hw.sizes
  items := (Array.getElem?_setIfInBounds_ne hw.apart.1).trans hw.items
  place := hw.place.trans_eq (size_withCursor ..).symm
  apart := hw.apart

theorem SlicedStand.item (hw : SlicedStand g sizeAt xs a b m n w) (n' : ℕ) :
    SlicedStand g sizeAt xs a b m n' (w.withCursor b (.items .tuple ((xs.map Value.int).drop n'))) where
  sizes := (Array.getElem?_setIfInBounds_ne hw.apart.1.symm).trans hw.sizes
  items := getElem?_setCursor hw.items
  place := hw.place.trans_eq (size_withCursor ..).symm
  apart := hw.apart

theorem SlicedStand.moved (hw : SlicedStand g sizeAt xs a b m n w) (c : Cursor) :
    SlicedStand g sizeAt xs a b m n (w.withCursor g c) where
  sizes := (Array.getElem?_setIfInBounds_ne hw.apart.2.1.symm).trans hw.sizes
  items := (Array.getElem?_setIfInBounds_ne hw.apart.2.2.symm).trans hw.items
  place := hw.place.trans_eq (size_withCursor ..).symm
  apart := hw.apart

theorem get?_slicedNumbers (steps : Value) (keepFirst : Bool) :
    (slicedNumbers steps lengths xs keepFirst).items.get? i = (xs.map Value.int)[i]? :=
  Stream'.Seq.ofList_get? ..

/-- **Numbers can be drawn one by one**, by whatever sizes. -/
theorem supplied_numbers (hk : 0 < k.fuel) (steps : Value) (keepFirst : Bool)
    (hopens : ∀ w, waiting w → g < w.cursors.size → ∃ p q u v,
      iterate (.tuple (xs.map .int) none) w = .ok q u ∧ iterate steps u = .ok p v ∧
        slicedStand g sizeAt xs waiting (.drawn p q 0 0) v)
    (hsize : ∀ a m k' w, w.cursors[a]? = some (sizeAt m) → lengths.get? m = some k' →
      k.above.pull (.ref .iterator a) w = .ok (some (.int k')) (w.withCursor a (sizeAt (m + 1))))
    (hnoSize : ∀ a m w, w.cursors[a]? = some (sizeAt m) → lengths.get? m = none →
      k.above.pull (.ref .iterator a) w = .ok none w)
    (hmoved : ∀ w c, waiting w → waiting (w.withCursor g c)) :
    Supplied k.above g (slicedNumbers steps lengths xs keepFirst) (slicedStand g sizeAt xs waiting) where
  opens hw := hopens _ hw.1 hw.2
  size {w p q m n k'} hw hk' := by
    obtain ⟨a, b, rfl, rfl, hstand⟩ := hw
    exact ⟨_, _, hsize a m k' w hstand.sizes hk', rfl, a, b, rfl, rfl, hstand.size (m + 1)⟩
  noSize {w p q m n} hw hm := by
    obtain ⟨a, b, rfl, rfl, hstand⟩ := hw
    exact ⟨w, hnoSize a m w hstand.sizes hm, a, b, rfl, rfl, hstand⟩
  item {w p q m n x} hw hx := by
    obtain ⟨a, b, rfl, rfl, hstand⟩ := hw
    rw [get?_slicedNumbers] at hx
    obtain ⟨hlt, hget⟩ := List.getElem?_eq_some_iff.1 hx
    have hrest := hstand.items
    rw [List.drop_eq_getElem_cons hlt, hget] at hrest
    refine ⟨_, pull_items hrest ?_ hk, a, b, rfl, rfl, hstand.item (n + 1)⟩
    rw [← hget, List.getElem_map]
    rfl
  noItem {w p q m n} hw hx := by
    obtain ⟨a, b, rfl, rfl, hstand⟩ := hw
    rw [get?_slicedNumbers] at hx
    have hrest := hstand.items
    rw [List.drop_eq_nil_of_le (List.getElem?_eq_none_iff.1 hx)] at hrest
    exact ⟨w, pull_items_nil hrest hk, a, b, rfl, rfl, hstand⟩
  moved {w phase} hw c := by
    cases phase with
    | waiting =>
        exact ⟨hmoved w c hw.1, hw.2.trans_eq (size_withCursor ..).symm⟩
    | drawn =>
        obtain ⟨a, b, hp, hq, hstand⟩ := hw
        exact ⟨a, b, hp, hq, hstand.moved c⟩
  placed {w phase} hw := by
    cases phase with
    | waiting => exact hw.2
    | drawn =>
        obtain ⟨a, b, -, -, hstand⟩ := hw
        exact hstand.place
  handed {i x} hx := by
    rw [get?_slicedNumbers, List.getElem?_map] at hx
    obtain ⟨n, -, rfl⟩ := Option.map_eq_some_iff.1 hx
    rfl

/-- Sizes as values. -/
def sizeValues (ns : List ℕ) : List Value := ns.map fun k : ℕ => .int k

/-- An iterator over sizes at hand. -/
def sizesLeft (ns : List ℕ) (m : ℕ) : Cursor := .items .tuple ((sizeValues ns).drop m)

/-- Sizes at hand are sizes that can be drawn one by one. -/
theorem supplied_sizes (hk : 0 < k.fuel) (g : ℕ) (ns : List ℕ) (xs : List ℤ) (keepFirst : Bool) :
    Supplied k.above g (slicedNumbers (.tuple (sizeValues ns) none) (.ofList ns) xs keepFirst)
      (slicedStand g (sizesLeft ns) xs fun _ => True) := by
  refine supplied_numbers hk _ keepFirst (fun w _ hw => ?_) (fun a m k' w hw hk' => ?_) (fun a m w hw hm => ?_)
    fun _ _ _ => trivial
  · refine ⟨_, _, _, _, rfl, rfl, _, _, rfl, rfl, Array.getElem?_push_size, ?_, ?_, ?_⟩
    · rw [Array.getElem?_push_lt (by simp)]
      simp
    · simp only [Array.size_push]
      omega
    · simp only [Array.size_push]
      omega
  · rw [Stream'.Seq.ofList_get?] at hk'
    have hsize : (sizeValues ns)[m]? = some (.int k') := by rw [sizeValues, List.getElem?_map, hk', Option.map_some]
    obtain ⟨hlt, hget⟩ := List.getElem?_eq_some_iff.1 hsize
    rw [sizesLeft, List.drop_eq_getElem_cons hlt, hget] at hw
    exact pull_items hw rfl hk
  · rw [Stream'.Seq.ofList_get?] at hm
    have hle : (sizeValues ns).length ≤ m := by
      rw [sizeValues, List.length_map]
      exact List.getElem?_eq_none_iff.1 hm
    rw [sizesLeft, List.drop_eq_nil_of_le hle] at hw
    exact pull_items_nil hw hk

end

/-- Of four numbers, two are kept and one is dropped; two empty slices are passed over, and the last slice ends
early. -/
theorem alternation_keeps_numbers :
    ∃ w v u, (host 3).callOp (.alternate true)
          [.tuple (sizeValues [2, 1, 0, 0, 5]) none, .tuple ([7, 8, 9, 10].map .int) none] [] {} =
        .ok (.ref .iterator 0) w ∧
      Reads (host 3) (.ref .iterator 0) [.int 7, .int 8, .int 10] w v ∧
      (host 3).pull (.ref .iterator 0) v = .ok none u := by
  let ns := [2, 1, 0, 0, 5]
  let S := slicedNumbers (.tuple (sizeValues ns) none) (.ofList ns) [7, 8, 9, 10] true
  have hns : S.lengths = .ofList ns := rfl
  have hsupplied : Supplied (host 2) 0 S (slicedStand 0 (sizesLeft ns) [7, 8, 9, 10] fun _ => True) :=
    supplied_sizes (k := host 1) (by decide) 0 ns [7, 8, 9, 10] true
  obtain ⟨hopen, -, -, -, -, -, phase, v, u, hreads, hend, -⟩ :=
    alternation_keeps (S := S) (h := host 2) (w := {}) hns hsupplied (by decide) ⟨trivial, by decide⟩
      (by decide) (host 3)
  have hitem : ∀ i, S.items.get? i = ([7, 8, 9, 10].map Value.int)[i]? := fun i => get?_slicedNumbers ..
  have hlies : ∀ i j, (ns.take j).sum ≤ i ∧ i < (ns.take (j + 1)).sum → S.Lies i j := by
    intro i j hij
    rwa [Sliced.Lies, S.start_ofList hns, S.start_ofList hns]
  have hkept : S.kept ns.sum = [.int 7, .int 8, .int 10] := by
    have hnone : S.kept ns.sum = S.kept 4 := by
      refine S.kept_eq_of_le (by decide) fun i hi _ hsome => ?_
      rw [hitem, List.getElem?_eq_none hi] at hsome
      cases hsome
    rw [hnone, S.kept_succ_of_keeps (hitem 3) ((hlies 3 4 (by decide)).keeps_iff.2 rfl),
      S.kept_succ_of_not_keeps (fun hkeeps => nomatch (hlies 2 1 (by decide)).keeps_iff.1 hkeeps),
      S.kept_succ_of_keeps (hitem 1) ((hlies 1 0 (by decide)).keeps_iff.2 rfl),
      S.kept_succ_of_keeps (hitem 0) ((hlies 0 0 (by decide)).keeps_iff.2 rfl)]
    rfl
  exact ⟨_, v, u, hopen, hkept ▸ hreads, hend⟩

/-- An alternation would keep the first item if the first size is `2 ^ 63`; but it cannot count that far. -/
theorem not_alternation_keeps_always :
    (slicedNumbers (.tuple (sizeValues [9223372036854775808]) none) (.ofList [9223372036854775808]) [1] true).Keeps 0 ∧
      ∃ w v, (host 3).callOp (.alternate true)
          [.tuple (sizeValues [9223372036854775808]) none, .tuple [.int 1] none] [] {} =
        .ok (.ref .iterator 0) w ∧
      (host 3).pull (.ref .iterator 0) w = .error .badValue v := by
  refine ⟨?_, _, _, rfl, rfl⟩
  rw [Sliced.keeps_iff_ofList rfl]
  exact ⟨0, by decide, by decide, by decide⟩

end GraphRoutes.Session
