/-
**All reads of a lookahead.**

However a lookahead is read, and whatever goes on in between that leaves it alone, it has given the items
that it keeps, in order, up to a position of its route, and no item behind that has been asked for.  The
function has been called once about each item up to there.  The next read passes over the items that are
not kept; if it may take enough steps, it gives the next one that is, or comes to the end of the route.

Main definitions:

* `GraphRoutes.Session.Looking` — a lookahead that is done with the first items of its route;
* `GraphRoutes.Session.Lookout.Verdict` — what the next read of a lookahead comes to.

Main results:

* `GraphRoutes.Session.Looking.exists_read` — one read;
* `GraphRoutes.Session.Looking.exists_of_reads` — what a lookahead has given, however it has been read;
* `GraphRoutes.Session.lookahead_keeps` — **a lookahead keeps, in order, the items whose routes have an
  allowed size**;
* `GraphRoutes.Session.explored_rows` — rows of numbers, the last of which never ends.
-/
import GraphRoutes.Proofs.Session.Guards
import GraphRoutes.Proofs.Session.Lookaheads

set_option relaxedAutoImplicit false
set_option autoImplicit false

namespace GraphRoutes.Session

open World Value Route

variable {h : Host} {g n i j : ℕ} {L : Lookout} {stands : Phase → World → Prop} {u v w : World}
  {x : Value} {negated : Bool}

/-- Between two positions of a route, all items are passed over. -/
def Lookout.Passed (L : Lookout) (negated : Bool) (n j : ℕ) : Prop :=
  ∀ i, n ≤ i → i < j → (L.items.get? i).isSome ∧ ¬L.Keeps negated i

theorem Lookout.Passed.refl (L : Lookout) (negated : Bool) (n : ℕ) : L.Passed negated n n :=
  fun _ hn hj => absurd hn (Nat.not_le_of_lt hj)

theorem Lookout.Passed.cons (hn : (L.items.get? n).isSome ∧ ¬L.Keeps negated n)
    (h : L.Passed negated (n + 1) j) : L.Passed negated n j := by
  intro i hi hj
  rcases Nat.eq_or_lt_of_le hi with rfl | hlt
  · exact hn
  · exact h i hlt hj

/-- **What some steps of a lookahead come to** that is done with the first `n` items: the next item that it
keeps, or the end of the route, or neither yet. -/
inductive Lookout.Comes (L : Lookout) (negated : Bool) (stands : Phase → World → Prop) (n fuel : ℕ) :
    Pull Cursor Value Fault → World → Prop
  | gives {j : ℕ} {x : Value} {v : World} (hj : n ≤ j) (hfuel : j < n + fuel)
      (hx : L.items.get? j = some x) (hkeeps : L.Keeps negated j) (hpassed : L.Passed negated n j)
      (hv : stands (.between (L.log (j + 1))) v) : Comes L negated stands n fuel (.item x (L.cursor negated)) v
  | ends {j : ℕ} {v : World} (hj : n ≤ j) (hfuel : j < n + fuel) (hx : L.items.get? j = none)
      (hpassed : L.Passed negated n j) (hv : stands (.between (L.log j)) v) :
      Comes L negated stands n fuel (.ended none) v
  | goesOn {v : World} (hpassed : L.Passed negated n (n + fuel)) : Comes L negated stands n fuel .unsettled v

/-- An item that is passed over is one step. -/
theorem Lookout.Comes.skip {fuel : ℕ} {r : Pull Cursor Value Fault}
    (hn : (L.items.get? n).isSome ∧ ¬L.Keeps negated n) (hr : L.Comes negated stands (n + 1) fuel r v) :
    L.Comes negated stands n (fuel + 1) r v := by
  cases hr with
  | gives hj hfuel hx hkeeps hpassed hv =>
      exact .gives (by omega) (by omega) hx hkeeps (hpassed.cons hn) hv
  | ends hj hfuel hx hpassed hv => exact .ends (by omega) (by omega) hx (hpassed.cons hn) hv
  | goesOn hpassed =>
      rw [Nat.add_right_comm, Nat.add_assoc] at hpassed
      exact .goesOn (hpassed.cons hn)

/-- The steps of a lookahead. -/
theorem Explored.exists_pull (hL : Explored h g L stands) (hlimit : (L.limit : ℤ) ≤ sliceLimit)
    (negated : Bool) (fuel : ℕ) {n : ℕ} {w : World} (hw : stands (.between (L.log n)) w) :
    ∃ r v, (stepCursor h).pull fuel (L.cursor negated) w = .ok r v ∧ L.Comes negated stands n fuel r v := by
  induction fuel generalizing n w with
  | zero => exact ⟨.unsettled, w, rfl, .goesOn (.refl L negated n)⟩
  | succ fuel ih =>
      cases hx : L.items.get? n with
      | none =>
          obtain ⟨v, hpull, hv⟩ := hL.finishes hw (by rwa [Lookout.length_log])
          have hselect : select h.source ((L.test negated).holds h) L.source w = .ok .finish v :=
            (Act.bind_of_ok (source_of_end hpull)).trans rfl
          have hstep : stepCursor h (L.cursor negated) w = .ok .finish v := stepCursor_select hselect
          exact ⟨_, v, Machine.pull_of_finish hstep fuel, .ends (Nat.le_refl n) (by omega) hx (.refl L negated n) hv⟩
      | some x =>
          obtain ⟨v, hstep, hv⟩ := hL.exists_step hw hx hlimit negated
          by_cases hkeeps : L.Keeps negated n
          · rw [if_pos hkeeps] at hstep
            exact ⟨_, v, Machine.pull_of_give hstep fuel,
              .gives (Nat.le_refl n) (by omega) hx hkeeps (.refl L negated n) hv⟩
          · rw [if_neg hkeeps] at hstep
            obtain ⟨r, u, hpull, hr⟩ := ih hv
            refine ⟨r, u, (Machine.pull_of_skip hstep fuel).trans hpull, hr.skip ⟨?_, hkeeps⟩⟩
            rw [hx]
            rfl

/-- A lookahead that is done with the first `n` items of its route. -/
structure Looking (g : ℕ) (L : Lookout) (negated : Bool) (stands : Phase → World → Prop) (n : ℕ)
    (w : World) : Prop where
  cursor : w.cursors[g]? = some (L.cursor negated)
  standing : stands (.between (L.log n)) w

/-! ### One read -/

/-- A closed sequence is read from its place. -/
theorem pull_of_closed {c : Cursor} {y : Option Value} (hc : w.cursors[g]? = some c) (hclosed : Closed c)
    (hread : readClosed h g c w = .ok y v) (hmarked : ∀ x, y = some x → x.unmarked = false) :
    h.above.pull (.ref .iterator g) w = .ok y v := by
  rw [← nextItem_of_closed hc (hclosed.notOpen _ _) hclosed.notRunning hclosed.notFinished] at hread
  exact pull_of_marked hread hmarked

theorem closed_cursor (L : Lookout) (negated : Bool) : Closed (L.cursor negated) := ⟨nofun, nofun, fun _ _ => rfl⟩

/-- **The next read of a lookahead that is done with the first `n` items of its route**, if it may take
enough steps. -/
structure Lookout.Verdict (L : Lookout) (h : Host) (g : ℕ) (negated : Bool)
    (stands : Phase → World → Prop) (n : ℕ) (w : World) : Prop where
  gives : ∀ j x, n ≤ j → j < n + h.fuel → L.items.get? j = some x → L.Keeps negated j →
    L.Passed negated n j →
    ∃ v, h.above.pull (.ref .iterator g) w = .ok (some x) v ∧ stands (.between (L.log (j + 1))) v
  ends : ∀ j, n ≤ j → j < n + h.fuel → L.items.get? j = none → L.Passed negated n j →
    ∃ v, h.above.pull (.ref .iterator g) w = .ok none v ∧ stands (.between (L.log j)) v ∧
      ∀ u, u.cursors[g]? = v.cursors[g]? → h.above.pull (.ref .iterator g) u = .ok none u

/-- Not both of two different positions are the first one that is not passed over. -/
theorem Lookout.Passed.unique {k : ℕ} (hj : n ≤ j) (hpassed : L.Passed negated n j)
    (hstop : ¬((L.items.get? j).isSome ∧ ¬L.Keeps negated j)) (hk : n ≤ k) (hpassed' : L.Passed negated n k)
    (hstop' : ¬((L.items.get? k).isSome ∧ ¬L.Keeps negated k)) : j = k := by
  rcases Nat.lt_trichotomy j k with hlt | heq | hlt
  · exact absurd (hpassed' j hj hlt) hstop
  · exact heq
  · exact absurd (hpassed k hk hlt) hstop'

/-- **One read of a lookahead.** -/
theorem Looking.exists_read (hw : Looking g L negated stands n w) (hL : Explored h g L stands)
    (hlimit : (L.limit : ℤ) ≤ sliceLimit) :
    (∃ j x v, n ≤ j ∧ L.items.get? j = some x ∧ L.Keeps negated j ∧ L.Passed negated n j ∧
      h.above.pull (.ref .iterator g) w = .ok (some x) v ∧ Looking g L negated stands (j + 1) v) ∨
    (∃ j v, n ≤ j ∧ L.items.get? j = none ∧ L.Passed negated n j ∧
      h.above.pull (.ref .iterator g) w = .ok none v ∧ stands (.between (L.log j)) v ∧
      v.cursors[g]? = some .finished) ∨
    ∃ v, L.Passed negated n (n + h.fuel) ∧ h.above.pull (.ref .iterator g) w = .error .outOfFuel v := by
  have hreading : stands (.between (L.log n)) (w.reading g) := hL.moved hw.standing .running
  have hclosed := closed_cursor L negated
  obtain ⟨r, v, hpull, hr⟩ := hL.exists_pull hlimit negated h.fuel hreading
  cases hr with
  | @gives j x v hj _ hx hkeeps hpassed hv =>
      refine .inl ⟨j, x, v.withCursor g (L.cursor negated), hj, hx, hkeeps, hpassed, ?_, ?_, hL.moved hv _⟩
      · refine pull_of_closed hw.cursor hclosed (readClosed_of_item hpull) ?_
        rintro _ ⟨⟩
        exact hL.handed hx
      · exact Array.getElem?_setIfInBounds_self_of_lt (hL.placed hv)
  | @ends j v hj _ hx hpassed hv =>
      refine .inr (.inl ⟨j, v.withCursor g .finished, hj, hx, hpassed, ?_, hL.moved hv _, ?_⟩)
      · exact pull_of_closed hw.cursor hclosed (readClosed_of_ended hpull) (by rintro _ ⟨⟩)
      · exact Array.getElem?_setIfInBounds_self_of_lt (hL.placed hv)
  | goesOn hpassed =>
      refine .inr (.inr ⟨v, hpassed, ?_⟩)
      have hread : readClosed h g (L.cursor negated) w = .error .outOfFuel v := by
        rw [readClosed, Act.bind_of_ok (m := setCursor g .running) rfl]
        exact Act.bind_of_ok hpull
      rw [← nextItem_of_closed hw.cursor (hclosed.notOpen _ _) hclosed.notRunning hclosed.notFinished] at hread
      exact Act.bind_of_error hread

theorem Looking.verdict (hw : Looking g L negated stands n w) (hL : Explored h g L stands)
    (hlimit : (L.limit : ℤ) ≤ sliceLimit) : L.Verdict h g negated stands n w where
  gives j x hj hfuel hx hkeeps hpassed := by
    have hstop : ¬((L.items.get? j).isSome ∧ ¬L.Keeps negated j) := fun hpass => hpass.2 hkeeps
    rcases hw.exists_read hL hlimit with ⟨k, y, v, hk, hy, hkeeps', hpassed', hpull, hv⟩ |
      ⟨k, v, hk, hy, hpassed', -⟩ | ⟨v, hpassed', -⟩
    · obtain rfl := hpassed.unique hj hstop hk hpassed' fun hpass => hpass.2 hkeeps'
      obtain rfl := Option.some_inj.1 (hx.symm.trans hy)
      exact ⟨v, hpull, hv.standing⟩
    · obtain rfl := hpassed.unique hj hstop hk hpassed' fun hpass => by
        rw [hy] at hpass
        cases hpass.1
      cases hx.symm.trans hy
    · exact absurd (hpassed' j hj hfuel) hstop
  ends j hj hfuel hx hpassed := by
    have hstop : ¬((L.items.get? j).isSome ∧ ¬L.Keeps negated j) := fun hpass => by
      rw [hx] at hpass
      cases hpass.1
    rcases hw.exists_read hL hlimit with ⟨k, y, v, hk, hy, hkeeps', hpassed', -⟩ |
      ⟨k, v, hk, hy, hpassed', hpull, hv, hover⟩ | ⟨v, hpassed', -⟩
    · obtain rfl := hpassed.unique hj hstop hk hpassed' fun hpass => hpass.2 hkeeps'
      cases hx.symm.trans hy
    · obtain rfl := hpassed.unique hj hstop hk hpassed' fun hpass => by
        rw [hy] at hpass
        cases hpass.1
      exact ⟨v, hpull, hv, fun u hu => pull_finished (hu.trans hover)⟩
    · exact absurd (hpassed' j hj hfuel) hstop

/-! ### All reads -/

open Classical in
/-- The items that are kept among the first `n`. -/
noncomputable def Lookout.kept (L : Lookout) (negated : Bool) (n : ℕ) : List Value :=
  (List.range n).filterMap fun i => if L.Keeps negated i then L.items.get? i else none

theorem Lookout.kept_succ_of_keeps (hx : L.items.get? n = some x) (hkeeps : L.Keeps negated n) :
    L.kept negated (n + 1) = L.kept negated n ++ [x] := by
  simp [kept, List.range_succ, List.filterMap_append, hx, hkeeps]

theorem Lookout.kept_succ_of_not_keeps (hkeeps : ¬L.Keeps negated n) :
    L.kept negated (n + 1) = L.kept negated n := by
  simp [kept, List.range_succ, List.filterMap_append, hkeeps]

/-- What is passed over is not kept. -/
theorem Lookout.Passed.kept_eq (hj : n ≤ j) (hpassed : L.Passed negated n j) :
    L.kept negated j = L.kept negated n := by
  induction j, hj using Nat.le_induction with
  | base => rfl
  | succ j hj ih =>
      rw [kept_succ_of_not_keeps (hpassed j hj (Nat.lt_succ_self j)).2]
      exact ih fun i hi hlt => hpassed i hi (Nat.lt_succ_of_lt hlt)

/-- However a lookahead is read, it has given what it keeps, up to the last item that it has asked for. -/
theorem Looking.exists_of_reads {ys : List Value} (hw : Looking g L negated stands 0 w)
    (hread : Spaced h.above (.ref .iterator g) (Undisturbed g stands) w ys v)
    (hL : Explored h g L stands) (hlimit : (L.limit : ℤ) ≤ sliceLimit) :
    ∃ n, ys = L.kept negated n ∧ (∀ i < n, (L.items.get? i).isSome) ∧
      (∀ i, n = i + 1 → L.Keeps negated i) ∧ Looking g L negated stands n v := by
  induction hread with
  | start => exact ⟨0, rfl, nofun, nofun, hw⟩
  | @read ys y u v _ hpull ih =>
      obtain ⟨n, rfl, hsome, -, hu⟩ := ih
      rcases hu.exists_read hL hlimit with ⟨j, x, t, hj, hx, hkeeps, hpassed, hgives, ht⟩ |
        ⟨j, t, -, -, -, hends, -⟩ | ⟨t, -, hfails⟩
      · cases hpull.symm.trans hgives
        refine ⟨j + 1, ?_, fun i hi => ?_, ?_, ht⟩
        · rw [Lookout.kept_succ_of_keeps hx hkeeps, hpassed.kept_eq hj]
        · rcases Nat.lt_succ_iff_lt_or_eq.1 hi with hlt | rfl
          · rcases Nat.lt_or_ge i n with hin | hin
            · exact hsome i hin
            · exact (hpassed i hin hlt).1
          · rw [hx]
            rfl
        · rintro _ ⟨⟩
          exact hkeeps
      · cases hpull.symm.trans hends
      · cases hpull.symm.trans hfails
  | @meanwhile ys u v _ hbetween ih =>
      obtain ⟨n, hys, hsome, hlast, hu⟩ := ih
      exact ⟨n, hys, hsome, hlast, hbetween.1.trans hu.cursor, hbetween.2 _ hu.standing⟩

/-- What is kept among some items can be read, if a read may take that many steps. -/
theorem Looking.exists_reads (hw : Looking g L negated stands 0 w) (hL : Explored h g L stands)
    (hlimit : (L.limit : ℤ) ≤ sliceLimit) (hsome : ∀ i < n, (L.items.get? i).isSome) (hfuel : n ≤ h.fuel) :
    ∃ m v, m ≤ n ∧ L.Passed negated m n ∧ Reads h.above (.ref .iterator g) (L.kept negated n) w v ∧
      Looking g L negated stands m v := by
  induction n with
  | zero => exact ⟨0, w, Nat.le_refl 0, .refl L negated 0, .none w, hw⟩
  | succ n ih =>
      obtain ⟨m, v, hm, hpassed, hreads, hv⟩ :=
        ih (fun i hi => hsome i (Nat.lt_succ_of_lt hi)) (Nat.le_of_succ_le hfuel)
      obtain ⟨x, hx⟩ := Option.isSome_iff_exists.1 (hsome n (Nat.lt_succ_self n))
      by_cases hkeeps : L.Keeps negated n
      · have hstop : ¬((L.items.get? n).isSome ∧ ¬L.Keeps negated n) := fun hpass => hpass.2 hkeeps
        rcases hv.exists_read hL hlimit with ⟨k, y, u, hk, hy, hkeeps', hpassed', hpull, hu⟩ |
          ⟨k, u, hk, hy, hpassed', -⟩ | ⟨u, hpassed', -⟩
        · obtain rfl := hpassed.unique hm hstop hk hpassed' fun hpass => hpass.2 hkeeps'
          obtain rfl := Option.some_inj.1 (hx.symm.trans hy)
          refine ⟨n + 1, u, Nat.le_refl _, .refl L negated _, ?_, hu⟩
          rw [Lookout.kept_succ_of_keeps hx hkeeps]
          exact hreads.append (.item hpull (.none u))
        · obtain rfl := hpassed.unique hm hstop hk hpassed' fun hpass => by
            rw [hy] at hpass
            cases hpass.1
          cases hx.symm.trans hy
        · exact absurd (hpassed' n hm (by omega)) hstop
      · refine ⟨m, v, Nat.le_succ_of_le hm, fun i hi hlt => ?_, ?_, hv⟩
        · rcases Nat.lt_succ_iff_lt_or_eq.1 hlt with hlt | rfl
          · exact hpassed i hi hlt
          · exact ⟨hsome i hlt, hkeeps⟩
        · rwa [Lookout.kept_succ_of_not_keeps hkeeps]

/-! ### Operations -/

/-- Where a route has been opened, a lookahead is put behind it. -/
def World.looking (w : World) (L : Lookout) (negated : Bool) : World :=
  { w with cursors := w.cursors.push (L.cursor negated) }

/-- A lookahead asks its route nothing when it is opened. -/
theorem callOp_lookahead {r : Value} (hr : openRoute r w = .ok L.source u) (negated : Bool) (H : Host) :
    H.callOp (.lookahead negated) [r, L.f] L.named w =
      .ok (.ref .iterator u.cursors.size) (u.looking L negated) := by
  have hopen : openFilter (L.test negated) r w =
      .ok (.ref .iterator u.cursors.size) (u.looking L negated) := Act.bind_of_ok hr
  have hperform : H.perform (.lookahead negated)
      { bound := [some r, some L.f, L.least.map fun m => .int m, L.most.map fun m => .int m], extra := [] } w =
        .ok (.ref .iterator u.cursors.size) (u.looking L negated) := by
    refine Eq.trans ?_ hopen
    rw [Lookout.test]
    cases L.least <;> cases L.most <;> rfl
  refine (callOp_of_ok ?_ hperform).trans rfl
  rw [Lookout.named]
  cases L.least <;> cases L.most <;> rfl

open Classical in
/-- A lookahead at one element. -/
theorem Explored.exists_lookaheadElement {log : List Taken} (hL : Explored h g L stands)
    (hw : stands (.item log) w) (hx : L.items.get? log.length = some x)
    (hlimit : (L.limit : ℤ) ≤ sliceLimit) :
    ∃ v, h.callOp .lookaheadElement [x, L.f] L.named w =
        .ok (if L.Keeps false log.length then x else .null) v ∧
      stands (.between (log ++ [L.taken log.length])) v := by
  obtain ⟨v, hsize, hv⟩ := hL.exists_sizeAllowed hw hx hlimit
  refine ⟨v, ?_, hv⟩
  have hlooks := (congrFun (Lookout.looksAhead_eq h x) w).trans hsize
  have hperform : h.perform .lookaheadElement
      { bound := [some x, some L.f, L.least.map fun m => .int m, L.most.map fun m => .int m], extra := [] } w =
        .ok (if L.Keeps false log.length then x else .null) v := by
    have hkeeps : L.Keeps false log.length ↔ decide (L.Allows (L.size log.length)) = true := by
      simp [Lookout.Keeps]
    rw [if_congr hkeeps rfl rfl]
    have hanswer := Act.bind_of_ok (f := fun kept => pure (if kept then x else .null)) hlooks
    refine Eq.trans ?_ hanswer
    cases L.least <;> cases L.most <;> rfl
  have hbound : Op.lookaheadElement.signature.bind? [x, L.f] L.named =
      some ([some x, some L.f, L.least.map fun m => .int m, L.most.map fun m => .int m], []) := by
    rw [Lookout.named]
    cases L.least <;> cases L.most <;> rfl
  rw [callOp_of_ok hbound hperform]
  split
  · rw [handOut, hL.handed hx]
    rfl
  · rfl

/-- **A lookahead keeps, in order, the items whose routes have an allowed size.**  However it is read, it has
given what it keeps among the first items of its route, and has asked for no item behind the last one that
it has given; the function has been called once about each item, and from its route no more has been taken
than what decides.  The next read gives the next item that is kept, or ends with the route.  At one element,
a lookahead does the same; and to ask for one item at least is to ask without bounds. -/
theorem lookahead_keeps {r : Value} (hr : openRoute r w = .ok L.source u)
    (hL : Explored h u.cursors.size L stands) (hstands : stands (.between []) (u.looking L negated))
    (hlimit : (L.limit : ℤ) ≤ sliceLimit) (H : Host) :
    let g := u.cursors.size
    let opened := u.looking L negated
    H.callOp (.lookahead negated) [r, L.f] L.named w = .ok (.ref .iterator g) opened ∧
      (∀ ys v, Spaced h.above (.ref .iterator g) (Undisturbed g stands) opened ys v →
        ∃ n, ys = L.kept negated n ∧ (∀ i < n, (L.items.get? i).isSome) ∧
          (∀ i, n = i + 1 → L.Keeps negated i) ∧ stands (.between (L.log n)) v ∧
          L.Verdict h g negated stands n v) ∧
      (∀ n, (∀ i < n, (L.items.get? i).isSome) → n ≤ h.fuel →
        ∃ v, Reads h.above (.ref .iterator g) (L.kept negated n) opened v) ∧
      (∀ log v x, stands (.item log) v → L.items.get? log.length = some x →
        ∃ t, h.callOp .lookaheadElement [x, L.f] L.named v =
            .ok (open Classical in if L.Keeps false log.length then x else .null) t ∧
          stands (.between (log ++ [L.taken log.length])) t) ∧
      ∀ f x, (Test.looksAhead f (.int 1) .null negated).holds H x =
        (Test.looksAhead f .null .null negated).holds H x := by
  intro g opened
  have hopened : Looking g L negated stands 0 opened := ⟨Array.getElem?_push_size, hstands⟩
  refine ⟨callOp_lookahead hr negated H, fun ys v hread => ?_, fun n hsome hfuel => ?_,
    fun log v x hv hx => hL.exists_lookaheadElement hv hx hlimit,
    fun f x => holds_looksAhead_one H f negated x⟩
  · obtain ⟨n, hys, hsome, hlast, hv⟩ := hopened.exists_of_reads hread hL hlimit
    exact ⟨n, hys, hsome, hlast, hv.standing, hv.verdict hL hlimit⟩
  · obtain ⟨m, v, -, -, hreads, -⟩ := hopened.exists_reads hL hlimit hsome hfuel
    exact ⟨v, hreads⟩

/-! ### Rows at hand, and a count that does not end -/

section

variable {k : Host} {p c : ℕ} {rows : List (List ℤ)} {log : List Taken} {t : Taken}

/-- A row of numbers. -/
def rowOf (row : List ℤ) : Value := .tuple (row.map .int) (some 0)

/-- Rows, and the count at `c` behind them. -/
def rowsAndCount (c : ℕ) (rows : List (List ℤ)) : List Value := rows.map rowOf ++ [Value.ref .iterator c]

/-- A lookahead over rows and a count that asks for the number of their items. -/
noncomputable def rowsLookout (p c : ℕ) (rows : List (List ℤ)) (least most : Option ℕ) : Lookout where
  source := .ref .iterator p
  items := .ofList (rowsAndCount c rows)
  f := .op .iterator
  size i := (rows[i]?).elim ⊤ fun row => row.length
  least := least
  most := most

/-- Where a row or the count stands when something has been taken from it. -/
def PartStands (p g c : ℕ) (rows : List (List ℤ)) (i : ℕ) (it : Value) (t : Taken) (w : World) : Prop :=
  match rows[i]? with
  | none => it = .ref .iterator c
  | some row => ∃ q, it = .ref .iterator q ∧ q ≠ p ∧ q ≠ g ∧ q ≠ c ∧
      w.cursors[q]? = some (.items .tuple ((row.map Value.int).drop t.items))

/-- Where the rows stand when `n` of them have been given. -/
structure RowsStand (p g c : ℕ) (rows : List (List ℤ)) (n : ℕ) (w : World) : Prop where
  rest : w.cursors[p]? = some (.items .tuple ((rowsAndCount c rows).drop n))
  count : ∃ a : ℤ, w.cursors[c]? = some (.countFrom (.int a) (.int 1))
  place : g < w.cursors.size

/-- Where the rows stand when a lookahead has come so far. -/
def rowsStand (p g c : ℕ) (rows : List (List ℤ)) : Phase → World → Prop
  | .between log, w => RowsStand p g c rows log.length w
  | .item log, w => RowsStand p g c rows (log.length + 1) w
  | .made log r, w => RowsStand p g c rows (log.length + 1) w ∧ PartStands p g c rows log.length r ⟨0, false⟩ w
  | .inside log it t, w => RowsStand p g c rows (log.length + 1) w ∧ PartStands p g c rows log.length it t w

/-- A cursor that moves at another place leaves the rows where they stand. -/
theorem RowsStand.moved {q : ℕ} (hw : RowsStand p g c rows n w) (d : Cursor) (hp : q ≠ p) (hc : q ≠ c) :
    RowsStand p g c rows n (w.withCursor q d) where
  rest := (Array.getElem?_setIfInBounds_ne hp).trans hw.rest
  count := hw.count.imp fun _ ha => (Array.getElem?_setIfInBounds_ne hc).trans ha
  place := hw.place.trans_eq (size_withCursor ..).symm

/-- The count goes on. -/
theorem RowsStand.counted (hw : RowsStand p g c rows n w) (a : ℤ) (hpc : p ≠ c) :
    RowsStand p g c rows n (w.withCursor c (.countFrom (.int a) (.int 1))) where
  rest := (Array.getElem?_setIfInBounds_ne hpc.symm).trans hw.rest
  count := ⟨a, getElem?_setCursor hw.count.choose_spec⟩
  place := hw.place.trans_eq (size_withCursor ..).symm

/-- A new cursor leaves the rows where they stand. -/
theorem RowsStand.pushed (hw : RowsStand p g c rows n w) (d : Cursor) :
    RowsStand p g c rows n { w with cursors := w.cursors.push d } where
  rest := by
    have hlt := (Array.getElem?_eq_some_iff.1 hw.rest).1
    rw [Array.getElem?_push_lt hlt, ← hw.rest, Array.getElem?_eq_getElem hlt]
  count := by
    obtain ⟨a, ha⟩ := hw.count
    have hlt := (Array.getElem?_eq_some_iff.1 ha).1
    exact ⟨a, by rw [Array.getElem?_push_lt hlt, ← ha, Array.getElem?_eq_getElem hlt]⟩
  place := by
    rw [Array.size_push]
    exact Nat.lt_succ_of_lt hw.place

/-- The next number of a count. -/
theorem pull_count {a : ℤ} (hc : w.cursors[c]? = some (.countFrom (.int a) (.int 1))) (hk : 0 < k.fuel) :
    k.above.pull (.ref .iterator c) w =
      .ok (some (.int a)) (w.withCursor c (.countFrom (.int (a + 1)) (.int 1))) := by
  refine pull_of_turn hc rfl (r := .give (.int a)) rfl rfl ?_ hk
  rintro _ ⟨⟩
  rfl

theorem getElem?_rowsAndCount (hx : (rowsAndCount c rows)[i]? = some x) :
    (∃ row, rows[i]? = some row ∧ x = rowOf row) ∨ rows[i]? = none ∧ x = .ref .iterator c := by
  rw [rowsAndCount] at hx
  rcases Nat.lt_or_ge i rows.length with hlt | hge
  · rw [List.getElem?_append_left (by rwa [List.length_map]), List.getElem?_map] at hx
    obtain ⟨row, hrow, rfl⟩ := Option.map_eq_some_iff.1 hx
    exact .inl ⟨row, hrow, rfl⟩
  · rw [List.getElem?_append_right (by rwa [List.length_map])] at hx
    exact .inr ⟨List.getElem?_eq_none hge, List.mem_singleton.1 (List.mem_of_getElem? hx)⟩

theorem get?_rowsLookout (least most : Option ℕ) (i : ℕ) :
    (rowsLookout p c rows least most).items.get? i = (rowsAndCount c rows)[i]? :=
  Stream'.Seq.ofList_get? ..

theorem unmarked_rowsAndCount (hx : (rowsAndCount c rows)[i]? = some x) : x.unmarked = false := by
  rcases getElem?_rowsAndCount hx with ⟨row, -, rfl⟩ | ⟨-, rfl⟩ <;> rfl

/-- The next row, or the count. -/
theorem RowsStand.exists_item (hw : RowsStand p g c rows n w) (hx : (rowsAndCount c rows)[n]? = some x)
    (hpc : p ≠ c) (hk : 0 < k.fuel) :
    ∃ v, k.above.pull (.ref .iterator p) w = .ok (some x) v ∧ RowsStand p g c rows (n + 1) v := by
  obtain ⟨hlt, hget⟩ := List.getElem?_eq_some_iff.1 hx
  have hrest := hw.rest
  rw [List.drop_eq_getElem_cons hlt, hget] at hrest
  refine ⟨_, pull_items hrest (unmarked_rowsAndCount hx) hk, getElem?_setCursor hrest,
    hw.count.imp fun _ ha => (Array.getElem?_setIfInBounds_ne hpc).trans ha,
    hw.place.trans_eq (size_withCursor ..).symm⟩

theorem partStands_of_row {it : Value} {row : List ℤ} (hrow : rows[i]? = some row) :
    PartStands p g c rows i it t w ↔ ∃ q, it = .ref .iterator q ∧ q ≠ p ∧ q ≠ g ∧ q ≠ c ∧
      w.cursors[q]? = some (.items .tuple ((row.map Value.int).drop t.items)) := by
  rw [PartStands, hrow]

theorem partStands_of_none {it : Value} (hnone : rows[i]? = none) :
    PartStands p g c rows i it t w ↔ it = .ref .iterator c := by
  rw [PartStands, hnone]

/-- What is opened is an iterator already. -/
theorem PartStands.exists_iterator {it : Value} (hpart : PartStands p g c rows i it t w) :
    ∃ q, it = .ref .iterator q := by
  cases hrow : rows[i]? with
  | none => exact ⟨c, (partStands_of_none hrow).1 hpart⟩
  | some row => exact ((partStands_of_row hrow).1 hpart).imp fun _ hq => hq.1

theorem PartStands.moved {it : Value} (hpart : PartStands p g c rows i it t w) (d : Cursor) :
    PartStands p g c rows i it t (w.withCursor g d) := by
  cases hrow : rows[i]? with
  | none => exact (partStands_of_none hrow).2 ((partStands_of_none hrow).1 hpart)
  | some row =>
      obtain ⟨q, rfl, hqp, hqg, hqc, hq⟩ := (partStands_of_row hrow).1 hpart
      exact (partStands_of_row hrow).2
        ⟨q, rfl, hqp, hqg, hqc, (Array.getElem?_setIfInBounds_ne hqg.symm).trans hq⟩

/-- The function opens a row, or passes on the count. -/
theorem RowsStand.exists_part (hw : RowsStand p g c rows n w) (hx : (rowsAndCount c rows)[i]? = some x) :
    ∃ it v, k.above.apply (.op .iterator) [x] w = .ok it v ∧ RowsStand p g c rows n v ∧
      PartStands p g c rows i it ⟨0, false⟩ v := by
  rcases getElem?_rowsAndCount hx with ⟨row, hrow, rfl⟩ | ⟨hnone, rfl⟩
  · have hp := (Array.getElem?_eq_some_iff.1 hw.rest).1
    obtain ⟨a, ha⟩ := hw.count
    have hc := (Array.getElem?_eq_some_iff.1 ha).1
    exact ⟨.ref .iterator w.cursors.size, _, rfl, hw.pushed _, (partStands_of_row hrow).2
      ⟨_, rfl, hp.ne', hw.place.ne', hc.ne', Array.getElem?_push_size⟩⟩
  · exact ⟨.ref .iterator c, w, rfl, hw, (partStands_of_none hnone).2 rfl⟩

/-- A number more from a row, or from the count. -/
theorem RowsStand.exists_more {it : Value} {m : ℕ} {least most : Option ℕ} (hw : RowsStand p g c rows n w)
    (hpart : PartStands p g c rows i it ⟨m, false⟩ w)
    (hm : m < (rowsLookout p c rows least most).size i) (hpc : p ≠ c) (hk : 0 < k.fuel) :
    ∃ x v, k.above.pull it w = .ok (some x) v ∧ RowsStand p g c rows n v ∧
      PartStands p g c rows i it ⟨m + 1, false⟩ v := by
  change _ < (rows[i]?).elim ⊤ fun row => (row.length : ℕ∞) at hm
  cases hrow : rows[i]? with
  | none =>
      obtain rfl := (partStands_of_none hrow).1 hpart
      obtain ⟨a, ha⟩ := hw.count
      exact ⟨.int a, _, pull_count ha hk, hw.counted _ hpc, (partStands_of_none hrow).2 rfl⟩
  | some row =>
      rw [hrow] at hm
      obtain ⟨q, rfl, hqp, hqg, hqc, hq⟩ := (partStands_of_row hrow).1 hpart
      have hlt : m < (row.map Value.int).length := by
        rw [List.length_map]
        exact Nat.cast_lt.1 hm
      rw [List.drop_eq_getElem_cons hlt] at hq
      refine ⟨_, _, pull_items hq ?_ hk, hw.moved _ hqp hqc,
        (partStands_of_row hrow).2 ⟨q, rfl, hqp, hqg, hqc, getElem?_setCursor hq⟩⟩
      rw [List.getElem_map]
      rfl

/-- The end of a row. -/
theorem PartStands.pull_end {it : Value} {m : ℕ} {least most : Option ℕ}
    (hpart : PartStands p g c rows i it ⟨m, false⟩ w)
    (hm : m = (rowsLookout p c rows least most).size i) (hk : 0 < k.fuel) :
    k.above.pull it w = .ok none w ∧ PartStands p g c rows i it ⟨m, true⟩ w := by
  change _ = (rows[i]?).elim ⊤ fun row => (row.length : ℕ∞) at hm
  cases hrow : rows[i]? with
  | none =>
      rw [hrow] at hm
      cases hm
  | some row =>
      rw [hrow] at hm
      obtain ⟨q, rfl, hqp, hqg, hqc, hq⟩ := (partStands_of_row hrow).1 hpart
      have hle : (row.map Value.int).length ≤ m := by
        rw [List.length_map]
        exact (Nat.cast_inj.1 hm).ge
      have hdrop := hq
      rw [List.drop_eq_nil_of_le hle] at hdrop
      exact ⟨pull_items_nil hdrop hk, (partStands_of_row hrow).2 ⟨q, rfl, hqp, hqg, hqc, hq⟩⟩

/-- Rows and a count can be looked into from any place. -/
theorem explored_rows (hk : 0 < k.fuel) (rows : List (List ℤ)) (least most : Option ℕ) (hpg : p ≠ g)
    (hcg : c ≠ g) (hpc : p ≠ c) :
    Explored k.above g (rowsLookout p c rows least most) (rowsStand p g c rows) where
  item hw hx := RowsStand.exists_item hw (get?_rowsLookout least most _ ▸ hx) hpc hk
  finishes {log w} hw hx := by
    rw [get?_rowsLookout] at hx
    have hrest := hw.rest
    rw [List.drop_eq_nil_of_le (List.getElem?_eq_none_iff.1 hx)] at hrest
    exact ⟨w, pull_items_nil hrest hk, hw⟩
  called hw hx := RowsStand.exists_part hw (get?_rowsLookout least most _ ▸ hx)
  opened {log r w} hw := by
    obtain ⟨q, rfl⟩ := hw.2.exists_iterator
    exact ⟨.ref .iterator q, w, rfl, hw⟩
  more hw hn := hw.1.exists_more hw.2 hn hpc hk
  ends {log it n w} hw hn := by
    obtain ⟨hpull, hpart⟩ := hw.2.pull_end hn hk
    exact ⟨w, hpull, hw.1, hpart⟩
  left {log it t w} hw := by
    rw [rowsStand, List.length_append, List.length_singleton]
    exact hw.1
  moved {phase w} hw d := by
    cases phase with
    | between | item => exact RowsStand.moved hw d hpg.symm hcg.symm
    | made | inside => exact ⟨hw.1.moved d hpg.symm hcg.symm, hw.2.moved d⟩
  placed {phase w} hw := by
    cases phase with
    | between | item => exact RowsStand.place hw
    | made | inside => exact hw.1.place
  handed hx := unmarked_rowsAndCount (get?_rowsLookout least most _ ▸ hx)

end

/-- A world with a count from zero. -/
def counting : World where
  cursors := #[.countFrom (.int 0) (.int 1)]

/-- Of rows of none to three numbers, and a count that does not end, those of one or two numbers are kept. -/
theorem lookahead_keeps_rows :
    ∃ w v, (host 4).callOp (.lookahead false)
        [.tuple (rowsAndCount 0 [[], [7], [7, 8], [7, 8, 9]]) none, .op .iterator]
        [("min_count", .int 1), ("max_count", .int 2)] counting = .ok (.ref .iterator 2) w ∧
      Reads (host 4) (.ref .iterator 2) [rowOf [7], rowOf [7, 8]] w v := by
  let rows : List (List ℤ) := [[], [7], [7, 8], [7, 8, 9]]
  let L := rowsLookout 1 0 rows (some 1) (some 2)
  have hexplored : Explored (host 3) 2 L (rowsStand 1 2 0 rows) :=
    explored_rows (k := host 2) (by decide) rows (some 1) (some 2) (by decide) (by decide) (by decide)
  have hstands : rowsStand 1 2 0 rows (.between [])
      (World.looking { cursors := #[.countFrom (.int 0) (.int 1), .items .tuple (rowsAndCount 0 rows)] } L false) :=
    ⟨rfl, ⟨0, rfl⟩, by decide⟩
  obtain ⟨hopen, -, hreads, -⟩ := lookahead_keeps (L := L) (h := host 3) (w := counting)
    (u := { cursors := #[.countFrom (.int 0) (.int 1), .items .tuple (rowsAndCount 0 rows)] })
    (r := .tuple (rowsAndCount 0 rows) none) rfl hexplored hstands (by decide) (host 4)
  have hitem : ∀ i, L.items.get? i = (rowsAndCount 0 rows)[i]? := get?_rowsLookout (some 1) (some 2)
  obtain ⟨v, hv⟩ := hreads 5 (fun i hi => by rw [hitem]; simp [rowsAndCount, rows]; omega) (by decide)
  have hkeeps : ∀ i, L.Keeps false i ↔ 1 ≤ L.size i ∧ L.size i ≤ 2 := by
    intro i
    simp [Lookout.Keeps, Lookout.Allows, L, rowsLookout]
  have hsize : [L.size 0, L.size 1, L.size 2, L.size 3, L.size 4] = [0, 1, 2, 3, ⊤] := rfl
  simp only [List.cons.injEq, and_true] at hsize
  obtain ⟨h0, h1, h2, h3, h4⟩ := hsize
  have hkept : L.kept false 5 = [rowOf [7], rowOf [7, 8]] := by
    rw [Lookout.kept_succ_of_not_keeps (by simp [hkeeps, h4]),
      Lookout.kept_succ_of_not_keeps (by rw [hkeeps, h3]; decide),
      Lookout.kept_succ_of_keeps (hitem 2) (by rw [hkeeps, h2]; decide),
      Lookout.kept_succ_of_keeps (hitem 1) (by rw [hkeeps, h1]; decide),
      Lookout.kept_succ_of_not_keeps (by simp [hkeeps, h0])]
    rfl
  exact ⟨_, v, hopen, hkept ▸ hv⟩

/-- A world with a function that returns no items at all. -/
def emptyHanded : World where
  functions := #[.constant (.tuple [] (some 0))]

/-- Nothing is not too much, but a lookahead cannot count up to `2 ^ 63`. -/
theorem not_lookahead_keeps_always :
    (∀ L : Lookout, L.least = none → L.most = some 9223372036854775807 → L.Allows 0) ∧
      ∃ w u v, (host 4).callOp (.lookahead false) [.tuple [.int 1] none, .ref .function 0]
          [("max_count", .int 9223372036854775807)] emptyHanded = .ok (.ref .iterator 1) w ∧
        (host 3).apply (.ref .function 0) [.int 1] w = .ok (.tuple [] (some 0)) u ∧
        (host 4).pull (.ref .iterator 1) w = .error .badValue v := by
  refine ⟨fun L hleast hmost => ?_, _, _, _, rfl, rfl, rfl⟩
  simp [Lookout.Allows, hleast, hmost]

end GraphRoutes.Session
