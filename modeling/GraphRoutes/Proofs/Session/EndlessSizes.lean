/-
**An alternation ends when its sizes do.**

Only the sizes tell when an alternation ends.  So one that has given all that it keeps of a finite collection
comes to its end if there are finitely many sizes; but if they never end, it draws one size after the other, and
the next read does not come to an end, however many steps it may take.

Main definitions:

* `GraphRoutes.Session.ones` — the size 1, again and again.

Main results:

* `GraphRoutes.Session.Sliced.Held.exists_endless` — a read that does not come to an end;
* `GraphRoutes.Session.alternation_ends_with_sizes` — **an alternation of a finite collection ends if and only if
  its sizes do**.
-/
import GraphRoutes.Proofs.Session.Alternations

set_option relaxedAutoImplicit false
set_option autoImplicit false

namespace GraphRoutes.Session

open Filter
open World Value Route

variable {h : Host} {g m n L N : ℕ} {S : Sliced} {stands : Sliced.Phase → World → Prop} {u v w : World}
  {left : Option ℕ}

/-- How many steps a read may take does not matter to what it draws from. -/
theorem Supplied.grant (hS : Supplied h g S stands) (N : ℕ) : Supplied (h.grant N) g S stands where
  opens := hS.opens
  size := hS.size
  noSize := hS.noSize
  item := hS.item
  noItem := hS.noItem
  moved := hS.moved
  placed := hS.placed
  handed := hS.handed

namespace Sliced

/-- What has been kept stays there. -/
theorem kept_prefix {n' : ℕ} (hn : n ≤ n') : S.kept n <+: S.kept n' := by
  induction n', hn using Nat.le_induction with
  | base => exact List.prefix_rfl
  | succ n' hn ih =>
      refine ih.trans ?_
      by_cases hkeeps : (S.items.get? n').isSome ∧ S.Keeps n'
      · obtain ⟨x, hx⟩ := Option.isSome_iff_exists.1 hkeeps.1
        rw [kept_succ_of_keeps hx hkeeps.2]
        exact List.prefix_append _ _
      · rw [kept_eq_of_le (Nat.le_succ n') fun i hi hlt hsome hk => ?_]
        obtain rfl := Nat.le_antisymm hi (Nat.le_of_lt_succ hlt)
        exact hkeeps ⟨hsome, hk⟩

/-- Where everything has been kept that is kept of a finite collection, nothing more is. -/
theorem not_keeps_of_kept_eq (hL : S.items.get? L = none) (hkept : S.kept n = S.kept L) {j : ℕ} (hj : n ≤ j)
    (hsome : (S.items.get? j).isSome) : ¬S.Keeps j := by
  intro hkeeps
  obtain ⟨x, hx⟩ := Option.isSome_iff_exists.1 hsome
  have hlt : j < L := by
    by_contra hge
    cases hx.symm.trans (Stream'.Seq.le_stable S.items (Nat.le_of_not_lt hge) hL)
  have hbefore := (S.kept_prefix hj).length_le
  have hafter := (S.kept_prefix hlt).length_le
  rw [kept_succ_of_keeps hx hkeeps, List.length_append, List.length_singleton, ← hkept] at hafter
  omega

/-- If no slice is empty, there are no more slices than items in them. -/
theorem le_start (hpos : ∀ j k, S.lengths.get? j = some k → 0 < k) (hdrawn : ∀ j < m, (S.lengths.get? j).isSome) :
    m ≤ S.start m := by
  induction m with
  | zero => exact Nat.zero_le _
  | succ m ih =>
      obtain ⟨k, hk⟩ := Option.isSome_iff_exists.1 (hdrawn m (Nat.lt_succ_self m))
      rw [start_succ hk]
      exact Nat.add_le_add (ih fun j hj => hdrawn j (Nat.lt_succ_of_lt hj)) (hpos m k hk)

/-- So it does not take many steps to come to an item. -/
theorem Reached.rank_le_of_pos (hreached : S.Reached m n left) (hpos : ∀ j k, S.lengths.get? j = some k → 0 < k)
    (hsome : (S.items.get? n).isSome) : rank m n left ≤ 3 * n + 3 := by
  have hhere : n + left.getD 0 = S.start m := by
    refine hreached.here.resolve_right fun hnone => ?_
    rw [hnone] at hsome
    cases hsome
  rw [rank]
  cases left with
  | none =>
      have hm := S.le_start hpos hreached.drawn
      simp only [Option.getD_none] at hhere
      simp only [Option.isNone_none, if_true]
      omega
  | some l =>
      obtain ⟨j, k, rfl, hk, hl⟩ := hreached.within l rfl
      have hj := S.le_start hpos fun i hi => hreached.drawn i (Nat.lt_succ_of_lt hi)
      rw [start_succ hk, Option.getD_some] at hhere
      simp only [Option.isNone_some, Bool.false_eq_true, if_false]
      omega

/-- **A read that does not come to an end**: the sizes go on, and nothing more is kept. -/
theorem Held.exists_endless (hw : S.Held g stands n w) (hS : Supplied h g S stands)
    (hlimit : ∀ j k, S.lengths.get? j = some k → (k : ℤ) ≤ sliceLimit) (hendless : ∀ m, S.lengths.get? m ≠ none)
    (hnone : ∀ j, n ≤ j → (S.items.get? j).isSome → ¬S.Keeps j) :
    ∃ v, h.above.pull (.ref .iterator g) w = .error .outOfFuel v := by
  rcases hw.exists_read hS hlimit with ⟨j, x, v, hj, hx, hkeeps, -⟩ | ⟨m, j, phase, v, -, hm, -⟩ |
    ⟨m, j, left, v, -, -, -, -, hpull⟩
  · refine absurd hkeeps (hnone j hj ?_)
    rw [hx]
    rfl
  · exact absurd hm (hendless m)
  · exact ⟨v, hpull⟩

end Sliced

/-- **An alternation of a finite collection ends if and only if its sizes do.**  Let the sizes be positive, none of
them too large to count with, and let the collection have at most `L` items.  All that is kept can be read.  When
it has been, however that was done, and whatever has gone on in between, then the next read ends if there are
finitely many sizes; but if the sizes never end, then neither does the read, however many steps it may take. -/
theorem alternation_ends_with_sizes (hL : S.items.get? L = none) (hS : Supplied h w.cursors.size S stands)
    (hpos : ∀ j k, S.lengths.get? j = some k → 0 < k)
    (hlimit : ∀ j k, S.lengths.get? j = some k → (k : ℤ) ≤ sliceLimit)
    (hstands : stands .waiting (w.sliced S)) (H : Host) :
    let it : Value := .ref .iterator w.cursors.size
    let opened := w.sliced S
    H.callOp (.alternate S.keepFirst) [S.steps, S.collection] [] w = .ok it opened ∧
    (∀ᶠ N in atTop, ∃ v, Reads (h.grant N).above it (S.kept L) opened v) ∧
    ∀ N v, Spaced (h.grant N).above it (Undisturbed w.cursors.size stands) opened (S.kept L) v →
      ((∃ M, S.lengths.get? M = none) → ∀ᶠ N in atTop, ∃ u, (h.grant N).above.pull it v = .ok none u) ∧
      ((∀ M, S.lengths.get? M ≠ none) → ∀ N, ∃ u, (h.grant N).above.pull it v = .error .outOfFuel u) := by
  intro it opened
  have hheld := held_sliced hstands
  refine ⟨callOp_alternate S H w, ?_, fun N v hread => ?_⟩
  · filter_upwards [eventually_gt_atTop (3 * L + 3)] with N hN
    obtain ⟨m, v, -, -, hreads, -⟩ := hheld.exists_reads (hS.grant N) hlimit L
      fun m j left i hreached hi hj hsome _ => by
        have hrank := hreached.rank_le_of_pos hpos (Option.isSome_iff_ne_none.2 fun hnone => by
          rw [Stream'.Seq.le_stable S.items hj hnone] at hsome
          cases hsome)
        change Sliced.rank m j left < N
        omega
    exact ⟨v, hreads⟩
  · obtain ⟨n, hys, -, -, hv⟩ := hheld.exists_of_reads hread (hS.grant N) hlimit
    have hnone : ∀ j, n ≤ j → (S.items.get? j).isSome → ¬S.Keeps j := fun j hj hsome =>
      S.not_keeps_of_kept_eq hL hys.symm hj hsome
    refine ⟨fun ⟨M, hM⟩ => ?_, fun hendless N => hv.exists_endless (hS.grant N) hlimit hendless hnone⟩
    filter_upwards [eventually_gt_atTop (2 * M + S.start M + 1)] with N hN
    obtain ⟨-, u, hpull, -⟩ := (hv.verdict (hS.grant N) hlimit hM hN).ends hnone
    exact ⟨u, hpull⟩

/-! ### One size, again and again -/

/-- The size 1, again and again. -/
def ones : Stream'.Seq ℕ := Stream'.Seq.ofStream (Stream'.const 1)

theorem get?_ones (m : ℕ) : ones.get? m = some 1 := rfl

/-- A count that stays at 1. -/
def staying : Cursor := .countFrom (.int 1) (.int 0)

theorem pull_staying {k : Host} {c : ℕ} (hc : w.cursors[c]? = some staying) (hk : 0 < k.fuel) :
    k.above.pull (.ref .iterator c) w = .ok (some (.int 1)) (w.withCursor c staying) := by
  refine pull_of_turn hc rfl (r := .give (.int 1)) rfl rfl ?_ hk
  rintro _ ⟨⟩
  rfl

/-- A count that stays at 1 gives endless sizes. -/
theorem supplied_ones {k : Host} (hk : 0 < k.fuel) {g : ℕ} (hg : 0 < g) (xs : List ℤ) (keepFirst : Bool) :
    Supplied k.above g (slicedNumbers (.ref .iterator 0) ones xs keepFirst)
      (slicedStand g (fun _ => staying) xs fun w => w.cursors[0]? = some staying) := by
  refine supplied_numbers hk _ keepFirst (fun w hw hgw => ?_) (fun a m k' w hw hk' => ?_) (fun a m w _ hm => ?_)
    fun w c hw => (Array.getElem?_setIfInBounds_ne hg.ne').trans hw
  · have h0 := Nat.lt_trans hg hgw
    refine ⟨_, _, _, _, rfl, rfl, 0, w.cursors.size, rfl, rfl, ?_, Array.getElem?_push_size, ?_, ?_⟩
    · change (w.cursors.push _)[0]? = some staying
      rw [Array.getElem?_push_lt h0, ← hw, Array.getElem?_eq_getElem h0]
    · simp only [Array.size_push]
      omega
    · omega
  · cases (get?_ones m).symm.trans hk'
    exact pull_staying hw hk
  · cases (get?_ones m).symm.trans hm

/-- A world with a count that stays at 1. -/
def standstill : World where
  cursors := #[staying]

/-- One item behind endless sizes. -/
def oneOfOnes : Sliced := slicedNumbers (.ref .iterator 0) ones [7] true

theorem get?_oneOfOnes (i : ℕ) : oneOfOnes.items.get? i = [Value.int 7][i]? := get?_slicedNumbers ..

/-- Where the sizes and the item stand. -/
def onesStand : Sliced.Phase → World → Prop :=
  slicedStand 1 (fun _ => staying) [7] fun w => w.cursors[0]? = some staying

theorem supplied_oneOfOnes : Supplied (host 2) 1 oneOfOnes onesStand :=
  supplied_ones (k := host 1) (by decide) (by decide) [7] true

theorem onesStand_waiting : onesStand .waiting (standstill.sliced oneOfOnes) := ⟨rfl, by decide⟩

theorem kept_oneOfOnes : oneOfOnes.kept 1 = [.int 7] := by
  have hlies : oneOfOnes.Lies 0 0 := by
    rw [Sliced.Lies, Sliced.start_succ (get?_ones 0), oneOfOnes.start_zero]
    exact ⟨Nat.le_refl 0, Nat.one_pos⟩
  rw [Sliced.kept_succ_of_keeps (get?_oneOfOnes 0) (hlies.keeps_iff.2 oneOfOnes.keeping_zero)]
  rfl

theorem limit_ones (j k : ℕ) (hk : oneOfOnes.lengths.get? j = some k) : 0 < k ∧ (k : ℤ) ≤ sliceLimit := by
  cases (get?_ones j).symm.trans hk
  decide

/-- The only item is given, and the next read does not come to an end. -/
theorem alternation_ends_with_sizes_ones :
    ∃ w N v, (host 3).callOp (.alternate true) [.ref .iterator 0, .tuple [.int 7] none] [] standstill =
        .ok (.ref .iterator 1) w ∧
      Reads ((host 2).grant N).above (.ref .iterator 1) [.int 7] w v ∧
      ∀ N, ∃ u, ((host 2).grant N).above.pull (.ref .iterator 1) v = .error .outOfFuel u := by
  obtain ⟨hopen, hreads, hall⟩ := alternation_ends_with_sizes (w := standstill) (get?_oneOfOnes 1)
    supplied_oneOfOnes (fun j k hk => (limit_ones j k hk).1) (fun j k hk => (limit_ones j k hk).2)
    onesStand_waiting (host 3)
  obtain ⟨N, v, hv⟩ := hreads.exists
  have hendless := (hall N v (Spaced.start.of_reads hv)).2 fun M hM => nomatch (get?_ones M).symm.trans hM
  exact ⟨_, N, v, hopen, kept_oneOfOnes ▸ hv, hendless⟩

/-- The read behind the last item of a finite collection does not end if the sizes go on. -/
theorem not_alternation_ends_always :
    ∃ w v, (host 3).callOp (.alternate true) [.ref .iterator 0, .tuple [.int 7] none] [] standstill =
        .ok (.ref .iterator 1) w ∧
      (host 3).pull (.ref .iterator 1) w = .ok (some (.int 7)) v ∧
      ∀ N, ∃ u, ((host 2).grant N).above.pull (.ref .iterator 1) v = .error .outOfFuel u := by
  have hlimit := fun j k hk => (limit_ones j k hk).2
  have hheld : oneOfOnes.Held 1 onesStand 0 (standstill.sliced oneOfOnes) := held_sliced onesStand_waiting
  obtain ⟨m, v, -, hnone, hreads, hv⟩ := hheld.exists_reads supplied_oneOfOnes hlimit 1
    fun m j left i hreached hi hj _ _ => by
      obtain rfl : i = 0 := Nat.lt_one_iff.1 hi
      obtain rfl : j = 0 := Nat.le_zero.1 hj
      refine Nat.lt_of_le_of_lt (hreached.rank_le_of_pos (fun j k hk => (limit_ones j k hk).1) ?_) (by decide)
      rw [get?_oneOfOnes]
      rfl
  rw [kept_oneOfOnes] at hreads
  cases hreads with
  | item hpull hrest =>
      cases hrest
      refine ⟨_, v, rfl, hpull, fun N => hv.exists_endless (supplied_oneOfOnes.grant N) hlimit ?_ fun j hj hsome => ?_⟩
      · exact fun M hM => nomatch (get?_ones M).symm.trans hM
      · rcases Nat.lt_or_ge j 1 with hlt | hge
        · exact hnone j hj hlt hsome
        · rw [get?_oneOfOnes, List.getElem?_eq_none hge] at hsome
          cases hsome

end GraphRoutes.Session
