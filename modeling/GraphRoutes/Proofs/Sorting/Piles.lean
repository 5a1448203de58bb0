/-
**Sorting by keys sorts.**

A list is cut into runs, each of which is in order, and the runs are merged until one is left.  Whichever
runs are merged, and in whichever order, nothing is lost and what is merged is in order again.  So where
the test that compares keys compares ranks, the items are sorted by their ranks in the end.

Main definitions:

* `GraphRoutes.Sorting.Runs` — runs in order that together hold some items.

Main results:

* `GraphRoutes.Sorting.exists_firstRun`, `GraphRoutes.Sorting.exists_insert`,
  `GraphRoutes.Sorting.exists_longRun` — a run at the beginning of a list;
* `GraphRoutes.Sorting.Runs.exists_settle`, `GraphRoutes.Sorting.Runs.exists_collapse` — merging runs on a
  pile;
* `GraphRoutes.Sorting.exists_sortByKey` — **sorting by keys sorts**.
-/
import GraphRoutes.Proofs.Sorting.Merges
import GraphRoutes.Sorting.Stable

set_option relaxedAutoImplicit false
set_option autoImplicit false

namespace GraphRoutes.Sorting

variable {ε key α ρ : Type} [LinearOrder ρ] {lt : Less ε key} {rank : key × α → ρ}

/-! ### Runs -/

/-- A run that is given newest first: falling, each item comes before those that are older; rising, it
comes behind them. -/
def Falls (rank : key × α → ρ) (falling : Bool) (xs : List (key × α)) : Prop :=
  xs.Pairwise fun new old => if falling then rank new ≤ rank old else rank old ≤ rank new

/-- **A run goes on** as far as its items do, and nothing is lost. -/
theorem exists_runFrom {falling : Bool} {x : key × α} {run xs : List (key × α)}
    (hlt : Decides lt rank (x :: run ++ xs)) (hrun : Falls rank falling (x :: run)) :
    ∃ run' rest, runFrom lt falling x run xs = .ok (run', rest) ∧ Falls rank falling run' ∧
      run' ≠ [] ∧ run'.reverse ++ rest = (x :: run).reverse ++ xs := by
  induction xs generalizing x run with
  | nil => exact ⟨x :: run, [], rfl, hrun, List.cons_ne_nil x run, rfl⟩
  | cons y ys ih =>
      have hyx := hlt y (List.mem_append_right _ List.mem_cons_self) x List.mem_cons_self
      rw [runFrom, hyx]
      simp only [bind, Except.bind]
      split
      case isFalse => exact ⟨x :: run, y :: ys, rfl, hrun, List.cons_ne_nil x run, rfl⟩
      case isTrue hgoes =>
        rw [beq_iff_eq] at hgoes
        have hnew : ∀ z ∈ x :: run,
            if falling = true then rank y ≤ rank z else rank z ≤ rank y := by
          have hold := hrun
          cases falling with
          | true =>
              have hyx := (of_decide_eq_true hgoes).le
              exact List.forall_mem_cons.2 ⟨hyx, fun z hz =>
                hyx.trans (List.rel_of_pairwise_cons hold hz)⟩
          | false =>
              have hxy := le_of_not_gt (of_decide_eq_false hgoes)
              exact List.forall_mem_cons.2 ⟨hxy, fun z hz =>
                le_trans (List.rel_of_pairwise_cons hold hz) hxy⟩
        obtain ⟨run', rest, hrest, hfalls, hne, hitems⟩ :=
          ih (hlt.mono List.perm_middle.symm.subset) (List.pairwise_cons.2 ⟨hnew, hrun⟩)
        refine ⟨run', rest, hrest, hfalls, hne, ?_⟩
        rw [hitems, List.reverse_cons (a := y), List.append_assoc, List.singleton_append]

/-- **The run at the beginning of a list** is in order, and it is not empty unless the list is. -/
theorem exists_firstRun {xs : List (key × α)} (hlt : Decides lt rank xs) :
    ∃ run rest, firstRun lt xs = .ok (run, rest) ∧ InOrder rank run ∧ (run ++ rest).Perm xs ∧
      (xs ≠ [] → run ≠ []) := by
  match xs with
  | [] => exact ⟨[], [], rfl, .nil, .nil, fun h => h⟩
  | [x] => exact ⟨[x], [], rfl, List.pairwise_singleton _ x, .refl _, fun _ => List.cons_ne_nil x []⟩
  | x :: y :: ys =>
      have hyx := hlt y (by simp) x (by simp)
      have hstart : Falls rank (decide (rank y < rank x)) [y, x] := by
        refine List.pairwise_pair.2 ?_
        split
        case isTrue h => exact (of_decide_eq_true h).le
        case isFalse h => exact le_of_not_gt fun hlt => h (decide_eq_true hlt)
      obtain ⟨run, rest, hrun, hfalls, hne, hitems⟩ :=
        exists_runFrom (hlt.mono (List.Perm.swap x y ys).subset) hstart
      have hperm : (run ++ rest).Perm (x :: y :: ys) := by
        calc (run ++ rest).Perm (run.reverse ++ rest) := run.reverse_perm.symm.append_right rest
          _ = x :: y :: ys := hitems
      rw [firstRun, hyx]
      simp only [bind, Except.bind, hrun]
      cases hfalling : decide (rank y < rank x) with
      | true =>
          rw [hfalling] at hfalls
          exact ⟨run, rest, rfl, hfalls, hperm, fun _ => hne⟩
      | false =>
          rw [hfalling] at hfalls
          exact ⟨run.reverse, rest, rfl, List.pairwise_reverse.2 hfalls, .of_eq hitems,
            fun _ => List.reverse_ne_nil_iff.2 hne⟩

/-- An item that is inserted stands between what was in front of its place and what was behind. -/
theorem insertIdx_eq {β : Type} {xs : List β} {n : ℕ} (hn : n ≤ xs.length) (x : β) :
    xs.insertIdx n x = xs.take n ++ x :: xs.drop n := by
  induction n generalizing xs with
  | zero => rfl
  | succ n ih =>
      obtain ⟨y, ys, rfl⟩ := List.exists_cons_of_length_pos (Nat.zero_lt_of_lt hn)
      rw [List.insertIdx_succ_cons, ih (Nat.le_of_succ_le_succ hn)]
      rfl

/-- **An item is put into its place** among items in order. -/
theorem exists_insert {sorted : Array (key × α)} {x : key × α} (hlt : Decides lt rank (x :: sorted.toList))
    (hsorted : InOrder rank sorted.toList) :
    ∃ sorted', insert lt sorted x = .ok sorted' ∧ InOrder rank sorted'.toList ∧
      sorted'.toList.Perm (x :: sorted.toList) := by
  have hmono : sorted.toList.Pairwise fun u v => rank x < rank u → rank x < rank v :=
    hsorted.imp fun huv hu => lt_of_lt_of_le hu huv
  have htest : ∀ p (hp : p < sorted.toList.length),
      belowAt lt x.1 sorted p = .ok (decide (rank x < rank sorted.toList[p])) := fun p hp =>
    belowAt_eq (by rw [← Array.getElem?_toList, List.getElem?_eq_getElem hp])
      (hlt x List.mem_cons_self _ (List.mem_cons_of_mem x (List.getElem_mem hp)))
  obtain ⟨n, hhalve, hn, htake, hdrop⟩ := exists_halve hmono htest
  rw [Array.length_toList] at hhalve
  have hitems : (sorted.insertIdxIfInBounds n x).toList =
      sorted.toList.take n ++ x :: sorted.toList.drop n := by
    rw [Array.insertIdxIfInBounds, dif_pos (Array.length_toList ▸ hn), Array.toList_insertIdx,
      insertIdx_eq hn]
  refine ⟨sorted.insertIdxIfInBounds n x, ?_, ?_, ?_⟩
  · rw [insert, hhalve]
    rfl
  · rw [hitems]
    have hrest : InOrder rank (x :: sorted.toList.drop n) :=
      List.pairwise_cons.2 ⟨fun v hv => (hdrop v hv).le, hsorted.drop⟩
    refine hsorted.take.append hrest fun u hu v hv => ?_
    have hux := le_of_not_gt (htake u hu)
    rcases List.mem_cons.1 hv with rfl | hv
    · exact hux
    · exact hux.trans (hdrop v hv).le
  · rw [hitems]
    calc (sorted.toList.take n ++ x :: sorted.toList.drop n).Perm
          (x :: (sorted.toList.take n ++ sorted.toList.drop n)) := List.perm_middle
      _ = x :: sorted.toList := by rw [List.take_append_drop]

/-- Items are put into their places, one after the other. -/
theorem exists_insertAll {xs : List (key × α)} {sorted : Array (key × α)}
    (hlt : Decides lt rank (sorted.toList ++ xs)) (hsorted : InOrder rank sorted.toList) :
    ∃ sorted', xs.foldlM (insert lt) sorted = .ok sorted' ∧ InOrder rank sorted'.toList ∧
      sorted'.toList.Perm (sorted.toList ++ xs) := by
  induction xs generalizing sorted with
  | nil => exact ⟨sorted, rfl, hsorted, by rw [List.append_nil]⟩
  | cons x xs ih =>
      have hfirst : x :: sorted.toList ⊆ sorted.toList ++ x :: xs :=
        List.cons_subset.2 ⟨List.mem_append_right _ List.mem_cons_self, List.subset_append_left _ _⟩
      obtain ⟨sorted₁, hinsert, hsorted₁, hperm₁⟩ := exists_insert (hlt.mono hfirst) hsorted
      have hperm : (sorted₁.toList ++ xs).Perm (sorted.toList ++ x :: xs) :=
        (hperm₁.append_right xs).trans List.perm_middle.symm
      obtain ⟨sorted', hfold, hsorted', hperm'⟩ := ih (hlt.mono hperm.subset) hsorted₁
      refine ⟨sorted', ?_, hsorted', hperm'.trans hperm⟩
      rw [List.foldlM_cons, hinsert]
      exact hfold

/-- **The run at the beginning of a list, made long enough**, is in order, and it is not empty unless the
list is. -/
theorem exists_longRun {xs : List (key × α)} (hlt : Decides lt rank xs) (least : ℕ) :
    ∃ run rest, longRun lt least xs = .ok (run, rest) ∧ InOrder rank run.toList ∧
      (run.toList ++ rest).Perm xs ∧ (xs ≠ [] → run.toList ≠ []) := by
  obtain ⟨run, rest, hrun, hordered, hperm, hne⟩ := exists_firstRun hlt
  let missing := least - run.length
  have hall : run.toArray.toList ++ rest.take missing ++ rest.drop missing = run ++ rest := by
    rw [List.append_assoc, List.take_append_drop]
  have hlt' : Decides lt rank (run.toArray.toList ++ rest.take missing) :=
    hlt.mono fun z hz => hperm.subset (hall ▸ List.mem_append_left _ hz)
  obtain ⟨sorted, hfold, hsorted, hperm'⟩ := exists_insertAll hlt' hordered
  refine ⟨sorted, rest.drop missing, ?_, hsorted, ?_, fun hxs hempty => ?_⟩
  · rw [longRun, hrun]
    simp only [bind, Except.bind]
    rw [hfold]
  · exact (hperm'.append_right _).trans ((List.Perm.of_eq hall).trans hperm)
  · rw [hempty] at hperm'
    exact hne hxs (List.append_eq_nil_iff.1 hperm'.symm.eq_nil).1

/-! ### Piles of runs -/

/-- Runs in order that together hold some items. -/
structure Runs (rank : key × α → ρ) (runs : List (Waiting (key × α))) (items : List (key × α)) : Prop where
  inOrder : ∀ w ∈ runs, InOrder rank w.run.toList
  perm : (runs.flatMap fun w => w.run.toList).Perm items

namespace Runs

variable {runs rest : List (Waiting (key × α))} {top lower lowest : Waiting (key × α)}
  {items : List (key × α)}

theorem exists_join (h : Runs rank (top :: lower :: rest) items) (hlt : Decides lt rank items)
    (patience : ℕ) :
    ∃ joined patience', lower.join lt patience top = .ok (joined, patience') ∧
      Runs rank (joined :: rest) items := by
  have hperm := h.perm
  rw [List.flatMap_cons, List.flatMap_cons, ← List.append_assoc] at hperm
  have hboth : lower.run.toList ++ top.run.toList ⊆ items := fun z hz =>
    hperm.subset (List.mem_append_left _ (List.perm_append_comm.subset hz))
  obtain ⟨c, patience', hmerge, hordered, hmerged⟩ := exists_mergeRuns (hlt.mono hboth)
    (h.inOrder lower (List.mem_cons_of_mem _ List.mem_cons_self)) (h.inOrder top List.mem_cons_self) patience
  refine ⟨{ lower with run := c }, patience', ?_, List.forall_mem_cons.2 ⟨hordered, fun w hw => ?_⟩, ?_⟩
  · rw [Waiting.join, hmerge]
    rfl
  · exact h.inOrder w (List.mem_cons_of_mem _ (List.mem_cons_of_mem _ hw))
  · rw [List.flatMap_cons]
    exact ((hmerged.trans List.perm_append_comm).append_right _).trans hperm

/-- Two runs under the top one are merged. -/
theorem exists_join_under (h : Runs rank (top :: lower :: lowest :: rest) items)
    (hlt : Decides lt rank items) (patience : ℕ) :
    ∃ joined patience', lowest.join lt patience lower = .ok (joined, patience') ∧
      Runs rank (top :: joined :: rest) items := by
  have hperm := h.perm
  rw [List.flatMap_cons] at hperm
  have hunder : Runs rank (lower :: lowest :: rest)
      ((lower :: lowest :: rest).flatMap fun w => w.run.toList) :=
    ⟨fun w hw => h.inOrder w (List.mem_cons_of_mem _ hw), .refl _⟩
  obtain ⟨joined, patience', hjoin, hrest⟩ := hunder.exists_join
    (hlt.mono fun z hz => hperm.subset (List.mem_append_right _ hz)) patience
  refine ⟨joined, patience', hjoin,
    List.forall_mem_cons.2 ⟨h.inOrder top List.mem_cons_self, hrest.inOrder⟩, ?_⟩
  rw [List.flatMap_cons]
  exact (hrest.perm.append_left _).trans hperm

/-- **A run that is merged with those under it** loses nothing. -/
theorem exists_settle (h : Runs rank (top :: rest) items) (hlt : Decides lt rank items)
    (power patience : ℕ) :
    ∃ top' rest' patience', settle lt power patience top rest =
        .ok { runs := top' :: rest', patience := patience' } ∧ Runs rank (top' :: rest') items := by
  induction rest generalizing top patience with
  | nil => exact ⟨top, [], patience, rfl, h⟩
  | cons lower rest ih =>
      rw [settle]
      split
      · obtain ⟨joined, patience', hjoin, hrest⟩ := h.exists_join hlt patience
        rw [hjoin]
        exact ih hrest patience'
      · exact ⟨top, lower :: rest, patience, rfl, h⟩

/-- **A pile that is merged into one run** loses nothing. -/
theorem exists_collapse (h : Runs rank (top :: runs) items) (hlt : Decides lt rank items) (patience : ℕ) :
    ∃ c, collapse lt patience top runs = .ok c ∧ InOrder rank c.toList ∧ c.toList.Perm items := by
  induction hn : runs.length generalizing runs top patience with
  | zero =>
      obtain rfl := List.length_eq_zero_iff.1 hn
      refine ⟨top.run, by rw [collapse], h.inOrder top List.mem_cons_self, ?_⟩
      simpa using h.perm
  | succ n ih =>
      obtain ⟨lower, rest, rfl⟩ := List.exists_cons_of_length_eq_add_one hn
      cases rest with
      | nil =>
          obtain ⟨joined, patience', hjoin, hjoined⟩ := h.exists_join hlt patience
          refine ⟨joined.run, ?_, hjoined.inOrder joined List.mem_cons_self, by simpa using hjoined.perm⟩
          simp only [collapse, hjoin, bind, Except.bind]
      | cons lowest rest =>
          rw [List.length_cons, Nat.succ_inj] at hn
          rw [collapse]
          split
          · obtain ⟨joined, patience', hjoin, hrest⟩ := h.exists_join_under hlt patience
            simp only [hjoin, bind, Except.bind]
            exact ih hrest patience' hn
          · obtain ⟨joined, patience', hjoin, hrest⟩ := h.exists_join hlt patience
            simp only [hjoin, bind, Except.bind]
            exact ih hrest patience' hn

/-- **One run more on a pile.** -/
theorem exists_add {p : Pile (key × α)} {run : Array (key × α)} (h : Runs rank p.runs items)
    (hrun : InOrder rank run.toList) (hlt : Decides lt rank (items ++ run.toList)) (total start : ℕ) :
    ∃ p', p.add lt total start run = .ok p' ∧ Runs rank p'.runs (items ++ run.toList) := by
  have hadd : ∀ (rest : List (Waiting (key × α))) (w : Waiting (key × α)), w.run = run →
      Runs rank rest items → Runs rank (w :: rest) (items ++ run.toList) := by
    intro rest w hw hrest
    refine ⟨List.forall_mem_cons.2 ⟨hw ▸ hrun, hrest.inOrder⟩, ?_⟩
    rw [List.flatMap_cons, hw]
    exact (hrest.perm.append_left _).trans List.perm_append_comm
  rw [Pile.add]
  cases hruns : p.runs with
  | nil =>
      rw [hruns] at h
      exact ⟨{ p with runs := [{ run, start }] }, rfl, hadd [] _ rfl h⟩
  | cons top rest =>
      rw [hruns] at h
      obtain ⟨top', rest', patience', hsettle, hsettled⟩ :=
        h.exists_settle (hlt.mono (List.subset_append_left _ _))
          (borderPower total top.start top.run.size run.size) p.patience
      simp only [hsettle, bind, Except.bind]
      refine ⟨_, rfl, hadd _ _ rfl ⟨?_, hsettled.perm⟩⟩
      exact List.forall_mem_cons.2 (List.forall_mem_cons.1 hsettled.inOrder)

end Runs

/-! ### Sorting -/

/-- **The runs of a list on a pile** hold its items. -/
theorem exists_pileUp {items xs : List (key × α)} {p : Pile (key × α)} (h : Runs rank p.runs items)
    (hlt : Decides lt rank (items ++ xs)) (total : ℕ) {fuel : ℕ} (hfuel : xs.length ≤ fuel) (start : ℕ) :
    ∃ p', pileUp lt total fuel start xs p = .ok p' ∧ Runs rank p'.runs (items ++ xs) := by
  induction fuel generalizing items xs p start with
  | zero =>
      obtain rfl := List.length_eq_zero_iff.1 (Nat.le_zero.1 hfuel)
      exact ⟨p, rfl, by rwa [List.append_nil]⟩
  | succ fuel ih =>
      cases xs with
      | nil => exact ⟨p, rfl, by rwa [List.append_nil]⟩
      | cons x xs =>
          obtain ⟨run, rest, hlong, hordered, hperm, hne⟩ :=
            exists_longRun (hlt.mono (List.subset_append_right _ _)) (leastRun total)
          have hitems : (items ++ run.toList ++ rest).Perm (items ++ x :: xs) := by
            rw [List.append_assoc]
            exact hperm.append_left items
          obtain ⟨p₁, hadd, hruns⟩ := h.exists_add hordered
            (hlt.mono fun z hz => hitems.subset (List.mem_append_left _ hz)) total start
          have hrest : rest.length ≤ fuel := by
            have hlength := hperm.length_eq
            have hpos := List.length_pos_iff.2 (hne (List.cons_ne_nil x xs))
            rw [List.length_append] at hlength
            omega
          obtain ⟨p', hpile, hruns'⟩ := ih hruns (hlt.mono hitems.subset) hrest (start + run.size)
          refine ⟨p', ?_, hruns'.inOrder, hruns'.perm.trans hitems⟩
          rw [pileUp]
          simp only [hlong, hadd, bind, Except.bind]
          exact hpile

/-- **Sorting by keys sorts**: it does not fail, it loses nothing, and its result is in order. -/
theorem exists_sortByKey {xs : List (key × α)} (hlt : Decides lt rank xs) :
    ∃ ys, sortByKey lt xs = .ok ys ∧ InOrder rank ys ∧ ys.Perm xs := by
  have hempty : Runs rank ({} : Pile (key × α)).runs [] := ⟨nofun, .refl _⟩
  obtain ⟨p, hpile, hruns⟩ := exists_pileUp hempty hlt xs.length (Nat.le_refl _) 0
  rw [List.nil_append] at hruns
  obtain ⟨c, hclose, hordered, hperm⟩ : ∃ c, p.close lt = .ok c ∧ InOrder rank c.toList ∧
      c.toList.Perm xs := by
    rw [Pile.close]
    cases hp : p.runs with
    | nil =>
        rw [hp] at hruns
        exact ⟨#[], rfl, .nil, hruns.perm⟩
    | cons top rest => exact (hp ▸ hruns).exists_collapse hlt p.patience
  refine ⟨c.toList, ?_, hordered, hperm⟩
  rw [sortByKey, hpile]
  simp only [hclose, bind, Except.bind]

end GraphRoutes.Sorting
