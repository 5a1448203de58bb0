/-
**How the branches of a merge are opened.**

A merge opens its branches when it is read for the first time, one after the other: a route is read by an
iterator over it, and a source of blocks is taken as it is.  Opening a branch makes a cursor at most, so
the branches that are open already, and those that are still to be opened, stay where they are.

Main definitions:

* `GraphRoutes.Session.World.branches?` — the branches of a list or of a mapping;
* `GraphRoutes.Session.Unopened` — a branch that is still to be opened;
* `GraphRoutes.Session.Opened` — some branches are open, and the others are not.

Main results:

* `GraphRoutes.Session.exists_chunked` — a route that is cut into blocks, before it is read;
* `GraphRoutes.Session.Opened.open` — one branch more is opened;
* `GraphRoutes.Session.exists_rotation` — **the beginning of a merge**.
-/
import GraphRoutes.Proofs.Session.Strands

set_option relaxedAutoImplicit false
set_option autoImplicit false

namespace GraphRoutes.Session

open World Merge

/-- The branches of a merge: the values of a mapping, or the items of a collection that is not a set. -/
def World.branches? (w : World) : Value → Option (List Value)
  | .dict es _ => some (es.toList.map (·.2))
  | .set _ _ | .ref .bag _ => none
  | v => w.collection? v

/-- A branch that is still to be opened: a route, or a source of blocks, whose iterator is there. -/
inductive Unopened {α : Type} (w : World) (P : Set ℕ) : Value → Strand α → Option (Value × ℕ) → Prop
  | plain {r : Value} (s : Stream'.Seq α) (hr : ∀ q, r ≠ .ref .blocks q) : Unopened w P r (.plain s) none
  | blocks (s : Stream'.Seq (List α)) {q : ℕ} {it : Value} (hq : w.blocks[q]? = some it) :
      Unopened w P (.ref .blocks q) (.blocks s) (some (it, 0))
  | chunked (s : Stream'.Seq α) {n q c : ℕ} {it : Value} (hq : w.blocks[q]? = some (.ref .iterator c))
      (hc : w.cursors[c]? = some (.cut (cutOf it n))) (hcP : c ∉ P) :
      Unopened w P (.ref .blocks q) (.chunked s n) (some (it, 0))

variable {α : Type} {h : Host} {d : ℕ} {R : α → Value → Prop} {rs : List Value} {xs : List (Strand α)}
  {stands : Positions → Set ℕ → World → Prop} {P Q : Set ℕ} {u v w : World} {i p place : ℕ} {r r' it : Value}
  {x : Strand α} {seats : List Seat}

/-! ### Sources of blocks -/

/-- A route is cut into blocks by a new cursor. -/
theorem callOp_chunked {H : Host} {n : ℕ} (hit : iterate r w = .ok it v) (hn : 0 < n) :
    H.callOp .chunked [r, .int n] [] w = .ok (.ref .blocks v.blocks.size) { v with
      cursors := v.cursors.push (.cut (cutOf it n)),
      blocks := v.blocks.push (.ref .iterator v.cursors.size) } := by
  have hsize : ¬(n : ℤ) < 1 := by omega
  have hperform : H.perform .chunked { bound := [some r, some (.int n)], extra := [] } w =
      .ok (.ref .blocks v.blocks.size) { v with
        cursors := v.cursors.push (.cut (cutOf it n)),
        blocks := v.blocks.push (.ref .iterator v.cursors.size) } := by
    change chunked r (.int n) w = _
    rw [chunked, Act.bind_of_ok (m := number (.int n)) rfl, if_neg hsize]
    refine (Act.bind_of_ok hit).trans ?_
    rw [Int.toNat_natCast]
    rfl
  exact (callOp_of_ok rfl hperform).trans rfl

/-- **A route that is cut into blocks** is a branch that is still to be opened; nothing of it has been read. -/
theorem exists_chunked {H : Host} {n : ℕ} (hit : iterate r w = .ok it v) (hn : 0 < n) (hP : Has P v)
    (s : Stream'.Seq α) :
    ∃ q u, H.callOp .chunked [r, .int n] [] w = .ok (.ref .blocks q) u ∧
      Unopened u P (.ref .blocks q) (.chunked s n) (some (it, 0)) :=
  ⟨_, _, callOp_chunked hit hn,
    .chunked s Array.getElem?_push_size Array.getElem?_push_size (notMem_of_has hP)⟩

/-! ### Opening one branch -/

/-- An iterator over a sequence is a new cursor, or was there. -/
theorem uses_iterate (hit : iterate r w = .ok it v) : Uses ∅ w v := by
  have hnew : ∀ c, newCursor c w = .ok it v → Uses ∅ w v := by
    intro c hc
    rw [newCursor_eq] at hc
    cases hc
    exact uses_push _ c
  cases r with
  | str | dict | set | orderedPath => exact hnew _ hit
  | ref sort place =>
      cases sort with
      | list | bag | blocks => exact hnew _ hit
      | iterator =>
          cases hit
          exact .refl ∅ _
      | history =>
          rw [iterate, Act.bind_of_ok (m := get) rfl] at hit
          split at hit
          · exact hnew _ hit
          · exact hnew _ hit
      | _ => cases hit
  | tuple | typedId | instruction => exact hnew _ hit
  | _ => cases hit

/-- What becomes of a route that is handed out is a route. -/
theorem ne_blocks_of_handed (hr : Handed r r') (hne : ∀ q, r ≠ .ref .blocks q) (q : ℕ) :
    r' ≠ .ref .blocks q := by
  intro hq
  cases r with
  | tracked x =>
      cases hr with
      | same => cases hq
      | marked _ n => cases hq
  | _ =>
      obtain ⟨m, rfl⟩ := hr.exists_withMark (by simp)
      first
        | exact hne q hq
        | cases hq

theorem openBranch_of_ne (hr : ∀ q, r ≠ .ref .blocks q) (hit : openRoute r w = .ok it v) :
    openBranch r w = .ok (.plain it) v := by
  have hplain : openBranch r = (do
      let it ← openRoute r
      pure (.plain it)) := by
    cases r with
    | ref sort q =>
        cases sort with
        | blocks => exact absurd rfl (hr q)
        | _ => rfl
    | _ => rfl
  rw [hplain]
  exact Act.bind_of_ok hit

/-! ### Opening all branches -/

/-- The first branches are open, and the others are not.  The merge at `p` is being read, and the cursor
at `place` gives the branches. -/
structure Opened (p place : ℕ) (rs : List Value) (xs : List (Strand α))
    (stands : Positions → Set ℕ → World → Prop) (seats : List Seat) (w : World) : Prop where
  stands : ∃ (g : Positions) (P : Set ℕ), stands g P w ∧ p ∉ P ∧ place ∉ P ∧
    (∀ (i : ℕ) x seat, xs[i]? = some x → seats[i]? = some seat → g i = some (seat.source, 0) ∧
      Sits w true x seat ∧ ∀ c, seat.own? = some c → c ∉ P) ∧
    ∀ (i : ℕ) r x, seats.length ≤ i → rs[i]? = some r → xs[i]? = some x → Unopened w P r x (g i)
  reading : w.cursors[p]? = some .running
  blocks : ∀ (i : ℕ) seat q, seats[i]? = some seat → seat.branch = .blocks q → rs[i]? = some (.ref .blocks q)

/-- What does not move its cursor leaves a branch as it is. -/
theorem Unopened.confined {start : Option (Value × ℕ)} (h : Unopened w P r x start) {E : Set ℕ}
    (hv : Confined E w v) (hQ : Q ⊆ within P w.cursors.size)
    (hE : ∀ q c s, r = .ref .blocks q → w.blocks[q]? = some (.ref .iterator c) →
      w.cursors[c]? = some (.cut s) → c ∉ P → c ∉ E) : Unopened v Q r x start := by
  cases h with
  | plain s hr => exact .plain s hr
  | blocks s hq => exact .blocks s (hv.blocks _ _ hq)
  | chunked s hq hc hcP =>
      have hlt := (Array.getElem?_eq_some_iff.1 hc).1
      exact .chunked s (hv.blocks _ _ hq) ((hv.same _ hlt (hE _ _ _ rfl hq hc hcP)).trans hc)
        (notMem_of_subset_within hQ hcP hlt)

/-- A cursor with items at hand is not that of a route which is cut into blocks, nor one that is being
read. -/
theorem World.Ready.ne_of_cursor {c : ℕ} {k : Cursor} {ys : List Value} (h : Ready w place ys)
    (hc : w.cursors[c]? = some k) (hk : k = .running ∨ ∃ s, k = .cut s) : c ≠ place := by
  rintro rfl
  cases h with
  | items _ hi | list hi | members hi => rcases hk with rfl | ⟨s, rfl⟩ <;> cases hc.symm.trans hi

/-- The cursor that gives the branches may move. -/
theorem Opened.moved {ys : List Value} (hfooting : Footing R stands)
    (h : Opened p place rs xs stands seats w) (hready : Ready w place ys) (hv : Uses {place} w v) :
    Opened p place rs xs stands seats v := by
  obtain ⟨⟨g, P, hstands, hp, hplace, hsits, hbegins⟩, hreading, hblocks⟩ := h
  have hcut : ∀ c s, w.cursors[c]? = some (.cut s) → c ∉ ({place} : Set ℕ) :=
    fun c s hc => hready.ne_of_cursor hc (.inr ⟨s, rfl⟩)
  have hne : p ∉ ({place} : Set ℕ) := hready.ne_of_cursor hreading (.inl rfl)
  refine ⟨⟨g, P, ?_, hp, hplace, fun i x seat hx hseat => ?_, fun i r x hi hr hx => ?_⟩, ?_, hblocks⟩
  · exact hfooting.quiet _ _ _ _ hstands
      (hv.spares_of_notMem (hfooting.has _ _ _ hstands) hplace).quiet
  · obtain ⟨hg, hsit, hown⟩ := hsits i x seat hx hseat
    refine ⟨hg, hsit.confined hv.confined fun c hc => ?_, hown⟩
    cases hsit with
    | plain | blocks => cases hc
    | chunked s hq hlt hlive =>
        cases hc
        exact hcut _ _ (hlive rfl)
  · exact (hbegins i r x hi hr hx).confined hv.confined (subset_within P _) fun _ c s _ _ hc _ => hcut c s hc
  · exact (hv.same p ⟨(Array.getElem?_eq_some_iff.1 hreading).1, hne⟩).trans hreading

theorem mem_concat_seat {seat seat' : Seat} (h : (seats ++ [seat])[i]? = some seat') :
    seats[i]? = some seat' ∨ i = seats.length ∧ seat' = seat := by
  rcases Nat.lt_or_ge i seats.length with hlt | hge
  · rw [List.getElem?_append_left hlt] at h
    exact .inl h
  · rw [List.getElem?_append_right hge, List.getElem?_singleton] at h
    split at h
    · next hi =>
        cases h
        exact .inr ⟨Nat.le_antisymm (Nat.sub_eq_zero_iff_le.1 hi) hge, rfl⟩
    · cases h

/-- **One branch more is opened.** -/
theorem Opened.open (hapart : Apart h d R rs xs stands) (hopened : Opened p place rs xs stands seats w)
    (hplace : place < w.cursors.size) (hr : rs[seats.length]? = some r) (hx : xs[seats.length]? = some x)
    (hhanded : Handed r r') :
    ∃ seat v, openBranch r' w = .ok seat.branch v ∧ Uses ∅ w v ∧
      Opened p place rs xs stands (seats ++ [seat]) v := by
  obtain ⟨⟨g, P, hstands, hp, hplaceP, hsits, hbegins⟩, hreading, hblocks⟩ := hopened
  have hlt : p < w.cursors.size := (Array.getElem?_eq_some_iff.1 hreading).1
  -- what is left to say, once the branch has its seat
  have hdone : ∀ (seat : Seat) v (g' : Positions) Q, Uses ∅ w v → Q ⊆ within P w.cursors.size →
      stands g' Q v → g' seats.length = some (seat.source, 0) → (∀ i, i ≠ seats.length → g' i = g i) →
      Sits v true x seat → (∀ c, seat.own? = some c → c ∉ Q) →
      (∀ q, seat.branch = .blocks q → r = .ref .blocks q) →
      Opened p place rs xs stands (seats ++ [seat]) v := by
    intro seat v g' Q huses hQ hstands' hself hothers hsit hown hbranch
    refine ⟨⟨g', Q, hstands', notMem_of_subset_within hQ hp hlt,
      notMem_of_subset_within hQ hplaceP hplace, fun i y seat' hy hseat' => ?_,
      fun i r x hi hr hx => ?_⟩, ?_, fun i seat' q hseat' hq => ?_⟩
    · rcases mem_concat_seat hseat' with hold | ⟨rfl, rfl⟩
      · have hne : i ≠ seats.length := Nat.ne_of_lt (List.getElem?_eq_some_iff.1 hold).1
        obtain ⟨hg, hsit', hown'⟩ := hsits i y seat' hy hold
        exact ⟨(hothers i hne).trans hg, hsit'.confined huses.confined fun _ _ hmem => hmem,
          fun c hc => notMem_of_subset_within hQ (hown' c hc) (hsit'.own_lt hc)⟩
      · cases hx.symm.trans hy
        exact ⟨hself, hsit, hown⟩
    · rw [List.length_append, List.length_singleton] at hi
      rw [hothers i (Nat.ne_of_gt hi)]
      exact (hbegins i r x (Nat.le_of_lt hi) hr hx).confined huses.confined hQ fun _ _ _ _ _ _ _ hmem => hmem
    · exact (huses.same p ⟨hlt, fun hmem => hmem⟩).trans hreading
    · rcases mem_concat_seat hseat' with hold | ⟨rfl, rfl⟩
      · exact hblocks i seat' q hold hq
      · rw [hr, hbranch q hq]
  have hbegin := hbegins seats.length r x (Nat.le_refl _) hr hx
  cases hg : g seats.length with
  | none =>
      rw [hg] at hbegin
      obtain ⟨s, hroute⟩ := hbegin
      obtain ⟨it, v, Q, hopen, hQ, hstands'⟩ := hapart.opens hstands hg hr hhanded
      have huses : Uses ∅ w v := uses_iterate hopen
      refine ⟨.plain it, v, openBranch_of_ne (ne_blocks_of_handed hhanded hroute) hopen, huses,
        hdone (.plain it) v _ Q huses hQ hstands' (Function.update_self ..)
          (fun i hi => Function.update_of_ne hi ..) (.plain s it) nofun nofun⟩
  | some start =>
      rw [hg] at hbegin
      cases hbegin with
      | @blocks s q it hq =>
          obtain rfl := hhanded.eq_of_marked rfl
          exact ⟨.blocks q it, w, rfl, .refl ∅ w, hdone (.blocks q it) w g P (.refl ∅ w)
            (subset_within P _) hstands hg (fun _ _ => rfl) (.blocks s hq) nofun
            fun q' hq' => by cases hq'; rfl⟩
      | @chunked s n q c it hq hc hcP =>
          obtain rfl := hhanded.eq_of_marked rfl
          refine ⟨.chunked q c it, w, rfl, .refl ∅ w, hdone (.chunked q c it) w g P (.refl ∅ w)
            (subset_within P _) hstands hg (fun _ _ => rfl)
            (.chunked s hq (Array.getElem?_eq_some_iff.1 hc).1 fun _ => hc) ?_ ?_⟩
          · intro c' hc'
            cases hc'
            exact hcP
          · intro q' hq'
            cases hq'
            rfl

/-- What a merge does with a branch that it is given. -/
def openOnto (waiting : Array (Branch Value ℕ)) (r : Value) : M (Array (Branch Value ℕ)) := do
  let b ← openBranch r
  pure (waiting.push b)

/-- The branches that are still to be opened are opened, one after the other. -/
theorem exists_openAll {H : Host} {ys : List Value} (hapart : Apart h d R rs xs stands)
    (hlength : rs.length = xs.length) (hopened : Opened p place rs xs stands seats w)
    (hready : Ready w place ys) (hys : rs.drop seats.length = ys) (hle : seats.length ≤ rs.length)
    (hfuel : 0 < H.fuel) {n : ℕ} (hn : ys.length < n) (waiting : Array (Branch Value ℕ))
    (hwaiting : waiting.toList = seats.map Seat.branch) :
    ∃ seats' waiting' v, H.above.foldFrom openOnto (.ref .iterator place) n waiting w = .ok waiting' v ∧
      waiting'.toList = seats'.map Seat.branch ∧ seats'.length = rs.length ∧ v.blocks = w.blocks ∧
      Opened p place rs xs stands seats' v := by
  induction ys generalizing seats w n waiting with
  | nil =>
      obtain ⟨n, rfl⟩ := Nat.exists_eq_succ_of_ne_zero (Nat.ne_of_gt hn)
      obtain ⟨cs, hpull, hsize, hcs⟩ := exists_pull_ready_nil hready hfuel
      have hmoves : Uses {place} w { w with cursors := cs } :=
        ⟨rfl, hsize.ge, fun i hi => hcs i hi.2⟩
      refine ⟨seats, waiting, { w with cursors := cs }, ?_, hwaiting, Nat.le_antisymm hle (List.drop_eq_nil_iff.1 hys), rfl,
        hopened.moved hapart.toFooting hready hmoves⟩
      rw [Host.foldFrom, Act.bind_of_ok hpull]
      rfl
  | cons r ys ih =>
      obtain ⟨n, rfl⟩ := Nat.exists_eq_succ_of_ne_zero (Nat.ne_of_gt (Nat.zero_lt_of_lt hn))
      have hr : rs[seats.length]? = some r := by
        rw [← List.head?_drop, hys]
        rfl
      have hlt : seats.length < rs.length := (List.getElem?_eq_some_iff.1 hr).1
      obtain ⟨x, hx⟩ : ∃ x, xs[seats.length]? = some x := ⟨_, List.getElem?_eq_getElem (hlength ▸ hlt)⟩
      obtain ⟨r', c, marks, hpull, hhanded, hrest⟩ := exists_pull_ready hready hfuel
      have hmoved := hopened.moved hapart.toFooting hready (uses_settle w place c marks)
      obtain ⟨seat, v, hopen, huses, hopened'⟩ := hmoved.open hapart hrest.lt_size hr hx hhanded
      have hrest' : Ready v place ys :=
        hrest.congr (huses.same place ⟨hrest.lt_size, fun hmem => hmem⟩) (by rw [huses.rest])
          (by rw [huses.rest])
      have hseats : (seats ++ [seat]).length = seats.length + 1 := List.length_append
      have hys' : rs.drop (seats ++ [seat]).length = ys := by
        rw [hseats, ← List.drop_drop, hys]
        rfl
      have hpush : (waiting.push seat.branch).toList = (seats ++ [seat]).map Seat.branch := by
        rw [Array.toList_push, hwaiting, List.map_append]
        rfl
      obtain ⟨seats', waiting', u, hfold, hbranches, hall, hblocks, hdone⟩ :=
        ih hopened' hrest' hys' (hseats ▸ hlt) (Nat.lt_of_succ_lt_succ hn) _ hpush
      refine ⟨seats', waiting', u, ?_, hbranches, hall, ?_, hdone⟩
      · rw [Host.foldFrom, Act.bind_of_ok hpull]
        refine (Act.bind_of_ok ?_).trans hfold
        exact Act.bind_of_ok hopen
      · rw [hblocks, huses.rest]

/-- The branches of a list or of a mapping are given by a new cursor. -/
theorem iterate_branches (hrs : w.branches? r = some rs) :
    ∃ c, Session.branches r w = .ok (.ref .iterator w.cursors.size)
        { w with cursors := w.cursors.push c } ∧
      Ready { w with cursors := w.cursors.push c } w.cursors.size rs := by
  have hother : w.collection? r = some rs → Session.branches r = iterate r →
      ∃ c, Session.branches r w = .ok (.ref .iterator w.cursors.size)
          { w with cursors := w.cursors.push c } ∧
        Ready { w with cursors := w.cursors.push c } w.cursors.size rs := by
    intro hcollection heq
    rw [heq]
    exact iterate_collection hcollection
  cases r with
  | dict es m =>
      cases hrs
      exact ⟨_, rfl, .items .gathered Array.getElem?_push_size⟩
  | ref sort place =>
      cases sort with
      | list => exact hother hrs rfl
      | _ => cases hrs
  | _ => first | exact hother hrs rfl | cases hrs

/-- No two branches are sources of blocks over the same iterator. -/
def World.OwnBlocks (w : World) (rs : List Value) : Prop :=
  ∀ (i j q q' : ℕ) it, rs[i]? = some (.ref .blocks q) → rs[j]? = some (.ref .blocks q') →
    w.blocks[q]? = some it → w.blocks[q']? = some it → j = i

/-- **The beginning of a merge**: all its branches are opened, and none has been asked. -/
theorem exists_rotation {H : Host} {g : Positions} (hapart : Apart h d R rs xs stands)
    (hfair : ∀ x ∈ xs, x.Fair) (hlength : rs.length = xs.length) (hrs : w.branches? r = some rs)
    (hown : w.OwnBlocks rs) (hp : w.cursors[p]? = some .running) (hstands : stands g P w) (hpP : p ∉ P)
    (hbegins : ∀ (i : ℕ) r x, rs[i]? = some r → xs[i]? = some x → Unopened w P r x (g i))
    (hfuel : rs.length < H.fuel) :
    ∃ seats u, beginCursor H.above (.roundRobin r) w =
        .ok (.rotation { waiting := seats.map Seat.branch }) u ∧ seats.length = xs.length ∧
      (∀ (i j : ℕ) seat seat' c, seats[i]? = some seat → seats[j]? = some seat' →
        seat.own? = some c → seat'.own? = some c → j = i) ∧
      Seated p xs seats stands (.ofStrands xs hfair) (fun _ => 0) u := by
  obtain ⟨c, hbranches, hready⟩ := iterate_branches hrs
  have hhas : Has P w := hapart.has _ _ _ hstands
  have hpush : Uses ∅ w { w with cursors := w.cursors.push c } := uses_push w c
  have hlt : p < w.cursors.size := (Array.getElem?_eq_some_iff.1 hp).1
  have hopened : Opened p w.cursors.size rs xs stands [] { w with cursors := w.cursors.push c } :=
    ⟨⟨g, P, hapart.quiet _ _ _ _ hstands (hpush.spares_of_new hhas).quiet, hpP, notMem_of_has hhas,
        fun i x seat _ hseat => (by cases hseat),
        fun i r x _ hr hx => (hbegins i r x hr hx).confined hpush.confined (subset_within P _)
          fun _ _ _ _ _ _ _ hmem => hmem⟩,
      (hpush.same p ⟨hlt, fun hmem => hmem⟩).trans hp, fun i seat q hseat => (by cases hseat)⟩
  obtain ⟨seats, waiting, u, hfold, hwaiting, hseats, hblocks, ⟨g', Q, hstands', hpQ, -, hsits, -⟩,
      hreading, hsources⟩ :=
    exists_openAll hapart hlength hopened hready rfl (Nat.zero_le _) (Nat.zero_lt_of_lt hfuel) hfuel #[] rfl
  refine ⟨seats, u, ?_, hseats.trans hlength, fun i j seat seat' c hseat hseat' hc hc' => ?_, ⟨g', Q,
    hstands', hpQ, fun i x seat hx hseat => ?_⟩, (Array.getElem?_eq_some_iff.1 hreading).1⟩
  · rw [← hwaiting, beginCursor, Act.bind_of_ok hbranches]
    exact (Act.bind_of_ok hfold).trans rfl
  · -- both have the place of the cursor in the same way, so they are the same branch
    have hcell : ∀ (i : ℕ) seat, seats[i]? = some seat → seat.own? = some c →
        ∃ q, rs[i]? = some (.ref .blocks q) ∧ w.blocks[q]? = some (.ref .iterator c) := by
      intro i seat hseat hc
      have hi : i < seats.length := (List.getElem?_eq_some_iff.1 hseat).1
      obtain ⟨x, hx⟩ : ∃ x, xs[i]? = some x :=
        ⟨_, List.getElem?_eq_getElem (by rwa [← hlength, ← hseats])⟩
      obtain ⟨-, hsit, -⟩ := hsits i x seat hx hseat
      cases hsit with
      | plain | blocks => cases hc
      | chunked s hq hcut hlive =>
          cases hc
          exact ⟨_, hsources i _ _ hseat rfl, hblocks ▸ hq⟩
    obtain ⟨q, hq, hcq⟩ := hcell i seat hseat hc
    obtain ⟨q', hq', hcq'⟩ := hcell j seat' hseat' hc'
    exact hown i j q q' _ hq hq' hcq hcq'
  · obtain ⟨hg, hsit, hapart'⟩ := hsits i x seat hx hseat
    refine ⟨hg.trans ?_, hsit, fun c hc => ⟨?_, hapart' c hc⟩⟩
    · cases x <;> rfl
    · -- the merge is being read, so its cursor is not one of a route that is cut into blocks
      rintro rfl
      cases hsit with
      | plain | blocks => cases hc
      | chunked s hq hcut hlive =>
          cases hc
          cases hreading.symm.trans (hlive rfl)

end GraphRoutes.Session
