/-
**A merge that reads one branch after the other.**

Such a merge asks for its branches one by one, and reads each of them to its end.  It is a chain whose
parts are the branches as routes.  As long as the branches that are asked for stay what they were, it gives
all the items of the first branch, then those of the second, and so on.

Main definitions:

* `GraphRoutes.Session.Coming`, `GraphRoutes.Session.Remaining` — the branches that have not been asked for;
* `GraphRoutes.Session.Chaining` — what the merge has still to give.

Main results:

* `GraphRoutes.Session.Remaining.exists_open` — the next branch is opened;
* `GraphRoutes.Session.Chaining.pull` — **one read**;
* `GraphRoutes.Session.Mergeable.eventually_gives_each` — **one branch after the other**.
-/
import GraphRoutes.Proofs.Session.Chains
import GraphRoutes.Proofs.Session.Images
import GraphRoutes.Proofs.Session.Merges
import GraphRoutes.Proofs.Session.Parts

set_option relaxedAutoImplicit false
set_option autoImplicit false

namespace GraphRoutes.Session

open World Merge Route Filter

variable {α : Type}

/-! ### Asking for the branches -/

/-- The cursor at a place gives the branches of a merge, behind the first `j`. -/
inductive Coming (r : Value) (rs : List Value) (j : ℕ) (w : World) (place : ℕ) : Prop
  | items (of : ItemsOf) (h : w.cursors[place]? = some (.items of (rs.drop j)))
  | list {l : ℕ} (hr : r = .ref .list l) (h : w.cursors[place]? = some (.listFrom l (some j)))

section

variable {h : Host} {r x y : Value} {rs : List Value} {j place : ℕ} {u v w : World} {c : Cursor}

theorem Coming.congr (hc : Coming r rs j w place) (hv : v.cursors[place]? = w.cursors[place]?) :
    Coming r rs j v place := by
  cases hc with
  | items of h => exact .items of (hv.trans h)
  | list hr h => exact .list hr (hv.trans h)

theorem Coming.lt_size (hc : Coming r rs j w place) : place < w.cursors.size := by
  cases hc with
  | items _ h => exact (Array.getElem?_eq_some_iff.1 h).1
  | list _ h => exact (Array.getElem?_eq_some_iff.1 h).1

/-- The branches are ready to be asked for, as long as they are what they were. -/
theorem Coming.ready (hc : Coming r rs j w place) (hrs : w.branches? r = some rs) :
    Ready w place (rs.drop j) := by
  cases hc with
  | items of h => exact .items of h
  | list hr h =>
      subst hr
      cases hrs
      exact .list h rfl

/-- A place with another sequence is another place. -/
theorem Coming.ne (hc : Coming r rs j w place) {i : ℕ} (hi : w.cursors[i]? = some c)
    (hitems : ∀ of xs, c ≠ .items of xs) (hlist : ∀ l n, c ≠ .listFrom l n) : i ≠ place := by
  rintro rfl
  cases hc with
  | items _ h => exact hitems _ _ (Option.some.inj (hi.symm.trans h))
  | list _ h => exact hlist _ _ (Option.some.inj (hi.symm.trans h))

/-- The next branch is asked for. -/
theorem Coming.pull (hc : Coming r rs j w place) (hrs : w.branches? r = some rs) (hx : rs[j]? = some x)
    (hfuel : 0 < h.fuel) :
    ∃ x' c marks, h.above.pull (.ref .iterator place) w =
        .ok (some x') { w with cursors := w.cursors.setIfInBounds place c, marks } ∧
      Handed x x' ∧ Coming r rs (j + 1) { w with cursors := w.cursors.setIfInBounds place c, marks } place := by
  cases hc with
  | items of h =>
      have hdrop : rs.drop j = x :: rs.drop (j + 1) := by
        rw [← List.getElem_cons_drop (List.getElem?_eq_some_iff.1 hx).1, (List.getElem?_eq_some_iff.1 hx).2]
      rw [hdrop] at h
      obtain ⟨x', marks, hpull, hhanded⟩ := pull_of_nextItem (nextItem_of_turn h rfl rfl rfl hfuel)
      exact ⟨x', _, marks, hpull, hhanded, .items of (getElem?_setCursor h)⟩
  | @list l hr h =>
      subst hr
      cases hrs
      have hl : (w.listAt l)[j]? = some x := by rwa [← Array.getElem?_toList]
      have hturn : listTurn place l (some j) w =
          .ok (.give x) { w with cursors := w.cursors.setIfInBounds place (.listFrom l (some (j + 1))) } := by
        rw [listTurn, Act.bind_of_ok (m := get) rfl]
        simp only [hl]
        rfl
      obtain ⟨x', marks, hpull, hhanded⟩ := pull_of_nextItem (nextItem_of_turn h rfl hturn rfl hfuel)
      exact ⟨x', _, marks, hpull, hhanded, .list rfl (getElem?_setCursor h)⟩

/-- The branches of a list or of a mapping, as they are asked for. -/
theorem iterate_coming (hrs : w.branches? r = some rs) :
    ∃ c, branches r w = .ok (.ref .iterator w.cursors.size) { w with cursors := w.cursors.push c } ∧
      Coming r rs 0 { w with cursors := w.cursors.push c } w.cursors.size := by
  cases r with
  | ref sort place =>
      cases sort with
      | list =>
          cases hrs
          exact ⟨_, rfl, .list rfl Array.getElem?_push_size⟩
      | _ => cases hrs
  | str | dict | orderedPath | tuple | typedId | instruction =>
      cases hrs
      exact ⟨_, rfl, .items _ Array.getElem?_push_size⟩
  | _ => cases hrs

/-- A route is read in the same way under any mark. -/
theorem iterate_of_handed (hy : Handed x y) : iterate y = iterate x := by
  cases x with
  | tracked x =>
      cases hy with
      | same => rfl
      | marked => rfl
  | _ =>
      obtain ⟨m, rfl⟩ := hy.exists_withMark (by simp)
      rfl

end

/-! ### Branches that have not been opened -/

/-- Every source of blocks among the branches is there, and no two are over the same iterator. -/
structure World.Sources (w : World) (rs : List Value) : Prop where
  own : w.OwnBlocks rs
  known : ∀ (k q : ℕ), rs[k]? = some (.ref .blocks q) → ∃ it, w.blocks[q]? = some it

/-- The branches behind the first `j` have not been asked for: they are given by the cursor at `place`, as
routes by the one at `outer`. -/
structure Remaining (r : Value) (rs : List Value) (xs : List (Strand α))
    (stands : Positions → Set ℕ → World → Prop) (outer place j : ℕ) (g : Positions) (P : Set ℕ)
    (w : World) : Prop where
  stands : stands g P w
  sources : w.Sources rs
  routes : w.cursors[outer]? = some (.each .route (.ref .iterator place))
  coming : Coming r rs j w place
  outer_notMem : outer ∉ P
  place_notMem : place ∉ P
  begins : ∀ (k : ℕ) r x, j ≤ k → rs[k]? = some r → xs[k]? = some x → Unopened w P r x (g k)

section

variable {h : Host} {d : ℕ} {R : α → Value → Prop} {r x y : Value} {rs : List Value} {xs : List (Strand α)}
  {stands : Positions → Set ℕ → World → Prop} {g g' : Positions} {P Q E : Set ℕ} {u v w : World}
  {outer place j p : ℕ}

theorem World.Sources.confined (hs : w.Sources rs) (hv : Confined E w v) : v.Sources rs where
  own i j q q' it hi hj hq hq' := by
    obtain ⟨it₁, h₁⟩ := hs.known i q hi
    obtain ⟨it₂, h₂⟩ := hs.known j q' hj
    cases hq.symm.trans (hv.blocks _ _ h₁)
    cases hq'.symm.trans (hv.blocks _ _ h₂)
    exact hs.own i j q q' it hi hj h₁ h₂
  known k q hk := by
    obtain ⟨it, hit⟩ := hs.known k q hk
    exact ⟨it, hv.blocks _ _ hit⟩

/-- What moves none of their cursors leaves the remaining branches as they are. -/
theorem Remaining.confined (hrem : Remaining r rs xs stands outer place j g P w) (hv : Confined E w v)
    (hstands : stands g' Q v) (hQ : Q ⊆ within P w.cursors.size) (hg : ∀ k, j ≤ k → g' k = g k)
    (houter : outer ∉ E) (hplace : place ∉ E)
    (hcut : ∀ (k q c : ℕ) s, j ≤ k → rs[k]? = some (.ref .blocks q) →
      w.blocks[q]? = some (.ref .iterator c) → w.cursors[c]? = some (.cut s) → c ∉ P → c ∉ E) :
    Remaining r rs xs stands outer place j g' Q v := by
  have hlt : outer < w.cursors.size := (Array.getElem?_eq_some_iff.1 hrem.routes).1
  refine ⟨hstands, hrem.sources.confined hv, (hv.same outer hlt houter).trans hrem.routes,
    hrem.coming.congr (hv.same place hrem.coming.lt_size hplace),
    notMem_of_subset_within hQ hrem.outer_notMem hlt,
    notMem_of_subset_within hQ hrem.place_notMem hrem.coming.lt_size, fun k r x hk hr hx => ?_⟩
  rw [hg k hk]
  exact (hrem.begins k r x hk hr hx).confined hv hQ fun q c s hq => hcut k q c s hk (hr.trans (congrArg some hq))

/-- The cursor at a place that belongs to something else may move. -/
theorem Remaining.moved (hfooting : Footing R stands) (hrem : Remaining r rs xs stands outer place j g P w)
    {c : Cursor} (hc : w.cursors[p]? = some c) (hroutes : ∀ image it, c ≠ .each image it)
    (hitems : ∀ of ys, c ≠ .items of ys) (hlist : ∀ l n, c ≠ .listFrom l n) (hcut : ∀ s, c ≠ .cut s)
    (hpP : p ∉ P) (hv : Uses {p} w v) : Remaining r rs xs stands outer place j g P v := by
  refine hrem.confined hv.confined ?_ (subset_within P _) (fun _ _ => rfl) ?_ ?_ ?_
  · exact hfooting.quiet _ _ _ _ hrem.stands
      (hv.spares_of_notMem (hfooting.has _ _ _ hrem.stands) hpP).quiet
  · rintro rfl
    exact hroutes _ _ (Option.some.inj (hc.symm.trans hrem.routes))
  · exact fun hp => hrem.coming.ne hc hitems hlist hp.symm
  · rintro k q c' s - - - hc' - rfl
    exact hcut s (Option.some.inj (hc.symm.trans hc'))

/-- **The next branch is asked for**, as a route. -/
theorem Remaining.pull (hfooting : Footing R stands) (hrem : Remaining r rs xs stands outer place j g P w)
    (hrs : w.branches? r = some rs) (hx : rs[j]? = some x) (hfuel : 0 < h.fuel) :
    ∃ x' y v, h.above.above.pull (.ref .iterator outer) w = .ok (some y) v ∧ Handed x x' ∧
      Handed (ensureRoute x') y ∧ Uses {outer, place} w v ∧
      Remaining r rs xs stands outer place (j + 1) g P v ∧
      ∀ s, xs[j]? = some s → Unopened v P x s (g j) := by
  have hne : outer ≠ place := hrem.coming.ne hrem.routes nofun nofun
  have hlt : outer < w.cursors.size := (Array.getElem?_eq_some_iff.1 hrem.routes).1
  have hreading : Uses {outer} w (w.reading outer) := uses_setCursor w outer .running
  have hcoming : Coming r rs j (w.reading outer) place :=
    hrem.coming.congr (hreading.same place ⟨hrem.coming.lt_size, hne.symm⟩)
  obtain ⟨x', c, marks, hpull, hhanded, hcoming'⟩ :=
    hcoming.pull (h := h) ((branches?_congr rfl rfl r).trans hrs) hx hfuel
  let u : World := { w.reading outer with cursors := (w.reading outer).cursors.setIfInBounds place c, marks }
  have hstep : (stepCursor h.above).pull h.above.fuel (.each .route (.ref .iterator place)) (w.reading outer) =
      .ok (.item (ensureRoute x') (.each .route (.ref .iterator place))) u := by
    obtain ⟨fuel, hsucc⟩ := Nat.exists_eq_succ_of_ne_zero (Nat.ne_of_gt hfuel)
    rw [Host.fuel_above, hsucc]
    exact Machine.pull_of_give (stepCursor_each hpull rfl) fuel
  obtain ⟨y, marks', hpulled, hhanded'⟩ := exists_pull_closed hrem.routes (closed_each _ _) hstep
  let v : World := { u with
    cursors := u.cursors.setIfInBounds outer (.each .route (.ref .iterator place)), marks := marks' }
  have hmoves : Uses {place} (w.reading outer) u := uses_settle (w.reading outer) place c marks
  have hsettle : Uses {outer} u v := uses_settle u outer _ marks'
  have hsub : ∀ i, i ∈ ({outer, place} : Set ℕ) → ({i} : Set ℕ) ⊆ within {outer, place} w.cursors.size :=
    fun i hi => Set.singleton_subset_iff.2 (.inl hi)
  have huses : Uses {outer, place} w v :=
    ((hreading.mono (by simp)).trans hmoves (hsub place (by simp))).trans hsettle (hsub outer (by simp))
  have hltu : outer < u.cursors.size := Nat.lt_of_lt_of_le hlt (Nat.le_trans hreading.size hmoves.size)
  have hnotMem : ∀ i ∈ ({outer, place} : Set ℕ), i ∉ P := by
    rintro i (rfl | rfl)
    · exact hrem.outer_notMem
    · exact hrem.place_notMem
  have hbegins : ∀ (k : ℕ) x s, j ≤ k → rs[k]? = some x → xs[k]? = some s → Unopened v P x s (g k) := by
    refine fun k x s hk hx hs => (hrem.begins k x s hk hx hs).confined huses.confined (subset_within P _) ?_
    rintro q c' s' - - hc' - (rfl | rfl)
    · cases hc'.symm.trans hrem.routes
    · exact hrem.coming.ne hc' nofun nofun rfl
  refine ⟨x', y, v, hpulled, hhanded, hhanded', huses, ⟨?_, hrem.sources.confined huses.confined,
    Array.getElem?_setIfInBounds_self_of_lt hltu,
    hcoming'.congr (hsettle.same place ⟨hcoming'.lt_size, hne.symm⟩), hrem.outer_notMem, hrem.place_notMem,
    fun k x s hk => hbegins k x s (Nat.le_of_succ_le hk)⟩, fun s hs => hbegins j x s (Nat.le_refl j) hx hs⟩
  exact hfooting.quiet _ _ _ _ hrem.stands
    (huses.spares (hfooting.has _ _ _ hrem.stands) fun i hi hmem => hnotMem i hmem hi).quiet

/-- When all branches have been asked for, there are no more. -/
theorem Remaining.pull_end (hrem : Remaining r rs xs stands outer place rs.length g P w)
    (hrs : w.branches? r = some rs) (hfuel : 0 < h.fuel) :
    ∃ v, h.above.above.pull (.ref .iterator outer) w = .ok none v ∧ Uses {outer, place} w v := by
  have hne : outer ≠ place := hrem.coming.ne hrem.routes nofun nofun
  have hreading : Uses {outer} w (w.reading outer) := uses_setCursor w outer .running
  have hready : Ready (w.reading outer) place [] := by
    have hcoming := hrem.coming.congr (hreading.same place ⟨hrem.coming.lt_size, hne.symm⟩)
    have := hcoming.ready ((branches?_congr rfl rfl r).trans hrs)
    rwa [List.drop_length] at this
  obtain ⟨cs, hpull, hsize, hcs⟩ := exists_pull_ready_nil hready hfuel
  have hstep : (stepCursor h.above).pull h.above.fuel (.each .route (.ref .iterator place)) (w.reading outer) =
      .ok (.ended none) { w.reading outer with cursors := cs } := by
    obtain ⟨fuel, hsucc⟩ := Nat.exists_eq_succ_of_ne_zero (Nat.ne_of_gt hfuel)
    rw [Host.fuel_above, hsucc]
    exact Machine.pull_of_finish (stepCursor_each_end hpull) fuel
  have hmoves : Uses {place} (w.reading outer) { w.reading outer with cursors := cs } :=
    ⟨rfl, hsize.ge, fun i hi => hcs i hi.2⟩
  refine ⟨_, pull_closed_end hrem.routes (closed_each _ _) hstep, ?_⟩
  have hsub : ∀ i, i ∈ ({outer, place} : Set ℕ) → ({i} : Set ℕ) ⊆ within {outer, place} w.cursors.size :=
    fun i hi => Set.singleton_subset_iff.2 (.inl hi)
  exact ((hreading.mono (by simp)).trans hmoves (hsub place (by simp))).trans
    (uses_setCursor _ outer .finished) (hsub outer (by simp))

/-- **A branch is opened.** -/
theorem exists_opened {s : Strand α} {x' : Value} (hapart : Apart h d R rs xs stands) (hstands : stands g P w)
    (hbegin : Unopened w P x s (g j)) (hr : rs[j]? = some x) (hhanded : Handed x x') :
    ∃ it seat u g' Q, openRoute x' w = .ok it u ∧ Uses ∅ w u ∧ stands g' Q u ∧
      Q ⊆ within P w.cursors.size ∧ (∀ k, k ≠ j → g' k = g k) ∧ Underway j s seat 0 g' Q u ∧
      Part R seat Q u [] it ∧ ∀ q, seat.branch = .blocks q →
        rs[j]? = some (.ref .blocks q) ∧ it = .ref .iterator w.cursors.size := by
  have hzero : s.pulled 0 = 0 := by cases s <;> rfl
  have hhas : Has P w := hapart.has _ _ _ hstands
  -- a source of blocks is read by a new sequence over its items
  have hpush := fun q : ℕ => uses_push w (.blockItems { outer := some q })
  have hopen : ∀ q : ℕ, openRoute (.ref .blocks q) w = .ok (.ref .iterator w.cursors.size)
      { w with cursors := w.cursors.push (.blockItems { outer := some q }) } := fun _ => rfl
  have hpart : ∀ {seat : Seat} (q : ℕ), seat.branch = .blocks q →
      Part R seat P { w with cursors := w.cursors.push (.blockItems { outer := some q }) } []
        (.ref .iterator w.cursors.size) := fun q hq =>
    .blocks hq Array.getElem?_push_size .nil (notMem_of_has hhas)
  have hstands' := fun q : ℕ =>
    hapart.quiet _ _ _ _ hstands ((hpush q).spares_of_new hhas).quiet
  cases hg : g j with
  | none =>
      rw [hg] at hbegin
      obtain ⟨s, hroute⟩ := hbegin
      obtain ⟨it, u, Q, hit, hQ, hstands'⟩ := hapart.opens hstands hg hr hhanded
      refine ⟨it, .plain it, u, _, Q, hit, uses_iterate hit, hstands', hQ,
        fun k hk => Function.update_of_ne hk .., ⟨?_, .plain s it, nofun⟩, .plain rfl, nofun⟩
      rw [Function.update_self, hzero]
      rfl
  | some start =>
      rw [hg] at hbegin
      cases hbegin with
      | @blocks s q it hq =>
          obtain rfl := hhanded.eq_of_marked rfl
          refine ⟨_, .blocks q it, _, g, P, hopen q, hpush q, hstands' q, subset_within P _, fun _ _ => rfl,
            ⟨hg, .blocks s hq, nofun⟩, hpart q rfl, fun q' hq' => ?_⟩
          cases hq'
          exact ⟨hr, rfl⟩
      | @chunked s n q c it hq hc hcP =>
          obtain rfl := hhanded.eq_of_marked rfl
          have hlt : c < w.cursors.size := (Array.getElem?_eq_some_iff.1 hc).1
          refine ⟨_, .chunked q c it, _, g, P, hopen q, hpush q, hstands' q, subset_within P _,
            fun _ _ => rfl, ⟨hg.trans ?_, .chunked s hq ?_ fun _ => ?_, fun c' hc' => ?_⟩, hpart q rfl,
            fun q' hq' => ?_⟩
          · rw [hzero]
            rfl
          · exact Nat.lt_of_lt_of_le hlt (hpush q).size
          · exact ((hpush q).same c ⟨hlt, fun hmem => hmem⟩).trans hc
          · cases hc'
            exact hcP
          · cases hq'
            exact ⟨hr, rfl⟩

end

/-! ### What is still to come -/

section

variable (R : α → Value → Prop) (r : Value) (rs : List Value) (xs : List (Strand α))
  (stands : Positions → Set ℕ → World → Prop) (p outer place L T : ℕ)

/-- A merge at `p` that is about to ask for its `j`-th branch. -/
structure AtBranch (j k : ℕ) (w : World) : Prop where
  cursor : w.cursors[p]? = some (.chained { outer := some (.ref .iterator outer), opened := k })
  remaining : ∃ g P, Remaining r rs xs stands outer place j g P w ∧ p ∉ P

/-- A merge at `p` that is reading its `i`-th branch, and what the branch has still to give. -/
inductive InBranch (i k : ℕ) (it : Value) (w : World) : List α → Prop
  | mk {t : ℕ} {x : Strand α} {seat : Seat} {l : List α} {g : Positions} {P : Set ℕ}
      (hc : w.cursors[p]? =
        some (.chained { outer := some (.ref .iterator outer), part := some it, opened := k }))
      (hrem : Remaining r rs xs stands outer place (i + 1) g P w) (hpP : p ∉ P) (hx : xs[i]? = some x)
      (ht : t ≤ T) (hunderway : Underway i x seat t g P w) (hpart : Part R seat P w l it)
      (hseat : ∀ q, seat.branch = .blocks q → rs[i]? = some (.ref .blocks q)) :
      InBranch i k it w (l ++ x.rest T t)

/-- A merge that reads one branch after the other, with what it has still to give of the first `L`. -/
inductive Chaining (w : World) : List α → Prop
  | between {j k : ℕ} (hat : AtBranch r rs xs stands p outer place j k w) (hj : j ≤ xs.length) :
      Chaining w (((xs.take L).drop j).flatMap (·.items T))
  | inside {i k : ℕ} {it : Value} {due : List α} (hi : i < xs.length)
      (hin : InBranch R r rs xs stands p outer place T i k it w due) :
      Chaining w (due ++ ((xs.take L).drop (i + 1)).flatMap (·.items T))

end

section

variable {h : Host} {d : ℕ} {R : α → Value → Prop} {r it : Value} {rs : List Value} {xs : List (Strand α)}
  {stands : Positions → Set ℕ → World → Prop} {g : Positions} {P Q E : Set ℕ} {u v w : World}
  {p outer place L T K i j k t : ℕ} {x : Strand α} {seat : Seat} {cs due : List α} {s : Flat Value Value}

/-- A route that is cut into blocks has the cursor that its source of blocks has. -/
theorem Sits.own_blocks (h : Sits w true x seat) {c : ℕ} (hc : seat.own? = some c) :
    ∃ q, seat.branch = .blocks q ∧ w.blocks[q]? = some (.ref .iterator c) := by
  cases h with
  | plain | blocks => cases hc
  | chunked s hplace hcut hlive =>
      cases hc
      exact ⟨_, rfl, hplace⟩

/-- The cursors of a branch that is being read have items of blocks or routes that are cut, or are under
the branches. -/
theorem Underway.of_mem_cursors (hu : Underway i x seat t g P w) {c : ℕ} (hc : c ∈ seat.cursors it P w) :
    (∃ s, w.cursors[c]? = some (.cut s)) ∨ c ∈ P ∨ ∃ s, w.cursors[c]? = some (.blockItems s) := by
  rcases hc with hc | hc | ⟨-, hc⟩
  · exact .inl (hu.sits.own_cut hc)
  · exact .inr (.inl hc)
  · exact .inr (.inr hc)

/-- The remaining branches stay as they are while a branch is read. -/
theorem Remaining.read {g' : Positions} (hrem : Remaining r rs xs stands outer place (i + 1) g P w)
    (hunderway : Underway i x seat t g P w)
    (hseat : ∀ q, seat.branch = .blocks q → rs[i]? = some (.ref .blocks q))
    (hconfined : Confined (seat.cursors it P w) w v) (hQ : Q ⊆ within P w.cursors.size)
    (hstands : stands g' Q v) (hg : ∀ k, k ≠ i → g' k = g k) :
    Remaining r rs xs stands outer place (i + 1) g' Q v := by
  refine hrem.confined hconfined hstands hQ (fun k hk => hg k (Nat.ne_of_gt hk)) ?_ ?_ ?_
  · intro hmem
    rcases hunderway.of_mem_cursors hmem with ⟨s, hs⟩ | hP | ⟨s, hs⟩
    · cases hs.symm.trans hrem.routes
    · exact hrem.outer_notMem hP
    · cases hs.symm.trans hrem.routes
  · intro hmem
    rcases hunderway.of_mem_cursors hmem with ⟨s, hs⟩ | hP | ⟨s, hs⟩
    · exact hrem.coming.ne hs nofun nofun rfl
    · exact hrem.place_notMem hP
    · exact hrem.coming.ne hs nofun nofun rfl
  · rintro k q c s hk hr hq hc hcP (hown | hP | ⟨-, s', hs'⟩)
    · -- two branches would be over the same cursor
      obtain ⟨q', hbranch, hq'⟩ := hunderway.sits.own_blocks hown
      have hki := hrem.sources.own i k q' q _ (hseat q' hbranch) hr hq' hq
      exact Nat.lt_irrefl i (hki ▸ hk)
    · exact hcP hP
    · cases hc.symm.trans hs'

theorem Part.confined (hpart : Part R seat P w cs it) (hv : Confined E w v)
    (hE : ∀ c, it = .ref .iterator c → (∃ s, w.cursors[c]? = some (.blockItems s)) → c ∉ E) :
    Part R seat P v cs it := by
  cases hpart with
  | plain hseat => exact .plain hseat
  | blocks hseat hc hcs hcP =>
      exact .blocks hseat ((hv.same _ (Array.getElem?_eq_some_iff.1 hc).1 (hE _ rfl ⟨_, hc⟩)).trans hc) hcs hcP

/-- The place of the merge may move. -/
theorem Underway.moved {c : Flat Value Value} (hu : Underway i x seat t g P w)
    (hc : w.cursors[p]? = some (.chained c)) (hv : Uses {p} w v) : Underway i x seat t g P v := by
  refine hu.confined hv.confined fun c' hc' => ?_
  rintro rfl
  obtain ⟨s, hs⟩ := hu.sits.own_cut hc'
  cases hc.symm.trans hs

theorem Part.moved {c : Flat Value Value} (hpart : Part R seat P w cs it)
    (hc : w.cursors[p]? = some (.chained c)) (hv : Uses {p} w v) : Part R seat P v cs it := by
  refine hpart.confined hv.confined ?_
  rintro c' - ⟨s, hs⟩ rfl
  cases hc.symm.trans hs

section

variable {H : Host} (hapart : Apart h d R rs xs stands)
  (hA : ∀ k < K, ∀ n, Answers (H.up n) R xs stands k) (hfair : ∀ x ∈ xs, x.Fair)
  (hlimit : ∀ s n, Strand.chunked s n ∈ xs → (n : ℤ) ≤ sliceLimit)
  (hT : ∀ i x, i + 1 < L → xs[i]? = some x → x.turn T = none)
  (hK : ∀ x ∈ xs, ∀ t < T + 1, x.pulled (t + 1) ≤ K) (hfuel : K < H.fuel) (htwo : 1 < H.fuel)

include hapart hA hfair hlimit hK hfuel htwo in
/-- **The branch at hand is asked**: it gives its next item, or is left when it has ended. -/
theorem InBranch.ask (hin : InBranch R r rs xs stands p outer place T i k it w due)
    (hlive : due = [] → ∀ x, xs[i]? = some x → x.turn T = none) :
    (due = [] ∧ ∃ v, Flat.ask (chainCell s p) H.above.above.source k it w = .ok .again v ∧
      AtBranch r rs xs stands p outer place (i + 1) k v) ∨
    ∃ a due' y v, due = a :: due' ∧
      Flat.ask (chainCell s p) H.above.above.source k it w = .ok (.give y) v ∧ R a y ∧
      InBranch R r rs xs stands p outer place T i k it v due' := by
  cases hin with
  | @mk t x seat cs g P hc hrem hpP hx ht hunderway hpart hseat =>
      have hmem : x ∈ xs := List.mem_of_getElem? hx
      have hlt : p < w.cursors.size := (Array.getElem?_eq_some_iff.1 hc).1
      have hcounts : cs = [] → ∀ block, x.turn t = some block → t < T := by
        rintro rfl block hturn
        refine Nat.lt_of_le_of_ne ht ?_
        rintro rfl
        cases hturn.symm.trans (hlive (Strand.rest_self x t) x hx)
      obtain ⟨y, v, g', Q, hpull, hconfined, hQ, hstands, hg, hleft⟩ :=
        (hpart.pull hapart.toFooting hx (hfair x hmem) (hK x hmem) hrem.stands ht hcounts hA
          (fun s n hs => hlimit s n (hs ▸ hmem)) hfuel htwo hunderway).pulled
      have hrem' := hrem.read hunderway hseat hconfined hQ hstands hg
      have hpE : p ∉ seat.cursors it P w := by
        intro hmem
        rcases hunderway.of_mem_cursors hmem with ⟨s, hs⟩ | hP | ⟨s, hs⟩
        · cases hs.symm.trans hc
        · exact hpP hP
        · cases hs.symm.trans hc
      have hcv := (hconfined.same p hlt hpE).trans hc
      have hpQ : p ∉ Q := notMem_of_subset_within hQ hpP hlt
      have hmoved : ∀ {u}, Uses {p} v u → Remaining r rs xs stands outer place (i + 1) g' Q u :=
        hrem'.moved hapart.toFooting hcv nofun nofun nofun nofun hpQ
      cases hdue : cs ++ x.rest T t with
      | nil =>
          rw [hdue] at hleft
          cases hleft
          obtain ⟨u, hask, hmoves, hcu⟩ := ask_end (s := s) hpull hcv
          exact .inl ⟨rfl, u, hask, hcu, g', Q, hmoved hmoves, hpQ⟩
      | cons a due =>
          rw [hdue] at hleft
          cases hleft with
          | item ha ht' hunderway' hpart' =>
              obtain ⟨u, hask, hmoves, hcu⟩ := ask_item (s := s) hpull hcv
              exact .inr ⟨a, _, _, u, rfl, hask, ha, .mk hcu (hmoved hmoves) hpQ hx ht'
                (hunderway'.moved hcv hmoves) (hpart'.moved hcv hmoves) hseat⟩

/-- What the place of a merge needs to be left alone. -/
theorem Remaining.ne {c : Flat Value Value} (hrem : Remaining r rs xs stands outer place j g P w)
    (hc : w.cursors[p]? = some (.chained c)) : p ∉ ({outer, place} : Set ℕ) := by
  rintro (rfl | rfl)
  · cases hc.symm.trans hrem.routes
  · exact hrem.coming.ne hc nofun nofun rfl

include hapart in
/-- **The next branch is opened**, and asked at once. -/
theorem AtBranch.enter (hkept : ∀ f P v, stands f P v → v.branches? r = some rs)
    (hlength : rs.length = xs.length) (hat : AtBranch r rs xs stands p outer place j k w)
    (hx : xs[j]? = some x) (hpos : 0 < H.fuel) :
    ∃ it v, chainTurn H.above.above p s w = Flat.ask (chainCell s p) H.above.above.source (k + 1) it v ∧
      InBranch R r rs xs stands p outer place T j (k + 1) it v (x.items T) := by
  obtain ⟨hc, g, P, hrem, hpP⟩ := hat
  have hlt : p < w.cursors.size := (Array.getElem?_eq_some_iff.1 hc).1
  have hj : j < rs.length := hlength ▸ (List.getElem?_eq_some_iff.1 hx).1
  obtain ⟨x', y, v, hpull, hhanded, hhanded', huses, hrem', hbegin⟩ :=
    hrem.pull (h := H) hapart.toFooting (hkept _ _ _ hrem.stands) (List.getElem?_eq_getElem hj) hpos
  obtain ⟨it, seat, u, g', Q, hopen, hnew, hstands, hQ, hg, hunderway, hpart, hseat⟩ :=
    exists_opened hapart hrem'.stands (hbegin x hx) (List.getElem?_eq_getElem hj) hhanded
  rw [openRoute, ← iterate_of_handed hhanded'] at hopen
  have hcv := (huses.same p ⟨hlt, hrem.ne hc⟩).trans hc
  have hltv : p < v.cursors.size := (Array.getElem?_eq_some_iff.1 hcv).1
  have hcu := (hnew.same p ⟨hltv, fun hmem => hmem⟩).trans hcv
  obtain ⟨t, hturn, hmoves, hct⟩ := turn_between (s := s) hc hpull hopen hcu
  have hpQ : p ∉ Q := notMem_of_subset_within hQ hpP hltv
  have hremu : Remaining r rs xs stands outer place (j + 1) g' Q u :=
    hrem'.confined hnew.confined hstands hQ (fun k hk => hg k (Nat.ne_of_gt hk)) (fun hmem => hmem)
      (fun hmem => hmem) fun _ _ _ _ _ _ _ _ _ hmem => hmem
  refine ⟨it, t, hturn, ?_⟩
  rw [← Strand.rest_zero]
  have hmoved := hremu.moved hapart.toFooting hcu (by simp) (by simp) (by simp) (by simp) hpQ hmoves
  exact .mk (l := []) hct hmoved hpQ hx (Nat.zero_le T) (hunderway.moved hcu hmoves) (hpart.moved hcu hmoves)
    fun q hq => (hseat q hq).1

/-- When all branches have been read, the merge ends. -/
theorem AtBranch.turn_end (hkept : ∀ f P v, stands f P v → v.branches? r = some rs)
    (hat : AtBranch r rs xs stands p outer place rs.length k w) (hpos : 0 < H.fuel) :
    ∃ v, chainTurn H.above.above p s w = .ok .ended v := by
  obtain ⟨hc, g, P, hrem, -⟩ := hat
  have hlt : p < w.cursors.size := (Array.getElem?_eq_some_iff.1 hc).1
  obtain ⟨v, hpull, huses⟩ := hrem.pull_end (h := H) (hkept _ _ _ hrem.stands) hpos
  obtain ⟨t, hturn, -⟩ :=
    Session.turn_end (s := s) hc hpull ((huses.same p ⟨hlt, hrem.ne hc⟩).trans hc)
  exact ⟨t, hturn⟩

include hapart hA hfair hlimit hT hK hfuel htwo

/-- The turns of a merge that is about to ask for a branch: branches that give nothing are passed over. -/
theorem AtBranch.pull (hkept : ∀ f P v, stands f P v → v.branches? r = some rs)
    (hlength : rs.length = xs.length) (hat : AtBranch r rs xs stands p outer place j k w)
    (hj : j ≤ xs.length) {fuel : ℕ} (hturns : xs.length - j < fuel) :
    (((xs.take L).drop j).flatMap (·.items T) = [] ∧ (xs.length < L →
      ∃ v, Turn.pull .outOfFuel (chainTurn H.above.above p s) fuel w = .ok none v)) ∨
    ∃ a due y v, ((xs.take L).drop j).flatMap (·.items T) = a :: due ∧
      Turn.pull .outOfFuel (chainTurn H.above.above p s) fuel w = .ok (some y) v ∧ R a y ∧
      Chaining R r rs xs stands p outer place L T v due := by
  induction n : xs.length - j generalizing j k w fuel with
  | zero =>
      obtain ⟨fuel, rfl⟩ := Nat.exists_eq_succ_of_ne_zero (Nat.ne_of_gt (Nat.zero_lt_of_lt hturns))
      obtain rfl : j = rs.length := by omega
      obtain ⟨v, hturn⟩ := hat.turn_end (H := H) (s := s) hkept (Nat.zero_lt_of_lt htwo)
      refine .inl ⟨?_, fun _ => ⟨v, Turn.pull_of_ended hturn fuel⟩⟩
      rw [List.drop_eq_nil_of_le (hlength ▸ List.length_take_le' L xs)]
      rfl
  | succ n ih =>
      obtain ⟨fuel, rfl⟩ := Nat.exists_eq_succ_of_ne_zero (Nat.ne_of_gt (Nat.zero_lt_of_lt hturns))
      have hlt : j < xs.length := by omega
      by_cases hjL : j < L
      · have hlive : j + 1 < L → ∀ x, xs[j]? = some x → x.turn T = none := fun hnext x => hT j x hnext
        have hdrop : ((xs.take L).drop j).flatMap (·.items T) =
            xs[j].items T ++ ((xs.take L).drop (j + 1)).flatMap (·.items T) := by
          rw [← List.getElem_cons_drop (by simpa using ⟨hjL, hlt⟩), List.flatMap_cons, List.getElem_take]
        rw [hdrop]
        by_cases hlast : xs[j].items T = [] ∧ L = j + 1
        · -- the last branch that counts has given what it has to give
          obtain ⟨hnil, rfl⟩ := hlast
          refine .inl ⟨?_, fun hL => absurd hL (Nat.not_lt_of_le hlt)⟩
          rw [hnil, List.drop_eq_nil_of_le (List.length_take_le _ _)]
          rfl
        · obtain ⟨it, v, hturn, hin⟩ := hat.enter (H := H) (T := T) (s := s) hapart hkept hlength
            (List.getElem?_eq_getElem hlt) (Nat.zero_lt_of_lt htwo)
          rcases hin.ask (s := s) hapart hA hfair hlimit hK hfuel htwo
            (fun hnil => hlive (Nat.lt_of_le_of_ne hjL fun hL => hlast ⟨hnil, hL.symm⟩)) with
            ⟨hnil, u, hask, hat'⟩ | ⟨a, due, y, u, hcons, hask, ha, hin'⟩
          · rw [hnil, Turn.pull_of_again (hturn.trans hask), List.nil_append]
            exact ih hat' hlt (by omega) (by omega)
          · rw [hcons, Turn.pull_of_give (hturn.trans hask)]
            exact .inr ⟨a, _, y, u, rfl, rfl, ha, .inside hlt hin'⟩
      · refine .inl ⟨?_, fun hL => absurd hL (by omega)⟩
        rw [List.drop_eq_nil_of_le (Nat.le_trans (List.length_take_le _ _) (Nat.le_of_not_lt hjL))]
        rfl

/-- **One read** of a merge that reads one branch after the other. -/
theorem Chaining.pull (hkept : ∀ f P v, stands f P v → v.branches? r = some rs)
    (hlength : rs.length = xs.length) (hch : Chaining R r rs xs stands p outer place L T w due) {fuel : ℕ}
    (hturns : xs.length + 1 < fuel) :
    (due = [] ∧ (xs.length < L →
      ∃ v, Turn.pull .outOfFuel (chainTurn H.above.above p s) fuel w = .ok none v)) ∨
    ∃ a due' y v, due = a :: due' ∧
      Turn.pull .outOfFuel (chainTurn H.above.above p s) fuel w = .ok (some y) v ∧ R a y ∧
      Chaining R r rs xs stands p outer place L T v due' := by
  cases hch with
  | between hat hj => exact hat.pull hapart hA hfair hlimit hT hK hfuel htwo hkept hlength hj (by omega)
  | @inside i k it due hi hin =>
      obtain ⟨fuel, rfl⟩ := Nat.exists_eq_succ_of_ne_zero (Nat.ne_of_gt (Nat.zero_lt_of_lt hturns))
      have hturn : chainTurn H.above.above p s w =
          Flat.ask (chainCell s p) H.above.above.source k it w := by
        cases hin with
        | mk hc =>
            rw [chainTurn, Flat.turn]
            exact Act.bind_of_ok (read_chain hc)
      by_cases hlast : due = [] ∧ L ≤ i + 1
      · obtain ⟨rfl, hL⟩ := hlast
        refine .inl ⟨?_, fun hL' => absurd hL' (by omega)⟩
        rw [List.drop_eq_nil_of_le (Nat.le_trans (List.length_take_le _ _) hL)]
        rfl
      · rcases hin.ask (s := s) hapart hA hfair hlimit hK hfuel htwo
          (fun hnil x => hT i x (by simpa [hnil] using hlast)) with
          ⟨rfl, u, hask, hat⟩ | ⟨a, due', y, u, rfl, hask, ha, hin'⟩
        · rw [Turn.pull_of_again (hturn.trans hask), List.nil_append]
          exact hat.pull hapart hA hfair hlimit hT hK hfuel htwo hkept hlength hi (by omega)
        · rw [Turn.pull_of_give (hturn.trans hask)]
          exact .inr ⟨a, _, y, u, rfl, rfl, ha, .inside hi hin'⟩

end

/-! ### Reads to the end -/

/-- What a merge has still to give stays the same when its items are handed out. -/
theorem Chaining.calm (hfooting : Footing R stands)
    (hch : Chaining R r rs xs stands p outer place L T w due) (hv : Uses ∅ w v) :
    Chaining R r rs xs stands p outer place L T v due := by
  have hrem : ∀ {j g P}, Remaining r rs xs stands outer place j g P w →
      Remaining r rs xs stands outer place j g P v := fun hrem =>
    hrem.confined hv.confined
      (hfooting.quiet _ _ _ _ hrem.stands (hv.spares_of_new (hfooting.has _ _ _ hrem.stands)).quiet)
      (subset_within _ _) (fun _ _ => rfl) (fun hmem => hmem) (fun hmem => hmem)
      fun _ _ _ _ _ _ _ _ _ hmem => hmem
  have hcursor : ∀ {c}, w.cursors[p]? = some c → v.cursors[p]? = some c := fun hc =>
    (hv.same p ⟨(Array.getElem?_eq_some_iff.1 hc).1, fun hmem => hmem⟩).trans hc
  cases hch with
  | between hat hj =>
      obtain ⟨hc, g, P, hremaining, hpP⟩ := hat
      exact .between ⟨hcursor hc, g, P, hrem hremaining, hpP⟩ hj
  | inside hi hin =>
      obtain ⟨hc, hremaining, hpP, hx, ht, hunderway, hpart, hseat⟩ := hin
      exact .inside hi (.mk (hcursor hc) (hrem hremaining) hpP hx ht
        (hunderway.confined hv.confined fun _ _ hmem => hmem)
        (hpart.confined hv.confined fun _ _ _ hmem => hmem) hseat)

theorem Chaining.exists_state (hch : Chaining R r rs xs stands p outer place L T w due) :
    ∃ s, w.cursors[p]? = some (.chained s) := by
  cases hch with
  | between hat => exact ⟨_, hat.cursor⟩
  | inside _ hin =>
      obtain ⟨hc⟩ := hin
      exact ⟨_, hc⟩

/-- **Reads from the beginning** give everything that a merge has still to give of the first `L` branches, if
those before the last of them have ended; and then it ends if there are no more. -/
theorem Chaining.reads {H : Host} (hapart : Apart h d R rs xs stands)
    (hA : ∀ k < K, ∀ n, Answers (H.up n) R xs stands k) (hfair : ∀ x ∈ xs, x.Fair)
    (hlimit : ∀ s n, Strand.chunked s n ∈ xs → (n : ℤ) ≤ sliceLimit)
    (hT : ∀ i x, i + 1 < L → xs[i]? = some x → x.turn T = none)
    (hK : ∀ x ∈ xs, ∀ t < T + 1, x.pulled (t + 1) ≤ K) (hfuel : K < H.fuel)
    (hkept : ∀ f P v, stands f P v → v.branches? r = some rs) (hlength : rs.length = xs.length)
    (hturns : xs.length + 1 < H.fuel) (hch : Chaining R r rs xs stands p outer place L T w due) :
    ∃ ys v, Reads H.above.above.above (.ref .iterator p) ys w v ∧ List.Forall₂ R due ys ∧
      (xs.length < L → ∃ u, H.above.above.above.pull (.ref .iterator p) v = .ok none u) := by
  have hread : ∀ {w due}, Chaining R r rs xs stands p outer place L T w due →
      ∃ s, w.cursors[p]? = some (.chained s) ∧
        ((due = [] ∧ (xs.length < L →
          ∃ v, Turn.pull .outOfFuel (chainTurn H.above.above p s) H.fuel w = .ok none v)) ∨
        ∃ a due' y v, due = a :: due' ∧
          Turn.pull .outOfFuel (chainTurn H.above.above p s) H.fuel w = .ok (some y) v ∧ R a y ∧
          Chaining R r rs xs stands p outer place L T v due') := by
    intro w due hch
    obtain ⟨s, hs⟩ := hch.exists_state
    exact ⟨s, hs, hch.pull hapart hA hfair hlimit hT hK hfuel
      (Nat.lt_of_le_of_lt (Nat.le_add_left 1 _) hturns) hkept hlength hturns⟩
  induction due generalizing w with
  | nil =>
      obtain ⟨s, hs, ⟨-, hend⟩ | ⟨a, due', y, v, hcons, -⟩⟩ := hread hch
      · refine ⟨[], w, .none w, .nil, fun hL => ?_⟩
        obtain ⟨v, hpull⟩ := hend hL
        exact ⟨_, Act.bind_of_ok (nextItem_of_pull (h := H.above.above) hs rfl hpull)⟩
      · cases hcons
  | cons a due ih =>
      obtain ⟨s, hs, ⟨hnil, -⟩ | ⟨a', due', y, v, hcons, hpull, ha, hch'⟩⟩ := hread hch
      · cases hnil
      · cases hcons
        obtain ⟨y', marks, hpulled, hhanded⟩ :=
          pull_of_nextItem (nextItem_of_pull (h := H.above.above) hs rfl hpull)
        obtain ⟨ys, u, hreads, hys, hend⟩ := ih (hch'.calm hapart.toFooting (uses_marks v marks))
        exact ⟨y' :: ys, u, .item hpulled hreads, .cons (hapart.handed _ _ _ ha hhanded) hys, hend⟩

theorem up_add (h : Host) (m n : ℕ) : (h.up m).up n = h.up (m + n) := by
  induction n with
  | zero => rfl
  | succ n ih => exact congrArg Host.above ih

/-- A merge that reads one branch after the other is called, and nothing is read. -/
theorem Mergeable.exists_exhaustive (hm : Mergeable h d R r rs xs stands w) :
    ∃ p outer place u, (∀ H : Host, H.callOp .mergeExhaustive [r] [] w = .ok (.ref .iterator p) u) ∧
      AtBranch r rs xs stands p outer place 0 0 u := by
  obtain ⟨c, hbranches, hcoming⟩ := iterate_coming hm.branches
  obtain ⟨g, P, hstands, hbegins⟩ := hm.begins
  have hhas := hm.apart.has _ _ _ hstands
  let place := w.cursors.size
  let w₁ : World := { w with cursors := w.cursors.push c }
  let w₂ : World := { w₁ with cursors := w₁.cursors.push (.each .route (.ref .iterator place)) }
  let w₃ : World := { w₂ with
    cursors := w₂.cursors.push (.chained { outer := some (.ref .iterator w₁.cursors.size) }) }
  have h₁ : Uses ∅ w w₁ := uses_push w c
  have h₂ : Uses ∅ w₁ w₂ := uses_push w₁ _
  have h₃ : Uses ∅ w₂ w₃ := uses_push w₂ _
  have huses : Uses ∅ w w₃ := (h₁.trans h₂ (Set.empty_subset _)).trans h₃ (Set.empty_subset _)
  have hle : ∀ {i}, w.cursors.size ≤ i → i ∉ P := fun hi hmem => Nat.not_lt_of_le hi (hhas _ hmem)
  refine ⟨w₂.cursors.size, w₁.cursors.size, place, w₃, fun H => ?_, Array.getElem?_push_size, g, P,
    ⟨?_, ⟨?_, fun k q hq => ?_⟩, ?_, ?_, hle h₁.size, hle (Nat.le_refl _), fun k r x _ hr hx => ?_⟩,
    hle (Nat.le_trans h₁.size h₂.size)⟩
  · have hperform : H.perform .mergeExhaustive { bound := [some r], extra := [] } w =
        .ok (.ref .iterator w₂.cursors.size) w₃ := by
      change openExhaustive r w = _
      rw [openExhaustive, Act.bind_of_ok hbranches]
      exact Act.bind_of_ok (newCursor_eq _ w₁)
    exact (callOp_of_ok rfl hperform).trans rfl
  · exact hm.apart.quiet _ _ _ _ hstands (huses.spares_of_new hhas).quiet
  · exact hm.own
  · have hk : k < xs.length := hm.length ▸ (List.getElem?_eq_some_iff.1 hq).1
    obtain ⟨x, hx⟩ : ∃ x, xs[k]? = some x := ⟨_, List.getElem?_eq_getElem hk⟩
    have hbegin := hbegins k _ x hq hx
    generalize g k = start at hbegin
    cases hbegin with
    | plain s hne => exact absurd rfl (hne q)
    | blocks s hit => exact ⟨_, hit⟩
    | chunked s hit => exact ⟨_, hit⟩
  · have hlt : w₁.cursors.size < w₂.cursors.size := by simp [w₂]
    exact (h₃.same _ ⟨hlt, fun hmem => hmem⟩).trans Array.getElem?_push_size
  · have hlt : place < w₁.cursors.size := hcoming.lt_size
    exact hcoming.congr ((h₂.trans h₃ (Set.empty_subset _)).same place ⟨hlt, fun hmem => hmem⟩)
  · exact (hbegins k r x hr hx).confined huses.confined (subset_within P _) fun _ _ _ _ _ _ _ hmem => hmem

/-- What a merge that reads one branch after the other gives of the first `L` branches, if those before the
last of them have ended and the branches that are asked for stay what they are. -/
theorem Mergeable.reads_each {N n : ℕ} (hm : Mergeable h d R r rs xs stands w)
    (hkept : ∀ f P v, stands f P v → v.branches? r = some rs)
    (hT : ∀ i x, i + 1 < L → xs[i]? = some x → x.turn T = none)
    (hK : ∀ x ∈ xs, ∀ t < T + 1, x.pulled (t + 1) ≤ K)
    (hA : ∀ k < K, ∀ n, d ≤ n → Answers ((h.grant N).up n) R xs stands k) (hKN : K < N)
    (hL : xs.length + 1 < N) (hn : d ≤ n) (hat : AtBranch r rs xs stands p outer place 0 0 u) :
    ∃ ys v, Reads ((h.grant N).up (n + 3)) (.ref .iterator p) ys u v ∧
      List.Forall₂ R ((xs.take L).flatMap (·.items T)) ys ∧
      (xs.length < L → ∃ u', ((h.grant N).up (n + 3)).pull (.ref .iterator p) v = .ok none u') := by
  refine Chaining.reads (H := (h.grant N).up n) hm.apart (fun k hk m => ?_) hm.fair hm.limit hT hK
    (by rwa [Host.fuel_up]) hkept hm.length (by rwa [Host.fuel_up]) (.between (j := 0) hat (Nat.zero_le _))
  rw [up_add]
  exact hA k hk (n + m) (Nat.le_add_right_of_le hn)

/-- **One branch after the other**: a merge that reads its branches in this way gives all the items of each
of them, if every branch has ended and the branches that are asked for stay what they are. -/
theorem Mergeable.eventually_gives_each (hm : Mergeable h d R r rs xs stands w)
    (hkept : ∀ f P v, stands f P v → v.branches? r = some rs) (hT : ∀ x ∈ xs, x.turn T = none)
    (hat : AtBranch r rs xs stands p outer place 0 0 u) :
    ∀ᶠ N in atTop, ∀ n, d + 3 ≤ n → ∃ ys v, Gives ((h.grant N).up n) (.ref .iterator p) ys u v ∧
      List.Forall₂ R (xs.flatMap (·.items T)) ys := by
  obtain ⟨K, hK⟩ := exists_pulled_le xs (T + 1)
  filter_upwards [hm.apart.eventually_answers K (xs.length + 2)] with N hN n hn
  obtain ⟨hKN, hL, hA⟩ := hN
  obtain ⟨n, rfl⟩ := Nat.exists_eq_add_of_le' (Nat.le_trans (Nat.le_add_left 3 d) hn)
  obtain ⟨ys, v, hreads, hys, hend⟩ := hm.reads_each (L := xs.length + 1) hkept
    (fun i x _ hx => hT x (List.mem_of_getElem? hx)) hK hA hKN hL (Nat.le_of_add_le_add_right hn) hat
  rw [List.take_of_length_le (Nat.le_succ _)] at hys
  obtain ⟨v', hpull⟩ := hend (Nat.lt_succ_self _)
  exact ⟨ys, v', hreads.gives hpull, hys⟩

end

end GraphRoutes.Session
