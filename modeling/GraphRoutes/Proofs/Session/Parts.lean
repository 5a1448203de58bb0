/-
**The parts of a merge that reads one branch after the other.**

Such a merge reads a branch to its end before it opens the next one.  A route is read by its iterator, and
a source of blocks by a sequence of its own, which gives the items of the blocks.  What a part has still to
give is the rest of the block at hand, and all the turns that are still to come.

Main definitions:

* `GraphRoutes.Session.Underway` — a branch that has had some turns;
* `GraphRoutes.Session.Part` — a branch that is being read, and the block at hand.

Main results:

* `GraphRoutes.Session.pull_blockItems`, `GraphRoutes.Session.pull_blockItems_next` — the items of blocks;
* `GraphRoutes.Session.Part.pull` — **one read of a part**.
-/
import GraphRoutes.Proofs.Session.Strands

set_option relaxedAutoImplicit false
set_option autoImplicit false

namespace GraphRoutes.Session

open World Merge Route

/-! ### The items of blocks -/

section

variable {h : Host} {q k fuel : ℕ} {u v w : World} {a : Value} {as : List Value} {part : Option (List Value)}

/-- The items of the blocks of a source, apart from the world. -/
def blockItems (h : Host) : Machine World Fault (Flat ℕ (List Value)) Value :=
  flatten h.readBlock pure Source.ofList

theorem pull_stepCursor_blockItems (fuel : ℕ) (s : Flat ℕ (List Value)) :
    (stepCursor h).pull fuel (.blockItems s) = Pull.map .blockItems <$> (blockItems h).pull fuel s := by
  have hstep : ∀ s, stepCursor h (.blockItems s) = Step.map Cursor.blockItems <$> blockItems h s :=
    fun _ => rfl
  exact Machine.pull_map Cursor.blockItems hstep fuel s

/-- An item of the block at hand is given. -/
theorem blockItems_cons :
    blockItems h { outer := some q, part := some (a :: as), opened := k } w =
      .ok (.give a { outer := some q, part := some as, opened := k }) w := by
  simp [blockItems, flatten, Machine.ofTurn, Flat.turn, Flat.ask, Flat.advance, Cell.read, Cell.modify,
    Cell.beside, Source.ofList, Act.beside, bind, EStateM.bind, pure, EStateM.pure]

/-- A block that has been given is left. -/
theorem blockItems_nil :
    blockItems h { outer := some q, part := some [], opened := k } w =
      .ok (.skip { outer := some q, opened := k }) w := rfl

/-- The next block is begun. -/
theorem blockItems_next (hread : h.readBlock q w = .ok (some (a :: as, q)) v) :
    blockItems h { outer := some q, opened := k } w =
      .ok (.give a { outer := some q, part := some as, opened := k + 1 }) v := by
  simp [blockItems, flatten, Machine.ofTurn, Flat.turn, Flat.ask, Flat.advance, Flat.enter, Cell.read,
    Cell.modify, Cell.beside, Source.ofList, Act.beside, Act.attempt, bind, EStateM.bind, pure, EStateM.pure,
    hread]

/-- The source of blocks has come to its end. -/
theorem blockItems_end (hread : h.readBlock q w = .ok none v) :
    blockItems h { outer := some q, opened := k } w = .ok (.idle { outer := none, opened := k }) v := by
  simp [blockItems, flatten, Machine.ofTurn, Flat.turn, Flat.close, Cell.read, Cell.modify, Cell.beside,
    Act.beside, Act.attempt, bind, EStateM.bind, pure, EStateM.pure, hread]

theorem pull_blockItems (fuel : ℕ) :
    (stepCursor h).pull (fuel + 1) (.blockItems { outer := some q, part := some (a :: as), opened := k }) w =
      .ok (.item a (.blockItems { outer := some q, part := some as, opened := k })) w := by
  rw [pull_stepCursor_blockItems, map_eq_pure_bind]
  exact Act.bind_of_ok (Machine.pull_of_give blockItems_cons fuel)

/-- Behind a block, the source of blocks is asked for the next one. -/
theorem pull_blockItems_next {r : Option (List Value)} (hpart : part.getD [] = []) (hr : r ≠ some [])
    (hread : h.readBlock q w = .ok (r.map fun block => (block, q)) v) (fuel : ℕ) :
    (r = none ∧ ∃ rest, (stepCursor h).pull (fuel + 2)
      (.blockItems { outer := some q, part, opened := k }) w = .ok (.ended rest) v) ∨
    ∃ a as, r = some (a :: as) ∧ (stepCursor h).pull (fuel + 2)
      (.blockItems { outer := some q, part, opened := k }) w =
        .ok (.item a (.blockItems { outer := some q, part := some as, opened := k + 1 })) v := by
  have hleave : ∃ n, (blockItems h).pull (fuel + 2) { outer := some q, part, opened := k } w =
      (blockItems h).pull (n + 1) { outer := some q, opened := k } w := by
    cases part with
    | none => exact ⟨fuel + 1, rfl⟩
    | some as =>
        cases hpart
        exact ⟨fuel, Machine.pull_of_skip blockItems_nil (fuel + 1)⟩
  obtain ⟨n, hn⟩ := hleave
  simp only [pull_stepCursor_blockItems, map_eq_pure_bind]
  cases r with
  | none => exact .inl ⟨rfl, _, Act.bind_of_ok (hn.trans (Machine.pull_of_idle (blockItems_end hread) n))⟩
  | some block =>
      cases block with
      | nil => exact absurd rfl hr
      | cons a as =>
          exact .inr ⟨a, as, rfl, Act.bind_of_ok (hn.trans (Machine.pull_of_give (blockItems_next hread) n))⟩

theorem closed_blockItems (s : Flat ℕ (List Value)) : Closed (.blockItems s) :=
  ⟨nofun, nofun, fun _ _ => rfl⟩

end

/-! ### Branches that are being read -/

variable {α : Type}

/-- A branch that has had its first `t` turns. -/
structure Underway (i : ℕ) (x : Strand α) (seat : Seat) (t : ℕ) (g : Positions) (P : Set ℕ) (w : World) :
    Prop where
  position : g i = some (seat.source, x.pulled t)
  sits : Sits w true x seat
  own : ∀ c, seat.own? = some c → c ∉ P

/-- The iterator over a branch, and the items of the block at hand that it has still to give. -/
inductive Part (R : α → Value → Prop) (seat : Seat) (P : Set ℕ) (w : World) : List α → Value → Prop
  | plain {it : Value} (hseat : seat.branch = .plain it) : Part R seat P w [] it
  | blocks {q c k : ℕ} {part : Option (List Value)} {cs : List α} (hseat : seat.branch = .blocks q)
      (hc : w.cursors[c]? = some (.blockItems { outer := some q, part, opened := k }))
      (hcs : List.Forall₂ R cs (part.getD [])) (hcP : c ∉ P) : Part R seat P w cs (.ref .iterator c)

/-- The cursors that are moved when a branch is read. -/
def Seat.cursors (seat : Seat) (it : Value) (P : Set ℕ) (w : World) : Set ℕ :=
  {c | seat.own? = some c ∨ c ∈ P ∨ it = .ref .iterator c ∧ ∃ s, w.cursors[c]? = some (.blockItems s)}

section

variable {h : Host} {R : α → Value → Prop} {xs : List (Strand α)} {x : Strand α} {seat : Seat}
  {stands : Positions → Set ℕ → World → Prop} {g : Positions} {P Q : Set ℕ} {u v w : World} {i t K T : ℕ}
  {cs : List α} {it : Value}

/-- What moves none of its cursors leaves a branch underway. -/
theorem Underway.confined (hu : Underway i x seat t g P w) {E : Set ℕ} (hv : Confined E w v)
    (hE : ∀ c, seat.own? = some c → c ∉ E) : Underway i x seat t g P v :=
  ⟨hu.position, hu.sits.confined hv hE, hu.own⟩

/-- The cursor of a route that is cut into blocks. -/
theorem Sits.own_cut (h : Sits w true x seat) {c : ℕ} (hc : seat.own? = some c) :
    ∃ s, w.cursors[c]? = some (.cut s) := by
  cases h with
  | plain | blocks => cases hc
  | chunked s hplace hcut hlive =>
      cases hc
      exact ⟨_, hlive rfl⟩

/-- What a part has still to give, once it has given its next item, if there is one. -/
inductive Part.Left (R : α → Value → Prop) (i : ℕ) (x : Strand α) (seat : Seat) (T : ℕ) (it : Value)
    (g : Positions) (P : Set ℕ) (w : World) : List α → Option Value → Prop
  | ended (hover : seat.branch = .plain it ∨ ∃ c, it = .ref .iterator c ∧
      w.cursors[c]? = some .finished ∧ c ∉ P) : Part.Left R i x seat T it g P w [] none
  | item {a : α} {l : List α} {y : Value} {t : ℕ} (ha : R a y) (ht : t ≤ T)
      (hunderway : Underway i x seat t g P w) (hpart : Part R seat P w l it) :
      Part.Left R i x seat T it g P w (a :: (l ++ x.rest T t)) (some y)

/-- The place of a sequence of items in blocks is not that of a route that is cut into blocks. -/
theorem Underway.own_ne (hu : Underway i x seat t g P w) {c c' : ℕ} {s : Flat ℕ (List Value)}
    (hc : w.cursors[c]? = some (.blockItems s)) (hc' : seat.own? = some c') : c' ≠ c := by
  rintro rfl
  obtain ⟨s', hs'⟩ := hu.sits.own_cut hc'
  cases hc.symm.trans hs'

theorem readBlock_of_turn {q : ℕ} {b : Branch Value ℕ} {r : Option (List Value)} (hb : b = .blocks q)
    (hturn : b.turn h.source h.readBlock w = .ok (r.map fun block => (block, b)) v) :
    h.readBlock q w = .ok (r.map fun block => (block, q)) v := by
  subst hb
  obtain ⟨r', u, hread, hr⟩ := Act.bind_eq_ok_iff.1 hturn
  cases r' with
  | none =>
      cases r with
      | none =>
          cases hr
          exact hread
      | some => cases hr
  | some block =>
      cases r with
      | none => cases hr
      | some =>
          cases hr
          exact hread

/-- The next item of the block at hand is given, and nothing else is asked. -/
theorem exists_pull_at_hand (hfooting : Footing R stands) {q c k : ℕ} {a : α} {b : Value} {bs : List Value}
    (hseat : seat.branch = .blocks q)
    (hc : w.cursors[c]? = some (.blockItems { outer := some q, part := some (b :: bs), opened := k }))
    (ha : R a b) (hcs : List.Forall₂ R cs bs) (hcP : c ∉ P) (hstands : stands g P w)
    (hunderway : Underway i x seat t g P w) (hfuel : 0 < h.fuel) :
    ∃ y v, h.above.pull (.ref .iterator c) w = .ok (some y) v ∧ Uses {c} w v ∧ stands g P v ∧ R a y ∧
      Underway i x seat t g P v ∧ Part R seat P v cs (.ref .iterator c) := by
  obtain ⟨fuel, hsucc⟩ := Nat.exists_eq_succ_of_ne_zero (Nat.ne_of_gt hfuel)
  have hstep : (stepCursor h).pull h.fuel
      (.blockItems { outer := some q, part := some (b :: bs), opened := k }) (w.reading c) =
      .ok (.item b (.blockItems { outer := some q, part := some bs, opened := k })) (w.reading c) := by
    rw [hsucc]
    exact pull_blockItems fuel
  obtain ⟨y, marks, hpull, hhanded⟩ := exists_pull_closed hc (closed_blockItems _) hstep
  have huses : Uses {c} w { w.reading c with
      cursors := (w.reading c).cursors.setIfInBounds c
        (.blockItems { outer := some q, part := some bs, opened := k }), marks } :=
    (uses_setCursor w c .running).trans (uses_settle (w.reading c) c _ marks) (subset_within {c} _)
  have hlt : c < (w.reading c).cursors.size := by
    rw [size_reading]
    exact (Array.getElem?_eq_some_iff.1 hc).1
  refine ⟨y, _, hpull, huses, ?_, hfooting.handed _ _ _ ha hhanded, ?_,
    .blocks hseat (Array.getElem?_setIfInBounds_self_of_lt hlt) hcs hcP⟩
  · exact hfooting.quiet _ _ _ _ hstands
      (huses.spares_of_notMem (hfooting.has _ _ _ hstands) hcP).quiet
  · exact hunderway.confined huses.confined fun c' hc' => hunderway.own_ne hc hc'

/-- Between `w` and `v`, a branch has had its turn `t`, for the sequence of its items at `c`.  It has come from
`P` to `Q`. -/
structure Part.Turned (stands : Positions → Set ℕ → World → Prop) (i : ℕ) (x : Strand α) (seat : Seat) (t c : ℕ)
    (g : Positions) (P Q : Set ℕ) (w v : World) : Prop where
  confined : Confined (seat.cursors (.ref .iterator c) P w) w v
  moved : Q ⊆ within P w.cursors.size
  position : stands (Function.update g i (some (seat.source, x.pulled (t + 1)))) Q v
  sits : Sits v (x.turn t).isSome x seat
  apart : c ∉ Q
  own : ∀ c', seat.own? = some c' → c' ∉ Q ∧ c' ≠ c

/-- The sequence of the items is settled behind the turn. -/
theorem Part.Turned.settle {c : ℕ} {s : Flat ℕ (List Value)} (hfooting : Footing R stands)
    (hv : Part.Turned stands i x seat t c g P Q w v) (hc : w.cursors[c]? = some (.blockItems s)) (hu : Uses {c} v u) :
    Part.Turned stands i x seat t c g P Q w u where
  confined := hv.confined.trans hu.confined
    ((Set.singleton_subset_iff.2 (.inr (.inr ⟨rfl, _, hc⟩))).trans (subset_within _ _))
  moved := hv.moved
  position := hfooting.quiet _ _ _ _ hv.position
    (hu.spares_of_notMem (hfooting.has _ _ _ hv.position) hv.apart).quiet
  sits := hv.sits.confined hu.confined fun c' hc' => (hv.own c' hc').2
  apart := hv.apart
  own := hv.own

/-- What one read of a part comes to. -/
structure Part.Pulled (h : Host) (R : α → Value → Prop) (stands : Positions → Set ℕ → World → Prop) (i : ℕ)
    (x : Strand α) (seat : Seat) (T : ℕ) (it : Value) (g : Positions) (P : Set ℕ) (w : World)
    (due : List α) : Prop where
  pulled : ∃ r v g' Q, h.pull it w = .ok r v ∧ Confined (seat.cursors it P w) w v ∧
    Q ⊆ within P w.cursors.size ∧ stands g' Q v ∧ (∀ j, j ≠ i → g' j = g j) ∧
    Part.Left R i x seat T it g' Q v due r

section

variable (hfooting : Footing R stands) (hx : xs[i]? = some x) (hfair : x.Fair)
  (hlive : ∀ block, x.turn t = some block → t < T) (hK : ∀ t < T + 1, x.pulled (t + 1) ≤ K)
  (hstands : stands g P w) (ht : t ≤ T)

include hx hfair hlive hK hstands ht

/-- A route is read by its iterator. -/
theorem pulled_plain (hA : ∀ k < K, Answers h R xs stands k) (hseat : seat.branch = .plain it)
    (hunderway : Underway i x seat t g P w) :
    Part.Pulled h R stands i x seat T it g P w (x.rest T t) := by
  obtain ⟨hg, hsits, -⟩ := hunderway
  cases hsits with
  | blocks | chunked => cases hseat
  | plain s it' =>
      cases hseat
      obtain ⟨r, v, Q, hask, hr, hconfined, hQ, hstands'⟩ :=
        hA t (hK t (Nat.lt_succ_of_le ht)) g P w i _ it hx hstands hg
      obtain ⟨y, rfl, hpull⟩ := pull_of_ask (by simp) hask
      refine ⟨y, v, _, Q, hpull, hconfined.mono fun c hc => .inr (.inl hc), hQ, hstands',
        fun j hj => Function.update_of_ne hj .., ?_⟩
      change Option.Rel _ ((Strand.plain s).turn t) _ at hr
      cases hturn : (Strand.plain s).turn t with
      | none =>
          rw [hturn] at hr
          rw [Strand.rest_of_none hfair hturn]
          cases y with
          | none => exact .ended (.inl rfl)
          | some y => cases hr
      | some block =>
          rw [hturn] at hr
          have hlt := hlive block hturn
          have hrest := Strand.rest_of_lt hturn hlt
          cases y with
          | none => cases hr
          | some y =>
              obtain ⟨hblock⟩ := hr
              obtain _ | ⟨ha, hnil⟩ := hblock
              cases hnil
              rw [hrest]
              exact .item (l := []) ha hlt ⟨Function.update_self .., .plain s it, nofun⟩ (.plain rfl)

include hfooting

omit hlive hK ht in
/-- A branch has its next turn while the sequence of its items is being read. -/
theorem exists_turned (hpulled : x.pulled (t + 1) ≤ K) (hA : ∀ k < K, Answers h R xs stands k)
    (hA' : ∀ k < K, Answers h.above R xs stands k)
    (hlimit : ∀ s n, x = .chunked s n → (n : ℤ) ≤ sliceLimit) (hfuel : K < h.fuel) {q c : ℕ}
    {s : Flat ℕ (List Value)} (hseat : seat.branch = .blocks q) (hc : w.cursors[c]? = some (.blockItems s))
    (hcP : c ∉ P) (hunderway : Underway i x seat t g P w) :
    ∃ r v Q, h.above.readBlock q (w.reading c) = .ok (r.map fun block => (block, q)) v ∧
      Option.Rel (List.Forall₂ R) (x.turn t) r ∧ Part.Turned stands i x seat t c g P Q w v ∧ c < v.cursors.size := by
  have hreading : Uses {c} w (w.reading c) := uses_setCursor w c .running
  have hsits := hunderway.sits.confined hreading.confined fun c' hc' => hunderway.own_ne hc hc'
  obtain ⟨r, v, Q, hasked, hr, hconfined, hQ, hstands', hsit⟩ := hsits.turn hfooting hA hA' hx hfair hlimit
    (hfooting.quiet _ _ _ _ hstands
      (hreading.spares_of_notMem (hfooting.has _ _ _ hstands) hcP).quiet)
    hunderway.position hunderway.own hpulled hfuel
  have hsize : c < (w.reading c).cursors.size := by
    rw [size_reading]
    exact (Array.getElem?_eq_some_iff.1 hc).1
  refine ⟨r, v, Q, readBlock_of_turn hseat hasked, hr, ⟨?_, by rwa [size_reading] at hQ, hstands', hsit,
    notMem_of_subset_within hQ hcP hsize, fun c' hc' => ⟨?_, hunderway.own_ne hc hc'⟩⟩,
    Nat.lt_of_lt_of_le hsize hconfined.size⟩
  · refine (hreading.confined.mono (Set.singleton_subset_iff.2 (.inr (.inr ⟨rfl, _, hc⟩)))).trans
      (hconfined.mono ?_) (subset_within _ _)
    rintro c' (hc' | hc')
    · exact .inl hc'
    · exact .inr (.inl hc')
  · exact notMem_of_subset_within hQ (hunderway.own c' hc') (hsits.own_lt hc')

omit hlive hK ht in
/-- Behind a block the source is asked for the next one, and its first item is given. -/
theorem exists_pull_next (hpulled : x.pulled (t + 1) ≤ K) (hA : ∀ k < K, Answers h R xs stands k)
    (hA' : ∀ k < K, Answers h.above R xs stands k)
    (hlimit : ∀ s n, x = .chunked s n → (n : ℤ) ≤ sliceLimit) (hfuel : K < h.fuel) (htwo : 1 < h.fuel)
    {q c k : ℕ} {part : Option (List Value)} (hseat : seat.branch = .blocks q)
    (hc : w.cursors[c]? = some (.blockItems { outer := some q, part, opened := k }))
    (hnil : part.getD [] = []) (hcP : c ∉ P) (hunderway : Underway i x seat t g P w) :
    ∃ r v Q, h.above.above.pull (.ref .iterator c) w = .ok r v ∧ Part.Turned stands i x seat t c g P Q w v ∧
      (x.turn t = none ∧ r = none ∧ v.cursors[c]? = some .finished ∨ ∃ a cs y ys, x.turn t = some (a :: cs) ∧
        r = some y ∧ R a y ∧ List.Forall₂ R cs ys ∧
        v.cursors[c]? = some (.blockItems { outer := some q, part := some ys, opened := k + 1 })) := by
  obtain ⟨fuel, hsucc⟩ := Nat.exists_eq_add_of_le' htwo
  obtain ⟨r, v, Q, hread, hr, hv, hlt⟩ := exists_turned hfooting hx hfair hstands hpulled hA hA' hlimit hfuel
    hseat hc hcP hunderway
  have hstep : (stepCursor h.above).pull h.above.fuel = (stepCursor h.above).pull (fuel + 2) := by
    rw [Host.fuel_above, hsucc]
  cases hturn : x.turn t with
  | none =>
      rw [hturn] at hr
      cases hr
      rcases pull_blockItems_next (k := k) (r := none) hnil (by simp) hread fuel with ⟨-, rest, hpull⟩ | ⟨_, _, hr, -⟩
      · exact ⟨none, _, Q, pull_closed_end hc (closed_blockItems _) (hstep ▸ hpull),
          hv.settle hfooting hc (uses_setCursor v c .finished),
          .inl ⟨rfl, rfl, Array.getElem?_setIfInBounds_self_of_lt hlt⟩⟩
      · cases hr
  | some block =>
      rw [hturn] at hr
      obtain ⟨hblock⟩ := hr
      cases hblock with
      | nil => exact absurd hturn (Strand.filled hfair t)
      | @cons a b as bs ha has =>
          rcases pull_blockItems_next (k := k) hnil (by simp) hread fuel with ⟨hr, -⟩ | ⟨_, _, hr, hpull⟩
          · cases hr
          · cases hr
            obtain ⟨y, marks, hpulled, hhanded⟩ :=
              exists_pull_closed hc (closed_blockItems _) (hstep ▸ hpull)
            have hmoves := uses_settle v c (.blockItems { outer := some q, part := some bs, opened := k + 1 }) marks
            exact ⟨some y, _, Q, hpulled, hv.settle hfooting hc hmoves,
              .inr ⟨a, as, y, bs, rfl, rfl, hfooting.handed _ _ _ ha hhanded, has,
                Array.getElem?_setIfInBounds_self_of_lt hlt⟩⟩

/-- What is given behind a block is the first item that is still to come. -/
theorem pulled_next (hA : ∀ k < K, Answers h R xs stands k) (hA' : ∀ k < K, Answers h.above R xs stands k)
    (hlimit : ∀ s n, x = .chunked s n → (n : ℤ) ≤ sliceLimit) (hfuel : K < h.fuel) (htwo : 1 < h.fuel)
    {q c k : ℕ} {part : Option (List Value)} (hseat : seat.branch = .blocks q)
    (hc : w.cursors[c]? = some (.blockItems { outer := some q, part, opened := k }))
    (hnil : part.getD [] = []) (hcP : c ∉ P) (hunderway : Underway i x seat t g P w) :
    Part.Pulled h.above.above R stands i x seat T (.ref .iterator c) g P w (x.rest T t) := by
  obtain ⟨r, v, Q, hpull, hv, hnext⟩ :=
    exists_pull_next hfooting hx hfair hstands (hK t (Nat.lt_succ_of_le ht)) hA hA' hlimit hfuel htwo hseat hc hnil
      hcP hunderway
  refine ⟨r, v, _, Q, hpull, hv.confined, hv.moved, hv.position, fun j hj => Function.update_of_ne hj .., ?_⟩
  rcases hnext with ⟨hturn, rfl, hfinished⟩ | ⟨a, cs, y, ys, hturn, rfl, ha, hcs, hcursor⟩
  · rw [Strand.rest_of_none hfair hturn]
    exact .ended (.inr ⟨c, rfl, hfinished, hv.apart⟩)
  · have hlt := hlive _ hturn
    have hsits := hv.sits
    rw [hturn] at hsits
    rw [Strand.rest_of_lt hturn hlt]
    exact .item ha hlt ⟨Function.update_self .., hsits, fun c' hc' => (hv.own c' hc').1⟩
      (.blocks hseat hcursor hcs hv.apart)

omit hlive in
/-- **One read of a part.**  Behind the block at hand there must be a turn that counts, if there is one. -/
theorem Part.pull (hlive : cs = [] → ∀ block, x.turn t = some block → t < T)
    (hA : ∀ k < K, ∀ n, Answers (h.up n) R xs stands k)
    (hlimit : ∀ s n, x = .chunked s n → (n : ℤ) ≤ sliceLimit) (hfuel : K < h.fuel) (htwo : 1 < h.fuel)
    (hunderway : Underway i x seat t g P w) (hpart : Part R seat P w cs it) :
    Part.Pulled h.above.above R stands i x seat T it g P w (cs ++ x.rest T t) := by
  cases hpart with
  | plain hseat =>
      exact pulled_plain (h := h.above.above) hx hfair (hlive rfl) hK hstands ht (fun k hk => hA k hk 2)
        hseat hunderway
  | @blocks q c k part cs hseat hc hcs hcP =>
      cases hcs' : part.getD [] with
      | nil =>
          rw [hcs'] at hcs
          cases hcs
          exact pulled_next hfooting hx hfair (hlive rfl) hK hstands ht (fun k hk => hA k hk 0)
            (fun k hk => hA k hk 1) hlimit hfuel htwo hseat hc hcs' hcP hunderway
      | cons b bs =>
          rw [hcs'] at hcs
          obtain rfl : part = some (b :: bs) := by
            cases part with
            | none => cases hcs'
            | some => exact congrArg some hcs'
          obtain _ | ⟨ha, hbs⟩ := hcs
          obtain ⟨y, v, hpull, huses, hstands', hy, hunderway', hpart'⟩ := exists_pull_at_hand
            (h := h.above) hfooting hseat hc ha hbs hcP hstands hunderway (Nat.zero_lt_of_lt htwo)
          have hcursor : {c} ⊆ seat.cursors (.ref .iterator c) P w :=
            Set.singleton_subset_iff.2 (.inr (.inr ⟨rfl, _, hc⟩))
          exact ⟨some y, v, g, P, hpull, huses.confined.mono hcursor, subset_within P _, hstands',
            fun _ _ => rfl, .item hy ht hunderway' hpart'⟩

end

end

end GraphRoutes.Session
