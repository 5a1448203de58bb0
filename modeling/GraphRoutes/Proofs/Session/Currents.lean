/-
**Flattened routes over a source.**

A chain of parts asks an outer sequence for a part when the part before it has come to its end, and not before.
So while a part is in progress, nothing is read of the source under the outer sequence; and when one is read to
find the next item, then just as far as the part in which that item is found.

Main definitions:

* `GraphRoutes.Session.Meaning.opening` — values that can be opened, and what they deliver then;
* `GraphRoutes.Session.spread` — the items of parts, each with what had been read when its part was given;
* `GraphRoutes.Session.Midstream` — a chain over a source, between its parts or inside of one.

Main results:

* `GraphRoutes.Session.flowed_chain` — the next item of a chain, and what is read for it;
* `GraphRoutes.Session.streams_chain` — **a chain reads no more than the part from which its item is**.
-/
import GraphRoutes.Proofs.Session.Chains
import GraphRoutes.Proofs.Session.Gauges

set_option relaxedAutoImplicit false
set_option autoImplicit false

namespace GraphRoutes.Session

open World Route

variable {α κ : Type} {h : Host} {d n k place : ℕ} {q m : κ} {R : Meaning α} {g : Gauge κ} {i o x : Value}
  {as : List α} {ass : List (List α × κ)} {e : Option κ} {P F Q : Set ℕ} {u v w : World} {s : Flat Value Value}

/-! ### Parts -/

/-- Values that can be opened, and what they deliver then. -/
def Meaning.opening (h : Host) (d : ℕ) (R : Meaning α) : Meaning (List α) where
  holds as x F w := x.unmarked = false ∧ Has F w ∧ ∀ v, Spares F w v → ∃ i u G, iterate x v = .ok i u ∧
    Uses F v u ∧ G ⊆ within F v.cursors.size ∧ Delivers h d R i as G u
  has hx := hx.2.1
  spared hx hv := ⟨hx.1, hx.2.1.spared hv, fun u hu => hx.2.2 u (hv.trans hu)⟩
  handed := by
    rintro as x x' F w ⟨hmarked, hx⟩ hhanded
    obtain rfl := hhanded.eq_of_marked hmarked
    exact ⟨hmarked, hx⟩

/-- An iterator is open. -/
theorem opening_iterator (hit : Delivers h d R (.ref .iterator place) as F w) :
    (R.opening h d).holds as (.ref .iterator place) F w :=
  ⟨rfl, hit.has, fun v hv => ⟨_, v, F, rfl, .refl F v, subset_within F _, hit.spared hv⟩⟩

/-- The items of parts, each with what had been read when its part was given. -/
def spread (ass : List (List α × κ)) : List (α × κ) := ass.flatMap fun p => p.1.map fun a => (a, p.2)

/-- What a chain has still to give: the rest `as` of the part in progress, and the parts behind it. -/
def toCome (q : κ) (as : List α) (ass : List (List α × κ)) : List (α × κ) :=
  as.map (fun a => (a, q)) ++ spread ass

/-- A chain over a source, between its parts or inside of one that still delivers `as`; the parts behind are
those of `ass`. -/
inductive Midstream (h : Host) (d : ℕ) (R : Meaning α) (g : Gauge κ) (place : ℕ) (o : Value) :
    κ → List α → List (List α × κ) → Option κ → Set ℕ → World → Prop
  | between {ass : List (List α × κ)} {e : Option κ} {P : Set ℕ} {w : World} {q : κ} {k : ℕ}
      (hc : w.cursors[place]? = some (.chained { outer := some o, opened := k }))
      (ho : Streams h d (R.opening h d) g o ass e P w) (hplace : place ∉ P) :
      Midstream h d R g place o q [] ass e P w
  | inside {i : Value} {as : List α} {ass : List (List α × κ)} {e : Option κ} {F P : Set ℕ} {w : World}
      {q : κ} {k : ℕ}
      (hc : w.cursors[place]? = some (.chained { outer := some o, part := some i, opened := k }))
      (hi : Delivers h d R i as F w) (ho : Streams h d (R.opening h d) g o ass e P w) (hat : g.At q P w)
      (hapart : ∀ j ∈ F, j ∉ P) (hplaceF : place ∉ F) (hplace : place ∉ P) :
      Midstream h d R g place o q as ass e (F ∪ P) w

theorem Midstream.notMem (hin : Midstream h d R g place o q as ass e P w) : place ∉ P := by
  cases hin with
  | between _ _ hplace => exact hplace
  | inside _ _ _ _ _ hplaceF hplace => exact fun hmem => hmem.elim hplaceF hplace

theorem Midstream.has (hin : Midstream h d R g place o q as ass e P w) : Has (insert place P) w := by
  cases hin with
  | between hc ho => exact has_insert (Array.getElem?_eq_some_iff.1 hc).1 ho.has
  | inside hc hi ho =>
      refine has_insert (Array.getElem?_eq_some_iff.1 hc).1 ?_
      rintro j (hj | hj)
      · exact hi.has j hj
      · exact ho.has j hj

theorem Midstream.exists_state (hin : Midstream h d R g place o q as ass e P w) :
    ∃ s, w.cursors[place]? = some (.chained s) := by
  cases hin with
  | between hc => exact ⟨_, hc⟩
  | inside hc => exact ⟨_, hc⟩

theorem Midstream.spared (hin : Midstream h d R g place o q as ass e P w)
    (hv : Spares (insert place P) w v) : Midstream h d R g place o q as ass e P v := by
  have hat := hv.same place (Set.mem_insert place P)
  have hsub := hv.mono (Set.subset_insert place P)
  cases hin with
  | between hc ho hplace => exact .between (hat.trans hc) (ho.spared hsub) hplace
  | inside hc hi ho hstands hapart hplaceF hplace =>
      have hsub' := hsub.mono Set.subset_union_right
      exact .inside (hat.trans hc) (hi.spared (hsub.mono Set.subset_union_left)) (ho.spared hsub')
        (hstands.spared hsub') hapart hplaceF hplace

/-! ### The next item -/

/-- What the turns of a chain over a source come to: its next item, or its end, as far as that is said. -/
inductive Flowed (h : Host) (d : ℕ) (R : Meaning α) (g : Gauge κ) (place : ℕ) (o : Value) (q : κ) (as : List α)
    (ass : List (List α × κ)) (e : Option κ) (P : Set ℕ) (v : World) :
    EStateM.Result Fault World (Option Value) → Prop
  | unsaid {r : EStateM.Result Fault World (Option Value)} (hnil : toCome q as ass = []) (he : e = none) :
      Flowed h d R g place o q as ass e P v r
  | ended {u : World} {Q : Set ℕ} {k : κ} (hnil : toCome q as ass = []) (he : e = some k)
      (hmoves : Moves (insert place P) v u) (hQ : Q ⊆ within P v.cursors.size) (hat : g.At k Q u) :
      Flowed h d R g place o q as ass e P v (.ok none u)
  | item {a : α} {q' : κ} {as' : List α} {ass' : List (List α × κ)} {x : Value} {F Q : Set ℕ} {u : World}
      (hcons : toCome q as ass = (a, q') :: toCome q' as' ass') (hlength : ass'.length ≤ ass.length)
      (hmoves : Moves (insert place P) v u) (hdivides : Divides P v.cursors.size F Q)
      (hx : R.holds a x F u) (hat : g.At q' Q u) (hin : Midstream h d R g place o q' as' ass' e Q u) :
      Flowed h d R g place o q as ass e P v (.ok (some x) u)

/-- What the turns come to from a later state of a chain. -/
theorem Flowed.after {q' : κ} {as' : List α} {ass' : List (List α × κ)}
    {r : EStateM.Result Fault World (Option Value)} (hflowed : Flowed h d R g place o q' as' ass' e Q u r)
    (hmoves : Moves (insert place P) v u) (hQ : Q ⊆ within P v.cursors.size)
    (hrest : toCome q as ass = toCome q' as' ass') (hlength : ass'.length ≤ ass.length) :
    Flowed h d R g place o q as ass e P v r := by
  have hsub := insert_subset_within place hQ
  have hwithin := within_mono hQ hmoves.size
  cases hflowed with
  | unsaid hnil he => exact .unsaid (hrest.trans hnil) he
  | ended hnil he hends hQ' hat =>
      exact .ended (hrest.trans hnil) he (hmoves.trans hends hsub) (hQ'.trans hwithin) hat
  | item hcons hshorter hgives hdivides hx hat hin =>
      exact .item (hrest.trans hcons) (hshorter.trans hlength) (hmoves.trans hgives hsub)
        (hdivides.mono hwithin) hx hat hin

/-- Asking the part in progress reads nothing of the source: the part gives its next item, or is left. -/
theorem ask_midstream
    (hc : v.cursors[place]? = some (.chained { outer := some o, part := some i, opened := k }))
    (hi : Delivers h d R i as F v) (ho : Streams h d (R.opening h d) g o ass e Q v) (hat : g.At q Q v)
    (hapart : ∀ j ∈ F, j ∉ Q) (hplaceF : place ∉ F) (hplaceQ : place ∉ Q) (hn : d ≤ n) :
    (as = [] ∧ ∃ u, Flat.ask (chainCell s place) (h.up n).source k i v = .ok .again u ∧
      Uses (insert place F) v u ∧ u.cursors[place]? = some (.chained { outer := some o, opened := k }) ∧
      Streams h d (R.opening h d) g o ass e Q u) ∨
    ∃ a as' x u F' Q', as = a :: as' ∧
      Flat.ask (chainCell s place) (h.up n).source k i v = .ok (.give x) u ∧
      Uses (insert place F) v u ∧ Divides (F ∪ Q) v.cursors.size F' Q' ∧ R.holds a x F' u ∧ g.At q Q' u ∧
      Midstream h d R g place o q as' ass e Q' u := by
  have hlt : place < v.cursors.size := (Array.getElem?_eq_some_iff.1 hc).1
  rcases ask_chain (s := s) hc hi hplaceF hn with
    ⟨rfl, u, hask, hleaves, hcu⟩ | ⟨a, as', x, u, F', Q', rfl, hask, hgives, hdivides, hx, hcu, hi'⟩
  · exact .inl ⟨rfl, u, hask, hleaves, hcu, ho.spared (hleaves.spares_of_insert ho.has hplaceQ hapart)⟩
  · have hspares : Spares Q v u := hgives.spares_of_insert ho.has hplaceQ hapart
    -- what the part has made for itself is newer than what is behind it
    have hbehind := apart_of_subset_within hdivides.rest hapart ho.has
    exact .inr ⟨a, as', x, u, F', Q' ∪ Q, rfl, hask, hgives, hdivides.union hapart ho.has, hx,
      (hat.spared hspares).mono Set.subset_union_right,
      .inside hcu hi' (ho.spared hspares) (hat.spared hspares) hbehind
        (notMem_of_subset_within hdivides.rest hplaceF hlt) hplaceQ⟩

/-- The next part is read of the outer sequence, and opened: then it is in progress. -/
theorem exists_entered {bs : List α}
    (hc : v.cursors[place]? = some (.chained { outer := some o, opened := k }))
    (ho : Streams h d (R.opening h d) g o ((bs, m) :: ass) e P v) (hplace : place ∉ P) (hn : d ≤ n) :
    ∃ i t F Q, chainTurn (h.up n) place s v = Flat.ask (chainCell s place) (h.up n).source (k + 1) i t ∧
      Moves (insert place P) v t ∧ F ⊆ within P v.cursors.size ∧ Q ⊆ within P v.cursors.size ∧
      t.cursors[place]? = some (.chained { outer := some o, part := some i, opened := k + 1 }) ∧
      Delivers h d R i bs F t ∧ Streams h d (R.opening h d) g o ass e Q t ∧ g.At m Q t ∧
      (∀ j ∈ F, j ∉ Q) ∧ place ∉ F ∧ place ∉ Q := by
  have hlt : place < v.cursors.size := (Array.getElem?_eq_some_iff.1 hc).1
  obtain ⟨x, u, F, Q, hpull, hmoves, hdivides, hx, hat, hrest⟩ := ho.2 n hn v (.refl P v)
  obtain ⟨i, t₀, G, hopen, hopens, hG, hi⟩ := hx.2.2 u (.refl F u)
  have hplaceF : place ∉ F := notMem_of_subset_within hdivides.item hplace hlt
  have hplaceQ : place ∉ Q := notMem_of_subset_within hdivides.rest hplace hlt
  have hcu := hmoves.getElem?_eq hplace hc
  have hltu : place < u.cursors.size := (Array.getElem?_eq_some_iff.1 hcu).1
  have hplaceG : place ∉ G := notMem_of_subset_within hG hplaceF hltu
  obtain ⟨t, hturn, henters, hct⟩ :=
    turn_between (s := s) hc hpull hopen ((hopens.same place ⟨hltu, hplaceF⟩).trans hcu)
  -- opening the part and entering it moves nothing of the source
  have hopened : Uses (insert place F) u t := hopens.settle henters
  have hspares : Spares Q u t := hopened.spares_of_insert hrest.has hplaceQ hdivides.apart
  have hsub := insert_subset_within place hdivides.item
  exact ⟨i, t, G, Q, hturn, (hmoves.mono (Set.subset_insert place P)).trans hopened.moves hsub,
    hG.trans (within_mono hdivides.item hmoves.size), hdivides.rest, hct,
    hi.spared (henters.spares_of_notMem hi.has hplaceG), hrest.spared hspares, hat.spared hspares,
    apart_of_subset_within hG hdivides.apart hrest.has, hplaceG, hplaceQ⟩

/-- Between two parts, empty parts are passed over up to the next item, and the source is read just as far. -/
theorem flowed_between (hc : v.cursors[place]? = some (.chained { outer := some o, opened := k }))
    (ho : Streams h d (R.opening h d) g o ass e P v) (hplace : place ∉ P) (hn : d ≤ n) {fuel : ℕ}
    (hfuel : ass.length < fuel) :
    Flowed h d R g place o q [] ass e P v (Turn.pull .outOfFuel (chainTurn (h.up n) place s) fuel v) := by
  obtain ⟨fuel, rfl⟩ := Nat.exists_eq_succ_of_ne_zero (Nat.ne_of_gt (Nat.zero_lt_of_lt hfuel))
  induction ass generalizing v P k q fuel with
  | nil =>
      cases e with
      | none => exact .unsaid rfl rfl
      | some m =>
          have hlt : place < v.cursors.size := (Array.getElem?_eq_some_iff.1 hc).1
          obtain ⟨u, Q, hpull, hmoves, hQ, hat⟩ := ho.2 m rfl n hn v (.refl P v)
          obtain ⟨t, hturn, hsettle⟩ := turn_end (s := s) hc hpull (hmoves.getElem?_eq hplace hc)
          rw [Turn.pull_of_ended hturn]
          refine .ended rfl rfl (hmoves.settle hsettle) hQ (hat.apart hsettle fun j hj hmem => ?_)
          exact notMem_of_subset_within hQ hplace hlt (Set.mem_singleton_iff.1 hmem ▸ hj)
  | cons p ass ih =>
      obtain ⟨bs, m⟩ := p
      obtain ⟨i, t, F, Q, hturn, hmoves, hF, hQ, hct, hi, ho', hat, hapart, hplaceF, hplaceQ⟩ :=
        exists_entered (s := s) hc ho hplace hn
      have hsub := insert_subset_within place hF
      rcases ask_midstream (s := s) hct hi ho' hat hapart hplaceF hplaceQ hn with
        ⟨rfl, u, hask, hleaves, hcu, hrest⟩ |
          ⟨a, bs', x, u, F', Q', rfl, hask, hgives, hdivides, hx, hat', hin⟩
      · -- the part was empty: it is left, and the turn is taken again
        rw [Turn.pull_of_again (hturn.trans hask)]
        have hlength : ass.length < fuel := Nat.lt_of_succ_lt_succ hfuel
        obtain ⟨fuel, rfl⟩ := Nat.exists_eq_succ_of_ne_zero (Nat.ne_of_gt (Nat.zero_lt_of_lt hlength))
        exact (ih (q := m) hcu hrest hplaceQ fuel hlength).after (hmoves.trans hleaves.moves hsub) hQ rfl
          (Nat.le_succ _)
      · rw [Turn.pull_of_give (hturn.trans hask)]
        have hwithin := within_mono (Set.union_subset hF hQ) hmoves.size
        exact .item rfl (Nat.le_succ _) (hmoves.trans hgives.moves hsub) (hdivides.mono hwithin) hx hat' hin

/-- **The next item of a chain**, or its end, and what is read for it. -/
theorem flowed_chain (hin : Midstream h d R g place o q as ass e P v) (hn : d ≤ n) {fuel : ℕ}
    (hfuel : ass.length + 1 < fuel) :
    Flowed h d R g place o q as ass e P v (Turn.pull .outOfFuel (chainTurn (h.up n) place s) fuel v) := by
  obtain ⟨fuel, rfl⟩ := Nat.exists_eq_succ_of_ne_zero (Nat.ne_of_gt (Nat.zero_lt_of_lt hfuel))
  have hlength : ass.length < fuel := Nat.lt_of_succ_lt_succ hfuel
  cases hin with
  | between hc ho hplace => exact flowed_between hc ho hplace hn (Nat.lt_succ_of_lt hlength)
  | @inside i as ass e F P w q k hc hi ho hat hapart hplaceF hplace =>
      have hturn : chainTurn (h.up n) place s v =
          Flat.ask (chainCell s place) (h.up n).source k i v := by
        rw [chainTurn, Flat.turn]
        exact Act.bind_of_ok (read_chain hc)
      have hsub : insert place F ⊆ insert place (F ∪ P) := Set.insert_subset_insert Set.subset_union_left
      rcases ask_midstream (s := s) hc hi ho hat hapart hplaceF hplace hn with
        ⟨rfl, u, hask, hleaves, hcu, hrest⟩ |
          ⟨a, as', x, u, F', Q', rfl, hask, hgives, hdivides, hx, hat', hin⟩
      · rw [Turn.pull_of_again (hturn.trans hask)]
        exact (flowed_between (q := q) hcu hrest hplace hn hlength).after (hleaves.mono hsub).moves
          (Set.subset_union_right.trans (subset_within _ _)) rfl (Nat.le_refl _)
      · rw [Turn.pull_of_give (hturn.trans hask)]
        exact .item rfl (Nat.le_refl _) (hgives.mono hsub).moves hdivides hx hat' hin

/-! ### All items -/

/-- A chain is asked for its next item. -/
theorem exists_nextItem (hin : Midstream h d R g place o q as ass e P v) (hn : d ≤ n)
    (hfuel : ass.length + 1 < h.fuel) (hsaid : toCome q as ass = [] → e.isSome) :
    ∃ r u, nextItem (h.up n) place v = .ok r u ∧ Flowed h d R g place o q as ass e P v (.ok r u) := by
  obtain ⟨s, hs⟩ := hin.exists_state
  have hflowed := flowed_chain (s := s) hin hn hfuel
  cases hr : Turn.pull .outOfFuel (chainTurn (h.up n) place s) h.fuel v with
  | ok r u =>
      rw [hr] at hflowed
      have hpull : Turn.pull .outOfFuel (chainTurn (h.up n) place s) (h.up n).fuel v = .ok r u := by
        rw [Host.fuel_up, hr]
      exact ⟨r, u, nextItem_of_pull hs rfl hpull, hflowed⟩
  | error f u =>
      rw [hr] at hflowed
      cases hflowed with
      | unsaid hnil he =>
          have hsome := hsaid hnil
          rw [he] at hsome
          cases hsome

/-- **A chain reads no more of the source than the part from which its item is**, and all of it for its end. -/
theorem streams_chain (hin : Midstream h d R g place o q as ass e P w) (hfuel : ass.length + 1 < h.fuel) :
    Streams h (d + 1) R g (.ref .iterator place) (toCome q as ass) e (insert place P) w := by
  -- by induction on what is still to come, whether the chain is between its parts or inside of one
  generalize hxs : toCome q as ass = xs
  induction xs generalizing q as ass P w with
  | nil =>
      refine ⟨hin.has, fun k hk n hn v hv => ?_⟩
      obtain ⟨m, rfl, hm⟩ := exists_level_below hn
      have hsome : e.isSome := Option.isSome_iff_exists.2 ⟨k, hk⟩
      obtain ⟨r, u, hread, hflowed⟩ := exists_nextItem (hin.spared hv) hm hfuel fun _ => hsome
      cases hflowed with
      | unsaid _ he => cases hk.symm.trans he
      | @ended u Q k' _ he hmoves hQ hat =>
          obtain rfl : k' = k := Option.some.inj (he.symm.trans hk)
          exact ⟨u, Q, Act.bind_of_ok hread, hmoves, hQ.trans (within_subset_insert place P _), hat⟩
      | item hcons => cases hxs.symm.trans hcons
  | cons p xs ih =>
      refine ⟨hin.has, fun n hn v hv => ?_⟩
      obtain ⟨m, rfl, hm⟩ := exists_level_below hn
      have hne : toCome q as ass ≠ [] := hxs ▸ List.cons_ne_nil p xs
      obtain ⟨r, u, hread, hflowed⟩ := exists_nextItem (hin.spared hv) hm hfuel fun hnil => absurd hnil hne
      cases hflowed with
      | unsaid hnil => exact absurd hnil hne
      | ended hnil => exact absurd hnil hne
      | @item a q' as' ass' x F Q _ hcons hlength hmoves hdivides hx hat hin' =>
          obtain ⟨rfl, hrest⟩ := List.cons.inj (hxs.symm.trans hcons)
          obtain ⟨x', marks, hpulled, hhanded⟩ := pull_of_nextItem hread
          have hmarks : Uses ∅ u { u with marks } := uses_marks u marks
          have hitem := hmarks.spares_of_new (R.has hx)
          have hleft := hmarks.spares_of_new hin'.has
          have hlt : place < v.cursors.size := hin.has.spared hv place (Set.mem_insert place P)
          exact ⟨x', _, F, insert place Q, hpulled, hmoves.trans hmarks.moves (Set.empty_subset _),
            hdivides.insert hin.notMem hlt, R.handed (R.spared hx hitem) hhanded,
            (hat.spared (hleft.mono (Set.subset_insert place Q))).mono (Set.subset_insert place Q),
            ih (hin'.spared hleft) (Nat.lt_of_le_of_lt (Nat.succ_le_succ hlength) hfuel) hrest.symm⟩

/-- A new chain has read nothing. -/
theorem streams_newChain [Inhabited κ] (ho : Streams h d (R.opening h d) g o ass e P w)
    (hfuel : ass.length + 1 < h.fuel) :
    Streams h (d + 1) R g (.ref .iterator w.cursors.size) (spread ass) e (insert w.cursors.size P)
      { w with cursors := w.cursors.push (.chained { outer := some o }) } := by
  let u : World := { w with cursors := w.cursors.push (.chained { outer := some o }) }
  have hin : Midstream h d R g w.cursors.size o default [] ass e P u :=
    .between Array.getElem?_push_size (ho.spared (spares_push ho.has _)) (notMem_of_has ho.has)
  exact streams_chain hin hfuel

end GraphRoutes.Session
