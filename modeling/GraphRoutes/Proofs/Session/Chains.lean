/-
**Sequences one after the other.**

A chain of sequences asks an outer sequence for its parts.  A part is opened when the one before it has
come to its end, and empty parts are passed over.  The cursors that a part stands on are its own, so
neither the outer sequence nor the other parts are disturbed when it is read.

Main definitions:

* `GraphRoutes.Session.InChain` — a chain, between its parts or inside of one.

Main results:

* `GraphRoutes.Session.pull_chain` — the next item of a chain;
* `GraphRoutes.Session.delivers_chain` — **a chain delivers what its parts deliver**, one after the
  other.
-/
import GraphRoutes.Proofs.Session.Streams

set_option relaxedAutoImplicit false
set_option autoImplicit false

namespace GraphRoutes.Session

open World Route

variable {α : Type} {h : Host} {d n k place : ℕ} {R : Meaning α} {i o x : Value} {as : List α}
  {ass : List (List α)} {P F Q : Set ℕ} {u v w : World} {s s' : Flat Value Value}

/-- Where a chain at a place keeps its state. -/
def chainCell (s : Flat Value Value) (place : ℕ) : Cell World (Flat Value Value) :=
  cursorCell s (fun | .chained s => some s | _ => none) .chained place

/-- One turn of a chain. -/
def chainTurn (h : Host) (place : ℕ) (s : Flat Value Value) : M (Turn Value) :=
  Flat.turn (chainCell s place) h.source iterate h.source

theorem read_chain (hc : w.cursors[place]? = some (.chained s')) :
    ((chainCell s place).read : M (Flat Value Value)) w = .ok s' w :=
  read_cursorCell s hc rfl

/-- A chain that changes its state moves its own cursor. -/
theorem modify_chain (hc : w.cursors[place]? = some (.chained s'))
    (f : Flat Value Value → Flat Value Value) :
    ∃ v, ((chainCell s place).modify f : M Unit) w = .ok () v ∧
      v.cursors[place]? = some (.chained (f s')) ∧ Uses {place} w v :=
  modify_cursorCell s hc rfl f

/-! ### Inside a part -/

/-- A part that has come to its end is left. -/
theorem ask_end (hpull : h.pull i v = .ok none u)
    (hcu : u.cursors[place]? = some (.chained { outer := some o, part := some i, opened := k })) :
    ∃ t, Flat.ask (chainCell s place) h.source k i v = .ok .again t ∧ Uses {place} u t ∧
      t.cursors[place]? = some (.chained { outer := some o, opened := k }) := by
  obtain ⟨t, hleave, hct, hmoves⟩ := modify_chain (s := s) hcu Flat.leave
  refine ⟨t, ?_, hmoves, hct⟩
  rw [Flat.ask, Act.bind_of_ok (source_of_end hpull)]
  exact (Act.bind_of_ok hleave).trans rfl

/-- A part that gives an item stays in progress. -/
theorem ask_item (hpull : h.pull i v = .ok (some x) u)
    (hcu : u.cursors[place]? = some (.chained { outer := some o, part := some i, opened := k })) :
    ∃ t, Flat.ask (chainCell s place) h.source k i v = .ok (.give x) t ∧ Uses {place} u t ∧
      t.cursors[place]? = some (.chained { outer := some o, part := some i, opened := k }) := by
  obtain ⟨t, hadvance, hct, hmoves⟩ := modify_chain (s := s) hcu (Flat.advance k i)
  refine ⟨t, ?_, hmoves, ?_⟩
  · rw [Flat.ask, Act.bind_of_ok (source_of_item hpull)]
    exact (Act.bind_of_ok hadvance).trans rfl
  · rw [hct, Flat.advance, if_pos rfl]
    rfl

/-- Asking the part in progress: it gives its next item, or is left. -/
theorem ask_chain (hc : v.cursors[place]? = some
      (.chained { outer := some o, part := some i, opened := k }))
    (hi : Delivers h d R i as F v) (hplace : place ∉ F) (hn : d ≤ n) :
    (as = [] ∧ ∃ u, Flat.ask (chainCell s place) (h.up n).source k i v = .ok .again u ∧
      Uses (insert place F) v u ∧
      u.cursors[place]? = some (.chained { outer := some o, opened := k })) ∨
    ∃ a as' x u F' Q', as = a :: as' ∧
      Flat.ask (chainCell s place) (h.up n).source k i v = .ok (.give x) u ∧
      Uses (insert place F) v u ∧ Divides F v.cursors.size F' Q' ∧ R.holds a x F' u ∧
      u.cursors[place]? = some (.chained { outer := some o, part := some i, opened := k }) ∧
      Delivers h d R i as' Q' u := by
  have hlt : place < v.cursors.size := (Array.getElem?_eq_some_iff.1 hc).1
  cases as with
  | nil =>
      obtain ⟨u, hpull, huses⟩ := hi.2 n hn v (.refl F v)
      obtain ⟨t, hask, hmoves, hct⟩ :=
        ask_end (s := s) hpull ((huses.same place ⟨hlt, hplace⟩).trans hc)
      exact .inl ⟨rfl, t, hask, huses.settle hmoves, hct⟩
  | cons a as =>
      obtain ⟨x, u, F', Q', hpull, huses, hdivides, hx, hrest⟩ := hi.2 n hn v (.refl F v)
      obtain ⟨t, hask, hmoves, hct⟩ :=
        ask_item (s := s) hpull ((huses.same place ⟨hlt, hplace⟩).trans hc)
      have hF' := notMem_of_subset_within hdivides.item hplace hlt
      have hQ' := notMem_of_subset_within hdivides.rest hplace hlt
      exact .inr ⟨a, as, x, t, F', Q', rfl, hask, huses.settle hmoves, hdivides,
        R.spared hx (hmoves.spares_of_notMem (R.has hx) hF'), hct,
        hrest.spared (hmoves.spares_of_notMem hrest.has hQ')⟩

/-! ### Between parts and inside of them -/

/-- A chain between its parts, or inside of one that still delivers `as`; the parts behind deliver the
lists of `ass`. -/
inductive InChain (h : Host) (d : ℕ) (R : Meaning α) (place : ℕ) (o : Value) :
    List α → List (List α) → Set ℕ → World → Prop
  | between {ass : List (List α)} {P : Set ℕ} {w : World} {k : ℕ}
      (hc : w.cursors[place]? = some (.chained { outer := some o, opened := k }))
      (ho : Delivers h d (R.sequence h d) o ass P w) (hplace : place ∉ P) :
      InChain h d R place o [] ass P w
  | inside {i : Value} {as : List α} {ass : List (List α)} {F P : Set ℕ} {w : World} {k : ℕ}
      (hc : w.cursors[place]? = some (.chained { outer := some o, part := some i, opened := k }))
      (hi : Delivers h d R i as F w) (ho : Delivers h d (R.sequence h d) o ass P w)
      (hapart : ∀ j ∈ F, j ∉ P) (hplaceF : place ∉ F) (hplace : place ∉ P) :
      InChain h d R place o as ass (F ∪ P) w

theorem InChain.notMem (hin : InChain h d R place o as ass P w) : place ∉ P := by
  cases hin with
  | between _ _ hplace => exact hplace
  | inside _ _ _ _ hplaceF hplace => exact fun hmem => hmem.elim hplaceF hplace

theorem InChain.has (hin : InChain h d R place o as ass P w) : Has (insert place P) w := by
  cases hin with
  | between hc ho _ => exact has_insert (Array.getElem?_eq_some_iff.1 hc).1 ho.has
  | inside hc hi ho _ _ _ =>
      refine has_insert (Array.getElem?_eq_some_iff.1 hc).1 ?_
      rintro j (hj | hj)
      · exact hi.has j hj
      · exact ho.has j hj

theorem InChain.spared (hin : InChain h d R place o as ass P w) (hv : Spares (insert place P) w v) :
    InChain h d R place o as ass P v := by
  have hat := hv.same place (Set.mem_insert place P)
  have hsub := hv.mono (Set.subset_insert place P)
  cases hin with
  | between hc ho hplace => exact .between (hat.trans hc) (ho.spared hsub) hplace
  | inside hc hi ho hapart hplaceF hplace =>
      exact .inside (hat.trans hc) (hi.spared (hsub.mono Set.subset_union_left))
        (ho.spared (hsub.mono Set.subset_union_right)) hapart hplaceF hplace

/-- What the turns of a chain come to: its end, or its next item. -/
inductive Turned (h : Host) (d : ℕ) (R : Meaning α) (place : ℕ) (o : Value) (as : List α)
    (ass : List (List α)) (P : Set ℕ) (v : World) : EStateM.Result Fault World (Option Value) → Prop
  | ended {u : World} (hnil : as ++ ass.flatten = []) (huses : Uses (insert place P) v u) :
      Turned h d R place o as ass P v (.ok none u)
  | item {a : α} {as' : List α} {ass' : List (List α)} {x : Value} {F Q : Set ℕ} {u : World}
      (hcons : as ++ ass.flatten = a :: (as' ++ ass'.flatten)) (hlength : ass'.length ≤ ass.length)
      (huses : Uses (insert place P) v u) (hdivides : Divides P v.cursors.size F Q)
      (hx : R.holds a x F u) (hin : InChain h d R place o as' ass' Q u) :
      Turned h d R place o as ass P v (.ok (some x) u)

/-- What the turns come to from a later state of a chain. -/
theorem Turned.after {as' : List α} {ass' : List (List α)} {r : EStateM.Result Fault World (Option Value)}
    (hturned : Turned h d R place o as' ass' Q u r) (huses : Uses (insert place P) v u)
    (hQ : Q ⊆ within P v.cursors.size) (hflat : as ++ ass.flatten = as' ++ ass'.flatten)
    (hlength : ass'.length ≤ ass.length) : Turned h d R place o as ass P v r := by
  have hsub := insert_subset_within place hQ
  cases hturned with
  | ended hnil hends => exact .ended (hflat.trans hnil) (huses.trans hends hsub)
  | item hcons hshorter hgives hdivides hx hin =>
      have hwithin := within_mono hQ huses.size
      exact .item (hflat.trans hcons) (hshorter.trans hlength) (huses.trans hgives hsub)
        (hdivides.mono hwithin) hx hin

/-- A turn between two parts opens the next one and asks it. -/
theorem turn_between {t : World} (hc : v.cursors[place]? = some (.chained { outer := some o, opened := k }))
    (hpull : h.pull o v = .ok (some x) u) (hopen : iterate x u = .ok i t)
    (hct : t.cursors[place]? = some (.chained { outer := some o, opened := k })) :
    ∃ t', chainTurn h place s v = Flat.ask (chainCell s place) h.source (k + 1) i t' ∧
      Uses {place} t t' ∧
      t'.cursors[place]? = some (.chained { outer := some o, part := some i, opened := k + 1 }) := by
  obtain ⟨t', henter, hct', hmoves⟩ := modify_chain (s := s) hct (Flat.enter o i)
  refine ⟨t', ?_, hmoves, hct'⟩
  rw [chainTurn, Flat.turn, Act.bind_of_ok (read_chain hc)]
  have hsource : Act.attempt (h.source o) v = .ok (.ok (some (x, o))) u := by
    rw [Act.attempt, source_of_item hpull]
  have hiterate : Act.attempt (iterate x) u = .ok (.ok i) t := by
    rw [Act.attempt, hopen]
  refine (Act.bind_of_ok hsource).trans ((Act.bind_of_ok hiterate).trans ?_)
  refine (Act.bind_of_ok henter).trans ?_
  exact (Act.bind_of_ok (read_chain hct')).trans rfl

/-- At the end of the outer sequence a chain is over. -/
theorem turn_end (hc : v.cursors[place]? = some (.chained { outer := some o, opened := k }))
    (hpull : h.pull o v = .ok none u)
    (hcu : u.cursors[place]? = some (.chained { outer := some o, opened := k })) :
    ∃ t, chainTurn h place s v = .ok .ended t ∧ Uses {place} u t := by
  obtain ⟨t, hclose, -, hmoves⟩ := modify_chain (s := s) hcu Flat.close
  refine ⟨t, ?_, hmoves⟩
  rw [chainTurn, Flat.turn, Act.bind_of_ok (read_chain hc)]
  have hsource : Act.attempt (h.source o) v = .ok (.ok none) u := by
    rw [Act.attempt, source_of_end hpull]
  exact (Act.bind_of_ok hsource).trans ((Act.bind_of_ok hclose).trans rfl)

/-- A part that has given an item is still apart from the parts behind it, and so is the item. -/
theorem inside_of_give {F' Q' : Set ℕ}
    (hc : w.cursors[place]? = some (.chained { outer := some o, part := some i, opened := k }))
    (hi : Delivers h d R i as Q' w) (ho : Delivers h d (R.sequence h d) o ass Q v)
    (hgives : Uses (insert place F) v w) (hdivides : Divides F v.cursors.size F' Q')
    (hapart : ∀ j ∈ F, j ∉ Q) (hplaceF : place ∉ F) (hplaceQ : place ∉ Q)
    (hlt : place < v.cursors.size) :
    InChain h d R place o as ass (Q' ∪ Q) w ∧ Divides (F ∪ Q) v.cursors.size F' (Q' ∪ Q) := by
  have hspares : Spares Q v w := hgives.spares_of_insert ho.has hplaceQ hapart
  have hbehind := apart_of_subset_within hdivides.rest hapart ho.has
  exact ⟨.inside hc hi (ho.spared hspares) hbehind (notMem_of_subset_within hdivides.rest hplaceF hlt) hplaceQ,
    hdivides.union hapart ho.has⟩

/-- Between two parts, empty parts are passed over up to the next item. -/
theorem pull_between (hc : v.cursors[place]? = some (.chained { outer := some o, opened := k }))
    (ho : Delivers h d (R.sequence h d) o ass P v) (hplace : place ∉ P) (hn : d ≤ n) {fuel : ℕ}
    (hfuel : ass.length < fuel) :
    Turned h d R place o [] ass P v
      (Turn.pull .outOfFuel (chainTurn (h.up n) place s) fuel v) := by
  induction ass generalizing v P k fuel with
  | nil =>
      obtain ⟨fuel, rfl⟩ := Nat.exists_eq_succ_of_ne_zero (Nat.ne_of_gt (Nat.zero_lt_of_lt hfuel))
      have hlt : place < v.cursors.size := (Array.getElem?_eq_some_iff.1 hc).1
      obtain ⟨u, hpull, huses⟩ := ho.2 n hn v (.refl P v)
      obtain ⟨t, hturn, hmoves⟩ :=
        turn_end (s := s) hc hpull ((huses.same place ⟨hlt, hplace⟩).trans hc)
      rw [Turn.pull_of_ended hturn]
      exact .ended rfl (huses.settle hmoves)
  | cons g ass ih =>
      obtain ⟨fuel, rfl⟩ := Nat.exists_eq_succ_of_ne_zero (Nat.ne_of_gt (Nat.zero_lt_of_lt hfuel))
      have hlt : place < v.cursors.size := (Array.getElem?_eq_some_iff.1 hc).1
      obtain ⟨x, u, F, Q, hpull, huses, hdivides, ⟨⟨q, rfl⟩, hx⟩, hrest⟩ := ho.2 n hn v (.refl P v)
      obtain ⟨t, hturn, hmoves, hct⟩ :=
        turn_between (s := s) hc hpull rfl ((huses.same place ⟨hlt, hplace⟩).trans hc)
      have hplaceF : place ∉ F := notMem_of_subset_within hdivides.item hplace hlt
      have hplaceQ : place ∉ Q := notMem_of_subset_within hdivides.rest hplace hlt
      have hxt := hx.spared (hmoves.spares_of_notMem hx.has hplaceF)
      have hrestt := hrest.spared (hmoves.spares_of_notMem hrest.has hplaceQ)
      have huses' : Uses (insert place P) v t := huses.settle hmoves
      have hsub := insert_subset_within place hdivides.item
      rcases ask_chain (s := s) hct hxt hplaceF hn with
        ⟨rfl, t', hask, hleaves, hct'⟩ | ⟨a, as', y, t', F', Q', rfl, hask, hgives, hdivides', hy, hct', hi⟩
      · -- the part was empty: it is left, and the turn is taken again
        rw [Turn.pull_of_again (hturn.trans hask)]
        have hrest' : Delivers h d (R.sequence h d) o ass Q t' :=
          hrestt.spared (hleaves.spares_of_insert hrestt.has hplaceQ hdivides.apart)
        exact (ih hct' hrest' hplaceQ (Nat.lt_of_succ_lt_succ hfuel)).after
          (huses'.trans hleaves hsub) hdivides.rest rfl (Nat.le_succ _)
      · rw [Turn.pull_of_give (hturn.trans hask)]
        have hltt : place < t.cursors.size := (Array.getElem?_eq_some_iff.1 hct).1
        obtain ⟨hin, hdivided⟩ := inside_of_give hct' hi hrestt hgives hdivides' hdivides.apart hplaceF
          hplaceQ hltt
        have hwithin := within_mono (Set.union_subset hdivides.item hdivides.rest) huses'.size
        exact .item rfl (Nat.le_succ _) (huses'.trans hgives hsub) (hdivided.mono hwithin) hy hin

/-- **The next item of a chain**, or its end. -/
theorem pull_chain (hin : InChain h d R place o as ass P v) (hn : d ≤ n) {fuel : ℕ}
    (hfuel : ass.length + 1 < fuel) :
    Turned h d R place o as ass P v
      (Turn.pull .outOfFuel (chainTurn (h.up n) place s) fuel v) := by
  obtain ⟨fuel, rfl⟩ := Nat.exists_eq_succ_of_ne_zero (Nat.ne_of_gt (Nat.zero_lt_of_lt hfuel))
  have hlength : ass.length < fuel := Nat.lt_of_succ_lt_succ hfuel
  cases hin with
  | between hc ho hplace => exact pull_between hc ho hplace hn (Nat.lt_succ_of_lt hlength)
  | @inside i as ass F P w k hc hi ho hapart hplaceF hplace =>
      have hlt : place < v.cursors.size := (Array.getElem?_eq_some_iff.1 hc).1
      have hturn : chainTurn (h.up n) place s v =
          Flat.ask (chainCell s place) (h.up n).source k i v := by
        rw [chainTurn, Flat.turn]
        exact Act.bind_of_ok (read_chain hc)
      have hsub : insert place F ⊆ insert place (F ∪ P) :=
        Set.insert_subset_insert Set.subset_union_left
      rcases ask_chain (s := s) hc hi hplaceF hn with
        ⟨rfl, t, hask, hleaves, hct⟩ | ⟨a, as', y, t, F', Q', rfl, hask, hgives, hdivides, hy, hct, hi'⟩
      · rw [Turn.pull_of_again (hturn.trans hask)]
        have ho' : Delivers h d (R.sequence h d) o ass P t :=
          ho.spared (hleaves.spares_of_insert ho.has hplace hapart)
        exact (pull_between hct ho' hplace hn hlength).after (hleaves.mono hsub)
          (Set.subset_union_right.trans (subset_within _ _)) rfl (Nat.le_refl _)
      · rw [Turn.pull_of_give (hturn.trans hask)]
        obtain ⟨hin, hdivided⟩ := inside_of_give hct hi' ho hgives hdivides hapart hplaceF hplace hlt
        exact .item rfl (Nat.le_refl _) (hgives.mono hsub) hdivided hy hin

theorem InChain.exists_state (hin : InChain h d R place o as ass P w) :
    ∃ s, w.cursors[place]? = some (.chained s) := by
  cases hin with
  | between hc => exact ⟨_, hc⟩
  | inside hc => exact ⟨_, hc⟩

/-- A chain is asked for its next item. -/
theorem InChain.exists_nextItem (hin : InChain h d R place o as ass P v) (hn : d ≤ n)
    (hfuel : ass.length + 1 < h.fuel) :
    ∃ r u, nextItem (h.up n) place v = .ok r u ∧ Turned h d R place o as ass P v (.ok r u) := by
  obtain ⟨s, hs⟩ := hin.exists_state
  have hturned := pull_chain (s := s) hin hn hfuel
  cases hr : Turn.pull .outOfFuel (chainTurn (h.up n) place s) h.fuel v with
  | ok r u =>
      rw [hr] at hturned
      have hpull : Turn.pull .outOfFuel (chainTurn (h.up n) place s) (h.up n).fuel v = .ok r u := by
        rw [Host.fuel_up, hr]
      exact ⟨r, u, nextItem_of_pull hs rfl hpull, hturned⟩
  | error e u =>
      rw [hr] at hturned
      cases hturned

/-- **A chain delivers what its parts deliver**, one after the other. -/
theorem delivers_chain (hin : InChain h d R place o as ass P w) (hfuel : ass.length + 1 < h.fuel) :
    Delivers h (d + 1) R (.ref .iterator place) (as ++ ass.flatten) (insert place P) w := by
  -- by induction on what is still to come, whether the chain is between its parts or inside of one
  generalize hxs : as ++ ass.flatten = xs
  induction xs generalizing as ass P w with
  | nil =>
      refine ⟨hin.has, fun n hn v hv => ?_⟩
      obtain ⟨m, rfl, hm⟩ := exists_level_below hn
      obtain ⟨r, u, hread, hturned⟩ := (hin.spared hv).exists_nextItem hm hfuel
      cases hturned with
      | ended _ huses => exact ⟨u, Act.bind_of_ok hread, huses⟩
      | item hcons => cases hxs.symm.trans hcons
  | cons a xs ih =>
      refine ⟨hin.has, fun n hn v hv => ?_⟩
      obtain ⟨m, rfl, hm⟩ := exists_level_below hn
      obtain ⟨r, u, hread, hturned⟩ := (hin.spared hv).exists_nextItem hm hfuel
      cases hturned with
      | ended hnil => cases hxs.symm.trans hnil
      | @item b as' ass' x F Q _ hcons hlength huses hdivides hx hin' =>
          obtain ⟨rfl, hrest⟩ := List.cons.inj (hxs.symm.trans hcons)
          obtain ⟨x', marks, hpulled, hhanded⟩ := pull_of_nextItem hread
          have hmarks : Uses ∅ u { u with marks } := uses_marks u marks
          have hitem := hmarks.spares_of_new (R.has hx)
          have hleft := hmarks.spares_of_new hin'.has
          have hlt : place < v.cursors.size := hin.has.spared hv place (Set.mem_insert place P)
          exact ⟨x', _, F, insert place Q, hpulled, huses.trans hmarks (Set.empty_subset _),
            hdivides.insert hin.notMem hlt, R.handed (R.spared hx hitem) hhanded,
            ih (hin'.spared hleft) (Nat.lt_of_le_of_lt (Nat.succ_le_succ hlength) hfuel) hrest.symm⟩

/-- A new chain. -/
theorem exists_chain (ho : Delivers h d (R.sequence h d) o ass P w) (hfuel : ass.length + 1 < h.fuel) :
    ∃ u, chain o w = .ok (.ref .iterator w.cursors.size) u ∧ Uses ∅ w u ∧
      Delivers h (d + 1) R (.ref .iterator w.cursors.size) ass.flatten
        (insert w.cursors.size P) u := by
  let c : Cursor := .chained { outer := some o }
  refine ⟨_, newCursor_eq c w, uses_push w c, ?_⟩
  have hin : InChain h d R w.cursors.size o [] ass P { w with cursors := w.cursors.push c } :=
    .between Array.getElem?_push_size (ho.spared (spares_push ho.has c)) (notMem_of_has ho.has)
  exact delivers_chain hin hfuel

/-- Two sequences one after the other. -/
theorem exists_chain_pair {bs : List α} {p q : ℕ} (hp : Delivers h 1 R (.ref .iterator p) as F w)
    (hq : Delivers h 1 R (.ref .iterator q) bs Q w) (hapart : ∀ j ∈ F, j ∉ Q) (hfuel : 3 < h.fuel) :
    ∃ place u G, (do
        let outer ← iterateItems .tuple [.ref .iterator p, .ref .iterator q]
        chain outer) w = .ok (.ref .iterator place) u ∧ Uses ∅ w u ∧
      G ⊆ within (F ∪ Q) w.cursors.size ∧
      Delivers h 2 R (.ref .iterator place) (as ++ bs) G u := by
  have hholds : Holdings (R.sequence h 1) w [as, bs] [.ref .iterator p, .ref .iterator q] (F ∪ (Q ∪ ∅)) :=
    .cons ⟨⟨p, rfl⟩, hp⟩ (.cons ⟨⟨q, rfl⟩, hq⟩ .nil fun _ _ hi => hi.elim) (by simpa using hapart)
  obtain ⟨u, hitems, huses, hit⟩ :=
    exists_items (h := h) .tuple hholds (Nat.zero_lt_of_lt hfuel)
  obtain ⟨t, hchain, hmoves, hdelivers⟩ := exists_chain hit hfuel
  have hflat : [as, bs].flatten = as ++ bs := by simp
  rw [hflat, Set.union_empty] at hdelivers
  refine ⟨_, t, _, (Act.bind_of_ok hitems).trans hchain, huses.trans hmoves (Set.empty_subset _), ?_,
    hdelivers⟩
  rintro i (rfl | rfl | hi)
  · exact .inr huses.size
  · exact .inr (Nat.le_refl _)
  · exact .inl hi

end GraphRoutes.Session
