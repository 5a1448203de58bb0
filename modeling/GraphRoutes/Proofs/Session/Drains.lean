/-
**Sources of blocks that are read to their end.**

A source of blocks is a route as well: whoever opens it gets a sequence of its own, which gives the items of the
blocks.  But the blocks come from one iterator, and so what one of these sequences has given is gone for the
others.  Once a source has been read to its end, it gives nothing any more.

A route that is cut into blocks is a source over an iterator that gives the slices of the route.

Main definitions:

* `GraphRoutes.Session.Emptying` — a source of blocks of which the first turns have been taken;
* `GraphRoutes.Session.Slicing` — a route of which the first slices have been taken.

Main results:

* `GraphRoutes.Session.Emptying.items` — **a source of blocks is read to its end**;
* `GraphRoutes.Session.Fleet.slices` — the slices of a route.
-/
import GraphRoutes.Proofs.Merge.Taps
import GraphRoutes.Proofs.Session.Listeners

set_option relaxedAutoImplicit false
set_option autoImplicit false

namespace GraphRoutes.Session

open World Merge Filter

variable {α : Type}

/-! ### Finitely many blocks -/

/-- The turns of finitely many blocks give their items, and come to an end. -/
theorem exists_items_eq_flatten (bs : List (List α)) : ∃ T, (Strand.blocks (.ofList bs)).turn T = none ∧
    (Strand.blocks (.ofList bs)).items T = bs.flatten := by
  have hterminates : (Strand.blocks (.ofList bs)).Finite := ⟨bs.length, by
    rw [Stream'.Seq.TerminatedAt, Stream'.Seq.ofList_get?, List.getElem?_eq_none (Nat.le_refl _)]⟩
  obtain ⟨T, hT⟩ := (Strand.finite_iff (fair_blocks_ofList bs)).1 hterminates
  have hend : bs[Nat.nth (Strand.Counts (.ofList bs)) T]? = none := by
    rw [← Stream'.Seq.ofList_get?]
    exact hT
  refine ⟨T, hT, ?_⟩
  have hitems := Strand.items_succ (.blocks (.ofList bs)) T
  rw [hT, Option.getD_none, List.append_nil, ← Strand.given_pulled (fair_blocks_ofList bs)] at hitems
  rw [← hitems, Strand.given, Strand.pulled]
  refine congrArg List.flatten (List.ext_getElem? fun i => ?_)
  rw [Stream'.Seq.getElem?_take, Stream'.Seq.ofList_get?]
  split
  · rfl
  · rw [List.getElem?_eq_none]
    exact Nat.le_trans (List.getElem?_eq_none_iff.1 hend) (by omega)

/-! ### Reading the items of blocks -/

section

variable {h : Host} {B : Setting} {R : α → Value → Prop} {zs : List (Strand α)} {s : Stream'.Seq (List α)}
  {single : Positions → Set ℕ → World → Prop} {g : Positions} {P : Set ℕ} {w : World} {i t T L K n q c : ℕ}
  {cs : List α} {it : Value}

/-- What has been given of some items, and what is left of them, after one read. -/
inductive Given (R : α → Value → Prop) (i q : ℕ) (s : Stream'.Seq (List α)) (it : Value) (T c t : ℕ)
    (g : Positions) (P : Set ℕ) (w : World) : List α → Option Value → Prop
  | ended (hturn : (Strand.blocks s).turn t = none)
      (hunderway : Underway i (.blocks s) (.blocks q it) (t + 1) g P w) : Given R i q s it T c t g P w [] none
  | item {a : α} {y : Value} {cs : List α} {t' : ℕ} (ha : R a y) (ht : t' = t ∨ t' = t + 1 ∧ t < T)
      (hunderway : Underway i (.blocks s) (.blocks q it) t' g P w)
      (hpart : Part R (.blocks q it) P w cs (.ref .iterator c)) :
      Given R i q s it T c t g P w (a :: (cs ++ (Strand.blocks s).rest T t')) (some y)

/-- The cursors of a source of blocks, and the one that reads it. -/
theorem cursors_blocks_subset : (Seat.blocks q it).cursors (.ref .iterator c) P w ⊆ insert c P := by
  rintro c' (hc' | hc' | ⟨hc', -⟩)
  · cases hc'
  · exact .inr hc'
  · cases hc'
    exact .inl rfl

/-- A source of blocks sits where it sits also at its end. -/
theorem Sits.at_blocks {live live' : Bool} (hsit : Sits w live (.blocks s) (.blocks q it)) :
    Sits w live' (.blocks s) (.blocks q it) := by
  cases hsit with
  | blocks _ hplace => exact .blocks s hplace

/-- The next item at hand is given, and nothing is asked. -/
theorem exists_pull_hand {a : α} (hfooting : Footing R single)
    (hpart : Part R (.blocks q it) P w (a :: cs) (.ref .iterator c)) (hstands : single g P w)
    (hunderway : Underway i (.blocks s) (.blocks q it) t g P w) (hfuel : 0 < h.fuel) :
    ∃ y v, h.above.pull (.ref .iterator c) w = .ok (some y) v ∧ Uses {c} w v ∧ single g P v ∧ R a y ∧
      Underway i (.blocks s) (.blocks q it) t g P v ∧ Part R (.blocks q it) P v cs (.ref .iterator c) := by
  cases hpart with
  | @blocks q' c k part cs' hseat hc hcs hcP =>
      cases hseat
      obtain ⟨b, bs, ha, hbs, hpart⟩ := List.forall₂_cons_left_iff.1 hcs
      obtain rfl : part = some (b :: bs) := by
        cases part with
        | none => cases hpart
        | some => exact congrArg some hpart
      exact exists_pull_at_hand hfooting rfl hc ha hbs hcP hstands hunderway hfuel

/-- Behind a block, the next one is begun.  At its end the source stays where it is. -/
theorem exists_pull_block (hfooting : Footing R single) (hi : zs[i]? = some (.blocks s))
    (hfair : (Strand.blocks s).Fair) (hA : ∀ k < K, Answers h R zs single k)
    (hA' : ∀ k < K, Answers h.above R zs single k) (hK : (Strand.blocks s).pulled (t + 1) ≤ K) (hfuel : K < h.fuel)
    (htwo : 1 < h.fuel) (hstands : single g P w) (hunderway : Underway i (.blocks s) (.blocks q it) t g P w)
    (hpart : Part R (.blocks q it) P w [] (.ref .iterator c)) :
    ∃ r v g' Q, h.above.above.pull (.ref .iterator c) w = .ok r v ∧ Confined (insert c P) w v ∧
      Q ⊆ within P w.cursors.size ∧ single g' Q v ∧ Underway i (.blocks s) (.blocks q it) (t + 1) g' Q v ∧ c ∉ Q ∧
      ((Strand.blocks s).turn t = none ∧ r = none ∧ v.cursors[c]? = some .finished ∨
        ∃ a as y, (Strand.blocks s).turn t = some (a :: as) ∧ r = some y ∧ R a y ∧
          Part R (.blocks q it) Q v as (.ref .iterator c)) := by
  cases hpart with
  | plain hseat => cases hseat
  | @blocks q' c k part cs hseat hc hcs hcP =>
      cases hseat
      obtain ⟨r, v, Q, hpull, hv, hnext⟩ := exists_pull_next hfooting hi
        hfair hstands hK hA hA' (by simp) hfuel htwo rfl hc (List.forall₂_nil_left_iff.1 hcs) hcP hunderway
      refine ⟨r, v, _, Q, hpull, hv.confined.mono cursors_blocks_subset, hv.moved, hv.position,
        ⟨Function.update_self i _ g, hv.sits.at_blocks, nofun⟩, hv.apart, ?_⟩
      rcases hnext with hended | ⟨a, as, y, ys, hturn, hr, ha, has, hcursor⟩
      · exact .inl hended
      · exact .inr ⟨a, as, y, hturn, hr, ha, .blocks rfl hcursor has hv.apart⟩

/-- **One read of the items of a source of blocks.** -/
theorem exists_pull_part (hfooting : Footing R single) (hi : zs[i]? = some (.blocks s))
    (hfair : (Strand.blocks s).Fair) (hend : (Strand.blocks s).turn T = none)
    (hA : ∀ k < K, Answers h R zs single k) (hA' : ∀ k < K, Answers h.above R zs single k)
    (hK : (Strand.blocks s).pulled (t + 1) ≤ K) (hfuel : K < h.fuel) (htwo : 1 < h.fuel)
    (hstands : single g P w) (hunderway : Underway i (.blocks s) (.blocks q it) t g P w)
    (hpart : Part R (.blocks q it) P w cs (.ref .iterator c)) :
    ∃ r v g' Q, h.above.above.pull (.ref .iterator c) w = .ok r v ∧ Confined (insert c P) w v ∧
      Q ⊆ within P w.cursors.size ∧ single g' Q v ∧
      Given R i q s it T c t g' Q v (cs ++ (Strand.blocks s).rest T t) r := by
  cases cs with
  | nil =>
      obtain ⟨r, v, g', Q, hpull, hconfined, hQ, hstands', hunderway', -, hnext⟩ := exists_pull_block hfooting hi
        hfair hA hA' hK hfuel htwo hstands hunderway hpart
      refine ⟨r, v, g', Q, hpull, hconfined, hQ, hstands', ?_⟩
      rw [List.nil_append]
      rcases hnext with ⟨hturn, rfl, -⟩ | ⟨a, as, y, hturn, rfl, ha, hpart'⟩
      · rw [Strand.rest_of_none hfair hturn]
        exact .ended hturn hunderway'
      · have hlt : t < T := by
          by_contra hle
          rw [Strand.turn_eq_none_of_le hfair hend (Nat.le_of_not_lt hle)] at hturn
          cases hturn
        rw [Strand.rest_of_lt hturn hlt]
        exact .item ha (.inr ⟨rfl, hlt⟩) hunderway' hpart'
  | cons a as =>
      obtain ⟨y, v, hpull, huses, hstands', ha, hunderway', hpart'⟩ := exists_pull_hand (h := h.above) hfooting hpart
        hstands hunderway (Nat.zero_lt_of_lt htwo)
      exact ⟨some y, v, g, P, hpull, huses.confined.mono (Set.singleton_subset_iff.2 (Set.mem_insert c P)),
        subset_within P _, hstands', .item ha (.inl rfl) hunderway' hpart'⟩

/-- **The items of a source of blocks are read to the end**, one by one. -/
theorem exists_foldFrom_part (hfooting : Footing R single) (hi : zs[i]? = some (.blocks s))
    (hfair : (Strand.blocks s).Fair) (hend : (Strand.blocks s).turn T = none)
    (hA : ∀ k < K, Answers h R zs single k) (hA' : ∀ k < K, Answers h.above R zs single k)
    (hK : ∀ t < L, (Strand.blocks s).pulled (t + 1) ≤ K) (hfuel : K < h.fuel) (htwo : 1 < h.fuel)
    (hT : T < L) (ht : t < L) (hstands : single g P w)
    (hunderway : Underway i (.blocks s) (.blocks q it) t g P w)
    (hpart : Part R (.blocks q it) P w cs (.ref .iterator c))
    (hn : (cs ++ (Strand.blocks s).rest T t).length < n) (xs : Array Value) :
    ∃ vs v g' Q t', Host.foldFrom h.above.above (fun (xs : Array Value) x => pure (xs.push x)) (.ref .iterator c) n
        xs w = .ok (xs ++ vs.toArray) v ∧
      List.Forall₂ R (cs ++ (Strand.blocks s).rest T t) vs ∧ Confined (insert c P) w v ∧
      Q ⊆ within P w.cursors.size ∧ single g' Q v ∧ Underway i (.blocks s) (.blocks q it) t' g' Q v ∧
      (Strand.blocks s).turn t' = none ∧ t' ≤ L := by
  induction n generalizing cs g P w t xs with
  | zero => exact absurd hn (Nat.not_lt_zero _)
  | succ n ih =>
      obtain ⟨r, u, g', Q, hpull, hconfined, hQ, hstands', hgiven⟩ := exists_pull_part hfooting hi hfair hend hA
        hA' (hK t ht) hfuel htwo hstands hunderway hpart
      generalize cs ++ (Strand.blocks s).rest T t = due at hgiven hn
      cases hgiven with
      | ended hturn hunderway' =>
          refine ⟨[], u, g', Q, t + 1, ?_, .nil, hconfined, hQ, hstands', hunderway', Strand.stays hfair hturn, ht⟩
          rw [Host.foldFrom, Act.bind_of_ok hpull, Array.append_empty]
          rfl
      | @item a y cs' t' ha ht' hunderway' hpart' =>
          obtain ⟨vs, v, g₁, Q₁, t₁, hfold, hvs, hmoved, hQ₁, hrest⟩ := ih (show t' < L by omega) hstands'
            hunderway' hpart' (Nat.lt_of_succ_lt_succ hn) (xs.push y)
          refine ⟨y :: vs, v, g₁, Q₁, t₁, ?_, .cons ha hvs, ?_, hQ₁.trans (within_mono hQ hconfined.size), hrest⟩
          · rw [Host.foldFrom, Act.bind_of_ok hpull]
            refine (Act.bind_of_ok (m := pure (xs.push y)) rfl).trans (hfold.trans ?_)
            simp
          · refine hconfined.trans hmoved fun c' hc' => ?_
            rcases hc' with rfl | hc'
            · exact .inl (.inl rfl)
            · exact (hQ hc').imp_left .inr

end

/-! ### Again and again -/

/-- The source of blocks at `q` has been read to its end `j` times. -/
structure Emptying (bs : List (List α)) (T i q : ℕ) (it : Value) (single : Positions → Set ℕ → World → Prop)
    (j : ℕ) (P : Set ℕ) (w : World) : Prop where
  state : ∃ g t, single g P w ∧ Underway i (.blocks (.ofList bs)) (.blocks q it) t g P w ∧ t ≤ T + j ∧
    (j = 0 → t = 0) ∧ (0 < j → (Strand.blocks (.ofList bs)).turn t = none)

/-- What is given when finitely many blocks are read to their end for the `j`-th time. -/
def leftOf (bs : List (List α)) : ℕ → List α
  | 0 => bs.flatten
  | _ + 1 => []

section

variable {h : Host} {d T i q : ℕ} {B : Setting} {R : α → Value → Prop} {zs : List (Strand α)}
  {bs : List (List α)} {it : Value} {stands : List Value → Positions → Set ℕ → World → Prop}

/-- **A source of blocks is read to its end**, and there is nothing left in it. -/
theorem Emptying.items (F : Fleet h d B R zs stands) (hi : zs[i]? = some (.blocks (.ofList bs)))
    (hend : (Strand.blocks (.ofList bs)).turn T = none)
    (hitems : (Strand.blocks (.ofList bs)).items T = bs.flatten) (j : ℕ) :
    ∀ᶠ N in atTop, ∀ n, d + 2 ≤ n → ∀ rs P w, Emptying bs T i q it (stands rs) j P w →
      ∃ vs v Q, ((h.grant N).up n).items (.ref .blocks q) w = .ok vs v ∧ List.Forall₂ R (leftOf bs j) vs ∧
        Contained B P w v ∧ Q ⊆ within P w.cursors.size ∧ Emptying bs T i q it (stands rs) (j + 1) Q v := by
  have hfair : (Strand.blocks (.ofList bs)).Fair := fair_blocks_ofList bs
  obtain ⟨K, hK⟩ := exists_pulled_le [.blocks (.ofList bs)] (T + j + 1)
  filter_upwards [F.eventually_replies K (bs.flatten.length + 2)] with N hN n hn rs P w hw
  obtain ⟨hKN, hL, hreplies⟩ := hN
  obtain ⟨n, rfl⟩ := Nat.exists_eq_add_of_le' (Nat.le_trans (Nat.le_add_left 2 d) hn)
  obtain ⟨g, t, hstands, hunderway, ht, hfirst, hlater⟩ := hw
  -- each time, a new cursor reads what is left
  let c := w.cursors.size
  let w' : World := { w with cursors := w.cursors.push (.blockItems { outer := some q }) }
  have hpush : Uses ∅ w w' := uses_push w _
  have hhas := F.has _ _ _ _ hstands
  have hstands' : Since B w (stands rs) g P w' :=
    ⟨F.aside _ _ _ _ _ hstands (hpush.spares_of_new hhas).quiet.aside, hpush.retains⟩
  have hpart : Part R (.blocks q it) P w' [] (.ref .iterator c) :=
    .blocks rfl Array.getElem?_push_size .nil (notMem_of_has hhas)
  have hA : ∀ k < K, ∀ m, d ≤ m → Answers ((h.grant N).up m) R zs (Since B w (stands rs)) k :=
    fun k hk m hm => (hreplies k hk m hm rs).answers
  have hdue : (Strand.blocks (.ofList bs)).rest T t = leftOf bs j := by
    cases j with
    | zero => rw [hfirst rfl, Strand.rest_zero, hitems, leftOf]
    | succ j => exact Strand.rest_of_none hfair (hlater (Nat.succ_pos j)) T
  have hlength : ([] ++ (Strand.blocks (.ofList bs)).rest T t).length < N := by
    rw [hdue, List.nil_append]
    cases j with
    | zero => exact Nat.lt_of_lt_of_le (Nat.lt_add_of_pos_right (by decide)) hL
    | succ j => exact Nat.lt_of_lt_of_le (Nat.succ_pos _) hL
  obtain ⟨vs, v, g', Q, t', hfold, hvs, hconfined, hQ, hstands'', hunderway', hturn, ht'⟩ :=
    exists_foldFrom_part (h := (h.grant N).up n) (footing_since (F.footing rs)) hi hfair hend
      (fun k hk => hA k hk n (Nat.le_of_add_le_add_right hn))
      (fun k hk => hA k hk (n + 1) (by omega)) (fun t ht => hK _ (List.mem_singleton_self _) t ht)
      (by rwa [Host.fuel_up]) (by rw [Host.fuel_up]; exact (show 1 < N by omega))
      (Nat.lt_succ_of_le (Nat.le_add_right T j)) (Nat.lt_succ_of_le ht) hstands' (hunderway.confined hpush.confined nofun) hpart hlength #[]
  rw [hdue, List.nil_append] at hvs
  refine ⟨vs, v, Q, ?_, hvs, ⟨(hpush.confined.mono (Set.empty_subset P)).trans hconfined fun c' hc' => ?_,
    hstands''.2⟩, fun c' hc' => ?_, g', t', hstands''.1, hunderway', ht', nofun, fun _ => hturn⟩
  · rw [Host.items, Act.bind_of_ok (m := iterate (.ref .blocks q)) rfl, Host.drain, Host.fold, Host.fuel_up]
    refine (Act.bind_of_ok hfold).trans ?_
    rw [Array.empty_append]
    rfl
  · rcases hc' with rfl | hc'
    · exact .inr (Nat.le_refl _)
    · exact .inl hc'
  · exact (hQ hc').imp_right (Nat.le_trans hpush.size)

end

/-! ### Slices -/

/-- The slices of a sequence, as blocks. -/
def slices (xs : Stream'.Seq α) {n : ℕ} (hn : 0 < n) : Stream'.Seq (List α) :=
  ⟨fun t => filled? (slice xs (t * n) n), fun {t} ht => Strand.stays (x := .chunked xs n) (t := t) hn ht⟩

/-- The slices of a list are what it is cut into. -/
theorem slices_ofList (as : List α) {n : ℕ} (hn : 0 < n) : slices (.ofList as) hn = .ofList (cut hn as) := by
  refine Stream'.Seq.ext fun t => ?_
  rw [Stream'.Seq.ofList_get?, getElem?_cut, ← slice_ofList]
  rfl

/-- The `i`-th of some routes is cut into blocks by a cursor, which has been asked for some of them.  Once it has
come to its end, it stays there. -/
structure Slicing (xs : Stream'.Seq α) (n i : ℕ) (stands : List Value → Positions → Set ℕ → World → Prop)
    (rs : List Value) (g : Positions) (P : Set ℕ) (w : World) : Prop where
  state : ∃ it k c t Q live, stands rs (Function.update g i (some (it, k))) Q w ∧
    g i = some (.ref .iterator c, t) ∧ w.cursors[c]? = some (.cut { source := it, size := n, live }) ∧
    (live = true → k = (Strand.chunked xs n).pulled t) ∧
    (live = false → filled? (slice xs (t * n) n) = none) ∧ c ∉ Q ∧ P = insert c Q

section

variable {h H : Host} {d i n c k t K : ℕ} {B : Setting} {P Q : Set ℕ} {R : α → Value → Prop} {xs : Stream'.Seq α}
  {zs : List (Strand α)} {stands : List Value → Positions → Set ℕ → World → Prop} {g : Positions}
  {w v : World} {rs : List Value} {it : Value}

theorem turn_of_closed {cell : Cell World (Cut Value)} {s : Cut Value}
    (hread : (cell.read : M (Cut Value)) w = .ok s w) (hs : s.live = false) (next : Source World Fault Value Value) : Cut.turn cell next w = .ok .ended w := by
  rw [Cut.turn, Act.bind_of_ok hread, hs]
  rfl

/-- The cutting has ended, and nothing is asked. -/
theorem ask_cut_of_closed (bs : Stream'.Seq (List α)) (hlimit : (n : ℤ) ≤ sliceLimit)
    (hc : w.cursors[c]? = some (.cut (cutOf it n).close)) (hfuel : 0 < H.fuel) :
    ask (.blocks bs) H.above (.ref .iterator c) w = .ok none w := by
  have hturn : cutTurn H c (cutOf it n).close w = .ok .ended w := by
    rw [cutTurn, if_neg (show ¬sliceLimit < ((cutOf it n).close.size : ℤ) from not_lt_of_ge hlimit)]
    exact Act.bind_of_ok (turn_of_closed (read_cursorCell (cutOf it n).close hc rfl) rfl H.source)
  have hnext : nextItem H c w = .ok none w := nextItem_of_turn hc rfl hturn rfl hfuel
  have hpull : H.above.pull (.ref .iterator c) w = .ok none w := Act.bind_of_ok hnext
  exact Act.bind_of_ok hpull

/-- Another route has been opened or asked, and the cutting is where it was. -/
theorem Slicing.other {j : ℕ} {live : Bool} {start : Option (Value × ℕ)} (hj : j ≠ i)
    (hg : g i = some (.ref .iterator c, t))
    (hc : w.cursors[c]? = some (.cut { source := it, size := n, live }))
    (hlive : live = true → k = (Strand.chunked xs n).pulled t)
    (hclosed : live = false → filled? (slice xs (t * n) n) = none) (hcP : c ∉ P) (hv : Contained B P w v)
    (hQ : Q ⊆ within P w.cursors.size)
    (hstands : stands rs (Function.update (Function.update g i (some (it, k))) j start) Q v) :
    insert c Q ⊆ within (insert c P) w.cursors.size ∧
      Slicing xs n i stands rs (Function.update g j start) (insert c Q) v := by
  have hlt : c < w.cursors.size := (Array.getElem?_eq_some_iff.1 hc).1
  rw [Function.update_comm (Ne.symm hj)] at hstands
  refine ⟨?_, it, k, c, t, Q, live, hstands, ?_, (hv.same c hlt hcP).trans hc, hlive, hclosed,
    notMem_of_subset_within hQ hcP hlt, rfl⟩
  · rintro c' (rfl | hc')
    · exact .inl (.inl rfl)
    · exact (hQ hc').imp_left .inr
  · rwa [Function.update_of_ne (Ne.symm hj)]

/-- The next slice is asked for. -/
theorem exists_ask_slice (F : Fleet h d B R zs stands) (hi : zs[i]? = some (.chunked xs n)) (hn : 0 < n)
    (hlimit : (n : ℤ) ≤ sliceLimit) (t : ℕ) :
    ∀ᶠ N in atTop, ∀ m, d + 1 ≤ m → ∀ rs g P w c, Slicing xs n i stands rs g P w →
      g i = some (.ref .iterator c, t) →
      ∃ r v Q, ask (.blocks (slices xs hn)) ((h.grant N).up m) (.ref .iterator c) w = .ok r v ∧
        Option.Rel (List.Forall₂ R) (filled? (slice xs (t * n) n)) r ∧ Contained B P w v ∧
        Q ⊆ within P w.cursors.size ∧
        Slicing xs n i stands rs (Function.update g i (some (.ref .iterator c, t + 1))) Q v := by
  obtain ⟨K, hK⟩ := exists_pulled_le [.chunked xs n] (t + 1)
  filter_upwards [F.eventually_replies K 1] with N hN m hm rs g P w c hw hg
  obtain ⟨hKN, hpos, hreplies⟩ := hN
  obtain ⟨m, rfl, hle⟩ := exists_level_below hm
  obtain ⟨it, k, c', t', Q, live, hstands, hg', hc, hlive, hclosed, hcQ, rfl⟩ := hw
  cases hg.symm.trans hg'
  have hfuel : K < ((h.grant N).up m).fuel := by rwa [Host.fuel_up]
  have hlt : c < w.cursors.size := (Array.getElem?_eq_some_iff.1 hc).1
  cases live with
  | false =>
      have hnone := hclosed rfl
      refine ⟨none, w, insert c Q, ask_cut_of_closed _ hlimit hc (Nat.zero_lt_of_lt hfuel), hnone ▸ .none,
        .refl B _ w, subset_within _ _, it, k, c, t + 1, Q, false, ?_, Function.update_self .., hc, nofun,
        fun _ => Strand.stays (x := .chunked xs n) (t := t) hn hnone, hcQ, rfl⟩
      rwa [Function.update_idem]
  | true =>
      obtain rfl := hlive rfl
      have hpulled := hK _ (List.mem_singleton_self _) t (Nat.lt_succ_self t)
      have hslice := Strand.slice_pulled_chunked xs n t
      rw [Strand.pulled_succ_chunked, ← hslice] at hpulled
      obtain ⟨r, v, Q', hask, hr, hconfined, hQ', ⟨hstands', hretains⟩, hmore, hend⟩ := Answers.ask_cut
        (slices xs hn) (fun k hk => (hreplies k hk m hle rs).answers (w := w)) (footing_since (F.footing rs)) hi
        ⟨hstands, .refl B w⟩ (Function.update_self ..) hpulled hfuel hlimit hc hcQ
      rw [hslice] at hr hstands' hmore hend
      rw [← Strand.pulled_succ_chunked, Function.update_idem] at hstands'
      refine ⟨r, v, insert c Q', hask, hr, ⟨hconfined, hretains⟩, ?_, it, _, c, t + 1, Q',
        !(slice xs (t * n) n).isEmpty, ?_, Function.update_self .., ?_, fun _ => rfl, fun hlive => ?_,
        notMem_of_subset_within hQ' hcQ hlt, rfl⟩
      · rintro c' (rfl | hc')
        · exact .inl (.inl rfl)
        · exact (hQ' hc').imp_left .inr
      · rwa [Function.update_idem]
      · cases hs : slice xs (t * n) n with
        | nil => exact hend hs
        | cons a as => exact hmore (by simp [hs])
      · rw [Bool.not_eq_false', List.isEmpty_iff] at hlive
        exact Strand.stays (x := .chunked xs n) (t := t) hn (filled?_eq_none.2 hlive)

/-- **The slices of a route** are the blocks of the source that it is cut into. -/
theorem Fleet.slices (F : Fleet h d B R zs stands) (hi : zs[i]? = some (.chunked xs n)) (hn : 0 < n)
    (hlimit : (n : ℤ) ≤ sliceLimit) :
    Fleet h (d + 1) B R (zs.set i (.blocks (slices xs hn))) (Slicing xs n i stands) where
  handed := F.handed
  has := by
    rintro rs g P w ⟨it, k, c, t, Q, live, hstands, hg, hc, -, -, -, rfl⟩ c' (rfl | hc')
    · exact (Array.getElem?_eq_some_iff.1 hc).1
    · exact F.has _ _ _ _ hstands c' hc'
  aside := by
    rintro rs g P w v ⟨it, k, c, t, Q, live, hstands, hg, hc, hlive, hclosed, hcQ, rfl⟩ hv
    exact ⟨it, k, c, t, Q, live, F.aside _ _ _ _ _ hstands (hv.mono (Set.subset_insert c Q)), hg,
      (hv.same c (Set.mem_insert c Q)).trans hc, hlive, hclosed, hcQ, rfl⟩
  opens := by
    rintro rs g P w j r r' ⟨it, k, c, t, Q, live, hstands, hg, hc, hlive, hclosed, hcQ, rfl⟩ hgj hr hhanded
    have hj : j ≠ i := by
      rintro rfl
      cases hg.symm.trans hgj
    obtain ⟨it', v, Q', hopen, hQ', hv⟩ := F.opens hstands (by rwa [Function.update_of_ne hj]) hr hhanded
    have hcontained : Contained B Q w v := (uses_iterate hopen).contained.mono (Set.empty_subset Q)
    obtain ⟨hsub, hw⟩ := Slicing.other hj hg hc hlive hclosed hcQ hcontained hQ' hv
    exact ⟨it', v, insert c Q', hopen, hsub, hw⟩
  replies k := by
    filter_upwards [F.replies k, exists_ask_slice F hi hn hlimit k] with N hN hslice m hm rs g P w j x it hx hw hg
    by_cases hj : j = i
    · subst hj
      rw [List.getElem?_set_self (List.getElem?_eq_some_iff.1 hi).1] at hx
      cases hx
      have hw' := hw
      obtain ⟨-, -, c, t, -, -, -, hg', -⟩ := hw
      cases hg.symm.trans hg'
      exact hslice m hm rs g P w c hw' hg
    · rw [List.getElem?_set_ne (Ne.symm hj)] at hx
      obtain ⟨it', k', c, t, Q, live, hstands, hg', hc, hlive, hclosed, hcQ, rfl⟩ := hw
      obtain ⟨r, v, Q', hask, hr, hcontained, hQ', hv⟩ := hN m (Nat.le_of_succ_le hm) rs _ Q w j x it hx hstands
        (by rwa [Function.update_of_ne hj])
      obtain ⟨hsub, hw⟩ := Slicing.other hj hg' hc hlive hclosed hcQ hcontained hQ' hv
      exact ⟨r, v, insert c Q', hask, hr, hcontained.mono (Set.subset_insert c Q), hsub, hw⟩

end

end GraphRoutes.Session
