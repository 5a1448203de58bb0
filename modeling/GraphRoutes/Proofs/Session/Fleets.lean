/-
**Functions that read the route that they are given.**

A function of a route makes a branch of it: it reads the route at once, or gives something that reads it
later.  If it does nothing else with the route, then what it gives depends on what the route has to give, and
not on what the route is.  So it turns routes that are apart from one another into routes that are apart from
one another, whichever they are, and several functions may be called one after the other.

Main definitions:

* `GraphRoutes.Session.Setting` — what may change while routes are read, and what has to stay;
* `GraphRoutes.Session.World.Contained` — what reading the branches may do;
* `GraphRoutes.Session.Fleet` — routes that are apart from one another, whichever they are;
* `GraphRoutes.Session.Listens` — **a function that reads its route**, and the branch that it makes of it.

Main results:

* `GraphRoutes.Session.Fleet.apart` — they are branches that do not share an iterator;
* `GraphRoutes.Session.Fleet.exists_results` — **functions that are called one after the other**.
-/
import GraphRoutes.Proofs.Session.Exhaustive

set_option relaxedAutoImplicit false
set_option autoImplicit false

namespace GraphRoutes.Session

open World Merge Filter

variable {α : Type}

/-! ### What a function may do -/

/-- What may change while routes are read: some lists may, and it is said by `stays` what else has to stay as it
is.  Making and reading lazy sequences changes nothing of that. -/
structure Setting where
  lists : Set ℕ
  stays : World → World → Prop
  refl : ∀ w, stays w w
  trans : ∀ w v u, stays w v → stays v u → stays w u
  reads : ∀ w v, v = { w with
    cursors := v.cursors, marks := v.marks, lists := v.lists, shared := v.shared, blocks := v.blocks } → stays w v

namespace World

/-- What has to stay has stayed: every list but those that may change, and what else there is. -/
structure Retains (B : Setting) (w v : World) : Prop where
  count : w.lists.size ≤ v.lists.size
  same : ∀ (l : ℕ) xs, l ∉ B.lists → w.lists[l]? = some xs → v.lists[l]? = some xs
  stays : B.stays w v

/-- No cursors have moved but those in `P`, no source of blocks has changed, and what has to stay has stayed. -/
structure Contained (B : Setting) (P : Set ℕ) (w v : World) : Prop extends Confined P w v where
  retains : Retains B w v

/-- Beside the cursors in `P`, others may have moved, and there may be new cursors, lists and sources of blocks. -/
structure Aside (P : Set ℕ) (w v : World) : Prop where
  rest : v = { w with cursors := v.cursors, marks := v.marks, lists := v.lists, blocks := v.blocks }
  size : w.cursors.size ≤ v.cursors.size
  same : ∀ i ∈ P, v.cursors[i]? = w.cursors[i]?
  lists : ∀ (i : ℕ) xs, w.lists[i]? = some xs → v.lists[i]? = some xs
  blocks : ∀ (i : ℕ) it, w.blocks[i]? = some it → v.blocks[i]? = some it

/-- The lists that may change are there already. -/
def Old (B : Setting) (w : World) : Prop := ∀ l ∈ B.lists, l < w.lists.size

/-- The branches of `r` stay what they are as long as what has to stay stays. -/
def Lasts (B : Setting) (w : World) (r : Value) (rs : List Value) : Prop :=
  ∀ v, Retains B w v → v.branches? r = some rs

/-- Every source of blocks among some routes is over a cursor, and no two are over the same one. -/
structure Proper (w : World) (rs : List Value) : Prop where
  own : w.OwnBlocks rs
  known : ∀ (k q : ℕ), rs[k]? = some (.ref .blocks q) →
    ∃ c < w.cursors.size, w.blocks[q]? = some (.ref .iterator c)

variable {B : Setting} {P Q E : Set ℕ} {u v w : World} {r : Value} {rs : List Value}

theorem Retains.refl (B : Setting) (w : World) : Retains B w w := ⟨Nat.le_refl _, fun _ _ _ => id, B.refl w⟩

theorem Retains.trans (h : Retains B w v) (h' : Retains B v u) : Retains B w u :=
  ⟨Nat.le_trans h.count h'.count, fun l xs hl hxs => h'.same l xs hl (h.same l xs hl hxs),
    B.trans w v u h.stays h'.stays⟩

/-- Making and reading lazy sequences changes nothing that has to stay, as long as all lists stay. -/
theorem retains_of_rest (hrest : v = { w with
      cursors := v.cursors, marks := v.marks, lists := v.lists, shared := v.shared, blocks := v.blocks })
    (hlists : ∀ (l : ℕ) xs, w.lists[l]? = some xs → v.lists[l]? = some xs) : Retains B w v := by
  refine ⟨Nat.le_of_not_lt fun hlt => ?_, fun l xs _ => hlists l xs, B.reads w v hrest⟩
  have hlast := hlists v.lists.size _ (Array.getElem?_eq_getElem hlt)
  exact Nat.lt_irrefl _ (Array.getElem?_eq_some_iff.1 hlast).1

theorem Quiet.aside (h : Quiet P w v) : Aside P w v where
  rest := by rw [h.rest]
  size := h.size
  same := h.same
  lists := h.lists
  blocks i it hit := by rwa [h.rest]

theorem Aside.mono (h : Aside P w v) (hQ : Q ⊆ P) : Aside Q w v :=
  ⟨h.rest, h.size, fun i hi => h.same i (hQ hi), h.lists, h.blocks⟩

theorem Aside.retains (h : Aside P w v) : Retains B w v := retains_of_rest (by rw [h.rest]) h.lists

theorem Quiet.retains (h : Quiet P w v) : Retains B w v := h.aside.retains

theorem Uses.retains (h : Uses P w v) : Retains B w v := (Spares.quiet h).retains

theorem Uses.contained (h : Uses P w v) : Contained B P w v := ⟨h.confined, h.retains⟩

theorem Contained.refl (B : Setting) (P : Set ℕ) (w : World) : Contained B P w w := ⟨.refl P w, .refl B w⟩

theorem Contained.trans (h : Contained B P w v) (h' : Contained B Q v u) (hQ : Q ⊆ within P w.cursors.size) :
    Contained B P w u :=
  ⟨h.toConfined.trans h'.toConfined hQ, h.retains.trans h'.retains⟩

theorem Contained.mono (h : Contained B P w v) (hP : P ⊆ Q) : Contained B Q w v :=
  ⟨h.toConfined.mono hP, h.retains⟩

theorem Old.keeps (h : Old B w) (hv : Retains B w v) : Old B v := fun l hl =>
  Nat.lt_of_lt_of_le (h l hl) hv.count

theorem Lasts.branches (h : Lasts B w r rs) : w.branches? r = some rs := h w (.refl B w)

theorem Lasts.keeps (h : Lasts B w r rs) (hv : Retains B w v) : Lasts B v r rs :=
  fun u hu => h u (hv.trans hu)

theorem Proper.sources (h : w.Proper rs) : w.Sources rs where
  own := h.own
  known k q hq := by
    obtain ⟨c, -, hc⟩ := h.known k q hq
    exact ⟨_, hc⟩

theorem Proper.confined (h : w.Proper rs) (hv : Confined E w v) : v.Proper rs where
  own := (h.sources.confined hv).own
  known k q hq := by
    obtain ⟨c, hlt, hc⟩ := h.known k q hq
    exact ⟨c, Nat.lt_of_lt_of_le hlt hv.size, hv.blocks _ _ hc⟩

end World

/-! ### Handing out twice -/

theorem Value.markedAlone_markedAlone (n m : ℕ) (v : Value) :
    ((v.markedAlone n).1.markedAlone m).1 = (v.markedAlone n).1 := by
  cases v <;> simp [Value.markedAlone] <;> split <;> simp_all [Value.unmarked, Value.withMark]

/-- What has been marked stays as it is. -/
theorem Value.marked_marked (n m : ℕ) (v : Value) : ((v.marked n).1.marked m).1 = (v.marked n).1 := by
  cases v with
  | tracked x =>
      cases x with
      | plain a => simp [Value.marked, Element.marked, Prod.map, Value.markedAlone_markedAlone]
      | root l x k => cases k <;> simp [Value.marked, Element.marked]
      | via l x p k => cases k <;> simp [Value.marked, Element.marked]
  | tuple _ k | dict _ k | set _ k | orderedPath _ k | vertex _ k | edge _ k | trackedGraph _ k
  | condition _ _ _ _ k | resolution _ _ k | checkpoint _ _ _ k | failsafe _ _ k | config _ _ _ _ k =>
      cases k <;> rfl
  | _ => rfl

theorem World.Handed.trans {x y z : Value} (h : Handed x y) (h' : Handed y z) : Handed x z := by
  cases h with
  | same => exact h'
  | marked hx n =>
      cases h' with
      | same => exact .marked hx n
      | marked _ m =>
          rw [Value.marked_marked]
          exact .marked hx n

/-- A value, or what it has been handed out as. -/
def Forwarded (x x' : Value) : Prop := x' = x ∨ Handed x x'

theorem Forwarded.handed {x y z : Value} (h : Forwarded x y) (h' : Handed y z) : Handed x z := by
  rcases h with rfl | h
  · exact h'
  · exact h.trans h'

/-- A source of blocks is handed out as it is. -/
theorem Forwarded.eq_blocks {x : Value} {q : ℕ} (h : Forwarded x (.ref .blocks q)) : x = .ref .blocks q := by
  rcases h with h | h
  · exact h.symm
  · by_cases hne : ∀ q, x ≠ .ref .blocks q
    · exact absurd rfl (ne_blocks_of_handed h hne q)
    · push Not at hne
      obtain ⟨q', rfl⟩ := hne
      exact (h.eq_of_marked rfl).symm

theorem Forwarded.blocks_eq {x : Value} {q : ℕ} (h : Forwarded (.ref .blocks q) x) : x = .ref .blocks q := by
  rcases h with h | h
  · exact h
  · exact h.eq_of_marked rfl

/-- What an item of the second of two lists is related to. -/
theorem exists_of_forall₂ {β γ : Type} {S : β → γ → Prop} {bs : List β} {cs : List γ}
    (h : List.Forall₂ S bs cs) {i : ℕ} {c : γ} (hc : cs[i]? = some c) : ∃ b, bs[i]? = some b ∧ S b c := by
  induction h generalizing i with
  | nil => cases hc
  | cons hb _ ih =>
      cases i with
      | zero =>
          cases hc
          exact ⟨_, rfl, hb⟩
      | succ i => exact ih hc

/-! ### Routes that are apart, whichever they are -/

/-- What a host is given when it asks a branch for the `k`-th time, if no lists change but those in `B`. -/
def Replies (h : Host) (B : Setting) (R : α → Value → Prop) (xs : List (Strand α))
    (stands : Positions → Set ℕ → World → Prop) (k : ℕ) : Prop :=
  ∀ (f : Positions) P w i x it, xs[i]? = some x → stands f P w → f i = some (it, k) →
    ∃ r v Q, ask x h it w = .ok r v ∧ Option.Rel (List.Forall₂ R) (x.answer k) r ∧ Contained B P w v ∧
      Q ⊆ within P w.cursors.size ∧ stands (Function.update f i (some (it, k + 1))) Q v

/-- **Routes that are apart from one another, whichever they are.**  It is said by `stands` which routes
there are, and where they stand.  Reading them changes no lists but those in `B`. -/
structure Fleet (h : Host) (d : ℕ) (B : Setting) (R : α → Value → Prop) (xs : List (Strand α))
    (stands : List Value → Positions → Set ℕ → World → Prop) : Prop where
  handed : ∀ a x x', R a x → Handed x x' → R a x'
  has : ∀ rs f P w, stands rs f P w → Has P w
  aside : ∀ rs f P w v, stands rs f P w → Aside P w v → stands rs f P v
  opens : ∀ {rs : List Value} {f : Positions} {P w i r r'}, stands rs f P w → f i = none →
    rs[i]? = some r → Handed r r' → ∃ it v Q, openRoute r' w = .ok it v ∧ Q ⊆ within P w.cursors.size ∧
      stands rs (Function.update f i (some (it, 0))) Q v
  replies : ∀ k, ∀ᶠ N in atTop, ∀ n, d ≤ n → ∀ rs, Replies ((h.grant N).up n) B R xs (stands rs) k

/-- Where branches stand, if no lists have changed since but those in `B`. -/
def Since (B : Setting) (w : World) (stands : Positions → Set ℕ → World → Prop) (f : Positions)
    (P : Set ℕ) (v : World) : Prop :=
  stands f P v ∧ Retains B w v

section

variable {h : Host} {d e k K L : ℕ} {B : Setting} {P Q : Set ℕ} {R : α → Value → Prop} {xs : List (Strand α)}
  {stands : List Value → Positions → Set ℕ → World → Prop} {single : Positions → Set ℕ → World → Prop}
  {g : Positions} {u v w : World} {r : Value} {rs : List Value}

theorem Replies.answers (hreplies : Replies h B R xs single k) : Answers h R xs (Since B w single) k := by
  rintro f P v i x it hx ⟨hstands, hkept⟩ hf
  obtain ⟨r, u, Q, hask, hr, hcontained, hQ, hstands'⟩ := hreplies f P v i x it hx hstands hf
  exact ⟨r, u, Q, hask, hr, hcontained.toConfined, hQ, hstands', hkept.trans hcontained.retains⟩

theorem footing_since (hfooting : Footing R single) : Footing R (Since B w single) where
  handed := hfooting.handed
  has f P v hstands := hfooting.has f P v hstands.1
  quiet f P v u hstands hquiet :=
    ⟨hfooting.quiet f P v u hstands.1 hquiet, hstands.2.trans hquiet.retains⟩

theorem Fleet.footing (F : Fleet h d B R xs stands) (rs : List Value) : Footing R (stands rs) where
  handed := F.handed
  has := F.has rs
  quiet f P w v hstands hv := F.aside rs f P w v hstands hv.aside

/-- They are branches that do not share an iterator, also when they have been handed out. -/
theorem Fleet.apart (F : Fleet h d B R xs stands) {rs' : List Value} (hrs : List.Forall₂ Forwarded rs rs')
    (w : World) : Apart h d R rs' xs (Since B w (stands rs)) where
  toFooting := footing_since (F.footing rs)
  opens := by
    rintro f P v i r r' ⟨hstands, hkept⟩ hf hr hhanded
    obtain ⟨r₀, hr₀, hhanded₀⟩ := exists_of_forall₂ hrs hr
    obtain ⟨it, u, Q, hopen, hQ, hstands'⟩ := F.opens hstands hf hr₀ (hhanded₀.handed hhanded)
    exact ⟨it, u, Q, hopen, hQ, hstands', hkept.trans (uses_iterate hopen).retains⟩
  answers k := by
    filter_upwards [F.replies k] with N hN n hn
    exact (hN n hn rs).answers

theorem Fleet.mono (F : Fleet h d B R xs stands) (hd : d ≤ e) : Fleet h e B R xs stands where
  handed := F.handed
  has := F.has
  aside := F.aside
  opens := F.opens
  replies k := by
    filter_upwards [F.replies k] with N hN n hn
    exact hN n (Nat.le_trans hd hn)

/-- Hosts that may take enough steps are given every one of the first replies. -/
theorem Fleet.eventually_replies (F : Fleet h d B R xs stands) (K L : ℕ) :
    ∀ᶠ N in atTop, K < N ∧ L ≤ N ∧ ∀ k < K, ∀ n, d ≤ n → ∀ rs,
      Replies ((h.grant N).up n) B R xs (stands rs) k :=
  (eventually_gt_atTop K).and ((eventually_ge_atTop L).and
    ((eventually_all_finite (Set.finite_lt_nat K)).2 fun k _ => F.replies k))

end

/-! ### Functions that read their route -/

/-- What the call of a function has made of the `i`-th of some routes: a branch that has not been read. -/
structure Becomes (B : Setting) (stands : List Value → Positions → Set ℕ → World → Prop) (y : Strand α)
    (i : ℕ) (rs : List Value) (g : Positions) (P : Set ℕ) (w : World) (r : Value) (v : World) : Prop where
  contained : Contained B P w v
  proper : w.Proper rs → v.Proper (rs.set i r)
  begins : ∃ start Q, stands (rs.set i r) (Function.update g i start) Q v ∧
    Q ⊆ within P w.cursors.size ∧ Unopened v Q r y start

/-- **A function that reads its route.**  Of an iterator over `xs` among routes that are apart from one
another, whichever they are, it makes a branch with the turns of `y`; what the branch stands on is what the
iterator stood on.  It may be called as long as there is what has to stay since `w₀`. -/
def Listens (h : Host) (B : Setting) (w₀ : World) (R : α → Value → Prop) (xs : Stream'.Seq α) (f : Value)
    (y : Strand α) : Prop :=
  ∀ ⦃d zs stands i⦄, Fleet h d B R zs stands → zs[i]? = some (.plain xs) →
    ∃ e stands', Fleet h e B R (zs.set i y) stands' ∧
      (∀ rs g P w, stands' rs g P w → ∃ rs' g' P', stands rs' g' P' w) ∧
      ∀ᶠ N in atTop, ∀ n, e ≤ n → ∀ rs g P w place f', stands rs g P w → Retains B w₀ w →
        rs[i]? = some (.ref .iterator place) → g i = none → Handed f f' →
        ∃ r v, ((h.grant N).up n).apply f' [.ref .iterator place] w = .ok r v ∧
          Becomes B stands' y i rs g P w r v

/-- Some functions have been called, and the others are still to be called: the cursor at `place` gives them,
behind the first `j`. -/
structure Poised (B : Setting) (w₀ : World) (stands : List Value → Positions → Set ℕ → World → Prop)
    (zs : List (Strand α)) (fs : Value) (functions : List Value) (place j : ℕ) (rs : List Value)
    (routes : List ℕ) (g : Positions) (P : Set ℕ) (w : World) : Prop where
  stands : stands (rs ++ routes.map (.ref .iterator)) g P w
  proper : w.Proper (rs ++ routes.map (.ref .iterator))
  length : rs.length = zs.length
  unread : ∀ i, rs.length ≤ i → g i = none
  begins : ∀ (i : ℕ) r z, rs[i]? = some r → zs[i]? = some z → Unopened w P r z (g i)
  coming : Coming fs functions j w place
  apart : place ∉ P
  lasts : w.Lasts B fs functions
  since : Retains B w₀ w

/-- All functions have been called. -/
structure Made (B : Setting) (stands : List Value → Positions → Set ℕ → World → Prop)
    (zs : List (Strand α)) (w : World) (rs : List Value) (v : World) : Prop where
  retains : Retains B w v
  proper : v.Proper rs
  length : rs.length = zs.length
  begins : ∃ g P, stands rs g P v ∧
    ∀ (i : ℕ) r z, rs[i]? = some r → zs[i]? = some z → Unopened v P r z (g i)

section

variable {h : Host} {d : ℕ} {B : Setting} {P : Set ℕ} {R : α → Value → Prop} {ys : List (Strand α)} {y : Strand α}
  {stands : List Value → Positions → Set ℕ → World → Prop} {u v w : World} {r r' : Value}
  {rs rs' : List Value} {start : Option (Value × ℕ)}

theorem Unopened.forwarded (hr : Unopened w P r y start) (hforwarded : Forwarded r r') :
    Unopened w P r' y start := by
  cases hr with
  | plain s hne =>
      refine .plain s ?_
      rintro q rfl
      exact hne q hforwarded.eq_blocks
  | blocks s hq =>
      obtain rfl := hforwarded.blocks_eq
      exact .blocks s hq
  | chunked s hq hc hcP =>
      obtain rfl := hforwarded.blocks_eq
      exact .chunked s hq hc hcP

theorem World.Proper.forwarded (hproper : w.Proper rs) (hrs : List.Forall₂ Forwarded rs rs') :
    w.Proper rs' := by
  have hblocks : ∀ {i q : ℕ}, rs'[i]? = some (.ref .blocks q) → rs[i]? = some (.ref .blocks q) := by
    intro i q hi
    obtain ⟨r, hr, hforwarded⟩ := exists_of_forall₂ hrs hi
    rwa [hforwarded.eq_blocks] at hr
  exact ⟨fun i j q q' it hi hj => hproper.own i j q q' it (hblocks hi) (hblocks hj),
    fun k q hq => hproper.known k q (hblocks hq)⟩

/-- What goes on beside the branches leaves them as they are. -/
theorem Made.quiet (hfooting : ∀ rs, Footing R (stands rs)) (hmade : Made B stands ys w rs v)
    (hv : ∀ P, Has P v → Quiet P v u) (hconfined : Confined ∅ v u) : Made B stands ys w rs u := by
  obtain ⟨hretains, hproper, hlength, g, P, hstands, hbegins⟩ := hmade
  have hquiet := hv P ((hfooting rs).has _ _ _ hstands)
  exact ⟨hretains.trans hquiet.retains, hproper.confined hconfined, hlength, g, P,
    (hfooting rs).quiet _ _ _ _ hstands hquiet, fun i r z hr hz =>
      (hbegins i r z hr hz).confined hconfined (subset_within P _) fun _ _ _ _ _ _ _ hmem => hmem⟩

/-- The results of functions may be merged. -/
theorem Made.mergeable (hmade : Made B stands ys w rs v) (F : Fleet h d B R ys stands)
    (hfair : ∀ y ∈ ys, y.Fair) (hlimit : ∀ s n, Strand.chunked s n ∈ ys → (n : ℤ) ≤ sliceLimit)
    (hrs : List.Forall₂ Forwarded rs rs') (hr : v.branches? r = some rs') :
    Mergeable h d R r rs' ys (Since B v (stands rs)) v := by
  obtain ⟨-, hproper, hlength, g, P, hstands, hbegins⟩ := hmade
  refine ⟨F.apart hrs v, hfair, hlimit, hrs.length_eq.symm.trans hlength, hr, (hproper.forwarded hrs).own, g, P,
    ⟨hstands, .refl B v⟩, fun i r z hr hz => ?_⟩
  obtain ⟨r₀, hr₀, hhanded⟩ := exists_of_forall₂ hrs hr
  exact (hbegins i r₀ z hr₀ hz).forwarded hhanded

end

section

variable {h : Host} {d e : ℕ} {B : Setting} {P Q : Set ℕ} {R : α → Value → Prop} {xs : Stream'.Seq α}
  {zs : List (Strand α)} {stands stands' : List Value → Positions → Set ℕ → World → Prop} {g : Positions}
  {u v w w₀ : World} {r f f' fs : Value} {y : Strand α} {rs functions : List Value} {routes : List ℕ}
  {place route : ℕ}

/-- The next function is asked for. -/
theorem Poised.pull {H : Host} {j : ℕ} (hfooting : ∀ rs, Footing R (stands rs))
    (hpoised : Poised B w₀ stands zs fs functions place j rs routes g P w) (hf : functions[j]? = some f)
    (hfuel : 0 < H.fuel) :
    ∃ f' v, H.above.pull (.ref .iterator place) w = .ok (some f') v ∧ Handed f f' ∧ Retains B w v ∧
      Poised B w₀ stands zs fs functions place (j + 1) rs routes g P v := by
  obtain ⟨hstands, hproper, hlength, hunread, hbegins, hcoming, hplace, hlasts, hsince⟩ := hpoised
  obtain ⟨f', c, marks, hpull, hhanded, hcoming'⟩ := hcoming.pull hlasts.branches hf hfuel
  have hmoves := uses_settle w place c marks
  refine ⟨f', _, hpull, hhanded, hmoves.retains, ?_, hproper.confined hmoves.confined, hlength, hunread,
    fun i r z hr hz => ?_, hcoming', hplace, hlasts.keeps hmoves.retains, hsince.trans hmoves.retains⟩
  · exact (hfooting _).quiet _ _ _ _ hstands
      (hmoves.spares_of_notMem ((hfooting _).has _ _ _ hstands) hplace).quiet
  · refine (hbegins i r z hr hz).confined hmoves.confined (subset_within P _) ?_
    rintro q c' s - - hc' -
    exact hcoming.ne hc' nofun nofun

/-- When all functions have been called, there are no more. -/
theorem Poised.made {H : Host} (hfooting : ∀ rs, Footing R (stands rs))
    (hpoised : Poised B w₀ stands zs fs functions place functions.length rs [] g P w) (hfuel : 0 < H.fuel) :
    ∃ v, H.above.pull (.ref .iterator place) w = .ok none v ∧ Made B stands zs w rs v := by
  obtain ⟨hstands, hproper, hlength, hunread, hbegins, hcoming, hplace, hlasts, hsince⟩ := hpoised
  rw [List.map_nil, List.append_nil] at hstands hproper
  have hready := hcoming.ready hlasts.branches
  rw [List.drop_length] at hready
  obtain ⟨cs, hpull, hsize, hcs⟩ := exists_pull_ready_nil hready hfuel
  have hmoves : Uses {place} w { w with cursors := cs } := ⟨rfl, hsize.ge, fun i hi => hcs i hi.2⟩
  refine ⟨_, hpull, hmoves.retains, hproper.confined hmoves.confined, hlength, g, P, ?_,
    fun i r z hr hz => ?_⟩
  · exact (hfooting _).quiet _ _ _ _ hstands
      (hmoves.spares_of_notMem ((hfooting _).has _ _ _ hstands) hplace).quiet
  · refine (hbegins i r z hr hz).confined hmoves.confined (subset_within P _) ?_
    rintro q c' s - - hc' -
    exact hcoming.ne hc' nofun nofun

/-- The next function has been called. -/
theorem Poised.called {j : ℕ}
    (hpoised : Poised B w₀ stands zs fs functions place j rs (route :: routes) g P w)
    (hcalled : Becomes B stands' y rs.length (rs ++ (route :: routes).map (.ref .iterator)) g P w r v) :
    ∃ g' Q, Poised B w₀ stands' (zs ++ [y]) fs functions place j (rs ++ [r]) routes g' Q v := by
  obtain ⟨hstands, hproper, hlength, hunread, hbegins, hcoming, hplace, hlasts, hsince⟩ := hpoised
  obtain ⟨hcontained, hproper', start, Q, hstands', hQ, hbegin⟩ := hcalled
  have hset : (rs ++ (route :: routes).map (Value.ref .iterator)).set rs.length r =
      (rs ++ [r]) ++ routes.map (.ref .iterator) := by
    simp
  rw [hset] at hproper' hstands'
  have hlt := hcoming.lt_size
  refine ⟨_, Q, hstands', hproper' hproper, by simp [hlength], fun i hi => ?_, fun i x z hx hz => ?_,
    hcoming.congr (hcontained.same place hlt hplace), notMem_of_subset_within hQ hplace hlt,
    hlasts.keeps hcontained.retains, hsince.trans hcontained.retains⟩
  · rw [List.length_append, List.length_singleton] at hi
    rw [Function.update_of_ne (Nat.ne_of_gt hi)]
    exact hunread i (Nat.le_of_succ_le hi)
  · rcases Nat.lt_trichotomy i rs.length with hi | rfl | hi
    · rw [List.getElem?_append_left hi] at hx
      rw [List.getElem?_append_left (hlength ▸ hi)] at hz
      rw [Function.update_of_ne (Nat.ne_of_lt hi)]
      exact (hbegins i x z hx hz).confined hcontained.toConfined hQ fun _ _ _ _ _ _ hc => hc
    · rw [List.getElem?_concat_length] at hx
      rw [hlength, List.getElem?_concat_length] at hz
      cases hx
      cases hz
      rwa [Function.update_self]
    · rw [List.getElem?_eq_none (by simpa using hi)] at hx
      cases hx

/-- **Functions that are called one after the other**, each on one of several iterators over `xs`, make
branches that are apart from one another.  They may have been handed out before. -/
theorem Fleet.exists_results {ys : List (Strand α)} (hlisten : List.Forall₂ (Listens h B w₀ R xs) functions ys)
    (F : Fleet h d B R (zs ++ functions.map fun _ => .plain xs) stands) :
    ∃ e stands', Fleet h e B R (zs ++ ys) stands' ∧
      (∀ rs g P w, stands' rs g P w → ∃ rs' g' P', stands rs' g' P' w) ∧
      ∀ᶠ N in atTop, ∀ n, e ≤ n → ∀ fs all place j rs routes g P w,
        List.Forall₂ Forwarded functions (all.drop j) → j ≤ all.length → routes.length = functions.length →
        Poised B w₀ stands zs fs all place j rs routes g P w →
        ∃ rs' v, ((h.grant N).up n).applyEach (.ref .iterator place) (routes.map (.ref .iterator)) w =
            .ok rs' v ∧ Made B stands' (zs ++ ys) w (rs ++ rs') v := by
  induction hlisten generalizing d zs stands with
  | nil =>
      refine ⟨d + 1, stands, by simpa using F.mono (Nat.le_succ d), fun rs g P w h => ⟨rs, g, P, h⟩, ?_⟩
      filter_upwards [eventually_gt_atTop 0] with N hN n hn fs all place j rs routes g P w hdrop hj hlength hpoised
      obtain ⟨n, rfl, -⟩ := exists_level_below hn
      obtain rfl : routes = [] := List.length_eq_zero_iff.1 hlength
      obtain rfl : j = all.length :=
        Nat.le_antisymm hj (List.drop_eq_nil_iff.1 (List.forall₂_nil_left_iff.1 hdrop))
      obtain ⟨v, hpull, hmade⟩ := hpoised.made F.footing (H := (h.grant N).up n) (by rwa [Host.fuel_up])
      refine ⟨[], v, Act.bind_of_ok hpull, ?_⟩
      rwa [List.append_nil, List.append_nil]
  | @cons f y functions ys hf _ ih =>
      obtain ⟨e, stands', F', hback, hcall⟩ := hf F (i := zs.length) (by simp)
      have hset : (zs ++ (f :: functions).map fun _ => Strand.plain xs).set zs.length y =
          (zs ++ [y]) ++ functions.map fun _ => .plain xs := by
        simp
      rw [hset] at F'
      obtain ⟨e', stands'', F'', hback', hcalls⟩ := ih F'
      rw [List.append_assoc] at F''
      refine ⟨max (e + 1) e', stands'', F''.mono (Nat.le_max_right _ _), fun rs g P w h => ?_, ?_⟩
      · obtain ⟨rs', g', P', h'⟩ := hback' rs g P w h
        exact hback rs' g' P' w h'
      filter_upwards [hcall, hcalls, eventually_gt_atTop 0] with N hcall hcalls hN n hn fs all place j rs routes
        g P w hdrop hj hlength hpoised
      obtain ⟨route, routes, rfl⟩ := List.exists_of_length_succ _ hlength
      have hne := Nat.le_trans (Nat.le_max_left (e + 1) e') hn
      obtain ⟨m, rfl, -⟩ := exists_level_below hne
      obtain ⟨f₁, rest, hforwarded, hrest, hdrop⟩ := List.forall₂_cons_left_iff.1 hdrop
      have hnext : all[j]? = some f₁ := by
        rw [← List.head?_drop, hdrop]
        rfl
      have htail : all.drop (j + 1) = rest := by
        rw [← List.drop_drop, hdrop]
        rfl
      obtain ⟨f', u, hpull, hhanded, hretains, hpoised'⟩ :=
        hpoised.pull F.footing hnext (H := (h.grant N).up m) (by rwa [Host.fuel_up])
      have hroute : (rs ++ (route :: routes).map (Value.ref .iterator))[zs.length]? =
          some (.ref .iterator route) := by
        rw [← hpoised.length]
        simp
      obtain ⟨r, t, happly, hcalled⟩ := hcall (m + 1) (Nat.le_of_succ_le hne) _ g P u route f' hpoised'.stands
        hpoised'.since hroute (hpoised'.unread _ (Nat.le_of_eq hpoised.length)) (hforwarded.handed hhanded)
      obtain ⟨g', Q, hpoised''⟩ := hpoised'.called (hpoised.length ▸ hcalled)
      obtain ⟨rs', v, hresults, hmade⟩ := hcalls (m + 1) (Nat.le_trans (Nat.le_max_right _ _) hn) fs all place
        (j + 1) (rs ++ [r]) routes g' Q t (htail ▸ hrest) (List.getElem?_eq_some_iff.1 hnext).1 (Nat.succ.inj hlength)
        hpoised''
      rw [List.append_assoc, List.append_assoc, List.singleton_append, List.singleton_append] at hmade
      refine ⟨r :: rs', v, ?_, { hmade with retains := ?_ }⟩
      · exact (Act.bind_of_ok hpull).trans ((Act.bind_of_ok happly).trans (Act.bind_of_ok hresults))
      · exact (hretains.trans hcalled.contained.retains).trans hmade.retains

end

end GraphRoutes.Session
