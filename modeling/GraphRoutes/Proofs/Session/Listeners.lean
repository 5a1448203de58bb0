/-
**Functions that read their route, and iterators that they may be given.**

Iterators over a collection at hand are apart from one another, and each may be split.  A function that reads
its route may pass it on, cut it into blocks, or read it to its end and keep the items in a list; whatever the
route is, and whatever the other routes are, what it makes of it depends only on what the route gives.

Main definitions:

* `GraphRoutes.Session.At` — a cursor that is somewhere in a collection;
* `GraphRoutes.Session.cutting` — a function that cuts its route into blocks.

Main results:

* `GraphRoutes.Session.spring_items`, `GraphRoutes.Session.fleet_items` — iterators over a collection at hand;
* `GraphRoutes.Session.listens_iterator`, `GraphRoutes.Session.listens_chunked`,
  `GraphRoutes.Session.listens_list` — **functions that read their route**.
-/
import GraphRoutes.Proofs.Session.Splitting

set_option relaxedAutoImplicit false
set_option autoImplicit false

namespace GraphRoutes.Session

open World Merge Filter

variable {α : Type}

/-! ### Collections at hand -/

/-- A cursor that has been asked for `k` items of a collection: of one that cannot change, or of a list that
does not.  At the end of a list it stays there. -/
inductive At (B : Setting) (vs : List Value) (c k : ℕ) (w : World) : Prop
  | items (of : ItemsOf) (hc : w.cursors[c]? = some (.items of (vs.drop k)))
  | list {l : ℕ} (hc : w.cursors[c]? = some (.listFrom l (some k))) (hl : w.lists[l]? = some vs.toArray)
      (hB : l ∉ B.lists)
  | spent {l : ℕ} (hc : w.cursors[c]? = some (.listFrom l none)) (hk : vs.length < k)

section

variable {H : Host} {B : Setting} {vs : List Value} {c k : ℕ} {w v : World} {x : Value}

theorem At.lt_size (hc : At B vs c k w) : c < w.cursors.size := by
  cases hc with
  | items _ hc | list hc | spent hc => exact (Array.getElem?_eq_some_iff.1 hc).1

/-- Nobody else moves a cursor in a collection. -/
theorem At.retains (hc : At B vs c k w) (hv : Retains B w v) (hsame : v.cursors[c]? = w.cursors[c]?) :
    At B vs c k v := by
  cases hc with
  | items of hc => exact .items of (hsame.trans hc)
  | list hc hl hB => exact .list (hsame.trans hc) (hv.same _ _ hB hl) hB
  | spent hc hk => exact .spent (hsame.trans hc) hk

theorem listTurn_of_item {l : ℕ} (hl : w.lists[l]? = some vs.toArray) (hx : vs[k]? = some x) :
    listTurn c l (some k) w = .ok (.give x) (w.withCursor c (.listFrom l (some (k + 1)))) := by
  rw [listTurn, Act.bind_of_ok (m := get) rfl, listAt, hl, Option.getD_some]
  simp only [List.getElem?_toArray, hx]
  rfl

theorem listTurn_of_end {l : ℕ} (hl : w.lists[l]? = some vs.toArray) (hx : vs[k]? = none) :
    listTurn c l (some k) w = .ok .ended (w.withCursor c (.listFrom l none)) := by
  rw [listTurn, Act.bind_of_ok (m := get) rfl, listAt, hl, Option.getD_some]
  simp only [List.getElem?_toArray, hx]
  rfl

theorem At.pull_item (hc : At B vs c k w) (hx : vs[k]? = some x) (hfuel : 0 < H.fuel) :
    ∃ x' v, H.above.pull (.ref .iterator c) w = .ok (some x') v ∧ Handed x x' ∧ Uses {c} w v ∧
      At B vs c (k + 1) v := by
  have hlt := (List.getElem?_eq_some_iff.1 hx).1
  have hread : ∀ cursor, nextItem H c w = .ok (some x) (w.withCursor c cursor) →
      (∀ marks, At B vs c (k + 1) { w.withCursor c cursor with marks }) →
      ∃ x' v, H.above.pull (.ref .iterator c) w = .ok (some x') v ∧ Handed x x' ∧ Uses {c} w v ∧
        At B vs c (k + 1) v := by
    intro cursor hnext hat
    obtain ⟨x', marks, hpull, hhanded⟩ := pull_of_nextItem hnext
    exact ⟨x', _, hpull, hhanded, uses_settle w c cursor marks, hat marks⟩
  cases hc with
  | items of hc =>
      have hdrop : vs.drop k = x :: vs.drop (k + 1) := by
        rw [← List.getElem_cons_drop hlt, (List.getElem?_eq_some_iff.1 hx).2]
      rw [hdrop] at hc
      exact hread _ (nextItem_of_turn hc rfl rfl rfl hfuel) fun _ => .items of (getElem?_setCursor hc)
  | list hc hl hB =>
      exact hread _ (nextItem_of_turn hc rfl (listTurn_of_item hl hx) rfl hfuel)
        fun _ => .list (getElem?_setCursor hc) hl hB
  | spent hc hk => exact absurd hk (Nat.not_lt_of_lt hlt)

theorem At.pull_end (hc : At B vs c k w) (hx : vs[k]? = none) (hfuel : 0 < H.fuel) :
    ∃ v, H.above.pull (.ref .iterator c) w = .ok none v ∧ Uses {c} w v ∧ At B vs c (k + 1) v := by
  have hle := List.getElem?_eq_none_iff.1 hx
  cases hc with
  | items of hc =>
      rw [List.drop_eq_nil_of_le hle] at hc
      have hnext : nextItem H c w = .ok none w := nextItem_of_turn hc rfl rfl rfl hfuel
      refine ⟨w, Act.bind_of_ok hnext, .refl _ w, .items of ?_⟩
      rw [List.drop_eq_nil_of_le (Nat.le_succ_of_le hle)]
      exact hc
  | list hc hl hB =>
      have hnext : nextItem H c w = .ok none _ :=
        nextItem_of_turn hc rfl (listTurn_of_end hl hx) rfl hfuel
      exact ⟨_, Act.bind_of_ok hnext, uses_setCursor w c _,
        .spent (getElem?_setCursor hc) (Nat.lt_succ_of_le hle)⟩
  | spent hc hk =>
      have hnext : nextItem H c w = .ok none w := nextItem_of_turn hc rfl rfl rfl hfuel
      exact ⟨w, Act.bind_of_ok hnext, .refl _ w, .spent hc (Nat.lt_succ_of_lt hk)⟩

/-- **The next item of a collection.** -/
theorem At.pull (hc : At B vs c k w) (hfuel : 0 < H.fuel) :
    ∃ r v, H.above.pull (.ref .iterator c) w = .ok r v ∧ Option.Rel Handed vs[k]? r ∧ Uses {c} w v ∧
      At B vs c (k + 1) v := by
  cases hx : vs[k]? with
  | none =>
      obtain ⟨v, hpull, huses, hat⟩ := hc.pull_end hx hfuel
      exact ⟨none, v, hpull, .none, huses, hat⟩
  | some x =>
      obtain ⟨x', v, hpull, hhanded, huses, hat⟩ := hc.pull_item hx hfuel
      exact ⟨some x', v, hpull, .some hhanded, huses, hat⟩

end

/-! ### Iterators over a collection -/

theorem rel_getElem? {β : Type} {R : α → β → Prop} {as : List α} {bs : List β} (h : List.Forall₂ R as bs)
    (k : ℕ) : Option.Rel R as[k]? bs[k]? := by
  induction h generalizing k with
  | nil => exact .none
  | cons hab _ ih =>
      cases k with
      | zero => exact .some hab
      | succ k => exact ih k

/-- Iterators that have been made of one collection, and have been asked for some of its items each. -/
structure Abreast (B : Setting) (vs : List Value) (n : ℕ) (rs : List Value) (g : Positions) (P : Set ℕ)
    (w : World) : Prop where
  state : ∃ cs : List ℕ, rs = cs.map (.ref .iterator) ∧ cs.length = n ∧ cs.Nodup ∧ P = {c | c ∈ cs} ∧
    Themselves cs g ∧ ∀ i c : ℕ, cs[i]? = some c → At B vs c (asks (g i)) w

section

variable {h H : Host} {B : Setting} {R : α → Value → Prop} {as : List α} {vs : List Value} {c k : ℕ}
  {w v : World}

section

variable (hR : ∀ a x x', R a x → Handed x x' → R a x') (has : List.Forall₂ R as vs)

include hR has

theorem rel_of_handed {r : Option Value} (hr : Option.Rel Handed vs[k]? r) :
    Option.Rel R ((Stream'.Seq.ofList as).get? k) r := by
  rw [Stream'.Seq.ofList_get?]
  have hrel := rel_getElem? has k
  generalize as[k]? = a at hrel
  generalize vs[k]? = x at hr hrel
  cases hrel with
  | none =>
      cases hr
      exact .none
  | some hax =>
      obtain ⟨hhanded⟩ := hr
      exact .some (hR _ _ _ hax hhanded)

/-- An iterator over a collection gives its items. -/
theorem spring_items (h : Host) (B : Setting) (c place : ℕ) :
    Spring h 1 B R (.ref .iterator c) (.ofList as) place
      fun m P w => P = {c} ∧ ∃ k, At B vs c k w ∧ m = min k vs.length where
  handed := hR
  has := by
    rintro m P w ⟨rfl, k, hc, -⟩ i rfl
    exact hc.lt_size
  beside := by
    rintro m P w v ⟨rfl, k, hc, rfl⟩ hv
    exact ⟨rfl, k, hc.retains hv.retains (hv.same c rfl), rfl⟩
  gives m := by
    filter_upwards [eventually_gt_atTop 0] with N hN n hn P w hstands
    obtain ⟨n, rfl, -⟩ := exists_level_below hn
    obtain ⟨rfl, k, hc, rfl⟩ := hstands
    obtain ⟨r, v, hpull, hr, huses, hc'⟩ := hc.pull (H := (h.grant N).up n) (by rwa [Host.fuel_up])
    have hshared : v.shared[place]? = w.shared[place]? := by rw [huses.rest]
    have hget : (Stream'.Seq.ofList as).get? (min k vs.length) = (Stream'.Seq.ofList as).get? k := by
      rw [Stream'.Seq.ofList_get?, Stream'.Seq.ofList_get?]
      rcases Nat.le_total k vs.length with hle | hle
      · rw [Nat.min_eq_left hle]
      · rw [Nat.min_eq_right hle, List.getElem?_eq_none (Nat.le_of_eq has.length_eq),
          List.getElem?_eq_none (has.length_eq ▸ hle)]
    refine ⟨r, v, {c}, hpull, hget ▸ rel_of_handed hR has hr, huses.contained, subset_within _ _, hshared, rfl,
      k + 1, hc', ?_⟩
    cases r with
    | none =>
        have hnone : vs[k]? = none := by
          generalize vs[k]? = x at hr
          cases hr
          rfl
        have hle := List.getElem?_eq_none_iff.1 hnone
        exact (Nat.min_eq_right hle).trans (Nat.min_eq_right (Nat.le_succ_of_le hle)).symm
    | some x =>
        have hlt : k < vs.length := by
          by_contra hle
          rw [List.getElem?_eq_none (Nat.le_of_not_lt hle)] at hr
          cases hr
        exact congrArg (· + 1) (Nat.min_eq_left (Nat.le_of_lt hlt)) |>.trans (Nat.min_eq_left hlt).symm

/-- **Iterators over a collection are apart from one another.** -/
theorem fleet_items (h : Host) (B : Setting) (n : ℕ) :
    Fleet h 1 B R (List.replicate n (.plain (.ofList as))) (Abreast B vs n) where
  handed := hR
  has := by
    rintro rs g P w ⟨cs, -, -, -, rfl, -, hat⟩ c hc
    obtain ⟨i, hi⟩ := List.getElem?_of_mem hc
    exact (hat i c hi).lt_size
  aside := by
    rintro rs g P w v ⟨cs, hrs, hlength, hnodup, rfl, hopened, hat⟩ hv
    exact ⟨cs, hrs, hlength, hnodup, rfl, hopened,
      fun i c hc => (hat i c hc).retains hv.retains (hv.same c (List.mem_of_getElem? hc))⟩
  opens := by
    rintro rs g P w i r r' ⟨cs, rfl, hlength, hnodup, hP, hopened, hat⟩ hg hr hhanded
    rw [List.getElem?_map] at hr
    obtain ⟨c, hc, rfl⟩ := Option.map_eq_some_iff.1 hr
    obtain rfl := hhanded.eq_of_marked rfl
    refine ⟨.ref .iterator c, w, P, rfl, subset_within P _, cs, rfl, hlength, hnodup, hP, hopened.update hc 0,
      fun j c' hc' => ?_⟩
    rw [asks_opened hg]
    exact hat j c' hc'
  replies k := by
    filter_upwards [eventually_gt_atTop 0] with N hN n' hn rs g P w i x it hx hstands hg
    obtain ⟨n', rfl, -⟩ := exists_level_below hn
    obtain ⟨cs, hrs, hlength, hnodup, rfl, hopened, hat⟩ := hstands
    rw [List.getElem?_replicate] at hx
    obtain ⟨hi, ⟨⟩⟩ := Option.ite_none_right_eq_some.1 hx
    obtain ⟨c, hc⟩ : ∃ c, cs[i]? = some c := ⟨_, List.getElem?_eq_getElem (hlength ▸ hi)⟩
    obtain rfl := hopened i c it k hc hg
    have hself : At B vs c k w := by
      have hself := hat i c hc
      rw [hg] at hself
      exact hself
    obtain ⟨r, v, hpull, hr, huses, hv⟩ := hself.pull (H := (h.grant N).up n') (by rwa [Host.fuel_up])
    obtain ⟨r', hask, hr'⟩ := exists_ask_of_pull hpull (rel_of_handed hR has hr)
    refine ⟨r', v, {c | c ∈ cs}, hask, hr', ?_, subset_within _ _, cs, hrs, hlength, hnodup, rfl,
      hopened.update hc (k + 1), fun j c' hc' => ?_⟩
    · exact huses.contained.mono (Set.singleton_subset_iff.2 (List.mem_of_getElem? hc))
    · by_cases hj : j = i
      · subst hj
        cases hc.symm.trans hc'
        rwa [asks_update_self]
      · rw [Function.update_of_ne hj]
        have hne : c' ≠ c := by
          rintro rfl
          exact hj ((List.getElem?_inj (hlength ▸ hi) hnodup).1 (hc.trans hc'.symm)).symm
        exact (hat j c' hc').retains huses.retains (huses.same c' ⟨(hat j c' hc').lt_size, hne⟩)

end

end

/-! ### Calls of functions -/

theorem apply_op {H : Host} {w : World} (o : Op) (sort : RefSort) (place : ℕ) :
    H.above.apply (.op o) [.ref sort place] w = H.callOp o [.ref sort place] [] w := rfl

/-- A function that cuts its route into blocks of `n` items. -/
def cutting (n : ℕ) : Function :=
  .closure ["r"] (.call (.name "chunked" (some (.op .chunked))) [.name "r" none, .literal (.int n)] []) []

theorem apply_cutting {H : Host} {w : World} {p n place : ℕ} {sort : RefSort}
    (hp : w.functions[p]? = some (cutting n)) (hname : w.bindings.lookup "chunked" = none) :
    H.above.above.apply (.ref .function p) [.ref sort place] w =
      H.callOp .chunked [.ref sort place, .int n] [] w := by
  have hcall : H.above.above.apply (.ref .function p) [.ref sort place] w =
      callOver H.above (.ref .function p) [.ref sort place] [] w := rfl
  have hchunked : nameValue [("r", .ref sort place)] "chunked" (some (.op .chunked)) w = .ok (.op .chunked) w := by
    rw [nameValue, Act.bind_of_ok (m := get) rfl, hname]
    rfl
  rw [hcall, callOver, Act.bind_of_ok (m := get) rfl, hp]
  exact (Act.bind_of_ok hchunked).trans rfl

theorem set_getElem?_self {β : Type} {xs : List β} {i : ℕ} {x : β} (hx : xs[i]? = some x) : xs.set i x = xs := by
  obtain ⟨hi, rfl⟩ := List.getElem?_eq_some_iff.1 hx
  exact List.set_getElem_self hi

section

variable {h : Host} {B : Setting} {R : α → Value → Prop} {as : List α} {xs : Stream'.Seq α} {w₀ : World}

/-- An iterator is open at once. -/
theorem Fleet.exists_open {d i place : ℕ} {zs : List (Strand α)}
    {stands : List Value → Positions → Set ℕ → World → Prop} {rs : List Value} {g : Positions} {P : Set ℕ}
    {w : World} (F : Fleet h d B R zs stands) (hstands : stands rs g P w) (hg : g i = none)
    (hr : rs[i]? = some (.ref .iterator place)) :
    ∃ Q, Q ⊆ within P w.cursors.size ∧
      stands rs (Function.update g i (some (.ref .iterator place, 0))) Q w := by
  obtain ⟨it, v, Q, hopen, hQ, hv⟩ := F.opens hstands hg hr (.same rfl)
  cases hopen
  exact ⟨Q, hQ, hv⟩

/-- **A function that passes its route on.** -/
theorem listens_iterator : Listens h B w₀ R xs (.op .iterator) (.plain xs) := by
  intro d zs stands i F hi
  refine ⟨d + 1, stands, ?_, fun rs g P w hw => ⟨rs, g, P, hw⟩, Eventually.of_forall ?_⟩
  · rw [set_getElem?_self hi]
    exact F.mono (Nat.le_succ d)
  intro N n hn rs g P w place f' hstands _ hr hg hhanded
  obtain ⟨n, rfl, -⟩ := exists_level_below hn
  obtain rfl := hhanded.eq_of_marked rfl
  have hset := set_getElem?_self hr
  refine ⟨.ref .iterator place, w, apply_op .iterator .iterator place, .refl B P w, fun hproper => ?_, none, P, ?_,
    subset_within P _, .plain xs nofun⟩
  · rwa [hset]
  · rwa [hset, ← hg, Function.update_eq_self]

end

/-! ### Routes that are cut into blocks -/

/-- The world with a new source of blocks over a new cursor. -/
def World.cutOff (w : World) (c : Cursor) : World :=
  { w with cursors := w.cursors.push c, blocks := w.blocks.push (.ref .iterator w.cursors.size) }

theorem getElem?_push_of_some {β : Type} {xs : Array β} {x : β} (y : β) {i : ℕ} (hx : xs[i]? = some x) :
    (xs.push y)[i]? = some x := by
  have hlt := (Array.getElem?_eq_some_iff.1 hx).1
  rw [Array.getElem?_push_lt hlt, ← Array.getElem?_eq_getElem hlt, hx]

section

variable {h : Host} {d i n : ℕ} {B : Setting} {P : Set ℕ} {R : α → Value → Prop} {xs : Stream'.Seq α}
  {zs : List (Strand α)} {stands : List Value → Positions → Set ℕ → World → Prop} {w w₀ : World}
  {rs : List Value}

theorem World.aside_cutOff (hP : Has P w) (c : Cursor) : Aside P w (w.cutOff c) where
  rest := rfl
  size := by simp [cutOff]
  same j hj := Array.getElem?_push_lt (hP j hj) |>.trans (Array.getElem?_eq_getElem (hP j hj)).symm
  lists _ _ := id
  blocks _ _ := getElem?_push_of_some _

theorem World.contained_cutOff (w : World) (c : Cursor) : Contained B P w (w.cutOff c) where
  size := by simp [cutOff]
  same j hj _ := Array.getElem?_push_lt hj |>.trans (Array.getElem?_eq_getElem hj).symm
  blocks _ _ := getElem?_push_of_some _
  retains := retains_of_rest rfl fun _ _ => id

/-- A source of blocks that is new is over a cursor of its own. -/
theorem World.Proper.cutOff (hproper : w.Proper rs) (i : ℕ) (c : Cursor) :
    (w.cutOff c).Proper (rs.set i (.ref .blocks w.blocks.size)) := by
  have hsource : ∀ {k q : ℕ}, (rs.set i (.ref .blocks w.blocks.size))[k]? = some (.ref .blocks q) →
      (k = i ∧ (w.cutOff c).blocks[q]? = some (.ref .iterator w.cursors.size)) ∨
      ∃ c', rs[k]? = some (.ref .blocks q) ∧ c' < w.cursors.size ∧ w.blocks[q]? = some (.ref .iterator c') ∧
        (w.cutOff c).blocks[q]? = some (.ref .iterator c') := by
    intro k q hk
    by_cases hki : k = i
    · subst hki
      rw [List.getElem?_set_self (by simpa using (List.getElem?_eq_some_iff.1 hk).1)] at hk
      cases hk
      exact .inl ⟨rfl, Array.getElem?_push_size⟩
    · rw [List.getElem?_set_ne (Ne.symm hki)] at hk
      obtain ⟨c', hlt, hc'⟩ := hproper.known k q hk
      exact .inr ⟨c', hk, hlt, hc', getElem?_push_of_some _ hc'⟩
  constructor
  · intro j k q q' it hj hk hq hq'
    rcases hsource hj with ⟨rfl, hcq⟩ | ⟨c₁, hj', hlt, hb, hcq⟩ <;>
      rcases hsource hk with ⟨rfl, hcq'⟩ | ⟨c₂, hk', hlt', hb', hcq'⟩ <;>
      cases hq.symm.trans hcq <;> cases hq'.symm.trans hcq'
    · rfl
    · exact absurd hlt' (Nat.lt_irrefl _)
    · exact absurd hlt (Nat.lt_irrefl _)
    · exact hproper.own j k q q' _ hj' hk' hb hb'
  · intro k q hk
    rcases hsource hk with ⟨-, hcq⟩ | ⟨c', -, hlt, -, hcq⟩
    · exact ⟨w.cursors.size, by simp [World.cutOff], hcq⟩
    · exact ⟨c', Nat.lt_of_lt_of_le hlt (by simp [World.cutOff]), hcq⟩

/-- An iterator that is open may be cut into blocks. -/
theorem Fleet.cutOff (F : Fleet h d B R zs stands) (hi : zs[i]? = some (.plain xs)) (n : ℕ) :
    Fleet h d B R (zs.set i (.chunked xs n))
      fun rs g P w => (∃ r, stands (rs.set i r) g P w) ∧ g i ≠ none where
  handed := F.handed
  has rs g P w hw := by
    obtain ⟨⟨r, hw⟩, -⟩ := hw
    exact F.has _ _ _ _ hw
  aside rs g P w v hw hv := by
    obtain ⟨⟨r, hw⟩, hi⟩ := hw
    exact ⟨⟨r, F.aside _ _ _ _ _ hw hv⟩, hi⟩
  opens := by
    rintro rs g P w j r r' ⟨⟨r₀, hw⟩, hopen⟩ hg hr hhanded
    have hne : j ≠ i := by
      rintro rfl
      exact hopen hg
    rw [← List.getElem?_set_ne (Ne.symm hne) (a := r₀)] at hr
    obtain ⟨it, v, Q, hit, hQ, hv⟩ := F.opens hw hg hr hhanded
    refine ⟨it, v, Q, hit, hQ, ⟨r₀, hv⟩, ?_⟩
    rwa [Function.update_of_ne (Ne.symm hne)]
  replies k := by
    filter_upwards [F.replies k] with N hN n hn rs g P w j x it hx hw hg
    obtain ⟨⟨r₀, hw⟩, hopen⟩ := hw
    by_cases hj : j = i
    · subst hj
      rw [List.getElem?_set_self (List.getElem?_eq_some_iff.1 hi).1] at hx
      cases hx
      obtain ⟨r, v, Q, hask, hr, hcontained, hQ, hv⟩ := hN n hn _ g P w j _ it hi hw hg
      refine ⟨r, v, Q, hask, hr, hcontained, hQ, ⟨r₀, hv⟩, ?_⟩
      rw [Function.update_self]
      nofun
    · rw [List.getElem?_set_ne (Ne.symm hj)] at hx
      obtain ⟨r, v, Q, hask, hr, hcontained, hQ, hv⟩ := hN n hn _ g P w j x it hx hw hg
      refine ⟨r, v, Q, hask, hr, hcontained, hQ, ⟨r₀, hv⟩, ?_⟩
      rwa [Function.update_of_ne (Ne.symm hj)]

/-- **A function that cuts its route into blocks.** -/
theorem listens_chunked {p : ℕ} (hn : 0 < n) (hfunction : ∀ w, Retains B w₀ w →
      w.functions[p]? = some (cutting n) ∧ w.bindings.lookup "chunked" = none) :
    Listens h B w₀ R xs (.ref .function p) (.chunked xs n) := by
  intro d zs stands i F hi
  refine ⟨d + 2, _, (F.cutOff hi n).mono (Nat.le_add_right d 2), ?_, Eventually.of_forall ?_⟩
  · rintro rs g P w ⟨⟨r, hw⟩, -⟩
    exact ⟨_, g, P, hw⟩
  intro N m hm rs g P w place f' hstands hsince hr hg hhanded
  obtain ⟨m, rfl⟩ := Nat.exists_eq_add_of_le' (Nat.le_trans (Nat.le_add_left 2 d) hm)
  obtain rfl := hhanded.eq_of_marked rfl
  obtain ⟨hp, hname⟩ := hfunction w hsince
  obtain ⟨Q, hQ, hv⟩ := F.exists_open hstands hg hr
  have hhas := F.has _ _ _ _ hv
  have hcut := callOp_chunked (H := (h.grant N).up m) (r := .ref .iterator place) (w := w) rfl hn
  refine ⟨_, _, (apply_cutting hp hname).trans hcut, w.contained_cutOff _, fun hproper => hproper.cutOff i _, _, Q,
    ⟨⟨.ref .iterator place, ?_⟩, ?_⟩, hQ, .chunked xs Array.getElem?_push_size Array.getElem?_push_size
      (notMem_of_has hhas)⟩
  · rw [List.set_set, set_getElem?_self hr]
    exact F.aside _ _ _ _ _ hv (w.aside_cutOff hhas _)
  · rw [Function.update_self]
    nofun

end

/-! ### Routes that are read to their end -/

/-- The cursor that reads a list, if the list has been opened. -/
inductive Listed (B : Setting) (vs : List Value) (Q : Set ℕ) (w : World) : Option (Value × ℕ) → Set ℕ → Prop
  | unread : Listed B vs Q w none ∅
  | opened {c k : ℕ} (hc : At B vs c k w) (hQ : c ∉ Q) : Listed B vs Q w (some (.ref .iterator c, k)) {c}

/-- The `i`-th of some routes has been read to its end, and its items have been kept in a list. -/
structure Collected (B : Setting) (R : α → Value → Prop) (as : List α) (i : ℕ)
    (stands : List Value → Positions → Set ℕ → World → Prop) (rs : List Value) (g : Positions) (P : Set ℕ)
    (w : World) : Prop where
  state : ∃ (route : Value) (l : ℕ) (vs : List Value) (Q E : Set ℕ),
    stands (rs.set i route) (Function.update g i (some (route, as.length + 1))) Q w ∧
    rs[i]? = some (.ref .list l) ∧ l ∉ B.lists ∧ w.lists[l]? = some vs.toArray ∧ List.Forall₂ R as vs ∧
    Listed B vs Q w (g i) E ∧ P = Q ∪ E

section

variable {h H : Host} {d i k n : ℕ} {B : Setting} {P Q E : Set ℕ} {R : α → Value → Prop} {as : List α}
  {zs : List (Strand α)} {stands : List Value → Positions → Set ℕ → World → Prop}
  {single : Positions → Set ℕ → World → Prop} {g : Positions} {u v w w₀ : World} {rs vs : List Value}
  {position : Option (Value × ℕ)} {it : Value}

theorem Listed.has (hl : Listed B vs Q w position E) : Has E w := by
  cases hl with
  | unread => nofun
  | opened hc hQ =>
      rintro c rfl
      exact hc.lt_size

/-- Nobody else moves the cursor that reads a list. -/
theorem Listed.retains {Q' : Set ℕ} (hl : Listed B vs Q w position E) (hv : Retains B w v)
    (hsame : ∀ c ∈ E, v.cursors[c]? = w.cursors[c]?) (hQ' : Q' ⊆ within Q w.cursors.size) :
    Listed B vs Q' v position E := by
  cases hl with
  | unread => exact .unread
  | opened hc hQ =>
      exact .opened (hc.retains hv (hsame _ rfl)) (notMem_of_subset_within hQ' hQ hc.lt_size)

theorem Listed.notMem (hl : Listed B vs Q w position E) : ∀ c ∈ E, c ∉ Q := by
  cases hl with
  | unread => nofun
  | opened hc hQ =>
      rintro c rfl
      exact hQ

/-- The next item of a route that is at hand. -/
theorem Replies.pull (hreplies : Replies H B R zs single k) (hi : zs[i]? = some (.plain (.ofList as)))
    (hstands : single g P w) (hg : g i = some (it, k)) :
    ∃ x v Q, H.pull it w = .ok x v ∧ Option.Rel R as[k]? x ∧ Contained B P w v ∧
      Q ⊆ within P w.cursors.size ∧ single (Function.update g i (some (it, k + 1))) Q v := by
  obtain ⟨r, v, Q, hask, hr, hcontained, hQ, hv⟩ := hreplies g P w i _ it hi hstands hg
  obtain ⟨x, rfl, hpull⟩ := pull_of_ask (by simp) hask
  refine ⟨x, v, Q, hpull, ?_, hcontained, hQ, hv⟩
  rw [Strand.answer, Stream'.Seq.ofList_get?] at hr
  generalize as[k]? = a at hr
  cases x with
  | none =>
      cases a with
      | none => exact .none
      | some a => cases hr
  | some x =>
      cases a with
      | none => cases hr
      | some a =>
          obtain ⟨hr⟩ := hr
          obtain _ | ⟨ha, -⟩ := hr
          exact .some ha

/-- **A route is read to its end**, item by item. -/
theorem Replies.foldFrom (hreplies : ∀ k ≤ as.length, Replies H B R zs single k)
    (hi : zs[i]? = some (.plain (.ofList as))) (hstands : single g P w) (hg : g i = some (it, k))
    (hk : k ≤ as.length) (hn : as.length - k < n) (xs : Array Value) :
    ∃ vs v Q, H.foldFrom (fun (xs : Array Value) x => pure (xs.push x)) it n xs w = .ok (xs ++ vs.toArray) v ∧
      List.Forall₂ R (as.drop k) vs ∧ Contained B P w v ∧ Q ⊆ within P w.cursors.size ∧
      single (Function.update g i (some (it, as.length + 1))) Q v := by
  induction m : as.length - k generalizing k g P w n xs with
  | zero =>
      obtain ⟨n, rfl⟩ := Nat.exists_eq_succ_of_ne_zero (Nat.ne_of_gt (Nat.zero_lt_of_lt hn))
      obtain rfl : k = as.length := Nat.le_antisymm hk (Nat.sub_eq_zero_iff_le.1 m)
      obtain ⟨x, v, Q, hpull, hx, hcontained, hQ, hv⟩ := (hreplies _ hk).pull hi hstands hg
      rw [List.getElem?_eq_none (Nat.le_refl _)] at hx
      cases hx
      refine ⟨[], v, Q, ?_, ?_, hcontained, hQ, hv⟩
      · rw [Host.foldFrom, Act.bind_of_ok hpull, Array.append_empty]
        rfl
      · rw [List.drop_length]
        exact .nil
  | succ m ih =>
      obtain ⟨n, rfl⟩ := Nat.exists_eq_succ_of_ne_zero (Nat.ne_of_gt (Nat.zero_lt_of_lt hn))
      have hlt : k < as.length := Nat.lt_of_sub_pos (m.symm ▸ Nat.succ_pos _)
      obtain ⟨x, u, Q, hpull, hx, hcontained, hQ, hu⟩ := (hreplies k hk).pull hi hstands hg
      rw [List.getElem?_eq_getElem hlt] at hx
      obtain ⟨x, rfl, ha⟩ : ∃ y, x = some y ∧ R as[k] y := by
        cases hx with
        | some ha => exact ⟨_, rfl, ha⟩
      obtain ⟨vs, v, Q', hfold, hvs, hcontained', hQ', hv⟩ := ih (n := n) hu (Function.update_self ..) hlt
        (by omega) (xs.push x) (by omega)
      rw [Function.update_idem] at hv
      refine ⟨x :: vs, v, Q', ?_, ?_, hcontained.trans hcontained' hQ, hQ'.trans (within_mono hQ hcontained.size),
        hv⟩
      · rw [Host.foldFrom, Act.bind_of_ok hpull]
        refine (Act.bind_of_ok (m := pure (xs.push x)) rfl).trans (hfold.trans ?_)
        simp
      · rw [← List.getElem_cons_drop hlt]
        exact .cons ha hvs

/-- The items of a route that has not been opened. -/
theorem Fleet.exists_items (F : Fleet h d B R zs stands) (hi : zs[i]? = some (.plain (.ofList as))) :
    ∀ᶠ N in atTop, ∀ n, d ≤ n → ∀ (rs : List Value) g P w place, stands rs g P w →
      rs[i]? = some (.ref .iterator place) → g i = none → ∃ vs v Q,
        ((h.grant N).up n).items (.ref .iterator place) w = .ok vs v ∧ List.Forall₂ R as vs ∧ Contained B P w v ∧
        Q ⊆ within P w.cursors.size ∧
        stands rs (Function.update g i (some (.ref .iterator place, as.length + 1))) Q v := by
  filter_upwards [F.eventually_replies (as.length + 1) (as.length + 1)] with N hN n hn rs g P w place hstands hr hg
  obtain ⟨hfuel, -, hreplies⟩ := hN
  obtain ⟨Q, hQ, hopen⟩ := F.exists_open hstands hg hr
  obtain ⟨vs, v, Q', hfold, hvs, hcontained, hQ', hv⟩ := Replies.foldFrom (k := 0) (n := N)
    (fun k hk => hreplies k (Nat.lt_succ_of_le hk) n hn rs) hi hopen (Function.update_self ..) (Nat.zero_le _)
    (by omega) #[]
  rw [Function.update_idem] at hv
  refine ⟨vs, v, Q', ?_, hvs, (Contained.refl B P w).trans hcontained hQ,
    hQ'.trans (within_mono hQ (Nat.le_refl _)), hv⟩
  rw [Host.items, Act.bind_of_ok (m := iterate (.ref .iterator place)) rfl, Host.drain, Host.fold, Host.fuel_up]
  refine (Act.bind_of_ok hfold).trans ?_
  rw [Array.empty_append]
  rfl

/-- A list is read by a new cursor. -/
theorem Collected.open_list {l : ℕ} (F : Fleet h d B R zs stands) {route : Value}
    (hstands : stands (rs.set i route) (Function.update g i (some (route, as.length + 1))) Q w)
    (hr : rs[i]? = some (.ref .list l)) (hB : l ∉ B.lists) (hlist : w.lists[l]? = some vs.toArray)
    (hvs : List.Forall₂ R as vs) :
    Collected B R as i stands rs (Function.update g i (some (.ref .iterator w.cursors.size, 0)))
      (Q ∪ {w.cursors.size}) { w with cursors := w.cursors.push (.listFrom l (some 0)) } := by
  have hhas := F.has _ _ _ _ hstands
  have hpush := uses_push w (.listFrom l (some 0))
  refine ⟨route, l, vs, Q, _, ?_, hr, hB, hlist, hvs, ?_, rfl⟩
  · rw [Function.update_idem]
    exact F.aside _ _ _ _ _ hstands (hpush.spares_of_new hhas).quiet.aside
  · rw [Function.update_self]
    exact .opened (.list Array.getElem?_push_size hlist hB) (notMem_of_has hhas)

/-- Another route has been opened or asked. -/
theorem Collected.other {j l : ℕ} {route : Value} {start : Option (Value × ℕ)} {Q' : Set ℕ} (hj : j ≠ i)
    (hr : rs[i]? = some (.ref .list l)) (hB : l ∉ B.lists) (hlist : w.lists[l]? = some vs.toArray)
    (hvs : List.Forall₂ R as vs) (hl : Listed B vs Q w (g i) E) (hv : Contained B Q w v)
    (hQ' : Q' ⊆ within Q w.cursors.size) (hstands : stands (rs.set i route)
      (Function.update (Function.update g i (some (route, as.length + 1))) j start) Q' v) :
    Q' ∪ E ⊆ within (Q ∪ E) w.cursors.size ∧
      Collected B R as i stands rs (Function.update g j start) (Q' ∪ E) v := by
  have hkept : ∀ c ∈ E, v.cursors[c]? = w.cursors[c]? := fun c hc =>
    hv.same c (hl.has c hc) (hl.notMem c hc)
  rw [Function.update_comm (Ne.symm hj)] at hstands
  refine ⟨?_, route, l, vs, Q', E, hstands, hr, hB, hv.retains.same l _ hB hlist, hvs, ?_, rfl⟩
  · rintro c (hc | hc)
    · exact (hQ' hc).imp_left .inl
    · exact .inl (.inr hc)
  · rw [Function.update_of_ne (Ne.symm hj)]
    exact hl.retains hv.retains hkept hQ'

/-- A route that has been read to its end is apart from the others, like one that has not been read. -/
theorem Fleet.collected (F : Fleet h d B R zs stands) (hi : zs[i]? = some (.plain (.ofList as))) :
    Fleet h (d + 1) B R zs (Collected B R as i stands) where
  handed := F.handed
  has := by
    rintro rs g P w ⟨route, l, vs, Q, E, hstands, hr, hB, hlist, hvs, hl, rfl⟩ c (hc | hc)
    · exact F.has _ _ _ _ hstands c hc
    · exact hl.has c hc
  aside := by
    rintro rs g P w v ⟨route, l, vs, Q, E, hstands, hr, hB, hlist, hvs, hl, rfl⟩ hv
    refine ⟨route, l, vs, Q, E, F.aside _ _ _ _ _ hstands (hv.mono fun _ hc => .inl hc), hr, hB,
      hv.lists l _ hlist, hvs, hl.retains hv.retains (fun c hc => hv.same c (.inr hc)) (subset_within Q _), rfl⟩
  opens := by
    rintro rs g P w j r r' ⟨route, l, vs, Q, E, hstands, hr, hB, hlist, hvs, hl, rfl⟩ hg hrj hhanded
    by_cases hj : j = i
    · subst hj
      cases hr.symm.trans hrj
      obtain rfl := hhanded.eq_of_marked rfl
      refine ⟨_, _, _, rfl, ?_, Collected.open_list F hstands hr hB hlist hvs⟩
      rintro c (hc | rfl)
      · exact .inl (.inl hc)
      · exact .inr (Nat.le_refl _)
    · rw [← List.getElem?_set_ne (Ne.symm hj) (a := route)] at hrj
      obtain ⟨it, v, Q', hopen, hQ', hv⟩ :=
        F.opens hstands (by rwa [Function.update_of_ne hj]) hrj hhanded
      have hcontained : Contained B Q w v := (uses_iterate hopen).contained.mono (Set.empty_subset Q)
      obtain ⟨hsub, hv'⟩ := Collected.other hj hr hB hlist hvs hl hcontained hQ' hv
      exact ⟨it, v, Q' ∪ E, hopen, hsub, hv'⟩
  replies k := by
    filter_upwards [F.replies k, eventually_gt_atTop 0] with N hN hpos n hn rs g P w j x it hx hw hg
    obtain ⟨route, l, vs, Q, E, hstands, hr, hB, hlist, hvs, hl, rfl⟩ := hw
    by_cases hj : j = i
    · subst hj
      cases hi.symm.trans hx
      obtain ⟨n, rfl, -⟩ := exists_level_below hn
      rw [hg] at hl
      cases hl with
      | @opened c _ hc hcQ =>
          obtain ⟨r, v, hpull, hr', huses, hc'⟩ := hc.pull (H := (h.grant N).up n) (by rwa [Host.fuel_up])
          obtain ⟨r'', hask, hr''⟩ := exists_ask_of_pull hpull (rel_of_handed F.handed hvs hr')
          have hquiet := (huses.spares_of_notMem (F.has _ _ _ _ hstands) hcQ).quiet
          refine ⟨r'', v, Q ∪ {c}, hask, hr'', huses.contained.mono fun _ hc => .inr hc, subset_within _ _,
            route, l, vs, Q, {c}, ?_, hr, hB, ?_, hvs, ?_, rfl⟩
          · rw [Function.update_idem]
            exact F.aside _ _ _ _ _ hstands hquiet.aside
          · rw [Spares.lists_eq huses]
            exact hlist
          · rw [Function.update_self]
            exact .opened hc' hcQ
    · obtain ⟨r, v, Q', hask, hrel, hcontained, hQ', hv⟩ := hN n (Nat.le_of_succ_le hn) _ _ Q w j x it hx hstands
        (by rwa [Function.update_of_ne hj])
      obtain ⟨hsub, hv'⟩ := Collected.other hj hr hB hlist hvs hl hcontained hQ' hv
      exact ⟨r, v, Q' ∪ E, hask, hrel, hcontained.mono fun _ hc => .inl hc, hsub, hv'⟩

/-- A list is no source of blocks. -/
theorem World.Proper.set_list (hproper : w.Proper rs) (i l : ℕ) : w.Proper (rs.set i (.ref .list l)) := by
  have hsource : ∀ {k q : ℕ}, (rs.set i (.ref .list l))[k]? = some (.ref .blocks q) →
      rs[k]? = some (.ref .blocks q) := by
    intro k q hk
    by_cases hki : k = i
    · subst hki
      rw [List.getElem?_set_self (by simpa using (List.getElem?_eq_some_iff.1 hk).1)] at hk
      cases hk
    · rwa [List.getElem?_set_ne (Ne.symm hki)] at hk
  exact ⟨fun j k q q' it hj hk => hproper.own j k q q' it (hsource hj) (hsource hk),
    fun k q hk => hproper.known k q (hsource hk)⟩

/-- **A function that reads its route to the end**, and keeps the items in a list. -/
theorem listens_list (hold : w₀.Old B) : Listens h B w₀ R (.ofList as) (.op .listOf) (.plain (.ofList as)) := by
  intro d zs stands i F hi
  refine ⟨d + 1, _, (set_getElem?_self hi).symm ▸ F.collected hi, ?_, ?_⟩
  · rintro rs g P w ⟨route, l, vs, Q, E, hstands, -⟩
    exact ⟨_, _, Q, hstands⟩
  filter_upwards [F.exists_items hi] with N hN n hn rs g P w place f' hstands hsince hr hg hhanded
  obtain ⟨n, rfl, hle⟩ := exists_level_below hn
  obtain rfl := hhanded.eq_of_marked rfl
  obtain ⟨vs, v, Q, hitems, hvs, hread, hQ, hv⟩ := hN n hle rs g P w place hstands hr hg
  obtain ⟨vs', marks, hlist, hhanded'⟩ := exists_newList vs v
  have hperform : ((h.grant N).up n).perform .listOf { bound := [some (.ref .iterator place)], extra := [] } w =
      .ok (.ref .list v.lists.size) _ := (Act.bind_of_ok hitems).trans hlist
  have hnew := quiet_newList Q v marks vs'.toArray
  have hkept : Contained B ∅ v _ := ⟨confined_newList v marks vs'.toArray, hnew.retains⟩
  have hlast : v.lists.size ∉ B.lists := fun hmem =>
    Nat.not_lt_of_le hread.retains.count (hold.keeps hsince _ hmem)
  have hcall : ((h.grant N).up n).callOp .listOf [.ref .iterator place] [] w = .ok (.ref .list v.lists.size) _ :=
    (callOp_of_ok rfl hperform).trans rfl
  refine ⟨_, _, (apply_op .listOf .iterator place).trans hcall, hread.trans hkept (Set.empty_subset _),
    fun hproper => (hproper.confined hread.toConfined).set_list i _ |>.confined hkept.toConfined, none, Q,
    ⟨.ref .iterator place, v.lists.size, vs', Q, ∅, ?_, ?_, hlast, Array.getElem?_push_size, ?_, ?_, ?_⟩, hQ,
    .plain _ (by simp)⟩
  · rw [List.set_set, set_getElem?_self hr, Function.update_idem]
    exact F.aside _ _ _ _ _ hv hnew.aside
  · exact List.getElem?_set_self (List.getElem?_eq_some_iff.1 hr).1
  · exact forall₂_handed F.handed hvs hhanded'
  · rw [Function.update_self]
    exact .unread
  · exact (Set.union_empty Q).symm

end

end GraphRoutes.Session
