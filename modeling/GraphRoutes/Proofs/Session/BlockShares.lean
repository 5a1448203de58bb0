/-
**Blocks of one route for several consumers.**

A source of blocks is made of a route that is cut into blocks of one size, or of a route that gives blocks.  Some
ask it for blocks, and others read it; they take turns in any order.  The blocks are handed out one after the
other, each of them once, and none of their items is lost.

A size that is larger than any slice may be is refused, though only when the first block is asked for.

Main definitions:

* `GraphRoutes.Session.Provides` — a route, and what it gives to whoever opens it;
* `GraphRoutes.Session.SharesOut` — **a source of blocks shares out its blocks**.

Main results:

* `GraphRoutes.Session.Fleet.sharesOut` — a source of blocks over any route that gives blocks;
* `GraphRoutes.Session.provides_collection`, `GraphRoutes.Session.provides_blocks` — collections at hand;
* `GraphRoutes.Session.blocks_are_shared_out` — **who is given the blocks of a source**;
* `GraphRoutes.Session.not_blocks_of_any_size` — a list of one item, and a size that is too large.
-/
import GraphRoutes.Proofs.Session.Interleaving
import GraphRoutes.Proofs.Session.Rereading
import GraphRoutes.Proofs.Session.Tapping

set_option relaxedAutoImplicit false
set_option autoImplicit false

namespace GraphRoutes.Session

open World Merge Filter

variable {α : Type}

/-! ### Blocks that are shared out -/

/-- **What comes of questions to a source of blocks**: everybody has been given what a tap of the blocks gives, the
blocks are shared out, and whoever asks next is answered. -/
structure SharedAmong (h : Host) (R : α → Value → Prop) (q : ℕ) (blocks : List (List α)) (readers : List ℕ)
    (es : List (Taker × Option (List Value))) (v : World) : Prop where
  given : List.Forall₂ (Matches R) (Tap.after blocks (es.map (·.1))).log es
  shared : SharedOut blocks readers (.after blocks (es.map (·.1)))
  answers : ∀ k, (∀ c, k = .reader c → c ∈ readers) → ∃ d u, Asks h q v k d u ∧
    AnsweredBy R (.after blocks (es.map (·.1))) (.after blocks (es.map (·.1) ++ [k])) k d

/-- **A source of blocks shares out its blocks**, whoever asks in whatever order. -/
def SharesOut (h : Host) (d : ℕ) (R : α → Value → Prop) (q : ℕ) (blocks : List (List α)) (w : World) : Prop :=
  ∀ L, ∀ᶠ N in atTop, ∀ n, d ≤ n → ∀ readers es v, Tapped ((h.grant N).up n) q w readers es v → es.length ≤ L →
    SharedAmong ((h.grant N).up n) R q blocks readers es v

/-- **A route that gives what `x` gives** to whoever opens it. -/
def Provides (h : Host) (d : ℕ) (B : Setting) (R : α → Value → Prop) (x : Strand α) (r : Value) (w : World) : Prop :=
  ∃ it u stands rs g P, iterate r w = .ok it u ∧ Fleet h d B R [x] stands ∧ stands rs g P u ∧ g 0 = some (it, 0)

section

variable {h : Host} {d i n q : ℕ} {B : Setting} {P : Set ℕ} {R : α → Value → Prop} {as : List α}
  {bs : List (List α)} {zs : List (Strand α)} {stands : List Value → Positions → Set ℕ → World → Prop}
  {rs : List Value} {g : Positions} {w : World} {it r : Value}

/-- **A source of blocks shares out its blocks** if it is over a route that gives them. -/
theorem Fleet.sharesOut (F : Fleet h d B R zs stands) (hi : zs[i]? = some (.blocks (.ofList bs)))
    (hw : stands rs g P w) (hg : g i = some (it, 0)) (hq : w.blocks[q]? = some it) :
    SharesOut h (d + 2) R q (filledBlocks bs) w := by
  intro L
  -- one turn more than there are questions: somebody may ask next
  obtain ⟨K, hK⟩ := exists_pulled_le [.blocks (.ofList bs)] (L + 1)
  filter_upwards [F.eventually_replies K 2] with N hN n hn readers es v htapped hlength
  obtain ⟨hKN, hone, hreplies⟩ := hN
  obtain ⟨m, rfl⟩ := Nat.exists_eq_add_of_le' (Nat.le_trans (Nat.le_add_left 2 d) hn)
  have hfooting : Footing R (Since B w (stands rs)) := footing_since (F.footing rs)
  have haside : ∀ g P u v, Since B w (stands rs) g P u → Aside P u v → Since B w (stands rs) g P v :=
    fun g P u v hu hv => ⟨F.aside _ _ _ _ _ hu.1 hv, hu.2.trans hv.retains⟩
  have hA : ∀ k < K, ∀ n, Answers (((h.grant N).up m).up n) R zs (Since B w (stands rs)) k := by
    intro k hk n
    rw [up_add]
    exact (hreplies k hk (m + n) (by omega) rs).answers
  have hfuel : K < ((h.grant N).up m).fuel := by rwa [Host.fuel_up]
  have htwo : 1 < ((h.grant N).up m).fuel := by rwa [Host.fuel_up]
  have hturns : ∀ t < L + 1, (Strand.blocks (.ofList bs)).pulled (t + 1) ≤ K :=
    hK _ (List.mem_singleton_self _)
  have hserving : Serving R (Since B w (stands rs)) i q it bs [] 0 (.after (filledBlocks bs) []) w :=
    ⟨⟨g, P, ⟨hw, .refl B w⟩, ⟨hg, .blocks _ hq, nofun⟩, nofun⟩, rfl, rfl, fun _ _ => rfl, .nil⟩
  obtain ⟨hgiven, hreaders, t, ht, hv⟩ := hserving.of_tapped haside hfooting hi hA hfuel htwo
    (fun t ht => hturns t (Nat.lt_succ_of_lt ht)) htapped hlength
  refine ⟨hgiven, sharedOut hv.nodup _ hreaders, fun k hk => ?_⟩
  obtain ⟨d', u, hasks, hanswered, -⟩ := hv.exists_ask hfooting hi hA hfuel htwo
    (hturns t (Nat.lt_succ_of_le (ht.trans hlength))) hk
  rw [Tap.after_concat]
  exact ⟨d', u, hasks, hanswered⟩

/-- A route that has just been opened is about to be cut. -/
theorem slicing_cutOff {xs : Stream'.Seq α} (F : Fleet h d B R zs stands) (hw : stands rs g P w)
    (hg : g i = some (it, 0)) (n : ℕ) :
    Slicing xs n i (fun rs g P w => (∃ r, stands (rs.set i r) g P w) ∧ g i ≠ none) rs
      (Function.update g i (some (.ref .iterator w.cursors.size, 0))) (insert w.cursors.size P)
      (w.cutOff (.cut (cutOf it n))) := by
  have hhas := F.has _ _ _ _ hw
  have hstarts : Function.update g i (some (it, 0)) = g := by rw [← hg, Function.update_eq_self]
  have hsame : ∃ r, rs.set i r = rs := by
    by_cases hi : i < rs.length
    · exact ⟨rs[i], List.set_getElem_self hi⟩
    · exact ⟨it, List.set_eq_of_length_le (Nat.le_of_not_lt hi)⟩
  obtain ⟨r, hr⟩ := hsame
  refine ⟨it, 0, w.cursors.size, 0, P, true, ⟨⟨r, ?_⟩, ?_⟩, Function.update_self .., Array.getElem?_push_size,
    fun _ => rfl, nofun, notMem_of_has hhas, rfl⟩
  · rw [hr, Function.update_idem, hstarts]
    exact F.aside _ _ _ _ _ hw (w.aside_cutOff hhas _)
  · rw [Function.update_self]
    nofun

/-- **A route that is cut into blocks** of a size that is not too large. -/
theorem Provides.exists_chunked (hr : Provides h d B R (.plain (.ofList as)) r w) (hn : 0 < n)
    (hlimit : (n : ℤ) ≤ sliceLimit) :
    ∃ q v, (∀ H : Host, H.callOp .chunked [r, .int n] [] w = .ok (.ref .blocks q) v) ∧
      SharesOut h (d + 3) R q (cut hn as) v := by
  obtain ⟨it, u, stands, rs, g, P, hit, F, hu, hg⟩ := hr
  have Fcut := (F.cutOff (i := 0) rfl n).slices (i := 0) rfl hn hlimit
  rw [slices_ofList] at Fcut
  refine ⟨u.blocks.size, u.cutOff (.cut (cutOf it n)), fun H => callOp_chunked hit hn, ?_⟩
  rw [← filledBlocks_cut hn as]
  exact Fcut.sharesOut (i := 0) rfl (slicing_cutOff F hu hg n) (Function.update_self ..) Array.getElem?_push_size

/-- A source of blocks is made, and nothing is read. -/
theorem callOp_blocks {H : Host} {u : World} (hit : iterate r w = .ok it u) :
    H.callOp .blocks [r] [] w = .ok (.ref .blocks u.blocks.size) { u with blocks := u.blocks.push it } := by
  have hperform : H.perform .blocks { bound := [some r], extra := [] } w =
      .ok (.ref .blocks u.blocks.size) { u with blocks := u.blocks.push it } := (Act.bind_of_ok hit).trans rfl
  exact (callOp_of_ok rfl hperform).trans rfl

theorem World.aside_newBlocks (P : Set ℕ) (w : World) (it : Value) :
    Aside P w { w with blocks := w.blocks.push it } where
  rest := rfl
  size := Nat.le_refl _
  same _ _ := rfl
  lists _ _ := id
  blocks _ _ := getElem?_push_of_some _

/-- **A route that gives blocks.** -/
theorem Provides.exists_blocks (hr : Provides h d B R (.blocks (.ofList bs)) r w) :
    ∃ q v, (∀ H : Host, H.callOp .blocks [r] [] w = .ok (.ref .blocks q) v) ∧
      SharesOut h (d + 2) R q (filledBlocks bs) v := by
  obtain ⟨it, u, stands, rs, g, P, hit, F, hu, hg⟩ := hr
  exact ⟨_, _, fun H => callOp_blocks hit, F.sharesOut (i := 0) rfl
    (F.aside _ _ _ _ _ hu (u.aside_newBlocks P it)) hg Array.getElem?_push_size⟩

end

/-! ### Collections at hand -/

/-- The world with another list at `l`. -/
def World.withList (w : World) (l : ℕ) (xs : Array Value) : World :=
  { w with lists := (w.lists ++ Array.replicate (l + 1) #[]).setIfInBounds l xs }

section

variable {h : Host} {l c k : ℕ} {B : Setting} {R : α → Value → Prop} {as : List α} {bs : List (List α)}
  {w v : World} {r : Value} {vs rs : List Value}

theorem World.listAt_withList (w : World) (l : ℕ) (xs : Array Value) : (w.withList l xs).listAt l = xs := by
  rw [withList, listAt, Array.getElem?_setIfInBounds_self_of_lt (by simp; omega)]
  rfl

/-- A list that may change, or is not there yet, may become another one. -/
theorem World.retains_withList (hl : l ∈ B.lists ∨ w.lists.size ≤ l) (xs : Array Value) :
    Retains B w (w.withList l xs) where
  count := by simp [withList]
  same l' ys hl' hys := by
    have hlt := (Array.getElem?_eq_some_iff.1 hys).1
    have hne : l ≠ l' := by
      rintro rfl
      exact hl.elim hl' (Nat.not_le_of_lt hlt)
    rw [withList, Array.getElem?_setIfInBounds_ne hne, Array.getElem?_append_left hlt, hys]
  stays := B.reads w _ rfl

theorem World.Holds.collection (hholds : w.Holds B r vs) : w.collection? r = some vs := by
  obtain ⟨r', marks, -, hhanded⟩ := exists_handOut r w
  have hr' := hholds w r' (.refl B w) hhanded
  by_cases htracked : ∃ n, r = .tracked n
  · obtain ⟨n, rfl⟩ := htracked
    cases hhanded with
    | same => exact hr'
    | marked => cases hr'
  · obtain ⟨m, rfl⟩ := hhanded.exists_withMark fun n hn => htracked ⟨n, hn⟩
    cases r <;> exact hr'

/-- A list that is held is there, and does not change. -/
theorem World.Holds.list (hholds : w.Holds B (.ref .list l) vs) : l ∉ B.lists ∧ w.lists[l]? = some vs.toArray := by
  have hstays : ¬(l ∈ B.lists ∨ w.lists.size ≤ l) := by
    intro hl
    -- then it could become a longer list, and everything that has to stay would have stayed
    have hother := hholds _ _ (retains_withList hl (Value.null :: vs).toArray) (.same rfl)
    rw [collection?, listAt_withList] at hother
    exact absurd (Option.some_inj.1 hother) (by simp)
  rw [not_or, Nat.not_le] at hstays
  refine ⟨hstays.1, ?_⟩
  have hvs := Option.some_inj.1 hholds.collection
  rw [← hvs, listAt, Array.getElem?_eq_getElem hstays.2]
  rfl

/-- A list that does not change holds its items. -/
theorem holds_list (hl : w.lists[l]? = some vs.toArray)
    (hB : l ∉ B.lists) : w.Holds B (.ref .list l) vs := by
  intro v r' hv hhanded
  obtain rfl := hhanded.eq_of_marked rfl
  rw [collection?, listAt, hv.same l _ hB hl]
  rfl

/-- A tuple holds its items. -/
theorem holds_tuple (B : Setting) (w : World) (vs : List Value) (m : Mark) : w.Holds B (.tuple vs m) vs := by
  intro v r' _ hhanded
  obtain ⟨m', rfl⟩ := hhanded.exists_withMark nofun
  rfl

theorem World.Holds.retains (hholds : w.Holds B r vs) (hv : Retains B w v) : v.Holds B r vs :=
  fun u r' hu => hholds u r' (hv.trans hu)

/-- A collection is opened at its first item. -/
theorem World.Holds.exists_iterate (hholds : w.Holds B r vs) (hr : ∀ b, r ≠ .ref .bag b) :
    ∃ cursor, iterate r w = .ok (.ref .iterator w.cursors.size) { w with cursors := w.cursors.push cursor } ∧
      At B vs w.cursors.size 0 { w with cursors := w.cursors.push cursor } := by
  have hcollection := hholds.collection
  have hitems : ∀ of, At B vs w.cursors.size 0 { w with cursors := w.cursors.push (.items of vs) } :=
    fun of => .items of Array.getElem?_push_size
  cases r with
  | str | dict | set | orderedPath | tuple | typedId | instruction =>
      cases hcollection
      exact ⟨_, rfl, hitems _⟩
  | ref sort place =>
      cases sort with
      | list =>
          obtain ⟨hB, hl⟩ := hholds.list
          exact ⟨_, rfl, .list Array.getElem?_push_size hl hB⟩
      | bag => exact absurd rfl (hr place)
      | _ => cases hcollection
  | _ => cases hcollection

variable (hR : ∀ a x x', R a x → Handed x x' → R a x')

include hR

/-- **A collection gives its items.** -/
theorem provides_collection (has : List.Forall₂ R as vs) (hholds : w.Holds B r vs) (hr : ∀ b, r ≠ .ref .bag b)
    (h : Host) : Provides h 1 B R (.plain (.ofList as)) r w := by
  obtain ⟨cursor, hit, hat⟩ := hholds.exists_iterate hr
  have hthemselves : Themselves [w.cursors.size] fun _ => some (.ref .iterator w.cursors.size, 0) := by
    rintro i c it k hc ⟨⟩
    rw [List.mem_singleton.1 (List.mem_of_getElem? hc)]
  refine ⟨_, _, _, [.ref .iterator w.cursors.size], _, {c | c ∈ [w.cursors.size]}, hit, fleet_items hR has h B 1,
    ⟨[w.cursors.size], rfl, rfl, List.nodup_singleton _, rfl, hthemselves, fun i c hc => ?_⟩, rfl⟩
  rw [List.mem_singleton.1 (List.mem_of_getElem? hc)]
  exact hat

end

/-! ### Collections of blocks -/

/-- A value that holds the items of a block. -/
def HoldsBlock (B : Setting) (R : α → Value → Prop) (w : World) (as : List α) (x : Value) : Prop :=
  ∃ vs, List.Forall₂ R as vs ∧ w.Holds B x vs

/-- The iterator over a collection of blocks that has been asked for some of them. -/
structure AmongBlocks (B : Setting) (R : α → Value → Prop) (bs : List (List α)) (rs : List Value) (g : Positions)
    (P : Set ℕ) (w : World) : Prop where
  state : ∃ c k xs, rs = [] ∧ P = {c} ∧ g 0 = some (.ref .iterator c, k) ∧ At B xs c k w ∧
    List.Forall₂ (HoldsBlock B R w) bs xs

section

variable {h H : Host} {c k : ℕ} {B : Setting} {R : α → Value → Prop} {as : List α} {bs : List (List α)}
  {w v : World} {r x x' : Value} {xs : List Value}

theorem HoldsBlock.retains (hx : HoldsBlock B R w as x) (hv : Retains B w v) : HoldsBlock B R v as x := by
  obtain ⟨vs, hvs, hholds⟩ := hx
  exact ⟨vs, hvs, hholds.retains hv⟩

variable (hR : ∀ a x x', R a x → Handed x x' → R a x')

include hR

/-- A block is read when it has been handed out. -/
theorem HoldsBlock.exists_items (hx : HoldsBlock B R w as x) (hx' : Handed x x') (hfuel : as.length < H.fuel) :
    ∃ vs v, H.above.items x' w = .ok vs v ∧ List.Forall₂ R as vs ∧ Uses ∅ w v := by
  obtain ⟨vs, hvs, hholds⟩ := hx
  obtain ⟨vs', v, hitems, hvs', hkeeps⟩ :=
    exists_items_collection (h := H) (hholds w x' (.refl B w) hx') (hvs.length_eq ▸ hfuel)
  exact ⟨vs', v, hitems, forall₂_handed hR hvs hvs', hkeeps.uses (Nat.le_refl _)⟩

/-- The next block of a collection of blocks. -/
theorem exists_ask_block (hat : At B xs c k w) (hxs : List.Forall₂ (HoldsBlock B R w) bs xs)
    (hfuel : (bs[k]?.getD []).length < H.fuel) :
    ∃ d v, ask (.blocks (.ofList bs)) H.above (.ref .iterator c) w = .ok d v ∧
      Option.Rel (List.Forall₂ R) bs[k]? d ∧ Uses {c} w v ∧ At B xs c (k + 1) v := by
  obtain ⟨r, u, hpull, hr, huses, hat'⟩ := hat.pull (Nat.zero_lt_of_lt hfuel)
  have hblock := rel_getElem? hxs k
  generalize xs[k]? = x at hr hblock
  generalize bs[k]? = block at hblock hfuel ⊢
  cases hr with
  | none =>
      cases hblock
      exact ⟨none, u, Act.bind_of_ok hpull, .none, huses, hat'⟩
  | some hhanded =>
      obtain ⟨hx⟩ := hblock
      obtain ⟨vs, v, hitems, hvs, hread⟩ := (hx.retains huses.retains).exists_items hR hhanded hfuel
      refine ⟨some vs, v, (Act.bind_of_ok hpull).trans ((Act.bind_of_ok hitems).trans rfl), .some hvs,
        huses.trans hread (Set.empty_subset _), hat'.retains hread.retains ?_⟩
      exact hread.same c ⟨hat'.lt_size, Set.notMem_empty c⟩

/-- **The blocks of a collection** are read one by one. -/
theorem fleet_blocks (h : Host) (B : Setting) (bs : List (List α)) :
    Fleet h 1 B R [.blocks (.ofList bs)] (AmongBlocks B R bs) where
  handed := hR
  has := by
    rintro rs g P w ⟨c, k, xs, rfl, rfl, -, hat, -⟩ c' rfl
    exact hat.lt_size
  aside := by
    rintro rs g P w v ⟨c, k, xs, rfl, rfl, hg, hat, hxs⟩ hv
    exact ⟨c, k, xs, rfl, rfl, hg, hat.retains hv.retains (hv.same c rfl), hxs.imp fun _ _ hx => hx.retains hv.retains⟩
  opens := by
    rintro rs g P w i r r' ⟨c, k, xs, rfl, -⟩ - hr
    cases hr
  replies k := by
    -- one read has to take all items of a block
    filter_upwards [eventually_gt_atTop (bs[k]?.getD []).length] with N hN n hn rs g P w i x it hx hstands hg
    obtain ⟨n, rfl, -⟩ := exists_level_below hn
    obtain ⟨c, k', xs, rfl, rfl, hg', hat, hxs⟩ := hstands
    obtain ⟨rfl, rfl⟩ : i = 0 ∧ x = .blocks (.ofList bs) := by
      cases i with
      | zero => exact ⟨rfl, (Option.some_inj.1 hx).symm⟩
      | succ i => cases hx
    cases hg'.symm.trans hg
    obtain ⟨d, v, hask, hd, huses, hat'⟩ :=
      exists_ask_block (H := (h.grant N).up n) hR hat hxs (by rwa [Host.fuel_up])
    refine ⟨d, v, {c}, hask, ?_, huses.contained, subset_within _ _, c, k + 1, xs, rfl, rfl,
      Function.update_self .., hat', hxs.imp fun _ _ hx => hx.retains huses.retains⟩
    rwa [Strand.answer, Stream'.Seq.ofList_get?]

/-- **A collection of collections gives blocks.** -/
theorem provides_blocks (hholds : w.Holds B r xs) (hr : ∀ b, r ≠ .ref .bag b)
    (hxs : List.Forall₂ (HoldsBlock B R w) bs xs) (h : Host) : Provides h 1 B R (.blocks (.ofList bs)) r w := by
  obtain ⟨cursor, hit, hat⟩ := hholds.exists_iterate hr
  refine ⟨_, _, _, [], fun _ => some (.ref .iterator w.cursors.size, 0), {w.cursors.size}, hit,
    fleet_blocks hR h B bs, ⟨_, 0, xs, rfl, rfl, rfl, hat, hxs.imp fun _ _ hx => hx.retains ?_⟩, rfl⟩
  exact (uses_push w cursor).retains

end

/-! ### Who is given the blocks of a source -/

/-- **Who is given the blocks of a source.**  Some ask it for blocks, and others read it, in any order.  If a route
has been cut into blocks, these are its consecutive slices, of which only the last may be shorter; if a route gives
blocks, these are those that hold anything.  The blocks are handed out in order, and each of them once.  A
collection is such a route, and so is a collection of collections. -/
theorem blocks_are_shared_out {B : Setting} {R : α → Value → Prop} (hR : ∀ a x x', R a x → Handed x x' → R a x')
    (h : Host) :
    (∀ d r (n : ℕ) as w, Provides h d B R (.plain (.ofList as)) r w → 0 < n → (n : ℤ) ≤ sliceLimit →
      ∃ q v blocks, (∀ H : Host, H.callOp .chunked [r, .int n] [] w = .ok (.ref .blocks q) v) ∧
        CutInto n as blocks ∧ SharesOut h (d + 3) R q blocks v) ∧
    (∀ d r bs w, Provides h d B R (.blocks (.ofList bs)) r w →
      ∃ q v, (∀ H : Host, H.callOp .blocks [r] [] w = .ok (.ref .blocks q) v) ∧
        SharesOut h (d + 2) R q (filledBlocks bs) v) ∧
    (∀ r vs as w, w.Holds B r vs → (∀ b, r ≠ .ref .bag b) → List.Forall₂ R as vs →
      Provides h 1 B R (.plain (.ofList as)) r w) ∧
    ∀ r xs bs w, w.Holds B r xs → (∀ b, r ≠ .ref .bag b) → List.Forall₂ (HoldsBlock B R w) bs xs →
      Provides h 1 B R (.blocks (.ofList bs)) r w := by
  refine ⟨fun d r n as w hr hn hlimit => ?_, fun d r bs w hr => hr.exists_blocks,
    fun r vs as w hholds hbag has => provides_collection hR has hholds hbag h,
    fun r xs bs w hholds hbag hxs => provides_blocks hR hholds hbag hxs h⟩
  obtain ⟨q, v, hcall, hshares⟩ := hr.exists_chunked hn hlimit
  exact ⟨q, v, cut hn as, hcall, cutInto hn as, hshares⟩

/-- A list of three numbers, and a list of blocks. -/
def numbersAndBlocks : World where
  lists := #[#[.int 7, .int 8, .int 9],
    #[.tuple [] none, .tuple [.int 7] none, .tuple [] none, .tuple [.int 8, .int 9] none]]

/-- A list of three numbers is cut into pairs; and of four blocks, two hold anything. -/
theorem blocks_are_shared_out_numbers :
    (∃ q v blocks,
      (∀ H : Host, H.callOp .chunked [.ref .list 0, .int 2] [] numbersAndBlocks = .ok (.ref .blocks q) v) ∧
      CutInto 2 [7, 8, 9] blocks ∧ SharesOut (host 0) 4 IsNumber q blocks v) ∧
    ∃ q v, (∀ H : Host, H.callOp .blocks [.ref .list 1] [] numbersAndBlocks = .ok (.ref .blocks q) v) ∧
      SharesOut (host 0) 3 IsNumber q [[7], [8, 9]] v := by
  obtain ⟨hchunked, hblocks, hcollection, hnested⟩ :=
    blocks_are_shared_out (B := programsStay) isNumber_handed (host 0)
  have hblock : ∀ as vs, List.Forall₂ IsNumber as vs →
      HoldsBlock programsStay IsNumber numbersAndBlocks as (.tuple vs none) :=
    fun as vs hvs => ⟨vs, hvs, holds_tuple _ _ vs none⟩
  refine ⟨hchunked 1 (.ref .list 0) 2 [7, 8, 9] _ (hcollection _ _ _ _ (holds_list rfl (Set.notMem_empty 0)) nofun
    isNumber_numbers) (by decide) (by decide), ?_⟩
  exact hblocks 1 (.ref .list 1) [[], [7], [], [8, 9]] _ (hnested _ _ _ _ (holds_list rfl (Set.notMem_empty 1)) nofun
    (.cons (hblock _ _ .nil) (.cons (hblock _ _ (.cons rfl .nil)) (.cons (hblock _ _ .nil)
      (.cons (hblock _ _ (.cons rfl (.cons rfl .nil))) .nil)))))

/-- Blocks of `2 ^ 63` numbers cannot be read. -/
theorem oversized_refuses {H : Host} (hfuel : 0 < H.fuel) :
    ∃ v, H.above.above.callMember .nextBlock (.ref .blocks 0) [] [] oversized = .error .badValue v := by
  obtain ⟨fuel, hsucc⟩ := Nat.exists_eq_succ_of_ne_zero (Nat.ne_of_gt hfuel)
  cases H
  subst hsucc
  exact ⟨_, rfl⟩

/-- A list of one number is cut into blocks of `2 ^ 63` numbers.  The number would be the only block; but whoever
asks for it is given an error. -/
theorem not_blocks_of_any_size :
    (∀ H : Host, H.callOp .chunked [.tuple [.int 1] none, .int 9223372036854775808] [] {} =
      .ok (.ref .blocks 0) oversized) ∧
    CutInto 9223372036854775808 [(1 : ℤ)] [[1]] ∧ ∀ d, ¬SharesOut (host 0) d IsNumber 0 [[1]] oversized := by
  refine ⟨fun _ => rfl, ⟨rfl, nofun, by simp⟩, fun d hshares => ?_⟩
  obtain ⟨N, hN, hshared⟩ := ((eventually_gt_atTop 0).and (hshares 0)).exists
  obtain ⟨-, -, hanswers⟩ := hshared (d + 2) (Nat.le_add_right d 2) [] [] oversized .begin (Nat.le_refl 0)
  obtain ⟨d', u, hasks, -⟩ := hanswers .direct nofun
  obtain ⟨v, hrefused⟩ := oversized_refuses (H := ((host 0).grant N).up d) (by rwa [Host.fuel_up])
  cases hasks with
  | block hcall | noBlock hcall => cases hrefused.symm.trans hcall

end GraphRoutes.Session
