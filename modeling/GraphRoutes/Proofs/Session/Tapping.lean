/-
**One source of blocks for several consumers.**

A source of blocks may be asked for its next block, and it may be read by iterators, any number of them.  All of
them draw on the one iterator that is under the source, and each iterator over the source keeps a block of its own
of which some items are still to come.

However they are used, in whatever order, and whatever is made beside, each of them is given what a tap of the
blocks gives.  A question is answered always; at the end, there is no block and no item any more.

Main definitions:

* `GraphRoutes.Session.Asks` — somebody asks a source of blocks;
* `GraphRoutes.Session.Tapped` — **questions in any order**;
* `GraphRoutes.Session.Serving` — a source of blocks that has been tapped.

Main results:

* `GraphRoutes.Session.Serving.exists_ask` — **every question is answered as by a tap**;
* `GraphRoutes.Session.Serving.of_tapped` — and so are any questions, one after the other.
-/
import GraphRoutes.Proofs.Session.Drains

set_option relaxedAutoImplicit false
set_option autoImplicit false

namespace GraphRoutes.Session

open World Merge Filter

variable {α : Type}

/-! ### Questions -/

/-- **Somebody asks a source of blocks**: for the next block, which is given as a list, or, by an iterator over the
source, for the next item.  There may be none. -/
inductive Asks (h : Host) (q : ℕ) (u : World) : Taker → Option (List Value) → World → Prop
  | block {l : ℕ} {xs : Array Value} {v : World}
      (hcall : h.callMember .nextBlock (.ref .blocks q) [] [] u = .ok (.ref .list l) v)
      (hl : v.lists[l]? = some xs) : Asks h q u .direct (some xs.toList) v
  | noBlock {v : World} (hcall : h.callMember .nextBlock (.ref .blocks q) [] [] u = .ok .null v) :
      Asks h q u .direct none v
  | item {c : ℕ} {x : Value} {v : World} (hpull : h.pull (.ref .iterator c) u = .ok (some x) v) :
      Asks h q u (.reader c) (some [x]) v
  | noItem {c : ℕ} {v : World} (hpull : h.pull (.ref .iterator c) u = .ok none v) :
      Asks h q u (.reader c) none v

/-- **Questions to a source of blocks in any order**: which iterators over it have been made, and who has been
given what.  In between there may be anything that makes new things only. -/
inductive Tapped (h : Host) (q : ℕ) (w : World) : List ℕ → List (Taker × Option (List Value)) → World → Prop
  | begin : Tapped h q w [] [] w
  | starts {cs : List ℕ} {es : List (Taker × Option (List Value))} {c : ℕ} {u v : World}
      (hw : Tapped h q w cs es u) (hopen : iterate (.ref .blocks q) u = .ok (.ref .iterator c) v) :
      Tapped h q w (c :: cs) es v
  | asks {cs : List ℕ} {es : List (Taker × Option (List Value))} {k : Taker} {d : Option (List Value)} {u v : World}
      (hw : Tapped h q w cs es u) (hk : ∀ c, k = .reader c → c ∈ cs) (hasks : Asks h q u k d v) :
      Tapped h q w cs (es ++ [(k, d)]) v
  | meanwhile {cs : List ℕ} {es : List (Taker × Option (List Value))} {u v : World}
      (hw : Tapped h q w cs es u) (hv : Aside {c | c < u.cursors.size} u v) : Tapped h q w cs es v

section

variable {h : Host} {q : ℕ} {k : Taker} {d d' : Option (List Value)} {r x : Value} {u u' v w : World}

/-- A question has one answer. -/
theorem Asks.unique (hd : Asks h q w k d u) (hd' : Asks h q w k d' u') : d = d' ∧ u = u' := by
  cases hd with
  | block hcall hl =>
      cases hd' with
      | block hcall' hl' =>
          cases hcall.symm.trans hcall'
          cases hl.symm.trans hl'
          exact ⟨rfl, rfl⟩
      | noBlock hcall' => cases hcall.symm.trans hcall'
  | noBlock hcall =>
      cases hd' with
      | block hcall' => cases hcall.symm.trans hcall'
      | noBlock hcall' =>
          cases hcall.symm.trans hcall'
          exact ⟨rfl, rfl⟩
  | item hpull =>
      cases hd' with
      | item hpull' =>
          cases hpull.symm.trans hpull'
          exact ⟨rfl, rfl⟩
      | noItem hpull' => cases hpull.symm.trans hpull'
  | noItem hpull =>
      cases hd' with
      | item hpull' => cases hpull.symm.trans hpull'
      | noItem hpull' =>
          cases hpull.symm.trans hpull'
          exact ⟨rfl, rfl⟩

theorem callMember_nextBlock (hblock : h.blockOrNull q w = .ok r v) (hr : r.unmarked = false) :
    h.callMember .nextBlock (.ref .blocks q) [] [] w = .ok r v := by
  have hperform : h.performMember .nextBlock (.ref .blocks q) (fun _ => none) w = .ok r v := hblock
  have hdo : h.doMember .nextBlock (.ref .blocks q) [] [] w = .ok r v := by
    refine (Act.bind_of_ok hperform).trans ?_
    rw [handOut, hr]
    rfl
  exact (Act.bind_of_ok (m := get) rfl).trans hdo

/-- If there is no block any more, then nothing is given. -/
theorem asks_of_readBlock_none (hread : h.readBlock q w = .ok none v) : Asks h q w .direct none v :=
  .noBlock (callMember_nextBlock (Act.bind_of_ok hread) rfl)

/-- The next block is given as a new list of its items. -/
theorem exists_asks_of_readBlock {vs : List Value} (hread : h.readBlock q w = .ok (some (vs, q)) v) :
    ∃ vs' marks, List.Forall₂ Handed vs vs' ∧
      Asks h q w .direct (some vs') { v with marks, lists := v.lists.push vs'.toArray } := by
  obtain ⟨vs', marks, hnew, hhanded⟩ := exists_newList vs v
  exact ⟨vs', marks, hhanded,
    .block (callMember_nextBlock ((Act.bind_of_ok hread).trans hnew) rfl) Array.getElem?_push_size⟩

end

/-! ### What the iterators have at hand -/

/-- What an iterator over a source of blocks has at hand.  It has come to its end only when there is no block left,
and stays there. -/
inductive AtHand (R : α → Value → Prop) (q : ℕ) (it : Value) (P : Set ℕ) (w : World) (left : List (List α))
    (c : ℕ) : List α → Prop
  | opened {as : List α} (hpart : Part R (.blocks q it) P w as (.ref .iterator c)) : AtHand R q it P w left c as
  | spent (hc : w.cursors[c]? = some .finished) (hcP : c ∉ P) (hleft : left = []) : AtHand R q it P w left c []

/-- **A source of blocks that has been tapped**: the iterator under it has had its first `t` turns, and the
iterators over it are those at `cs`. -/
structure Serving (R : α → Value → Prop) (single : Positions → Set ℕ → World → Prop) (i q : ℕ) (it : Value)
    (bs : List (List α)) (cs : List ℕ) (t : ℕ) (s : Tap α) (w : World) : Prop where
  state : ∃ g P, single g P w ∧ Underway i (.blocks (.ofList bs)) (.blocks q it) t g P w ∧
    ∀ c ∈ cs, AtHand R q it P w s.left c (s.hands (.reader c))
  left : s.left = (filledBlocks bs).drop t
  direct : s.hands .direct = []
  idle : ∀ c ∉ cs, s.hands (.reader c) = []
  nodup : cs.Nodup

/-- A question is answered as by a tap. -/
def AnsweredBy (R : α → Value → Prop) (s s' : Tap α) (k : Taker) (d : Option (List Value)) : Prop :=
  ∃ d', s'.log = s.log ++ [(k, d')] ∧ Option.Rel (List.Forall₂ R) d' d

section

variable {h : Host} {R : α → Value → Prop} {zs : List (Strand α)} {bs : List (List α)} {left left' : List (List α)}
  {single : Positions → Set ℕ → World → Prop} {i q t K c : ℕ} {it : Value} {P Q E : Set ℕ} {cs : List ℕ}
  {as : List α} {s s' : Tap α} {k : Taker} {g : Positions} {u v w : World}

theorem AtHand.notMem (hc : AtHand R q it P w left c as) : c ∉ P := by
  cases hc with
  | opened hpart =>
      cases hpart with
      | plain hseat => cases hseat
      | blocks _ _ _ hcP => exact hcP
  | spent _ hcP => exact hcP

theorem AtHand.lt_size (hc : AtHand R q it P w left c as) : c < w.cursors.size := by
  cases hc with
  | opened hpart =>
      cases hpart with
      | plain hseat => cases hseat
      | blocks _ hc => exact (Array.getElem?_eq_some_iff.1 hc).1
  | spent hc => exact (Array.getElem?_eq_some_iff.1 hc).1

/-- What does not move an iterator leaves it what it has at hand. -/
theorem AtHand.frame (hc : AtHand R q it P w left c as) (hv : v.cursors[c]? = w.cursors[c]?) (hcQ : c ∉ Q)
    (hleft : left = [] → left' = []) : AtHand R q it Q v left' c as := by
  cases hc with
  | opened hpart =>
      cases hpart with
      | plain hseat => cases hseat
      | blocks hseat hc hcs => exact .opened (.blocks hseat (hv.trans hc) hcs hcQ)
  | spent hc _ hnil => exact .spent (hv.trans hc) hcQ (hleft hnil)

/-- A source of blocks goes on to be where it is while other cursors move. -/
theorem AtHand.confined (hc : AtHand R q it P w left c as) (hv : Confined E w v) (hcE : c ∉ E)
    (hQ : Q ⊆ within P w.cursors.size) (hleft : left = [] → left' = []) : AtHand R q it Q v left' c as :=
  hc.frame (hv.same c hc.lt_size hcE) (notMem_of_subset_within hQ hc.notMem hc.lt_size) hleft

/-- An iterator over a source of blocks has nothing at hand at first. -/
theorem Serving.starts (hfooting : Footing R single) (hw : Serving R single i q it bs cs t s w)
    (hopen : iterate (.ref .blocks q) w = .ok (.ref .iterator c) v) :
    Serving R single i q it bs (c :: cs) t s v := by
  obtain ⟨⟨g, P, hstands, hunderway, hreaders⟩, hleft, hdirect, hidle, hnodup⟩ := hw
  cases hopen
  have hpush := uses_push w (.blockItems { outer := some q })
  have hhas := hfooting.has _ _ _ hstands
  have hnew : w.cursors.size ∉ cs := fun hmem => Nat.lt_irrefl _ (hreaders _ hmem).lt_size
  refine ⟨⟨g, P, hfooting.quiet _ _ _ _ hstands (hpush.spares_of_new hhas).quiet,
    hunderway.confined hpush.confined nofun, List.forall_mem_cons.2 ⟨?_, fun c hc => ?_⟩⟩, hleft, hdirect,
    fun c hc => hidle c fun hmem => hc (List.mem_cons_of_mem _ hmem), List.nodup_cons.2 ⟨hnew, hnodup⟩⟩
  · rw [hidle _ hnew]
    exact .opened (.blocks rfl Array.getElem?_push_size .nil (notMem_of_has hhas))
  · exact (hreaders c hc).confined hpush.confined (Set.notMem_empty c) (subset_within P _) id

/-- Making new things leaves a source of blocks as it is. -/
theorem Serving.aside (haside : ∀ g P w v, single g P w → Aside P w v → single g P v)
    (hfooting : Footing R single) (hw : Serving R single i q it bs cs t s w)
    (hv : Aside {c | c < w.cursors.size} w v) : Serving R single i q it bs cs t s v := by
  obtain ⟨⟨g, P, hstands, hunderway, hreaders⟩, hleft, hdirect, hidle, hnodup⟩ := hw
  have hconfined : Confined ∅ w v := ⟨hv.size, fun c hc _ => hv.same c hc, hv.blocks⟩
  refine ⟨⟨g, P, haside _ _ _ _ hstands (hv.mono (hfooting.has _ _ _ hstands)),
    hunderway.confined hconfined nofun, fun c hc => ?_⟩, hleft, hdirect, hidle, hnodup⟩
  exact (hreaders c hc).confined hconfined (Set.notMem_empty c) (subset_within P _) id

/-- The next turn of the source is the first block that is left. -/
theorem Serving.turn_eq (hw : Serving R single i q it bs cs t s w) :
    (Strand.blocks (.ofList bs)).turn t = s.left.head? := by
  rw [Strand.turn_ofList, hw.left, List.head?_drop]

/-- When one iterator has been read, the others have at hand what they had. -/
theorem Serving.after_reader {t' : ℕ} {g' : Positions} (hw : Serving R single i q it bs cs t s w) (hc : c ∈ cs)
    (hreaders : ∀ c' ∈ cs, AtHand R q it P w s.left c' (s.hands (.reader c'))) (hasked : s.Asked (.reader c) s')
    (hconfined : Confined (insert c P) w v) (hQ : Q ⊆ within P w.cursors.size) (hstands : single g' Q v)
    (hunderway : Underway i (.blocks (.ofList bs)) (.blocks q it) t' g' Q v)
    (hleft : s'.left = (filledBlocks bs).drop t')
    (hself : AtHand R q it Q v s'.left c (s'.hands (.reader c))) : Serving R single i q it bs cs t' s' v := by
  have hothers : ∀ c', c' ≠ c → s'.hands (.reader c') = s.hands (.reader c') := by
    intro c' hne
    refine hasked.hands_of_ne fun heq => ?_
    cases heq
    exact hne rfl
  have hdirect : s'.hands .direct = s.hands .direct := hasked.hands_of_ne nofun
  refine ⟨⟨g', Q, hstands, hunderway, fun c' hc' => ?_⟩, hleft, hdirect.trans hw.direct, fun c' hc' => ?_,
    hw.nodup⟩
  · by_cases hne : c' = c
    · exact hne ▸ hself
    · rw [hothers c' hne]
      refine (hreaders c' hc').confined hconfined ?_ hQ hasked.left_of_nil
      rintro (hmem | hmem)
      · exact hne hmem
      · exact (hreaders c' hc').notMem hmem
  · rw [hothers c' fun heq => hc' (heq ▸ hc)]
    exact hw.idle c' hc'

/-- Of the blocks that are left, the first has been handed out. -/
theorem tail_of_left (hw : Serving R single i q it bs cs t s w) {b : List α} (hleft' : s.left = b :: left) :
    left = (filledBlocks bs).drop (t + 1) := by
  have hleft := hw.left
  rw [hleft'] at hleft
  rw [← List.tail_drop, ← hleft, List.tail_cons]

theorem nil_of_left (hw : Serving R single i q it bs cs t s w) (hleft' : s.left = []) :
    (filledBlocks bs).drop (t + 1) = [] := by
  rw [← List.tail_drop, ← hw.left, hleft', List.tail_nil]

/-- **An iterator over the source gives what it has at hand**, and the source is not asked. -/
theorem Serving.exists_ask_hand (hfooting : Footing R single) (hfuel : 0 < h.fuel)
    (hw : Serving R single i q it bs cs t s w) (hc : c ∈ cs) (hhand : s.hands (.reader c) ≠ []) :
    ∃ d u, Asks h.above q w (.reader c) d u ∧ AnsweredBy R s (s.give (.reader c)) (.reader c) d ∧
      Serving R single i q it bs cs t (s.give (.reader c)) u := by
  obtain ⟨g, P, hstands, hunderway, hreaders⟩ := hw.state
  obtain ⟨a, as, hcons⟩ := List.exists_cons_of_ne_nil hhand
  have hself := hreaders c hc
  rw [hcons] at hself
  cases hself with
  | opened hpart =>
      obtain ⟨y, v, hpull, huses, hstands', ha, hunderway', hpart'⟩ :=
        exists_pull_hand hfooting hpart hstands hunderway hfuel
      refine ⟨some [y], v, .item hpull, ⟨some [a], ?_, .some (.cons ha .nil)⟩, hw.after_reader hc hreaders (.hand hhand)
        (huses.confined.mono (Set.singleton_subset_iff.2 (Set.mem_insert c P))) (subset_within P _) hstands'
        hunderway' hw.left ?_⟩
      · rw [Tap.give, hcons]
        rfl
      · rw [Tap.hands_give, hcons]
        exact .opened hpart'

variable (hfooting : Footing R single) (hi : zs[i]? = some (.blocks (.ofList bs)))
  (hA : ∀ k < K, ∀ n, Answers (h.up n) R zs single k) (hfuel : K < h.fuel) (htwo : 1 < h.fuel)
  (hK : (Strand.blocks (.ofList bs)).pulled (t + 1) ≤ K) (hw : Serving R single i q it bs cs t s w)

include hfooting hi hA hfuel hK hw

/-- **The source is asked for its next block.** -/
theorem Serving.exists_ask_direct : ∃ d u, Asks h.above.above q w .direct d u ∧
    AnsweredBy R s (s.ask .direct) .direct d ∧ Serving R single i q it bs cs (t + 1) (s.ask .direct) u := by
  have hturn := hw.turn_eq
  obtain ⟨g, P, hstands, hunderway, hreaders⟩ := hw.state
  obtain ⟨r, v, Q, hturned, hr, hconfined, hQ, hstands', hsit⟩ := hunderway.sits.turn (h := h.above) hfooting
    (fun k hk => hA k hk 1) (fun k hk => hA k hk 2) hi (fair_blocks_ofList bs) (by simp) hstands
    hunderway.position hunderway.own hK hfuel
  have hread := readBlock_of_turn rfl hturned
  have hunderway' : Underway i (.blocks (.ofList bs)) (.blocks q it) (t + 1) _ Q v :=
    ⟨Function.update_self i _ g, hsit.at_blocks, nofun⟩
  have hconfined' : Confined P w v := hconfined.mono fun c hc => hc.elim (fun hc => nomatch hc) id
  have hasked := s.asked .direct
  generalize s.ask .direct = s' at hasked
  have hothers : ∀ c, s'.hands (.reader c) = s.hands (.reader c) := fun c => hasked.hands_of_ne nofun
  rw [hturn] at hr
  cases hasked with
  | nothing hhand hnil =>
      rw [hnil] at hr
      cases hr
      refine ⟨none, v, asks_of_readBlock_none hread, ⟨none, rfl, .none⟩, ⟨_, Q, hstands', hunderway', fun c hc => ?_⟩,
        hnil.trans (nil_of_left hw hnil).symm, hw.direct, hw.idle, hw.nodup⟩
      exact (hreaders c hc).confined hconfined' (hreaders c hc).notMem hQ id
  | @block b bs' hhand hcons =>
      rw [hcons] at hr
      obtain ⟨hblock⟩ := hr
      obtain ⟨vs, marks, hhanded, hasks⟩ := exists_asks_of_readBlock hread
      have hlist := confined_newList v marks vs.toArray
      refine ⟨some vs, _, hasks, ⟨some b, ?_, .some (forall₂_handed hfooting.handed hblock hhanded)⟩,
        ⟨_, Q, hfooting.quiet _ _ _ _ hstands' (quiet_newList Q v marks vs.toArray),
          hunderway'.confined hlist nofun, fun c hc => ?_⟩,
        tail_of_left hw hcons, Tap.hands_give .., fun c hc => (hothers c).trans (hw.idle c hc), hw.nodup⟩
      · rw [Tap.give, Tap.hands_deal]
        rfl
      · rw [hothers c]
        have hmoved := hconfined'.trans hlist (Set.empty_subset _)
        refine (hreaders c hc).confined hmoved (hreaders c hc).notMem hQ fun hnil => ?_
        cases hcons.symm.trans hnil
  | hand hhand => exact absurd hw.direct hhand

include htwo

/-- **An iterator over the source that has nothing at hand** takes the next block. -/
theorem Serving.exists_ask_next (hc : c ∈ cs) (hhand : s.hands (.reader c) = []) :
    ∃ d u, Asks h.above.above q w (.reader c) d u ∧ AnsweredBy R s (s.ask (.reader c)) (.reader c) d ∧
      ∃ t' ≤ t + 1, Serving R single i q it bs cs t' (s.ask (.reader c)) u := by
  have hturn := hw.turn_eq
  obtain ⟨g, P, hstands, hunderway, hreaders⟩ := hw.state
  have hself := hreaders c hc
  rw [hhand] at hself
  have hasked := s.asked (.reader c)
  generalize s.ask (.reader c) = s' at hasked
  cases hself with
  | spent hfinished _ hnil =>
      -- it has come to its end before, and then no block was left
      cases hasked with
      | nothing =>
          exact ⟨none, w, .noItem (pull_finished hfinished), ⟨none, rfl, .none⟩, t, Nat.le_succ t,
            ⟨g, P, hstands, hunderway, hreaders⟩, hw.left, hw.direct, hw.idle, hw.nodup⟩
      | block _ hcons => cases hcons.symm.trans hnil
      | hand hne => exact absurd hhand hne
  | opened hpart =>
      obtain ⟨r, v, g', Q, hpull, hconfined, hQ, hstands', hunderway', hcQ, hnext⟩ := exists_pull_block hfooting
        hi (fair_blocks_ofList bs) (fun k hk => hA k hk 0) (fun k hk => hA k hk 1) hK hfuel htwo hstands
        hunderway hpart
      rw [hturn] at hnext
      have hmoved := hw.after_reader hc hreaders hasked hconfined hQ hstands' hunderway'
      cases hasked with
      | nothing _ hnil =>
          rw [hnil] at hnext
          rcases hnext with ⟨-, rfl, hfinished⟩ | ⟨a, as, y, hsome, -⟩
          · refine ⟨none, v, .noItem hpull, ⟨none, rfl, .none⟩, t + 1, Nat.le_refl _,
              hmoved (hnil.trans (nil_of_left hw hnil).symm) ?_⟩
            change AtHand R q it Q v s.left c (s.hands (.reader c))
            rw [hhand]
            exact .spent hfinished hcQ hnil
          · cases hsome
      | block _ hcons =>
          rw [hcons] at hnext
          rcases hnext with ⟨hnone, -⟩ | ⟨a, as, y, hsome, rfl, ha, hpart'⟩
          · cases hnone
          · cases hsome
            refine ⟨some [y], v, .item hpull, ⟨some [a], ?_, .some (.cons ha .nil)⟩, t + 1, Nat.le_refl _,
              hmoved (tail_of_left hw hcons) ?_⟩
            · rw [Tap.give, Tap.hands_deal]
              rfl
            · rw [Tap.hands_give, Tap.hands_deal]
              exact .opened hpart'
      | hand hne => exact absurd hhand hne

/-- **Every question is answered as by a tap.** -/
theorem Serving.exists_ask (hk : ∀ c, k = .reader c → c ∈ cs) : ∃ d u, Asks h.above.above q w k d u ∧
    AnsweredBy R s (s.ask k) k d ∧ ∃ t' ≤ t + 1, Serving R single i q it bs cs t' (s.ask k) u := by
  cases k with
  | direct =>
      obtain ⟨d, u, hasks, hanswered, hu⟩ := hw.exists_ask_direct hfooting hi hA hfuel hK
      exact ⟨d, u, hasks, hanswered, t + 1, Nat.le_refl _, hu⟩
  | reader c =>
      by_cases hhand : s.hands (.reader c) = []
      · exact hw.exists_ask_next hfooting hi hA hfuel htwo hK (hk c rfl) hhand
      · obtain ⟨d, u, hasks, hanswered, hu⟩ :=
          hw.exists_ask_hand (h := h.above) hfooting (Nat.zero_lt_of_lt htwo) (hk c rfl) hhand
        rw [← Tap.ask_of_hand hhand] at hanswered hu
        exact ⟨d, u, hasks, hanswered, t, Nat.le_succ t, hu⟩

end

/-! ### Any questions, one after the other -/

/-- An entry of a tap stands for one of a session. -/
def Matches (R : α → Value → Prop) (x : Taker × Option (List α)) (y : Taker × Option (List Value)) : Prop :=
  x.1 = y.1 ∧ Option.Rel (List.Forall₂ R) x.2 y.2

section

variable {h : Host} {R : α → Value → Prop} {zs : List (Strand α)} {bs : List (List α)}
  {single : Positions → Set ℕ → World → Prop} {i q K L : ℕ} {it : Value} {cs : List ℕ} {s s' : Tap α}
  {es : List (Taker × Option (List Value))} {k : Taker} {d : Option (List Value)} {v w : World}

theorem AnsweredBy.matches (hanswered : AnsweredBy R s s' k d) (hs : List.Forall₂ (Matches R) s.log es) :
    List.Forall₂ (Matches R) s'.log (es ++ [(k, d)]) := by
  obtain ⟨d', hlog, hd⟩ := hanswered
  rw [hlog]
  exact List.rel_append hs (.cons ⟨rfl, hd⟩ .nil)

/-- **Any questions are answered as by a tap**, one after the other. -/
theorem Serving.of_tapped (haside : ∀ g P w v, single g P w → Aside P w v → single g P v)
    (hfooting : Footing R single) (hi : zs[i]? = some (.blocks (.ofList bs)))
    (hA : ∀ k < K, ∀ n, Answers (h.up n) R zs single k) (hfuel : K < h.fuel) (htwo : 1 < h.fuel)
    (hK : ∀ t < L, (Strand.blocks (.ofList bs)).pulled (t + 1) ≤ K)
    (hw : Serving R single i q it bs [] 0 (.after (filledBlocks bs) []) w)
    (htapped : Tapped h.above.above q w cs es v) (hlength : es.length ≤ L) :
    List.Forall₂ (Matches R) (Tap.after (filledBlocks bs) (es.map (·.1))).log es ∧
      (∀ c, .reader c ∈ es.map (·.1) → c ∈ cs) ∧
      ∃ t ≤ es.length, Serving R single i q it bs cs t (.after (filledBlocks bs) (es.map (·.1))) v := by
  -- the last event is taken off; where the source stands in front of it is told by the induction hypothesis
  induction htapped with
  | begin => exact ⟨.nil, nofun, 0, Nat.le_refl 0, hw⟩
  | starts _ hopen ih =>
      obtain ⟨hes, hcs, t, ht, hu⟩ := ih hlength
      exact ⟨hes, fun c hc => List.mem_cons_of_mem _ (hcs c hc), t, ht, hu.starts hfooting hopen⟩
  | @asks cs es k d u v _ hk hasks ih =>
      rw [List.length_append, List.length_singleton] at hlength
      obtain ⟨hes, hcs, t, ht, hu⟩ := ih (Nat.le_of_succ_le hlength)
      obtain ⟨d', v', hasks', hanswered, t', ht', hv⟩ := hu.exists_ask hfooting hi hA hfuel htwo
        (hK t (Nat.lt_of_le_of_lt ht hlength)) hk
      -- what has been answered is what would be answered
      obtain ⟨rfl, rfl⟩ := hasks.unique hasks'
      rw [List.map_append, List.map_singleton, Tap.after_concat]
      refine ⟨hanswered.matches hes, fun c hc => ?_, t', ?_, hv⟩
      · rcases List.mem_append.1 hc with hc | hc
        · exact hcs c hc
        · exact hk c (List.mem_singleton.1 hc).symm
      · rw [List.length_append, List.length_singleton]
        exact ht'.trans (Nat.succ_le_succ ht)
  | meanwhile _ hv ih =>
      obtain ⟨hes, hcs, t, ht, hu⟩ := ih hlength
      exact ⟨hes, hcs, t, ht, hu.aside haside hfooting hv⟩

end

end GraphRoutes.Session
