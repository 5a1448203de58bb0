/-
**Several readers of one source.**

The readers of a source share what it has given so far.  A reader that is behind takes its next item from
there; only the one that is furthest ahead asks the source, and keeps what it is given for the others.  So
each reader gives every item of the source, in order, whatever the others do: readers of one source are apart
from one another like iterators that share nothing.

Main definitions:

* `GraphRoutes.Session.Spring` — an iterator that gives a sequence;
* `GraphRoutes.Session.Readers` — where the readers of a source stand, and how much it has given;
* `GraphRoutes.Session.OneShot` — an iterator that may be split.

Main results:

* `GraphRoutes.Session.copyTurn_of_given`, `GraphRoutes.Session.copyTurn_of_item`,
  `GraphRoutes.Session.copyTurn_of_end` — one turn of a reader;
* `GraphRoutes.Session.Spring.fleet` — **readers of one source are apart from one another**;
* `GraphRoutes.Session.Readers.furthest` — the source has given what the furthest reader has, and no more;
* `GraphRoutes.Session.OneShot.exists_fleet` — **readers are made of a one-shot iterator**.
-/
import GraphRoutes.Proofs.Session.Fleets

set_option relaxedAutoImplicit false
set_option autoImplicit false

namespace GraphRoutes.Session

open World Merge Filter

variable {α : Type}

/-! ### One turn of a reader -/

/-- The world with another record of a shared source. -/
def World.withShared (w : World) (place : ℕ) (f : Shared Value Value → Shared Value Value) : World :=
  { w with shared := w.shared.modify place f }

/-- Beside the cursors in `P`, others may have moved, there may be new cursors, lists and sources of blocks, and
the record of the source at `place` may have changed. -/
structure World.Beside (place : ℕ) (P : Set ℕ) (w v : World) : Prop where
  rest : v = { w with
    cursors := v.cursors, marks := v.marks, lists := v.lists, blocks := v.blocks, shared := v.shared }
  size : w.cursors.size ≤ v.cursors.size
  same : ∀ i ∈ P, v.cursors[i]? = w.cursors[i]?
  lists : ∀ (i : ℕ) xs, w.lists[i]? = some xs → v.lists[i]? = some xs
  blocks : ∀ (i : ℕ) it, w.blocks[i]? = some it → v.blocks[i]? = some it
  shared : ∀ i, i ≠ place → v.shared[i]? = w.shared[i]?

section

variable {h : Host} {P : Set ℕ} {u v w : World} {s : Shared Value Value} {x : Value} {c place position : ℕ}

theorem World.Aside.beside (hv : Aside P w v) (place : ℕ) : Beside place P w v where
  rest := by rw [hv.rest]
  size := hv.size
  same := hv.same
  lists := hv.lists
  blocks := hv.blocks
  shared i _ := by rw [hv.rest]

theorem World.beside_withShared (w : World) (place : ℕ) (f : Shared Value Value → Shared Value Value)
    (P : Set ℕ) : Beside place P w (w.withShared place f) where
  rest := rfl
  size := Nat.le_refl _
  same _ _ := rfl
  lists _ _ := id
  blocks _ _ := id
  shared i hi := by rw [withShared, Array.getElem?_modify, if_neg (Ne.symm hi)]

theorem World.Beside.retains {B : Setting} {place : ℕ} (hv : Beside place P w v) : Retains B w v :=
  retains_of_rest (by rw [hv.rest]) hv.lists

theorem contained_withShared (w : World) (place : ℕ) (f : Shared Value Value → Shared Value Value)
    (B : Setting) (P : Set ℕ) : Contained B P w (w.withShared place f) :=
  ⟨⟨Nat.le_refl _, fun _ _ _ => rfl, fun _ _ => id⟩, retains_of_rest rfl fun _ _ => id⟩

theorem getElem?_withShared (hs : w.shared[place]? = some s) (f : Shared Value Value → Shared Value Value) :
    (w.withShared place f).shared[place]? = some (f s) := by
  rw [withShared, Array.getElem?_modify, if_pos rfl, hs]
  rfl

theorem read_sharedCell (hs : w.shared[place]? = some s) :
    ((sharedCell place).read : M (Shared Value Value)) w = .ok s w := by
  change EStateM.Result.ok ((w.shared[place]?).getD _) w = _
  rw [hs, Option.getD_some]

/-- An item that another reader has had is at hand. -/
theorem copyTurn_of_given (hs : w.shared[place]? = some s) (hx : s.given[position]? = some x) :
    copyTurn h c place position w =
      .ok (.give x) (w.withCursor c (.copy place (position + 1))) := by
  have hread : Shared.read (sharedCell place) Fault.interrupted h.source position w = .ok (some x) w := by
    rw [Shared.read, Act.bind_of_ok (read_sharedCell hs)]
    simp only [hx]
    rfl
  exact (Act.bind_of_ok hread).trans rfl

/-- The furthest reader asks the source for an item, and keeps it for the others. -/
theorem copyTurn_of_item (hs : w.shared[place]? = some s) (hx : s.given[position]? = none)
    (hasked : s.asked = false) (hpull : h.pull s.source (w.withShared place Shared.ask) = .ok (some x) v) :
    copyTurn h c place position w =
      .ok (.give x) ((v.withShared place (Shared.receive s.source x)).withCursor c (.copy place (position + 1))) := by
  have hattempt : Act.attempt (h.source s.source) (w.withShared place Shared.ask) =
      .ok (.ok (some (x, s.source))) v := by
    rw [Act.attempt, source_of_item hpull]
  have hread : Shared.read (sharedCell place) Fault.interrupted h.source position w =
      .ok (some x) (v.withShared place (Shared.receive s.source x)) := by
    rw [Shared.read, Act.bind_of_ok (read_sharedCell hs)]
    simp only [hx, hasked]
    exact (Act.bind_of_ok hattempt).trans rfl
  exact (Act.bind_of_ok hread).trans rfl

/-- It does not move when the source has ended. -/
theorem copyTurn_of_end (hs : w.shared[place]? = some s) (hx : s.given[position]? = none)
    (hasked : s.asked = false) (hpull : h.pull s.source (w.withShared place Shared.ask) = .ok none v) :
    copyTurn h c place position w = .ok .ended (v.withShared place Shared.settle) := by
  have hattempt : Act.attempt (h.source s.source) (w.withShared place Shared.ask) = .ok (.ok none) v := by
    rw [Act.attempt, source_of_end hpull]
  have hread : Shared.read (sharedCell place) Fault.interrupted h.source position w =
      .ok none (v.withShared place Shared.settle) := by
    rw [Shared.read, Act.bind_of_ok (read_sharedCell hs)]
    simp only [hx, hasked]
    exact (Act.bind_of_ok hattempt).trans rfl
  exact (Act.bind_of_ok hread).trans rfl

end

/-! ### Readers of one source -/

/-- What a host reads from an iterator over `zs` that has given `k` items: the next item, or nothing at the end.
The record of the shared source at `place` is left alone. -/
def Flows (H : Host) (B : Setting) (R : α → Value → Prop) (it : Value) (zs : Stream'.Seq α) (place : ℕ)
    (stands : ℕ → Set ℕ → World → Prop) (k : ℕ) : Prop :=
  ∀ P w, stands k P w → ∃ r v Q, H.pull it w = .ok r v ∧ Option.Rel R (zs.get? k) r ∧ Contained B P w v ∧
    Q ⊆ within P w.cursors.size ∧ v.shared[place]? = w.shared[place]? ∧
    stands (r.elim k fun _ => k + 1) Q v

/-- **An iterator that gives a sequence.**  It is said by `stands` how many items it has given, and where it
stands.  Nothing that goes on beside it moves it, nor does what becomes of the record of the shared source at
`place`. -/
structure Spring (h : Host) (d : ℕ) (B : Setting) (R : α → Value → Prop) (it : Value) (zs : Stream'.Seq α)
    (place : ℕ) (stands : ℕ → Set ℕ → World → Prop) : Prop where
  handed : ∀ a x x', R a x → Handed x x' → R a x'
  has : ∀ k P w, stands k P w → Has P w
  beside : ∀ k P w v, stands k P w → Beside place P w v → stands k P v
  gives : ∀ k, ∀ᶠ N in atTop, ∀ n, d ≤ n → Flows ((h.grant N).up n) B R it zs place stands k

/-- How often a branch has been asked. -/
def asks (start : Option (Value × ℕ)) : ℕ := start.elim 0 (·.2)

theorem asks_update_self (g : Positions) (i k : ℕ) (it : Value) :
    asks (Function.update g i (some (it, k)) i) = k := by
  rw [Function.update_self]
  rfl

/-- A branch that is opened has not been asked yet. -/
theorem asks_opened {g : Positions} {i : ℕ} (hg : g i = none) (it : Value) (j : ℕ) :
    asks (Function.update g i (some (it, 0)) j) = asks (g j) := by
  by_cases hj : j = i
  · subst hj
    rw [asks_update_self, hg]
    rfl
  · rw [Function.update_of_ne hj]

/-- The iterators at `cs` that are open are their own iterators. -/
def Themselves (cs : List ℕ) (g : Positions) : Prop :=
  ∀ (i c : ℕ) it k, cs[i]? = some c → g i = some (it, k) → it = .ref .iterator c

theorem Themselves.update {cs : List ℕ} {g : Positions} {i c : ℕ} (hg : Themselves cs g) (hc : cs[i]? = some c)
    (k : ℕ) : Themselves cs (Function.update g i (some (.ref .iterator c, k))) := by
  intro j c' it k' hc' hg'
  by_cases hj : j = i
  · subst hj
    cases hc.symm.trans hc'
    rw [Function.update_self] at hg'
    cases hg'
    rfl
  · rw [Function.update_of_ne hj] at hg'
    exact hg j c' it k' hc' hg'

/-- The readers at `cs` are seated.  They have begun behind the first `base` items of the source at `place`, when
it had given `first` of them; the furthest has asked for `K` of them by now. -/
structure Seats (zs : Stream'.Seq α) (place base first : ℕ) (cs : List ℕ) (rs : List Value) (K : ℕ)
    (g : Positions) (w : World) : Prop where
  routes : rs = cs.map (.ref .iterator)
  opened : Themselves cs g
  seated : ∀ i c : ℕ, cs[i]? = some c →
    w.cursors[c]? = some (.copy place (zs.take (base + asks (g i))).length)
  reach : ∀ i < cs.length, base + asks (g i) ≤ K
  bound : K ≤ first ∨ ∃ i < cs.length, K ≤ base + asks (g i)

/-- The source at `place` has given as much as it has of its first `K` items, and they are kept. -/
structure Buffered (R : α → Value → Prop) (it : Value) (zs : Stream'.Seq α) (place : ℕ)
    (source : ℕ → Set ℕ → World → Prop) (K : ℕ) (P : Set ℕ) (w : World) (vs : Array Value) : Prop where
  record : w.shared[place]? = some { source := it, given := vs }
  items : List.Forall₂ R (zs.take K) vs.toList
  stands : source vs.size P w

/-- **Where the readers of a source stand**, and how much it has given. -/
structure Readers (R : α → Value → Prop) (it : Value) (zs : Stream'.Seq α) (place base first : ℕ)
    (source : ℕ → Set ℕ → World → Prop) (cs : List ℕ) (rs : List Value) (g : Positions) (P : Set ℕ)
    (w : World) : Prop where
  state : ∃ K Ps vs, Seats zs place base first cs rs K g w ∧ Buffered R it zs place source K Ps w vs ∧
    P = Ps ∪ {c | c ∈ cs} ∧ ∀ c ∈ cs, c ∉ Ps

/-- Between `w` and `v`, the source at `place` has been asked for an item, and what it has answered is not kept
yet.  It has come from `P` to `Q`, and none of its readers at `cs` has moved. -/
structure Seats.Consulted (B : Setting) (it : Value) (place : ℕ) (cs : List ℕ) (vs : Array Value) (P Q : Set ℕ)
    (w v : World) : Prop where
  record : v.shared[place]? = some (Shared.ask { source := it, given := vs })
  contained : Contained B (P ∪ {c | c ∈ cs}) w v
  stands : Q ⊆ within P w.cursors.size
  same : ∀ c ∈ cs, v.cursors[c]? = w.cursors[c]?
  apart : ∀ c ∈ cs, c ∉ Q

section

variable {h : Host} {d base first place i c k K : ℕ} {B : Setting} {P Q : Set ℕ} {R : α → Value → Prop} {it : Value}
  {zs : Stream'.Seq α} {source : ℕ → Set ℕ → World → Prop} {cs : List ℕ} {rs : List Value} {g : Positions}
  {v w : World} {vs : Array Value}

theorem Readers.has (hspring : Spring h d B R it zs place source)
    (hw : Readers R it zs place base first source cs rs g P w) : Has P w := by
  obtain ⟨K, Ps, vs, hseats, hbuffered, rfl, -⟩ := hw
  rintro c (hc | hc)
  · exact hspring.has _ _ _ hbuffered.stands c hc
  · obtain ⟨i, hi⟩ := List.mem_iff_getElem?.1 hc
    exact (Array.getElem?_eq_some_iff.1 (hseats.seated i c hi)).1

theorem Buffered.aside (hspring : Spring h d B R it zs place source)
    (hbuffered : Buffered R it zs place source K P w vs) (hv : Aside P w v) :
    Buffered R it zs place source K P v vs where
  record := by
    rw [hv.rest]
    exact hbuffered.record
  items := hbuffered.items
  stands := hspring.beside _ _ _ _ hbuffered.stands (hv.beside place)

theorem Readers.aside (hspring : Spring h d B R it zs place source)
    (hw : Readers R it zs place base first source cs rs g P w) (hv : Aside P w v) :
    Readers R it zs place base first source cs rs g P v := by
  obtain ⟨K, Ps, vs, hseats, hbuffered, rfl, hapart⟩ := hw
  refine ⟨K, Ps, vs, { hseats with seated := fun i c hc => ?_ },
    hbuffered.aside hspring (hv.mono Set.subset_union_left), rfl, hapart⟩
  exact (hv.same c (.inr (List.mem_of_getElem? hc))).trans (hseats.seated i c hc)

/-- A reader has been asked once more, and the others are seated where they were. -/
theorem Seats.asked (hnodup : cs.Nodup) (hseats : Seats zs place base first cs rs K g w)
    (hc : cs[i]? = some c) (hg : g i = some (.ref .iterator c, k))
    (hself : v.cursors[c]? = some (.copy place (zs.take (base + (k + 1))).length))
    (hothers : ∀ c' ∈ cs, c' ≠ c → v.cursors[c']? = w.cursors[c']?) :
    Seats zs place base first cs rs (max K (base + (k + 1)))
      (Function.update g i (some (.ref .iterator c, k + 1))) v := by
  obtain ⟨hroutes, hopened, hseated, hreach, hbound⟩ := hseats
  have hi : i < cs.length := (List.getElem?_eq_some_iff.1 hc).1
  refine ⟨hroutes, hopened.update hc (k + 1), fun j c' hc' => ?_, fun j hj => ?_, ?_⟩
  · by_cases hj : j = i
    · subst hj
      cases hc.symm.trans hc'
      rw [asks_update_self]
      exact hself
    · have hne : c' ≠ c := by
        rintro rfl
        exact hj ((List.getElem?_inj hi hnodup).1 (hc.trans hc'.symm)).symm
      rw [Function.update_of_ne hj, hothers c' (List.mem_of_getElem? hc') hne]
      exact hseated j c' hc'
  · by_cases hj' : j = i
    · subst hj'
      rw [asks_update_self]
      exact Nat.le_max_right _ _
    · rw [Function.update_of_ne hj']
      exact Nat.le_trans (hreach j hj) (Nat.le_max_left _ _)
  · rcases Nat.le_total K (base + (k + 1)) with hle | hle
    · refine .inr ⟨i, hi, ?_⟩
      rw [asks_update_self, Nat.max_eq_right hle]
    · rw [Nat.max_eq_left hle]
      refine hbound.imp_right ?_
      rintro ⟨j, hj, hlt⟩
      refine ⟨j, hj, ?_⟩
      by_cases hj' : j = i
      · subst hj'
        rw [hg] at hlt
        rw [asks_update_self]
        exact Nat.le_trans hlt (Nat.add_le_add_left (Nat.le_succ k) base)
      · rwa [Function.update_of_ne hj']

/-- The source has as many items as the furthest reader stands behind. -/
theorem Buffered.size_eq (hbuffered : Buffered R it zs place source K P w vs) :
    vs.size = (zs.take K).length := by
  rw [hbuffered.items.length_eq, Array.length_toList]

/-- An item that is kept is the next one of the reader that asks for it. -/
theorem Buffered.of_given {n : ℕ} {x : Value} (hbuffered : Buffered R it zs place source K P w vs)
    (hn : n ≤ K) (hx : vs[(zs.take n).length]? = some x) :
    n < K ∧ (zs.take n).length = n ∧ ∃ a, zs.get? n = some a ∧ R a x := by
  have hlt : (zs.take n).length < vs.size := (Array.getElem?_eq_some_iff.1 hx).1
  rw [hbuffered.size_eq] at hlt
  cases hget : zs.get? n with
  | none =>
      rw [take_of_get?_none hget hn] at hlt
      exact absurd hlt (Nat.lt_irrefl _)
  | some a =>
      have hlength := length_take_of_get? hget
      rw [hlength] at hx hlt
      have hnK : n < K := Nat.lt_of_lt_of_le hlt Stream'.Seq.length_take_le
      rw [← Array.getElem?_toList] at hx
      obtain ⟨a', ha', hR⟩ := exists_of_forall₂ hbuffered.items hx
      rw [Stream'.Seq.getElem?_take, if_pos hnK, hget] at ha'
      cases ha'
      exact ⟨hnK, hlength, a, rfl, hR⟩

/-- A reader for which nothing is kept is the furthest one. -/
theorem Buffered.of_ungiven {n : ℕ} (hbuffered : Buffered R it zs place source K P w vs) (hn : n ≤ K)
    (hx : vs[(zs.take n).length]? = none) : vs.size = (zs.take n).length := by
  refine Nat.le_antisymm (Array.getElem?_eq_none_iff.1 hx) ?_
  rw [hbuffered.size_eq]
  exact length_take_mono zs hn

/-- If there is an item to come, the furthest reader has asked for all that has been asked for. -/
theorem Buffered.eq_of_ungiven {n : ℕ} {a : α} (hbuffered : Buffered R it zs place source K P w vs) (hn : n ≤ K)
    (hx : vs[(zs.take n).length]? = none) (ha : zs.get? n = some a) : K = n := by
  refine Nat.le_antisymm (Nat.le_of_not_lt fun hlt => ?_) hn
  have hmore := length_take_mono zs (Nat.succ_le_of_lt hlt)
  rw [← hbuffered.size_eq, hbuffered.of_ungiven hn hx, take_succ_of_get? ha, List.length_append] at hmore
  exact Nat.not_succ_le_self _ hmore

/-- The end of the source is not kept. -/
theorem Buffered.settled {n : ℕ} (hspring : Spring h d B R it zs place source)
    (hbuffered : Buffered R it zs place source K P w vs) (hv : Seats.Consulted B it place cs vs P Q w v) (hn : n ≤ K)
    (hend : zs.get? n = none) (hstands : source vs.size Q v) :
    Buffered R it zs place source (max K (n + 1)) Q (v.withShared place Shared.settle) vs where
  record := getElem?_withShared hv.record Shared.settle
  items := by
    rw [take_of_get?_none hend (Nat.le_trans hn (Nat.le_max_left _ _)), ← take_of_get?_none hend hn]
    exact hbuffered.items
  stands := hspring.beside _ _ _ _ hstands (beside_withShared v place Shared.settle Q)

/-- The next item of the source is kept behind those that it has given. -/
theorem Buffered.received {n : ℕ} {a : α} {x : Value} (hspring : Spring h d B R it zs place source)
    (hbuffered : Buffered R it zs place source K P w vs) (hv : Seats.Consulted B it place cs vs P Q w v) (hn : n ≤ K)
    (hx : vs[(zs.take n).length]? = none) (ha : zs.get? n = some a) (hR : R a x)
    (hstands : source (vs.size + 1) Q v) :
    Buffered R it zs place source (max K (n + 1)) Q (v.withShared place (Shared.receive it x)) (vs.push x) := by
  obtain rfl := hbuffered.eq_of_ungiven hn hx ha
  refine ⟨getElem?_withShared hv.record (Shared.receive it x), ?_, ?_⟩
  · rw [Nat.max_eq_right (Nat.le_succ K), take_succ_of_get? ha, Array.toList_push]
    exact List.rel_append hbuffered.items (.cons hR .nil)
  · rw [Array.size_push]
    exact hspring.beside _ _ _ _ hstands (beside_withShared v place (Shared.receive it x) Q)

/-- The cursor of a reader is not one that its source stands on. -/
theorem Seats.lt_size (hseats : Seats zs place base first cs rs K g w) (hc : c ∈ cs) :
    c < w.cursors.size := by
  obtain ⟨i, hi⟩ := List.mem_iff_getElem?.1 hc
  exact (Array.getElem?_eq_some_iff.1 (hseats.seated i c hi)).1

/-- Where a reader stands that has been asked `k` times. -/
theorem Seats.reader (hseats : Seats zs place base first cs rs K g w) (hc : cs[i]? = some c) {start : Value}
    (hg : g i = some (start, k)) :
    w.cursors[c]? = some (.copy place (zs.take (base + k)).length) ∧ base + k ≤ K := by
  have hcursor := hseats.seated i c hc
  have hreach := hseats.reach i (List.getElem?_eq_some_iff.1 hc).1
  rw [hg] at hcursor hreach
  exact ⟨hcursor, hreach⟩

section

variable {H : Host} {Ps : Set ℕ} {x : Value}

/-- A reader that is behind gives the next item that is kept. -/
theorem Seats.pull_given (hspring : Spring h d B R it zs place source) (hnodup : cs.Nodup)
    (hseats : Seats zs place base first cs rs K g w) (hbuffered : Buffered R it zs place source K Ps w vs)
    (hapart : ∀ c ∈ cs, c ∉ Ps) (hc : cs[i]? = some c) (hg : g i = some (.ref .iterator c, k))
    (hx : vs[(zs.take (base + k)).length]? = some x) (hfuel : 0 < H.fuel) :
    ∃ x' v, H.above.pull (.ref .iterator c) w = .ok (some x') v ∧
      Option.Rel R (zs.get? (base + k)) (some x') ∧ Uses {c} w v ∧
      Readers R it zs place base first source cs rs
        (Function.update g i (some (.ref .iterator c, k + 1))) (Ps ∪ {c | c ∈ cs}) v := by
  have hmem : c ∈ cs := List.mem_of_getElem? hc
  obtain ⟨hcursor, hreach⟩ := hseats.reader hc hg
  obtain ⟨hlt, hlength, a, ha, hR⟩ := hbuffered.of_given hreach hx
  have hturn := copyTurn_of_given (h := H) (c := c) hbuffered.record hx
  obtain ⟨x', marks, hpull, hhanded⟩ := pull_of_nextItem (nextItem_of_turn hcursor rfl hturn rfl hfuel)
  have hmoves := uses_settle w c (.copy place ((zs.take (base + k)).length + 1)) marks
  have hquiet := (hmoves.spares_of_notMem (hspring.has _ _ _ hbuffered.stands) (hapart c hmem)).quiet
  refine ⟨x', _, hpull, ?_, hmoves, ⟨max K (base + (k + 1)), Ps, vs, ?_, ?_, rfl, hapart⟩⟩
  · rw [ha]
    exact .some (hspring.handed _ _ _ hR hhanded)
  · refine hseats.asked hnodup hc hg ?_ fun c' _ hne => Array.getElem?_setIfInBounds_ne (Ne.symm hne)
    have htake : (zs.take (base + (k + 1))).length = (zs.take (base + k)).length + 1 := by
      rw [← Nat.add_assoc, take_succ_of_get? ha, List.length_append, List.length_singleton]
    rw [htake]
    exact getElem?_setCursor hcursor
  · rw [Nat.max_eq_left (show base + (k + 1) ≤ K from hlt)]
    exact hbuffered.aside hspring hquiet.aside

/-- The source is asked for what comes behind the items that a reader has had, if no other has had it. -/
theorem Seats.consult {n : ℕ} (hspring : Spring h d B R it zs place source)
    (hseats : Seats zs place base first cs rs K g w) (hbuffered : Buffered R it zs place source K Ps w vs)
    (hapart : ∀ c ∈ cs, c ∉ Ps) (hn : n ≤ K) (hx : vs[(zs.take n).length]? = none)
    (hflows : ∀ m ≤ n, Flows H B R it zs place source m) :
    ∃ r v Q, H.pull it (w.withShared place Shared.ask) = .ok r v ∧ Option.Rel R (zs.get? n) r ∧
      Seats.Consulted B it place cs vs Ps Q w v ∧ source (r.elim vs.size fun _ => vs.size + 1) Q v := by
  have hsize := hbuffered.of_ungiven hn hx
  -- the source is asked while it is marked as being asked
  have hasked := hspring.beside _ _ _ _ hbuffered.stands (beside_withShared w place Shared.ask Ps)
  obtain ⟨r, v, Q, hpull, hr, hcontained, hQ, hshared, hstands⟩ :=
    hflows vs.size (hsize ▸ Stream'.Seq.length_take_le) Ps _ hasked
  refine ⟨r, v, Q, hpull, ?_, ⟨?_, ?_, hQ, fun c hc => ?_, fun c hc => ?_⟩, hstands⟩
  · rwa [hsize, get?_length_take] at hr
  · exact hshared.trans (getElem?_withShared hbuffered.record Shared.ask)
  · exact (contained_withShared w place Shared.ask B _).trans (hcontained.mono Set.subset_union_left)
      (subset_within _ _)
  · exact hcontained.same c (hseats.lt_size hc) (hapart c hc)
  · exact notMem_of_subset_within hQ (hapart c hc) (hseats.lt_size hc)

/-- The furthest reader ends when its source has ended. -/
theorem Seats.pull_ended (hspring : Spring h d B R it zs place source) (hnodup : cs.Nodup)
    (hseats : Seats zs place base first cs rs K g w) (hbuffered : Buffered R it zs place source K Ps w vs)
    (hv : Seats.Consulted B it place cs vs Ps Q w v) (hc : cs[i]? = some c) (hg : g i = some (.ref .iterator c, k))
    (hx : vs[(zs.take (base + k)).length]? = none)
    (hpull : H.pull it (w.withShared place Shared.ask) = .ok none v) (hend : zs.get? (base + k) = none)
    (hstands : source vs.size Q v) (hfuel : 0 < H.fuel) :
    ∃ t, H.above.pull (.ref .iterator c) w = .ok none t ∧ Contained B (Ps ∪ {c | c ∈ cs}) w t ∧
      Readers R it zs place base first source cs rs
        (Function.update g i (some (.ref .iterator c, k + 1))) (Q ∪ {c | c ∈ cs}) t := by
  obtain ⟨hcursor, hreach⟩ := hseats.reader hc hg
  have hturn := copyTurn_of_end (h := H) (c := c) hbuffered.record hx rfl hpull
  have hnext : nextItem H c w = .ok none _ := nextItem_of_turn hcursor rfl hturn rfl hfuel
  refine ⟨_, Act.bind_of_ok hnext, ?_, max K (base + (k + 1)), Q, vs, ?_, ?_, rfl, hv.apart⟩
  · exact hv.contained.trans (contained_withShared v place Shared.settle B _) (subset_within _ _)
  · refine hseats.asked hnodup hc hg ?_ fun c' hc' _ => hv.same c' hc'
    rw [← Nat.add_assoc, take_of_get?_none hend (Nat.le_succ _)]
    exact (hv.same c (List.mem_of_getElem? hc)).trans hcursor
  · exact hbuffered.settled hspring hv hreach hend hstands

/-- The furthest reader gives the next item of its source, which is kept for the others. -/
theorem Seats.pull_received {a : α} (hspring : Spring h d B R it zs place source) (hnodup : cs.Nodup)
    (hseats : Seats zs place base first cs rs K g w) (hbuffered : Buffered R it zs place source K Ps w vs)
    (hv : Seats.Consulted B it place cs vs Ps Q w v) (hc : cs[i]? = some c) (hg : g i = some (.ref .iterator c, k))
    (hx : vs[(zs.take (base + k)).length]? = none)
    (hpull : H.pull it (w.withShared place Shared.ask) = .ok (some x) v) (ha : zs.get? (base + k) = some a)
    (hR : R a x) (hstands : source (vs.size + 1) Q v) (hfuel : 0 < H.fuel) :
    ∃ x' t, H.above.pull (.ref .iterator c) w = .ok (some x') t ∧ R a x' ∧
      Contained B (Ps ∪ {c | c ∈ cs}) w t ∧
      Readers R it zs place base first source cs rs
        (Function.update g i (some (.ref .iterator c, k + 1))) (Q ∪ {c | c ∈ cs}) t := by
  have hmem : c ∈ cs := List.mem_of_getElem? hc
  obtain ⟨hcursor, hreach⟩ := hseats.reader hc hg
  have hturn := copyTurn_of_item (h := H) (c := c) hbuffered.record hx rfl hpull
  obtain ⟨x', marks, hpulled, hhanded⟩ := pull_of_nextItem (nextItem_of_turn hcursor rfl hturn rfl hfuel)
  have hmoves : Uses {c} (v.withShared place (Shared.receive it x)) _ :=
    uses_settle _ c (.copy place ((zs.take (base + k)).length + 1)) marks
  have hkept := hbuffered.received hspring hv hreach hx ha hR hstands
  have hquiet := (hmoves.spares_of_notMem (hspring.has _ _ _ hkept.stands) (hv.apart c hmem)).quiet
  refine ⟨x', _, hpulled, hspring.handed _ _ _ hR hhanded, ?_, max K (base + (k + 1)), Q, vs.push x, ?_,
    hkept.aside hspring hquiet.aside, rfl, hv.apart⟩
  · refine (hv.contained.trans (contained_withShared v place (Shared.receive it x) B _)
      (subset_within _ _)).trans hmoves.contained ?_
    exact Set.singleton_subset_iff.2 (.inl (.inr hmem))
  · refine hseats.asked hnodup hc hg ?_ fun c' hc' hne =>
      (Array.getElem?_setIfInBounds_ne (Ne.symm hne)).trans (hv.same c' hc')
    rw [← Nat.add_assoc, take_succ_of_get? ha, List.length_append]
    exact getElem?_setCursor ((hv.same c hmem).trans hcursor)

/-- The furthest reader gives what its source gives, and keeps it for the others. -/
theorem Seats.pull_asked (hspring : Spring h d B R it zs place source) (hnodup : cs.Nodup)
    (hseats : Seats zs place base first cs rs K g w) (hbuffered : Buffered R it zs place source K Ps w vs)
    (hapart : ∀ c ∈ cs, c ∉ Ps) (hc : cs[i]? = some c) (hg : g i = some (.ref .iterator c, k))
    (hx : vs[(zs.take (base + k)).length]? = none)
    (hflows : ∀ m ≤ base + k, Flows H B R it zs place source m) (hfuel : 0 < H.fuel) :
    ∃ r v Q, H.above.pull (.ref .iterator c) w = .ok r v ∧ Option.Rel R (zs.get? (base + k)) r ∧
      Contained B (Ps ∪ {c | c ∈ cs}) w v ∧ Q ⊆ within Ps w.cursors.size ∧
      Readers R it zs place base first source cs rs
        (Function.update g i (some (.ref .iterator c, k + 1))) (Q ∪ {c | c ∈ cs}) v := by
  obtain ⟨r, v, Q, hpull, hr, hv, hstands⟩ :=
    hseats.consult hspring hbuffered hapart (hseats.reader hc hg).2 hx hflows
  cases hget : zs.get? (base + k) with
  | none =>
      rw [hget] at hr
      cases hr
      obtain ⟨t, hpulled, hcontained, ht⟩ :=
        hseats.pull_ended hspring hnodup hbuffered hv hc hg hx hpull hget hstands hfuel
      exact ⟨none, t, Q, hpulled, .none, hcontained, hv.stands, ht⟩
  | some a =>
      rw [hget] at hr
      obtain ⟨hR⟩ := hr
      obtain ⟨x', t, hpulled, hR', hcontained, ht⟩ :=
        hseats.pull_received hspring hnodup hbuffered hv hc hg hx hpull hget hR hstands hfuel
      exact ⟨some x', t, Q, hpulled, .some hR', hcontained, hv.stands, ht⟩

/-- **A reader is asked once more**: it gives the next item of the source. -/
theorem Readers.pull (hspring : Spring h d B R it zs place source) (hnodup : cs.Nodup)
    (hw : Readers R it zs place base first source cs rs g P w) (hc : cs[i]? = some c)
    (hg : g i = some (.ref .iterator c, k)) (hflows : ∀ m ≤ base + k, Flows H B R it zs place source m)
    (hfuel : 0 < H.fuel) :
    ∃ r v Q, H.above.pull (.ref .iterator c) w = .ok r v ∧ Option.Rel R (zs.get? (base + k)) r ∧
      Contained B P w v ∧ Q ⊆ within P w.cursors.size ∧
      Readers R it zs place base first source cs rs
        (Function.update g i (some (.ref .iterator c, k + 1))) Q v := by
  obtain ⟨K, Ps, vs, hseats, hbuffered, rfl, hapart⟩ := hw
  cases hx : vs[(zs.take (base + k)).length]? with
  | some x =>
      obtain ⟨x', v, hpull, hR, hmoves, hv⟩ :=
        hseats.pull_given hspring hnodup hbuffered hapart hc hg hx hfuel
      refine ⟨some x', v, _, hpull, hR, ?_, subset_within _ _, hv⟩
      exact hmoves.contained.mono (Set.singleton_subset_iff.2 (.inr (List.mem_of_getElem? hc)))
  | none =>
      obtain ⟨r, v, Q, hpull, hR, hcontained, hQ, hv⟩ :=
        hseats.pull_asked hspring hnodup hbuffered hapart hc hg hx hflows hfuel
      refine ⟨r, v, _, hpull, hR, hcontained, ?_, hv⟩
      rintro j (hj | hj)
      · exact (hQ hj).imp_left .inl
      · exact .inl (.inr hj)

end

/-- What an iterator gives is what a branch answers that is read item by item. -/
theorem exists_ask_of_pull {H : Host} {s : Stream'.Seq α} {r : Option Value} (hpull : H.pull it w = .ok r v)
    (hr : Option.Rel R (s.get? k) r) :
    ∃ r', ask (.plain s) H it w = .ok r' v ∧ Option.Rel (List.Forall₂ R) ((Strand.plain s).answer k) r' := by
  refine ⟨r.map fun x => [x], ?_, ?_⟩
  · refine (Act.bind_of_ok hpull).trans ?_
    cases r <;> rfl
  · rw [Strand.answer]
    generalize s.get? k = a at hr
    cases hr with
    | none => exact .none
    | some hr => exact .some (.cons hr .nil)

/-- A reader is opened: it is its own iterator. -/
theorem Readers.opened {x : Value} (hw : Readers R it zs place base first source cs rs g P w)
    (hg : g i = none) (hr : rs[i]? = some x) :
    ∃ c, x = .ref .iterator c ∧ Readers R it zs place base first source cs rs
      (Function.update g i (some (.ref .iterator c, 0))) P w := by
  obtain ⟨K, Ps, vs, hseats, hbuffered, hP⟩ := hw
  obtain rfl := hseats.routes
  rw [List.getElem?_map] at hr
  obtain ⟨c, hc, rfl⟩ := Option.map_eq_some_iff.1 hr
  have hasks := asks_opened hg (.ref .iterator c)
  refine ⟨c, rfl, K, Ps, vs, ⟨rfl, hseats.opened.update hc 0, fun j c' hc' => ?_, fun j hj => ?_, ?_⟩,
    hbuffered, hP⟩
  · rw [hasks]
    exact hseats.seated j c' hc'
  · rw [hasks]
    exact hseats.reach j hj
  · simpa only [hasks] using hseats.bound

/-- Where `n` readers of a source stand. -/
def Readership (R : α → Value → Prop) (it : Value) (zs : Stream'.Seq α) (place base first : ℕ)
    (source : ℕ → Set ℕ → World → Prop) (n : ℕ) (rs : List Value) (g : Positions) (P : Set ℕ) (w : World) :
    Prop :=
  ∃ cs : List ℕ, cs.length = n ∧ cs.Nodup ∧ Readers R it zs place base first source cs rs g P w

/-- **Readers of one source are apart from one another.** -/
theorem Spring.fleet (hspring : Spring h d B R it zs place source) (base first n : ℕ) :
    Fleet h (d + 1) B R (List.replicate n (.plain (zs.drop base)))
      (Readership R it zs place base first source n) where
  handed := hspring.handed
  has := fun _ _ _ _ ⟨_, _, _, hw⟩ => hw.has hspring
  aside := fun _ _ _ _ _ ⟨cs, hlength, hnodup, hw⟩ hv => ⟨cs, hlength, hnodup, hw.aside hspring hv⟩
  opens := by
    rintro rs g P w i r r' ⟨cs, hlength, hnodup, hw⟩ hg hr hhanded
    obtain ⟨c, rfl, hv⟩ := hw.opened hg hr
    obtain rfl := hhanded.eq_of_marked rfl
    exact ⟨.ref .iterator c, w, P, rfl, subset_within P _, cs, hlength, hnodup, hv⟩
  replies k := by
    have hflows := (eventually_all_finite (Set.finite_le_nat (base + k))).2 fun m _ => hspring.gives m
    filter_upwards [hflows, eventually_gt_atTop 0] with N hN hpos n hn rs g P w i x it' hx hw hg
    obtain ⟨n, rfl, hm⟩ := exists_level_below hn
    obtain ⟨cs, hlength, hnodup, hw⟩ := hw
    rw [List.getElem?_replicate] at hx
    obtain ⟨hi, ⟨⟩⟩ := Option.ite_none_right_eq_some.1 hx
    obtain ⟨c, hc⟩ : ∃ c, cs[i]? = some c := ⟨_, List.getElem?_eq_getElem (hlength ▸ hi)⟩
    obtain ⟨K, Ps, vs, hseats, -⟩ := id hw
    obtain rfl := hseats.opened i c it' k hc hg
    obtain ⟨r, v, Q, hpull, hR, hcontained, hQ, hv⟩ := hw.pull (H := (h.grant N).up n) hspring hnodup hc hg
      (fun m hle => hN m hle n hm) (by rwa [Host.fuel_up])
    rw [← Stream'.Seq.drop_get?] at hR
    obtain ⟨r', hask, hr'⟩ := exists_ask_of_pull hpull hR
    exact ⟨r', v, Q, hask, hr', hcontained, hQ, cs, hlength, hnodup, hv⟩

/-- No readers of a source. -/
theorem Spring.fleet_nil (hspring : Spring h d B R it zs place source) (m : ℕ) :
    Fleet h d B R [] fun rs _ P w => rs = [] ∧ source m P w where
  handed := hspring.handed
  has _ _ P w hw := hspring.has _ P w hw.2
  aside _ _ P w v hw hv := ⟨hw.1, hspring.beside _ P w v hw.2 (hv.beside place)⟩
  opens := by
    rintro rs g P w i r r' ⟨rfl, -⟩ - hr
    cases hr
  replies k := Eventually.of_forall fun N n hn rs g P w i x it hx => by cases hx

end

/-! ### Where the source stands -/

/-- The source at `place` has given what the furthest of its readers has been given, and no more, if it had
not given more at the beginning. -/
structure Furthest (source : ℕ → Set ℕ → World → Prop) (place first : ℕ) (w : World) : Prop where
  given : ∃ m P, source m P w ∧ (m ≤ first ∨ ∃ c : ℕ, w.cursors[c]? = some (.copy place m))

section

variable {h : Host} {d base first place m n : ℕ} {B : Setting} {P : Set ℕ} {R : α → Value → Prop} {it : Value}
  {xs zs : Stream'.Seq α} {source : ℕ → Set ℕ → World → Prop} {cs : List ℕ} {rs : List Value}
  {g : Positions} {v w : World}

/-- **The source has given what its furthest reader has been given**, and no more. -/
theorem Readers.furthest (hw : Readers R it zs place base first source cs rs g P w) :
    Furthest source place (zs.take first).length w := by
  obtain ⟨K, Ps, vs, hseats, hbuffered, -⟩ := hw
  have hsize := hbuffered.size_eq
  refine ⟨vs.size, Ps, hbuffered.stands, ?_⟩
  rcases hseats.bound with hle | ⟨i, hi, hle⟩
  · exact .inl (hsize ▸ length_take_mono zs hle)
  · have hK : base + asks (g i) = K := Nat.le_antisymm (hseats.reach i hi) hle
    have hc : cs[i]? = some cs[i] := List.getElem?_eq_getElem hi
    refine .inr ⟨cs[i], ?_⟩
    rw [hseats.seated i _ hc, hK, hsize]

/-! ### Making readers -/

/-- **A one-shot iterator** over `xs`, of which nothing has been read: one that is not a reader itself, or a
reader of a source.  It is said by `source` where that stands which is read in the end, and how many items it
has given; by now these are `m`.  The items that it gives for several readers are kept at `place`. -/
inductive OneShot (h : Host) (d : ℕ) (B : Setting) (R : α → Value → Prop) (xs : Stream'.Seq α)
    (source : ℕ → Set ℕ → World → Prop) (w : World) : ℕ → ℕ → Value → Prop
  | whole {c : ℕ} {k : Cursor} {P : Set ℕ} (hc : w.cursors[c]? = some k) (hk : ∀ place n, k ≠ .copy place n)
      (hspring : Spring h d B R (.ref .iterator c) xs w.shared.size source) (hstands : source 0 P w) :
      OneShot h d B R xs source w w.shared.size 0 (.ref .iterator c)
  | reader {c place base K : ℕ} {it : Value} {zs : Stream'.Seq α} {P : Set ℕ} {vs : Array Value}
      (hspring : Spring h d B R it zs place source) (hxs : zs.drop base = xs)
      (hc : w.cursors[c]? = some (.copy place (zs.take base).length)) (hbase : base ≤ K)
      (hbuffered : Buffered R it zs place source K P w vs) (hcP : c ∉ P) :
      OneShot h d B R xs source w place (zs.take K).length (.ref .iterator c)

/-- New readers. -/
theorem mapM_newCursor (k : Cursor) (is : List ℕ) (w : World) :
    (is.mapM fun _ => newCursor k : M (List Value)) w =
      .ok ((List.range' w.cursors.size is.length).map (.ref .iterator))
        { w with cursors := w.cursors ++ Array.replicate is.length k } := by
  induction is generalizing w with
  | nil => simp [pure, EStateM.pure]
  | cons i is ih =>
      rw [List.mapM_cons, Act.bind_of_ok (newCursor_eq k w), Act.bind_of_ok (ih _)]
      simp [List.range'_succ, Array.replicate_succ', pure, EStateM.pure]

/-- Of an iterator that is not a reader a record is made, and all readers are new. -/
theorem copies_whole {c : ℕ} {k : Cursor} (hc : w.cursors[c]? = some k) (hk : ∀ place n, k ≠ .copy place n)
    (n : ℕ) :
    Host.copies (.ref .iterator c) (n + 1) w =
      .ok ((List.range' w.cursors.size (n + 1)).map (.ref .iterator))
        { w with
          shared := w.shared.push { source := .ref .iterator c }
          cursors := w.cursors ++ Array.replicate (n + 1) (.copy w.shared.size 0) } := by
  have hreaders := mapM_newCursor (.copy w.shared.size 0) (List.range (n + 1))
    { w with shared := w.shared.push { source := .ref .iterator c } }
  rw [List.length_range] at hreaders
  rw [Host.copies, Act.bind_of_ok (m := get) rfl]
  dsimp only
  rw [hc]
  cases k with
  | copy place n => exact absurd rfl (hk place n)
  | _ => exact hreaders

/-- A reader goes on as one of the readers, and the others begin where it stands. -/
theorem copies_reader {c k : ℕ} (hc : w.cursors[c]? = some (.copy place k)) (n : ℕ) :
    Host.copies (.ref .iterator c) (n + 1) w =
      .ok ((c :: List.range' w.cursors.size n).map (.ref .iterator))
        { w with cursors := w.cursors ++ Array.replicate n (.copy place k) } := by
  have hreaders := mapM_newCursor (.copy place k) (List.range n) w
  rw [List.length_range] at hreaders
  rw [Host.copies, Act.bind_of_ok (m := get) rfl]
  simp only [hc]
  exact (Act.bind_of_ok hreaders).trans rfl

/-- New cursors, which are all alike. -/
theorem getElem?_newCursors (cs : Array Cursor) (k : Cursor) {c : ℕ} (hc : c ∈ List.range' cs.size n) :
    (cs ++ Array.replicate n k)[c]? = some k := by
  obtain ⟨hle, hlt⟩ := List.mem_range'_1.1 hc
  rw [Array.getElem?_append_right hle, Array.getElem?_replicate, if_pos (Nat.sub_lt_left_of_lt_add hle hlt)]

theorem World.Beside.newReaders (w : World) (P : Set ℕ) (place k n : ℕ) (shared : Array (Shared Value Value))
    (hP : Has P w) (hshared : ∀ i, i ≠ place → shared[i]? = w.shared[i]?) :
    Beside place P w
      { w with shared := shared, cursors := w.cursors ++ Array.replicate n (.copy place k) } where
  rest := rfl
  size := by simp
  same i hi := Array.getElem?_append_left (hP i hi)
  lists _ _ := id
  blocks _ _ := id
  shared := hshared

/-- What a one-shot iterator reads in the end. -/
theorem OneShot.exists_spring (hit : OneShot h d B R xs source w place m it) :
    ∃ it' zs, Spring h d B R it' zs place source ∧ ∃ P, source m P w := by
  cases hit with
  | whole hc hk hspring hstands => exact ⟨_, _, hspring, _, hstands⟩
  | reader hspring hxs hc hbase hbuffered hcP =>
      exact ⟨_, _, hspring, _, hbuffered.size_eq ▸ hbuffered.stands⟩

/-- Nothing has been read since, neither the iterator nor what it reads in the end. -/
theorem Spring.quiet (hspring : Spring h d B R it zs place source) (hstands : source m P w)
    (hv : Quiet {c | c < w.cursors.size} w v) : source m P v := by
  have hown : Quiet P w v :=
    ⟨hv.rest, hv.size, fun c hc => hv.same c (hspring.has _ _ _ hstands c hc), hv.lists⟩
  exact hspring.beside _ _ _ _ hstands (hown.aside.beside place)

/-- The readers of a source that nobody has read yet are new, and begin with its first item. -/
theorem Spring.readers_whole (hspring : Spring h d B R it xs w.shared.size source) (hstands : source 0 P w)
    (n : ℕ) :
    ∃ Q, Readers R it xs w.shared.size 0 0 source (List.range' w.cursors.size n)
      ((List.range' w.cursors.size n).map (.ref .iterator)) (fun _ => none) Q
      { w with
        shared := w.shared.push { source := it }
        cursors := w.cursors ++ Array.replicate n (.copy w.shared.size 0) } := by
  have hhas := hspring.has _ _ _ hstands
  refine ⟨_, 0, P, #[], ⟨rfl, nofun, fun i c hc => ?_, fun _ _ => Nat.le_refl 0, .inl (Nat.le_refl 0)⟩,
    ⟨Array.getElem?_push_size, .nil, ?_⟩, rfl, fun c hc hmem => ?_⟩
  · exact getElem?_newCursors _ _ (List.mem_of_getElem? hc)
  · refine hspring.beside _ _ _ _ hstands (.newReaders w P _ 0 _ _ hhas fun i hi => ?_)
    rw [Array.getElem?_push, if_neg hi]
  · exact Nat.not_lt_of_le (List.mem_range'_1.1 hc).1 (hhas _ hmem)

/-- A reader goes on as one of several, and the others begin where it stands. -/
theorem Spring.readers_reader {c K : ℕ} {vs : Array Value} (hspring : Spring h d B R it zs place source)
    (hc : w.cursors[c]? = some (.copy place (zs.take base).length)) (hbase : base ≤ K)
    (hbuffered : Buffered R it zs place source K P w vs) (hcP : c ∉ P) (n : ℕ) :
    (c :: List.range' w.cursors.size n).Nodup ∧
      ∃ Q, Readers R it zs place base K source (c :: List.range' w.cursors.size n)
        ((c :: List.range' w.cursors.size n).map (.ref .iterator)) (fun _ => none) Q
        { w with cursors := w.cursors ++ Array.replicate n (.copy place (zs.take base).length) } := by
  have hlt : c < w.cursors.size := (Array.getElem?_eq_some_iff.1 hc).1
  have hhas := hspring.has _ _ _ hbuffered.stands
  have hbeside : Beside place P w _ :=
    .newReaders w P place (zs.take base).length n w.shared hhas fun _ _ => rfl
  refine ⟨List.nodup_cons.2 ⟨fun hmem => ?_, List.nodup_range'⟩, _, K, P, vs,
    ⟨rfl, nofun, fun i c' hc' => ?_, fun _ _ => hbase, .inl (Nat.le_refl K)⟩,
    ⟨hbuffered.record, hbuffered.items, hspring.beside _ _ _ _ hbuffered.stands hbeside⟩, rfl,
    fun c' hc' hmem => ?_⟩
  · exact Nat.not_lt_of_le (List.mem_range'_1.1 hmem).1 hlt
  · rcases List.mem_cons.1 (List.mem_of_getElem? hc') with rfl | hnew
    · exact (Array.getElem?_append_left hlt).trans hc
    · exact getElem?_newCursors _ _ hnew
  · rcases List.mem_cons.1 hc' with rfl | hnew
    · exact hcP hmem
    · exact Nat.not_lt_of_le (List.mem_range'_1.1 hnew).1 (hhas _ hmem)

/-- **Readers are made of a one-shot iterator.**  They are apart from one another, and each of them gives all
that the iterator would have given. -/
theorem OneShot.exists_fleet (hit : OneShot h d B R xs source w place m it) (n : ℕ) :
    ∃ stands, Fleet h (d + 1) B R (List.replicate n (.plain xs)) stands ∧
      (∀ rs g P u, stands rs g P u → Furthest source place m u) ∧
      ∀ v, Quiet {c | c < w.cursors.size} w v → ∃ (cs : List ℕ) (u : World) (P : Set ℕ),
        Host.copies it n v = .ok (cs.map (.ref .iterator)) u ∧ cs.length = n ∧ Retains B v u ∧
        stands (cs.map (.ref .iterator)) (fun _ => none) P u := by
  cases n with
  | zero =>
      -- there is no record, and the source stays where it stands
      obtain ⟨it', zs, hspring, P, hstands⟩ := hit.exists_spring
      refine ⟨_, (hspring.fleet_nil m).mono (Nat.le_succ d), ?_, fun v hv => ?_⟩
      · rintro rs g P u ⟨-, hu⟩
        exact ⟨m, P, hu, .inl (Nat.le_refl m)⟩
      · refine ⟨[], v, P, ?_, rfl, .refl B v, rfl, hspring.quiet hstands hv⟩
        rw [Host.copies, Act.bind_of_ok (m := get) rfl]
        split <;> rfl
  | succ n =>
      cases hit with
      | whole hc hk hspring hstands =>
          refine ⟨_, hspring.fleet 0 0 (n + 1), ?_, fun v hv => ?_⟩
          · rintro rs g P u ⟨cs, -, -, hu⟩
            exact hu.furthest
          · have hstands' := hspring.quiet hstands hv
            have hcv := (hv.same _ (Array.getElem?_eq_some_iff.1 hc).1).trans hc
            have hshared : v.shared = w.shared := by rw [hv.rest]
            rw [← hshared] at hspring ⊢
            obtain ⟨Q, hreaders⟩ := hspring.readers_whole hstands' (n + 1)
            exact ⟨_, _, Q, copies_whole hcv hk n, List.length_range', retains_of_rest rfl fun _ _ => id, _,
              List.length_range', List.nodup_range', hreaders⟩
      | @reader c place base K it' zs P vs hspring hxs hc hbase hbuffered hcP =>
          subst hxs
          refine ⟨_, hspring.fleet base K (n + 1), ?_, fun v hv => ?_⟩
          · rintro rs g P u ⟨cs, -, -, hu⟩
            exact hu.furthest
          · have hcv := (hv.same c (Array.getElem?_eq_some_iff.1 hc).1).trans hc
            have hbuffered' : Buffered R it' zs place source K P v vs :=
              ⟨by rw [hv.rest]; exact hbuffered.record, hbuffered.items, hspring.quiet hbuffered.stands hv⟩
            obtain ⟨hnodup, Q, hreaders⟩ := hspring.readers_reader hcv hbase hbuffered' hcP n
            exact ⟨_, _, Q, copies_reader hcv n, by simp, retains_of_rest rfl fun _ _ => id, _, by simp, hnodup,
              hreaders⟩

end

end GraphRoutes.Session
