/-
**Reading a collection that is at hand.**

A tuple, a text, a dictionary, a set or a list is read by a cursor of its own.  Whatever else happens
meanwhile, the cursor gives the items of the collection, one by one, and then reports the end, as long
as nobody changes the collection; all it does to the world is to move, and to give marks to the items
that it hands out.

So a loop over such a collection runs through its items.  The labels to which a step is restricted are
read by such a loop, and of every collection of labels only their keys count.

Main definitions:

* `GraphRoutes.Session.Host.above` — the host that reads over another;
* `GraphRoutes.Session.World.collection?` — the items of a collection;
* `GraphRoutes.Session.World.Keeps` — what reading leaves alone;
* `GraphRoutes.Session.World.Ready` — what a cursor has still to give;
* `GraphRoutes.Session.World.labels?`, `GraphRoutes.Session.admits` — the labels that a value stands for,
  and what they let pass.

Main results:

* `GraphRoutes.Session.iterate_collection`, `GraphRoutes.Session.pull_ready_cons`,
  `GraphRoutes.Session.pull_ready_nil` — **how a collection is read**;
* `GraphRoutes.Session.foldFrom_turns`, `GraphRoutes.Session.foldFrom_ready` — a loop over a
  collection;
* `GraphRoutes.Session.labelKeys_eq` — **what a restriction to labels lets pass**.
-/
import GraphRoutes.Session.Run
import Mathlib.Data.List.Forall2

set_option relaxedAutoImplicit false
set_option autoImplicit false

namespace GraphRoutes.Session

/-! ### Hosts over hosts -/

/-- The host that evaluates calls and reads cursors over another host. -/
def Host.above (h : Host) : Host where
  call := callOver h
  pull := pullOver h
  fuel := h.fuel

@[simp] theorem Host.fuel_above (h : Host) : h.above.fuel = h.fuel := rfl

/-- The host of a session reads over the host of less depth. -/
theorem host_succ (depth : Nat) : host (depth + 1) = (host depth).above := rfl

/-! ### What reading leaves alone -/

namespace World

/-- Of two worlds, the second differs from the first in its cursors from the `n`-th on, and in the
marks that have been given. -/
structure Keeps (n : Nat) (w v : World) : Prop where
  rest : v = { w with cursors := v.cursors, marks := v.marks }
  size : w.cursors.size ≤ v.cursors.size
  below : ∀ i < n, v.cursors[i]? = w.cursors[i]?

namespace Keeps

variable {m n : Nat} {u v w : World}

theorem refl (n : Nat) (w : World) : Keeps n w w := ⟨rfl, Nat.le_refl _, fun _ _ => rfl⟩

theorem trans (h : Keeps n w v) (h' : Keeps n v u) : Keeps n w u where
  rest := by rw [h'.rest, h.rest]
  size := Nat.le_trans h.size h'.size
  below i hi := (h'.below i hi).trans (h.below i hi)

theorem mono (h : Keeps n w v) (hm : m ≤ n) : Keeps m w v where
  rest := h.rest
  size := h.size
  below i hi := h.below i (Nat.lt_of_lt_of_le hi hm)

theorem graphs_eq (h : Keeps n w v) : v.graphs = w.graphs := by rw [h.rest]

theorem lists_eq (h : Keeps n w v) : v.lists = w.lists := by rw [h.rest]

theorem bags_eq (h : Keeps n w v) : v.bags = w.bags := by rw [h.rest]

end Keeps

/-- Marks that are given away leave all cursors alone. -/
theorem keeps_marks (n : Nat) (w : World) (marks : Nat) : Keeps n w { w with marks } :=
  ⟨rfl, Nat.le_refl _, fun _ _ => rfl⟩

/-- A cursor that moves leaves those below it alone. -/
theorem keeps_setCursor (w : World) (place : Nat) (c : Cursor) :
    Keeps place w { w with cursors := w.cursors.setIfInBounds place c } where
  rest := rfl
  size := by simp
  below i hi := Array.getElem?_setIfInBounds_ne (Nat.ne_of_gt hi)

/-- A new cursor leaves all others alone. -/
theorem keeps_push (w : World) (c : Cursor) :
    Keeps w.cursors.size w { w with cursors := w.cursors.push c } where
  rest := rfl
  size := by simp
  below i hi := by rw [Array.getElem?_push_lt hi, Array.getElem?_eq_getElem hi]

/-! ### Handing out -/

/-- What becomes of a value that is handed out: it stays as it is, or gets the marks that it lacks. -/
inductive Handed (x : Value) : Value → Prop
  | same (hx : x.unmarked = false) : Handed x x
  | marked (hx : x.unmarked = true) (n : Nat) : Handed x (x.marked n).1

namespace Handed

variable {x x' : Value}

theorem key?_eq (hx : Handed x x') : x'.key? = x.key? := by
  cases hx with
  | same => rfl
  | marked _ n => exact Value.key?_marked n x

theorem eq_of_marked (hx : Handed x x') (hmarked : x.unmarked = false) : x' = x := by
  cases hx with
  | same => rfl
  | marked hunmarked => exact absurd (hunmarked.symm.trans hmarked) nofun

/-- A vertex stays the same vertex. -/
theorem exists_vertex {a : VertexRef} {m : Mark} (hx : Handed (.vertex a m) x') :
    ∃ m', x' = .vertex a m' := by
  cases hx with
  | same => exact ⟨m, rfl⟩
  | marked hunmarked n => exact ⟨some n, by simp [Value.marked, Value.markedAlone, hunmarked]; rfl⟩

/-- An edge stays the same edge. -/
theorem exists_edge {e : EdgeRef} {m : Mark} (hx : Handed (.edge e m) x') :
    ∃ m', x' = .edge e m' := by
  cases hx with
  | same => exact ⟨m, rfl⟩
  | marked hunmarked n => exact ⟨some n, by simp [Value.marked, Value.markedAlone, hunmarked]; rfl⟩

end Handed

theorem exists_handOut (x : Value) (w : World) :
    ∃ x' marks, handOut x w = .ok x' { w with marks } ∧ Handed x x' := by
  cases hx : x.unmarked with
  | false =>
      refine ⟨x, w.marks, ?_, .same hx⟩
      rw [handOut, hx]
      rfl
  | true =>
      refine ⟨(x.marked w.marks).1, (x.marked w.marks).2, ?_, .marked hx w.marks⟩
      rw [handOut, hx]
      rfl

/-- What is handed out one after the other. -/
theorem exists_mapM_handOut (xs : List Value) (w : World) :
    ∃ xs' marks, xs.mapM handOut w = .ok xs' { w with marks } ∧ List.Forall₂ Handed xs xs' := by
  induction xs generalizing w with
  | nil => exact ⟨[], w.marks, rfl, .nil⟩
  | cons x xs ih =>
      obtain ⟨x', marks, hx, hhanded⟩ := exists_handOut x w
      obtain ⟨xs', marks', hxs, hrest⟩ := ih { w with marks }
      refine ⟨x' :: xs', marks', ?_, .cons hhanded hrest⟩
      rw [List.mapM_cons, Act.bind_of_ok hx, Act.bind_of_ok hxs]
      rfl

/-- A new list holds its items as they are handed out. -/
theorem exists_newList (xs : List Value) (w : World) :
    ∃ xs' marks, newList xs.toArray w = .ok (.ref .list w.lists.size)
        { w with marks, lists := w.lists.push xs'.toArray } ∧
      List.Forall₂ Handed xs xs' := by
  obtain ⟨xs', marks, hxs, hhanded⟩ := exists_mapM_handOut xs w
  have hmap : xs.toArray.mapM handOut w = .ok xs'.toArray { w with marks } := by
    rw [List.mapM_toArray, map_eq_pure_bind, Act.bind_of_ok hxs]
    rfl
  refine ⟨xs', marks, ?_, hhanded⟩
  rw [newList, Act.bind_of_ok hmap]
  rfl

/-! ### Collections -/

/-- The items of a collection that is at hand. -/
def collection? (w : World) : Value → Option (List Value)
  | .str s => some (s.toList.map fun c => .str (String.singleton c))
  | .dict es _ => some (es.toList.map (·.1))
  | .set xs _ | .orderedPath xs _ => some xs.toList
  | .ref .list place => some (w.listAt place).toList
  | .ref .bag place => some (w.bagAt place).values
  | v => v.tuple?

theorem collection?_congr {v w : World} (hlists : v.lists = w.lists) (hbags : v.bags = w.bags) (x : Value) :
    v.collection? x = w.collection? x := by
  have hlist : ∀ i, v.listAt i = w.listAt i := fun i => by rw [listAt, listAt, hlists]
  have hbag : ∀ i, v.bagAt i = w.bagAt i := fun i => by rw [bagAt, bagAt, hbags]
  simp only [collection?, hlist, hbag]

/-- The cursor at a place still has to give the items of a collection at hand. -/
inductive Ready (w : World) (place : Nat) : List Value → Prop
  | items (of : ItemsOf) {xs : List Value} (h : w.cursors[place]? = some (.items of xs)) :
      Ready w place xs
  | list {l i : Nat} {xs : List Value} (h : w.cursors[place]? = some (.listFrom l (some i)))
      (hxs : (w.listAt l).toList.drop i = xs) : Ready w place xs
  | members {b : Nat} {xs : List Value}
      (h : w.cursors[place]? = some (.members b (some (w.bagAt b).size) xs)) : Ready w place xs

variable {v w : World} {place n : Nat} {xs : List Value}

/-- A cursor stays ready while lists and sets stay as they are. -/
theorem Ready.congr (h : Ready w place xs) (hcursor : v.cursors[place]? = w.cursors[place]?)
    (hlists : v.lists = w.lists) (hbags : v.bags = w.bags) : Ready v place xs := by
  cases h with
  | items of h => exact .items of (hcursor.trans h)
  | list h hxs =>
      refine .list (hcursor.trans h) ?_
      rw [listAt, hlists]
      exact hxs
  | @members b _ h =>
      have hbag : w.bagAt b = v.bagAt b := by rw [bagAt, bagAt, hbags]
      rw [hbag] at h
      exact .members (hcursor.trans h)

theorem Ready.lt_size (h : Ready w place xs) : place < w.cursors.size := by
  cases h with
  | items _ h => exact (Array.getElem?_eq_some_iff.1 h).1
  | list h => exact (Array.getElem?_eq_some_iff.1 h).1
  | members h => exact (Array.getElem?_eq_some_iff.1 h).1

theorem Ready.keep (h : Ready w place xs) (hv : Keeps n w v) (hplace : place < n) :
    Ready v place xs :=
  h.congr (hv.below place hplace) hv.lists_eq hv.bags_eq

end World

open World

variable {h : Host} {w : World} {place : Nat} {x : Value} {xs : List Value}

theorem iterateItems_eq (of : ItemsOf) (xs : List Value) :
    iterateItems of xs w = .ok (.ref .iterator w.cursors.size)
      { w with cursors := w.cursors.push (.items of xs) } := rfl

/-- A collection is read by a new cursor. -/
theorem iterate_collection {v : Value} (hv : w.collection? v = some xs) :
    ∃ c, iterate v w = .ok (.ref .iterator w.cursors.size)
        { w with cursors := w.cursors.push c } ∧
      Ready { w with cursors := w.cursors.push c } w.cursors.size xs := by
  have hitems : ∀ of, Ready { w with cursors := w.cursors.push (.items of xs) } w.cursors.size xs :=
    fun of => .items of Array.getElem?_push_size
  cases v with
  | str s => cases hv; exact ⟨_, rfl, hitems _⟩
  | dict es m => cases hv; exact ⟨_, rfl, hitems .dict⟩
  | set ys m => cases hv; exact ⟨_, rfl, hitems .set⟩
  | orderedPath ys m => cases hv; exact ⟨_, rfl, hitems .tuple⟩
  | tuple ys m => cases hv; exact ⟨_, rfl, hitems .tuple⟩
  | typedId k i => cases hv; exact ⟨_, rfl, hitems .tuple⟩
  | instruction e d c r => cases hv; exact ⟨_, rfl, hitems .tuple⟩
  | ref sort place =>
      cases sort with
      | list =>
          cases hv
          exact ⟨_, rfl, .list (i := 0) Array.getElem?_push_size rfl⟩
      | bag =>
          cases hv
          exact ⟨_, rfl, .members (b := place) Array.getElem?_push_size⟩
      | _ => cases hv
  | _ => cases hv

/-- Reading an open sequence is taking its turns. -/
theorem nextItem_of_pull {c : Cursor} {turn : M (Turn Value)} {x : Option Value} {v : World}
    (hc : w.cursors[place]? = some c) (hturn : openTurn? h place c = some turn)
    (hpull : Turn.pull .outOfFuel turn h.fuel w = .ok x v) : nextItem h place w = .ok x v := by
  have hattempt : Act.attempt (Turn.pull .outOfFuel turn h.fuel) w = .ok (.ok x) v := by
    rw [Act.attempt, hpull]
  rw [nextItem, Act.bind_of_ok (m := get) rfl, hc, Option.getD_some]
  cases c with
  | running | finished => cases hturn
  | _ =>
      simp only [hturn]
      exact (Act.bind_of_ok hattempt).trans rfl

/-- A turn that gives an item, or reports the end, settles a read. -/
theorem nextItem_of_turn {c : Cursor} {turn : M (Turn Value)} {r : Turn Value} {x : Option Value}
    {v : World} (hc : w.cursors[place]? = some c) (hturn : openTurn? h place c = some turn)
    (hr : turn w = .ok r v) (hx : x.elim .ended .give = r) (hfuel : 0 < h.fuel) :
    nextItem h place w = .ok x v := by
  obtain ⟨n, hn⟩ := Nat.exists_eq_succ_of_ne_zero (Nat.ne_of_gt hfuel)
  have hpull : Turn.pull .outOfFuel turn h.fuel w = .ok x v := by
    rw [hn, Turn.pull_succ, Act.bind_of_ok hr, ← hx]
    cases x <;> rfl
  exact nextItem_of_pull hc hturn hpull

/-- A read gives an item as it is handed out. -/
theorem pull_of_nextItem {v : World} (hnext : nextItem h place w = .ok (some x) v) :
    ∃ x' marks, h.above.pull (.ref .iterator place) w = .ok (some x') { v with marks } ∧
      Handed x x' := by
  obtain ⟨x', marks, hx, hhanded⟩ := exists_handOut x v
  refine ⟨x', marks, ?_, hhanded⟩
  change readCursor h place w = _
  rw [readCursor, Act.bind_of_ok hnext]
  exact Act.bind_of_ok hx

/-- A cursor that has moved stands where it was moved. -/
theorem getElem?_setCursor {c c' : Cursor} (hc : w.cursors[place]? = some c) :
    (w.cursors.setIfInBounds place c')[place]? = some c' :=
  Array.getElem?_setIfInBounds_self_of_lt (Array.getElem?_eq_some_iff.1 hc).1

/-- A read of a cursor that is ready moves the cursor, and marks what it hands out. -/
theorem exists_pull_ready (hready : Ready w place (x :: xs)) (hfuel : 0 < h.fuel) :
    ∃ x' c marks, h.above.pull (.ref .iterator place) w =
        .ok (some x') { w with cursors := w.cursors.setIfInBounds place c, marks } ∧
      Handed x x' ∧
      Ready { w with cursors := w.cursors.setIfInBounds place c, marks } place xs := by
  -- what is handed out is marked only after the cursor has moved
  have moved : ∃ c, nextItem h place w =
        .ok (some x) { w with cursors := w.cursors.setIfInBounds place c } ∧
      Ready { w with cursors := w.cursors.setIfInBounds place c } place xs := by
    cases hready with
    | items of hc =>
        refine ⟨.items of xs, ?_, .items of (getElem?_setCursor hc)⟩
        exact nextItem_of_turn hc rfl rfl rfl hfuel
    | @list l i _ hc hxs =>
        have hx : (w.listAt l)[i]? = some x := by
          rw [← Array.getElem?_toList, ← List.head?_drop, hxs]
          rfl
        refine ⟨.listFrom l (some (i + 1)), ?_, .list (getElem?_setCursor hc) ?_⟩
        · refine nextItem_of_turn hc rfl ?_ rfl hfuel
          rw [listTurn, Act.bind_of_ok (m := get) rfl]
          simp only [hx]
          rfl
        · change (w.listAt l).toList.drop (i + 1) = xs
          rw [← List.drop_drop, hxs]
          rfl
    | @members b _ hc =>
        refine ⟨.members b (some (w.bagAt b).size) xs, ?_, .members (getElem?_setCursor hc)⟩
        refine nextItem_of_turn hc rfl ?_ rfl hfuel
        rw [membersTurn, Act.bind_of_ok (m := get) rfl, if_pos rfl]
        rfl
  obtain ⟨c, hnext, hrest⟩ := moved
  obtain ⟨x', marks, hpull, hhanded⟩ := pull_of_nextItem hnext
  exact ⟨x', c, marks, hpull, hhanded, hrest.congr rfl rfl rfl⟩

/-- **A cursor that is ready gives the next item**, and is ready for the others. -/
theorem pull_ready_cons (hready : Ready w place (x :: xs)) (hfuel : 0 < h.fuel) :
    ∃ x' v, h.above.pull (.ref .iterator place) w = .ok (some x') v ∧ Handed x x' ∧
      Ready v place xs ∧ Keeps place w v := by
  obtain ⟨x', c, marks, hpull, hhanded, hrest⟩ := exists_pull_ready hready hfuel
  exact ⟨x', _, hpull, hhanded, hrest, (keeps_setCursor w place c).trans (keeps_marks place _ marks)⟩

/-- A read of a cursor that has given everything moves no cursor but it. -/
theorem exists_pull_ready_nil (hready : Ready w place []) (hfuel : 0 < h.fuel) :
    ∃ cs, h.above.pull (.ref .iterator place) w = .ok none { w with cursors := cs } ∧
      cs.size = w.cursors.size ∧ ∀ i, i ≠ place → cs[i]? = w.cursors[i]? := by
  have moved : ∀ c, (w.cursors.setIfInBounds place c).size = w.cursors.size ∧
      ∀ i, i ≠ place → (w.cursors.setIfInBounds place c)[i]? = w.cursors[i]? :=
    fun c => ⟨by simp, fun i hi => Array.getElem?_setIfInBounds_ne hi.symm⟩
  have ended : ∃ cs, nextItem h place w = .ok none { w with cursors := cs } ∧
      cs.size = w.cursors.size ∧ ∀ i, i ≠ place → cs[i]? = w.cursors[i]? := by
    cases hready with
    | items of hc =>
        exact ⟨w.cursors, nextItem_of_turn hc rfl rfl rfl hfuel, rfl, fun _ _ => rfl⟩
    | @list l i _ hc hxs =>
        have hx : (w.listAt l)[i]? = none := by
          rw [← Array.getElem?_toList, ← List.head?_drop, hxs]
          rfl
        refine ⟨_, ?_, moved (.listFrom l none)⟩
        refine nextItem_of_turn hc rfl ?_ rfl hfuel
        rw [listTurn, Act.bind_of_ok (m := get) rfl]
        simp only [hx]
        rfl
    | @members b _ hc =>
        refine ⟨_, ?_, moved (.items .set [])⟩
        refine nextItem_of_turn hc rfl ?_ rfl hfuel
        rw [membersTurn, Act.bind_of_ok (m := get) rfl, if_pos rfl]
        rfl
  obtain ⟨cs, hnext, hmoved⟩ := ended
  refine ⟨cs, ?_, hmoved⟩
  change readCursor h place w = _
  rw [readCursor, Act.bind_of_ok hnext]
  rfl

/-- **A cursor that has given everything reports the end.** -/
theorem pull_ready_nil (hready : Ready w place []) (hfuel : 0 < h.fuel) :
    ∃ v, h.above.pull (.ref .iterator place) w = .ok none v ∧ Keeps place w v := by
  obtain ⟨cs, hpull, hsize, hcs⟩ := exists_pull_ready_nil hready hfuel
  exact ⟨_, hpull, ⟨rfl, Nat.le_of_eq hsize.symm, fun i hi => hcs i (Nat.ne_of_lt hi)⟩⟩

/-- **A loop over a collection** runs through its items, as they are handed out, whatever its turns do
to new cursors. -/
theorem foldFrom_turns {β : Type} {f : β → Value → M β} (R : List Value → β → Prop)
    (hf : ∀ ys x x' b u, x ∈ xs → Handed x x' → R ys b → Keeps place w u →
      ∃ b' v, f b x' u = .ok b' v ∧ R (ys ++ [x]) b' ∧ Keeps u.cursors.size u v)
    (hready : Ready w place xs) (hfuel : 0 < h.fuel) {n : Nat} (hn : xs.length < n)
    {ys : List Value} {b : β} (hb : R ys b) :
    ∃ b' v, h.above.foldFrom f (.ref .iterator place) n b w = .ok b' v ∧ R (ys ++ xs) b' ∧
      Keeps place w v := by
  induction xs generalizing w n ys b with
  | nil =>
      obtain ⟨n, rfl⟩ := Nat.exists_eq_succ_of_ne_zero (Nat.ne_of_gt hn)
      obtain ⟨v, hpull, hkeeps⟩ := pull_ready_nil hready hfuel
      refine ⟨b, v, ?_, by rwa [List.append_nil], hkeeps⟩
      rw [Host.foldFrom, Act.bind_of_ok hpull]
      rfl
  | cons x xs ih =>
      obtain ⟨n, rfl⟩ := Nat.exists_eq_succ_of_ne_zero (Nat.ne_of_gt (Nat.zero_lt_of_lt hn))
      obtain ⟨x', v, hpull, hhanded, hrest, hkeeps⟩ := pull_ready_cons hready hfuel
      obtain ⟨b', v', hturn, hb', hturned⟩ := hf ys x x' b v List.mem_cons_self hhanded hb hkeeps
      have hkeeps' : Keeps place w v' := hkeeps.trans (hturned.mono (Nat.le_of_lt hrest.lt_size))
      obtain ⟨b'', u, hfold, hb'', hkeeps''⟩ :=
        ih (fun ys y y' b u hy hhanded hb hu =>
            hf ys y y' b u (List.mem_cons_of_mem x hy) hhanded hb (hkeeps'.trans hu))
          (hrest.keep hturned hrest.lt_size) (Nat.lt_of_succ_lt_succ hn) hb'
      refine ⟨b'', u, ?_, by rwa [List.append_assoc] at hb'', hkeeps'.trans hkeeps''⟩
      rw [Host.foldFrom, Act.bind_of_ok hpull]
      exact (Act.bind_of_ok hturn).trans hfold

/-- A loop over a collection whose turns leave the world alone. -/
theorem foldFrom_ready {β : Type} {f : β → Value → M β} (R : List Value → β → Prop)
    (hf : ∀ ys x x' b u, x ∈ xs → Handed x x' → R ys b →
      ∃ b', f b x' u = .ok b' u ∧ R (ys ++ [x]) b')
    (hready : Ready w place xs) (hfuel : 0 < h.fuel) {n : Nat} (hn : xs.length < n)
    {ys : List Value} {b : β} (hb : R ys b) :
    ∃ b' v, h.above.foldFrom f (.ref .iterator place) n b w = .ok b' v ∧ R (ys ++ xs) b' ∧
      Keeps place w v := by
  refine foldFrom_turns R (fun ys x x' b u hx hhanded hb _ => ?_) hready hfuel hn hb
  obtain ⟨b', hturn, hb'⟩ := hf ys x x' b u hx hhanded hb
  exact ⟨b', u, hturn, hb', .refl _ u⟩

/-! ### Restrictions to labels -/

/-- The labels that a value stands for: a text is one label, and nothing stands for none. -/
def World.labels? (w : World) : Value → Option (List Value)
  | .null => some []
  | .str s => some [.str s]
  | v => w.collection? v

/-- Whether a label is let pass: no labels let everything pass. -/
def admits (ls : List Value) (label : Value) : Bool :=
  ls.isEmpty || ls.any fun l => l.key? == label.key?

/-- What a step lets pass that is restricted to these keys. -/
def passes (keys : Option (Std.HashSet Key)) (k : Key) : Bool := keys.all fun keys => keys.contains k

/-- The names of a set are their own keys' names, each key is there once, and the keys are those of the
values `ys`. -/
structure Bag.Holds (b : Bag) (ys : List Value) : Prop where
  keyed : ∀ e ∈ b.toList, e.name.key? = some e.key
  distinct : b.keys.Nodup
  mem_keys_iff : ∀ k, k ∈ b.keys ↔ ∃ y ∈ ys, y.key? = some k

variable {ls ms : List Value} {b : Bag}

theorem Bag.holds_empty : Bag.Holds .empty [] where
  keyed _ he := nomatch he
  distinct := List.nodup_nil
  mem_keys_iff k := by simp [Dictionary.keys, Dictionary.toList, Dictionary.empty]

/-- One member more is held. -/
theorem Bag.Holds.add {y y' : Value} {k : Key} (hb : b.Holds ls) (hy : y.key? = some k)
    (hy' : y'.key? = some k) : Bag.Holds (b.add k y') (ls ++ [y]) := by
  have hkeys : ∀ k', (∃ x ∈ ls ++ [y], x.key? = some k') ↔ k' ∈ b.keys ∨ k' = k := by
    intro k'
    simp only [hb.mem_keys_iff, List.mem_append, List.mem_singleton, or_and_right, exists_or,
      exists_eq_left, hy, Option.some.injEq]
    exact or_congr_right eq_comm
  by_cases hk : k ∈ b.keys
  · have hlist := Dictionary.toList_put_of_mem y' () hk hb.distinct
    refine ⟨fun e he => ?_, ?_, fun k' => ?_⟩
    · rw [Bag.add, hlist, List.mem_map] at he
      obtain ⟨x, hx, rfl⟩ := he
      have hkeyed := hb.keyed x hx
      split <;> exact hkeyed
    · rw [Bag.add, Dictionary.put, Dictionary.keys_adjust, if_pos hk]
      exact hb.distinct
    · rw [hkeys, Bag.add, Dictionary.put, Dictionary.keys_adjust, if_pos hk]
      exact ⟨.inl, fun h' => h'.elim id fun he => he ▸ hk⟩
  · have hlist := Dictionary.toList_put_of_notMem y' () hk
    refine ⟨fun e he => ?_, ?_, fun k' => ?_⟩
    · rw [Bag.add, hlist, List.mem_append, List.mem_singleton] at he
      rcases he with he | rfl
      · exact hb.keyed e he
      · exact hy'
    · rw [Bag.add, Dictionary.put, Dictionary.keys_adjust, if_neg hk]
      refine List.nodup_append.2 ⟨hb.distinct, by simp, fun x hx z hz => ?_⟩
      rintro rfl
      exact hk (List.mem_singleton.1 hz ▸ hx)
    · rw [hkeys, Bag.add, Dictionary.put, Dictionary.keys_adjust, if_neg hk, List.mem_append,
        List.mem_singleton]

theorem Bag.Holds.exists_mem_values_iff (hb : b.Holds ls) {k : Key} :
    (∃ m ∈ b.values, m.key? = some k) ↔ ∃ l ∈ ls, l.key? = some k := by
  rw [← hb.mem_keys_iff, Bag.values, Dictionary.keys, List.mem_map]
  constructor
  · rintro ⟨m, hm, hk⟩
    obtain ⟨e, he, rfl⟩ := List.mem_map.1 hm
    exact ⟨e, he, Option.some.inj ((hb.keyed e he).symm.trans hk)⟩
  · rintro ⟨e, he, rfl⟩
    exact ⟨e.name, List.mem_map_of_mem he, hb.keyed e he⟩

theorem spell_of_key? {v : Value} {k : Key} (hk : v.key? = some k) : v.spell = k := by
  rw [Value.key?] at hk
  split at hk
  · exact Option.some.inj hk
  · cases hk

/-- What a restriction lets pass, if all of its labels have keys. -/
theorem admits_eq_true_iff {label : Value} {k : Key} (hk : label.key? = some k) :
    admits ls label = true ↔ ls = [] ∨ ∃ l ∈ ls, l.key? = some k := by
  rw [admits, Bool.or_eq_true, List.isEmpty_iff, List.any_eq_true, hk]
  simp only [beq_iff_eq]

/-- Of the labels of a restriction only their keys count. -/
theorem admits_congr (hms : ∀ k, (∃ m ∈ ms, m.key? = some k) ↔ ∃ l ∈ ls, l.key? = some k)
    (hm : ∀ m ∈ ms, m.key?.isSome) (hl : ∀ l ∈ ls, l.key?.isSome) {label : Value} {k : Key}
    (hk : label.key? = some k) : admits ms label = admits ls label := by
  have hnil : ∀ {xs ys : List Value}, (∀ x ∈ xs, x.key?.isSome) →
      (∀ k, (∃ x ∈ xs, x.key? = some k) → ∃ y ∈ ys, y.key? = some k) → ys = [] → xs = [] := by
    rintro xs _ hx hxy rfl
    refine List.eq_nil_iff_forall_not_mem.2 fun x hmem => ?_
    obtain ⟨k, hk⟩ := Option.isSome_iff_exists.1 (hx x hmem)
    obtain ⟨y, hy, -⟩ := hxy k ⟨x, hmem, hk⟩
    cases hy
  rw [Bool.eq_iff_iff, admits_eq_true_iff hk, admits_eq_true_iff hk, hms]
  exact or_congr_left ⟨hnil hl fun k => (hms k).2, hnil hm fun k => (hms k).1⟩

/-- Keys pass if they are among the spellings. -/
theorem passes_spelled (hms : ∀ m ∈ ms, m.key?.isSome) {label : Value} {k : Key}
    (hk : label.key? = some k) :
    passes (if ms.isEmpty then none else some (.ofList (ms.map Value.spell))) k =
      admits ms label := by
  have hspell : ∀ m ∈ ms, m.spell = k ↔ m.key? = some k := by
    intro m hm
    obtain ⟨k', hk'⟩ := Option.isSome_iff_exists.1 (hms m hm)
    rw [spell_of_key? hk', hk', Option.some.injEq]
  rw [Bool.eq_iff_iff, admits_eq_true_iff hk]
  cases ms with
  | nil => simp [passes]
  | cons m ms =>
      simp only [passes, List.isEmpty_cons, Bool.false_eq_true, if_false, Option.all_some,
        Std.HashSet.contains_ofList, List.contains_iff_mem, List.mem_map, reduceCtorEq, false_or]
      exact exists_congr fun x => and_congr_right fun hx => hspell x hx

/-- The items of a collection without repetitions have the keys of the collection. -/
theorem distinctItems_eq {v : Value} (hv : w.collection? v = some ls)
    (hls : ∀ l ∈ ls, l.key?.isSome) (hfuel : ls.length < h.fuel) :
    ∃ b u, h.above.distinctItems v w = .ok b u ∧ b.Holds ls ∧ Keeps w.cursors.size w u := by
  obtain ⟨c, hiterate, hready⟩ := iterate_collection hv
  have hturn : ∀ ys x x' (b : Bag) u, x ∈ ls → Handed x x' → b.Holds ys →
      ∃ b', (do
        let k ← keyOf x'
        pure (b.add k x') : M Bag) u = .ok b' u ∧ b'.Holds (ys ++ [x]) := by
    intro ys x x' b u hx hhanded hb
    obtain ⟨k, hk⟩ := Option.isSome_iff_exists.1 (hls x hx)
    refine ⟨b.add k x', ?_, hb.add hk (hhanded.key?_eq.trans hk)⟩
    rw [keyOf, hhanded.key?_eq, hk]
    rfl
  obtain ⟨b, u, hfold, hb, hkeeps⟩ := foldFrom_ready (h := h) (fun ys (b : Bag) => b.Holds ys) hturn
    hready (Nat.zero_lt_of_lt hfuel) hfuel Bag.holds_empty
  refine ⟨b, u, ?_, by rwa [List.nil_append] at hb, (keeps_push w c).trans hkeeps⟩
  rw [Host.distinctItems, Act.bind_of_ok hiterate]
  exact hfold

/-- The keys of the members of a set are those of a restriction to it. -/
theorem labelKeys_of_labelSet {v : Value} {u : World} {xs : Indexed Key Value} {m : Mark}
    (hset : h.labelSet v w = .ok (if xs.size != 0 then some (.set xs m) else none) u) :
    h.labelKeys v w = .ok (if xs.toList.isEmpty then none else
      some (.ofList (xs.toList.map Value.spell))) u := by
  have hempty : xs.toList.isEmpty = !(xs.size != 0) := by
    rw [Bool.eq_iff_iff, List.isEmpty_iff, ← List.length_eq_zero_iff]
    simp [Indexed.toList, Indexed.size]
  rw [Host.labelKeys, Act.bind_of_ok hset, hempty]
  cases xs.size != 0 <;> rfl

/-- The members of what is neither nothing nor a text make up a restriction. -/
theorem labelSet_of_setOf {v : Value} {u : World} {xs : Indexed Key Value} {m : Mark}
    (hnull : v ≠ .null) (htext : ∀ s, v ≠ .str s) (hset : h.setOf v w = .ok (.set xs m) u) :
    h.labelSet v w = .ok (if xs.size != 0 then some (.set xs m) else none) u := by
  have hmembers : h.labelSet v = (do
      let members ← h.setOf v
      let any ← isTrue members
      pure (if any then some members else none)) := by
    cases v with
    | null => exact absurd rfl hnull
    | str s => exact absurd rfl (htext s)
    | _ => rfl
  rw [hmembers, Act.bind_of_ok hset]
  rfl

/-- A restriction to a set lets pass what a restriction to labels with the same keys lets pass. -/
theorem exists_labelKeys {v : Value} {u : World} {xs : Indexed Key Value} {m : Mark}
    (hset : h.labelSet v w = .ok (if xs.size != 0 then some (.set xs m) else none) u)
    (hxs : ∀ x ∈ xs.toList, x.key?.isSome) (hls : ∀ l ∈ ls, l.key?.isSome)
    (hmem : ∀ k, (∃ x ∈ xs.toList, x.key? = some k) ↔ ∃ l ∈ ls, l.key? = some k)
    (hkeeps : Keeps w.cursors.size w u) :
    ∃ keys u, h.labelKeys v w = .ok keys u ∧
      (∀ label k, label.key? = some k → passes keys k = admits ls label) ∧
      Keeps w.cursors.size w u := by
  refine ⟨_, u, labelKeys_of_labelSet hset, fun label k hk => ?_, hkeeps⟩
  rw [passes_spelled hxs hk, admits_congr hmem hxs hls hk]

/-- **What a restriction to labels lets pass** are the labels that it stands for; if there are none, it
is everything. -/
theorem labelKeys_eq {v : Value} (hv : w.labels? v = some ls) (hls : ∀ l ∈ ls, l.key?.isSome)
    (hfuel : ls.length < h.fuel) :
    ∃ keys u, h.above.labelKeys v w = .ok keys u ∧
      (∀ label k, label.key? = some k → passes keys k = admits ls label) ∧
      Keeps w.cursors.size w u := by
  have ofItems : v ≠ .null → (∀ s, v ≠ .str s) → w.collection? v = some ls →
      (h.above.setOf v = do
        let members ← h.above.distinctItems v
        pure (.set members.members none)) →
      ∃ keys u, h.above.labelKeys v w = .ok keys u ∧
        (∀ label k, label.key? = some k → passes keys k = admits ls label) ∧
        Keeps w.cursors.size w u := by
    intro hnull htext hcollection hsetOf
    obtain ⟨b, u, hdistinct, hb, hkeeps⟩ := distinctItems_eq hcollection hls hfuel
    have hset : h.above.setOf v w = .ok (.set b.members none) u := by
      rw [hsetOf, Act.bind_of_ok hdistinct]
      rfl
    have hvalues : b.members.toList = b.values := by
      simp [Bag.members, Bag.values, Dictionary.indexed, Indexed.toList, Dictionary.toList]
    refine exists_labelKeys (labelSet_of_setOf hnull htext hset) ?_ hls ?_ hkeeps
    · rw [hvalues]
      intro x hx
      obtain ⟨e, he, rfl⟩ := List.mem_map.1 hx
      exact Option.isSome_iff_exists.2 ⟨_, hb.keyed e he⟩
    · rw [hvalues]
      exact fun k => hb.exists_mem_values_iff
  cases v with
  | null =>
      cases hv
      exact ⟨none, w, rfl, fun _ _ _ => rfl, .refl _ w⟩
  | str s =>
      cases hv
      have hset : h.above.labelSet (.str s) w =
          .ok (if (Indexed.ofList Value.spell [.str s]).size != 0 then
            some (.set (.ofList Value.spell [.str s]) none) else none) w := rfl
      exact exists_labelKeys hset hls hls (fun _ => .rfl) (.refl _ w)
  | set xs m =>
      cases hv
      exact exists_labelKeys (labelSet_of_setOf (by simp) (by simp) rfl) hls hls (fun _ => .rfl)
        (.refl _ w)
  | _ => exact ofItems (by simp) (by simp) hv rfl

end GraphRoutes.Session
