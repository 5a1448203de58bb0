/-
**What a program is told of a lineage.**

The lineage of an element is read off its links: as a list, from the root to the element, or item by
item, from the element back to the root.  The links know nothing but the form of the element, so both
ways tell the forms of the path of that form.  Two lists of elements are equal if they are item by item.

Main definitions:

* `GraphRoutes.Session.Alike` — elements that differ in nothing but their marks;
* `GraphRoutes.Session.readBack` — a lineage that is read back to its root.

Main results:

* `GraphRoutes.Session.exists_lineage` — the items of a lineage have the forms on the path;
* `GraphRoutes.Session.callOp_path`, `GraphRoutes.Session.readBack_eq` — **a lineage as a list**, from the
  root and back to it;
* `GraphRoutes.Session.callOp_equal_lists` — a comparison of lists of elements compares their keys.
-/
import GraphRoutes.Proofs.Session.Layers
import GraphRoutes.Proofs.Session.Tracking

set_option relaxedAutoImplicit false
set_option autoImplicit false

namespace GraphRoutes.Session

open World

variable {x y : Value} {as : List Node} {xs ys : List Value} {u v w : World} {h H : Host} {n : ℕ}

/-! ### Forms of items -/

/-- Elements that differ in nothing but their marks. -/
structure Alike (x y : Value) : Prop where
  form_eq : x.form = y.form
  same : ∀ w : World, w.same x y = .ok true

/-- A value that is not called a wrapper without being one. -/
def Value.Genuine (x : Value) : Prop := ∀ v, x ≠ .tracked (.plain v)

/-- What has no layer in its form has none. -/
theorem Value.Genuine.node_eq (hgenuine : x.Genuine) (hplain : x.form.tracked = false) :
    x.node = .plain x := by
  cases x with
  | tracked a =>
      cases a with
      | plain => exact absurd rfl (hgenuine _)
      | root | via => cases hplain
  | _ => rfl

theorem Value.genuine_ofNode {a : Node} (ha : a.base.sort.isSome = true) : (ofNode a).Genuine := by
  intro v hv
  cases a with
  | plain =>
      obtain rfl : _ = tracked (.plain v) := hv
      cases ha
  | root | via => cases hv

theorem World.Handed.genuine {x' : Value} (hx : Handed x x') (hgenuine : x.Genuine) : x'.Genuine := by
  cases hx with
  | same => exact hgenuine
  | marked _ n =>
      intro v hv
      cases x with
      | tracked a =>
          cases a with
          | plain => exact hgenuine _ rfl
          | root l b m => cases m <;> cases hv
          | via l b p m => cases m <;> cases hv
      | _ =>
          change (Value.markedAlone n _).1 = _ at hv
          rw [Value.markedAlone] at hv
          split at hv <;> cases hv

/-- The form of an element that is taken as a value. -/
theorem Value.form_ofNode {a : Node} (ha : a.base.sort.isSome = true) :
    (ofNode a).form = a.unmark (withMark none) := by
  rw [form, node_ofNode ha]

theorem Value.ofGraph_of_form {a : Node} (ha : a.base.sort.isSome = true) (hx : x.form = a) :
    x.ofGraph = true := by
  rw [ofGraph, ← sort_withMark none, ← base_form, hx]
  exact ha

/-- Lists of elements that have the same forms are alike, item by item. -/
theorem forall₂_alike (hxs : ∀ x ∈ xs, x.ofGraph = true) (h : xs.map Value.form = ys.map Value.form) :
    List.Forall₂ Alike xs ys := by
  induction xs generalizing ys with
  | nil =>
      obtain rfl := List.map_eq_nil_iff.1 h.symm
      exact .nil
  | cons x xs ih =>
      obtain ⟨y, ys, rfl, hy, hys⟩ := List.map_eq_cons_iff.1 h.symm
      have hx := hxs x List.mem_cons_self
      have hsort : x.form.base.sort.isSome = true := by
        rw [Value.base_form, Value.sort_withMark]
        exact hx
      have halike : Alike x y :=
        ⟨hy.symm, same_of_form hx (Value.ofGraph_of_form hsort hy) hy.symm⟩
      exact .cons halike (ih (fun x hx => hxs x (List.mem_cons_of_mem _ hx)) hys.symm)

theorem genuine_of_handed (hxs : List.Forall₂ Handed xs ys) (hgenuine : ∀ x ∈ xs, x.Genuine) :
    ∀ y ∈ ys, y.Genuine := by
  induction hxs with
  | nil => exact hgenuine
  | cons hx _ ih =>
      rw [List.forall_mem_cons] at hgenuine ⊢
      exact ⟨hx.genuine hgenuine.1, ih hgenuine.2⟩

theorem map_form_of_handed (hxs : List.Forall₂ Handed xs ys) : ys.map Value.form = xs.map Value.form := by
  induction hxs with
  | nil => rfl
  | cons hx _ ih => rw [List.map_cons, List.map_cons, hx.form_eq, ih]

/-! ### From the root -/

/-- **The items of a lineage** have the forms on the path of the form. -/
theorem exists_lineage (hx : x.form.path? = some as) (has : ∀ a ∈ as, a.base.sort.isSome = true)
    (w : World) :
    ∃ xs, lineage x w = .ok xs w ∧ xs.map Value.form = as ∧ ∀ y ∈ xs, y.Genuine := by
  rw [Value.form, Element.path?_unmark] at hx
  obtain ⟨items, hitems, rfl⟩ := Option.map_eq_some_iff.1 hx
  have hsort : ∀ a ∈ items, a.base.sort.isSome = true := by
    intro a ha
    have hform := has _ (List.mem_map_of_mem ha)
    rwa [Element.base_unmark, Value.sort_withMark] at hform
  refine ⟨items.map Value.ofNode, ?_, ?_, ?_⟩
  · rw [lineage, hitems]
    rfl
  · rw [List.map_map]
    exact List.map_congr_left fun a ha => Value.form_ofNode (hsort a ha)
  · intro y hy
    obtain ⟨a, ha, rfl⟩ := List.mem_map.1 hy
    exact Value.genuine_ofNode (hsort a ha)

/-- **A lineage as a list**, from the root to the element. -/
theorem callOp_path (hx : x.form.path? = some as) (has : ∀ a ∈ as, a.base.sort.isSome = true)
    (H : Host) (w : World) :
    ∃ (xs : List Value) (marks : ℕ), H.callOp .path [x] [] w = .ok (.ref .list w.lists.size)
        { w with marks, lists := w.lists.push xs.toArray } ∧
      xs.map Value.form = as ∧ ∀ y ∈ xs, y.Genuine := by
  obtain ⟨items, hlineage, hforms, hgenuine⟩ := exists_lineage hx has w
  obtain ⟨xs, marks, hlist, hhanded⟩ := exists_newList items w
  have hperform : H.perform .path { bound := [some x], extra := [] } w =
      .ok (.ref .list w.lists.size) { w with marks, lists := w.lists.push xs.toArray } :=
    (Act.bind_of_ok hlineage).trans hlist
  exact ⟨xs, marks, (callOp_of_ok rfl hperform).trans rfl, (map_form_of_handed hhanded).trans hforms,
    genuine_of_handed hhanded hgenuine⟩

/-! ### Back to the root -/

/-- The links of a wrapper are given one by one, to the root. -/
theorem runs_links (a : Node) (ha : a.brokenAt? = none)
    (hlinks : ∀ b ∈ a.links, b.base.sort.isSome = true) (w : World) :
    Runs h 0 1 (.element False) (.links (some a)) (a.links.map (Element.unmark (Value.withMark none)))
      ∅ w := by
  have hclosed : ∀ p, Closed (.links p) := fun p => ⟨nofun, nofun, fun _ _ => rfl⟩
  have hempty : ∀ v : World, Has ∅ v := fun _ _ hi => hi.elim
  have hdivides : ∀ n, Divides ∅ n ∅ ∅ := fun n =>
    ⟨Set.empty_subset _, Set.empty_subset _, fun _ hi => hi.elim⟩
  have hholds : ∀ {b : Node} (v : World), b.base.sort.isSome = true →
      (Meaning.element False).holds (b.unmark (Value.withMark none)) (.ofNode b) ∅ v :=
    fun v hb => ⟨rfl, Value.form_ofNode hb, fun hasked => hasked.elim⟩
  induction a generalizing w with
  | plain => cases ha
  | root l b m =>
      refine ⟨hclosed _, hempty w, fun n fuel _ hfuel v _ => ?_⟩
      obtain ⟨fuel, rfl⟩ := Nat.exists_eq_succ_of_ne_zero (Nat.ne_of_gt hfuel)
      refine ⟨_, _, v, ∅, ∅, Machine.pull_of_give rfl fuel, .refl ∅ v, hdivides _,
        hholds v (hlinks b List.mem_cons_self), hclosed _, hempty v, fun n fuel _ hfuel v' _ => ?_⟩
      obtain ⟨fuel, rfl⟩ := Nat.exists_eq_succ_of_ne_zero (Nat.ne_of_gt hfuel)
      exact ⟨none, v', Machine.pull_of_finish rfl fuel, .refl ∅ v'⟩
  | via l b p m _ ih =>
      refine ⟨hclosed _, hempty w, fun n fuel _ hfuel v _ => ?_⟩
      obtain ⟨fuel, rfl⟩ := Nat.exists_eq_succ_of_ne_zero (Nat.ne_of_gt hfuel)
      exact ⟨_, _, v, ∅, ∅, Machine.pull_of_give rfl fuel, .refl ∅ v, hdivides _,
        hholds v (hlinks b List.mem_cons_self),
        ih ha (fun c hc => hlinks c (List.mem_cons_of_mem b hc)) v⟩

/-- The links of an element that can be read to its root are the items of its path, marks apart. -/
theorem Value.links_of_form (hx : x.form.path? = some as) (htracked : x.isTracked = true)
    (has : ∀ a ∈ as, a.base.sort.isSome = true) :
    x.node.brokenAt? = none ∧ x.node.links.map (Element.unmark (withMark none)) = as.reverse ∧
      ∀ b ∈ x.node.links, b.base.sort.isSome = true := by
  rw [Value.form, Element.path?_unmark] at hx
  obtain ⟨items, hitems, rfl⟩ := Option.map_eq_some_iff.1 hx
  obtain ⟨hbroken, hlinks⟩ := Element.links_of_path? htracked hitems
  refine ⟨hbroken, by rw [hlinks, List.map_reverse], fun b hb => ?_⟩
  rw [hlinks, List.mem_reverse] at hb
  have hsort := has _ (List.mem_map_of_mem hb)
  rwa [Element.base_unmark, Value.sort_withMark] at hsort

/-- The lineage of an element, read back to the root, as a list. -/
def readBack (H : Host) (x : Value) : M Value := do
  let r ← H.callOp .reversePath [x] []
  H.callOp .listOf [r] []

/-- **A lineage that is read back to its root.** -/
theorem readBack_eq (hx : x.form.path? = some as) (htracked : x.isTracked = true)
    (has : ∀ a ∈ as, a.base.sort.isSome = true) (hn : 1 ≤ n) (hfuel : as.length < h.fuel) (w : World) :
    ∃ (ys : List Value) (v : World), readBack (h.up n) x w = .ok (.ref .list w.lists.size) v ∧
      v.lists = w.lists.push ys.toArray ∧ ys.map Value.form = as.reverse := by
  let t : World := { w with histories := w.histories.push x }
  have hhistory : (h.up n).callOp .reversePath [x] [] w = .ok (.ref .history w.histories.size) t :=
    (callOp_of_ok (u := t) rfl rfl).trans rfl
  obtain ⟨hbroken, hform, hlinks⟩ := Value.links_of_form hx htracked has
  obtain ⟨u, hnew, huses, hit⟩ := exists_newCursor (h := h) (runs_links x.node hbroken hlinks t)
    (Nat.zero_lt_of_lt hfuel)
  have hiterate : iterate (.ref .history w.histories.size) t = .ok (.ref .iterator t.cursors.size) u := by
    rw [iterate, Act.bind_of_ok (m := get) rfl]
    simp only [t, Array.getElem?_push_size, Option.getD_some, htracked, if_true]
    exact hnew
  obtain ⟨xs, v, hgives, hgiven, hxs⟩ := hit.gives hn
  have hforms : xs.map Value.form = as.reverse := by
    rw [map_form_of_holds hxs, hform]
  have hlength : xs.length < (h.up n).fuel := by
    rw [Host.fuel_up, ← List.length_map (f := Value.form), hforms, List.length_reverse]
    exact hfuel
  have hread : (h.up n).items (.ref .history w.histories.size) t = .ok xs v :=
    (Act.bind_of_ok hiterate).trans (hgives.drain hlength)
  obtain ⟨ys, marks, hlist, hhanded⟩ := exists_newList xs v
  have hv : Spares ∅ t v := huses.empty.trans hgiven
  have hlists : v.lists = w.lists := hv.lists_eq
  refine ⟨ys, { v with marks, lists := v.lists.push ys.toArray }, ?_, ?_,
    (map_form_of_handed hhanded).trans hforms⟩
  · rw [readBack, Act.bind_of_ok hhistory]
    have hperform : (h.up n).perform .listOf
        { bound := [some (.ref .history w.histories.size)], extra := [] } t =
          .ok (.ref .list v.lists.size) { v with marks, lists := v.lists.push ys.toArray } :=
      (Act.bind_of_ok hread).trans hlist
    rw [callOp_of_ok rfl hperform, hlists]
    rfl
  · rw [← hlists]

/-! ### Lists of elements -/

/-- Two lists that were made one after the other. -/
theorem listAt_of_push {ls : Array (Array Value)} {as bs : Array Value}
    (hv : v.lists = (ls.push as).push bs) : v.listAt ls.size = as ∧ v.listAt (ls.push as).size = bs := by
  have hlt : ls.size < (ls.push as).size := by
    rw [Array.size_push]
    exact Nat.lt_succ_self _
  constructor
  · rw [listAt, hv, Array.getElem?_push_lt hlt, Array.getElem_push_eq, Option.getD_some]
  · rw [listAt, hv, Array.getElem?_push_size, Option.getD_some]

/-- Lists of elements of one length are compared by their keys. -/
theorem pairwise_of_ofGraph (hxs : ∀ x ∈ xs, x.ofGraph = true) (hys : ∀ y ∈ ys, y.ofGraph = true)
    (hlength : xs.length = ys.length) (w : World) (depth : ℕ) :
    pairwise (w.sameTo (depth + 1)) xs ys = .ok (xs.map Value.key? == ys.map Value.key?) := by
  induction xs generalizing ys with
  | nil =>
      obtain rfl := List.length_eq_zero_iff.1 hlength.symm
      rfl
  | cons x xs ih =>
      obtain ⟨y, ys, rfl⟩ := List.exists_cons_of_length_eq_add_one hlength.symm
      have hsame := w.sameTo_of_ofGraph (hxs x List.mem_cons_self) (hys y List.mem_cons_self) depth
      rw [pairwise, hsame, List.map_cons, List.map_cons, List.cons_beq_cons]
      cases x.key? == y.key? with
      | false => rfl
      | true =>
          exact ih (fun x hx => hxs x (List.mem_cons_of_mem _ hx))
            (fun y hy => hys y (List.mem_cons_of_mem _ hy)) (Nat.succ.inj hlength)

/-- **Two lists of elements are equal** if they hold the same keys, in order. -/
theorem callOp_equal_lists {p q : ℕ} (hpq : p ≠ q) (hxs : ∀ x ∈ (w.listAt p).toList, x.ofGraph = true)
    (hys : ∀ y ∈ (w.listAt q).toList, y.ofGraph = true)
    (hlength : (w.listAt p).toList.length = (w.listAt q).toList.length) (negated : Bool) :
    H.callOp (.equal negated) [.ref .list p, .ref .list q] [] w =
      .ok (.bool ((((w.listAt p).toList.map Value.key?) == ((w.listAt q).toList.map Value.key?)) !=
        negated)) w := by
  have hsame : areSame (.ref .list p) (.ref .list q) w =
      .ok (((w.listAt p).toList.map Value.key?) == ((w.listAt q).toList.map Value.key?)) w := by
    have hpairwise := pairwise_of_ofGraph hxs hys hlength w 19998
    have hsameTo : w.same (.ref .list p) (.ref .list q) =
        sameTo.outlined w 19999 (.ref .list p) (.ref .list q) := by
      rw [same, depthLimit, sameTo]
      simp [hpq]
    rw [areSame, look, hsameTo, sameTo.outlined, outline, outline, hlength]
    simp only [beq_self_eq_true, if_true, hpairwise]
  have hperform : H.perform (.equal negated)
      { bound := [some (.ref .list p), some (.ref .list q)], extra := [] } w = _ :=
    asValue_of_ok ((Act.bind_of_ok hsame).trans rfl)
  exact (callOp_of_ok rfl hperform).trans rfl

end GraphRoutes.Session
