/-
**Kinds of paths, and what they answer.**

A descent keeps its path as a tuple, a list, a set or a path in order.  The kinds differ in what they keep: a
set collapses equal items and forgets their order, a path in order tells its members by keys that it keeps
beside its items, and a list lives in the world, where a new one is made for each element.  Whatever they keep,
they stand for the row of the items that they were made of, and that is all that can be asked of them:
whether a value is among the items, and, but for a set, which they are.

What a path stands for is kept as a descent goes on, through every extension and every new beginning.

Main definitions:

* `GraphRoutes.Session.PathKind` — the kinds;
* `GraphRoutes.Session.World.Stands` — a path stands for a row of items;
* `GraphRoutes.Session.holdsKey` — what all kinds answer.

Main results:

* `GraphRoutes.Session.World.Stands.exists_extend`, `GraphRoutes.Session.World.Stands.exists_restart` — **a
  path goes on to stand for its items** below an element, and where it begins anew;
* `GraphRoutes.Session.World.Stands.contains` — **all kinds answer alike** whether a value is among the items;
* `GraphRoutes.Session.World.Stands.pathItems?_eq` — and those that have an order, which items these are.
-/
import GraphRoutes.Proofs.Session.Collections
import GraphRoutes.Session.Descents
import GraphRoutes.Proofs.Session.Spelling

set_option relaxedAutoImplicit false
set_option autoImplicit false

namespace GraphRoutes.Session

open World

/-- The kinds of paths that a descent may begin with. -/
inductive PathKind where
  | tuple
  | list
  | set
  /-- A path that keeps its order and tells its members by their keys. -/
  | ordered
  deriving DecidableEq

/-- Whether a path of this kind tells its members by their keys. -/
def PathKind.tells : PathKind → Bool
  | tuple | list => false
  | set | ordered => true

/-- The path `p` is of a kind, and holds the items `ys`; a set holds them without their order, and
equal ones only once. -/
inductive World.Stands (w : World) : PathKind → Value → List Value → Prop
  | tuple (ys : List Value) (m : Mark) : w.Stands .tuple (.tuple ys m) ys
  | list {place : ℕ} {ys : List Value} : w.lists[place]? = some ys.toArray →
      w.Stands .list (.ref .list place) ys
  | set {xs : Indexed Key Value} {ys : List Value} (m : Mark) :
      (∀ k, xs.contains k = true ↔ ∃ y ∈ ys, y.spell = k) → w.Stands .set (.set xs m) ys
  | ordered {xs : Indexed Key Value} (m : Mark) :
      (∀ k, xs.contains k = true ↔ ∃ y ∈ xs.toList, y.spell = k) →
      w.Stands .ordered (.orderedPath xs m) xs.toList

/-- The world `u` has all lists of the world `w` as they were there, and may have more. -/
def World.Lengthens (w u : World) : Prop :=
  ∀ (place : ℕ) (xs : Array Value), w.lists[place]? = some xs → u.lists[place]? = some xs

/-- Values as they are kept: as they were given, or handed out. -/
def Kept (xs zs : List Value) : Prop := List.Forall₂ (fun x z => z = x ∨ Handed x z) xs zs

section

variable {w u : World} {kind : PathKind} {p x v : Value} {xs ys zs : List Value}

theorem Kept.refl (xs : List Value) : Kept xs xs := by
  induction xs with
  | nil => exact .nil
  | cons x xs ih => exact .cons (.inl rfl) ih

theorem Kept.of_handed (h : List.Forall₂ Handed xs zs) : Kept xs zs := h.imp fun _ _ => .inr

theorem Kept.map_key?_eq (h : Kept xs zs) : zs.map Value.key? = xs.map Value.key? := by
  induction h with
  | nil => rfl
  | cons hx _ ih =>
      rw [List.map_cons, List.map_cons, ih]
      rcases hx with rfl | hx
      · rfl
      · rw [hx.key?_eq]

theorem Kept.lasting (h : Kept xs zs) (hxs : ∀ x ∈ xs, x.lasting = true) :
    ∀ z ∈ zs, z.lasting = true := by
  have hkey : ∀ x : Value, x.lasting = true ↔ x.key?.isSome = true := by
    intro x
    rw [Value.key?]
    split <;> simp_all
  intro z hz
  obtain ⟨x, hx, hxz⟩ := List.mem_map.1 (h.map_key?_eq ▸ List.mem_map_of_mem hz)
  rw [hkey, ← hxz, ← hkey]
  exact hxs x hx

/-- What has all its marks is kept as it is. -/
theorem Kept.eq_of_marked (h : Kept xs zs) (hxs : ∀ x ∈ xs, x.unmarked = false) : zs = xs := by
  induction h with
  | nil => rfl
  | cons hx _ ih =>
      rw [List.forall_mem_cons] at hxs
      rw [ih hxs.2]
      rcases hx with rfl | hx
      · rfl
      · rw [hx.eq_of_marked hxs.1]

/-- A set without members. -/
theorem stands_set (w : World) (m : Mark) : w.Stands .set (.set default m) [] :=
  .set m fun k => by simp [default, Indexed.contains, Indexed.position?, Thunk.get, Thunk.pure]

/-- A path in order without items. -/
theorem stands_ordered (w : World) (m : Mark) : w.Stands .ordered (.orderedPath default m) [] :=
  World.Stands.ordered m fun k => by
    simp [default, Indexed.contains, Indexed.position?, Indexed.toList, Thunk.get, Thunk.pure]

/-- A path in order that was made of its items. -/
theorem stands_orderedPath (w : World) (ys : List Value) (m : Mark) :
    w.Stands .ordered (.orderedPath (.ofList Value.spell ys) m) ys := by
  have hitems : (Indexed.ofList Value.spell ys).toList = ys := rfl
  have hkeys : ∀ k, (Indexed.ofList Value.spell ys).contains k = true ↔
      ∃ y ∈ (Indexed.ofList Value.spell ys).toList, y.spell = k := fun k => by
    rw [Indexed.contains_ofList_iff, hitems]
  exact hitems ▸ World.Stands.ordered m hkeys

theorem World.Lengthens.refl (w : World) : w.Lengthens w := fun _ _ h => h

theorem World.Lengthens.trans {v : World} (h : w.Lengthens u) (h' : u.Lengthens v) : w.Lengthens v :=
  fun place xs hxs => h' place xs (h place xs hxs)

theorem World.Stands.mono (h : w.Stands kind p ys) (hu : w.Lengthens u) : u.Stands kind p ys := by
  cases h with
  | tuple ys m => exact .tuple ys m
  | list hplace => exact .list (hu _ _ hplace)
  | set m hxs => exact .set m hxs
  | ordered m hxs => exact .ordered m hxs

/-- A path that is handed out holds what it held. -/
theorem World.Stands.exists_handOut (h : w.Stands kind p ys) :
    ∃ p' u, handOut p w = .ok p' u ∧ w.Lengthens u ∧ u.Stands kind p' ys := by
  obtain ⟨p', marks, hout, hhanded⟩ := World.exists_handOut p w
  refine ⟨p', _, hout, fun _ _ h => h, ?_⟩
  obtain ⟨m, rfl⟩ := hhanded.exists_withMark (by rintro n rfl; cases h)
  cases h with
  | tuple ys _ => exact .tuple ys m
  | list hplace => exact .list hplace
  | set _ hxs => exact .set m hxs
  | ordered _ hxs => exact .ordered m hxs

theorem exists_newList_stands (xs : List Value) (w : World) :
    ∃ p' u zs, newList xs.toArray w = .ok p' u ∧ w.Lengthens u ∧ u.Stands .list p' zs ∧ Kept xs zs := by
  obtain ⟨zs, marks, hnew, hzs⟩ := exists_newList xs w
  refine ⟨_, _, zs, hnew, fun place ys hplace => ?_, .list ?_, .of_handed hzs⟩
  · obtain ⟨hlt, rfl⟩ := Array.getElem?_eq_some_iff.1 hplace
    exact Array.getElem?_push_lt hlt
  · exact Array.getElem?_push_size

/-- **A path that grows** keeps its kind, and holds one item more. -/
theorem World.Stands.exists_extendPath (h : w.Stands kind p ys)
    (hx : kind.tells = true → x.lasting = true) :
    ∃ p' u zs, extendPath p x w = .ok p' u ∧ w.Lengthens u ∧ u.Stands kind p' zs ∧
      Kept (ys ++ [x]) zs := by
  cases h with
  | tuple ys m => exact ⟨_, w, _, rfl, .refl w, .tuple _ none, .refl _⟩
  | @list place ys hplace =>
      obtain ⟨p', u, zs, hnew, hu, hzs, hkept⟩ := exists_newList_stands (ys ++ [x]) w
      -- the list is made anew, and its items may be given marks there
      refine ⟨p', u, zs, ?_, hu, hzs, hkept⟩
      rw [← hnew]
      have hlist : (w.listAt place).push x = (ys ++ [x]).toArray := by
        simp [listAt, hplace]
      change newList ((w.listAt place).push x) w = _
      rw [hlist]
  | @set xs ys m hxs =>
      have hk : keyOf x w = .ok x.spell w := keyOf_of_key? (if_pos (hx rfl))
      let more : Indexed Key Value := if xs.contains x.spell then xs else xs.push x.spell x
      have hextend : extendPath (.set xs m) x w = .ok (.set more none) w := by
        have hadd : addMember xs x w = .ok more w := (Act.bind_of_ok hk).trans rfl
        exact (Act.bind_of_ok (m := get) rfl).trans ((Act.bind_of_ok hadd).trans rfl)
      refine ⟨_, w, _, hextend, .refl w, .set none fun k => ?_, .refl _⟩
      -- an item whose key is there already changes nothing
      have hmore : more.contains k = true ↔ xs.contains k = true ∨ x.spell = k := by
        by_cases hmem : xs.contains x.spell = true
        · rw [show more = xs from if_pos hmem, iff_self_or]
          rintro rfl
          exact hmem
        · rw [show more = xs.push x.spell x from if_neg hmem, Indexed.contains_push_iff]
      rw [hmore, hxs]
      simp
  | @ordered xs m hxs =>
      have hk : keyOf x w = .ok x.spell w := keyOf_of_key? (if_pos (hx rfl))
      refine ⟨.orderedPath (xs.push x.spell x) none, w, xs.toList ++ [x], ?_, .refl w, ?_, .refl _⟩
      · exact (Act.bind_of_ok (m := get) rfl).trans ((Act.bind_of_ok hk).trans rfl)
      · have hitems : (xs.push x.spell x).toList = xs.toList ++ [x] := Array.toList_push
        rw [← hitems]
        refine .ordered none fun k => ?_
        rw [Indexed.contains_push_iff, hxs, hitems]
        simp

/-- A path that begins anew keeps its kind. -/
theorem World.Stands.exists_emptyPath (h : w.Stands kind p ys) :
    ∃ p' u, emptyPath p w = .ok p' u ∧ w.Lengthens u ∧ u.Stands kind p' [] := by
  cases h with
  | tuple ys m => exact ⟨_, w, rfl, .refl w, .tuple [] none⟩
  | list _ =>
      obtain ⟨p', u, zs, hnew, hu, hzs, hkept⟩ := exists_newList_stands [] w
      obtain rfl := List.forall₂_nil_left_iff.1 hkept
      exact ⟨p', u, hnew, hu, hzs⟩
  | set m _ => exact ⟨_, w, rfl, .refl w, stands_set w none⟩
  | ordered m _ => exact ⟨_, w, rfl, .refl w, stands_ordered w none⟩

/-- Whether one of several values has the key of another. -/
def holdsKey (ys : List Value) (v : Value) : Bool := decide (v.key? ∈ ys.map Value.key?)

/-- **All kinds of paths answer alike** whether a value is among their items. -/
theorem World.Stands.contains (h : w.Stands kind p ys) (hys : ∀ y ∈ ys, y.lasting = true)
    (hv : v.lasting = true) (hself : w.Comparable v) (H : Host) :
    H.contains v p w = .ok (holdsKey ys v) w := by
  have hk : v.key? = some v.spell := if_pos hv
  have hholds : holdsKey ys v = true ↔ ∃ y ∈ ys, y.spell = v.spell := by
    rw [holdsKey, decide_eq_true_iff, List.mem_map, hk]
    refine exists_congr fun y => and_congr_right fun hy => ?_
    rw [show y.key? = some y.spell from if_pos (hys y hy), Option.some_inj]
  -- a tuple and a list compare with one item after the other, the other kinds look for the key
  have hmember : isAmong v ys w = .ok (holdsKey ys v) w := by
    have hany : (ys.any fun y => decide (y.spell = v.spell)) = holdsKey ys v := by
      rw [Bool.eq_iff_iff, hholds, List.any_eq_true]
      simp only [decide_eq_true_eq]
    rw [isAmong, look, w.member_eq hys hv hself, hany]
  have hkeys : ∀ {xs : Indexed Key Value}, (∀ k, xs.contains k = true ↔ ∃ y ∈ ys, y.spell = k) →
      xs.contains v.spell = holdsKey ys v := by
    intro xs hxs
    rw [Bool.eq_iff_iff, hxs, hholds]
  cases h with
  | tuple ys m => exact hmember
  | @list place ys hplace =>
      have hlist : (w.listAt place).toList = ys := by simp [listAt, hplace]
      rw [← hlist] at hmember ⊢
      exact hmember
  | set m hxs => rw [contains_set _ m hk, hkeys hxs]
  | ordered m hxs => rw [contains_orderedPath _ m hk, hkeys hxs]

/-- All kinds of paths but a set are read as the row of their items. -/
theorem World.Stands.pathItems?_eq (h : w.Stands kind p ys) (hkind : kind ≠ .set) :
    pathItems? w p = some ys := by
  cases h with
  | tuple ys m => rfl
  | @list place ys hplace =>
      have hlist : pathItems? w (.ref .list place) = some (w.listAt place).toList := rfl
      rw [hlist, listAt, hplace]
      simp
  | set => exact absurd rfl hkind
  | ordered m _ => rfl

/-! ### Paths of a descent -/

variable (H : Host) (plan : DescentPlan)

/-- Below an element, the path of a descent holds one item more. -/
theorem World.Stands.exists_extend (hp : w.Stands kind p ys) (hx : kind.tells = true → x.lasting = true) :
    ∃ p' u zs, (plan.env H .null).extend p x w = .ok p' u ∧ w.Lengthens u ∧ u.Stands kind p' zs ∧
      Kept (ys ++ [x]) zs := by
  obtain ⟨p₁, u₁, zs, hextend, hu₁, hp₁, hkept⟩ := hp.exists_extendPath hx
  obtain ⟨p₂, u₂, hout, hu₂, hp₂⟩ := hp₁.exists_handOut
  exact ⟨p₂, u₂, zs, (Act.bind_of_ok hextend).trans hout, hu₁.trans hu₂, hp₂, hkept⟩

/-- Where it begins anew, it holds none. -/
theorem World.Stands.exists_restart (hp : w.Stands kind p ys) :
    ∃ p' u, (plan.env H .null).restart p w = .ok p' u ∧ w.Lengthens u ∧ u.Stands kind p' [] := by
  obtain ⟨p₁, u₁, hempty, hu₁, hp₁⟩ := hp.exists_emptyPath
  obtain ⟨p₂, u₂, hout, hu₂, hp₂⟩ := hp₁.exists_handOut
  exact ⟨p₂, u₂, (Act.bind_of_ok hempty).trans hout, hu₁.trans hu₂, hp₂⟩

end

end GraphRoutes.Session
