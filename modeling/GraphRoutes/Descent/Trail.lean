/-
**Trails: the ancestors that a search keeps.**

A search that cuts cycles or looks at the length of its path has to keep the ancestors of the
element that it visits.  It keeps no more than it needs: nothing at all, a set of them, a sequence,
or a sequence that also answers membership.  Elements are told apart by their keys.  A set holds no
key twice, so its size may fall behind the depth.

The ancestors are held newest first, so that the trails of one branch share what they have in common;
they are read outermost first.  The trail of all elements that are visited below the same ancestors
is one object, so it has a mark; what it says of its items does not depend on it.

Main definitions:

* `GraphRoutes.TrailKind`, `GraphRoutes.Trail` — what is kept;
* `GraphRoutes.Trail.items` — the ancestors, outermost first;
* `GraphRoutes.Trail.extend`, `GraphRoutes.Trail.restart` — one ancestor more, and none;
* `GraphRoutes.Trail.mem?` — whether an element is among the ancestors.

Main results:

* `GraphRoutes.Trail.mem?_eq_some_true_iff` — membership is that of the items;
* `GraphRoutes.Trail.kind_extend`, `GraphRoutes.Trail.items_extend_sequence`,
  `GraphRoutes.Trail.items_extend_of_new` — what one ancestor more does.
-/
import GraphRoutes.Mark

set_option relaxedAutoImplicit false
set_option autoImplicit false

namespace GraphRoutes

/-- What is kept of the ancestors. -/
inductive TrailKind where
  /-- Nothing. -/
  | untracked
  /-- A plain sequence. -/
  | sequence
  /-- A set, in the order in which its members were added. -/
  | set
  /-- A sequence with an index of its members. -/
  | indexed
  deriving DecidableEq, Repr, Ord

/-- The ancestors of an element as far as they are kept, newest first. -/
structure Trail (α : Type) where
  kind : TrailKind
  newestFirst : List α := []
  mark : Mark := none
  deriving Repr

namespace Trail

variable {α key : Type} [DecidableEq key]

/-- The ancestors, outermost first. -/
def items (t : Trail α) : List α := t.newestFirst.reverse

/-- Whether an element is among the ancestors; undefined where it has no key.  Nothing is known of
ancestors that are not kept. -/
def mem? (keyOf : α → Option key) (t : Trail α) (a : α) : Option Bool :=
  match keyOf a with
  | none => none
  | some k => some (t.newestFirst.any fun b => (keyOf b).any (· = k))

/-- One ancestor more; the new trail has the mark `mark`. -/
def extend (keyOf : α → Option key) (t : Trail α) (a : α) (mark : Mark) : Trail α :=
  match t.kind with
  | .untracked => t
  | .set =>
    if t.mem? keyOf a = some true then { t with mark }
    else { t with newestFirst := a :: t.newestFirst, mark }
  | _ => { t with newestFirst := a :: t.newestFirst, mark }

/-- No ancestors, kept in the same way; the new trail has the mark `mark`. -/
def restart (t : Trail α) (mark : Mark) : Trail α := { t with newestFirst := [], mark }

/-- The outermost ancestor. -/
def origin? (t : Trail α) : Option α := t.newestFirst.getLast?

/-- How many ancestors are kept. -/
def length (t : Trail α) : Nat := t.newestFirst.length

@[simp] theorem length_items (t : Trail α) : t.items.length = t.length := by
  simp [items, length]

/-- An element is among the ancestors if one of the items has its key. -/
theorem mem?_eq_some_true_iff (keyOf : α → Option key) (t : Trail α) (a : α) :
    t.mem? keyOf a = some true ↔ ∃ k, keyOf a = some k ∧ ∃ b ∈ t.items, keyOf b = some k := by
  cases h : keyOf a <;> simp [mem?, items, h, Option.any_eq_true]

/-- An element that is not among the ancestors has a key that none of them has. -/
theorem keyOf_notMem_of_new {keyOf : α → Option key} {t : Trail α} {a : α}
    (h : t.mem? keyOf a = some false) : keyOf a ∉ t.items.map keyOf := by
  intro hmem
  obtain ⟨b, hb, hba⟩ := List.mem_map.1 hmem
  cases hkey : keyOf a with
  | none => simp [mem?, hkey] at h
  | some k =>
    have hrepeated := (mem?_eq_some_true_iff keyOf t a).2 ⟨k, hkey, b, hb, hba.trans hkey⟩
    rw [h] at hrepeated
    cases hrepeated

/-- If no two ancestors have the same key, an element that is not among them may come behind them. -/
theorem nodup_concat_of_new {keyOf : α → Option key} {t : Trail α} {a : α}
    (h : (t.items.map keyOf).Nodup) (hnew : t.mem? keyOf a = some false) :
    ((t.items ++ [a]).map keyOf).Nodup := by
  rw [List.map_append, List.nodup_append]
  refine ⟨h, by simp, ?_⟩
  rintro k hk k' hk' rfl
  obtain rfl : k = keyOf a := List.mem_singleton.1 hk'
  exact keyOf_notMem_of_new hnew hk

omit [DecidableEq key] in
/-- What holds of each ancestor below those before it, and of an element below all of them, holds of
each again if the element comes behind them. -/
theorem forall_concat {P : List α → α → Prop} {p : List α} {a : α}
    (h : ∀ i (hi : i < p.length), P (p.take i) p[i]) (ha : P p a) (i : Nat)
    (hi : i < (p ++ [a]).length) : P ((p ++ [a]).take i) (p ++ [a])[i] := by
  rw [List.length_append, List.length_singleton] at hi
  rcases Nat.lt_succ_iff_lt_or_eq.1 hi with hlt | rfl
  · rw [List.getElem_append_left hlt, List.take_append_of_le_length (Nat.le_of_lt hlt)]
    exact h i hlt
  · rw [List.getElem_concat_length rfl, List.take_left]
    exact ha

/-- The outermost ancestor is the first of the items. -/
theorem origin?_eq_head? (t : Trail α) : t.origin? = t.items.head? := by
  simp [origin?, items]

@[simp] theorem kind_extend (keyOf : α → Option key) (t : Trail α) (a : α) (m : Mark) :
    (t.extend keyOf a m).kind = t.kind := by
  unfold extend
  split
  · rfl
  · split <;> rfl
  · rfl

@[simp] theorem kind_restart (t : Trail α) (m : Mark) : (t.restart m).kind = t.kind := rfl

@[simp] theorem items_restart (t : Trail α) (m : Mark) : (t.restart m).items = [] := rfl

theorem items_extend_untracked (keyOf : α → Option key) (t : Trail α) (a : α) (m : Mark)
    (h : t.kind = .untracked) : (t.extend keyOf a m).items = t.items := by
  simp [extend, h]

theorem items_extend_sequence (keyOf : α → Option key) (t : Trail α) (a : α) (m : Mark)
    (h : t.kind = .sequence ∨ t.kind = .indexed) :
    (t.extend keyOf a m).items = t.items ++ [a] := by
  rcases h with h | h <;> simp [extend, items, h]

/-- Where membership is asked, an element that is not among the ancestors comes behind them. -/
theorem items_extend_of_new {keyOf : α → Option key} {t : Trail α} {a : α}
    (hkind : t.kind = .set ∨ t.kind = .indexed) (hnew : t.mem? keyOf a = some false) (m : Mark) :
    (t.extend keyOf a m).items = t.items ++ [a] := by
  rcases hkind with hkind | hkind
  · have hnot : ¬ t.mem? keyOf a = some true := by
      rw [hnew]
      exact nofun
    simp only [extend, hkind, if_neg hnot, items, List.reverse_cons]
  · exact items_extend_sequence keyOf t a m (Or.inr hkind)

end Trail

end GraphRoutes
