/-
**The form of an element: what is left when its marks are taken off.**

Objects carry marks, which they get when they are handed out, and by which only alike objects are told
apart.  Without its marks an element is what it is wrapped in, layer by layer, what each wrapper is
linked to, and what is under all layers.  Handing out keeps the form, and a step keeps it too: what is
reached from elements of the same form has the same form.  All that an edge says of its direction, and
every path, can be read off the form.

Main definitions:

* `GraphRoutes.Element.unmark` — an element without its marks;
* `GraphRoutes.Session.Value.form` — the form of a value.

Main results:

* `GraphRoutes.Element.unmark_reach`, `GraphRoutes.Element.path?_unmark` — what an element without
  marks leads to, and its path;
* `GraphRoutes.Session.World.Handed.form_eq` — **handing out keeps the form**;
* `GraphRoutes.Session.edgeOf?_eq_of_form`, `GraphRoutes.Session.path?_eq_of_form` — what an element
  says of its way is said by its form.
-/
import GraphRoutes.Proofs.Session.Reading

set_option relaxedAutoImplicit false
set_option autoImplicit false

namespace GraphRoutes

namespace Element

variable {α : Type} {f : α → α}

/-- An element without the marks of its wrappers, if `f` takes the marks of what is plain. -/
def unmark (f : α → α) : Element α → Element α
  | plain a => plain (f a)
  | root l x _ => root l (unmark f x) none
  | via l x p _ => via l (unmark f x) (unmark f p) none

/-- Marks are taken off whether they have just been given or not. -/
theorem unmark_marked {g : ℕ → α → α × ℕ} (h : ∀ n a, f (g n a).1 = f a) (n : ℕ) (x : Element α) :
    (x.marked g n).1.unmark f = x.unmark f := by
  induction x generalizing n with
  | plain a => exact congrArg plain (h n a)
  | root l x m ih =>
      cases m with
      | none => exact congrArg (root l · none) (ih (n + 1))
      | some m => rfl
  | via l x p m ih _ =>
      cases m with
      | none => exact congrArg (via l · (p.unmark f) none) (ih (n + 1))
      | some m => rfl

@[simp] theorem base_unmark (x : Element α) : (x.unmark f).base = f x.base := by
  induction x with
  | plain => rfl
  | root l x m ih => exact ih
  | via l x p m ih _ => exact ih

@[simp] theorem tracked_unmark (x : Element α) : (x.unmark f).tracked = x.tracked := by
  cases x <;> rfl

@[simp] theorem strip_unmark (x : Element α) : (x.unmark f).strip = x.strip.unmark f := by
  cases x <;> rfl

/-- What is plain is an `l` with its marks and without them. -/
theorem uniform_unmark {sort : α → Option Layer} (h : ∀ a, sort (f a) = sort a) (l : Layer)
    (x : Element α) : (x.unmark f).uniform sort l = x.uniform sort l := by
  induction x with
  | plain a => simp only [unmark, uniform, h]
  | root k x m ih => simp only [unmark, uniform, ih]
  | via k x p m ih _ => simp only [unmark, uniform, ih]

/-- What is reached from an element without marks. -/
theorem unmark_reach (l : Layer) (x y : Element α) :
    (x.reach l y).unmark f = (x.unmark f).reach l (y.unmark f) := by
  induction x with
  | plain => rfl
  | root k x m ih => exact congrArg (via l · (root k (x.unmark f) none) none) ih
  | via k x p m ih _ => exact congrArg (via l · (via k (x.unmark f) (p.unmark f) none) none) ih

/-- What is reached is an `l` all the way through, if it is one without the layers. -/
theorem uniform_reach (sort : α → Option Layer) (l : Layer) (x y : Element α) :
    (x.reach l y).uniform sort l = y.uniform sort l := by
  induction x with
  | plain => rfl
  | root k x m ih => simp only [reach, uniform, ih, beq_self_eq_true, Bool.true_and]
  | via k x p m ih _ => simp only [reach, uniform, ih, beq_self_eq_true, Bool.true_and]

theorem links_unmark (x : Element α) : (x.unmark f).links = x.links.map (unmark f) := by
  induction x with
  | plain | root => rfl
  | via l x p m _ ih => exact congrArg (x.unmark f :: ·) ih

theorem brokenAt?_unmark (x : Element α) : (x.unmark f).brokenAt? = x.brokenAt?.map f := by
  induction x with
  | plain | root => rfl
  | via l x p m _ ih => exact ih

/-- The path of an element without marks. -/
theorem path?_unmark (x : Element α) :
    (x.unmark f).path? = x.path?.map fun xs => xs.map (unmark f) := by
  have hsound : (x.unmark f).sound = x.sound := by
    rw [sound, sound, tracked_unmark, brokenAt?_unmark, Option.isNone_map]
  have hbackward : (x.unmark f).backward = x.backward.map (unmark f) := by
    rw [backward, backward, tracked_unmark, links_unmark]
    cases x.tracked <;> rfl
  rw [path?, path?, hsound, hbackward, ← List.map_reverse]
  cases x.sound <;> rfl

/-- If the path of a wrapped element can be read, its links end in its root. -/
theorem links_of_path? {x : Element α} {as : List (Element α)}
    (htracked : x.tracked = true) (hx : x.path? = some as) :
    x.brokenAt? = none ∧ x.links = as.reverse := by
  rw [Element.path?, Element.sound, Element.backward, htracked] at hx
  cases hbroken : x.brokenAt? with
  | none =>
      rw [hbroken] at hx
      exact ⟨rfl, by rw [← Option.some.inj hx, List.reverse_reverse]; rfl⟩
  | some =>
      rw [hbroken] at hx
      cases hx

end Element

namespace Session

/-! ### Forms of values -/

namespace Value

/-- The form of a value: its element without marks. -/
def form (v : Value) : Node := v.node.unmark (withMark none)

theorem sort_withMark (m : Mark) (v : Value) : (v.withMark m).sort = v.sort := by
  cases v <;> rfl

theorem withMark_withMark (m k : Mark) (v : Value) : (v.withMark m).withMark k = v.withMark k := by
  cases v <;> rfl

theorem withMark_markedAlone (n : ℕ) (v : Value) :
    (v.markedAlone n).1.withMark none = v.withMark none := by
  rw [markedAlone]
  cases v.unmarked with
  | true => exact withMark_withMark (some n) none v
  | false => rfl

theorem base_form (v : Value) : v.form.base = v.node.base.withMark none :=
  Element.base_unmark v.node

theorem uniform_form (l : Layer) (v : Value) :
    v.form.uniform sort l = v.node.uniform sort l :=
  Element.uniform_unmark (sort_withMark none) l v.node

/-- What has the base of a vertex in its form has that vertex under its layers. -/
theorem exists_base_vertex {v : Value} {u : VertexRef} (h : v.form.base = .vertex u none) :
    ∃ m, v.node.base = .vertex u m := by
  rw [base_form] at h
  cases hbase : v.node.base with
  | vertex u' m =>
      rw [hbase] at h
      cases h
      exact ⟨m, rfl⟩
  | _ =>
      rw [hbase] at h
      cases h

/-- What has the base of an edge in its form has that edge under its layers. -/
theorem exists_base_edge {v : Value} {e : EdgeRef} (h : v.form.base = .edge e none) :
    ∃ m, v.node.base = .edge e m := by
  rw [base_form] at h
  cases hbase : v.node.base with
  | edge e' m =>
      rw [hbase] at h
      cases h
      exact ⟨m, rfl⟩
  | _ =>
      rw [hbase] at h
      cases h

/-- The form of what is reached from a value. -/
theorem form_reach (x : Value) (l : Layer) {y : Value} (hy : y.node = .plain y) :
    (ofNode (x.node.reach l (.plain y))).form = x.form.reach l (.plain (y.withMark none)) := by
  have hnode : (ofNode (x.node.reach l (.plain y))).node = x.node.reach l (.plain y) := by
    cases x.node with
    | plain => exact hy
    | root | via => rfl
  rw [form, hnode, Element.unmark_reach]
  rfl

end Value

/-- **Handing out keeps the form.** -/
theorem World.Handed.form_eq {x x' : Value} (hx : World.Handed x x') : x'.form = x.form := by
  cases hx with
  | same => rfl
  | marked _ n =>
      cases x with
      | tracked x => exact Element.unmark_marked (fun n v => Value.withMark_markedAlone n v) n x
      | _ =>
          change (Value.markedAlone n _).1.form = _
          rw [Value.markedAlone]
          split <;> rfl

/-! ### What edges say -/

/-- Whether a value is an edge, and which one, is said by its form. -/
theorem edgeOf?_eq (v : Value) :
    edgeOf? v = match v.form.uniform Value.sort .edge, v.form.base with
      | true, .edge e _ => some e
      | _, _ => none := by
  rw [edgeOf?, Value.uniform_form, Value.base_form]
  cases v.node.base <;> cases v.node.uniform Value.sort .edge <;> rfl

/-- Two values of one form have paths of the same forms. -/
theorem path?_eq_of_form {x y : Value} (h : x.form = y.form) :
    (x.node.path?.map fun xs => xs.map (Element.unmark (Value.withMark none))) =
      y.node.path?.map fun xs => xs.map (Element.unmark (Value.withMark none)) := by
  rw [← Element.path?_unmark, ← Element.path?_unmark]
  exact congrArg Element.path? h

end Session

end GraphRoutes
