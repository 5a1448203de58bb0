/-
**The first edge that was used twice.**

On the way back from a tracked element its edges come one after the other.  A search for a repeated edge
remembers them, and gives the first that equals one it remembers.  If it may remember `d` edges only, it
still looks at one edge more, so it finds the repeated edge if that stands at position `d` or before,
counted from zero, and nothing if not.

Main definitions:

* `GraphRoutes.Recurs` — a key that was seen before, or that stands at an earlier position;
* `GraphRoutes.Session.edgesBack` — the edges on the way back from an element;
* `GraphRoutes.Session.World.Repeats` — an edge that equals an earlier one.

Main results:

* `GraphRoutes.firstRepeat_of_isLeast`, `GraphRoutes.firstRepeat_of_fresh` — what a search comes to,
  for every number of items that it may remember;
* `GraphRoutes.Session.finds_first_repeat` — **the first edge that was used twice**.
-/
import GraphRoutes.Proofs.Session.Lineages
import Mathlib.Data.List.TakeWhile
import Mathlib.Order.Bounds.Basic
import Mathlib.Order.Nat

set_option relaxedAutoImplicit false
set_option autoImplicit false

namespace GraphRoutes

/-! ### Keys that recur -/

section Recurs

variable {α κ : Type} [DecidableEq κ] [Hashable κ] {seen : Std.HashSet κ} {k : κ} {ks : List κ} {j : ℕ}

/-- The key at a position was seen before, or stands at an earlier position. -/
def Recurs (seen : Std.HashSet κ) (ks : List κ) (j : ℕ) : Prop :=
  ∃ k, ks[j]? = some k ∧ (k ∈ seen ∨ k ∈ ks.take j)

theorem recurs_zero_iff : Recurs seen (k :: ks) 0 ↔ k ∈ seen := by
  simp [Recurs]

theorem recurs_succ_iff : Recurs seen (k :: ks) (j + 1) ↔ Recurs (seen.insert k) ks j := by
  refine exists_congr fun l => and_congr Iff.rfl ?_
  rw [List.take_succ_cons, List.mem_cons, Std.HashSet.mem_insert, beq_iff_eq, eq_comm (a := k),
    or_left_comm, or_assoc]

/-- The first position at which a key recurs, behind a key that was not seen, is counted from there. -/
theorem isLeast_recurs_succ_iff (hk : k ∉ seen) :
    IsLeast {j | Recurs seen (k :: ks) j} (j + 1) ↔ IsLeast {j | Recurs (seen.insert k) ks j} j := by
  constructor
  · rintro ⟨hj, hleast⟩
    exact ⟨recurs_succ_iff.1 hj, fun i hi =>
      Nat.le_of_succ_le_succ (hleast (recurs_succ_iff.2 hi))⟩
  · rintro ⟨hj, hleast⟩
    refine ⟨recurs_succ_iff.2 hj, ?_⟩
    rintro (_ | i) hi
    · exact absurd (recurs_zero_iff.1 hi) hk
    · exact Nat.succ_le_succ (hleast (recurs_succ_iff.1 hi))

variable (keyOf : α → Option κ) (limit : Option ℕ) (as : List α)

/-- **A search finds the first item whose key recurs**, unless it has to remember too many before. -/
theorem firstRepeat_of_isLeast {b : α}
    (hj : IsLeast {j | Recurs seen (as.filterMap keyOf) j} j)
    (hb : (as.filter fun a => (keyOf a).isSome)[j]? = some b) :
    firstRepeat keyOf seen limit as = if limit.all (j ≤ ·) then .found b else .gaveUp := by
  induction as generalizing seen limit j with
  | nil => cases hb
  | cons a as ih =>
      rw [firstRepeat]
      cases hkey : keyOf a with
      | none =>
          rw [List.filterMap_cons_none hkey] at hj
          rw [List.filter_cons_of_neg (by simp [hkey])] at hb
          exact ih limit hj hb
      | some k =>
          rw [List.filterMap_cons_some hkey] at hj
          rw [List.filter_cons_of_pos (by simp [hkey])] at hb
          by_cases hk : k ∈ seen
          · obtain rfl : j = 0 := Nat.le_zero.1 (hj.2 (recurs_zero_iff.2 hk))
            obtain rfl : a = b := Option.some.inj hb
            have hall : limit.all (0 ≤ ·) = true := by cases limit <;> simp
            rw [if_pos hall]
            exact if_pos hk
          · cases j with
            | zero => exact absurd (recurs_zero_iff.1 hj.1) hk
            | succ j =>
                have hj' := (isLeast_recurs_succ_iff hk).1 hj
                refine (if_neg hk).trans ?_
                cases limit with
                | none => simpa using ih none hj' hb
                | some n =>
                    cases n with
                    | zero => simp
                    | succ n => simpa using ih (some n) hj' hb

/-- **Where no key recurs**, a search comes to an end, unless it has to remember too many. -/
theorem firstRepeat_of_fresh (hfresh : ∀ j, ¬ Recurs seen (as.filterMap keyOf) j) :
    firstRepeat keyOf seen limit as =
      if limit.all ((as.filterMap keyOf).length ≤ ·) then .ranOut else .gaveUp := by
  induction as generalizing seen limit with
  | nil =>
      have hall : limit.all (0 ≤ ·) = true := by cases limit <;> simp
      exact (if_pos hall).symm
  | cons a as ih =>
      rw [firstRepeat]
      cases hkey : keyOf a with
      | none =>
          rw [List.filterMap_cons_none hkey] at hfresh ⊢
          exact ih limit hfresh
      | some k =>
          rw [List.filterMap_cons_some hkey] at hfresh ⊢
          have hk : k ∉ seen := fun hk => hfresh 0 (recurs_zero_iff.2 hk)
          have hfresh' := fun j hj => hfresh (j + 1) (recurs_succ_iff.2 hj)
          refine (if_neg hk).trans ?_
          cases limit with
          | none => exact ih none hfresh'
          | some n =>
              cases n with
              | zero => simp
              | succ n => simpa using ih (some n) hfresh'

end Recurs

namespace Session

open World

variable {x : Value} {as : List Node} {bs : List Value} {w : World} {H : Host} {j : ℕ}

/-! ### The edges on the way back -/

/-- Whether a value is an edge, by its outermost layer. -/
def isEdge (v : Value) : Bool := v.layer? == some .edge

/-- The edges on the way back from an element to its root. -/
def edgesBack (x : Value) : List Value := (x.node.links.map Value.ofNode).filter isEdge

/-- The edge at a position equals one at an earlier position. -/
def World.Repeats (w : World) (bs : List Value) (j : ℕ) : Prop :=
  ∃ i < j, ∃ a b, bs[i]? = some a ∧ bs[j]? = some b ∧ w.same b a = .ok true

/-- The edge at a position; `null` if there is no position. -/
def edgeAt (bs : List Value) (r : Option ℕ) : Value := .ofOption (r.bind (bs[·]?))

theorem isEdge_form (x : Value) : isEdge x = (x.form.layer? Value.sort == some .edge) := by
  have hlayer : x.form.layer? Value.sort = x.layer? := by
    rw [Value.form, Value.layer?]
    cases x.node with
    | plain v => exact Value.sort_withMark none v
    | root | via => rfl
  rw [isEdge, hlayer]

theorem map_form_filter_isEdge (xs : List Value) :
    (xs.filter isEdge).map Value.form =
      (xs.map Value.form).filter fun a => a.layer? Value.sort == some .edge := by
  rw [List.filter_map]
  exact congrArg (List.map Value.form) (List.filter_congr fun x _ => isEdge_form x)

/-- An edge of a graph equals an earlier one if its key recurs. -/
theorem World.repeats_iff (hbs : ∀ b ∈ bs, b.ofGraph = true) (w : World) :
    w.Repeats bs j ↔ Recurs ∅ (bs.map Value.spell) j := by
  have hsame : ∀ {a b : Value}, a ∈ bs → b ∈ bs →
      (w.same b a = .ok true ↔ a.spell = b.spell) := by
    intro a b ha hb
    rw [same_of_ofGraph w (hbs b hb) (hbs a ha), Value.key?_of_ofGraph (hbs a ha),
      Value.key?_of_ofGraph (hbs b hb), Except.ok.injEq, Option.some_beq_some, beq_iff_eq, eq_comm]
  constructor
  · rintro ⟨i, hi, a, b, ha, hb, hab⟩
    have hspell := (hsame (List.mem_of_getElem? ha) (List.mem_of_getElem? hb)).1 hab
    refine ⟨b.spell, by rw [List.getElem?_map, hb, Option.map_some], .inr ?_⟩
    refine List.mem_iff_getElem?.2 ⟨i, ?_⟩
    rw [List.getElem?_take_of_lt hi, List.getElem?_map, ha, Option.map_some, hspell]
  · rintro ⟨k, hk, hseen | htake⟩
    · exact absurd hseen Std.HashSet.not_mem_empty
    · rw [List.getElem?_map] at hk
      obtain ⟨b, hb, rfl⟩ := Option.map_eq_some_iff.1 hk
      obtain ⟨i, hi⟩ := List.mem_iff_getElem?.1 htake
      have hij : i < j := by
        by_contra hge
        rw [List.getElem?_eq_none (le_trans (List.length_take_le j _) (Nat.le_of_not_lt hge))] at hi
        cases hi
      rw [List.getElem?_take_of_lt hij, List.getElem?_map] at hi
      obtain ⟨a, ha, hab⟩ := Option.map_eq_some_iff.1 hi
      exact ⟨i, hij, a, b, ha, hb,
        (hsame (List.mem_of_getElem? ha) (List.mem_of_getElem? hb)).2 hab⟩

/-- The search has keys for edges, and for nothing else. -/
theorem edgeKey?_eq (x : Value) : edgeKey? x = if isEdge x then some x.spell else none := by
  simp only [edgeKey?, isEdge, beq_iff_eq]

theorem filterMap_edgeKey? (xs : List Value) :
    xs.filterMap edgeKey? = (xs.filter isEdge).map Value.spell := by
  induction xs with
  | nil => rfl
  | cons x xs ih =>
      rw [List.filterMap_cons, List.filter_cons, edgeKey?_eq, ih]
      cases isEdge x <;> rfl

theorem isSome_edgeKey? (x : Value) : (edgeKey? x).isSome = isEdge x := by
  rw [edgeKey?_eq]
  cases isEdge x <;> rfl

/-! ### The search -/

/-- The number of edges that may be remembered, as an argument. -/
def depthOf (limit : Option ℕ) : Value := .ofOption (limit.map fun d : ℕ => .int d)

/-- The edge that was found, if one was. -/
def foundEdge : Repeat Value → Value
  | .found y => y
  | .gaveUp | .ranOut => .null

/-- The search looks at the items of the lineage, one after the other. -/
theorem repeatedEdge_eq (htracked : x.node.tracked = true) (hbroken : x.node.brokenAt? = none)
    (hlinks : ∀ b ∈ x.node.links, b.base.sort.isSome = true) {limit : Option ℕ}
    (hlimit : ∀ d ∈ limit, 1 ≤ d) (w : World) :
    repeatedEdge x (depthOf limit) w =
      .ok (foundEdge (firstRepeat edgeKey? ∅ limit (x.node.links.map Value.ofNode))) w := by
  have hitems : x.node.links.map Value.ofNode ++ brokenItems x.node = x.node.links.map Value.ofNode := by
    rw [brokenItems, hbroken, List.append_nil]
  have hfit : (x.node.links.map Value.ofNode).takeWhile isFit = x.node.links.map Value.ofNode := by
    refine List.takeWhile_eq_self_iff.2 fun y hy => ?_
    obtain ⟨b, hb, rfl⟩ := List.mem_map.1 hy
    rw [isFit, Value.lasting_of_ofGraph (Value.ofGraph_ofNode (hlinks b hb)), Bool.or_true]
  have hsound : x.node.sound = true := by
    rw [Element.sound, hbroken]
    exact Bool.or_true _
  have hend : ∀ r : Repeat Value, (match r with
      | .found y => pure y
      | .gaveUp => pure .null
      | .ranOut => pure .null : M Value) w = .ok (foundEdge r) w := by
    rintro (y | _ | _) <;> rfl
  cases limit with
  | none =>
      simp only [repeatedEdge, depthOf, Option.map_none, Value.ofOption_none, pure_bind, htracked,
        hitems, hfit, hsound, lt_self_iff_false, if_true, if_false]
      exact hend _
  | some d =>
      have hd : ¬ (d : ℤ) < 1 := not_lt.2 (Int.ofNat_le.2 (hlimit d rfl))
      simp only [repeatedEdge, depthOf, Option.map_some, Value.ofOption_some, number, Value.int?,
        Act.ofOption, pure_bind, hd, Int.toNat_natCast, htracked, hitems, hfit, hsound,
        lt_self_iff_false, if_true, if_false]
      exact hend _

/-- There is a first position with a property, or none at all. -/
theorem exists_first (P : ℕ → Prop) : ∃ r : Option ℕ, ∀ j, r = some j ↔ IsLeast {j | P j} j := by
  classical
  by_cases hex : ∃ j, P j
  · have hfirst := Nat.isLeast_find hex
    exact ⟨some (Nat.find hex), fun j => Option.some_inj.trans
      ⟨fun hj => hj ▸ hfirst, fun hj => hfirst.unique hj⟩⟩
  · exact ⟨none, fun j => ⟨nofun, fun hj => absurd ⟨j, hj.1⟩ hex⟩⟩

/-- What the search finds among items, if the first key that recurs stands at `r`. -/
theorem foundEdge_firstRepeat {items : List Value} {r : Option ℕ}
    (hr : ∀ j, r = some j ↔ IsLeast {j | Recurs ∅ ((items.filter isEdge).map Value.spell) j} j)
    (limit : Option ℕ) :
    foundEdge (firstRepeat edgeKey? ∅ limit items) =
      edgeAt (items.filter isEdge) (r.filter fun j => limit.all (j ≤ ·)) := by
  have hkeys := filterMap_edgeKey? items
  have hedges : (items.filter fun y => (edgeKey? y).isSome) = items.filter isEdge :=
    List.filter_congr fun y _ => isSome_edgeKey? y
  cases r with
  | none =>
      have hfresh : ∀ j, ¬ Recurs ∅ (items.filterMap edgeKey?) j := by
        rw [hkeys]
        intro j hj
        classical
        cases (hr _).2 (Nat.isLeast_find ⟨j, hj⟩)
      rw [firstRepeat_of_fresh edgeKey? limit items hfresh]
      split <;> rfl
  | some j =>
      have hj := (hr j).1 rfl
      obtain ⟨k, hk, -⟩ := hj.1
      rw [List.getElem?_map] at hk
      obtain ⟨b, hb, -⟩ := Option.map_eq_some_iff.1 hk
      rw [← hkeys] at hj
      rw [firstRepeat_of_isLeast edgeKey? limit items hj (hedges ▸ hb), Option.filter_some]
      cases limit.all (j ≤ ·) with
      | false => rfl
      | true => exact (congrArg Value.ofOption hb).symm

theorem ofGraph_of_mem_edgesBack (hlinks : ∀ b ∈ x.node.links, b.base.sort.isSome = true) {b : Value}
    (hb : b ∈ edgesBack x) : b.ofGraph = true := by
  obtain ⟨a, ha, rfl⟩ := List.mem_map.1 (List.mem_of_mem_filter hb)
  exact Value.ofGraph_ofNode (hlinks a ha)

/-- The edges among the items that a program reads on the way back are those among the links. -/
theorem forall₂_alike_edgesBack (hlinks : ∀ b ∈ x.node.links, b.base.sort.isSome = true)
    {ys : List Value}
    (hys : ys.map Value.form = x.node.links.map (Element.unmark (Value.withMark none))) :
    List.Forall₂ Alike (edgesBack x) (ys.filter isEdge) := by
  have hforms : (x.node.links.map Value.ofNode).map Value.form = ys.map Value.form := by
    rw [hys, List.map_map]
    exact List.map_congr_left fun a ha => Value.form_ofNode (hlinks a ha)
  have hback : (edgesBack x).map Value.form = (ys.filter isEdge).map Value.form := by
    rw [edgesBack, map_form_filter_isEdge, map_form_filter_isEdge, hforms]
  exact forall₂_alike (fun b hb => ofGraph_of_mem_edgesBack hlinks hb) hback

/-- A program is told the edge at the first position at which a key recurs, unless the search may not
remember all the edges before. -/
theorem callOp_repeatedEdge (htracked : x.isTracked = true) (hbroken : x.node.brokenAt? = none)
    (hlinks : ∀ b ∈ x.node.links, b.base.sort.isSome = true) {r : Option ℕ}
    (hr : ∀ j, r = some j ↔ IsLeast {j | Recurs ∅ ((edgesBack x).map Value.spell) j} j)
    (limit : Option ℕ) (hlimit : ∀ d ∈ limit, 1 ≤ d) (H : Host) :
    H.callOp .repeatedEdge [x, depthOf limit] [] =
      handOut (edgeAt (edgesBack x) (r.filter fun j => limit.all (j ≤ ·))) := by
  funext w
  have hperform : H.perform .repeatedEdge { bound := [some x, some (depthOf limit)], extra := [] } w =
      .ok (edgeAt (edgesBack x) (r.filter fun j => limit.all (j ≤ ·))) w :=
    (repeatedEdge_eq htracked hbroken hlinks hlimit w).trans
      (congrArg (EStateM.Result.ok · w) (foundEdge_firstRepeat hr limit))
  exact callOp_of_ok rfl hperform

/-- A bound that what was found keeps to may be raised. -/
theorem filter_le_of_le {r : Option ℕ} {d d' : ℕ} (hd : d ≤ d') (hr : r.filter (· ≤ d) ≠ none) :
    r.filter (· ≤ d') = r.filter (· ≤ d) := by
  obtain ⟨j, hj⟩ := Option.ne_none_iff_exists'.1 hr
  obtain ⟨rfl, hjd⟩ := Option.filter_eq_some_iff.1 hj
  have hjd' : decide (j ≤ d') = true := decide_eq_true ((of_decide_eq_true hjd).trans hd)
  rw [hj, Option.filter_some, if_pos hjd']

/-- **The first edge that was used twice** on the way back from a tracked element is found, whatever it is
wrapped in and from whichever side it was reached.  If the search may remember `d` edges, it is found
exactly if it stands at position `d` or before. -/
theorem finds_first_repeat (hx : x.form.path? = some as) (htracked : x.isTracked = true)
    (has : ∀ a ∈ as, a.base.sort.isSome = true) :
    (∀ (h : Host) (n : ℕ) (w : World), 1 ≤ n → as.length < h.fuel → ∃ (ys : List Value) (v : World),
      readBack (h.up n) x w = .ok (.ref .list w.lists.size) v ∧ v.lists = w.lists.push ys.toArray ∧
        List.Forall₂ Alike (edgesBack x) (ys.filter isEdge)) ∧
    (∀ w : World, ∀ a ∈ edgesBack x, ∀ b ∈ edgesBack x,
      w.same a b = .ok (Value.coincides a.node.base b.node.base)) ∧
    ∃ r : Option ℕ, (∀ w j, r = some j ↔ IsLeast {j | World.Repeats w (edgesBack x) j} j) ∧
      ∀ H : Host,
        let find (depth : List Value) : M Value := H.callOp .repeatedEdge (x :: depth) []
        find [] = handOut (edgeAt (edgesBack x) r) ∧
        (∀ d : ℕ, 1 ≤ d → find [.int d] = handOut (edgeAt (edgesBack x) (r.filter (· ≤ d)))) ∧
        (∀ (d d' : ℕ) (w u : World) (y : Value), 1 ≤ d → d ≤ d' → find [.int d] w = .ok y u →
          y ≠ .null → find [.int d'] w = .ok y u) ∧
        ∃ D : ℕ, 1 ≤ D ∧ ∀ d : ℕ, D ≤ d → find [.int d] = find [] := by
  obtain ⟨hbroken, hform, hlinks⟩ := Value.links_of_form hx htracked has
  have hback : ∀ b ∈ edgesBack x, b.ofGraph = true := fun b => ofGraph_of_mem_edgesBack hlinks
  refine ⟨fun h n w hn hfuel => ?_, fun w a ha b hb => ?_, ?_⟩
  · obtain ⟨ys, v, hread, hlists, hys⟩ := readBack_eq hx htracked has hn hfuel w
    exact ⟨ys, v, hread, hlists, forall₂_alike_edgesBack hlinks (hys.trans hform.symm)⟩
  · rw [same_of_ofGraph w (hback a ha) (hback b hb), Value.key?_beq_of_ofGraph (hback a ha) (hback b hb)]
  -- keys are the same in every world, so the first repeat among them is the first one in each
  obtain ⟨r, hr⟩ := exists_first (Recurs ∅ ((edgesBack x).map Value.spell))
  refine ⟨r, fun w j => ?_, fun H => ?_⟩
  · have hset : {j | World.Repeats w (edgesBack x) j} =
        {j | Recurs ∅ ((edgesBack x).map Value.spell) j} := Set.ext fun j => repeats_iff hback w
    rw [hset, hr]
  intro find
  have hall : find [] = handOut (edgeAt (edgesBack x) r) := by
    have hr' : r.filter (fun j => (none : Option ℕ).all (j ≤ ·)) = r := by cases r <;> rfl
    have hnull := callOp_repeatedEdge htracked hbroken hlinks hr none nofun H
    rw [hr'] at hnull
    exact hnull
  have hbound : ∀ d : ℕ, 1 ≤ d → find [.int d] = handOut (edgeAt (edgesBack x) (r.filter (· ≤ d))) :=
    fun d hd => callOp_repeatedEdge htracked hbroken hlinks hr (some d)
      (by rintro _ ⟨⟩; exact hd) H
  refine ⟨hall, hbound, fun d d' w u y hd hdd' hfound hy => ?_, r.getD 0 + 1, Nat.le_add_left 1 _,
    fun d hd => ?_⟩
  · have hne : r.filter (· ≤ d) ≠ none := by
      intro hnone
      rw [hbound d hd, hnone] at hfound
      cases hfound
      exact hy rfl
    rw [hbound d' (hd.trans hdd'), filter_le_of_le hdd' hne, ← hbound d hd]
    exact hfound
  · rw [hbound d ((Nat.le_add_left 1 _).trans hd), hall]
    cases r with
    | none => rfl
    | some j =>
        have hj : j ≤ d := (Nat.le_succ j).trans hd
        rw [Option.filter_some, if_pos (decide_eq_true hj)]

/-- From a vertex along an edge to another one, along a loop there, and back along the first edge. -/
def thereAndBack : Value :=
  let v (i : ℕ) : Node := .plain (.vertex ⟨0, i⟩ none)
  let e (index source : ℕ) (side : Side) : Node :=
    .plain (.edge (.stored 0 { index, source, target := 1, reached := some side }) none)
  let start : Node := .root .vertex (v 0) none
  let there := (start.reach .edge (e 0 0 .outgoing)).reach .vertex (v 1)
  let around := (there.reach .edge (e 1 1 .outgoing)).reach .vertex (v 1)
  .ofNode ((around.reach .edge (e 0 0 .incoming)).reach .vertex (v 0))

/-- The edge that was used twice stands at position 2, counted from the end of the way.  A search that may
remember two edges finds it, and one that may remember one does not. -/
theorem finds_first_repeat_thereAndBack :
    let as := thereAndBack.node.links.reverse
    thereAndBack.form.path? = some as ∧ thereAndBack.isTracked = true ∧
      (∀ a ∈ as, a.base.sort.isSome = true) ∧
    ∃ (ys : List Value) (b : Value) (v : World),
      readBack (host 3) thereAndBack {} = .ok (.ref .list 0) v ∧ v.lists = #[ys.toArray] ∧
      List.Forall₂ Alike (edgesBack thereAndBack) (ys.filter isEdge) ∧
      (edgesBack thereAndBack)[2]? = some b ∧
      (host 3).callOp .repeatedEdge [thereAndBack, .int 2] [] = handOut b ∧
      (host 3).callOp .repeatedEdge [thereAndBack, .int 1] [] = pure .null := by
  intro as
  have hx : thereAndBack.form.path? = some as := rfl
  have has : ∀ a ∈ as, a.base.sort.isSome = true := by decide
  obtain ⟨hread, hsame, r, hr, hfind⟩ := finds_first_repeat hx rfl has
  obtain ⟨ys, v, hys, hlists, halike⟩ := hread (host 0) 3 {} (by decide) (by decide)
  have hfirst : IsLeast {j | World.Repeats {} (edgesBack thereAndBack) j} 2 := by
    have hin {i : ℕ} {b : Value} := List.mem_of_getElem? (l := edgesBack thereAndBack) (i := i) (a := b)
    refine ⟨⟨0, by decide, _, _, rfl, rfl, (hsame {} _ (hin (i := 2) rfl) _ (hin (i := 0) rfl)).trans rfl⟩, ?_⟩
    rintro j ⟨i, hij, a, b, ha, hb, hab⟩
    by_contra hj
    -- no other pair is left below position 2, and these two edges differ
    obtain ⟨rfl, rfl⟩ : i = 0 ∧ j = 1 := by omega
    rw [hsame {} b (hin hb) a (hin ha)] at hab
    cases ha
    cases hb
    cases hab
  obtain rfl : r = some 2 := (hr {} 2).2 hfirst
  obtain ⟨-, hbound, -⟩ := hfind (host 3)
  exact ⟨hx, rfl, has, ys, _, v, hys, hlists, halike, rfl, hbound 2 (by decide), hbound 1 (by decide)⟩

end Session

end GraphRoutes
