/-
**The visits of a search on a finite graph, as a list.**

A search for everything visits an element, then what is below it, then its siblings.  Where it cuts
cycles, it goes below an element only if no ancestor is equal to it, so on a graph with finitely many
keys it comes to an end, although the graph may have cycles.  What it visits can then be written down
in advance: a list of elements with their ancestors, in pre-order.

The invariant is that ancestors are visited elements that the search has gone below
(`GraphRoutes.Graph.Visited`).  It bounds their number, as they have distinct keys, and says what the
trail of every level holds.

Main definitions:

* `GraphRoutes.Trail.ofItems` — the trail of given ancestors;
* `GraphRoutes.Graph.isFresh`, `GraphRoutes.Graph.admits` — whether the search goes below an element;
* `GraphRoutes.Graph.visits` — **the visits at and below an element, in pre-order**;
* `GraphRoutes.Graph.Visited` — an element is visited below its ancestors;
* `GraphRoutes.Graph.Steps`, `GraphRoutes.Graph.Reachable` — what is reached from a route;
* `GraphRoutes.Graph.IsFinite` — the keys of that are finitely many.

Main results:

* `GraphRoutes.Graph.visits_eq`, `GraphRoutes.Graph.mem_visits_iff` — the list solves its equation
  without a bound on the depth, and lists what is visited;
* `GraphRoutes.Graph.shallow_of_isFinite` — no more levels than keys;
* `GraphRoutes.Graph.roam_eq_visits`, `GraphRoutes.Graph.search_eq_visits` — **the search makes these
  visits, in this order, and ends.**
-/
import GraphRoutes.Proofs.Search.Sieve
import Mathlib.Data.Set.Card

set_option relaxedAutoImplicit false
set_option autoImplicit false

namespace GraphRoutes

variable {ω ε α κ β key : Type}

/-- The trail that holds the given ancestors. -/
def Trail.ofItems (kind : TrailKind) (items : List α) : Trail α :=
  { kind, newestFirst := items.reverse }

@[simp] theorem Trail.items_ofItems (kind : TrailKind) (items : List α) :
    (Trail.ofItems kind items).items = items := by simp [Trail.ofItems, Trail.items]

@[simp] theorem Trail.length_ofItems (kind : TrailKind) (items : List α) :
    (Trail.ofItems kind items).length = items.length := by simp [Trail.ofItems, Trail.length]

namespace Graph

open Course

variable (g : Graph α key)

/-! ### The visits, in advance -/

section Visits

variable (admits : List α → α → Bool)

/-- The visits at and below an element with the ancestors `p`, no more than `d` levels down. -/
def visits : ℕ → List α → α → List (List α × α)
  | 0, p, a => [(p, a)]
  | d + 1, p, a => (p, a) :: if admits p a then (g.succ a).flatMap (visits d (p ++ [a])) else []

/-- The element is visited below the ancestors, in a search from the route `r`. -/
inductive Visited (r : List α) : List α → α → Prop
  | start {a : α} : a ∈ r → Visited r [] a
  | step {p : List α} {a b : α} : Visited r p a → admits p a = true → b ∈ g.succ a →
      Visited r (p ++ [a]) b

/-- The search goes below no element that has `d` ancestors or more. -/
def Shallow (r : List α) (d : ℕ) : Prop :=
  ∀ p a, Visited g admits r p a → admits p a = true → p.length < d

variable {g admits} {r p q : List α} {a b : α} {d : ℕ}

theorem visits_self : (p, a) ∈ visits g admits d p a := by
  cases d <;> simp [visits]

/-- What is visited beyond an element is visited beyond a child of it. -/
theorem mem_visits_succ {x : List α × α} : x ∈ visits g admits (d + 1) p a ↔
    x = (p, a) ∨ admits p a = true ∧ ∃ y ∈ g.succ a, x ∈ visits g admits d (p ++ [a]) y := by
  rw [visits, List.mem_cons]
  by_cases h : admits p a = true
  · rw [if_pos h, List.mem_flatMap, and_iff_right h]
  · rw [if_neg h]
    simp only [h, List.not_mem_nil, Bool.false_eq_true, false_and]

theorem visited_of_mem_visits (h : Visited g admits r p a) (hm : (q, b) ∈ visits g admits d p a) :
    Visited g admits r q b := by
  induction d generalizing p a with
  | zero =>
      simp only [visits, List.mem_singleton, Prod.mk.injEq] at hm
      obtain ⟨rfl, rfl⟩ := hm
      exact h
  | succ d ih =>
      rcases mem_visits_succ.1 hm with hself | ⟨hadmits, y, hy, hm⟩
      · cases hself
        exact h
      · exact ih (h.step hadmits hy) hm

/-- What is admitted is followed by its children. -/
theorem mem_visits_step (hm : (q, b) ∈ visits g admits d p a) (hd : q.length < p.length + d)
    (hadmits : admits q b = true) {y : α} (hy : y ∈ g.succ b) :
    (q ++ [b], y) ∈ visits g admits d p a := by
  induction d generalizing p a with
  | zero =>
      simp only [visits, List.mem_singleton, Prod.mk.injEq] at hm
      obtain ⟨rfl, rfl⟩ := hm
      exact absurd hd (Nat.lt_irrefl _)
  | succ d ih =>
      refine mem_visits_succ.2 (.inr ?_)
      rcases mem_visits_succ.1 hm with hself | ⟨ha, x, hx, hm⟩
      · cases hself
        exact ⟨hadmits, y, hy, visits_self⟩
      · refine ⟨ha, x, hx, ih hm ?_⟩
        simp only [List.length_append, List.length_singleton]
        omega

/-- **The visits are those that there are.** -/
theorem mem_visits_iff (hd : Shallow g admits r d) :
    (p, a) ∈ r.flatMap (visits g admits d []) ↔ Visited g admits r p a := by
  constructor
  · intro hm
    obtain ⟨x, hx, hm⟩ := List.mem_flatMap.1 hm
    exact visited_of_mem_visits (Visited.start hx) hm
  · intro h
    induction h with
    | start ha => exact List.mem_flatMap.2 ⟨_, ha, visits_self⟩
    | step h hadmits hb ih =>
        obtain ⟨x, hx, hm⟩ := List.mem_flatMap.1 ih
        have hlt := hd _ _ h hadmits
        exact List.mem_flatMap.2 ⟨x, hx, mem_visits_step hm (by simpa using hlt) hadmits hb⟩

/-- No visit has more ancestors than the search may have. -/
theorem Visited.length_le (h : Visited g admits r p a) (hd : Shallow g admits r d) :
    p.length ≤ d := by
  cases h with
  | start _ => exact Nat.zero_le d
  | step h hadmits _ =>
      have hlt := hd _ _ h hadmits
      simp only [List.length_append, List.length_singleton]
      omega

/-- The first visit is that of the element itself, and what comes after it stands below it. -/
theorem exists_append_of_mem_visits (hm : (q, b) ∈ visits g admits d p a) :
    ∃ as, q ++ [b] = p ++ a :: as := by
  induction d generalizing p a with
  | zero =>
      simp only [visits, List.mem_singleton, Prod.mk.injEq] at hm
      obtain ⟨rfl, rfl⟩ := hm
      exact ⟨[], rfl⟩
  | succ d ih =>
      rcases mem_visits_succ.1 hm with hself | ⟨_, x, _, hm⟩
      · cases hself
        exact ⟨[], rfl⟩
      · obtain ⟨as, has⟩ := ih hm
        exact ⟨x :: as, by rw [has, List.append_assoc]; rfl⟩

/-- It does not matter how deep the visits may go, if that is deep enough. -/
theorem visits_congr {D e : ℕ} (hD : Shallow g admits r D) (h : Visited g admits r p a)
    (hd : D ≤ p.length + d) (he : D ≤ p.length + e) :
    visits g admits d p a = visits g admits e p a := by
  have stops : ∀ {p a}, Visited g admits r p a → D ≤ p.length + 0 → admits p a ≠ true :=
    fun h hle hadmits => absurd (hD _ _ h hadmits) (Nat.not_lt.2 hle)
  induction d generalizing p a e with
  | zero =>
      cases e with
      | zero => rfl
      | succ e => rw [visits, visits, if_neg (stops h hd)]
  | succ d ih =>
      cases e with
      | zero => rw [visits, visits, if_neg (stops h he)]
      | succ e =>
          rw [visits, visits]
          by_cases hadmits : admits p a = true
          · rw [if_pos hadmits, if_pos hadmits]
            have deeper : ∀ {k}, D ≤ p.length + (k + 1) → D ≤ (p ++ [a]).length + k := by
              intro k hk
              simp only [List.length_append, List.length_singleton]
              omega
            congr 1
            refine List.flatMap_congr fun b hb => ?_
            exact ih (h.step hadmits hb) (deeper hd) (deeper he)
          · rw [if_neg hadmits, if_neg hadmits]

/-- **The visits at and below an element**, without a bound on how deep they go. -/
theorem visits_eq {D : ℕ} (hD : Shallow g admits r D) (h : Visited g admits r p a)
    (hd : D ≤ p.length + d) :
    visits g admits d p a =
      (p, a) :: if admits p a then (g.succ a).flatMap (visits g admits d (p ++ [a])) else [] := by
  have hsucc : D ≤ p.length + (d + 1) := hd.trans (Nat.le_succ _)
  rw [visits_congr hD h hd hsucc, visits]

end Visits

/-! ### Searches that cut cycles -/

section Cycles

variable [DecidableEq key]

/-- Whether no ancestor is equal to the element. -/
def isFresh (p : List α) (a : α) : Bool := decide (g.keyOf a ∉ p.map g.keyOf)

/-- Whether a search goes below an element with the ancestors `p`. -/
def admits (kind : TrailKind) (s : Sieve α) (p : List α) (a : α) : Bool :=
  g.isFresh p a && s.allows (Trail.ofItems kind p) a

variable {g}

theorem isFresh_iff {p : List α} {a : α} :
    g.isFresh p a = true ↔ g.keyOf a ∉ p.map g.keyOf := decide_eq_true_iff

/-- One element more, and still no two are equal. -/
theorem nodup_concat_iff {p : List α} {a : α} :
    ((p ++ [a]).map g.keyOf).Nodup ↔ (p.map g.keyOf).Nodup ∧ g.isFresh p a = true := by
  rw [List.map_append, List.nodup_append', isFresh_iff]
  simp

theorem isFresh_of_admits {kind : TrailKind} {s : Sieve α} {p : List α} {a : α}
    (h : g.admits kind s p a = true) : g.isFresh p a = true :=
  (Bool.and_eq_true_iff.1 h).1

variable (c : Caller ω ε α κ β) (result : Trail α → α → β) {kind : TrailKind} {s : Sieve α}
  {p : List α} {a : α}

theorem mem?_ofItems (ha : (g.keyOf a).isSome) :
    (Trail.ofItems kind p).mem? g.keyOf a = some (!g.isFresh p a) := by
  obtain ⟨k, hk⟩ := Option.isSome_iff_exists.1 ha
  simp only [Trail.mem?, hk, Option.some.injEq]
  rw [isFresh, Bool.eq_iff_iff]
  simp only [Trail.ofItems, hk, List.any_reverse, List.any_eq_true, Bool.not_eq_true',
    decide_eq_false_iff_not, not_not, List.mem_map]
  refine exists_congr fun b => and_congr_right fun _ => ?_
  cases g.keyOf b <;> simp

theorem extend_ofItems (hkind : kind = .set ∨ kind = .indexed) (ha : (g.keyOf a).isSome)
    (hfresh : g.isFresh p a = true) :
    (Trail.ofItems kind p).extend g.keyOf a none = Trail.ofItems kind (p ++ [a]) := by
  have hmem : (Trail.ofItems kind p).mem? g.keyOf a = some false := by
    rw [mem?_ofItems ha, hfresh]
    rfl
  have hitems : a :: p.reverse = (p ++ [a]).reverse := by simp
  rcases hkind with rfl | rfl
  · change (if (Trail.ofItems .set p).mem? g.keyOf a = some true then _ else _) = _
    rw [hmem, if_neg nofun]
    exact congrArg (fun items => ({ kind := .set, newestFirst := items } : Trail α)) hitems
  · exact congrArg (fun items => ({ kind := .indexed, newestFirst := items } : Trail α)) hitems

/-- What the tests come to, for an element with a key. -/
theorem passes_ofItems (hcut : s.cutCycles = true) (ha : (g.keyOf a).isSome) (scope : Search.Scope)
    (givesPaths : Bool) :
    Search.passes (host g c result) (s.plan scope givesPaths) (Trail.ofItems kind p) a =
      pure (g.admits kind s p a) := by
  have hnew : Search.isNew (host g c result) (Trail.ofItems kind p) a = pure (g.isFresh p a) := by
    simp only [Search.isNew, host, mem?_ofItems ha, Act.ofOption_some, pure_bind, Bool.not_not]
  rw [passes_plan, hcut, if_pos rfl, hnew]
  exact Search.both_pure _ _

variable (s) (limits : Limits) (consume : β → Act ω ε Unit) (givesPaths : Bool)

/-- Nothing is done at a level without candidates. -/
theorem roam_nil (plan : Search.Plan ω ε α) (path : Trail α) (depth : ℕ) :
    Walk.roam (walk g c result plan) limits consume { path, depth, candidates := .inr [] } =
      pure () := by
  rw [Walk.roam_eq]
  rfl

/-- Below an element with a key its children are visited, if it is admitted. -/
theorem roamBelow_ofItems (scope : Search.Scope) (hcut : s.cutCycles = true)
    (hkind : kind = .set ∨ kind = .indexed) (hdepth : limits.maxDepth = none)
    (ha : (g.keyOf a).isSome) {i : Instruction Bool} (hdescend : i.descend = true)
    (hreset : i.resetPath = false) (depth : ℕ) (candidates : κ ⊕ List α) :
    let W := walk g c.silent result (s.plan scope givesPaths)
    Walk.roamBelow W limits (Walk.roam W limits consume)
        { path := Trail.ofItems kind p, depth, candidates } a i =
      Walk.roam W limits consume
        { path := Trail.ofItems kind (p ++ [a]), depth := depth + 1,
          candidates := .inr (if g.admits kind s p a then g.succ a else []) } := by
  intro W
  have htruth : ∀ d, W.truth d = pure d := fun _ => rfl
  have hextend : W.extend (Trail.ofItems kind p) a =
      pure ((Trail.ofItems kind p).extend g.keyOf a none) := extend_keyed g c.silent result _ ha
  have hchildren : W.children (Trail.ofItems kind p) a =
      pure (.inr (if g.admits kind s p a then g.succ a else [])) := by
    change expand g c.silent result (s.plan scope givesPaths) _ _ = _
    rw [expand, passes_ofItems c.silent result hcut ha]
    cases g.admits kind s p a with
    | true =>
        simp only [pure_bind, if_true]
        split <;> rfl
    | false => rfl
  simp only [Walk.roamBelow, hdescend, hreset, hdepth, Option.any_none, Bool.not_true, Bool.or_false,
    Bool.false_eq_true, if_false, Walk.childPath, htruth, hextend, hchildren, act_pure, pure_bind]
  by_cases hadmits : g.admits kind s p a = true
  · rw [extend_ofItems hkind ha (isFresh_of_admits hadmits)]
  · -- the trail may hold an ancestor that is equal to the element, but nothing is visited below it
    simp only [hadmits, Bool.false_eq_true, if_false]
    exact (roam_nil c.silent result limits consume _ _ _).trans
      (roam_nil c.silent result limits consume _ _ _).symm

/-- A visit: the element is given, then its children are visited if it is admitted, and its siblings
come after that. -/
theorem roam_cons (hcut : s.cutCycles = true) (hkind : kind = .set ∨ kind = .indexed)
    (hdepth : limits.maxDepth = none) (ha : (g.keyOf a).isSome) (as : List α) (depth : ℕ) :
    let roam := Walk.roam (walk g c.silent result (s.plan .everything givesPaths)) limits consume
    roam { path := Trail.ofItems kind p, depth, candidates := .inr (a :: as) } = (do
      act (consume (result (Trail.ofItems kind p) a))
      roam { path := Trail.ofItems kind (p ++ [a]), depth := depth + 1,
             candidates := .inr (if g.admits kind s p a then g.succ a else []) }
      roam { path := Trail.ofItems kind p, depth, candidates := .inr as }) := by
  intro roam
  let W := walk g c.silent result (s.plan .everything givesPaths)
  have hbelow : Walk.roamBelow W limits roam
      { path := Trail.ofItems kind p, depth, candidates := .inr (a :: as) } a
        Preset.emitAndContinue.instruction =
      roam { path := Trail.ofItems kind (p ++ [a]), depth := depth + 1,
             candidates := .inr (if g.admits kind s p a then g.succ a else []) } :=
    roamBelow_ofItems c result s limits consume givesPaths .everything hcut hkind hdepth ha rfl rfl _ _
  have hoffer : Walk.offer W consume (Trail.ofItems kind p) a Preset.emitAndContinue.instruction =
      act (consume (result (Trail.ofItems kind p) a)) := rfl
  change Walk.roam W limits consume _ = _
  rw [Walk.roam_eq, ← hbelow, ← hoffer]
  rfl

/-- The visits at one level, when those at the levels below it are known. -/
theorem roam_level (hcut : s.cutCycles = true) (hkind : kind = .set ∨ kind = .indexed)
    (hdepth : limits.maxDepth = none) {as : List α} (has : ∀ a ∈ as, (g.keyOf a).isSome)
    (rest : α → List (List α × α)) (give : List α × α → Act ω ε Unit)
    (hgive : ∀ v, give v = consume (result (Trail.ofItems kind v.1) v.2))
    (hbelow : ∀ a ∈ as, ∀ depth,
      Walk.roam (walk g c.silent result (s.plan .everything givesPaths)) limits consume
          { path := Trail.ofItems kind (p ++ [a]), depth,
            candidates := .inr (if g.admits kind s p a then g.succ a else []) } =
        act ((rest a).forM give)) (depth : ℕ) :
    Walk.roam (walk g c.silent result (s.plan .everything givesPaths)) limits consume
        { path := Trail.ofItems kind p, depth, candidates := .inr as } =
      act ((as.flatMap fun a => (p, a) :: rest a).forM give) := by
  induction as with
  | nil => exact roam_nil c.silent result limits consume _ _ _
  | cons a as ih =>
      have hcons := roam_cons c result s limits consume givesPaths hcut hkind hdepth
        (has a List.mem_cons_self) as depth (p := p)
      rw [hcons, hbelow a List.mem_cons_self,
        ih (fun b hb => has b (List.mem_cons_of_mem _ hb))
          (fun b hb => hbelow b (List.mem_cons_of_mem _ hb)), ← hgive (p, a)]
      simp only [List.flatMap_cons, List.forM_eq_forM, List.forM_append, List.forM_cons, act_bind,
        bind_assoc]

/-- **The search makes its visits**, in order, and ends. -/
theorem roam_eq_visits {r : List α} {D : ℕ} (hcut : s.cutCycles = true)
    (hkind : kind = .set ∨ kind = .indexed) (hdepth : limits.maxDepth = none)
    (hkeys : ∀ p a, Visited g (g.admits kind s) r p a → (g.keyOf a).isSome)
    (hD : Shallow g (g.admits kind s) r D) (d depth : ℕ) (p as : List α) (hd : D ≤ p.length + d)
    (has : ∀ a ∈ as, Visited g (g.admits kind s) r p a) :
    Walk.roam (walk g c.silent result (s.plan .everything givesPaths)) limits consume
        { path := Trail.ofItems kind p, depth, candidates := .inr as } =
      act ((as.flatMap (visits g (g.admits kind s) d p)).forM fun v =>
        consume (result (Trail.ofItems kind v.1) v.2)) := by
  induction d generalizing p as depth with
  | zero =>
      refine roam_level c result s limits consume givesPaths hcut hkind hdepth
        (fun a ha => hkeys p a (has a ha)) (fun _ => []) _ (fun _ => rfl) ?_ depth
      intro a ha depth
      have hstop : ¬ g.admits kind s p a = true :=
        fun h => absurd (hD p a (has a ha) h) (Nat.not_lt.2 hd)
      rw [if_neg hstop]
      exact roam_nil c.silent result limits consume _ _ _
  | succ d ih =>
      refine roam_level c result s limits consume givesPaths hcut hkind hdepth
        (fun a ha => hkeys p a (has a ha)) _ _ (fun _ => rfl) ?_ depth
      intro a ha depth
      by_cases hadmits : g.admits kind s p a = true
      · rw [if_pos hadmits, if_pos hadmits]
        refine ih depth (p ++ [a]) (g.succ a) ?_ fun b hb => (has a ha).step hadmits hb
        simp only [List.length_append, List.length_singleton]
        omega
      · rw [if_neg hadmits, if_neg hadmits]
        exact roam_nil c.silent result limits consume _ _ _

end Cycles

/-- **A search from its beginning** makes its visits, in order, and ends. -/
theorem search_eq_visits [DecidableEq key] (c : Caller ω ε α κ β) (form : Form α β) (s : Sieve α)
    (limits : Limits) {r : List α} {d : ℕ} {kind : TrailKind} (hcut : s.cutCycles = true)
    (hkind : (s.plan (ω := ω) (ε := ε) .everything form.givesPaths).trailKind = kind)
    (hceiling : 1 < limits.ceiling) (hdepth : limits.maxDepth = none)
    (hkeys : ∀ p a, Visited g (g.admits kind s) r p a → (g.keyOf a).isSome)
    (hd : Shallow g (g.admits kind s) r d) (consume : β → Act ω ε Unit) :
    search g c.silent form s .everything limits consume (.inr r) =
      act ((r.flatMap (visits g (g.admits kind s) d [])).forM fun v =>
        consume (form.result (Trail.ofItems kind v.1) v.2)) := by
  have kept : kind = .set ∨ kind = .indexed := by
    rw [← hkind]
    exact Sieve.trailKind_plan hcut .everything form.givesPaths
  rw [search_everything g c.silent s form hceiling consume, hkind]
  exact roam_eq_visits c form.result s limits consume form.givesPaths hcut kept hdepth hkeys hd d 0 []
    r (Nat.le_add_left _ _) fun a ha => Visited.start ha

/-! ### Finite graphs -/

section Reachability

/-- The element stands at the end of `n` steps from the route. -/
inductive Steps (r : List α) : ℕ → α → Prop
  | start {a : α} : a ∈ r → Steps r 0 a
  | step {n : ℕ} {a b : α} : Steps r n a → b ∈ g.succ a → Steps r (n + 1) b

/-- The element is reached from the route. -/
def Reachable (r : List α) (a : α) : Prop := ∃ n, Steps g r n a

/-- The keys of what is reached from the route. -/
def keys (r : List α) : Set key := {k | ∃ a, Reachable g r a ∧ g.keyOf a = some k}

/-- What is reached from the route has keys, and only finitely many. -/
structure IsFinite (r : List α) : Prop where
  keyed : ∀ a, Reachable g r a → (g.keyOf a).isSome
  finite : (keys g r).Finite

variable {g} {admits : List α → α → Bool} {r p : List α} {a : α}

theorem Visited.steps (h : Visited g admits r p a) : Steps g r p.length a := by
  induction h with
  | start ha => exact Steps.start ha
  | step _ _ hb ih =>
      rw [List.length_append, List.length_singleton]
      exact ih.step hb

theorem Visited.reachable (h : Visited g admits r p a) : Reachable g r a := ⟨p.length, h.steps⟩

theorem Visited.reachable_of_mem (h : Visited g admits r p a) {x : α} (hx : x ∈ p) :
    Reachable g r x := by
  induction h with
  | start _ => cases hx
  | step h _ _ ih =>
      rcases List.mem_append.1 hx with hx | hx
      · exact ih hx
      · rw [List.mem_singleton.1 hx]
        exact h.reachable

variable [DecidableEq key]

/-- The ancestors of a visited element are pairwise different. -/
theorem Visited.nodup (hfresh : ∀ p a, admits p a = true → g.isFresh p a = true)
    (h : Visited g admits r p a) : (p.map g.keyOf).Nodup := by
  induction h with
  | start _ => exact List.nodup_nil
  | @step p a b _ hadmits _ ih => exact nodup_concat_iff.2 ⟨ih, hfresh p a hadmits⟩

/-- **A search that cuts cycles does not go deeper than there are keys.** -/
theorem shallow_of_isFinite (h : IsFinite g r)
    (hfresh : ∀ p a, admits p a = true → g.isFresh p a = true) :
    Shallow g admits r (keys g r).ncard := by
  intro p a hv hadmits
  have hnodup : ((p ++ [a]).map g.keyOf).Nodup :=
    nodup_concat_iff.2 ⟨hv.nodup hfresh, hfresh p a hadmits⟩
  have hsub : ((p ++ [a]).map g.keyOf).toFinset ⊆ h.finite.toFinset.image some := by
    intro o ho
    obtain ⟨x, hx, rfl⟩ := List.mem_map.1 (List.mem_toFinset.1 ho)
    have hreach : Reachable g r x := by
      rcases List.mem_append.1 hx with hx | hx
      · exact hv.reachable_of_mem hx
      · rw [List.mem_singleton.1 hx]
        exact hv.reachable
    obtain ⟨k, hk⟩ := Option.isSome_iff_exists.1 (h.keyed x hreach)
    rw [hk]
    exact Finset.mem_image_of_mem _ (h.finite.mem_toFinset.2 ⟨x, hreach, hk⟩)
  have hcard := Finset.card_le_card hsub
  rw [List.toFinset_card_of_nodup hnodup, List.length_map, List.length_append,
    List.length_singleton, Finset.card_image_of_injective _ (Option.some_injective _),
    ← Set.ncard_eq_toFinset_card _ h.finite] at hcard
  omega

end Reachability

end Graph

end GraphRoutes
