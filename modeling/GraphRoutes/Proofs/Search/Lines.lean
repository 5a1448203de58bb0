/-
**Every search goes along lines.**

Wherever a search stands that keeps its ancestors in order, they form a line: the first of them is an
element of the route, and each other one is a child of the one before.  This is so in every scope, and
whether cycles are cut or not.  It does not matter either that a search for leaves begins to read the
children of an element before it goes below it: what stands in the slot while the search is about to
go below an element are children of this very element, and they are handed on to the level below.

The invariant needs no world.  Its only assumption is that a source without items never gives any,
whoever reads it, since such a source stands on every level that the tests have closed.

Main definitions:

* `GraphRoutes.Search.Ahead.Offers` — the items of a source whose first one may have been read;
* `GraphRoutes.Terrain.Barren` — a source without items never gives any;
* `GraphRoutes.Terrain.Begun` — children in the slot are those of an element;
* `GraphRoutes.Terrain.Lined` — the invariant of the walk.

Main results:

* `GraphRoutes.Terrain.Lined.skip`, `GraphRoutes.Terrain.Lined.give` — what one step keeps;
* `GraphRoutes.Terrain.lined_of_reached` — every run of a search goes along lines;
* `GraphRoutes.Terrain.line_of_gives` — **what a search for paths gives is a line**, and a return in a
  search for returns.
-/
import GraphRoutes.Proofs.Search.Branch

set_option relaxedAutoImplicit false
set_option autoImplicit false

namespace GraphRoutes

open Search

variable {ω ε α κ β key : Type}

/-! ### Sources whose first item may have been read -/

namespace Search.Ahead

/-- The items of a source whose first one may have been read. -/
def Offers (next : Source ω ε κ α) (k : Ahead α κ) (b : α) : Prop :=
  k.first = some b ∨ Source.Item next k.rest b

variable {next : Source ω ε κ α} {k : κ} {b : α}

/-- A source that has not been begun offers its items. -/
@[simp] theorem offers_unread : ({ rest := k } : Ahead α κ).Offers next b ↔ Source.Item next k b := by
  simp [Offers]

/-- What is read was offered, and so is what comes behind it. -/
theorem offers_of_next {k k' : Ahead α κ} {a : α} {w v : ω}
    (h : Ahead.next next k w = .ok (some (a, k')) v) :
    k.Offers next a ∧ ∀ b, k'.Offers next b → k.Offers next b := by
  obtain ⟨first, rest⟩ := k
  cases first with
  | some c =>
      cases h
      exact ⟨.inl rfl, fun b hb => .inr (offers_unread.1 hb)⟩
  | none =>
      obtain ⟨found, u, hfound, h⟩ := Act.bind_eq_ok_iff.1 h
      rcases found with _ | ⟨c, k''⟩
      · cases h
      · cases h
        exact ⟨.inr (.here hfound), fun b hb => .inr (.later hfound (offers_unread.1 hb))⟩

end Search.Ahead

/-- What a source that is a list gives is in the list. -/
theorem Graph.mem_of_item {c : Graph.Caller ω ε α κ β} {as : List α} {b : α}
    (hb : Source.Item c.next (.inr as) b) : b ∈ as := by
  induction as with
  | nil =>
      cases hb with
      | here h => cases h
      | later h _ => cases h
  | cons a as ih =>
      cases hb with
      | here h =>
          cases h
          exact List.mem_cons_self
      | later h hb =>
          cases h
          exact List.mem_cons_of_mem a (ih hb)

namespace Terrain

/-- A source without items never gives any, whoever reads it. -/
def Barren (T : Terrain ω ε α κ key) : Prop :=
  ∀ w k v, T.nothing w = .ok k v → ∀ b, ¬ Source.Item T.next k b

/-- On a graph a source without items is an empty list. -/
theorem barren_ofGraph (g : Graph α key) (c : Graph.Caller ω ε α κ β) : (ofGraph g c).Barren := by
  rintro w k v ⟨⟩ b hb
  cases Graph.mem_of_item hb

/-- On a graph the children of an element are those of the graph. -/
theorem mem_succ_of_isChild {g : Graph α key} {c : Graph.Caller ω ε α κ β} {a b : α}
    (h : (ofGraph g c).IsChild a b) : b ∈ g.succ a := by
  obtain ⟨w, k, v, hk, hb⟩ := h
  obtain ⟨⟨⟩, u, -, hk⟩ := Act.bind_eq_ok_iff.1 hk
  cases hk
  exact Graph.mem_of_item hb

/-- Children that were begun and stand in the slot are those of `a`. -/
def Begun (T : Terrain ω ε α κ key) (a : α) (slot : Slot α κ) : Prop :=
  ∀ c ∈ slot, ∀ b, c.children.Offers T.next b → T.IsChild a b

/-- Nothing was begun in an empty slot. -/
theorem begun_none (T : Terrain ω ε α κ key) (a : α) : T.Begun a none := nofun

/-- A level whose ancestors form a line, and whose candidates continue it. -/
structure Lineal (T : Terrain ω ε α κ key) (route : κ) (frame : Frame (Trail α) (Ahead α κ)) :
    Prop where
  ordered : frame.path.kind = .sequence ∨ frame.path.kind = .indexed
  line : T.Line route frame.path.items
  met : ∀ k ∈ frame.candidates, ∀ a, k.Offers T.next a → T.Met route frame.path.items a

/-- **The invariant of a search that keeps its ancestors in order.**  The slot may only be filled in a
search for leaves; what it holds matters while an element is pending. -/
structure Lined (T : Terrain ω ε α κ key) (scope : Scope) (route : κ)
    (s : Walk α (Trail α) (Ahead α κ) Bool) (slot : Slot α κ) : Prop where
  lineal : ∀ f ∈ s.levels, T.Lineal route f
  idle : scope ≠ .leaves → slot = none
  keeps : ∀ p ∈ s.pending, p.resetPath = false
  met : ∀ p ∈ s.pending, ∀ f ∈ s.levels.head?, T.Met route f.path.items p.element
  begun : ∀ p ∈ s.pending, T.Begun p.element slot

variable {T : Terrain ω ε α κ key} {guide : Guide ω ε α} {form : Graph.Form α β}
  {criteria : Criteria ω ε α} {scope : Scope} {limits : Limits} {route : κ} {t : Trail α} {a : α}
  {s s' : Walk α (Trail α) (Ahead α κ) Bool} {w v : Slot α κ × ω}
  {frame : Frame (Trail α) (Ahead α κ)} {outer : List (Frame (Trail α) (Ahead α κ))} {n : ℕ}

/-- A level without candidates, to be left. -/
theorem Lineal.dropped (h : T.Lineal route frame) :
    T.Lineal route { frame with candidates := none } :=
  ⟨h.ordered, h.line, nofun⟩

/-- Nothing is pending. -/
theorem Lined.of_levels {levels : List (Frame (Trail α) (Ahead α κ))} {slot : Slot α κ}
    (hlevels : ∀ f ∈ levels, T.Lineal route f) (hidle : scope ≠ .leaves → slot = none) :
    T.Lined scope route { levels, fruitless := n } slot :=
  ⟨hlevels, hidle, nofun, nofun, nofun⟩

/-! ### What one step does -/

/-- The control begins to read the children of its own element at most. -/
theorem begun_of_control (hidle : scope ≠ .leaves → w.1 = none) {i : Instruction Bool}
    (h : Search.control (T.host guide form) (plan form criteria scope) t a w = .ok i v) :
    i.resetPath = false ∧ (scope ≠ .leaves → v.1 = none) ∧ T.Begun a v.1 := by
  by_cases hscope : scope = .leaves
  · subst hscope
    obtain ⟨⟨⟩, w₁, hcleared, h⟩ := Act.bind_eq_ok_iff.1 h
    obtain ⟨k, w₂, hk, h⟩ := Act.bind_eq_ok_iff.1 h
    obtain ⟨found, w₃, hfound, h⟩ := Act.bind_eq_ok_iff.1 h
    obtain ⟨hk, hslot₂⟩ := Act.beside_eq_ok_iff.1 hk
    obtain ⟨hfound, hslot₃⟩ := Act.beside_eq_ok_iff.1 hfound
    have hslot : w₃.1 = none := by
      rw [hslot₃, hslot₂]
      cases hcleared
      rfl
    rcases found with _ | ⟨first, k'⟩
    · cases h
      exact ⟨rfl, fun hne => absurd rfl hne, hslot ▸ T.begun_none a⟩
    · obtain ⟨⟨⟩, w₄, hput, h⟩ := Act.bind_eq_ok_iff.1 h
      cases hput
      cases h
      refine ⟨rfl, fun hne => absurd rfl hne, ?_⟩
      rintro _ ⟨⟩ b (hb | hb)
      · obtain rfl : first = b := Option.some.inj hb
        exact ⟨_, _, _, hk, .here hfound⟩
      · exact ⟨_, _, _, hk, .later hfound hb⟩
  · obtain ⟨hslot, hreset⟩ := slot_of_control hscope h
    have hnone : v.1 = none := hslot.trans (hidle hscope)
    exact ⟨hreset, fun _ => hnone, hnone ▸ T.begun_none a⟩

variable [DecidableEq key]

/-- The expansion of an element offers children of it, also where they were begun before. -/
theorem isChild_of_expand (hbarren : T.Barren) (hbegun : T.Begun a w.1) {k : Ahead α κ}
    (h : expand (T.host guide form) (plan form criteria scope) t a w = .ok k v) :
    (w.1 = none → v.1 = none) ∧ ∀ b, k.Offers T.next b → T.IsChild a b := by
  obtain ⟨slot, v⟩ := v
  cases expanded_of_expand h with
  | refused _ hnothing =>
      refine ⟨fun _ => rfl, fun b hb => ?_⟩
      exact absurd (Ahead.offers_unread.1 hb) (hbarren _ _ _ hnothing b)
  | opened _ hchildren =>
      exact ⟨id, fun b hb => ⟨_, _, _, hchildren, Ahead.offers_unread.1 hb⟩⟩
  -- the slot was filled when this very element was visited, whatever else is identical to it
  | begun _ hslot => exact ⟨fun _ => rfl, hbegun _ hslot⟩

/-- A visit of a level: its element is met there, and so are the siblings. -/
theorem Lineal.visit (hidle : scope ≠ .leaves → w.1 = none) {k : Ahead α κ}
    (h : T.Lineal route { path := t, candidates := some k }) {i : Instruction Bool} {emits : Bool}
    {rest : Option (Ahead α κ)}
    (hv : Walk.Visit (env (T.host guide form) (plan form criteria scope)) t k w a i emits rest v) :
    T.Met route t.items a ∧ i.resetPath = false ∧ (scope ≠ .leaves → v.1 = none) ∧ T.Begun a v.1 ∧
      T.Lineal route { path := t, candidates := rest } := by
  obtain ⟨k', goesOn, w₁, w₂, w₃, hnext, hcontrol, hgoesOn, hemits, rfl⟩ := hv
  obtain ⟨hnext, hslot⟩ := Act.beside_eq_ok_iff.1 hnext
  obtain ⟨hoffered, hrest⟩ := Ahead.offers_of_next hnext
  obtain ⟨hreset, hidle', hbegun⟩ :=
    begun_of_control (fun hne => hslot.trans (hidle hne)) hcontrol
  obtain rfl : v = w₂ := (of_truth hemits).2.trans (of_truth hgoesOn).2
  refine ⟨h.met k rfl a hoffered, hreset, hidle', hbegun, h.ordered, h.line, ?_⟩
  cases goesOn with
  | true =>
      rintro _ ⟨⟩ b hb
      exact h.met k rfl b (hrest b hb)
  | false => exact nofun

/-- The level below an element that was met. -/
theorem Lineal.enter (hbarren : T.Barren) {p : Pending α Bool} (h : T.Lineal route frame)
    (hmet : T.Met route frame.path.items p.element) (hreset : p.resetPath = false)
    (hbegun : T.Begun p.element w.1) {below : Trail α} {k : Ahead α κ}
    (hentry : Walk.Entry (env (T.host guide form) (plan form criteria scope)) frame.path p w below k
      v) :
    (w.1 = none → v.1 = none) ∧ T.Lineal route { path := below, candidates := some k } := by
  obtain ⟨resets, w₁, w₂, hresets, hbelow, hk⟩ := hentry
  obtain ⟨rfl, rfl⟩ : resets = false ∧ w₁ = w := by
    rw [hreset] at hresets
    exact of_truth hresets
  obtain ⟨hbelow, hslot⟩ := Act.beside_eq_ok_iff.1 hbelow
  obtain ⟨mark, rfl⟩ : ∃ mark, below = frame.path.extend T.keyOf p.element mark :=
    exists_of_extend hbelow
  obtain ⟨hidle, hchild⟩ := isChild_of_expand hbarren (hslot ▸ hbegun) hk
  have hitems := Trail.items_extend_sequence T.keyOf frame.path p.element mark h.ordered
  refine ⟨fun hnone => hidle (hslot.trans hnone), ?_, ?_, ?_⟩
  · simpa only [Trail.kind_extend] using h.ordered
  · simpa only [hitems] using h.line.concat hmet
  · rintro _ ⟨⟩ b hb
    simpa only [Met, hitems, List.getLast?_concat] using hchild b hb

/-- A visit in a state that keeps the invariant. -/
theorem Lined.visit {k : Ahead α κ}
    (h : T.Lined scope route { levels := { path := t, candidates := some k } :: outer, fruitless := n }
      w.1) {i : Instruction Bool} {emits : Bool} {rest : Option (Ahead α κ)}
    (hv : Walk.Visit (env (T.host guide form) (plan form criteria scope)) t k w a i emits rest v) :
    T.Line route t.items ∧ T.Met route t.items a ∧ ∀ m, T.Lined scope route
      { levels := { path := t, candidates := rest } :: outer, fruitless := m,
        pending := some (.of a i) } v.1 := by
  obtain ⟨hframe, houter⟩ := List.forall_mem_cons.1 h.lineal
  obtain ⟨hmet, hreset, hidle, hbegun, hrest⟩ := hframe.visit h.idle hv
  refine ⟨hframe.line, hmet, fun m => ⟨List.forall_mem_cons.2 ⟨hrest, houter⟩, hidle, ?_, ?_, ?_⟩⟩
  · rintro _ ⟨⟩
    exact hreset
  · rintro _ ⟨⟩ _ ⟨⟩
    exact hmet
  · rintro _ ⟨⟩
    exact hbegun

/-- **A step without a result keeps the invariant.** -/
theorem Lined.skip (hbarren : T.Barren) (h : T.Lined scope route s w.1)
    (hm : Walk.Move (env (T.host guide form) (plan form criteria scope)) limits s w (.skip s') v) :
    T.Lined scope route s' v.1 := by
  cases hm with
  | leave => exact .of_levels (List.forall_mem_cons.1 h.lineal).2 h.idle
  | exhaust hnext =>
      refine .of_levels (List.forall_mem_cons.1 h.lineal).2 fun hne => ?_
      exact (Act.beside_eq_ok_iff.1 hnext).2.trans (h.idle hne)
  | pass hv => exact (h.visit hv).2.2 _
  | stay htruth _ =>
      obtain ⟨-, rfl⟩ := of_truth htruth
      exact .of_levels h.lineal h.idle
  | enter htruth _ hconsulted hentry =>
      obtain ⟨-, rfl⟩ := of_truth htruth
      have hslot := (slot_of_consulted hconsulted).1
      obtain ⟨hidle, hbelow⟩ := (h.lineal _ List.mem_cons_self).enter hbarren (h.met _ rfl _ rfl)
        (h.keeps _ rfl) (hslot ▸ h.begun _ rfl) hentry
      refine .of_levels (List.forall_mem_cons.2 ⟨hbelow, h.lineal⟩) fun hne => ?_
      exact hidle (hslot.trans (h.idle hne))
  | advance htruth _ hconsulted hreport =>
      obtain ⟨-, rfl⟩ := of_truth htruth
      rw [(Act.beside_eq_ok_iff.1 hreport).2, (slot_of_consulted hconsulted).1]
      exact .of_levels h.lineal h.idle
  | cut htruth _ hconsulted hreport =>
      obtain ⟨-, rfl⟩ := of_truth htruth
      rw [(Act.beside_eq_ok_iff.1 hreport).2, (slot_of_consulted hconsulted).1]
      obtain ⟨hframe, houter⟩ := List.forall_mem_cons.1 h.lineal
      exact .of_levels (List.forall_mem_cons.2 ⟨hframe.dropped, houter⟩) h.idle

/-- **A step with a result** gives an element that continues a line, as its instruction says, and keeps
the invariant. -/
theorem Lined.give (h : T.Lined scope route s w.1) {b : β}
    (hm : Walk.Move (env (T.host guide form) (plan form criteria scope)) limits s w (.give b s') v) :
    (∃ t a w₁ w₂ i, b = form.result t a ∧ T.Line route t.items ∧ T.Met route t.items a ∧
        i.emit = true ∧
        Search.control (T.host guide form) (plan form criteria scope) t a w₁ = .ok i w₂) ∧
      T.Lined scope route s' v.1 := by
  cases hm with
  | give hv hresult =>
      obtain ⟨hline, hmet, hlined⟩ := h.visit hv
      obtain ⟨k', goesOn, w₁, w₂, w₃, -, hcontrol, -, hemits, -⟩ := hv
      obtain ⟨hemit, rfl⟩ := of_truth hemits
      cases hresult
      exact ⟨⟨_, _, w₁, w₂, _, rfl, hline, hmet, hemit.symm, hcontrol⟩, hlined 0⟩
  | substitute _ _ hconsulted _ => exact absurd rfl ((slot_of_consulted hconsulted).2 _)

/-! ### The whole search -/

/-- **Every run of a search that keeps its ancestors in order goes along lines.** -/
theorem lined_of_reached (hbarren : T.Barren) {consume : β → Act ω ε Unit} {mark : Mark}
    (hordered : (plan form criteria scope).trailKind = .sequence ∨
      (plan form criteria scope).trailKind = .indexed) {x : Search α κ} {w₀ w : ω}
    (h : Machine.Reached (Search.step (T.host guide form) (plan form criteria scope) limits) consume
      (Search.start (plan form criteria scope) mark route) w₀ x w) :
    T.Lined scope route x.1 x.2 := by
  refine Machine.Reached.beside_induction (P := fun s t _ => T.Lined scope route s t) ?_ ?_ ?_ h
  · refine .of_levels (fun f hf => ?_) fun _ => rfl
    obtain rfl := List.mem_singleton.1 hf
    refine ⟨hordered, .nil, ?_⟩
    rintro _ ⟨⟩ a ha
    exact Ahead.offers_unread.1 ha
  · intro s t w s' t' v hlined hstep
    exact Lined.skip (w := (t, w)) (v := (t', v)) hbarren hlined (Walk.move_of_step hstep)
  · intro s t w b s' t' v hlined hstep u
    exact (Lined.give (w := (t, w)) (v := (t', v)) hlined (Walk.move_of_step hstep)).2

/-- **What a search for paths gives is a line.**  In a search for returns its last element is equal to
its first one. -/
theorem line_of_gives (hbarren : T.Barren) {consume : List α → Act ω ε Unit} {mark : Mark} {w₀ : ω}
    {q : List α}
    (h : Machine.Gives
      (Search.step (T.host guide Graph.Form.paths) (plan Graph.Form.paths criteria scope) limits)
      consume (Search.start (plan Graph.Form.paths criteria scope) mark route) w₀ q) :
    ∃ p b, q = p ++ [b] ∧ T.Line route (p ++ [b]) ∧
      (scope = .cycles → ∃ o, p.head? = some o ∧ ∃ w v, T.same b o w = .ok true v) := by
  obtain ⟨x, w, y, v, hreached, hstep⟩ := h
  have hordered : (plan Graph.Form.paths criteria scope).trailKind = .sequence ∨
      (plan Graph.Form.paths criteria scope).trailKind = .indexed := by
    simp only [Plan.trailKind, plan, Graph.Form.paths, Bool.true_or]
    cases criteria.cutCycles with
    | true => exact .inr rfl
    | false => exact .inl rfl
  obtain ⟨r, t, hmove, hr⟩ := Machine.step_of_beside hstep
  cases r <;> cases hr
  obtain ⟨⟨t, b, w₁, w₂, i, rfl, hline, hmet, hemit, hcontrol⟩, -⟩ :=
    Lined.give (w := (x.2, w)) (lined_of_reached hbarren hordered hreached)
      (Walk.move_of_step hmove)
  refine ⟨t.items, b, rfl, hline.concat hmet, ?_⟩
  rintro rfl
  obtain ⟨-, rfl | ⟨-, o, ho, hsame⟩⟩ := instruction_of_cycles hcontrol
  · cases hemit
  · exact ⟨o, (Trail.origin?_eq_head? t).symm.trans ho, _, _, hsame⟩

end Terrain

end GraphRoutes
