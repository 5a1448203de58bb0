/-
**Reading the edges at a vertex.**

A sequence that is read to its end gives a list of items.  The sequence of the edges on one side of a
vertex looks at nothing before it is first read.  Then it asks for the labels to which it is restricted,
reads the edges at its vertex, and gives those that are let pass; it leaves everything alone but its own
place and the marks of the edges that it hands out.

Main definitions:

* `GraphRoutes.Session.Gives` — what an iterator gives, to its end;
* `GraphRoutes.Session.World.lets` — whether a restriction lets an edge pass.

Main results:

* `GraphRoutes.Session.Gives.drain` — what an iterator gives is what is drained from it;
* `GraphRoutes.Session.gives_of_neighbours` — the edges that are still to be given;
* `GraphRoutes.Session.gives_edgesAt` — **the edges on a side of a vertex** that are let pass.
-/
import GraphRoutes.Proofs.Pull
import GraphRoutes.Proofs.Session.Reading
import Mathlib.Data.List.Forall2

set_option relaxedAutoImplicit false
set_option autoImplicit false

namespace GraphRoutes.Session

open World

/-! ### What an iterator gives -/

/-- An iterator that gives items to its end, and the world that it leaves then. -/
inductive Gives (h : Host) (it : Value) : List Value → World → World → Prop
  | ended {w v : World} (hpull : h.pull it w = .ok none v) : Gives h it [] w v
  | item {x : Value} {xs : List Value} {w v u : World} (hpull : h.pull it w = .ok (some x) v)
      (hrest : Gives h it xs v u) : Gives h it (x :: xs) w u

variable {h : Host} {it x : Value} {xs : List Value} {u v w : World}

/-- A loop over an iterator runs through what it gives. -/
theorem Gives.foldFrom {β : Type} {f : β → Value → β} (hgives : Gives h it xs w v) {n : ℕ}
    (hn : xs.length < n) (b : β) :
    h.foldFrom (fun b x => pure (f b x)) it n b w = .ok (xs.foldl f b) v := by
  induction hgives generalizing n b with
  | ended hpull =>
      obtain ⟨n, rfl⟩ := Nat.exists_eq_succ_of_ne_zero (Nat.ne_of_gt hn)
      rw [Host.foldFrom, Act.bind_of_ok hpull]
      rfl
  | @item x xs w v u hpull _ ih =>
      obtain ⟨n, rfl⟩ := Nat.exists_eq_succ_of_ne_zero (Nat.ne_of_gt (Nat.zero_lt_of_lt hn))
      rw [Host.foldFrom, Act.bind_of_ok hpull]
      exact ih (Nat.lt_of_succ_lt_succ hn) (f b x)

/-- **What an iterator gives is what is drained from it.** -/
theorem Gives.drain (hgives : Gives h it xs w v) (hfuel : xs.length < h.fuel) :
    h.drain it w = .ok xs v := by
  have hfold := hgives.foldFrom (f := Array.push) hfuel #[]
  rw [Host.drain, Host.fold, Act.bind_of_ok hfold]
  simp [pure, EStateM.pure]

/-! ### Edges that are let pass -/

/-- Whether a restriction to keys lets an edge pass. -/
def World.lets (w : World) (keys : Option (Std.HashSet Key)) (e : EdgeRef) : Bool :=
  (w.edgeLabel e).key?.any (passes keys)

theorem soughtKey_of_key? {x : Value} {k : Key} (hx : x.key? = some k) :
    soughtKey x w = .ok k w := by
  have hkeyOf : keyOf x w = .ok k w := by
    rw [keyOf, hx]
    rfl
  cases x with
  | ref sort place =>
      cases sort with
      | bag => cases hx
      | _ => exact hkeyOf
  | _ => exact hkeyOf

/-- One step to the next edge: it is given if it is let pass, and else passed over. -/
theorem stepCursor_neighbours {s : Neighbourhood Value EdgeRef Key} {e : EdgeRef}
    (es : List EdgeRef) (he : (w.edgeLabel e).key?.isSome) :
    stepCursor h (.neighbours { s with edges := some (e :: es) }) w =
      .ok (if w.lets s.labels e then
        .give (.ofNode (s.vertex.reach .edge (.plain (.edge e none))))
          (.neighbours { s with edges := some es })
        else .skip (.neighbours { s with edges := some es })) w := by
  obtain ⟨k, hk⟩ := Option.isSome_iff_exists.1 he
  have hkey : (do
      let w ← get
      soughtKey (w.edgeLabel e) : M Key) w = .ok k w := by
    rw [Act.bind_of_ok (m := get) rfl]
    exact soughtKey_of_key? hk
  have hwants : Neighbourhood.wants { s with edges := some es } (fun e => do
      let w ← get
      soughtKey (w.edgeLabel e)) e w = .ok (w.lets s.labels e) w := by
    rw [lets, hk, Option.any_some, Neighbourhood.wants]
    cases s.labels with
    | none => rfl
    | some keys => exact (Act.bind_of_ok hkey).trans rfl
  have hstep : neighbourStep { s with edges := some (e :: es) } w =
      .ok (if w.lets s.labels e then
        .give (s.vertex.reach .edge (.plain (.edge e none))) { s with edges := some es }
        else .skip { s with edges := some es }) w := by
    rw [neighbourStep, Neighbourhood.step]
    refine (Act.bind_of_ok hwants).trans ?_
    cases w.lets s.labels e <;> rfl
  rw [stepCursor, Act.bind_of_ok hstep]
  cases w.lets s.labels e <;> rfl

/-- The next edge that is let pass settles a read; the others are still to be given. -/
theorem pull_neighbours (s : Neighbourhood Value EdgeRef Key) {es : List EdgeRef}
    (hes : ∀ e ∈ es, (w.edgeLabel e).key?.isSome) {fuel : ℕ} (hfuel : es.length < fuel) :
    (es.filter (w.lets s.labels) = [] ∧
      (stepCursor h).pull fuel (.neighbours { s with edges := some es }) w =
        .ok (.ended none) w) ∨
    ∃ e rest, es.filter (w.lets s.labels) = e :: rest.filter (w.lets s.labels) ∧
      (∀ e ∈ rest, e ∈ es) ∧ rest.length < es.length ∧
      (stepCursor h).pull fuel (.neighbours { s with edges := some es }) w =
        .ok (.item (.ofNode (s.vertex.reach .edge (.plain (.edge e none))))
          (.neighbours { s with edges := some rest })) w := by
  induction es generalizing fuel with
  | nil =>
      obtain ⟨fuel, rfl⟩ := Nat.exists_eq_succ_of_ne_zero (Nat.ne_of_gt hfuel)
      exact .inl ⟨rfl, Machine.pull_of_finish rfl fuel⟩
  | cons e es ih =>
      obtain ⟨fuel, rfl⟩ := Nat.exists_eq_succ_of_ne_zero (Nat.ne_of_gt (Nat.zero_lt_of_lt hfuel))
      have hstep := stepCursor_neighbours (h := h) (s := s) es (hes e List.mem_cons_self)
      cases hlets : w.lets s.labels e with
      | true =>
          rw [hlets, if_pos rfl] at hstep
          refine .inr ⟨e, es, List.filter_cons_of_pos hlets, fun _ => List.mem_cons_of_mem e,
            Nat.lt_succ_self _, Machine.pull_of_give hstep fuel⟩
      | false =>
          rw [hlets, if_neg Bool.false_ne_true] at hstep
          have hskip : (e :: es).filter (w.lets s.labels) = es.filter (w.lets s.labels) :=
            List.filter_cons_of_neg (by rw [hlets]; exact Bool.false_ne_true)
          rw [hskip, Machine.pull_of_skip hstep]
          rcases ih (fun x hx => hes x (List.mem_cons_of_mem e hx)) (Nat.lt_of_succ_lt_succ hfuel)
            with ⟨hnil, hpull⟩ | ⟨e', rest, hfilter, hmem, hlt, hpull⟩
          · exact .inl ⟨hnil, hpull⟩
          · exact .inr ⟨e', rest, hfilter, fun x hx => List.mem_cons_of_mem e (hmem x hx),
              Nat.lt_succ_of_lt hlt, hpull⟩

/-! ### Closed sequences -/

/-- The world in which the sequence at a place is being read. -/
def World.reading (w : World) (place : ℕ) : World :=
  { w with cursors := w.cursors.setIfInBounds place .running }

/-- Reading a closed sequence is pulling it apart from its place. -/
theorem nextItem_of_closed {place : ℕ} {c : Cursor} (hc : w.cursors[place]? = some c)
    (hclosed : openTurn? h place c = none) (hrunning : c ≠ .running) (hfinished : c ≠ .finished) :
    nextItem h place w = readClosed h place c w := by
  rw [nextItem, Act.bind_of_ok (m := get) rfl, hc, Option.getD_some]
  cases c with
  | running => exact absurd rfl hrunning
  | finished => exact absurd rfl hfinished
  | _ => simp only [hclosed]

theorem readClosed_of_item {place : ℕ} {c c' : Cursor} {x : Value}
    (hpull : (stepCursor h).pull h.fuel c (w.reading place) = .ok (.item x c') v) :
    readClosed h place c w =
      .ok (some x) { v with cursors := v.cursors.setIfInBounds place c' } := by
  rw [readClosed, Act.bind_of_ok (m := setCursor place .running) rfl]
  exact (Act.bind_of_ok hpull).trans rfl

theorem readClosed_of_ended {place : ℕ} {c : Cursor} {rest : Option Cursor}
    (hpull : (stepCursor h).pull h.fuel c (w.reading place) = .ok (.ended rest) v) :
    readClosed h place c w =
      .ok none { v with cursors := v.cursors.setIfInBounds place .finished } := by
  rw [readClosed, Act.bind_of_ok (m := setCursor place .running) rfl]
  exact (Act.bind_of_ok hpull).trans rfl

/-! ### The edges on a side of a vertex -/

variable {place : ℕ} {s : Neighbourhood Value EdgeRef Key} {es : List EdgeRef}

/-- The edges on a side of a vertex are edges of the graph, and have been reached from that side. -/
theorem of_mem_incident {g : Graph} {i : ℕ} {side : Side} {e : StoredEdge} (he : e ∈ g.incident i side) :
    e.index < g.edges.size ∧ e.reached = some side := by
  rw [Store.incident_eq] at he
  obtain ⟨r, hr, rfl⟩ := List.mem_map.1 he
  have hlt := (List.mem_zipIdx' (List.mem_of_mem_filter hr)).1
  rw [Array.length_toList] at hlt
  exact ⟨hlt, rfl⟩

/-- An item is an edge as it is handed out. -/
def IsEdge (x : Value) (e : EdgeRef) : Prop := ∃ m, x = .edge e m

theorem labels?_congr (hlists : v.lists = w.lists) (hbags : v.bags = w.bags) (x : Value) :
    v.labels? x = w.labels? x := by
  have hcollection := collection?_congr hlists hbags x
  cases x with
  | null | str => rfl
  | _ => exact hcollection

end GraphRoutes.Session
