/-
**How much of a source is read while a sequence over it is read.**

A lazy sequence reads a source under it, and does so only when an item is asked of it.  A gauge says of a
world how far the source has been read, for instance how many of its items.  So of each item that a sequence
gives, it can be said how far the source has been read by then; and of its end, if it has one.

The source may do anything when it is read, as long as it leaves alone the graphs and the cursors on which it
does not stand.  What the sequences over it do besides reading it moves only their own cursors.  A source need
not have an end, so a sequence is described by the items that it gives first.

Main definitions:

* `GraphRoutes.Session.World.Moves` — what reading a source may do;
* `GraphRoutes.Session.Gauge` — how far a source has been read;
* `GraphRoutes.Session.Streams` — **what an iterator gives first, and what it reads for that**;
* `GraphRoutes.Session.Pours` — what a closed sequence gives first.

Main results:

* `GraphRoutes.Session.streams_of_pours` — a closed sequence streams what it pours;
* `GraphRoutes.Session.pours_each` — images of what an iterator streams;
* `GraphRoutes.Session.pours_deferred` — a sequence that has not begun has read nothing.
-/
import GraphRoutes.Proofs.Session.Images

set_option relaxedAutoImplicit false
set_option autoImplicit false

namespace GraphRoutes.Session

/-! ### What reading a source may do -/

namespace World

/-- From one world to the next, no graph has changed, and no cursors have moved but those in `P`; new ones may
have been made. -/
structure Moves (P : Set ℕ) (w v : World) : Prop where
  graphs_eq : v.graphs = w.graphs
  size : w.cursors.size ≤ v.cursors.size
  same : ∀ i < w.cursors.size, i ∉ P → v.cursors[i]? = w.cursors[i]?

variable {P Q : Set ℕ} {u v w : World} {place : ℕ} {c : Cursor}

theorem Uses.moves (h : Uses P w v) : Moves P w v :=
  ⟨h.empty.graphs_eq, h.size, fun i hi hP => h.same i ⟨hi, hP⟩⟩

theorem Moves.mono (h : Moves P w v) (hP : P ⊆ Q) : Moves Q w v :=
  ⟨h.graphs_eq, h.size, fun i hi hQ => h.same i hi fun hmem => hQ (hP hmem)⟩

/-- One action may move the cursors that the action before it has made. -/
theorem Moves.trans (h : Moves P w v) (h' : Moves Q v u) (hQ : Q ⊆ within P w.cursors.size) : Moves P w u where
  graphs_eq := h'.graphs_eq.trans h.graphs_eq
  size := h.size.trans h'.size
  same i hi hP := by
    have hnot : i ∉ Q := fun hmem => (hQ hmem).elim hP fun hle => Nat.not_le_of_lt hi hle
    exact (h'.same i (Nat.lt_of_lt_of_le hi h.size) hnot).trans (h.same i hi hP)

/-- An action moves its own cursor last. -/
theorem Moves.settle (h : Moves P w v) (h' : Uses {place} v u) : Moves (insert place P) w u :=
  (h.mono (Set.subset_insert place P)).trans h'.moves (singleton_subset_within place P _)

/-- A cursor that is not moved stays where it is. -/
theorem Moves.getElem?_eq (h : Moves P w v) (hplace : place ∉ P) (hc : w.cursors[place]? = some c) :
    v.cursors[place]? = some c :=
  (h.same place (Array.getElem?_eq_some_iff.1 hc).1 hplace).trans hc

end World

open World

/-! ### Gauges -/

/-- Says of worlds how far a source has been read, which has been opened as an iterator, and on which cursors
the source stands.  Only what moves these cursors changes that. -/
structure Gauge (κ : Type) where
  stands : Value → κ → Set ℕ → World → Prop
  has : ∀ {it k P w}, stands it k P w → Has P w
  spared : ∀ {it k P w v}, stands it k P w → Spares P w v → stands it k P v

/-- The source has been read so far, and it stands on some cursors among those in `P`. -/
def Gauge.At {κ : Type} (g : Gauge κ) (k : κ) (P : Set ℕ) (w : World) : Prop := ∃ it, ∃ Q ⊆ P, g.stands it k Q w

section

variable {κ : Type} {g : Gauge κ} {k : κ} {P Q F : Set ℕ} {v w : World}

theorem Gauge.At.spared (h : g.At k P w) (hv : Spares P w v) : g.At k P v := by
  obtain ⟨it, Q, hQ, hstands⟩ := h
  exact ⟨it, Q, hQ, g.spared hstands (hv.mono hQ)⟩

theorem Gauge.At.mono (h : g.At k P w) (hP : P ⊆ Q) : g.At k Q w := by
  obtain ⟨it, P', hP', hstands⟩ := h
  exact ⟨it, P', hP'.trans hP, hstands⟩

/-- What is done apart from the source leaves it where it stands. -/
theorem Gauge.At.apart (h : g.At k P w) (hv : Uses F w v) (hapart : ∀ i ∈ P, i ∉ F) : g.At k P v := by
  obtain ⟨it, Q, hQ, hstands⟩ := h
  exact ⟨it, Q, hQ, g.spared hstands (hv.spares (g.has hstands) fun i hi => hapart i (hQ hi))⟩

end

/-! ### Sequences over a source -/

variable {α β κ : Type}

/-- What the iterator `it`, which stands on the cursors in `P`, gives first, each item with how far the source
has been read by then.  If `e` is a position, then the end comes behind these items, and by then the source has
been read so far; otherwise nothing is said of what comes behind them. -/
def Streams (h : Host) (d : ℕ) (R : Meaning α) (g : Gauge κ) (it : Value) :
    List (α × κ) → Option κ → Set ℕ → World → Prop
  | [], e, P, w => Has P w ∧ ∀ k ∈ e, ∀ n, d ≤ n → ∀ v, Spares P w v →
      ∃ u Q, (h.up n).pull it v = .ok none u ∧ Moves P v u ∧ Q ⊆ within P v.cursors.size ∧ g.At k Q u
  | (a, k) :: as, e, P, w => Has P w ∧ ∀ n, d ≤ n → ∀ v, Spares P w v →
      ∃ x u F Q, (h.up n).pull it v = .ok (some x) u ∧ Moves P v u ∧ Divides P v.cursors.size F Q ∧
        R.holds a x F u ∧ g.At k Q u ∧ Streams h d R g it as e Q u

/-- What a closed sequence gives first, if each read may take `N` steps. -/
def Pours (h : Host) (d N : ℕ) (R : Meaning α) (g : Gauge κ) :
    Cursor → List (α × κ) → Option κ → Set ℕ → World → Prop
  | c, [], e, P, w => Closed c ∧ Has P w ∧ ∀ k ∈ e, ∀ n fuel, d ≤ n → N ≤ fuel → ∀ v, Spares P w v →
      ∃ rest u Q, (stepCursor (h.up n)).pull fuel c v = .ok (.ended rest) u ∧ Moves P v u ∧
        Q ⊆ within P v.cursors.size ∧ g.At k Q u
  | c, (a, k) :: as, e, P, w => Closed c ∧ Has P w ∧ ∀ n fuel, d ≤ n → N ≤ fuel → ∀ v, Spares P w v →
      ∃ x c' u F Q, (stepCursor (h.up n)).pull fuel c v = .ok (.item x c') u ∧ Moves P v u ∧
        Divides P v.cursors.size F Q ∧ R.holds a x F u ∧ g.At k Q u ∧ Pours h d N R g c' as e Q u

section

variable {h : Host} {d d' N K : ℕ} {R : Meaning α} {S : Meaning β} {g : Gauge κ} {it : Value} {c : Cursor}
  {as : List (α × κ)} {e : Option κ} {P Q : Set ℕ} {u v w : World}

theorem Streams.has (hit : Streams h d R g it as e P w) : Has P w := by
  cases as <;> exact hit.1

theorem Streams.spared (hit : Streams h d R g it as e P w) (hv : Spares P w v) :
    Streams h d R g it as e P v := by
  cases as with
  | nil => exact ⟨hit.1.spared hv, fun k hk n hn u hu => hit.2 k hk n hn u (hv.trans hu)⟩
  | cons => exact ⟨hit.1.spared hv, fun n hn u hu => hit.2 n hn u (hv.trans hu)⟩

theorem Streams.mono (hit : Streams h d R g it as e P w) (hd : d ≤ d') : Streams h d' R g it as e P w := by
  induction as generalizing P w with
  | nil => exact ⟨hit.1, fun k hk n hn => hit.2 k hk n (hd.trans hn)⟩
  | cons a as ih =>
      refine ⟨hit.1, fun n hn v hv => ?_⟩
      obtain ⟨x, u, F, Q, hpull, hmoves, hdivides, hx, hat, hrest⟩ := hit.2 n (hd.trans hn) v hv
      exact ⟨x, u, F, Q, hpull, hmoves, hdivides, hx, hat, ih hrest⟩

theorem Pours.closed (hc : Pours h d N R g c as e P w) : Closed c := by
  cases as <;> exact hc.1

theorem Pours.has (hc : Pours h d N R g c as e P w) : Has P w := by
  cases as <;> exact hc.2.1

theorem Pours.spared (hc : Pours h d N R g c as e P w) (hv : Spares P w v) : Pours h d N R g c as e P v := by
  cases as with
  | nil =>
      exact ⟨hc.1, hc.2.1.spared hv, fun k hk n fuel hn hfuel u hu => hc.2.2 k hk n fuel hn hfuel u (hv.trans hu)⟩
  | cons =>
      exact ⟨hc.1, hc.2.1.spared hv, fun n fuel hn hfuel u hu => hc.2.2 n fuel hn hfuel u (hv.trans hu)⟩

theorem Pours.mono (hc : Pours h d N R g c as e P w) (hN : N ≤ K) : Pours h d K R g c as e P w := by
  induction as generalizing c P w with
  | nil => exact ⟨hc.1, hc.2.1, fun k hk n fuel hn hfuel => hc.2.2 k hk n fuel hn (hN.trans hfuel)⟩
  | cons a as ih =>
      refine ⟨hc.1, hc.2.1, fun n fuel hn hfuel v hv => ?_⟩
      obtain ⟨x, c', u, F, Q, hpull, hmoves, hdivides, hx, hat, hrest⟩ :=
        hc.2.2 n fuel hn (hN.trans hfuel) v hv
      exact ⟨x, c', u, F, Q, hpull, hmoves, hdivides, hx, hat, ih hrest⟩

/-! ### Closed sequences -/

theorem moves_reading (v : World) (place : ℕ) (P : Set ℕ) : Moves (insert place P) v (v.reading place) :=
  (uses_reading v place P).moves

/-- **A closed sequence streams what it pours.** -/
theorem streams_of_pours {place : ℕ} (hc : w.cursors[place]? = some c) (hpours : Pours h d N R g c as e P w)
    (hplace : place ∉ P) (hN : N ≤ h.fuel) :
    Streams h (d + 1) R g (.ref .iterator place) as e (insert place P) w := by
  induction as generalizing c P w with
  | nil =>
      have hlt : place < w.cursors.size := (Array.getElem?_eq_some_iff.1 hc).1
      refine ⟨has_insert hlt hpours.has, fun k hk n hn v hv => ?_⟩
      obtain ⟨m, rfl, hm⟩ := exists_level_below hn
      have hcv : v.cursors[place]? = some c := (hv.same place (Set.mem_insert place P)).trans hc
      obtain ⟨rest, u, Q, hpull, hmoves, hQ, hat⟩ := hpours.2.2 k hk m (h.up m).fuel hm
        (by rwa [Host.fuel_up]) (v.reading place) (spares_reading hplace hpours.has hv)
      have hbegin := (moves_reading v place P).trans hmoves (subset_within_insert place P _)
      have hsettle := uses_setCursor u place .finished
      have hltv : place < v.cursors.size := Nat.lt_of_lt_of_le hlt hv.size
      rw [size_reading] at hQ
      have hat' : g.At k Q { u with cursors := u.cursors.setIfInBounds place .finished } := by
        refine hat.apart hsettle fun i hi hmem => ?_
        exact notMem_of_subset_within hQ hplace hltv (Set.mem_singleton_iff.1 hmem ▸ hi)
      exact ⟨_, Q, pull_closed_end hcv hpours.closed hpull,
        hbegin.trans hsettle.moves (singleton_subset_within place P _),
        hQ.trans (within_subset_insert place P _), hat'⟩
  | cons p as ih =>
      obtain ⟨a, k⟩ := p
      have hlt : place < w.cursors.size := (Array.getElem?_eq_some_iff.1 hc).1
      refine ⟨has_insert hlt hpours.has, fun n hn v hv => ?_⟩
      obtain ⟨m, rfl, hm⟩ := exists_level_below hn
      have hcv : v.cursors[place]? = some c := (hv.same place (Set.mem_insert place P)).trans hc
      obtain ⟨x, c', u, F, Q, hpull, hmoves, hdivides, hx, hat, hrest⟩ :=
        hpours.2.2 m (h.up m).fuel hm (by rwa [Host.fuel_up]) (v.reading place)
          (spares_reading hplace hpours.has hv)
      obtain ⟨x', marks, hpulled, hhanded⟩ := exists_pull_closed hcv hpours.closed hpull
      -- its own cursor belongs neither to the item nor to what is still to come from below
      have hltv : place < v.cursors.size := Nat.lt_of_lt_of_le hlt hv.size
      rw [size_reading] at hdivides
      have hF : place ∉ F := notMem_of_subset_within hdivides.item hplace hltv
      have hQ : place ∉ Q := notMem_of_subset_within hdivides.rest hplace hltv
      have hsettle := uses_settle u place c' marks
      have hitem := hsettle.spares_of_notMem (R.has hx) hF
      have hleft := hsettle.spares_of_notMem hrest.has hQ
      have hbegin := (moves_reading v place P).trans hmoves (subset_within_insert place P _)
      have hltu : place < u.cursors.size := Nat.lt_of_lt_of_le hltv hbegin.size
      exact ⟨x', _, F, insert place Q, hpulled,
        hbegin.trans hsettle.moves (singleton_subset_within place P _), hdivides.insert hplace hltv,
        R.handed (R.spared hx hitem) hhanded, (hat.spared hleft).mono (Set.subset_insert place Q),
        ih (Array.getElem?_setIfInBounds_self_of_lt hltu) (hrest.spared hleft) hQ⟩

/-- A new closed sequence. -/
theorem streams_newCursor (hpours : Pours h d N R g c as e P w) (hN : N ≤ h.fuel) :
    Streams h (d + 1) R g (.ref .iterator w.cursors.size) as e (insert w.cursors.size P)
      { w with cursors := w.cursors.push c } :=
  streams_of_pours Array.getElem?_push_size (hpours.spared (spares_push hpours.has c))
    (notMem_of_has hpours.has) hN

/-! ### Images -/

/-- Whatever an item stands for, its image stands for `f` of that, on the cursors of the item and new ones,
in every world with the same graphs. -/
def Depicts (h : Host) (d : ℕ) (R : Meaning α) (S : Meaning β) (image : Image) (f : α → β) (as : List α)
    (w : World) : Prop :=
  ∀ n, d ≤ n → ∀ a ∈ as, ∀ x F v, v.graphs = w.graphs → R.holds a x F v →
    ∃ y u G, image.apply (h.up n) x v = .ok y u ∧ Uses F v u ∧ G ⊆ within F v.cursors.size ∧
      S.holds (f a) y G u

/-- **The images of what an iterator streams.**  They are made when they are asked for. -/
theorem pours_each {image : Image} {f : α → β} (hit : Streams h d R g it as e P w)
    (himage : Depicts h d R S image f (as.map Prod.fst) w) :
    Pours h d 1 S g (.each image it) (as.map fun p => (f p.1, p.2)) e P w := by
  induction as generalizing P w with
  | nil =>
      refine ⟨closed_each image it, hit.has, fun k hk n fuel hn hfuel v hv => ?_⟩
      obtain ⟨fuel, rfl⟩ := Nat.exists_eq_add_of_le' hfuel
      obtain ⟨u, Q, hpull, hmoves, hQ, hat⟩ := hit.2 k hk n hn v hv
      exact ⟨none, u, Q, Machine.pull_of_finish (stepCursor_each_end hpull) fuel, hmoves, hQ, hat⟩
  | cons p as ih =>
      obtain ⟨a, k⟩ := p
      refine ⟨closed_each image it, hit.has, fun n fuel hn hfuel v hv => ?_⟩
      obtain ⟨fuel, rfl⟩ := Nat.exists_eq_add_of_le' hfuel
      obtain ⟨x, u, F, Q, hpull, hmoves, hdivides, hx, hat, hrest⟩ := hit.2 n hn v hv
      have hgraphs : u.graphs = w.graphs := hmoves.graphs_eq.trans hv.graphs_eq
      obtain ⟨y, t, G, hy, huses, hG, hholds⟩ := himage n hn a List.mem_cons_self x F u hgraphs hx
      have hgraphs' : t.graphs = w.graphs := huses.moves.graphs_eq.trans hgraphs
      -- the image is made on the cursors of the item, from which those of the rest are apart
      have hspares : Spares Q u t := huses.spares hrest.has fun i hi hmem => hdivides.apart i hmem hi
      refine ⟨y, .each image it, t, G, Q, Machine.pull_of_give (stepCursor_each hpull hy) fuel,
        hmoves.trans huses.moves hdivides.item, hdivides.image hG hmoves.size hrest.has, hholds,
        hat.spared hspares, ih (hrest.spared hspares) fun n hn b hb x F v hv => ?_⟩
      exact himage n hn b (List.mem_cons_of_mem a hb) x F v (hv.trans hgraphs')

/-! ### Steps that give nothing -/

/-- A sequence that is read like another state gives what it gives from there. -/
theorem pours_of_pull (hclosed : Closed c) (hP : Has P w) (hN : N ≤ K)
    (hpull : ∀ n, d ≤ n → ∀ v, Spares P w v → ∃ c' u Q,
      (∀ fuel, (stepCursor (h.up n)).pull (fuel + K) c v = (stepCursor (h.up n)).pull (fuel + N) c' u) ∧
      Moves P v u ∧ Q ⊆ within P v.cursors.size ∧ Pours h d N R g c' as e Q u) :
    Pours h d K R g c as e P w := by
  cases as with
  | nil =>
      refine ⟨hclosed, hP, fun k hk n fuel hn hfuel v hv => ?_⟩
      obtain ⟨fuel, rfl⟩ := Nat.exists_eq_add_of_le' hfuel
      obtain ⟨c', u, Q, hsame, hmoves, hQ, hpours⟩ := hpull n hn v hv
      obtain ⟨rest, t, Q', hpulled, hmoves', hQ', hat⟩ :=
        hpours.2.2 k hk n (fuel + N) hn (Nat.le_add_left N fuel) u (.refl Q u)
      exact ⟨rest, t, Q', (hsame fuel).trans hpulled, hmoves.trans hmoves' hQ,
        hQ'.trans (within_mono hQ hmoves.size), hat⟩
  | cons p as =>
      obtain ⟨a, k⟩ := p
      refine ⟨hclosed, hP, fun n fuel hn hfuel v hv => ?_⟩
      obtain ⟨fuel, rfl⟩ := Nat.exists_eq_add_of_le' hfuel
      obtain ⟨c', u, Q, hsame, hmoves, hQ, hpours⟩ := hpull n hn v hv
      obtain ⟨x, c'', t, F, Q', hpulled, hmoves', hdivides, hx, hat, hrest⟩ :=
        hpours.2.2 n (fuel + N) hn (Nat.le_add_left N fuel) u (.refl Q u)
      have hwithin := within_mono hQ hmoves.size
      exact ⟨x, c'', t, F, Q', (hsame fuel).trans hpulled, hmoves.trans hmoves' hQ, hdivides.mono hwithin, hx, hat,
        hrest.mono hN⟩

/-- A sequence that goes on to another state, and gives nothing with that. -/
theorem pours_of_skip (hclosed : Closed c) (hP : Has P w)
    (hskip : ∀ n, d ≤ n → ∀ v, Spares P w v → ∃ c' u Q, stepCursor (h.up n) c v = .ok (.skip c') u ∧
      Moves P v u ∧ Q ⊆ within P v.cursors.size ∧ Pours h d N R g c' as e Q u) :
    Pours h d (N + 1) R g c as e P w := by
  refine pours_of_pull hclosed hP (Nat.le_succ N) fun n hn v hv => ?_
  obtain ⟨c', u, Q, hstep, hrest⟩ := hskip n hn v hv
  exact ⟨c', u, Q, fun fuel => Machine.pull_of_skip hstep (fuel + N), hrest⟩

/-- A sequence that takes the step of another state. -/
theorem pours_of_step (hclosed : Closed c) (hP : Has P w)
    (hstep : ∀ n, d ≤ n → ∀ v, Spares P w v → ∃ c' u Q,
      stepCursor (h.up n) c v = stepCursor (h.up n) c' u ∧
      Moves P v u ∧ Q ⊆ within P v.cursors.size ∧ Pours h d (N + 1) R g c' as e Q u) :
    Pours h d (N + 1) R g c as e P w := by
  refine pours_of_pull hclosed hP (Nat.le_refl _) fun n hn v hv => ?_
  obtain ⟨c', u, Q, hsame, hrest⟩ := hstep n hn v hv
  refine ⟨c', u, Q, fun fuel => ?_, hrest⟩
  simp only [← Nat.add_assoc, Machine.pull_succ, Act.attempt, bind, EStateM.bind, hsame]

/-- **A sequence that has not begun** has read nothing, and gives what it gives once it has begun. -/
theorem pours_deferred {o : Opening} (hP : Has P w)
    (hbegin : ∀ n, d ≤ n → ∀ v, Spares P w v → ∃ c u Q, beginCursor (h.up n) o v = .ok c u ∧
      Moves P v u ∧ Q ⊆ within P v.cursors.size ∧ Pours h d N R g c as e Q u) :
    Pours h d (N + 1) R g (.deferred o) as e P w := by
  refine pours_of_skip (closed_deferred o) hP fun n hn v hv => ?_
  obtain ⟨c, u, Q, hc, hrest⟩ := hbegin n hn v hv
  refine ⟨c, u, Q, ?_, hrest⟩
  rw [stepCursor, Act.bind_of_ok hc]
  rfl

end

end GraphRoutes.Session
