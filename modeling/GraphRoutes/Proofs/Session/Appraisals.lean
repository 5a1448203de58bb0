/-
**Sorting what is read, by keys that are asked for once.**

A function gives each item its key as soon as it is read, and the next item is read after that.  When all have
been read, they are sorted stably by their keys, and put into a list.  So the function is called once for each
item, in order, and the items themselves are never compared.

The function may do what it likes when it is called, as long as it leaves alone the graphs, the cursors on which
it does not stand, and the keys that it has given before.  A gauge tells how far a route has been read, and for
which elements the function has been called.

Main definitions:

* `GraphRoutes.Session.Appraised` — the items of an iterator, and their keys;
* `GraphRoutes.Session.Scale` — keys that are totally ordered, in the worlds in which they are;
* `GraphRoutes.Session.sortedOf` — elements in stable order of the ranks of their keys;
* `GraphRoutes.Session.Gauge.Rates` — what a key function does when it is called.

Main results:

* `GraphRoutes.Session.sortBy_eq` — **each key is asked for once**, and then the items are sorted stably;
* `GraphRoutes.Session.exists_sortedList` — elements that are read with a call in between are put into a list.
-/
import GraphRoutes.Proofs.Session.Interruptions
import GraphRoutes.Proofs.Session.Sorts
import Mathlib.Order.WithBot

set_option relaxedAutoImplicit false
set_option autoImplicit false

namespace GraphRoutes.Session

open World Merge Filter

variable {ρ : Type} [LinearOrder ρ] {h : Host} {d n : ℕ} {key it r x : Value} {kxs : List (Value × Value)}
  {u v w : World}

/-! ### Keys -/

/-- An iterator is read to its end, and a key is asked for behind each read. -/
inductive Appraised (h : Host) (key it : Value) : List (Value × Value) → World → World → Prop
  | nil {w v : World} (hend : h.pull it w = .ok none v) : Appraised h key it [] w v
  | cons {w u t v : World} {x k : Value} {kxs : List (Value × Value)} (hpull : h.pull it w = .ok (some x) u)
      (hkey : h.apply key [x] u = .ok k t) (hrest : Appraised h key it kxs t v) :
      Appraised h key it ((k, x) :: kxs) w v

/-- One turn of the loop that asks for keys. -/
def appraise (h : Host) (key : Value) (keyed : Array (Value × Value)) (x : Value) :
    M (Array (Value × Value)) := do
  let k ← h.apply key [x]
  pure (keyed.push (k, x))

theorem Appraised.foldFrom (hread : Appraised h key it kxs w v) (hn : kxs.length < n)
    (keyed : Array (Value × Value)) :
    h.foldFrom (appraise h key) it n keyed w = .ok (keyed ++ kxs.toArray) v := by
  induction hread generalizing n keyed with
  | nil hend =>
      obtain ⟨n, rfl⟩ := Nat.exists_eq_succ_of_ne_zero (Nat.ne_of_gt hn)
      rw [Host.foldFrom, Act.bind_of_ok hend, Array.append_empty]
      rfl
  | @cons w u t v x k kxs hpull hkey _ ih =>
      obtain ⟨n, rfl⟩ := Nat.exists_eq_succ_of_ne_zero (Nat.ne_of_gt (Nat.zero_lt_of_lt hn))
      have hturn : appraise h key keyed x u = .ok (keyed.push (k, x)) t := Act.bind_of_ok hkey
      have happend : keyed ++ ((k, x) :: kxs).toArray = keyed.push (k, x) ++ kxs.toArray := by
        rw [List.toArray_cons, ← Array.append_assoc, Array.append_singleton]
      rw [Host.foldFrom, Act.bind_of_ok hpull, happend]
      exact (Act.bind_of_ok hturn).trans (ih (Nat.lt_of_succ_lt_succ hn) _)

/-- **Each key is asked for once**, and then the items are sorted stably. -/
theorem sortBy_eq {rank : Value → ρ} (hread : Appraised h key it kxs w v)
    (hranked : v.RankedBy rank (kxs.map Prod.fst)) (hfuel : kxs.length < h.fuel) :
    h.sortBy key it w = .ok ((sortedBy rank kxs).map Prod.snd) v := by
  have hfold : h.fold it #[] (appraise h key) w = .ok kxs.toArray v := by
    rw [Host.fold, hread.foldFrom hfuel, Array.empty_append]
  exact (Act.bind_of_ok hfold).trans (sortKeyed_eq hranked)

/-- A list is made of a sequence that is sorted by a function. -/
theorem exists_callOp_sortBy {f coll : Value} {rank : Value → ρ} (hiterate : iterate coll w = .ok it u)
    (hread : Appraised h f it kxs u v) (hranked : v.RankedBy rank (kxs.map Prod.fst)) (hfuel : kxs.length < h.fuel) :
    ∃ ys marks, h.callOp .sortBy [f, coll] [] w =
        .ok (.ref .list v.lists.size) { v with marks, lists := v.lists.push ys.toArray } ∧
      List.Forall₂ Handed ((sortedBy rank kxs).map Prod.snd) ys := by
  obtain ⟨ys, marks, hlist, hys⟩ := exists_newList ((sortedBy rank kxs).map Prod.snd) v
  have hsort := sortBy_eq hread hranked hfuel
  have hperform : (do
      let it ← iterate coll
      let xs ← h.sortBy f it
      newList xs.toArray : M Value) w =
        .ok (.ref .list v.lists.size) { v with marks, lists := v.lists.push ys.toArray } :=
    (Act.bind_of_ok hiterate).trans ((Act.bind_of_ok hsort).trans hlist)
  exact ⟨ys, marks, (Act.bind_of_ok hperform).trans rfl, hys⟩

/-- **Keys that are totally ordered**, by their ranks.  A key has its rank in a world, since a list that is a key
may change; but to read a sequence does not change it. -/
structure Scale (ρ : Type) [LinearOrder ρ] where
  ranks : Value → ρ → World → Prop
  spared : ∀ {k i w v}, ranks k i w → Spares ∅ w v → ranks k i v
  ordered : ∀ {k l i j w}, ranks k i w → ranks l j w →
    w.same k l = .ok (decide (i = j)) ∧ (i ≠ j → w.before k l = .ok (decide (i < j)))

/-- A key has one rank. -/
theorem Scale.unique (s : Scale ρ) {k : Value} {i j : ρ} (hi : s.ranks k i w) (hj : s.ranks k j w) : i = j := by
  have hsame := (s.ordered hi hi).1.symm.trans (s.ordered hi hj).1
  simpa using hsame

/-- The ranks of some keys are found by a function. -/
theorem Scale.exists_rankedBy (s : Scale ρ) {ks : List Value} (hks : ∀ k ∈ ks, ∃ i, s.ranks k i w) :
    ∃ rank : Value → WithBot ρ, w.RankedBy rank ks ∧ ∀ k i, s.ranks k i w → rank k = i := by
  classical
  let rank (k : Value) : WithBot ρ := if hk : ∃ i, s.ranks k i w then (hk.choose : ρ) else ⊥
  have hrank : ∀ k i, s.ranks k i w → rank k = i := by
    intro k i hi
    have hk : ∃ i, s.ranks k i w := ⟨i, hi⟩
    simp only [rank, dif_pos hk, s.unique hk.choose_spec hi]
  refine ⟨rank, fun k hk l hl => ?_, hrank⟩
  obtain ⟨i, hi⟩ := hks k hk
  obtain ⟨j, hj⟩ := hks l hl
  obtain ⟨hsame, hbefore⟩ := s.ordered hi hj
  simp only [hrank k i hi, hrank l j hj, WithBot.coe_inj, WithBot.coe_lt_coe, ne_eq]
  exact ⟨hsame, hbefore⟩

/-! ### Elements in the order of their keys -/

variable {rate : Node → ρ} {bs : List Node}

/-- Elements in stable order of the ranks of their keys. -/
def sortedOf (rate : Node → ρ) (bs : List Node) : List Node :=
  bs.mergeSort fun a b => decide (rate a ≤ rate b)

theorem stableSort_sortedOf (rate : Node → ρ) (bs : List Node) : StableSort rate bs (sortedOf rate bs) :=
  stableSort_mergeSort rate bs

/-- Items whose keys have the ranks of their elements are sorted as these are. -/
theorem map_form_sortedBy {rank : Value → WithBot ρ} (hrank : ∀ p ∈ kxs, rank p.1 = rate p.2.form) :
    ((sortedBy rank kxs).map Prod.snd).map Value.form = sortedOf rate (kxs.map fun p => p.2.form) := by
  rw [List.map_map]
  refine List.map_mergeSort fun p hp q hq => ?_
  simp only [Function.comp_apply, hrank p hp, hrank q hq, WithBot.coe_le_coe]

/-! ### Key functions -/

/-- How many vertices of a route have been read, and for which elements a key has been asked for, in order. -/
abbrev Extent : Type := ℕ × List Node

/-- How far the route is read, while no keys are asked for. -/
def Gauge.reading (g : Gauge Extent) (asked : List Node) : Gauge ℕ where
  stands it k := g.stands it (k, asked)
  has := g.has
  spared := g.spared

/-- The function gives the key of an element, and the gauge tells that it has been called.  The keys before keep
their ranks. -/
def Gauge.Rates (g : Gauge Extent) (s : Scale ρ) (H : Host) (key : Value) (rate : Node → ρ) (p : Extent)
    (b : Node) : Prop :=
  ∀ it P w x, g.stands it p P w → x.form = b → ∃ k v Q, H.apply key [x] w = .ok k v ∧ s.ranks k (rate b) v ∧
    (∀ l i, s.ranks l i w → s.ranks l i v) ∧ Moves P w v ∧ Q ⊆ within P w.cursors.size ∧
    g.stands it (p.1, p.2 ++ [b]) Q v

variable {g : Gauge Extent} {s : Scale ρ} {k : ℕ} {asked : List Node} {F P Q : Set ℕ}

/-- **The function is called once for each item**, in order, when the keys of a sequence are asked for. -/
theorem exists_appraised (hstands : g.stands it (k, asked) P v) (hbs : Proceeds h d r bs F v) (hF : Has F v)
    (hapart : ∀ j ∈ F, j ∉ P) (hn : d ≤ n)
    (hrates : ∀ j b, bs[j]? = some b → g.Rates s (h.up n) key rate (k, asked ++ bs.take j) b) :
    ∃ kxs u Q, Appraised (h.up n) key r kxs v u ∧ kxs.map (fun p => p.2.form) = bs ∧
      (∀ p ∈ kxs, s.ranks p.1 (rate p.2.form) u) ∧ (∀ l i, s.ranks l i v → s.ranks l i u) ∧ Moves (F ∪ P) v u ∧
      Q ⊆ within P v.cursors.size ∧ g.stands it (k, asked ++ bs) Q u := by
  induction bs generalizing asked F P v with
  | nil =>
      obtain ⟨u, hpull, huses⟩ := hbs n hn
      have hspares : Spares P v u := huses.spares (g.has hstands) fun j hj hmem => hapart j hmem hj
      refine ⟨[], u, P, .nil hpull, rfl, nofun, fun l i hl => s.spared hl huses.empty,
        huses.moves.mono Set.subset_union_left, subset_within P _, ?_⟩
      rw [List.append_nil]
      exact g.spared hstands hspares
  | cons b bs ih =>
      obtain ⟨x, u, G, hpull, hx, huses, hG, hhas, hrest⟩ := hbs n hn
      have hspares : Spares P v u := huses.spares (g.has hstands) fun j hj hmem => hapart j hmem hj
      have hrate := hrates 0 b rfl
      rw [List.take_zero, List.append_nil] at hrate
      obtain ⟨l, t, Q, hkey, hranks, hkept, hmoves, hQ, hstands'⟩ :=
        hrate it P u x (g.spared hstands hspares) hx
      -- what the function moves is apart from what is still to be read
      have hapartG := apart_of_subset_within hG hapart (g.has hstands)
      have hapartQ : ∀ j ∈ G, j ∉ Q := fun j hj hmem =>
        notMem_of_subset_within hQ (hapartG j hj) (hhas j hj) hmem
      have hintact : Intact G u t := hmoves.intact hhas hapartG
      have hrates' : ∀ j c, bs[j]? = some c →
          g.Rates s (h.up n) key rate (k, asked ++ [b] ++ bs.take j) c := by
        intro j c hj
        have hnext := hrates (j + 1) c hj
        rwa [List.take_succ_cons, ← List.singleton_append, ← List.append_assoc] at hnext
      obtain ⟨kxs, t', Q', hread, hforms, hranked, hkept', hmoves', hQ', hstands''⟩ :=
        ih hstands' (hrest t hintact) (hhas.intact hintact) hapartQ hrates'
      have hwithin : within P u.cursors.size ⊆ within (F ∪ P) v.cursors.size :=
        within_mono (Set.subset_union_right.trans (subset_within _ _)) huses.size
      have hbegins : Moves (F ∪ P) v t :=
        (huses.moves.mono Set.subset_union_left).trans hmoves (Set.subset_union_right.trans (subset_within _ _))
      refine ⟨(l, x) :: kxs, t', Q', .cons hpull hkey hread, ?_, ?_,
        fun l i hl => hkept' l i (hkept l i (s.spared hl huses.empty)), hbegins.trans hmoves' ?_, ?_, ?_⟩
      · rw [List.map_cons, hx, hforms]
      · refine List.forall_mem_cons.2 ⟨?_, hranked⟩
        exact hkept' l _ (hx.symm ▸ hranks)
      · refine Set.union_subset (hG.trans ?_) (hQ.trans hwithin)
        exact within_mono (Set.subset_union_left.trans (subset_within _ _)) (Nat.le_refl _)
      · have hQv : Q ⊆ within P v.cursors.size :=
          hQ.trans (within_mono (subset_within P _) huses.size)
        exact hQ'.trans (within_mono hQv (huses.size.trans hmoves.size))
      · rwa [List.append_assoc, List.singleton_append] at hstands''

/-! ### Sorted lists -/

theorem holdings_of_vertices {graph : ℕ} {ys : List Value} (hforms : ys.map Value.form = bs)
    (hfits : ∀ b ∈ bs, Fits graph .vertex b) (w : World) : Holdings (Meaning.element True) w bs ys ∅ := by
  induction ys generalizing bs with
  | nil =>
      cases hforms
      exact .nil
  | cons y ys ih =>
      obtain rfl : y.form :: ys.map Value.form = bs := hforms
      have hy : (Meaning.element True).holds y.form y ∅ w :=
        ⟨rfl, rfl, fun _ hundirected => absurd hundirected (not_undirected_vertex (hfits _ List.mem_cons_self))⟩
      have hcons := Holdings.cons hy (ih rfl fun b hb => hfits b (List.mem_cons_of_mem _ hb)) fun _ hi => hi.elim
      rwa [Set.union_self] at hcons

/-- A list of vertices can be opened. -/
theorem opening_list {graph l : ℕ} (hd : 1 ≤ d) (hfuel : 0 < h.fuel)
    (hforms : (w.listAt l).toList.map Value.form = bs) (hfits : ∀ b ∈ bs, Fits graph .vertex b) :
    ((Meaning.element True).opening h d).holds bs (.ref .list l) ∅ w := by
  refine ⟨rfl, fun _ hi => hi.elim, fun v hv => ?_⟩
  have hlist : v.listAt l = w.listAt l := by rw [listAt, listAt, hv.lists_eq]
  have hcollection : v.collection? (.ref .list l) = some (w.listAt l).toList := by
    rw [← hlist]
    rfl
  obtain ⟨c, hiterate, hready⟩ := iterate_collection hcollection
  exact ⟨_, _, _, hiterate, uses_push v c, Set.insert_subset (.inr (Nat.le_refl _)) (Set.empty_subset _),
    (delivers_ready hready (holdings_of_vertices hforms hfits _) (Set.notMem_empty _) hfuel).mono hd⟩

/-- **The items of a new sequence are put into a list**, sorted, and a key is asked for once for each of them. -/
theorem exists_sortedList {graph : ℕ} (hstands : g.stands it (k, asked) P w) (hnew : Uses ∅ w v)
    (hF : F ⊆ within ∅ w.cursors.size) (hhas : Has F v) (hbs : Proceeds h d r bs F v) (hn : d ≤ n)
    (hrates : ∀ j b, bs[j]? = some b → g.Rates s (h.up n) key rate (k, asked ++ bs.take j) b)
    (hquiet : ∀ {it p P v u}, g.stands it p P v → Quiet P v u → g.stands it p P u)
    (hfits : ∀ b ∈ bs, Fits graph .vertex b) (hfuel : bs.length < h.fuel) {d' : ℕ} (hd' : 1 ≤ d') :
    ∃ l u Q, (do
        let xs ← (h.up n).sortBy key r
        newList xs.toArray : M Value) v = .ok (.ref .list l) u ∧ Moves P w u ∧
      Q ⊆ within P w.cursors.size ∧ g.stands it (k, asked ++ bs) Q u ∧
      ((Meaning.element True).opening h d').holds (sortedOf rate bs) (.ref .list l) ∅ u := by
  have hapart : ∀ j ∈ F, j ∉ P := fun j hj hmem =>
    (hF hj).elim id fun hle => Nat.not_le_of_lt (g.has hstands j hmem) hle
  have hstandsv : g.stands it (k, asked) P v := g.spared hstands (hnew.spares_of_new (g.has hstands))
  obtain ⟨kxs, t, Q, hread, hkxs, hranked, -, hmoves, hQ, hstands'⟩ :=
    exists_appraised hstandsv hbs hhas hapart hn hrates
  have hranks : ∀ l ∈ kxs.map Prod.fst, ∃ i, s.ranks l i t := by
    intro l hl
    obtain ⟨p, hp, rfl⟩ := List.mem_map.1 hl
    exact ⟨_, hranked p hp⟩
  obtain ⟨rank, hrankedBy, hrank⟩ := s.exists_rankedBy hranks
  have hlength : kxs.length < (h.up n).fuel := by
    rw [← List.length_map fun p : Value × Value => p.2.form, hkxs, Host.fuel_up]
    exact hfuel
  obtain ⟨ys, marks, hlist, hys⟩ := exists_newList ((sortedBy rank kxs).map Prod.snd) t
  have hforms : ys.map Value.form = sortedOf rate bs := by
    rw [map_form_of_handed hys, map_form_sortedBy fun p hp => hrank _ _ (hranked p hp), hkxs]
  have hwithin : F ∪ P ⊆ within P w.cursors.size :=
    Set.union_subset (hF.trans (within_mono (Set.empty_subset _) (Nat.le_refl _))) (subset_within P _)
  have hsorts : Moves P w t := (hnew.mono (Set.empty_subset P)).moves.trans hmoves hwithin
  refine ⟨_, _, Q, (Act.bind_of_ok (sortBy_eq hread hrankedBy hlength)).trans hlist,
    ⟨hsorts.graphs_eq, hsorts.size, hsorts.same⟩, hQ.trans (within_mono (subset_within P _) hnew.size),
    hquiet hstands' (quiet_newList Q t marks _), ?_⟩
  have hperm := (stableSort_sortedOf rate bs).perm
  refine opening_list hd' (Nat.zero_lt_of_lt hfuel) ?_ fun b hb => hfits b (hperm.subset hb)
  rw [← hforms]
  simp [listAt]

end GraphRoutes.Session
