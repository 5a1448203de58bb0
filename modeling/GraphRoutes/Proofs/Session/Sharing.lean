/-
**Iterators that share a set of seen items.**

Several iterators look their items up in one set: each gives those that are not in it, and most of them add
what they give.  The routes under them are asked in any order, and one may read another iterator of the
same set on its way.  So there is one history of trials, in the order in which the routes have given their
items: which iterator has put which item to the test.  The history alone tells which items have passed, and
what the set holds.

Where the routes stand is told by a predicate on worlds.  It knows the history, and how far each iterator
has come; a route may fail, and its iterator is over then.

Main definitions:

* `GraphRoutes.Session.Sharing` — a set, and the iterators that share it;
* `GraphRoutes.Session.Sharing.after`, `GraphRoutes.Session.Sharing.passed` — what the set holds after some
  trials, and which items have passed;
* `GraphRoutes.Session.Sharing.State` — the set and the iterators in a world;
* `GraphRoutes.Session.Fed` — **a route that leaves the set to its iterators**;
* `GraphRoutes.Session.Sharing.Answers` — what the next read of an iterator comes to.

Main results:

* `GraphRoutes.Session.Sharing.keys_after`, `GraphRoutes.Session.Sharing.nodup_after` — **the set holds what
  it held and what has passed**, each once;
* `GraphRoutes.Session.Sharing.exists_mem_passed_iff` — nothing new is lost;
* `GraphRoutes.Session.Fed.answers` — **one read**.
-/
import GraphRoutes.Proofs.Session.Lookouts

set_option relaxedAutoImplicit false
set_option autoImplicit false

namespace GraphRoutes.Session

open World Value Route

/-! ### What a shared set holds -/

theorem Bag.keys_add {b : Bag} (k : Key) (x : Value) (hk : k ∉ b.keys) : (b.add k x).keys = b.keys ++ [k] := by
  rw [Bag.add, Dictionary.put, Dictionary.keys_adjust, if_neg hk]

theorem Bag.values_add {b : Bag} (k : Key) (x : Value) (hk : k ∉ b.keys) :
    (b.add k x).values = b.values ++ [x] := by
  rw [Bag.values, Bag.add, Dictionary.toList_put_of_notMem x () hk, List.map_append]
  rfl

/-- An iterator that looks its items up in a set: the route under it, and whether it adds what it gives. -/
structure Share where
  route : Value
  adds : Bool

/-- **Iterators that share a set**: the place of the set, and what it holds at the beginning, each key once;
the place of the first iterator, and the iterators, one behind the other. -/
structure Sharing where
  bag : ℕ
  members : Bag
  base : ℕ
  shares : List Share
  distinct : members.keys.Nodup

/-- The trials so far: which iterator has put which item to the test. -/
abbrev Trials : Type := List (ℕ × Value)

namespace Sharing

variable (F : Sharing)

/-- The iterator at a position adds what it gives. -/
def adds (i : ℕ) : Bool := (F.shares[i]?).any Share.adds

/-- The set after one trial more: a new item is added, if its iterator adds what it gives. -/
def tried (b : Bag) (t : ℕ × Value) : Bag :=
  if t.2.spell ∉ b.keys ∧ F.adds t.1 = true then b.add t.2.spell t.2 else b

/-- The set after some trials. -/
def after (ts : Trials) : Bag := ts.foldl F.tried F.members

/-- The trials that an item has passed, if a set has held so much before: it was not in the set. -/
def passedFrom : Bag → Trials → Trials
  | _, [] => []
  | b, t :: ts => if t.2.spell ∈ b.keys then passedFrom b ts else t :: passedFrom (F.tried b t) ts

/-- The trials that an item has passed. -/
def passed (ts : Trials) : Trials := F.passedFrom F.members ts

/-- The trials that have added an item. -/
def added (ts : Trials) : Trials := (F.passed ts).filter fun t => F.adds t.1

variable {F} {b : Bag} {t : ℕ × Value} {ts us : Trials} {i j : ℕ}

theorem tried_of_mem (ht : t.2.spell ∈ b.keys) : F.tried b t = b := if_neg fun h => h.1 ht

/-- An iterator that does not add what it gives leaves the set as it is. -/
theorem tried_of_not_adds (ht : F.adds t.1 = false) : F.tried b t = b := if_neg fun h => Bool.eq_false_iff.1 ht h.2

theorem tried_of_new (ht : t.2.spell ∉ b.keys) (hadds : F.adds t.1 = true) : F.tried b t = b.add t.2.spell t.2 :=
  if_pos ⟨ht, hadds⟩

theorem after_append (ts us : Trials) : F.after (ts ++ us) = us.foldl F.tried (F.after ts) :=
  List.foldl_append

theorem after_concat (ts : Trials) (t : ℕ × Value) : F.after (ts ++ [t]) = F.tried (F.after ts) t :=
  after_append ts [t]

theorem passedFrom_append (b : Bag) (ts us : Trials) :
    F.passedFrom b (ts ++ us) = F.passedFrom b ts ++ F.passedFrom (ts.foldl F.tried b) us := by
  induction ts generalizing b with
  | nil => rfl
  | cons t ts ih =>
      rw [List.cons_append, passedFrom, passedFrom, List.foldl_cons]
      by_cases ht : t.2.spell ∈ b.keys
      · rw [if_pos ht, if_pos ht, ih, tried_of_mem ht]
      · rw [if_neg ht, if_neg ht, ih, List.cons_append]

theorem passed_append (ts us : Trials) : F.passed (ts ++ us) = F.passed ts ++ F.passedFrom (F.after ts) us :=
  passedFrom_append F.members ts us

theorem passed_concat_of_mem (ht : t.2.spell ∈ (F.after ts).keys) : F.passed (ts ++ [t]) = F.passed ts := by
  rw [passed_append, passedFrom, if_pos ht, passedFrom, List.append_nil]

theorem passed_concat_of_new (ht : t.2.spell ∉ (F.after ts).keys) :
    F.passed (ts ++ [t]) = F.passed ts ++ [t] := by
  rw [passed_append, passedFrom, if_neg ht, passedFrom]

/-- Each item that passes is put to the test. -/
theorem passedFrom_sublist (b : Bag) (ts : Trials) : (F.passedFrom b ts).Sublist ts := by
  induction ts generalizing b with
  | nil => exact .slnil
  | cons t ts ih =>
      rw [passedFrom]
      by_cases ht : t.2.spell ∈ b.keys
      · rw [if_pos ht]
        exact (ih b).cons t
      · rw [if_neg ht]
        exact (ih _).cons_cons t

/-- A trial leaves the set as it is and adds nothing, or adds a new item. -/
theorem trial_cases (F : Sharing) (ts : Trials) (t : ℕ × Value) :
    F.after (ts ++ [t]) = F.after ts ∧ F.added (ts ++ [t]) = F.added ts ∨
      t.2.spell ∉ (F.after ts).keys ∧ F.after (ts ++ [t]) = (F.after ts).add t.2.spell t.2 ∧
        F.added (ts ++ [t]) = F.added ts ++ [t] := by
  rw [after_concat, added, added]
  by_cases ht : t.2.spell ∈ (F.after ts).keys
  · exact .inl ⟨tried_of_mem ht, by rw [passed_concat_of_mem ht]⟩
  · rw [passed_concat_of_new ht, List.filter_append, List.filter_singleton]
    cases hadds : F.adds t.1 with
    | true => exact .inr ⟨ht, tried_of_new ht hadds, rfl⟩
    | false => exact .inl ⟨tried_of_not_adds hadds, List.append_nil _⟩

/-- **The set holds what it held at the beginning, and what has been added**, in this order. -/
theorem keys_after (F : Sharing) (ts : Trials) :
    (F.after ts).keys = F.members.keys ++ (F.added ts).map (·.2.spell) := by
  induction ts using List.reverseRecOn with
  | nil => exact (List.append_nil _).symm
  | append_singleton ts t ih =>
      obtain ⟨hafter, hadded⟩ | ⟨ht, hafter, hadded⟩ := F.trial_cases ts t
      · rw [hafter, hadded, ih]
      · rw [hafter, hadded, Bag.keys_add _ _ ht, ih, List.map_append, List.append_assoc]
        rfl

theorem values_after (F : Sharing) (ts : Trials) :
    (F.after ts).values = F.members.values ++ (F.added ts).map (·.2) := by
  induction ts using List.reverseRecOn with
  | nil => exact (List.append_nil _).symm
  | append_singleton ts t ih =>
      obtain ⟨hafter, hadded⟩ | ⟨ht, hafter, hadded⟩ := F.trial_cases ts t
      · rw [hafter, hadded, ih]
      · rw [hafter, hadded, Bag.values_add _ _ ht, ih, List.map_append, List.append_assoc]
        rfl

/-- **No key is held twice.** -/
theorem nodup_after (F : Sharing) (ts : Trials) : (F.after ts).keys.Nodup := by
  induction ts using List.reverseRecOn with
  | nil => exact F.distinct
  | append_singleton ts t ih =>
      obtain ⟨hafter, -⟩ | ⟨ht, hafter, -⟩ := F.trial_cases ts t
      · rwa [hafter]
      · rw [hafter, Bag.keys_add _ _ ht, ← List.concat_eq_append]
        exact ih.concat ht

/-- What is held goes on to be held. -/
theorem mem_keys_after_append {k : Key} (hk : k ∈ (F.after ts).keys) (us : Trials) :
    k ∈ (F.after (ts ++ us)).keys := by
  rw [keys_after, List.mem_append] at hk ⊢
  rw [added, passed_append, List.filter_append, List.map_append, List.mem_append]
  exact hk.imp_right .inl

/-- Nothing passes that the set has held at the beginning. -/
theorem notMem_of_mem_passed (ht : t ∈ F.passed ts) : t.2.spell ∉ F.members.keys := by
  induction ts using List.reverseRecOn with
  | nil => cases ht
  | append_singleton ts u ih =>
      by_cases hu : u.2.spell ∈ (F.after ts).keys
      · exact ih (passed_concat_of_mem hu ▸ ht)
      · rw [passed_concat_of_new hu, List.mem_append, List.mem_singleton] at ht
        rcases ht with ht | rfl
        · exact ih ht
        · exact fun hmem => hu (mem_keys_after_append (show _ ∈ (F.after []).keys from hmem) ts)

/-- What an iterator puts to the test that adds what it gives, that the set holds from then on. -/
theorem mem_keys_after (ht : t ∈ ts) (hadds : F.adds t.1 = true) : t.2.spell ∈ (F.after ts).keys := by
  obtain ⟨us, vs, rfl⟩ := List.append_of_mem ht
  have hnow : t.2.spell ∈ (F.after (us ++ [t])).keys := by
    rw [after_concat]
    by_cases hmem : t.2.spell ∈ (F.after us).keys
    · rwa [tried_of_mem hmem]
    · rw [tried_of_new hmem hadds, Bag.keys_add _ _ hmem]
      exact List.mem_append_right _ (List.mem_singleton_self _)
  have hlater := mem_keys_after_append hnow vs
  rwa [List.append_assoc, List.singleton_append] at hlater

theorem mem_of_mem_passed (ht : t ∈ F.passed ts) : t ∈ ts := (passedFrom_sublist _ _).subset ht

/-- **Nothing new is lost**: of what is put to the test, all that was not in the set at the beginning has
been added. -/
theorem exists_mem_added_iff {k : Key} :
    (∃ t ∈ F.added ts, t.2.spell = k) ↔ k ∉ F.members.keys ∧ ∃ t ∈ ts, F.adds t.1 = true ∧ t.2.spell = k := by
  constructor
  · rintro ⟨t, ht, rfl⟩
    obtain ⟨hpassed, hadds⟩ := List.mem_filter.1 ht
    exact ⟨notMem_of_mem_passed hpassed, t, mem_of_mem_passed hpassed, hadds, rfl⟩
  · rintro ⟨hnew, t, ht, hadds, rfl⟩
    have hmem := mem_keys_after ht hadds
    rw [keys_after, List.mem_append] at hmem
    obtain ⟨u, hu, hkey⟩ := List.mem_map.1 (hmem.resolve_left hnew)
    exact ⟨u, hu, hkey⟩

end Sharing

/-! ### The set and the iterators in a world -/

/-- How far an iterator has come. -/
inductive Stage where
  /-- It has not begun. -/
  | waiting
  /-- It has opened its route, and reads the iterator over it. -/
  | reading (it : Value)
  | spent

/-- How far several iterators have come. -/
abbrev Stages : Type := ℕ → Stage

namespace Sharing

variable (F : Sharing)

/-- The test that an iterator puts its items to. -/
def test (s : Share) : Test := .unseen (.ref .bag F.bag) (.bool s.adds)

/-- An iterator that has come so far. -/
def cursor (s : Share) : Stage → Cursor
  | .waiting => .deferred (.distinctIn s.route (.ref .bag F.bag) (.bool s.adds))
  | .reading it => .select (F.test s) it
  | .spent => .finished

/-- **The set and the iterators in a world**, after some trials; those in `busy` are being read. -/
structure State (busy : Set ℕ) (σ : Stages) (ts : Trials) (w : World) : Prop where
  bag : w.bags[F.bag]? = some (F.after ts)
  idle : ∀ {i s}, F.shares[i]? = some s → i ∉ busy → w.cursors[F.base + i]? = some (F.cursor s (σ i))
  running : ∀ {i s}, F.shares[i]? = some s → i ∈ busy → w.cursors[F.base + i]? = some .running

/-- **What the route of an iterator has others do**, which are in `inner`: they make trials, and come as far
as `σ'`.  One that is over stays so. -/
structure Inside (inner : Set ℕ) (i : ℕ) (σ : Stages) (us : Trials) (σ' : Stages) : Prop where
  own : σ' i = σ i
  spent : ∀ j, σ j = .spent → σ' j = .spent
  others : ∀ t ∈ us, t.1 ≠ i ∧ t.1 ∈ inner

variable {F} {busy : Set ℕ} {σ : Stages} {ts : Trials} {i j : ℕ} {s : Share} {w : World}

/-- An iterator that is being read keeps to itself how far it has come. -/
theorem State.update (h : F.State (insert i busy) σ ts w) (stage : Stage) :
    F.State (insert i busy) (Function.update σ i stage) ts w where
  bag := h.bag
  idle {j s} hs hj := by
    have hji : j ≠ i := fun heq => hj (.inl heq)
    rw [Function.update_of_ne hji]
    exact h.idle hs hj
  running := h.running

/-- An iterator begins to be read. -/
theorem State.begun (h : F.State busy σ ts w) (hs : F.shares[i]? = some s) (hi : i ∉ busy) :
    F.State (insert i busy) σ ts (w.reading (F.base + i)) where
  bag := h.bag
  idle {j s'} hs' hj := by
    have hji : F.base + i ≠ F.base + j := fun heq => hj (.inl (Nat.add_left_cancel heq).symm)
    exact (Array.getElem?_setIfInBounds_ne hji).trans (h.idle hs' fun hmem => hj (.inr hmem))
  running {j s'} hs' hj := by
    by_cases hji : j = i
    · subst hji
      exact Array.getElem?_setIfInBounds_self_of_lt (Array.getElem?_eq_some_iff.1 (h.idle hs hi)).1
    · have hne : F.base + i ≠ F.base + j := fun heq => hji (Nat.add_left_cancel heq).symm
      exact (Array.getElem?_setIfInBounds_ne hne).trans (h.running hs' (hj.resolve_left hji))

/-- An iterator has been read. -/
theorem State.settled (h : F.State (insert i busy) σ ts w) (hs : F.shares[i]? = some s) (hi : i ∉ busy) :
    F.State busy σ ts (w.withCursor (F.base + i) (F.cursor s (σ i))) where
  bag := h.bag
  idle {j s'} hs' hj := by
    by_cases hji : j = i
    · subst hji
      cases hs.symm.trans hs'
      have hplace := h.running hs (Set.mem_insert j busy)
      exact Array.getElem?_setIfInBounds_self_of_lt (Array.getElem?_eq_some_iff.1 hplace).1
    · have hne : F.base + i ≠ F.base + j := fun heq => hji (Nat.add_left_cancel heq).symm
      exact (Array.getElem?_setIfInBounds_ne hne).trans (h.idle hs' fun hmem => hmem.elim hji hj)
  running {j s'} hs' hj := by
    have hne : F.base + i ≠ F.base + j := fun heq => hi (Nat.add_left_cancel heq ▸ hj)
    exact (Array.getElem?_setIfInBounds_ne hne).trans (h.running hs' (.inr hj))

end Sharing

/-! ### Routes under the iterators -/

/-- **A route that leaves the set to its iterators.**  It is under the iterator at position `i`, and is asked
while those in `busy` are being read.  It is opened and read, and may fail; it gives items that can be
stored in a set.  On its way it may read iterators in `inner`, which put items to the test, but not the one
that it is under.  What that one does to its own cursor and to the set leaves the routes where they stand. -/
structure Fed (h : Host) (F : Sharing) (inner : Set ℕ) (stands : Stages → Trials → World → Prop)
    (busy : Set ℕ) (i : ℕ) (s : Share) : Prop where
  opens : ∀ {σ ts w it v}, F.State (insert i busy) σ ts w → stands σ ts w → σ i = .waiting →
    openRoute s.route w = .ok it v →
    F.State (insert i busy) σ ts v ∧ stands (Function.update σ i (.reading it)) ts v
  stays : ∀ {σ ts w e v}, F.State (insert i busy) σ ts w → stands σ ts w → σ i = .waiting →
    openRoute s.route w = .error e v →
    F.State (insert i busy) σ ts v ∧ stands (Function.update σ i .spent) ts v
  gives : ∀ {σ ts w it x v}, F.State (insert i busy) σ ts w → stands σ ts w → σ i = .reading it →
    h.pull it w = .ok (some x) v →
    x.key? = some x.spell ∧ x.unmarked = false ∧
      ∃ σ' us, Sharing.Inside inner i σ us σ' ∧ F.State (insert i busy) σ' (ts ++ us) v ∧
        stands σ' (ts ++ us ++ [(i, x)]) v
  ends : ∀ {σ ts w it v}, F.State (insert i busy) σ ts w → stands σ ts w → σ i = .reading it →
    h.pull it w = .ok none v →
    ∃ σ' us, Sharing.Inside inner i σ us σ' ∧ F.State (insert i busy) σ' (ts ++ us) v ∧
      stands (Function.update σ' i .spent) (ts ++ us) v
  fails : ∀ {σ ts w it e v}, F.State (insert i busy) σ ts w → stands σ ts w → σ i = .reading it →
    h.pull it w = .error e v →
    ∃ σ' us, Sharing.Inside inner i σ us σ' ∧ F.State (insert i busy) σ' (ts ++ us) v ∧
      stands (Function.update σ' i .spent) (ts ++ us) v
  moved : ∀ {σ ts w}, stands σ ts w → ∀ c, stands σ ts (w.withCursor (F.base + i) c)
  filled : ∀ {σ ts w}, stands σ ts w → ∀ f, stands σ ts { w with bags := w.bags.modify F.bag f }

/-! ### One step -/

variable {h : Host} {F : Sharing} {inner busy : Set ℕ} {stands : Stages → Trials → World → Prop}
  {σ σ' : Stages} {ts us more : Trials} {i j : ℕ} {s : Share} {u v w : World} {x it : Value} {b : Bag}

theorem modify_bag_eq {place : ℕ} {f : Bag → Bag} (hb : w.bags[place]? = some b) (hf : f b = b) :
    { w with bags := w.bags.modify place f } = w := by
  have hbags : w.bags.modify place f = w.bags := by
    refine Array.ext_getElem? fun i => ?_
    rw [Array.getElem?_modify]
    by_cases hi : place = i
    · subst hi
      rw [if_pos rfl, hb, Option.map_some, hf]
    · rw [if_neg hi]
  rw [hbags]

theorem bagAt_of_getElem? {place : ℕ} (hb : w.bags[place]? = some b) : w.bagAt place = b := by
  rw [World.bagAt, hb, Option.getD_some]

/-- **The test of one item**: it passes if it is new. -/
theorem Sharing.exists_holds (hbag : w.bags[F.bag]? = some b) (hs : F.shares[i]? = some s)
    (hk : x.key? = some x.spell) :
    ∃ f, (F.test s).holds h x w = .ok (decide (x.spell ∉ b.keys)) { w with bags := w.bags.modify F.bag f } ∧
      f b = F.tried b (i, x) := by
  have hadds : F.adds i = s.adds := by
    rw [adds, hs]
    rfl
  have hcontains : h.contains x (.ref .bag F.bag) w = .ok (b.contains x.spell) w := by
    rw [contains_bag F.bag hk, bagAt_of_getElem? hbag]
  rw [test, Test.holds, unseen, Act.bind_of_ok hcontains]
  by_cases hmem : x.spell ∈ b.keys
  · rw [(Dictionary.contains_iff b x.spell).2 hmem]
    refine ⟨id, ?_, (tried_of_mem hmem).symm⟩
    rw [modify_bag_eq hbag rfl, decide_eq_false (not_not_intro hmem)]
    rfl
  · have hnew : b.contains x.spell = false := by
      rw [Bool.eq_false_iff, ne_eq, Dictionary.contains_iff]
      exact hmem
    rw [hnew, decide_eq_true hmem]
    cases ha : s.adds with
    | true =>
        refine ⟨Bag.add x.spell x, ?_, (tried_of_new (t := (i, x)) hmem (hadds.trans ha)).symm⟩
        have hadd : addTo (.ref .bag F.bag) x w =
            .ok () { w with bags := w.bags.modify F.bag (Bag.add x.spell x) } :=
          Act.bind_of_ok (keyOf_of_key? hk)
        exact Act.bind_of_ok hadd
    | false =>
        refine ⟨id, ?_, (tried_of_not_adds (hadds.trans ha)).symm⟩
        rw [modify_bag_eq hbag rfl]
        rfl

/-- An item that has been put to the test leaves the routes where they stand. -/
theorem Fed.exists_tried (hfed : Fed h F inner stands busy i s) (hs : F.shares[i]? = some s)
    (hw : F.State (insert i busy) σ ts w) (hstands : stands σ (ts ++ [(i, x)]) w)
    (hk : x.key? = some x.spell) :
    ∃ v, (F.test s).holds h x w = .ok (decide (x.spell ∉ (F.after ts).keys)) v ∧
      F.State (insert i busy) σ (ts ++ [(i, x)]) v ∧ stands σ (ts ++ [(i, x)]) v := by
  obtain ⟨f, hholds, hf⟩ := Sharing.exists_holds (h := h) hw.bag hs hk
  refine ⟨_, hholds, ⟨?_, hw.idle, hw.running⟩, hfed.filled hstands f⟩
  rw [Array.getElem?_modify, if_pos rfl, hw.bag, Option.map_some, hf, Sharing.after_concat]

/-! ### The steps of one read -/

/-- While an iterator makes some trials, no item of its own passes; what passes, other iterators have given
that are read by the routes. -/
def Sharing.Skips (F : Sharing) (inner : Set ℕ) (i : ℕ) (ts more : Trials) : Prop :=
  ∀ t ∈ F.passedFrom (F.after ts) more, t.1 ≠ i ∧ t.1 ∈ inner

/-- The trials that an iterator has made. -/
def Trials.of (ts : Trials) (i : ℕ) : Trials := ts.filter (·.1 = i)

theorem Sharing.skips_nil : F.Skips inner i ts [] := nofun

theorem Sharing.skips_append :
    F.Skips inner i ts (us ++ more) ↔ F.Skips inner i ts us ∧ F.Skips inner i (ts ++ us) more := by
  rw [Skips, passedFrom_append, ← after_append]
  exact List.forall_mem_append

theorem Sharing.Inside.skips (h : Sharing.Inside inner i σ us σ') (ts : Trials) : F.Skips inner i ts us :=
  fun t ht => h.others t ((passedFrom_sublist _ _).subset ht)

/-- An item that is not new is passed over. -/
theorem Sharing.skips_of_mem (hx : x.spell ∈ (F.after ts).keys) : F.Skips inner i ts [(i, x)] := by
  rw [Skips, passedFrom, if_pos hx]
  exact nofun

/-- The iterator over a route is asked while its filter is being read. -/
def Sharing.Asks (F : Sharing) (stands : Stages → Trials → World → Prop) (busy : Set ℕ) (i : ℕ)
    (stage : Stage) (w : World) : Prop :=
  ∃ σ ts, F.State (insert i busy) σ ts w ∧ stands σ ts w ∧ σ i = stage

/-- The route of an iterator has come to its end. -/
def Sharing.Ends (h : Host) (F : Sharing) (stands : Stages → Trials → World → Prop) (busy : Set ℕ)
    (i : ℕ) : Prop :=
  ∃ it u v, F.Asks stands busy i (.reading it) u ∧ h.pull it u = .ok none v

/-- The route of an iterator has failed, when it was opened or when it was read. -/
def Sharing.Fails (h : Host) (F : Sharing) (stands : Stages → Trials → World → Prop) (busy : Set ℕ)
    (i : ℕ) (s : Share) (e : Fault) : Prop :=
  (∃ u v, F.Asks stands busy i .waiting u ∧ openRoute s.route u = .error e v) ∨
    ∃ it u v, F.Asks stands busy i (.reading it) u ∧ h.pull it u = .error e v

/-- **What some steps of an iterator come to**, after the trials `ts`: its next item, the end or a failure of
its route, or nothing yet, and then it has passed over as many items. -/
inductive Sharing.Comes (h : Host) (F : Sharing) (inner : Set ℕ)
    (stands : Stages → Trials → World → Prop) (busy : Set ℕ) (i : ℕ) (s : Share) (σ : Stages) (ts : Trials)
    (fuel : ℕ) : Pull Cursor Value Fault → World → Prop
  | gives {σ' : Stages} {more : Trials} {x it : Value} {v : World} (hmore : F.Skips inner i ts more)
      (hover : ∀ j, σ j = .spent → σ' j = .spent) (hnew : x.spell ∉ (F.after (ts ++ more)).keys)
      (hmarked : x.unmarked = false) (hit : σ' i = .reading it)
      (hv : F.State (insert i busy) σ' (ts ++ more ++ [(i, x)]) v)
      (hstands : stands σ' (ts ++ more ++ [(i, x)]) v) :
      Comes h F inner stands busy i s σ ts fuel (.item x (F.cursor s (.reading it))) v
  | ends {σ' : Stages} {more : Trials} {v : World} (hmore : F.Skips inner i ts more)
      (hover : ∀ j, σ j = .spent → σ' j = .spent) (hends : F.Ends h stands busy i)
      (hv : F.State (insert i busy) σ' (ts ++ more) v)
      (hstands : stands (Function.update σ' i .spent) (ts ++ more) v) :
      Comes h F inner stands busy i s σ ts fuel (.ended none) v
  | fails {σ' : Stages} {more : Trials} {e : Fault} {v : World} (hmore : F.Skips inner i ts more)
      (hover : ∀ j, σ j = .spent → σ' j = .spent) (hfails : F.Fails h stands busy i s e)
      (hv : F.State (insert i busy) σ' (ts ++ more) v)
      (hstands : stands (Function.update σ' i .spent) (ts ++ more) v) :
      Comes h F inner stands busy i s σ ts fuel (.failed e none) v
  | goesOn {σ' : Stages} {more : Trials} {v : World} (hmore : F.Skips inner i ts more)
      (hcount : fuel ≤ (more.of i).length) (hv : F.State (insert i busy) σ' (ts ++ more) v)
      (hstands : stands σ' (ts ++ more) v) : Comes h F inner stands busy i s σ ts fuel .unsettled v

/-- What comes behind some trials that give nothing, comes of them, too. -/
theorem Sharing.Comes.behind {m n : ℕ} {r : Pull Cursor Value Fault} (hskips : F.Skips inner i ts us)
    (hon : ∀ j, σ j = .spent → σ' j = .spent) (hr : F.Comes h inner stands busy i s σ' (ts ++ us) n r v)
    (hmn : m ≤ (us.of i).length + n) : F.Comes h inner stands busy i s σ ts m r v := by
  cases hr with
  | gives hmore hover hnew hmarked hit hv hstands =>
      rw [List.append_assoc ts] at hnew hv hstands
      exact .gives (skips_append.2 ⟨hskips, hmore⟩) (fun j hj => hover j (hon j hj)) hnew hmarked hit hv hstands
  | ends hmore hover hends hv hstands =>
      rw [List.append_assoc ts] at hv hstands
      exact .ends (skips_append.2 ⟨hskips, hmore⟩) (fun j hj => hover j (hon j hj)) hends hv hstands
  | fails hmore hover hfails hv hstands =>
      rw [List.append_assoc ts] at hv hstands
      exact .fails (skips_append.2 ⟨hskips, hmore⟩) (fun j hj => hover j (hon j hj)) hfails hv hstands
  | goesOn hmore hcount hv hstands =>
      rw [List.append_assoc ts] at hv hstands
      refine .goesOn (skips_append.2 ⟨hskips, hmore⟩) (hmn.trans ?_) hv hstands
      rw [Trials.of, Trials.of, List.filter_append, List.length_append]
      exact Nat.add_le_add_left hcount _

/-- An item that is passed over is one step. -/
theorem Sharing.Comes.skip {fuel : ℕ} {r : Pull Cursor Value Fault} (hus : Sharing.Inside inner i σ us σ')
    (hx : x.spell ∈ (F.after (ts ++ us)).keys)
    (hr : F.Comes h inner stands busy i s σ' (ts ++ us ++ [(i, x)]) fuel r v) :
    F.Comes h inner stands busy i s σ ts (fuel + 1) r v := by
  rw [List.append_assoc] at hr
  refine hr.behind (skips_append.2 ⟨hus.skips ts, skips_of_mem hx⟩) hus.spent ?_
  have hone : 1 ≤ (Trials.of (us ++ [(i, x)]) i).length := by simp [Trials.of]
  omega

/-- Opening a route brings nothing to an end, and passes over nothing. -/
theorem Sharing.Comes.opened {m n : ℕ} {r : Pull Cursor Value Fault}
    (hon : ∀ j, σ j = .spent → σ' j = .spent) (hr : F.Comes h inner stands busy i s σ' ts n r v) (hmn : m ≤ n) :
    F.Comes h inner stands busy i s σ ts m r v := by
  rw [← List.append_nil ts] at hr
  exact hr.behind Sharing.skips_nil hon (Nat.le_add_left_of_le hmn)

theorem source_of_error {e : Fault} (hpull : h.pull it w = .error e v) : h.source it w = .error e v :=
  Act.bind_of_error hpull

/-- A failure of the source is a failure of its filter. -/
theorem stepCursor_select_error {test : Test} {e : Fault} (hpull : h.pull it w = .error e v) :
    stepCursor h (.select test it) w = .error e v := by
  have hselect : select h.source (test.holds h) it w = .error e v :=
    Act.bind_of_error (source_of_error hpull)
  change (Step.map (Cursor.select test) <$> select h.source (test.holds h) it : M _) w = _
  rw [map_eq_pure_bind]
  exact Act.bind_of_error hselect

/-- An item of the source is given if it passes. -/
theorem stepCursor_select_item {test : Test} {passes : Bool} (hpull : h.pull it w = .ok (some x) v)
    (hholds : test.holds h x v = .ok passes u) :
    stepCursor h (.select test it) w =
      .ok (bif passes then .give x (.select test it) else .skip (.select test it)) u := by
  have hselect : select h.source (test.holds h) it w = .ok (bif passes then .give x it else .skip it) u := by
    rw [select, Act.bind_of_ok (source_of_item hpull)]
    refine (Act.bind_of_ok hholds).trans ?_
    cases passes <;> rfl
  rw [stepCursor_select hselect]
  cases passes <;> rfl

/-- The steps of an iterator that has opened its route. -/
theorem Fed.exists_pull (hfed : Fed h F inner stands busy i s) (hs : F.shares[i]? = some s) (fuel : ℕ)
    {σ : Stages} {ts : Trials} {w : World} (hw : F.State (insert i busy) σ ts w)
    (hstands : stands σ ts w) (hit : σ i = .reading it) :
    ∃ r v, (stepCursor h).pull fuel (F.cursor s (.reading it)) w = .ok r v ∧
      F.Comes h inner stands busy i s σ ts fuel r v := by
  induction fuel generalizing σ ts w with
  | zero =>
      rw [← List.append_nil ts] at hw hstands
      exact ⟨.unsettled, w, rfl, .goesOn Sharing.skips_nil (Nat.zero_le _) hw hstands⟩
  | succ fuel ih =>
      have hasks : F.Asks stands busy i (.reading it) w := ⟨σ, ts, hw, hstands, hit⟩
      cases hpull : h.pull it w with
      | error e v =>
          obtain ⟨σ', us, hus, hv, hstands'⟩ := hfed.fails hw hstands hit hpull
          exact ⟨_, v, Machine.pull_of_error (stepCursor_select_error hpull) fuel,
            .fails (hus.skips ts) hus.spent (.inr ⟨it, w, v, hasks, hpull⟩) hv hstands'⟩
      | ok r v =>
          cases r with
          | none =>
              obtain ⟨σ', us, hus, hv, hstands'⟩ := hfed.ends hw hstands hit hpull
              have hselect : select h.source ((F.test s).holds h) it w = .ok .finish v :=
                (Act.bind_of_ok (source_of_end hpull)).trans rfl
              have hstep : stepCursor h (F.cursor s (.reading it)) w = .ok .finish v :=
                stepCursor_select hselect
              exact ⟨_, v, Machine.pull_of_finish hstep fuel,
                .ends (hus.skips ts) hus.spent ⟨it, w, v, hasks, hpull⟩ hv hstands'⟩
          | some x =>
              obtain ⟨hk, hmarked, σ', us, hus, hv, hstands'⟩ := hfed.gives hw hstands hit hpull
              obtain ⟨t, hholds, ht, hstands''⟩ := hfed.exists_tried hs hv hstands' hk
              have hit' : σ' i = .reading it := hus.own.trans hit
              have hstep := stepCursor_select_item hpull hholds
              by_cases hx : x.spell ∈ (F.after (ts ++ us)).keys
              · rw [decide_eq_false (not_not_intro hx)] at hstep
                obtain ⟨r, u, hpulled, hr⟩ := ih ht hstands'' hit'
                exact ⟨r, u, (Machine.pull_of_skip hstep fuel).trans hpulled, hr.skip hus hx⟩
              · rw [decide_eq_true hx] at hstep
                exact ⟨_, t, Machine.pull_of_give hstep fuel,
                  .gives (hus.skips ts) hus.spent hx hmarked hit' ht hstands''⟩

/-- To open the route is the first step of an iterator. -/
theorem Fed.exists_pull_waiting (hfed : Fed h F inner stands busy i s) (hs : F.shares[i]? = some s) (fuel : ℕ)
    (hw : F.State (insert i busy) σ ts w) (hstands : stands σ ts w) (hwaiting : σ i = .waiting) :
    ∃ r v, (stepCursor h).pull fuel (F.cursor s .waiting) w = .ok r v ∧
      F.Comes h inner stands busy i s σ ts (fuel - 1) r v := by
  cases fuel with
  | zero =>
      rw [← List.append_nil ts] at hw hstands
      exact ⟨.unsettled, w, rfl, .goesOn Sharing.skips_nil (Nat.zero_le _) hw hstands⟩
  | succ fuel =>
      cases hopen : openRoute s.route w with
      | error e v =>
          obtain ⟨hv, hstands'⟩ := hfed.stays hw hstands hwaiting hopen
          rw [← List.append_nil ts] at hv hstands'
          have hstep : stepCursor h (F.cursor s .waiting) w = .error e v :=
            Act.bind_of_error (Act.bind_of_error hopen)
          exact ⟨_, v, Machine.pull_of_error hstep fuel, .fails Sharing.skips_nil (fun _ => id)
            (.inl ⟨w, v, ⟨σ, ts, hw, hstands, hwaiting⟩, hopen⟩) hv hstands'⟩
      | ok it v =>
          obtain ⟨hv, hstands'⟩ := hfed.opens hw hstands hwaiting hopen
          have hbegin : beginCursor h (.distinctIn s.route (.ref .bag F.bag) (.bool s.adds)) w =
              .ok (F.cursor s (.reading it)) v := Act.bind_of_ok hopen
          have hstep : stepCursor h (F.cursor s .waiting) w = .ok (.skip (F.cursor s (.reading it))) v :=
            Act.bind_of_ok hbegin
          obtain ⟨r, u, hpull, hr⟩ :=
            hfed.exists_pull hs fuel (hv.update (.reading it)) hstands' (Function.update_self ..)
          refine ⟨r, u, (Machine.pull_of_skip hstep fuel).trans hpull, hr.opened (fun j hj => ?_) (Nat.le_refl _)⟩
          have hji : j ≠ i := by
            rintro rfl
            cases hwaiting.symm.trans hj
          rwa [Function.update_of_ne hji]

/-! ### One read -/

/-- An end that is reported from inside a sequence is a failure of its own. -/
def Fault.inside : Fault → Fault
  | .exhausted => .interrupted
  | e => e

theorem readClosed_of_failed {place : ℕ} {c : Cursor} {rest : Option Cursor} {e : Fault}
    (hpull : (stepCursor h).pull h.fuel c (w.reading place) = .ok (.failed e rest) v) :
    readClosed h place c w = .error e.inside (v.withCursor place .finished) := by
  rw [readClosed, Act.bind_of_ok (m := setCursor place .running) rfl]
  refine (Act.bind_of_ok hpull).trans ?_
  cases e <;> rfl

theorem readClosed_of_unsettled {place : ℕ} {c : Cursor}
    (hpull : (stepCursor h).pull h.fuel c (w.reading place) = .ok .unsettled v) :
    readClosed h place c w = .error .outOfFuel v := by
  rw [readClosed, Act.bind_of_ok (m := setCursor place .running) rfl]
  exact Act.bind_of_ok hpull

/-- A failure of a closed sequence is a failure of the read. -/
theorem pull_of_closed_error {g : ℕ} {c : Cursor} {e : Fault} (hc : w.cursors[g]? = some c) (hclosed : Closed c)
    (hread : readClosed h g c w = .error e v) : h.above.pull (.ref .iterator g) w = .error e v := by
  rw [← nextItem_of_closed hc (hclosed.notOpen _ _) hclosed.notRunning hclosed.notFinished] at hread
  exact Act.bind_of_error hread

/-- **What the next read of an iterator comes to**, after the trials `ts`, when the iterators have come as far
as `σ`.  It gives the next item of its route that is new; or the route has come to its end, or has failed, and
the iterator is over; or it has passed over more items than it may in one go.  An iterator that is over stays
so. -/
inductive Sharing.Answers (h : Host) (F : Sharing) (inner : Set ℕ)
    (stands : Stages → Trials → World → Prop) (busy : Set ℕ) (i : ℕ) (s : Share) (σ : Stages) (ts : Trials) :
    EStateM.Result Fault World (Option Value) → Prop
  | gives {σ' : Stages} {more : Trials} {x : Value} {v : World} (hmore : F.Skips inner i ts more)
      (hover : ∀ j, σ j = .spent → σ' j = .spent) (hnew : x.spell ∉ (F.after (ts ++ more)).keys)
      (hv : F.State busy σ' (ts ++ more ++ [(i, x)]) v) (hstands : stands σ' (ts ++ more ++ [(i, x)]) v) :
      Answers h F inner stands busy i s σ ts (.ok (some x) v)
  | ends {σ' : Stages} {more : Trials} {v : World} (hmore : F.Skips inner i ts more)
      (hover : ∀ j, σ j = .spent → σ' j = .spent) (hends : σ i = .spent ∨ F.Ends h stands busy i)
      (hown : σ' i = .spent) (hv : F.State busy σ' (ts ++ more) v) (hstands : stands σ' (ts ++ more) v) :
      Answers h F inner stands busy i s σ ts (.ok none v)
  | fails {σ' : Stages} {more : Trials} {e : Fault} {v : World} (hmore : F.Skips inner i ts more)
      (hover : ∀ j, σ j = .spent → σ' j = .spent) (hfails : F.Fails h stands busy i s e)
      (hown : σ' i = .spent) (hv : F.State busy σ' (ts ++ more) v) (hstands : stands σ' (ts ++ more) v) :
      Answers h F inner stands busy i s σ ts (.error e.inside v)
  | tires {σ' : Stages} {more : Trials} {v : World} (hmore : F.Skips inner i ts more)
      (hcount : h.fuel ≤ (more.of i).length + 1) (hv : F.State (insert i busy) σ' (ts ++ more) v)
      (hstands : stands σ' (ts ++ more) v) :
      Answers h F inner stands busy i s σ ts (.error .outOfFuel v)

theorem Sharing.closed_cursor (F : Sharing) (s : Share) {stage : Stage} (hstage : stage ≠ .spent) :
    Closed (F.cursor s stage) := by
  cases stage with
  | waiting | reading => exact ⟨nofun, nofun, fun _ _ => rfl⟩
  | spent => exact absurd rfl hstage

/-- One that is over stays so when another one comes to its end. -/
theorem update_over (hover : ∀ j, σ j = .spent → σ' j = .spent) (i : ℕ) :
    ∀ j, σ j = .spent → Function.update σ' i .spent j = .spent := by
  intro j hj
  by_cases hji : j = i
  · rw [hji, Function.update_self]
  · rw [Function.update_of_ne hji]
    exact hover j hj

/-- **One read of an iterator that shares a set.** -/
theorem Fed.answers (hfed : Fed h F inner stands busy i s) (hs : F.shares[i]? = some s) (hi : i ∉ busy)
    (hw : F.State busy σ ts w) (hstands : stands σ ts w) :
    F.Answers h inner stands busy i s σ ts (h.above.pull (.ref .iterator (F.base + i)) w) := by
  have hc := hw.idle hs hi
  by_cases hover : σ i = .spent
  · rw [hover] at hc
    rw [pull_finished hc]
    rw [← List.append_nil ts] at hw hstands
    exact .ends Sharing.skips_nil (fun _ => id) (.inl hover) hover hw hstands
  have hclosed := F.closed_cursor s hover
  have hreading := hw.begun hs hi
  have hstands' : stands σ ts (w.reading (F.base + i)) := hfed.moved hstands .running
  obtain ⟨r, v, hpull, hr⟩ : ∃ r v, (stepCursor h).pull h.fuel (F.cursor s (σ i)) (w.reading (F.base + i)) =
      .ok r v ∧ F.Comes h inner stands busy i s σ ts (h.fuel - 1) r v := by
    cases hstage : σ i with
    | spent => exact absurd hstage hover
    | waiting => exact hfed.exists_pull_waiting hs h.fuel hreading hstands' hstage
    | reading it =>
        obtain ⟨r, v, hpull, hr⟩ := hfed.exists_pull hs h.fuel hreading hstands' hstage
        exact ⟨r, v, hpull, hr.opened (fun _ => id) (Nat.sub_le _ 1)⟩
  cases hr with
  | @gives σ' more x it v hmore hon hnew hmarked hit hv hstands =>
      have hsettled := hv.settled hs hi
      rw [hit] at hsettled
      have hread := readClosed_of_item hpull
      rw [pull_of_closed hc hclosed hread (by rintro _ ⟨⟩; exact hmarked)]
      exact .gives hmore hon hnew hsettled (hfed.moved hstands _)
  | @ends σ' more v hmore hon hends hv hstands =>
      have hsettled := (hv.update .spent).settled hs hi
      rw [Function.update_self] at hsettled
      rw [pull_of_closed hc hclosed (readClosed_of_ended hpull) (by rintro _ ⟨⟩)]
      exact .ends hmore (update_over hon i) (.inr hends) (Function.update_self ..) hsettled
        (hfed.moved hstands _)
  | @fails σ' more e v hmore hon hfails hv hstands =>
      have hsettled := (hv.update .spent).settled hs hi
      rw [Function.update_self] at hsettled
      rw [pull_of_closed_error hc hclosed (readClosed_of_failed hpull)]
      exact .fails hmore (update_over hon i) hfails (Function.update_self ..) hsettled
        (hfed.moved hstands _)
  | goesOn hmore hcount hv hstands =>
      rw [pull_of_closed_error hc hclosed (readClosed_of_unsettled hpull)]
      exact .tires hmore (Nat.le_add_of_sub_le hcount) hv hstands

end GraphRoutes.Session
