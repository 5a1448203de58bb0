/-
**Counts and the lists under them say the same.**

To count a route, its items are read one after the other; each gives a value, itself or what a function gives
for it, and equal values are counted together, under the first of them.  The lists under the counts are made
of these entries, and so they say no more and no less: each value is in one list, once, and it is that of its
count.

The entries are sorted as pairs, and pairs whose first parts are equal would be told by their second parts.
This never happens, since neither two counts nor two values of a dictionary are equal.  So the lists can be
sorted whatever they hold.

Main definitions:

* `GraphRoutes.Session.Counted` — **a finite route, and the values that are counted**;
* `GraphRoutes.Session.countsOf` — how often values occur.

Main results:

* `GraphRoutes.Session.counts_eq`, `GraphRoutes.Session.groupByCount_eq` — what is counted, and what is
  listed;
* `GraphRoutes.Session.counts_inverted` — **counts and the lists under them say the same.**
-/
import GraphRoutes.Proofs.Session.Collections
import GraphRoutes.Proofs.Session.Register
import GraphRoutes.Proofs.Session.Sorts
import GraphRoutes.Proofs.Session.Spelling
import GraphRoutes.Proofs.Tallies

set_option relaxedAutoImplicit false
set_option autoImplicit false

namespace GraphRoutes.Session

open World Route

variable {h : Host} {u v w : World} {f it route x y : Value} {xs ys : List Value} {place : ℕ}

/-! ### Reading what is counted -/

/-- The next item of a route, and the value that is counted for it: itself, if there is no function.  Where
the route is a map itself, its source is read and its functions are applied. -/
def Host.countedItem (h : Host) (f it : Value) : M (Option (Value × Value)) :=
  match f with
  | .null => do
    match ← h.above.pull it with
    | none => pure none
    | some x => pure (some (x, x))
  | f => do
    let w ← get
    let (fs, source) := mapsOver w w.cursors.size [] it
    match ← h.pull source with
    | none => pure none
    | some x => do
      let x ← fs.foldlM (fun x f => h.apply f [x]) x
      let y ← h.apply f [x]
      let y ← handOut y
      pure (some (x, y))

/-- All maps stay as they are. -/
def World.KeepsMaps (w v : World) : Prop :=
  ∀ (place : ℕ) (f it : Value), w.cursors[place]? = some (.mapping f it []) →
    v.cursors[place]? = some (.mapping f it [])

/-- **The rest of a route, and the values that are counted for its items**: the route ends behind them. -/
inductive Counted (h : Host) (f it : Value) : List Value → List Value → World → World → Prop
  | nil {w v : World} (hend : h.countedItem f it w = .ok none v) : Counted h f it [] [] w v
  | cons {w u v : World} {x y : Value} {xs ys : List Value}
      (hitem : h.countedItem f it w = .ok (some (x, y)) u) (hmaps : w.KeepsMaps u)
      (hrest : Counted h f it xs ys u v) : Counted h f it (x :: xs) (y :: ys) w v

/-- Where the values of a route are read: the route itself, or a map over it at a place. -/
def counterAt (place : ℕ) : Value → Value → Value
  | .null, it => it
  | _, _ => .ref .iterator place

/-- The world with a map over an iterator, if there is a function. -/
def World.counting (w : World) : Value → Value → World
  | .null, _ => w
  | f, it => { w with cursors := w.cursors.push (.mapping f it []) }

/-- Each item gives one value. -/
theorem Counted.length_eq (hread : Counted h f it xs ys w v) : xs.length = ys.length := by
  induction hread with
  | nil => rfl
  | cons _ _ _ ih => rw [List.length_cons, List.length_cons, ih]

theorem mapsOver_append (w : World) (n : ℕ) (fs : List Value) (it : Value) :
    mapsOver w n fs it = ((mapsOver w n [] it).1 ++ fs, (mapsOver w n [] it).2) := by
  induction n generalizing fs it with
  | zero => rfl
  | succ n ih =>
      unfold mapsOver
      split
      case h_1 place =>
        split
        case h_1 g source hc => rw [ih (g :: fs), ih [g], List.append_assoc]; rfl
        case h_2 => rfl
      case h_2 => rfl

/-- Whether a function is to be applied to what is counted. -/
theorem null_or_ne (f : Value) : f = .null ∨ f ≠ .null := by
  cases f with
  | null => exact .inl rfl
  | _ => exact .inr nofun

theorem countedItem_eq (hf : f ≠ .null) : h.countedItem f it = (do
    let w ← get
    let (fs, source) := mapsOver w w.cursors.size [] it
    match ← h.pull source with
    | none => pure none
    | some x => do
      let x ← fs.foldlM (fun x f => h.apply f [x]) x
      let y ← h.apply f [x]
      let y ← handOut y
      pure (some (x, y))) := by
  cases f with
  | null => exact absurd rfl hf
  | _ => rfl

/-- A read gives the next value. -/
theorem pull_counterAt {r : Option (Value × Value)} (hitem : h.countedItem f it w = .ok r u)
    (hmap : f ≠ .null → w.cursors[place]? = some (.mapping f it [])) (hfuel : 0 < h.fuel) :
    h.above.pull (counterAt place f it) w = .ok (r.map Prod.snd) u := by
  rcases null_or_ne f with rfl | hf
  · obtain ⟨x, t, hpull, hrest⟩ := Act.bind_eq_ok_iff.1 hitem
    cases x with
    | none => cases hrest; exact hpull
    | some x => cases hrest; exact hpull
  · have hcounter : counterAt place f it = .ref .iterator place := by
      cases f with
      | null => exact absurd rfl hf
      | _ => rfl
    rw [countedItem_eq hf] at hitem
    obtain ⟨_, _, hget, hitem⟩ := Act.bind_eq_ok_iff.1 hitem
    obtain ⟨rfl, rfl⟩ := EStateM.Result.ok.inj hget
    obtain ⟨a, t, hpull, hitem⟩ := Act.bind_eq_ok_iff.1 hitem
    rw [hcounter]
    change readCursor h place w = _
    cases a with
    | none =>
        cases hitem
        have hturn : mapTurn h f it [] w = .ok .ended u := by
          rw [mapTurn, Act.bind_of_ok (m := get) rfl, mapsOver_append]
          exact (Act.bind_of_ok hpull).trans rfl
        have hnext : nextItem h place w = .ok none u := nextItem_of_turn (hmap hf) rfl hturn rfl hfuel
        rw [readCursor, Act.bind_of_ok hnext]
        rfl
    | some x =>
        obtain ⟨x', t', hfold, hitem⟩ := Act.bind_eq_ok_iff.1 hitem
        obtain ⟨y, t'', happly, hitem⟩ := Act.bind_eq_ok_iff.1 hitem
        obtain ⟨y', t''', hhand, hitem⟩ := Act.bind_eq_ok_iff.1 hitem
        cases hitem
        have happlied : ((mapsOver w w.cursors.size [] it).1 ++ [f]).foldlM (fun x f => h.apply f [x]) x t =
            .ok y t'' := by
          rw [List.foldlM_append, Act.bind_of_ok hfold, List.foldlM_cons, Act.bind_of_ok happly]
          rfl
        have hturn : mapTurn h f it [] w = .ok (.give y) t'' := by
          rw [mapTurn, Act.bind_of_ok (m := get) rfl, mapsOver_append]
          exact (Act.bind_of_ok hpull).trans ((Act.bind_of_ok happlied).trans rfl)
        have hnext : nextItem h place w = .ok (some y) t'' :=
          nextItem_of_turn (hmap hf) rfl hturn rfl hfuel
        rw [readCursor, Act.bind_of_ok hnext]
        exact (Act.bind_of_ok hhand).trans rfl

/-- A count with one value more. -/
def recounted (d : Dictionary Key Value Nat) (y : Value) : Dictionary Key Value Nat := recount d (y.spell, y)

/-- One turn of the loop that counts. -/
def countOne (d : Dictionary Key Value Nat) (y : Value) : M (Dictionary Key Value Nat) := do
  let k ← keyOf y
  pure (recount d (k, y))

theorem countOne_eq (hy : y.key?.isSome) (d : Dictionary Key Value Nat) (w : World) :
    countOne d y w = .ok (recounted d y) w := by
  obtain ⟨k, hk⟩ := Option.isSome_iff_exists.1 hy
  rw [countOne, Act.bind_of_ok (keyOf_of_key? hk), recounted, spell_of_key? hk]
  rfl

/-- **The loop over a route** counts the values of its items. -/
theorem foldFrom_counted (hread : Counted h f it xs ys w v)
    (hmap : f ≠ .null → w.cursors[place]? = some (.mapping f it [])) (hkeys : ∀ y ∈ ys, y.key?.isSome)
    (hfuel : 0 < h.fuel) {n : ℕ} (hn : ys.length < n) (d : Dictionary Key Value Nat) :
    h.above.foldFrom countOne (counterAt place f it) n d w = .ok (ys.foldl recounted d) v := by
  induction hread generalizing n d with
  | nil hend =>
      obtain ⟨n, rfl⟩ := Nat.exists_eq_succ_of_ne_zero (Nat.ne_of_gt hn)
      rw [Host.foldFrom, Act.bind_of_ok (pull_counterAt hend hmap hfuel)]
      rfl
  | @cons w u v x y xs ys hitem hmaps _ ih =>
      obtain ⟨n, rfl⟩ := Nat.exists_eq_succ_of_ne_zero (Nat.ne_of_gt (Nat.zero_lt_of_lt hn))
      rw [Host.foldFrom, Act.bind_of_ok (pull_counterAt hitem hmap hfuel)]
      refine (Act.bind_of_ok (countOne_eq (hkeys y List.mem_cons_self) d u)).trans ?_
      exact ih (fun hf => hmaps place f it (hmap hf)) (fun y hy => hkeys y (List.mem_cons_of_mem _ hy))
        (Nat.lt_of_succ_lt_succ hn) (recounted d y)

/-! ### What is counted, and what is listed -/

/-- How often values occur, each under the first that is equal to it. -/
def countsOf (ys : List Value) : List (Value × ℕ) :=
  (firstsBy Value.spell ys).map fun y => (y, ys.countP fun z => z.spell = y.spell)

theorem countsOf_eq_groupsBy (ys : List Value) :
    countsOf ys = (groupsBy Value.spell ys).map fun g => (g.1, g.2.length) := by
  rw [countsOf, groupsBy, List.map_map]
  exact List.map_congr_left fun y _ => congrArg (Prod.mk y) List.countP_eq_length_filter

/-- The entries of a count. -/
def entriesCounted (d : Dictionary Key Value Nat) : List (Value × Value) :=
  d.toList.map fun e => (e.name, .int e.value)

/-- A route that is a dictionary to be counted is one from the start. -/
theorem ensureRoute_ne_dict (hroute : ∀ es m, route ≠ .dict es m) (es : Indexed Key (Value × Value))
    (m : Mark) : ensureRoute route ≠ .dict es m := by
  intro heq
  unfold ensureRoute at heq
  split at heq
  · cases heq
  · split at heq
    · cases heq
    · exact hroute es m heq

/-- A count opens the route, and then reads it, or a map over it. -/
theorem counts_opened (hopen : openRoute route w = .ok it u)
    (hroute : f = .null → ∀ es m, route ≠ .dict es m) :
    h.above.counts route f w = (do
      let d ← h.above.fold (counterAt u.cursors.size f it) Dictionary.empty countOne
      pure (entriesCounted d)) (u.counting f it) := by
  rcases null_or_ne f with rfl | hf
  · have hcounts : h.above.counts route .null = (do
        let items ← openRoute route
        let d ← h.above.fold items .empty countOne
        pure (entriesCounted d)) := by
      unfold Host.counts
      rw [openRoute]
      cases hensured : ensureRoute route with
      | dict es m => exact absurd hensured (ensureRoute_ne_dict (hroute rfl) es m)
      | _ => rfl
    rw [hcounts, Act.bind_of_ok hopen]
    rfl
  · have hmap : mapItems f (ensureRoute route) [] w = .ok (counterAt u.cursors.size f it) (u.counting f it) := by
      refine (Act.bind_of_ok hopen).trans ?_
      cases f with
      | null => exact absurd rfl hf
      | _ => rfl
    have hcounts : h.above.counts route f = (do
        let items ← mapItems f (ensureRoute route) []
        let d ← h.above.fold items .empty countOne
        pure (entriesCounted d)) := by
      cases f with
      | null => exact absurd rfl hf
      | _ => rfl
    rw [hcounts, Act.bind_of_ok hmap]

/-- **What is counted of a route.** -/
theorem counts_eq (hopen : openRoute route w = .ok it u) (hread : Counted h f it xs ys (u.counting f it) v)
    (hroute : f = .null → ∀ es m, route ≠ .dict es m) (hkeys : ∀ y ∈ ys, y.key?.isSome)
    (hfuel : ys.length < h.fuel) :
    h.above.counts route f w = .ok ((countsOf ys).map fun e => (e.1, .int e.2)) v := by
  have hmap : f ≠ .null → (u.counting f it).cursors[u.cursors.size]? = some (.mapping f it []) := by
    intro hf
    cases f with
    | null => exact absurd rfl hf
    | _ => exact Array.getElem?_push_size
  have htallied : ys.foldl recounted .empty = tally (ys.map fun y => (y.spell, y)) := by
    rw [tally, List.foldl_map]
    rfl
  have hfold : h.above.fold (counterAt u.cursors.size f it) Dictionary.empty countOne (u.counting f it) =
      .ok (ys.foldl recounted .empty) v :=
    foldFrom_counted hread hmap hkeys (Nat.zero_lt_of_lt hfuel) hfuel .empty
  rw [counts_opened hopen hroute, Act.bind_of_ok hfold, entriesCounted, htallied, toList_tally,
    List.map_map, countsOf_eq_groupsBy, List.map_map]
  rfl

/-- A test that only looks keeps what it lets pass. -/
theorem filterM_eq {α : Type} {p : α → M Bool} {b : α → Bool} {as : List α}
    (hp : ∀ a ∈ as, p a w = .ok (b a) w) : as.filterM p w = .ok (as.filter b) w := by
  have honto : ∀ kept : List α, as.filterAuxM p kept w = .ok ((as.filter b).reverse ++ kept) w := by
    induction as with
    | nil => exact fun kept => rfl
    | cons a as ih =>
        intro kept
        rw [List.filterAuxM, Act.bind_of_ok (hp a List.mem_cons_self),
          ih (fun a ha => hp a (List.mem_cons_of_mem _ ha))]
        cases hba : b a <;> simp [hba]
  rw [List.filterM, Act.bind_of_ok (honto [])]
  simp
  rfl

theorem reaches_int (m n : ℤ) : Host.reaches (.int m) (.int n) w = .ok (decide (m ≤ n)) w := by
  have hordered : w.ordered .upTo (.int m) (.int n) = .ok (decide (m < n) || m == n && true) := rfl
  have hle : (decide (m < n) || m == n && true) = decide (m ≤ n) := by
    rw [Bool.eq_iff_iff]
    simp [le_iff_lt_or_eq]
  rw [Host.reaches, look, hordered, hle]

/-- The entries whose counts reach a bound. -/
def reaching (least : ℤ) (counts : List (Value × ℕ)) : List (Value × ℕ) :=
  counts.filter fun e => least ≤ (e.2 : ℤ)

/-- **What is listed under counts** from a bound on. -/
theorem groupByCount_eq {least : ℤ} {counts : List (Value × ℕ)}
    (hcounts : h.counts route f w = .ok (counts.map fun e => (e.1, .int e.2)) v) :
    h.groupByCount route f (.int least) w =
      .ok ((inverted (reaching least counts)).map fun g => (.int g.1, g.2)) v := by
  let entry (e : Value × ℕ) : Value × Value := (e.1, .int e.2)
  have hkept : ((counts.map entry).filterM fun e => Host.reaches (.int least) e.2) v =
      .ok ((reaching least counts).map entry) v := by
    have hreaches : ∀ e ∈ counts.map entry, Host.reaches (.int least) e.2 v =
        .ok (decide (least ≤ e.2.int?.getD 0)) v := by
      intro e he
      obtain ⟨e', -, rfl⟩ := List.mem_map.1 he
      exact reaches_int least e'.2
    rw [filterM_eq hreaches, List.filter_map]
    rfl
  have hkeyed : ((reaching least counts).map entry).mapM (fun e => keyOf e.2) v =
      .ok (((reaching least counts).map entry).map fun e => e.2.spell) v := by
    have hkeys : ∀ x ∈ ((reaching least counts).map entry).map Prod.snd, x.key?.isSome = true := by
      intro x hx
      obtain ⟨e, he, rfl⟩ := List.mem_map.1 hx
      obtain ⟨e', -, rfl⟩ := List.mem_map.1 he
      rfl
    have h := mapM_keyOf (w := v) hkeys
    rwa [List.mapM_map, List.map_map] at h
  have hinjective : Function.Injective fun c : ℕ => (Value.int c).key? := by
    intro c c' hcc
    have hspell : (Value.int c).spell = (Value.int c').spell := Option.some.inj hcc
    exact Int.ofNat_inj.1 (by simpa [Value.spell] using hspell)
  rw [Host.groupByCount, Act.bind_of_ok hcounts, Act.bind_of_ok hkept, Act.bind_of_ok hkeyed]
  have hgroups := toList_invert (fun v : Value => v.key?) entry (reaching least counts)
  rw [groupsBy_comp hinjective Prod.snd] at hgroups
  change EStateM.Result.ok _ _ = _
  rw [hgroups, inverted, List.map_map, List.map_map]
  rfl

/-! ### Dictionaries of counts and of lists -/

/-- A dictionary of numbers. -/
def Value.HoldsCounts (r : Value) (counts : List (Value × ℕ)) : Prop :=
  ∃ es m, r = .dict es m ∧ es.toList = counts.map fun e => (e.1, .int e.2)

/-- A list of its own that holds so many values, as they are handed out. -/
def World.HoldsList (w : World) (r : Value) (ys : List Value) : Prop :=
  ∃ l, r = .ref .list l ∧ l < w.lists.size ∧ List.Forall₂ Handed ys (w.listAt l).toList

/-- A dictionary of lists under numbers. -/
def World.HoldsLists (w : World) (r : Value) (groups : List (ℕ × List Value)) : Prop :=
  ∃ es m, r = .dict es m ∧
    List.Forall₂ (fun g e => e.1 = .int g.1 ∧ w.HoldsList e.2 g.2) groups es.toList

/-- A dictionary is handed out with its entries. -/
theorem exists_handOut_dict (es : Indexed Key (Value × Value)) (m : Mark) (w : World) :
    ∃ m' marks, handOut (.dict es m) w = .ok (.dict es m') { w with marks } := by
  obtain ⟨r, marks, hr, hhanded⟩ := exists_handOut (.dict es m) w
  obtain ⟨m', rfl⟩ := hhanded.exists_withMark nofun
  exact ⟨m', marks, hr⟩

/-- The lists that there are stay as they are. -/
structure World.KeepsLists (w v : World) : Prop where
  size : w.lists.size ≤ v.lists.size
  listAt : ∀ l < w.lists.size, v.listAt l = w.listAt l

theorem World.KeepsLists.refl (w : World) : w.KeepsLists w := ⟨le_refl _, fun _ _ => rfl⟩

theorem World.KeepsLists.trans (h : w.KeepsLists v) (h' : v.KeepsLists u) : w.KeepsLists u where
  size := le_trans h.size h'.size
  listAt l hl := (h'.listAt l (Nat.lt_of_lt_of_le hl h.size)).trans (h.listAt l hl)

theorem keepsLists_push (w : World) (xs : Array Value) (marks : ℕ) :
    w.KeepsLists { w with marks, lists := w.lists.push xs } where
  size := by simp
  listAt l hl := by rw [World.listAt, World.listAt, Array.getElem?_push_lt hl, Array.getElem?_eq_getElem hl]

theorem World.HoldsList.keep {r : Value} (hr : w.HoldsList r ys) (hv : w.KeepsLists v) : v.HoldsList r ys := by
  obtain ⟨l, rfl, hl, hhanded⟩ := hr
  exact ⟨l, rfl, Nat.lt_of_lt_of_le hl hv.size, (hv.listAt l hl).symm ▸ hhanded⟩

/-- The list under a number, as a list of its own. -/
def listOut (e : Value × List Value) : M (Value × Value) := do
  let names ← newList e.2.toArray
  pure (e.1, names)

/-- **Lists of their own** are made for the values under each number. -/
theorem exists_mapM_listOut (groups : List (ℕ × List Value)) (w : World) :
    ∃ es u, (groups.map fun g => (Value.int g.1, g.2)).mapM listOut w = .ok es u ∧ w.KeepsLists u ∧
      List.Forall₂ (fun g e => e.1 = .int g.1 ∧ u.HoldsList e.2 g.2) groups es := by
  induction groups generalizing w with
  | nil => exact ⟨[], w, rfl, .refl w, .nil⟩
  | cons g groups ih =>
      obtain ⟨ys, marks, hlist, hhanded⟩ := exists_newList g.2 w
      let t : World := { w with marks, lists := w.lists.push ys.toArray }
      obtain ⟨es, u, hrest, hkeeps, hes⟩ := ih t
      have hfirst : t.HoldsList (.ref .list w.lists.size) g.2 :=
        ⟨w.lists.size, rfl, by simp [t], (listAt_push w ys.toArray marks).symm ▸ hhanded⟩
      refine ⟨(.int g.1, .ref .list w.lists.size) :: es, u, ?_, (keepsLists_push w _ marks).trans hkeeps,
        .cons ⟨rfl, hfirst.keep hkeeps⟩ hes⟩
      have hone : listOut (Value.int g.1, g.2) w = .ok (.int g.1, .ref .list w.lists.size) t :=
        (Act.bind_of_ok hlist).trans rfl
      rw [List.map_cons, List.mapM_cons, Act.bind_of_ok hone, Act.bind_of_ok hrest]
      rfl

/-! ### The operations -/

/-- How a route is passed to a count, and a function or none. -/
inductive CountArgs (route f : Value) : List Value → Prop
  | both : CountArgs route f [route, f]
  | alone (hf : f = .null) : CountArgs route f [route]

/-- How a bound is passed. -/
inductive LeastArg : ℤ → List (String × Value) → Prop
  | given (least : ℤ) : LeastArg least [("min_count", .int least)]
  | default : LeastArg 1 []

variable {args : List Value} {named : List (String × Value)} {least : ℤ}

/-- Entries in the order in which they are wanted. -/
def arranged {α : Type} (sorted : Bool) (es : List (Value × α)) : M (List (Value × α)) :=
  if sorted then sortKeyed (es.map fun e => (e.1, e)) else pure es

/-- **Counts** are taken and arranged. -/
theorem exists_callOp_groupCount (sorted : Bool) (counts : List (Value × ℕ)) {es : List (Value × Value)}
    (hargs : CountArgs route f args) (hcounts : h.counts route f w = .ok es v)
    (hes : arranged sorted es v = .ok (counts.map fun e => (e.1, .int e.2)) v) :
    ∃ r u, h.callOp (.groupCount sorted) args [] w = .ok r u ∧ r.HoldsCounts counts := by
  obtain ⟨bound, hbound, hroute, hf⟩ : ∃ bound, (Op.groupCount sorted).signature.bind? args [] =
      some (bound, []) ∧ Arguments.arg { bound, extra := [] } 0 = route ∧
      Arguments.arg { bound, extra := [] } 1 = f := by
    cases hargs with
    | both => exact ⟨[some route, some f], rfl, rfl, rfl⟩
    | alone hf => exact ⟨[some route, none], rfl, rfl, hf.symm⟩
  let es' : List (Value × Value) := counts.map fun e => (e.1, .int e.2)
  have hperform : h.perform (.groupCount sorted) { bound, extra := [] } w = .ok (dictOfEntries es') v := by
    have hperform : h.perform (.groupCount sorted) { bound, extra := [] } = (do
        let es ← h.counts (Arguments.arg { bound, extra := [] } 0) (Arguments.arg { bound, extra := [] } 1)
        let es ← arranged sorted es
        pure (dictOfEntries es)) := by
      cases sorted <;> rfl
    rw [hperform, hroute, hf, Act.bind_of_ok hcounts, Act.bind_of_ok hes]
    rfl
  obtain ⟨m, marks, hhand⟩ := exists_handOut_dict (.ofList (·.1.spell) es') none v
  exact ⟨_, _, (callOp_of_ok hbound hperform).trans hhand, _, m, rfl, rfl⟩

/-- **Lists under counts** are made and arranged. -/
theorem exists_callOp_groupByCount (sorted : Bool) (lists : List (ℕ × List Value))
    {es : List (Value × List Value)} (hargs : CountArgs route f args) (hnamed : LeastArg least named)
    (hlists : h.groupByCount route f (.int least) w = .ok es v)
    (hes : arranged sorted es v = .ok (lists.map fun g => (.int g.1, g.2)) v) :
    ∃ r u, h.callOp (.groupByCount sorted) args named w = .ok r u ∧ u.HoldsLists r lists := by
  obtain ⟨bound, hbound, hroute, hf, hleast⟩ : ∃ bound,
      (Op.groupByCount sorted).signature.bind? args named = some (bound, []) ∧
      Arguments.arg { bound, extra := [] } 0 = route ∧ Arguments.arg { bound, extra := [] } 1 = f ∧
      (Arguments.given { bound, extra := [] } 2).getD (.int 1) = .int least := by
    cases hargs with
    | both =>
        cases hnamed with
        | given => exact ⟨[some route, some f, some (.int least)], rfl, rfl, rfl, rfl⟩
        | default => exact ⟨[some route, some f, none], rfl, rfl, rfl, rfl⟩
    | alone hf =>
        cases hnamed with
        | given => exact ⟨[some route, none, some (.int least)], rfl, rfl, hf.symm, rfl⟩
        | default => exact ⟨[some route, none, none], rfl, rfl, hf.symm, rfl⟩
  obtain ⟨es', u, hout, -, hes'⟩ := exists_mapM_listOut lists v
  have hperform : h.perform (.groupByCount sorted) { bound, extra := [] } w =
      .ok (dictOfEntries es') u := by
    have hperform : h.perform (.groupByCount sorted) { bound, extra := [] } = (do
        let es ← h.groupByCount (Arguments.arg { bound, extra := [] } 0)
          (Arguments.arg { bound, extra := [] } 1)
          ((Arguments.given { bound, extra := [] } 2).getD (.int 1))
        let es ← arranged sorted es
        let es ← es.mapM listOut
        pure (dictOfEntries es)) := by
      cases sorted <;> rfl
    rw [hperform, hroute, hf, hleast, Act.bind_of_ok hlists, Act.bind_of_ok hes, Act.bind_of_ok hout]
    rfl
  obtain ⟨m, marks, hhand⟩ := exists_handOut_dict (.ofList (·.1.spell) es') none u
  refine ⟨_, _, (callOp_of_ok hbound hperform).trans hhand, _, m, rfl, ?_⟩
  exact hes'.imp fun g e he => ⟨he.1, he.2.keep ⟨le_refl _, fun _ _ => rfl⟩⟩

/-! ### The order of counts and of names -/

/-- Numbers are totally ordered. -/
theorem rankedBy_ints (w : World) (ns : List ℕ) :
    w.RankedBy (fun v => v.int?.getD 0) (ns.map fun n : ℕ => Value.int n) := by
  intro a ha b hb
  obtain ⟨m, -, rfl⟩ := List.mem_map.1 ha
  obtain ⟨n, -, rfl⟩ := List.mem_map.1 hb
  have hspell : (Value.int m).spell = (Value.int n).spell ↔ (m : ℤ) = n := by simp [Value.spell]
  have hself : w.Comparable (.int n) := w.comparable_of_length rfl (by decide : 1 ≤ depthLimit)
  refine ⟨(w.same_eq rfl rfl hself).trans (congrArg Except.ok (decide_eq_decide.2 hspell)), fun hne => ?_⟩
  have hbefore : w.before (.int m) (.int n) = .ok (decide ((m : ℤ) < n) || (m : ℤ) == n && false) := rfl
  rw [hbefore, Bool.and_false, Bool.or_false]
  rfl

/-- Values with different keys have different ranks. -/
theorem World.RankedBy.rank_ne {ρ : Type} [LinearOrder ρ] {rank : Value → ρ} {ks : List Value}
    (h : w.RankedBy rank ks) (hks : ∀ k ∈ ks, k.key?.isSome) (hx : x ∈ ks) (hy : y ∈ ks)
    (hne : x.spell ≠ y.spell) : rank x ≠ rank y := by
  have hlasting : ∀ k ∈ ks, k.lasting = true := by
    intro k hk
    have hkey := hks k hk
    rw [Value.key?] at hkey
    by_contra hnot
    rw [if_neg hnot] at hkey
    cases hkey
  have hself : w.Comparable y := ((h y hy y hy).1).trans (by simp)
  intro heq
  have hsame := (w.same_eq (hlasting x hx) (hlasting y hy) hself).symm.trans (h x hx y hy).1
  rw [decide_eq_false hne, decide_eq_true heq] at hsame
  cases hsame

theorem mem_countsOf_iff {c : ℕ} : (y, c) ∈ countsOf ys ↔
    y ∈ firstsBy Value.spell ys ∧ c = ys.countP fun z => z.spell = y.spell := by
  rw [countsOf, List.mem_map]
  constructor
  · rintro ⟨z, hz, heq⟩
    obtain ⟨rfl, rfl⟩ := Prod.mk.inj heq
    exact ⟨hz, rfl⟩
  · rintro ⟨hy, rfl⟩
    exact ⟨y, hy, rfl⟩

theorem map_fst_countsOf (ys : List Value) : (countsOf ys).map Prod.fst = firstsBy Value.spell ys := by
  rw [countsOf, List.map_map]
  exact List.map_id _

/-- What occurs does so once at least. -/
theorem reaching_countsOf (hleast : least ≤ 1) (ys : List Value) : reaching least (countsOf ys) = countsOf ys := by
  refine List.filter_eq_self.2 fun e he => decide_eq_true ?_
  obtain ⟨hy, hc⟩ := mem_countsOf_iff.1 he
  have hpos : 0 < e.2 := by
    rw [hc]
    exact List.countP_pos_iff.2 ⟨e.1, (firstsBy_sublist _ _).subset hy, decide_eq_true rfl⟩
  omega

/-- **Counts and the lists under them say the same.**  A finite route is counted, or what a function gives for
its items.  Then a value is listed under a count that reaches the bound if and only if that is its count; it
is listed once; the values of a list stand in the order in which they were seen first, and no list is empty.
With a bound of at most one, the lists make up for all items of the route.  The lists can be sorted by their
counts whatever they hold, and the counts by the values if these are totally ordered; either changes nothing
but the order, which is strict. -/
theorem counts_inverted (hargs : CountArgs route f args) (hnamed : LeastArg least named)
    (hopen : openRoute route w = .ok it u) (hread : Counted h f it xs ys (u.counting f it) v)
    (hroute : f = .null → ∀ es m, route ≠ .dict es m) (hkeys : ∀ y ∈ ys, y.key?.isSome)
    (hfuel : ys.length < h.fuel) :
    ∃ lists : List (ℕ × List Value),
      (∃ r t, h.above.callOp (.groupCount false) args [] w = .ok r t ∧ r.HoldsCounts (countsOf ys)) ∧
      (∃ r t, h.above.callOp (.groupByCount false) args named w = .ok r t ∧ t.HoldsLists r lists) ∧
      (∀ c y, (∃ names, (c, names) ∈ lists ∧ y ∈ names) ↔ (y, c) ∈ countsOf ys ∧ least ≤ (c : ℤ)) ∧
      (lists.map Prod.fst).Nodup ∧ (lists.flatMap Prod.snd).Pairwise (fun y z => y.spell ≠ z.spell) ∧
      (∀ g ∈ lists, g.2 ≠ [] ∧ g.2.Sublist (firstsBy Value.spell ys)) ∧
      (least ≤ 1 → (lists.map fun g => g.1 * g.2.length).sum = xs.length) ∧
      (∃ r t sorted, h.above.callOp (.groupByCount true) args named w = .ok r t ∧ t.HoldsLists r sorted ∧
        sorted.Perm lists ∧ (sorted.map Prod.fst).Pairwise (· < ·)) ∧
      ∀ {ρ : Type} [LinearOrder ρ] (rank : Value → ρ), v.RankedBy rank ((countsOf ys).map Prod.fst) →
        ∃ r t sorted, h.above.callOp (.groupCount true) args [] w = .ok r t ∧ r.HoldsCounts sorted ∧
          sorted.Perm (countsOf ys) ∧ (sorted.map fun e => rank e.1).Pairwise (· < ·) := by
  have hcounts := counts_eq hopen hread hroute hkeys hfuel
  let kept := reaching least (countsOf ys)
  have hlists : h.above.groupByCount route f (.int least) w =
      .ok ((inverted kept).map fun g => (.int g.1, g.2)) v := groupByCount_eq hcounts
  have hkept : (kept.map Prod.fst).Sublist (firstsBy Value.spell ys) := by
    rw [← map_fst_countsOf]
    exact List.filter_sublist.map _
  refine ⟨inverted kept, exists_callOp_groupCount false _ hargs hcounts rfl,
    exists_callOp_groupByCount false _ hargs hnamed hlists rfl, fun c y => ?_, nodup_inverted kept, ?_,
    fun g hg => ?_, fun hleast => ?_, ?_, fun rank hrank => ?_⟩
  · rw [exists_mem_inverted_iff]
    simp [kept, reaching]
  · refine ((pairwise_firstsBy _ ys).sublist hkept).perm (perm_inverted kept).symm fun hne => hne.symm
  · obtain ⟨hne, hsublist⟩ := ne_nil_of_mem_inverted hg
    exact ⟨hne, hsublist.trans hkept⟩
  · have hall : kept = countsOf ys := reaching_countsOf hleast ys
    rw [sum_inverted, hall, countsOf_eq_groupsBy, List.map_map, hread.length_eq]
    exact sum_length_groupsBy Value.spell ys
  · -- no two lists stand under one count, so the lists themselves are never compared
    have hkeyed : (inverted kept).map (fun g => Value.int g.1) =
        ((inverted kept).map Prod.fst).map fun n : ℕ => Value.int n := by
      rw [List.map_map]
      rfl
    obtain ⟨sorted, hsort, hperm, hpairwise⟩ := exists_sortKeyed (fun g => Value.int g.1)
      (inverted kept) (hkeyed ▸ rankedBy_ints v _) fun g => (Value.int g.1, g.2)
    obtain ⟨r, t, hcall, hholds⟩ := exists_callOp_groupByCount true sorted hargs hnamed hlists
      (by rw [arranged, if_pos rfl, List.map_map]; exact hsort)
    refine ⟨r, t, sorted, hcall, hholds, hperm, ?_⟩
    have hnodup : (sorted.map Prod.fst).Nodup := (hperm.map Prod.fst).nodup_iff.2 (nodup_inverted kept)
    have hle : (sorted.map Prod.fst).Pairwise (· ≤ ·) :=
      List.pairwise_map.2 (hpairwise.imp fun h => Int.ofNat_le.1 h)
    exact (hle.and hnodup).imp fun h => lt_of_le_of_ne h.1 h.2
  · obtain ⟨sorted, hsort, hperm, hpairwise⟩ := exists_sortKeyed Prod.fst (countsOf ys) hrank
      fun e => (e.1, Value.int e.2)
    obtain ⟨r, t, hcall, hholds⟩ := exists_callOp_groupCount true sorted hargs hcounts
      (by rw [arranged, if_pos rfl, List.map_map]; exact hsort)
    refine ⟨r, t, sorted, hcall, hholds, hperm, ?_⟩
    -- the values have different keys, and so they have different ranks
    have hnames : ∀ k ∈ (countsOf ys).map Prod.fst, k.key?.isSome := by
      intro k hk
      rw [map_fst_countsOf] at hk
      exact hkeys k ((firstsBy_sublist _ _).subset hk)
    have hfirsts : (countsOf ys).Pairwise fun e e' => rank e.1 ≠ rank e'.1 := by
      have hspells : ((countsOf ys).map Prod.fst).Pairwise fun x y => x.spell ≠ y.spell := by
        rw [map_fst_countsOf]
        exact pairwise_firstsBy _ _
      refine (List.pairwise_map.1 hspells).imp_of_mem fun he he' hne => ?_
      exact hrank.rank_ne hnames (List.mem_map_of_mem he) (List.mem_map_of_mem he') hne
    have hsorted : sorted.Pairwise fun e e' => rank e.1 ≠ rank e'.1 :=
      hfirsts.perm hperm.symm fun hne => hne.symm
    exact List.pairwise_map.2 ((hpairwise.and hsorted).imp fun h => lt_of_le_of_ne h.1 h.2)

/-! ### Words and numbers, and a dictionary -/

/-- A collection at hand is read to its end. -/
theorem exists_counted_ready (hready : Ready w place xs) (hfuel : 0 < h.fuel) :
    ∃ ys v, Counted h .null (.ref .iterator place) ys ys w v ∧ List.Forall₂ Handed xs ys := by
  induction xs generalizing w with
  | nil =>
      obtain ⟨v, hpull, -⟩ := pull_ready_nil hready hfuel
      exact ⟨[], v, .nil ((Act.bind_of_ok hpull).trans rfl), .nil⟩
  | cons x xs ih =>
      obtain ⟨x', c, marks, hpull, hhanded, hrest⟩ := exists_pull_ready hready hfuel
      obtain ⟨ys, v, hread, hys⟩ := ih hrest
      refine ⟨x' :: ys, v, .cons ((Act.bind_of_ok hpull).trans rfl) (fun p f it hp => ?_) hread, .cons hhanded hys⟩
      -- the cursor that moves is no map
      have hne : place ≠ p := by
        rintro rfl
        cases hready with
        | items of hc => cases hc.symm.trans hp
        | list hc => cases hc.symm.trans hp
        | members hc => cases hc.symm.trans hp
      exact (Array.getElem?_setIfInBounds_ne hne).trans hp

theorem eq_of_forall₂_handed (hys : List.Forall₂ Handed xs ys) (hxs : ∀ x ∈ xs, x.unmarked = false) :
    ys = xs := by
  induction hys with
  | nil => rfl
  | cons hx _ ih =>
      rw [hx.eq_of_marked (hxs _ List.mem_cons_self), ih fun x hx => hxs x (List.mem_cons_of_mem _ hx)]

/-- Texts and numbers have no order among themselves; those that occur as often are listed together all the
same, and the lists are sorted. -/
theorem counts_inverted_mixed :
    let route : Value := .tuple [.str "a", .int 1, .str "a"] none
    ∃ lists : List (ℕ × List Value),
      (∃ r t, (host 2).callOp (.groupCount false) [route] [] {} = .ok r t ∧
        r.HoldsCounts [(.str "a", 2), (.int 1, 1)]) ∧
      (∃ names, (2, names) ∈ lists ∧ .str "a" ∈ names) ∧ (∃ names, (1, names) ∈ lists ∧ .int 1 ∈ names) ∧
      (lists.map fun g => g.1 * g.2.length).sum = 3 ∧
      ∃ r t sorted, (host 2).callOp (.groupByCount true) [route] [] {} = .ok r t ∧ t.HoldsLists r sorted ∧
        sorted.Perm lists ∧ (sorted.map Prod.fst).Pairwise (· < ·) := by
  intro route
  let xs : List Value := [.str "a", .int 1, .str "a"]
  let u : World := { cursors := #[.items .tuple xs] }
  have hopen : openRoute route {} = .ok (.ref .iterator 0) u := rfl
  have hready : Ready u 0 xs := .items .tuple rfl
  obtain ⟨ys, v, hread, hhanded⟩ := exists_counted_ready (h := host 1) hready (by decide)
  obtain rfl : ys = xs := eq_of_forall₂_handed hhanded (by decide)
  have hcounts : countsOf xs = [(.str "a", 2), (.int 1, 1)] := by
    simp [countsOf, firstsBy, xs, Value.spell]
  obtain ⟨lists, hcount, -, hmem, -, -, -, hsum, hsorted, -⟩ :=
    counts_inverted (h := host 1) (.alone rfl) .default hopen hread (by simp [route]) (by decide) (by decide)
  rw [hcounts] at hcount
  refine ⟨lists, hcount, (hmem 2 (.str "a")).2 ?_, (hmem 1 (.int 1)).2 ?_, hsum (le_refl 1), hsorted⟩
  · simp [hcounts]
  · simp [hcounts]

/-- **A dictionary is not counted**, if there is no function: its values are taken for counts, and so they make
up for more items than it has. -/
theorem not_counts_inverted_dictionary :
    ¬∀ (route it r : Value) (xs ys : List Value) (u v t : World) (lists : List (ℕ × List Value)),
      openRoute route {} = .ok it u → Counted (host 1) .null it xs ys (u.counting .null it) v →
      (∀ y ∈ ys, y.key?.isSome) → ys.length < (host 1).fuel →
      (host 2).callOp (.groupByCount false) [route] [] {} = .ok r t → t.HoldsLists r lists →
      (lists.map fun g => g.1 * g.2.length).sum = xs.length := by
  intro hall
  let es : Indexed Key (Value × Value) := .ofList (·.1.spell) [(.str "a", .int 5)]
  let u : World := { cursors := #[.items .dict [.str "a"]] }
  have hready : Ready u 0 [.str "a"] := .items .dict rfl
  obtain ⟨ys, v, hread, hhanded⟩ := exists_counted_ready (h := host 1) hready (by decide)
  obtain rfl : ys = [.str "a"] := eq_of_forall₂_handed hhanded (by decide)
  have hcounts : (host 2).counts (.dict es none) .null {} =
      .ok ([(Value.str "a", 5)].map fun e : Value × ℕ => (e.1, .int e.2)) {} := rfl
  obtain ⟨r, t, hcall, hholds⟩ := exists_callOp_groupByCount false [(5, [.str "a"])] (.alone rfl)
    .default (groupByCount_eq hcounts) rfl
  have hsum := hall (.dict es none) _ r _ _ u v t _ rfl hread (by decide) (by decide) hcall hholds
  cases hsum

end GraphRoutes.Session
