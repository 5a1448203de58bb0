/-
**All reads of iterators that share a set.**

However iterators over one set are read, in whatever order, and whatever goes on in between that leaves them
and their set alone, the set holds what it held at the beginning and what has been given by those iterators
that add what they give, each item once.  Each iterator gives items of its route in their order, and passes
over those that the set holds at that time; so of the items that the routes have given, nothing new is lost.

Main definitions:

* `GraphRoutes.Session.Interleaved` — reads of several iterators in any order;
* `GraphRoutes.Session.Sharing.Account` — **what has been given, and what the set holds**.

Main results:

* `GraphRoutes.Session.Sharing.account_of_reads` — the account of any reads;
* `GraphRoutes.Session.Fed.exists_exhausted` — iterators over finite routes can be read to their ends;
* `GraphRoutes.Session.distinct_in_shares` — **iterators that share a set give each new item once**;
* `GraphRoutes.Session.fed_numbers` — routes of numbers leave any set to its iterators.
-/
import GraphRoutes.Proofs.Session.Sharing

set_option relaxedAutoImplicit false
set_option autoImplicit false

namespace GraphRoutes.Session

open World Value Route

variable {h : Host} {F : Sharing} {inner : Set ℕ} {stands : Stages → Trials → World → Prop}
  {σ σ' : Stages} {ts us ys : Trials} {i j : ℕ} {s : Share} {u v w : World} {x it : Value}

/-! ### Making the iterators -/

/-- Where iterators are made over one set, one behind the other: the world after the first `n` of them. -/
def Sharing.opened (F : Sharing) (w : World) (n : ℕ) : World :=
  { w with cursors := w.cursors ++ ((F.shares.take n).map fun s => F.cursor s .waiting).toArray }

/-- The ways to say that an iterator adds what it gives, or that it does not. -/
inductive Share.Named (s : Share) : List (String × Value) → Prop
  | default (hadds : s.adds = true) : Named s []
  | update : Named s [("update", .bool s.adds)]

theorem Sharing.size_opened (F : Sharing) (w : World) {n : ℕ} (hn : n ≤ F.shares.length) :
    (F.opened w n).cursors.size = w.cursors.size + n := by
  simp [opened, Nat.min_eq_left hn]

/-- One iterator more is made behind the others, and nothing is asked for yet. -/
theorem Sharing.callOp_distinctIn (hs : F.shares[i]? = some s) (hbase : F.base = w.cursors.size)
    {named : List (String × Value)} (hnamed : s.Named named) (H : Host) :
    H.callOp .distinctIn [s.route, .ref .bag F.bag] named (F.opened w i) =
      .ok (.ref .iterator (F.base + i)) (F.opened w (i + 1)) := by
  have hlt := (List.getElem?_eq_some_iff.1 hs).1
  have hopened : F.opened w (i + 1) =
      { F.opened w i with cursors := (F.opened w i).cursors.push (F.cursor s .waiting) } := by
    refine congrArg (fun cs => { w with cursors := cs }) (Array.toList_inj.1 ?_)
    simp [opened, List.take_add_one, hs]
  have hdefer : World.defer (.distinctIn s.route (.ref .bag F.bag) (.bool s.adds)) (F.opened w i) =
      .ok (.ref .iterator (F.base + i)) (F.opened w (i + 1)) := by
    rw [hopened, hbase, ← F.size_opened w hlt.le]
    rfl
  cases hnamed with
  | default hadds =>
      rw [hadds] at hdefer
      have hperform : H.perform .distinctIn
          { bound := [some s.route, some (.ref .bag F.bag), none], extra := [] } (F.opened w i) = _ := hdefer
      exact (callOp_of_ok rfl hperform).trans rfl
  | update =>
      have hperform : H.perform .distinctIn
          { bound := [some s.route, some (.ref .bag F.bag), some (.bool s.adds)], extra := [] }
          (F.opened w i) = _ := hdefer
      exact (callOp_of_ok rfl hperform).trans rfl

/-- Iterators that have been made have not begun. -/
theorem Sharing.state_opened (hbag : w.bags[F.bag]? = some F.members) (hbase : F.base = w.cursors.size) :
    F.State ∅ (fun _ => .waiting) [] (F.opened w F.shares.length) where
  bag := hbag
  idle {i s} hs _ := by
    rw [hbase, opened, Array.getElem?_append_right (Nat.le_add_right _ _), Nat.add_sub_cancel_left,
      List.take_length, List.getElem?_toArray, List.getElem?_map, hs]
    rfl
  running _ hi := hi.elim

/-! ### Reads in any order -/

/-- **Reads of several iterators in any order**, with anything in between that is allowed: who has given
what.  A read may also end, or fail. -/
inductive Interleaved (h : Host) (F : Sharing) (between : World → World → Prop) (w : World) :
    Trials → World → Prop
  | start : Interleaved h F between w [] w
  | gives {ys : Trials} {i : ℕ} {s : Share} {y : Value} {u v : World} (hw : Interleaved h F between w ys u)
      (hs : F.shares[i]? = some s) (hpull : h.pull (.ref .iterator (F.base + i)) u = .ok (some y) v) :
      Interleaved h F between w (ys ++ [(i, y)]) v
  | ends {ys : Trials} {i : ℕ} {s : Share} {u v : World} (hw : Interleaved h F between w ys u)
      (hs : F.shares[i]? = some s) (hpull : h.pull (.ref .iterator (F.base + i)) u = .ok none v) :
      Interleaved h F between w ys v
  | fails {ys : Trials} {i : ℕ} {s : Share} {e : Fault} {u v : World} (hw : Interleaved h F between w ys u)
      (hs : F.shares[i]? = some s) (hpull : h.pull (.ref .iterator (F.base + i)) u = .error e v)
      (he : e ≠ .outOfFuel) : Interleaved h F between w ys v
  | meanwhile {ys : Trials} {u v : World} (hw : Interleaved h F between w ys u) (hbetween : between u v) :
      Interleaved h F between w ys v

/-- From one world to the next, the iterators, their set and their routes have been left alone. -/
def Sharing.Beside (F : Sharing) (stands : Stages → Trials → World → Prop) (u v : World) : Prop :=
  ∀ σ ts, F.State ∅ σ ts u → stands σ ts u → F.State ∅ σ ts v ∧ stands σ ts v

/-- Those who have given the items `ys` have passed the trials for them; the others that have been passed are
those of iterators in `inner`, which the routes have read. -/
structure Sharing.Given (F : Sharing) (inner : Set ℕ) (ys ts : Trials) : Prop where
  sublist : ys.Sublist (F.passed ts)
  own : ∀ i ∉ inner, ys.of i = Trials.of (F.passed ts) i
  alone : inner = ∅ → ys = F.passed ts

theorem Trials.of_append (ts us : Trials) (i : ℕ) : Trials.of (ts ++ us) i = ts.of i ++ us.of i :=
  List.filter_append ..

/-- What has passed inside of the routes is not given. -/
theorem Sharing.Given.skips (hys : F.Given inner ys ts) (hus : F.Skips inner i ts us) :
    F.Given inner ys (ts ++ us) where
  sublist := by
    rw [passed_append]
    exact hys.sublist.trans (List.sublist_append_left _ _)
  own j hj := by
    have hnone : Trials.of (F.passedFrom (F.after ts) us) j = [] := by
      refine List.filter_eq_nil_iff.2 fun t ht => ?_
      rw [decide_eq_true_iff]
      rintro rfl
      exact hj (hus t ht).2
    rw [passed_append, Trials.of_append, hnone, List.append_nil]
    exact hys.own j hj
  alone hinner := by
    have hnone : F.passedFrom (F.after ts) us = [] := by
      refine List.eq_nil_iff_forall_not_mem.2 fun t ht => ?_
      rw [Skips, hinner] at hus
      exact (hus t ht).2
    rw [passed_append, hnone, List.append_nil]
    exact hys.alone hinner

/-- What passes at last is given. -/
theorem Sharing.Given.concat (hys : F.Given inner ys ts) (hx : x.spell ∉ (F.after ts).keys) (i : ℕ) :
    F.Given inner (ys ++ [(i, x)]) (ts ++ [(i, x)]) where
  sublist := by
    rw [passed_concat_of_new hx]
    exact hys.sublist.append (.refl _)
  own j hj := by
    rw [passed_concat_of_new hx, Trials.of_append, Trials.of_append, hys.own j hj]
  alone hinner := by rw [passed_concat_of_new hx, hys.alone hinner]

/-- **However the iterators are read**, there have been trials which those who have given something have
passed. -/
theorem Sharing.exists_given (hw : F.State ∅ σ [] w) (hstands : stands σ [] w)
    (hfed : ∀ i s, F.shares[i]? = some s → Fed h F inner stands ∅ i s)
    (hread : Interleaved h.above F (F.Beside stands) w ys v) :
    ∃ σ ts, F.State ∅ σ ts v ∧ stands σ ts v ∧ F.Given inner ys ts := by
  induction hread with
  | start => exact ⟨σ, [], hw, hstands, .slnil, fun _ _ => rfl, fun _ => rfl⟩
  | @gives ys i s y u v _ hs hpull ih =>
      obtain ⟨σ, ts, hu, hstands, hys⟩ := ih
      have hanswers := (hfed i s hs).answers hs (Set.notMem_empty i) hu hstands
      rw [hpull] at hanswers
      cases hanswers with
      | gives hmore _ hnew hv hstands => exact ⟨_, _, hv, hstands, (hys.skips hmore).concat hnew i⟩
  | @ends ys i s u v _ hs hpull ih =>
      obtain ⟨σ, ts, hu, hstands, hys⟩ := ih
      have hanswers := (hfed i s hs).answers hs (Set.notMem_empty i) hu hstands
      rw [hpull] at hanswers
      cases hanswers with
      | ends hmore _ _ _ hv hstands => exact ⟨_, _, hv, hstands, hys.skips hmore⟩
  | @fails ys i s e u v _ hs hpull he ih =>
      obtain ⟨σ, ts, hu, hstands, hys⟩ := ih
      have hanswers := (hfed i s hs).answers hs (Set.notMem_empty i) hu hstands
      rw [hpull] at hanswers
      cases hanswers with
      | fails hmore _ _ _ hv hstands => exact ⟨_, _, hv, hstands, hys.skips hmore⟩
      | tires => exact absurd rfl he
  | @meanwhile ys u v _ hbetween ih =>
      obtain ⟨σ, ts, hu, hstands, hys⟩ := ih
      obtain ⟨hv, hstands'⟩ := hbetween σ ts hu hstands
      exact ⟨σ, ts, hv, hstands', hys⟩

/-! ### What has been given, and what the set holds -/

/-- **The account of some reads**: the items `ys` have been given, after the trials `ts`, and the iterators have
come as far as `σ`. -/
structure Sharing.Account (h : Host) (F : Sharing) (inner : Set ℕ)
    (stands : Stages → Trials → World → Prop) (ys : Trials) (σ : Stages) (ts : Trials) (v : World) : Prop where
  state : F.State ∅ σ ts v
  standing : stands σ ts v
  given : F.Given inner ys ts
  /-- Each iterator gives items of its route, in their order. -/
  order : ∀ i, (Trials.of (F.passed ts) i).Sublist (ts.of i)
  /-- An item passes if the set does not hold it at that time, and leaves the set as it is if its iterator
  does not add what it gives. -/
  current : ∀ us t vs, ts = us ++ t :: vs →
    F.passed (us ++ [t]) = F.passed us ++ (if t.2.spell ∈ (F.after us).keys then [] else [t]) ∧
      (F.adds t.1 = false → F.after (us ++ [t]) = F.after us)
  /-- The set holds what it held, and what has been given by those who add it. -/
  values : (v.bagAt F.bag).values = F.members.values ++ (F.added ts).map (·.2)
  keys : (v.bagAt F.bag).keys = F.members.keys ++ (F.added ts).map (·.2.spell)
  /-- Nothing is added twice, and nothing is given that was in the set at the beginning. -/
  once : ((F.added ts).map (·.2.spell)).Nodup
  new : ∀ t ∈ F.passed ts, t.2.spell ∉ F.members.keys
  /-- Nothing new is lost. -/
  exact : ∀ k, (∃ t ∈ F.added ts, t.2.spell = k) ↔
    k ∉ F.members.keys ∧ ∃ t ∈ ts, F.adds t.1 = true ∧ t.2.spell = k
  /-- What the next read comes to. -/
  next : ∀ i s, F.shares[i]? = some s →
    F.Answers h inner stands ∅ i s σ ts (h.above.pull (.ref .iterator (F.base + i)) v)

theorem Sharing.passed_concat (F : Sharing) (us : Trials) (t : ℕ × Value) :
    F.passed (us ++ [t]) = F.passed us ++ if t.2.spell ∈ (F.after us).keys then [] else [t] := by
  by_cases ht : t.2.spell ∈ (F.after us).keys
  · rw [passed_concat_of_mem ht, if_pos ht, List.append_nil]
  · rw [passed_concat_of_new ht, if_neg ht]

/-- **There is an account of what is given.** -/
theorem Sharing.Given.account (hys : F.Given inner ys ts) (hv : F.State ∅ σ ts v) (hstands : stands σ ts v)
    (hfed : ∀ i s, F.shares[i]? = some s → Fed h F inner stands ∅ i s) :
    F.Account h inner stands ys σ ts v where
  state := hv
  standing := hstands
  given := hys
  order i := (passedFrom_sublist _ _).filter _
  current us t vs _ := ⟨F.passed_concat us t, fun hadds => by rw [after_concat, tried_of_not_adds hadds]⟩
  values := by rw [bagAt_of_getElem? hv.bag, values_after]
  keys := by rw [bagAt_of_getElem? hv.bag, keys_after]
  once := by
    have hnodup := F.nodup_after ts
    rw [keys_after] at hnodup
    exact (List.nodup_append.1 hnodup).2.1
  new _ ht := notMem_of_mem_passed ht
  exact _ := exists_mem_added_iff
  next i s hs := (hfed i s hs).answers hs (Set.notMem_empty i) hv hstands

/-! ### Reads to the end -/

theorem Sharing.State.cursor_eq_finished_iff (hv : F.State ∅ σ ts v) (hs : F.shares[i]? = some s) :
    v.cursors[F.base + i]? = some .finished ↔ σ i = .spent := by
  rw [hv.idle hs (Set.notMem_empty i), Option.some_inj]
  cases σ i with
  | waiting | reading => exact ⟨nofun, nofun⟩
  | spent => exact ⟨fun _ => rfl, fun _ => rfl⟩

/-- An iterator over a finite route that does not fail can be read to its end. -/
theorem Fed.exists_over {m : ℕ} {between : World → World → Prop} (hfed : Fed h F inner stands ∅ i s)
    (hs : F.shares[i]? = some s) (hfinite : ∀ σ ts v, stands σ ts v → (ts.of i).length ≤ m)
    (hsafe : ∀ e, ¬F.Fails h stands ∅ i s e) (hfuel : m + 1 < h.fuel)
    (hread : Interleaved h.above F between w ys u) (hu : F.State ∅ σ ts u) (hstands : stands σ ts u) :
    ∃ zs v σ' ts', Interleaved h.above F between w (ys ++ zs) v ∧ F.State ∅ σ' ts' v ∧ stands σ' ts' v ∧
      σ' i = .spent ∧ ∀ j, σ j = .spent → σ' j = .spent := by
  -- each item that is given is one trial more
  induction hn : m - (ts.of i).length using Nat.strong_induction_on generalizing ys u σ ts with
  | h n ih =>
      have hanswers := hfed.answers hs (Set.notMem_empty i) hu hstands
      generalize hpull : h.above.pull (.ref .iterator (F.base + i)) u = r at hanswers
      cases hanswers with
      | @gives σ' more x v _ hover _ hv hstands' =>
          have hlength : (Trials.of (ts ++ more ++ [(i, x)]) i).length =
              (ts.of i).length + (more.of i).length + 1 := by
            rw [Trials.of_append, Trials.of_append, List.length_append, List.length_append]
            simp [Trials.of]
          have hle := hfinite _ _ _ hstands'
          obtain ⟨zs, t, σ'', ts'', hread', ht, hstands'', hown, hover'⟩ :=
            ih (m - (Trials.of (ts ++ more ++ [(i, x)]) i).length) (by omega) (hread.gives hs hpull) hv
              hstands' rfl
          rw [List.append_assoc] at hread'
          exact ⟨_, t, σ'', ts'', hread', ht, hstands'', hown, fun j hj => hover' j (hover j hj)⟩
      | ends _ hover _ hown hv hstands' =>
          refine ⟨[], _, _, _, ?_, hv, hstands', hown, hover⟩
          rw [List.append_nil]
          exact hread.ends hs hpull
      | fails _ _ hfails => exact absurd hfails (hsafe _)
      | tires _ hcount _ hstands' =>
          have hle := hfinite _ _ _ hstands'
          rw [Trials.of_append, List.length_append] at hle
          omega

/-- **Iterators over finite routes that do not fail can all be read to their ends.** -/
theorem Fed.exists_exhausted {m : ℕ} {between : World → World → Prop}
    (hfed : ∀ i s, F.shares[i]? = some s → Fed h F inner stands ∅ i s)
    (hfinite : ∀ i s, F.shares[i]? = some s → ∀ σ ts v, stands σ ts v → (ts.of i).length ≤ m)
    (hsafe : ∀ i s e, F.shares[i]? = some s → ¬F.Fails h stands ∅ i s e) (hfuel : m + 1 < h.fuel)
    (hread : Interleaved h.above F between w ys u) (hu : F.State ∅ σ ts u) (hstands : stands σ ts u) {n : ℕ}
    (hn : n ≤ F.shares.length) :
    ∃ zs v σ' ts', Interleaved h.above F between w (ys ++ zs) v ∧ F.State ∅ σ' ts' v ∧ stands σ' ts' v ∧
      ∀ i < n, σ' i = .spent := by
  induction n with
  | zero => exact ⟨[], u, σ, ts, by rwa [List.append_nil], hu, hstands, nofun⟩
  | succ n ih =>
      obtain ⟨zs, v, σ', ts', hread', hv, hstands', hbefore⟩ := ih (Nat.le_of_succ_le hn)
      have hs : F.shares[n]? = some F.shares[n] := List.getElem?_eq_getElem hn
      obtain ⟨zs', t, σ'', ts'', hread'', ht, hstands'', hown, hover⟩ :=
        (hfed n _ hs).exists_over hs (hfinite n _ hs) (fun e => hsafe n _ e hs) hfuel hread' hv
          hstands'
      rw [List.append_assoc] at hread''
      refine ⟨zs ++ zs', t, σ'', ts'', hread'', ht, hstands'', fun i hi => ?_⟩
      rcases Nat.lt_succ_iff_lt_or_eq.1 hi with hlt | rfl
      · exact hover i (hbefore i hlt)
      · exact hown

/-- **Iterators that share a set give each new item once.**  They ask for nothing when they are made.  However
they are read, and whatever goes on in between that leaves them alone, the set holds what it held and what those
have given that add it; nothing is added twice, and nothing new is lost; what each gives next is told by what
the set holds by then.  If their routes are finite and do not fail, they can all be read to their ends. -/
theorem distinct_in_shares (hbag : w.bags[F.bag]? = some F.members) (hbase : F.base = w.cursors.size)
    (hfed : ∀ i s, F.shares[i]? = some s → Fed h F inner stands ∅ i s)
    (hstands : stands (fun _ => .waiting) [] (F.opened w F.shares.length)) (H : Host) :
    let opened := F.opened w F.shares.length
    (∀ i s named, F.shares[i]? = some s → s.Named named →
      H.callOp .distinctIn [s.route, .ref .bag F.bag] named (F.opened w i) =
        .ok (.ref .iterator (F.base + i)) (F.opened w (i + 1))) ∧
      (∀ ys v, Interleaved h.above F (F.Beside stands) opened ys v →
        ∃ σ ts, F.Account h inner stands ys σ ts v) ∧
      ∀ m, (∀ i s, F.shares[i]? = some s → ∀ σ ts v, stands σ ts v → (ts.of i).length ≤ m) → m + 1 < h.fuel →
        (∀ i s e, F.shares[i]? = some s → ¬F.Fails h stands ∅ i s e) →
        ∀ ys u, Interleaved h.above F (F.Beside stands) opened ys u →
          ∃ zs v, Interleaved h.above F (F.Beside stands) opened (ys ++ zs) v ∧
            ∀ i < F.shares.length, v.cursors[F.base + i]? = some .finished := by
  intro opened
  have hopened := F.state_opened hbag hbase
  refine ⟨fun i s named hs hnamed => F.callOp_distinctIn hs hbase hnamed H, fun ys v hread => ?_,
    fun m hfinite hfuel hsafe ys u hread => ?_⟩
  · obtain ⟨σ, ts, hv, hstands', hys⟩ := F.exists_given hopened hstands hfed hread
    exact ⟨σ, ts, hys.account hv hstands' hfed⟩
  · obtain ⟨σ, ts, hu, hstands', -⟩ := F.exists_given hopened hstands hfed hread
    obtain ⟨zs, v, σ', ts', hread', hv, -, hover⟩ :=
      Fed.exists_exhausted hfed hfinite hsafe hfuel hread hu hstands' (Nat.le_refl _)
    refine ⟨zs, v, hread', fun i hi => ?_⟩
    exact (hv.cursor_eq_finished_iff (List.getElem?_eq_getElem hi)).2 (hover i hi)

/-! ### Numbers at hand -/

/-- What does not move the iterators leaves them, and their set, as they are. -/
theorem Sharing.State.congr {busy : Set ℕ} (hw : F.State busy σ ts w) (hbags : v.bags = w.bags)
    (hsame : ∀ j < F.shares.length, v.cursors[F.base + j]? = w.cursors[F.base + j]?) :
    F.State busy σ ts v where
  bag := hbags ▸ hw.bag
  idle hs hj := (hsame _ (List.getElem?_eq_some_iff.1 hs).1).trans (hw.idle hs hj)
  running hs hj := (hsame _ (List.getElem?_eq_some_iff.1 hs).1).trans (hw.running hs hj)

/-- An iterator over a row of numbers. -/
def numbersShare (r : List ℤ × Bool) : Share := ⟨.tuple (r.1.map .int) none, r.2⟩

/-- Iterators over rows of numbers. -/
def numbersSharing (bag : ℕ) (members : Bag) (hdistinct : members.keys.Nodup) (base : ℕ)
    (rows : List (List ℤ × Bool)) : Sharing where
  bag := bag
  members := members
  base := base
  shares := rows.map numbersShare
  distinct := hdistinct

/-- How far a row has been read, and what it has given by then.  Its iterator is behind the first `n`
cursors. -/
inductive RowStage (n : ℕ) (row : List ℤ) (w : World) : Stage → List Value → Prop
  | waiting : RowStage n row w .waiting []
  | reading {q k : ℕ} (hq : n ≤ q)
      (hrest : w.cursors[q]? = some (.items .tuple ((row.map Value.int).drop k))) :
      RowStage n row w (.reading (.ref .iterator q)) ((row.map Value.int).take k)
  | spent : RowStage n row w .spent (row.map Value.int)

/-- Where rows of numbers stand, each with an iterator of its own. -/
structure RowStages (n : ℕ) (rows : List (List ℤ × Bool)) (σ : Stages) (ts : Trials) (w : World) : Prop where
  row : ∀ {i r}, rows[i]? = some r → RowStage n r.1 w (σ i) ((ts.of i).map (·.2))
  apart : ∀ {i j q}, i < rows.length → j < rows.length → σ i = .reading (.ref .iterator q) →
    σ j = .reading (.ref .iterator q) → i = j
  size : n ≤ w.cursors.size

variable {n q : ℕ} {rows : List (List ℤ × Bool)} {row : List ℤ} {stage : Stage} {xs : List Value}

theorem RowStage.congr (hw : RowStage n row w stage xs)
    (hsame : ∀ q, stage = .reading (.ref .iterator q) → v.cursors[q]? = w.cursors[q]?) :
    RowStage n row v stage xs := by
  cases hw with
  | waiting => exact .waiting
  | reading hq hrest => exact .reading hq ((hsame _ rfl).trans hrest)
  | spent => exact .spent

/-- Rows are moved by nothing but reads of their own. -/
theorem RowStages.congr (hw : RowStages n rows σ ts w) (hsize : w.cursors.size ≤ v.cursors.size)
    (hsame : ∀ i q, i < rows.length → σ i = .reading (.ref .iterator q) → v.cursors[q]? = w.cursors[q]?) :
    RowStages n rows σ ts v where
  row hr := (hw.row hr).congr fun q => hsame _ q (List.getElem?_eq_some_iff.1 hr).1
  apart := hw.apart
  size := hw.size.trans hsize

theorem RowStages.lt_size (hw : RowStages n rows σ ts w) (hi : i < rows.length)
    (hq : σ i = .reading (.ref .iterator q)) : n ≤ q ∧ q < w.cursors.size := by
  have hrow := hw.row (List.getElem?_eq_getElem hi)
  generalize (ts.of i).map (·.2) = xs at hrow
  rw [hq] at hrow
  cases hrow with
  | reading hle hrest => exact ⟨hle, (Array.getElem?_eq_some_iff.1 hrest).1⟩

/-- One row comes further. -/
theorem RowStages.update (us : Trials) (hw : RowStages n rows σ ts w) {r : List ℤ × Bool} (hr : rows[i]? = some r)
    (hsize : w.cursors.size ≤ v.cursors.size) (hrow : RowStage n r.1 v stage (((ts ++ us).of i).map (·.2)))
    (hus : ∀ t ∈ us, t.1 = i)
    (hsame : ∀ j q, j < rows.length → j ≠ i → σ j = .reading (.ref .iterator q) →
      v.cursors[q]? = w.cursors[q]? ∧ stage ≠ .reading (.ref .iterator q)) :
    RowStages n rows (Function.update σ i stage) (ts ++ us) v where
  row {j r'} hr' := by
    by_cases hj : j = i
    · subst hj
      cases hr.symm.trans hr'
      rwa [Function.update_self]
    · have hnone : Trials.of us j = [] := by
        refine List.filter_eq_nil_iff.2 fun t ht => ?_
        rw [hus t ht, decide_eq_true_iff]
        exact Ne.symm hj
      rw [Function.update_of_ne hj, Trials.of_append, hnone, List.append_nil]
      exact (hw.row hr').congr fun q hq => (hsame j q (List.getElem?_eq_some_iff.1 hr').1 hj hq).1
  apart {j k q} hj hk hjq hkq := by
    by_cases hji : j = i <;> by_cases hki : k = i
    · rw [hji, hki]
    · rw [hji, Function.update_self] at hjq
      rw [Function.update_of_ne hki] at hkq
      exact absurd hjq (hsame k q hk hki hkq).2
    · rw [hki, Function.update_self] at hkq
      rw [Function.update_of_ne hji] at hjq
      exact absurd hkq (hsame j q hj hji hjq).2
    · rw [Function.update_of_ne hji] at hjq
      rw [Function.update_of_ne hki] at hkq
      exact hw.apart hj hk hjq hkq
  size := hw.size.trans hsize

section

variable {k : Host} {bag base : ℕ} {members : Bag} {hdistinct : members.keys.Nodup} {inner busy : Set ℕ}

/-- What an iterator over a row gives next: the next number, or the end. -/
theorem RowStages.cases (hw : RowStages n rows σ ts w) {r : List ℤ × Bool} (hr : rows[i]? = some r)
    (hit : σ i = .reading it) (hk : 0 < k.fuel) :
    ∃ q j, it = .ref .iterator q ∧ (ts.of i).map (·.2) = (r.1.map Value.int).take j ∧
      ((∃ m : ℤ, (r.1.map Value.int)[j]? = some (.int m) ∧ k.above.pull it w =
          .ok (some (.int m)) (w.withCursor q (.items .tuple ((r.1.map Value.int).drop (j + 1))))) ∨
        (ts.of i).map (·.2) = r.1.map Value.int ∧ k.above.pull it w = .ok none w) := by
  have hrow := hw.row hr
  generalize hxs : (ts.of i).map (·.2) = xs at hrow
  rw [hit] at hrow
  cases hrow with
  | @reading q j hq hrest =>
      refine ⟨q, j, rfl, rfl, ?_⟩
      rcases Nat.lt_or_ge j (r.1.map Value.int).length with hlt | hge
      · have hget : (r.1.map Value.int)[j] = .int (r.1.get ⟨j, by rwa [List.length_map] at hlt⟩) := List.getElem_map ..
        have hdrop := hrest
        rw [List.drop_eq_getElem_cons hlt, hget] at hdrop
        exact .inl ⟨_, (List.getElem?_eq_getElem hlt).trans (congrArg some hget), pull_items hdrop rfl hk⟩
      · rw [List.drop_eq_nil_of_le hge] at hrest
        exact .inr ⟨List.take_of_length_le hge, pull_items_nil hrest hk⟩

/-- What a row has given is what it was asked for. -/
theorem RowStages.given_concat (hw : RowStages n rows σ ts w) {r : List ℤ × Bool} (hr : rows[i]? = some r)
    (hq : σ i = .reading (.ref .iterator q)) {j : ℕ} {m : ℤ}
    (hgiven : (ts.of i).map (·.2) = (r.1.map Value.int).take j)
    (hm : (r.1.map Value.int)[j]? = some (.int m)) :
    RowStages n rows σ (ts ++ [(i, .int m)])
      (w.withCursor q (.items .tuple ((r.1.map Value.int).drop (j + 1)))) := by
  have hi := (List.getElem?_eq_some_iff.1 hr).1
  obtain ⟨hle, hlt⟩ := hw.lt_size hi hq
  have htake : (Trials.of (ts ++ [(i, .int m)]) i).map (·.2) = (r.1.map Value.int).take (j + 1) := by
    rw [Trials.of_append, List.map_append, hgiven, List.take_add_one, hm]
    simp [Trials.of]
  have hown : Function.update σ i (.reading (.ref .iterator q)) = σ := by rw [← hq, Function.update_eq_self]
  rw [← hown]
  refine hw.update _ hr (by simp [withCursor]) ?_ (by simp) fun l q' hl hli hq' => ⟨?_, ?_⟩
  · rw [htake]
    exact .reading hle (Array.getElem?_setIfInBounds_self_of_lt hlt)
  · refine Array.getElem?_setIfInBounds_ne ?_
    rintro rfl
    exact hli (hw.apart hl hi hq' hq)
  · rintro ⟨⟩
    exact hli (hw.apart hl hi hq' hq)

/-- **Rows of numbers leave any set to its iterators.** -/
theorem fed_numbers (hk : 0 < k.fuel) {r : List ℤ × Bool} (hr : rows[i]? = some r) :
    Fed k.above (numbersSharing bag members hdistinct base rows) ∅ (RowStages (base + rows.length) rows) busy i
      (numbersShare r) where
  opens {σ ts w it v} hw hstands hwaiting hopen := by
    have hi := (List.getElem?_eq_some_iff.1 hr).1
    have hnew : ∀ {q}, q < w.cursors.size →
        (w.cursors.push (.items .tuple (r.1.map Value.int)))[q]? = w.cursors[q]? := fun hq => by
      rw [Array.getElem?_push_lt hq, Array.getElem?_eq_getElem hq]
    cases hopen
    refine ⟨hw.congr rfl fun j hj => hnew ?_, ?_⟩
    · refine Nat.lt_of_lt_of_le (Nat.add_lt_add_left ?_ base) hstands.size
      simpa [numbersSharing] using hj
    · rw [← List.append_nil ts]
      refine hstands.update [] hr (by simp) ?_ nofun fun j q hj hji hq => ⟨hnew (hstands.lt_size hj hq).2, ?_⟩
      · have hnone : (ts.of i).map (·.2) = (r.1.map Value.int).take 0 := by
          have hrow := hstands.row hr
          generalize (ts.of i).map (·.2) = xs at hrow ⊢
          rw [hwaiting] at hrow
          cases hrow
          rfl
        rw [List.append_nil, hnone]
        exact .reading hstands.size Array.getElem?_push_size
      · rintro ⟨⟩
        exact Nat.lt_irrefl _ (hstands.lt_size hj hq).2
  stays {σ ts w e v} _ _ _ hopen := by cases hopen
  gives {σ ts w it x v} hw hstands hit hpull := by
    obtain ⟨q, j, rfl, hgiven, ⟨m, hm, hgives⟩ | ⟨-, hends⟩⟩ := hstands.cases hr hit hk
    · cases hpull.symm.trans hgives
      refine ⟨rfl, rfl, σ, [], ⟨rfl, fun _ => id, nofun⟩, ?_, ?_⟩
      · rw [List.append_nil]
        refine hw.congr rfl fun l hl => Array.getElem?_setIfInBounds_ne ?_
        have hle := (hstands.lt_size (List.getElem?_eq_some_iff.1 hr).1 hit).1
        have hl' : l < rows.length := by simpa [numbersSharing] using hl
        have hlt : base + l < q := Nat.lt_of_lt_of_le (Nat.add_lt_add_left hl' base) hle
        exact hlt.ne'
      · rw [List.append_nil]
        exact hstands.given_concat hr hit hgiven hm
    · cases hpull.symm.trans hends
  ends {σ ts w it v} hw hstands hit hpull := by
    obtain ⟨q, j, rfl, hgiven, ⟨m, hm, hgives⟩ | ⟨hall, hends⟩⟩ := hstands.cases hr hit hk
    · cases hpull.symm.trans hgives
    · cases hpull.symm.trans hends
      refine ⟨σ, [], ⟨rfl, fun _ => id, nofun⟩, by rwa [List.append_nil], ?_⟩
      refine hstands.update [] hr (Nat.le_refl _) ?_ nofun fun _ _ _ _ _ => ⟨rfl, nofun⟩
      rw [List.append_nil, hall]
      exact .spent
  fails {σ ts w it e v} _ hstands hit hpull := by
    obtain ⟨q, j, rfl, -, ⟨m, -, hgives⟩ | ⟨-, hends⟩⟩ := hstands.cases hr hit hk
    · cases hpull.symm.trans hgives
    · cases hpull.symm.trans hends
  moved {σ ts w} hstands c := by
    have hi := (List.getElem?_eq_some_iff.1 hr).1
    refine hstands.congr (by simp [withCursor]) fun j q hj hq => Array.getElem?_setIfInBounds_ne ?_
    have hlt : base + i < q := Nat.lt_of_lt_of_le (Nat.add_lt_add_left hi base) (hstands.lt_size hj hq).1
    exact hlt.ne
  filled hstands _ := hstands.congr (Nat.le_refl _) fun _ _ _ _ => rfl

/-- A row gives no more numbers than it has. -/
theorem RowStage.length_le (hw : RowStage n row w stage xs) : xs.length ≤ row.length := by
  cases hw with
  | waiting => exact Nat.zero_le _
  | reading => exact (List.length_take_le' ..).trans (List.length_map _).le
  | spent => exact (List.length_map _).le

/-- Rows of numbers do not fail. -/
theorem not_fails_numbers (hk : 0 < k.fuel) {r : List ℤ × Bool} (hr : rows[i]? = some r) (e : Fault) :
    ¬(numbersSharing bag members hdistinct base rows).Fails k.above (RowStages (base + rows.length) rows) busy i
      (numbersShare r) e := by
  rintro (⟨u, v, -, hopen⟩ | ⟨it, u, v, ⟨σ, ts, -, hstands, hit⟩, hpull⟩)
  · cases hopen
  · obtain ⟨q, j, -, -, ⟨m, -, hgives⟩ | ⟨-, hends⟩⟩ := hstands.cases hr hit hk
    · cases hpull.symm.trans hgives
    · cases hpull.symm.trans hends

/-- What a row has put to the test that is over. -/
theorem RowStages.exists_trial_iff (hw : RowStages n rows σ ts w) {r : List ℤ × Bool} (hr : rows[i]? = some r)
    (hover : σ i = .spent) (key : Key) :
    (∃ t ∈ ts, t.1 = i ∧ t.2.spell = key) ↔ key ∈ r.1.map fun n => (Value.int n).spell := by
  have hrow := hw.row hr
  generalize hxs : (ts.of i).map (·.2) = xs at hrow
  rw [hover] at hrow
  cases hrow
  have hkeys : (ts.of i).map (·.2.spell) = r.1.map fun n => (Value.int n).spell := by
    simpa [Function.comp_def] using congrArg (List.map Value.spell) hxs
  rw [← hkeys, List.mem_map]
  simp [Trials.of, and_assoc]

end

/-- A set of one number. -/
def five : Bag := Bag.add (Value.int 5).spell (.int 5) .empty

theorem keys_five : five.keys = [(Value.int 5).spell] := Bag.keys_add _ _ nofun

/-- A world with this set. -/
def holdingFive : World where
  bags := #[five]

/-- Three rows of numbers; the iterator over the last one does not add what it gives. -/
def threeRows : List (List ℤ × Bool) := [([1, 2, 2, 3], true), ([2, 4, 1], true), ([4, 5, 4], false)]

/-- Iterators over the three rows that share the set. -/
def sharingFive : Sharing :=
  numbersSharing 0 five (keys_five ▸ List.nodup_singleton _) 0 threeRows

/-- Of three rows of numbers over a set with one number, the first two give the others, each once. -/
theorem distinct_in_shares_numbers :
    let opened := sharingFive.opened holdingFive 3
    ∃ ys v, Interleaved (host 4) sharingFive (sharingFive.Beside (RowStages 3 threeRows)) opened ys v ∧
      (∀ i < 3, v.cursors[i]? = some .finished) ∧
      ((ys.filter fun y => sharingFive.adds y.1).map (·.2.spell)).Perm
        ([1, 2, 3, 4].map fun n => (Value.int n).spell) := by
  intro opened
  have hrow : ∀ i s, sharingFive.shares[i]? = some s → ∃ r, threeRows[i]? = some r ∧ s = numbersShare r :=
      fun i s hs => by
    obtain ⟨r, hr, rfl⟩ := Option.map_eq_some_iff.1 (List.getElem?_map ▸ hs)
    exact ⟨r, hr, rfl⟩
  have hfed : ∀ i s, sharingFive.shares[i]? = some s →
      Fed (host 3) sharingFive ∅ (RowStages 3 threeRows) ∅ i s := fun i s hs => by
    obtain ⟨r, hr, rfl⟩ := hrow i s hs
    exact fed_numbers (k := host 2) (by decide) hr
  have hstands : RowStages 3 threeRows (fun _ => .waiting) [] opened :=
    ⟨fun _ => .waiting, nofun, by decide⟩
  obtain ⟨-, haccount, hexhaust⟩ := distinct_in_shares (w := holdingFive) (h := host 3) rfl rfl hfed hstands
    (host 4)
  have hshort : ∀ r ∈ threeRows, r.1.length ≤ 4 := by decide
  obtain ⟨ys, v, hread, hover⟩ := hexhaust 4
    (fun i s hs σ ts v hv => by
      obtain ⟨r, hr, -⟩ := hrow i s hs
      rw [← List.length_map (f := (·.2))]
      exact (hv.row hr).length_le.trans (hshort r (List.mem_of_getElem? hr)))
    (by decide)
    (fun i s e hs => by
      obtain ⟨r, hr, rfl⟩ := hrow i s hs
      exact not_fails_numbers (k := host 2) (by decide) hr e)
    [] opened .start
  obtain ⟨σ, ts, hv⟩ := haccount ys v hread
  have hadded : (ys.filter fun y => sharingFive.adds y.1) = sharingFive.added ts := by
    rw [hv.given.alone rfl]
    rfl
  refine ⟨ys, v, hread, fun i hi => ?_, ?_⟩
  · have hend := hover i hi
    rwa [show sharingFive.base + i = i from Nat.zero_add i] at hend
  · have hadds : ∀ i, sharingFive.adds i = true ↔ i = 0 ∨ i = 1 := by
      intro i
      rcases i with _ | _ | _ | i
      · decide
      · decide
      · decide
      · exact ⟨nofun, by omega⟩
    have hall : ∀ i r k, threeRows[i]? = some r → ((∃ t ∈ ts, t.1 = i ∧ t.2.spell = k) ↔
        k ∈ r.1.map fun n => (Value.int n).spell) := fun i r k hr => by
      have hi : i < 3 := (List.getElem?_eq_some_iff.1 hr).1
      have hstage := (hv.state.cursor_eq_finished_iff (List.getElem?_map.trans (congrArg _ hr))).1 (hover i hi)
      exact hv.standing.exists_trial_iff hr hstage k
    rw [hadded, List.perm_ext_iff_of_nodup hv.once (by decide)]
    intro k
    have hexact := hv.exact k
    simp only [hadds, or_and_right, exists_or, and_or_left, hall 0 _ k rfl, hall 1 _ k rfl] at hexact
    rw [List.mem_map, hexact, show sharingFive.members.keys = _ from keys_five]
    constructor
    · rintro (⟨-, hk⟩ | ⟨-, hk⟩) <;> simp at hk ⊢ <;> tauto
    · intro hk
      have hfive : k ∉ [(Value.int 5).spell] := by
        simp at hk
        rcases hk with rfl | rfl | rfl | rfl <;> decide
      simp only [hfive, not_false_eq_true, true_and]
      simp at hk ⊢
      tauto

/-- A world with a list, and a set with nothing in it. -/
def listAndSet : World where
  lists := #[#[.int 1]]
  bags := #[.empty]

/-- A list cannot be in a set: an iterator fails at it and is over, and the number behind it is lost. -/
theorem not_distinct_in_shares_always :
    ∃ w u, (host 4).callOp .distinctIn [.tuple [.ref .list 0, .int 2] none, .ref .bag 0] [] listAndSet =
        .ok (.ref .iterator 0) w ∧
      (host 4).pull (.ref .iterator 0) w = .error .wrongType u ∧
      (host 4).pull (.ref .iterator 0) u = .ok none u ∧ u.bagAt 0 = .empty :=
  ⟨_, _, rfl, rfl, rfl, rfl⟩

end GraphRoutes.Session
