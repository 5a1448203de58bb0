/-
**One route for several functions, each of which reads it to the end.**

A route may be read again and again: a collection at hand, or a lineage that is walked back.  An iterator is
split, so that each function gets one of its own.  But a source of blocks is neither: the first function takes
all of it, and the others find nothing.

Main definitions:

* `GraphRoutes.Session.Gathers` — a function that reads its route to the end, and what it makes of the items;
* `GraphRoutes.Session.Supply` — what a route gives when it is read to its end time and again;
* `GraphRoutes.Session.Branched` — what functions make of one route.

Main results:

* `GraphRoutes.Session.Supply.exists_results` — functions are called, one after the other;
* `GraphRoutes.Session.branches_of_whole_routes` — **who gets the items of a route**;
* `GraphRoutes.Session.not_branches_of_blocks_alike` — a list of blocks, of which the second branch is empty.
-/
import GraphRoutes.Proofs.Session.Branches
import GraphRoutes.Proofs.Session.Drains

set_option relaxedAutoImplicit false
set_option autoImplicit false

namespace GraphRoutes.Session

open World Merge Filter

variable {α : Type}

/-! ### Functions that read their route to the end -/

/-- A property of what is made of the items of a route. -/
abbrev Outcome (α : Type) : Type := List α → Value → World → Prop

/-- **A function that reads its route to the end**, whatever the route is.  What it makes of the items `as` is as
`Q as` says, and goes on to be so as long as there is what has to stay.  Beside reading the route it makes new
things only, and so `J` holds behind the call if it holds behind the route. -/
structure Gathers (h : Host) (B : Setting) (w₀ : World) (R : α → Value → Prop) (f : Value) (Q : Outcome α) :
    Prop where
  handed : ∀ as y y' w, Q as y w → Handed y y' → Q as y' w
  keeps : ∀ as y w v, Q as y w → Retains B w v → Q as y v
  calls : ∀ d as, ∃ e, ∀ᶠ N in atTop, ∀ n, e ≤ n → ∀ f' r w (J : World → Prop), Handed f f' → Retains B w₀ w →
    (∀ v u, J v → Aside {c | c < v.cursors.size} v u → J u) →
    (∀ m, d ≤ m → ∃ vs v, ((h.grant N).up m).items r w = .ok vs v ∧ List.Forall₂ R as vs ∧ Retains B w v ∧ J v) →
    ∃ y u, ((h.grant N).up n).call f' [r] [] w = .ok y u ∧ Q as y u ∧ J u

/-- A list of the items. -/
def ListOf (B : Setting) (R : α → Value → Prop) : Outcome α := fun as y w =>
  ∃ l vs, y = .ref .list l ∧ l ∉ B.lists ∧ w.lists[l]? = some vs.toArray ∧ List.Forall₂ R as vs

section

variable {h : Host} {B : Setting} {R : α → Value → Prop} {w w₀ : World} {Q : Outcome α} {f : Value}

/-- **A function that makes a list.** -/
theorem gathers_list (hR : ∀ a x x', R a x → Handed x x' → R a x') (hold : w₀.Old B) :
    Gathers h B w₀ R (.op .listOf) (ListOf B R) where
  handed := by
    rintro as y y' w ⟨l, vs, rfl, hB, hl, hvs⟩ hhanded
    exact ⟨l, vs, hhanded.eq_of_marked rfl, hB, hl, hvs⟩
  keeps := by
    rintro as y w v ⟨l, vs, rfl, hB, hl, hvs⟩ hv
    exact ⟨l, vs, rfl, hB, hv.same l _ hB hl, hvs⟩
  calls d as := by
    refine ⟨d + 1, Eventually.of_forall fun N n hn f' r w J hf hsince hJ hitems => ?_⟩
    obtain ⟨n, rfl, hle⟩ := exists_level_below hn
    obtain rfl := hf.eq_of_marked rfl
    obtain ⟨vs, v, hread, hvs, hretains, hv⟩ := hitems n hle
    obtain ⟨vs', marks, hlist, hhanded⟩ := exists_newList vs v
    have hperform : ((h.grant N).up n).perform .listOf { bound := [some r], extra := [] } w =
        .ok (.ref .list v.lists.size) _ := (Act.bind_of_ok hread).trans hlist
    have hcall : ((h.grant N).up n).callOp .listOf [r] [] w = .ok (.ref .list v.lists.size) _ :=
      (callOp_of_ok rfl hperform).trans rfl
    refine ⟨_, _, hcall, ⟨v.lists.size, vs', rfl, fun hmem => ?_, Array.getElem?_push_size,
      forall₂_handed hR hvs hhanded⟩, hJ _ _ hv (quiet_newList _ v marks vs'.toArray).aside⟩
    exact Nat.not_lt_of_le hretains.count (hold.keeps hsince _ hmem)

end

/-! ### Routes that are read time and again -/

/-- **What routes give when they are read to their end, one after the other**: the `j`-th of them gives `given j`.
It is said by `stands` which routes there are, and how many have been read. -/
structure Supply (h : Host) (d : ℕ) (B : Setting) (R : α → Value → Prop) (given : ℕ → List α)
    (stands : List Value → ℕ → Set ℕ → World → Prop) : Prop where
  has : ∀ rs j P w, stands rs j P w → Has P w
  aside : ∀ rs j P w v, stands rs j P w → Aside P w v → stands rs j P v
  gives : ∀ j, ∀ᶠ N in atTop, ∀ n, d ≤ n → ∀ (rs : List Value) r r' P w,
    rs[j]? = some r → Handed r r' → stands rs j P w → ∃ vs v Q, ((h.grant N).up n).items r' w = .ok vs v ∧
      List.Forall₂ R (given j) vs ∧ Contained B P w v ∧ Q ⊆ within P w.cursors.size ∧ stands rs (j + 1) Q v

/-- What functions have made of routes, by a function each. -/
structure Outcomes (Qs : List (Outcome α)) (given : ℕ → List α) (ys : List Value) (w : World) : Prop where
  length : ys.length = Qs.length
  each : ∀ (i : ℕ) Q y, Qs[i]? = some Q → ys[i]? = some y → Q (given i) y w

/-- The first `j` functions have been called, and the cursor at `place` gives the others. -/
structure Calling (B : Setting) (w₀ : World) (stands : List Value → ℕ → Set ℕ → World → Prop) (fs : Value)
    (functions : List Value) (place : ℕ) (rs : List Value) (j : ℕ) (P : Set ℕ) (w : World) : Prop where
  stands : stands rs j P w
  coming : Coming fs functions j w place
  apart : place ∉ P
  lasts : w.Lasts B fs functions
  since : Retains B w₀ w

section

variable {h H : Host} {d j n place : ℕ} {B : Setting} {P P' : Set ℕ} {R : α → Value → Prop} {given : ℕ → List α}
  {as : List α} {stands : List Value → ℕ → Set ℕ → World → Prop} {u v w w₀ : World} {f fs r : Value}
  {Q : Outcome α} {Qs : List (Outcome α)} {rs ys ys' functions : List Value}

theorem World.Aside.contained (hv : Aside {c | c < w.cursors.size} w v) : Contained B ∅ w v :=
  ⟨⟨hv.size, fun i hi _ => hv.same i hi, hv.blocks⟩, hv.retains⟩

/-- A function is called on the next route. -/
theorem Supply.exists_call (S : Supply h d B R given stands) (hf : Gathers h B w₀ R f Q) (j : ℕ) :
    ∃ e, ∀ᶠ N in atTop, ∀ n, e ≤ n → ∀ (rs : List Value) r P w f', rs[j]? = some r → stands rs j P w →
      Retains B w₀ w → Handed f f' → ∃ y u P', ((h.grant N).up n).apply f' [r] w = .ok y u ∧ Q (given j) y u ∧
        Contained B P w u ∧ P' ⊆ within P w.cursors.size ∧ stands rs (j + 1) P' u := by
  obtain ⟨e, hcalls⟩ := hf.calls d (given j)
  refine ⟨e, ?_⟩
  filter_upwards [hcalls, S.gives j] with N hcalls hgives n hn rs r P w f' hr hstands hsince hhanded
  obtain ⟨r', marks, hout, hr'⟩ := exists_handOut r w
  have hmarks : Quiet P w { w with marks } := ⟨rfl, Nat.le_refl _, fun _ _ => rfl, fun _ _ => id⟩
  have hargs : [r].mapM World.handOut w = .ok [r'] { w with marks } := by
    rw [List.mapM_cons, Act.bind_of_ok hout]
    rfl
  -- what holds when the route has been read, and goes on to hold while the function goes on
  let J : World → Prop := fun u => ∃ P', Contained B P { w with marks } u ∧ P' ⊆ within P w.cursors.size ∧
    stands rs (j + 1) P' u
  have hJ : ∀ v u, J v → Aside {c | c < v.cursors.size} v u → J u := by
    rintro v u ⟨P', hcontained, hP', hstands'⟩ hu
    exact ⟨P', hcontained.trans hu.contained (Set.empty_subset _), hP',
      S.aside _ _ _ _ _ hstands' (hu.mono fun c hc => S.has _ _ _ _ hstands' c hc)⟩
  have hread : ∀ m, d ≤ m → ∃ vs v, ((h.grant N).up m).items r' { w with marks } = .ok vs v ∧
      List.Forall₂ R (given j) vs ∧ Retains B { w with marks } v ∧ J v := by
    intro m hm
    obtain ⟨vs, v, P', hitems, hvs, hcontained, hP', hstands'⟩ := hgives m hm rs r r' P _ hr hr'
      (S.aside _ _ _ _ _ hstands hmarks.aside)
    exact ⟨vs, v, hitems, hvs, hcontained.retains, P', hcontained, hP', hstands'⟩
  obtain ⟨y, u, hcall, hy, P', hcontained, hP', hstands'⟩ :=
    hcalls n hn f' r' { w with marks } J hhanded (hsince.trans hmarks.retains) hJ hread
  refine ⟨y, u, P', (Act.bind_of_ok hargs).trans hcall, hy, ?_, hP', hstands'⟩
  exact ⟨⟨hcontained.size, hcontained.same, hcontained.blocks⟩, hmarks.retains.trans hcontained.retains⟩

/-- The next function is asked for. -/
theorem Calling.pull (S : Supply h d B R given stands)
    (hcalling : Calling B w₀ stands fs functions place rs j P w) (hf : functions[j]? = some f)
    (hfuel : 0 < H.fuel) :
    ∃ f' v, H.above.pull (.ref .iterator place) w = .ok (some f') v ∧ Handed f f' ∧ Retains B w v ∧
      stands rs j P v ∧ Coming fs functions (j + 1) v place ∧ Uses {place} w v := by
  obtain ⟨hstands, hcoming, hplace, hlasts, hsince⟩ := hcalling
  obtain ⟨f', c, marks, hpull, hhanded, hcoming'⟩ := hcoming.pull hlasts.branches hf hfuel
  have hmoves := uses_settle w place c marks
  exact ⟨f', _, hpull, hhanded, hmoves.retains, S.aside _ _ _ _ _ hstands
    (hmoves.spares_of_notMem (S.has _ _ _ _ hstands) hplace).quiet.aside, hcoming', hmoves⟩

/-- When all functions have been called, there are no more. -/
theorem Calling.ended (hcalling : Calling B w₀ stands fs functions place rs functions.length P w)
    (hfuel : 0 < H.fuel) : ∃ v, H.above.pull (.ref .iterator place) w = .ok none v ∧ Retains B w v := by
  have hready := hcalling.coming.ready hcalling.lasts.branches
  rw [List.drop_length] at hready
  obtain ⟨cs, hpull, hsize, hcs⟩ := exists_pull_ready_nil hready hfuel
  have hmoves : Uses {place} w { w with cursors := cs } := ⟨rfl, hsize.ge, fun i hi => hcs i hi.2⟩
  exact ⟨_, hpull, hmoves.retains⟩

/-- What has been made goes on to be so. -/
theorem Outcomes.keeps (hyields : Outcomes Qs given ys v) (hgathers : List.Forall₂ (Gathers h B w₀ R) functions Qs)
    (hu : Retains B v u) (hhanded : List.Forall₂ Handed ys ys') : Outcomes Qs given ys' u where
  length := hhanded.length_eq.symm.trans hyields.length
  each i Q y' hQ hy' := by
    obtain ⟨y, hy, hyy'⟩ := exists_of_forall₂ hhanded hy'
    obtain ⟨f, -, hf⟩ := exists_of_forall₂ hgathers hQ
    exact hf.handed _ _ _ _ (hf.keeps _ _ _ _ (hyields.each i Q y hQ hy) hu) hyy'

/-- What the first function has made, and what the others have. -/
theorem Outcomes.cons {y : Value} (hy : Q (given j) y v) (hys : Outcomes Qs (fun i => given (j + 1 + i)) ys v) :
    Outcomes (Q :: Qs) (fun i => given (j + i)) (y :: ys) v where
  length := congrArg (· + 1) hys.length
  each i Q' y' hQ' hy' := by
    cases i with
    | zero =>
        cases hQ'
        cases hy'
        exact hy
    | succ i =>
        have hi := hys.each i Q' y' hQ' hy'
        rwa [Nat.add_right_comm, Nat.add_assoc] at hi

/-- **Functions are called, one after the other**, and each reads its route to the end. -/
theorem Supply.exists_results (S : Supply h d B R given stands) {rest : List Value}
    (hgathers : List.Forall₂ (Gathers h B w₀ R) rest Qs) (j : ℕ) :
    ∃ e, ∀ᶠ N in atTop, ∀ n, e ≤ n → ∀ fs functions place rs P w, functions.drop j = rest →
      j ≤ functions.length → rs.length = functions.length →
      Calling B w₀ stands fs functions place rs j P w → ∃ ys v,
        ((h.grant N).up n).applyEach (.ref .iterator place) (rs.drop j) w = .ok ys v ∧ Retains B w v ∧
        Outcomes Qs (fun i => given (j + i)) ys v := by
  induction hgathers generalizing j with
  | nil =>
      refine ⟨1, ?_⟩
      filter_upwards [eventually_gt_atTop 0] with N hN n hn fs functions place rs P w hdrop hj hrs hcalling
      obtain ⟨n, rfl, -⟩ := exists_level_below hn
      obtain rfl : j = functions.length := Nat.le_antisymm hj (List.drop_eq_nil_iff.1 hdrop)
      obtain ⟨v, hpull, hretains⟩ := hcalling.ended (H := (h.grant N).up n) (by rwa [Host.fuel_up])
      refine ⟨[], v, ?_, hretains, rfl, nofun⟩
      rw [List.drop_eq_nil_of_le (Nat.le_of_eq hrs)]
      exact Act.bind_of_ok hpull
  | @cons f Q rest Qs hf _ ih =>
      obtain ⟨e, hcall⟩ := S.exists_call hf j
      obtain ⟨e', hcalls⟩ := ih (j + 1)
      refine ⟨max (e + 1) e', ?_⟩
      filter_upwards [hcall, hcalls, eventually_gt_atTop 0] with N hcall hcalls hN n hn fs functions place rs P w
        hdrop hj hrs hcalling
      have hne := Nat.le_trans (Nat.le_max_left (e + 1) e') hn
      obtain ⟨m, rfl, -⟩ := exists_level_below hne
      have hnext : functions[j]? = some f := by
        rw [← List.head?_drop, hdrop]
        rfl
      have htail : functions.drop (j + 1) = rest := by
        rw [← List.drop_drop, hdrop]
        rfl
      have hlt : j < functions.length := (List.getElem?_eq_some_iff.1 hnext).1
      obtain ⟨r, hr⟩ : ∃ r, rs[j]? = some r := ⟨_, List.getElem?_eq_getElem (hrs.symm ▸ hlt)⟩
      obtain ⟨f', u, hpull, hhanded, hretains, hstands, hcoming, hmoves⟩ :=
        hcalling.pull S hnext (H := (h.grant N).up m) (by rwa [Host.fuel_up])
      obtain ⟨y, t, P', happly, hy, hcontained, hP', hstands'⟩ := hcall (m + 1) (Nat.le_of_succ_le hne) rs r P u f'
        hr hstands (hcalling.since.trans hretains) hhanded
      have hkept := hretains.trans hcontained.retains
      have hplace := hcoming.lt_size
      have hcalling' : Calling B w₀ stands fs functions place rs (j + 1) P' t :=
        ⟨hstands', hcoming.congr (hcontained.same place hplace hcalling.apart),
          notMem_of_subset_within hP' hcalling.apart hplace, hcalling.lasts.keeps hkept, hcalling.since.trans hkept⟩
      obtain ⟨ys, v, hresults, hretains', hyields⟩ := hcalls (m + 1) (Nat.le_trans (Nat.le_max_right _ _) hn) fs
        functions place rs P' t htail hlt hrs hcalling'
      refine ⟨y :: ys, v, ?_, hkept.trans hretains', .cons (hf.keeps _ _ _ _ hy hretains') hyields⟩
      obtain ⟨hj', rfl⟩ := List.getElem?_eq_some_iff.1 hr
      rw [← List.getElem_cons_drop hj']
      exact (Act.bind_of_ok hpull).trans ((Act.bind_of_ok happly).trans (Act.bind_of_ok hresults))

end

/-! ### Branches of one route -/

/-- **What functions make of one route**: a list of what each of them makes of its items, which are `given i` for
the `i`-th. -/
def Branched (h : Host) (B : Setting) (Qs : List (Outcome α)) (fs : Value) (w : World) (r : Value)
    (given : ℕ → List α) : Prop :=
  ∃ e, ∀ᶠ N in atTop, ∀ n, e ≤ n → ∃ l ys v,
    ((h.grant N).up n).callOp .branch [r, fs] [] w = .ok (.ref .list l) v ∧ v.Lasts B (.ref .list l) ys ∧ Outcomes Qs given ys v

section

variable {h H : Host} {d m n : ℕ} {B : Setting} {P : Set ℕ} {R : α → Value → Prop} {given : ℕ → List α}
  {stands : List Value → ℕ → Set ℕ → World → Prop} {u v w : World} {fs it r : Value} {Qs : List (Outcome α)}
  {ys readers functions : List Value}

/-- The results of functions of one route are kept one by one. -/
theorem foldFrom_of_applyEach (happly : H.applyEach it (List.replicate m r) w = .ok ys v) (hn : m < n)
    (acc : Array Value) :
    H.foldFrom (fun (rs : Array Value) f => do
      let y ← H.apply f [r]
      pure (rs.push y)) it n acc w = .ok (acc ++ ys.toArray) v := by
  induction m generalizing n w ys acc with
  | zero =>
      obtain ⟨n, rfl⟩ := Nat.exists_eq_succ_of_ne_zero (Nat.ne_of_gt hn)
      obtain ⟨x, u, hpull, hrest⟩ := Act.bind_eq_ok_iff.1 happly
      cases x with
      | some => cases hrest
      | none =>
          cases hrest
          rw [Host.foldFrom, Act.bind_of_ok hpull, Array.append_empty]
          rfl
  | succ m ih =>
      obtain ⟨n, rfl⟩ := Nat.exists_eq_succ_of_ne_zero (Nat.ne_of_gt (Nat.zero_lt_of_lt hn))
      obtain ⟨x, u, hpull, hrest⟩ := Act.bind_eq_ok_iff.1 happly
      cases x with
      | none => cases hrest
      | some f =>
          obtain ⟨y, t, hcall, hrest⟩ := Act.bind_eq_ok_iff.1 hrest
          obtain ⟨ys', t', happly', hrest⟩ := Act.bind_eq_ok_iff.1 hrest
          cases hrest
          have hkept : (H.apply f [r] >>= fun y => pure (acc.push y) : M (Array Value)) u = .ok (acc.push y) t :=
            Act.bind_of_ok hcall
          rw [Host.foldFrom, Act.bind_of_ok hpull]
          refine (Act.bind_of_ok hkept).trans ?_
          refine (ih happly' (Nat.lt_of_succ_lt_succ hn) (acc.push y)).trans ?_
          simp

/-- A route that is no iterator is not split. -/
theorem branch_of_applyEach (hr : ∀ c, r ≠ .ref .iterator c) (hiterate : iterate fs w = .ok it u)
    (happly : H.applyEach it (List.replicate m r) u = .ok ys v) (hfuel : m < H.fuel) :
    H.branch r fs w = .ok ys v := by
  have hbranch : H.branch r fs = (do
      let it ← iterate fs
      let rs ← H.fold it (#[] : Array Value) fun rs f => do
        let y ← H.apply f [r]
        pure (rs.push y)
      pure rs.toList) := by
    cases r with
    | ref sort c =>
        cases sort with
        | iterator => exact absurd rfl (hr c)
        | _ => rfl
    | _ => rfl
  rw [hbranch, Act.bind_of_ok hiterate]
  refine (Act.bind_of_ok (foldFrom_of_applyEach happly hfuel #[])).trans ?_
  rw [Array.empty_append]
  rfl

/-- The results are handed out as a new list. -/
theorem exists_branches (hgathers : List.Forall₂ (Gathers h B w R) functions Qs) (hold : w.Old B)
    (hbranch : H.branch r fs w = .ok ys v) (hretains : Retains B w v) (hyields : Outcomes Qs given ys v) :
    ∃ l ys v, H.callOp .branch [r, fs] [] w = .ok (.ref .list l) v ∧ v.Lasts B (.ref .list l) ys ∧
      Outcomes Qs given ys v := by
  obtain ⟨ys', marks, hlist, hhanded⟩ := exists_newList ys v
  have hperform : H.perform .branch { bound := [some r, some fs], extra := [] } w =
      .ok (.ref .list v.lists.size) _ := (Act.bind_of_ok hbranch).trans hlist
  refine ⟨_, ys', _, (callOp_of_ok rfl hperform).trans rfl, lasts_newList ys' marks fun hmem => ?_,
    hyields.keeps hgathers (quiet_newList ∅ v marks ys'.toArray).retains hhanded⟩
  exact Nat.not_lt_of_le hretains.count (hold _ hmem)

/-- The functions are about to be called. -/
theorem exists_calling (S : Supply h d B R given stands) (hfs : ∀ es k, fs ≠ .dict es k)
    (hlasts : w.Lasts B fs functions) {rs : List Value} {w₀ : World} (hstands : stands rs 0 P w)
    (hsince : Retains B w₀ w) :
    ∃ place u, iterate fs w = .ok (.ref .iterator place) u ∧ Retains B w u ∧
      Calling B w₀ stands fs functions place rs 0 P u := by
  obtain ⟨k, hiterate, hcoming⟩ := iterate_coming hlasts.branches
  have hhas := S.has _ _ _ _ hstands
  have hpush := uses_push w k
  refine ⟨_, _, by rw [iterate_eq_branches hfs, hiterate], hpush.retains,
    S.aside _ _ _ _ _ hstands (hpush.spares_of_new hhas).quiet.aside, hcoming, notMem_of_has hhas,
    hlasts.keeps hpush.retains, hsince.trans hpush.retains⟩

/-- **Functions of a route that is no iterator.** -/
theorem Supply.branched (S : Supply h d B R given stands)
    (hgathers : List.Forall₂ (Gathers h B w R) functions Qs) (hold : w.Old B) (hfs : ∀ es k, fs ≠ .dict es k)
    (hlasts : w.Lasts B fs functions) (hr : ∀ c, r ≠ .ref .iterator c)
    (hstands : stands (List.replicate functions.length r) 0 P w) : Branched h B Qs fs w r given := by
  obtain ⟨e, hresults⟩ := S.exists_results hgathers 0
  refine ⟨e, ?_⟩
  filter_upwards [hresults, eventually_gt_atTop functions.length] with N hresults hN n hn
  obtain ⟨place, u, hiterate, hretains, hcalling⟩ := exists_calling S hfs hlasts hstands (.refl B w)
  obtain ⟨ys, v, happly, hretains', hyields⟩ := hresults n hn fs functions place _ P u rfl (Nat.zero_le _)
    List.length_replicate hcalling
  have hbranch := branch_of_applyEach hr hiterate happly (by rwa [Host.fuel_up])
  refine exists_branches hgathers hold hbranch (hretains.trans hretains') ?_
  simpa using hyields

end

/-! ### Collections -/

/-- A collection that holds `vs` as long as what has to stay stays. -/
def World.Holds (B : Setting) (w : World) (r : Value) (vs : List Value) : Prop :=
  ∀ v r', Retains B w v → Handed r r' → v.collection? r' = some vs

section

variable {h H : Host} {B : Setting} {R : α → Value → Prop} {as : List α} {vs : List Value} {u w : World}
  {r : Value} {c n place : ℕ}

theorem World.Holds.ne_iterator (hholds : w.Holds B r vs) (c : ℕ) : r ≠ .ref .iterator c := by
  rintro rfl
  cases hholds w _ (.refl B w) (.same rfl)

/-- **A collection may be read again and again.** -/
theorem supply_collection (hR : ∀ a x x', R a x → Handed x x' → R a x') (has : List.Forall₂ R as vs) (h : Host)
    (B : Setting) :
    Supply h 1 B R (fun _ => as) fun rs _ P w => P = ∅ ∧ ∀ r ∈ rs, w.Holds B r vs where
  has := by
    rintro rs j P w ⟨rfl, -⟩ c hc
    exact hc.elim
  aside := by
    rintro rs j P w v ⟨rfl, hrs⟩ hv
    exact ⟨rfl, fun r hr u r' hu => hrs r hr u r' (hv.retains.trans hu)⟩
  gives j := by
    filter_upwards [eventually_gt_atTop vs.length] with N hN n hn rs r r' P w hr hhanded hstands
    obtain ⟨n, rfl, -⟩ := exists_level_below hn
    obtain ⟨rfl, hrs⟩ := hstands
    have hcollection := hrs r (List.mem_of_getElem? hr) w r' (.refl B w) hhanded
    obtain ⟨xs, v, hitems, hxs, hkeeps⟩ :=
      exists_items_collection (h := (h.grant N).up n) hcollection (by rwa [Host.fuel_up])
    have hread : Uses ∅ w v := hkeeps.uses (Nat.le_refl _)
    exact ⟨xs, v, ∅, hitems, forall₂_handed hR has hxs, hread.contained, Set.empty_subset _, rfl,
      fun r hr u r' hu => hrs r hr u r' (hread.retains.trans hu)⟩

/-! ### Lineages -/

/-- The next link of a lineage is given. -/
theorem exists_pull_links {p q : Option Node} {x : Value} (hc : w.cursors[c]? = some (.links p))
    (hstep : linkStep p = pure (.give x (.links q))) (hfuel : 0 < H.fuel) :
    ∃ x' v, H.above.pull (.ref .iterator c) w = .ok (some x') v ∧ Handed x x' ∧ Uses {c} w v ∧
      v.cursors[c]? = some (.links q) := by
  obtain ⟨fuel, hsucc⟩ := Nat.exists_eq_succ_of_ne_zero (Nat.ne_of_gt hfuel)
  have hpull : (stepCursor H).pull H.fuel (.links p) (w.reading c) = .ok (.item x (.links q)) (w.reading c) := by
    rw [hsucc]
    exact Machine.pull_of_give (congrFun hstep _) fuel
  obtain ⟨x', marks, hgiven, hhanded⟩ := exists_pull_closed hc ⟨nofun, nofun, fun _ _ => rfl⟩ hpull
  refine ⟨x', _, hgiven, hhanded, (uses_setCursor w c .running).trans (uses_settle (w.reading c) c _ marks)
    (subset_within {c} _), Array.getElem?_setIfInBounds_self_of_lt ?_⟩
  rw [size_reading]
  exact (Array.getElem?_eq_some_iff.1 hc).1

theorem pull_links_end (hc : w.cursors[c]? = some (.links none)) (hfuel : 0 < H.fuel) :
    ∃ v, H.above.pull (.ref .iterator c) w = .ok none v ∧ Uses {c} w v := by
  obtain ⟨fuel, hsucc⟩ := Nat.exists_eq_succ_of_ne_zero (Nat.ne_of_gt hfuel)
  have hpull : (stepCursor H).pull H.fuel (.links none) (w.reading c) = .ok (.ended none) (w.reading c) := by
    rw [hsucc]
    exact Machine.pull_of_finish rfl fuel
  exact ⟨_, pull_closed_end hc ⟨nofun, nofun, fun _ _ => rfl⟩ hpull, (uses_setCursor w c .running).trans
    (uses_setCursor (w.reading c) c .finished) (subset_within {c} _)⟩

/-- **The links of an element are read to its root**, one by one. -/
theorem exists_foldFrom_links {a : Node} (ha : a.brokenAt? = none) (hc : w.cursors[c]? = some (.links (some a)))
    (hfuel : 0 < H.fuel) (hn : a.links.length < n) (xs : Array Value) :
    ∃ vs v, H.above.foldFrom (fun (xs : Array Value) x => pure (xs.push x)) (.ref .iterator c) n xs w =
        .ok (xs ++ vs.toArray) v ∧ List.Forall₂ Handed (a.links.map Value.ofNode) vs ∧ Uses {c} w v := by
  induction a generalizing n w xs with
  | plain => cases ha
  | root l b m =>
      obtain ⟨n, rfl⟩ := Nat.exists_eq_add_of_le' (show 2 ≤ n from hn)
      obtain ⟨x, u, hpull, hx, huses, hcu⟩ := exists_pull_links (q := none) hc rfl hfuel
      obtain ⟨v, hend, huses'⟩ := pull_links_end hcu hfuel
      refine ⟨[x], v, ?_, .cons hx .nil, huses.trans huses' (subset_within _ _)⟩
      rw [Host.foldFrom, Act.bind_of_ok hpull]
      refine (Act.bind_of_ok (m := pure (xs.push x)) rfl).trans ?_
      rw [Host.foldFrom, Act.bind_of_ok hend]
      simp
      rfl
  | via l b p m _ ih =>
      obtain ⟨n, rfl⟩ := Nat.exists_eq_succ_of_ne_zero (Nat.ne_of_gt (Nat.zero_lt_of_lt hn))
      obtain ⟨x, u, hpull, hx, huses, hcu⟩ := exists_pull_links (q := some p) hc rfl hfuel
      obtain ⟨vs, v, hfold, hvs, huses'⟩ := ih ha hcu (Nat.lt_of_succ_lt_succ hn) (xs.push x)
      refine ⟨x :: vs, v, ?_, .cons hx hvs, huses.trans huses' (subset_within _ _)⟩
      rw [Host.foldFrom, Act.bind_of_ok hpull]
      refine (Act.bind_of_ok (m := pure (xs.push x)) rfl).trans (hfold.trans ?_)
      simp

/-- The lineage of a value, from the value back to its root.  A value that is not wrapped is its own lineage. -/
def Value.wayBack (start : Value) : List Value :=
  if start.isTracked then start.node.links.map ofNode else [start]

/-- A lineage is walked back to its root by a new cursor. -/
theorem exists_items_history {start : Value} (hstart : w.histories[place]? = some start)
    (hsound : start.node.sound = true) (hfuel : start.wayBack.length < H.fuel) :
    ∃ vs v, H.above.items (.ref .history place) w = .ok vs v ∧ List.Forall₂ Handed start.wayBack vs ∧
      Uses ∅ w v := by
  have hiterate : ∀ k, (if start.isTracked then Cursor.links (some start.node) else .items .gathered [start]) = k →
      iterate (.ref .history place) w =
        .ok (.ref .iterator w.cursors.size) { w with cursors := w.cursors.push k } := by
    rintro k rfl
    rw [iterate, Act.bind_of_ok (m := get) rfl, hstart, Option.getD_some]
    split <;> rfl
  cases htracked : start.isTracked with
  | false =>
      have hway : start.wayBack = [start] := by
        rw [Value.wayBack, htracked]
        rfl
      rw [hway] at hfuel ⊢
      obtain ⟨vs, v, hdrain, hvs, hkeeps⟩ := exists_drain_ready
        (w := { w with cursors := w.cursors.push (.items .gathered [start]) }) (h := H)
        (.items .gathered Array.getElem?_push_size) hfuel
      exact ⟨vs, v, (Act.bind_of_ok (hiterate _ (if_neg (Bool.eq_false_iff.1 htracked)))).trans hdrain, hvs,
        ((keeps_push w _).trans hkeeps).uses (Nat.le_refl _)⟩
  | true =>
      have hway : start.wayBack = start.node.links.map Value.ofNode := if_pos htracked
      have hbroken : start.node.brokenAt? = none := by
        rwa [Element.sound, show start.node.tracked = true from htracked, Bool.not_true, Bool.false_or,
          Option.isNone_iff_eq_none] at hsound
      rw [hway, List.length_map] at hfuel
      rw [hway]
      obtain ⟨vs, v, hfold, hvs, huses⟩ := exists_foldFrom_links (H := H) hbroken
        (w := { w with cursors := w.cursors.push (.links (some start.node)) }) Array.getElem?_push_size
        (Nat.zero_lt_of_lt hfuel) hfuel #[]
      refine ⟨vs, v, (Act.bind_of_ok (hiterate _ (if_pos htracked))).trans ?_, hvs,
        (uses_push w _).trans huses (Set.singleton_subset_iff.2 (.inr (Nat.le_refl _)))⟩
      rw [Host.drain, Host.fold, Host.fuel_above]
      refine (Act.bind_of_ok hfold).trans ?_
      rw [Array.empty_append]
      rfl

/-- **A lineage may be walked back again and again.** -/
theorem supply_history (hR : ∀ a x x', R a x → Handed x x' → R a x') {start : Value}
    (hsound : start.node.sound = true) (has : List.Forall₂ R as start.wayBack) (h : Host) (B : Setting) :
    Supply h 1 B R (fun _ => as) fun rs _ P w =>
      P = ∅ ∧ w.histories[place]? = some start ∧ ∀ r ∈ rs, r = .ref .history place where
  has := by
    rintro rs j P w ⟨rfl, -⟩ c hc
    exact hc.elim
  aside := by
    rintro rs j P w v ⟨rfl, hstart, hrs⟩ hv
    refine ⟨rfl, ?_, hrs⟩
    rw [hv.rest]
    exact hstart
  gives j := by
    filter_upwards [eventually_gt_atTop start.wayBack.length] with N hN n hn rs r r' P w hr hhanded hstands
    obtain ⟨n, rfl, -⟩ := exists_level_below hn
    obtain ⟨rfl, hstart, hrs⟩ := hstands
    obtain rfl := hrs r (List.mem_of_getElem? hr)
    obtain rfl := hhanded.eq_of_marked rfl
    obtain ⟨xs, v, hitems, hxs, hread⟩ :=
      exists_items_history (H := (h.grant N).up n) hstart hsound (by rwa [Host.fuel_up])
    refine ⟨xs, v, ∅, hitems, forall₂_handed hR has hxs, hread.contained, Set.empty_subset _, rfl, ?_, hrs⟩
    rw [hread.rest]
    exact hstart

end

/-! ### Sources of blocks, and iterators -/

section

variable {h : Host} {d m n q place T : ℕ} {B : Setting} {P : Set ℕ} {R : α → Value → Prop} {as : List α}
  {bs : List (List α)} {stands : List Value → Positions → Set ℕ → World → Prop} {w : World} {it fs : Value}
  {source : ℕ → Set ℕ → World → Prop} {functions : List Value} {Qs : List (Outcome α)}

/-- **A source of blocks is empty when it has been read once.** -/
theorem Fleet.supply_blocks (F : Fleet h d B R [.blocks (.ofList bs)] stands)
    (hend : (Strand.blocks (.ofList bs)).turn T = none)
    (hitems : (Strand.blocks (.ofList bs)).items T = bs.flatten) (rs₀ : List Value) :
    Supply h (d + 2) B R (leftOf bs) fun rs j P w =>
      Emptying bs T 0 q it (stands rs₀) j P w ∧ ∀ r ∈ rs, r = .ref .blocks q where
  has := by
    rintro rs j P w ⟨⟨g, t, hstands, -⟩, -⟩
    exact F.has _ _ _ _ hstands
  aside := by
    rintro rs j P w v ⟨⟨g, t, hstands, ⟨hposition, hsits, hown⟩, hrest⟩, hrs⟩ hv
    refine ⟨⟨g, t, F.aside _ _ _ _ _ hstands hv, ⟨hposition, ?_, hown⟩, hrest⟩, hrs⟩
    cases hsits with
    | blocks _ hplace => exact .blocks _ (hv.blocks _ _ hplace)
  gives j := by
    filter_upwards [Emptying.items (i := 0) F rfl hend hitems j] with N hN n hn rs r r' P w hr hhanded hstands
    obtain ⟨hstands, hrs⟩ := hstands
    obtain rfl := hrs r (List.mem_of_getElem? hr)
    obtain rfl := hhanded.eq_of_marked rfl
    obtain ⟨vs, v, Q, hread, hvs, hcontained, hQ, hv⟩ := hN n hn rs₀ P w hstands
    exact ⟨vs, v, Q, hread, hvs, hcontained, hQ, hv, hrs⟩

/-- **Each of several iterators gives all of its items.** -/
theorem Fleet.supply (F : Fleet h d B R (List.replicate n (.plain (.ofList as))) stands) :
    Supply h d B R (fun _ => as) fun rs j P w =>
      rs.length = n ∧ (∀ r ∈ rs, ∃ c, r = .ref .iterator c) ∧ ∃ g, stands rs g P w ∧ ∀ i, j ≤ i → g i = none where
  has := by
    rintro rs j P w ⟨-, -, g, hstands, -⟩
    exact F.has _ _ _ _ hstands
  aside := by
    rintro rs j P w v ⟨hn, hrs, g, hstands, hg⟩ hv
    exact ⟨hn, hrs, g, F.aside _ _ _ _ _ hstands hv, hg⟩
  gives j := by
    by_cases hj : j < n
    · have hi : (List.replicate n (Strand.plain (.ofList as)))[j]? = some (.plain (.ofList as)) := by
        rw [List.getElem?_replicate, if_pos hj]
      filter_upwards [F.exists_items hi] with N hN k hk rs r r' P w hr hhanded hstands
      obtain ⟨hn, hrs, g, hstands, hg⟩ := hstands
      obtain ⟨c, rfl⟩ := hrs r (List.mem_of_getElem? hr)
      obtain rfl := hhanded.eq_of_marked rfl
      obtain ⟨vs, v, Q, hread, hvs, hcontained, hQ, hv⟩ := hN k hk rs g P w c hstands hr (hg j (Nat.le_refl j))
      refine ⟨vs, v, Q, hread, hvs, hcontained, hQ, hn, hrs, _, hv, fun i hi => ?_⟩
      rw [Function.update_of_ne (Nat.ne_of_gt hi)]
      exact hg i (Nat.le_of_succ_le hi)
    · refine Eventually.of_forall fun N k hk rs r r' P w hr hhanded hstands => ?_
      exact absurd (hstands.1 ▸ (List.getElem?_eq_some_iff.1 hr).1) hj

/-- **A one-shot iterator is split**, and each function reads all of it. -/
theorem OneShot.branched (hit : OneShot h d B R (.ofList as) source w place m it)
    (hgathers : List.Forall₂ (Gathers h B w R) functions Qs) (hold : w.Old B) (hfs : ∀ es k, fs ≠ .dict es k)
    (hlasts : w.Lasts B fs functions) : Branched h B Qs fs w it fun _ => as := by
  obtain ⟨stands, F, -, hreaders⟩ := hit.exists_fleet functions.length
  obtain ⟨cs, u, P, hcopies, hlength, hretains, hstands⟩ := hreaders w (Spares.refl _ w).quiet
  obtain ⟨e, hresults⟩ := F.supply.exists_results hgathers 0
  refine ⟨e, ?_⟩
  filter_upwards [hresults] with N hresults n hn
  have hbegin : (cs.map (Value.ref .iterator)).length = functions.length ∧
      (∀ r ∈ cs.map (Value.ref .iterator), ∃ c, r = .ref .iterator c) ∧
      ∃ g, stands (cs.map (.ref .iterator)) g P u ∧ ∀ i, 0 ≤ i → g i = none := by
    refine ⟨by rw [List.length_map, hlength], fun r hr => ?_, _, hstands, fun _ _ => rfl⟩
    obtain ⟨c, -, rfl⟩ := List.mem_map.1 hr
    exact ⟨c, rfl⟩
  obtain ⟨called, u', hiterate, hretains', hcalling⟩ :=
    exists_calling F.supply hfs (hlasts.keeps hretains) hbegin hretains
  obtain ⟨ys, v, happly, hretains'', hyields⟩ := hresults n hn fs functions called _ P u' rfl (Nat.zero_le _)
    hbegin.1 hcalling
  have hbranch : ((h.grant N).up n).branch it fs w = .ok ys v := by
    cases hit with
    | whole | reader => exact branch_of_copies hfs hlasts.branches hcopies hiterate happly
  exact exists_branches hgathers hold hbranch ((hretains.trans hretains').trans hretains'') hyields

/-! ### Who gets the items of a route -/

/-- **Who gets the items of a route.**  If several functions read one route to its end, then each gets all of its
items, whether the route is a collection, a lineage that is walked back, or a one-shot iterator.  But of a source
of blocks the first function gets all items, and the others get none. -/
theorem branches_of_whole_routes (hR : ∀ a x x', R a x → Handed x x' → R a x')
    (hgathers : List.Forall₂ (Gathers h B w R) functions Qs) (hold : w.Old B) (hfs : ∀ es k, fs ≠ .dict es k)
    (hlasts : w.Lasts B fs functions) :
    (∀ r vs as, w.Holds B r vs → List.Forall₂ R as vs → Branched h B Qs fs w r fun _ => as) ∧
    (∀ place start as, w.histories[place]? = some start → start.node.sound = true →
      List.Forall₂ R as start.wayBack → Branched h B Qs fs w (.ref .history place) fun _ => as) ∧
    (∀ d place m it as source, OneShot h d B R (.ofList as) source w place m it →
      Branched h B Qs fs w it fun _ => as) ∧
    ∀ d q it bs stands rs g P, Fleet h d B R [.blocks (.ofList bs)] stands → stands rs g P w →
      g 0 = some (it, 0) → w.blocks[q]? = some it → Branched h B Qs fs w (.ref .blocks q) (leftOf bs) := by
  refine ⟨fun r vs as hholds has => ?_, fun place start as hstart hsound has => ?_,
    fun d place m it as source hit => hit.branched hgathers hold hfs hlasts,
    fun d q it bs stands rs g P F hstands hg hq => ?_⟩
  · exact (supply_collection hR has h B).branched hgathers hold hfs hlasts hholds.ne_iterator
      ⟨rfl, fun r' hr' => List.eq_of_mem_replicate hr' ▸ hholds⟩
  · exact (supply_history hR hsound has h B).branched hgathers hold hfs hlasts nofun
      ⟨rfl, hstart, fun _ hr => List.eq_of_mem_replicate hr⟩
  · obtain ⟨T, hend, hitems⟩ := exists_items_eq_flatten bs
    refine (F.supply_blocks hend hitems rs).branched hgathers hold hfs hlasts nofun ⟨⟨g, 0, hstands,
      ⟨hg, .blocks _ hq, nofun⟩, Nat.zero_le _, fun _ => rfl, fun hpos => absurd hpos (Nat.lt_irrefl 0)⟩,
      fun _ hr => List.eq_of_mem_replicate hr⟩

end

/-! ### Two lists of three numbers -/

/-- A source over three numbers that are cut into pairs, an iterator over the numbers, and the way back from one
of them. -/
def numbersInPairs : World where
  cursors := #[.items .tuple [.int 7, .int 8, .int 9], .cut (cutOf (.ref .iterator 0) 2),
    .items .tuple [.int 7, .int 8, .int 9]]
  blocks := #[.ref .iterator 1]
  histories := #[.int 7]

/-- Two functions that make a list. -/
def twoLists : Value := .tuple [.op .listOf, .op .listOf] none

/-- The lists of numbers that they make. -/
def listsOfNumbers : List (Outcome ℤ) := [ListOf programsStay IsNumber, ListOf programsStay IsNumber]

theorem isNumber_handed (a : ℤ) (x x' : Value) (hx : IsNumber a x) (hhanded : Handed x x') : IsNumber a x' := by
  subst hx
  exact hhanded.eq_of_marked rfl

theorem isNumber_numbers : List.Forall₂ IsNumber [7, 8, 9] [.int 7, .int 8, .int 9] :=
  .cons rfl (.cons rfl (.cons rfl .nil))

theorem gathers_numbers : List.Forall₂ (Gathers (host 0) programsStay numbersInPairs IsNumber)
    [.op .listOf, .op .listOf] listsOfNumbers :=
  .cons (gathers_list isNumber_handed nofun) (.cons (gathers_list isNumber_handed nofun) .nil)

/-- Three numbers, in pairs. -/
theorem slices_numbers :
    slices (.ofList [7, 8, 9]) Nat.two_pos = Stream'.Seq.ofList [[(7 : ℤ), 8], [9]] := by
  rw [slices_ofList]
  simp [cut]

/-- The iterator under the source, and the source itself. -/
theorem fleet_numbersInPairs : ∃ stands, Fleet (host 0) 2 programsStay IsNumber
    [.blocks (.ofList [[7, 8], [9]])] stands ∧
    stands [.ref .iterator 0] (fun _ => some (.ref .iterator 1, 0)) (insert 1 {c | c ∈ [0]}) numbersInPairs := by
  have F := ((fleet_items isNumber_handed isNumber_numbers (host 0) programsStay 1).cutOff (i := 0) rfl 2).slices
    (i := 0) rfl Nat.two_pos (by decide)
  rw [slices_numbers] at F
  refine ⟨_, F, .ref .iterator 0, 0, 1, 0, {c | c ∈ [0]}, true, ⟨⟨.ref .iterator 0, [0], rfl, rfl, by decide, rfl,
    ?_, fun i c hc => ?_⟩, ?_⟩, rfl, rfl, fun _ => rfl, nofun, by decide, rfl⟩
  · intro i c it k hc hi
    cases i with
    | zero =>
        cases hc
        cases hi
        rfl
    | succ i => cases hc
  · cases i with
    | zero =>
        cases hc
        exact .items .tuple rfl
    | succ i => cases hc
  · rw [Function.update_self]
    nofun

/-- Branches are made, a list of lists that hold the values `vss`. -/
def MakesLists (H : Host) (r : Value) (vss : List (List Value)) : Prop :=
  ∃ (l : ℕ) (ls : List ℕ) (v : World), H.callOp .branch [r, twoLists] [] numbersInPairs = .ok (.ref .list l) v ∧
    v.branches? (.ref .list l) = some (ls.map (Value.ref .list)) ∧ ls.map (fun l => (v.listAt l).toList) = vss

section

variable {H : Host} {r : Value} {vss vss' : List (List Value)} {given : ℕ → List ℤ}

theorem MakesLists.eq (hvss : MakesLists H r vss) (hvss' : MakesLists H r vss') : vss = vss' := by
  obtain ⟨l, ls, v, hmake, hls, rfl⟩ := hvss
  obtain ⟨l', ls', v', hmake', hls', rfl⟩ := hvss'
  cases hmake.symm.trans hmake'
  have hinj : Function.Injective (Value.ref .list) := fun _ _ h => by cases h; rfl
  rw [List.map_injective_iff.2 hinj (Option.some.inj (hls.symm.trans hls'))]

/-- What two functions make that make a list of their route. -/
theorem Branched.makesLists
    (hbranched : Branched (host 0) programsStay listsOfNumbers twoLists numbersInPairs r given) :
    ∃ e, ∀ᶠ N in atTop, ∀ n, e ≤ n →
      MakesLists (((host 0).grant N).up n) r [(given 0).map Value.int, (given 1).map Value.int] := by
  obtain ⟨e, hbranched⟩ := hbranched
  refine ⟨e, ?_⟩
  filter_upwards [hbranched] with N hN n hn
  obtain ⟨l, ys, v, hcall, hlasts, hlength, heach⟩ := hN n hn
  obtain ⟨y, y', rfl⟩ := List.length_eq_two.1 hlength
  obtain ⟨l₀, vs₀, rfl, -, hl₀, hvs₀⟩ := heach 0 _ _ rfl rfl
  obtain ⟨l₁, vs₁, rfl, -, hl₁, hvs₁⟩ := heach 1 _ _ rfl rfl
  refine ⟨l, [l₀, l₁], v, hcall, hlasts.branches, ?_⟩
  rw [List.map_cons, List.map_cons, List.map_nil, listAt, listAt, hl₀, hl₁, ← eq_map_of_isNumber hvs₀,
    ← eq_map_of_isNumber hvs₁]
  rfl

end

/-- Two functions that make a list of the numbers 7, 8 and 9: in a tuple, in an iterator, and in pairs; and of one
number, which is its own lineage. -/
theorem branches_of_whole_routes_numbers :
    ∃ e, ∀ᶠ N in atTop, ∀ n, e ≤ n →
      MakesLists (((host 0).grant N).up n) (.tuple [.int 7, .int 8, .int 9] none)
        [[.int 7, .int 8, .int 9], [.int 7, .int 8, .int 9]] ∧
      MakesLists (((host 0).grant N).up n) (.ref .history 0) [[.int 7], [.int 7]] ∧
      MakesLists (((host 0).grant N).up n) (.ref .iterator 2)
        [[.int 7, .int 8, .int 9], [.int 7, .int 8, .int 9]] ∧
      MakesLists (((host 0).grant N).up n) (.ref .blocks 0) [[.int 7, .int 8, .int 9], []] := by
  have hsequence : ∀ es m, twoLists ≠ .dict es m := nofun
  obtain ⟨hcollection, hhistory, hiterator, hblocks⟩ :=
    branches_of_whole_routes isNumber_handed gathers_numbers nofun hsequence fun v _ => rfl
  obtain ⟨stands, F, hstands⟩ := fleet_numbersInPairs
  have hholds : numbersInPairs.Holds programsStay (.tuple [.int 7, .int 8, .int 9] none)
      [.int 7, .int 8, .int 9] := by
    intro v r' _ hhanded
    obtain ⟨m, rfl⟩ := hhanded.exists_withMark nofun
    rfl
  have hit : OneShot (host 0) 1 programsStay IsNumber (.ofList [7, 8, 9]) _ numbersInPairs 0 0
      (.ref .iterator 2) :=
    .whole rfl nofun (spring_items isNumber_handed isNumber_numbers (host 0) programsStay 2 0)
      ⟨rfl, 0, .items .tuple rfl, rfl⟩
  obtain ⟨e₁, h₁⟩ := (hcollection _ _ [7, 8, 9] hholds isNumber_numbers).makesLists
  obtain ⟨e₂, h₂⟩ := (hhistory 0 (.int 7) [7] rfl rfl (.cons rfl .nil)).makesLists
  obtain ⟨e₃, h₃⟩ := (hiterator _ _ _ _ _ _ hit).makesLists
  obtain ⟨e₄, h₄⟩ := (hblocks _ 0 _ _ _ _ _ _ F hstands rfl rfl).makesLists
  refine ⟨max (max e₁ e₂) (max e₃ e₄), ?_⟩
  filter_upwards [h₁, h₂, h₃, h₄] with N h₁ h₂ h₃ h₄ n hn
  exact ⟨h₁ n (by omega), h₂ n (by omega), h₃ n (by omega), h₄ n (by omega)⟩

/-- Of three numbers in pairs, the first function makes a list of all, and the second an empty list: it is not so
that both make a list of all. -/
theorem not_branches_of_blocks_alike :
    ∃ e, ∀ᶠ N in atTop, ∀ n, e ≤ n →
      MakesLists (((host 0).grant N).up n) (.ref .blocks 0) [[.int 7, .int 8, .int 9], []] ∧
      ¬MakesLists (((host 0).grant N).up n) (.ref .blocks 0)
        [[.int 7, .int 8, .int 9], [.int 7, .int 8, .int 9]] := by
  obtain ⟨stands, F, hstands⟩ := fleet_numbersInPairs
  obtain ⟨T, hend, hitems⟩ := exists_items_eq_flatten [[(7 : ℤ), 8], [9]]
  have hbranched : Branched (host 0) programsStay listsOfNumbers twoLists numbersInPairs (.ref .blocks 0)
      (leftOf [[7, 8], [9]]) :=
    (F.supply_blocks (q := 0) hend hitems _).branched gathers_numbers nofun nofun (fun v _ => rfl) nofun
      ⟨⟨_, 0, hstands, ⟨rfl, .blocks _ rfl, nofun⟩, Nat.zero_le _, fun _ => rfl,
        fun hpos => absurd hpos (Nat.lt_irrefl 0)⟩, fun _ hr => List.eq_of_mem_replicate hr⟩
  obtain ⟨e, hlists⟩ := hbranched.makesLists
  refine ⟨e, ?_⟩
  filter_upwards [hlists] with N hN n hn
  refine ⟨hN n hn, fun hall => ?_⟩
  cases (hN n hn).eq hall

end GraphRoutes.Session
