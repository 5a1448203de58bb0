/-
**What a merge gives, and what it has asked for by then.**

Branches that are apart are merged in turn.  The host needs more steps the longer it reads, so what is
said here is said of all hosts that may take enough of them.

Main definitions:

* `GraphRoutes.Session.Mergeable` — the branches of a list or of a mapping, none of which has been read;
* `GraphRoutes.Session.Mergeable.schedule` — their turns.

Main results:

* `GraphRoutes.Session.Mergeable.eventually_reads` — **the items up to a place in a turn**, and how often
  each branch has been asked by then;
* `GraphRoutes.Session.Mergeable.eventually_gives` — **all the items**, if every branch has ended;
* `GraphRoutes.Session.Mergeable.ends_iff` — a merge ends if all its branches do.
-/
import GraphRoutes.Proofs.Session.RoundRobin
import Mathlib.Order.Filter.AtTopBot.Finite

set_option relaxedAutoImplicit false
set_option autoImplicit false

namespace GraphRoutes.Session

open World Merge Filter

variable {α : Type}

/-- The branches of a list or of a mapping, none of which has been read: they do not share an iterator, and
no sequence is cut into blocks that are longer than a sequence can be. -/
structure Mergeable (h : Host) (d : ℕ) (R : α → Value → Prop) (r : Value) (rs : List Value)
    (xs : List (Strand α)) (stands : Positions → Set ℕ → World → Prop) (w : World) : Prop where
  apart : Apart h d R rs xs stands
  fair : ∀ x ∈ xs, x.Fair
  limit : ∀ s n, Strand.chunked s n ∈ xs → (n : ℤ) ≤ sliceLimit
  length : rs.length = xs.length
  branches : w.branches? r = some rs
  own : w.OwnBlocks rs
  begins : ∃ (g : Positions) (P : Set ℕ), stands g P w ∧
    ∀ (i : ℕ) r x, rs[i]? = some r → xs[i]? = some x → Unopened w P r x (g i)

/-- The turns of the branches. -/
noncomputable def Mergeable.schedule {h : Host} {d : ℕ} {R : α → Value → Prop} {r : Value}
    {rs : List Value} {xs : List (Strand α)} {stands : Positions → Set ℕ → World → Prop} {w : World}
    (hm : Mergeable h d R r rs xs stands w) : Schedule α := .ofStrands xs hm.fair

/-- A merge that has not been read yet. -/
def World.merging (w : World) (r : Value) : World :=
  { w with cursors := w.cursors.push (.deferred (.roundRobin r)) }

section

variable {h : Host} {d : ℕ} {R : α → Value → Prop} {r : Value} {rs : List Value} {xs : List (Strand α)}
  {stands : Positions → Set ℕ → World → Prop} {u v w : World} {K L T n : ℕ}

/-! ### Enough steps -/

/-- Hosts that may take enough steps are given every one of the first answers. -/
theorem Apart.eventually_answers (hapart : Apart h d R rs xs stands) (K L : ℕ) :
    ∀ᶠ N in atTop, K < N ∧ L ≤ N ∧ ∀ k < K, ∀ n, d ≤ n → Answers ((h.grant N).up n) R xs stands k :=
  (eventually_gt_atTop K).and ((eventually_ge_atTop L).and
    ((eventually_all_finite (Set.finite_lt_nat K)).2 fun k _ => hapart.answers k))

/-- For some turns of some branches, only so many questions are needed. -/
theorem exists_pulled_le (xs : List (Strand α)) (T : ℕ) :
    ∃ K, ∀ x ∈ xs, ∀ t < T, x.pulled (t + 1) ≤ K := by
  have heventually : ∀ᶠ K in atTop, ∀ x ∈ xs, ∀ t < T, x.pulled (t + 1) ≤ K :=
    (eventually_all_finite xs.finite_toSet).2 fun x _ =>
      (eventually_all_finite (Set.finite_lt_nat T)).2 fun t _ => eventually_ge_atTop _
  exact heventually.exists

/-! ### From the beginning -/

theorem branches?_congr (hlists : v.lists = w.lists) (hbags : v.bags = w.bags) (r : Value) :
    v.branches? r = w.branches? r := by
  have hcollection := collection?_congr hlists hbags r
  cases r with
  | dict | set => rfl
  | ref sort place =>
      cases sort with
      | bag => rfl
      | _ => exact hcollection
  | _ => exact hcollection

/-- A merge is called, and nothing is read. -/
theorem callOp_mergeRoundRobin (H : Host) (r : Value) (w : World) :
    H.callOp .mergeRoundRobin [r] [] w = .ok (.ref .iterator w.cursors.size) (w.merging r) := by
  have hperform : H.perform .mergeRoundRobin { bound := [some r], extra := [] } w =
      .ok (.ref .iterator w.cursors.size) (w.merging r) := newCursor_eq _ w
  exact (callOp_of_ok rfl hperform).trans rfl

theorem reading_merging (w : World) (r : Value) : Uses ∅ w ((w.merging r).reading w.cursors.size) :=
  (uses_push w _).trans (uses_setCursor _ w.cursors.size .running)
    (Set.singleton_subset_iff.2 (.inr (Nat.le_refl _)))

section

variable (hm : Mergeable h d R r rs xs stands w)

include hm

theorem Mergeable.steady (p : ℕ) (seats : List Seat) : Steady R (Seated p xs seats stands hm.schedule) p where
  handed := hm.apart.handed
  place _ _ hseated := hseated.place
  calm _ _ _ hseated hv := hseated.calm hm.apart.toFooting hv

/-- A merge that has not been read yet has given everything of the first no slots. -/
theorem Mergeable.exists_merging {N : ℕ} (hT : ∀ x ∈ xs, ∀ t < T, x.pulled (t + 1) ≤ K)
    (hA : ∀ k < K, ∀ n, d ≤ n → Answers ((h.grant N).up n) R xs stands k) (hK : K < N)
    (hrs : rs.length < N) (hn : d ≤ n) :
    ∃ seats : List Seat, seats.length = xs.length ∧
      Independent ((h.grant N).up n).above.source ((h.grant N).up n).above.readBlock R hm.schedule T
        (seats.map Seat.branch) (Seated w.cursors.size xs seats stands hm.schedule) ∧
      Merging ((h.grant N).up n).above R hm.schedule (seats.map Seat.branch)
        (Seated w.cursors.size xs seats stands hm.schedule) w.cursors.size 0 (w.merging r) := by
  obtain ⟨g, P, hstands, hbegins⟩ := hm.begins
  have huses := reading_merging w r
  have hhas := hm.apart.has _ _ _ hstands
  have hrunning : ((w.merging r).reading w.cursors.size).cursors[w.cursors.size]? = some .running :=
    Array.getElem?_setIfInBounds_self_of_lt (by simp [merging])
  obtain ⟨seats, u, hbegin, hlength, hown, hseated⟩ :=
    exists_rotation (H := (h.grant N).up n) (w := (w.merging r).reading w.cursors.size) hm.apart hm.fair
      hm.length ((branches?_congr rfl rfl r).trans hm.branches) hm.own hrunning
      (hm.apart.quiet _ _ _ _ hstands (huses.spares_of_new hhas).quiet) (notMem_of_has hhas)
      (fun i r x hr hx => (hbegins i r x hr hx).confined huses.confined (subset_within P _)
        fun _ _ _ _ _ _ _ hmem => hmem) (by rwa [Host.fuel_up])
  refine ⟨seats, hlength, ?_, .fresh Array.getElem?_push_size hbegin (.between ?_)⟩
  · exact independent_of_answers hm.apart.toFooting (fun k hk => hA k hk n hn)
      (fun k hk => hA k hk (n + 1) (Nat.le_succ_of_le hn)) hm.fair hm.limit hlength hown hT
      (by rwa [Host.fuel_up]) w.cursors.size
  · exact between_zero ((List.length_map _).trans hlength) hseated

end

/-! ### Places in turns -/

/-- Each branch has been asked for so many turns. -/
def Asked (stands : Positions → Set ℕ → World → Prop) (xs : List (Strand α)) (f : ℕ → ℕ) (w : World) : Prop :=
  ∃ (g : Positions) (P : Set ℕ), stands g P w ∧
    ∀ (k : ℕ) x, xs[k]? = some x → ∃ it, g k = some (it, x.pulled (f k))

/-- Where the branches stand while the merge is being read, they stand when that is over. -/
theorem Seated.asked_of_reading {p : ℕ} {seats : List Seat} {S : Schedule α} {f : ℕ → ℕ}
    (hfooting : Footing R stands) (hlength : seats.length = xs.length)
    (h : Seated p xs seats stands S f (v.reading p)) : Asked stands xs f v := by
  obtain ⟨g, P, hstands, hp, hsits⟩ := h.stands
  have hquiet : Quiet P (v.reading p) v := by
    refine ⟨rfl, (size_reading v p).le, fun i hi => ?_, fun _ _ => id⟩
    refine (Array.getElem?_setIfInBounds_ne ?_).symm
    rintro rfl
    exact hp hi
  refine ⟨g, P, hfooting.quiet _ _ _ _ hstands hquiet, fun k x hx => ?_⟩
  have hk : k < seats.length := hlength ▸ (List.getElem?_eq_some_iff.1 hx).1
  exact ⟨_, (hsits k x _ hx (List.getElem?_eq_getElem hk)).1⟩

theorem Mergeable.lt_size (hm : Mergeable h d R r rs xs stands w) {i t : ℕ} {block : List α}
    (hturn : hm.schedule.turn i t = some block) : i < hm.schedule.size := by
  by_contra hi
  have hx : xs[i]? = none := List.getElem?_eq_none (Nat.le_of_not_lt hi)
  change (xs[i]?.bind fun x => x.turn t) = some block at hturn
  rw [hx] at hturn
  cases hturn

/-- **The items up to a place in a turn**, and how often each branch has been asked by then: as often as
there have been rounds, unless it was found to have ended before. -/
theorem Mergeable.eventually_reads (hm : Mergeable h d R r rs xs stands w) {i t j : ℕ} {block : List α}
    (hturn : hm.schedule.turn i t = some block) (hj : j < block.length) :
    ∀ᶠ N in atTop, ∀ n, d + 2 ≤ n → ∃ ys u,
      Reads ((h.grant N).up n) (.ref .iterator w.cursors.size) ys (w.merging r) u ∧
      List.Forall₂ R (hm.schedule.rounds t ++ hm.schedule.before i t ++ block.take (j + 1)) ys ∧
      Asked stands xs (fun k => hm.schedule.asked k (if k ≤ i then t + 1 else t)) u := by
  have hi := hm.lt_size hturn
  have hpos : 0 < hm.schedule.size := Nat.zero_lt_of_lt hi
  let m := t * hm.schedule.size + i
  have hmod : m < (t + 1) * hm.schedule.size := by
    rw [Nat.succ_mul]
    exact Nat.add_lt_add_left hi _
  obtain ⟨K, hK⟩ := exists_pulled_le xs (t + 1)
  filter_upwards [hm.apart.eventually_answers K (rs.length + 1 + (m + 4))] with N hN n hn
  obtain ⟨hKN, hL, hA⟩ := hN
  obtain ⟨n, rfl⟩ := Nat.exists_eq_add_of_le' (Nat.le_trans (Nat.le_add_left 2 d) hn)
  obtain ⟨seats, hlength, hind, hmerging⟩ :=
    hm.exists_merging hK hA hKN (by omega) (Nat.le_of_add_le_add_right hn)
  obtain ⟨ys, u, hreads, hys, hseated⟩ := hmerging.run_into hind (hm.steady _ seats) hpos
    (fun m' hm' => Nat.div_lt_of_lt_mul (Nat.mul_comm _ _ ▸ Nat.lt_of_le_of_lt hm' hmod))
    ((Schedule.slot_eq hi t).trans hturn) hj (by rw [Host.fuel_above, Host.fuel_up]; exact Nat.le_of_add_left_le hL)
  rw [Schedule.output_eq (Nat.le_of_lt hi)] at hys
  refine ⟨ys, u, hreads, hys, ?_⟩
  obtain ⟨g, P, hstands, hg⟩ := hseated.asked_of_reading hm.apart.toFooting hlength
  refine ⟨g, P, hstands, fun k x hx => ?_⟩
  obtain ⟨it, hk⟩ := hg k x hx
  refine ⟨it, hk.trans ?_⟩
  have hasks := Schedule.asks_eq (S := hm.schedule) (i := i + 1) hi t (List.getElem?_eq_some_iff.1 hx).1
  simp only [Nat.lt_succ_iff] at hasks
  exact congrArg (fun q => some (it, x.pulled q)) hasks

/-! ### The end -/

/-- **The rounds before `T`**, and then the end if every branch has ended. -/
theorem Mergeable.reads_rounds {N : ℕ} (hm : Mergeable h d R r rs xs stands w)
    (hK : ∀ x ∈ xs, ∀ t < T + 1, x.pulled (t + 1) ≤ K)
    (hA : ∀ k < K, ∀ n, d ≤ n → Answers ((h.grant N).up n) R xs stands k) (hKN : K < N)
    (hL : rs.length + 1 + ((T + 1) * xs.length + 4) ≤ N) (hn : d ≤ n) :
    ∃ ys v, Reads ((h.grant N).up (n + 2)) (.ref .iterator w.cursors.size) ys (w.merging r) v ∧
      List.Forall₂ R (hm.schedule.rounds T) ys ∧ ((∀ x ∈ xs, x.turn T = none) →
        ∃ u, ((h.grant N).up (n + 2)).pull (.ref .iterator w.cursors.size) v = .ok none u) := by
  obtain ⟨seats, -, hind, hmerging⟩ := hm.exists_merging hK hA hKN (by omega) hn
  have hfuel : (T + 1) * hm.schedule.size + 4 ≤ ((h.grant N).up n).above.fuel := by
    rw [Host.fuel_above, Host.fuel_up]
    exact Nat.le_of_add_left_le hL
  have hsteady := hm.steady w.cursors.size seats
  have hslots : ∀ t, t ≤ T + 1 → ∀ m < t * hm.schedule.size, m / hm.schedule.size < T + 1 := fun t ht m hm' =>
    Nat.lt_of_lt_of_le (Nat.div_lt_of_lt_mul (Nat.mul_comm _ _ ▸ hm')) ht
  have houtput : ∀ t, hm.schedule.output (t * hm.schedule.size) = hm.schedule.rounds t := by
    intro t
    simpa [Schedule.before] using Schedule.output_eq (S := hm.schedule) (Nat.zero_le _) t
  by_cases hend : ∀ x ∈ xs, x.turn T = none
  · -- one round more, in which every branch is found to have ended
    have hturns : ∀ i < hm.schedule.size, hm.schedule.turn i T = none := fun i hi =>
      (Schedule.turn_ofStrands hm.fair (List.getElem?_eq_getElem hi) T).trans (hend _ (List.getElem_mem hi))
    have hpos : 0 < (T + 1) * hm.schedule.size → 0 < hm.schedule.size := Nat.pos_of_mul_pos_left
    obtain ⟨ys, v, hreads, hys, hmerged⟩ :=
      hmerging.run hind hsteady _ hpos (hslots (T + 1) (Nat.le_refl _)) hfuel
    rw [houtput, Schedule.rounds_of_ended hturns] at hys
    exact ⟨ys, v, hreads, hys, fun _ => hmerged.pull_end hind hpos (hslots (T + 1) (Nat.le_refl _))
      (Schedule.queue_of_ended hturns) (Nat.le_of_succ_le hfuel)⟩
  · have hle : T * hm.schedule.size ≤ (T + 1) * hm.schedule.size := Nat.mul_le_mul_right _ (Nat.le_succ T)
    obtain ⟨ys, v, hreads, hys, -⟩ := hmerging.run hind hsteady _ Nat.pos_of_mul_pos_left
      (hslots T (Nat.le_succ T)) (Nat.le_trans (Nat.add_le_add_right hle 4) hfuel)
    rw [houtput] at hys
    exact ⟨ys, v, hreads, hys, fun h => absurd h hend⟩

/-- **All the items**, if every branch has ended. -/
theorem Mergeable.eventually_gives (hm : Mergeable h d R r rs xs stands w) {T : ℕ}
    (hend : ∀ x ∈ xs, x.turn T = none) :
    ∀ᶠ N in atTop, ∀ n, d + 2 ≤ n → ∃ ys u,
      Gives ((h.grant N).up n) (.ref .iterator w.cursors.size) ys (w.merging r) u ∧
      List.Forall₂ R (hm.schedule.rounds T) ys := by
  obtain ⟨K, hK⟩ := exists_pulled_le xs (T + 1)
  filter_upwards [hm.apart.eventually_answers K (rs.length + 1 + ((T + 1) * xs.length + 4))] with N hN n hn
  obtain ⟨hKN, hL, hA⟩ := hN
  obtain ⟨n, rfl⟩ := Nat.exists_eq_add_of_le' (Nat.le_trans (Nat.le_add_left 2 d) hn)
  obtain ⟨ys, v, hreads, hys, hlast⟩ := hm.reads_rounds hK hA hKN hL (Nat.le_of_add_le_add_right hn)
  obtain ⟨u, hpull⟩ := hlast hend
  exact ⟨ys, u, hreads.gives hpull, hys⟩

/-- As long as some branch goes on, so does the merge. -/
theorem Mergeable.eventually_goes_on (hm : Mergeable h d R r rs xs stands w) {x : Strand α} (hx : x ∈ xs)
    (hinfinite : ¬x.Finite) (k : ℕ) :
    ∀ᶠ N in atTop, ∀ n, d + 2 ≤ n → ∃ ys u,
      Reads ((h.grant N).up n) (.ref .iterator w.cursors.size) ys (w.merging r) u ∧ k < ys.length := by
  rw [Strand.finite_iff (hm.fair x hx), not_exists] at hinfinite
  obtain ⟨i, hi, rfl⟩ := List.mem_iff_getElem.1 hx
  have hsome : ∀ t, ∃ block, hm.schedule.turn i t = some block := fun t => by
    rw [Mergeable.schedule, Schedule.turn_ofStrands hm.fair (List.getElem?_eq_getElem hi)]
    exact Option.ne_none_iff_exists'.1 (hinfinite t)
  have hdue : hm.schedule.due i k = true := by
    cases k with
    | zero => rfl
    | succ k => exact Option.isSome_iff_exists.2 (hsome k)
  obtain ⟨block, hturn⟩ := hsome k
  have hblock : 0 < block.length := List.length_pos_iff.2 fun hnil => hm.schedule.filled i k (hnil ▸ hturn)
  filter_upwards [hm.eventually_reads hturn hblock] with N hN n hn
  obtain ⟨ys, u, hreads, hys, -⟩ := hN n hn
  refine ⟨ys, u, hreads, ?_⟩
  have hrounds := hm.schedule.le_length_rounds (hm.lt_size hturn) hdue
  have hlength := hys.length_eq
  simp only [List.length_append, List.length_take] at hlength
  omega

/-- **A merge ends if all its branches do**, and only then. -/
theorem Mergeable.ends_iff (hm : Mergeable h d R r rs xs stands w) :
    (∃ k, ∀ᶠ N in atTop, ∀ n, d + 2 ≤ n → ∃ ys u,
      Gives ((h.grant N).up n) (.ref .iterator w.cursors.size) ys (w.merging r) u ∧ ys.length = k) ↔
    ∀ x ∈ xs, x.Finite := by
  constructor
  · rintro ⟨k, hk⟩ x hx
    by_contra hinfinite
    obtain ⟨N, hends, hgoes⟩ := (hk.and (hm.eventually_goes_on hx hinfinite k)).exists
    obtain ⟨ys, u, hgives, rfl⟩ := hends (d + 2) (Nat.le_refl _)
    obtain ⟨zs, v, hreads, hlt⟩ := hgoes (d + 2) (Nat.le_refl _)
    exact Nat.not_lt_of_le (hgives.length_le hreads) hlt
  · intro hfinite
    have heventually : ∀ᶠ T in atTop, ∀ x ∈ xs, x.turn T = none := by
      refine (eventually_all_finite xs.finite_toSet).2 fun x hx => ?_
      obtain ⟨t, ht⟩ := (Strand.finite_iff (hm.fair x hx)).1 (hfinite x hx)
      filter_upwards [eventually_ge_atTop t] with T hT
      exact Strand.turn_eq_none_of_le (hm.fair x hx) ht hT
    obtain ⟨T, hT⟩ := heventually.exists
    refine ⟨(hm.schedule.rounds T).length, ?_⟩
    filter_upwards [hm.eventually_gives hT] with N hN n hn
    obtain ⟨ys, u, hgives, hys⟩ := hN n hn
    exact ⟨ys, u, hgives, hys.length_eq.symm⟩

end

end GraphRoutes.Session
