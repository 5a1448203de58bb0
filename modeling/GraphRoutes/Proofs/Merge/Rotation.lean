/-
**A merge gives the turns of its branches, round by round.**

Branches that keep their state in a world may be asked in any order.  They are independent if what a
branch gives, when it is asked once more, depends only on how often it has been asked itself.  Where they
stand is then said by counting how often each of them has been asked, and that is all that a merge moves.

Between two turns, the branches that wait are those that are due at the next slots.  One that is asked
and has nothing left drops out, and the others keep their order; one that has given its turn waits again.

Main definitions:

* `GraphRoutes.Merge.Branch.turn` — one turn of a branch;
* `GraphRoutes.Merge.Independent` — what the branches give, in whichever order they are asked;
* `GraphRoutes.Merge.Between`, `GraphRoutes.Merge.Inside` — a merge between two slots, and one that has
  still to give a part of a turn.

Main results:

* `GraphRoutes.Merge.Between.skip` — a slot at which nothing is given is passed over;
* `GraphRoutes.Merge.Behind.pull`, `GraphRoutes.Merge.Inside.pull` — **the next item of a merge**, and
  how far the branches have been asked for it;
* `GraphRoutes.Merge.Behind.pull_end` — the end of a merge.
-/
import GraphRoutes.Merge.RoundRobin
import GraphRoutes.Proofs.Merge.Schedule
import GraphRoutes.Proofs.Pull

set_option relaxedAutoImplicit false
set_option autoImplicit false

namespace GraphRoutes.Merge

variable {ω ε κ β α γ : Type} {next : Source ω ε κ α} {nextBlock : Source ω ε β (List α)}

/-! ### Turns -/

/-- One turn of a branch: one item, or one block. -/
def Branch.turn (next : Source ω ε κ α) (nextBlock : Source ω ε β (List α)) :
    Branch κ β → Act ω ε (Option (List α × Branch κ β))
  | .plain k => do
    match ← next k with
    | none => pure none
    | some (a, k) => pure (some ([a], .plain k))
  | .blocks b => do
    match ← nextBlock b with
    | none => pure none
    | some (block, b) => pure (some (block, .blocks b))

section

variable {b : Branch κ β} {others : List (Branch κ β)} {block : List α} {w v : ω}

/-- A branch that has nothing left drops out. -/
theorem roundRobin_of_none (h : b.turn next nextBlock w = .ok none v) :
    roundRobin next nextBlock { waiting := b :: others } w = .ok (.skip { waiting := others }) v := by
  cases b with
  | plain k =>
      obtain ⟨r, u, hnext, hr⟩ := Act.bind_eq_ok_iff.1 h
      cases r with
      | some r => cases hr
      | none =>
          cases hr
          exact Act.bind_of_ok hnext
  | blocks k =>
      obtain ⟨r, u, hnext, hr⟩ := Act.bind_eq_ok_iff.1 h
      cases r with
      | some r => cases hr
      | none =>
          cases hr
          exact Act.bind_of_ok hnext

/-- A branch that has a turn gives its item and waits again, or gives its block from now on. -/
theorem roundRobin_of_some (others : List (Branch κ β))
    (h : b.turn next nextBlock w = .ok (some (block, b)) v) :
    (∃ a, block = [a] ∧ roundRobin next nextBlock { waiting := b :: others } w =
      .ok (.give a { waiting := others ++ [b] }) v) ∨
    ∃ k, b = .blocks k ∧ roundRobin next nextBlock { waiting := b :: others } w =
      .ok (.skip { waiting := others, block := some (block, k) }) v := by
  cases b with
  | plain k =>
      obtain ⟨r, u, hnext, hr⟩ := Act.bind_eq_ok_iff.1 h
      cases r with
      | none => cases hr
      | some r =>
          cases hr
          exact .inl ⟨r.1, rfl, Act.bind_of_ok hnext⟩
  | blocks k =>
      obtain ⟨r, u, hnext, hr⟩ := Act.bind_eq_ok_iff.1 h
      cases r with
      | none => cases hr
      | some r =>
          cases hr
          exact .inr ⟨r.2, rfl, Act.bind_of_ok hnext⟩

end

/-! ### Branches that are asked in any order -/

/-- The branches have the turns of a schedule, for `T` rounds, and are apart from one another: where they
stand says how often each has been asked, and what a branch gives depends on its own number only.  A
branch is not asked any more once it has come to its end. -/
structure Independent (next : Source ω ε κ α) (nextBlock : Source ω ε β (List α)) (R : γ → α → Prop)
    (S : Schedule γ) (T : ℕ) (branches : List (Branch κ β)) (Standing : (ℕ → ℕ) → ω → Prop) : Prop where
  size : branches.length = S.size
  turn : ∀ {f : ℕ → ℕ} {w : ω} {i : ℕ} {b : Branch κ β}, branches[i]? = some b → Standing f w →
    f i < T → S.due i (f i) = true →
    ∃ r v, b.turn next nextBlock w = .ok (r.map fun block => (block, b)) v ∧
      Option.Rel (List.Forall₂ R) (S.turn i (f i)) r ∧ Standing (Function.update f i (f i + 1)) v

variable {R : γ → α → Prop} {S : Schedule γ} {T : ℕ} {branches : List (Branch κ β)}
  {Standing : (ℕ → ℕ) → ω → Prop}

/-! ### Between slots and inside of turns -/

/-- The branches at some slots. -/
def branchesAt (S : Schedule γ) (branches : List (Branch κ β)) (ms : List ℕ) : List (Branch κ β) :=
  ms.filterMap fun m => branches[m % S.size]?

/-- A merge that has passed the first `m` slots. -/
structure Between (S : Schedule γ) (branches : List (Branch κ β)) (Standing : (ℕ → ℕ) → ω → Prop)
    (m : ℕ) (s : Rotation κ β α) (w : ω) : Prop where
  block : s.block = none
  waiting : s.waiting = branchesAt S branches (S.queue m)
  standing : Standing (S.asks m) w

/-- A merge that has still to give the items `cs` of the turn at the `m`-th slot. -/
inductive Inside (R : γ → α → Prop) (S : Schedule γ) (branches : List (Branch κ β))
    (Standing : (ℕ → ℕ) → ω → Prop) (m : ℕ) : List γ → Rotation κ β α → ω → Prop
  | block {cs : List γ} {as : List α} {k : β} {w : ω} (hslot : (S.slot m).isSome = true)
      (hbranch : branches[m % S.size]? = some (.blocks k)) (has : List.Forall₂ R cs as)
      (hstanding : Standing (S.asks (m + 1)) w) :
      Inside R S branches Standing m cs
        { waiting := branchesAt S branches (S.others m), block := some (as, k) } w
  | done {s : Rotation κ β α} {w : ω} (h : Between S branches Standing (m + 1) s w) :
      Inside R S branches Standing m [] s w

/-- A merge that has given everything of the first `m` slots, but need not have passed all of them. -/
inductive Behind (R : γ → α → Prop) (S : Schedule γ) (branches : List (Branch κ β))
    (Standing : (ℕ → ℕ) → ω → Prop) : ℕ → Rotation κ β α → ω → Prop
  | between {m : ℕ} {s : Rotation κ β α} {w : ω} (h : Between S branches Standing m s w) :
      Behind R S branches Standing m s w
  | inside {m : ℕ} {s : Rotation κ β α} {w : ω} (h : Inside R S branches Standing m [] s w) :
      Behind R S branches Standing (m + 1) s w
  | pass {m : ℕ} {s : Rotation κ β α} {w : ω} (h : Behind R S branches Standing m s w)
      (hslot : S.slot m = none) : Behind R S branches Standing (m + 1) s w

variable {m fuel : ℕ} {s : Rotation κ β α} {w : ω} {c : γ} {cs : List γ}

/-- Where the branches stand may be said in another world in which they stand there too. -/
theorem Inside.carry {v : ω} (h : Inside R S branches Standing m cs s w)
    (hv : ∀ f, Standing f w → Standing f v) : Inside R S branches Standing m cs s v := by
  cases h with
  | block hslot hbranch has hstanding => exact .block hslot hbranch has (hv _ hstanding)
  | done h => exact .done ⟨h.block, h.waiting, hv _ h.standing⟩

/-- Inside of a turn, the branch of the slot has been asked there. -/
theorem Inside.standing (h : Inside R S branches Standing m cs s w) : Standing (S.asks (m + 1)) w := by
  cases h with
  | block _ _ _ hstanding => exact hstanding
  | done h => exact h.standing

theorem getElem?_slot (hsize : branches.length = S.size) (hpos : 0 < S.size) (m : ℕ) :
    ∃ b, branches[m % S.size]? = some b :=
  ⟨_, List.getElem?_eq_getElem (by rw [hsize]; exact Nat.mod_lt m hpos)⟩

theorem branchesAt_queue (hpos : 0 < S.size) {b : Branch κ β} (hb : branches[m % S.size]? = some b) :
    branchesAt S branches (S.queue m) =
      (if S.dueAt m then [b] else []) ++ branchesAt S branches (S.others m) := by
  rw [branchesAt, Schedule.queue_eq hpos, List.filterMap_append]
  cases S.dueAt m with
  | false => rfl
  | true => simp [hb, branchesAt]

theorem branchesAt_queue_succ (hpos : 0 < S.size) {b : Branch κ β} (hb : branches[m % S.size]? = some b) :
    branchesAt S branches (S.queue (m + 1)) =
      branchesAt S branches (S.others m) ++ if (S.slot m).isSome then [b] else [] := by
  rw [branchesAt, Schedule.queue_succ hpos, List.filterMap_append]
  cases (S.slot m).isSome with
  | false => rfl
  | true => simp [Nat.add_mod_right, hb, branchesAt]

/-- Behind a turn that has been given, the merge goes on to the next slot, in one step at most. -/
theorem Inside.settle (hpos : 0 < S.size) (h : Inside R S branches Standing m [] s w) :
    ∃ s' c, c ≤ 1 ∧ Between S branches Standing (m + 1) s' w ∧ ∀ fuel,
      (roundRobin next nextBlock).pull (fuel + c) s w = (roundRobin next nextBlock).pull fuel s' w := by
  cases h with
  | done h => exact ⟨s, 0, Nat.zero_le 1, h, fun _ => rfl⟩
  | @block _ _ k _ hslot hbranch has hstanding =>
      cases has
      refine ⟨{ waiting := branchesAt S branches (S.others m) ++ [.blocks k] }, 1, Nat.le_refl 1,
        ⟨rfl, ?_, hstanding⟩, fun fuel => Machine.pull_of_skip rfl fuel⟩
      rw [branchesAt_queue_succ hpos hbranch, hslot, if_pos rfl]

/-- At the first slots there are all the branches. -/
theorem branchesAt_range (hsize : branches.length = S.size) :
    branchesAt S branches (List.range S.size) = branches := by
  have hall : (List.range S.size).map (fun m => branches[m % S.size]?) = branches.map some := by
    refine List.ext_getElem (by simp [hsize]) fun m hm hm' => ?_
    have hlt : m < S.size := by simpa using hm
    simp [Nat.mod_eq_of_lt hlt, hsize, hlt]
  calc branchesAt S branches (List.range S.size)
      = ((List.range S.size).map fun m => branches[m % S.size]?).filterMap id := by
        rw [List.filterMap_map]
        rfl
    _ = (branches.map some).filterMap id := by rw [hall]
    _ = branches := by
        rw [List.filterMap_map]
        exact List.filterMap_some

/-- At the beginning every branch is waiting, and none has been asked. -/
theorem between_zero (hsize : branches.length = S.size) (h : Standing (fun _ => 0) w) :
    Between S branches Standing 0 ({ waiting := branches } : Rotation κ β α) w := by
  have hqueue : S.queue 0 = List.range S.size := by
    rw [Schedule.queue, List.range_eq_range']
    refine List.filter_eq_self.2 fun n hn => ?_
    obtain ⟨i, hi, rfl⟩ := List.mem_range'.1 hn
    rw [Schedule.dueAt, Nat.zero_add, Nat.one_mul, Nat.div_eq_of_lt hi]
    rfl
  exact ⟨rfl, by rw [hqueue, branchesAt_range hsize], h⟩

section

variable (hind : Independent next nextBlock R S T branches Standing) (hpos : 0 < S.size)

include hind hpos

/-- The branch that is due at a slot is asked there. -/
theorem Between.turn (h : Between S branches Standing m s w) (hT : m / S.size < T) {b : Branch κ β}
    (hb : branches[m % S.size]? = some b) (hdue : S.dueAt m = true) :
    ∃ r v, b.turn next nextBlock w = .ok (r.map fun block => (block, b)) v ∧
      Option.Rel (List.Forall₂ R) (S.slot m) r ∧ Standing (S.asks (m + 1)) v ∧
      s = { waiting := b :: branchesAt S branches (S.others m) } := by
  have hasks := Schedule.asks_of_dueAt hpos hdue
  obtain ⟨r, v, hturn, hr, hv⟩ := hind.turn hb h.standing (hasks ▸ hT) (by rw [hasks]; exact hdue)
  rw [hasks] at hr
  have hsucc := S.asks_succ m
  rw [if_pos hdue] at hsucc
  refine ⟨r, v, hturn, hr, hsucc ▸ hv, ?_⟩
  have hwaiting := h.waiting
  rw [branchesAt_queue hpos hb, hdue, if_pos rfl] at hwaiting
  obtain ⟨waiting, block⟩ := s
  cases h.block
  cases hwaiting
  rfl

/-- **A slot at which nothing is given is passed over**, in one step at most. -/
theorem Between.skip (h : Between S branches Standing m s w) (hT : m / S.size < T)
    (hslot : S.slot m = none) :
    ∃ s' v c, c ≤ 1 ∧ Between S branches Standing (m + 1) s' v ∧ ∀ fuel,
      (roundRobin next nextBlock).pull (fuel + c) s w = (roundRobin next nextBlock).pull fuel s' v := by
  obtain ⟨b, hb⟩ := getElem?_slot hind.size hpos m
  have hqueue := branchesAt_queue_succ hpos hb
  rw [hslot] at hqueue
  have hnil : branchesAt S branches (S.queue (m + 1)) = branchesAt S branches (S.others m) := by
    simpa using hqueue
  cases hdue : S.dueAt m with
  | false =>
      have hasks := S.asks_succ m
      rw [hdue, if_neg Bool.false_ne_true] at hasks
      refine ⟨s, w, 0, Nat.zero_le 1, ⟨h.block, ?_, hasks ▸ h.standing⟩, fun _ => rfl⟩
      rw [h.waiting, hnil, branchesAt_queue hpos hb, hdue, if_neg Bool.false_ne_true, List.nil_append]
  | true =>
      obtain ⟨r, v, hturn, hr, hv, rfl⟩ := h.turn hind hpos hT hb hdue
      rw [hslot] at hr
      cases hr
      exact ⟨_, v, 1, Nat.le_refl 1, ⟨rfl, hnil.symm, hv⟩,
        fun fuel => Machine.pull_of_skip (roundRobin_of_none hturn) fuel⟩

/-- The turn at a slot begins. -/
theorem Between.pull (h : Between S branches Standing m s w) (hT : m / S.size < T)
    (hslot : S.slot m = some (c :: cs)) (fuel : ℕ) :
    ∃ a s' v, (roundRobin next nextBlock).pull (fuel + 2) s w = .ok (.item a s') v ∧ R c a ∧
      Inside R S branches Standing m cs s' v := by
  obtain ⟨b, hb⟩ := getElem?_slot hind.size hpos m
  have hsome : (S.slot m).isSome = true := by rw [hslot, Option.isSome_some]
  have hdue : S.dueAt m = true := by
    by_contra hdue
    rw [Schedule.slot_of_not_dueAt (eq_false_of_ne_true hdue)] at hslot
    cases hslot
  obtain ⟨r, v, hturn, hr, hv, rfl⟩ := h.turn hind hpos hT hb hdue
  rw [hslot] at hr
  obtain ⟨hblock⟩ := hr
  rcases roundRobin_of_some (branchesAt S branches (S.others m)) hturn with
    ⟨a, rfl, hstep⟩ | ⟨k, rfl, hstep⟩
  · obtain _ | ⟨hc, hcs⟩ := hblock
    cases hcs
    refine ⟨a, _, v, Machine.pull_of_give hstep (fuel + 1), hc, .done ⟨rfl, ?_, hv⟩⟩
    rw [branchesAt_queue_succ hpos hb, hsome, if_pos rfl]
  · obtain _ | ⟨hc, hcs⟩ := hblock
    refine ⟨_, _, v, ?_, hc, .block hsome hb hcs hv⟩
    rw [Machine.pull_of_skip hstep]
    exact Machine.pull_of_give rfl fuel

end

/-- A merge that has given everything of some slots passes them. -/
theorem Behind.settle (hind : Independent next nextBlock R S T branches Standing)
    (h : Behind R S branches Standing m s w) (hpos : 0 < m → 0 < S.size) (hT : ∀ n < m, n / S.size < T) :
    ∃ s' v c, c ≤ m + 1 ∧ Between S branches Standing m s' v ∧ ∀ fuel,
      (roundRobin next nextBlock).pull (fuel + c) s w = (roundRobin next nextBlock).pull fuel s' v := by
  induction h with
  | between h => exact ⟨_, _, 0, Nat.zero_le _, h, fun _ => rfl⟩
  | inside h =>
      obtain ⟨s', c, hc, hbetween, hpull⟩ := h.settle (hpos (Nat.succ_pos _))
      exact ⟨s', _, c, Nat.le_trans hc (Nat.le_add_left 1 _), hbetween, hpull⟩
  | @pass m s w _ hslot ih =>
      obtain ⟨s', v, c, hc, hbetween, hpull⟩ := ih (fun _ => hpos (Nat.succ_pos m)) fun n hn => hT n (Nat.lt_succ_of_lt hn)
      obtain ⟨s'', u, c', hc', hbetween', hpull'⟩ :=
        hbetween.skip hind (hpos (Nat.succ_pos m)) (hT m (Nat.lt_succ_self m)) hslot
      refine ⟨s'', u, c' + c, ?_, hbetween', fun fuel => ?_⟩
      · rw [Nat.add_comm c' c]
        exact Nat.add_le_add hc hc'
      · rw [← Nat.add_assoc, hpull, hpull']

/-- **The next item of a merge** that has given everything before a slot with a turn. -/
theorem Behind.pull (hind : Independent next nextBlock R S T branches Standing)
    (h : Behind R S branches Standing m s w) (hpos : 0 < S.size) (hT : ∀ n ≤ m, n / S.size < T)
    (hslot : S.slot m = some (c :: cs)) (hfuel : m + 3 ≤ fuel) :
    ∃ a s' v, (roundRobin next nextBlock).pull fuel s w = .ok (.item a s') v ∧ R c a ∧
      Inside R S branches Standing m cs s' v := by
  obtain ⟨s', v, n, hn, hbetween, hpull⟩ := h.settle hind (fun _ => hpos) fun n hn => hT n (Nat.le_of_lt hn)
  obtain ⟨a, s'', u, hitem, ha, hinside⟩ :=
    hbetween.pull hind hpos (hT m (Nat.le_refl m)) hslot (fuel - (n + 2))
  refine ⟨a, s'', u, ?_, ha, hinside⟩
  have hsum : fuel = fuel - (n + 2) + 2 + n := by omega
  rw [hsum, hpull, hitem]

/-- **The end of a merge** whose branches have all been found to have ended. -/
theorem Behind.pull_end (hind : Independent next nextBlock R S T branches Standing)
    (h : Behind R S branches Standing m s w) (hpos : 0 < m → 0 < S.size) (hT : ∀ n < m, n / S.size < T)
    (hqueue : S.queue m = []) (hfuel : m + 2 ≤ fuel) :
    ∃ v, (roundRobin next nextBlock).pull fuel s w = .ok (.ended none) v := by
  obtain ⟨s', v, n, hn, hbetween, hpull⟩ := h.settle hind hpos hT
  refine ⟨v, ?_⟩
  have hs : s' = { waiting := [] } := by
    obtain ⟨waiting, block⟩ := s'
    cases hbetween.block
    cases hbetween.waiting
    rw [hqueue]
    rfl
  have hsum : fuel = fuel - (n + 1) + 1 + n := by omega
  rw [hsum, hpull, hs]
  exact Machine.pull_of_finish rfl _

/-- The rest of a turn is given without asking any branch. -/
theorem Inside.pull (h : Inside R S branches Standing m (c :: cs) s w) (next : Source ω ε κ α)
    (nextBlock : Source ω ε β (List α)) (fuel : ℕ) :
    ∃ a s', (roundRobin next nextBlock).pull (fuel + 1) s w = .ok (.item a s') w ∧ R c a ∧
      Inside R S branches Standing m cs s' w := by
  cases h with
  | @block _ as k _ hslot hbranch has hstanding =>
      obtain _ | ⟨hc, hcs⟩ := has
      exact ⟨_, _, Machine.pull_of_give rfl fuel, hc, .block hslot hbranch hcs hstanding⟩

end GraphRoutes.Merge
