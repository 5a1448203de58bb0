/-
**Branches of one iterator.**

Functions of a route are applied to one iterator, which is split for them, or each to an iterator of its own.
If all that they do with the route is to read it, then it makes no difference: the branches give the same
items, in whatever order they are pulled, and so do the merges over them.  The iterator that is split gives
every item once, and it is never ahead of the reader that is furthest.

Main definitions:

* `GraphRoutes.Session.Serves` — what routes give to a consumer and to merges;
* `GraphRoutes.Session.Branching` — what functions make of one iterator, and of one for each.

Main results:

* `GraphRoutes.Session.Fleet.serves` — routes that are apart give what is in them;
* `GraphRoutes.Session.Fleet.exists_made`, `GraphRoutes.Session.OneShot.exists_branch` — functions are called,
  one after the other;
* `GraphRoutes.Session.branches_see_everything` — **every branch sees everything**.
-/
import GraphRoutes.Proofs.Session.Calls
import GraphRoutes.Proofs.Session.Collections
import GraphRoutes.Proofs.Session.Consumers
import GraphRoutes.Proofs.Session.Listeners

set_option relaxedAutoImplicit false
set_option autoImplicit false

namespace GraphRoutes.Session

open World Merge Filter

variable {α : Type}

/-! ### What routes give -/

/-- What the routes `rs` give, up to `T` items or turns of each: what is in `ys`, and what has been used by then
is as it should be. -/
structure Serves (H : Host) (B : Setting) (R : α → Value → Prop) (ys : List (Strand α))
    (hfair : ∀ y ∈ ys, y.Fair) (T : ℕ) (used : World → Prop) (rs : List Value) (w : World) : Prop where
  /-- In whatever order they are pulled, each gives its own items; and they can always be opened and pulled. -/
  consumed : ∀ {its : ℕ → Option Value} {given : ℕ → List (Option Value)} {own : Set ℕ} {v : World},
    Consumed H rs w its given own v → (∀ i, (given i).length ≤ T) → used v ∧
      (∀ (i : ℕ) y, ys[i]? = some y →
        List.Forall₂ (Option.Rel R) ((List.range (given i).length).map y.item?) (given i)) ∧
      (∀ (i : ℕ) r r', rs[i]? = some r → Handed r r' → its i = none → ∃ it u, openRoute r' v = .ok it u) ∧
      ∀ i it, its i = some it → (given i).length < T → ∃ x u, H.pull it v = .ok x u
  /-- A merge in turn gives the rounds of their turns, and ends if they all do. -/
  roundRobin : ∀ r, w.Lasts B r rs → ∃ it v, H.callOp .mergeRoundRobin [r] [] w = .ok it v ∧
    ∃ out u, Reads H it out v u ∧ List.Forall₂ R ((Schedule.ofStrands ys hfair).rounds T) out ∧
      ((∀ y ∈ ys, y.turn T = none) → ∃ u', H.pull it u = .ok none u')
  /-- A merge that reads one after the other gives all items of the first, then of the second, and so on, up to
  one that goes on. -/
  exhaustive : ∀ r, w.Lasts B r rs → ∃ it v, H.callOp .mergeExhaustive [r] [] w = .ok it v ∧
    ∀ L, (∀ (i : ℕ) y, i + 1 < L → ys[i]? = some y → y.turn T = none) →
      ∃ out u, Reads H it out v u ∧ List.Forall₂ R ((ys.take L).flatMap (·.items T)) out ∧
        (ys.length < L → ∃ u', H.pull it u = .ok none u')

section

variable {h : Host} {d e : ℕ} {B : Setting} {P : Set ℕ} {R : α → Value → Prop} {xs : Stream'.Seq α}
  {ys : List (Strand α)} {stands : List Value → Positions → Set ℕ → World → Prop} {u v w : World}
  {r fs : Value} {rs rs' functions : List Value} {used : World → Prop}

/-- **Routes that are apart give what is in them.** -/
theorem Fleet.serves (F : Fleet h e B R ys stands) (hfair : ∀ y ∈ ys, y.Fair)
    (hlimit : ∀ s n, Strand.chunked s n ∈ ys → (n : ℤ) ≤ sliceLimit)
    (hused : ∀ rs g P u, stands rs g P u → used u) (T : ℕ) :
    ∀ᶠ N in atTop, ∀ n, e + 3 ≤ n → ∀ w rs rs' v, Made B stands ys w rs v → List.Forall₂ Forwarded rs rs' →
      Serves ((h.grant N).up n) B R ys hfair T used rs' v := by
  obtain ⟨K, hK⟩ := exists_pulled_le ys (T + 2)
  filter_upwards [F.eventually_replies K (ys.length + 2 + ((T + 1) * ys.length + 4))] with N hN n hn w rs rs' v
    hmade hrs
  obtain ⟨hKN, hL, hreplies⟩ := hN
  obtain ⟨n, rfl⟩ := Nat.exists_eq_add_of_le' (Nat.le_trans (Nat.le_add_left 3 e) hn)
  have hA : ∀ k < K, ∀ n, e ≤ n → Answers ((h.grant N).up n) R ys (Since B v (stands rs)) k :=
    fun k hk n hn => (hreplies k hk n hn rs).answers
  have hm := fun r hr => hmade.mergeable (r := r) F hfair hlimit hrs hr
  have hlength : rs'.length = ys.length := hrs.length_eq.symm.trans hmade.length
  refine ⟨?_, fun r hr => ?_, fun r hr => ?_⟩
  · intro its given own u hu hT
    obtain ⟨-, hproper, -, g, P, hstands, hbegins⟩ := hmade
    have hproper' := hproper.forwarded hrs
    have hapart := F.apart hrs v
    have hstart := attending_start (g := g) (P := P) hapart hproper'.sources (fun i q c hq hc => by
        obtain ⟨c', hlt, hc'⟩ := hproper'.known i q hq
        cases hc.symm.trans hc'
        exact hlt) ⟨hstands, .refl B v⟩ fun i r y hr hy => by
          obtain ⟨r₀, hr₀, hhanded⟩ := exists_of_forall₂ hrs hr
          exact (hbegins i r₀ y hr₀ hy).forwarded hhanded
    have hfuel : K < ((h.grant N).up (n + 1)).fuel := by rwa [Host.fuel_up]
    have htwo : 1 < ((h.grant N).up (n + 1)).fuel := by
      rw [Host.fuel_up]
      exact (show 1 < N by omega)
    have hanswers : ∀ k < K, ∀ m, Answers (((h.grant N).up (n + 1)).up m) R ys (Since B v (stands rs)) k := by
      intro k hk m
      rw [up_add]
      exact hA k hk _ (by omega)
    have hK' : ∀ y ∈ ys, ∀ t < T + 2, y.pulled (t + 1) ≤ K := hK
    obtain ⟨⟨reserved, g', P', hattending⟩, hgiven⟩ := hu.exists_attending (H := (h.grant N).up (n + 1)) hapart
      hlength hfair hlimit hanswers hK' hfuel htwo hstart hT
    refine ⟨hused _ _ _ _ hattending.stands.1, hgiven, fun i r r' hr hhanded hi => ?_, fun i it hi hlt => ?_⟩
    · obtain ⟨x, u', -, -, -, hopen, -⟩ := hattending.opened_next hapart hlength hr hhanded hi
      exact ⟨x, u', hopen⟩
    · obtain ⟨z, u', -, -, -, hpull, -⟩ := hattending.pulled_next (H := (h.grant N).up (n + 1)) hapart hlength
        hfair hlimit hanswers hK' hfuel htwo hi hlt
      exact ⟨z, u', hpull⟩
  · refine ⟨_, _, callOp_mergeRoundRobin _ r v, ?_⟩
    exact (hm r hr.branches).reads_rounds (n := n + 1) (fun y hy t ht => hK y hy t (Nat.lt_succ_of_lt ht)) hA hKN
      (by omega) (by omega)
  · obtain ⟨p, outer, place, u, hcall, hat⟩ := (hm r hr.branches).exists_exhaustive
    refine ⟨_, u, hcall _, fun L hT => ?_⟩
    exact (hm r hr.branches).reads_each (n := n) (fun f P v' hv => hr v' hv.2) hT
      (fun y hy t ht => hK y hy t (Nat.lt_succ_of_lt ht)) hA hKN (by omega) (by omega) hat

end

/-! ### Calling the functions -/

section

variable {h H : Host} {d c m n place : ℕ} {B : Setting} {P : Set ℕ} {R : α → Value → Prop} {xs : Stream'.Seq α}
  {y : Strand α} {ys : List (Strand α)} {stands : List Value → Positions → Set ℕ → World → Prop}
  {source : ℕ → Set ℕ → World → Prop} {t u v w w₀ : World} {f f' fs it : Value}
  {rs readers functions functions' : List Value}

/-- The functions that are called are those of a sequence, in order. -/
theorem iterate_eq_branches (hfs : ∀ es k, fs ≠ .dict es k) : iterate fs = branches fs := by
  cases fs with
  | dict es k => exact absurd rfl (hfs es k)
  | _ => rfl

theorem collection?_of_branches? (hfs : ∀ es k, fs ≠ .dict es k) (hfunctions : w.branches? fs = some functions) :
    w.collection? fs = some functions := by
  cases fs with
  | dict es k => exact absurd rfl (hfs es k)
  | set => cases hfunctions
  | ref sort place =>
      cases sort with
      | bag => cases hfunctions
      | _ => exact hfunctions
  | _ => exact hfunctions

/-- No sources of blocks. -/
theorem proper_iterators (w : World) (cs : List ℕ) : w.Proper (cs.map (.ref .iterator)) := by
  have hnone : ∀ {k q : ℕ}, (cs.map (Value.ref .iterator))[k]? ≠ some (.ref .blocks q) := by
    intro k q hk
    obtain ⟨c, -, hc⟩ := List.mem_map.1 (List.mem_of_getElem? hk)
    cases hc
  exact ⟨fun i j q q' it hi => absurd hi hnone, fun k q hk => absurd hk hnone⟩

/-- **Functions are called, one after the other**, each on one of several iterators over `xs`. -/
theorem Fleet.exists_made (hlisten : List.Forall₂ (Listens h B w₀ R xs) functions ys)
    (F : Fleet h d B R (List.replicate functions.length (.plain xs)) stands) :
    ∃ e stands', Fleet h e B R ys stands' ∧
      (∀ rs g P w, stands' rs g P w → ∃ rs' g' P', stands rs' g' P' w) ∧
      ∀ᶠ N in atTop, ∀ n, e ≤ n → ∀ fs functions' (cs : List ℕ) P w,
        List.Forall₂ Forwarded functions functions' → (∀ es k, fs ≠ .dict es k) → w.Lasts B fs functions' →
        Retains B w₀ w → cs.length = functions.length → stands (cs.map (.ref .iterator)) (fun _ => none) P w →
        ∃ it u rs v, iterate fs w = .ok it u ∧
          ((h.grant N).up n).applyEach it (cs.map (.ref .iterator)) u = .ok rs v ∧ Made B stands' ys w rs v := by
  rw [← List.map_const', ← List.nil_append (List.map _ _)] at F
  obtain ⟨e, stands', F', hback, hcalls⟩ := Fleet.exists_results hlisten F
  refine ⟨e, stands', F', hback, ?_⟩
  filter_upwards [hcalls] with N hN n hn fs functions' cs P w hforwarded hfs hlasts hsince hlength hstands
  obtain ⟨k, hiterate, hcoming⟩ := iterate_coming hlasts.branches
  have hhas := (F.footing _).has _ _ _ hstands
  have hpush := uses_push w k
  have hpoised : Poised B w₀ stands ([] : List (Strand α)) fs functions' w.cursors.size 0 [] cs (fun _ => none) P
      { w with cursors := w.cursors.push k } :=
    ⟨(F.footing _).quiet _ _ _ _ hstands (hpush.spares_of_new hhas).quiet, proper_iterators _ cs, rfl,
      fun _ _ => rfl, nofun, hcoming, notMem_of_has hhas, hlasts.keeps hpush.retains,
      hsince.trans hpush.retains⟩
  obtain ⟨rs, v, happly, hmade⟩ := hN n hn fs functions' w.cursors.size 0 [] cs _ P _ hforwarded (Nat.zero_le _)
    hlength hpoised
  refine ⟨_, _, rs, v, ?_, happly, { hmade with retains := hpush.retains.trans hmade.retains }⟩
  rw [iterate_eq_branches hfs, hiterate]

/-! ### Branches of one iterator -/

theorem branch_of_copies (hfs : ∀ es k, fs ≠ .dict es k) (hfunctions : w.branches? fs = some functions)
    (hcopies : Host.copies (.ref .iterator c) functions.length w = .ok readers u)
    (hiterate : iterate fs u = .ok it t) (happly : H.applyEach it readers t = .ok rs v) :
    H.branch (.ref .iterator c) fs w = .ok rs v := by
  rw [Host.branch, Act.bind_of_ok (size_collection (collection?_of_branches? hfs hfunctions))]
  exact (Act.bind_of_ok hcopies).trans ((Act.bind_of_ok hiterate).trans happly)

/-- An iterator is split for functions, and what they make of it are routes that are apart from one another. -/
def Splits (H : Host) (B : Setting) (stands : List Value → Positions → Set ℕ → World → Prop)
    (ys : List (Strand α)) (it : Value) (functions : List Value) (w : World) : Prop :=
  ∀ fs functions' u, Quiet {c | c < w.cursors.size} w u → List.Forall₂ Forwarded functions functions' →
    (∀ es k, fs ≠ .dict es k) → u.Lasts B fs functions' → ∃ rs v, H.branch it fs u = .ok rs v ∧
      Made B stands ys u rs v

/-- **A one-shot iterator is split for the functions**, and they are called. -/
theorem OneShot.exists_branch (hit : OneShot h d B R xs source w place m it)
    (hlisten : List.Forall₂ (Listens h B w R xs) functions ys) :
    ∃ e stands, Fleet h e B R ys stands ∧ (∀ rs g P u, stands rs g P u → Furthest source place m u) ∧
      ∀ᶠ N in atTop, ∀ n, e ≤ n → Splits ((h.grant N).up n) B stands ys it functions w := by
  obtain ⟨readers, F, hfurthest, hreaders⟩ := hit.exists_fleet functions.length
  obtain ⟨e, stands, F', hback, hcalls⟩ := F.exists_made hlisten
  refine ⟨e, stands, F', fun rs g P u hu => ?_, ?_⟩
  · obtain ⟨rs', g', P', hu'⟩ := hback rs g P u hu
    exact hfurthest rs' g' P' u hu'
  filter_upwards [hcalls] with N hN n hn fs functions' u hquiet hforwarded hfs hlasts
  obtain ⟨cs, u', P, hcopies, hlength, hretains, hstands⟩ := hreaders u hquiet
  obtain ⟨called, t, rs, v, hiterate, happly, hmade⟩ := hN n hn fs functions' cs P u' hforwarded hfs
    (hlasts.keeps hretains) (hquiet.retains.trans hretains) hlength hstands
  refine ⟨rs, v, ?_, { hmade with retains := hretains.trans hmade.retains }⟩
  rw [hforwarded.length_eq] at hcopies
  cases hit with
  | whole | reader => exact branch_of_copies hfs hlasts.branches hcopies hiterate happly

/-- A new list stays as it is. -/
theorem lasts_newList (xs : List Value) (marks : ℕ) (hnew : v.lists.size ∉ B.lists) :
    World.Lasts B { v with marks, lists := v.lists.push xs.toArray } (.ref .list v.lists.size) xs := by
  intro u hu
  have hget := hu.same _ _ hnew Array.getElem?_push_size
  change u.collection? (.ref .list v.lists.size) = _
  rw [collection?, listAt, hget]
  rfl

/-- The results are handed out as a new list. -/
theorem Made.exists_list (hmade : Made B stands ys w rs v) (F : Fleet h d B R ys stands) (hold : w.Old B) :
    ∃ l rs' t, newList rs.toArray v = .ok (.ref .list l) t ∧ Made B stands ys w rs t ∧
      List.Forall₂ Forwarded rs rs' ∧ t.Lasts B (.ref .list l) rs' := by
  obtain ⟨rs', marks, hlist, hhanded⟩ := exists_newList rs v
  refine ⟨_, rs', _, hlist, hmade.quiet F.footing (fun P _ => quiet_newList P v marks _)
    (confined_newList v marks _), hhanded.imp fun _ _ => .inr, lasts_newList rs' marks fun hmem => ?_⟩
  exact Nat.not_lt_of_le hmade.retains.count (hold _ hmem)

end

/-! ### Functions under keys -/

/-- A dictionary as it is made: each entry is found under its key, and no two keys are the same. -/
structure Mapping (es : Indexed Key (Value × Value)) : Prop where
  found : ∀ e ∈ es.toList, ∃ k, e.1.key? = some k ∧ es.find? k = some e
  distinct : (es.toList.map (·.1.key?)).Nodup

section

variable {es : Indexed Key (Value × Value)} {m : Mark} {keys rs : List Value} {w : World}
  {d : Dictionary Key Value Value}

/-- The values of a dictionary are found under the keys that are read from it. -/
theorem mapM_item (hes : ∀ e ∈ es.toList, ∃ k, e.1.key? = some k ∧ es.find? k = some e)
    (hkeys : List.Forall₂ Handed (es.toList.map (·.1)) keys) :
    keys.mapM (item (.dict es m)) w = .ok (es.toList.map (·.2)) w := by
  generalize es.toList = entries at hes hkeys ⊢
  induction entries generalizing keys with
  | nil =>
      cases hkeys
      rfl
  | cons e entries ih =>
      obtain _ | ⟨hhanded, hrest⟩ := hkeys
      obtain ⟨k, hk, hfind⟩ := hes e List.mem_cons_self
      have hkey := keyOf_of_key? (w := w) (hhanded.key?_eq.trans hk)
      have hitem : item (.dict es m) _ w = .ok e.2 w :=
        (Act.bind_of_ok (m := get) rfl).trans ((Act.bind_of_ok hkey).trans (by rw [hfind]; rfl))
      rw [List.mapM_cons, Act.bind_of_ok hitem, Act.bind_of_ok (ih (fun e he => hes e (.tail _ he)) hrest)]
      rfl

/-- What is put under a key of a dictionary. -/
def putUnder (d : Dictionary Key Value Value) (e : Value × Value) : M (Dictionary Key Value Value) := do
  let key ← keyOf e.1
  pure (d.put key e.1 e.2)

/-- Values under new keys stand in their order. -/
theorem exists_foldlM_putUnder (d : Dictionary Key Value Value) (entries : List (Value × Value))
    (hkeys : ∀ e ∈ entries, e.1.key?.isSome = true)
    (hnew : (d.keys ++ entries.map (·.1.spell)).Nodup) :
    ∃ d', entries.foldlM putUnder d w = .ok d' w ∧
      d'.toList.map (fun e => (e.name, e.value)) = d.toList.map (fun e => (e.name, e.value)) ++ entries := by
  induction entries generalizing d with
  | nil => exact ⟨d, rfl, (List.append_nil _).symm⟩
  | cons e entries ih =>
      have hk := key?_eq_some_spell (hkeys e List.mem_cons_self)
      rw [List.map_cons, List.nodup_middle, List.nodup_cons] at hnew
      have hput := Dictionary.toList_put_of_notMem e.1 e.2
        (fun hmem => hnew.1 (List.mem_append_left _ hmem) : e.1.spell ∉ d.keys)
      have hnew' : ((d.put e.1.spell e.1 e.2).keys ++ entries.map (·.1.spell)).Nodup := by
        rw [Dictionary.keys, hput, List.map_append, List.append_assoc]
        exact List.nodup_middle.2 (List.nodup_cons.2 hnew)
      obtain ⟨d', hfold, hlist⟩ := ih _ (fun e he => hkeys e (.tail _ he)) hnew'
      refine ⟨d', ?_, ?_⟩
      · rw [List.foldlM_cons]
        have hstep : putUnder d e w = .ok (d.put e.1.spell e.1 e.2) w := Act.bind_of_ok (keyOf_of_key? hk)
        exact (Act.bind_of_ok hstep).trans hfold
      · rw [hlist, hput, List.map_append, List.append_assoc]
        rfl

/-- Results are kept under the keys that have been read. -/
theorem exists_foldlM_put (hes : Mapping es) (hkeys : List.Forall₂ Handed (es.toList.map (·.1)) keys)
    (hlength : keys.length = rs.length) :
    ∃ d, (keys.zip rs).foldlM putUnder .empty w = .ok d w ∧
      (d.indexed fun e => (e.name, e.value)).toList.map (·.2) = rs ∧
      (d.indexed fun e => (e.name, e.value)).toList.map (·.1.key?) = es.toList.map (·.1.key?) := by
  have hsame : keys.map Value.key? = es.toList.map (·.1.key?) := by
    rw [map_key?_of_handed hkeys, List.map_map]
    rfl
  have hkeyed : ∀ x ∈ keys, x.key?.isSome = true := by
    intro x hx
    have hmem := List.mem_map_of_mem (f := Value.key?) hx
    rw [hsame] at hmem
    obtain ⟨e, he, hex⟩ := List.mem_map.1 hmem
    obtain ⟨k, hk, -⟩ := hes.found e he
    rw [← hex, hk]
    rfl
  have hfirst : (keys.zip rs).map (·.1) = keys := List.map_fst_zip (Nat.le_of_eq hlength)
  have hspell : keys.map Value.key? = (keys.map Value.spell).map some := by
    rw [List.map_map]
    exact List.map_congr_left fun x hx => key?_eq_some_spell (hkeyed x hx)
  have hdistinct : (keys.map Value.spell).Nodup := .of_map some (hspell ▸ hsame ▸ hes.distinct)
  have hspells : (keys.zip rs).map (·.1.spell) = keys.map Value.spell :=
    (List.map_map (f := Prod.fst) (g := Value.spell)).symm.trans (congrArg _ hfirst)
  obtain ⟨d, hfold, hlist⟩ := exists_foldlM_putUnder (w := w) .empty (keys.zip rs)
    (fun e he => hkeyed e.1 (hfirst ▸ List.mem_map_of_mem he)) (hspells ▸ hdistinct)
  have hentries : (d.indexed fun e => (e.name, e.value)).toList = keys.zip rs :=
    Array.toList_map.trans hlist
  refine ⟨d, hfold, ?_, ?_⟩
  · rw [hentries]
    exact List.map_snd_zip (Nat.le_of_eq hlength.symm)
  · rw [hentries, ← hsame]
    exact (List.map_map (f := Prod.fst) (g := Value.key?)).symm.trans (congrArg _ hfirst)

end

/-! ### Branches of a list, and of a mapping -/

section

variable {h H : Host} {d m place : ℕ} {B : Setting} {R : α → Value → Prop} {xs : Stream'.Seq α}
  {ys : List (Strand α)} {stands : List Value → Positions → Set ℕ → World → Prop}
  {source : ℕ → Set ℕ → World → Prop} {u v w : World} {fs it : Value} {rs functions : List Value}
  {es : Indexed Key (Value × Value)} {mark : Mark}

/-- The branches of a list are a list. -/
theorem Splits.exists_list (hcalls : Splits H B stands ys it functions w) (F : Fleet h d B R ys stands)
    (hold : w.Old B) (hfs : ∀ es k, fs ≠ .dict es k) (hlasts : w.Lasts B fs functions) :
    ∃ l rs rs' v, H.callOp .branch [it, fs] [] w = .ok (.ref .list l) v ∧ Made B stands ys w rs v ∧
      List.Forall₂ Forwarded rs rs' ∧ v.Lasts B (.ref .list l) rs' := by
  have hsame : List.Forall₂ Forwarded functions functions := List.forall₂_same.2 fun _ _ => .inl rfl
  obtain ⟨rs, u, hbranch, hmade⟩ := hcalls fs functions w (Spares.refl _ w).quiet hsame hfs hlasts
  obtain ⟨l, rs', v, hlist, hmade', hforwarded, hlasts'⟩ := hmade.exists_list F hold
  have hperform : H.perform .branch { bound := [some it, some fs], extra := [] } w = .ok (.ref .list l) v :=
    (Act.bind_of_ok hbranch).trans hlist
  exact ⟨l, rs, rs', v, (callOp_of_ok rfl hperform).trans rfl, hmade', hforwarded, hlasts'⟩

/-- The branches of a mapping are a mapping, under the same keys. -/
theorem Splits.exists_mapping (hcalls : Splits H.above B stands ys it (es.toList.map (·.2)) w)
    (F : Fleet h d B R ys stands) (hold : w.Old B) (hes : Mapping es) (hys : es.toList.length = ys.length)
    (hfuel : es.toList.length < H.fuel) :
    ∃ es' mark' v, H.above.callOp .keyedBranch [it, .dict es mark] [] w = .ok (.dict es' mark') v ∧
      es'.toList.map (·.1.key?) = es.toList.map (·.1.key?) ∧
      Made B stands ys w (es'.toList.map (·.2)) v := by
  obtain ⟨keys, u, hkeys, hhanded, hkeeps⟩ := exists_items_collection (h := H) (w := w)
    (v := .dict es mark) rfl (by rwa [List.length_map])
  have hread : Spares {c | c < w.cursors.size} w u := ⟨hkeeps.rest, hkeeps.size, hkeeps.below⟩
  obtain ⟨functions, marks, hlist, hfunctions⟩ := exists_newList (es.toList.map (·.2)) u
  have hquiet := hread.quiet.trans (quiet_newList {c | c < w.cursors.size} u marks functions.toArray)
  have hlasts := lasts_newList functions marks fun hmem =>
    Nat.lt_irrefl _ (hread.lists_eq ▸ hold u.lists.size hmem)
  obtain ⟨rs, v, hbranch, hmade⟩ := hcalls (.ref .list u.lists.size) functions _ hquiet
    (hfunctions.imp fun _ _ => .inr) nofun hlasts
  have hlength : keys.length = rs.length := by
    rw [← hhanded.length_eq, List.length_map, hys, hmade.length]
  obtain ⟨d, hput, hvalues, hnames⟩ := exists_foldlM_put (w := v) hes hhanded hlength
  have hkeyed : H.above.keyedBranch it (.dict es mark) w = .ok (entriesOf d) v := by
    rw [Host.keyedBranch, Act.bind_of_ok hkeys, Act.bind_of_ok (mapM_item hes.found hhanded),
      Act.bind_of_ok hlist, Act.bind_of_ok hbranch]
    exact (Act.bind_of_ok hput).trans rfl
  have hperform : H.above.perform .keyedBranch { bound := [some it, some (.dict es mark)], extra := [] } w =
      .ok (entriesOf d) v := hkeyed
  obtain ⟨x, marks', hx, hhanded'⟩ := exists_handOut (entriesOf d) v
  obtain ⟨mark', rfl⟩ := hhanded'.exists_withMark nofun
  have hmade' : Made B stands ys w rs v := { hmade with retains := hquiet.retains.trans hmade.retains }
  refine ⟨d.indexed fun e => (e.name, e.value), mark', { v with marks := marks' },
    (callOp_of_ok rfl hperform).trans hx, hnames, ?_⟩
  rw [hvalues]
  exact hmade'.quiet F.footing (fun P _ => ⟨rfl, Nat.le_refl _, fun _ _ => rfl, fun _ _ => id⟩)
    ⟨Nat.le_refl _, fun _ _ _ => rfl, fun _ _ => id⟩

end

/-! ### Every branch sees everything -/

/-- The results of functions, each of which is called on an iterator of its own. -/
def Host.applySeparately (H : Host) (its : List Value) (fs : Value) : M Value := do
  let called ← iterate fs
  let rs ← H.applyEach called its
  newList rs.toArray

/-- **What a session makes of a one-shot iterator and functions of it**: branches that give what is in `ys`, up
to `T` items or turns of each. -/
structure Branching (H : Host) (B : Setting) (R : α → Value → Prop) (ys : List (Strand α))
    (hfair : ∀ y ∈ ys, y.Fair) (T : ℕ) (used : World → Prop) (it : Value) (functions : List Value)
    (w : World) : Prop where
  /-- The branches of a list of functions are a list. -/
  list : ∀ fs, (∀ es m, fs ≠ .dict es m) → w.Lasts B fs functions → ∃ l rs v,
    H.callOp .branch [it, fs] [] w = .ok (.ref .list l) v ∧ v.Lasts B (.ref .list l) rs ∧
    Serves H B R ys hfair T used rs v
  /-- The branches of a mapping are a mapping, under the same keys. -/
  mapping : ∀ es m, Mapping es → es.toList.map (·.2) = functions → ∃ es' m' v,
    H.callOp .keyedBranch [it, .dict es m] [] w = .ok (.dict es' m') v ∧
    es'.toList.map (·.1.key?) = es.toList.map (·.1.key?) ∧
    Serves H B R ys hfair T used (es'.toList.map (·.2)) v

section

variable {h : Host} {d m place : ℕ} {B : Setting} {R : α → Value → Prop} {xs : Stream'.Seq α}
  {ys : List (Strand α)} {source : ℕ → Set ℕ → World → Prop} {w : World} {it : Value} {functions : List Value}

/-- **Every branch sees everything.**  A one-shot iterator is split for functions that read their route: in
whatever order the branches are pulled, each gives the items that it would give of an iterator of its own, and
the one that is split has given no more than what the furthest of its readers has been given.  So merges over
the branches give what they give over functions of separate iterators. -/
theorem branches_see_everything (hit : OneShot h d B R xs source w place m it) (hold : w.Old B)
    (hlisten : List.Forall₂ (Listens h B w R xs) functions ys) (hfair : ∀ y ∈ ys, y.Fair)
    (hlimit : ∀ s n, Strand.chunked s n ∈ ys → (n : ℤ) ≤ sliceLimit) :
    (∃ e, ∀ T, ∀ᶠ N in atTop, ∀ n, e ≤ n →
      Branching ((h.grant N).up n) B R ys hfair T (Furthest source place m) it functions w) ∧
    ∀ ⦃d stands⦄, Fleet h d B R (List.replicate functions.length (.plain xs)) stands →
      ∃ e, ∀ T, ∀ᶠ N in atTop, ∀ n, e ≤ n → ∀ fs (cs : List ℕ) P u, (∀ es m, fs ≠ .dict es m) →
        u.Lasts B fs functions → Retains B w u → cs.length = functions.length →
        stands (cs.map (.ref .iterator)) (fun _ => none) P u → ∃ l rs v,
          ((h.grant N).up n).applySeparately (cs.map (.ref .iterator)) fs u = .ok (.ref .list l) v ∧
          v.Lasts B (.ref .list l) rs ∧
          Serves ((h.grant N).up n) B R ys hfair T (fun _ => True) rs v := by
  have hsame : ∀ rs : List Value, List.Forall₂ Forwarded rs rs := fun rs => List.forall₂_same.2 fun _ _ => .inl rfl
  constructor
  · obtain ⟨e, stands, F, hfurthest, hsplits⟩ := hit.exists_branch hlisten
    refine ⟨e + 3, fun T => ?_⟩
    filter_upwards [hsplits, F.serves hfair hlimit hfurthest T, eventually_gt_atTop functions.length] with N
      hsplits hserves hN n hn
    obtain ⟨n, rfl, hle⟩ := exists_level_below hn
    refine ⟨fun fs hfs hlasts => ?_, fun es mark hes hfunctions => ?_⟩
    · obtain ⟨l, rs, rs', v, hcall, hmade, hforwarded, hlasts'⟩ :=
        (hsplits (n + 1) (by omega)).exists_list F hold hfs hlasts
      exact ⟨l, rs', v, hcall, hlasts', hserves (n + 1) hn w rs rs' v hmade hforwarded⟩
    · subst hfunctions
      rw [List.length_map] at hN
      have hlength : es.toList.length = ys.length := by
        rw [← hlisten.length_eq, List.length_map]
      obtain ⟨es', mark', v, hcall, hkeys, hmade⟩ := Splits.exists_mapping (H := (h.grant N).up n)
        (hsplits (n + 1) (by omega)) F hold hes hlength (by rwa [Host.fuel_up])
      exact ⟨es', mark', v, hcall, hkeys, hserves (n + 1) hn w _ _ v hmade (hsame _)⟩
  · intro d stands F
    obtain ⟨e, stands', F', -, hcalls⟩ := F.exists_made hlisten
    refine ⟨e + 3, fun T => ?_⟩
    filter_upwards [hcalls, F'.serves hfair hlimit (fun _ _ _ _ _ => trivial) T] with N hcalls hserves n hn fs cs
      P u hfs hlasts hretains hlength hstands
    obtain ⟨called, t, rs, v, hiterate, happly, hmade⟩ :=
      hcalls n (by omega) fs functions cs P u (hsame _) hfs hlasts hretains hlength hstands
    obtain ⟨l, rs', t', hlist, hmade', hforwarded, hlasts'⟩ := hmade.exists_list F' (hold.keeps hretains)
    refine ⟨l, rs', t', ?_, hlasts', hserves n hn u rs rs' t' hmade' hforwarded⟩
    exact (Act.bind_of_ok hiterate).trans ((Act.bind_of_ok happly).trans hlist)

end

/-! ### Three functions of three numbers -/

/-- No lists change, and functions and names stay. -/
def programsStay : Setting where
  lists := ∅
  stays w v := (∀ (i : ℕ) f, w.functions[i]? = some f → v.functions[i]? = some f) ∧ v.bindings = w.bindings
  refl _ := ⟨fun _ _ => id, rfl⟩
  trans _ _ _ h h' := ⟨fun i f hf => h'.1 i f (h.1 i f hf), h'.2.trans h.2⟩
  reads w v hv := by rw [hv]; exact ⟨fun _ _ => id, rfl⟩

/-- Four iterators over three numbers, and a function that cuts its route into pairs. -/
def numbersToBranch : World where
  cursors := #[.items .tuple [.int 7, .int 8, .int 9], .items .tuple [.int 7, .int 8, .int 9],
    .items .tuple [.int 7, .int 8, .int 9], .items .tuple [.int 7, .int 8, .int 9]]
  functions := #[cutting 2]

/-- A function that makes a list, the one that cuts its route into pairs, and one that passes it on. -/
def numberFunctions : Value := .tuple [.op .listOf, .ref .function 0, .op .iterator] none

/-- A value is a number. -/
def IsNumber (a : ℤ) (v : Value) : Prop := v = .int a

theorem eq_map_of_isNumber {as : List ℤ} {vs : List Value} (h : List.Forall₂ IsNumber as vs) :
    vs = as.map Value.int := by
  induction h with
  | nil => rfl
  | cons ha _ ih => rw [ha, ih, List.map_cons]

/-- The numbers in a list, in pairs, and as they are. -/
def numberBranches : List (Strand ℤ) :=
  [.plain (.ofList [7, 8, 9]), .chunked (.ofList [7, 8, 9]) 2, .plain (.ofList [7, 8, 9])]

theorem fair_numberBranches : ∀ y ∈ numberBranches, y.Fair := by
  intro y hy
  simp only [numberBranches, List.mem_cons, List.not_mem_nil, or_false] at hy
  rcases hy with rfl | rfl | rfl
  · trivial
  · exact Nat.succ_pos 1
  · trivial

theorem limit_numberBranches : ∀ s n, Strand.chunked s n ∈ numberBranches → (n : ℤ) ≤ sliceLimit := by
  intro s n hs
  simp only [numberBranches, List.mem_cons, List.not_mem_nil, or_false, reduceCtorEq, false_or,
    Strand.chunked.injEq] at hs
  rw [hs.2]
  decide

theorem ended_numberBranches : ∀ y ∈ numberBranches, y.turn 4 = none := by
  intro y hy
  simp only [numberBranches, List.mem_cons, List.not_mem_nil, or_false] at hy
  rcases hy with rfl | rfl | rfl <;> rfl

/-- Three of the iterators are still to be read. -/
theorem abreast_numbers : Abreast programsStay [.int 7, .int 8, .int 9] 3
    ([1, 2, 3].map (.ref .iterator)) (fun _ => none) {c | c ∈ [1, 2, 3]} numbersToBranch := by
  refine ⟨[1, 2, 3], rfl, rfl, by decide, rfl, nofun, fun i c hc => ?_⟩
  match i, hc with
  | 0, hc | 1, hc | 2, hc =>
      cases hc
      exact .items .tuple rfl

/-- An action makes a list of routes, and a merge in turn over them gives `out`. -/
def MakesRoutes (H : Host) (make : M Value) (w : World) (out : List Value) : Prop :=
  ∃ l v it u t, make w = .ok (.ref .list l) v ∧
    H.callOp .mergeRoundRobin [.ref .list l] [] v = .ok it u ∧ Gives H it out u t

/-- What a merge in turn gives over the branches of three numbers. -/
theorem makesRoutes_numbers {H : Host} {make : M Value} {w v : World} {l : ℕ} {rs : List Value}
    {used : World → Prop} (hmake : make w = .ok (.ref .list l) v) (hlasts : v.Lasts programsStay (.ref .list l) rs)
    (hserves : Serves H programsStay IsNumber numberBranches fair_numberBranches 4 used rs v) :
    MakesRoutes H make w [.int 7, .int 7, .int 8, .int 7, .int 8, .int 9, .int 8, .int 9, .int 9] := by
  obtain ⟨it, u, hmerge, out, t, hreads, hout, hended⟩ := hserves.roundRobin _ hlasts
  obtain ⟨t', hend⟩ := hended ended_numberBranches
  obtain rfl := eq_map_of_isNumber hout
  exact ⟨l, v, it, u, t', hmake, hmerge, hreads.gives hend⟩

/-- Three numbers are put into a list, cut into pairs and passed on; merges over the branches of one iterator
and over the routes of three iterators give the same. -/
theorem branches_see_everything_numbers :
    ∃ e, ∀ᶠ N in atTop, ∀ n, e ≤ n →
      MakesRoutes (((host 0).grant N).up n)
        ((((host 0).grant N).up n).callOp .branch [.ref .iterator 0, numberFunctions] []) numbersToBranch
        [.int 7, .int 7, .int 8, .int 7, .int 8, .int 9, .int 8, .int 9, .int 9] ∧
      MakesRoutes (((host 0).grant N).up n)
        ((((host 0).grant N).up n).applySeparately [.ref .iterator 1, .ref .iterator 2, .ref .iterator 3]
          numberFunctions) numbersToBranch
        [.int 7, .int 7, .int 8, .int 7, .int 8, .int 9, .int 8, .int 9, .int 9] := by
  have hR : ∀ a x x', IsNumber a x → Handed x x' → IsNumber a x' := by
    rintro a x x' rfl hhanded
    exact hhanded.eq_of_marked rfl
  have hnumbers : List.Forall₂ IsNumber [7, 8, 9] [.int 7, .int 8, .int 9] :=
    .cons rfl (.cons rfl (.cons rfl .nil))
  have hold : numbersToBranch.Old programsStay := nofun
  have hit : OneShot (host 0) 1 programsStay IsNumber (.ofList [7, 8, 9]) _ numbersToBranch
      0 0 (.ref .iterator 0) :=
    .whole rfl nofun (spring_items hR hnumbers (host 0) programsStay 0 0) ⟨rfl, 0, .items .tuple rfl, rfl⟩
  have hchunked : Listens (host 0) programsStay numbersToBranch IsNumber
      (.ofList [7, 8, 9]) (.ref .function 0) (.chunked (.ofList [7, 8, 9]) 2) :=
    listens_chunked (by decide) fun w hw => ⟨hw.stays.1 0 _ rfl, by rw [hw.stays.2]; rfl⟩
  have hlisten := List.Forall₂.cons (listens_list hold) (.cons hchunked (.cons listens_iterator .nil))
  obtain ⟨⟨e, hbranches⟩, hseparate⟩ :=
    branches_see_everything hit hold hlisten fair_numberBranches limit_numberBranches
  obtain ⟨e', happly⟩ := hseparate (fleet_items hR hnumbers (host 0) programsStay 3)
  refine ⟨max e e', ?_⟩
  filter_upwards [hbranches 4, happly 4] with N hN hN' n hn
  constructor
  · obtain ⟨l, rs, v, hcall, hlasts, hserves⟩ :=
      (hN n (Nat.le_trans (Nat.le_max_left e e') hn)).list numberFunctions nofun fun v _ => rfl
    exact makesRoutes_numbers hcall hlasts hserves
  · obtain ⟨l, rs, v, hcall, hlasts, hserves⟩ := hN' n (Nat.le_trans (Nat.le_max_right e e') hn) numberFunctions
      [1, 2, 3] _ numbersToBranch nofun (fun v _ => rfl) (.refl _ _) rfl abreast_numbers
    exact makesRoutes_numbers hcall hlasts hserves

end GraphRoutes.Session
