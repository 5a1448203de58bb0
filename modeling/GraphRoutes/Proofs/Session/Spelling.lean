/-
**Values with keys are equal if their keys are.**

A set tells its members by their keys, and a tuple compares what is asked for with one item after the
other.  Both say the same of a value that has a key, whatever it is made of.

A key is a sequence of tokens, and each token tells how many keys follow it.  So a key has an end that can be
told from what comes after it (`GraphRoutes.Session.Word.append_inj`), and a row of keys falls apart in one
way only.  An equality looks at no more than that: at a first token, and then at the parts, or at the whole
key where there are no parts to look at.

A comparison is given up at some depth, and a key is not.  A value that can be compared with itself can be
compared with any other that has a key, as two values are taken apart no further than they agree.

Main definitions:

* `GraphRoutes.Session.Token.arity` — how many keys follow a token;
* `GraphRoutes.Session.Word` — sequences of tokens that are complete;
* `GraphRoutes.Session.Drawn` — how a value is taken apart, by its key;
* `GraphRoutes.Session.World.Comparable` — values that can be compared with themselves.

Main results:

* `GraphRoutes.Session.Word.append_inj` — a key ends where it ends;
* `GraphRoutes.Session.Value.word_spell` — every value is spelled as one key;
* `GraphRoutes.Session.World.sameTo_eq`, `GraphRoutes.Session.World.same_eq` — **values with keys are
  equal if these are**;
* `GraphRoutes.Session.World.comparable_of_length` — only what has a very long key cannot be compared;
* `GraphRoutes.Session.World.member_eq` — so membership among values is membership among keys.
-/
import GraphRoutes.Proofs.Elements

set_option relaxedAutoImplicit false
set_option autoImplicit false

namespace GraphRoutes.Session

/-! ### Keys that are complete -/

/-- How many keys follow a token. -/
def Token.arity : Token → ℕ
  | .tuple n | .list n | .set n | .orderedPath n => n
  | .dict n => 2 * n
  | .wrapper | .trackedGraph | .method _ => 1
  | .condition _ | .resolution | .failsafe => 2
  | .checkpoint => 3
  | .config => 4
  | _ => 0

/-- A token with all that follows it. -/
inductive Word : Key → Prop
  | mk (t : Token) (ws : List Key) : ws.length = t.arity → (∀ w ∈ ws, Word w) →
      Word (t :: ws.flatten)

namespace Word

variable {u v r s : Key}

/-- A row of words falls apart in one way only, if each of them does. -/
theorem flatten_append_inj {us vs : List Key}
    (hus : ∀ u ∈ us, ∀ {v r s : Key}, Word v → u ++ r = v ++ s → u = v ∧ r = s)
    (hvs : ∀ v ∈ vs, Word v) (hlength : us.length = vs.length) (h : us.flatten ++ r = vs.flatten ++ s) :
    us = vs ∧ r = s := by
  induction us generalizing vs with
  | nil =>
      obtain rfl := List.length_eq_zero_iff.1 hlength.symm
      exact ⟨rfl, h⟩
  | cons u us ih =>
      cases vs with
      | nil => cases hlength
      | cons v vs =>
          rw [List.flatten_cons, List.flatten_cons, List.append_assoc, List.append_assoc] at h
          obtain ⟨rfl, hrest⟩ := hus u List.mem_cons_self (hvs v List.mem_cons_self) h
          obtain ⟨rfl, hrs⟩ := ih (fun u hu => hus u (List.mem_cons_of_mem _ hu))
            (fun v hv => hvs v (List.mem_cons_of_mem _ hv)) (Nat.succ.inj hlength) hrest
          exact ⟨rfl, hrs⟩

/-- **A word ends where it ends**, whatever comes after it. -/
theorem append_inj (hu : Word u) (hv : Word v) (h : u ++ r = v ++ s) : u = v ∧ r = s := by
  induction hu generalizing v r s with
  | mk t ws hlength _ ih =>
      cases hv with
      | mk t' ws' hlength' hws' =>
          -- both begin with one token, so as many words follow in both
          obtain ⟨rfl, hrest⟩ := List.cons_eq_cons.1 h
          obtain ⟨rfl, hrs⟩ := flatten_append_inj (fun w hw => ih w hw) hws'
            (hlength.trans hlength'.symm) hrest
          exact ⟨rfl, hrs⟩

/-- Rows of as many words are the same if they are spelled the same. -/
theorem flatten_inj {us vs : List Key} (hus : ∀ u ∈ us, Word u) (hvs : ∀ v ∈ vs, Word v)
    (hlength : us.length = vs.length) (h : us.flatten = vs.flatten) : us = vs :=
  (flatten_append_inj (r := []) (s := []) (fun u hu _ _ _ hv => (hus u hu).append_inj hv) hvs hlength
    (by rw [h])).1

/-- A token after which nothing follows. -/
theorem single {t : Token} (h : t.arity = 0) : Word [t] := .mk t [] h.symm (List.forall_mem_nil _)

/-- A token after which one word follows. -/
theorem cons {t : Token} (h : t.arity = 1) (hu : Word u) : Word (t :: u) := by
  have hword := Word.mk t [u] h.symm fun w hw => List.mem_singleton.1 hw ▸ hu
  rwa [List.flatten_singleton] at hword

/-- A wrapper around a word is one. -/
theorem wrapped (hu : Word u) : Word (Key.wrapped u) := by
  induction hu with
  | mk t ws hlength hws ih =>
      have hword : Word (t :: ws.flatten) := .mk t ws hlength hws
      cases t with
      | trackedGraph =>
          obtain ⟨w, rfl⟩ := List.length_eq_one_iff.1 hlength
          rw [List.flatten_singleton]
          exact ih w List.mem_cons_self
      | vertex | edge | bareEdge | wrapper => exact hword
      | _ => exact cons rfl hword

end Word

namespace Value

theorem spellAll_eq (xs : List Value) : spellAll xs = (xs.map spell).flatten := by
  induction xs with
  | nil => rfl
  | cons x xs ih => rw [spellAll, ih]; rfl

theorem spellEach_eq (xs : List Value) : spellEach xs = xs.map spell := by
  induction xs with
  | nil => rfl
  | cons x xs ih => rw [spellEach, ih]; rfl

theorem spellEntries_eq (es : List (Value × Value)) :
    spellEntries es = (es.flatMap fun e => [spell e.1, spell e.2]).flatten := by
  induction es with
  | nil => rfl
  | cons e es ih => rw [spellEntries, ih]; simp

/-- A token and the values that follow it. -/
theorem word_of_parts (t : Token) (xs : List Value) (hlength : xs.length = t.arity)
    (hxs : ∀ x ∈ xs, Word x.spell) {u : Key} (hu : u = t :: (xs.map spell).flatten) : Word u := by
  rw [hu]
  refine .mk t _ (by rw [List.length_map, hlength]) fun w hw => ?_
  obtain ⟨x, hx, rfl⟩ := List.mem_map.1 hw
  exact hxs x hx

/-- The members of a set, in whatever order. -/
theorem word_ofSet {ks : List Key} (hks : ∀ k ∈ ks, Word k) : Word (Key.ofSet ks) := by
  have hperm : (Key.sort ks).Perm ks := List.mergeSort_perm ks Key.le
  exact .mk (.set ks.length) (Key.sort ks) hperm.length_eq fun w hw => hks w (hperm.mem_iff.1 hw)

mutual

/-- **Every value is spelled as one key.** -/
theorem word_spell : (v : Value) → Word v.spell
  | null | bool _ | int _ | str _ | action _ | op _ | ref _ _ | vertex _ _ => .single rfl
  | edge (.stored _ _) _ | edge (.bare _) _ => .single rfl
  | typedId k i =>
      word_of_parts (.tuple 2) [k, i] rfl (by simp [word_spell k, word_spell i])
        (by simp [spell])
  | instruction e d c r =>
      word_of_parts (.tuple 4) [e, d, c, r] rfl
        (by simp [word_spell e, word_spell d, word_spell c, word_spell r]) (by simp [spell])
  | method m self => by
      rw [spell]
      cases self.mark with
      | some n => exact .cons rfl (.single rfl)
      | none => exact .cons rfl (word_spell self)
  | tuple xs _ => word_of_parts _ xs rfl (word_each xs) (by rw [spell, spellAll_eq])
  | dict ⟨⟨es⟩, _⟩ _ => by
      refine word_of_parts (.dict es.length) (es.flatMap fun e => [e.1, e.2]) ?_ ?_ ?_
      · simp [Token.arity, Nat.mul_comm, List.map_const']
      · intro x hx
        obtain ⟨e, he, hx⟩ := List.mem_flatMap.1 hx
        have hwords := word_entries es e he
        rcases List.mem_cons.1 hx with rfl | hx
        · exact hwords.1
        · exact List.mem_singleton.1 hx ▸ hwords.2
      · rw [spell, spellEntries_eq, List.map_flatMap]
        rfl
  | set ⟨⟨xs⟩, _⟩ _ => by
      rw [spell, spellEach_eq]
      exact word_ofSet (List.forall_mem_map.2 (word_each xs))
  | orderedPath ⟨⟨xs⟩, _⟩ _ => word_of_parts _ xs rfl (word_each xs) (by rw [spell, spellAll_eq])
  | tracked x => word_spellNode x
  | trackedGraph g _ => .cons rfl (word_spell g)
  | condition kind v m _ _ =>
      word_of_parts (.condition kind) [v, m] rfl (by simp [word_spell v, word_spell m])
        (by simp [spell])
  | resolution a v _ =>
      word_of_parts .resolution [a, v] rfl (by simp [word_spell a, word_spell v])
        (by simp [spell])
  | checkpoint p e d _ =>
      word_of_parts .checkpoint [p, e, d] rfl
        (by simp [word_spell p, word_spell e, word_spell d]) (by simp [spell])
  | failsafe c n _ =>
      word_of_parts .failsafe [c, n] rfl (by simp [word_spell c, word_spell n])
        (by simp [spell])
  | config c i p d _ =>
      word_of_parts .config [c, i, p, d] rfl
        (by simp [word_spell c, word_spell i, word_spell p, word_spell d]) (by simp [spell])

theorem word_each : (xs : List Value) → ∀ x ∈ xs, Word x.spell
  | [] => List.forall_mem_nil _
  | x :: xs => List.forall_mem_cons.2 ⟨word_spell x, word_each xs⟩

theorem word_entries : (es : List (Value × Value)) → ∀ e ∈ es, Word e.1.spell ∧ Word e.2.spell
  | [] => List.forall_mem_nil _
  | (k, v) :: es => List.forall_mem_cons.2 ⟨⟨word_spell k, word_spell v⟩, word_entries es⟩

theorem word_spellNode : (x : Node) → Word (spellNode x)
  | .plain v => (word_spell v).wrapped
  | .root _ x _ => word_spellNode x
  | .via _ x _ _ => word_spellNode x

end

theorem allLasting_iff (xs : List Value) : allLasting xs = true ↔ ∀ x ∈ xs, x.lasting = true := by
  induction xs with
  | nil => simp [allLasting]
  | cons x xs ih => rw [allLasting, Bool.and_eq_true, ih, List.forall_mem_cons]

end Value

/-! ### How a value is taken apart -/

/-- Whether a comparison looks at what follows a token value by value. -/
def Token.opens : Token → Bool
  | .tuple _ | .list _ | .orderedPath _ | .wrapper | .trackedGraph | .condition _ | .resolution
  | .checkpoint | .failsafe | .config => true
  | _ => false

open Value

/-- A value that is spelled `u` is taken apart into a beginning and parts: behind a token that opens
it, or not at all. -/
inductive Drawn : Key → Key × List Value → Prop
  | whole {t : Token} {u : Key} : t.opens = false → Drawn (t :: u) (t :: u, [])
  | parts {t : Token} {xs : List Value} : t.opens = true → xs.length = t.arity →
      (∀ x ∈ xs, x.lasting = true) → Drawn (t :: (xs.map spell).flatten) ([t], xs)

theorem Drawn.of_parts {t : Token} {xs : List Value} {u : Key} (ht : t.opens = true)
    (hlength : xs.length = t.arity) (hxs : ∀ x ∈ xs, x.lasting = true)
    (hu : u = t :: (xs.map spell).flatten) : Drawn u ([t], xs) :=
  hu ▸ .parts ht hlength hxs

/-- A wrapper around a wrapper adds nothing. -/
theorem Key.wrapped_wrapped (k : Key) : Key.wrapped (Key.wrapped k) = Key.wrapped k := by
  induction k with
  | nil => rfl
  | cons t k ih =>
      cases t with
      | trackedGraph => exact ih
      | _ => rfl

/-- How a wrapped element is taken apart, by what is under its layers. -/
def Value.unwrapped (v : Value) : Key × List Value :=
  if v.isElement then (v.spell, []) else ([.wrapper], [v])

theorem Drawn.wrapper {v : Value} (hv : v.lasting = true) : Drawn (.wrapper :: v.spell) ([.wrapper], [v]) :=
  .of_parts rfl rfl (by simpa using hv) (by simp)

mutual

/-- What is wrapped is taken apart by the key of the wrapper. -/
theorem drawn_stripAll : (v : Value) → v.lasting = true →
    Drawn (Key.wrapped v.spell) v.stripAll.unwrapped
  | .tracked x, hv => by
      have hspell : Key.wrapped (tracked x).spell = spellNode x := by
        rw [spell, spellNode_eq, Key.wrapped_wrapped]
      rw [hspell]
      exact drawn_stripNode x hv
  | .trackedGraph g _, hv => drawn_stripAll g hv
  | .vertex _ _, _ => .whole rfl
  | .edge (.stored _ _) _, _ | .edge (.bare _) _, _ => .whole rfl
  | .null, hv | .bool _, hv | .int _, hv | .str _, hv | .typedId _ _, hv | .instruction _ _ _ _, hv
  | .action _, hv | .op _, hv | .ref _ _, hv | .method _ _, hv | .tuple _ _, hv | .dict _ _, hv
  | .set _ _, hv | .orderedPath _ _, hv | .condition _ _ _ _ _, hv | .resolution _ _ _, hv
  | .checkpoint _ _ _ _, hv | .failsafe _ _ _, hv | .config _ _ _ _ _, hv =>
      .wrapper hv

theorem drawn_stripNode : (x : Node) → nodeLasting x = true →
    Drawn (spellNode x) (stripNode x).unwrapped
  | .plain v, hx => drawn_stripAll v hx
  | .root _ x _, hx => drawn_stripNode x hx
  | .via _ x _ _, hx => drawn_stripNode x hx

end

namespace World

variable (w : World) {a b v x : Value}

/-- **A value that may be stored is taken apart by its key.** -/
theorem drawn_outline (hv : v.lasting = true) : Drawn v.spell (w.outline v) := by
  cases v with
  | null | bool | int | str | action | op | vertex | method | set => exact .whole rfl
  | edge e => cases e <;> exact .whole rfl
  | ref sort place =>
      cases sort with
      | list | bag => cases hv
      | _ => exact .whole rfl
  | dict => cases hv
  | tuple xs m => exact .of_parts rfl rfl ((allLasting_iff xs).1 hv) (by rw [spell, spellAll_eq])
  | orderedPath xs m =>
      exact .of_parts rfl rfl ((allLasting_iff _).1 hv) (by rw [spell, spellAll_eq]; rfl)
  | tracked x => exact drawn_stripNode x hv
  | typedId | instruction | trackedGraph | condition | resolution | checkpoint | failsafe | config =>
      refine .of_parts rfl rfl ?_ (by simp [spell])
      simpa [lasting, and_assoc] using hv

/-- Two values that are taken apart are spelled the same if they begin alike and their parts are. -/
theorem spell_eq_iff (ha : a.lasting = true) (hb : b.lasting = true) :
    a.spell = b.spell ↔ (w.outline a).1 = (w.outline b).1 ∧
      (w.outline a).2.map spell = (w.outline b).2.map spell := by
  have ha := w.drawn_outline ha
  have hb := w.drawn_outline hb
  generalize a.spell = u, w.outline a = x at ha
  generalize b.spell = v, w.outline b = y at hb
  cases ha with
  | @whole t u ht =>
      cases hb with
      | whole hs => simp
      | @parts s ys hs =>
          have hne : t ≠ s := fun h => by rw [h, hs] at ht; cases ht
          simp [hne]
  | @parts t xs ht hlength =>
      cases hb with
      | @whole s v hs =>
          have hne : t ≠ s := fun h => by rw [h, hs] at ht; cases ht
          simp [hne]
      | @parts s ys hs hlength' =>
          have words : ∀ zs : List Value, ∀ k ∈ zs.map spell, Word k := fun zs =>
            List.forall_mem_map.2 fun z _ => word_spell z
          constructor
          · intro h
            obtain ⟨rfl, hrest⟩ := List.cons_eq_cons.1 h
            refine ⟨rfl, Word.flatten_inj (words xs) (words ys) ?_ hrest⟩
            rw [List.length_map, List.length_map, hlength, hlength']
          · rintro ⟨hts, hrest⟩
            cases hts
            rw [hrest]

theorem lasting_of_mem_outline (hv : v.lasting = true) (hx : x ∈ (w.outline v).2) :
    x.lasting = true := by
  have hv := w.drawn_outline hv
  generalize v.spell = u, w.outline v = y at hv hx
  cases hv with
  | whole => cases hx
  | parts _ _ hxs => exact hxs x hx

/-! ### Comparisons -/

/-- What is compared in pairs is compared by its keys, if that is true of each pair. -/
theorem pairwise_eq {eq : Value → Value → Except Fault Bool} {as bs : List Value}
    (hself : pairwise eq bs bs = .ok true)
    (heq : ∀ a ∈ as, ∀ b ∈ bs, eq b b = .ok true → eq a b = .ok (decide (a.spell = b.spell))) :
    pairwise eq as bs = .ok (decide (as.map spell = bs.map spell)) := by
  induction as generalizing bs with
  | nil => cases bs <;> rfl
  | cons a as ih =>
      cases bs with
      | nil => rfl
      | cons b bs =>
          -- the second list is found equal to itself pair by pair
          obtain ⟨hb, hbs⟩ : eq b b = .ok true ∧ pairwise eq bs bs = .ok true := by
            rw [pairwise] at hself
            rcases hb : eq b b with e | _ | _
            · rw [hb] at hself; cases hself
            · rw [hb] at hself; cases hself
            · rw [hb] at hself; exact ⟨rfl, hself⟩
          have hab := heq a List.mem_cons_self b List.mem_cons_self hb
          have hrest := ih hbs fun a ha b hb =>
            heq a (List.mem_cons_of_mem _ ha) b (List.mem_cons_of_mem _ hb)
          rw [pairwise, hab]
          by_cases hspell : a.spell = b.spell
          · simp only [hspell, decide_true, List.map_cons, List.cons.injEq, true_and]
            exact hrest
          · simp only [hspell, decide_false, List.map_cons, List.cons.injEq, false_and]
            rfl

theorem outlined_eq (depth : ℕ) (a b : Value) :
    sameTo.outlined w depth a b = if (w.outline a).1 = (w.outline b).1 then
      pairwise (w.sameTo depth) (w.outline a).2 (w.outline b).2 else .ok false := by
  rw [sameTo.outlined]
  simp only [beq_iff_eq]

/-- Numbers, texts and places are compared by their outlines as well. -/
theorem sameTo_succ_of_lasting (ha : a.lasting = true) (depth : ℕ) :
    w.sameTo (depth + 1) a b = sameTo.outlined w depth a b := by
  cases a with
  | int m =>
      cases b with
      | int n => by_cases h : m = n <;> simp [sameTo, outlined_eq, outline, spell, pairwise, h]
      | _ => simp only [sameTo]
  | str s =>
      cases b with
      | str t => by_cases h : s = t <;> simp [sameTo, outlined_eq, outline, spell, pairwise, h]
      | _ => simp only [sameTo]
  | ref s p =>
      cases b with
      | ref t q =>
          have hparts : (w.outline (.ref s p)).2 = [] := by
            cases s with
            | list | bag => cases ha
            | _ => rfl
          by_cases h : s = t ∧ p = q
          · obtain ⟨rfl, rfl⟩ := h
            rw [outlined_eq, if_pos rfl, hparts]
            simp [sameTo, pairwise]
          · have hne : (s == t && p == q) = false := by simpa using h
            simp [sameTo, hne]
      | _ => simp only [sameTo]
  | _ => simp only [sameTo]

/-- A comparison of values with keys compares these, however deep it may look, if it may look deep enough
to find the second one equal to itself. -/
theorem sameTo_eq (ha : a.lasting = true) (hb : b.lasting = true) {depth : ℕ}
    (hself : w.sameTo depth b b = .ok true) :
    w.sameTo depth a b = .ok (decide (a.spell = b.spell)) := by
  induction depth generalizing a b with
  | zero => simp [sameTo] at hself
  | succ depth ih =>
      rw [sameTo_succ_of_lasting w hb, outlined_eq, if_pos rfl] at hself
      rw [sameTo_succ_of_lasting w ha, outlined_eq]
      -- the parts of `b` are compared with themselves one level below, so they are not too deep for it
      have hparts : pairwise (w.sameTo depth) (w.outline a).2 (w.outline b).2 =
          .ok (decide ((w.outline a).2.map spell = (w.outline b).2.map spell)) :=
        pairwise_eq hself fun x hx y hy hy' =>
          ih (w.lasting_of_mem_outline ha hx) (w.lasting_of_mem_outline hb hy) hy'
      simp only [hparts, w.spell_eq_iff ha hb]
      by_cases hbegin : (w.outline a).1 = (w.outline b).1
      · simp [hbegin]
      · simp [hbegin]

/-- A value that can be compared with itself. -/
def Comparable (v : Value) : Prop := w.same v v = .ok true

/-- What is compared in pairs with itself is found equal if each part is. -/
theorem pairwise_self {eq : Value → Value → Except Fault Bool} {xs : List Value}
    (h : ∀ x ∈ xs, eq x x = .ok true) : pairwise eq xs xs = .ok true := by
  induction xs with
  | nil => rfl
  | cons x xs ih =>
      rw [List.forall_mem_cons] at h
      rw [pairwise, h.1]
      exact ih h.2

/-- **A comparison need look no deeper than a key is long.** -/
theorem sameTo_self (hv : v.lasting = true) {depth : ℕ} (hdepth : v.spell.length ≤ depth) :
    w.sameTo depth v v = .ok true := by
  induction depth generalizing v with
  | zero =>
      have hword := word_spell v
      rw [List.length_eq_zero_iff.1 (Nat.le_zero.1 hdepth)] at hword
      cases hword
  | succ depth ih =>
      rw [sameTo_succ_of_lasting w hv, outlined_eq, if_pos rfl]
      refine pairwise_self fun x hx => ih (w.lasting_of_mem_outline hv hx) ?_
      -- the key of a part stands in the key of the whole, behind its first token
      have hdrawn := w.drawn_outline hv
      generalize v.spell = u, w.outline v = y at hdrawn hdepth hx
      cases hdrawn with
      | whole => cases hx
      | @parts t xs _ _ _ =>
          have hpart : x.spell.length ≤ ((xs.map spell).flatten).length :=
            (List.sublist_flatten_of_mem (List.mem_map_of_mem hx)).length_le
          rw [List.length_cons] at hdepth
          omega

/-- Only what has a very long key may be too deep to be compared. -/
theorem comparable_of_length (hv : v.lasting = true) (hlength : v.spell.length ≤ depthLimit) :
    w.Comparable v := w.sameTo_self hv hlength

/-- **Values with keys are equal if these are.** -/
theorem same_eq (ha : a.lasting = true) (hb : b.lasting = true) (hself : w.Comparable b) :
    w.same a b = .ok (decide (a.spell = b.spell)) :=
  w.sameTo_eq ha hb hself

/-- Among values with keys, one that has a key is found by it. -/
theorem member_eq {xs : List Value} (hxs : ∀ x ∈ xs, x.lasting = true) (hb : b.lasting = true)
    (hself : w.Comparable b) : w.member b xs = .ok (xs.any fun x => decide (x.spell = b.spell)) := by
  induction xs with
  | nil => rfl
  | cons x xs ih =>
      rw [List.forall_mem_cons] at hxs
      rw [member, w.same_eq hxs.1 hb hself, List.any_cons]
      by_cases hspell : x.spell = b.spell
      · simp only [hspell, decide_true, Bool.true_or]
        rfl
      · simp only [hspell, decide_false, Bool.false_or]
        exact ih hxs.2

end World

end GraphRoutes.Session
