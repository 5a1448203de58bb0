/-
**Descents whose functions look at their path.**

A function of a program that is told a path may look at it as often as it likes, and each time go on by what
it saw.  So it is a tree of questions: at each node one question about the path, and a branch for each
answer.  What it does besides, it does in a state of its own, in which it may also write down when it was
called, and with what.

Such functions cannot tell one kind of path from another, if all kinds answer their questions alike.  All
kinds do so where they are asked about membership, and all but sets where they are asked for their items.
Sets and paths in order need the keys of what they hold and of what they are asked about, so a value without
a key tells them from the other kinds.

Main definitions:

* `GraphRoutes.Session.Inquiry` — what a function does that asks questions;
* `GraphRoutes.Session.Onlooker` — what a program brings to a descent;
* `GraphRoutes.Session.Onlooker.course` — the descent as the program sees it;
* `GraphRoutes.Session.isIn`, `GraphRoutes.Session.itemsOf` — the two kinds of questions.

Main results:

* `GraphRoutes.Session.Onlooker.course_eq` — the world of the paths does not show;
* `GraphRoutes.Session.path_kinds_alike` — **any kind of path will do.**
-/
import GraphRoutes.Proofs.Session.PathKinds
import GraphRoutes.Proofs.Descent.Carried

set_option relaxedAutoImplicit false
set_option autoImplicit false

namespace GraphRoutes

/-! ### A world beside another -/

/-- An action on the state that stands beside a world. -/
def Act.aside {τ ω ε α : Type} (m : Act τ ε α) : Act (τ × ω) ε α := fun w =>
  match m w.1 with
  | .ok a t => .ok a (t, w.2)
  | .error e t => .error e (t, w.2)

namespace Session

open Course World

/-! ### Functions of a program that look at a path -/

/-- What a function of a program does, whose state is in `σ`: it may ask questions on the way, and go on
by the answers. -/
inductive Inquiry (Q A σ β : Type) where
  | ends (outcome : EStateM.Result Fault σ β)
  /-- A question, and the state in which it is asked. -/
  | asks (question : Q) (state : σ) (next : A → Inquiry Q A σ β)

namespace Inquiry

variable {Q A σ β : Type}

/-- What comes of a function in a world where its questions are answered. -/
def run (look : Q → M A) : Inquiry Q A σ β → World → EStateM.Result Fault (World × σ) β
  | ends (.ok b s), w => .ok b (w, s)
  | ends (.error e s), w => .error e (w, s)
  | asks q s next, w =>
    match look q w with
    | .ok a w => (next a).run look w
    | .error e w => .error e (w, s)

/-- What comes of a function if the answers are known. -/
def settle (answer : Q → A) : Inquiry Q A σ β → EStateM.Result Fault σ β
  | ends r => r
  | asks q _ next => (next (answer q)).settle answer

/-- All questions that may be asked are of a kind. -/
def Poses (P : Q → Prop) : Inquiry Q A σ β → Prop
  | ends _ => True
  | asks q _ next => P q ∧ ∀ a, (next a).Poses P

/-- Whoever is answered as it is known, and leaves the world alone, does what is known. -/
theorem run_eq {i : Inquiry Q A σ β} {P : Q → Prop} {look : Q → M A} {answer : Q → A} {w : World}
    (hi : i.Poses P) (hlook : ∀ q, P q → look q w = .ok (answer q) w) (s : σ) :
    i.run look w = Act.beside (fun _ => i.settle answer) (w, s) := by
  induction i with
  | ends r => cases r <;> rfl
  | asks q s' next ih =>
      -- an answer leaves the world as it is, so the next question finds it the same
      rw [run, hlook q hi.1]
      exact ih (answer q) (hi.2 _)

end Inquiry

/-- **What a program brings to a descent**, in a state of its own: candidates, and functions that look at
the path by asking questions. -/
structure Onlooker (Q A σ κ δ : Type) where
  next : Source σ Fault κ Value
  control : Value → σ → Inquiry Q A σ (Instruction δ)
  truth : δ → Act σ Fault Bool
  children : Value → σ → Inquiry Q A σ κ
  policy : Value → ℕ → ℕ → σ → Inquiry Q A σ (Resolution Value)
  report : Note Value Value → Act σ Fault Unit

namespace Onlooker

variable {Q A σ κ δ : Type} (c : Onlooker Q A σ κ δ)

/-- A function of the program, called in a world where its questions are answered. -/
def call {β : Type} (look : Q → M A) (f : σ → Inquiry Q A σ β) : Act (World × σ) Fault β := fun w =>
  (f w.2).run look w.1

/-- The same where the answers are known. -/
def told {β : Type} (answer : Q → A) (f : σ → Inquiry Q A σ β) : Act σ Fault β := fun s =>
  (f s).settle answer

/-- The walk of a descent of the session, with a path that is looked at by `look`. -/
def env (h : Host) (plan : DescentPlan) (look : Value → Q → M A) :
    Walk.Env (World × σ) Fault Value Value κ δ Value :=
  let paths := plan.env h .null
  { next := fun k => Act.beside (c.next k)
    control := fun p x => call (look p) (c.control x)
    truth := fun d => Act.beside (c.truth d)
    result := fun p x => Act.aside (paths.result p x)
    extend := fun p x => Act.aside (paths.extend p x)
    restart := fun p => Act.aside (paths.restart p)
    children := fun p x => call (look p) (c.children x)
    policy := fun p x depth n => call (look p) (c.policy x depth n)
    report := fun note => Act.beside (c.report note) }

/-- The walk where the path is the row of its items. -/
def plainEnv (givesPaths : Bool) (answer : List Value → Q → A) :
    Walk.Env σ Fault Value (List Value) κ δ Value where
  next := c.next
  control ys x := told (answer ys) (c.control x)
  truth := c.truth
  result ys x := pure (if givesPaths then .tuple (ys ++ [x]) none else x)
  extend ys x := pure (ys ++ [x])
  restart _ := pure []
  children ys x := told (answer ys) (c.children x)
  policy ys x depth n := told (answer ys) (c.policy x depth n)
  report := c.report

/-- At elements of a kind, all questions of the functions are of a kind. -/
structure Asks (good : Value → Prop) (P : Q → Prop) : Prop where
  control : ∀ {x}, good x → ∀ s, (c.control x s).Poses P
  children : ∀ {x}, good x → ∀ s, (c.children x s).Poses P
  policy : ∀ {x}, good x → ∀ depth n s, (c.policy x depth n s).Poses P

/-- All candidates are of a kind. -/
def Visits (good : Value → Prop) : Prop :=
  ∀ {k k' x s s'}, c.next k s = .ok (some (x, k')) s' → good x

/-- **The descent as the program sees it**: what becomes of its own state while a consumer takes what is
given. -/
noncomputable def course (h : Host) (plan : DescentPlan) (look : Value → Q → M A) (limits : Limits)
    (consume : Value → Act σ Fault Unit) (k : κ) (w : World) (p : Value) : Course σ Fault Unit :=
  Prod.fst <$> carry w (Machine.drive (Walk.step (c.env h plan look) limits)
    (fun v => Act.beside (consume v)) (Walk.start p k))

variable {c} {look : Value → Q → M A} {answer : List Value → Q → A} {P : Q → Prop} {w : World}
  {p : Value} {ys : List Value} {h : Host} {plan : DescentPlan}

theorem carry_call {β : Type} {look : Q → M A} {answer : Q → A} {f : σ → Inquiry Q A σ β}
    (hf : ∀ s, (f s).Poses P) (hlook : ∀ q, P q → look q w = .ok (answer q) w) :
    carry w (act (call look f)) =
      act (told answer f) >>= fun b => pure (b, w) := by
  rw [← carry_act_beside]
  funext s
  have hcall : call look f (w, s) = Act.beside (told answer f) (w, s) :=
    (Inquiry.run_eq (hf s) hlook s).trans rfl
  simp only [carry, act, hcall]

theorem carry_aside {τ ε β : Type} {m : Act τ ε β} {t u : τ} {b : β} (hm : m t = .ok b u) :
    carry t (act (Act.aside m) : Course (τ × σ) ε β) = pure (b, u) := by
  funext s
  simp only [carry, act, Act.aside, hm]
  rfl

/-- **The world of the paths does not show**, if all that is asked about a path is answered by its items,
as long as these are as `R` says. -/
theorem course_eq {good : Value → Prop} {R : World → Value → List Value → Prop} (hc : c.Asks good P)
    (hvisits : c.Visits good) (hmono : ∀ {w u p ys}, w.Lengthens u → R w p ys → R u p ys)
    (hlook : ∀ {w p ys}, R w p ys → ∀ q, P q → look p q w = .ok (answer ys q) w)
    (hresult : ∀ {w p ys}, R w p ys → ∀ x, descentResult plan.givesPaths p x w =
      .ok (if plan.givesPaths then .tuple (ys ++ [x]) none else x) w)
    (hrestart : ∀ {w p ys}, R w p ys → ∃ p' u, (plan.env h .null).restart p w = .ok p' u ∧
      R u p' [] ∧ w.Lengthens u)
    (hextend : ∀ {w p ys x}, R w p ys → good x → ∃ p' u, (plan.env h .null).extend p x w = .ok p' u ∧
      R u p' (ys ++ [x]) ∧ w.Lengthens u)
    (limits : Limits) (consume : Value → Act σ Fault Unit) (k : κ) (hp : R w p ys) :
    c.course h plan look limits consume k w p =
      Machine.drive (Walk.step (c.plainEnv plan.givesPaths answer) limits) consume
        (Walk.start ys k) := by
  have carried : Walk.Carried (c.env h plan look) (c.plainEnv plan.givesPaths answer) good
      World.Lengthens R := {
    refl := .refl
    trans := .trans
    stable := hmono
    next := fun _ => rfl
    visited := hvisits
    truth := fun _ => rfl
    report := fun _ => rfl
    control := fun hR hx => carry_call (hc.control hx) (hlook hR)
    children := fun hR hx => carry_call (hc.children hx) (hlook hR)
    policy := fun hR hx depth n => carry_call (hc.policy hx depth n) (hlook hR)
    result := fun hR x => carry_aside (hresult hR x)
    restart := fun hR => by
      obtain ⟨p', u, hp', hR', hu⟩ := hrestart hR
      rw [show (c.env h plan look).restart _ = Act.aside _ from rfl, carry_aside hp']
      refine Alike.pure ?_
      exact ⟨hR', hu⟩
    extend := fun hR hx => by
      obtain ⟨p', u, hp', hR', hu⟩ := hextend hR hx
      rw [show (c.env h plan look).extend _ _ = Act.aside _ from rfl, carry_aside hp']
      refine Alike.pure ?_
      exact ⟨hR', hu⟩ }
  exact carried.drive_start limits consume hp k

end Onlooker

/-! ### What all kinds of paths answer -/

/-- A value that has a key, and can be compared with itself. -/
def Value.Askable (v : Value) : Prop := v.lasting = true ∧ ∀ w : World, w.Comparable v

theorem Value.askable_of_length {v : Value} (hv : v.lasting = true) (hlength : v.spell.length ≤ depthLimit) :
    v.Askable :=
  ⟨hv, fun w => w.comparable_of_length hv hlength⟩

/-- Whether a value is in a path. -/
def isIn (h : Host) (p v : Value) : M Bool := h.contains v p

/-- The items of a path, for which nothing more need be said. -/
def itemsOf (p : Value) (_ : Unit) : M (List Value) := do
  let w ← get
  Act.ofOption .wrongType (pathItems? w p)

variable {σ κ δ : Type}

/-- The descent that is asked about members, where the path is the row of its items. -/
theorem course_isIn {c : Onlooker Value Bool σ κ δ} {good : Value → Prop}
    (hgood : ∀ x, good x → x.lasting = true) (hvisits : c.Visits good) (hc : c.Asks good Value.Askable)
    {plan : DescentPlan} (hplan : plan.givesPaths = false) (h : Host) (limits : Limits)
    (consume : Value → Act σ Fault Unit) (k : κ) {w : World} {kind : PathKind} {p : Value}
    (hp : w.Stands kind p []) :
    c.course h plan (isIn h) limits consume k w p =
      Machine.drive (Walk.step (c.plainEnv plan.givesPaths holdsKey) limits) consume
        (Walk.start [] k) := by
  -- a list holds its items as they were handed out, so only their keys are known to be the same
  let R (w : World) (p : Value) (ys : List Value) : Prop := ∃ zs, w.Stands kind p zs ∧
    (∀ z ∈ zs, z.lasting = true) ∧ zs.map Value.key? = ys.map Value.key?
  have hR : R w p [] := ⟨[], hp, List.forall_mem_nil _, rfl⟩
  refine Onlooker.course_eq (R := R) hc hvisits ?_ ?_ ?_ ?_ ?_ limits consume k hR
  · rintro w u p ys hu ⟨zs, hzs, hlasting, hkeys⟩
    exact ⟨zs, hzs.mono hu, hlasting, hkeys⟩
  · rintro w p ys ⟨zs, hzs, hlasting, hkeys⟩ v ⟨hv, hself⟩
    have hanswer : holdsKey zs v = holdsKey ys v := by rw [holdsKey, holdsKey, hkeys]
    rw [isIn, hzs.contains hlasting hv (hself w) h, hanswer]
  · intro w p ys _ x
    rw [hplan]
    rfl
  · rintro w p ys ⟨zs, hzs, -, -⟩
    obtain ⟨p', u, hrestart, hu, hp'⟩ := hzs.exists_restart h plan
    exact ⟨p', u, hrestart, ⟨[], hp', List.forall_mem_nil _, rfl⟩, hu⟩
  · rintro w p ys x ⟨zs, hzs, hlasting, hkeys⟩ hx
    obtain ⟨p', u, zs', hextend, hu, hp', hkept⟩ := hzs.exists_extend h plan fun _ => hgood x hx
    refine ⟨p', u, hextend, ⟨zs', hp', ?_, ?_⟩, hu⟩
    · exact hkept.lasting fun y hy => (List.mem_append.1 hy).elim (hlasting y) fun hy =>
        List.mem_singleton.1 hy ▸ hgood x hx
    · rw [hkept.map_key?_eq, List.map_append, List.map_append, hkeys]

/-- The descent whose path is read as a row, where the path is the row of its items. -/
theorem course_itemsOf {c : Onlooker Unit (List Value) σ κ δ} {kind : PathKind} (hkind : kind ≠ .set)
    {good : Value → Prop} (hvisits : c.Visits good)
    (hgood : ∀ x, good x → x.unmarked = false ∧ (kind.tells = true → x.lasting = true))
    (plan : DescentPlan) (h : Host) (limits : Limits) (consume : Value → Act σ Fault Unit) (k : κ)
    {w : World} {p : Value} {ys : List Value} (hys : ∀ y ∈ ys, y.unmarked = false)
    (hp : w.Stands kind p ys) :
    c.course h plan itemsOf limits consume k w p =
      Machine.drive (Walk.step (c.plainEnv plan.givesPaths fun ys _ => ys) limits) consume
        (Walk.start ys k) := by
  let R (w : World) (p : Value) (ys : List Value) : Prop :=
    w.Stands kind p ys ∧ ∀ y ∈ ys, y.unmarked = false
  have hasks : c.Asks good fun _ => True := by
    have poses : ∀ {β : Type} (i : Inquiry Unit (List Value) σ β), i.Poses fun _ => True := by
      intro β i
      induction i with
      | ends r => trivial
      | asks q s next ih => exact ⟨trivial, ih⟩
    exact ⟨fun _ _ => poses _, fun _ _ => poses _, fun _ _ _ _ => poses _⟩
  have hitems : ∀ {w p ys}, R w p ys → pathItems? w p = some ys := fun hR => hR.1.pathItems?_eq hkind
  have hR : R w p ys := ⟨hp, hys⟩
  refine Onlooker.course_eq (R := R) hasks hvisits ?_ ?_ ?_ ?_ ?_ limits consume k hR
  · rintro w u p ys hu ⟨hp, hys⟩
    exact ⟨hp.mono hu, hys⟩
  · intro w p ys hR q _
    refine (Act.bind_of_ok (m := get) rfl).trans ?_
    rw [hitems hR]
    rfl
  · intro w p ys hR x
    rw [descentResult]
    split
    · refine (Act.bind_of_ok (m := get) rfl).trans ?_
      rw [hitems hR]
      rfl
    · rfl
  · rintro w p ys ⟨hp, -⟩
    obtain ⟨p', u, hrestart, hu, hp'⟩ := hp.exists_restart h plan
    exact ⟨p', u, hrestart, ⟨hp', List.forall_mem_nil _⟩, hu⟩
  · rintro w p ys x ⟨hp, hys⟩ hx
    obtain ⟨hmarked, hlasting⟩ := hgood x hx
    obtain ⟨p', u, zs, hextend, hu, hp', hkept⟩ := hp.exists_extend h plan hlasting
    have hall : ∀ y ∈ ys ++ [x], y.unmarked = false := fun y hy =>
      (List.mem_append.1 hy).elim (hys y) fun hy => List.mem_singleton.1 hy ▸ hmarked
    -- what has all its marks is not changed where it is handed out
    rw [hkept.eq_of_marked hall] at hp'
    exact ⟨p', u, hextend, ⟨hp', hall⟩, hu⟩

/-- **Any kind of path will do.**  Let the functions of a program look at their path in one way only, and let a
consumer take what is given; what the program calls and takes, one after the other, is in its own state.

* If they ask no more than whether a value is in the path, a descent for elements does the same from empty paths
  of any two kinds, as long as the elements and the values that are asked about have keys.
* If they ask for the items of the path, a descent, for elements or for paths, does the same from any two paths
  with an order that hold the same items; the elements need keys if one of the paths tells its items by them. -/
theorem path_kinds_alike (h : Host) (plan : DescentPlan) (limits : Limits)
    (consume : Value → Act σ Fault Unit) (k : κ) {w v : World} {kind kind' : PathKind} {p q : Value} :
    (∀ (c : Onlooker Value Bool σ κ δ) (good : Value → Prop), (∀ x, good x → x.lasting = true) →
      c.Visits good → c.Asks good Value.Askable → plan.givesPaths = false →
      w.Stands kind p [] → v.Stands kind' q [] →
        c.course h plan (isIn h) limits consume k w p = c.course h plan (isIn h) limits consume k v q) ∧
    ∀ (c : Onlooker Unit (List Value) σ κ δ) (items : List Value), kind ≠ .set → kind' ≠ .set →
      c.Visits (fun x => x.unmarked = false ∧
        (kind.tells = true ∨ kind'.tells = true → x.lasting = true)) →
      (∀ x ∈ items, x.unmarked = false) → w.Stands kind p items → v.Stands kind' q items →
        c.course h plan itemsOf limits consume k w p = c.course h plan itemsOf limits consume k v q := by
  constructor
  · intro c good hgood hvisits hasks hplan hp hq
    rw [course_isIn hgood hvisits hasks hplan h limits consume k hp,
      course_isIn hgood hvisits hasks hplan h limits consume k hq]
  · intro c items hkind hkind' hvisits hitems hp hq
    rw [course_itemsOf hkind hvisits (fun x hx => ⟨hx.1, fun ht => hx.2 (.inl ht)⟩) plan h limits consume
        k hitems hp,
      course_itemsOf hkind' hvisits (fun x hx => ⟨hx.1, fun ht => hx.2 (.inr ht)⟩) plan h limits consume
        k hitems hq]

/-! ### A walk over numbers -/

/-- What is heard of numbers one after the other: each that is given, with what stands before it, and each
whose children are asked for. -/
abbrev Hearing : Type := List (List (Option ℤ))

/-- Writes a number, or a row of them. -/
def writeNumbers (v : Value) : Act Hearing Fault Unit :=
  modify (· ++ [((v.tuple?).getD [v]).map Value.int?])

/-- A program that walks over numbers, from one to two and from two to one, and steers by what it is told. -/
def backAndForth {Q A : Type} (control : Value → Hearing → Inquiry Q A Hearing (Instruction Bool)) :
    Onlooker Q A Hearing (List ℤ) Bool where
  next
    | [] => pure none
    | n :: ns => pure (some (.int n, ns))
  control
  truth := pure
  children x s := .ends (.ok (if x.int? = some 1 then [2] else [1]) (s ++ [[none, x.int?]]))
  policy _ _ _ s := .ends (.ok .cut s)
  report _ := pure ()

/-- Goes on until it meets what is in the path. -/
def untilMet : Onlooker Value Bool Hearing (List ℤ) Bool :=
  backAndForth fun x s => .asks x s fun met =>
    .ends (.ok (if met then Preset.ignore else Preset.emitAndContinue).instruction s)

/-- Goes on until the path has three items. -/
def untilThree : Onlooker Unit (List Value) Hearing (List ℤ) Bool :=
  backAndForth fun _ s => .asks () s fun items =>
    .ends (.ok (if items.length < 3 then Preset.emitAndContinue else Preset.ignore).instruction s)

theorem askable_int (n : ℤ) : (Value.int n).Askable :=
  Value.askable_of_length rfl (by simp [Value.spell, depthLimit])

/-- What is seen of a drive after some steps is seen of it. -/
theorem map_drive_of_unfold {ω ε τ α γ : Type} {m : Machine ω ε τ α} {consume : α → Act ω ε Unit}
    {n : ℕ} {t : τ} {w : ω} {f : EStateM.Result ε ω Unit → γ} {x : γ}
    (h : (unfold (Machine.driveStep m consume) n t w).map f = some x) :
    (Machine.drive m consume t w).map f = some x := by
  obtain ⟨r, hr, hx⟩ := Option.map_eq_some_iff.1 h
  rw [(Machine.drive_eq_some_iff m consume).2 ⟨n, hr⟩]
  exact congrArg some hx

/-- Whether a value is a number. -/
def Value.IsNumber (v : Value) : Prop := ∃ n, v = .int n

theorem visits_numbers {Q A : Type}
    {control : Value → Hearing → Inquiry Q A Hearing (Instruction Bool)} :
    (backAndForth control).Visits Value.IsNumber := by
  intro k k' x s s' hnext
  cases k with
  | nil => cases hnext
  | cons n ns =>
      cases hnext
      exact ⟨n, rfl⟩

/-- What was heard by the end. -/
def heard : EStateM.Result Fault Hearing Unit → Option Hearing
  | .ok _ s => some s
  | .error _ _ => none

/-- A descent of the session that gives elements, or paths. -/
def descentOf (givesPaths : Bool) : DescentPlan :=
  { children := .null, control := .null, config := .null, givesPaths }

/-- A walk to and fro that stops where it meets a number again does so with a set as with a tuple, and one that
stops at the third item of its path does so with a path in order as with a list. -/
theorem path_kinds_alike_numbers :
    let nothing : Value := .set default none
    let five : Value := .orderedPath (.ofList Value.spell [.int 5]) none
    let w : World := { lists := #[#[.int 5]] }
    let row : Value → Prop := fun x => x.unmarked = false ∧
      (PathKind.ordered.tells = true ∨ PathKind.list.tells = true → x.lasting = true)
    (∀ x : Value, x.IsNumber → x.lasting = true) ∧ untilMet.Visits Value.IsNumber ∧
      untilMet.Asks Value.IsNumber Value.Askable ∧ untilThree.Visits row ∧
      w.Stands .set nothing [] ∧ w.Stands .ordered five [.int 5] ∧
      w.Stands .list (.ref .list 0) [.int 5] ∧
      (untilMet.course (host 9) (descentOf false) (isIn (host 9)) {} writeNumbers [1] w nothing []).map
        heard = some (some [[some 1], [none, some 1], [some 2], [none, some 2]]) ∧
      (untilThree.course (host 9) (descentOf true) itemsOf {} writeNumbers [1] w five []).map heard =
        some (some [[some 5, some 1], [none, some 1], [some 5, some 1, some 2], [none, some 2]]) := by
  intro nothing five w row
  have lasting : ∀ x : Value, x.IsNumber → x.lasting = true := by
    rintro _ ⟨n, rfl⟩
    rfl
  have visits : untilMet.Visits Value.IsNumber := visits_numbers
  have asks : untilMet.Asks Value.IsNumber Value.Askable := by
    refine ⟨?_, fun _ _ => trivial, fun _ _ _ _ => trivial⟩
    rintro _ ⟨n, rfl⟩ s
    exact ⟨askable_int n, fun _ => trivial⟩
  have visits' : untilThree.Visits row := by
    intro _ _ _ _ _ h
    obtain ⟨n, rfl⟩ := visits_numbers h
    exact ⟨rfl, fun _ => rfl⟩
  have hset : w.Stands .set nothing [] := stands_set w none
  have hordered : w.Stands .ordered five [.int 5] := stands_orderedPath w [.int 5] none
  have hlist : w.Stands .list (.ref .list 0) [.int 5] := .list rfl
  refine ⟨lasting, visits, asks, visits', hset, hordered, hlist, ?_, ?_⟩
  · have same := (path_kinds_alike (host 9) (descentOf false) {} writeNumbers [1]).1 untilMet _ lasting
      visits asks rfl hset (World.Stands.tuple (w := w) [] none)
    rw [same, course_isIn lasting visits asks rfl (host 9) {} writeNumbers [1] (.tuple [] none)]
    refine map_drive_of_unfold (n := 20) ?_
    decide +kernel
  · have kinds : PathKind.ordered ≠ .set ∧ PathKind.list ≠ .set := by decide
    have marked : ∀ x ∈ [Value.int 5], x.unmarked = false := by simp [Value.unmarked]
    have same := (path_kinds_alike (host 9) (descentOf true) {} writeNumbers [1]).2 untilThree [.int 5]
      kinds.1 kinds.2 visits' marked hordered hlist
    have rows : ∀ x, row x → x.unmarked = false ∧ (PathKind.list.tells = true → x.lasting = true) :=
      fun x hx => ⟨hx.1, fun ht => hx.2 (.inr ht)⟩
    rw [same, course_itemsOf kinds.2 visits' rows (descentOf true) (host 9) {} writeNumbers [1] marked hlist]
    refine map_drive_of_unfold (n := 20) ?_
    decide +kernel

/-! ### Values without keys -/

/-- Whether nothing failed. -/
def succeeds {σ : Type} : EStateM.Result Fault σ Unit → Bool
  | .ok _ _ => true
  | .error _ _ => false

/-- A program that walks from the number one to its children. -/
def fromOne {Q A : Type} (control : Value → Unit → Inquiry Q A Unit (Instruction Bool))
    (children : List Value) : Onlooker Q A Unit (List Value) Bool where
  next := Source.ofList
  control
  truth := pure
  children x s := .ends (.ok (if x.int? = some 1 then children else []) s)
  policy _ _ _ s := .ends (.ok .cut s)
  report _ := pure ()

/-- Asks of each element whether a list is in its path. -/
def curious : Onlooker Value Bool Unit (List Value) Bool :=
  fromOne (fun _ s => .asks (.ref .list 0) s fun _ => .ends (.ok Preset.emitAndContinue.instruction s)) []

/-- Lets the path begin anew below the number one, where there is a list. -/
def nested {Q A : Type} : Onlooker Q A Unit (List Value) Bool :=
  fromOne (fun x s => .ends (.ok { Preset.emitAndContinue.instruction with resetPath := x.int? = some 1 } s))
    [.ref .list 0]

/-- Whether a course succeeds is seen by the steps of the walk. -/
theorem succeeds_course {Q A : Type} {c : Onlooker Q A σ κ δ} {h : Host} {plan : DescentPlan}
    {look : Value → Q → M A} {limits : Limits} {consume : Value → Act σ Fault Unit} {k : κ} {w : World}
    {p : Value} {s : σ} {n : ℕ} {b : Bool}
    (hrun : (unfold (Machine.driveStep (Walk.step (c.env h plan look) limits) fun v =>
      Act.beside (consume v)) n (Walk.start p k) (w, s)).map succeeds = some b) :
    (c.course h plan look limits consume k w p s).map succeeds = some b := by
  have hdrive := map_drive_of_unfold hrun
  rw [Onlooker.course, map_eq_pure_bind]
  generalize Machine.drive _ _ _ = m at hdrive
  rcases hm : m (w, s) with _ | ⟨⟨⟩, v⟩ | ⟨e, v⟩ <;> rw [hm] at hdrive
  · cases hdrive
  · have hcarry : carry w m s = some (.ok ((), v.1) v.2) := by simp only [carry, hm]
    rw [bind_of_ok hcarry]
    exact hdrive
  · have hcarry : carry w m s = some (.error e v.2) := by simp only [carry, hm]
    rw [bind_of_error hcarry]
    exact hdrive

/-- **A value without a key tells the kinds apart**, if it is asked about, and if it is visited. -/
theorem not_path_kinds_alike_unhashable :
    let elements (c : Onlooker Value Bool Unit (List Value) Bool) (p : Value) :=
      c.course (host 9) (descentOf false) (isIn (host 9)) {} (fun _ => pure ()) [.int 1] {} p ()
    let paths (c : Onlooker Unit (List Value) Unit (List Value) Bool) (p : Value) :=
      c.course (host 9) (descentOf true) itemsOf {} (fun _ => pure ()) [.int 1] {} p ()
    (∀ x ∈ [Value.int 1], x.lasting = true) ∧
      ((elements curious (.tuple [] none)).map succeeds = some true ∧
        (elements curious (.set default none)).map succeeds = some false) ∧
      ((elements nested (.tuple [] none)).map succeeds = some true ∧
        (elements nested (.set default none)).map succeeds = some false) ∧
      (paths nested (.tuple [] none)).map succeeds = some true ∧
        (paths nested (.orderedPath default none)).map succeeds = some false := by
  intro elements paths
  refine ⟨by decide, ⟨?_, ?_⟩, ⟨?_, ?_⟩, ?_, ?_⟩
  all_goals exact succeeds_course (n := 20) (by decide +kernel)

end Session

end GraphRoutes
