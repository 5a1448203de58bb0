/-
**The predicates of a search are called in their turn.**

A search may have three predicates: one on the path and the element, one on the path, one on the
element.  If it cuts cycles, whatever it gives, each call of a predicate is about the element that was
visited last.  This element is not on its own path, and its path holds its ancestors and nothing else.
The functions of the program that are called meanwhile may do anything, and so may the consumer of the
search.

What is said of sources and calls is read from the chronicle of the search, which makes no difference to
it.

Main results:

* `GraphRoutes.Session.vacant_host` — an iterator without items has none when it is read;
* `GraphRoutes.Session.search_calls_in_turn` — **what holds at every call of a predicate**.
-/
import GraphRoutes.Proofs.Search.Attested
import GraphRoutes.Proofs.Session.Transparency

set_option relaxedAutoImplicit false
set_option autoImplicit false

namespace GraphRoutes.Session

open Search (Chronicle Chronicled AsksInTurn AsksOnce stepChronicled)

/-- An iterator without items has none when it is read at once. -/
theorem vacant_host (n : ℕ) (p : SearchPlan) (policy : Value) :
    (p.host (host n) policy).Vacant := by
  rintro w _ v hnothing ⟨x, k'⟩ u hnext
  cases hnothing
  obtain ⟨found, u', hpull, hfound⟩ := Act.bind_eq_ok_iff.1 hnext
  cases found with
  | none => cases hfound
  | some y =>
      cases n with
      | zero => cases hpull
      | succ n =>
          obtain ⟨item, v', hitem, hhanded⟩ := Act.bind_eq_ok_iff.1 hpull
          cases item with
          | none => cases hhanded
          | some z =>
              have hfuel : 0 < World.itemLimit := by decide
              refine nextItem_of_end (h := host n) Array.getElem?_push_size rfl ?_ hfuel z v' hitem
              rintro r _ ⟨⟩
              rfl

/-- **At every call of a predicate** by a search that cuts cycles, the element stands at its place: it is
not on its own path, and its path holds its ancestors, from the route down, each of them read from the
children of the one before, no two of them equal, and each passed by all predicates at its own visit.  The
predicates before the one that is called have been called since the visit of the element, in order, and have
let it pass.  At each visit, no predicate is called twice. -/
theorem search_calls_in_turn (n : ℕ) (p : SearchPlan) (hcut : p.shape.cutCycles = true) (t : Tuning)
    (consume : Value → M Unit) (mark : Mark) (route : Value) (w₀ : World) :
    (∀ x, Act.Mirrors Prod.snd (stepChronicled (p.host (host n) t.policy) (p.plan (host n)) t.limits x)
      (p.step (host n) t x)) ∧
    (∀ x w, Machine.Reached (p.step (host n) t) consume (Search.start (p.plan (host n)) mark route) w₀ x w →
      ∃ log, Machine.Reached (stepChronicled (p.host (host n) t.policy) (p.plan (host n)) t.limits)
        (fun v => Act.beside (consume v)) (Search.start (p.plan (host n)) mark route) ([], w₀) x (log, w)) ∧
    ∀ log, Chronicled (p.host (host n) t.policy) (p.plan (host n)) t.limits consume mark route w₀ log →
      AsksInTurn Keyed.key (p.plan (host n)).criteria route log ∧ AsksOnce log := by
  refine ⟨Search.step_chronicled _ _ _, fun x w hr => Search.exists_chronicle _ _ _ hr, ?_⟩
  intro log hlog
  have hasks : AsksInTurn Keyed.key (p.plan (host n)).criteria route log :=
    Search.asksInTurn_of_chronicled hcut (vacant_host n p t.policy) hlog
  exact ⟨hasks, hasks.once⟩

/-- A route of two numbers, with the number three below every number, and a predicate that lets all pass. -/
def twoRoots : World where
  functions := #[.constant (.tuple [.int 3] none), .constant (.bool true)]
  cursors := #[.items .tuple [.int 1, .int 2]]

/-- What the predicates of a search are told of numbers: the path, if any, and the element, if any. -/
def toldNumbers : Chronicle Keyed Value → List (List (Option ℤ) × Option ℤ)
  | [] => []
  | .asks (.pred t x) :: past => toldNumbers past ++ [(t.items.map (·.value.int?), x.value.int?)]
  | .asks (.pathPred t) :: past => toldNumbers past ++ [(t.items.map (·.value.int?), none)]
  | .asks (.elementPred x) :: past => toldNumbers past ++ [([], x.value.int?)]
  | _ :: past => toldNumbers past

/-- A search for leaves, with a predicate on path and element, a bound on the path, and a predicate on the
element.  The three below itself is not asked about. -/
theorem search_calls_in_turn_numbers :
    let p : SearchPlan :=
      { shape := { scope := .leaves }, children := .ref .function 0, pred := .ref .function 1,
        pathPred := .int 2, elementPred := .ref .function 1 }
    let t : Tuning := { limits := {}, policy := .op .cutNoResults }
    p.shape.cutCycles = true ∧ ∃ log,
      Chronicled (p.host (host 9) t.policy) (p.plan (host 9)) t.limits (fun _ => pure ()) none
        (.ref .iterator 0) twoRoots log ∧
      toldNumbers log = [([], some 1), ([], some 1), ([some 1], some 3), ([], some 3), ([], some 2),
        ([], some 2), ([some 2], some 3), ([], some 3)] ∧
      AsksInTurn Keyed.key (p.plan (host 9)).criteria (.ref .iterator 0) log ∧ AsksOnce log := by
  intro p t
  let run := Machine.stands (stepChronicled (p.host (host 9) t.policy) (p.plan (host 9)) t.limits)
    (fun _ => Act.beside (pure ())) 17 (Search.start (p.plan (host 9)) none (.ref .iterator 0))
    (([] : Chronicle Keyed Value), twoRoots)
  have htold : run.map (fun x => toldNumbers x.2.1) =
      some [([], some 1), ([], some 1), ([some 1], some 3), ([], some 3), ([], some 2), ([], some 2),
        ([some 2], some 3), ([], some 3)] := by
    decide +kernel
  obtain ⟨⟨x, log, w⟩, hrun, hlog⟩ := Option.map_eq_some_iff.1 htold
  have hchronicled : Chronicled (p.host (host 9) t.policy) (p.plan (host 9)) t.limits (fun _ => pure ()) none
      (.ref .iterator 0) twoRoots log := .reached (Machine.reached_of_stands .start hrun)
  obtain ⟨-, -, hturn⟩ :=
    search_calls_in_turn 9 p rfl t (fun _ => pure ()) none (.ref .iterator 0) twoRoots
  exact ⟨rfl, log, hchronicled, hlog, hturn log hchronicled⟩

end GraphRoutes.Session
