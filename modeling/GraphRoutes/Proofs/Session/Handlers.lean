/-
**Handlers are asked one after the other, until one of them decides or fails.**

A chain of handlers is a handler, and may stand in another chain.  However chains are nested, their handlers
are asked in order, as if they stood in one chain; the first that does not decline is the last that is asked.
If it decides, that settles the condition, whatever it decides; if it fails, so does whoever asked.  Only if
all decline does the default count.

A handler may do anything to the world, as long as it does the same at every depth.  Nothing that a session
does changes a function once it is there, and so chains stay what they are while their handlers are asked.

Main definitions:

* `GraphRoutes.Session.World.Spans` — the handlers of nested chains, in order;
* `GraphRoutes.Session.Unvarying` — a handler that does the same at every depth;
* `GraphRoutes.Session.Answered` — which handlers are asked, and what comes of it;
* `GraphRoutes.Session.settled` — what becomes of a condition.

Main results:

* `GraphRoutes.Handler.chain_append` — a chain at the head of a chain is opened up;
* `GraphRoutes.Session.enduring_recalls` — functions stay what they are;
* `GraphRoutes.Session.chain_of_spans` — **nested chains ask as one chain does**;
* `GraphRoutes.Session.Answered.chain_eq` — what a chain comes to;
* `GraphRoutes.Session.conditions_settled` — **all chains, and all conditions**.
-/
import GraphRoutes.Proofs.Session.Layers
import GraphRoutes.Proofs.Session.Sealing
import GraphRoutes.Proofs.Session.Streams

set_option relaxedAutoImplicit false
set_option autoImplicit false

namespace GraphRoutes

/-! ### Chains -/

namespace Handler

variable {ω ε γ δ : Type} {f : Handler ω ε γ δ} {fs gs : List (Handler ω ε γ δ)} {c : γ} {d : δ} {e : ε}
  {w v : ω}

theorem chain_of_decline (hf : f c w = .ok none v) : chain (f :: fs) c w = chain fs c v :=
  Act.bind_of_ok hf

theorem chain_of_decision (hf : f c w = .ok (some d) v) : chain (f :: fs) c w = .ok (some d) v :=
  Act.bind_of_ok hf

theorem chain_of_error (hf : f c w = .error e v) : chain (f :: fs) c w = .error e v :=
  Act.bind_of_error hf

/-- Chains that ask alike first, and go on alike if that one declines, are alike. -/
theorem chain_congr {f' : Handler ω ε γ δ} {fs' : List (Handler ω ε γ δ)} (hf : f c w = f' c w)
    (hfs : ∀ u, f c w = .ok none u → chain fs c u = chain fs' c u) :
    chain (f :: fs) c w = chain (f' :: fs') c w := by
  cases hrun : f c w with
  | error e u => rw [chain_of_error hrun, chain_of_error (hf.symm.trans hrun)]
  | ok r u =>
      cases r with
      | some d => rw [chain_of_decision hrun, chain_of_decision (hf.symm.trans hrun)]
      | none => rw [chain_of_decline hrun, chain_of_decline (hf.symm.trans hrun), hfs u hrun]

/-- **A chain at the head of a chain** may be opened up. -/
theorem chain_append (w : ω) : chain (fs ++ gs) c w = chain (chain fs :: gs) c w := by
  induction fs generalizing w with
  | nil => rfl
  | cons f fs ih =>
      rw [List.cons_append]
      cases hrun : f c w with
      | error e u => rw [chain_of_error hrun, chain_of_error (chain_of_error hrun)]
      | ok r u =>
          cases r with
          | some d => rw [chain_of_decision hrun, chain_of_decision (chain_of_decision hrun)]
          | none =>
              rw [chain_of_decline hrun, ih]
              cases hrest : chain fs c u with
              | error e t => rw [chain_of_error hrest, chain_of_error ((chain_of_decline hrun).trans hrest)]
              | ok r t =>
                  have hall : chain (f :: fs) c w = _ := (chain_of_decline hrun).trans hrest
                  cases r with
                  | some d => rw [chain_of_decision hrest, chain_of_decision hall]
                  | none => rw [chain_of_decline hrest, chain_of_decline hall]

end Handler

namespace Session

open Act (Maintains)
open World

variable {h k : Host} {c x f : Value} {d n p : ℕ} {fs gs hs ks : List Value} {u v w : World}

/-! ### Handlers of a session -/

theorem recalls_editGraph {α : Type} {place : ℕ} {edit : Store.Edit Value Key Value Value α} {unknown : M Fault}
    (hunknown : Maintains (Recalls w) unknown) : Maintains (Recalls w) (editGraph place unknown edit) := by
  intro v hv
  rw [editGraph_eq]
  cases edit (v.graphAt place) with
  | ok a g => exact hv
  | error e g =>
      cases e with
      | isSealed | unhashable => exact hv
      | unknown => exact (hunknown.bind fun e => .throw e) _ hv

/-- **Functions stay what they are**, whatever a session does. -/
theorem enduring_recalls (w : World) : Enduring (Recalls w) where
  congr _ hv hw := hw.trans hv
  newGraph _ := .modifyGet fun _ hw => hw
  addVertex place id document := (recalls_editGraph (by unfold unknownId; grind)).bind fun _ => .pure _
  setDocument place id document := (recalls_editGraph (by unfold unknownId; grind)).bind fun _ => .pure _
  addEdge place source target label document :=
    (recalls_editGraph (by unfold unknownId; grind)).bind fun _ => .pure _
  publish _ _ hw := hw

/-- **A handler that does the same at every depth** when it is asked about a condition: how deep calls may be
nested makes no difference to it. -/
def Unvarying (h : Host) (w : World) (c x : Value) : Prop :=
  ∀ n v, Recalls w v → (h.up n).call x [c] [] v = h.call x [c] [] v

/-- The handlers of some handlers, in order: those of a chain are its own handlers, down to a depth. -/
inductive World.Spans (w : World) : ℕ → List Value → List Value → Prop
  | nobody (d : ℕ) : Spans w d [] []
  | handler {d : ℕ} {fs hs : List Value} (x : Value) (hrest : Spans w d fs hs) :
      Spans w d (x :: fs) (x :: hs)
  | chain {d p : ℕ} {fs gs hs ks : List Value} (hp : w.functions[p]? = some (.chained gs))
      (hinner : Spans w d gs hs) (hrest : Spans w (d + 1) fs ks) :
      Spans w (d + 1) (.ref .function p :: fs) (hs ++ ks)

theorem World.Spans.recall (h : w.Spans d fs hs) (hv : Recalls w v) : v.Spans d fs hs := by
  induction h with
  | nobody d => exact .nobody d
  | handler x _ ih => exact .handler x ih
  | chain hp _ _ ih ih' => exact .chain (hv _ _ hp) ih ih'

/-- A condition that is handed out stays the same condition. -/
theorem World.Handed.exists_condition {kind : ConditionKind} {value message data c' : Value} {mark : Mark}
    (hc : Handed (.condition kind value message data mark) c') :
    ∃ i, c' = .condition kind value message data (some i) := by
  cases hc with
  | same hmarked =>
      cases mark with
      | none => cases hmarked
      | some i => exact ⟨i, rfl⟩
  | marked hunmarked n =>
      refine ⟨n, ?_⟩
      simp [Value.marked, Value.markedAlone, hunmarked]
      rfl

theorem handOut_of_marked (hc : c.unmarked = false) (w : World) : handOut c w = .ok c w := by
  rw [handOut, hc]
  rfl

theorem apply_of_marked (hc : c.unmarked = false) : h.apply f [c] = h.call f [c] [] := by
  funext w
  have hargs : [c].mapM handOut w = .ok [c] w := by
    rw [List.mapM_cons, Act.bind_of_ok (handOut_of_marked hc w)]
    rfl
  rw [Host.apply, Act.bind_of_ok hargs]

theorem Unvarying.handler_eq (hx : Unvarying h w c x) (hc : c.unmarked = false) (hv : Recalls w v) (n : ℕ) :
    (h.up n).handler x c v = h.handler x c v := by
  simp only [Host.handler, apply_of_marked hc, bind, EStateM.bind, hx n v hv]

theorem notNull_of_ne {d : Value} (hd : d ≠ .null) : d.notNull = some d := by
  cases d with
  | null => exact absurd rfl hd
  | _ => rfl

theorem ne_null_of_handler {d : Value} (hrun : h.handler f c w = .ok (some d) v) : d ≠ .null := by
  obtain ⟨r, u, -, hr⟩ := Act.bind_eq_ok_iff.1 hrun
  rintro rfl
  cases r <;> cases hr

/-- No chain decides on nothing. -/
theorem ne_null_of_chain {d : Value} (hrun : Handler.chain (fs.map h.handler) c w = .ok (some d) v) :
    d ≠ .null := by
  induction fs generalizing w with
  | nil => cases hrun
  | cons f fs ih =>
      cases hf : h.handler f c w with
      | error e u => cases hrun.symm.trans (Handler.chain_of_error hf)
      | ok r u =>
          cases r with
          | none => exact ih ((Handler.chain_of_decline hf).symm.trans hrun)
          | some d' =>
              cases hrun.symm.trans (Handler.chain_of_decision hf)
              exact ne_null_of_handler hf

/-- A chain answers with nothing if it declines, and with its decision otherwise. -/
theorem notNull_chain (fs : List Value) (c : Value) (w : World) :
    (do
      let decision ← Handler.chain (fs.map h.handler) c
      pure (Value.ofOption decision).notNull) w = Handler.chain (fs.map h.handler) c w := by
  cases hrun : Handler.chain (fs.map h.handler) c w with
  | error e u => exact Act.bind_of_error hrun
  | ok r u =>
      refine (Act.bind_of_ok hrun).trans ?_
      cases r with
      | none => rfl
      | some d =>
          rw [Value.ofOption, notNull_of_ne (ne_null_of_chain hrun)]
          rfl

/-- A chain that is made of a list of handlers asks them. -/
theorem handler_chained (hp : w.functions[p]? = some (.chained gs)) (hc : c.unmarked = false) :
    k.above.handler (.ref .function p) c w = Handler.chain (gs.map k.handler) c w := by
  have hcall : k.above.call (.ref .function p) [c] [] w = (do
      let decision ← Handler.chain (gs.map k.handler) c
      pure (Value.ofOption decision)) w := by
    have hcallee : k.above.call (.ref .function p) [c] [] w = k.callFunction (.chained gs) [c] [] w := by
      refine (Act.bind_of_ok (m := get) rfl).trans ?_
      rw [hp]
    exact hcallee
  rw [← notNull_chain, Host.handler, apply_of_marked hc]
  simp only [bind, EStateM.bind, hcall]
  cases Handler.chain (gs.map k.handler) c w <;> rfl

/-- **Nested chains ask as one chain does.** -/
theorem chain_of_spans (hh : h.Maintains (Recalls w)) (hfs : w.Spans d fs hs)
    (hunvarying : ∀ x ∈ hs, Unvarying h w c x) (hc : c.unmarked = false) (hn : d ≤ n) (hv : Recalls w v) :
    Handler.chain (fs.map (h.up n).handler) c v = Handler.chain (hs.map h.handler) c v := by
  induction hfs generalizing n v with
  | nobody => rfl
  | handler x hrest ih =>
      have hx := hunvarying x List.mem_cons_self
      refine Handler.chain_congr (hx.handler_eq hc hv n) fun u hu => ?_
      refine ih (fun y hy => hunvarying y (List.mem_cons_of_mem x hy)) hn ?_
      rw [hx.handler_eq hc hv n] at hu
      have hkeeps := maintains_handler (enduring_recalls w) hh x c v hv
      rwa [hu] at hkeeps
  | @chain d p fs gs hs ks hp hinner hrest ih ih' =>
      obtain ⟨n, rfl⟩ := Nat.exists_eq_succ_of_ne_zero (Nat.ne_of_gt (Nat.zero_lt_of_lt hn))
      have hhs : ∀ x ∈ hs, Unvarying h w c x := fun x hx => hunvarying x (List.mem_append_left ks hx)
      have hks : ∀ x ∈ ks, Unvarying h w c x := fun x hx => hunvarying x (List.mem_append_right hs hx)
      have hhead : (h.up (n + 1)).handler (.ref .function p) c v = Handler.chain (hs.map h.handler) c v :=
        (handler_chained (hv p _ hp) hc).trans (ih hhs (Nat.le_of_succ_le_succ hn) hv)
      rw [List.map_append, Handler.chain_append]
      refine Handler.chain_congr hhead fun u hu => ih' hks hn ?_
      have hmaintains : Maintains (Recalls w) (Handler.chain (hs.map h.handler) c) := by
        refine Handler.maintains_chain fun g hg => ?_
        obtain ⟨x, hx, rfl⟩ := List.mem_map.1 hg
        exact maintains_handler (enduring_recalls w) hh x c
      have hkeeps := hmaintains v hv
      rw [hhead] at hu
      rwa [hu] at hkeeps

/-! ### Who is asked -/

/-- **Which of some handlers are asked about a condition, and what comes of it**: those that decline, in order,
up to one that decides or fails.  If all decline, nothing comes of it. -/
inductive Answered (h : Host) (c : Value) :
    List Value → World → List Value → Option (Except Fault Value) → World → Prop
  | nobody (w : World) : Answered h c [] w [] none w
  | declines {x : Value} {xs asked : List Value} {r : Option (Except Fault Value)} {u v w : World}
      (hx : h.apply x [c] w = .ok .null v) (hrest : Answered h c xs v asked r u) :
      Answered h c (x :: xs) w (x :: asked) r u
  | decides {x d : Value} {v w : World} (hx : h.apply x [c] w = .ok d v) (hd : d ≠ .null) (xs : List Value) :
      Answered h c (x :: xs) w [x] (some (.ok d)) v
  | fails {x : Value} {e : Fault} {v w : World} (hx : h.apply x [c] w = .error e v) (xs : List Value) :
      Answered h c (x :: xs) w [x] (some (.error e)) v

/-- What an answer is as the result of a chain. -/
def chainResult (w : World) : Option (Except Fault Value) → EStateM.Result Fault World (Option Value)
  | none => .ok none w
  | some (.ok d) => .ok (some d) w
  | some (.error e) => .error e w

section

variable {asked : List Value} {r : Option (Except Fault Value)}

theorem handler_of_apply {d : Value} (hx : h.apply x [c] w = .ok d v) :
    h.handler x c w = .ok d.notNull v := Act.bind_of_ok hx

/-- **What a chain comes to** is what comes of asking its handlers. -/
theorem Answered.chain_eq (hanswered : Answered h c hs w asked r v) :
    Handler.chain (hs.map h.handler) c w = chainResult v r := by
  induction hanswered with
  | nobody => rfl
  | declines hx _ ih => exact (Handler.chain_of_decline (handler_of_apply hx)).trans ih
  | decides hx hd =>
      refine Handler.chain_of_decision ((handler_of_apply hx).trans ?_)
      rw [notNull_of_ne hd]
  | fails hx => exact Handler.chain_of_error (Act.bind_of_error hx)

/-- Something always comes of asking handlers. -/
theorem exists_answered (h : Host) (c : Value) (hs : List Value) (w : World) :
    ∃ asked r v, Answered h c hs w asked r v := by
  induction hs generalizing w with
  | nil => exact ⟨[], none, w, .nobody w⟩
  | cons x hs ih =>
      cases hx : h.apply x [c] w with
      | error e v => exact ⟨[x], _, v, .fails hx hs⟩
      | ok d v =>
          by_cases hd : d = .null
          · obtain ⟨asked, r, u, hrest⟩ := ih v
            exact ⟨x :: asked, r, u, .declines (hd ▸ hx) hrest⟩
          · exact ⟨[x], _, v, .decides hx hd hs⟩

/-- The handlers that are asked are the first ones. -/
theorem Answered.isPrefix (hanswered : Answered h c hs w asked r v) : asked <+: hs := by
  induction hanswered with
  | nobody => exact List.prefix_rfl
  | declines _ _ ih => exact List.cons_prefix_cons.2 ⟨rfl, ih⟩
  | decides _ _ xs | fails _ xs => exact List.cons_prefix_cons.2 ⟨rfl, List.nil_prefix⟩

/-- What comes of asking handlers is determined. -/
theorem Answered.unique {asked' : List Value} {r' : Option (Except Fault Value)} {v' : World}
    (hanswered : Answered h c hs w asked r v) (hanswered' : Answered h c hs w asked' r' v') :
    asked' = asked ∧ r' = r ∧ v' = v := by
  induction hanswered generalizing asked' with
  | nobody =>
      cases hanswered'
      exact ⟨rfl, rfl, rfl⟩
  | declines hx _ ih =>
      cases hanswered' with
      | declines hx' hrest =>
          cases hx.symm.trans hx'
          obtain ⟨rfl, rfl, rfl⟩ := ih hrest
          exact ⟨rfl, rfl, rfl⟩
      | decides hx' hd =>
          cases hx.symm.trans hx'
          exact absurd rfl hd
      | fails hx' => cases hx.symm.trans hx'
  | decides hx hd =>
      cases hanswered' with
      | declines hx' hrest =>
          cases hx.symm.trans hx'
          exact absurd rfl hd
      | decides hx' =>
          cases hx.symm.trans hx'
          exact ⟨rfl, rfl, rfl⟩
      | fails hx' => cases hx.symm.trans hx'
  | fails hx =>
      cases hanswered' with
      | declines hx' | decides hx' => cases hx.symm.trans hx'
      | fails hx' =>
          cases hx.symm.trans hx'
          exact ⟨rfl, rfl, rfl⟩

/-- Whoever takes note of each handler that is asked has noted those that were, each once, in order. -/
theorem Answered.noted {κ : Type} {note : World → List κ} {name : Value → κ} {w₀ : World}
    (hanswered : Answered h c hs w asked r v) (hh : h.Maintains (Recalls w₀))
    (hnote : ∀ x ∈ hs, ∀ u, Recalls w₀ u → note (worldAfter (h.apply x [c]) u) = note u ++ [name x])
    (hw : Recalls w₀ w) : note v = note w ++ asked.map name := by
  induction hanswered with
  | nobody => rw [List.map_nil, List.append_nil]
  | @declines x xs asked r u v w hx _ ih =>
      have hnoted := hnote x List.mem_cons_self w hw
      have hkeeps := worldAfter_of_maintains (maintains_apply (enduring_recalls w₀) hh x [c]) hw
      rw [worldAfter, hx] at hnoted hkeeps
      rw [ih (fun y hy => hnote y (List.mem_cons_of_mem x hy)) hkeeps, hnoted, List.append_assoc]
      rfl
  | @decides x d v w hx hd xs =>
      have hnoted := hnote x List.mem_cons_self w hw
      rwa [worldAfter, hx] at hnoted
  | @fails x e v w hx xs =>
      have hnoted := hnote x List.mem_cons_self w hw
      rwa [worldAfter, hx] at hnoted

end

/-! ### Conditions -/

/-- **What becomes of a condition**, by what comes of asking its handlers: the answer, or the default, or
else the condition is fatal. -/
def settled (fatal : Fault) (default : Option Value) : Option (Except Fault Value) → Except Fault Value
  | some r => r
  | none =>
    match default with
    | some d => .ok d
    | none => .error fatal

/-- What an operation comes to: it fails, or it gives a value, which is handed out. -/
def Comes (m : M Value) (w : World) (r : Except Fault Value) (v : World) : Prop :=
  match r with
  | .ok d => ∃ d' marks, m w = .ok d' { v with marks } ∧ Handed d d'
  | .error e => m w = .error e v

theorem chain_singleton {ω ε γ δ : Type} (f : Handler ω ε γ δ) (c : γ) (w : ω) :
    Handler.chain [f] c w = f c w := by
  cases hrun : f c w with
  | error e u => exact Handler.chain_of_error hrun
  | ok r u =>
      cases r with
      | none => exact Handler.chain_of_decline hrun
      | some d => exact Handler.chain_of_decision hrun

theorem handler_of_spans (hh : h.Maintains (Recalls w)) (hf : w.Spans d [f] hs)
    (hunvarying : ∀ x ∈ hs, Unvarying h w c x) (hc : c.unmarked = false) (hn : d ≤ n) (hv : Recalls w v) :
    (h.up n).handler f c v = Handler.chain (hs.map h.handler) c v := by
  rw [← chain_of_spans hh hf hunvarying hc hn hv]
  exact (chain_singleton ..).symm

/-- A condition is handed out before anybody is asked about it. -/
theorem apply_handed {c' : Value} (hout : handOut c w = .ok c' v) (hc : c'.unmarked = false) :
    k.apply f [c] w = k.apply f [c'] v := by
  have hargs : [c].mapM handOut w = .ok [c'] v := by
    rw [List.mapM_cons, Act.bind_of_ok hout]
    rfl
  rw [apply_of_marked hc, Host.apply, Act.bind_of_ok hargs]

theorem handler_handed {c' : Value} (hout : handOut c w = .ok c' v) (hc : c'.unmarked = false) :
    k.handler f c w = k.handler f c' v := by
  simp only [Host.handler, bind, EStateM.bind, apply_handed hout hc]

/-- A handler's answer, as the value that it gives. -/
theorem apply_eq_handler (k : Host) (f c : Value) (w : World) :
    k.apply f [c] w = (do
      let decision ← k.handler f c
      pure (Value.ofOption decision)) w := by
  have hanswer : ∀ d : Value, Value.ofOption d.notNull = d := fun d => by cases d <;> rfl
  simp only [Host.handler, bind, EStateM.bind, pure, EStateM.pure]
  cases k.apply f [c] w with
  | error e u => rfl
  | ok d u => exact (congrArg (EStateM.Result.ok · u) (hanswer d)).symm

/-- **A condition is settled** by what its handler comes to, if it has one. -/
theorem resolve_comes {r : Option (Except Fault Value)} (hf : f ≠ .null)
    (hrun : k.handler f c w = chainResult v r) (default : Option Value) :
    Comes (k.callOp .resolve [c, f] (default.map fun x => ("default", x)).toList) w
      (settled (Host.fatal c) default r) v := by
  have hbound : Op.resolve.signature.bind? [c, f] (default.map fun x => ("default", x)).toList =
      some ([some c, some f, default], []) := by
    cases default <;> rfl
  have hperform : k.perform .resolve { bound := [some c, some f, default], extra := [] } w =
      match settled (Host.fatal c) default r with
      | .ok d => .ok d v
      | .error e => .error e v := by
    have hresolve : k.perform .resolve { bound := [some c, some f, default], extra := [] } =
        GraphRoutes.resolve Host.fatal (some (k.handler f)) default c := by
      change k.resolve f default c = _
      rw [Host.resolve, notNull_of_ne hf, Option.map_some]
    rw [hresolve, GraphRoutes.resolve.eq_def]
    simp only [bind, EStateM.bind, hrun]
    rcases r with _ | e | d
    · cases default <;> rfl
    · rfl
    · rfl
  cases hr : settled (Host.fatal c) default r with
  | error e =>
      rw [hr] at hperform
      change k.callOp .resolve _ _ w = _
      rw [Host.callOp, hbound]
      exact Act.bind_of_error (m := k.perform .resolve _) (f := handOut) hperform
  | ok d =>
      rw [hr] at hperform
      obtain ⟨d', marks, hout, hhanded⟩ := exists_handOut d v
      exact ⟨d', marks, (callOp_of_ok hbound hperform).trans hout, hhanded⟩

/-- A new chain has the handlers of its handlers. -/
theorem exists_chained (hfs : w.Spans d fs hs) (k : Host) :
    ∃ v, k.callOp .chainHandlers fs [] w = .ok (.ref .function w.functions.size) v ∧ Recalls w v ∧
      v.Spans (d + 1) [.ref .function w.functions.size] hs := by
  have hbound : Op.chainHandlers.signature.bind? fs ([] : List (String × Value)) = some ([], fs) := by
    cases fs <;> rfl
  have hrecalls : Recalls w { w with functions := w.functions.push (.chained fs) } := fun p f hp =>
    (Array.getElem?_push_lt (Array.getElem?_eq_some_iff.1 hp).1).trans (Array.getElem?_eq_getElem _ ▸ hp)
  refine ⟨_, (callOp_of_ok hbound rfl).trans rfl, hrecalls, ?_⟩
  have hnew := World.Spans.chain Array.getElem?_push_size (hfs.recall hrecalls) (.nobody (d + 1))
  rwa [List.append_nil] at hnew

/-- A handler that refuses fails with the error of the condition. -/
theorem apply_refuse (k : Host) (hc : c.unmarked = false) (w : World) :
    k.above.apply (.op .refuse) [c] w = .error (Host.fatal c) w := by
  rw [apply_of_marked hc]
  rfl

/-- **Handlers are asked in turn.**  Let some handlers do the same at every depth of a session from `m` on.  A condition that
is put before a chain of handlers, or a chain of such chains, however they are nested, comes before each of the
handlers in order, until one does not decline.

Whatever chains the same handlers, answers alike and leaves the same world; a chain of chains is made of the
handlers of those.  What comes of asking settles the condition: a decision does, whatever it is, and so does a
failure, even if there is a default; if all decline, the default does; and if there is none, the condition is
fatal.  Whoever takes note of the handlers that are asked finds that they are the first ones, up to the one that
decided or failed, each once, in order. -/
theorem conditions_settled {m : ℕ} {w : World} {hs : List Value} {kind : ConditionKind}
    {value message data : Value}
    (hunvarying : ∀ x ∈ hs, ∀ i, Unvarying (host m) w (.condition kind value message data (some i)) x)
    (mark : Mark) :
    let h := host m
    let c : Value := .condition kind value message data mark
    let fatal : Fault := .condition kind value message data
    (∀ d fs k, w.Spans d fs hs → ∃ v, Host.callOp k .chainHandlers fs [] w =
        .ok (.ref .function w.functions.size) v ∧ Recalls w v ∧
        v.Spans (d + 1) [.ref .function w.functions.size] hs) ∧
    (∀ d d' f g n, w.Spans d [f] hs → w.Spans d' [g] hs → d ≤ n → d' ≤ n →
      (h.up n).apply f [c] w = (h.up n).apply g [c] w) ∧
    ∃ i marks asked answer v,
      let c' : Value := .condition kind value message data (some i)
      handOut c w = .ok c' { w with marks } ∧ Answered h c' hs { w with marks } asked answer v ∧
      (∀ d f n default, w.Spans d [f] hs → f ≠ .null → d ≤ n →
        Comes ((h.up n).callOp .resolve [c, f] (default.map fun x => ("default", x)).toList) w
          (settled fatal default answer) v) ∧
      (.op .refuse ∈ hs → ∀ u, Recalls w u → h.apply (.op .refuse) [c'] u = .error fatal u) ∧
      asked <+: hs ∧
      ∀ (κ : Type) (note : World → List κ) (name : Value → κ),
        (∀ x ∈ hs, ∀ u, Recalls w u → note (worldAfter (h.apply x [c']) u) = note u ++ [name x]) →
        note v = note { w with marks } ++ asked.map name := by
  intro h c fatal
  have hh : h.Maintains (Recalls w) := maintains_host (enduring_recalls w) m
  obtain ⟨c', marks, hout, hhanded⟩ := exists_handOut c w
  obtain ⟨i, rfl⟩ := hhanded.exists_condition
  obtain ⟨asked, answer, v, hanswered⟩ :=
    exists_answered h (.condition kind value message data (some i)) hs { w with marks }
  have hw : Recalls w { w with marks } := fun _ _ hp => hp
  -- the handler is asked about the condition as it is handed out
  have hrun : ∀ d f n, w.Spans d [f] hs → d ≤ n → (h.up n).handler f c w = chainResult v answer := by
    intro d f n hf hn
    rw [handler_handed hout rfl, handler_of_spans hh hf (fun x hx => hunvarying x hx i) rfl hn hw]
    exact hanswered.chain_eq
  refine ⟨fun d fs k hfs => exists_chained hfs k, fun d d' f g n hf hg hn hn' => ?_,
    i, marks, asked, answer, v, hout, hanswered, fun d f n default hf hnull hn => ?_, fun hrefuse u hu => ?_,
    hanswered.isPrefix, fun κ note name hnote => hanswered.noted hh hnote hw⟩
  · rw [apply_eq_handler, apply_eq_handler]
    simp only [bind, EStateM.bind, hrun d f n hf hn, hrun d' g n hg hn']
  · exact resolve_comes hnull (hrun d f n hf hn) default
  · have halike := hunvarying _ hrefuse i 1 u hu
    rw [apply_of_marked rfl, ← halike, ← apply_of_marked rfl]
    exact apply_refuse h rfl u

/-! ### Handlers that are logged -/

/-- How the log tells that a handler was asked about a repeat of an element `x`. -/
def askedAbout (name : String) : Rendered :=
  .list [.str name, .tagged "cond" (.list [.str "on_cycle", .str "x", .str "", .tagged "d" (.list [])])]

/-- The world after an entry about a handler has been made. -/
def World.noting (w : World) (name : String) : World := { w with log := w.log.push (askedAbout name) }

theorem Recalls.noting (hv : Recalls w v) (name : String) : Recalls w (v.noting name) := hv

/-- Three handlers whose calls are logged: one declines, one decides that something is false, and one refuses;
and chains of them. -/
def loggedHandlers : World where
  functions := #[.constant .null, .deciding (.bool false), .traced (.str "declines") (.ref .function 0),
    .traced (.str "decides") (.ref .function 1), .traced (.str "refuses") (.op .refuse),
    .chained [.ref .function 3, .ref .function 4], .chained [.ref .function 2, .ref .function 5]]

/-- The handlers, in order. -/
def threeHandlers : List Value := [.ref .function 2, .ref .function 3, .ref .function 4]

/-- A repeat of an element `x`. -/
def repeatOfX (mark : Mark) : Value := .condition .cycle (.str "x") (.str "") (.dict default none) mark

/-- A logged handler is called after an entry has been made. -/
theorem call_traced {name : String} {mark : Mark} (hp : w.functions[p]? = some (.traced (.str name) f)) :
    k.above.call (.ref .function p) [repeatOfX mark] [] w =
      k.call f [repeatOfX mark] [] (w.noting name) := by
  refine (Act.bind_of_ok (m := get) rfl).trans ?_
  rw [hp]
  rfl

theorem exists_above_above (n : ℕ) : ∃ k : Host, (host 2).up n = k.above.above :=
  match n with
  | 0 => ⟨host 0, rfl⟩
  | 1 => ⟨host 1, rfl⟩
  | n + 2 => ⟨(host 2).up n, rfl⟩

theorem call_threeHandlers (hv : Recalls loggedHandlers v) (i : ℕ) (k : Host) :
    k.above.above.call (.ref .function 2) [repeatOfX (some i)] [] v =
        .ok .null (v.noting "declines") ∧
      k.above.above.call (.ref .function 3) [repeatOfX (some i)] [] v =
        .ok (.bool false) (v.noting "decides") ∧
      k.above.above.call (.ref .function 4) [repeatOfX (some i)] [] v =
        .error (.condition .cycle (.str "x") (.str "") (.dict default none))
          (v.noting "refuses") := by
  refine ⟨?_, ?_, ?_⟩
  · rw [call_traced (hv 2 _ rfl)]
    refine (Act.bind_of_ok (m := get) rfl).trans ?_
    rw [hv.noting "declines" 0 _ rfl]
    rfl
  · rw [call_traced (hv 3 _ rfl)]
    refine (Act.bind_of_ok (m := get) rfl).trans ?_
    rw [hv.noting "decides" 1 _ rfl]
    rfl
  · rw [call_traced (hv 4 _ rfl)]
    rfl

theorem unvarying_threeHandlers (hx : x ∈ threeHandlers) (i : ℕ) :
    Unvarying (host 2) loggedHandlers (repeatOfX (some i)) x := by
  intro n v hv
  have hlevels : ∃ r, ∀ k : Host, k.above.above.call x [repeatOfX (some i)] [] v = r := by
    simp only [threeHandlers, List.mem_cons, List.not_mem_nil, or_false] at hx
    rcases hx with rfl | rfl | rfl
    · exact ⟨_, fun k => (call_threeHandlers hv i k).1⟩
    · exact ⟨_, fun k => (call_threeHandlers hv i k).2.1⟩
    · exact ⟨_, fun k => (call_threeHandlers hv i k).2.2⟩
  obtain ⟨r, hr⟩ := hlevels
  obtain ⟨k, hk⟩ := exists_above_above n
  rw [hk, hr k]
  exact (hr (host 0)).symm

/-- The first handler declines, and the second decides. -/
theorem answered_threeHandlers (hw : Recalls loggedHandlers w) (i : ℕ) :
    Answered (host 2) (repeatOfX (some i)) threeHandlers w [.ref .function 2, .ref .function 3]
      (some (.ok (.bool false)))
      ((w.noting "declines").noting "decides") := by
  obtain ⟨hdeclines, -⟩ := call_threeHandlers hw i (host 0)
  obtain ⟨-, hdecides, -⟩ := call_threeHandlers (hw.noting "declines") i (host 0)
  rw [← apply_of_marked rfl] at hdeclines hdecides
  exact .declines hdeclines (.decides hdecides nofun _)

/-- The name under which a handler is logged. -/
def loggedName : Value → Rendered
  | .ref .function 2 => askedAbout "declines"
  | .ref .function 3 => askedAbout "decides"
  | _ => askedAbout "refuses"

/-- The log takes note of each handler that is asked. -/
theorem log_threeHandlers (hx : x ∈ threeHandlers) (hv : Recalls loggedHandlers v) (i : ℕ) :
    (worldAfter ((host 2).apply x [repeatOfX (some i)]) v).log.toList = v.log.toList ++ [loggedName x] := by
  obtain ⟨hdeclines, hdecides, hrefuses⟩ := call_threeHandlers hv i (host 0)
  rw [← apply_of_marked rfl] at hdeclines hdecides hrefuses
  have hentry : ∀ name, (v.noting name).log.toList = v.log.toList ++ [askedAbout name] :=
    fun name => Array.toList_push
  change (worldAfter ((host 0).above.above.apply x [repeatOfX (some i)]) v).log.toList = _
  simp only [threeHandlers, List.mem_cons, List.not_mem_nil, or_false] at hx
  rcases hx with rfl | rfl | rfl
  · rw [worldAfter, hdeclines]
    exact hentry "declines"
  · rw [worldAfter, hdecides]
    exact hentry "decides"
  · rw [worldAfter, hrefuses]
    exact hentry "refuses"

/-- Of three handlers in a chain in a chain, the second decides that a repeat does not matter, whatever the
default is; the third is not asked, and would have refused. -/
theorem conditions_settled_logged :
    (∀ x ∈ threeHandlers, ∀ i, Unvarying (host 2) loggedHandlers (repeatOfX (some i)) x) ∧
      loggedHandlers.Spans 2 [.ref .function 6] threeHandlers ∧
      ∃ v, (host 4).callOp .resolve [repeatOfX none, .ref .function 6] [("default", .bool true)] loggedHandlers =
          .ok (.bool false) v ∧
        v.log.toList = [askedAbout "declines", askedAbout "decides"] := by
  have hunvarying : ∀ x ∈ threeHandlers, ∀ i, Unvarying (host 2) loggedHandlers (repeatOfX (some i)) x :=
    fun x hx i => unvarying_threeHandlers hx i
  have hspans : loggedHandlers.Spans 2 [.ref .function 6] threeHandlers :=
    .chain (p := 6) rfl (.handler (.ref .function 2)
      (.chain (p := 5) rfl (.handler (.ref .function 3) (.handler (.ref .function 4) (.nobody 0))) (.nobody 1)))
      (.nobody 2)
  refine ⟨hunvarying, hspans, ?_⟩
  obtain ⟨-, -, i, marks, asked, answer, v, -, hanswered, hresolve, -, -, hnoted⟩ :=
    conditions_settled hunvarying none
  have hmarks : Recalls loggedHandlers { loggedHandlers with marks } := fun _ _ hp => hp
  obtain ⟨rfl, rfl, rfl⟩ := (answered_threeHandlers hmarks i).unique hanswered
  obtain ⟨d, marks', hrun, hhanded⟩ := hresolve 2 (.ref .function 6) 2 (some (.bool true)) hspans nofun le_rfl
  have hlog := hnoted Rendered (fun w => w.log.toList) loggedName fun x hx u hu => log_threeHandlers hx hu i
  cases hhanded with
  | same => exact ⟨_, hrun, hlog⟩
  | marked hunmarked => cases hunmarked

end Session

end GraphRoutes
