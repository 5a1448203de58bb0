/-
**Instructions: what a descent does with the element that it visits.**

Main definitions:

* `GraphRoutes.Instruction` — give the element, go below it, go on beside it, forget its ancestors:
  four decisions, each of which is read when it is due;
* `GraphRoutes.Preset` — the eight instructions that have names.
-/

set_option relaxedAutoImplicit false
set_option autoImplicit false

namespace GraphRoutes

/-- The decisions of a control about one element, each in `τ`. -/
structure Instruction (τ : Type) where
  /-- Give the element. -/
  emit : τ
  /-- Visit its children. -/
  descend : τ
  /-- Visit its siblings, once what is below it is done. -/
  continueSiblings : τ
  /-- Let the path of the children begin anew. -/
  resetPath : τ
  deriving DecidableEq, Repr

/-- The named instructions. -/
inductive Preset where
  | emitAndContinue
  | emit
  | emitAndChain
  | emitAndCut
  | proceed
  | ignore
  | chain
  | cut
  deriving DecidableEq, Repr

namespace Preset

/-- The instruction of a name. -/
def instruction : Preset → Instruction Bool
  | emitAndContinue => ⟨true, true, true, false⟩
  | emit => ⟨true, false, true, false⟩
  | emitAndChain => ⟨true, true, false, false⟩
  | emitAndCut => ⟨true, false, false, false⟩
  | proceed => ⟨false, true, true, false⟩
  | ignore => ⟨false, false, true, false⟩
  | chain => ⟨false, true, false, false⟩
  | cut => ⟨false, false, false, false⟩

/-- All presets, in the alphabetical order of their names. -/
def all : List Preset :=
  [chain, proceed, cut, emit, emitAndChain, emitAndContinue, emitAndCut, ignore]

/-- How a preset is written. -/
def name : Preset → String
  | emitAndContinue => "emit_and_continue"
  | emit => "emit"
  | emitAndChain => "emit_and_chain"
  | emitAndCut => "emit_and_cut"
  | proceed => "continue"
  | ignore => "ignore"
  | chain => "chain"
  | cut => "cut"

/-- The preset that a text names. -/
def ofName? (s : String) : Option Preset := all.find? fun p => p.name = s

/-- Whether the first three decisions of an instruction are those of some preset: all of them
are. -/
theorem exists_instruction (i : Instruction Bool) :
    ∃ p : Preset, p.instruction = { i with resetPath := false } := by
  rcases i with ⟨e, d, c, _⟩
  cases e <;> cases d <;> cases c
  · exact ⟨.cut, rfl⟩
  · exact ⟨.ignore, rfl⟩
  · exact ⟨.chain, rfl⟩
  · exact ⟨.proceed, rfl⟩
  · exact ⟨.emitAndCut, rfl⟩
  · exact ⟨.emit, rfl⟩
  · exact ⟨.emitAndChain, rfl⟩
  · exact ⟨.emitAndContinue, rfl⟩

end Preset

end GraphRoutes
