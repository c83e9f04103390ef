import FlowBlaze.Xl.MacroDefinitions
/-!
# Macro actions

A macro action should be an abbreviation: a program and its expansion have
the same tables, and only what was defined can be called. The compiler
keeps to this unless a macro action is called for a row whose body takes
actions from another macro action: those are left out.
-/

namespace FlowBlaze

namespace Xl

open Common

/-- **Macro actions are abbreviations**: replacing their calls, whatever the
definitions left over are called, changes no table, and a call of an
undefined one is rejected. -/
def MacrosAbbreviate (orders : Orders) (P : ProgramContext) : Prop :=
  (∀ rename : String → String, Function.Injective rename →
    (∀ T ∈ (P.expand rename).stages, T.CallsNoMacro) →
      compile orders (P.expand rename) = compile orders P) ∧
  ((∃ T ∈ P.stages, T.CallsUndefined) → compile orders P = none)

/-- **Macro actions that lose nothing are abbreviations**, in every program
whose macro actions are made of assignments, hardware actions, transitions
and calls of other macro actions. -/
theorem macrosAbbreviate_of_lossless (orders : Orders) {P : ProgramContext}
    (hplain : ∀ T ∈ P.stages, ∀ d ∈ T.definitions, d.PlainMacro)
    (hlossless : ∀ T ∈ P.stages, T.Lossless) : MacrosAbbreviate orders P := by
  refine ⟨fun rename hinj hcalls => compile_expand hinj orders hplain hcalls hlossless, ?_⟩
  rintro ⟨T, hT, hcalls⟩
  exact compile_of_undefined orders hT hcalls (hlossless T hT).body

/-- Hash maps walked in the order of their keys. -/
def keyOrders : Orders := ⟨⟨id, List.Perm.refl⟩, ⟨id, List.Perm.refl⟩⟩

/-- A macro action for a hardware action, called in an event. -/
def deleteProgram : ProgramContext :=
  .stageProgram [] [⟨"s", [.macroAction "m" [.action (.call "deleteInstance" [])]],
    [.action (.call "setFlowKey" [])],
    [⟨true, "A", [], [⟨"pktRcvd", [.action (.call "m" [])], []⟩]⟩]⟩]

/-- Its macro action is an abbreviation. -/
theorem macrosAbbreviate_deleteProgram : MacrosAbbreviate keyOrders deleteProgram := by
  refine macrosAbbreviate_of_lossless keyOrders (fun T hT d hd => ?_) fun T hT => ?_
  · cases List.mem_singleton.mp hT
    cases List.mem_singleton.mp hd
    intro element he
    cases List.mem_singleton.mp he
    exact ⟨_, rfl, by decide, by decide, by decide⟩
  · cases List.mem_singleton.mp hT
    refine ⟨fun a _ id hid => ?_, fun element he => ?_⟩
    · cases hid
    · exact ⟨_, List.mem_singleton.mp he⟩

/-- The same with a macro action between. -/
def nestedProgram : ProgramContext :=
  .stageProgram [] [⟨"s", [.macroAction "m" [.action (.call "deleteInstance" [])],
      .macroAction "m2" [.action (.call "m" [])]],
    [.action (.call "setFlowKey" [])],
    [⟨true, "A", [], [⟨"pktRcvd", [.action (.call "m2" [])], []⟩]⟩]⟩]

/-- **A macro action called by another brings nothing**: the row lacks the
action that its expansion has. -/
theorem not_macrosAbbreviate : ¬ MacrosAbbreviate keyOrders nestedProgram := by
  rintro ⟨hsame, -⟩
  have hcalls : ∀ T ∈ (nestedProgram.expand id).stages, T.CallsNoMacro := by
    intro T hT
    cases List.mem_singleton.mp hT
    intro a ha name hname _
    have hbuiltin : ∀ a ∈ (nestedProgram.expand id).stages.flatMap (·.actions),
        a.callee = some "deleteInstance" ∨ a.callee = some "setFlowKey" := by decide
    rcases hbuiltin a (List.mem_flatMap.mpr ⟨_, List.mem_singleton_self _, ha⟩) with h | h
    · rw [h] at hname
      cases hname
      decide
    · rw [h] at hname
      cases hname
      decide
  have hactions := congrArg (Option.map fun stages => stages.map fun S =>
    S.table.tableRows.map fun row => row.actions.length) (hsame id Function.injective_id hcalls)
  revert hactions
  decide +kernel

end Xl

end FlowBlaze
