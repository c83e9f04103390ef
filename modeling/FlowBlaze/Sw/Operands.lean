import FlowBlaze.Sw.Worker
/-!
# What the operands of an action denote

`xfsm_execute_actions` loads the operands into three variables that live
as long as the loop over the actions. Where a packet lacks a header field,
the variable holds what an earlier action left there, while
`evaluate_condition` starts from zero each time. And `XFSM_SENDPKT` takes
its port from the action as it is, whatever kind of operand it is.
-/

namespace FlowBlaze

namespace Sw

open Common

/-! ## Denotations -/

/-- **What an operand denotes**, as `evaluate_condition` has it: zero where
the packet lacks the field. -/
def Env.denoted (E : Env) (regs : Registers) (type : XfsmValueType) (value : Word64) :
    Option Word64 :=
  E.operand regs type value 0

/-- The value of an operand, if it has one: the packet may lack the field. -/
def Env.value (E : Env) (regs : Registers) (type : XfsmValueType) (value : Word64) :
    Option Word64 :=
  match type with
  | .xfsmRegister => regs.get value.toNat
  | .xfsmGlobalRegister => E.globalRegisters.get value.toNat
  | .xfsmConstant => some value
  | .xfsmHdrField =>
    (HdrField.ofNumber value.toNat).bind fun f => (getHdrValue E.mem E.pktFields f).join
  | .other => none

/-- **An operand as the code loads it**: its value, or what the variable
held. -/
theorem operand_eq_map (E : Env) (regs : Registers) (type : XfsmValueType) (value old : Word64) :
    E.operand regs type value old =
      (E.denoted regs type value).map fun _ => (E.value regs type value).getD old := by
  unfold Env.denoted Env.operand Env.value
  cases type with
  | xfsmRegister => cases regs.get value.toNat <;> rfl
  | xfsmGlobalRegister => cases E.globalRegisters.get value.toNat <;> rfl
  | xfsmConstant => rfl
  | xfsmHdrField =>
    cases HdrField.ofNumber value.toNat with
    | none => rfl
    | some f =>
      simp only [Option.bind_eq_bind, Option.bind_some]
      cases getHdrValue E.mem E.pktFields f with
      | none => rfl
      | some read => cases read <;> rfl
  | other => rfl

/-- What is denoted is the value, or zero. -/
theorem denoted_eq_map (E : Env) (regs : Registers) (type : XfsmValueType) (value : Word64) :
    E.denoted regs type value =
      (E.denoted regs type value).map fun _ => (E.value regs type value).getD 0 :=
  operand_eq_map E regs type value 0

/-- An operand is settled by what its variable holds if it has a value, or
the variable holds zero. -/
def Settled (held : Word64) (value : Option Word64) : Prop := value = none → held = 0

theorem getD_eq_iff {held : Word64} {value : Option Word64} :
    value.getD held = value.getD 0 ↔ Settled held value := by
  unfold Settled
  cases value with
  | none => exact ⟨fun h _ => h, fun h => h rfl⟩
  | some v => exact iff_of_true rfl fun h => by cases h

namespace Exec

variable (fields : PktFields)

/-- What the first operand denotes: the number of a field that is to be
set stands for itself. -/
def denoted1 (act : XfsmAction) (X : Exec) : Option Word64 :=
  if named act then some act.value1
  else (X.env fields).denoted X.registers act.type1 act.value1

/-- What the second operand denotes. -/
def denoted2 (act : XfsmAction) (X : Exec) : Option Word64 :=
  (X.env fields).denoted X.registers act.type2 act.value2

/-- What the third operand denotes. -/
def denoted3 (act : XfsmAction) (X : Exec) : Option Word64 :=
  (X.env fields).denoted X.registers act.type3 act.value3

/-- The value of the first operand, if it has one. -/
def value1 (act : XfsmAction) (X : Exec) : Option Word64 :=
  if named act then some act.value1
  else (X.env fields).value X.registers act.type1 act.value1

/-- The value of the second operand. -/
def value2 (act : XfsmAction) (X : Exec) : Option Word64 :=
  (X.env fields).value X.registers act.type2 act.value2

/-- The value of the third operand. -/
def value3 (act : XfsmAction) (X : Exec) : Option Word64 :=
  (X.env fields).value X.registers act.type3 act.value3

/-- **An action uses what its operands denote.** -/
def UsesDenoted (act : XfsmAction) (X : Exec) : Prop :=
  ∃ Y, X.fetch fields act = some Y ∧
    match act.type with
    | .xfsmUpdate => X.denoted1 fields act = some Y.reg1 ∧ X.denoted2 fields act = some Y.reg2
    | .xfsmSendpkt => X.denoted2 fields act = some (Y.sendpkt act).reg2
    | .xfsmSetfield => X.denoted1 fields act = some Y.reg1 ∧ X.denoted3 fields act = some Y.reg3
    | .xfsmDestroy => True

/-- **Every action that is executed** uses what its operands denote. -/
def OperandsDenote : Exec → List XfsmAction → Prop
  | _, [] => True
  | X, act :: actions =>
    X.UsesDenoted fields act ∧
      ∀ X', Exec.step fields X act = some X' → OperandsDenote X' actions

/-! ## What the variables hold -/

/-- The values that earlier actions left. -/
structure Held where
  reg1 : Word64
  reg2 : Word64
  reg3 : Word64

/-- An action leaves the values that its operands have. `XFSM_SENDPKT`
leaves the number that stands for its second operand. -/
def Held.next (held : Held) (act : XfsmAction) (X : Exec) : Held where
  reg1 := (X.value1 fields act).getD held.reg1
  reg2 := if act.type = .xfsmSendpkt then act.value2 else (X.value2 fields act).getD held.reg2
  reg3 := (X.value3 fields act).getD held.reg3

/-- The operands that are used are settled by the values left, and the port
is denoted by its own number. -/
structure Settles (act : XfsmAction) (X : Exec) (held : Held) : Prop where
  fetched1 : (X.denoted1 fields act).isSome = true
  fetched2 : (X.denoted2 fields act).isSome = true
  fetched3 : (X.denoted3 fields act).isSome = true
  reg1 : act.type = .xfsmUpdate ∨ act.type = .xfsmSetfield →
    Settled held.reg1 (X.value1 fields act)
  reg2 : act.type = .xfsmUpdate → Settled held.reg2 (X.value2 fields act)
  reg3 : act.type = .xfsmSetfield → Settled held.reg3 (X.value3 fields act)
  port : act.type = .xfsmSendpkt → X.denoted2 fields act = some act.value2

/-- **All the actions that are executed** find their operands settled. -/
def AllSettled : Held → Exec → List XfsmAction → Prop
  | _, _, [] => True
  | held, X, act :: actions =>
    X.Settles fields act held ∧
      ∀ X', Exec.step fields X act = some X' → AllSettled (held.next fields act X) X' actions

section Steps

variable {fields} {act : XfsmAction} {X X' Y : Exec}

theorem operand1_eq : X.operand1 fields act =
    (X.denoted1 fields act).map fun _ => (X.value1 fields act).getD X.reg1 := by
  unfold operand1 denoted1 value1
  by_cases hnamed : named act
  · rw [if_pos hnamed, if_pos hnamed, if_pos hnamed]
    rfl
  · rw [if_neg hnamed, if_neg hnamed, if_neg hnamed]
    exact operand_eq_map _ _ _ _ _

theorem denoted1_eq : X.denoted1 fields act =
    (X.denoted1 fields act).map fun _ => (X.value1 fields act).getD 0 := by
  unfold denoted1 value1
  by_cases hnamed : named act
  · rw [if_pos hnamed, if_pos hnamed]
    rfl
  · rw [if_neg hnamed, if_neg hnamed]
    exact denoted_eq_map _ _ _ _

/-- **What the `switch`es load**: the values, or what the variables held. -/
theorem fetch_eq_some_iff : X.fetch fields act = some Y ↔
    (X.denoted1 fields act).isSome = true ∧ (X.denoted2 fields act).isSome = true ∧
      (X.denoted3 fields act).isSome = true ∧
      Y = { X with
        reg1 := (X.value1 fields act).getD X.reg1
        reg2 := (X.value2 fields act).getD X.reg2
        reg3 := (X.value3 fields act).getD X.reg3
        events := X.events ++ fetchEvents fields act } := by
  unfold fetch
  rw [operand1_eq, operand_eq_map, operand_eq_map]
  change ((X.denoted1 fields act).map _).bind (fun reg1 => ((X.denoted2 fields act).map _).bind
    fun reg2 => ((X.denoted3 fields act).map _).bind fun reg3 => _) = _ ↔ _
  cases X.denoted1 fields act with
  | none => simp
  | some d1 =>
    cases X.denoted2 fields act with
    | none => simp
    | some d2 =>
      cases X.denoted3 fields act with
      | none => simp
      | some d3 =>
        simp only [Option.map_some, Option.bind_some, Option.isSome_some, true_and]
        exact Option.some_inj.trans eq_comm

/-- Performing an action leaves the variables, but for a port. -/
theorem regs_of_perform (h : Y.perform fields act = some X') :
    X'.reg1 = Y.reg1 ∧ X'.reg2 = (if act.type = .xfsmSendpkt then act.value2 else Y.reg2) ∧
      X'.reg3 = Y.reg3 := by
  unfold perform at h
  cases htype : act.type with
  | xfsmUpdate =>
    rw [htype] at h
    obtain ⟨result, -, h⟩ := Option.bind_eq_some_iff.mp h
    split at h
    · obtain ⟨_, -, rfl⟩ := Option.map_eq_some_iff.mp h
      exact ⟨rfl, rfl, rfl⟩
    · obtain ⟨_, -, rfl⟩ := Option.map_eq_some_iff.mp h
      exact ⟨rfl, rfl, rfl⟩
  | xfsmSendpkt =>
    rw [htype] at h
    cases h
    unfold sendpkt
    dsimp only
    split <;> exact ⟨rfl, rfl, rfl⟩
  | xfsmSetfield =>
    rw [htype] at h
    obtain ⟨f, -, h⟩ := Option.bind_eq_some_iff.mp h
    split at h
    · cases h
      exact ⟨rfl, rfl, rfl⟩
    · obtain ⟨_, -, rfl⟩ := Option.map_eq_some_iff.mp h
      exact ⟨rfl, rfl, rfl⟩
  | xfsmDestroy =>
    rw [htype] at h
    cases h
    exact ⟨rfl, rfl, rfl⟩

/-- What the variables hold. -/
def held (X : Exec) : Held := ⟨X.reg1, X.reg2, X.reg3⟩

/-- **After a step the variables hold what the action left.** -/
theorem held_of_step (h : Exec.step fields X act = some X') :
    X'.held = X.held.next fields act X := by
  obtain ⟨Y, hfetch, hperform⟩ := Option.bind_eq_some_iff.mp h
  obtain ⟨-, -, -, rfl⟩ := fetch_eq_some_iff.mp hfetch
  obtain ⟨h1, h2, h3⟩ := regs_of_perform hperform
  unfold held Held.next
  rw [h1, h2, h3]

/-- A variable holds what its operand denotes exactly where it settles
it. -/
theorem denoted_eq_some_iff {denoted value : Option Word64} {old : Word64}
    (hdenoted : denoted = denoted.map fun _ => value.getD 0) (hsome : denoted.isSome = true) :
    denoted = some (value.getD old) ↔ Settled old value := by
  obtain ⟨d, rfl⟩ := Option.isSome_iff_exists.mp hsome
  rw [Option.map_some] at hdenoted
  rw [hdenoted, Option.some_inj, eq_comm]
  exact getD_eq_iff

/-- **One action**: it uses what its operands denote exactly where the
variables settle them. -/
theorem usesDenoted_iff : X.UsesDenoted fields act ↔ X.Settles fields act X.held := by
  unfold UsesDenoted
  have h2 : X.denoted2 fields act =
      (X.denoted2 fields act).map fun _ => (X.value2 fields act).getD 0 := denoted_eq_map _ _ _ _
  have h3 : X.denoted3 fields act =
      (X.denoted3 fields act).map fun _ => (X.value3 fields act).getD 0 := denoted_eq_map _ _ _ _
  constructor
  · rintro ⟨Y, hfetch, huses⟩
    obtain ⟨hf1, hf2, hf3, rfl⟩ := fetch_eq_some_iff.mp hfetch
    cases htype : act.type with
    | xfsmUpdate =>
      simp only [htype] at huses
      exact ⟨hf1, hf2, hf3, fun _ => (denoted_eq_some_iff denoted1_eq hf1).mp huses.1,
        fun _ => (denoted_eq_some_iff h2 hf2).mp huses.2, fun h => by simp [htype] at h,
        fun h => by simp [htype] at h⟩
    | xfsmSendpkt =>
      simp only [htype] at huses
      have hport : X.denoted2 fields act = some act.value2 := by
        unfold sendpkt at huses
        dsimp only at huses
        split at huses <;> exact huses
      exact ⟨hf1, hf2, hf3, fun h => by simp [htype] at h, fun h => by simp [htype] at h,
        fun h => by simp [htype] at h, fun _ => hport⟩
    | xfsmSetfield =>
      simp only [htype] at huses
      exact ⟨hf1, hf2, hf3, fun _ => (denoted_eq_some_iff denoted1_eq hf1).mp huses.1,
        fun h => by simp [htype] at h, fun _ => (denoted_eq_some_iff h3 hf3).mp huses.2,
        fun h => by simp [htype] at h⟩
    | xfsmDestroy =>
      exact ⟨hf1, hf2, hf3, fun h => by simp [htype] at h, fun h => by simp [htype] at h,
        fun h => by simp [htype] at h, fun h => by simp [htype] at h⟩
  · intro hsettles
    refine ⟨_, fetch_eq_some_iff.mpr
      ⟨hsettles.fetched1, hsettles.fetched2, hsettles.fetched3, rfl⟩, ?_⟩
    cases htype : act.type with
    | xfsmUpdate =>
      exact ⟨(denoted_eq_some_iff denoted1_eq hsettles.fetched1).mpr (hsettles.reg1 (.inl htype)),
        (denoted_eq_some_iff h2 hsettles.fetched2).mpr (hsettles.reg2 htype)⟩
    | xfsmSendpkt =>
      dsimp only
      unfold sendpkt
      dsimp only
      split <;> exact hsettles.port htype
    | xfsmSetfield =>
      exact ⟨(denoted_eq_some_iff denoted1_eq hsettles.fetched1).mpr (hsettles.reg1 (.inr htype)),
        (denoted_eq_some_iff h3 hsettles.fetched3).mpr (hsettles.reg3 htype)⟩
    | xfsmDestroy => trivial

/-- A state without what its variables hold. -/
def clear (X : Exec) : Exec := { X with reg1 := 0, reg2 := 0, reg3 := 0 }

/-- **What an action does then does not depend on the variables**: earlier
actions matter to it by the registers and the packet only. -/
theorem step_clear (h : X.UsesDenoted fields act) :
    (step fields X act).map clear = (step fields X.clear act).map clear := by
  have hsettles := usesDenoted_iff.mp h
  have hfetch := fetch_eq_some_iff.mpr
    ⟨hsettles.fetched1, hsettles.fetched2, hsettles.fetched3, rfl⟩
  have hclear : X.clear.fetch fields act = some _ := fetch_eq_some_iff.mpr
    ⟨hsettles.fetched1, hsettles.fetched2, hsettles.fetched3, rfl⟩
  unfold step
  rw [hfetch, hclear, Option.bind_some, Option.bind_some]
  unfold perform
  cases htype : act.type with
  | xfsmUpdate =>
    have hreg1 : (X.value1 fields act).getD X.reg1 = (X.value1 fields act).getD 0 :=
      getD_eq_iff.mpr (hsettles.reg1 (.inl htype))
    have hreg2 : (X.value2 fields act).getD X.reg2 = (X.value2 fields act).getD 0 :=
      getD_eq_iff.mpr (hsettles.reg2 htype)
    change (Exec.update act _).map clear = (Exec.update act _).map clear
    unfold update
    rw [hreg1, hreg2]
    change _ = Option.map clear ((act.opcode.apply ((X.value1 fields act).getD 0)
      ((X.value2 fields act).getD 0)).bind _)
    cases act.opcode.apply ((X.value1 fields act).getD 0) ((X.value2 fields act).getD 0) with
    | none => rfl
    | some result =>
      rw [Option.bind_some, Option.bind_some]
      split
      · rw [Option.map_map, Option.map_map]
        rfl
      · rw [Option.map_map, Option.map_map]
        rfl
  | xfsmSendpkt =>
    change some (clear (sendpkt act _)) = some (clear (sendpkt act _))
    unfold sendpkt
    dsimp only
    split <;> rfl
  | xfsmSetfield =>
    have hreg1 : (X.value1 fields act).getD X.reg1 = (X.value1 fields act).getD 0 :=
      getD_eq_iff.mpr (hsettles.reg1 (.inr htype))
    have hreg3 : (X.value3 fields act).getD X.reg3 = (X.value3 fields act).getD 0 :=
      getD_eq_iff.mpr (hsettles.reg3 htype)
    change (setfield fields _).map clear = (setfield fields _).map clear
    unfold setfield
    rw [hreg1]
    change _ = Option.map clear ((HdrField.ofNumber ((X.value1 fields act).getD 0).toNat).bind _)
    cases HdrField.ofNumber ((X.value1 fields act).getD 0).toNat with
    | none => rfl
    | some f =>
      rw [Option.bind_some, Option.bind_some]
      cases fields f with
      | none => rfl
      | some ptr =>
        dsimp only
        rw [hreg3, Option.map_map, Option.map_map]
        rfl
  | xfsmDestroy => rfl

/-- **A list of actions**, from any values that the variables hold. -/
theorem operandsDenote_iff_allSettled {actions : List XfsmAction} :
    OperandsDenote fields X actions ↔ AllSettled fields X.held X actions := by
  induction actions generalizing X with
  | nil => exact Iff.rfl
  | cons act actions ih =>
    unfold OperandsDenote AllSettled
    rw [usesDenoted_iff]
    refine and_congr_right fun _ => forall_congr' fun X' => ?_
    constructor
    · intro h hstep
      rw [← held_of_step hstep]
      exact ih.mp (h hstep)
    · intro h hstep
      refine ih.mpr ?_
      rw [held_of_step hstep]
      exact h hstep

end Steps

end Exec

/-- **When the operands of a list of actions denote what the program says**:
each action that is executed finds its operands settled by the values that
the actions before it left, none to begin with. -/
theorem operandsDenote_iff {H : SlotMap FlowKey} (I : Instances H) (place : ℕ) (env : Env)
    (actions : List XfsmAction) :
    Exec.OperandsDenote env.pktFields (I.start place env) actions ↔
      Exec.AllSettled env.pktFields ⟨0, 0, 0⟩ (I.start place env) actions :=
  Exec.operandsDenote_iff_allSettled

/-- Sending to the port that a register holds. -/
def sendRegister (register : Word64) : XfsmAction :=
  ⟨.xfsmSendpkt, .xfsmSum, .xfsmConstant, 255, .xfsmRegister, register, .xfsmRegister, 0, 0,
    .xfsmRegister⟩

/-- **Register 1 holds zero**, and the packet is sent to port 1. -/
theorem not_operandsDenote :
    ¬Exec.OperandsDenote .null
      ((Instances.create (listSlotMap FlowKey)).start 0 ⟨fun _ => 0, .null, ⟨0, ⟨0, ⟨[], 0, 0⟩⟩⟩⟩)
      [sendRegister 1] := by
  rintro ⟨⟨Y, hfetch, hport⟩, -⟩
  obtain ⟨-, -, -, rfl⟩ := Exec.fetch_eq_some_iff.mp hfetch
  have hport : some (0 : Word64) = some 1 := hport
  cases hport

end Sw

end FlowBlaze
