import FlowBlaze.Sw.Actions
/-!
# What conditions and actions read

A condition or an action names the header fields it reads: an operand
that is a field names it by its number. `XFSM_SETFIELD` may also take the
number of the field it sets from a register or a constant, and then it
may be any. What is computed depends on the pointers of the fields named,
and on no other.
-/

namespace FlowBlaze

namespace Sw

/-- The operand is that field. -/
def OperandNames (type : XfsmValueType) (value : Word64) (f : HdrField) : Prop :=
  type = .xfsmHdrField ∧ HdrField.ofNumber value.toNat = some f

/-- **A condition names a field.** -/
def XfsmCondition.Names (cond : XfsmCondition) (f : HdrField) : Prop :=
  OperandNames cond.type1 cond.value1 f ∨ OperandNames cond.type2 cond.value2 f

/-- **An action names a field.** A field to set that is not named by its
number may be any. -/
def XfsmAction.Names (act : XfsmAction) (f : HdrField) : Prop :=
  OperandNames act.type1 act.value1 f ∨ OperandNames act.type2 act.value2 f ∨
    OperandNames act.type3 act.value3 f ∨
    (act.type = .xfsmSetfield ∧ act.type1 ≠ .xfsmHdrField)

section Congr

variable {G : Registers} {M : Mem} {fields fields' : PktFields} {regs : Registers}

/-- An operand depends on the pointer of the field it is. -/
theorem operand_congr {type : XfsmValueType} {value : Word64}
    (h : ∀ f, OperandNames type value f → fields f = fields' f) (old : Word64) :
    (Env.mk G fields M).operand regs type value old =
      (Env.mk G fields' M).operand regs type value old := by
  cases type with
  | xfsmHdrField =>
    unfold Env.operand
    cases hf : HdrField.ofNumber value.toNat with
    | none => rfl
    | some f =>
      have hget : getHdrValue M fields f = getHdrValue M fields' f := by
        unfold getHdrValue
        rw [h f ⟨rfl, hf⟩]
      simp only [Option.bind_eq_bind, Option.bind_some, hget]
  | _ => rfl

/-- **Conditions depend on the fields they name.** -/
theorem xfsmEvaluateConditions_congr {conditions : Fin maxConditions → XfsmCondition} {n : ℕ}
    (h : ∀ i : Fin maxConditions, i.val < n → ∀ f, (conditions i).Names f → fields f = fields' f)
    (results : Results) :
    xfsmEvaluateConditions ⟨G, fields, M⟩ conditions n regs results =
      xfsmEvaluateConditions ⟨G, fields', M⟩ conditions n regs results := by
  induction n with
  | zero => rfl
  | succ n ih =>
    rw [xfsmEvaluateConditions_succ, xfsmEvaluateConditions_succ,
      ih fun i hi => h i (Nat.lt_succ_of_lt hi)]
    refine congrArg _ (funext fun before => ?_)
    unfold writeResult
    by_cases hn : n < maxConditions
    · have hnames := h ⟨n, hn⟩ (Nat.lt_succ_self n)
      unfold evaluateCondition
      rw [dif_pos hn, dif_pos hn, operand_congr fun f hf => hnames f (.inl hf),
        operand_congr fun f hf => hnames f (.inr hf)]
    · rw [dif_neg hn, dif_neg hn]

/-- More conditions than there is room for cannot be evaluated. -/
theorem xfsmEvaluateConditions_room {E : Env} {conditions : Fin maxConditions → XfsmCondition}
    {n : ℕ} {results results' : Results}
    (h : xfsmEvaluateConditions E conditions n regs results = some results') :
    n ≤ maxConditions := by
  induction n generalizing results' with
  | zero => exact Nat.zero_le _
  | succ n ih =>
    rw [xfsmEvaluateConditions_succ] at h
    obtain ⟨before, hbefore, h⟩ := Option.bind_eq_some_iff.mp h
    by_contra hlt
    unfold writeResult at h
    rw [dif_neg (by omega)] at h
    cases h

/-- What the results were before does not matter to those of the
conditions. -/
theorem xfsmEvaluateConditions_results {E : Env} {conditions : Fin maxConditions → XfsmCondition}
    {n : ℕ} {results₁ results₂ results₁' : Results}
    (h : xfsmEvaluateConditions E conditions n regs results₁ = some results₁') :
    ∃ results₂', xfsmEvaluateConditions E conditions n regs results₂ = some results₂' ∧
      ∀ i : Fin maxConditions, i.val < n → results₁' i = results₂' i := by
  induction n generalizing results₁' with
  | zero => exact ⟨results₂, rfl, fun i hi => absurd hi (Nat.not_lt_zero _)⟩
  | succ n ih =>
    rw [xfsmEvaluateConditions_succ] at h ⊢
    obtain ⟨before₁, hbefore₁, h⟩ := Option.bind_eq_some_iff.mp h
    obtain ⟨before₂, hbefore₂, hsame⟩ := ih hbefore₁
    rw [hbefore₂, Option.bind_some]
    unfold writeResult at h ⊢
    by_cases hn : n < maxConditions
    · rw [dif_pos hn] at h ⊢
      obtain ⟨result, hresult, rfl⟩ := Option.map_eq_some_iff.mp h
      rw [hresult]
      refine ⟨fun j => if j.val = n then result else before₂ j, rfl, fun i hi => ?_⟩
      by_cases hin : i.val = n
      · exact (if_pos hin).trans (if_pos hin).symm
      · exact (if_neg hin).trans ((hsame i (by omega)).trans (if_neg hin).symm)
    · rw [dif_neg hn] at h
      cases h

variable {act : XfsmAction} {X : Exec}

theorem touch_congr {f : HdrField} (h : fields f = fields' f) :
    fields.touch f = fields'.touch f := by
  unfold PktFields.touch
  rw [h]

theorem operandEvents_congr {type : XfsmValueType} {value : Word64}
    (h : ∀ f, OperandNames type value f → fields f = fields' f) :
    Exec.operandEvents fields type value = Exec.operandEvents fields' type value := by
  cases type with
  | xfsmHdrField =>
    unfold Exec.operandEvents
    cases hf : HdrField.ofNumber value.toNat with
    | none => rfl
    | some f =>
      show ((some f).map fields.touch).getD [] = ((some f).map fields'.touch).getD []
      simp only [Option.map_some, touch_congr (h f ⟨rfl, hf⟩)]
  | _ => rfl

/-- Fetching operands depends on the fields named. -/
theorem fetch_congr (h : ∀ f, act.Names f → fields f = fields' f) :
    X.fetch fields act = X.fetch fields' act := by
  have h1 := fun f (hf : OperandNames act.type1 act.value1 f) => h f (.inl hf)
  have h2 := fun f (hf : OperandNames act.type2 act.value2 f) => h f (.inr (.inl hf))
  have h3 := fun f (hf : OperandNames act.type3 act.value3 f) => h f (.inr (.inr (.inl hf)))
  unfold Exec.fetch Exec.operand1 Exec.fetchEvents Exec.env
  rw [operand_congr h1, operand_congr h2, operand_congr h3, operandEvents_congr h1,
    operandEvents_congr h2, operandEvents_congr h3]

/-- The first operand of a field to set is its number. -/
theorem reg1_of_fetch {Y : Exec} (hnamed : Exec.named act) (h : X.fetch fields act = some Y) :
    Y.reg1 = act.value1 := by
  unfold Exec.fetch Exec.operand1 at h
  rw [if_pos hnamed] at h
  obtain ⟨reg1, hreg1, h⟩ := Option.bind_eq_some_iff.mp h
  obtain ⟨reg2, -, h⟩ := Option.bind_eq_some_iff.mp h
  obtain ⟨reg3, -, h⟩ := Option.bind_eq_some_iff.mp h
  obtain rfl := Option.some.inj h
  exact (Option.some.inj hreg1).symm

/-- **An action depends on the fields it names.** -/
theorem step_congr (h : ∀ f, act.Names f → fields f = fields' f) :
    X.step fields act = X.step fields' act := by
  unfold Exec.step
  rw [fetch_congr h]
  cases hY : X.fetch fields' act with
  | none => rfl
  | some Y =>
    show Y.perform fields act = Y.perform fields' act
    unfold Exec.perform
    cases htype : act.type with
    | xfsmSetfield =>
      show Y.setfield fields = Y.setfield fields'
      unfold Exec.setfield
      cases hf : HdrField.ofNumber Y.reg1.toNat with
      | none => rfl
      | some f =>
        have hfields : fields f = fields' f := by
          by_cases hnamed : Exec.named act
          · refine h f (.inl ⟨hnamed.1, ?_⟩)
            rw [← reg1_of_fetch hnamed hY]
            exact hf
          · exact h f (.inr (.inr (.inr ⟨htype, fun htype1 => hnamed ⟨htype1, htype⟩⟩)))
        simp only [Option.bind_some, hfields, touch_congr hfields]
    | _ => rfl

/-- **So do the actions of a row.** -/
theorem xfsmExecuteActions_congr {actions : List XfsmAction}
    (h : ∀ act ∈ actions, ∀ f, act.Names f → fields f = fields' f) :
    xfsmExecuteActions fields actions X = xfsmExecuteActions fields' actions X := by
  unfold xfsmExecuteActions
  split
  · induction actions generalizing X with
    | nil => rfl
    | cons act actions ih =>
      rw [List.foldlM_cons, List.foldlM_cons, step_congr (h act List.mem_cons_self)]
      refine congrArg _ (funext fun Y => ih (fun a ha => h a (List.mem_cons_of_mem _ ha)) ?_)
      simp only [List.length_cons] at *
      omega
  · rfl

end Congr

end Sw

end FlowBlaze
