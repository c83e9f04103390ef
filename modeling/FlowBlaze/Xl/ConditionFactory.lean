import FlowBlaze.Xl.Operand
import Mathlib.Data.List.Forall2
/-!
# Conditions and their ids — `ConditionFactory.java`

A stage's conditions are shared: a condition that was met before is
looked up by its operator and operands, and its id reused. The rows refer
to conditions by id, and the conditions array of the stage is the keys of
the map.

An id is reused for the operands the generated `equals` identifies, and
that is more than it should: a local and a global register of one name,
say, count as one operand. `faithful_iff` says that this is all that can
go wrong.
-/

namespace FlowBlaze

namespace Xl

open Common

/-- `ConditionOpcode`. -/
inductive ConditionOpcode
  | xtraLess
  | xtraLessEq
  | xtraGreater
  | xtraGreaterEq
  | xtraEqual
  | xtraNotEqual
deriving DecidableEq, Repr

/-- `condition/Boolean`. -/
inductive Boolean
  | xtraFalse
  | xtraTrue
  | xtraDontCare
deriving DecidableEq, Repr

/-- A condition as the source has it: `op0 opcode op1`. -/
@[ext] structure SourceCondition where
  op0 : Operand
  op1 : Operand
  opcode : ConditionOpcode
deriving DecidableEq

/-- `Condition`. -/
structure Condition extends SourceCondition where
  id : ℕ
deriving DecidableEq

/-- `ConditionResult`. -/
structure ConditionResult where
  id : Condition
  result : Boolean
deriving DecidableEq

/-- The generated comparison of what a condition says. -/
def SourceCondition.equals (c d : SourceCondition) : Bool :=
  c.op0.equals d.op0 && c.op1.equals d.op1 && c.opcode == d.opcode

/-- `Condition.equals` leaves the id out. -/
def Condition.equals (c d : Condition) : Bool := c.toSourceCondition.equals d.toSourceCondition

theorem SourceCondition.equals_iff {c d : SourceCondition} :
    c.equals d = true ↔
      c.op0.equals d.op0 = true ∧ c.op1.equals d.op1 = true ∧ c.opcode = d.opcode := by
  unfold equals
  rw [Bool.and_eq_true, Bool.and_eq_true, beq_iff_eq, and_assoc]

theorem SourceCondition.equals_refl (c : SourceCondition) : c.equals c = true :=
  equals_iff.mpr ⟨c.op0.equals_refl, c.op1.equals_refl, rfl⟩

/-- Conditions as keys. -/
def conditionKey : KeyEq Condition where
  eqv := Condition.equals
  refl c := c.toSourceCondition.equals_refl
  symm h := by
    obtain ⟨h0, h1, hop⟩ := SourceCondition.equals_iff.mp h
    exact SourceCondition.equals_iff.mpr ⟨Operand.equals_symm h0, Operand.equals_symm h1, hop.symm⟩
  trans h h' := by
    obtain ⟨h0, h1, hop⟩ := SourceCondition.equals_iff.mp h
    obtain ⟨h0', h1', hop'⟩ := SourceCondition.equals_iff.mp h'
    exact SourceCondition.equals_iff.mpr
      ⟨Operand.equals_trans h0 h0', Operand.equals_trans h1 h1', hop.trans hop'⟩

/-! ## The factory -/

/-- `ConditionFactory`. -/
structure ConditionFactory where
  counter : ℕ
  conditions : LinkedHashMap Condition ℕ

namespace ConditionFactory

/-- The constructor. -/
def new : ConditionFactory := ⟨0, []⟩

variable (F : ConditionFactory) (c : SourceCondition)

/-- `createCondition`. -/
def createCondition : Condition × ConditionFactory :=
  let tempCondition : Condition := ⟨c, F.counter⟩
  (tempCondition, ⟨F.counter + 1, F.conditions.put conditionKey tempCondition F.counter⟩)

/-- `isPresent`. -/
def isPresent : Bool := F.conditions.containsKey conditionKey ⟨c, F.counter⟩

/-- `getCondition`; the id of a condition that is not there is a null
reference. -/
def getCondition : Option Condition :=
  (F.conditions.get conditionKey ⟨c, F.counter⟩).map fun id => ⟨c, id⟩

/-- `getConditionsAndClear`. -/
def getConditionsAndClear : List Condition × ConditionFactory := (F.conditions.keySet, new)

/-- `exitCondition` of the compiler, once the operands are parsed: the
condition result that is added to the current row. -/
def exitCondition : Option (ConditionResult × ConditionFactory) :=
  if F.isPresent c then (F.getCondition c).map fun condition => (⟨condition, .xtraTrue⟩, F)
  else
    let (condition, F') := F.createCondition c
    some (⟨condition, .xtraTrue⟩, F')

/-- The conditions of one `if`, in order: the condition results of its row. -/
def conditionStatement : ConditionFactory → List SourceCondition →
    Option (List ConditionResult × ConditionFactory)
  | F, [] => some ([], F)
  | F, c :: cs =>
    (F.exitCondition c).bind fun (result, F) =>
      (conditionStatement F cs).map fun (results, F) => (result :: results, F)

/-- The condition statements of a stage, in order. -/
def conditionStatements : ConditionFactory → List (List SourceCondition) →
    Option (List (List ConditionResult) × ConditionFactory)
  | F, [] => some ([], F)
  | F, cs :: rows =>
    (F.conditionStatement cs).bind fun (results, F) =>
      (conditionStatements F rows).map fun (rest, F) => (results :: rest, F)

/-- A stage: the condition results of its rows, and its conditions array. -/
def stage (rows : List (List SourceCondition)) :
    Option ((List (List ConditionResult) × List Condition) × ConditionFactory) :=
  (F.conditionStatements rows).map fun (results, F) =>
    ((results, F.getConditionsAndClear.1), F.getConditionsAndClear.2)

/-! ## Numbering -/

/-- **The invariant of the factory**: the conditions are numbered by their
places, no two are equal, and the counter is the next number. -/
structure Numbered (F : ConditionFactory) : Prop where
  distinct : F.conditions.Distinct conditionKey
  counter : F.counter = F.conditions.length
  number : ∀ (i : ℕ) (e : Condition × ℕ), F.conditions[i]? = some e → e.1.id = i ∧ e.2 = i

/-- A condition result refers to a condition that compares as the source's
does, at the place its id names. -/
def Refers (F : ConditionFactory) (c : SourceCondition) (r : ConditionResult) : Prop :=
  r.id.toSourceCondition = c ∧ r.result = .xtraTrue ∧
    ∃ e, F.conditions[r.id.id]? = some e ∧ c.equals e.1.toSourceCondition = true

variable {F : ConditionFactory} {c : SourceCondition}

theorem numbered_new : Numbered new :=
  ⟨LinkedHashMap.distinct_nil, rfl, fun i e h => by simp [new] at h⟩

/-- **One condition.** The map only grows, by at most this condition. -/
theorem Numbered.exitCondition (h : Numbered F) (c : SourceCondition) :
    ∃ r F', F.exitCondition c = some (r, F') ∧ Numbered F' ∧ Refers F' c r ∧
      F.conditions <+: F'.conditions ∧
      ∀ e ∈ F'.conditions, e ∈ F.conditions ∨ e.1.toSourceCondition = c := by
  unfold ConditionFactory.exitCondition
  cases hpresent : F.isPresent c with
  | true =>
    obtain ⟨e, he, heq, hget⟩ := LinkedHashMap.get_of_containsKey hpresent
    obtain ⟨i, hi⟩ := List.getElem?_of_mem he
    refine ⟨⟨⟨c, e.2⟩, .xtraTrue⟩, F, ?_, h, ⟨rfl, rfl, e, ?_, heq⟩, List.prefix_refl _,
      fun d hd => Or.inl hd⟩
    · rw [if_pos rfl]
      unfold getCondition
      rw [hget]
      rfl
    · rw [(h.number i e hi).2]
      exact hi
  | false =>
    have hput : F.conditions.put conditionKey ⟨c, F.counter⟩ F.counter =
        F.conditions ++ [(⟨c, F.counter⟩, F.counter)] := LinkedHashMap.put_of_absent hpresent
    have hnew : F.createCondition c =
        (⟨c, F.counter⟩, ⟨F.counter + 1, F.conditions ++ [(⟨c, F.counter⟩, F.counter)]⟩) :=
      congrArg (fun m => ((⟨c, F.counter⟩ : Condition), ConditionFactory.mk (F.counter + 1) m)) hput
    have hdistinct := h.distinct.put (v := F.counter) hpresent
    rw [hput] at hdistinct
    rw [if_neg Bool.false_ne_true, hnew]
    refine ⟨_, _, rfl, ⟨hdistinct, ?_, ?_⟩,
      ⟨rfl, rfl, (⟨c, F.counter⟩, F.counter), ?_, c.equals_refl⟩, List.prefix_append _ _, ?_⟩
    · rw [List.length_append, List.length_singleton, h.counter]
    · intro i e he
      rcases Nat.lt_trichotomy i F.conditions.length with hlt | rfl | hlt
      · rw [List.getElem?_append_left hlt] at he
        exact h.number i e he
      · rw [List.getElem?_concat_length] at he
        cases he
        exact ⟨h.counter, h.counter⟩
      · rw [List.getElem?_eq_none (by rw [List.length_append, List.length_singleton]; omega)] at he
        cases he
    · rw [h.counter, List.getElem?_concat_length]
    · intro e he
      rw [List.mem_append, List.mem_singleton] at he
      exact he.imp_right fun hlast => by rw [hlast]

/-- References survive later conditions. -/
theorem Refers.mono {F' : ConditionFactory} {r : ConditionResult} (h : Refers F c r)
    (hextend : F.conditions <+: F'.conditions) : Refers F' c r := by
  obtain ⟨hc, htrue, e, he, heq⟩ := h
  obtain ⟨tail, htail⟩ := hextend
  refine ⟨hc, htrue, e, ?_, heq⟩
  rw [← htail, List.getElem?_append_left (List.getElem?_eq_some_iff.mp he).1]
  exact he

/-- **The conditions of one `if`.** -/
theorem Numbered.conditionStatement (h : Numbered F) (cs : List SourceCondition) :
    ∃ rs F', F.conditionStatement cs = some (rs, F') ∧ Numbered F' ∧
      List.Forall₂ (Refers F') cs rs ∧ F.conditions <+: F'.conditions ∧
      ∀ e ∈ F'.conditions, e ∈ F.conditions ∨ e.1.toSourceCondition ∈ cs := by
  induction cs generalizing F with
  | nil => exact ⟨[], F, rfl, h, .nil, List.prefix_refl _, fun e he => Or.inl he⟩
  | cons c cs ih =>
    obtain ⟨r, F₁, hr, hF₁, hrefers, hextend, hnew⟩ := h.exitCondition c
    obtain ⟨rs, F₂, hrs, hF₂, hall, hextend', hnew'⟩ := ih hF₁
    refine ⟨r :: rs, F₂, ?_, hF₂, .cons (hrefers.mono hextend') hall, hextend.trans hextend', ?_⟩
    · unfold ConditionFactory.conditionStatement
      simp only [hr, Option.bind_some, hrs, Option.map_some]
    · intro e he
      rcases hnew' e he with he | he
      · refine (hnew e he).imp_right fun hc => ?_
        rw [hc]
        exact List.mem_cons_self
      · exact Or.inr (List.mem_cons_of_mem _ he)

/-- **The condition statements of a stage.** -/
theorem Numbered.conditionStatements (h : Numbered F) (rows : List (List SourceCondition)) :
    ∃ results F', F.conditionStatements rows = some (results, F') ∧ Numbered F' ∧
      List.Forall₂ (List.Forall₂ (Refers F')) rows results ∧ F.conditions <+: F'.conditions ∧
      ∀ e ∈ F'.conditions, e ∈ F.conditions ∨ e.1.toSourceCondition ∈ rows.flatten := by
  induction rows generalizing F with
  | nil => exact ⟨[], F, rfl, h, .nil, List.prefix_refl _, fun e he => Or.inl he⟩
  | cons cs rows ih =>
    obtain ⟨rs, F₁, hrs, hF₁, hrefers, hextend, hnew⟩ := h.conditionStatement cs
    obtain ⟨results, F₂, hresults, hF₂, hall, hextend', hnew'⟩ := ih hF₁
    refine ⟨rs :: results, F₂, ?_, hF₂, .cons (hrefers.imp fun _ _ hr => hr.mono hextend') hall,
      hextend.trans hextend', ?_⟩
    · unfold ConditionFactory.conditionStatements
      simp only [hrs, Option.bind_some, hresults, Option.map_some]
    · intro e he
      rw [List.flatten_cons, List.mem_append]
      rcases hnew' e he with he | he
      · exact (hnew e he).imp_right Or.inl
      · exact Or.inr (Or.inr he)

/-! ## What the ids mean -/

/-- **The ids mean what the source says.** The conditions array is
numbered from 0 by its places, and each condition result of a row refers
to a condition that is the source's: the same operator, and operands of
the same kind and name or value. -/
def Faithful (rows : List (List SourceCondition)) : Prop :=
  ∃ results conditions, new.stage rows = some ((results, conditions), new) ∧
    conditions.map Condition.id = List.range conditions.length ∧
    List.Forall₂ (List.Forall₂ fun c r =>
      ∃ d, conditions[r.id.id]? = some d ∧ d.toSourceCondition = c) rows results

/-- No two conditions of the stage that compare as one have operands of
different kinds. -/
def NoClash (rows : List (List SourceCondition)) : Prop :=
  ∀ c ∈ rows.flatten, ∀ d ∈ rows.flatten, c.equals d = true →
    c.op0.toEnum = d.op0.toEnum ∧ c.op1.toEnum = d.op1.toEnum

/-- A condition of a row has its result. -/
theorem exists_of_mem_flatten {R : SourceCondition → ConditionResult → Prop}
    {rows : List (List SourceCondition)} {results : List (List ConditionResult)}
    (h : List.Forall₂ (List.Forall₂ R) rows results) (hc : c ∈ rows.flatten) : ∃ r, R c r := by
  induction h with
  | nil => cases hc
  | cons hrow _ ih =>
    rw [List.flatten_cons, List.mem_append] at hc
    rcases hc with hc | hc
    · obtain ⟨i, hi, rfl⟩ := List.getElem_of_mem hc
      exact ⟨_, hrow.get hi (hrow.length_eq ▸ hi)⟩
    · exact ih hc

/-- The conditions array of a numbered factory. -/
theorem Numbered.map_id (h : Numbered F) :
    F.conditions.keySet.map Condition.id = List.range F.conditions.keySet.length := by
  unfold LinkedHashMap.keySet
  refine List.ext_getElem (by simp) fun i hi _ => ?_
  simp only [List.map_map, List.length_map] at hi
  rw [List.getElem_map, List.getElem_map, List.getElem_range]
  exact (h.number i _ (List.getElem?_eq_getElem hi)).1

/-- A stage compiles, and its rows refer to the conditions array. -/
theorem exists_stage (rows : List (List SourceCondition)) :
    ∃ results F, new.stage rows = some ((results, F.conditions.keySet), new) ∧ Numbered F ∧
      List.Forall₂ (List.Forall₂ (Refers F)) rows results ∧
      ∀ e ∈ F.conditions, e.1.toSourceCondition ∈ rows.flatten := by
  obtain ⟨results, F, hrun, hF, hrefers, -, hnew⟩ := numbered_new.conditionStatements rows
  refine ⟨results, F, ?_, hF, hrefers, fun e he => (hnew e he).resolve_left fun h => by cases h⟩
  unfold stage
  rw [hrun]
  rfl

/-- A key of the conditions array. -/
theorem getElem?_keySet (F : ConditionFactory) (i : ℕ) :
    F.conditions.keySet[i]? = (F.conditions[i]?).map Prod.fst :=
  List.getElem?_map ..

/-- Where the ids mean what the source says, no two conditions clash:
both refer to one condition, which is each of them. -/
theorem noClash_of_faithful {rows : List (List SourceCondition)} (h : Faithful rows) :
    NoClash rows := by
  obtain ⟨results, F, hstage, hF, hrefers, -⟩ := exists_stage rows
  obtain ⟨results', conditions', hrun, -, hmeans⟩ := h
  rw [hstage] at hrun
  cases hrun
  have hsame : List.Forall₂ (List.Forall₂ fun c _ => ∃ (i : ℕ) (e : Condition × ℕ),
      F.conditions[i]? = some e ∧ e.1.toSourceCondition = c) rows results := by
    refine List.Forall₂.mp (fun cs rs => List.Forall₂.mp fun c r => ?_) hrefers hmeans
    rintro ⟨-, -, e, he, -⟩ ⟨d, hd, hdc⟩
    rw [getElem?_keySet, he] at hd
    cases hd
    exact ⟨_, e, he, hdc⟩
  intro c hc d hd hcd
  obtain ⟨-, i, e, he, rfl⟩ := exists_of_mem_flatten hsame hc
  obtain ⟨-, j, f, hf, rfl⟩ := exists_of_mem_flatten hsame hd
  obtain rfl := hF.distinct.eq_of_eqv he hf hcd
  rw [he] at hf
  cases hf
  exact ⟨rfl, rfl⟩

/-- **When the ids mean what the source says.** -/
theorem faithful_iff (rows : List (List SourceCondition)) : Faithful rows ↔ NoClash rows := by
  refine ⟨noClash_of_faithful, fun hclash => ?_⟩
  obtain ⟨results, F, hstage, hF, hrefers, hnew⟩ := exists_stage rows
  refine ⟨results, F.conditions.keySet, hstage, hF.map_id, ?_⟩
  have hrows := (List.forall₂_and_left _ _).mpr ⟨fun cs hcs => hcs, hrefers⟩
  refine hrows.imp fun cs rs ⟨hcs, hrs⟩ => ?_
  have hrow := (List.forall₂_and_left _ _).mpr ⟨fun c hc => hc, hrs⟩
  refine hrow.imp fun c r ⟨hc, hr⟩ => ?_
  obtain ⟨-, -, e, he, hce⟩ := hr
  obtain ⟨hkind0, hkind1⟩ := hclash c (List.mem_flatten.mpr ⟨cs, hcs, hc⟩) _
    (hnew e (List.mem_of_getElem? he)) hce
  obtain ⟨h0, h1, hop⟩ := SourceCondition.equals_iff.mp hce
  refine ⟨e.1, by rw [getElem?_keySet, he]; rfl, ?_⟩
  exact SourceCondition.ext (Operand.eq_of_equals h0 hkind0).symm
    (Operand.eq_of_equals h1 hkind1).symm hop.symm

/-- **A local and a global register of one name** share an id: the row of
the second refers to a condition on the first. -/
theorem not_faithful : ¬ ∀ rows : List (List SourceCondition), Faithful rows := by
  intro h
  have hclash := noClash_of_faithful
    (h [[⟨.register ⟨.localRegister, "0"⟩, .constant ⟨.integerConstant, "0"⟩, .xtraEqual⟩],
      [⟨.register ⟨.globalRegister, "0"⟩, .constant ⟨.integerConstant, "0"⟩, .xtraEqual⟩]])
  have hkind := (hclash _ (List.mem_of_getElem? (i := 0) rfl) _
    (List.mem_of_getElem? (i := 1) rfl) (by decide)).1
  cases hkind

end ConditionFactory

end Xl

end FlowBlaze
