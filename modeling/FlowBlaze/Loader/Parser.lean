import FlowBlaze.Loader.Programmer
/-!
# Packing a program's conditions — `parser.py`

`pack_conditions` sorts the conditions of every stage in two: a test for
equality of a header field with a constant goes to the second TCAM as it
is, and its field into the stage's list of header fields; anything else
becomes a comparison for one of the four comparators, its operands turned
into selector codes. `write_conditions` writes a comparison into the
register of its comparator.

A register's name and a field's place are given by the number their text
spells. The conditions keep the order they have in the file. A call that
ends in an exception or an exit has no result.
-/

namespace FlowBlaze

namespace Loader

/-! ## The conditions of the file -/

/-- A value of the JSON file: a number, or a text with the number it
spells. The compiler writes a constant as a text. -/
inductive PyValue
  | int (n : ℕ)
  | str (n : ℕ)
deriving DecidableEq, Repr

/-- `int(v)`. -/
def PyValue.toInt : PyValue → ℕ
  | int n | str n => n

/-- The opcode of a condition, as far as it is told apart. -/
inductive CondOpcode
  | xtraGreater
  | xtraGreaterEq
  | xtraLess
  | xtraLessEq
  | xtraEqual
  | xtraNotEqual
  | other (opcode : String)
deriving DecidableEq, Repr

/-- An operand of a condition: its type, and what is read of it. -/
inductive CondOperand
  | xtraLocalRegister (name : ℕ)
  | xtraGlobalRegister (name : ℕ)
  | xtraReadOnlyRegister
  | xtraPktField (value : String) (start length : ℕ)
  | xtraEventField (value : String)
  | xtraIntegerConst (value : PyValue)
  | other (type value : String)
deriving DecidableEq, Repr

/-- A condition. -/
structure FbCondition where
  op0 : CondOperand
  op1 : CondOperand
  opcode : CondOpcode
deriving DecidableEq, Repr

/-- What `pack_conditions` reads of a stage. -/
structure Stage where
  stageLabel : ℕ
  conditions : List FbCondition

/-! ## Packed conditions -/

/-- An operand of a packed condition. A selector code is told apart from
a number of the file, and `absent` is a key that was never set. -/
inductive PackedOperand
  | absent
  | code (n : ℕ)
  | const (v : PyValue)
  | text (s : String)
  | field (f : HeaderField)
deriving DecidableEq, Repr

/-- A packed condition. -/
structure CondRecord where
  exactMatch : Bool
  op0 : PackedOperand
  op1 : PackedOperand
  opcode : CondOpcode
deriving DecidableEq, Repr

/-- `COND_GRS`. -/
def condGrs : List ℕ := [0xa, 0xb, 0xc, 0xd]

/-- `COND_LRS`. -/
def condLrs : List ℕ := [0xe, 0xf, 0x1a]

/-- `COND_TS`. -/
def condTs : ℕ := 0x1f

/-- The selector of an operand. One that is not a register is reported
and left out. -/
def CondOperand.selector : CondOperand → Option PackedOperand
  | xtraLocalRegister name => (condLrs[name]?).map .code
  | xtraGlobalRegister name => (condGrs[name]?).map .code
  | xtraReadOnlyRegister => some (.code condTs)
  | _ => some .absent

/-- The second operand: a constant is kept as it is. -/
def CondOperand.selector1 : CondOperand → Option PackedOperand
  | xtraIntegerConst v => some (.const v)
  | o => o.selector

/-- `op['value']`. A register has none. -/
def CondOperand.value : CondOperand → Option PackedOperand
  | xtraPktField value _ _ | xtraEventField value | other _ value => some (.text value)
  | xtraIntegerConst v => some (.const v)
  | _ => none

/-- The header field and the constant of an equality test, if the
condition is one. -/
def FbCondition.exactTest : FbCondition → Option (HeaderField × PyValue)
  | ⟨.xtraPktField _ start length, .xtraIntegerConst v, .xtraEqual⟩ =>
    some (.pktField start length, v)
  | ⟨.xtraEventField value, .xtraIntegerConst v, .xtraEqual⟩ => some (.eventField value, v)
  | _ => none

/-- **One condition**, in the three branches of `pack_conditions`. -/
def packCondition (c : FbCondition) : Option CondRecord :=
  match c.exactTest with
  | some (f, v) => some ⟨true, .field f, .const v, c.opcode⟩
  | none =>
    match c.op0 with
    | .xtraEventField value => c.op1.value.map fun v => ⟨true, .text value, v, c.opcode⟩
    | op0 =>
      op0.selector.bind fun s => c.op1.selector1.map fun s' => ⟨false, s, s', c.opcode⟩

/-- A field is listed once. -/
def addField (f : HeaderField) (hfs : List HeaderField) : List HeaderField :=
  if f ∈ hfs then hfs else hfs ++ [f]

/-- The lists of header fields, after a condition of the stage with a
label. There must be a list for the label. -/
def addHeaderField (hfs : List (List HeaderField)) (label : ℕ) (c : FbCondition) :
    Option (List (List HeaderField)) :=
  match c.exactTest with
  | some (f, _) => (hfs[label]?).map fun fields => hfs.set label (addField f fields)
  | none => some hfs

/-- The loop over the conditions of a stage. -/
def packStage (label : ℕ) : List FbCondition → List (List HeaderField) →
    Option (List CondRecord × List (List HeaderField))
  | [], hfs => some ([], hfs)
  | c :: conds, hfs =>
    (packCondition c).bind fun packed =>
      (addHeaderField hfs label c).bind fun hfs =>
        (packStage label conds hfs).map fun rest => (packed :: rest.1, rest.2)

/-- The packed conditions and the header fields of the stages. -/
structure Parsed where
  conditions : List (List CondRecord)
  hfs : List (List HeaderField)

/-- The loop over the stages. -/
def packStages (parsed : Parsed) : List Stage → Option Parsed
  | [] => some parsed
  | s :: stages =>
    (packStage s.stageLabel s.conditions (parsed.hfs ++ [[]])).bind fun packed =>
      packStages ⟨parsed.conditions ++ [packed.1], packed.2⟩ stages

/-- `pack_conditions`. -/
def packConditions (stages : List Stage) : Option Parsed := packStages ⟨[], []⟩ stages

/-- What `write_tcam2_entry` reads of a packed condition. A test whose
field is a text ends the program as soon as a row asks for it. -/
def CondRecord.tcam2 : CondRecord → Option PackedCondition
  | ⟨false, _, _, _⟩ => some .register
  | ⟨true, .field f, .const v, _⟩ => some (.exactMatch f v.toInt)
  | ⟨true, _, _, _⟩ => none

/-! ## The results of a row -/

/-- A result of a row in the file. -/
inductive CondResult
  | xtraTrue
  | xtraFalse
  | other (result : String)
deriving DecidableEq, Repr

/-- The result in the list, at the place of its condition. Only true and
false are stored. -/
def setResult (trResults : List FbResult) (c : ℕ × CondResult) : Option (List FbResult) :=
  match c.2 with
  | .xtraTrue => if c.1 < trResults.length then some (trResults.set c.1 .fbTrue) else none
  | .xtraFalse => if c.1 < trResults.length then some (trResults.set c.1 .fbFalse) else none
  | .other _ => some trResults

/-- `get_conditions_results`, for a stage with a number of conditions. -/
def getConditionsResults (n : ℕ) (conditionResults : List (ℕ × CondResult)) :
    Option (List FbResult) :=
  conditionResults.foldlM setResult (List.replicate n .fbDontCare)

/-! ## Writing the comparators -/

/-- `COND_REG`. -/
def condReg : List ℕ := [0x80ffff48, 0x80ffff4c, 0x80ffff50, 0x80ffff54]

/-- The opcodes of `registers.py`. Another is reported and written as
zero. -/
def CondOpcode.code : CondOpcode → ℕ
  | xtraGreater => 0x0a
  | xtraGreaterEq => 0x0b
  | xtraLess => 0x0c
  | xtraLessEq => 0x0d
  | xtraEqual => 0x0e
  | xtraNotEqual => 0x0f
  | other _ => 0

/-- `op & 0xff`, which only a number has. -/
def PackedOperand.lowByte : PackedOperand → Option ℕ
  | code n | const (.int n) => some (n &&& 0xff)
  | _ => none

/-- `write_condition`: the address and the value. -/
def writeCondition (c : CondRecord) (id : ℕ) : Option (ℕ × ℕ) :=
  (condReg[id]?).bind fun addr =>
    c.op0.lowByte.bind fun op0 =>
      c.op1.lowByte.map fun op1 => (addr, (c.opcode.code <<< 16) ||| (op0 <<< 8) ||| op1)

/-- `write_conditions`, with the number of comparisons already written. -/
def writeConditions : ℕ → List CondRecord → Option (List (ℕ × ℕ))
  | _, [] => some []
  | i, c :: conditions =>
    if c.exactMatch then writeConditions i conditions
    else if i < 4 then
      (writeCondition c i).bind fun w => (writeConditions (i + 1) conditions).map (w :: ·)
    else none

/-! ## What has been packed -/

theorem packStage_cons {label : ℕ} {c : FbCondition} {conds : List FbCondition}
    {hfs hfs' : List (List HeaderField)} {rs : List CondRecord}
    (h : packStage label (c :: conds) hfs = some (rs, hfs')) :
    ∃ r hfs₁ rs', packCondition c = some r ∧ addHeaderField hfs label c = some hfs₁ ∧
      packStage label conds hfs₁ = some (rs', hfs') ∧ rs = r :: rs' := by
  simp only [packStage, Option.bind_eq_some_iff, Option.map_eq_some_iff, Prod.mk.injEq] at h
  obtain ⟨r, hr, hfs₁, hhfs, ⟨rs', _⟩, hrest, hrs, rfl⟩ := h
  exact ⟨r, hfs₁, rs', hr, hhfs, hrest, hrs.symm⟩

/-- The conditions of a stage keep their order. -/
theorem mapM_packCondition {label : ℕ} {conds : List FbCondition}
    {hfs hfs' : List (List HeaderField)} {rs : List CondRecord}
    (h : packStage label conds hfs = some (rs, hfs')) : conds.map packCondition = rs.map some := by
  induction conds generalizing hfs rs with
  | nil =>
    simp only [packStage, Option.some.injEq, Prod.mk.injEq] at h
    rw [← h.1, List.map_nil, List.map_nil]
  | cons c conds ih =>
    obtain ⟨r, hfs₁, rs', hr, -, hrest, rfl⟩ := packStage_cons h
    rw [List.map_cons, List.map_cons, hr, ih hrest]

/-- The stages packed first stay at the front. -/
theorem packStages_conditions {parsed parsed' : Parsed} {stages : List Stage}
    (h : packStages parsed stages = some parsed') :
    ∃ rest, parsed'.conditions = parsed.conditions ++ rest := by
  induction stages generalizing parsed with
  | nil =>
    simp only [packStages, Option.some.injEq] at h
    exact ⟨[], by rw [← h, List.append_nil]⟩
  | cons s stages ih =>
    simp only [packStages, Option.bind_eq_some_iff] at h
    obtain ⟨packed, -, hrest⟩ := h
    obtain ⟨rest, hrest⟩ := ih hrest
    exact ⟨packed.1 :: rest, by rw [hrest, List.append_assoc, List.singleton_append]⟩

/-- **The conditions of the first stage** are packed one by one. -/
theorem conditions_first {s : Stage} {stages : List Stage} {parsed : Parsed}
    (h : packConditions (s :: stages) = some parsed) :
    ∃ rs hfs, packStage s.stageLabel s.conditions [[]] = some (rs, hfs) ∧
      parsed.conditions[0]? = some rs ∧
      packStages ⟨[rs], hfs⟩ stages = some parsed := by
  simp only [packConditions, packStages, Option.bind_eq_some_iff, List.nil_append] at h
  obtain ⟨⟨rs, hfs⟩, hfirst, hrest⟩ := h
  obtain ⟨rest, hconds⟩ := packStages_conditions hrest
  exact ⟨rs, hfs, hfirst, by rw [hconds]; rfl, hrest⟩

/-! ## The header fields of a stage -/

/-- A condition leaves the lists of the other stages alone. -/
theorem addHeaderField_other {hfs hfs' : List (List HeaderField)} {label : ℕ} {c : FbCondition}
    (h : addHeaderField hfs label c = some hfs') {k : ℕ} (hk : k ≠ label) : hfs'[k]? = hfs[k]? := by
  rw [addHeaderField] at h
  cases hc : c.exactTest with
  | none =>
    rw [hc] at h
    cases h
    rfl
  | some fv =>
    rw [hc] at h
    obtain ⟨fields, -, rfl⟩ := Option.map_eq_some_iff.mp h
    exact List.getElem?_set_ne (Ne.symm hk)

/-- A field is added to the list of its stage, and nothing is taken away. -/
theorem addHeaderField_here {hfs hfs' : List (List HeaderField)} {label : ℕ} {c : FbCondition}
    (h : addHeaderField hfs label c = some hfs') {fields : List HeaderField}
    (hfields : hfs[label]? = some fields) :
    ∃ fields', hfs'[label]? = some fields' ∧ (∀ f ∈ fields, f ∈ fields') ∧
      ∀ f v, c.exactTest = some (f, v) → f ∈ fields' := by
  rw [addHeaderField] at h
  cases hc : c.exactTest with
  | none =>
    rw [hc] at h
    cases h
    exact ⟨fields, hfields, fun _ hf => hf, fun f v hfv => by cases hfv⟩
  | some fv =>
    obtain ⟨f, v⟩ := fv
    have hlt : label < hfs.length := (List.getElem?_eq_some_iff.mp hfields).1
    rw [hc, hfields] at h
    cases h
    have hmem : f ∈ addField f fields ∧ ∀ g ∈ fields, g ∈ addField f fields := by
      unfold addField
      split
      · exact ⟨‹_›, fun _ hg => hg⟩
      · exact ⟨List.mem_append_right _ List.mem_cons_self, fun _ hg => List.mem_append_left _ hg⟩
    refine ⟨addField f fields, List.getElem?_set_self hlt, hmem.2, fun f' v' hfv => ?_⟩
    cases hfv
    exact hmem.1

theorem packStage_other {label : ℕ} {conds : List FbCondition}
    {hfs hfs' : List (List HeaderField)} {rs : List CondRecord}
    (h : packStage label conds hfs = some (rs, hfs')) {k : ℕ} (hk : k ≠ label) :
    hfs'[k]? = hfs[k]? := by
  induction conds generalizing hfs rs with
  | nil =>
    cases h
    rfl
  | cons c conds ih =>
    obtain ⟨r, hfs₁, rs', -, hadd, hrest, -⟩ := packStage_cons h
    exact (ih hrest).trans (addHeaderField_other hadd hk)

/-- **The list of a stage holds every field it tests.** -/
theorem packStage_here {label : ℕ} {conds : List FbCondition}
    {hfs hfs' : List (List HeaderField)} {rs : List CondRecord}
    (h : packStage label conds hfs = some (rs, hfs')) {fields : List HeaderField}
    (hfields : hfs[label]? = some fields) :
    ∃ fields', hfs'[label]? = some fields' ∧ (∀ f ∈ fields, f ∈ fields') ∧
      ∀ c ∈ conds, ∀ f v, c.exactTest = some (f, v) → f ∈ fields' := by
  induction conds generalizing hfs rs fields with
  | nil =>
    cases h
    exact ⟨fields, hfields, fun _ hf => hf, fun _ hc => absurd hc List.not_mem_nil⟩
  | cons c conds ih =>
    obtain ⟨r, hfs₁, rs', -, hadd, hrest, -⟩ := packStage_cons h
    obtain ⟨fields₁, hf₁, hgrow, hc⟩ := addHeaderField_here hadd hfields
    obtain ⟨fields', hf', hgrow', hconds⟩ := ih hrest hf₁
    refine ⟨fields', hf', fun f hf => hgrow' f (hgrow f hf),
      List.forall_mem_cons.mpr ⟨fun f v hfv => ?_, hconds⟩⟩
    exact hgrow' f (hc f v hfv)

/-- The other stages leave the first list alone when their labels are not
its own. -/
theorem packStages_hfs {parsed parsed' : Parsed} {stages : List Stage}
    (h : packStages parsed stages = some parsed') (hlabel : ∀ s ∈ stages, s.stageLabel ≠ 0)
    {fields : List HeaderField} (hfields : parsed.hfs[0]? = some fields) :
    parsed'.hfs[0]? = some fields := by
  induction stages generalizing parsed with
  | nil =>
    cases h
    exact hfields
  | cons s stages ih =>
    simp only [packStages, Option.bind_eq_some_iff] at h
    obtain ⟨⟨rs, hfs⟩, hfirst, hrest⟩ := h
    obtain ⟨hs, hlabel⟩ := List.forall_mem_cons.mp hlabel
    refine ih hrest hlabel ?_
    have hpos : 0 < parsed.hfs.length := (List.getElem?_eq_some_iff.mp hfields).1
    rw [packStage_other hfirst (Ne.symm hs), List.getElem?_append_left hpos, hfields]

/-- **The header fields of the first stage** are in the first list. -/
theorem hfs_first {s : Stage} {stages : List Stage} {parsed : Parsed}
    (h : packConditions (s :: stages) = some parsed) (hs : s.stageLabel = 0)
    (hlabel : ∀ s ∈ stages, s.stageLabel ≠ 0) :
    ∃ fields, parsed.hfs[0]? = some fields ∧
      ∀ c ∈ s.conditions, ∀ f v, c.exactTest = some (f, v) → f ∈ fields := by
  obtain ⟨rs, hfs, hfirst, -, hrest⟩ := conditions_first h
  rw [hs] at hfirst
  obtain ⟨fields, hfields, -, hconds⟩ := packStage_here hfirst rfl
  exact ⟨fields, packStages_hfs hrest hlabel hfields, hconds⟩

/-! ## The results of a row, read back -/

/-- The result kept for a condition is one the row has for it; none is
kept only for a condition the row asks nothing of. -/
def KeepsResults (conditionResults : List (ℕ × CondResult)) (trResults : List FbResult) : Prop :=
  ∀ i r, trResults[i]? = some r →
    (r = .fbTrue → (i, .xtraTrue) ∈ conditionResults) ∧
    (r = .fbFalse → (i, .xtraFalse) ∈ conditionResults) ∧
    (r = .fbDontCare → (i, .xtraTrue) ∉ conditionResults ∧ (i, .xtraFalse) ∉ conditionResults) ∧
    r ≠ .fbExact

/-- One more result of the row. -/
theorem KeepsResults.setResult {done : List (ℕ × CondResult)} {tr : List FbResult}
    (h : KeepsResults done tr) {c : ℕ × CondResult} (hc : c.1 < tr.length) :
    ∃ tr', Loader.setResult tr c = some tr' ∧ tr'.length = tr.length ∧
      KeepsResults (done ++ [c]) tr' := by
  obtain ⟨k, q⟩ := c
  have hset : ∀ v : FbResult, ∀ i r, (tr.set k v)[i]? = some r →
      (i = k ∧ r = v) ∨ (i ≠ k ∧ tr[i]? = some r) := by
    intro v i r hi
    by_cases hik : i = k
    · subst hik
      rw [List.getElem?_set_self hc] at hi
      exact .inl ⟨rfl, (Option.some.inj hi).symm⟩
    · exact .inr ⟨hik, by rwa [List.getElem?_set_ne (Ne.symm hik)] at hi⟩
  cases q with
  | xtraTrue =>
    refine ⟨tr.set k .fbTrue, if_pos hc, List.length_set, fun i r hi => ?_⟩
    obtain ⟨rfl, rfl⟩ | ⟨hne, hi⟩ := hset _ i r hi
    · simp
    · simpa [hne] using h i r hi
  | xtraFalse =>
    refine ⟨tr.set k .fbFalse, if_pos hc, List.length_set, fun i r hi => ?_⟩
    obtain ⟨rfl, rfl⟩ | ⟨hne, hi⟩ := hset _ i r hi
    · simp
    · simpa [hne] using h i r hi
  | other s =>
    refine ⟨tr, rfl, rfl, fun i r hi => ?_⟩
    simpa using h i r hi

/-- **The results of a row** are found when their conditions exist. -/
theorem getConditionsResults_spec {n : ℕ} {conditionResults : List (ℕ × CondResult)}
    (hids : ∀ c ∈ conditionResults, c.1 < n) :
    ∃ tr, getConditionsResults n conditionResults = some tr ∧ tr.length = n ∧
      KeepsResults conditionResults tr := by
  have hrun : ∀ (rest done : List (ℕ × CondResult)) (tr : List FbResult),
      (∀ c ∈ rest, c.1 < n) → tr.length = n → KeepsResults done tr →
      ∃ tr', rest.foldlM setResult tr = some tr' ∧ tr'.length = n ∧
        KeepsResults (done ++ rest) tr' := by
    intro rest
    induction rest with
    | nil => exact fun done tr _ hlen h => ⟨tr, rfl, hlen, by rwa [List.append_nil]⟩
    | cons c rest ih =>
      intro done tr hids hlen h
      obtain ⟨hc, hids⟩ := List.forall_mem_cons.mp hids
      obtain ⟨tr₁, hset, hlen₁, h₁⟩ := h.setResult (by rwa [hlen])
      obtain ⟨tr', hrest, hlen', h'⟩ := ih (done ++ [c]) tr₁ hids (hlen₁.trans hlen) h₁
      refine ⟨tr', ?_, hlen', by rwa [List.append_assoc] at h'⟩
      rw [List.foldlM_cons, hset]
      exact hrest
  refine hrun conditionResults [] _ hids List.length_replicate fun i r hi => ?_
  obtain rfl := List.eq_of_mem_replicate (List.mem_of_getElem? hi)
  simp

end Loader

end FlowBlaze
