import FlowBlaze.Loader.PipeAluSpec
/-!
# The words of any row

`pipeAluActionsAllocator_eq` is about sums and differences of registers
and constants. The allocator accepts more: other operands, products and
quotients, for which it has no opcode, and destinations that are no
register of the board. What it returns has the same shape, and this file
says which (`words_of_pipeAluActionsAllocator`).
-/

namespace FlowBlaze

namespace Loader

/-! ## What a lane is told -/

/-- The opcodes of the second stage that the allocator uses. -/
inductive LaneCode
  | pass
  | plus
  | minus
deriving DecidableEq, Repr

namespace LaneCode

instance : Fintype LaneCode := ⟨{.pass, .plus, .minus}, fun code => by cases code <;> decide⟩

def number : LaneCode → ℕ
  | pass => 0
  | plus => 0x10
  | minus => 0x11

/-- Two opcodes in one half word. -/
def join : LaneCode → LaneCode → LaneCode
  | pass, code => code
  | code, pass => code
  | plus, plus => plus
  | _, _ => minus

end LaneCode

/-- The half word of a lane of the second stage. -/
structure LaneFields where
  x : Fin 4
  y : Fin 4
  code : LaneCode
deriving DecidableEq, Repr

namespace LaneFields

def word (f : LaneFields) : ℕ := f.x.val ||| (f.y.val <<< 3) ||| (f.code.number <<< 8)

/-- A lane without an update. -/
def empty : LaneFields := ⟨0, 0, .pass⟩

/-- Two updates in one lane. -/
def join (f g : LaneFields) : LaneFields := ⟨f.x ||| g.x, f.y ||| g.y, f.code.join g.code⟩

/-- **Two updates in one half word** are one. -/
theorem word_join (f g : LaneFields) : f.word ||| g.word = (f.join g).word := by
  have hall : ∀ (x y : Fin 4) (c : LaneCode) (x' y' : Fin 4) (c' : LaneCode),
      (⟨x, y, c⟩ : LaneFields).word ||| (⟨x', y', c'⟩ : LaneFields).word =
        (join ⟨x, y, c⟩ ⟨x', y', c'⟩).word := by decide +kernel
  exact hall f.x f.y f.code g.x g.y g.code

theorem word_lt (f : LaneFields) : f.word < 2 ^ 16 := by
  have hall : ∀ (x y : Fin 4) (c : LaneCode), (⟨x, y, c⟩ : LaneFields).word < 2 ^ 16 := by
    decide
  exact hall f.x f.y f.code

end LaneFields

/-! ## The rows -/

/-- The action is an update that is executed by the datapath. -/
def FbAction.isInstruction (state : ℕ) (a : FbAction) : Bool :=
  isAnUpdate a.opcode && !a.configures state

/-- The instructions of a row. -/
def rowInstructions (state : ℕ) (actions : List FbAction) : List FbAction :=
  actions.filter (FbAction.isInstruction state)

/-- The register write an update makes that is not executed. -/
def FbAction.configuredWrite (state : ℕ) (a : FbAction) : Option (ℕ × ℕ) :=
  if isAnUpdate a.opcode && a.configures state then
    (a.op2.name.bind (grs[·]?)).bind fun addr => a.op0.constant.map fun value => (addr, value)
  else none

/-- Their distinct operands. -/
def rowInputs (us : List FbAction) : List FbOperand :=
  us.foldl (fun inputs a => appendInput (appendInput inputs a.op0) a.op1) []

/-- The opcode of an update. -/
def laneCode : FbOpcode → LaneCode
  | .xtraSum => .plus
  | .xtraMinus => .minus
  | _ => .pass

theorem number_laneCode (opcode : FbOpcode) : (laneCode opcode).number = pipeOpcode opcode := by
  cases opcode <;> rfl

/-- What an update tells its lane. -/
def fieldsOf (inputs : List FbOperand) (a : FbAction) : LaneFields :=
  ⟨Fin.ofNat 4 (position inputs a.op0), Fin.ofNat 4 (position inputs a.op1), laneCode a.opcode⟩

/-- One update more. A destination numbered four or more has no lane. -/
def addFields (inputs : List FbOperand) (lanes : Fin 4 → LaneFields) (a : FbAction) (l : Fin 4) :
    LaneFields :=
  if a.op2.name = some l.val then (lanes l).join (fieldsOf inputs a) else lanes l

/-- **What each lane is told** by the instructions of a row. -/
def rowLanes (us : List FbAction) : Fin 4 → LaneFields :=
  us.foldl (addFields (rowInputs us)) fun _ => .empty

/-- The words with these half words for the lanes. -/
def laneWords (words : Fin 9 → ℕ) (half : Fin 4 → LaneFields) (anyGlobal : Bool) :
    PipeAluWords := fun i =>
  if i = 4 then (half 0).word ||| ((half 1).word <<< 16)
  else if i = 5 then (half 2).word ||| ((half 3).word <<< 16)
  else if i = 8 then (if anyGlobal then 0x80 else 0)
  else words i

/-- The words of the first stage. -/
def rowInputWords (inputs : List FbOperand) (i : Fin 9) : ℕ :=
  ((inputs[i.val]?).bind inputWord).getD 0

/-- **The words of a row.** -/
def rowWords (us : List FbAction) : PipeAluWords :=
  if us = [] then idleWords
  else passWords (laneWords (rowInputWords (rowInputs us)) (rowLanes us)
    (us.any fun a => a.op2.isGlobal))

section Words

variable {state : ℕ} {actions : List FbAction} {a : FbAction}

/-- The first loop on an instruction. -/
theorem packAction_of_isInstruction (h : a.isInstruction state = true) (P : Packing) :
    packAction state P a = some { P with
      packedInputs := appendInput (appendInput P.packedInputs a.op0) a.op1
      nbActions := P.nbActions + 1 } := by
  obtain ⟨hupdate, hconf⟩ := Bool.and_eq_true_iff.mp h
  unfold packAction
  rw [hupdate, Bool.not_eq_true' .. |>.mp hconf]
  rfl

/-- And on another action: only a register may be written. -/
theorem packAction_of_not_isInstruction (h : a.isInstruction state = false) {P Q : Packing}
    (hP : packAction state P a = some Q) :
    Q = { P with written := P.written ++ (a.configuredWrite state).toList } := by
  unfold packAction at hP
  unfold FbAction.configuredWrite
  unfold FbAction.isInstruction at h
  cases hupdate : isAnUpdate a.opcode with
  | false =>
    rw [hupdate] at hP
    cases hP
    simp
  | true =>
    rw [hupdate, Bool.true_and, Bool.not_eq_false' .. ] at h
    rw [hupdate] at hP
    simp only [Bool.not_true, Bool.false_eq_true, if_false, h, if_true] at hP
    obtain ⟨name, hname, hP⟩ := Option.bind_eq_some_iff.mp hP
    obtain ⟨addr, haddr, hP⟩ := Option.bind_eq_some_iff.mp hP
    obtain ⟨value, hvalue, hP⟩ := Option.bind_eq_some_iff.mp hP
    cases hP
    simp [h, hname, haddr, hvalue]

/-- **What is written is a destination.** -/
theorem mem_configuredWrite {w : ℕ × ℕ} (h : a.configuredWrite state = some w) :
    isAnUpdate a.opcode = true ∧ ∃ i : Fin 4, a.op2 = .xtraGlobalRegister i ∧
      w.1 = 0x80000100 + 4 * i.val := by
  unfold FbAction.configuredWrite at h
  split at h
  · next hcond =>
    obtain ⟨hupdate, hconf⟩ := Bool.and_eq_true_iff.mp hcond
    obtain ⟨addr, haddr, h⟩ := Option.bind_eq_some_iff.mp h
    obtain ⟨value, -, rfl⟩ := Option.map_eq_some_iff.mp h
    obtain ⟨name, hname, haddr⟩ := Option.bind_eq_some_iff.mp haddr
    have hlt : name < 4 := (List.getElem?_eq_some_iff.mp haddr).1
    have hall : ∀ n : Fin 4, grs[n.val]? = some (0x80000100 + 4 * n.val) := by decide
    refine ⟨hupdate, ⟨name, hlt⟩, ?_, (Option.some.inj ((hall ⟨name, hlt⟩).symm.trans haddr)).symm⟩
    have hg := (Bool.and_eq_true_iff.mp (Bool.and_eq_true_iff.mp hconf).1).1
    cases hop2 : a.op2 with
    | xtraGlobalRegister n =>
      rw [hop2] at hname
      cases hname
      rfl
    | xtraLocalRegister n => rw [hop2] at hg; cases hg
    | xtraIntegerConst n => rw [hop2] at hg; cases hg
    | xtraReadOnlyRegister n => rw [hop2] at hg; cases hg
    | other t n => rw [hop2] at hg; cases hg
  · cases h

/-- **The first loop** collects the operands of the instructions and makes
the register writes of the others. -/
theorem foldlM_packAction_eq_some {P Q : Packing}
    (h : actions.foldlM (packAction state) P = some Q) :
    Q.packedInputs = (rowInstructions state actions).foldl
        (fun inputs a => appendInput (appendInput inputs a.op0) a.op1) P.packedInputs ∧
      Q.nbActions = P.nbActions + (rowInstructions state actions).length ∧
      Q.written = P.written ++ actions.filterMap (FbAction.configuredWrite state) := by
  induction actions generalizing P with
  | nil =>
    cases h
    simp [rowInstructions]
  | cons a actions ih =>
    obtain ⟨P', hstep, hrest⟩ := Option.bind_eq_some_iff.mp h
    obtain ⟨hinputs, hnb, hwritten⟩ := ih hrest
    cases hins : a.isInstruction state with
    | true =>
      rw [packAction_of_isInstruction hins] at hstep
      cases hstep
      have hcons : rowInstructions state (a :: actions) = a :: rowInstructions state actions :=
        List.filter_cons_of_pos hins
      have hnone : a.configuredWrite state = none := by
        obtain ⟨hupdate, hconf⟩ := Bool.and_eq_true_iff.mp hins
        unfold FbAction.configuredWrite
        rw [hupdate, Bool.not_eq_true' .. |>.mp hconf]
        rfl
      rw [hcons, List.foldl_cons, List.length_cons, List.filterMap_cons_none hnone]
      refine ⟨hinputs, ?_, hwritten⟩
      rw [hnb]
      dsimp only
      omega
    | false =>
      obtain rfl := packAction_of_not_isInstruction hins hstep
      have hcons : rowInstructions state (a :: actions) = rowInstructions state actions :=
        List.filter_cons_of_neg (by rw [hins]; exact Bool.false_ne_true)
      rw [hcons]
      refine ⟨hinputs, hnb, hwritten.trans ?_⟩
      dsimp only
      cases hw : a.configuredWrite state with
      | none => rw [List.filterMap_cons_none hw]; simp
      | some w => rw [List.filterMap_cons_some hw]; simp

/-- **The second loop** writes the words of the operands. -/
theorem foldlM_writeInput_eq_some {inputs : List FbOperand} {n : ℕ} {words words' : PipeAluWords}
    (h : (inputs.zipIdx n).foldlM writeInput words = some words') :
    (∀ x ∈ inputs, (inputWord x).isSome = true) ∧
      ∀ i : Fin 9, words' i =
        if i.val < n then words i else ((inputs[i.val - n]?).bind inputWord).getD (words i) := by
  induction inputs generalizing n words with
  | nil =>
    cases h
    exact ⟨fun x hx => absurd hx List.not_mem_nil, fun i => by simp⟩
  | cons x inputs ih =>
    rw [List.zipIdx_cons] at h
    obtain ⟨words₁, hstep, hrest⟩ := Option.bind_eq_some_iff.mp h
    obtain ⟨hall, hwords⟩ := ih hrest
    unfold writeInput at hstep
    obtain ⟨w, hw, hstep⟩ := Option.bind_eq_some_iff.mp hstep
    split at hstep
    · next hn =>
      cases hstep
      refine ⟨fun y hy => ?_, fun i => ?_⟩
      · rcases List.mem_cons.mp hy with rfl | hy
        · exact Option.isSome_iff_exists.mpr ⟨w, hw⟩
        · exact hall y hy
      · rw [hwords i]
        rcases Nat.lt_trichotomy i.val n with hi | hi | hi
        · rw [if_pos (by omega), if_pos hi, Function.update_of_ne]
          exact fun he => by rw [he] at hi; exact Nat.lt_irrefl _ hi
        · have he : i = ⟨n, hn⟩ := Fin.ext hi
          rw [if_pos (by omega), if_neg (by omega), hi, Nat.sub_self, he, Function.update_self]
          change w = ((some x).bind inputWord).getD _
          rw [Option.bind_some, hw]
          rfl
        · rw [if_neg (by omega), if_neg (by omega), Function.update_of_ne
            (fun he => by rw [he] at hi; exact Nat.lt_irrefl _ hi),
            show i.val - n = i.val - (n + 1) + 1 by omega, List.getElem?_cons_succ]
    · cases hstep

/-- A place among four. -/
theorem position_lt {inputs : List FbOperand} (hl : inputs.length ≤ 4) (x : FbOperand) :
    position inputs x < 4 := by
  have hfold : ∀ (ys : List FbOperand) (n op : ℕ), op < 4 → n + ys.length ≤ 4 →
      (ys.zipIdx n).foldl (fun op p => if x = p.1 then p.2 else op) op < 4 := by
    intro ys
    induction ys with
    | nil => exact fun _ _ h _ => h
    | cons y ys ih =>
      intro n op hop hn
      rw [List.length_cons] at hn
      rw [List.zipIdx_cons, List.foldl_cons]
      refine ih _ _ ?_ (by omega)
      split
      · omega
      · exact hop
  exact hfold inputs 0 0 (by omega) (by omega)

/-- The half word of a lane is or-ed into its word. -/
theorem orWord_laneWords (words : Fin 9 → ℕ) (lanes : Fin 4 → LaneFields) (g : Bool)
    (pos : ℕ) (f : LaneFields) :
    (if pos = 0 then orWord (laneWords words lanes g) 4 f.word
      else if pos = 1 then orWord (laneWords words lanes g) 4 (f.word <<< 16)
      else if pos = 2 then orWord (laneWords words lanes g) 5 f.word
      else if pos = 3 then orWord (laneWords words lanes g) 5 (f.word <<< 16)
      else laneWords words lanes g) =
      laneWords words (fun l => if pos = l.val then (lanes l).join f else lanes l) g := by
  have hlow : ∀ a b : LaneFields, a.word ||| (b.word <<< 16) ||| f.word =
      (a.join f).word ||| (b.word <<< 16) := by
    intro a b
    rw [← LaneFields.word_join, Nat.or_assoc, Nat.or_comm _ f.word, Nat.or_assoc]
  have hhigh : ∀ a b : LaneFields, a.word ||| (b.word <<< 16) ||| (f.word <<< 16) =
      a.word ||| ((b.join f).word <<< 16) := by
    intro a b
    rw [← LaneFields.word_join, Nat.shiftLeft_or_distrib, Nat.or_assoc]
  funext i
  rcases eq_or_ne i 4 with rfl | h4
  · by_cases h0 : pos = 0
    · subst h0
      exact hlow _ _
    · by_cases h1 : pos = 1
      · subst h1
        exact hhigh _ _
      · simp [h0, h1, laneWords, orWord, apply_ite (fun f : PipeAluWords => f 4)]
  · rcases eq_or_ne i 5 with rfl | h5
    · by_cases h2 : pos = 2
      · subst h2
        exact hlow _ _
      · by_cases h3 : pos = 3
        · subst h3
          exact hhigh _ _
        · simp [h2, h3, laneWords, orWord, apply_ite (fun f : PipeAluWords => f 5)]
    · simp [laneWords, orWord, h4, h5, apply_ite (fun f : PipeAluWords => f i)]

/-- The third loop on an instruction. -/
theorem allocateAction_of_isInstruction {inputs : List FbOperand} (hl : inputs.length ≤ 4)
    (h : a.isInstruction state = true) {words : Fin 9 → ℕ} {lanes : Fin 4 → LaneFields} {g : Bool}
    {words' : PipeAluWords}
    (ha : allocateAction state inputs (laneWords words lanes g) a = some words') :
    words' = laneWords words (addFields inputs lanes a) (g || a.op2.isGlobal) := by
  obtain ⟨hupdate, hconf⟩ := Bool.and_eq_true_iff.mp h
  have hglobal : (if a.op2.isGlobal then Function.update (laneWords words lanes g) 8 0x00000080
      else laneWords words lanes g) = laneWords words lanes (g || a.op2.isGlobal) := by
    cases a.op2.isGlobal with
    | false => simp
    | true =>
      funext i
      rcases eq_or_ne i 8 with rfl | hi
      · simp [laneWords]
      · simp [laneWords, hi]
  have hfields : position inputs a.op0 ||| (position inputs a.op1 <<< 3) |||
      (pipeOpcode a.opcode <<< 8) = (fieldsOf inputs a).word := by
    unfold LaneFields.word fieldsOf
    rw [number_laneCode]
    dsimp only [Fin.ofNat]
    rw [Nat.mod_eq_of_lt (position_lt hl _), Nat.mod_eq_of_lt (position_lt hl _)]
  unfold allocateAction at ha
  rw [hupdate, Bool.not_eq_true' .. |>.mp hconf] at ha
  simp only [Bool.not_true, Bool.or_self, Bool.false_eq_true, if_false] at ha
  obtain ⟨pos, hpos, rfl⟩ := Option.map_eq_some_iff.mp ha
  rw [hglobal, hfields, orWord_laneWords]
  unfold addFields
  simp only [hpos, Option.some.injEq]

/-- **The third loop** packs the instructions into their lanes. -/
theorem foldlM_allocateAction_eq_some {inputs : List FbOperand} (hl : inputs.length ≤ 4)
    {words : Fin 9 → ℕ} {lanes : Fin 4 → LaneFields} {g : Bool} {words' : PipeAluWords}
    (h : actions.foldlM (allocateAction state inputs) (laneWords words lanes g) = some words') :
    words' = laneWords words ((rowInstructions state actions).foldl (addFields inputs) lanes)
      (g || (rowInstructions state actions).any fun a => a.op2.isGlobal) := by
  induction actions generalizing lanes g with
  | nil =>
    cases h
    simp [rowInstructions]
  | cons a actions ih =>
    obtain ⟨words₁, hstep, hrest⟩ := Option.bind_eq_some_iff.mp h
    cases hins : a.isInstruction state with
    | true =>
      obtain rfl := allocateAction_of_isInstruction hl hins hstep
      have hcons : rowInstructions state (a :: actions) = a :: rowInstructions state actions :=
        List.filter_cons_of_pos hins
      rw [hcons, List.foldl_cons, List.any_cons, ← Bool.or_assoc]
      exact ih hrest
    | false =>
      have hcons : rowInstructions state (a :: actions) = rowInstructions state actions :=
        List.filter_cons_of_neg (by rw [hins]; exact Bool.false_ne_true)
      have hskip : allocateAction state inputs (laneWords words lanes g) a =
          some (laneWords words lanes g) := by
        have hcond : (!isAnUpdate a.opcode || a.configures state) = true := by
          unfold FbAction.isInstruction at hins
          cases hupdate : isAnUpdate a.opcode with
          | false => rfl
          | true =>
            rw [hupdate] at hins
            simpa using hins
        unfold allocateAction
        rw [if_pos hcond]
      rw [hskip] at hstep
      cases hstep
      rw [hcons]
      exact ih hrest

/-- **What the allocator returns** for a row it accepts. -/
theorem words_of_pipeAluActionsAllocator {out : List (ℕ × ℕ) × PipeAluWords}
    (h : pipeAluActionsAllocator actions state = some out) :
    out.2 = rowWords (rowInstructions state actions) ∧
      (rowInputs (rowInstructions state actions)).length ≤ 4 ∧
      (∀ x ∈ rowInputs (rowInstructions state actions), (inputWord x).isSome = true) ∧
      out.1 = actions.filterMap (FbAction.configuredWrite state) := by
  obtain ⟨P, hP, h⟩ := Option.bind_eq_some_iff.mp h
  obtain ⟨hinputs, hnb, hwritten⟩ := foldlM_packAction_eq_some hP
  have hinputs : P.packedInputs = rowInputs (rowInstructions state actions) := hinputs
  split at h
  · cases h
  · next hle =>
    obtain ⟨words, hwords, h⟩ := Option.bind_eq_some_iff.mp h
    obtain ⟨words', hallocate, rfl⟩ := Option.map_eq_some_iff.mp h
    have hl : P.packedInputs.length ≤ 4 := by omega
    obtain ⟨hall, hword⟩ := foldlM_writeInput_eq_some hwords
    have hbase : Function.update words 8 0 =
        laneWords (rowInputWords P.packedInputs) (fun _ => .empty) false := by
      funext i
      have hi := hword i
      simp only [Nat.not_lt_zero, if_false, Nat.sub_zero] at hi
      rcases eq_or_ne i 8 with rfl | h8
      · simp [laneWords]
      rw [Function.update_of_ne h8, hi]
      by_cases hlt : i.val < 4
      · have h4 : i ≠ 4 := fun he => by rw [he] at hlt; exact absurd hlt (by decide)
        have h5 : i ≠ 5 := fun he => by rw [he] at hlt; exact absurd hlt (by decide)
        simp [laneWords, rowInputWords, h4, h5, h8]
      · have hnone : P.packedInputs[i.val]? = none := List.getElem?_eq_none (by omega)
        simp [laneWords, rowInputWords, hnone, LaneFields.word, LaneFields.empty,
          LaneCode.number]
    rw [hbase] at hallocate
    have hfinal := foldlM_allocateAction_eq_some hl hallocate
    rw [Bool.false_or] at hfinal
    rw [hinputs] at hl hall hfinal
    refine ⟨?_, hl, hall, hwritten⟩
    dsimp only
    rw [hfinal, hnb]
    unfold rowWords rowLanes
    cases rowInstructions state actions with
    | nil => rfl
    | cons a us =>
      rw [if_neg (by simp), if_neg (List.cons_ne_nil _ _)]

end Words

end Loader

end FlowBlaze
