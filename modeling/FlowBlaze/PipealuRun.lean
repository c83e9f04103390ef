import FlowBlaze.Hw.Pipealu
import FlowBlaze.Loader.PipeAluSpec
import Mathlib.Tactic.IntervalCases
/-!
# The words on the pipelined ALU

What the datapath makes of the allocator's words: the first stage fetches
the distinct operands, the second combines in each lane the two its
selection names, and the third passes the lanes on to the local registers
and, if the words ask for it, the first lane to the first global register.
-/

namespace FlowBlaze

open Hw Loader

/-- A word of the command memory is cut to 32 bits. -/
def commandOf (words : PipeAluWords) : Command := fun i => BitVec.ofNat 32 (words i)

variable {p : PipealuIn} {c : Command} {l : Lane}

/-! ## The registers in the extended header -/

/-- Inside the first 1024 bits nothing is cut. -/
theorem sam32_of_le {w : ℕ} (x : BitVec w) (offset : BitVec 7)
    (h : 8 * offset.toNat + 32 ≤ 1024) : sam32 x offset = x.extractLsb' (8 * offset.toNat) 32 :=
  BitVec.extractLsb'_setWidth_of_le h

/-- The local registers stand behind the header. -/
theorem sam32_localRegister (i : Fin 3) :
    sam32 p.extentedHeader (BitVec.ofNat 7 (0x36 + 4 * i)) = p.rin i := by
  fin_cases i <;>
  · rw [sam32_of_le _ _ (by decide), PipealuIn.extentedHeader]
    repeat rw [BitVec.extractLsb'_append_eq_of_le (by decide)]
    rw [BitVec.extractLsb'_append_eq_of_add_le (by decide)]
    exact BitVec.extractLsb'_eq_self

/-- The global registers stand behind those. -/
theorem sam32_globalRegister (i : Fin 4) :
    sam32 p.extentedHeader (BitVec.ofNat 7 (0x42 + 4 * i)) = p.inGR i := by
  fin_cases i
  all_goals
    rw [sam32_of_le _ _ (by decide), PipealuIn.extentedHeader]
    repeat rw [BitVec.extractLsb'_append_eq_of_le (by decide)]
  iterate 3
    rw [BitVec.extractLsb'_append_eq_of_add_le (by decide)]
    exact BitVec.extractLsb'_eq_self
  exact BitVec.extractLsb'_eq_self

/-- At offset zero stand the first four bytes of the header. -/
theorem sam32_zero : sam32 p.extentedHeader 0 = p.header.extractLsb' 0 32 := by
  rw [sam32_of_le _ _ (by decide), PipealuIn.extentedHeader]
  exact BitVec.extractLsb'_append_eq_of_add_le (by decide)

/-! ## The first stage -/

/-- What the datapath makes of a constant: the allocator puts both bytes
into one, and leaves the other zero. -/
def immediate (value : BitVec 16) : BitVec 32 :=
  (value.extractLsb' 0 8 ||| value.extractLsb' 8 8).setWidth 32

/-- What the datapath fetches for an operand. -/
def fetched (p : PipealuIn) : AluInput → BitVec 32
  | .register (.localRegister i) => p.rin i
  | .register (.globalRegister i) => p.inGR i
  | .integerConst value => immediate value

/-- The bytes of the word of a constant. -/
theorem ofNat_word_integerConst (value : BitVec 16) :
    BitVec.ofNat 32 (AluInput.integerConst value).word = (0xd5 : BitVec 8) ++
      (value.extractLsb' 0 8 ||| value.extractLsb' 8 8) ++ (0 : BitVec 16) := by
  apply BitVec.eq_of_getLsbD_eq
  intro i hi
  have hv : ∀ j, value.toNat.testBit j = value.getLsbD j := fun j => rfl
  rw [BitVec.getLsbD_ofNat, BitVec.getLsbD_append, BitVec.getLsbD_append]
  interval_cases i <;>
    simp [-Nat.testBit_zero, AluInput.word, Nat.testBit_or, Nat.testBit_shiftLeft,
      Nat.testBit_and, hv] <;>
    simp [Nat.testBit]

/-- Zeros before a byte extend it. -/
theorem zero_append_byte (b : BitVec 8) :
    (0 : BitVec 16) ++ (0 : BitVec 8) ++ b = b.setWidth 32 := by
  apply BitVec.eq_of_getLsbD_eq
  intro i hi
  rw [BitVec.getLsbD_append, BitVec.getLsbD_append, BitVec.getLsbD_setWidth]
  by_cases h : i < 8
  · simp [h, hi]
  · simp [h, BitVec.getLsbD_of_ge b i (by omega)]

/-- A lane whose word has opcode zero passes its first operand on. -/
theorem first_of_opcode_zero (h : c.op1c l = 0) : c.first p l = c.operand1 p l := by
  rw [Command.first, h]
  rfl

/-- **A lane fetches the operand its word says.** -/
theorem first_of_word {x : AluInput} (h : c ⟨l.val, Lane.isWord l⟩ = BitVec.ofNat 32 x.word) :
    c.first p l = fetched p x := by
  cases x with
  | register r =>
    cases r with
    | localRegister i =>
      have hc : c.op1c l = 0 := by
        rw [Command.op1c, h]
        fin_cases i <;> rfl
      have hx : (c.op1x l).extractLsb' 0 7 = BitVec.ofNat 7 (0x36 + 4 * i) := by
        rw [Command.op1x, h]
        fin_cases i <;> rfl
      rw [first_of_opcode_zero hc, Command.operand1, hx]
      exact sam32_localRegister i
    | globalRegister i =>
      have hc : c.op1c l = 0 := by
        rw [Command.op1c, h]
        fin_cases i <;> rfl
      have hx : (c.op1x l).extractLsb' 0 7 = BitVec.ofNat 7 (0x42 + 4 * i) := by
        rw [Command.op1x, h]
        fin_cases i <;> rfl
      rw [first_of_opcode_zero hc, Command.operand1, hx]
      exact sam32_globalRegister i
  | integerConst value =>
    rw [ofNat_word_integerConst] at h
    have hc : c.op1c l = 0xd5 := by
      rw [Command.op1c, h, BitVec.extractLsb'_append_eq_of_le (by decide),
        BitVec.extractLsb'_append_eq_of_le (by decide)]
      rfl
    have hy : c.op1y l = 0 := by
      rw [Command.op1y, h, BitVec.extractLsb'_append_eq_of_add_le (by decide)]
      rfl
    have hyy : c.op1yy l = value.extractLsb' 0 8 ||| value.extractLsb' 8 8 := by
      rw [Command.op1yy, h, BitVec.extractLsb'_append_eq_of_le (by decide),
        BitVec.extractLsb'_append_eq_of_add_le (by decide)]
      exact BitVec.extractLsb'_eq_self
    rw [Command.first, Command.operand2, hc, hy, hyy]
    exact zero_append_byte _

/-- A lane without a word fetches the first bytes of the header. -/
theorem first_of_zero (h : c ⟨l.val, Lane.isWord l⟩ = 0) :
    c.first p l = p.header.extractLsb' 0 32 := by
  have hc : c.op1c l = 0 := by
    rw [Command.op1c, h]
    rfl
  have hx : (c.op1x l).extractLsb' 0 7 = 0 := by
    rw [Command.op1x, h]
    rfl
  rw [first_of_opcode_zero hc, Command.operand1, hx]
  exact sam32_zero

/-! ## The second stage -/

/-- The two half words of a word. -/
theorem halves {a : ℕ} (b : ℕ) (ha : a < 2 ^ 16) :
    (BitVec.ofNat 32 (a ||| (b <<< 16))).extractLsb' 0 16 = BitVec.ofNat 16 a ∧
      (BitVec.ofNat 32 (a ||| (b <<< 16))).extractLsb' 16 16 = BitVec.ofNat 16 b := by
  have hsum : a ||| (b <<< 16) = b * 2 ^ 16 + a := by
    rw [Nat.or_comm, ← Nat.shiftLeft_add_eq_or_of_lt ha, Nat.shiftLeft_eq]
  rw [hsum]
  constructor
  · apply BitVec.eq_of_toNat_eq
    simp only [BitVec.extractLsb'_toNat, BitVec.toNat_ofNat, Nat.shiftRight_zero]
    omega
  · apply BitVec.eq_of_toNat_eq
    simp only [BitVec.extractLsb'_toNat, BitVec.toNat_ofNat, Nat.shiftRight_eq_div_pow]
    omega

/-- The fields of a selection. -/
theorem ofNat_word (s : Selection) :
    (BitVec.ofNat 16 s.word).extractLsb' 0 3 = BitVec.ofNat 3 s.x ∧
      (BitVec.ofNat 16 s.word).extractLsb' 3 3 = BitVec.ofNat 3 s.y ∧
      ((BitVec.ofNat 16 s.word).extractLsb' 8 8).extractLsb' 0 7 =
        (if s.minus then 0b0010001 else 0b0010000 : BitVec 7) := by
  have hall : ∀ (x y : Fin 4) (m : Bool),
      (BitVec.ofNat 16 (⟨x, y, m⟩ : Selection).word).extractLsb' 0 3 = BitVec.ofNat 3 x ∧
        (BitVec.ofNat 16 (⟨x, y, m⟩ : Selection).word).extractLsb' 3 3 = BitVec.ofNat 3 y ∧
        ((BitVec.ofNat 16 (⟨x, y, m⟩ : Selection).word).extractLsb' 8 8).extractLsb' 0 7 =
          (if m then 0b0010001 else 0b0010000 : BitVec 7) := by decide +kernel
  exact hall s.x s.y s.minus

/-- A selector below four selects a result of the stage before. -/
theorem mux3_result (res x : Lane → BitVec 32) (l : Lane) :
    mux3 (muxInputs res x) (BitVec.ofNat 3 l) = res l := by
  fin_cases l <;> rfl

/-- What a lane of the second stage makes of what the first fetched. -/
def combine {α : Type*} [Add α] [Sub α] (fetched : Lane → α) : Option Selection → α
  | none => fetched 0
  | some s => if s.minus then fetched s.x - fetched s.y else fetched s.x + fetched s.y

/-- **A lane combines what its selection names.** -/
theorem second_of_stage2 {lane : Option Selection}
    (h : c.stage2 l = BitVec.ofNat 16 (laneWord lane)) :
    c.second p l = combine (c.first p) lane := by
  cases lane with
  | none =>
    have hx : c.op2x l = BitVec.ofNat 3 (0 : Lane).val := by
      rw [Command.op2x, h]
      rfl
    have hc : c.op2c l = 0 := by
      rw [Command.op2c, h]
      rfl
    rw [Command.second, hx, hc, mux3_result]
    rfl
  | some s =>
    obtain ⟨hx, hy, hc⟩ := ofNat_word s
    rw [Command.second, Command.op2x, Command.op2y, Command.op2c, h]
    change alu (mux3 _ ((BitVec.ofNat 16 s.word).extractLsb' 0 3))
      (mux3 _ ((BitVec.ofNat 16 s.word).extractLsb' 3 3)) _ = _
    rw [hx, hy, mux3_result, mux3_result]
    change alu _ _ (((BitVec.ofNat 16 s.word).extractLsb' 8 8).extractLsb' 0 7) = _
    rw [hc]
    cases hm : s.minus <;> simp [alu, combine, hm]

/-! ## The third stage -/

/-- A lane of the third stage whose half word is its own number, with an
opcode of zeros, passes the lane on. -/
theorem third_of_stage3 {opCod : BitVec 8} (h : c.stage3 l = BitVec.ofNat 16 l)
    (hop : opCod.extractLsb' 0 7 = 0) : c.third p l opCod = c.second p l := by
  have hx : c.op3x l = BitVec.ofNat 3 l := by
    rw [Command.op3x, h]
    fin_cases l <;> rfl
  rw [Command.third, hop, hx, mux3_result]
  rfl

/-! ## The words of some instructions -/

section Instructions

variable {us : List AluUpdate}

/-- What the first stage fetches: the distinct operands, and behind them
something else. -/
def fetchedAt {α : Type*} (value : AluInput → α) (rest : α) (inputs : List AluInput) (l : Lane) :
    α :=
  ((inputs[l.val]?).map value).getD rest

/-- What a lane of the second stage makes of them. -/
def laneValue {α : Type*} [Add α] [Sub α] (value : AluInput → α) (rest : α)
    (us : List AluUpdate) (l : Lane) : α :=
  combine (fetchedAt value rest (packedInputs us)) (lanesOf (packedInputs us) us l)

/-- The first bytes of the header. -/
def headerWord (p : PipealuIn) : BitVec 32 := p.header.extractLsb' 0 32

theorem aluWords_of_ne_nil (h : us ≠ []) : aluWords us =
    passWords (wordsOf (inputWords (packedInputs us)) (lanesOf (packedInputs us) us)
      (us.any fun u => u.op2.isGlobal)) := if_neg h

/-- The first stage fetches the distinct operands. -/
theorem first_aluWords (h : us ≠ []) :
    (commandOf (aluWords us)).first p l =
      fetchedAt (fetched p) (headerWord p) (packedInputs us) l := by
  have hword : aluWords us ⟨l.val, Lane.isWord l⟩ =
      (((packedInputs us)[l.val]?).map AluInput.word).getD 0 := by
    rw [aluWords_of_ne_nil h]
    fin_cases l <;> rfl
  unfold fetchedAt
  cases hx : (packedInputs us)[l.val]? with
  | none =>
    rw [hx] at hword
    exact first_of_zero (by rw [commandOf, hword]; rfl)
  | some x =>
    rw [hx] at hword
    exact first_of_word (by rw [commandOf, hword]; rfl)

/-- The second stage combines them. -/
theorem second_aluWords (h : us ≠ []) : (commandOf (aluWords us)).second p l =
    laneValue (fetched p) (headerWord p) us l := by
  have hfirst : (commandOf (aluWords us)).first p =
      fetchedAt (fetched p) (headerWord p) (packedInputs us) := funext fun l => first_aluWords h
  rw [laneValue, ← hfirst]
  apply second_of_stage2
  rw [Command.stage2, commandOf, aluWords_of_ne_nil h]
  fin_cases l
  · exact (halves _ (laneWord_lt _)).1
  · exact (halves _ (laneWord_lt _)).2
  · exact (halves _ (laneWord_lt _)).1
  · exact (halves _ (laneWord_lt _)).2

theorem stage3_aluWords (us : List AluUpdate) :
    (commandOf (aluWords us)).stage3 l = BitVec.ofNat 16 l := by
  have h6 : aluWords us 6 = 0x00010000 := by
    unfold aluWords
    split <;> simp [passWords, idleWords]
  have h7 : aluWords us 7 = 0x00030002 := by
    unfold aluWords
    split <;> simp [passWords, idleWords]
  fin_cases l
  · change (BitVec.ofNat 32 (aluWords us 6)).extractLsb' 0 16 = _
    rw [h6]
    rfl
  · change (BitVec.ofNat 32 (aluWords us 6)).extractLsb' 16 16 = _
    rw [h6]
    rfl
  · change (BitVec.ofNat 32 (aluWords us 7)).extractLsb' 0 16 = _
    rw [h7]
    rfl
  · change (BitVec.ofNat 32 (aluWords us 7)).extractLsb' 16 16 = _
    rw [h7]
    rfl

theorem op3GR_aluWords (us : List AluUpdate) : (commandOf (aluWords us)).op3GR l =
    if l = 0 ∧ us.any (fun u => u.op2.isGlobal) then 0x80 else 0 := by
  by_cases h : us = []
  · subst h
    fin_cases l <;> rfl
  · rw [Command.op3GR, commandOf, aluWords_of_ne_nil h]
    cases hg : us.any fun u => u.op2.isGlobal <;> fin_cases l <;> simp [passWords, wordsOf]

/-- **What the lanes show.** -/
theorem result_aluWords (h : us ≠ []) : (commandOf (aluWords us)).result p l =
    laneValue (fetched p) (headerWord p) us l := by
  have hop : ((commandOf (aluWords us)).op3c l).extractLsb' 0 7 = 0 := by
    rw [Command.op3c, stage3_aluWords]
    fin_cases l <;> rfl
  rw [Command.result, third_of_stage3 (stage3_aluWords us) hop, second_aluWords h]

/-- **What the global registers become**: where some instruction has one
for its destination, the first takes the first lane, and the others are
never written. -/
theorem globals_aluWords (us : List AluUpdate) : (commandOf (aluWords us)).globals p l =
    if l = 0 ∧ us.any (fun u => u.op2.isGlobal) then
      laneValue (fetched p) (headerWord p) us 0
    else p.inGR l := by
  rw [Command.globals, op3GR_aluWords]
  by_cases hg : l = 0 ∧ us.any (fun u => u.op2.isGlobal) = true
  · have hne : us ≠ [] := by
      rintro rfl
      simp at hg
    rw [if_pos hg, if_pos hg, if_pos (by decide), third_of_stage3 (stage3_aluWords us) (by decide),
      second_aluWords hne, hg.1]
  · rw [if_neg hg, if_neg hg, if_neg (by decide)]

end Instructions

end FlowBlaze
