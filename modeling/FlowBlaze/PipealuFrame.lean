import FlowBlaze.Loader.PipeAluWords
import FlowBlaze.PipealuUpdates
/-!
# What a row leaves alone

The datapath writes all three local registers on every packet, each from
the lane of its number, and the first global register from the first
lane whenever some instruction has a global destination. A register that
is no destination keeps its value only where its lane happens to select
it. This file reads off the words of a row what each lane selects, and
says exactly which rows leave alone what they do not name.
-/

namespace FlowBlaze

open Common Hw Loader Sw

/-! ## What is selected -/

/-- What the datapath can read that is not a constant. -/
inductive AluSource
  | register (r : AluRegister)
  | headerWord
  | timestamp
deriving DecidableEq, Repr

/-- What the first stage fetches. -/
inductive Fetched
  | source (s : AluSource)
  | const (c : BitVec 32)
deriving DecidableEq, Repr

def Fetched.eval (s : AluSource → BitVec 32) : Fetched → BitVec 32
  | source x => s x
  | const c => c

/-- What a lane makes of what was fetched. -/
def Loader.LaneFields.value (f : LaneFields) (fetched : Lane → BitVec 32) : BitVec 32 :=
  match f.code with
  | .pass => fetched f.x
  | .plus => fetched f.x + fetched f.y
  | .minus => fetched f.x - fetched f.y

/-- **A lane passes a register on**: it selects it alone, or with a zero. -/
def Loader.LaneFields.Passes (f : LaneFields) (fetched : Lane → Fetched) (r : AluRegister) :
    Prop :=
  match f.code with
  | .pass => fetched f.x = .source (.register r)
  | .plus => (fetched f.x = .source (.register r) ∧ fetched f.y = .const 0) ∨
      (fetched f.x = .const 0 ∧ fetched f.y = .source (.register r))
  | .minus => fetched f.x = .source (.register r) ∧ fetched f.y = .const 0

/-- A global register when the words are executed: what an update has set
it to at once, the last counting. -/
def configuredGlobal (written : List (ℕ × ℕ)) (i : Fin 4) : Fetched :=
  written.foldl (fun f w =>
    if BitVec.ofNat 32 w.1 = 0x80000100 + 4 * BitVec.ofNat 32 i.val then
      .const (BitVec.ofNat 32 w.2)
    else f) (.source (.register (.globalRegister i)))

/-- What is fetched for an operand. A register the board does not have is
refused. -/
def fetchedOperand (written : List (ℕ × ℕ)) : FbOperand → Fetched
  | .xtraLocalRegister name =>
    if h : name < 3 then .source (.register (.localRegister ⟨name, h⟩)) else .source .headerWord
  | .xtraGlobalRegister name =>
    if h : name < 4 then configuredGlobal written ⟨name, h⟩ else .source .headerWord
  | .xtraIntegerConst value => .const (immediate (BitVec.ofNat 16 value))
  | .xtraReadOnlyRegister _ => .source .timestamp
  | .other _ _ => .source .headerWord

/-- What the lanes of the first stage fetch for a row. -/
def rowFetched (state : ℕ) (actions : List FbAction) (l : Lane) : Fetched :=
  (((rowInputs (rowInstructions state actions))[l.val]?).map
    (fetchedOperand (actions.filterMap (FbAction.configuredWrite state)))).getD
      (.source .headerWord)

/-- A destination of one of the row's updates. -/
def Destination (actions : List FbAction) (r : AluRegister) : Prop :=
  ∃ a ∈ actions, isAnUpdate a.opcode = true ∧ a.op2 = r.toFb

/-- **The row leaves the other registers alone**, whatever they hold. -/
def LeavesOthers (actions : List FbAction) (out : List (ℕ × ℕ) × PipeAluWords) : Prop :=
  ∀ v header r, ¬Destination actions r → aluResult out v header r = v r

/-- **When a register is passed on**: without instructions, or through its
lane. A global register other than the first is never written. -/
def Kept (state : ℕ) (actions : List FbAction) : AluRegister → Prop
  | .localRegister i => rowInstructions state actions = [] ∨
      (rowLanes (rowInstructions state actions) i.castSucc).Passes (rowFetched state actions)
        (.localRegister i)
  | .globalRegister i =>
    (i = 0 → (rowInstructions state actions).any (fun a => a.op2.isGlobal) = false) ∨
      (rowLanes (rowInstructions state actions) 0).Passes (rowFetched state actions)
        (.globalRegister i)

/-! ## A lane passes a register on -/

section Passes

variable {f : LaneFields} {fetched : Lane → Fetched} {r : AluRegister}
  {v : AluRegister → BitVec 32} {header : BitVec 432}

/-- What there is to read. -/
def sourceValues (v : AluRegister → BitVec 32) (header : BitVec 432) : AluSource → BitVec 32
  | .register r => v r
  | .headerWord => header.extractLsb' 0 32
  | .timestamp => header.extractLsb' 320 32

/-- The registers, the header's first word and the timestamp may be
anything. -/
theorem exists_sourceValues (s : AluSource → BitVec 32) :
    ∃ v header, sourceValues v header = s := by
  refine ⟨fun r => s (.register r), ((0 : BitVec 80) ++ s .timestamp ++ (0 : BitVec 288) ++
    s .headerWord : BitVec (80 + 32 + 288 + 32)), funext fun x => ?_⟩
  cases x with
  | register r => rfl
  | headerWord =>
    change BitVec.extractLsb' 0 32 (_ ++ _ : BitVec (80 + 32 + 288 + 32)) = _
    rw [BitVec.extractLsb'_append_eq_of_add_le (by decide)]
    exact BitVec.extractLsb'_eq_self
  | timestamp =>
    change BitVec.extractLsb' 320 32 (_ ++ _ : BitVec (80 + 32 + 288 + 32)) = _
    rw [BitVec.extractLsb'_append_eq_of_le (by decide),
      BitVec.extractLsb'_append_eq_of_le (by decide),
      BitVec.extractLsb'_append_eq_of_add_le (by decide)]
    exact BitVec.extractLsb'_eq_self

/-- One source alone. -/
theorem eval_eq_source {x : Fetched} {q : AluSource} (h : ∀ s, x.eval s = s q) :
    x = .source q := by
  cases x with
  | source y =>
    by_contra hne
    have hyq : y ≠ q := fun he => hne (congrArg Fetched.source he)
    have h1 := h (Function.update (fun _ => 0) q 1)
    rw [Fetched.eval, Function.update_of_ne hyq, Function.update_self] at h1
    exact absurd h1 (by decide)
  | const c =>
    have h0 := h fun _ => 0
    have h1 := h fun _ => 1
    rw [Fetched.eval] at h0 h1
    rw [h0] at h1
    exact absurd h1 (by decide)

/-- A constant added or taken away has to be zero. -/
theorem eval_add_const {x : Fetched} {c : BitVec 32} {q : AluSource}
    (h : ∀ s, x.eval s + c = s q) : x = .source q ∧ c = 0 := by
  have hc : c = 0 := by
    cases x with
    | source y =>
      have h0 := h fun _ => 0
      rwa [Fetched.eval, zero_add] at h0
    | const d =>
      have h0 := h fun _ => 0
      have h1 := h fun _ => 1
      rw [Fetched.eval] at h0 h1
      rw [h0] at h1
      exact absurd h1 (by decide)
  subst hc
  exact ⟨eval_eq_source fun s => by rw [← h s, add_zero], rfl⟩

/-- Two sources never make one. -/
theorem eval_source_source {y z q : AluSource} :
    (¬∀ s : AluSource → BitVec 32, s y + s z = s q) ∧
      ¬∀ s : AluSource → BitVec 32, s y - s z = s q :=
  ⟨fun h => absurd (h fun _ => 1) (by decide), fun h => absurd (h fun _ => 1) (by decide)⟩

/-- **A lane passes a register on exactly then.** -/
theorem passes_iff : f.Passes fetched r ↔
    ∀ v header, f.value (fun l => (fetched l).eval (sourceValues v header)) = v r := by
  have hall : (∀ v header, f.value (fun l => (fetched l).eval (sourceValues v header)) = v r) ↔
      ∀ s, f.value (fun l => (fetched l).eval s) = s (.register r) := by
    constructor
    · intro h s
      obtain ⟨v, header, rfl⟩ := exists_sourceValues s
      exact h v header
    · exact fun h v header => h (sourceValues v header)
  rw [hall]
  unfold LaneFields.Passes LaneFields.value
  cases f.code with
  | pass =>
    constructor
    · intro h s
      dsimp only at h ⊢
      rw [h]
      rfl
    · exact fun h => eval_eq_source h
  | plus =>
    constructor
    · rintro (⟨hx, hy⟩ | ⟨hx, hy⟩) s
      · dsimp only
        rw [hx, hy]
        exact BitVec.add_zero _
      · dsimp only
        rw [hx, hy]
        exact BitVec.zero_add _
    · intro h
      dsimp only at h ⊢
      cases hy : fetched f.y with
      | const c =>
        rw [hy] at h
        obtain ⟨hx, rfl⟩ := eval_add_const h
        exact .inl ⟨hx, rfl⟩
      | source z =>
        cases hx : fetched f.x with
        | const c =>
          rw [hx, hy] at h
          obtain ⟨hz, rfl⟩ := @eval_add_const (.source z) c _ fun s => by
            rw [BitVec.add_comm]
            exact h s
          exact .inr ⟨rfl, hz⟩
        | source y =>
          rw [hx, hy] at h
          exact absurd h eval_source_source.1
  | minus =>
    constructor
    · rintro ⟨hx, hy⟩ s
      dsimp only
      rw [hx, hy]
      exact BitVec.sub_zero _
    · intro h
      dsimp only at h ⊢
      cases hy : fetched f.y with
      | const c =>
        rw [hy] at h
        obtain ⟨hx, hc⟩ := @eval_add_const (fetched f.x) (-c) _ fun s => by
          rw [← BitVec.sub_eq_add_neg]
          exact h s
        refine ⟨hx, congrArg Fetched.const ?_⟩
        rwa [neg_eq_zero] at hc
      | source z =>
        cases hx : fetched f.x with
        | const c =>
          rw [hx, hy] at h
          have h0 := h fun _ => 0
          have h1 := h fun _ => 1
          change c - 0 = 0 at h0
          rw [sub_zero] at h0
          subst h0
          change (0 : BitVec 32) - 1 = 1 at h1
          exact absurd h1 (by decide)
        | source y =>
          rw [hx, hy] at h
          exact absurd h eval_source_source.2

end Passes

/-! ## The words of a row on the datapath -/

section Words

variable {p : PipealuIn} {c : Command} {l : Lane} {f : LaneFields} {state : ℕ}
  {actions : List FbAction} {out : List (ℕ × ℕ) × PipeAluWords} {v : AluRegister → BitVec 32}
  {header : BitVec 432}

/-- A global register when the words are executed. -/
theorem foldl_writeGR_eq (written : List (ℕ × ℕ)) (i : Fin 4) :
    written.foldl writeGR (fun i => v (.globalRegister i)) i =
      (configuredGlobal written i).eval (sourceValues v header) := by
  have hfold : ∀ (ws : List (ℕ × ℕ)) (gr : Fin 4 → BitVec 32) (x : Fetched),
      gr i = x.eval (sourceValues v header) →
      ws.foldl writeGR gr i = (ws.foldl (fun f w =>
        if BitVec.ofNat 32 w.1 = 0x80000100 + 4 * BitVec.ofNat 32 i.val then
          .const (BitVec.ofNat 32 w.2) else f) x).eval (sourceValues v header) := by
    intro ws
    induction ws with
    | nil => exact fun _ _ h => h
    | cons w ws ih =>
      intro gr x h
      rw [List.foldl_cons, List.foldl_cons]
      refine ih _ _ ?_
      unfold writeGR
      split
      · rfl
      · exact h
  exact hfold written _ _ rfl

/-- A global register that is not written keeps its value. -/
theorem foldl_writeGR_of_ne {written : List (ℕ × ℕ)} {i : Fin 4}
    (h : ∀ w ∈ written, BitVec.ofNat 32 w.1 ≠ 0x80000100 + 4 * BitVec.ofNat 32 i.val)
    (gr : Fin 4 → BitVec 32) : written.foldl writeGR gr i = gr i := by
  induction written generalizing gr with
  | nil => rfl
  | cons w ws ih =>
    rw [List.foldl_cons, ih fun w hw => h w (List.mem_cons_of_mem _ hw)]
    exact if_neg (h w List.mem_cons_self)

/-- The word of a constant is that of its low half. -/
theorem inputWord_xtraIntegerConst (value : ℕ) : inputWord (.xtraIntegerConst value) =
    some (AluInput.integerConst (BitVec.ofNat 16 value)).word := by
  have hand : ∀ m : ℕ, m < 2 ^ 16 → (BitVec.ofNat 16 value).toNat &&& m = value &&& m := by
    intro m hm
    apply Nat.eq_of_testBit_eq
    intro i
    rw [Nat.testBit_and, Nat.testBit_and, BitVec.toNat_ofNat, Nat.testBit_mod_two_pow]
    by_cases hi : i < 16
    · simp [hi]
    · have hle : 2 ^ 16 ≤ 2 ^ i := Nat.pow_le_pow_right (by decide) (by omega)
      simp [hi, Nat.testBit_lt_two_pow (hm.trans_le hle)]
  simp only [inputWord, AluInput.word, hand 0xff (by decide), hand 0xff00 (by decide)]

/-- At the offset of the timestamp stand bytes 40 to 43 of the header. -/
theorem sam32_timestamp : sam32 p.extentedHeader 0x28 = p.header.extractLsb' 320 32 := by
  rw [sam32_of_le _ _ (by decide), PipealuIn.extentedHeader]
  exact BitVec.extractLsb'_append_eq_of_add_le (by decide)

/-- **A lane fetches what its operand means.** -/
theorem first_of_inputWord {written : List (ℕ × ℕ)} {x : FbOperand} {w : ℕ}
    (hw : inputWord x = some w) (h : c ⟨l.val, by omega⟩ = BitVec.ofNat 32 w) :
    c.first (aluPorts written v header) l =
      (fetchedOperand written x).eval (sourceValues v header) := by
  cases x with
  | xtraLocalRegister name =>
    have hlt : name < 3 := (List.getElem?_eq_some_iff.mp hw).1
    have hword : (AluInput.register (.localRegister ⟨name, hlt⟩)).word = w := by
      have hall : ∀ n : Fin 3, regsOffset[n.val]? =
          some (AluInput.register (.localRegister n)).word := by decide
      exact Option.some.inj ((hall ⟨name, hlt⟩).symm.trans hw)
    rw [first_of_word (x := .register (.localRegister ⟨name, hlt⟩)) (by rw [hword]; exact h)]
    simp [fetched, fetchedOperand, hlt, aluPorts, Fetched.eval, sourceValues]
  | xtraGlobalRegister name =>
    have hlt : name < 4 := (List.getElem?_eq_some_iff.mp hw).1
    have hword : (AluInput.register (.globalRegister ⟨name, hlt⟩)).word = w := by
      have hall : ∀ n : Fin 4, grsOffset[n.val]? =
          some (AluInput.register (.globalRegister n)).word := by decide
      exact Option.some.inj ((hall ⟨name, hlt⟩).symm.trans hw)
    rw [first_of_word (x := .register (.globalRegister ⟨name, hlt⟩)) (by rw [hword]; exact h)]
    simp only [fetchedOperand, hlt, dif_pos]
    exact foldl_writeGR_eq written ⟨name, hlt⟩
  | xtraIntegerConst value =>
    have hword := (inputWord_xtraIntegerConst value).symm.trans hw
    rw [first_of_word (x := .integerConst (BitVec.ofNat 16 value))
      (by rw [Option.some.inj hword]; exact h)]
    rfl
  | xtraReadOnlyRegister name =>
    cases hw
    have hc : c.op1c l = 0 := by
      rw [Command.op1c, h]
      rfl
    have hx : (c.op1x l).extractLsb' 0 7 = 0x28 := by
      rw [Command.op1x, h]
      rfl
    rw [first_of_opcode_zero hc, Command.operand1, hx, sam32_timestamp]
    rfl
  | other type name =>
    cases hw
    exact first_of_zero h

/-- The fields of a half word. -/
theorem ofNat_word_laneFields (f : LaneFields) :
    (BitVec.ofNat 16 f.word).extractLsb' 0 3 = BitVec.ofNat 3 f.x ∧
      (BitVec.ofNat 16 f.word).extractLsb' 3 3 = BitVec.ofNat 3 f.y ∧
      (BitVec.ofNat 16 f.word).extractLsb' 8 8 = BitVec.ofNat 8 f.code.number := by
  have hall : ∀ (x y : Fin 4) (code : LaneCode),
      (BitVec.ofNat 16 (⟨x, y, code⟩ : LaneFields).word).extractLsb' 0 3 = BitVec.ofNat 3 x ∧
        (BitVec.ofNat 16 (⟨x, y, code⟩ : LaneFields).word).extractLsb' 3 3 = BitVec.ofNat 3 y ∧
        (BitVec.ofNat 16 (⟨x, y, code⟩ : LaneFields).word).extractLsb' 8 8 =
          BitVec.ofNat 8 code.number := by decide +kernel
  exact hall f.x f.y f.code

/-- **A lane makes what its half word says.** -/
theorem second_of_laneFields (h : c.stage2 l = BitVec.ofNat 16 f.word) :
    c.second p l = f.value (c.first p) := by
  obtain ⟨hx, hy, hc⟩ := ofNat_word_laneFields f
  rw [Command.second, Command.op2x, Command.op2y, Command.op2c, h, hx, hy, hc, mux3_result,
    mux3_result]
  unfold LaneFields.value
  cases f.code <;> rfl

/-- Words that pass the lanes of the second stage on. -/
theorem stage3_of_pass (h6 : c 6 = 0x00010000) (h7 : c 7 = 0x00030002) :
    c.stage3 l = BitVec.ofNat 16 l := by
  unfold Command.stage3
  fin_cases l
  · exact (congrArg (BitVec.extractLsb' 0 16) h6).trans rfl
  · exact (congrArg (BitVec.extractLsb' 16 16) h6).trans rfl
  · exact (congrArg (BitVec.extractLsb' 0 16) h7).trans rfl
  · exact (congrArg (BitVec.extractLsb' 16 16) h7).trans rfl

/-- The first stage of a row. -/
theorem first_rowWords (h : pipeAluActionsAllocator actions state = some out)
    (hne : rowInstructions state actions ≠ []) (l : Lane) :
    (commandOf out.2).first (aluPorts out.1 v header) l =
      (rowFetched state actions l).eval (sourceValues v header) := by
  obtain ⟨hwords, -, hall, hwritten⟩ := words_of_pipeAluActionsAllocator h
  have hword : out.2 ⟨l.val, by omega⟩ =
      ((rowInputs (rowInstructions state actions))[l.val]?.bind inputWord).getD 0 := by
    rw [hwords]
    unfold rowWords
    rw [if_neg hne]
    fin_cases l <;> rfl
  unfold rowFetched
  cases hx : (rowInputs (rowInstructions state actions))[l.val]? with
  | none =>
    rw [hx] at hword
    exact first_of_zero (by rw [commandOf, hword]; rfl)
  | some x =>
    obtain ⟨w, hw⟩ := Option.isSome_iff_exists.mp (hall x (List.mem_of_getElem? hx))
    rw [hx, Option.bind_some, hw] at hword
    rw [Option.map_some, Option.getD_some, ← hwritten]
    exact first_of_inputWord hw (by rw [commandOf, hword]; rfl)

/-- The second stage of a row. -/
theorem second_rowWords (h : pipeAluActionsAllocator actions state = some out)
    (hne : rowInstructions state actions ≠ []) (l : Lane) :
    (commandOf out.2).second (aluPorts out.1 v header) l =
      (rowLanes (rowInstructions state actions) l).value
        fun l => (rowFetched state actions l).eval (sourceValues v header) := by
  have hstage : (commandOf out.2).stage2 l =
      BitVec.ofNat 16 (rowLanes (rowInstructions state actions) l).word := by
    rw [Command.stage2, commandOf, (words_of_pipeAluActionsAllocator h).1]
    unfold rowWords
    rw [if_neg hne]
    fin_cases l
    · exact (halves _ (LaneFields.word_lt _)).1
    · exact (halves _ (LaneFields.word_lt _)).2
    · exact (halves _ (LaneFields.word_lt _)).1
    · exact (halves _ (LaneFields.word_lt _)).2
  rw [second_of_laneFields hstage]
  exact congrArg _ (funext fun l => first_rowWords h hne l)

/-- Every row passes its lanes on. -/
theorem stage3_rowWords (h : pipeAluActionsAllocator actions state = some out) (l : Lane) :
    (commandOf out.2).stage3 l = BitVec.ofNat 16 l := by
  have h67 : out.2 6 = 0x00010000 ∧ out.2 7 = 0x00030002 := by
    rw [(words_of_pipeAluActionsAllocator h).1]
    unfold rowWords
    split <;> exact ⟨rfl, rfl⟩
  exact stage3_of_pass (by rw [commandOf, h67.1]; rfl) (by rw [commandOf, h67.2]; rfl)

theorem result_rowWords (h : pipeAluActionsAllocator actions state = some out) (l : Lane) :
    (commandOf out.2).result p l = (commandOf out.2).second p l := by
  refine third_of_stage3 (stage3_rowWords h l) ?_
  rw [Command.op3c, stage3_rowWords h]
  fin_cases l <;> rfl

/-- Without instructions the local registers pass through. -/
theorem result_idle (h : pipeAluActionsAllocator actions state = some out)
    (hnil : rowInstructions state actions = []) (i : Fin 3) :
    (commandOf out.2).result p i.castSucc = p.rin i := by
  have hwords : out.2 = idleWords := by
    rw [(words_of_pipeAluActionsAllocator h).1, hnil]
    rfl
  have hfirst : (commandOf out.2).first p i.castSucc = p.rin i := by
    rw [hwords]
    refine first_of_word (x := .register (.localRegister i)) ?_
    fin_cases i <;> rfl
  have hstage : (commandOf out.2).stage2 i.castSucc =
      BitVec.ofNat 16 (⟨i.castSucc, 0, .pass⟩ : LaneFields).word := by
    rw [hwords]
    fin_cases i <;> rfl
  rw [result_rowWords h, second_of_laneFields hstage]
  exact hfirst

/-- A row writes no global register but the first. -/
theorem op3GR_rowWords (h : pipeAluActionsAllocator actions state = some out) (l : Lane) :
    ((commandOf out.2).op3GR l).getLsbD 7 = true ↔
      l = 0 ∧ (rowInstructions state actions).any (fun a => a.op2.isGlobal) = true := by
  have hword : out.2 8 =
      if (rowInstructions state actions).any (fun a => a.op2.isGlobal) then 0x80 else 0 := by
    rw [(words_of_pipeAluActionsAllocator h).1]
    unfold rowWords
    split
    · next hnil =>
      rw [hnil]
      rfl
    · rfl
  rw [Command.op3GR, commandOf, hword]
  cases (rowInstructions state actions).any fun a => a.op2.isGlobal <;> fin_cases l <;> decide

/-- The opcode of the global registers passes the first lane on. -/
theorem third_rowWords (h : pipeAluActionsAllocator actions state = some out)
    (hany : (rowInstructions state actions).any (fun a => a.op2.isGlobal) = true) :
    (commandOf out.2).third p 0 ((commandOf out.2).op3GR 0) = (commandOf out.2).second p 0 := by
  have hne : rowInstructions state actions ≠ [] := by
    intro hnil
    rw [hnil] at hany
    cases hany
  refine third_of_stage3 (stage3_rowWords h 0) ?_
  rw [Command.op3GR, commandOf, (words_of_pipeAluActionsAllocator h).1]
  unfold rowWords
  rw [if_neg hne]
  simp [passWords, laneWords, hany]

/-- A register that is no destination is not written by the processor. -/
theorem inGR_of_not_destination (h : pipeAluActionsAllocator actions state = some out) {i : Fin 4}
    (hi : ¬Destination actions (.globalRegister i)) :
    (aluPorts out.1 v header).inGR i = v (.globalRegister i) := by
  refine foldl_writeGR_of_ne (fun w hw haddr => hi ?_) _
  rw [(words_of_pipeAluActionsAllocator h).2.2.2, List.mem_filterMap] at hw
  obtain ⟨a, ha, hw⟩ := hw
  obtain ⟨hupdate, j, hop2, hj⟩ := mem_configuredWrite hw
  have haddrs : ∀ i j : Fin 4, BitVec.ofNat 32 (0x80000100 + 4 * j.val) =
      0x80000100 + 4 * BitVec.ofNat 32 i.val → i = j := by decide
  rw [hj] at haddr
  obtain rfl := haddrs i j haddr
  exact ⟨a, ha, hupdate, hop2⟩

/-- **One register.** -/
theorem kept_iff (h : pipeAluActionsAllocator actions state = some out) {r : AluRegister}
    (hr : ¬Destination actions r) :
    (∀ v header, aluResult out v header r = v r) ↔ Kept state actions r := by
  cases r with
  | localRegister i =>
    by_cases hnil : rowInstructions state actions = []
    · refine iff_of_true (fun v header => ?_) (.inl hnil)
      exact result_idle h hnil i
    · have hresult : ∀ v header, aluResult out v header (.localRegister i) =
          (rowLanes (rowInstructions state actions) i.castSucc).value
            fun l => (rowFetched state actions l).eval (sourceValues v header) := by
        intro v header
        refine (result_rowWords h i.castSucc).trans ?_
        exact second_rowWords h hnil i.castSucc
      simp only [hresult]
      rw [← passes_iff]
      exact ⟨.inr, fun hk => hk.resolve_left hnil⟩
  | globalRegister i =>
    by_cases hany : i = 0 ∧ (rowInstructions state actions).any (fun a => a.op2.isGlobal) = true
    · obtain ⟨rfl, hany⟩ := hany
      have hne : rowInstructions state actions ≠ [] := by
        intro hnil
        rw [hnil] at hany
        cases hany
      have hresult : ∀ v header, aluResult out v header (.globalRegister 0) =
          (rowLanes (rowInstructions state actions) 0).value
            fun l => (rowFetched state actions l).eval (sourceValues v header) := by
        intro v header
        change (commandOf out.2).globals _ 0 = _
        rw [Command.globals, if_pos ((op3GR_rowWords h 0).mpr ⟨rfl, hany⟩),
          third_rowWords h hany, second_rowWords h hne]
      simp only [hresult]
      rw [← passes_iff]
      refine ⟨.inr, fun hk => hk.resolve_left fun hnone => ?_⟩
      rw [hnone rfl] at hany
      cases hany
    · refine iff_of_true (fun v header => ?_) (.inl fun hi => ?_)
      · change (commandOf out.2).globals _ i = _
        rw [Command.globals, if_neg fun hset => hany ((op3GR_rowWords h i).mp hset)]
        exact inGR_of_not_destination h hr
      · exact Bool.not_eq_true _ |>.mp fun hset => hany ⟨hi, hset⟩

/-- **Which rows leave the other registers alone**: those that pass every
register on that they do not name. -/
theorem leavesOthers_iff (h : pipeAluActionsAllocator actions state = some out) :
    LeavesOthers actions out ↔ ∀ r, ¬Destination actions r → Kept state actions r := by
  constructor
  · exact fun hall r hr => (kept_iff h hr).mp fun v header => hall v header r hr
  · exact fun hall v header r hr => (kept_iff h hr).mpr (hall r hr) v header

/-- `R1 = R0 + R1` and `R2 = R0 + R2`. -/
def addToBoth : List FbAction :=
  [⟨.xtraSum, .xtraLocalRegister 0, .xtraLocalRegister 1, .xtraLocalRegister 1⟩,
    ⟨.xtraSum, .xtraLocalRegister 0, .xtraLocalRegister 2, .xtraLocalRegister 2⟩]

/-- The first local register happens to be the first operand. -/
theorem leavesOthers_addToBoth : ∃ out, pipeAluActionsAllocator addToBoth 1 = some out ∧
    LeavesOthers addToBoth out := by
  have hsome : (pipeAluActionsAllocator addToBoth 1).isSome = true := by decide
  obtain ⟨out, h⟩ := Option.isSome_iff_exists.mp hsome
  refine ⟨out, h, (leavesOthers_iff h).mpr fun r hr => ?_⟩
  cases r with
  | localRegister i =>
    fin_cases i
    · exact .inr (show rowFetched 1 addToBoth 0 = _ by decide)
    · exact absurd ⟨_, List.mem_cons_self, rfl, rfl⟩ hr
    · exact absurd ⟨_, List.mem_cons_of_mem _ List.mem_cons_self, rfl, rfl⟩ hr
  | globalRegister i => exact .inl fun _ => by decide

/-- `R0 = R0 + R1` -/
def addToFirst : List FbAction :=
  [⟨.xtraSum, .xtraLocalRegister 0, .xtraLocalRegister 1, .xtraLocalRegister 0⟩]

/-- **The second local register takes the value of the first.** -/
theorem not_leavesOthers : ¬∀ (actions : List FbAction) (state : ℕ)
    (out : List (ℕ × ℕ) × PipeAluWords),
    pipeAluActionsAllocator actions state = some out → LeavesOthers actions out := by
  intro hall
  have hsome : (pipeAluActionsAllocator addToFirst 1).isSome = true := by decide
  obtain ⟨out, h⟩ := Option.isSome_iff_exists.mp hsome
  have hr : ¬Destination addToFirst (.localRegister 1) := by
    rintro ⟨a, ha, -, hop2⟩
    rw [List.mem_singleton.mp ha] at hop2
    exact absurd hop2 (by decide)
  have hkept := (kept_iff h hr).mp fun v header => hall addToFirst 1 out h v header _ hr
  rcases hkept with hnil | hpasses
  · exact absurd hnil (by decide)
  · change rowFetched 1 addToFirst 0 = _ at hpasses
    exact absurd hpasses (by decide)

end Words

end FlowBlaze
