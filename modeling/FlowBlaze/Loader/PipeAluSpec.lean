import FlowBlaze.Loader.PipeAlu
import Mathlib.Data.Fintype.Sum
import Mathlib.Tactic.DeriveFintype
import Mathlib.Tactic.FinCases
/-!
# The words of the pipelined ALU

The updates the pipelined ALU can be asked for: sums and differences of
its registers and of 16-bit constants. For a list of them the allocator's
words are determined by three things: the distinct operands in the order
they come, for each lane the union of what its updates select, and
whether some update has a global register for its destination
(`pipeAluActionsAllocator_eq`).
-/

namespace FlowBlaze

namespace Loader

/-- A register of the datapath. -/
inductive AluRegister
  | localRegister (i : Fin 3)
  | globalRegister (i : Fin 4)
deriving DecidableEq, Fintype, Repr

/-- An operand of an update. -/
inductive AluInput
  | register (r : AluRegister)
  | integerConst (value : BitVec 16)
deriving DecidableEq, Repr

/-- A sum or a difference. -/
structure AluUpdate where
  minus : Bool
  op0 : AluInput
  op1 : AluInput
  op2 : AluRegister
deriving DecidableEq, Repr

/-! ## As actions -/

/-- The operand of a register. -/
def AluRegister.toFb : AluRegister → FbOperand
  | .localRegister i => .xtraLocalRegister i
  | .globalRegister i => .xtraGlobalRegister i

/-- The lane a destination belongs to. -/
def AluRegister.lane : AluRegister → Fin 4
  | .localRegister i => i.castSucc
  | .globalRegister i => i

def AluRegister.isGlobal : AluRegister → Bool
  | .localRegister _ => false
  | .globalRegister _ => true

def AluInput.toFb : AluInput → FbOperand
  | .register r => r.toFb
  | .integerConst value => .xtraIntegerConst value.toNat

def AluUpdate.toFb (u : AluUpdate) : FbAction where
  opcode := if u.minus then .xtraMinus else .xtraSum
  op0 := u.op0.toFb
  op1 := u.op1.toFb
  op2 := u.op2.toFb

/-- The constant a global register is set to, where the update is not an
instruction. -/
def AluUpdate.configured (state : ℕ) (u : AluUpdate) : Option (Fin 4 × BitVec 16) :=
  match u.op2, u.op0 with
  | .globalRegister i, .integerConst value => if state = 0 then some (i, value) else none
  | _, _ => none

/-- The updates that are instructions. -/
def instructions (state : ℕ) (updates : List AluUpdate) : List AluUpdate :=
  updates.filter fun u => (u.configured state).isNone

variable {state : ℕ} {u : AluUpdate} {updates : List AluUpdate}

@[simp] theorem AluRegister.toFb_inj {r r' : AluRegister} : r.toFb = r'.toFb ↔ r = r' := by
  cases r <;> cases r' <;> simp [toFb, Fin.ext_iff]

@[simp] theorem AluInput.toFb_inj {x y : AluInput} : x.toFb = y.toFb ↔ x = y := by
  cases x with
  | register r =>
    cases y with
    | register r' => simp [toFb]
    | integerConst v' => cases r <;> simp [toFb, AluRegister.toFb]
  | integerConst v =>
    cases y with
    | register r' => cases r' <;> simp [toFb, AluRegister.toFb]
    | integerConst v' => simp [toFb, BitVec.toNat_inj]

theorem AluInput.toFb_injective : Function.Injective AluInput.toFb :=
  fun _ _ h => toFb_inj.1 h

@[simp] theorem AluUpdate.isAnUpdate_toFb : isAnUpdate u.toFb.opcode = true := by
  unfold AluUpdate.toFb
  cases u.minus <;> rfl

@[simp] theorem AluRegister.isGlobal_toFb {r : AluRegister} : r.toFb.isGlobal = r.isGlobal := by
  cases r <;> rfl

@[simp] theorem AluRegister.name_toFb {r : AluRegister} : r.toFb.name = some r.lane.val := by
  cases r <;> rfl

/-- Whether an update is an instruction is decided as in the source. -/
theorem AluUpdate.configures_toFb :
    u.toFb.configures state = (u.configured state).isSome := by
  rcases u with ⟨minus, op0, op1, op2⟩
  cases op2 with
  | localRegister i => cases op0 <;> rfl
  | globalRegister i =>
    cases op0 with
    | register r => cases r <;> simp [configured, FbAction.configures, toFb, AluInput.toFb,
        AluRegister.toFb, FbOperand.constant]
    | integerConst v =>
      by_cases hs : state = 0 <;>
        simp [configured, FbAction.configures, toFb, AluInput.toFb, AluRegister.toFb,
          FbOperand.constant, FbOperand.isGlobal, hs]

/-! ## The operands -/

/-- An operand joins the distinct ones. -/
def joinInput (inputs : List AluInput) (x : AluInput) : List AluInput :=
  if x ∈ inputs then inputs else inputs ++ [x]

/-- The distinct operands of some instructions, in the order they come. -/
def packedInputs (us : List AluUpdate) : List AluInput :=
  us.foldl (fun inputs u => joinInput (joinInput inputs u.op0) u.op1) []

theorem appendInput_map (inputs : List AluInput) (x : AluInput) :
    appendInput (inputs.map AluInput.toFb) x.toFb = (joinInput inputs x).map AluInput.toFb := by
  unfold appendInput joinInput
  simp only [List.mem_map_of_injective AluInput.toFb_injective]
  split <;> simp

theorem subset_joinInput (inputs : List AluInput) (x : AluInput) :
    inputs ⊆ joinInput inputs x := by
  unfold joinInput
  split
  · exact List.Subset.refl _
  · exact List.subset_append_left _ _

theorem mem_joinInput (inputs : List AluInput) (x : AluInput) : x ∈ joinInput inputs x := by
  unfold joinInput
  split
  · assumption
  · simp

theorem nodup_joinInput {inputs : List AluInput} (h : inputs.Nodup) (x : AluInput) :
    (joinInput inputs x).Nodup := by
  unfold joinInput
  split
  · exact h
  · exact List.nodup_append.2 ⟨h, List.nodup_singleton x,
      fun a ha b hb he => by
        rw [List.mem_singleton] at hb
        subst hb
        subst he
        contradiction⟩

/-- The distinct operands are distinct. -/
theorem nodup_packedInputs (us : List AluUpdate) : (packedInputs us).Nodup := by
  have hfold : ∀ (us : List AluUpdate) (inputs : List AluInput), inputs.Nodup →
      (us.foldl (fun inputs u => joinInput (joinInput inputs u.op0) u.op1) inputs).Nodup := by
    intro us
    induction us with
    | nil => exact fun _ h => h
    | cons u us ih =>
      exact fun inputs h => ih _ (nodup_joinInput (nodup_joinInput h u.op0) u.op1)
  exact hfold us [] List.nodup_nil

/-- And those of every instruction are among them. -/
theorem mem_packedInputs {us : List AluUpdate} (h : u ∈ us) :
    u.op0 ∈ packedInputs us ∧ u.op1 ∈ packedInputs us := by
  have hmono : ∀ (us : List AluUpdate) (inputs : List AluInput),
      inputs ⊆ us.foldl (fun inputs u => joinInput (joinInput inputs u.op0) u.op1) inputs := by
    intro us
    induction us with
    | nil => exact fun _ => List.Subset.refl _
    | cons u us ih =>
      exact fun inputs => List.Subset.trans (List.Subset.trans (subset_joinInput inputs u.op0)
        (subset_joinInput _ u.op1)) (ih _)
  obtain ⟨before, after, rfl⟩ := List.append_of_mem h
  unfold packedInputs
  rw [List.foldl_append, List.foldl_cons]
  refine ⟨hmono after _ (subset_joinInput _ _ (mem_joinInput _ _)),
    hmono after _ (mem_joinInput _ _)⟩

/-- The loop that looks for an operand finds its place. -/
theorem position_map {inputs : List AluInput} (hn : inputs.Nodup) {x : AluInput}
    (hx : x ∈ inputs) : position (inputs.map AluInput.toFb) x.toFb = inputs.idxOf x := by
  -- over a suffix that starts at place `n`, the loop keeps what it had or finds the operand
  have hfold : ∀ (ys : List AluInput) (n op : ℕ), ys.Nodup →
      ((ys.map AluInput.toFb).zipIdx n).foldl
        (fun op p => if x.toFb = p.1 then p.2 else op) op =
        if x ∈ ys then n + ys.idxOf x else op := by
    intro ys
    induction ys with
    | nil => simp
    | cons y ys ih =>
      intro n op hys
      obtain ⟨hy, hys⟩ := List.nodup_cons.1 hys
      simp only [List.map_cons, List.zipIdx_cons, List.foldl_cons, AluInput.toFb_inj]
      rw [ih (n + 1) _ hys]
      by_cases hxy : x = y
      · subst hxy
        rw [if_neg hy, if_pos rfl, if_pos List.mem_cons_self, List.idxOf_cons_self, Nat.add_zero]
      · by_cases hmem : x ∈ ys
        · rw [if_pos hmem, if_pos (List.mem_cons_of_mem y hmem),
            List.idxOf_cons_ne ys (Ne.symm hxy)]
          omega
        · rw [if_neg hmem, if_neg hxy, if_neg]
          simp [hxy, hmem]
  unfold position
  rw [hfold inputs 0 0 hn, if_pos hx, Nat.zero_add]

/-! ## What a lane selects -/

/-- What an update selects in its lane of the second stage. -/
structure Selection where
  x : Fin 4
  y : Fin 4
  minus : Bool
deriving DecidableEq, Repr

namespace Selection

/-- The half word of a selection. -/
def word (s : Selection) : ℕ :=
  s.x.val ||| (s.y.val <<< 3) ||| ((if s.minus then 0x11 else 0x10) <<< 8)

/-- Two selections in one half word. -/
def union (s s' : Selection) : Selection := ⟨s.x ||| s'.x, s.y ||| s'.y, s.minus || s'.minus⟩

/-- **Two selections in one half word are one selection.** -/
theorem word_union (s s' : Selection) : s.word ||| s'.word = (s.union s').word := by
  have hall : ∀ (x y : Fin 4) (m : Bool) (x' y' : Fin 4) (m' : Bool),
      (⟨x, y, m⟩ : Selection).word ||| (⟨x', y', m'⟩ : Selection).word =
        (union ⟨x, y, m⟩ ⟨x', y', m'⟩).word := by decide +kernel
  exact hall s.x s.y s.minus s'.x s'.y s'.minus

theorem word_lt (s : Selection) : s.word < 2 ^ 16 := by
  have hall : ∀ (x y : Fin 4) (m : Bool), (⟨x, y, m⟩ : Selection).word < 2 ^ 16 := by decide
  exact hall s.x s.y s.minus

end Selection

/-- The half word of a lane: no selection, no bits. -/
def laneWord : Option Selection → ℕ
  | none => 0
  | some s => s.word

/-- One more selection in a lane. -/
def addSelection (lane : Option Selection) (s : Selection) : Selection :=
  match lane with
  | none => s
  | some s' => s'.union s

theorem laneWord_or (lane : Option Selection) (s : Selection) :
    laneWord lane ||| s.word = laneWord (some (addSelection lane s)) := by
  cases lane with
  | none => exact Nat.zero_or _
  | some s' => exact s'.word_union s

theorem laneWord_lt (lane : Option Selection) : laneWord lane < 2 ^ 16 := by
  cases lane with
  | none => exact Nat.two_pow_pos 16
  | some s => exact s.word_lt

/-- What an update selects, given the distinct operands. -/
def select (inputs : List AluInput) (u : AluUpdate) : Selection :=
  ⟨Fin.ofNat 4 (inputs.idxOf u.op0), Fin.ofNat 4 (inputs.idxOf u.op1), u.minus⟩

/-- The lanes of the second stage, one update more. -/
def addUpdate (inputs : List AluInput) (lanes : Fin 4 → Option Selection) (u : AluUpdate) :
    Fin 4 → Option Selection :=
  Function.update lanes u.op2.lane (some (addSelection (lanes u.op2.lane) (select inputs u)))

/-- **The lanes of the second stage.** -/
def lanesOf (inputs : List AluInput) (us : List AluUpdate) : Fin 4 → Option Selection :=
  us.foldl (addUpdate inputs) fun _ => none

/-- The words that say all this. -/
def wordsOf (inputs : Fin 9 → ℕ) (lanes : Fin 4 → Option Selection) (anyGlobal : Bool) :
    PipeAluWords := fun i =>
  if i = 4 then laneWord (lanes 0) ||| (laneWord (lanes 1) <<< 16)
  else if i = 5 then laneWord (lanes 2) ||| (laneWord (lanes 3) <<< 16)
  else if i = 8 then (if anyGlobal then 0x80 else 0)
  else inputs i

/-! ## The allocator -/

/-- The word of an operand. -/
def AluInput.word : AluInput → ℕ
  | .register (.localRegister i) => 0x36 + 4 * i
  | .register (.globalRegister i) => 0x42 + 4 * i
  | .integerConst value =>
    (((value.toNat &&& 0xff) <<< 16) ||| ((value.toNat &&& 0xff00) <<< 8)) ||| 0xd5000000

/-- The words of the first stage. -/
def inputWords (inputs : List AluInput) (i : Fin 9) : ℕ :=
  ((inputs[i.val]?).map AluInput.word).getD 0

/-- The register write that sets a global register. -/
def registerWrite (p : Fin 4 × BitVec 16) : ℕ × ℕ := (0x80000100 + 4 * p.1.val, p.2.toNat)

theorem inputWord_toFb (x : AluInput) : inputWord x.toFb = some x.word := by
  cases x with
  | integerConst value => rfl
  | register r =>
    cases r with
    | localRegister i => fin_cases i <;> rfl
    | globalRegister i => fin_cases i <;> rfl

/-- The first loop on one update. -/
theorem packAction_toFb (inputs : List AluInput) (n : ℕ) (written : List (ℕ × ℕ)) :
    packAction state ⟨inputs.map AluInput.toFb, n, written⟩ u.toFb =
      some (match u.configured state with
        | some p => ⟨inputs.map AluInput.toFb, n, written ++ [registerWrite p]⟩
        | none =>
          ⟨(joinInput (joinInput inputs u.op0) u.op1).map AluInput.toFb, n + 1, written⟩) := by
  unfold packAction
  rw [AluUpdate.isAnUpdate_toFb, AluUpdate.configures_toFb]
  cases hc : u.configured state with
  | none =>
    simp only [Bool.not_true, Bool.false_eq_true, if_false, Option.isSome_none]
    rw [show u.toFb.op0 = u.op0.toFb from rfl, show u.toFb.op1 = u.op1.toFb from rfl,
      appendInput_map, appendInput_map]
  | some p =>
    rcases u with ⟨minus, op0, op1, op2⟩
    cases op2 with
    | localRegister i => cases op0 <;> cases hc
    | globalRegister i =>
      cases op0 with
      | register r => cases hc
      | integerConst value =>
        simp only [AluUpdate.configured] at hc
        split at hc
        · cases hc
          fin_cases i <;> rfl
        · cases hc

/-- **The first loop** collects the distinct operands of the instructions
and makes the register writes of the others. -/
theorem foldlM_packAction (inputs : List AluInput) (n : ℕ) (written : List (ℕ × ℕ)) :
    (updates.map AluUpdate.toFb).foldlM (packAction state) ⟨inputs.map AluInput.toFb, n, written⟩ =
      some ⟨((instructions state updates).foldl
          (fun inputs u => joinInput (joinInput inputs u.op0) u.op1) inputs).map AluInput.toFb,
        n + (instructions state updates).length,
        written ++ (updates.filterMap (AluUpdate.configured state)).map registerWrite⟩ := by
  induction updates generalizing inputs n written with
  | nil => simp [instructions]
  | cons u us ih =>
    rw [List.map_cons, List.foldlM_cons, packAction_toFb]
    cases hc : u.configured state with
    | none =>
      have hins : instructions state (u :: us) = u :: instructions state us := by
        simp [instructions, hc]
      rw [hins, List.filterMap_cons_none hc, List.foldl_cons, List.length_cons]
      refine (ih _ _ _).trans ?_
      rw [Nat.add_assoc, Nat.add_comm 1]
    | some p =>
      have hins : instructions state (u :: us) = instructions state us := by
        simp [instructions, hc]
      rw [hins, List.filterMap_cons_some hc, List.map_cons]
      refine (ih _ _ _).trans ?_
      rw [List.append_assoc, List.singleton_append]

/-- **The second loop** writes the words of the operands. -/
theorem foldlM_writeInput (inputs : List AluInput) (h : inputs.length ≤ 4) :
    (inputs.map AluInput.toFb).zipIdx.foldlM writeInput (fun _ => 0) =
      some (inputWords inputs) := by
  -- over a suffix that starts at place `n`
  have hfold : ∀ (ys : List AluInput) (n : ℕ) (words : PipeAluWords), n + ys.length ≤ 4 →
      ((ys.map AluInput.toFb).zipIdx n).foldlM writeInput words = some fun i =>
        if i.val < n then words i else ((ys[i.val - n]?).map AluInput.word).getD (words i) := by
    intro ys
    induction ys with
    | nil => simp
    | cons y ys ih =>
      intro n words hn
      rw [List.length_cons] at hn
      rw [List.map_cons, List.zipIdx_cons, List.foldlM_cons]
      have hw : writeInput words (y.toFb, n) =
          some (Function.update words ⟨n, by omega⟩ y.word) := by
        simp [writeInput, inputWord_toFb, (by omega : n < 9)]
      rw [hw]
      refine (ih (n + 1) _ (by omega)).trans (congrArg some (funext fun i => ?_))
      rcases Nat.lt_trichotomy i.val n with hi | hi | hi
      · rw [if_pos (by omega), if_pos hi, Function.update_of_ne]
        exact fun he => by rw [he] at hi; exact Nat.lt_irrefl _ hi
      · have he : i = ⟨n, by omega⟩ := Fin.ext hi
        rw [if_pos (by omega), if_neg (by omega), hi, Nat.sub_self, he, Function.update_self]
        rfl
      · rw [if_neg (by omega), if_neg (by omega), Function.update_of_ne
          (fun he => by rw [he] at hi; exact Nat.lt_irrefl _ hi),
          show i.val - n = i.val - (n + 1) + 1 by omega, List.getElem?_cons_succ]
  rw [hfold inputs 0 _ (by omega)]
  rfl

/-- What an update is packed into is its selection. -/
theorem word_select {inputs : List AluInput} (hl : inputs.length ≤ 4) (h0 : u.op0 ∈ inputs)
    (h1 : u.op1 ∈ inputs) : inputs.idxOf u.op0 ||| (inputs.idxOf u.op1 <<< 3) |||
      (pipeOpcode u.toFb.opcode <<< 8) = (select inputs u).word := by
  have hx : (Fin.ofNat 4 (inputs.idxOf u.op0)).val = inputs.idxOf u.op0 :=
    Nat.mod_eq_of_lt (Nat.lt_of_lt_of_le (List.idxOf_lt_length_of_mem h0) hl)
  have hy : (Fin.ofNat 4 (inputs.idxOf u.op1)).val = inputs.idxOf u.op1 :=
    Nat.mod_eq_of_lt (Nat.lt_of_lt_of_le (List.idxOf_lt_length_of_mem h1) hl)
  have hop : pipeOpcode u.toFb.opcode = if u.minus then 0x11 else 0x10 := by
    unfold AluUpdate.toFb
    cases u.minus <;> rfl
  rw [Selection.word, select, hx, hy, hop]

/-- The half word of a lane is or-ed into its word. -/
theorem orWord_wordsOf (words : Fin 9 → ℕ) (lanes : Fin 4 → Option Selection) (g : Bool)
    (l : Fin 4) (s : Selection) :
    (if l.val = 0 then orWord (wordsOf words lanes g) 4 s.word
      else if l.val = 1 then orWord (wordsOf words lanes g) 4 (s.word <<< 16)
      else if l.val = 2 then orWord (wordsOf words lanes g) 5 s.word
      else if l.val = 3 then orWord (wordsOf words lanes g) 5 (s.word <<< 16)
      else wordsOf words lanes g) =
      wordsOf words (Function.update lanes l (some (addSelection (lanes l) s))) g := by
  funext i
  fin_cases l
  · rcases eq_or_ne i 4 with rfl | hi
    · change laneWord (lanes 0) ||| (laneWord (lanes 1) <<< 16) ||| s.word =
        laneWord (some (addSelection (lanes 0) s)) ||| (laneWord (lanes 1) <<< 16)
      rw [← laneWord_or, Nat.or_assoc, Nat.or_comm _ s.word, Nat.or_assoc]
    · simp [orWord, wordsOf, hi]
  · rcases eq_or_ne i 4 with rfl | hi
    · change laneWord (lanes 0) ||| (laneWord (lanes 1) <<< 16) ||| (s.word <<< 16) =
        laneWord (lanes 0) ||| (laneWord (some (addSelection (lanes 1) s)) <<< 16)
      rw [← laneWord_or, Nat.shiftLeft_or_distrib, Nat.or_assoc]
    · simp [orWord, wordsOf, hi]
  · rcases eq_or_ne i 5 with rfl | hi
    · change laneWord (lanes 2) ||| (laneWord (lanes 3) <<< 16) ||| s.word =
        laneWord (some (addSelection (lanes 2) s)) ||| (laneWord (lanes 3) <<< 16)
      rw [← laneWord_or, Nat.or_assoc, Nat.or_comm _ s.word, Nat.or_assoc]
    · simp [orWord, wordsOf, hi]
  · rcases eq_or_ne i 5 with rfl | hi
    · change laneWord (lanes 2) ||| (laneWord (lanes 3) <<< 16) ||| (s.word <<< 16) =
        laneWord (lanes 2) ||| (laneWord (some (addSelection (lanes 3) s)) <<< 16)
      rw [← laneWord_or, Nat.shiftLeft_or_distrib, Nat.or_assoc]
    · simp [orWord, wordsOf, hi]

/-- The third loop on one update. -/
theorem allocateAction_toFb {inputs : List AluInput} (hn : inputs.Nodup) (hl : inputs.length ≤ 4)
    (h0 : u.op0 ∈ inputs) (h1 : u.op1 ∈ inputs) (hc : u.configured state = none)
    (words : Fin 9 → ℕ) (lanes : Fin 4 → Option Selection) (g : Bool) :
    allocateAction state (inputs.map AluInput.toFb) (wordsOf words lanes g) u.toFb =
      some (wordsOf words (addUpdate inputs lanes u) (g || u.op2.isGlobal)) := by
  have hglobal : (if u.op2.isGlobal then Function.update (wordsOf words lanes g) 8 0x00000080
      else wordsOf words lanes g) = wordsOf words lanes (g || u.op2.isGlobal) := by
    cases u.op2.isGlobal with
    | false => simp
    | true =>
      funext i
      rcases eq_or_ne i 8 with rfl | hi
      · simp [wordsOf]
      · simp [wordsOf, hi]
  unfold allocateAction
  rw [AluUpdate.isAnUpdate_toFb, AluUpdate.configures_toFb, hc]
  simp only [Bool.not_true, Option.isSome_none, Bool.or_self, Bool.false_eq_true, if_false]
  rw [show u.toFb.op0 = u.op0.toFb from rfl, show u.toFb.op1 = u.op1.toFb from rfl,
    show u.toFb.op2 = u.op2.toFb from rfl, position_map hn h0, position_map hn h1,
    AluRegister.name_toFb, AluRegister.isGlobal_toFb, hglobal, word_select hl h0 h1,
    Option.map_some]
  exact congrArg some (orWord_wordsOf words lanes _ u.op2.lane _)

/-- **The third loop** packs the instructions into their lanes. -/
theorem foldlM_allocateAction {inputs : List AluInput} (hn : inputs.Nodup)
    (hl : inputs.length ≤ 4)
    (hmem : ∀ u ∈ instructions state updates, u.op0 ∈ inputs ∧ u.op1 ∈ inputs)
    (words : Fin 9 → ℕ) (lanes : Fin 4 → Option Selection) (g : Bool) :
    (updates.map AluUpdate.toFb).foldlM (allocateAction state (inputs.map AluInput.toFb))
        (wordsOf words lanes g) =
      some (wordsOf words ((instructions state updates).foldl (addUpdate inputs) lanes)
        (g || (instructions state updates).any fun u => u.op2.isGlobal)) := by
  induction updates generalizing lanes g with
  | nil => simp [instructions]
  | cons u us ih =>
    rw [List.map_cons, List.foldlM_cons]
    cases hc : u.configured state with
    | none =>
      have hins : instructions state (u :: us) = u :: instructions state us := by
        simp [instructions, hc]
      rw [hins] at hmem ⊢
      obtain ⟨h0, h1⟩ := hmem u List.mem_cons_self
      rw [allocateAction_toFb hn hl h0 h1 hc, List.foldl_cons, List.any_cons, ← Bool.or_assoc]
      exact ih (fun v hv => hmem v (List.mem_cons_of_mem u hv)) _ _
    | some p =>
      have hins : instructions state (u :: us) = instructions state us := by
        simp [instructions, hc]
      rw [hins] at hmem ⊢
      have hskip : allocateAction state (inputs.map AluInput.toFb) (wordsOf words lanes g)
          u.toFb = some (wordsOf words lanes g) := by
        unfold allocateAction
        rw [AluUpdate.configures_toFb, hc]
        simp
      rw [hskip]
      exact ih hmem _ _

/-- The words of some instructions. -/
def aluWords (us : List AluUpdate) : PipeAluWords :=
  if us = [] then idleWords
  else passWords (wordsOf (inputWords (packedInputs us)) (lanesOf (packedInputs us) us)
    (us.any fun u => u.op2.isGlobal))

/-- **What the allocator returns** for a list of updates: at most four of
them may be instructions, with at most four distinct operands. -/
theorem pipeAluActionsAllocator_eq (state : ℕ) (updates : List AluUpdate) :
    pipeAluActionsAllocator (updates.map AluUpdate.toFb) state =
      let us := instructions state updates
      if 4 < us.length ∨ 4 < (packedInputs us).length then none
      else some ((updates.filterMap (AluUpdate.configured state)).map registerWrite,
        aluWords us) := by
  unfold pipeAluActionsAllocator
  have hpack := @foldlM_packAction state updates [] 0 []
  rw [List.map_nil] at hpack
  rw [hpack, Option.bind_some]
  dsimp only
  simp only [Nat.zero_add, List.nil_append, List.length_map]
  change (if 4 < (instructions state updates).length ∨
    4 < (packedInputs (instructions state updates)).length then none else _) = _
  split
  · rfl
  · rename_i hle
    have hl : (packedInputs (instructions state updates)).length ≤ 4 := by omega
    have hbase : Function.update (inputWords (packedInputs (instructions state updates))) 8 0 =
        wordsOf (inputWords (packedInputs (instructions state updates))) (fun _ => none) false := by
      have hzero : ∀ i : Fin 9, 4 ≤ i.val →
          inputWords (packedInputs (instructions state updates)) i = 0 := by
        intro i hi
        simp [inputWords, List.getElem?_eq_none (by omega :
          (packedInputs (instructions state updates)).length ≤ i.val)]
      funext i
      rcases eq_or_ne i 8 with rfl | h8
      · simp [wordsOf]
      rcases eq_or_ne i 4 with rfl | h4
      · simp [wordsOf, laneWord, hzero 4 (by decide)]
      rcases eq_or_ne i 5 with rfl | h5
      · simp [wordsOf, laneWord, hzero 5 (by decide)]
      · simp [wordsOf, h8, h4, h5]
    have halloc := foldlM_allocateAction (nodup_packedInputs (instructions state updates)) hl
      (fun u hu => mem_packedInputs hu) (inputWords (packedInputs (instructions state updates)))
      (fun _ => none) false
    change ((((packedInputs (instructions state updates)).map AluInput.toFb).zipIdx.foldlM
      writeInput fun _ => 0).bind fun words => ((updates.map AluUpdate.toFb).foldlM
        (allocateAction state ((packedInputs (instructions state updates)).map AluInput.toFb))
        (Function.update words 8 0)).map _) = _
    rw [foldlM_writeInput _ hl, Option.bind_some, hbase, halloc, Option.map_some, Bool.false_or]
    unfold aluWords lanesOf
    cases instructions state updates <;> rfl

end Loader

end FlowBlaze
