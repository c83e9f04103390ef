import FlowBlaze.Common.AffineForm
import FlowBlaze.PipealuRun
import FlowBlaze.Sw.Actions
import Mathlib.Data.Fintype.Option
/-!
# The pipelined ALU against the software

A list of updates means an assignment of affine forms: the software
executes it in turn, so every update reads what the ones before it left,
and the datapath executes it at once, every lane on what its operands were
before. Both are read as forms over the registers (`sequential` and
`parallel`), and the two agree on a destination whatever the registers
hold exactly when the forms are the same.

They are the same where nothing is shared that the datapath cannot tell
apart (`Separate`).
-/

namespace FlowBlaze

open Common Hw Loader Sw

/-- What an update makes of its operands. -/
def Loader.AluUpdate.apply {α : Type*} [Add α] [Sub α] (u : AluUpdate) (a b : α) : α :=
  if u.minus then a - b else a + b

/-! ## The board -/

/-- The process that writes the global registers from the processor. -/
def writeGR (gr : Fin 4 → BitVec 32) (w : ℕ × ℕ) (i : Fin 4) : BitVec 32 :=
  if BitVec.ofNat 32 w.1 = 0x80000100 + 4 * BitVec.ofNat 32 i.val then BitVec.ofNat 32 w.2
  else gr i

/-- The data ports: the registers hold what they held, but for the global
registers the allocator has written. -/
def aluPorts (written : List (ℕ × ℕ)) (v : AluRegister → BitVec 32) (header : BitVec 432) :
    PipealuIn where
  header := header
  rin i := v (.localRegister i)
  inGR := written.foldl writeGR fun i => v (.globalRegister i)

/-- **The registers after the words have been executed.** -/
def aluResult (out : List (ℕ × ℕ) × PipeAluWords) (v : AluRegister → BitVec 32)
    (header : BitVec 432) : AluRegister → BitVec 32
  | .localRegister i => (commandOf out.2).result (aluPorts out.1 v header) i.castSucc
  | .globalRegister i => (commandOf out.2).globals (aluPorts out.1 v header) i

/-! ## The software -/

/-- The operand as the loader writes it into an action. -/
def loadedOperand : AluInput → XfsmValueType × Word64
  | .register (.localRegister i) => (.xfsmRegister, BitVec.ofNat 64 i.val)
  | .register (.globalRegister i) => (.xfsmGlobalRegister, BitVec.ofNat 64 i.val)
  | .integerConst value => (.xfsmConstant, value.setWidth 64)

/-- The destination. -/
def loadedOutput : AluRegister → XfsmValueType × Byte
  | .localRegister i => (.xfsmRegister, BitVec.ofNat 8 i.val)
  | .globalRegister i => (.xfsmGlobalRegister, BitVec.ofNat 8 i.val)

/-- **The action stands for the update.** Its third operand is never
written, and may be anything. -/
structure Loaded (u : AluUpdate) (x : XfsmAction) : Prop where
  type : x.type = .xfsmUpdate
  opcode : x.opcode = if u.minus then .xfsmMinus else .xfsmSum
  op0 : (x.type1, x.value1) = loadedOperand u.op0
  op1 : (x.type2, x.value2) = loadedOperand u.op1
  op2 : (x.outType, x.output) = loadedOutput u.op2

/-- A register in the software. -/
def swRegister (X : Exec) : AluRegister → Word64
  | .localRegister i => X.registers ⟨i.val, i.isLt.trans (by decide)⟩
  | .globalRegister i => X.globalRegisters ⟨i.val, i.isLt.trans (by decide)⟩

/-- What an operand is read as. -/
def swInput (X : Exec) : AluInput → Word64
  | .register r => swRegister X r
  | .integerConst value => value.setWidth 64

/-- **The datapath computes the updates**: whatever the registers hold and
whatever stands behind the actions, it leaves in every destination what
the software leaves there, modulo 2^32. -/
def ComputesUpdates (updates : List AluUpdate) (out : List (ℕ × ℕ) × PipeAluWords) : Prop :=
  ∀ fields xs X X' header, List.Forall₂ Loaded updates xs →
    xfsmExecuteActions fields xs X = some X' → ∀ u ∈ updates,
      aluResult out (fun r => (swRegister X r).setWidth 32) header u.op2 =
        (swRegister X' u.op2).setWidth 32

/-! ## As forms -/

/-- A form over the registers and the first word of the header. -/
abbrev AluForm := AffineForm (BitVec 32) (Option AluRegister)

/-- A register, or the word of the header. -/
def sourceForm (s : Option AluRegister) : AluForm := .source s

/-- An operand, given the forms of the registers. -/
def inputForm (σ : AluRegister → AluForm) : AluInput → AluForm
  | .register r => σ r
  | .integerConst value => .ofConst (value.setWidth 32)

/-- One update in turn. -/
def assign (σ : AluRegister → AluForm) (u : AluUpdate) : AluRegister → AluForm :=
  Function.update σ u.op2 (u.apply (inputForm σ u.op0) (inputForm σ u.op1))

/-- **The updates in turn.** -/
def sequential (updates : List AluUpdate) : AluRegister → AluForm :=
  updates.foldl assign fun r => sourceForm (some r)

/-- A global register that is set before anything is executed. -/
def configure (f : Fin 4 → AluForm) (w : Fin 4 × BitVec 16) : Fin 4 → AluForm :=
  Function.update f w.1 (.ofConst (w.2.setWidth 32))

/-- The registers when the words are executed. -/
def configuredForm (state : ℕ) (updates : List AluUpdate) : AluRegister → AluForm
  | .localRegister i => sourceForm (some (.localRegister i))
  | .globalRegister i => (updates.filterMap (AluUpdate.configured state)).foldl configure
      (fun i => sourceForm (some (.globalRegister i))) i

/-- What the first stage fetches. -/
def fetchedForm (σ : AluRegister → AluForm) : AluInput → AluForm
  | .register r => σ r
  | .integerConst value => .ofConst (immediate value)

/-- **The updates at once**, each in the lane of its destination, and the
first global register from the first lane. -/
def parallel (state : ℕ) (updates : List AluUpdate) : AluRegister → AluForm
  | .localRegister i => laneValue (fetchedForm (configuredForm state updates)) (sourceForm none)
      (instructions state updates) i.castSucc
  | .globalRegister i =>
    if i = 0 ∧ (instructions state updates).any (fun u => u.op2.isGlobal) then
      laneValue (fetchedForm (configuredForm state updates)) (sourceForm none)
        (instructions state updates) 0
    else configuredForm state updates (.globalRegister i)

/-! ## The datapath executes the updates at once -/

section Datapath

variable {v : AluRegister → BitVec 32} {s : Option AluRegister → BitVec 32} {state : ℕ}
  {updates : List AluUpdate} {header : BitVec 432}

/-- The values of the sources. -/
def sources (v : AluRegister → BitVec 32) (w : BitVec 32) : Option AluRegister → BitVec 32
  | some r => v r
  | none => w

theorem eval_laneValue (value : AluInput → AluForm) (rest : AluForm) (us : List AluUpdate)
    (l : Lane) : (laneValue value rest us l).eval s =
      laneValue (fun x => (value x).eval s) (rest.eval s) us l := by
  have hfetched : ∀ i, (fetchedAt value rest (packedInputs us) i).eval s =
      fetchedAt (fun x => (value x).eval s) (rest.eval s) (packedInputs us) i := by
    intro i
    unfold fetchedAt
    cases (packedInputs us)[i.val]? <;> rfl
  unfold laneValue
  cases lanesOf (packedInputs us) us l with
  | none => exact hfetched 0
  | some sel =>
    cases hm : sel.minus <;> simp [combine, hm, hfetched]

/-- The addresses of the global registers are told apart. -/
theorem writeGR_registerWrite (gr : Fin 4 → BitVec 32) (w : Fin 4 × BitVec 16) :
    writeGR gr (registerWrite w) = Function.update gr w.1 (w.2.setWidth 32) := by
  have haddr : ∀ i j : Fin 4, BitVec.ofNat 32 (0x80000100 + 4 * i.val) =
      0x80000100 + 4 * BitVec.ofNat 32 j.val ↔ j = i := by decide
  funext i
  rw [writeGR, Function.update_apply]
  exact if_congr (haddr w.1 i) (BitVec.ofNat_toNat 32 w.2) rfl

/-- What the allocator writes is what is configured. -/
theorem foldl_writeGR (ws : List (Fin 4 × BitVec 16)) (gr : Fin 4 → BitVec 32)
    (f : Fin 4 → AluForm) (h : ∀ i, gr i = (f i).eval s) (i : Fin 4) :
    (ws.map registerWrite).foldl writeGR gr i = (ws.foldl configure f i).eval s := by
  induction ws generalizing gr f with
  | nil => exact h i
  | cons w ws ih =>
    rw [List.map_cons, List.foldl_cons, List.foldl_cons, writeGR_registerWrite]
    refine ih _ _ fun j => ?_
    rcases eq_or_ne j w.1 with rfl | hj
    · simp [configure]
    · simp [configure, hj, h j]

/-- The ports of the datapath when the allocator has run. -/
abbrev allocatedPorts (state : ℕ) (updates : List AluUpdate) (v : AluRegister → BitVec 32)
    (header : BitVec 432) : PipealuIn :=
  aluPorts ((updates.filterMap (AluUpdate.configured state)).map registerWrite) v header

/-- What the first stage fetches is the value of its form. -/
theorem fetched_allocatedPorts (x : AluInput) :
    fetched (allocatedPorts state updates v header) x =
      (fetchedForm (configuredForm state updates) x).eval
        (sources v (header.extractLsb' 0 32)) := by
  cases x with
  | integerConst value => simp [fetched, fetchedForm]
  | register r =>
    cases r with
    | localRegister i => simp [fetched, fetchedForm, configuredForm, aluPorts, sourceForm, sources]
    | globalRegister i =>
      exact foldl_writeGR _ _ _ (fun j => by simp [sourceForm, sources]) i

theorem laneValue_allocatedPorts (us : List AluUpdate) (l : Lane) :
    laneValue (fetched (allocatedPorts state updates v header))
        (headerWord (allocatedPorts state updates v header)) us l =
      (laneValue (fetchedForm (configuredForm state updates)) (sourceForm none) us l).eval
        (sources v (header.extractLsb' 0 32)) := by
  rw [eval_laneValue]
  have hf := funext (fun x => @fetched_allocatedPorts v state updates header x)
  rw [hf]
  congr 1
  simp [sourceForm, sources, headerWord, allocatedPorts, aluPorts]

/-- **The datapath computes the parallel forms.** A local register is only
meant where there are instructions. -/
theorem aluResult_eq (r : AluRegister) (h : instructions state updates ≠ [] ∨ r.isGlobal = true) :
    aluResult ((updates.filterMap (AluUpdate.configured state)).map registerWrite,
        aluWords (instructions state updates)) v header r =
      (parallel state updates r).eval (sources v (header.extractLsb' 0 32)) := by
  cases r with
  | localRegister i =>
    have hne : instructions state updates ≠ [] := h.resolve_right (fun hg => by cases hg)
    exact (result_aluWords hne).trans (laneValue_allocatedPorts _ _)
  | globalRegister i =>
    refine (globals_aluWords (instructions state updates)).trans ?_
    change _ = AffineForm.eval (if _ then _ else _) _
    by_cases hg : i = 0 ∧ (instructions state updates).any (fun u => u.op2.isGlobal) = true
    · rw [if_pos hg, if_pos hg]
      exact laneValue_allocatedPorts _ _
    · rw [if_neg hg, if_neg hg]
      exact foldl_writeGR _ _ _ (fun j => by simp [sourceForm, sources]) i

end Datapath

/-! ## The software executes them in turn -/

section Software

variable {fields : PktFields} {u : AluUpdate} {x : XfsmAction} {X X' : Exec}

/-- The operand as it is read. -/
theorem operand_loaded {type : XfsmValueType} {value old : Word64} {y : AluInput}
    (h : (type, value) = loadedOperand y) :
    (X.env fields).operand X.registers type value old = some (swInput X y) := by
  obtain ⟨rfl, rfl⟩ := Prod.mk.inj h
  cases y with
  | integerConst value => rfl
  | register r =>
    cases r with
    | localRegister i => fin_cases i <;> rfl
    | globalRegister i => fin_cases i <;> rfl

/-- The three operands of an update. -/
theorem fetch_loaded (h : Loaded u x) {Y : Exec} (hf : X.fetch fields x = some Y) :
    Y.registers = X.registers ∧ Y.globalRegisters = X.globalRegisters ∧
      Y.reg1 = swInput X u.op0 ∧ Y.reg2 = swInput X u.op1 := by
  have hnamed : ¬ Exec.named x := fun hn => by
    have htype := hn.2
    rw [h.type] at htype
    cases htype
  unfold Exec.fetch Exec.operand1 at hf
  rw [if_neg hnamed, operand_loaded h.op0, operand_loaded h.op1] at hf
  cases h3 : (X.env fields).operand X.registers x.type3 x.value3 X.reg3 with
  | none =>
    rw [h3] at hf
    cases hf
  | some reg3 =>
    rw [h3] at hf
    cases hf
    exact ⟨rfl, rfl, rfl, rfl⟩

/-- The sum or the difference, where it does not overflow. -/
theorem apply_loaded (h : Loaded u x) {a b result : Word64}
    (ha : x.opcode.apply a b = some result) : result = u.apply a b := by
  rw [h.opcode] at ha
  unfold AluUpdate.apply
  cases hm : u.minus with
  | false =>
    rw [hm] at ha
    simp only [Bool.false_eq_true, if_false, XfsmOpcode.apply] at ha ⊢
    split at ha
    · cases ha
    · exact (Option.some.inj ha).symm
  | true =>
    rw [hm] at ha
    simp only [if_true, XfsmOpcode.apply] at ha ⊢
    split at ha
    · cases ha
    · exact (Option.some.inj ha).symm

/-- What is stored, and nothing else. -/
theorem update_loaded (h : Loaded u x) {Y : Exec} {result : Word64}
    (ha : x.opcode.apply Y.reg1 Y.reg2 = some result) :
    ∃ Z, Y.update x = some Z ∧ swRegister Z = Function.update (swRegister Y) u.op2 result := by
  obtain ⟨hout, houtput⟩ := Prod.mk.inj h.op2
  unfold Exec.update
  rw [ha, Option.bind_some, hout, houtput]
  cases u.op2 with
  | localRegister i =>
    have hi : (BitVec.ofNat 8 i.val).toNat = i.val := by
      have := i.isLt
      simp
      omega
    change ∃ Z, ((Y.registers.put (BitVec.ofNat 8 i.val).toNat _).map _) = some Z ∧ _
    rw [hi, Registers.put, if_pos (i.isLt.trans (by decide))]
    refine ⟨_, rfl, funext fun r => ?_⟩
    cases r with
    | localRegister j =>
      rcases eq_or_ne j i with rfl | hj
      · simp [swRegister]
      · have hval : j.val ≠ i.val := fun he => hj (Fin.ext he)
        simp [swRegister, hval, hj]
    | globalRegister j => simp [swRegister]
  | globalRegister i =>
    have hi : (BitVec.ofNat 8 i.val).toNat = i.val := by
      have := i.isLt
      simp
      omega
    change ∃ Z, ((Y.globalRegisters.put (BitVec.ofNat 8 i.val).toNat _).map _) = some Z ∧ _
    rw [hi, Registers.put, if_pos (i.isLt.trans (by decide))]
    refine ⟨_, rfl, funext fun r => ?_⟩
    cases r with
    | localRegister j => simp [swRegister]
    | globalRegister j =>
      rcases eq_or_ne j i with rfl | hj
      · simp [swRegister]
      · have hval : j.val ≠ i.val := fun he => hj (Fin.ext he)
        simp [swRegister, hval, hj]

/-- The fetched operands change no register. -/
theorem swRegister_fetch (h : Loaded u x) {Y : Exec} (hf : X.fetch fields x = some Y) :
    swRegister Y = swRegister X := by
  obtain ⟨hregs, hglobals, -, -⟩ := fetch_loaded h hf
  funext r
  cases r with
  | localRegister i => simp [swRegister, hregs]
  | globalRegister i => simp [swRegister, hglobals]

/-- **One update in turn** on the software's registers. -/
theorem step_loaded (h : Loaded u x) (hs : X.step fields x = some X') :
    swRegister X' =
      Function.update (swRegister X) u.op2 (u.apply (swInput X u.op0) (swInput X u.op1)) := by
  obtain ⟨Y, hf, hp⟩ := Option.bind_eq_some_iff.1 hs
  obtain ⟨-, -, h1, h2⟩ := fetch_loaded h hf
  unfold Exec.perform at hp
  rw [h.type] at hp
  change Y.update x = some X' at hp
  cases ha : x.opcode.apply Y.reg1 Y.reg2 with
  | none =>
    unfold Exec.update at hp
    rw [ha] at hp
    cases hp
  | some result =>
    obtain ⟨Z, hZ, hreg⟩ := update_loaded h ha
    cases hp.symm.trans hZ
    rw [hreg, apply_loaded h ha, swRegister_fetch h hf, h1, h2]

/-- The forms have the values of the registers. -/
def Tracks (s : Option AluRegister → BitVec 32) (X : Exec) (σ : AluRegister → AluForm) : Prop :=
  ∀ r, (swRegister X r).setWidth 32 = (σ r).eval s

variable {s : Option AluRegister → BitVec 32} {σ : AluRegister → AluForm}

theorem Tracks.input (h : Tracks s X σ) (y : AluInput) :
    (swInput X y).setWidth 32 = (inputForm σ y).eval s := by
  cases y with
  | register r => exact h r
  | integerConst value =>
    simp only [swInput, inputForm, AffineForm.eval_ofConst]
    exact BitVec.setWidth_setWidth_of_le value (by decide)

/-- Computing in 64 bits and cutting the result is computing in 32 bits. -/
theorem setWidth_apply (u : AluUpdate) (a b : Word64) :
    (u.apply a b).setWidth 32 = u.apply (a.setWidth 32) (b.setWidth 32) := by
  unfold AluUpdate.apply
  cases u.minus with
  | false => exact BitVec.setWidth_add a b (by decide)
  | true =>
    apply BitVec.eq_of_toNat_eq
    simp only [if_true, BitVec.toNat_setWidth, BitVec.toNat_sub]
    omega

theorem eval_apply (u : AluUpdate) (f g : AluForm) :
    (u.apply f g).eval s = u.apply (f.eval s) (g.eval s) := by
  unfold AluUpdate.apply
  cases u.minus <;> simp

/-- One update in turn keeps that. -/
theorem Tracks.step (ht : Tracks s X σ) (h : Loaded u x) (hs : X.step fields x = some X') :
    Tracks s X' (assign σ u) := by
  intro r
  rw [step_loaded h hs]
  rcases eq_or_ne r u.op2 with rfl | hr
  · rw [assign, Function.update_self, Function.update_self, setWidth_apply, eval_apply,
      ht.input, ht.input]
  · rw [assign, Function.update_of_ne hr, Function.update_of_ne hr]
    exact ht r

/-- **The software computes the sequential forms.** -/
theorem Tracks.run {updates : List AluUpdate} {xs : List XfsmAction}
    (h : List.Forall₂ Loaded updates xs) (ht : Tracks s X σ)
    (hx : xs.foldlM (Exec.step fields) X = some X') : Tracks s X' (updates.foldl assign σ) := by
  induction h generalizing X σ with
  | nil =>
    cases hx
    exact ht
  | cons hux _ ih =>
    rw [List.foldlM_cons] at hx
    obtain ⟨Y, hs, hx⟩ := Option.bind_eq_some_iff.1 hx
    exact ih (ht.step hux hs) hx

/-! ## Small registers do not overflow -/

/-- All registers are small. -/
def Small (n : ℕ) (X : Exec) : Prop := ∀ r, (swRegister X r).toInt.natAbs ≤ 2 ^ (16 + n)

theorem Small.input {n : ℕ} (h : Small n X) (y : AluInput) :
    (swInput X y).toInt.natAbs ≤ 2 ^ (16 + n) := by
  cases y with
  | register r => exact h r
  | integerConst value =>
    have hlt := value.isLt
    have hle : 2 ^ 16 ≤ 2 ^ (16 + n) := Nat.pow_le_pow_right (by decide) (by omega)
    have hnat : (swInput X (.integerConst value)).toInt = value.toNat := by
      rw [BitVec.toInt_eq_toNat_of_lt]
      · simp only [swInput, BitVec.toNat_setWidth]
        omega
      · simp only [swInput, BitVec.toNat_setWidth]
        omega
    omega

/-- A sum or a difference of small words does not overflow and is at most
twice as large. -/
theorem apply_small (u : AluUpdate) {a b : Word64} {m : ℕ} (hm : m ≤ 2 ^ 60)
    (ha : a.toInt.natAbs ≤ m) (hb : b.toInt.natAbs ≤ m) :
    (if u.minus then XfsmOpcode.xfsmMinus else .xfsmSum).apply a b = some (u.apply a b) ∧
      (u.apply a b).toInt.natAbs ≤ 2 * m := by
  unfold AluUpdate.apply
  cases u.minus with
  | false =>
    have hov : a.saddOverflow b = false := by
      simp only [BitVec.saddOverflow, Bool.or_eq_false_iff, decide_eq_false_iff_not]
      omega
    refine ⟨by simp [XfsmOpcode.apply, hov], ?_⟩
    have hsum := BitVec.toInt_add_of_not_saddOverflow (x := a) (y := b) (by simp [hov])
    simp only [Bool.false_eq_true, if_false]
    omega
  | true =>
    have hov : a.ssubOverflow b = false := by
      simp only [BitVec.ssubOverflow, Bool.or_eq_false_iff, decide_eq_false_iff_not]
      omega
    refine ⟨by simp [XfsmOpcode.apply, hov], ?_⟩
    have hdiff := BitVec.toInt_sub_of_not_ssubOverflow (x := a) (y := b) (by simp [hov])
    simp only [if_true]
    omega

/-- The action of an update, with a constant for the operand nobody writes. -/
def actionOf (u : AluUpdate) : XfsmAction where
  type := .xfsmUpdate
  opcode := if u.minus then .xfsmMinus else .xfsmSum
  type1 := (loadedOperand u.op0).1
  value1 := (loadedOperand u.op0).2
  type2 := (loadedOperand u.op1).1
  value2 := (loadedOperand u.op1).2
  type3 := .xfsmConstant
  value3 := 0
  output := (loadedOutput u.op2).2
  outType := (loadedOutput u.op2).1

theorem loaded_actionOf (u : AluUpdate) : Loaded u (actionOf u) := ⟨rfl, rfl, rfl, rfl, rfl⟩

/-- An update of small registers goes through. -/
theorem step_actionOf {n : ℕ} (hn : n < 44) (h : Small n X) (u : AluUpdate) :
    ∃ X', X.step fields (actionOf u) = some X' ∧ Small (n + 1) X' := by
  have hpow : 2 ^ (16 + n) ≤ 2 ^ 60 := Nat.pow_le_pow_right (by decide) (by omega)
  obtain ⟨happly, hbound⟩ := apply_small u hpow (h.input u.op0) (h.input u.op1)
  have hf : ∃ Y, X.fetch fields (actionOf u) = some Y := by
    unfold Exec.fetch Exec.operand1
    rw [if_neg (fun hn => by cases hn.2), operand_loaded (loaded_actionOf u).op0,
      operand_loaded (loaded_actionOf u).op1]
    exact ⟨_, rfl⟩
  obtain ⟨Y, hf⟩ := hf
  obtain ⟨hregs, hglobals, h1, h2⟩ := fetch_loaded (loaded_actionOf u) hf
  obtain ⟨Z, hu, -⟩ := update_loaded (Y := Y) (loaded_actionOf u)
    (by rw [h1, h2]; exact happly)
  have hs : X.step fields (actionOf u) = some Z := by
    unfold Exec.step
    rw [hf]
    exact hu
  refine ⟨Z, hs, fun r => ?_⟩
  rw [step_loaded (loaded_actionOf u) hs]
  have hdouble : 2 ^ (16 + (n + 1)) = 2 * 2 ^ (16 + n) := by rw [← Nat.add_assoc, Nat.pow_succ']
  rcases eq_or_ne r u.op2 with rfl | hr
  · rw [Function.update_self, hdouble]
    exact hbound
  · rw [Function.update_of_ne hr, hdouble]
    exact (h r).trans (by omega)

/-- And so does a list of them that the software can hold. -/
theorem run_actionOf {updates : List AluUpdate} {n : ℕ} (hn : n + updates.length ≤ 44)
    (h : Small n X) : ∃ X', (updates.map actionOf).foldlM (Exec.step fields) X = some X' := by
  induction updates generalizing n X with
  | nil => exact ⟨X, rfl⟩
  | cons u us ih =>
    rw [List.length_cons] at hn
    obtain ⟨Y, hs, hY⟩ := @step_actionOf fields _ _ (by omega) h u
    rw [List.map_cons, List.foldlM_cons, hs]
    exact ih (by omega) hY

end Software

/-! ## When the two agree -/

section Agreement

variable {state : ℕ} {updates : List AluUpdate} {out : List (ℕ × ℕ) × PipeAluWords}

/-- The software with these registers and nothing else. -/
def contentsOf (v : AluRegister → BitVec 32) : Exec where
  registers j := if h : j.val < 3 then (v (.localRegister ⟨j.val, h⟩)).setWidth 64 else 0
  globalRegisters j := if h : j.val < 4 then (v (.globalRegister ⟨j.val, h⟩)).setWidth 64 else 0
  destroy := false
  mem := ⟨0, ⟨0, ⟨[], 0, 0⟩⟩⟩
  reg1 := 0
  reg2 := 0
  reg3 := 0
  events := []

theorem swRegister_contentsOf (v : AluRegister → BitVec 32) (r : AluRegister) :
    swRegister (contentsOf v) r = (v r).setWidth 64 := by
  cases r <;> simp [swRegister, contentsOf]

theorem small_contentsOf {v : AluRegister → BitVec 32} (h : ∀ r, (v r).toNat ≤ 1) :
    Small 0 (contentsOf v) := by
  intro r
  have hr := h r
  have hint : (swRegister (contentsOf v) r).toInt = (v r).toNat := by
    rw [swRegister_contentsOf, BitVec.toInt_eq_toNat_of_lt]
    · simp only [BitVec.toNat_setWidth]
      omega
    · simp only [BitVec.toNat_setWidth]
      omega
  omega

/-- At the beginning every register is its own form. -/
theorem tracks_source (X : Exec) (w : BitVec 32) :
    Tracks (sources (fun r => (swRegister X r).setWidth 32) w) X fun r => sourceForm (some r) := by
  intro r
  simp [sourceForm, sources]

/-- What the allocator returned. -/
theorem eq_of_allocated
    (h : pipeAluActionsAllocator (updates.map AluUpdate.toFb) state = some out) :
    out = ((updates.filterMap (AluUpdate.configured state)).map registerWrite,
      aluWords (instructions state updates)) := by
  rw [pipeAluActionsAllocator_eq] at h
  dsimp only at h
  split at h
  · cases h
  · exact (Option.some.inj h).symm

/-- A destination is a global register or that of an instruction. -/
theorem instructions_ne_nil {u : AluUpdate} (h : u ∈ updates) :
    instructions state updates ≠ [] ∨ u.op2.isGlobal = true := by
  cases hc : u.configured state with
  | none =>
    refine .inl (List.ne_nil_of_mem (List.mem_filter.2 ⟨h, ?_⟩))
    rw [hc]
    rfl
  | some w =>
    refine .inr ?_
    unfold AluUpdate.configured at hc
    split at hc
    · rename_i hop2 _
      rw [hop2]
      rfl
    · cases hc

/-- The value of a register on both sides. -/
theorem computes_iff_eval
    (h : pipeAluActionsAllocator (updates.map AluUpdate.toFb) state = some out)
    {u : AluUpdate} (hu : u ∈ updates) {fields : PktFields} {xs : List XfsmAction} {X X' : Exec}
    (header : BitVec 432) (hx : List.Forall₂ Loaded updates xs)
    (hrun : xs.foldlM (Exec.step fields) X = some X') :
    aluResult out (fun r => (swRegister X r).setWidth 32) header u.op2 =
        (swRegister X' u.op2).setWidth 32 ↔
      (parallel state updates u.op2).eval
          (sources (fun r => (swRegister X r).setWidth 32) (header.extractLsb' 0 32)) =
        (sequential updates u.op2).eval
          (sources (fun r => (swRegister X r).setWidth 32) (header.extractLsb' 0 32)) := by
  rw [eq_of_allocated h, aluResult_eq u.op2 (instructions_ne_nil hu),
    (tracks_source X (header.extractLsb' 0 32)).run hx hrun u.op2]
  rfl

/-- Two forms are the same when a destination holds the same at zero and at
the unit vectors. -/
theorem form_eq_of_computes
    (h : pipeAluActionsAllocator (updates.map AluUpdate.toFb) state = some out)
    (hlen : updates.length ≤ maxActions) (hc : ComputesUpdates updates out) {u : AluUpdate}
    (hu : u ∈ updates) : parallel state updates u.op2 = sequential updates u.op2 := by
  -- a value of the sources at which everything stays small
  have heval : ∀ s : Option AluRegister → BitVec 32, (∀ r, (s r).toNat ≤ 1) →
      (parallel state updates u.op2).eval s = (sequential updates u.op2).eval s := by
    intro s hs
    have hloaded : List.Forall₂ Loaded updates (updates.map actionOf) :=
      List.forall₂_map_right_iff.2 (List.forall₂_same.2 fun u _ => loaded_actionOf u)
    obtain ⟨X', hrun⟩ := @run_actionOf (fun _ => none) _ updates _
      (by simp only [maxActions] at hlen; omega : 0 + updates.length ≤ 44)
      (small_contentsOf fun r => hs (some r))
    have hexec : xfsmExecuteActions (fun _ => none) (updates.map actionOf)
        (contentsOf fun r => s (some r)) = some X' := by
      rw [xfsmExecuteActions, if_pos (by rwa [List.length_map]), hrun]
    have hsources : sources (fun r => (swRegister (contentsOf fun r => s (some r)) r).setWidth 32)
        (((s none).setWidth 432).extractLsb' 0 32) = s := by
      funext r
      cases r with
      | none =>
        apply BitVec.eq_of_toNat_eq
        have := (s none).isLt
        simp only [sources, BitVec.extractLsb'_toNat, BitVec.toNat_setWidth, Nat.shiftRight_zero]
        omega
      | some r =>
        simp only [sources, swRegister_contentsOf]
        apply BitVec.eq_of_toNat_eq
        have := (s (some r)).isLt
        simp only [BitVec.toNat_setWidth]
        omega
    have hiff := (computes_iff_eval h hu ((s none).setWidth 432) hloaded hrun).1
      (hc _ _ _ _ _ hloaded hexec u hu)
    rwa [hsources] at hiff
  refine AffineForm.ext_eval (heval 0 fun r => by simp) fun s => heval _ fun r => ?_
  rcases eq_or_ne r s with rfl | hr
  · simp
  · simp [hr]

/-- **Exactly when the datapath computes the updates.** More updates than
a row of the software holds are none that it executes. -/
theorem computesUpdates_iff_forms
    (h : pipeAluActionsAllocator (updates.map AluUpdate.toFb) state = some out) :
    ComputesUpdates updates out ↔ maxActions < updates.length ∨
      ∀ u ∈ updates, parallel state updates u.op2 = sequential updates u.op2 := by
  constructor
  · intro hc
    rcases Nat.lt_or_ge maxActions updates.length with hlen | hlen
    · exact .inl hlen
    · exact .inr fun u hu => form_eq_of_computes h hlen hc hu
  · intro hf fields xs X X' header hx hexec u hu
    have hlen := hx.length_eq
    rw [xfsmExecuteActions] at hexec
    split at hexec
    · rename_i hle
      have hforms := hf.resolve_left (by omega) u hu
      exact (computes_iff_eval h hu header hx hexec).2 (by rw [hforms])
    · cases hexec

end Agreement

/-! ## Where nothing is shared -/

/-- The update reads the register. -/
def Loader.AluUpdate.Reads (u : AluUpdate) (r : AluRegister) : Prop :=
  u.op0 = .register r ∨ u.op1 = .register r

/-- **The update by itself is done right.** What is set at once is the
constant; the constants of an instruction fit one byte, and of the global
registers it has the first for its destination, if any. -/
def Loader.AluUpdate.Fits (state : ℕ) (u : AluUpdate) : Prop :=
  match u.configured state with
  | some _ => u.op1 = .integerConst 0
  | none => (∀ value, u.op0 = .integerConst value ∨ u.op1 = .integerConst value → value < 256) ∧
      ∀ i, u.op2 = .globalRegister i → i = 0

/-- **An instruction and a later update do not disturb each other**: two
instructions have lanes of their own and the later one does not read the
destination of the other; a register set at once is neither read by the
instruction nor its destination. -/
def Loader.AluUpdate.Apart (state : ℕ) (u w : AluUpdate) : Prop :=
  u.configured state = none →
    match w.configured state with
    | none => u.op2.lane ≠ w.op2.lane ∧ ¬ w.Reads u.op2
    | some _ => u.op2 ≠ w.op2 ∧ ¬ u.Reads w.op2

/-- **Nothing is shared.** -/
structure Separate (state : ℕ) (updates : List AluUpdate) : Prop where
  fits : ∀ u ∈ updates, u.Fits state
  apart : updates.Pairwise (AluUpdate.Apart state)

section Separate

variable {state : ℕ} {updates us : List AluUpdate} {u w : AluUpdate}

theorem mem_instructions : u ∈ instructions state updates ↔
    u ∈ updates ∧ u.configured state = none := by
  simp [instructions]

/-- An update that is not an instruction. -/
theorem configured_eq_some {i : Fin 4} {value : BitVec 16}
    (h : u.configured state = some (i, value)) :
    u.op2 = .globalRegister i ∧ u.op0 = .integerConst value := by
  unfold AluUpdate.configured at h
  split at h
  · rename_i hop2 hop0
    split at h
    · cases h
      exact ⟨hop2, hop0⟩
    · cases h
  · cases h

/-- A lane without an instruction stays as it was. -/
theorem foldl_addUpdate_of_ne {inputs : List AluInput} {lanes : Lane → Option Selection} {l : Lane}
    (h : ∀ u ∈ us, u.op2.lane ≠ l) : us.foldl (addUpdate inputs) lanes l = lanes l := by
  induction us generalizing lanes with
  | nil => rfl
  | cons u us ih =>
    rw [List.foldl_cons, ih fun v hv => h v (List.mem_cons_of_mem u hv), addUpdate,
      Function.update_of_ne (h u List.mem_cons_self).symm]

/-- An instruction with a lane of its own is what the lane selects. -/
theorem lanesOf_of_mem {inputs : List AluInput}
    (h : us.Pairwise fun u w => u.op2.lane ≠ w.op2.lane) (hu : u ∈ us) :
    lanesOf inputs us u.op2.lane = some (select inputs u) := by
  obtain ⟨before, after, rfl⟩ := List.append_of_mem hu
  obtain ⟨-, hafter, hbefore⟩ := List.pairwise_append.1 h
  unfold lanesOf
  rw [List.foldl_append, List.foldl_cons,
    foldl_addUpdate_of_ne fun v hv => ((List.pairwise_cons.1 hafter).1 v hv).symm, addUpdate,
    Function.update_self,
    foldl_addUpdate_of_ne fun v hv => hbefore v hv u List.mem_cons_self]
  rfl

/-- What a selector of an operand fetches. -/
theorem fetchedAt_idxOf {α : Type*} (value : AluInput → α) (rest : α) {inputs : List AluInput}
    (hl : inputs.length ≤ 4) {x : AluInput} (hx : x ∈ inputs) :
    fetchedAt value rest inputs (Fin.ofNat 4 (inputs.idxOf x)) = value x := by
  have hlt := List.idxOf_lt_length_of_mem hx
  have hval : (Fin.ofNat 4 (inputs.idxOf x)).val = inputs.idxOf x :=
    Nat.mod_eq_of_lt (Nat.lt_of_lt_of_le hlt hl)
  rw [fetchedAt, hval, List.getElem?_eq_getElem hlt, List.getElem_idxOf hlt]
  rfl

/-- **What a lane of its own computes.** -/
theorem laneValue_of_mem {α : Type*} [Add α] [Sub α] (value : AluInput → α) (rest : α)
    (hl : (packedInputs us).length ≤ 4) (h : us.Pairwise fun u w => u.op2.lane ≠ w.op2.lane)
    (hu : u ∈ us) :
    laneValue value rest us u.op2.lane = u.apply (value u.op0) (value u.op1) := by
  obtain ⟨h0, h1⟩ := mem_packedInputs hu
  rw [laneValue, lanesOf_of_mem h hu, combine, AluUpdate.apply]
  change (if u.minus then fetchedAt value rest _ (Fin.ofNat 4 _) -
    fetchedAt value rest _ (Fin.ofNat 4 _) else fetchedAt value rest _ (Fin.ofNat 4 _) +
    fetchedAt value rest _ (Fin.ofNat 4 _)) = _
  rw [fetchedAt_idxOf value rest hl h0, fetchedAt_idxOf value rest hl h1]

/-- A constant of one byte is fetched as it is. -/
theorem immediate_of_lt {value : BitVec 16} (h : value < 256) :
    immediate value = value.setWidth 32 := by
  have hlt : value.toNat < 256 := h
  have hhigh : value.extractLsb' 8 8 = 0#8 := by
    apply BitVec.eq_of_toNat_eq
    simp only [BitVec.extractLsb'_toNat, Nat.shiftRight_eq_div_pow]
    simp
    omega
  rw [immediate, hhigh, BitVec.or_zero]
  apply BitVec.eq_of_toNat_eq
  simp only [BitVec.toNat_setWidth, BitVec.extractLsb'_toNat, Nat.shiftRight_zero]
  omega

/-- A register that no later update sets at once has been configured. -/
theorem configuredForm_append {before after : List AluUpdate} {r : AluRegister}
    (h : ∀ w ∈ after, w.configured state = none ∨ w.op2 ≠ r) :
    configuredForm state (before ++ after) r = configuredForm state before r := by
  cases r with
  | localRegister i => rfl
  | globalRegister i =>
    have hfold : ∀ (ws : List (Fin 4 × BitVec 16)) (f : Fin 4 → AluForm),
        (∀ w ∈ ws, w.1 ≠ i) → ws.foldl configure f i = f i := by
      intro ws
      induction ws with
      | nil => exact fun _ _ => rfl
      | cons w ws ih =>
        intro f hw
        rw [List.foldl_cons, ih _ fun v hv => hw v (List.mem_cons_of_mem w hv), configure,
          Function.update_of_ne (hw w List.mem_cons_self).symm]
    simp only [configuredForm]
    rw [List.filterMap_append, List.foldl_append]
    refine hfold _ _ fun p hp => ?_
    obtain ⟨w, hw, hp⟩ := List.mem_filterMap.1 hp
    rintro rfl
    rcases h w hw with hn | hn
    · rw [hn] at hp
      cases hp
    · exact hn (configured_eq_some hp).1

/-- A constant with zero added or taken away. -/
theorem apply_ofConst_zero (u : AluUpdate) (c : BitVec 32) :
    u.apply (AffineForm.ofConst c : AluForm) (.ofConst 0) = .ofConst c := by
  unfold AluUpdate.apply
  split
  · exact AffineForm.ext' (sub_zero c) fun _ => sub_zero 0
  · exact AffineForm.ext' (add_zero c) fun _ => add_zero 0

/-- What an instruction computes from what is configured. -/
def instructionForm (state : ℕ) (updates : List AluUpdate) (u : AluUpdate) : AluForm :=
  u.apply (fetchedForm (configuredForm state updates) u.op0)
    (fetchedForm (configuredForm state updates) u.op1)

/-- **What has been executed so far**: the destinations of the instructions
hold what these compute, and the other registers what is configured. -/
structure Executed (state : ℕ) (updates before : List AluUpdate) : Prop where
  instruction : ∀ u ∈ instructions state before,
    sequential before u.op2 = instructionForm state updates u
  other : ∀ r, (∀ u ∈ instructions state before, u.op2 ≠ r) →
    sequential before r = configuredForm state before r

theorem sequential_concat (before : List AluUpdate) (w : AluUpdate) :
    sequential (before ++ [w]) = assign (sequential before) w := by
  rw [sequential, List.foldl_append]
  rfl

variable {before after : List AluUpdate}

/-- An instruction reads what the datapath fetches. -/
theorem Executed.input (he : Executed state (before ++ w :: after) before)
    (hs : Separate state (before ++ w :: after)) (hc : w.configured state = none) {x : AluInput}
    (hx : w.op0 = x ∨ w.op1 = x) :
    inputForm (sequential before) x =
      fetchedForm (configuredForm state (before ++ w :: after)) x := by
  have hfits := hs.fits w (List.mem_append_right _ List.mem_cons_self)
  rw [AluUpdate.Fits, hc] at hfits
  cases x with
  | integerConst value =>
    simp only [inputForm, fetchedForm]
    rw [immediate_of_lt (hfits.1 value hx)]
  | register r =>
    obtain ⟨-, hafter, hbefore⟩ := List.pairwise_append.1 hs.apart
    -- no instruction before it writes the register, and no update after it sets it
    have hold : ∀ u ∈ instructions state before, u.op2 ≠ r := by
      rintro u hu rfl
      obtain ⟨hub, huc⟩ := mem_instructions.1 hu
      have hapart := hbefore u hub w List.mem_cons_self huc
      rw [hc] at hapart
      exact hapart.2 hx
    simp only [inputForm, fetchedForm]
    rw [he.other r hold, configuredForm_append]
    intro v hv
    rcases List.mem_cons.1 hv with rfl | hv
    · exact .inl hc
    · cases hvc : v.configured state with
      | none => exact .inl rfl
      | some p =>
        refine .inr fun hr => ?_
        have hapart := (List.pairwise_cons.1 hafter).1 v hv hc
        rw [hvc] at hapart
        exact hapart.2 (hr ▸ hx)

/-- One update more. -/
theorem Executed.step (he : Executed state (before ++ w :: after) before)
    (hs : Separate state (before ++ w :: after)) :
    Executed state (before ++ w :: after) (before ++ [w]) := by
  have hbefore := (List.pairwise_append.1 hs.apart).2.2
  cases hc : w.configured state with
  | none =>
    have hins : instructions state (before ++ [w]) = instructions state before ++ [w] := by
      simp [instructions, hc]
    have hw : sequential (before ++ [w]) w.op2 =
        instructionForm state (before ++ w :: after) w := by
      rw [sequential_concat, assign, Function.update_self, he.input hs hc (.inl rfl),
        he.input hs hc (.inr rfl)]
      rfl
    refine ⟨fun u hu => ?_, fun r hr => ?_⟩
    · rw [hins, List.mem_append, List.mem_singleton] at hu
      rcases hu with hu | rfl
      · obtain ⟨hub, huc⟩ := mem_instructions.1 hu
        have hapart := hbefore u hub w List.mem_cons_self huc
        rw [hc] at hapart
        have hne : u.op2 ≠ w.op2 := fun h => hapart.1 (congrArg AluRegister.lane h)
        rw [sequential_concat, assign, Function.update_of_ne hne]
        exact he.instruction u hu
      · exact hw
    · rw [hins] at hr
      have hne : r ≠ w.op2 := (hr w (by simp)).symm
      rw [sequential_concat, assign, Function.update_of_ne hne,
        he.other r fun u hu => hr u (List.mem_append_left _ hu), configuredForm_append]
      intro v hv
      rw [List.mem_singleton] at hv
      exact .inl (hv ▸ hc)
  | some p =>
    obtain ⟨i, value⟩ := p
    obtain ⟨hop2, hop0⟩ := configured_eq_some hc
    have hfits := hs.fits w (List.mem_append_right _ List.mem_cons_self)
    rw [AluUpdate.Fits, hc] at hfits
    have hins : instructions state (before ++ [w]) = instructions state before := by
      simp [instructions, hc]
    refine ⟨fun u hu => ?_, fun r hr => ?_⟩
    · rw [hins] at hu
      obtain ⟨hub, huc⟩ := mem_instructions.1 hu
      have hapart := hbefore u hub w List.mem_cons_self huc
      rw [hc] at hapart
      rw [sequential_concat, assign, Function.update_of_ne hapart.1]
      exact he.instruction u hu
    · rw [hins] at hr
      rw [sequential_concat, assign]
      rcases eq_or_ne r w.op2 with rfl | hne
      · rw [Function.update_self, hop0, hfits]
        simp only [inputForm]
        rw [show (0 : BitVec 16).setWidth 32 = 0 from rfl, apply_ofConst_zero, hop2]
        simp [configuredForm, hc, configure]
      · rw [Function.update_of_ne hne, he.other r hr, configuredForm_append]
        intro v hv
        rw [List.mem_singleton] at hv
        exact .inr (hv ▸ hne.symm)

/-- The whole list. -/
theorem Separate.executed (hs : Separate state updates) : Executed state updates updates := by
  have hprefix : ∀ before after : List AluUpdate, updates = before ++ after →
      Executed state updates before := by
    intro before
    induction before using List.reverseRecOn with
    | nil =>
      refine fun _ _ => ⟨fun u hu => by simp [instructions] at hu, fun r _ => ?_⟩
      cases r <;> rfl
    | append_singleton before w ih =>
      intro after h
      rw [List.append_assoc, List.singleton_append] at h
      have he := ih (w :: after) h
      rw [h] at he ⊢
      exact he.step (h ▸ hs)
  exact hprefix updates [] (List.append_nil updates).symm

/-- The lanes of the instructions are distinct. -/
theorem Separate.pairwise_lanes (hs : Separate state updates) :
    (instructions state updates).Pairwise fun u w => u.op2.lane ≠ w.op2.lane := by
  refine (hs.apart.sublist List.filter_sublist).imp_of_mem fun {u w} hu hw h => ?_
  have hapart := h (mem_instructions.1 hu).2
  rw [(mem_instructions.1 hw).2] at hapart
  exact hapart.1

/-- The global register an instruction writes is the first. -/
theorem Separate.globalRegister (hs : Separate state updates)
    (hu : u ∈ instructions state updates) {i : Fin 4} (hop2 : u.op2 = .globalRegister i) :
    i = 0 := by
  obtain ⟨hmem, hc⟩ := mem_instructions.1 hu
  have hfits := hs.fits u hmem
  rw [AluUpdate.Fits, hc] at hfits
  exact hfits.2 i hop2

/-- **Where nothing is shared the forms are the same.** -/
theorem Separate.parallel_eq (hs : Separate state updates)
    (hl : (packedInputs (instructions state updates)).length ≤ 4) (hu : u ∈ updates) :
    parallel state updates u.op2 = sequential updates u.op2 := by
  have he := hs.executed
  by_cases hex : ∃ w ∈ instructions state updates, w.op2 = u.op2
  · obtain ⟨w, hw, hop2⟩ := hex
    have hlane := laneValue_of_mem (fetchedForm (configuredForm state updates)) (sourceForm none)
      hl hs.pairwise_lanes hw
    rw [← hop2, he.instruction w hw, instructionForm, ← hlane]
    cases hr : w.op2 with
    | localRegister i => rfl
    | globalRegister i =>
      obtain rfl := hs.globalRegister hw hr
      have hany : (instructions state updates).any (fun u => u.op2.isGlobal) = true :=
        List.any_eq_true.2 ⟨w, hw, by rw [hr]; rfl⟩
      exact if_pos ⟨rfl, hany⟩
  · have hne : ∀ w ∈ instructions state updates, w.op2 ≠ u.op2 :=
      fun w hw h => hex ⟨w, hw, h⟩
    rw [he.other u.op2 hne]
    cases hc : u.configured state with
    | none => exact absurd rfl (hne u (mem_instructions.2 ⟨hu, hc⟩))
    | some p =>
      obtain ⟨hop2, -⟩ := configured_eq_some (show u.configured state = some (p.1, p.2) from hc)
      rw [hop2]
      refine if_neg ?_
      rintro ⟨hzero, hany⟩
      obtain ⟨w, hw, hg⟩ := List.any_eq_true.1 hany
      cases hr : w.op2 with
      | localRegister i =>
        rw [hr] at hg
        cases hg
      | globalRegister i =>
        refine hne w hw ?_
        rw [hop2, hr, hs.globalRegister hw hr, hzero]

end Separate

/-- **When the datapath computes the updates.** Exactly when there are more
than the software holds in a row, or every destination has the same form
whether the updates are executed in turn or each in its lane; and so
wherever nothing is shared. -/
theorem computesUpdates_iff {state : ℕ} {updates : List AluUpdate}
    {out : List (ℕ × ℕ) × PipeAluWords}
    (h : pipeAluActionsAllocator (updates.map AluUpdate.toFb) state = some out) :
    (ComputesUpdates updates out ↔ maxActions < updates.length ∨
      ∀ u ∈ updates, parallel state updates u.op2 = sequential updates u.op2) ∧
    (Separate state updates → ComputesUpdates updates out) := by
  refine ⟨computesUpdates_iff_forms h, fun hs =>
    (computesUpdates_iff_forms h).2 (.inr fun u hu => ?_)⟩
  refine hs.parallel_eq ?_ hu
  rw [pipeAluActionsAllocator_eq] at h
  dsimp only at h
  split at h
  · cases h
  · omega

/-- The first local register plus a constant. -/
def addConst (value : BitVec 16) : AluUpdate where
  minus := false
  op0 := .register (.localRegister 0)
  op1 := .integerConst value
  op2 := .localRegister 0

theorem separate_addConst : Separate 1 [addConst 5] where
  fits := by
    intro u hu
    rw [List.mem_singleton] at hu
    subst hu
    refine ⟨?_, fun i hi => by cases hi⟩
    rintro value (hv | hv)
    · cases hv
    · cases hv
      decide
  apart := List.pairwise_singleton _ _

/-- Adding five works. -/
theorem computesUpdates_addConst : ComputesUpdates [addConst 5]
    ([], ![0x36, 0xd5050000, 0, 0, 0x1008, 0, 0x00010000, 0x00030002, 0]) := by
  refine (@computesUpdates_iff 1 _ _ ?_).2 separate_addConst
  decide

/-- **The datapath does not always compute the updates**: adding 256 it
adds one. -/
theorem not_computesUpdates : ¬ ∀ (state : ℕ) (updates : List AluUpdate)
    (out : List (ℕ × ℕ) × PipeAluWords),
    pipeAluActionsAllocator (updates.map AluUpdate.toFb) state = some out →
      ComputesUpdates updates out := by
  intro hall
  have hc := hall 1 [addConst 256] _ rfl
  have hform := @form_eq_of_computes 1 _ _ rfl (by decide) hc _ List.mem_cons_self
  have hconst := congrArg AffineForm.const hform
  revert hconst
  decide

end FlowBlaze
