import FlowBlaze.Common.SlidingWindow
import FlowBlaze.UseCases.Loading
/-!
# The traffic policer — `UseCases/traffic_policer.xl`

The token bucket is a window kept in two registers: a packet that comes
before the window is dropped, and one that comes in it or after it moves
it. The registers of the stage are those of a sliding window, from the
first packet on, and so the rate of the window is that of the packets
forwarded.

The table was loaded without a flow key. One window polices all sources
together, and each source gets no more than all of them do.
-/

namespace FlowBlaze

namespace UseCases

open Common Sw Xl

/-! ## The program -/

/-- `traffic_policer.xl`. -/
def trafficPolicer : ProgramContext :=
  .stageProgram []
    [⟨"connection",
      [.register true ["BQ", "frequency"], .register false ["Tmin", "Tmax"],
        .macroAction "drop" [call "sendPacket" [decimalInteger 255, decimalInteger 0]]],
      [call "setFlowKey" [fieldElem "ipv4" "src"]],
      [⟨true, "init", [],
        [⟨"pktRcvd",
          [assign "BQ" (.term (hexInteger "0xffa0" 0xffa0)),
            assign "frequency" (.term (hexInteger "0x40" 0x40)),
            assign "Tmin" (.binary .minus (.identifier "currentTime") (.identifier "BQ")),
            assign "Tmax" (.binary .plus (.identifier "currentTime") (.identifier "frequency")),
            call "sendPacket" [decimalInteger 255, decimalInteger 1],
            call "setNextState" [.identifier "established"]], []⟩]⟩,
      ⟨false, "established", [],
        [⟨"pktRcvd", [],
          [⟨[⟨.xtraLessEq, .identifier "currentTime", .identifier "Tmin"⟩], [call "drop" []]⟩,
          ⟨[⟨.xtraLess, .identifier "Tmin", .identifier "currentTime"⟩,
              ⟨.xtraLessEq, .identifier "currentTime", .identifier "Tmax"⟩],
            [assign "Tmin" (.binary .plus (.identifier "Tmin") (.identifier "frequency")),
              assign "Tmax" (.binary .plus (.identifier "Tmax") (.identifier "frequency")),
              call "sendPacket" [decimalInteger 255, decimalInteger 1]]⟩,
          ⟨[⟨.xtraGreater, .identifier "currentTime", .identifier "Tmax"⟩],
            [assign "Tmin" (.binary .minus (.identifier "currentTime") (.identifier "BQ")),
              assign "Tmax" (.binary .plus (.identifier "currentTime") (.identifier "frequency")),
              call "sendPacket" [decimalInteger 255, decimalInteger 1]]⟩]⟩]⟩]⟩]

/-- `BQ = 0xffa0`. -/
def setBQ : XfsmAction :=
  ⟨.xfsmUpdate, .xfsmSum, .xfsmConstant, 0xffa0, .xfsmConstant, 0, .xfsmRegister, 0, 0,
    .xfsmGlobalRegister⟩

/-- `frequency = 0x40`. -/
def setFrequency : XfsmAction :=
  ⟨.xfsmUpdate, .xfsmSum, .xfsmConstant, 0x40, .xfsmConstant, 0, .xfsmRegister, 0, 1,
    .xfsmGlobalRegister⟩

/-- `Tmin = currentTime - BQ`. -/
def restartTmin : XfsmAction :=
  ⟨.xfsmUpdate, .xfsmMinus, .xfsmHdrField, 27, .xfsmGlobalRegister, 0, .xfsmRegister, 0, 0,
    .xfsmRegister⟩

/-- `Tmax = currentTime + frequency`. -/
def restartTmax : XfsmAction :=
  ⟨.xfsmUpdate, .xfsmSum, .xfsmHdrField, 27, .xfsmGlobalRegister, 1, .xfsmRegister, 0, 1,
    .xfsmRegister⟩

/-- `Tmin = Tmin + frequency`, and the same with `Tmax`, by the number of
the register. -/
def advance (register : Byte) : XfsmAction :=
  ⟨.xfsmUpdate, .xfsmSum, .xfsmRegister, register.setWidth 64, .xfsmGlobalRegister, 1,
    .xfsmRegister, 0, register, .xfsmRegister⟩

/-- The row of the first packet. -/
def initRow : XfsmTableEntry :=
  ⟨0, 1, 255, asks [], [setBQ, setFrequency, restartTmin, restartTmax, sendPacket 1]⟩

/-- The row of a packet before the window. -/
def dropRow : XfsmTableEntry := ⟨1, 1, 255, asks [0], [sendPacket 0]⟩

/-- The row of a packet in the window. -/
def advanceRow : XfsmTableEntry :=
  ⟨1, 1, 255, asks [1, 2], [advance 0, advance 1, sendPacket 1]⟩

/-- The row of a packet after the window. -/
def restartRow : XfsmTableEntry :=
  ⟨1, 1, 255, asks [3], [restartTmin, restartTmax, sendPacket 1]⟩

/-- The conditions. -/
def policerConditions : List XfsmCondition :=
  [⟨.xfsmHdrField, .xfsmRegister, 27, 0, .xfsmLessEq⟩,
    ⟨.xfsmRegister, .xfsmHdrField, 0, 27, .xfsmLess⟩,
    ⟨.xfsmHdrField, .xfsmRegister, 27, 1, .xfsmLessEq⟩,
    ⟨.xfsmHdrField, .xfsmRegister, 27, 1, .xfsmGreater⟩]

/-- **What is loaded** of it. -/
def policerTable : LoadedTable where
  conditionsNumber := 4
  conditions := policerConditions.zipIdx.map fun c => (BitVec.ofNat 32 c.2, c.1)
  initialState := 0
  tableSize := 6
  entries :=
    [initRow, ⟨0, 0, 255, asks [], []⟩, ⟨0, 0, 255, asks [], []⟩, dropRow, advanceRow, restartRow]
  lookupKey := []
  biflowNo := 0

theorem loadedTables_policer : loadedTables keyOrders trafficPolicer = some [policerTable] := by
  decide +kernel

theorem singleEvents_policer : singleEvents trafficPolicer = true := rfl

/-! ## Signed words -/

/-- An integer as an `int64_t`. -/
def signed (z : ℤ) : Word64 := BitVec.ofInt 64 z

section Signed

variable {x y : ℤ}

theorem toInt_signed (h : -2 ^ 63 ≤ x) (h' : x < 2 ^ 63) : (signed x).toInt = x :=
  BitVec.toInt_ofInt_eq_self (by decide) h h'

theorem apply_sum (hx : -2 ^ 63 ≤ x ∧ x < 2 ^ 63) (hy : -2 ^ 63 ≤ y ∧ y < 2 ^ 63)
    (hxy : -2 ^ 63 ≤ x + y ∧ x + y < 2 ^ 63) :
    XfsmOpcode.apply (signed x) (signed y) .xfsmSum = some (signed (x + y)) := by
  have hno : (signed x).saddOverflow (signed y) = false := by
    unfold BitVec.saddOverflow
    rw [toInt_signed hx.1 hx.2, toInt_signed hy.1 hy.2]
    simp only [ge_iff_le, Bool.or_eq_false_iff, decide_eq_false_iff_not, not_le, not_lt]
    exact ⟨hxy.2, hxy.1⟩
  unfold XfsmOpcode.apply
  rw [hno]
  exact congrArg some (BitVec.ofInt_add x y).symm

theorem apply_minus (hx : -2 ^ 63 ≤ x ∧ x < 2 ^ 63) (hy : -2 ^ 63 ≤ y ∧ y < 2 ^ 63)
    (hxy : -2 ^ 63 ≤ x - y ∧ x - y < 2 ^ 63) :
    XfsmOpcode.apply (signed x) (signed y) .xfsmMinus = some (signed (x - y)) := by
  have hno : (signed x).ssubOverflow (signed y) = false := by
    unfold BitVec.ssubOverflow
    rw [toInt_signed hx.1 hx.2, toInt_signed hy.1 hy.2]
    simp only [ge_iff_le, Bool.or_eq_false_iff, decide_eq_false_iff_not, not_le, not_lt]
    exact ⟨hxy.2, hxy.1⟩
  unfold XfsmOpcode.apply
  rw [hno]
  refine congrArg some (BitVec.eq_of_toInt_eq ?_)
  rw [BitVec.toInt_sub, toInt_signed hx.1 hx.2, toInt_signed hy.1 hy.2]
  exact (BitVec.toInt_ofInt _).symm

theorem sle_signed (hx : -2 ^ 63 ≤ x ∧ x < 2 ^ 63) (hy : -2 ^ 63 ≤ y ∧ y < 2 ^ 63) :
    (signed x).sle (signed y) = decide (x ≤ y) := by
  unfold BitVec.sle
  rw [toInt_signed hx.1 hx.2, toInt_signed hy.1 hy.2]

theorem slt_signed (hx : -2 ^ 63 ≤ x ∧ x < 2 ^ 63) (hy : -2 ^ 63 ≤ y ∧ y < 2 ^ 63) :
    (signed x).slt (signed y) = decide (x < y) := by
  unfold BitVec.slt
  rw [toInt_signed hx.1 hx.2, toInt_signed hy.1 hy.2]

/-- A word is what it counts, as an integer. -/
theorem signed_toNat (w : Word64) : signed w.toNat = w := by
  unfold signed
  rw [BitVec.ofInt_natCast, BitVec.ofNat_toNat, BitVec.setWidth_eq]

end Signed

/-! ## What a packet does -/

/-- The global registers: `BQ` and `frequency`. -/
def rates : Registers := fun j => if j.val = 1 then 0x40 else if j.val = 0 then 0xffa0 else 0

/-- The registers of an instance: `Tmin` and `Tmax`. -/
def window (tmin : ℤ) : Registers := fun j =>
  if j.val = 1 then signed (tmin + 0xffe0) else if j.val = 0 then signed tmin else 0

/-- The results of conditions of which these hold. -/
def verdicts (holding : List ℕ) : ℕ → XfsmResult :=
  fun i => if i ∈ holding then .xfsmTrue else .xfsmFalse

section Packets

variable {H : SlotMap FlowKey} {HE : SlotMap Sw.State} {t : XfsmTable H HE} {M : Mem}
  {fields : PktFields} {G R : Registers} {tmin now : ℤ}

/-- The header pointers hold the timestamp of the packet. -/
def HasTime (M : Mem) (fields : PktFields) : Prop :=
  fields .xfsmTimestamp = some (.timestamp M.packet.number)

/-- The time of the packet, as an operand. -/
theorem operand_time (h : HasTime M fields) (G R : Registers) (old : Word64) :
    Env.operand ⟨G, fields, M⟩ R .xfsmHdrField 27 old = some M.packet.mbuf.timestamp := by
  have hvalue : getHdrValue M fields .xfsmTimestamp = some (some M.packet.mbuf.timestamp) := by
    unfold getHdrValue
    rw [h]
    change (readField M .xfsmTimestamp (.timestamp M.packet.number)).map some = _
    rw [readField_timestamp, Option.map_some]
  unfold Env.operand
  have hnumber : HdrField.ofNumber (27 : Word64).toNat = some .xfsmTimestamp := rfl
  simp only [hnumber, Option.bind_eq_bind, Option.bind_some, hvalue]
  rfl

/-- What the conditions say of a packet, given the two registers. -/
def judged (time tmin tmax : Word64) (i : ℕ) : XfsmResult :=
  if (match i with
    | 0 => time.sle tmin
    | 1 => tmin.slt time
    | 2 => time.sle tmax
    | _ => tmax.slt time) then .xfsmTrue else .xfsmFalse

/-- The conditions compare the time with the registers. -/
theorem evaluate_policer (h : HasTime M fields) (i : ℕ) (c : XfsmCondition)
    (hc : policerConditions[i]? = some c) :
    evaluateCondition ⟨G, fields, M⟩ R c = some
      (judged M.packet.mbuf.timestamp (R ⟨0, by decide⟩) (R ⟨1, by decide⟩) i) := by
  match i with
  | 0 =>
    cases hc
    unfold evaluateCondition
    simp only [operand_time h]
    rfl
  | 1 =>
    cases hc
    unfold evaluateCondition
    simp only [operand_time h]
    rfl
  | 2 =>
    cases hc
    unfold evaluateCondition
    simp only [operand_time h]
    rfl
  | 3 =>
    cases hc
    unfold evaluateCondition
    simp only [operand_time h]
    rfl
  | i + 4 => cases hc

/-- **Where the actions are**, but for their local variables and what they
did to the buffer. -/
structure At (X : Exec) (R G : Registers) (M : Mem) : Prop where
  registers : X.registers = R
  globals : X.globalRegisters = G
  stays : X.destroy = false
  mem : X.mem = M

/-- A register, set. -/
def Registers.setTo (R : Registers) (i : ℕ) (w : Word64) : Registers :=
  fun j => if j.val = i then w else R j

/-- The operands of an update, and what it computes of them. -/
theorem step_update {act : XfsmAction} {X : Exec} (hX : At X R G M) {a b c w : Word64}
    (htype : act.type = .xfsmUpdate)
    (ha : ∀ old, Env.operand ⟨G, fields, M⟩ R act.type1 act.value1 old = some a)
    (hb : ∀ old, Env.operand ⟨G, fields, M⟩ R act.type2 act.value2 old = some b)
    (hc : ∀ old, Env.operand ⟨G, fields, M⟩ R act.type3 act.value3 old = some c)
    (hw : act.opcode.apply a b = some w) :
    ∃ X', At X' R G M ∧ Exec.step fields X act =
      if act.outType = .xfsmRegister then
        (X'.registers.put act.output.toNat w).map fun registers =>
          { X' with registers := registers }
      else (X'.globalRegisters.put act.output.toNat w).map fun globalRegisters =>
        { X' with globalRegisters := globalRegisters } := by
  obtain ⟨rfl, rfl, hstays, rfl⟩ := hX
  have hnamed : ¬ Exec.named act := by
    rintro ⟨-, hset⟩
    rw [htype] at hset
    cases hset
  have hfetch : X.fetch fields act = some { X with
      reg1 := a
      reg2 := b
      reg3 := c
      events := X.events ++ Exec.fetchEvents fields act } := by
    unfold Exec.fetch Exec.operand1
    rw [if_neg hnamed]
    change ((Env.operand ⟨_, fields, X.mem⟩ X.registers act.type1 act.value1 X.reg1).bind _) = _
    rw [ha, Option.bind_some]
    change ((Env.operand ⟨_, fields, X.mem⟩ X.registers act.type2 act.value2 X.reg2).bind _) = _
    rw [hb, Option.bind_some]
    change ((Env.operand ⟨_, fields, X.mem⟩ X.registers act.type3 act.value3 X.reg3).bind _) = _
    rw [hc]
    rfl
  refine ⟨⟨X.registers, X.globalRegisters, X.destroy, X.mem, a, b, c,
    X.events ++ Exec.fetchEvents fields act⟩, ⟨rfl, rfl, hstays, rfl⟩, ?_⟩
  unfold Exec.step
  rw [hfetch, Option.bind_some]
  unfold Exec.perform
  rw [htype]
  simp only [Exec.update, hw, Option.bind_some]

/-- An update of a register. -/
theorem at_register {act : XfsmAction} {X : Exec} (hX : At X R G M) {a b c w : Word64}
    (htype : act.type = .xfsmUpdate) (hout : act.outType = .xfsmRegister)
    (hroom : act.output.toNat < numRegisters)
    (ha : ∀ old, Env.operand ⟨G, fields, M⟩ R act.type1 act.value1 old = some a)
    (hb : ∀ old, Env.operand ⟨G, fields, M⟩ R act.type2 act.value2 old = some b)
    (hc : ∀ old, Env.operand ⟨G, fields, M⟩ R act.type3 act.value3 old = some c)
    (hw : act.opcode.apply a b = some w) :
    ∃ X', Exec.step fields X act = some X' ∧
      At X' (Registers.setTo R act.output.toNat w) G M := by
  obtain ⟨X', ⟨rfl, rfl, hstays, rfl⟩, hstep⟩ := step_update hX htype ha hb hc hw
  rw [hstep, if_pos hout]
  unfold Registers.put
  rw [if_pos hroom]
  exact ⟨_, rfl, rfl, rfl, hstays, rfl⟩

/-- An update of a global register. -/
theorem at_global {act : XfsmAction} {X : Exec} (hX : At X R G M) {a b c w : Word64}
    (htype : act.type = .xfsmUpdate) (hout : act.outType ≠ .xfsmRegister)
    (hroom : act.output.toNat < numRegisters)
    (ha : ∀ old, Env.operand ⟨G, fields, M⟩ R act.type1 act.value1 old = some a)
    (hb : ∀ old, Env.operand ⟨G, fields, M⟩ R act.type2 act.value2 old = some b)
    (hc : ∀ old, Env.operand ⟨G, fields, M⟩ R act.type3 act.value3 old = some c)
    (hw : act.opcode.apply a b = some w) :
    ∃ X', Exec.step fields X act = some X' ∧
      At X' R (Registers.setTo G act.output.toNat w) M := by
  obtain ⟨X', ⟨rfl, rfl, hstays, rfl⟩, hstep⟩ := step_update hX htype ha hb hc hw
  rw [hstep, if_neg hout]
  unfold Registers.put
  rw [if_pos hroom]
  exact ⟨_, rfl, rfl, rfl, hstays, rfl⟩

/-- Sending the packet. -/
theorem at_sendPacket {X : Exec} (hX : At X R G M) :
    ∃ X', Exec.step fields X (sendPacket 1) = some X' ∧ At X' R G M ∧ .txBuffer 0 ∈ X'.events :=
  ⟨_, step_sendPacket fields X 1, ⟨hX.registers, hX.globals, hX.stays, hX.mem⟩,
    List.mem_append_right _ List.mem_cons_self⟩

/-- A packet that is dropped changes nothing. -/
theorem executed_drop (fields : PktFields) (G R : Registers) (M : Mem) :
    xfsmExecuteActions fields dropRow.actions ⟨R, G, false, M, 0, 0, 0, []⟩ =
      some ⟨R, G, false, M, 255, 0, R ⟨0, by decide⟩, []⟩ := by
  unfold xfsmExecuteActions dropRow
  rw [if_pos (by simp [maxActions]), List.foldlM_cons, step_sendPacket]
  rfl

/-- **The window moves** by a period. -/
theorem executed_advance (fields : PktFields) {X : Exec} (hX : At X (window tmin) rates M)
    (hlow : -0xffa0 ≤ tmin) (hhigh : tmin < 2 ^ 62) :
    ∃ X', [advance 0, advance 1, sendPacket 1].foldlM (Exec.step fields) X = some X' ∧
      At X' (window (tmin + 0x40)) rates M ∧ .txBuffer 0 ∈ X'.events := by
  obtain ⟨X₁, h₁, hX₁⟩ := @at_register M fields _ _ (advance 0) X hX _ _ _ _ rfl rfl (by decide)
    (fun _ => rfl) (fun _ => rfl) (fun _ => rfl)
    (apply_sum (x := tmin) (y := 0x40) (by omega) (by omega) (by omega))
  obtain ⟨X₂, h₂, hX₂⟩ := @at_register M fields _ _ (advance 1) X₁ hX₁ _ _ _ _ rfl rfl (by decide)
    (fun _ => rfl) (fun _ => rfl) (fun _ => rfl)
    (apply_sum (x := tmin + 0xffe0) (y := 0x40) (by omega) (by omega) (by omega))
  obtain ⟨X₃, h₃, hX₃, hsent⟩ := @at_sendPacket M fields _ _ X₂ hX₂
  have hwindow : Registers.setTo (Registers.setTo (window tmin) 0 (signed (tmin + 0x40))) 1
      (signed (tmin + 0xffe0 + 0x40)) = window (tmin + 0x40) := by
    funext j
    unfold Registers.setTo window
    by_cases h1 : j.val = 1
    · rw [if_pos h1, if_pos h1, add_right_comm]
    · by_cases h0 : j.val = 0
      · simp only [if_neg h1, if_pos h0]
      · simp only [if_neg h1, if_neg h0]
  refine ⟨X₃, ?_, hwindow ▸ hX₃, hsent⟩
  rw [List.foldlM_cons, h₁, Option.bind_eq_bind, Option.bind_some, List.foldlM_cons, h₂,
    Option.bind_eq_bind, Option.bind_some, List.foldlM_cons, h₃]
  rfl

/-- **The window starts anew** before the time of the packet. -/
theorem executed_restart (h : HasTime M fields) (hnow : M.packet.mbuf.timestamp = signed now)
    (hlow : 0 ≤ now) (hhigh : now < 2 ^ 62) {X : Exec} (hX : At X R rates M)
    (hR : ∀ j : Fin numRegisters, 2 ≤ j.val → R j = 0) :
    ∃ X', [restartTmin, restartTmax, sendPacket 1].foldlM (Exec.step fields) X = some X' ∧
      At X' (window (now - 0xffa0)) rates M ∧ .txBuffer 0 ∈ X'.events := by
  obtain ⟨X₁, h₁, hX₁⟩ := @at_register M fields _ _ restartTmin X hX _ _ _ _ rfl rfl (by decide)
    (fun old => (operand_time h _ _ old).trans (congrArg some hnow)) (fun _ => rfl) (fun _ => rfl)
    (apply_minus (x := now) (y := 0xffa0) (by omega) (by omega) (by omega))
  obtain ⟨X₂, h₂, hX₂⟩ := @at_register M fields _ _ restartTmax X₁ hX₁ _ _ _ _ rfl rfl (by decide)
    (fun old => (operand_time h _ _ old).trans (congrArg some hnow)) (fun _ => rfl) (fun _ => rfl)
    (apply_sum (x := now) (y := 0x40) (by omega) (by omega) (by omega))
  obtain ⟨X₃, h₃, hX₃, hsent⟩ := @at_sendPacket M fields _ _ X₂ hX₂
  have hwindow : Registers.setTo (Registers.setTo R 0 (signed (now - 0xffa0))) 1
      (signed (now + 0x40)) = window (now - 0xffa0) := by
    funext j
    unfold Registers.setTo window
    by_cases h1 : j.val = 1
    · rw [if_pos h1, if_pos h1]
      exact congrArg signed (by omega)
    · by_cases h0 : j.val = 0
      · simp only [if_neg h1, if_pos h0]
      · simp only [if_neg h1, if_neg h0]
        exact hR j (by omega)
  refine ⟨X₃, ?_, hwindow ▸ hX₃, hsent⟩
  rw [List.foldlM_cons, h₁, Option.bind_eq_bind, Option.bind_some, List.foldlM_cons, h₂,
    Option.bind_eq_bind, Option.bind_some, List.foldlM_cons, h₃]
  rfl

/-- **The first packet** sets the rates, and starts the window. -/
theorem executed_init (h : HasTime M fields) (hnow : M.packet.mbuf.timestamp = signed now)
    (hlow : 0 ≤ now) (hhigh : now < 2 ^ 62) :
    ∃ X, xfsmExecuteActions fields initRow.actions
        ⟨fun _ => 0, fun _ => 0, false, M, 0, 0, 0, []⟩ = some X ∧
      At X (window (now - 0xffa0)) rates M ∧ .txBuffer 0 ∈ X.events := by
  obtain ⟨X₁, h₁, hX₁⟩ := @at_global M fields _ _ setBQ
    ⟨fun _ => 0, fun _ => 0, false, M, 0, 0, 0, []⟩ ⟨rfl, rfl, rfl, rfl⟩ _ _ _ 0xffa0 rfl
    (by decide) (by decide) (fun _ => rfl) (fun _ => rfl) (fun _ => rfl) rfl
  obtain ⟨X₂, h₂, hX₂⟩ := @at_global M fields _ _ setFrequency X₁ hX₁ _ _ _ 0x40 rfl
    (by decide) (by decide) (fun _ => rfl) (fun _ => rfl) (fun _ => rfl) rfl
  obtain ⟨X, hX, hat, hsent⟩ := executed_restart h hnow hlow hhigh
    (show At X₂ (fun _ => 0) rates M from hX₂) fun _ _ => rfl
  refine ⟨X, ?_, hat, hsent⟩
  unfold xfsmExecuteActions initRow
  rw [if_pos (by simp [maxActions]), List.foldlM_cons, h₁, Option.bind_eq_bind, Option.bind_some,
    List.foldlM_cons, h₂]
  exact hX

/-- What the conditions say, in each of the three cases. -/
theorem judged_eq (hnow : 0 ≤ now) (hnow' : now < 2 ^ 62) (hmin : -0xffa0 ≤ tmin)
    (hmin' : tmin < 2 ^ 62 + 0x40) {i : ℕ} (hi : i < 4) :
    judged (signed now) (signed tmin) (signed (tmin + 0xffe0)) i =
      if now ≤ tmin then verdicts [0, 2] i
      else if now ≤ tmin + 0xffe0 then verdicts [1, 2] i else verdicts [1, 3] i := by
  unfold judged verdicts
  rw [sle_signed (x := now) (y := tmin) (by omega) (by omega),
    slt_signed (x := tmin) (y := now) (by omega) (by omega),
    sle_signed (x := now) (y := tmin + 0xffe0) (by omega) (by omega),
    slt_signed (x := tmin + 0xffe0) (y := now) (by omega) (by omega)]
  by_cases hbefore : now ≤ tmin
  · have hin : now ≤ tmin + 0xffe0 := by omega
    rw [if_pos hbefore]
    interval_cases i <;> simp [hbefore, hin]
  · have hafter : tmin < now := by omega
    rw [if_neg hbefore]
    by_cases hin : now ≤ tmin + 0xffe0
    · rw [if_pos hin]
      interval_cases i <;> simp [hbefore, hafter, hin]
    · have hlate : tmin + 0xffe0 < now := by omega
      rw [if_neg hin]
      interval_cases i <;> simp [hbefore, hafter, hin, hlate]

/-- A row that asks for nothing is met. -/
theorem agrees_asks_nil (n : ℕ) (results : Results) : agrees n (asks []) results = true :=
  decide_eq_true fun _ _ => .inl rfl

theorem nodeOf_init : nodeOf XfsmTableEntry.currentState policerTable.entries headState =
    [initRow, ⟨0, 0, 255, asks [], []⟩, ⟨0, 0, 255, asks [], []⟩] := rfl

theorem conditionArray_policer : policerTable.conditionArray = some policerConditions := rfl

/-- **The first packet** meets the row of the first state. -/
theorem meets_init (hHE : HE.AcceptsBelow) (ht : policerTable.create H HE = some t)
    (h : HasTime M fields) (hnow : M.packet.mbuf.timestamp = signed now) (hlow : 0 ≤ now)
    (hhigh : now < 2 ^ 62) :
    ∃ X, MeetsRow t M fields (fun _ => 0) (fun _ => 0) headState initRow X ∧
      At X (window (now - 0xffa0)) rates M ∧ .txBuffer 0 ∈ X.events := by
  obtain ⟨X, hX, hat, hsent⟩ := executed_init h hnow hlow hhigh
  refine ⟨X, meets_of_create hHE (by decide) ht conditionArray_policer rfl
    (fun i c hc => evaluate_policer h i c hc) ?_ hX hat.stays, hat, hsent⟩
  rw [nodeOf_init]
  refine List.find?_cons_of_pos ?_
  rw [show initRow.results = asks [] from rfl, agrees_asks_nil]
  rfl

/-- **A later packet** meets the row of its case. -/
theorem meets_established (hHE : HE.AcceptsBelow) (ht : policerTable.create H HE = some t)
    (h : HasTime M fields) (hnow : M.packet.mbuf.timestamp = signed now)
    {holding : List ℕ} {row : XfsmTableEntry} {X : Exec}
    (hholding : ∀ i < 4, judged (signed now) (signed tmin) (signed (tmin + 0xffe0)) i =
      verdicts holding i)
    (hrow : (nodeOf XfsmTableEntry.currentState policerTable.entries 1).find? (fun row =>
      decide (0 < policerTable.conditionsNumber) && agrees policerTable.conditionsNumber
        row.results fun i => verdicts holding i.val) = some row)
    (hX : xfsmExecuteActions fields row.actions ⟨window tmin, rates, false, M, 0, 0, 0, []⟩ =
      some X) (hstays : X.destroy = false) :
    MeetsRow t M fields rates (window tmin) 1 row X := by
  refine meets_of_create hHE (by decide) ht conditionArray_policer rfl (fun i c hc => ?_) hrow hX
    hstays
  rw [evaluate_policer h i c hc, hnow]
  exact congrArg some (hholding i (List.getElem?_eq_some_iff.mp hc).1)

/-- **A packet of an established flow** is refused, or moves the window. -/
theorem meets_arrive (hHE : HE.AcceptsBelow) (ht : policerTable.create H HE = some t)
    (h : HasTime M fields) (hnow : M.packet.mbuf.timestamp = signed now) (hlow : 0 ≤ now)
    (hhigh : now < 2 ^ 62) (hmin : -0xffa0 ≤ tmin) (hmin' : tmin < 2 ^ 62 + 0x40) :
    ∃ row X, row.nextStage.toNat = nullStage ∧ row.nextState = 1 ∧
      MeetsRow t M fields rates (window tmin) 1 row X ∧
      match SlidingWindow.arrive (0xffa0 : ℤ) 0x40 tmin now with
      | none => At X (window tmin) rates M ∧ X.events = []
      | some tmin' => At X (window tmin') rates M ∧ .txBuffer 0 ∈ X.events := by
  have hjudged := fun i hi => judged_eq hlow hhigh hmin hmin' (i := i) hi
  unfold SlidingWindow.arrive
  have hstart : At ⟨window tmin, rates, false, M, 0, 0, 0, []⟩ (window tmin) rates M :=
    ⟨rfl, rfl, rfl, rfl⟩
  by_cases hbefore : now ≤ tmin
  · simp only [if_pos hbefore] at hjudged ⊢
    exact ⟨dropRow, _, rfl, rfl, meets_established hHE ht h hnow hjudged
      rfl (executed_drop fields rates (window tmin) M) rfl,
      ⟨rfl, rfl, rfl, rfl⟩, rfl⟩
  · by_cases hin : now ≤ tmin + 0xffe0
    · simp only [if_neg hbefore, if_pos hin] at hjudged ⊢
      obtain ⟨X, hX, hat, hsent⟩ := executed_advance fields hstart hmin (by omega)
      have hexecuted : xfsmExecuteActions fields advanceRow.actions
          ⟨window tmin, rates, false, M, 0, 0, 0, []⟩ = some X := by
        unfold xfsmExecuteActions
        rw [if_pos (by simp [maxActions, advanceRow])]
        exact hX
      refine ⟨advanceRow, X, rfl, rfl, meets_established hHE ht h hnow hjudged
        rfl hexecuted hat.stays, ?_⟩
      rw [if_pos (by omega)]
      exact ⟨hat, hsent⟩
    · simp only [if_neg hbefore, if_neg hin] at hjudged ⊢
      obtain ⟨X, hX, hat, hsent⟩ := executed_restart h hnow hlow hhigh hstart fun j hj => by
        unfold window
        rw [if_neg (by omega), if_neg (by omega)]
      have hexecuted : xfsmExecuteActions fields restartRow.actions
          ⟨window tmin, rates, false, M, 0, 0, 0, []⟩ = some X := by
        unfold xfsmExecuteActions
        rw [if_pos (by simp [maxActions, restartRow])]
        exact hX
      refine ⟨restartRow, X, rfl, rfl, meets_established hHE ht h hnow hjudged
        rfl hexecuted hat.stays, ?_⟩
      rw [if_neg (by omega)]
      exact ⟨hat, hsent⟩

end Packets

/-! ## Runs -/

/-- A packet is forwarded. -/
def forwards {H : SlotMap FlowKey} {HE : SlotMap Sw.State} (visits : List (Visited H HE)) : Bool :=
  (mbufEvents visits).any fun e => match e with
    | .txBuffer _ => true
    | _ => false

/-- When a packet came. -/
def timeOf (rx : Received) : ℤ := rx.timestamp.toNat

/-- A packet the parser can read, with a time that leaves room above it. -/
structure Policed (rx : Received) : Prop where
  parses : rx.Parses
  time : rx.timestamp.toNat < 2 ^ 62

section Runs

variable {H : SlotMap FlowKey} {HE : SlotMap Sw.State} {t : XfsmTable H HE} {W : Worker H HE}
  {rx : Received} {rxs : List Received} {tmin : ℤ}

/-- **An established flow**, with its window. -/
structure Established (t : XfsmTable H HE) (W : Worker H HE) (tmin : ℤ) : Prop where
  solo : W.Solo t rates (window tmin) 1
  low : -0xffa0 ≤ tmin
  high : tmin < 2 ^ 62 + 0x40

theorem hasTime_overlay (W : Worker H HE) (rx : Received) (b : Branch) (before : PktFields) :
    HasTime (W.sees rx) ((W.sees rx).packet.overlay before b) := rfl

theorem timestamp_sees (W : Worker H HE) (rx : Received) :
    (W.sees rx).packet.mbuf.timestamp = signed (timeOf rx) := (signed_toNat rx.timestamp).symm

theorem forwards_of_mem {V : Visited H HE} {port : BitVec 16} (h : .txBuffer port ∈ V.events) :
    forwards [V] = true := by
  refine List.any_eq_true.mpr ⟨.txBuffer port, ?_, rfl⟩
  unfold mbufEvents
  rw [List.flatMap_singleton]
  exact List.mem_append_left _ h

/-- **The first packet** is forwarded. -/
theorem serves_init (hHE : HE.AcceptsBelow) (ht : policerTable.create H HE = some t)
    (hsolo : W.Solo t (fun _ => 0) (fun _ => 0) headState) (hrx : Policed rx) :
    ∃ W' visits, W.Serves rx W' visits ∧ Established t W' (timeOf rx - 0xffa0) ∧
      forwards visits = true := by
  have hlow : 0 ≤ timeOf rx := Int.natCast_nonneg _
  have hhigh : timeOf rx < 2 ^ 62 := by
    have := hrx.time
    unfold timeOf
    omega
  obtain ⟨W', V, row, X, hserves, hsolo', -, -, hevents, hnext, hat, hsent⟩ := solo_serves
    (P := fun row X => row.nextState = 1 ∧
      At X (window (timeOf rx - 0xffa0)) rates (W.sees rx) ∧ .txBuffer 0 ∈ X.events)
    hsolo (keyless_of_create rfl rfl ht) hrx.parses fun b before => by
      obtain ⟨X, hmeets, hX⟩ := meets_init hHE ht (hasTime_overlay W rx b before)
        (timestamp_sees W rx) hlow hhigh
      exact ⟨initRow, X, rfl, hmeets, rfl, hX⟩
  rw [hnext, hat.registers, hat.globals] at hsolo'
  refine ⟨W', [V], hserves, ⟨hsolo', by omega, by omega⟩, @forwards_of_mem _ _ V 0 ?_⟩
  rw [hevents]
  exact List.mem_cons_of_mem _ hsent

/-- **A later packet** is refused, or moves the window and is forwarded. -/
theorem serves_established (hHE : HE.AcceptsBelow) (ht : policerTable.create H HE = some t)
    (h : Established t W tmin) (hrx : Policed rx) :
    ∃ W' visits, W.Serves rx W' visits ∧
      match SlidingWindow.arrive (0xffa0 : ℤ) 0x40 tmin (timeOf rx) with
      | none => Established t W' tmin ∧ forwards visits = false
      | some tmin' => Established t W' tmin' ∧ forwards visits = true := by
  have hlow : 0 ≤ timeOf rx := Int.natCast_nonneg _
  have hhigh : timeOf rx < 2 ^ 62 := by
    have := hrx.time
    unfold timeOf
    omega
  obtain ⟨W', V, row, X, hserves, hsolo', -, -, hevents, hnext, harrive⟩ := solo_serves
    (P := fun row X => row.nextState = 1 ∧
      match SlidingWindow.arrive (0xffa0 : ℤ) 0x40 tmin (timeOf rx) with
      | none => At X (window tmin) rates (W.sees rx) ∧ X.events = []
      | some tmin' => At X (window tmin') rates (W.sees rx) ∧ .txBuffer 0 ∈ X.events)
    h.solo (keyless_of_create rfl rfl ht) hrx.parses fun b before => by
      obtain ⟨row, X, hstage, hnext, hmeets, harrive⟩ := meets_arrive hHE ht
        (hasTime_overlay W rx b before) (timestamp_sees W rx) hlow hhigh h.low h.high
      exact ⟨row, X, hstage, hmeets, hnext, harrive⟩
  rw [hnext] at hsolo'
  refine ⟨W', [V], hserves, ?_⟩
  cases hmoved : SlidingWindow.arrive (0xffa0 : ℤ) 0x40 tmin (timeOf rx) with
  | none =>
    rw [hmoved] at harrive
    obtain ⟨hat, hnone⟩ := harrive
    rw [hat.registers, hat.globals] at hsolo'
    refine ⟨⟨hsolo', h.low, h.high⟩, ?_⟩
    unfold forwards mbufEvents
    rw [List.flatMap_singleton, hevents, hnone]
    rfl
  | some tmin' =>
    rw [hmoved] at harrive
    obtain ⟨hat, hsent⟩ := harrive
    rw [hat.registers, hat.globals] at hsolo'
    obtain ⟨hlt, hadvanced, -⟩ := SlidingWindow.of_arrive hmoved
    have hbound : tmin' < 2 ^ 62 + 0x40 := by
      unfold SlidingWindow.arrive at hmoved
      rw [if_neg (not_le.mpr hlt)] at hmoved
      cases hmoved
      split <;> omega
    refine ⟨⟨hsolo', by have := h.low; omega, hbound⟩, @forwards_of_mem _ _ V 0 ?_⟩
    rw [hevents]
    exact List.mem_cons_of_mem _ hsent

/-- **A run of later packets** is one of the window. -/
theorem runs_established (hHE : HE.AcceptsBelow) (ht : policerTable.create H HE = some t)
    (h : Established t W tmin) (hrxs : ∀ rx ∈ rxs, Policed rx) :
    ∃ served W' tmin', W.Runs rxs served W' ∧ Established t W' tmin' ∧
      served.map forwards = SlidingWindow.accepts 0xffa0 0x40 tmin (rxs.map timeOf) := by
  induction rxs generalizing W tmin with
  | nil => exact ⟨[], W, tmin, .nil W, h, rfl⟩
  | cons rx rxs ih =>
    obtain ⟨W', visits, hserves, harrive⟩ :=
      serves_established hHE ht h (hrxs rx List.mem_cons_self)
    rw [List.map_cons, SlidingWindow.accepts]
    cases hmoved : SlidingWindow.arrive (0xffa0 : ℤ) 0x40 tmin (timeOf rx) with
    | none =>
      rw [hmoved] at harrive
      obtain ⟨served, W'', tmin'', hruns, h'', hmap⟩ := ih harrive.1 fun rx hrx =>
        hrxs rx (List.mem_cons_of_mem _ hrx)
      exact ⟨visits :: served, W'', tmin'', .cons hserves hruns, h'', by
        rw [List.map_cons, harrive.2, hmap]⟩
    | some tmin' =>
      rw [hmoved] at harrive
      obtain ⟨served, W'', tmin'', hruns, h'', hmap⟩ := ih harrive.1 fun rx hrx =>
        hrxs rx (List.mem_cons_of_mem _ hrx)
      exact ⟨visits :: served, W'', tmin'', .cons hserves hruns, h'', by
        rw [List.map_cons, harrive.2, hmap]⟩

/-- **A run of the policer** is one of a window that stood open before the
first packet. -/
theorem runs_policer (hH : H.AcceptsBelow) (hHE : HE.AcceptsBelow)
    (ht : policerTable.create H HE = some t) (hrxs : ∀ rx ∈ rxs, Policed rx) :
    ∃ served W tmin, (Worker.start [t]).Runs rxs served W ∧
      served.map forwards = SlidingWindow.accepts 0xffa0 0x40 tmin (rxs.map timeOf) ∧
      (W = Worker.start [t] ∨ ∃ tmin', Established t W tmin') := by
  cases rxs with
  | nil => exact ⟨[], _, 0, .nil _, rfl, .inl rfl⟩
  | cons rx rxs =>
    obtain ⟨W', visits, hserves, h', hforwards⟩ :=
      serves_init hHE ht (solo_start hH ht) (hrxs rx List.mem_cons_self)
    obtain ⟨served, W'', tmin'', hruns, h'', hmap⟩ := runs_established hHE ht h' fun rx hrx =>
      hrxs rx (List.mem_cons_of_mem _ hrx)
    have harrive : SlidingWindow.arrive (0xffa0 : ℤ) 0x40 (timeOf rx - 0xffe0) (timeOf rx) =
        some (timeOf rx - 0xffa0) := by
      unfold SlidingWindow.arrive
      rw [if_neg (by omega), if_pos (by omega)]
      exact congrArg some (by omega)
    refine ⟨visits :: served, W'', timeOf rx - 0xffe0, .cons hserves hruns, ?_, .inr ⟨_, h''⟩⟩
    rw [List.map_cons, List.map_cons, SlidingWindow.accepts, harrive, hforwards, hmap]

/-! ## The rate -/

/-- How many packets of a source were forwarded in an interval. -/
def forwardedIn (source : Option ℕ) (first length : ℕ) (rxs : List Received)
    (served : List (List (Visited H HE))) : ℕ :=
  (rxs.zip served).countP fun p => forwards p.2 && decide (sourceOf p.1 = source) &&
    decide (first ≤ p.1.timestamp.toNat) && decide (p.1.timestamp.toNat ≤ first + length)

/-- The instance of a flow, in the first stage. -/
def Worker.Flow (W : Worker H HE) (key : FlowKey) (inst : XfsmInstance) : Prop :=
  ∃ T place, W.tables 0 = some T ∧ H.lookup T.instances.instancesHmap key = some place ∧
    T.instances.instancesPool place = inst

/-- The flow that a packet is of. -/
def Worker.FlowOf (W : Worker H HE) (rx : Received) (key : FlowKey) : Prop :=
  ∃ T fields, W.tables 0 = some T ∧ parsePktHeader (W.sees rx) T.pktFields = some fields ∧
    keyExtract (W.sees rx) fields T.lookupKey W.key = some key

/-- **The policer enforces its rate**: in every interval fewer packets of a
source are forwarded than it has room for, the windows of established
flows are of one length, and a packet behind the begin of its window is
forwarded. -/
structure EnforcesRate (rxs : List Received) (served : List (List (Visited H HE)))
    (W : Worker H HE) : Prop where
  rate : ∀ source first length,
    (forwardedIn source first length rxs served : ℚ) < ((length : ℚ) + 0xffa0) / 0x40 + 2
  length : ∀ key inst, Worker.Flow W key inst → inst.currentState = 1 →
    (inst.registers ⟨1, by decide⟩).toInt - (inst.registers ⟨0, by decide⟩).toInt = 0xffa0 + 0x40
  forwards : ∀ rx key inst, Policed rx → Worker.FlowOf W rx key → Worker.Flow W key inst →
    inst.currentState = 1 → (inst.registers ⟨0, by decide⟩).toInt < rx.timestamp.toNat →
    ∃ W' visits, W.Serves rx W' visits ∧ UseCases.forwards visits = true

/-- The bound is that of the window. -/
theorem rate_of_accepts {served : List (List (Visited H HE))}
    (hmap : served.map forwards = SlidingWindow.accepts 0xffa0 0x40 tmin (rxs.map timeOf))
    (source : Option ℕ) (first length : ℕ) :
    (forwardedIn source first length rxs served : ℚ) < ((length : ℚ) + 0xffa0) / 0x40 + 2 := by
  have hcount := @SlidingWindow.count_interval ℤ _ _ _ 0xffa0 0x40 (by decide) (by decide) length
    (Int.natCast_nonneg length) (rxs.map timeOf) tmin first
  rw [← hmap, List.zip_map, List.countP_map] at hcount
  have hle : forwardedIn source first length rxs served ≤ (rxs.zip served).countP
      (SlidingWindow.acceptedIn (first : ℤ) (first + length) ∘ Prod.map timeOf forwards) := by
    refine List.countP_mono_left fun p _ hp => ?_
    simp only [Bool.and_eq_true, decide_eq_true_eq] at hp
    have hfirst : (first : ℤ) ≤ timeOf p.1 := Int.ofNat_le.mpr hp.1.2
    have hlast : timeOf p.1 ≤ (first : ℤ) + length := by
      have := Int.ofNat_le.mpr hp.2
      rwa [Int.natCast_add] at this
    simp only [SlidingWindow.acceptedIn, Function.comp_apply, Prod.map_fst, Prod.map_snd,
      Bool.and_eq_true]
    exact ⟨⟨hp.1.1.1, decide_eq_true hfirst⟩, decide_eq_true hlast⟩
  have hlt : (forwardedIn source first length rxs served : ℤ) * 0x40 <
      length + 0xffa0 + 2 * 0x40 := by
    have hle' : (forwardedIn source first length rxs served : ℤ) ≤ _ := Int.ofNat_le.mpr hle
    linarith
  have hlt' : (forwardedIn source first length rxs served : ℚ) * 0x40 <
      length + 0xffa0 + 2 * 0x40 := by exact_mod_cast hlt
  linarith

/-- The instance of an established flow holds the window. -/
theorem registers_of_established (h : Established t W tmin) {key : FlowKey} {inst : XfsmInstance}
    (hflow : Worker.Flow W key inst) : inst.registers = window tmin := by
  obtain ⟨T, hT, hsolo⟩ := h.solo
  obtain ⟨T', place, hT', hlookup, rfl⟩ := hflow
  rw [hT] at hT'
  cases hT'
  obtain rfl : key = W.key := hsolo.only key (by rw [hlookup]; exact Option.some_ne_none place)
  obtain ⟨inst, ⟨place', hplace, rfl⟩, hregisters, -⟩ := hsolo.finds
  rw [lookupInstance_of_mem hlookup] at hplace hregisters
  cases hplace
  exact hregisters

/-- Before the first packet there is no flow. -/
theorem not_flow_start (ht : policerTable.create H HE = some t) (key : FlowKey)
    (inst : XfsmInstance) : ¬ Worker.Flow (Worker.start [t]) key inst := by
  obtain ⟨conditions, E, -, -, -, rfl⟩ := create_eq_some ht
  rintro ⟨T, place, hT, hlookup, -⟩
  cases hT
  change H.lookup (H.create maxInstances) key = some place at hlookup
  rw [H.lookup_create] at hlookup
  cases hlookup

variable {orders : Orders} {loaded : List LoadedTable} {tables : List (XfsmTable H HE)}

/-- **The traffic policer enforces its rate**, in every run. -/
theorem enforcesRate (hH : H.AcceptsBelow) (hHE : HE.AcceptsBelow)
    (h : compileAndLoad H HE orders trafficPolicer = some (loaded, tables))
    (hrxs : ∀ rx ∈ rxs, Policed rx) :
    ∃ served W, (Worker.start tables).Runs rxs served W ∧ EnforcesRate rxs served W := by
  obtain ⟨t, ht, rfl⟩ := table_of_load singleEvents_policer loadedTables_policer h
  obtain ⟨served, W, tmin, hruns, hmap, hstate⟩ := runs_policer hH hHE ht hrxs
  refine ⟨served, W, hruns, rate_of_accepts hmap, fun key inst hflow _ => ?_,
    fun rx key inst hrx _ hflow _ hlate => ?_⟩
  · rcases hstate with rfl | ⟨tmin', hestablished⟩
    · exact absurd hflow (not_flow_start ht key inst)
    · have hlow := hestablished.low
      have hhigh := hestablished.high
      rw [registers_of_established hestablished hflow]
      change (signed (tmin' + 0xffe0)).toInt - (signed tmin').toInt = _
      rw [toInt_signed (by omega) (by omega), toInt_signed (by omega) (by omega)]
      omega
  · rcases hstate with rfl | ⟨tmin', hestablished⟩
    · exact absurd hflow (not_flow_start ht key inst)
    · have hlow := hestablished.low
      have hhigh := hestablished.high
      rw [registers_of_established hestablished hflow] at hlate
      change (signed tmin').toInt < _ at hlate
      rw [toInt_signed (by omega) (by omega)] at hlate
      obtain ⟨W', visits, hserves, harrive⟩ := serves_established hHE ht hestablished hrx
      unfold SlidingWindow.arrive at harrive
      rw [if_neg (by unfold timeOf; omega)] at harrive
      exact ⟨W', visits, hserves, harrive.2⟩

end Runs

/-- Two packets of one source at one time, and what comes of them. -/
theorem enforcesRate_two :
    ∃ loaded tables, compileAndLoad (listSlotMap FlowKey) (listSlotMap Sw.State) keyOrders
        trafficPolicer = some (loaded, tables) ∧
      ∃ served W, (Worker.start tables).Runs
        [tcpPacket 0 100000 1 [0, 80], tcpPacket 0 100000 1 [0, 80]] served W ∧
        EnforcesRate [tcpPacket 0 100000 1 [0, 80], tcpPacket 0 100000 1 [0, 80]] served W := by
  have hcreate : (policerTable.create (listSlotMap FlowKey)
      (listSlotMap Sw.State)).isSome = true := rfl
  obtain ⟨loaded, tables, hload⟩ := exists_load loadedTables_policer hcreate
  refine ⟨loaded, tables, hload, enforcesRate (.of_neverFull (listSlotMap_neverFull _))
    (.of_neverFull (listSlotMap_neverFull _)) hload fun rx hrx => ?_⟩
  obtain rfl : rx = tcpPacket 0 100000 1 [0, 80] := by
    rcases List.mem_cons.mp hrx with h | h
    · exact h
    · exact List.mem_singleton.mp h
  refine ⟨?_, by decide⟩
  unfold Received.Parses
  decide

end UseCases

end FlowBlaze
