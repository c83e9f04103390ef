import FlowBlaze.Hw.CoreLine
import FlowBlaze.Hw.CoreMachine
/-!
# The stages of the core meet

The header of a packet, the answer of the flow table, the words of its row
and the results of the ALU take ways of different lengths through the core.
For a packet that nothing holds up they are all in place at the cycles in
which they are needed, and the flow table is told to do what the machine
does with the answer that it gave.
-/

namespace FlowBlaze

namespace Hw

open Common Controller

namespace FlowBlazeReg

variable {g : FlowBlazeGenerics} {σ τ : FlowBlazeReg} {ports : ℕ → FlowBlazeIn} {second t : ℕ}

/-! ## The program stays -/

/-- **The same is programmed.** -/
structure SameProgram (σ τ : FlowBlazeReg) : Prop where
  regs : τ.regs.noPulse = σ.regs.noPulse
  cam1 : τ.cam1 = σ.cam1
  cam2 : τ.cam2 = σ.cam2
  ram1 : τ.ram1 = σ.ram1
  ram2 : τ.ram2 = σ.ram2
  ram3 : τ.ram3 = σ.ram3
  ram4 : τ.ram4 = σ.ram4
  mem1 : τ.pipealu.mem1 = σ.pipealu.mem1

/-- One cycle without a write, in which no command writes a global register. -/
theorem SameProgram.next (h : SameProgram σ τ) (hquiet : τ.writeEnable = false)
    (hgr : τ.way.controller.startd place8 = true →
      ∀ l, (τ.pipealu.sh3.op3GR l).getLsbD 7 = false) (x : FlowBlazeIn) :
    SameProgram σ (τ.next g x) := by
  have hram : ∀ page ram, τ.writeRam x page ram = ram := by
    intro page ram
    funext i
    unfold writeRam
    rw [hquiet]
    rfl
  refine ⟨?_, ?_, ?_, (hram _ _).trans h.ram1, (hram _ _).trans h.ram2, (hram _ _).trans h.ram3,
    (hram _ _).trans h.ram4, ?_⟩
  · rw [← h.regs]
    change (τ.regs.clock (τ.regIn x)).noPulse = τ.regs.noPulse
    cases hstart : τ.way.controller.startd place8 with
    | false =>
      have hclock : τ.regs.clock (τ.regIn x) = τ.regs.noPulse := by
        unfold RegisterFile.clock regIn
        rw [hquiet, hstart]
        rfl
      rw [hclock]
      rfl
    | true =>
      have hkept : τ.pipealu.gr (τ.pipealuIn x) = τ.regs.gr := by
        funext l
        unfold PipealuReg.gr
        rw [hgr hstart l]
        rfl
      have hclock : τ.regs.clock (τ.regIn x) = τ.regs.noPulse.store τ.regs.gr := by
        unfold RegisterFile.clock regIn
        rw [hquiet, hstart, hkept]
        rfl
      rw [hclock]
      rfl
  · rw [← h.cam1]
    change τ.nextCam1 = τ.cam1
    funext i
    unfold nextCam1 cam1We
    rw [hquiet]
    rfl
  · rw [← h.cam2]
    change τ.nextCam2 = τ.cam2
    funext i
    unfold nextCam2
    rw [hquiet]
    rfl
  · rw [← h.mem1]
    change τ.pipealu.writeMem (τ.pipealuIn x) = τ.pipealu.mem1
    funext a w
    unfold PipealuReg.writeMem pipealuIn
    rw [hquiet]
    rfl

/-- The pulse is not part of the update scope. -/
theorem noPulse_updateScope (r : RegisterFile) : r.noPulse.updateScope = r.updateScope := rfl

/-- Nor of the mask. -/
theorem noPulse_maskUpdate (r : RegisterFile) : r.noPulse.maskUpdate = r.maskUpdate := rfl

/-- The controller runs on the stream ports. -/
theorem controller_at (h : σ.Paced g ports) (t : ℕ) :
    (σ.run g ports t).way.controller = Controller.run (σ.axisPorts g ports) t := by
  rw [way_run]
  exact CoreReg.controller_run h.reset t

/-- The command at the third stage is that of four cycles before. -/
theorem sh3_add (t : ℕ) : (σ.run g ports (t + 4)).pipealu.sh3 = fun i =>
    (σ.run g ports t).pipealu.mem1 ((σ.run g ports t).flowStateTcam2.extractLsb' 8 8)
      (Fin.castLE nine_le_sixteen i) := rfl

/-- **The program stays** in a paced run. -/
theorem sameProgram_run (h : σ.Paced g ports) (t : ℕ) :
    SameProgram σ (σ.run g ports t) := by
  induction t using Nat.strong_induction_on with
  | h t ih =>
    cases t with
    | zero => exact ⟨rfl, rfl, rfl, rfl, rfl, rfl, rfl, rfl⟩
    | succ t =>
      refine SameProgram.next (ih t (Nat.lt_succ_self t)) (h.quiet t) (fun hstart l => ?_) _
      rw [controller_at h, startd_iff_of_apart h.long h.apart (by decide)] at hstart
      obtain ⟨second, -, rfl⟩ := hstart
      have hcommand := @sh3_add g σ ports (second + 6)
      rw [show second + 6 + 4 = second + place8.val + 2 from rfl] at hcommand
      rw [hcommand, (ih (second + 6) (by change second + 6 < second + 8 + 2 + 1; omega)).mem1]
      have hbit := h.locals ((σ.run g ports (second + 6)).flowStateTcam2.extractLsb' 8 8) l
      unfold Command.op3GR
      rw [BitVec.getLsbD_extractLsb']
      exact (Bool.and_eq_false_iff.mpr (.inr hbit))

/-! ## The header -/

/-- The packets' second beats, as the controller takes them. -/
theorem takesSecond_at (h : σ.Paced g ports) :
    σ.takesSecond g ports t = true ↔ TakesSecond (σ.axisPorts g ports) t := by
  unfold takesSecond
  rw [takesSecond_iff h.long, Bool.and_eq_true, beq_iff_eq]

/-- The shift registers move with those of the controller. -/
theorem shifts_at (h : σ.Paced g ports) (t : ℕ) :
    (σ.run g ports t).shifts g (ports t) = shiftsAt (σ.axisPorts g ports) t := by
  change (σ.run g ports t).way.controller.shifts _ = _
  rw [controller_at h]
  unfold shiftsAt axisPorts CoreReg.axisPorts
  rw [← way_run]
  rfl

/-- `full_header_d` moves. -/
theorem fullHeaderD_succ (h : σ.Paced g ports)
    (hshift : shiftsAt (σ.axisPorts g ports) t = true) :
    (σ.run g ports (t + 1)).way.fullHeaderD =
      Fin.cons (σ.run g ports t).way.fullHeader
        fun i : Fin 11 => (σ.run g ports t).way.fullHeaderD i.castSucc := by
  refine if_pos ?_
  rw [← hshift, ← shifts_at h]
  rfl

/-- The header of a packet stays for another cycle behind its second beat. -/
theorem fullHeader_stays (h : σ.Paced g ports)
    (hs : TakesSecond (σ.axisPorts g ports) second) :
    (σ.run g ports (second + 2)).way.fullHeader = (σ.run g ports (second + 1)).way.fullHeader := by
  have hstate := (takesSecond_iff h.long).mp hs
  have hnext : (Controller.run (σ.axisPorts g ports) (second + 1)).currState ≠ .idle ∧
      (Controller.run (σ.axisPorts g ports) (second + 1)).currState ≠ .pkt1 := by
    change (Controller.run (σ.axisPorts g ports) second).nextState _ ≠ .idle ∧
      (Controller.run (σ.axisPorts g ports) second).nextState _ ≠ .pkt1
    unfold nextState
    rw [hstate.1, hstate.2]
    cases (σ.axisPorts g ports second).tlast <;> simp
  rw [← controller_at h] at hnext
  change (σ.run g ports (second + 1)).way.nextHeader _ _ = _
  unfold CoreReg.nextHeader
  cases hcase : (σ.run g ports (second + 1)).way.controller.currState with
  | idle => exact absurd hcase hnext.1
  | pkt1 => exact absurd hcase hnext.2
  | pkt2 => rfl
  | wait5 => rfl

/-- **The header goes on** by one place in every cycle. -/
theorem fullHeaderD_at (h : σ.Paced g ports)
    (hs : TakesSecond (σ.axisPorts g ports) second) (n : ℕ) (hn : n < 9) :
    (σ.run g ports (second + 2 + n)).way.fullHeaderD ⟨n, by omega⟩ =
      (σ.arrival g ports second).header := by
  induction n with
  | zero =>
    have hmoved := @fullHeaderD_succ g σ ports _ h
      (shiftsAt_of_apart h.long h.apart hs (Nat.lt_succ_self second) (by omega))
    exact congrFun hmoved ⟨0, _⟩
  | succ n ih =>
    have hmoved := @fullHeaderD_succ g σ ports _ h
      (shiftsAt_of_apart h.long h.apart hs (by omega : second < second + 2 + n) (by omega))
    rw [← ih (by omega)]
    exact congrFun hmoved ⟨n + 1, _⟩

/-! ## The query -/

/-- What the flow table has answered. -/
def answer (σ : FlowBlazeReg) : Option Value := if σ.matchHt then some σ.flowContext else none

theorem r_eq (σ : FlowBlazeReg) : σ.r = rOf σ.answer := by
  funext i
  unfold r rOf answer
  cases σ.matchHt <;> rfl

/-- The key that a packet is searched by. -/
theorem searchKey_at (h : σ.Paced g ports)
    (hs : TakesSecond (σ.axisPorts g ports) second) :
    (σ.tablePorts g ports (second + 2)).searchKey = σ.lookupKeyOf (σ.arrival g ports second) := by
  change scopeKey (σ.run g ports (second + 2)).regs.noPulse.lookupScope
      (σ.run g ports (second + 2)).way.fullHeader &&&
    maskOf (σ.run g ports (second + 2)).regs.noPulse.maskLookup = _
  rw [(sameProgram_run h _).regs, fullHeader_stays h hs]
  rfl

/-- It is at the port from the cycle before on. -/
theorem searchKey_before (h : σ.Paced g ports)
    (hs : TakesSecond (σ.axisPorts g ports) second) :
    (σ.tablePorts g ports (second + 1)).searchKey =
      (σ.tablePorts g ports (second + 2)).searchKey := by
  rw [searchKey_at h hs]
  change scopeKey (σ.run g ports (second + 1)).regs.noPulse.lookupScope
      (σ.run g ports (second + 1)).way.fullHeader &&&
    maskOf (σ.run g ports (second + 1)).regs.noPulse.maskLookup = _
  rw [(sameProgram_run h _).regs]
  rfl

/-- The operands of the header come with the answer. -/
theorem o_at (h : σ.Paced g ports) (hs : TakesSecond (σ.axisPorts g ports) second) :
    (σ.run g ports (second + 3)).way.o = σ.oOf (σ.arrival g ports second) := by
  funext i
  change sam32Sized ((σ.run g ports (second + 2)).way.fullHeaderD place0)
    (0#1 ++ (σ.run g ports (second + 2)).regs.noPulse.offO i)
    ((σ.run g ports (second + 2)).regs.noPulse.lenO i) = _
  have hheader := fullHeaderD_at h hs 0 (by omega)
  rw [(sameProgram_run h _).regs]
  exact congrArg (fun header => sam32Sized header _ _) hheader

/-- And so does the default state. -/
theorem flowStateTcam1_at (h : σ.Paced g ports) :
    (σ.run g ports (second + 3)).flowStateTcam1.extractLsb' 0 8 =
      σ.defaultStateOf g (σ.arrival g ports second) := by
  have hentry : (σ.run g ports (second + 2)).matchAddrTcam1 =
      ((List.finRange 8).find? fun i => (σ.cam1 i).any fun e =>
        entryMatches1 e (scopeKey σ.regs.lookupScope (σ.arrival g ports second).header)).getD
          g.missAddr1 := by
    change ((List.finRange 8).find? fun i => ((σ.run g ports (second + 1)).cam1 i).any fun e =>
      entryMatches1 e (scopeKey (σ.run g ports (second + 1)).regs.noPulse.lookupScope
        (σ.run g ports (second + 1)).way.fullHeader)).getD g.missAddr1 = _
    rw [(sameProgram_run h _).regs, (sameProgram_run h _).cam1]
    rfl
  change ((σ.run g ports (second + 2)).ram1 (Fin.castLE eight_le_thirtyTwo
    (σ.run g ports (second + 2)).matchAddrTcam1)).extractLsb' 0 8 = _
  rw [(sameProgram_run h _).ram1, hentry]
  rfl

/-- **The query of a packet** stands at the second TCAM when the flow table
has answered. -/
theorem query_at (h : σ.Paced g ports) (hs : TakesSecond (σ.axisPorts g ports) second) :
    (σ.run g ports (second + 3)).way.fullInput2 ((σ.run g ports (second + 3)).coreIn
        (ports (second + 3))) =
      σ.queryOf g (σ.arrival g ports second) (σ.run g ports (second + 3)).answer := by
  have hstate : (σ.run g ports (second + 3)).state =
      σ.stateOf g (σ.arrival g ports second) (σ.run g ports (second + 3)).answer := by
    unfold state stateOf answer
    rw [flowStateTcam1_at h]
    cases (σ.run g ports (second + 3)).matchHt <;> rfl
  have hconditions : Hw.conditions (σ.run g ports (second + 3)).regs.cr
      (σ.run g ports (second + 3)).condInputs =
      Hw.conditions σ.regs.cr ⟨σ.regs.gr, rOf (σ.run g ports (second + 3)).answer,
        σ.oOf (σ.arrival g ports second), (σ.arrival g ports second).time⟩ := by
    unfold condInputs
    rw [o_at h hs, r_eq]
    change Hw.conditions (σ.run g ports (second + 3)).regs.noPulse.cr
      ⟨(σ.run g ports (second + 3)).regs.noPulse.gr, _, _, _⟩ = _
    rw [(sameProgram_run h _).regs]
    rfl
  change Hw.fullInput2 ((σ.run g ports (second + 3)).way.o 2)
    ((σ.run g ports (second + 3)).way.o 1) ((σ.run g ports (second + 3)).way.o 0)
    (Hw.conditions (σ.run g ports (second + 3)).regs.cr (σ.run g ports (second + 3)).condInputs)
    (σ.run g ports (second + 3)).state = _
  rw [hconditions, hstate, o_at h hs]
  rfl

/-- **The row of a packet.** -/
theorem row_at (h : σ.Paced g ports) (hs : TakesSecond (σ.axisPorts g ports) second) :
    (σ.run g ports (second + 4)).way.matchAddrTcam2 =
      σ.rowOf g (σ.arrival g ports second) (σ.run g ports (second + 3)).answer := by
  change ((CamReg.lookup ⟨_, _, (σ.run g ports (second + 3)).cam2⟩
    ((σ.run g ports (second + 3)).way.fullInput2 _)).getD g.missAddr2) = _
  rw [(sameProgram_run h _).cam2, query_at h hs]
  rfl

/-! ## The words of the row -/

/-- The words of the row, in the cycle after it is there. -/
theorem words_at (h : σ.Paced g ports) (t : ℕ) :
    (σ.run g ports (t + 1)).flowStateTcam2 = σ.ram2 (σ.run g ports t).way.matchAddrTcam2 ∧
      (σ.run g ports (t + 1)).way.action = σ.ram3 (σ.run g ports t).way.matchAddrTcam2 ∧
      (σ.run g ports (t + 1)).way.actionValue = σ.ram4 (σ.run g ports t).way.matchAddrTcam2 := by
  have hsame := sameProgram_run h t
  refine ⟨?_, ?_, ?_⟩
  · change (σ.run g ports t).ram2 _ = _
    rw [hsame.ram2]
  · change (σ.run g ports t).ram3 _ = _
    rw [hsame.ram3]
  · change (σ.run g ports t).ram4 _ = _
    rw [hsame.ram4]

/-- They come out of the shift registers five cycles later. -/
theorem words_out (h : σ.Paced g ports) (t : ℕ) :
    (σ.run g ports (t + 6)).flowStateTcam2D3 = σ.ram2 (σ.run g ports t).way.matchAddrTcam2 ∧
      (σ.run g ports (t + 6)).way.actionD3 = σ.ram3 (σ.run g ports t).way.matchAddrTcam2 ∧
      (σ.run g ports (t + 6)).way.actionValueD3 =
        σ.ram4 (σ.run g ports t).way.matchAddrTcam2 := by
  obtain ⟨hstate, haction, hvalue⟩ := words_at h t
  rw [← hstate, ← haction, ← hvalue]
  exact ⟨rfl, rfl, rfl⟩

/-! ## The results -/

/-- The registers of the flow are at the ALU two cycles after the answer. -/
theorem rDD_at (h : σ.Paced g ports) (hs : TakesSecond (σ.axisPorts g ports) second) :
    (σ.run g ports (second + 5)).rDD = rOf (σ.run g ports (second + 3)).answer := by
  have hshift : ∀ n, second < n → n ≤ second + 11 →
      (σ.run g ports n).shifts g (ports n) = true := fun n hlt hle => by
    rw [shifts_at h]
    exact shiftsAt_of_apart h.long h.apart hs hlt hle
  have hfirst : (σ.run g ports (second + 4)).rD = (σ.run g ports (second + 3)).r :=
    if_pos (hshift (second + 3) (by omega) (by omega))
  have hsecond : (σ.run g ports (second + 5)).rDD = (σ.run g ports (second + 4)).rD :=
    if_pos (hshift (second + 4) (by omega) (by omega))
  rw [hsecond, hfirst, r_eq]

/-- The data of the ALU. -/
theorem data_at (h : σ.Paced g ports) (hs : TakesSecond (σ.axisPorts g ports) second) :
    PipealuReg.dataAt (σ.aluPorts g ports) (second + 5) =
      ⟨(σ.arrival g ports second).header, rOf (σ.run g ports (second + 3)).answer, σ.regs.gr⟩ := by
  have hheader := fullHeaderD_at h hs 3 (by omega)
  change PipealuIn.mk ((σ.run g ports (second + 2 + 3)).way.fullHeaderD ⟨3, _⟩)
    (σ.run g ports (second + 5)).rDD (σ.run g ports (second + 5)).regs.noPulse.gr = _
  rw [hheader, rDD_at h hs, (sameProgram_run h _).regs]
  rfl

/-- The command of the row. -/
theorem command_at (h : σ.Paced g ports) (t : ℕ) :
    σ.pipealu.commandAt (σ.aluPorts g ports) (t + 2) =
      σ.commandOf (σ.run g ports t).way.matchAddrTcam2 := by
  unfold PipealuReg.commandAt
  rw [← pipealu_run]
  funext i
  change (σ.run g ports (t + 1)).pipealu.mem1
    ((σ.run g ports (t + 1)).flowStateTcam2.extractLsb' 8 8) (Fin.castLE nine_le_sixteen i) = _
  rw [(sameProgram_run h _).mem1, (words_at h t).1]
  rfl

/-- **The new context** is that of the row, the header and the answer. -/
theorem newContext_at (h : σ.Paced g ports)
    (hs : TakesSecond (σ.axisPorts g ports) second) :
    (σ.run g ports (second + 10)).newContext =
      σ.contextOf (σ.arrival g ports second) (σ.run g ports (second + 3)).answer
        (σ.run g ports (second + 4)).way.matchAddrTcam2 := by
  have hres : ∀ l, (σ.run g ports (second + 10)).pipealu.res3 l =
      (σ.commandOf (σ.run g ports (second + 4)).way.matchAddrTcam2).result
        ⟨(σ.arrival g ports second).header, rOf (σ.run g ports (second + 3)).answer,
          σ.regs.gr⟩ l := by
    intro l
    rw [pipealu_run, ← data_at h hs, ← command_at h]
    rw [show second + 10 = second + 5 + 5 by omega, PipealuReg.res3_run, Pipealu.res3_eq]
  unfold newContext contextOf
  rw [(words_out h (second + 4)).1]
  simp only [hres]

/-- The key that it is put under. -/
theorem updateKey_at (h : σ.Paced g ports)
    (hs : TakesSecond (σ.axisPorts g ports) second) :
    (σ.run g ports (second + 10)).updateKey = σ.updateKeyOf (σ.arrival g ports second) := by
  have hheader : (σ.run g ports (second + 10)).way.fullHeaderD place8 =
      (σ.arrival g ports second).header := by
    rw [show second + 10 = second + 2 + 8 by omega]
    exact fullHeaderD_at h hs 8 (by omega)
  have hregs := (sameProgram_run h (second + 10)).regs
  unfold updateKey updateKeyOf
  rw [hheader, ← noPulse_updateScope, ← noPulse_maskUpdate, hregs, noPulse_updateScope,
    noPulse_maskUpdate]

/-- What a row does to the flows, by its word. -/
theorem effectOf_eq {p : Arrival} {found : Option Value} {row : Fin 32}
    (hrow : row = σ.rowOf g p found) : σ.effectOf g p found =
      if (σ.ram3 row).extractLsb' 0 16 = 0xFF00 then
        .put (σ.updateKeyOf p) (σ.contextOf p found row)
      else if (σ.ram3 row).extractLsb' 0 16 = 0xFFFF then .drop (σ.updateKeyOf p)
      else .keep := by
  rw [hrow]
  rfl

/-- **A packet is processed** with the answer that the flow table gave. -/
theorem processed_of_answer (h : σ.Paced g ports)
    (hs : TakesSecond (σ.axisPorts g ports) second) {flows : Flows Key Value}
    (hanswer : (σ.run g ports (second + 3)).answer =
      (σ.machine g).found flows (σ.arrival g ports second)) :
    σ.Processed g ports flows second := by
  obtain ⟨-, haction, hvalue⟩ := words_out h (second + 4)
  have hrow := row_at h hs
  have hstart : (σ.run g ports (second + 10)).way.controller.startd place8 = true := by
    rw [controller_at h, startd_iff_of_apart h.long h.apart (by decide)]
    exact ⟨second, hs, rfl⟩
  have hinsert : (σ.tablePorts g ports (second + 10)).insert =
      ((σ.ram3 (σ.run g ports (second + 4)).way.matchAddrTcam2).extractLsb' 0 16 == 0xFF00) := by
    rw [← haction]
    change ((σ.run g ports (second + 10)).way.controller.startd place8 && _) = _
    rw [hstart]
    rfl
  have hremove : (σ.tablePorts g ports (second + 10)).remove =
      ((σ.ram3 (σ.run g ports (second + 4)).way.matchAddrTcam2).extractLsb' 0 16 == 0xFFFF) := by
    rw [← haction]
    change ((σ.run g ports (second + 10)).way.controller.startd place8 && _) = _
    rw [hstart]
    rfl
  have hkey : (σ.tablePorts g ports (second + 10)).key =
      σ.updateKeyOf (σ.arrival g ports second) := updateKey_at h hs
  have hcontext : (σ.tablePorts g ports (second + 10)).value =
      σ.contextOf (σ.arrival g ports second) (σ.run g ports (second + 3)).answer
        (σ.run g ports (second + 4)).way.matchAddrTcam2 := newContext_at h hs
  rw [hanswer] at hrow hcontext
  refine ⟨hrow, haction, hvalue, ?_⟩
  change Asks _ (σ.effectOf g _ _)
  rw [effectOf_eq hrow]
  split_ifs with hput hdrop
  · exact ⟨by rw [hinsert, hput]; rfl, by rw [hremove, hput]; decide, hkey, hcontext⟩
  · exact ⟨by rw [hinsert, hdrop]; decide, by rw [hremove, hdrop]; rfl, hkey⟩
  · exact ⟨hinsert.trans (beq_eq_false_iff_ne.mpr hput), hremove.trans
      (beq_eq_false_iff_ne.mpr hdrop)⟩

end FlowBlazeReg

end Hw

end FlowBlaze
