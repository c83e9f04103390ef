import FlowBlaze.Hw.AxiSlave
import FlowBlaze.Hw.CamRtl
import FlowBlaze.Hw.CoreRefines
import FlowBlaze.Hw.Program
/-!
# The core with its CAMs — `FlowBlaze_core.vhd`, `cam_top.vhd`

The model of the core takes a write to a TCAM at once. Here its TCAMs are the
circuits, which need sixteen cycles for a write, drop what comes in that
time, and do not match the word that is being written. Once the writes of the
host are over, and if no two were too close, the core with the circuits is
cycle for cycle the core with the entries that the host has written
(`core_run`).
-/

namespace FlowBlaze

namespace Hw

open Common

/-! ## An answer at rest -/

section Answers

variable {n w depth : ℕ} {init : Fin depth → ℕ → StdLogic} {ports : ℕ → CamIn n w} {t : ℕ}

/-- The writes of a run. -/
def camWrites (ports : ℕ → CamIn n w) (t : ℕ) : Option (ℕ × CamEntry n) := (ports t).write

/-- While it is enabled, the table takes every cycle. -/
theorem camTable_succ (s : SlowTable ℕ (CamEntry n)) (hen : (ports t).en = true) :
    camTable s ports (t + 1) = (camTable s ports t).next writeCycles (camWrites ports t) := by
  change (if (ports t).en then _ else _) = _
  rw [hen, if_pos rfl]
  rfl

/-- **At rest, and without a write,** the first match among the entries that
have been written is found. -/
theorem answer_of_settled (heven : n % 2 = 0) (hw : 0 < w) (hdepth : depth ≤ 2 ^ w)
    (hen : ∀ t, (ports t).en = true) (h : Settled writeCycles (camWrites ports) t)
    (hnone : camWrites ports t = none) :
    ((CamRtl.initial init).run ports (t + 1)).matchAddrBinInt =
      (((List.finRange depth).find? fun k =>
        (writtenAtOnce (camStart n init).entries (camWrites ports) t k.val).any fun e =>
          e.isMatch (ports t).cmpDin (ports t).cmpDataMask).map
            fun k => BitVec.ofNat w k.val).getD (BitVec.allOnes w) := by
  have hrefines := CamRtl.refines_run (CamRtl.refines_initial heven init) ports t
  obtain ⟨hidle, hentries⟩ := run_of_settled (Nat.succ_pos 15) rfl
    (fun t => camTable_succ (camStart n init) (hen t)) h
  have hshown : ∀ k, (camTable (camStart n init) ports t).shown writeCycles (ports t).write k =
      writtenAtOnce (camStart n init).entries (camWrites ports) t k := by
    intro k
    have hcurrent : (camTable (camStart n init) ports t).current writeCycles (ports t).write =
        none := by
      unfold SlowTable.current
      rw [hidle, show (ports t).write = none from hnone]
      rfl
    unfold SlowTable.shown
    rw [hcurrent, hentries]
    rfl
  have hanswer := (hrefines.answer hw hdepth (hen t)).2
  unfold camAnswer at hanswer
  simp only [hshown] at hanswer
  exact hanswer

/-- The address of an answer, as a place. -/
theorem toFin_answer {answer : Option (Fin (2 ^ w))} :
    ((answer.map fun k => BitVec.ofNat w k.val).getD (BitVec.allOnes w)).toFin =
      answer.getD (BitVec.allOnes w).toFin := by
  cases answer with
  | none => rfl
  | some k =>
    refine Fin.ext ?_
    change k.val % 2 ^ w = k.val
    exact Nat.mod_eq_of_lt k.isLt

end Answers

/-! ## The core -/

/-- **The core with the circuits of its TCAMs.** The `cam1` and `cam2` of the
core are what the host has written; nothing reads them. -/
structure FlowBlazeRtl where
  core : FlowBlazeReg
  tcam1bis : CamRtl 128 3 8
  tcam2bis : CamRtl 120 5 32

namespace FlowBlazeReg

variable (σ : FlowBlazeReg) (x : FlowBlazeIn)

/-- The ports of the first TCAM. -/
def camIn1 : CamIn 128 3 where
  en := true
  we := σ.cam1We
  wrAddr := σ.address.extractLsb' 6 3
  din := low128 σ.regs.tcamDataIn
  dataMask := low128 σ.regs.tcamMask
  cmpDin := σ.fullInput1
  cmpDataMask := 0

/-- The ports of the second TCAM. -/
def camIn2 : CamIn 120 5 where
  en := true
  we := σ.writeEnable && cam2We σ.address
  wrAddr := σ.address.extractLsb' 6 5
  din := low120 σ.regs.tcamDataIn
  dataMask := low120 σ.regs.tcamMask
  cmpDin := σ.way.fullInput2 (σ.coreIn x)
  cmpDataMask := 0

/-- The addresses come from the circuits. -/
def withMatchAddr (matchAddrTcam1 : BitVec 3) (matchAddrTcam2 : BitVec 5) : FlowBlazeReg :=
  { σ with
    matchAddrTcam1 := matchAddrTcam1.toFin
    way := { σ.way with matchAddrTcam2 := matchAddrTcam2.toFin } }

end FlowBlazeReg

/-- Where nothing matches, the circuits present their last place. -/
def rtlGenerics (baseaddr : BitVec 32) : FlowBlazeGenerics where
  baseaddr := baseaddr
  missAddr1 := (BitVec.allOnes 3).toFin
  missAddr2 := (BitVec.allOnes 5).toFin

namespace FlowBlazeRtl

variable (baseaddr : BitVec 32) (σ : FlowBlazeRtl) (x : FlowBlazeIn) (ports : ℕ → FlowBlazeIn)

/-- **One clock edge.** -/
def next : FlowBlazeRtl where
  core := (σ.core.next (rtlGenerics baseaddr) x).withMatchAddr
    (σ.tcam1bis.next σ.core.camIn1).matchAddrBinInt
    (σ.tcam2bis.next (σ.core.camIn2 x)).matchAddrBinInt
  tcam1bis := σ.tcam1bis.next σ.core.camIn1
  tcam2bis := σ.tcam2bis.next (σ.core.camIn2 x)

/-- The registers before each cycle of a run. -/
def run : ℕ → FlowBlazeRtl
  | 0 => σ
  | t + 1 => (run t).next baseaddr (ports t)

/-- The start, with the words of two files in the TCAMs. -/
def initial (core : FlowBlazeReg) (init1 : Fin 8 → ℕ → StdLogic) (init2 : Fin 32 → ℕ → StdLogic) :
    FlowBlazeRtl where
  core := { core with
    cam1 := fun i => fileEntry 128 (init1 i)
    cam2 := fun i => fileEntry 120 (init2 i) }
  tcam1bis := CamRtl.initial init1
  tcam2bis := CamRtl.initial init2

/-- The ports of the first TCAM in each cycle. -/
def camPorts1 (t : ℕ) : CamIn 128 3 := (σ.run baseaddr ports t).core.camIn1

/-- And of the second. -/
def camPorts2 (t : ℕ) : CamIn 120 5 := (σ.run baseaddr ports t).core.camIn2 (ports t)

/-- **The TCAMs are at rest**: no two writes were too close, and the last is
over. -/
def AtRest (t : ℕ) : Prop :=
  Settled writeCycles (camWrites (σ.camPorts1 baseaddr ports)) t ∧
    Settled writeCycles (camWrites (σ.camPorts2 baseaddr ports)) t

/-- No TCAM is written in a cycle. -/
def NoCamWrite (t : ℕ) : Prop :=
  camWrites (σ.camPorts1 baseaddr ports) t = none ∧
    camWrites (σ.camPorts2 baseaddr ports) t = none

/-- The write that the host makes in a cycle, if it makes one. -/
def delivered (t : ℕ) : List (BitVec 32 × BitVec 32) :=
  if (σ.run baseaddr ports t).core.writeEnable then
    [((σ.run baseaddr ports t).core.address, (ports t).wdata)] else []

variable {baseaddr σ x ports} {core : FlowBlazeReg} {init1 : Fin 8 → ℕ → StdLogic}
  {init2 : Fin 32 → ℕ → StdLogic} {t : ℕ}

/-! ## The circuits in a run -/

/-- The first TCAM runs on the ports that the core drives. -/
theorem tcam1bis_run (t : ℕ) :
    (σ.run baseaddr ports t).tcam1bis = σ.tcam1bis.run (σ.camPorts1 baseaddr ports) t := by
  induction t with
  | zero => rfl
  | succ t ih =>
    change (σ.run baseaddr ports t).tcam1bis.next _ = CamRtl.next _ _
    rw [ih]
    rfl

/-- And the second. -/
theorem tcam2bis_run (t : ℕ) :
    (σ.run baseaddr ports t).tcam2bis = σ.tcam2bis.run (σ.camPorts2 baseaddr ports) t := by
  induction t with
  | zero => rfl
  | succ t ih =>
    change (σ.run baseaddr ports t).tcam2bis.next _ = CamRtl.next _ _
    rw [ih]
    rfl

/-- An address is that of a place. -/
theorem beq_ofNat {w : ℕ} (a : BitVec w) {i : ℕ} (hi : i < 2 ^ w) :
    (a == BitVec.ofNat w i) = decide (i = a.toNat) := by
  rw [Bool.eq_iff_iff, beq_iff_eq, decide_eq_true_iff, ← BitVec.toNat_inj, BitVec.toNat_ofNat,
    Nat.mod_eq_of_lt hi]
  exact eq_comm

/-- The core keeps what is written to the first TCAM. -/
theorem nextCam1_eq (σ : FlowBlazeReg) (i : Fin 8) :
    σ.nextCam1 i = writtenEntry σ.camIn1.write i.val (σ.cam1 i) := by
  unfold FlowBlazeReg.nextCam1
  rw [@beq_ofNat 3 _ i.val i.isLt]
  unfold CamIn.write
  change _ = writtenEntry (if σ.cam1We then _ else _) _ _
  cases σ.cam1We with
  | false => rfl
  | true =>
    rw [Bool.true_and, if_pos rfl]
    unfold writtenEntry
    dsimp only
    simp only [decide_eq_true_eq]
    rfl

/-- And to the second. -/
theorem nextCam2_eq (σ : FlowBlazeReg) (x : FlowBlazeIn) (i : Fin 32) :
    σ.nextCam2 i = writtenEntry (σ.camIn2 x).write i.val (σ.cam2 i) := by
  unfold FlowBlazeReg.nextCam2
  rw [@beq_ofNat 5 _ i.val i.isLt]
  unfold CamIn.write
  change _ = writtenEntry (if σ.writeEnable && cam2We σ.address then _ else _) _ _
  cases σ.writeEnable && cam2We σ.address with
  | false => rfl
  | true =>
    rw [Bool.true_and, if_pos rfl]
    unfold writtenEntry
    dsimp only
    simp only [decide_eq_true_eq]
    rfl

theorem initial_cam1 :
    (initial core init1 init2).core.cam1 = fun i => fileEntry 128 (init1 i) := by
  unfold initial
  dsimp only

theorem initial_cam2 :
    (initial core init1 init2).core.cam2 = fun i => fileEntry 120 (init2 i) := by
  unfold initial
  dsimp only

theorem initial_axi : (initial core init1 init2).core.axi = core.axi := by
  unfold initial
  dsimp only

/-- **What the core keeps of the first TCAM** are the entries that writes at
once make. -/
theorem cam1_run (t : ℕ) (i : Fin 8) :
    ((initial core init1 init2).run baseaddr ports t).core.cam1 i =
      writtenAtOnce (camStart 128 init1).entries
        (camWrites ((initial core init1 init2).camPorts1 baseaddr ports)) t i.val := by
  induction t with
  | zero =>
    rw [writtenAtOnce, camStart_entries]
    exact congrFun initial_cam1 i
  | succ t ih =>
    rw [writtenAtOnce_succ, ← ih]
    exact nextCam1_eq _ i

/-- And of the second. -/
theorem cam2_run (t : ℕ) (i : Fin 32) :
    ((initial core init1 init2).run baseaddr ports t).core.cam2 i =
      writtenAtOnce (camStart 120 init2).entries
        (camWrites ((initial core init1 init2).camPorts2 baseaddr ports)) t i.val := by
  induction t with
  | zero =>
    rw [writtenAtOnce, camStart_entries]
    exact congrFun initial_cam2 i
  | succ t ih =>
    rw [writtenAtOnce_succ, ← ih]
    exact nextCam2_eq _ (ports t) i

/-! ## Matches -/

/-- An entry of the first TCAM matches as in its circuit. -/
theorem entryMatches1_eq (entry : CamEntry 128) (word : BitVec 128) :
    entryMatches1 entry word = entry.isMatch word 0 := by
  have hzero : entry.2 ||| 0 = entry.2 := BitVec.or_zero
  unfold entryMatches1 CamEntry.isMatch synthTernaryCompare
  rw [hzero, BitVec.xor_comm, BitVec.and_comm]

/-- And one of the second. -/
theorem entryMatches_eq (entry : CamEntry 120) (word : BitVec 120) :
    entryMatches entry word = entry.isMatch word 0 := by
  have hzero : entry.2 ||| 0 = entry.2 := BitVec.or_zero
  unfold entryMatches CamEntry.isMatch synthTernaryCompare
  rw [hzero, BitVec.xor_comm, BitVec.and_comm]

/-- A line of the second. -/
theorem matchLine_eq (cam : CamReg) (word : BitVec 120) (k : Fin 32) :
    cam.matchLine word k = (cam.cam2 k).any fun e => CamEntry.isMatch e word 0 := by
  unfold CamReg.matchLine
  cases cam.cam2 k with
  | none => rfl
  | some entry => exact entryMatches_eq entry word

/-- **At rest the circuits present what the core does** with the entries that
the host has written. -/
theorem core_next (hrest : (initial core init1 init2).AtRest baseaddr ports t)
    (hnone : (initial core init1 init2).NoCamWrite baseaddr ports t) :
    ((initial core init1 init2).run baseaddr ports (t + 1)).core =
      ((initial core init1 init2).run baseaddr ports t).core.next (rtlGenerics baseaddr)
        (ports t) := by
  have h1 : ((initial core init1 init2).run baseaddr ports (t + 1)).tcam1bis.matchAddrBinInt.toFin =
      ((initial core init1 init2).run baseaddr ports t).core.matchAddr1 (rtlGenerics baseaddr) := by
    rw [tcam1bis_run]
    refine (congrArg BitVec.toFin (answer_of_settled rfl (by decide) (Nat.le_refl 8) (fun _ => rfl)
      hrest.1 hnone.1)).trans ?_
    refine toFin_answer.trans ?_
    unfold FlowBlazeReg.matchAddr1
    simp only [cam1_run, entryMatches1_eq]
    rfl
  have h2 : ((initial core init1 init2).run baseaddr ports (t + 1)).tcam2bis.matchAddrBinInt.toFin =
      (((initial core init1 init2).run baseaddr ports t).core.config
          (rtlGenerics baseaddr)).matchAddr
        (((initial core init1 init2).run baseaddr ports t).core.way.fullInput2
          (((initial core init1 init2).run baseaddr ports t).core.coreIn (ports t))) := by
    rw [tcam2bis_run]
    refine (congrArg BitVec.toFin (answer_of_settled rfl (by decide) (Nat.le_refl 32) (fun _ => rfl)
      hrest.2 hnone.2)).trans ?_
    refine toFin_answer.trans ?_
    have hline : (((initial core init1 init2).run baseaddr ports t).core.config
        (rtlGenerics baseaddr)).cam.matchLine
          (((initial core init1 init2).run baseaddr ports t).core.way.fullInput2
            (((initial core init1 init2).run baseaddr ports t).core.coreIn (ports t))) =
        fun k : Fin 32 => (((initial core init1 init2).run baseaddr ports t).core.cam2 k).any
          fun e => CamEntry.isMatch e
            (((initial core init1 init2).camPorts2 baseaddr ports) t).cmpDin 0 :=
      funext fun k => matchLine_eq _ _ k
    unfold CoreConfig.matchAddr CamReg.lookup
    rw [hline]
    simp only [cam2_run]
    rfl
  -- the core takes the two addresses and nothing else from the circuits
  change FlowBlazeReg.withMatchAddr _
    ((initial core init1 init2).run baseaddr ports (t + 1)).tcam1bis.matchAddrBinInt
    ((initial core init1 init2).run baseaddr ports (t + 1)).tcam2bis.matchAddrBinInt = _
  unfold FlowBlazeReg.withMatchAddr
  rw [h1, h2]
  rfl

/-! ## Runs at rest -/

/-- The TCAMs stay at rest while none is written. -/
theorem AtRest.add {s k : ℕ} (h : σ.AtRest baseaddr ports s)
    (hquiet : ∀ j < k, σ.NoCamWrite baseaddr ports (s + j)) :
    σ.AtRest baseaddr ports (s + k) := by
  induction k with
  | zero => exact h
  | succ k ih =>
    have hrest := ih fun j hj => hquiet j (Nat.lt_succ_of_lt hj)
    have hnone := hquiet k (Nat.lt_succ_self k)
    exact ⟨hrest.1.succ hnone.1, hrest.2.succ hnone.2⟩

/-- **From then on the core runs** as with the entries that it has. -/
theorem core_run {s k : ℕ} (hrest : (initial core init1 init2).AtRest baseaddr ports s)
    (hquiet : ∀ j < k, (initial core init1 init2).NoCamWrite baseaddr ports (s + j)) :
    ((initial core init1 init2).run baseaddr ports (s + k)).core =
      ((initial core init1 init2).run baseaddr ports s).core.run (rtlGenerics baseaddr)
        (fun t => ports (s + t)) k := by
  induction k with
  | zero => rfl
  | succ k ih =>
    have hbefore : ∀ j < k, (initial core init1 init2).NoCamWrite baseaddr ports (s + j) :=
      fun j hj => hquiet j (Nat.lt_succ_of_lt hj)
    rw [← Nat.add_assoc, core_next (hrest.add hbefore) (hquiet k (Nat.lt_succ_self k)),
      ih hbefore]
    rfl

/-! ## What the host writes -/

/-- The write pulses of the slave are three cycles apart. -/
theorem pulse_apart {axi : ℕ → AxiIn} {s t : ℕ} (hst : s < t)
    (hs : (AxiPhase.run axi s).pulse = true) (ht : (AxiPhase.run axi t).pulse = true) :
    s + 3 ≤ t := by
  have hresponse : AxiPhase.run axi s = .writeResponse true := by
    cases hphase : AxiPhase.run axi s with
    | writeResponse pulse =>
      rw [hphase] at hs
      rw [show pulse = true from hs]
    | _ =>
      rw [hphase] at hs
      cases hs
  have hafter : AxiPhase.run axi (s + 1) = .wait false ∨
      AxiPhase.run axi (s + 1) = .writeResponse false := by
    change (AxiPhase.run axi s).next _ = _ ∨ (AxiPhase.run axi s).next _ = _
    rw [hresponse]
    change (if (axi s).rready || (axi s).bready then AxiPhase.wait false
      else .writeResponse false) = _ ∨ (if (axi s).rready || (axi s).bready then
        AxiPhase.wait false else .writeResponse false) = _
    split
    · exact .inl rfl
    · exact .inr rfl
  obtain rfl | rfl | h : t = s + 1 ∨ t = s + 2 ∨ s + 3 ≤ t := by omega
  · rcases hafter with h | h
    · rw [h] at ht
      cases ht
    · rw [h] at ht
      cases ht
  · -- a pulse comes from the phase of a write, which comes from waiting
    have hwrite := AxiPhase.before_pulse ht
    rcases hafter with h | h
    · rw [h] at hwrite
      cases hwrite
    · rw [h] at hwrite
      cases hwrite
  · exact h

/-- The slave runs on the bus. -/
theorem axi_run (haxi : σ.core.axi.reset = σ.core.axi) (t : ℕ) :
    (σ.run baseaddr ports t).core.axi =
      AxiSlave.run baseaddr σ.core.axi (fun t => (ports t).axi) t := by
  induction t with
  | zero => exact haxi.symm
  | succ t ih =>
    change (σ.run baseaddr ports t).core.axi.clock baseaddr (ports t).axi = _
    rw [ih]
    rfl

/-- A pulse in the run is one of the slave. -/
theorem writeEnable_run (haxi : σ.core.axi.reset = σ.core.axi) (t : ℕ) :
    (σ.run baseaddr ports t).core.writeEnable =
      (AxiPhase.run (fun t => (ports t).axi) t).pulse := by
  unfold FlowBlazeReg.writeEnable
  rw [axi_run haxi]
  exact (AxiPhase.shows_run σ.core.axi _ t).writeEnable

/-- Without a pulse nothing is delivered. -/
theorem delivered_ne_nil (h : σ.delivered baseaddr ports t ≠ []) :
    (σ.run baseaddr ports t).core.writeEnable = true := by
  by_contra hne
  exact h (if_neg hne)

/-- **The bus delivers one write in three cycles.** -/
theorem keepDistance_delivered (haxi : σ.core.axi.reset = σ.core.axi) :
    KeepDistance 3 (σ.delivered baseaddr ports) := by
  refine ⟨fun t => ?_, fun s t hst hs ht => ?_⟩
  · unfold delivered
    split
    · exact Nat.le_refl 1
    · exact Nat.zero_le 1
  · refine @pulse_apart (fun t => (ports t).axi) s t hst ?_ ?_
    · rw [← writeEnable_run haxi]
      exact delivered_ne_nil hs
    · rw [← writeEnable_run haxi]
      exact delivered_ne_nil ht

/-- The address at which an entry of the first TCAM is taken. -/
def cam1Address (address : BitVec 32) : Bool :=
  address.extractLsb' 12 20 == 0x80010 && address.extractLsb' 9 3 == 0b000 &&
    address.extractLsb' 0 6 == 0b111100

/-- **Entries apart**: between two entries of a TCAM the host makes five other
writes. One that writes every word of an entry makes fifteen. -/
def EntriesApart (isEntry : BitVec 32 → Bool) (ws : List (BitVec 32 × BitVec 32)) : Prop :=
  ∀ front w middle w' rest, ws = front ++ w :: (middle ++ w' :: rest) →
    isEntry w.1 = true → isEntry w'.1 = true → 5 ≤ middle.length

/-- So the writes to its circuit are not too close. -/
theorem farApart_of_entriesApart (haxi : σ.core.axi.reset = σ.core.axi) {n w : ℕ}
    {camPorts : ℕ → CamIn n w} {isEntry : BitVec 32 → Bool}
    (hwe : ∀ t, (camPorts t).we =
      ((σ.run baseaddr ports t).core.writeEnable && isEntry (σ.run baseaddr ports t).core.address))
    {m : ℕ} (h : EntriesApart isEntry (before (σ.delivered baseaddr ports) m)) :
    FarApart writeCycles (camWrites camPorts) m := by
  have hwrite : ∀ t, camWrites camPorts t ≠ none →
      (σ.run baseaddr ports t).core.writeEnable = true ∧
        isEntry (σ.run baseaddr ports t).core.address = true := by
    intro t ht
    rw [← Bool.and_eq_true, ← hwe]
    by_contra hne
    exact ht (if_neg hne)
  intro s t hst htm hs ht
  obtain ⟨hs, hentry⟩ := hwrite s hs
  obtain ⟨ht, hentry'⟩ := hwrite t ht
  have hds : σ.delivered baseaddr ports s =
      [((σ.run baseaddr ports s).core.address, (ports s).wdata)] := if_pos hs
  have hdt : σ.delivered baseaddr ports t =
      [((σ.run baseaddr ports t).core.address, (ports t).wdata)] := if_pos ht
  obtain ⟨middle, rest, hall, hlen⟩ := before_eq_of_lt hst htm hds hdt
  have hmiddle := h _ _ middle _ rest hall hentry hentry'
  have hfar : s + 3 * (5 + 1) ≤ t := (keepDistance_delivered haxi).far hst
    (by rw [hds]; exact List.cons_ne_nil _ _) (by rw [hdt]; exact List.cons_ne_nil _ _) (by omega)
  have hcycles : writeCycles = 16 := rfl
  omega

/-- **The TCAMs are at rest** when the host has written entries apart, and none
in the last sixteen cycles. -/
theorem atRest_of_entriesApart (haxi : σ.core.axi.reset = σ.core.axi) {s : ℕ}
    (h1 : EntriesApart cam1Address (before (σ.delivered baseaddr ports) s))
    (h2 : EntriesApart cam2We (before (σ.delivered baseaddr ports) s))
    (hover : ∀ t < s, s < t + writeCycles → σ.NoCamWrite baseaddr ports t) :
    σ.AtRest baseaddr ports s := by
  refine ⟨⟨farApart_of_entriesApart haxi (fun _ => rfl) h1, fun t ht hne => ?_⟩,
    ⟨farApart_of_entriesApart haxi (fun _ => rfl) h2, fun t ht hne => ?_⟩⟩
  · by_contra hlt
    exact hne (hover t ht (by omega)).1
  · by_contra hlt
    exact hne (hover t ht (by omega)).2

/-- **The program is what the host has written**, while no packet leaves its
results. -/
theorem program_run {n : ℕ} (hidle : ∀ t < n,
      (σ.run baseaddr ports t).core.way.controller.startd place8 = false) :
    (σ.run baseaddr ports n).core.program =
      σ.core.program.load (before (σ.delivered baseaddr ports) n) := by
  induction n with
  | zero => rfl
  | succ n ih =>
    have hbefore := ih fun t ht => hidle t (Nat.lt_succ_of_lt ht)
    have hnot := hidle n (Nat.lt_succ_self n)
    rw [before_succ, Program.load_append, ← hbefore]
    change ((σ.run baseaddr ports n).core.next (rtlGenerics baseaddr) (ports n)).program = _
    unfold delivered
    cases hwrite : (σ.run baseaddr ports n).core.writeEnable with
    | true => exact FlowBlazeReg.program_next_of_write hwrite hnot
    | false =>
      refine FlowBlazeReg.program_next_of_quiet hwrite fun hstart => ?_
      rw [hnot] at hstart
      cases hstart

/-- Before the first packet no results leave. -/
theorem silent_run (h : σ.core.way.controller.Silent) {n : ℕ}
    (hnone : ∀ t < n, (ports t).s0Axis.tvalid = false) :
    (σ.run baseaddr ports n).core.way.controller.Silent := by
  induction n with
  | zero => exact h
  | succ n ih =>
    exact (ih fun t ht => hnone t (Nat.lt_succ_of_lt ht)).next (hnone n (Nat.lt_succ_self n))

/-- **The core with the circuits runs the program that the host has written.**
The host writes over the bus while no packet leaves its results, keeps the
entries of a TCAM apart, and waits sixteen cycles. Then the program is what
it has written, one write after the other; and until a TCAM is written again,
the core is cycle for cycle the one that takes entries at once. -/
theorem runs_as_written {s : ℕ} (haxi : core.axi.reset = core.axi)
    (hidle : ∀ t < s, ((initial core init1 init2).run baseaddr ports
      t).core.way.controller.startd place8 = false)
    (h1 : EntriesApart cam1Address
      (before ((initial core init1 init2).delivered baseaddr ports) s))
    (h2 : EntriesApart cam2We (before ((initial core init1 init2).delivered baseaddr ports) s))
    (hover : ∀ t < s, s < t + writeCycles →
      (initial core init1 init2).NoCamWrite baseaddr ports t) :
    ((initial core init1 init2).run baseaddr ports s).core.program =
        (initial core init1 init2).core.program.load
          (before ((initial core init1 init2).delivered baseaddr ports) s) ∧
      ∀ k, (∀ j < k, (initial core init1 init2).NoCamWrite baseaddr ports (s + j)) →
        ((initial core init1 init2).run baseaddr ports (s + k)).core =
          ((initial core init1 init2).run baseaddr ports s).core.run (rtlGenerics baseaddr)
            (fun t => ports (s + t)) k := by
  have haxi' : (initial core init1 init2).core.axi.reset = (initial core init1 init2).core.axi := by
    rw [initial_axi]
    exact haxi
  refine ⟨program_run hidle, fun _ hquiet => ?_⟩
  exact core_run (atRest_of_entriesApart haxi' h1 h2 hover) hquiet

/-! ## One entry -/

/-- The host writes the last word of an entry. -/
def oneEntryPorts (t : ℕ) : FlowBlazeIn where
  s0Axis := ⟨0, 0, 0, false, false⟩
  m0AxisTready := true
  axi := ⟨false, 0, decide (t < 2), 0x8001003c, decide (t < 3), false, true⟩
  wdata := 0xffffffff

/-- Words that match nothing. -/
def noEntry (n : ℕ) (_ : Fin n) (_ : ℕ) : StdLogic := .u

/-- The core at power-up. -/
def atPowerUp : FlowBlazeRtl := initial .twoStates (noEntry 8) (noEntry 32)

theorem reset_atPowerUp : atPowerUp.core.axi.reset = atPowerUp.core.axi := by
  unfold atPowerUp
  rw [initial_axi]
  rfl

/-- From its third cycle on the bus is idle. -/
theorem wait_oneEntry {t : ℕ} (ht : 4 ≤ t) :
    AxiPhase.run (fun t => (oneEntryPorts t).axi) t = .wait true := by
  induction t, ht using Nat.le_induction with
  | base => decide
  | succ t ht ih =>
    change (AxiPhase.run _ t).next _ = _
    have hno : decide (t < 2) = false := decide_eq_false (by omega)
    rw [ih]
    change (if (decide (t < 2) && _) = true then AxiPhase.write else .wait true) = _
    rw [hno]
    rfl

theorem writeEnable_oneEntry (t : ℕ) :
    (atPowerUp.run 0x80000000 oneEntryPorts t).core.writeEnable = decide (t = 2) := by
  rw [writeEnable_run reset_atPowerUp]
  rcases Nat.lt_or_ge t 4 with hlt | hge
  · revert t
    decide
  · rw [wait_oneEntry hge]
    exact (decide_eq_false (by omega)).symm

/-- One write is delivered. -/
theorem delivered_oneEntry (t : ℕ) :
    atPowerUp.delivered 0x80000000 oneEntryPorts t =
      if t = 2 then [(0x8001003c, 0xffffffff)] else [] := by
  unfold delivered
  rw [writeEnable_oneEntry]
  by_cases ht : t = 2
  · rw [if_pos (decide_eq_true ht), if_pos ht, ht]
    unfold FlowBlazeReg.address
    rw [axi_run reset_atPowerUp, address_run]
    decide
  · rw [if_neg ht, if_neg (by simpa using ht)]

theorem noCamWrite_oneEntry {t : ℕ} (ht : t ≠ 2) :
    atPowerUp.NoCamWrite 0x80000000 oneEntryPorts t := by
  have hno : (atPowerUp.run 0x80000000 oneEntryPorts t).core.writeEnable = false := by
    rw [writeEnable_oneEntry]
    exact decide_eq_false ht
  constructor
  · refine if_neg (Bool.eq_false_iff.mp ?_)
    change ((atPowerUp.run 0x80000000 oneEntryPorts t).core.writeEnable && _) = false
    rw [hno, Bool.false_and]
  · refine if_neg (Bool.eq_false_iff.mp ?_)
    change ((atPowerUp.run 0x80000000 oneEntryPorts t).core.writeEnable && _) = false
    rw [hno, Bool.false_and]

/-- One write makes no two entries. -/
theorem entriesApart_singleton (isEntry : BitVec 32 → Bool) (w : BitVec 32 × BitVec 32) :
    EntriesApart isEntry [w] := by
  intro front a middle b rest hall
  have hlen := congrArg List.length hall
  simp only [List.length_append, List.length_cons, List.length_nil] at hlen
  omega

/-- The entry is there in cycle 19, and the core runs with it from then on. -/
theorem runs_as_written_oneEntry :
    (atPowerUp.run 0x80000000 oneEntryPorts 19).core.program =
        atPowerUp.core.program.load [(0x8001003c, 0xffffffff)] ∧
      ∀ k, (atPowerUp.run 0x80000000 oneEntryPorts (19 + k)).core =
        (atPowerUp.run 0x80000000 oneEntryPorts 19).core.run (rtlGenerics 0x80000000)
          (fun t => oneEntryPorts (19 + t)) k := by
  have hall : before (atPowerUp.delivered 0x80000000 oneEntryPorts) 19 =
      [(0x8001003c, 0xffffffff)] := by
    rw [show atPowerUp.delivered 0x80000000 oneEntryPorts = _ from funext delivered_oneEntry]
    rfl
  have hapart : ∀ isEntry, EntriesApart isEntry
      (before (atPowerUp.delivered 0x80000000 oneEntryPorts) 19) := by
    rw [hall]
    exact fun isEntry => entriesApart_singleton isEntry _
  have hsilent : atPowerUp.core.way.controller.Silent := ⟨rfl, rfl, fun _ => rfl⟩
  have hrun := @runs_as_written 0x80000000 oneEntryPorts .twoStates (noEntry 8) (noEntry 32) 19 rfl
    (fun t _ => (silent_run hsilent fun _ _ => rfl).startd place8) (hapart _) (hapart _)
    (fun t _ hlate => noCamWrite_oneEntry (by
      have hcycles : writeCycles = 16 := rfl
      omega))
  refine ⟨?_, fun k => hrun.2 k fun j _ => noCamWrite_oneEntry (by omega)⟩
  rw [← hall]
  exact hrun.1

end FlowBlazeRtl

end Hw

end FlowBlaze
