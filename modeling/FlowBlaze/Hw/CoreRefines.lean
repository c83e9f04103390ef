import FlowBlaze.Hw.CalmRuns
import FlowBlaze.Hw.CoreAlignment
import FlowBlaze.Hw.OwnAction
/-!
# The core is the machine

The flow table is asked to put a context ten cycles after a packet's second
beat, and to find one two cycles after it. Where packets are twelve cycles
apart, a packet therefore finds what all packets in front of it have left,
and nothing of those behind it.
-/

namespace FlowBlaze

namespace Hw

open Common Controller

namespace FlowBlazeReg

variable {g : FlowBlazeGenerics} {σ : FlowBlazeReg} {ports : ℕ → FlowBlazeIn}
  {first second t u : ℕ} {k : Key} {v : Value}

/-! ## What the flow table is asked for -/

/-- The pulses at the flow table are those of the packets. -/
theorem pulse_at (h : σ.Paced g ports) {e : Pulse}
    (hpulse : (σ.tablePorts g ports t).pulse e = true) : ∃ second,
      TakesSecond (σ.axisPorts g ports) second ∧ t = second + if e = .search then 2 else 10 := by
  have hstartd : ∀ k : Fin 12, k.val ≤ 9 →
      (σ.run g ports t).way.controller.startd k = true → ∃ second,
        TakesSecond (σ.axisPorts g ports) second ∧ t = second + k.val + 2 := by
    intro k hk hstart
    rw [controller_at h] at hstart
    exact (startd_iff_of_apart h.long h.apart hk).mp hstart
  cases e with
  | insert => exact hstartd place8 (by decide) ((Bool.and_eq_true _ _).mp hpulse).1
  | remove => exact hstartd place8 (by decide) ((Bool.and_eq_true _ _).mp hpulse).1
  | search => exact hstartd place0 (by decide) hpulse

/-- The action asks for one operation at most. -/
theorem not_insert_and_remove :
    ¬((σ.tablePorts g ports t).insert = true ∧ (σ.tablePorts g ports t).remove = true) := by
  rintro ⟨hinsert, hremove⟩
  have hput := beq_iff_eq.mp ((Bool.and_eq_true _ _).mp hinsert).2
  have hdrop := beq_iff_eq.mp ((Bool.and_eq_true _ _).mp hremove).2
  exact absurd (hput.symm.trans hdrop) (by decide)

/-- **The flow table is used as a map** in a paced run. -/
theorem mapRun_tablePorts (h : σ.Paced g ports) : MapRun (σ.tablePorts g ports) where
  reset _ := rfl
  we t := by
    change ((σ.run g ports t).writeEnable && _) = false
    rw [h.quiet]
    rfl
  spaced t t' e e' _ _ he he' := by
    obtain ⟨second, hs, rfl⟩ := pulse_at h he
    obtain ⟨second', hs', rfl⟩ := pulse_at h he'
    have hbefore := @second_apart _ _ _ h.apart h.long hs hs'
    have hbehind := @second_apart _ _ _ h.apart h.long hs' hs
    rcases Nat.lt_trichotomy second second' with hlt | rfl | hgt
    · have hfar := hbefore hlt
      split_ifs <;> omega
    · cases e <;> cases e' <;> first
        | exact .inl ⟨rfl, rfl⟩
        | simp; done
        | exact absurd ⟨he, he'⟩ not_insert_and_remove
        | exact absurd ⟨he', he⟩ not_insert_and_remove
    · have hfar := hbehind hgt
      split_ifs <;> omega
  first := by
    refine Bool.eq_false_iff.mpr fun hsearch => ?_
    obtain ⟨second, -, heq⟩ := @pulse_at _ _ _ 0 h .search hsearch
    rw [if_pos rfl] at heq
    omega
  ready t hsearch := by
    obtain ⟨second, hs, heq⟩ := @pulse_at _ _ _ (t + 1) h .search hsearch
    rw [if_pos rfl] at heq
    obtain rfl : t = second + 1 := by omega
    exact searchKey_before h hs

/-- A packet searches the flow table two cycles after its second beat. -/
theorem search_at (h : σ.Paced g ports)
    (hs : TakesSecond (σ.axisPorts g ports) second) :
    (σ.tablePorts g ports (second + 2)).search = true := by
  change (σ.run g ports (second + 2)).way.controller.startd place0 = true
  rw [controller_at h, startd_iff_of_apart h.long h.apart (by decide)]
  exact ⟨second, hs, rfl⟩

/-- **The answer** is what the flow table means in the cycle before the
search. -/
theorem answer_at (h : σ.Undisturbed g ports)
    (hs : TakesSecond (σ.axisPorts g ports) second) :
    (σ.run g ports (second + 3)).answer = some v ↔
      (σ.run g ports (second + 1)).table.view.Means
        (σ.lookupKeyOf (σ.arrival g ports second)) v := by
  have hp := mapRun_tablePorts h.toPaced
  have hsearch := search_at h.toPaced hs
  have hinv := CuckooReg.Inv.run h.empty hp.env (fun t => (h.clean t).toClean) (second + 1)
  obtain ⟨hstash, hpipe⟩ := h.search (second + 1) hsearch
  have hhit := CuckooReg.answer_next (v := v) hinv.wf.placed (hp.env (second + 2))
    (hp.quiet (u := second + 1) hsearch (by omega) (by omega)).2.2 hsearch
    (hp.ready (second + 1) hsearch)
  have hmeans := StashedTable.means_of_ne (v := v)
    (pending_ne_of_search h.empty hp hinv.sync hsearch hpipe)
  rw [searchKey_at h.toPaced hs] at hhit hmeans hstash
  rw [table_run, hmeans]
  -- the stash has nothing of this key, so that the tables alone answer
  refine Iff.trans ?_ (hhit.trans ⟨Or.inl, fun hheld => hheld.resolve_right (hstash v)⟩)
  unfold answer matchHt flowContext
  rw [table_run]
  change (if (Hw.run σ.table (σ.tablePorts g ports) (second + 2 + 1)).hit then
      some (Hw.run σ.table (σ.tablePorts g ports) (second + 2 + 1)).searchValue else none) = _ ↔
    (Hw.run σ.table (σ.tablePorts g ports) (second + 2 + 1)).hit = true ∧
      (Hw.run σ.table (σ.tablePorts g ports) (second + 2 + 1)).searchValue = v
  cases (Hw.run σ.table (σ.tablePorts g ports) (second + 2 + 1)).hit <;> simp

/-! ## The flows -/

/-- The flows after the packet of a cycle. -/
theorem flowsBefore_succ (h : σ.Paced g ports)
    (hs : TakesSecond (σ.axisPorts g ports) second) :
    σ.flowsBefore g ports (second + 1) =
      (σ.machine g).step (σ.flowsBefore g ports second) (σ.arrival g ports second) := by
  unfold flowsBefore
  rw [before_succ, arrivals, if_pos ((takesSecond_at h).mpr hs), FlowMachine.run_concat]

/-- Without one they are the same. -/
theorem flowsBefore_succ_of_not (h : σ.Paced g ports)
    (hs : ¬TakesSecond (σ.axisPorts g ports) t) :
    σ.flowsBefore g ports (t + 1) = σ.flowsBefore g ports t := by
  unfold flowsBefore
  rw [before_succ, arrivals, if_neg (mt (takesSecond_at h).mp hs), List.append_nil]

/-- No packet changes them in the eleven cycles in front of another one. -/
theorem flowsBefore_sub (h : σ.Paced g ports)
    (hs : TakesSecond (σ.axisPorts g ports) second) {n : ℕ} (hn : n ≤ 11) :
    σ.flowsBefore g ports (second - n) = σ.flowsBefore g ports second := by
  induction n with
  | zero => rfl
  | succ n ih =>
    rw [← ih (by omega)]
    rcases Nat.eq_zero_or_pos (second - n) with hzero | hpos
    · rw [hzero, show second - (n + 1) = 0 by omega]
    · obtain ⟨u, hu⟩ : ∃ u, second - n = u + 1 := ⟨second - n - 1, by omega⟩
      rw [hu, show second - (n + 1) = u by omega]
      refine (flowsBefore_succ_of_not h fun htakes => ?_).symm
      have hfar := second_apart h.apart h.long htakes hs (by omega)
      omega

/-! ## The simulation -/

/-- **The flow table means the flows** after all packets whose second beat was
taken ten cycles ago. -/
def MeansFlows (g : FlowBlazeGenerics) (σ : FlowBlazeReg) (ports : ℕ → FlowBlazeIn) (t : ℕ) :
    Prop :=
  ∀ k v, (σ.run g ports t).table.view.Means k v ↔ σ.flowsBefore g ports (t - 10) k = some v

/-- A packet finds the flows that those in front of it have left. -/
theorem processed_of_means (h : σ.Undisturbed g ports)
    (hs : TakesSecond (σ.axisPorts g ports) second)
    (hmeans : σ.MeansFlows g ports (second + 1)) :
    σ.Processed g ports (σ.flowsBefore g ports second) second := by
  refine processed_of_answer h.toPaced hs (Option.ext fun v => ?_)
  have hflows := hmeans (σ.lookupKeyOf (σ.arrival g ports second)) v
  rw [show second + 1 - 10 = second - 9 by omega, flowsBefore_sub h.toPaced hs (by omega)] at hflows
  exact (answer_at h hs).trans hflows

/-- **What the flow table is told to do** becomes of the flows. -/
theorem means_of_asks (h : σ.Undisturbed g ports) {flows : Flows Key Value}
    {effect : Effect Key Value} (hasks : Asks (σ.tablePorts g ports t) effect)
    (hmeans : ∀ k v, (σ.run g ports t).table.view.Means k v ↔ flows k = some v) (k : Key)
    (v : Value) :
    (σ.run g ports (t + 1)).table.view.Means k v ↔ effect.apply flows k = some v := by
  have hp := mapRun_tablePorts h.toPaced
  have hinv := CuckooReg.Inv.run h.empty hp.env (fun t => (h.clean t).toClean) t
  have hforgotten : (Hw.run σ.table (σ.tablePorts g ports) t).view.Forgotten :=
    (means_run h.empty hp h.evicted h.clean t).1
  have hnext := CuckooReg.means_next (k := k) (v := v) hinv hforgotten (hp.env t)
    (h.clean t).toClean ((h.evicted (t + 1)).trans (h.evicted t).symm)
  rw [← table_run, hmeans] at hnext
  refine hnext.trans ?_
  cases effect with
  | keep =>
    have hno : ¬OpFor (σ.tablePorts g ports t) k := by
      rintro ⟨hop | hop, -⟩
      · exact absurd hop (Bool.eq_false_iff.mp hasks.1)
      · exact absurd hop (Bool.eq_false_iff.mp hasks.2)
    exact ⟨fun hor => (hor.resolve_left fun hop => hno hop.1).2, fun hkept => .inr ⟨hno, hkept⟩⟩
  | put key context =>
    obtain ⟨hinsert, -, hkey, hvalue⟩ := hasks
    rw [Effect.apply_put_iff]
    by_cases hk : k = key
    · have hop : OpFor (σ.tablePorts g ports t) k := ⟨.inl hinsert, hkey.trans hk.symm⟩
      rw [if_pos hk, hvalue]
      exact ⟨fun hor => (hor.resolve_right fun hno => hno.1 hop).2.2,
        fun hput => .inl ⟨hop, hinsert, hput⟩⟩
    · have hno : ¬OpFor (σ.tablePorts g ports t) k := fun hop => hk (hop.2.symm.trans hkey)
      rw [if_neg hk]
      exact ⟨fun hor => (hor.resolve_left fun hop => hno hop.1).2, fun hkept => .inr ⟨hno, hkept⟩⟩
  | drop key =>
    obtain ⟨hinsert, hremove, hkey⟩ := hasks
    rw [Effect.apply_drop_iff]
    constructor
    · rintro (⟨-, hput, -⟩ | ⟨hno, hkept⟩)
      · exact absurd hput (Bool.eq_false_iff.mp hinsert)
      · exact ⟨fun hk => hno ⟨.inr hremove, hkey.trans hk.symm⟩, hkept⟩
    · rintro ⟨hk, hkept⟩
      exact .inr ⟨fun hop => hk (hop.2.symm.trans hkey), hkept⟩

/-- **The flow table means the flows** in every cycle of an undisturbed run. -/
theorem meansFlows (h : σ.Undisturbed g ports) (t : ℕ) : σ.MeansFlows g ports t := by
  induction t using Nat.strong_induction_on with
  | h t ih =>
    cases t with
    | zero =>
      exact fun k v => iff_of_false (CuckooReg.not_means_of_empty h.empty)
        (Option.some_ne_none v).symm
    | succ t =>
      have hmeans := ih t (Nat.lt_succ_self t)
      by_cases htakes : ∃ second, TakesSecond (σ.axisPorts g ports) second ∧ t = second + 10
      · -- the packet has found the flows that it now changes
        obtain ⟨second, hs, rfl⟩ := htakes
        have hprocessed := processed_of_means h hs (ih (second + 1) (by omega))
        unfold MeansFlows at hmeans
        rw [show second + 10 - 10 = second by omega] at hmeans
        intro k v
        rw [show second + 10 + 1 - 10 = second + 1 by omega, flowsBefore_succ h.toPaced hs]
        exact means_of_asks h hprocessed.effect hmeans k v
      · have hasks : Asks (σ.tablePorts g ports t) .keep := by
          have hno : ∀ e, e ≠ .search → (σ.tablePorts g ports t).pulse e = false := by
            refine fun e hne => Bool.eq_false_iff.mpr fun hpulse => htakes ?_
            obtain ⟨second, hs, heq⟩ := pulse_at h.toPaced hpulse
            rw [if_neg hne] at heq
            exact ⟨second, hs, heq⟩
          exact ⟨hno .insert (by decide), hno .remove (by decide)⟩
        -- nothing is told, and no packet of ten cycles before counts
        have hflows : σ.flowsBefore g ports (t + 1 - 10) = σ.flowsBefore g ports (t - 10) := by
          rcases Nat.lt_or_ge t 10 with hlt | hge
          · rw [show t + 1 - 10 = t - 10 by omega]
          · rw [show t + 1 - 10 = t - 10 + 1 by omega]
            exact flowsBefore_succ_of_not h.toPaced fun hs => htakes ⟨t - 10, hs, by omega⟩
        intro k v
        rw [hflows]
        exact means_of_asks h hasks hmeans k v

/-! ## The header of a packet -/

/-- The first beat of a packet is kept for its header. -/
structure Kept (r : CoreReg) (axis : Axis) : Prop where
  tdata : r.fullHeader.extractLsb' 0 256 = axis.tdata
  metadata1 : r.metadata1 = axis.tuser.extractLsb' 32 32
  metadata2 : r.metadata2 = axis.tuser.extractLsb' 64 32
  dstIf : r.dstIf = axis.tuser.extractLsb' 24 8
  srcIf : r.srcIf = axis.tuser.extractLsb' 16 8

section Kept

variable {c : CoreConfig} {r : CoreReg} {x : CoreIn} {axis : Axis}

/-- It is taken in `IDLE`. -/
theorem kept_next_of_first (h : r.takesFirst c x = true) : Kept (r.next c x) x.s0Axis := by
  obtain ⟨hstate, hstep⟩ := (Bool.and_eq_true _ _).mp h
  have hheader : r.nextHeader c x = r.fullHeader.extractLsb' 256 176 ++ x.s0Axis.tdata := by
    unfold CoreReg.nextHeader
    rw [beq_iff_eq.mp hstate]
    exact if_pos hstep
  refine ⟨?_, if_pos h, if_pos h, if_pos h, if_pos h⟩
  change (r.nextHeader c x).extractLsb' 0 256 = _
  rw [hheader]
  exact BitVec.extractLsb'_append_eq_right

/-- It stays while the second one is waited for. -/
theorem Kept.next (h : Kept r axis) (hstate : r.controller.currState = .pkt1)
    (hstep : (r.axisIn c x).step = false) : Kept (r.next c x) axis := by
  have htakes : ¬r.takesFirst c x = true := by
    unfold CoreReg.takesFirst
    rw [hstep, Bool.and_false]
    exact Bool.false_ne_true
  have hheader : r.nextHeader c x = r.fullHeader := by
    unfold CoreReg.nextHeader
    rw [hstate]
    exact if_neg (Bool.eq_false_iff.mp hstep)
  exact ⟨(congrArg (BitVec.extractLsb' 0 256) hheader).trans h.tdata,
    (if_neg htakes).trans h.metadata1, (if_neg htakes).trans h.metadata2,
    (if_neg htakes).trans h.dstIf, (if_neg htakes).trans h.srcIf⟩

/-- **The header** is that of both. -/
theorem Kept.fullHeader_next (h : Kept r axis) (hstate : r.controller.currState = .pkt1)
    (hstep : (r.axisIn c x).step = true) :
    (r.next c x).fullHeader = headerOf axis x.s0Axis x.timer x.random := by
  change r.nextHeader c x = _
  unfold CoreReg.nextHeader headerOf
  rw [hstate, h.tdata, h.metadata1, h.metadata2, h.dstIf, h.srcIf]
  exact if_pos hstep

end Kept

/-- The next word is available to the way. -/
theorem step_at (t : ℕ) : (σ.axisPorts g ports t).step =
    ((σ.run g ports t).way.axisIn ((σ.run g ports t).config g)
      ((σ.run g ports t).coreIn (ports t))).step := by
  rw [way_run]
  rfl

/-- A first beat is taken in `IDLE`. -/
theorem takesFirst_of_first (h : σ.Paced g ports)
    (hf : FirstBeat (σ.axisPorts g ports) first) :
    (σ.run g ports first).way.takesFirst ((σ.run g ports first).config g)
      ((σ.run g ports first).coreIn (ports first)) = true := by
  have hidle := idle_of_first h.long hf
  rw [← controller_at h] at hidle
  unfold CoreReg.takesFirst
  rw [hidle, ← step_at]
  exact hf.1.step

/-- While the second beat of a packet is waited for, the first one is kept. -/
theorem kept_at (h : σ.Paced g ports) (hf : FirstBeat (σ.axisPorts g ports) first)
    (hs : Follows (σ.axisPorts g ports) first second) (hlt : first + 1 ≤ t) (hle : t ≤ second) :
    (σ.run g ports t).way.controller.currState = .pkt1 ∧
      Kept (σ.run g ports t).way (ports first).s0Axis := by
  have hstate : ∀ t, first + 1 ≤ t → t ≤ second →
      (σ.run g ports t).way.controller.currState = .pkt1 := fun t hlt hle => by
    rw [controller_at h]
    exact pkt1_of_first h.long (hs.1.of_le hlt hle) hf
  refine ⟨hstate t hlt hle, ?_⟩
  induction t, hlt using Nat.le_induction with
  | base => exact kept_next_of_first (takesFirst_of_first h hf)
  | succ t hlt ih =>
    have hno : ¬Beat (σ.axisPorts g ports) t := hs.1.2.2 t hlt hle
    refine (ih (by omega)).next (hstate t hlt (by omega)) ?_
    rw [← step_at]
    refine Bool.eq_false_iff.mpr fun hstep => hno (beat_of_step hstep ?_)
    rw [← controller_at h, hstate t hlt (by omega)]
    decide

/-- **The header of a packet** is made of its first two beats. -/
theorem header_at (h : σ.Paced g ports) (hf : FirstBeat (σ.axisPorts g ports) first)
    (hs : Follows (σ.axisPorts g ports) first second) :
    (σ.arrival g ports second).header =
      headerOf (ports first).s0Axis (ports second).s0Axis (σ.run g ports second).timer
        (σ.run g ports second).random := by
  obtain ⟨hstate, hkept⟩ := kept_at h hf hs hs.1.1 (Nat.le_refl second)
  have hstep := hs.2.step
  rw [step_at] at hstep
  exact hkept.fullHeader_next hstate hstep

/-! ## The packet comes out -/

/-- **The packet leaves by the port of its row**: if the line moves in each of
the ten cycles behind its second beat, its first beat is delivered in the last
of them. -/
def LeavesBy (g : FlowBlazeGenerics) (σ : FlowBlazeReg) (ports : ℕ → FlowBlazeIn)
    (first second : ℕ) (word : BitVec 32) : Prop :=
  (∀ t, second < t → t ≤ second + 10 →
      σ.way.lineShifts (σ.configAt g ports) (σ.wayPorts g ports) t = true) →
    σ.way.Delivers (σ.configAt g ports) (σ.wayPorts g ports) first (second + 10) ∧
      (((σ.run g ports (second + 10)).way.m0Axis (σ.configAt g ports (second + 10))
          (σ.wayPorts g ports (second + 10))).tuser).extractLsb' 24 8 =
        if σ.regs.regTest0 = 0 then word.extractLsb' 24 8 else σ.regs.regTest0.extractLsb' 0 8

/-- It does with the word that is there ten cycles after its second beat. -/
theorem leavesBy_of_actionD3 (h : σ.Paced g ports)
    (hf : FirstBeat (σ.axisPorts g ports) first)
    (hs : Follows (σ.axisPorts g ports) first second) {word : BitVec 32}
    (hword : (σ.run g ports (second + 10)).way.actionD3 = word) :
    σ.LeavesBy g ports first second word := by
  intro hline
  refine ⟨(CoreReg.delivers_iff h.reset hf.1).mpr ⟨?_, hline _ (by omega) (Nat.le_refl _)⟩, ?_⟩
  · -- two places up to the second beat, and nine behind it
    have hsecond := hs.1.1
    rw [← moves_add (show first ≤ second + 1 by omega) (show second + 1 ≤ second + 10 by omega),
      CoreReg.moves_packet h.reset h.long hf hs,
      moves_of_enabled (by omega) fun t hlt hle => hline t (by omega) (by omega)]
    omega
  · have htest : (σ.configAt g ports (second + 10)).regTest0 = σ.regs.regTest0 := by
      change (σ.run g ports (second + 10)).regs.noPulse.regTest0 = _
      rw [(sameProgram_run h (second + 10)).regs]
      rfl
    rw [CoreReg.destination_m0Axis]
    unfold CoreReg.destination
    rw [hword, htest]

/-- **The core is the machine.** In an undisturbed run every packet, with the
header that its first two beats make, is processed with the flows that the
packets in front of it have left, as the machine processes it; and it leaves
by the port of its row. -/
theorem refines_machine (h : σ.Undisturbed g ports)
    (hf : FirstBeat (σ.axisPorts g ports) first)
    (hs : Follows (σ.axisPorts g ports) first second) :
    (σ.arrival g ports second).header =
        headerOf (ports first).s0Axis (ports second).s0Axis (σ.run g ports second).timer
          (σ.run g ports second).random ∧
      σ.Processed g ports (σ.flowsBefore g ports second) second ∧
      σ.LeavesBy g ports first second
        (σ.ram3 (σ.run g ports (second + 4)).way.matchAddrTcam2) := by
  have hprocessed := processed_of_means h ⟨first, hf, hs⟩ (meansFlows h (second + 1))
  exact ⟨header_at h.toPaced hf hs, hprocessed,
    leavesBy_of_actionD3 h.toPaced hf hs hprocessed.action⟩

/-! ## Two packets of a flow -/

/-- A silent host never writes, nor reads. -/
theorem axi_of_silent (haxi : σ.axi.axiState = 0 ∧ σ.axi.writeEnable = false ∧
      σ.axi.readEnable = false)
    (hports : ∀ t, (ports t).axi.arvalid = false ∧ (ports t).axi.awvalid = false) (t : ℕ) :
    (σ.run g ports t).axi.axiState = 0 ∧ (σ.run g ports t).axi.writeEnable = false ∧
      (σ.run g ports t).axi.readEnable = false := by
  induction t with
  | zero => exact haxi
  | succ t ih =>
    change ((σ.run g ports t).axi.clock _ _).axiState = 0 ∧
      ((σ.run g ports t).axi.clock _ _).writeEnable = false ∧
      ((σ.run g ports t).axi.clock _ _).readEnable = false
    unfold AxiSlave.clock
    rw [ih.1, (hports t).1, (hports t).2]
    exact ⟨rfl, rfl, rfl⟩

/-- Without a write the third RAM stays, the core does not pause, and the mask
of the update key stays. -/
theorem kept_of_quiet (hquiet : ∀ t, (σ.run g ports t).writeEnable = false) (t : ℕ) :
    (σ.run g ports t).ram3 = σ.ram3 ∧ (σ.run g ports t).regs.pause = σ.regs.pause ∧
      (σ.run g ports t).regs.maskUpdate = σ.regs.maskUpdate := by
  induction t with
  | zero => exact ⟨rfl, rfl, rfl⟩
  | succ t ih =>
    rw [← ih.1, ← ih.2.1, ← ih.2.2]
    refine ⟨?_, ?_⟩
    · change (σ.run g ports t).writeRam _ _ _ = _
      funext i
      unfold writeRam
      rw [hquiet]
      rfl
    · change ((σ.run g ports t).regs.clock ((σ.run g ports t).regIn (ports t))).pause = _ ∧
        ((σ.run g ports t).regs.clock ((σ.run g ports t).regIn (ports t))).maskUpdate = _
      unfold RegisterFile.clock regIn
      rw [hquiet]
      cases (σ.run g ports t).way.controller.startd place8 <;> exact ⟨rfl, rfl⟩

/-- A program with one context for all packets. Those in state 5 go by the
first row, and the others by the last one, which puts the state. -/
def twoStates : FlowBlazeReg where
  way := CoreReg.start
  timer := 0
  random := 1
  axi := ⟨0, false, false, false, false, false, 0, false, false⟩
  regs := { RegisterFile.initial with maskLookup := fun _ => 0, maskUpdate := fun _ => 0 }
  cam1 := fun _ => none
  cam2 := fun i => if i.val = 0 then some (5, ~~~0xff) else none
  ram1 := fun _ => 0
  ram2 := fun _ => 5
  ram3 := fun a => if a.val = 0 then 0x01000000 else 0x0200ff00
  ram4 := fun _ => 0
  matchAddrTcam1 := 0
  flowStateTcam1 := 0
  flowStateTcam2 := 0
  sh4 := fun _ => 0
  rD := fun _ => 0
  rDD := fun _ => 0
  table := CuckooReg.initial
  pipealu :=
    ⟨fun _ _ => 0, fun _ => 0, fun _ => 0, fun _ => 0, fun _ => 0, 0, 0, fun _ => 0, fun _ => 0,
      fun _ => 0, fun _ => 0, fun _ => 0, fun _ => 0⟩

/-- Where no entry matches, the last row is presented. -/
def lastRow : FlowBlazeGenerics := ⟨0, Fin.last 7, Fin.last 31⟩

/-- Two packets of two beats, as fast as they are taken. -/
def twoOfAFlow (t : ℕ) : AxisIn := ⟨decide (t < 14), t == 1 || t == 13, true⟩

/-- These packets, and a silent host. -/
def twoOfAFlowPorts (t : ℕ) : FlowBlazeIn where
  s0Axis := ⟨0, 0, 0xffffffff, (twoOfAFlow t).tvalid, (twoOfAFlow t).tlast⟩
  m0AxisTready := true
  axi := ⟨false, 0, false, 0, false, false, false⟩
  wdata := 0

/-- The host is silent. -/
theorem writeEnable_twoOfAFlow (t : ℕ) :
    (twoStates.run lastRow twoOfAFlowPorts t).writeEnable = false :=
  (axi_of_silent ⟨rfl, rfl, rfl⟩ (fun _ => ⟨rfl, rfl⟩) t).2.1

/-- What holds of the words of both rows, and of zero, holds of every action. -/
theorem actionD3_twoOfAFlow {P : BitVec 32 → Prop} (hzero : P 0) (hfirst : P 0x01000000)
    (hother : P 0x0200ff00) (t : ℕ) :
    P (twoStates.run lastRow twoOfAFlowPorts t).way.actionD3 := by
  rw [way_run]
  refine CoreReg.actionD3_run (fun t a => ?_) hzero (fun _ => hzero) t
  change P ((twoStates.run lastRow twoOfAFlowPorts t).ram3 a)
  rw [(kept_of_quiet writeEnable_twoOfAFlow t).1]
  change P (if a.val = 0 then 0x01000000 else 0x0200ff00)
  split
  · exact hfirst
  · exact hother

/-- So nothing holds the packets up. -/
theorem ready_twoOfAFlow (t : ℕ) :
    (twoStates.configAt lastRow twoOfAFlowPorts t).enableDelay = true ∧
      (twoStates.way.run (twoStates.configAt lastRow twoOfAFlowPorts)
        (twoStates.wayPorts lastRow twoOfAFlowPorts) t).writeTready
          (twoStates.wayPorts lastRow twoOfAFlowPorts t) = true := by
  constructor
  · change (((twoStates.run lastRow twoOfAFlowPorts t).regs.pause == 0) : Bool) = true
    rw [(kept_of_quiet writeEnable_twoOfAFlow t).2.1]
    rfl
  · have hnone := @actionD3_twoOfAFlow (fun word => enableWrite word = false) (by decide)
      (by decide) (by decide) t
    rw [← way_run]
    exact CoreReg.writeTready_iff.mpr
      ⟨rfl, fun hextra => Bool.false_ne_true (hnone.symm.trans hextra.1)⟩

theorem axisPorts_twoOfAFlow : twoStates.axisPorts lastRow twoOfAFlowPorts = twoOfAFlow := by
  funext t
  obtain ⟨henable, hready⟩ := ready_twoOfAFlow t
  change (⟨_, _, if (twoStates.configAt lastRow twoOfAFlowPorts t).enableDelay then
    (twoStates.way.run (twoStates.configAt lastRow twoOfAFlowPorts)
      (twoStates.wayPorts lastRow twoOfAFlowPorts) t).writeTready
        (twoStates.wayPorts lastRow twoOfAFlowPorts t) else false⟩ : AxisIn) = _
  rw [henable, hready]
  rfl

/-- `WAIT5` lets the second packet wait. -/
theorem beats_twoOfAFlow : ∀ t < 14, Beat twoOfAFlow t ↔ t < 2 ∨ 12 ≤ t := by
  decide +kernel

theorem beat_twoOfAFlow : Beat twoOfAFlow t ↔ t = 0 ∨ t = 1 ∨ t = 12 ∨ t = 13 := by
  constructor
  · intro h
    have hlt : t < 14 := of_decide_eq_true h.1
    have hbeat := (beats_twoOfAFlow t hlt).mp h
    omega
  · intro h
    exact (beats_twoOfAFlow t (by omega)).mpr (by omega)

/-- The first packet. -/
theorem first_twoOfAFlow : FirstBeat twoOfAFlow 0 ∧ Follows twoOfAFlow 0 1 := by
  have hfirst : Beat twoOfAFlow 0 := beat_twoOfAFlow.mpr (.inl rfl)
  exact ⟨⟨hfirst, fun b hb => absurd hb.1 (Nat.not_lt_zero b)⟩, hfirst.lastBefore,
    beat_twoOfAFlow.mpr (.inr (.inl rfl))⟩

/-- The second one. -/
theorem second_twoOfAFlow : FirstBeat twoOfAFlow 12 ∧ Follows twoOfAFlow 12 13 := by
  have hfirst : Beat twoOfAFlow 12 := beat_twoOfAFlow.mpr (.inr (.inr (.inl rfl)))
  refine ⟨⟨hfirst, fun b hb => ?_⟩, hfirst.lastBefore,
    beat_twoOfAFlow.mpr (.inr (.inr (.inr rfl)))⟩
  rcases beat_twoOfAFlow.mp hb.2.1 with rfl | rfl | rfl | rfl
  · exact absurd (beat_twoOfAFlow.mpr (.inr (.inl rfl))) (hb.2.2 1 (by omega) (by omega))
  · rfl
  · exact absurd hb.1 (by omega)
  · exact absurd hb.1 (by omega)

/-- No other packet begins. -/
theorem firstBeat_twoOfAFlow (h : FirstBeat twoOfAFlow t) : t = 0 ∨ t = 12 := by
  rcases beat_twoOfAFlow.mp h.1 with rfl | rfl | rfl | rfl
  · exact .inl rfl
  · exact absurd (h.2 0 first_twoOfAFlow.2.1) Bool.false_ne_true
  · exact .inr rfl
  · exact absurd (h.2 12 second_twoOfAFlow.2.1) Bool.false_ne_true

theorem longPackets_twoOfAFlow : LongPackets twoOfAFlow := by
  intro t ht
  rcases firstBeat_twoOfAFlow ht with rfl | rfl <;> rfl

/-- The packets end with their second beats. -/
theorem last_twoOfAFlow {last : ℕ} (hp : PacketAt twoOfAFlow first second last) :
    last = second := by
  have hnot := hp.follows.not_first (longPackets_twoOfAFlow first hp.firstBeat)
  have hlast : (twoOfAFlow second).tlast = true := by
    rcases beat_twoOfAFlow.mp hp.follows.2 with rfl | rfl | rfl | rfl
    · exact absurd first_twoOfAFlow.1 hnot
    · rfl
    · exact absurd second_twoOfAFlow.1 hnot
    · rfl
  by_contra hne
  have hle := hp.le
  have hinner := hp.inner second (Nat.le_refl second) (by omega) hp.follows.2
  rw [hinner] at hlast
  cases hlast

/-- **The run is paced.** -/
theorem paced_twoOfAFlow : twoStates.Paced lastRow twoOfAFlowPorts where
  reset := CoreReg.afterReset_start
  long := by
    rw [axisPorts_twoOfAFlow]
    exact longPackets_twoOfAFlow
  apart := by
    rw [axisPorts_twoOfAFlow]
    refine apart_of_ends longPackets_twoOfAFlow fun first second last hp => .inl ?_
    have hlast := last_twoOfAFlow hp
    omega
  quiet := writeEnable_twoOfAFlow
  locals _ l := BitVec.getLsbD_zero

/-- All packets have one key. -/
theorem calm_twoOfAFlow : Calm twoStates.table (twoStates.tablePorts lastRow twoOfAFlowPorts) := by
  have haxi := @axi_of_silent lastRow twoStates twoOfAFlowPorts ⟨rfl, rfl, rfl⟩
    fun _ => ⟨rfl, rfl⟩
  refine @calm_of_oneKey _ _ 0 CuckooReg.emptyTables_initial (fun t => ?_) (fun _ => rfl)
    (fun t => ?_) (fun t => ?_) fun t _ => ?_
  · change ((twoStates.run lastRow twoOfAFlowPorts t).axi.readEnable && _) = false
    rw [(haxi t).2.2]
    rfl
  · change ((twoStates.run lastRow twoOfAFlowPorts t).axi.writeEnable && _) = false
    rw [(haxi t).2.1]
    rfl
  · change (_ && ((twoStates.run lastRow twoOfAFlowPorts t).way.actionD3.extractLsb' 0 16 ==
      0xFFFF)) = false
    have hnone := @actionD3_twoOfAFlow (fun word => (word.extractLsb' 0 16 == 0xFFFF) = false)
      (by decide) (by decide) (by decide) t
    rw [hnone, Bool.and_false]
  · change _ &&& maskOf (twoStates.run lastRow twoOfAFlowPorts t).regs.maskUpdate = 0
    rw [(kept_of_quiet writeEnable_twoOfAFlow t).2.2]
    exact BitVec.and_zero

/-- **So it is undisturbed.** -/
theorem undisturbed_twoOfAFlow : twoStates.Undisturbed lastRow twoOfAFlowPorts :=
  have hmap := mapRun_tablePorts paced_twoOfAFlow
  { paced_twoOfAFlow with
    empty := CuckooReg.emptyTables_initial
    evicted := fun t => (stash_run CuckooReg.emptyTables_initial hmap calm_twoOfAFlow t).2
    clean := cleanMap_of_calm CuckooReg.emptyTables_initial hmap calm_twoOfAFlow
    search := cleanSearch_of_calm CuckooReg.emptyTables_initial hmap calm_twoOfAFlow }

/-- The line moves behind the second packet. -/
theorem lineShifts_twoOfAFlow (hlt : 13 < t) (hle : t ≤ 13 + 10) :
    twoStates.way.lineShifts (twoStates.configAt lastRow twoOfAFlowPorts)
      (twoStates.wayPorts lastRow twoOfAFlowPorts) t = true := by
  have hstate : ∀ t ≤ 23, 13 < t → (Controller.run twoOfAFlow t).currState ≠ .pkt1 := by
    decide +kernel
  refine CoreReg.lineShifts_iff.mpr ⟨CoreReg.slotDelayer_iff.mpr fun hpkt1 => ?_,
    ready_twoOfAFlow t⟩
  rw [← way_run, controller_at paced_twoOfAFlow, axisPorts_twoOfAFlow] at hpkt1
  exact absurd hpkt1 (hstate t hle hlt)

/-- The second packet finds what the first one has left, and leaves. -/
theorem refines_machine_twoOfAFlow :
    (twoStates.arrival lastRow twoOfAFlowPorts 13).header =
        headerOf (twoOfAFlowPorts 12).s0Axis (twoOfAFlowPorts 13).s0Axis
          (twoStates.run lastRow twoOfAFlowPorts 13).timer
          (twoStates.run lastRow twoOfAFlowPorts 13).random ∧
      twoStates.Processed lastRow twoOfAFlowPorts
        (twoStates.flowsBefore lastRow twoOfAFlowPorts 13) 13 ∧
      twoStates.way.Delivers (twoStates.configAt lastRow twoOfAFlowPorts)
        (twoStates.wayPorts lastRow twoOfAFlowPorts) 12 (13 + 10) := by
  have hpacket : FirstBeat (twoStates.axisPorts lastRow twoOfAFlowPorts) 12 ∧
      Follows (twoStates.axisPorts lastRow twoOfAFlowPorts) 12 13 := by
    rw [axisPorts_twoOfAFlow]
    exact second_twoOfAFlow
  obtain ⟨hheader, hprocessed, hleaves⟩ :=
    refines_machine undisturbed_twoOfAFlow hpacket.1 hpacket.2
  exact ⟨hheader, hprocessed, (hleaves fun t hlt hle => lineShifts_twoOfAFlow hlt hle).1⟩

end FlowBlazeReg

end Hw

end FlowBlaze
