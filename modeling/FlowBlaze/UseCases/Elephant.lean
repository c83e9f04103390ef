import FlowBlaze.UseCases.Loading
/-!
# Elephant flows — `UseCases/elephant.xl`

A flow that sent many packets is to be marked. The first packet of all is
compared with a threshold that no packet has set yet, and zero is not
less than zero: it is taken for the packet that reached the threshold,
and from the second packet on all are marked.
-/

namespace FlowBlaze

namespace UseCases

open Common Sw Xl

/-! ## The program -/

/-- `elephant.xl`. -/
def elephant : ProgramContext :=
  .stageProgram []
    [⟨"elephant",
      [.register false ["counter"], .register true ["threshold"],
        .macroAction "forwardElephantPacket"
          [call "setField" [fieldElem "ipv4" "tos", decimalInteger 255, decimalInteger 150],
            call "sendPacket" [decimalInteger 255, decimalInteger 1]]],
      [call "setFlowKey" [fieldElem "ipv4" "src", fieldElem "ipv4" "dst"]],
      [⟨true, "default", [assign "threshold" (.term (decimalInteger 150))],
        [⟨"pktRcvd", [],
          [⟨[⟨.xtraLess, .identifier "counter", .identifier "threshold"⟩],
            [assign "counter" (.binary .plus (.identifier "counter") (decimalInteger 1)),
              call "sendPacket" [decimalInteger 255, decimalInteger 1]]⟩,
          ⟨[⟨.xtraGreaterEq, .identifier "counter", .identifier "threshold"⟩],
            [call "sendPacket" [decimalInteger 255, decimalInteger 1],
              call "setNextState" [.identifier "elephant_detected"]]⟩]⟩]⟩,
      ⟨false, "elephant_detected", [],
        [⟨"pktRcvd", [call "forwardElephantPacket" []], []⟩]⟩]⟩]

/-- `threshold = 150`. -/
def setThreshold : XfsmAction :=
  ⟨.xfsmUpdate, .xfsmSum, .xfsmConstant, 150, .xfsmConstant, 0, .xfsmRegister, 0, 0,
    .xfsmGlobalRegister⟩

/-- `counter = counter + 1`. -/
def countPacket : XfsmAction :=
  ⟨.xfsmUpdate, .xfsmSum, .xfsmRegister, 0, .xfsmConstant, 1, .xfsmRegister, 0, 0, .xfsmRegister⟩

/-- `setField(ipv4.tos, PKT, 150)`. -/
def setTos : XfsmAction :=
  ⟨.xfsmSetfield, .xfsmSum, .xfsmHdrField, 6, .xfsmConstant, 255, .xfsmConstant, 150, 0,
    .xfsmRegister⟩

/-- **What is loaded** of it. -/
def elephantTable : LoadedTable where
  conditionsNumber := 2
  conditions :=
    [(0, ⟨.xfsmRegister, .xfsmGlobalRegister, 0, 0, .xfsmLess⟩),
      (1, ⟨.xfsmRegister, .xfsmGlobalRegister, 0, 0, .xfsmGreaterEq⟩)]
  initialState := 0
  tableSize := 5
  entries :=
    [⟨0, 0, 255, asks [0], [setThreshold, countPacket, sendPacket 1]⟩,
      ⟨0, 1, 255, asks [1], [setThreshold, sendPacket 1]⟩,
      ⟨1, 1, 255, asks [], [setTos, sendPacket 1]⟩,
      ⟨1, 1, 255, asks [], []⟩,
      ⟨1, 1, 255, asks [], []⟩]
  lookupKey := []
  biflowNo := 0

theorem loadedTables_elephant : loadedTables keyOrders elephant = some [elephantTable] := by
  decide +kernel

theorem singleEvents_elephant : singleEvents elephant = true := rfl

/-! ## What a packet does -/

section Packets

variable {H : SlotMap FlowKey} {HE : SlotMap Sw.State} {t : XfsmTable H HE}

/-- The global registers, once a packet has set the threshold. -/
def thresholdSet : Registers := fun j => if j.val = 0 then 150 else 0

/-- The row of the packet that reached the threshold. -/
def reachedRow : XfsmTableEntry := ⟨0, 1, 255, asks [1], [setThreshold, sendPacket 1]⟩

/-- The row of a packet of an elephant. -/
def detectedRow : XfsmTableEntry := ⟨1, 1, 255, asks [], [setTos, sendPacket 1]⟩

/-- A packet whose ToS is set. -/
def withTos (M : Mem) : Mem :=
  { M with packet.mbuf.data := M.packet.mbuf.data.set 15 150 }

/-- What the first packet does. -/
theorem executed_reached (fields : PktFields) (M : Mem) :
    xfsmExecuteActions fields reachedRow.actions
      ⟨fun _ => 0, fun _ => 0, false, M, 0, 0, 0, []⟩ =
      some ⟨fun _ => 0, thresholdSet, false, M, 255, 1, 0, [.txBuffer 0]⟩ := by
  have hset : Exec.step fields ⟨fun _ => 0, fun _ => 0, false, M, 0, 0, 0, []⟩ setThreshold =
      some ⟨fun _ => 0, thresholdSet, false, M, 150, 0, 0, []⟩ := rfl
  unfold xfsmExecuteActions reachedRow
  rw [if_pos (by simp [maxActions]), List.foldlM_cons, hset, Option.bind_eq_bind,
    Option.bind_some, List.foldlM_cons, step_sendPacket]
  rfl

/-- **The first packet** meets the row of the threshold: zero is not less
than zero. -/
theorem meets_reached (hHE : HE.AcceptsBelow) (h : elephantTable.create H HE = some t) (M : Mem)
    (fields : PktFields) :
    MeetsRow t M fields (fun _ => 0) (fun _ => 0) headState reachedRow
      ⟨fun _ => 0, thresholdSet, false, M, 255, 1, 0, [.txBuffer 0]⟩ := by
  have hconditions : elephantTable.conditionArray =
      some (elephantTable.conditions.map Prod.snd) := rfl
  refine meets_of_create hHE (by decide) h (r := fun i => if i = 0 then .xfsmFalse else .xfsmTrue)
    hconditions rfl (fun i c hc => ?_) rfl (executed_reached fields M) rfl
  match i with
  | 0 =>
    cases hc
    rfl
  | 1 =>
    cases hc
    rfl
  | i + 2 => cases hc

/-- What a packet of an elephant does: its ToS is set. -/
theorem executed_detected {fields : PktFields} {M : Mem}
    (htos : fields .ipv4Tos = some (.data M.packet.number 15))
    (hlength : 15 < M.packet.mbuf.data.length) :
    ∃ events, xfsmExecuteActions fields detectedRow.actions
      ⟨fun _ => 0, thresholdSet, false, M, 0, 0, 0, []⟩ =
      some ⟨fun _ => 0, thresholdSet, false, withTos M, 255, 1, 0, events⟩ := by
  have hstore : M.copy (.data M.packet.number 15) 150 1 = some (withTos M) := by
    have hbyte : M.storeByte (hostByte 150 0) (.data M.packet.number 15) 0 = some (withTos M) :=
      if_pos ⟨rfl, hlength⟩
    unfold Mem.copy
    rw [List.range_one, List.foldlM_cons, hbyte]
    rfl
  have hset : ∃ events, Exec.step fields ⟨fun _ => 0, thresholdSet, false, M, 0, 0, 0, []⟩ setTos =
      some ⟨fun _ => 0, thresholdSet, false, withTos M, 6, 255, 150, events⟩ := by
    have hfetch : Exec.fetch fields setTos ⟨fun _ => 0, thresholdSet, false, M, 0, 0, 0, []⟩ =
        some ⟨fun _ => 0, thresholdSet, false, M, 6, 255, 150, []⟩ := rfl
    refine ⟨fields.touch .ipv4Tos, ?_⟩
    have hfield : HdrField.ofNumber (6 : Word64).toNat = some .ipv4Tos := rfl
    unfold Exec.step
    rw [hfetch, Option.bind_some]
    change Exec.setfield fields ⟨fun _ => 0, thresholdSet, false, M, 6, 255, 150, []⟩ = _
    unfold Exec.setfield
    dsimp only
    rw [hfield, Option.bind_some, htos]
    change (M.copy (.data M.packet.number 15) 150 1).map _ = _
    rw [hstore]
    rfl
  obtain ⟨events, hset⟩ := hset
  unfold xfsmExecuteActions detectedRow
  rw [if_pos (by simp [maxActions]), List.foldlM_cons, hset, Option.bind_eq_bind,
    Option.bind_some, List.foldlM_cons, step_sendPacket]
  exact ⟨_, rfl⟩

/-- **A later packet** is one of an elephant. -/
theorem meets_detected (hHE : HE.AcceptsBelow) (h : elephantTable.create H HE = some t)
    {M : Mem} {fields : PktFields} (htos : fields .ipv4Tos = some (.data M.packet.number 15))
    (hlength : 15 < M.packet.mbuf.data.length) :
    ∃ X, MeetsRow t M fields thresholdSet (fun _ => 0) 1 detectedRow X ∧
      X.globalRegisters = thresholdSet ∧ X.registers = (fun _ => 0) ∧ X.mem = withTos M := by
  obtain ⟨events, hexecuted⟩ := executed_detected htos hlength
  have hconditions : elephantTable.conditionArray =
      some (elephantTable.conditions.map Prod.snd) := rfl
  refine ⟨_, meets_of_create hHE (by decide) h
    (r := fun i => if i = 0 then .xfsmTrue else .xfsmFalse)
    hconditions rfl (fun i c hc => ?_) rfl hexecuted rfl, rfl, rfl, rfl⟩
  match i with
  | 0 =>
    cases hc
    rfl
  | 1 =>
    cases hc
    rfl
  | i + 2 => cases hc

end Packets

/-! ## Runs -/

/-- The flow of a packet: its source and its destination. -/
def flowOf (rx : Received) : List Byte := (rx.mbuf.data.drop 26).take 8

/-- **The program set the ToS of a packet to 150**: a row that sets the
field was executed, and the packet has it. -/
def Marked {H : SlotMap FlowKey} {HE : SlotMap Sw.State} (visits : List (Visited H HE)) : Prop :=
  ∃ V ∈ visits, (∃ row ∈ V.row, ∃ act ∈ row.actions, act.type = .xfsmSetfield ∧
    act.type1 = .xfsmHdrField ∧ act.value1 = BitVec.ofNat 64 HdrField.ipv4Tos.number) ∧
    V.mem.packet.mbuf.data[15]? = some 150

/-- How many packets of the flow of a packet came before it. -/
def earlierOfFlow (rxs : List Received) (i : ℕ) (rx : Received) : ℕ :=
  (rxs.take i).countP fun rx' => flowOf rx' = flowOf rx

/-- **Elephants are marked**: the packets are served, none of the first
150 of a flow is marked, and each from the 152nd on is. -/
def MarksElephants {H : SlotMap FlowKey} {HE : SlotMap Sw.State} (tables : List (XfsmTable H HE))
    (rxs : List Received) : Prop :=
  ∃ served W, (Worker.start tables).Runs rxs served W ∧
    ∀ i rx visits, rxs[i]? = some rx → served[i]? = some visits →
      (earlierOfFlow rxs i rx < 150 → ¬ Marked visits) ∧
      (151 ≤ earlierOfFlow rxs i rx → Marked visits)

section Runs

variable {H : SlotMap FlowKey} {HE : SlotMap Sw.State} {t : XfsmTable H HE} {W : Worker H HE}
  {rx : Received} {rxs : List Received}

theorem keyless_elephant (h : elephantTable.create H HE = some t) : t.Keyless :=
  keyless_of_create rfl rfl h

/-- The first packet is not marked. -/
theorem serves_reached (hHE : HE.AcceptsBelow) (h : elephantTable.create H HE = some t)
    (hsolo : W.Solo t (fun _ => 0) (fun _ => 0) headState) (hrx : rx.Parses) :
    ∃ W' visits, W.Serves rx W' visits ∧ W'.Solo t thresholdSet (fun _ => 0) 1 ∧
      ¬ Marked visits := by
  obtain ⟨W', V, row, X, hserves, hsolo', hrow, -, -, rfl, rfl⟩ := solo_serves
    (P := fun row X => row = reachedRow ∧ X =
      ⟨fun _ => 0, thresholdSet, false, W.sees rx, 255, 1, 0, [.txBuffer 0]⟩)
    hsolo (keyless_elephant h) hrx fun b before =>
      ⟨_, _, rfl, meets_reached hHE h (W.sees rx) _, rfl, rfl⟩
  refine ⟨W', [V], hserves, hsolo', ?_⟩
  rintro ⟨V', hV', ⟨row, hrow', act, hact, hsetfield, -⟩, -⟩
  rw [List.mem_singleton.mp hV', hrow] at hrow'
  cases hrow'
  have hnone : ∀ act ∈ reachedRow.actions, act.type ≠ .xfsmSetfield := by decide
  exact hnone act hact hsetfield

/-- The bytes the parser reads of a packet lie behind its ToS. -/
theorem tos_of_parses (hrx : rx.Parses) : 15 < rx.mbuf.data.length := by
  obtain ⟨b, hb⟩ := Option.ne_none_iff_exists'.mp hrx
  obtain ⟨proto, hproto, -⟩ := Option.bind_eq_some_iff.mp hb
  have hlt : 23 < rx.mbuf.data.length := (List.getElem?_eq_some_iff.mp hproto).1
  omega

/-- Every later packet is. -/
theorem serves_detected (hHE : HE.AcceptsBelow) (h : elephantTable.create H HE = some t)
    (hsolo : W.Solo t thresholdSet (fun _ => 0) 1) (hrx : rx.Parses) :
    ∃ W' visits, W.Serves rx W' visits ∧ W'.Solo t thresholdSet (fun _ => 0) 1 ∧
      Marked visits := by
  have hlength := tos_of_parses hrx
  obtain ⟨W', V, row, X, hserves, hsolo', hrow, hmem, -, rfl, hglobals, hregisters, hX⟩ :=
    solo_serves (P := fun row X => row = detectedRow ∧ X.globalRegisters = thresholdSet ∧
      X.registers = (fun _ => 0) ∧ X.mem = withTos (W.sees rx))
    hsolo (keyless_elephant h) hrx fun b before => by
      obtain ⟨X, hmeets, hX⟩ := @meets_detected _ _ _ hHE h (W.sees rx)
        ((W.sees rx).packet.overlay before b) rfl hlength
      exact ⟨_, X, rfl, hmeets, rfl, hX⟩
  rw [hglobals, hregisters] at hsolo'
  refine ⟨W', [V], hserves, hsolo', V, List.mem_singleton_self V,
    ⟨detectedRow, hrow, setTos, List.mem_cons_self, rfl, rfl, rfl⟩, ?_⟩
  rw [hmem, hX]
  exact List.getElem?_set_self hlength

/-- **Elephants everywhere**: once a packet was served, all that follow are
marked. -/
theorem runs_detected (hHE : HE.AcceptsBelow) (h : elephantTable.create H HE = some t)
    (hsolo : W.Solo t thresholdSet (fun _ => 0) 1) (hrxs : ∀ rx ∈ rxs, rx.Parses) :
    ∃ served W', W.Runs rxs served W' ∧ ∀ visits ∈ served, Marked visits := by
  induction rxs generalizing W with
  | nil => exact ⟨[], W, .nil W, fun visits hvisits => by cases hvisits⟩
  | cons rx rxs ih =>
    obtain ⟨W', visits, hserves, hsolo', hmarked⟩ :=
      serves_detected hHE h hsolo (hrxs rx List.mem_cons_self)
    obtain ⟨served, W'', hruns, hall⟩ := ih hsolo' fun rx hrx =>
      hrxs rx (List.mem_cons_of_mem _ hrx)
    exact ⟨visits :: served, W'', .cons hserves hruns, List.forall_mem_cons.mpr ⟨hmarked, hall⟩⟩

/-- **A run**: the first packet is not marked, and all others are. -/
theorem runs_elephant (hH : H.AcceptsBelow) (hHE : HE.AcceptsBelow)
    (h : elephantTable.create H HE = some t) (hrxs : ∀ rx ∈ rxs, rx.Parses) :
    ∃ served W, (Worker.start [t]).Runs rxs served W ∧
      ∀ i visits, served[i]? = some visits → (Marked visits ↔ 0 < i) := by
  cases rxs with
  | nil => exact ⟨[], _, .nil _, fun i visits hi => by cases hi⟩
  | cons rx rxs =>
    obtain ⟨W', visits, hserves, hsolo', hunmarked⟩ :=
      serves_reached hHE h (solo_start hH h) (hrxs rx List.mem_cons_self)
    obtain ⟨served, W'', hruns, hall⟩ := runs_detected hHE h hsolo' fun rx hrx =>
      hrxs rx (List.mem_cons_of_mem _ hrx)
    refine ⟨visits :: served, W'', .cons hserves hruns, fun i visits' hi => ?_⟩
    cases i with
    | zero =>
      cases hi
      exact iff_of_false hunmarked (lt_irrefl 0)
    | succ i => exact iff_of_true (hall visits' (List.mem_of_getElem? hi)) (Nat.succ_pos i)

variable {orders : Orders} {loaded : List LoadedTable} {tables : List (XfsmTable H HE)}

/-- The second packet comes too early to be marked. -/
theorem not_marksElephants (hH : H.AcceptsBelow) (hHE : HE.AcceptsBelow)
    (h : compileAndLoad H HE orders elephant = some (loaded, tables))
    (hrxs : ∀ rx ∈ rxs, rx.Parses) (htwo : 2 ≤ rxs.length) : ¬ MarksElephants tables rxs := by
  obtain ⟨t, ht, rfl⟩ := table_of_load singleEvents_elephant loadedTables_elephant h
  rintro ⟨served, W, hruns, hmarks⟩
  obtain ⟨served', W', hruns', hmarked⟩ := runs_elephant hH hHE ht hrxs
  obtain ⟨rfl, -⟩ := runs_unique hruns hruns'
  have hlength := hruns.length_eq
  obtain ⟨rx, hrx⟩ : ∃ rx, rxs[1]? = some rx := ⟨_, List.getElem?_eq_getElem htwo⟩
  obtain ⟨visits, hvisits⟩ : ∃ visits, served[1]? = some visits :=
    ⟨_, List.getElem?_eq_getElem (by omega)⟩
  refine (hmarks 1 rx visits hrx hvisits).1 ?_ ((hmarked 1 visits hvisits).mpr Nat.one_pos)
  have hle : earlierOfFlow rxs 1 rx ≤ (rxs.take 1).length := List.countP_le_length
  rw [List.length_take] at hle
  omega

/-- **Elephants are marked in runs of one packet at most.** -/
theorem marksElephants_iff (hH : H.AcceptsBelow) (hHE : HE.AcceptsBelow)
    (h : compileAndLoad H HE orders elephant = some (loaded, tables))
    (hrxs : ∀ rx ∈ rxs, rx.Parses) : MarksElephants tables rxs ↔ rxs.length ≤ 1 := by
  constructor
  · intro hmarks
    by_contra hlong
    exact not_marksElephants hH hHE h hrxs (by omega) hmarks
  · intro hshort
    obtain ⟨t, ht, rfl⟩ := table_of_load singleEvents_elephant loadedTables_elephant h
    obtain ⟨served, W, hruns, hmarked⟩ := runs_elephant hH hHE ht hrxs
    refine ⟨served, W, hruns, fun i rx visits hrx hvisits => ?_⟩
    have hi : i < rxs.length := (List.getElem?_eq_some_iff.mp hrx).1
    obtain rfl : i = 0 := by omega
    exact ⟨fun _ => fun hm => absurd ((hmarked 0 visits hvisits).mp hm) (lt_irrefl 0),
      fun hmany => absurd hmany (by decide : ¬ 151 ≤ 0)⟩

end Runs

/-- A packet of a TCP connection. -/
def elephantPacket : Received := tcpPacket 0 0 1 [0, 80]

/-- One packet of it is not marked, as it should be. -/
theorem marksElephants_one :
    ∃ loaded tables, compileAndLoad (listSlotMap FlowKey)
      (listSlotMap Sw.State) keyOrders elephant =
        some (loaded, tables) ∧ MarksElephants tables [elephantPacket] := by
  have hcreate : (elephantTable.create (listSlotMap FlowKey)
      (listSlotMap Sw.State)).isSome = true := rfl
  obtain ⟨loaded, tables, hload⟩ := exists_load loadedTables_elephant hcreate
  have hparses : ∀ rx ∈ [elephantPacket], rx.Parses := by
    intro rx hrx
    rw [List.mem_singleton.mp hrx]
    unfold Received.Parses
    decide
  exact ⟨loaded, tables, hload, (marksElephants_iff (.of_neverFull (listSlotMap_neverFull _))
    (.of_neverFull (listSlotMap_neverFull _)) hload hparses).mpr le_rfl⟩

/-- **The second packet** of the first connection is taken for one of an
elephant. -/
theorem not_marksElephants_two :
    ∃ loaded tables, compileAndLoad (listSlotMap FlowKey)
      (listSlotMap Sw.State) keyOrders elephant =
        some (loaded, tables) ∧ ¬ MarksElephants tables [elephantPacket, elephantPacket] := by
  have hcreate : (elephantTable.create (listSlotMap FlowKey)
      (listSlotMap Sw.State)).isSome = true := rfl
  obtain ⟨loaded, tables, hload⟩ := exists_load loadedTables_elephant hcreate
  refine ⟨loaded, tables, hload, not_marksElephants (.of_neverFull (listSlotMap_neverFull _))
    (.of_neverFull (listSlotMap_neverFull _)) hload (fun rx hrx => ?_) le_rfl⟩
  obtain rfl : rx = elephantPacket := by
    rcases List.mem_cons.mp hrx with h | h
    · exact h
    · exact List.mem_singleton.mp h
  unfold Received.Parses
  decide

end UseCases

end FlowBlaze
