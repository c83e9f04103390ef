import FlowBlaze.Sw.StageLoop
import FlowBlaze.Xl.MacroActions
/-!
# Packets that go round and round

A program may send a packet from a stage to any stage, the same one
included, and the compiler takes it as it is. A packet that comes back to
no stage with its flow in a state in which it was there before leaves, for
there are only so many. One that meets a row that leads back and changes
nothing never does.
-/

namespace FlowBlaze

namespace Sw

open Common

section Leaves

variable {H : SlotMap FlowKey} {HE : SlotMap State} {L L' : LoopState H HE} {W : Worker H HE}
  {rx : Received} {packet : Packet} {stage : ℕ} {V : Visited H HE} {next : Byte}

/-! ## The end of the loop -/

/-- **The packet leaves**: from here the loop over the stages comes to its
end, and each visit has a result. -/
def LoopState.Leaves (L : LoopState H HE) : Prop :=
  ∀ rx packet stage, L.packet = some (rx, packet, stage) →
    ∃ fuel, (Worker.walk rx fuel L.worker packet stage).isSome = true

/-- A packet that is not on its way to a stage leaves. -/
theorem leaves_nullStage (W : Worker H HE) (rx : Received) (packet : Packet) :
    (⟨W, some (rx, packet, nullStage)⟩ : LoopState H HE).Leaves := by
  intro rx' packet' stage h
  cases h
  exact ⟨1, rfl⟩

/-- After the last visit a packet leaves. -/
theorem leaves_of_visit (hvisit : W.visit rx packet stage = some V) (hnext : V.next = none) :
    (⟨W, some (rx, packet, stage)⟩ : LoopState H HE).Leaves := by
  intro rx' packet' stage' h
  cases h
  refine ⟨1, ?_⟩
  unfold Worker.walk
  split
  · rfl
  · simp only [hvisit, hnext, Option.bind_eq_bind, Option.bind_some]
    rfl

/-- It leaves if it leaves from the stage that it goes on to. -/
theorem leaves_of_goesOn (hvisit : W.visit rx packet stage = some V) (hnext : V.next = some next)
    (h : (⟨W.after stage V, some (rx, V.mem.packet, next.toNat)⟩ : LoopState H HE).Leaves) :
    (⟨W, some (rx, packet, stage)⟩ : LoopState H HE).Leaves := by
  intro rx' packet' stage' heq
  cases heq
  obtain ⟨fuel, hwalk⟩ := h _ _ _ rfl
  obtain ⟨⟨W', visits⟩, hwalk⟩ := Option.isSome_iff_exists.mp hwalk
  refine ⟨fuel + 1, ?_⟩
  unfold Worker.walk
  split
  · rfl
  · simp only [hvisit, hnext, Option.bind_eq_bind, Option.bind_some, hwalk]
    rfl

/-- **A packet that leaves** goes on only so many times. -/
theorem acc_of_leaves (h : L.Leaves) : Acc (fun L' L : LoopState H HE => L.GoesOn L') L := by
  obtain ⟨W, _ | ⟨rx, packet, stage⟩⟩ := L
  · exact Acc.intro _ fun L' hgoes => by cases hgoes
  · obtain ⟨fuel, hwalk⟩ := h _ _ _ rfl
    clear h
    induction fuel generalizing W packet stage with
    | zero => cases hwalk
    -- each iteration takes one off the fuel that sufficed
    | succ fuel ih =>
      refine Acc.intro _ fun L' hgoes => ?_
      cases hgoes with
      | visit hstage hvisit hnext =>
        refine ih _ _ _ ?_
        unfold Worker.walk at hwalk
        rw [if_neg hstage] at hwalk
        simp only [hvisit, hnext, Option.bind_eq_bind, Option.bind_some,
          Option.isSome_bind] at hwalk
        exact (Option.any_eq_true _ _).mp hwalk |>.elim fun _ hrest =>
          Option.isSome_iff_exists.mpr ⟨_, hrest.1⟩

/-! ## Where a packet is -/

/-- **Where a packet is**: the stage, and the state of its flow there. -/
def LoopState.place (L : LoopState H HE) : Option (ℕ × State) := do
  let (rx, packet, stage) ← L.packet
  let T ← L.worker.tables stage
  let R ← T.prepare (rx.mem packet) L.worker.key
  return (stage, R.matchInst.currentState)

/-- The visit that comes next has a result: the stage is a table, the
packet can be parsed, its flow has an instance, and so on. -/
def LoopState.Defined (L : LoopState H HE) : Prop :=
  ∀ rx packet stage, L.packet = some (rx, packet, stage) → stage ≠ nullStage →
    (L.worker.visit rx packet stage).isSome = true

/-- **A packet that goes round in no circle**: on its way from here each
visit has a result, and it comes back to no place where it was. -/
structure LoopState.GoesStraight (L : LoopState H HE) : Prop where
  defined : ∀ L', Relation.ReflTransGen LoopState.GoesOn L L' → L'.Defined
  straight : ∀ L' L'', Relation.ReflTransGen LoopState.GoesOn L L' →
    Relation.TransGen LoopState.GoesOn L' L'' → L''.place ≠ L'.place

/-- The places to come. -/
def LoopState.ahead (L : LoopState H HE) : Set (ℕ × State) :=
  {p | ∃ L', Relation.TransGen LoopState.GoesOn L L' ∧ L'.place = some p}

/-- A visit with a result is of some place. -/
theorem exists_place (hvisit : W.visit rx packet stage = some V) :
    ∃ s, (⟨W, some (rx, packet, stage)⟩ : LoopState H HE).place = some (stage, s) := by
  obtain ⟨T, hT, hvisit⟩ := table_of_visit hvisit
  obtain ⟨R, hprepare, -⟩ := Option.bind_eq_some_iff.mp hvisit
  refine ⟨R.matchInst.currentState, ?_⟩
  unfold LoopState.place
  simp only [hT, hprepare, Option.bind_eq_bind, Option.bind_some, Option.pure_def]

/-- There are only so many places to come. -/
theorem finite_ahead (L : LoopState H HE) : L.ahead.Finite := by
  have hbytes : Finite State := Finite.of_injective BitVec.toFin fun _ _ => BitVec.eq_of_toFin_eq
  refine ((Set.finite_lt_nat 256).prod (Set.finite_univ (α := State))).subset ?_
  rintro ⟨stage, s⟩ ⟨L', hgoes, hplace⟩
  obtain ⟨mid, -, hlast⟩ := Relation.TransGen.tail'_iff.mp hgoes
  cases hlast with
  | @visit _ _ _ _ V next _ _ _ =>
    obtain ⟨T, -, hplace⟩ := Option.bind_eq_some_iff.mp hplace
    obtain ⟨R, -, hplace⟩ := Option.bind_eq_some_iff.mp hplace
    cases hplace
    exact ⟨next.isLt, trivial⟩

/-- What goes straight does so after a visit. -/
theorem GoesStraight.tail (h : L.GoesStraight) (hgoes : L.GoesOn L') : L'.GoesStraight :=
  ⟨fun M hM => h.defined M (.head hgoes hM), fun M M' hM => h.straight M M' (.head hgoes hM)⟩

/-- **Each visit leaves fewer places to come.** -/
theorem ncard_ahead_lt (h : L.GoesStraight) (hgoes : L.GoesOn L') {p : ℕ × State}
    (hplace : L'.place = some p) : L'.ahead.ncard < L.ahead.ncard := by
  refine Set.ncard_lt_ncard ⟨?_, fun hsub => ?_⟩ (finite_ahead L)
  · rintro q ⟨M, hM, hq⟩
    exact ⟨M, .head hgoes hM, hq⟩
  · obtain ⟨M, hM, hp⟩ := hsub ⟨L', .single hgoes, hplace⟩
    exact h.straight L' M (.single hgoes) hM (hp.trans hplace.symm)

/-- **A packet that goes round in no circle leaves.** -/
theorem leaves_of_goesStraight (h : L.GoesStraight) : L.Leaves := by
  -- on the number of places that are still to come
  induction hn : L.ahead.ncard using Nat.strong_induction_on generalizing L with
  | _ n ih =>
    obtain ⟨W, _ | ⟨rx, packet, stage⟩⟩ := L
    · intro rx packet stage hnone
      cases hnone
    · by_cases hnull : stage = nullStage
      · subst hnull
        exact leaves_nullStage W rx packet
      · obtain ⟨V, hvisit⟩ :=
          Option.isSome_iff_exists.mp (h.defined _ .refl rx packet stage rfl hnull)
        cases hnext : V.next with
        | none => exact leaves_of_visit hvisit hnext
        | some next =>
          have hgoes := LoopState.GoesOn.visit hnull hvisit hnext
          have htail := GoesStraight.tail h hgoes
          -- the place of the next visit is one of those to come, and it comes no more
          refine leaves_of_goesOn hvisit hnext ?_
          by_cases hnull' : next.toNat = nullStage
          · rw [hnull']
            exact leaves_nullStage _ rx _
          · obtain ⟨V', hvisit'⟩ :=
              Option.isSome_iff_exists.mp (htail.defined _ .refl _ _ _ rfl hnull')
            obtain ⟨s, hplace⟩ := exists_place hvisit'
            exact ih _ (hn ▸ ncard_ahead_lt h hgoes hplace) htail rfl

/-- An iteration is followed by one other. -/
theorem goesOn_unique {L'' : LoopState H HE} (h : L.GoesOn L') (h' : L.GoesOn L'') : L' = L'' := by
  cases h with
  | visit _ hvisit hnext =>
    cases h' with
    | visit _ hvisit' hnext' =>
      cases hvisit.symm.trans hvisit'
      cases hnext.symm.trans hnext'
      rfl

/-- No way leads from where a packet goes on no more. -/
theorem eq_of_end (hend : ∀ L', ¬L.GoesOn L')
    (h : Relation.ReflTransGen LoopState.GoesOn L L') : L' = L := by
  rcases h.cases_head with rfl | ⟨M, hM, -⟩
  · rfl
  · exact absurd hM (hend M)

/-- A way begins here, or is one from the next stage. -/
theorem path_of_goesOn {M : LoopState H HE} (hgoes : L.GoesOn L')
    (h : Relation.ReflTransGen LoopState.GoesOn L M) :
    M = L ∨ Relation.ReflTransGen LoopState.GoesOn L' M := by
  rcases h.cases_head with rfl | ⟨N, hN, hrest⟩
  · exact .inl rfl
  · exact .inr (goesOn_unique hN hgoes ▸ hrest)

/-- A packet that goes on no more goes straight. -/
theorem goesStraight_of_end (hdefined : L.Defined) (hend : ∀ L', ¬L.GoesOn L') :
    L.GoesStraight := by
  refine ⟨fun L' hL' => eq_of_end hend hL' ▸ hdefined, fun L' L'' hL' hL'' => ?_⟩
  obtain ⟨M, hM, -⟩ := Relation.TransGen.head'_iff.mp hL''
  exact absurd (eq_of_end hend hL' ▸ hM) (hend M)

/-- One that goes on to another place, and straight from there to others,
goes straight. -/
theorem goesStraight_of_goesOn (hdefined : L.Defined) (hgoes : L.GoesOn L')
    (hnew : ∀ M, Relation.ReflTransGen LoopState.GoesOn L' M → M.place ≠ L.place)
    (h : L'.GoesStraight) : L.GoesStraight := by
  refine ⟨fun M hM => ?_, fun M M' hM hM' => ?_⟩
  · rcases path_of_goesOn hgoes hM with rfl | hM
    · exact hdefined
    · exact h.defined M hM
  · rcases path_of_goesOn hgoes hM with rfl | hM
    · obtain ⟨N, hN, hrest⟩ := Relation.TransGen.head'_iff.mp hM'
      exact hnew M' (goesOn_unique hN hgoes ▸ hrest)
    · exact h.straight M M' hM hM'

/-- A visit that has a result. -/
theorem defined_of_visit (hvisit : W.visit rx packet stage = some V) :
    (⟨W, some (rx, packet, stage)⟩ : LoopState H HE).Defined := by
  intro rx' packet' stage' h _
  cases h
  exact Option.isSome_iff_exists.mpr ⟨V, hvisit⟩

/-- Past the last stage a packet goes on no more. -/
theorem not_goesOn_nullStage :
    ¬(⟨W, some (rx, packet, nullStage)⟩ : LoopState H HE).GoesOn L' := by
  intro hgoes
  cases hgoes with
  | visit hne _ _ => exact hne rfl

/-- **A packet that is at two places**, and then at none, goes straight. -/
theorem goesStraight_of_two {V' : Visited H HE} (hstage : stage ≠ nullStage)
    (hvisit : W.visit rx packet stage = some V) (hnext : V.next = some next)
    (hstage' : next.toNat ≠ nullStage)
    (hvisit' : (W.after stage V).visit rx V.mem.packet next.toNat = some V')
    (hnext' : V'.next = some 255)
    (hgone : ((W.after stage V).after next.toNat V').tables nullStage = none)
    (hplace : (⟨W.after stage V, some (rx, V.mem.packet, next.toNat)⟩ : LoopState H HE).place ≠
      (⟨W, some (rx, packet, stage)⟩ : LoopState H HE).place) :
    (⟨W, some (rx, packet, stage)⟩ : LoopState H HE).GoesStraight := by
  have hfirst := LoopState.GoesOn.visit hstage hvisit hnext
  have hsecond := LoopState.GoesOn.visit hstage' hvisit' hnext'
  obtain ⟨s, hs⟩ := exists_place hvisit
  obtain ⟨s', hs'⟩ := exists_place hvisit'
  have hlast : ∀ M, Relation.ReflTransGen LoopState.GoesOn
      ⟨(W.after stage V).after next.toNat V', some (rx, V'.mem.packet, nullStage)⟩ M →
        M.place = none := by
    intro M hM
    rw [eq_of_end (fun L' => not_goesOn_nullStage) hM]
    unfold LoopState.place
    simp only [Option.bind_eq_bind, Option.bind_some, hgone, Option.bind_none]
  have hend : (⟨(W.after stage V).after next.toNat V', some (rx, V'.mem.packet, nullStage)⟩ :
      LoopState H HE).GoesStraight := by
    refine goesStraight_of_end (fun rx' packet' stage' h hne => ?_) fun L' => not_goesOn_nullStage
    cases h
    exact absurd rfl hne
  -- the first place comes again neither at the second one nor behind it
  refine goesStraight_of_goesOn (defined_of_visit hvisit) hfirst (fun M hM => ?_)
    (goesStraight_of_goesOn (defined_of_visit hvisit') hsecond (fun M hM => ?_) hend)
  · rcases path_of_goesOn hsecond hM with rfl | hM
    · exact hplace
    · rw [hlast M hM, hs]
      exact fun h => by cases h
  · rw [hlast M hM, hs']
    exact fun h => by cases h

end Leaves

/-! ## Visiting a stage again -/

section Again

/-- Parsing a packet again leaves the pointers. -/
theorem parsePktHeader_again {M : Mem} {fields fields' : PktFields}
    (h : parsePktHeader M fields = some fields') : parsePktHeader M fields' = some fields' := by
  rw [parsePktHeader_eq] at h ⊢
  obtain ⟨b, hb, rfl⟩ := Option.map_eq_some_iff.mp h
  rw [hb, Option.map_some]
  refine congrArg some (funext fun f => ?_)
  unfold Packet.overlay
  cases M.packet.assigned b f with
  | none => rfl
  | some _ => rfl

/-- Extracting a key again leaves it, unless its words were put in order. -/
theorem keyExtract_again {M : Mem} {fields : PktFields} {lookupKey : LookupKey}
    {key key' : FlowKey} (hbiflow : lookupKey.biflowNo = 0)
    (h : keyExtract M fields lookupKey key = some key') :
    keyExtract M fields lookupKey key' = some key' := by
  obtain ⟨hextractable, hroom, rfl⟩ := keyExtract_eq_some_iff.mp h
  refine keyExtract_eq_some_iff.mpr ⟨hextractable, hroom, ?_⟩
  have hordered : ∀ key : FlowKey, ordered 0 key = key := fun key => rfl
  rw [hbiflow, hordered, hordered]
  funext w
  unfold written
  cases wordOf _ w.val with
  | none => rfl
  | some _ => rfl

variable {E : Env} {conditions : Fin maxConditions → XfsmCondition} {n : ℕ} {regs : Registers}
  {results results' : Results}

/-- Results past the conditions stay. -/
theorem xfsmEvaluateConditions_rest
    (h : xfsmEvaluateConditions E conditions n regs results = some results')
    (i : Fin maxConditions) (hi : n ≤ i.val) : results' i = results i := by
  induction n generalizing results' with
  | zero =>
    cases h
    rfl
  | succ n ih =>
    rw [xfsmEvaluateConditions_succ] at h
    obtain ⟨before, hbefore, h⟩ := Option.bind_eq_some_iff.mp h
    unfold writeResult at h
    split at h
    · obtain ⟨result, -, rfl⟩ := Option.map_eq_some_iff.mp h
      exact (if_neg (by omega)).trans (ih hbefore (by omega))
    · cases h

/-- Evaluating the conditions again leaves their results. -/
theorem xfsmEvaluateConditions_again
    (h : xfsmEvaluateConditions E conditions n regs results = some results') :
    xfsmEvaluateConditions E conditions n regs results' = some results' := by
  obtain ⟨again, hagain, hsame⟩ := @xfsmEvaluateConditions_results _ _ _ _ _ results' _ h
  rw [hagain]
  refine congrArg some (funext fun i => ?_)
  by_cases hi : i.val < n
  · exact (hsame i hi).symm
  · exact xfsmEvaluateConditions_rest hagain i (Nat.le_of_not_lt hi)

variable {H : SlotMap FlowKey} {HE : SlotMap State} {T : XfsmTable H HE} {M : Mem}
  {key : FlowKey} {R : Ready H HE}

/-- **Preparing a visit again** finds everything as it is. -/
theorem prepare_again (hbiflow : T.lookupKey.biflowNo = 0) (h : T.prepare M key = some R) :
    R.table.prepare M R.key = some R := by
  obtain ⟨fields, results, hfields, hkey, hplace, hresults, htable⟩ := prepare_eq_some h
  obtain ⟨table, key', place⟩ := R
  set I := (T.instances.lookupInstance key').1
  set instance' := { I.instancesPool place with results := results }
  obtain rfl : table =
      { T with pktFields := fields, instances := I.setInstance place instance' } := htable
  have hpool : (I.setInstance place instance').instancesPool place = instance' :=
    Function.update_self ..
  have hlookup : (I.setInstance place instance').lookupInstance key' =
      (I.setInstance place instance', some place) :=
    lookupInstance_of_mem (lookup_lookupInstance hplace)
  have hevaluate : (I.setInstance place instance').evaluate place ⟨T.globalRegisters, fields, M⟩
      T.conditions T.nbConditions = some (I.setInstance place instance') := by
    unfold Instances.evaluate
    rw [hpool, xfsmEvaluateConditions_again hresults, Option.map_some]
    unfold Instances.setInstance
    rw [Function.update_idem]
  unfold XfsmTable.prepare
  simp only [parsePktHeader_again hfields, keyExtract_again hbiflow hkey, hlookup, hevaluate,
    Option.bind_eq_bind, Option.bind_some, Option.pure_def]

/-- A visit is the same as that of the table made ready. -/
theorem visit_eq_of_prepare (h : T.prepare M key = some R) :
    T.visit M key = R.tableLookup.bind fun
      | none => some (R.leave M)
      | some row => R.execute M row := by
  unfold XfsmTable.visit
  rw [h]
  rfl

/-- **A row that changes nothing**: it leads back to its stage and to the
state of the flow, and its actions leave registers and packet. -/
structure Idle (R : Ready H HE) (M : Mem) (row : XfsmTableEntry) (stage : ℕ) : Prop where
  nextStage : row.nextStage.toNat = stage
  nextState : row.nextState = R.matchInst.currentState
  actions : ∃ X, xfsmExecuteActions R.table.pktFields row.actions
    (R.table.instances.start R.place ⟨R.table.globalRegisters, R.table.pktFields, M⟩) = some X ∧
      X.registers = R.matchInst.registers ∧ X.globalRegisters = R.table.globalRegisters ∧
      X.mem = M ∧ X.destroy = false ∧ R.matchInst.destroy = false

/-- A row that changes nothing leaves the table made ready. -/
theorem execute_of_idle {row : XfsmTableEntry} {stage : ℕ} (h : Idle R M row stage) :
    ∃ events, R.execute M row =
      some ⟨R.table, R.key, M, some row, some row.nextStage, events⟩ := by
  obtain ⟨X, hX, hregisters, hglobal, hmem, hdestroy, hflag⟩ := h.actions
  refine ⟨.access :: X.events, ?_⟩
  have hfinish : R.table.instances.finish R.place X = R.table.instances := by
    unfold Instances.finish Instances.setInstance
    rw [hregisters, hdestroy, ← hflag]
    exact congrArg (fun pool => { R.table.instances with instancesPool := pool })
      (Function.update_eq_self R.place R.table.instances.instancesPool)
  have hstate : R.table.instances.setState R.place row.nextState = R.table.instances := by
    unfold Instances.setState Instances.setInstance
    rw [h.nextState]
    exact congrArg (fun pool => { R.table.instances with instancesPool := pool })
      (Function.update_eq_self R.place R.table.instances.instancesPool)
  unfold Ready.execute
  rw [hX, Option.map_some]
  simp only [hdestroy, hfinish, hstate, hglobal, hmem, Bool.false_eq_true, if_false]

theorem not_self_of_acc {α : Type} {r : α → α → Prop} {a : α} (h : Acc r a) : ¬ r a a := by
  induction h with
  | intro a _ ih => exact fun hself => ih a hself hself

/-- **Round and round**: where a stage executes a row that changes nothing,
the packet never leaves. -/
theorem not_leaves_of_idle {W : Worker H HE} {rx : Received} {packet : Packet} {stage : ℕ}
    {row : XfsmTableEntry} (hT : W.tables stage = some T) (hnull : stage ≠ nullStage)
    (hbiflow : T.lookupKey.biflowNo = 0) (hprepare : T.prepare (rx.mem packet) W.key = some R)
    (hlookup : R.tableLookup = some (some row)) (hidle : Idle R (rx.mem packet) row stage) :
    ¬ (⟨W, some (rx, packet, stage)⟩ : LoopState H HE).Leaves := by
  intro hleaves
  obtain ⟨events, hexecute⟩ := execute_of_idle hidle
  set V : Visited H HE := ⟨R.table, R.key, rx.mem packet, some row, some row.nextStage, events⟩
    with hV
  have hvisit : W.visit rx packet stage = some V := by
    unfold Worker.visit
    rw [hT, Option.bind_some, visit_eq_of_prepare hprepare, hlookup]
    exact hexecute
  -- the second visit finds what the first one found, and leaves it
  have hagain : (W.after stage V).visit rx (rx.mem packet).packet stage = some V := by
    unfold Worker.visit
    have htable : (W.after stage V).tables stage = some R.table := Function.update_self ..
    rw [htable, Option.bind_some]
    change R.table.visit (rx.mem packet) R.key = some V
    rw [visit_eq_of_prepare (prepare_again hbiflow hprepare), hlookup]
    exact hexecute
  have hsame : (W.after stage V).after stage V = W.after stage V := by
    unfold Worker.after
    rw [Function.update_idem]
  have hloop : (⟨W.after stage V, some (rx, (rx.mem packet).packet, stage)⟩ :
      LoopState H HE).GoesOn ⟨W.after stage V, some (rx, (rx.mem packet).packet, stage)⟩ := by
    have hgoes := LoopState.GoesOn.visit hnull hagain (V := V) rfl
    rw [hsame, hidle.nextStage] at hgoes
    exact hgoes
  have hfirst := LoopState.GoesOn.visit hnull hvisit (V := V) rfl
  rw [hidle.nextStage] at hfirst
  exact not_self_of_acc ((acc_of_leaves hleaves).inv hfirst) hloop

/-! ## Actions that send -/

/-- Sending a packet leaves registers and packet. -/
theorem step_of_sendpkt {fields : PktFields} {act : XfsmAction} {X X' : Exec}
    (htype : act.type = .xfsmSendpkt) (h : X.step fields act = some X') :
    X'.registers = X.registers ∧ X'.globalRegisters = X.globalRegisters ∧ X'.mem = X.mem ∧
      X'.destroy = X.destroy := by
  obtain ⟨Y, hfetch, hperform⟩ := Option.bind_eq_some_iff.mp h
  have hY : Y.registers = X.registers ∧ Y.globalRegisters = X.globalRegisters ∧ Y.mem = X.mem ∧
      Y.destroy = X.destroy := by
    obtain ⟨_, -, hfetch⟩ := Option.bind_eq_some_iff.mp hfetch
    obtain ⟨_, -, hfetch⟩ := Option.bind_eq_some_iff.mp hfetch
    obtain ⟨_, -, hfetch⟩ := Option.bind_eq_some_iff.mp hfetch
    cases hfetch
    exact ⟨rfl, rfl, rfl, rfl⟩
  unfold Exec.perform at hperform
  rw [htype] at hperform
  cases hperform
  by_cases hport : act.value2 = 0
  · rw [show Y.sendpkt act = { Y with reg2 := act.value2 } from if_pos hport]
    exact hY
  · rw [show Y.sendpkt act = { Y with
      reg2 := act.value2
      events := Y.events ++ [.txBuffer ((act.value2 - 1).setWidth 16)] } from if_neg hport]
    exact hY

/-- **Rows that only send** leave registers and packet. -/
theorem executeActions_of_sendpkt {fields : PktFields} {actions : List XfsmAction} {X X' : Exec}
    (htype : ∀ act ∈ actions, act.type = .xfsmSendpkt)
    (h : xfsmExecuteActions fields actions X = some X') :
    X'.registers = X.registers ∧ X'.globalRegisters = X.globalRegisters ∧ X'.mem = X.mem ∧
      X'.destroy = X.destroy := by
  unfold xfsmExecuteActions at h
  split at h
  · clear * - htype h
    induction actions generalizing X with
    | nil =>
      cases h
      exact ⟨rfl, rfl, rfl, rfl⟩
    | cons act actions ih =>
      obtain ⟨Y, hstep, h⟩ := Option.bind_eq_some_iff.mp h
      obtain ⟨hr, hg, hm, hd⟩ := ih (fun a ha => htype a (.tail _ ha)) h
      obtain ⟨hr', hg', hm', hd'⟩ := step_of_sendpkt (htype act (.head _)) hstep
      exact ⟨hr.trans hr', hg.trans hg', hm.trans hm', hd.trans hd'⟩
  · cases h

/-- A row that leads back to its stage and to the state of the flow, and
only sends. -/
theorem idle_of_sendpkt {row : XfsmTableEntry} {stage : ℕ}
    (hstage : row.nextStage.toNat = stage) (hstate : row.nextState = R.matchInst.currentState)
    (htype : ∀ act ∈ row.actions, act.type = .xfsmSendpkt) (hdestroy : R.matchInst.destroy = false)
    (hdefined : (xfsmExecuteActions R.table.pktFields row.actions (R.table.instances.start R.place
      ⟨R.table.globalRegisters, R.table.pktFields, M⟩)).isSome = true) : Idle R M row stage := by
  obtain ⟨X, hX⟩ := Option.isSome_iff_exists.mp hdefined
  obtain ⟨hr, hg, hm, hd⟩ := executeActions_of_sendpkt htype hX
  exact ⟨hstage, hstate, X, hX, hr, hg, hm, hd.trans hdestroy, hdestroy⟩

end Again

/-! ## Programs -/

section Programs

open Xl

/-- A stage that sends packets to the first port and goes on to some
stage. -/
def sendingTo (name : String) (transition : List BodyElement) : StageStatementContext :=
  let zero := Term.constant "0" (some ⟨.integerConstant, "0"⟩)
  let one := Term.constant "1" (some ⟨.integerConstant, "1"⟩)
  ⟨name, [], [.action (.call "setFlowKey" [])],
    [⟨true, "A", [], [⟨"pktRcvd", [], [⟨[⟨.xtraEqual, zero, zero⟩],
      .action (.call "sendPacket" [zero, one]) :: transition⟩]⟩]⟩]⟩

/-- A program, compiled, written to a file and loaded. -/
def loadProgram (P : ProgramContext) :
    Option (List LoadedTable ×
      List (XfsmTable (listSlotMap FlowKey) (listSlotMap State))) :=
  (compile keyOrders P).bind fun stages => (serialize stages).bind fun file =>
    loadPipelineTables _ _ (fun _ => zeroMemory) (some file)

/-- A stage that leads back to itself in one state, and not in the other. -/
def turningProgram : ProgramContext :=
  let zero := Term.constant "0" (some ⟨.integerConstant, "0"⟩)
  let goes := fun (actions : List BodyElement) =>
    [(⟨"pktRcvd", [], [⟨[⟨.xtraEqual, zero, zero⟩], actions⟩]⟩ : EventStatementContext)]
  .stageProgram [] [⟨"s1", [], [.action (.call "setFlowKey" [])],
    [⟨true, "A", [], goes [.action (.call "setNextState" [.identifier "B"]),
        .action (.call "setNextStage" [.identifier "s1"])]⟩,
      ⟨false, "B", [], goes [.action (.call "setNextState" [.identifier "A"])]⟩]⟩]

/-- A stage that leads back to itself. -/
def loopProgram : ProgramContext :=
  .stageProgram [] [sendingTo "s1" [.action (.call "setNextStage" [.identifier "s1"])]]

/-- What is looked up when the first packet comes to the first stage. -/
def firstLookup (tables : List (XfsmTable (listSlotMap FlowKey) (listSlotMap State))) :
    Option (XfsmTable (listSlotMap FlowKey) (listSlotMap State) ×
      Ready (listSlotMap FlowKey) (listSlotMap State) × XfsmTableEntry) := do
  let T ← tables[0]?
  let R ← T.prepare (zeroFrame.mem ⟨0, zeroFrame.mbuf⟩) fun _ => 0
  let row ← R.tableLookup.join
  return (T, R, row)

/-- **A stage that leads back to itself once**: the first packet visits it
twice, and leaves. -/
theorem leaves_turningProgram :
    ∃ loaded tables, loadProgram turningProgram = some (loaded, tables) ∧
      ∃ L L', Reachable tables L ∧ L.GoesOn L' ∧ L.place = some (0, 0) ∧ L'.place = some (0, 1) ∧
        L.Leaves := by
  have hrun : (loadProgram turningProgram).any (fun p =>
      let W := { Worker.start p.2 with received := 1 }
      (W.visit zeroFrame ⟨0, zeroFrame.mbuf⟩ 0).any fun V =>
        V.next == some 0 &&
        (⟨W, some (zeroFrame, ⟨0, zeroFrame.mbuf⟩, 0)⟩ : LoopState _ _).place == some (0, 0) &&
        (⟨W.after 0 V, some (zeroFrame, V.mem.packet, 0)⟩ : LoopState _ _).place == some (0, 1) &&
        ((W.after 0 V).visit zeroFrame V.mem.packet 0).any fun V' => V'.next == some 255 &&
          (((W.after 0 V).after 0 V').tables 255).isNone) = true := by
    decide +kernel
  obtain ⟨⟨loaded, tables⟩, hprogram, hrun⟩ := (Option.any_eq_true _ _).mp hrun
  obtain ⟨V, hV, hrun⟩ := (Option.any_eq_true _ _).mp hrun
  simp only [Bool.and_eq_true, beq_iff_eq] at hrun
  obtain ⟨⟨⟨hnext, hplace⟩, hplace'⟩, hrun⟩ := hrun
  obtain ⟨V', hV', hrun⟩ := (Option.any_eq_true _ _).mp hrun
  simp only [Bool.and_eq_true, beq_iff_eq] at hrun
  obtain ⟨hnext', hgone⟩ := hrun
  refine ⟨loaded, tables, hprogram, _, _, .tail .refl (.receive _ zeroFrame),
    .visit (by decide) hV hnext, hplace, hplace', leaves_of_goesStraight ?_⟩
  refine goesStraight_of_two (by decide) hV hnext (by decide) hV' hnext'
    (Option.isNone_iff_eq_none.mp hgone) ?_
  exact fun h => by cases hplace'.symm.trans (h.trans hplace)

/-- **A stage that leads back to itself** is compiled and loaded, and the
first packet never leaves it. -/
theorem not_leaves_loopProgram :
    ∃ loaded tables, loadProgram loopProgram = some (loaded, tables) ∧
      ∃ L, Reachable tables L ∧ ¬ L.Leaves := by
  have hrun : (loadProgram loopProgram).any (fun p => (firstLookup p.2).any fun (T, R, row) =>
      T.lookupKey.biflowNo == 0 && row.nextStage == 0 &&
        row.nextState == R.matchInst.currentState &&
        row.actions.all (fun act => act.type == .xfsmSendpkt) && !R.matchInst.destroy &&
        (xfsmExecuteActions R.table.pktFields row.actions (R.table.instances.start R.place
          ⟨R.table.globalRegisters, R.table.pktFields,
            zeroFrame.mem ⟨0, zeroFrame.mbuf⟩⟩)).isSome) = true := by
    decide +kernel
  obtain ⟨⟨loaded, tables⟩, hprogram, hrun⟩ := (Option.any_eq_true _ _).mp hrun
  obtain ⟨⟨T, R, row⟩, hlookup, hidle⟩ := (Option.any_eq_true _ _).mp hrun
  simp only [Bool.and_eq_true, beq_iff_eq, List.all_eq_true, Bool.not_eq_true'] at hidle
  obtain ⟨⟨⟨⟨⟨hbiflow, hstage⟩, hstate⟩, htype⟩, hdestroy⟩, hdefined⟩ := hidle
  obtain ⟨T', hT, hlookup⟩ := Option.bind_eq_some_iff.mp hlookup
  obtain ⟨R', hprepare, hlookup⟩ := Option.bind_eq_some_iff.mp hlookup
  obtain ⟨row', hrow, hpair⟩ := Option.bind_eq_some_iff.mp hlookup
  cases hpair
  refine ⟨loaded, tables, hprogram, _, .tail .refl (.receive _ zeroFrame), ?_⟩
  exact not_leaves_of_idle hT (by decide) hbiflow hprepare (Option.join_eq_some_iff.mp hrow)
    (idle_of_sendpkt (by rw [hstage]; rfl) hstate htype hdestroy hdefined)

end Programs

end Sw

end FlowBlaze
