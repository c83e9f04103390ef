import FlowBlaze.Sw.StageLoop
/-!
# Running out of instances

`lookup_instance` returns `NULL` when the table holds `MAX_INSTANCES - 1`
flows, by its own count, or when the hash refuses a key. What should
happen then is that the packet is released and all is left as it was. But
the worker goes on with the instance it does not have: the conditions are
evaluated on a null pointer, and nothing is looked at before.
-/

namespace FlowBlaze

namespace Sw

open Common

variable {H : SlotMap FlowKey} {HE : SlotMap State}

/-- **There is no instance** for the packet in this stage. -/
structure RunsOut (W : Worker H HE) (rx : Received) (packet : Packet) (stage : ℕ)
    (T : XfsmTable H HE) : Prop where
  table : W.tables stage = some T
  noInstance : ∃ fields key, parsePktHeader (rx.mem packet) T.pktFields = some fields ∧
    keyExtract (rx.mem packet) fields T.lookupKey W.key = some key ∧
    (T.instances.lookupInstance key).2 = none

/-- **A table is as it was**: its registers, its rows, its instances, their
counter, and what the hash knows. -/
structure LeavesTable (T T' : XfsmTable H HE) : Prop where
  globalRegisters : T'.globalRegisters = T.globalRegisters
  entries : T'.entries = T.entries
  instancesPool : T'.instances.instancesPool = T.instances.instancesPool
  nbInstances : T'.instances.nbInstances = T.instances.nbInstances
  instancesHmap : H.lookup T'.instances.instancesHmap = H.lookup T.instances.instancesHmap

/-- **The packet is released**: the visit ends, without a row, and leaves
the packet and the table as they were. -/
def ReleasesUnchanged (W : Worker H HE) (rx : Received) (packet : Packet) (stage : ℕ)
    (T : XfsmTable H HE) : Prop :=
  ∃ V, W.visit rx packet stage = some V ∧ V.next = none ∧ V.row = none ∧
    V.mem = rx.mem packet ∧ LeavesTable T V.table

section Visits

variable {W : Worker H HE} {rx : Received} {packet : Packet} {stage : ℕ} {T : XfsmTable H HE}

/-- **A visit that runs out has no result.** -/
theorem visit_of_runsOut (h : RunsOut W rx packet stage T) :
    W.visit rx packet stage = none := by
  obtain ⟨fields, key, hfields, hkey, hnull⟩ := h.noInstance
  unfold Worker.visit
  rw [h.table, Option.bind_some]
  have hprepare : T.prepare (rx.mem packet) W.key = none := by
    unfold XfsmTable.prepare
    simp only [hfields, hkey, Option.bind_eq_bind, Option.bind_some]
    cases hlookup : T.instances.lookupInstance key with
    | mk instances place =>
      rw [hlookup] at hnull
      cases hnull
      rfl
  unfold XfsmTable.visit
  rw [hprepare]
  rfl

/-- **Running out is never handled.** -/
theorem not_releasesUnchanged (h : RunsOut W rx packet stage T) :
    ¬ReleasesUnchanged W rx packet stage T := by
  rintro ⟨V, hvisit, -⟩
  rw [visit_of_runsOut h] at hvisit
  cases hvisit

end Visits

/-! ## A hash without room -/

/-- A hash that refuses every key, as one does whose buckets are full. -/
def fullSlotMap : SlotMap FlowKey where
  State := ℕ
  create n := n
  capacity n := n
  lookup _ _ := none
  add n _ := (n, none)
  del n _ := (n, none)
  lookup_create _ _ := rfl
  capacity_create _ := rfl
  capacity_add _ _ := rfl
  capacity_del _ _ := rfl
  lookup_inj h := by cases h
  add_present h := by cases h
  lookup_add_some h := by cases h
  lookup_add_none _ := rfl
  del_result _ _ := rfl
  lookup_del _ key := (Function.update_eq_self key (fun _ => none)).symm

/-- A table without rows, conditions and key. -/
def bareTable : LoadedTable := ⟨0, [], 0, 0, [], [], 0⟩

/-- The first packet finds no room. -/
theorem runsOut_bareTable :
    ∃ T, bareTable.create fullSlotMap (listSlotMap State) = some T ∧
      RunsOut { Worker.start [T] with received := 1 } zeroFrame ⟨0, zeroFrame.mbuf⟩ 0 T := by
  refine ⟨_, rfl, rfl, ?_⟩
  have hparse : ∃ fields, parsePktHeader (zeroFrame.mem ⟨0, zeroFrame.mbuf⟩) .null = some fields :=
    ⟨_, rfl⟩
  obtain ⟨fields, hfields⟩ := hparse
  exact ⟨fields, fun _ => 0, hfields, rfl, rfl⟩

/-- It is not released unchanged. -/
theorem not_releasesUnchanged_bareTable :
    ∃ T, bareTable.create fullSlotMap (listSlotMap State) = some T ∧
      ¬ReleasesUnchanged { Worker.start [T] with received := 1 } zeroFrame ⟨0, zeroFrame.mbuf⟩ 0
        T := by
  obtain ⟨T, hT, hout⟩ := runsOut_bareTable
  exact ⟨T, hT, not_releasesUnchanged hout⟩

/-- **A first packet is not handled**, in a run that reaches it. -/
theorem not_handlesRunningOut :
    ¬∀ (tables : List (XfsmTable fullSlotMap (listSlotMap State)))
      (L : LoopState fullSlotMap (listSlotMap State)), Reachable tables L →
      ∀ rx packet stage T, L.packet = some (rx, packet, stage) →
        RunsOut L.worker rx packet stage T → ReleasesUnchanged L.worker rx packet stage T := by
  intro h
  obtain ⟨T, -, hout⟩ := runsOut_bareTable
  have hreceived : Reachable [T] _ := .tail .refl (.receive _ zeroFrame)
  obtain ⟨V, hvisit, -⟩ := h [T] _ hreceived _ _ _ T rfl hout
  cases (visit_of_runsOut hout).symm.trans hvisit

end Sw

end FlowBlaze
