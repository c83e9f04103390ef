import FlowBlaze.Sw.SoloFlow
/-!
# Whatever is read of a packet

Header pointers that a packet leaves alone point into packets that are
gone, and reading through them has no result in the model. What can be
said of a worker although it does so is said here of more runs: those in
which the parser, the flow key and the conditions make anything of a
packet. Every run is one of them.
-/

namespace FlowBlaze

namespace Sw

open Common

variable {H : SlotMap FlowKey} {HE : SlotMap State}

/-- **A visit in which anything may be read of the packet**: header
pointers, flow key and results are whatever they are. -/
def XfsmTable.VisitsSomehow (T : XfsmTable H HE) (M : Mem) (V : Visited H HE) : Prop :=
  ∃ fields key place results row, (T.instances.lookupInstance key).2 = some place ∧
    let R : Ready H HE := ⟨{ T with
      pktFields := fields
      instances := (T.instances.lookupInstance key).1.setInstance place
        { (T.instances.lookupInstance key).1.instancesPool place with results := results } },
      key, place⟩
    R.tableLookup = some row ∧ (row.map fun row => R.execute M row).getD (some (R.leave M)) = some V

/-- A walk of such visits, from a stage on. -/
inductive Worker.WalksSomehow (rx : Received) :
    Worker H HE → Packet → ℕ → Worker H HE → List (Visited H HE) → Prop
  | done {W : Worker H HE} {packet : Packet} : WalksSomehow rx W packet nullStage W []
  | leaves {W : Worker H HE} {packet : Packet} {stage : ℕ} {T : XfsmTable H HE}
    {V : Visited H HE} : stage ≠ nullStage → W.tables stage = some T →
      T.VisitsSomehow (rx.mem packet) V → V.next = none →
      WalksSomehow rx W packet stage (W.after stage V) [V]
  | goesOn {W W' : Worker H HE} {packet : Packet} {stage : ℕ} {T : XfsmTable H HE}
    {V : Visited H HE} {next : Byte} {visits : List (Visited H HE)} : stage ≠ nullStage →
      W.tables stage = some T → T.VisitsSomehow (rx.mem packet) V → V.next = some next →
      WalksSomehow rx (W.after stage V) V.mem.packet next.toNat W' visits →
      WalksSomehow rx W packet stage W' (V :: visits)

/-- **A run of such visits.** -/
inductive Worker.RunsSomehow : Worker H HE → List Received → List (List (Visited H HE)) →
    Worker H HE → Prop
  | nil (W : Worker H HE) : RunsSomehow W [] [] W
  | cons {W W' W'' : Worker H HE} {rx : Received} {rxs : List Received}
    {visits : List (Visited H HE)} {served : List (List (Visited H HE))} :
    WalksSomehow rx { W with received := W.received + 1 } ⟨W.received, rx.mbuf⟩ 0 W' visits →
      RunsSomehow W' rxs served W'' → RunsSomehow W (rx :: rxs) (visits :: served) W''

section Somehow

variable {T : XfsmTable H HE} {M : Mem} {key : FlowKey} {V : Visited H HE} {W W' : Worker H HE}
  {rx : Received} {rxs : List Received} {packet : Packet} {stage fuel : ℕ}
  {visits : List (Visited H HE)} {served : List (List (Visited H HE))}

/-- What is read is something. -/
theorem visitsSomehow_of_visit (h : T.visit M key = some V) : T.VisitsSomehow M V := by
  obtain ⟨R, hprepare, h⟩ := Option.bind_eq_some_iff.mp h
  obtain ⟨row, hrow, h⟩ := Option.bind_eq_some_iff.mp h
  obtain ⟨fields, results, -, -, hplace, -, htable⟩ := prepare_eq_some hprepare
  refine ⟨fields, R.key, R.place, results, row, hplace, ?_⟩
  have hR : R = ⟨{ T with
      pktFields := fields
      instances := (T.instances.lookupInstance R.key).1.setInstance R.place
        { (T.instances.lookupInstance R.key).1.instancesPool R.place with results := results } },
      R.key, R.place⟩ := by
    rw [← htable]
  rw [← hR]
  refine ⟨hrow, ?_⟩
  cases row with
  | none => exact h
  | some row => exact h

theorem walksSomehow_of_walk (h : Worker.walk rx fuel W packet stage = some (W', visits)) :
    W.WalksSomehow rx packet stage W' visits := by
  induction fuel generalizing W packet stage visits with
  | zero => cases h
  | succ fuel ih =>
    unfold Worker.walk at h
    by_cases hstage : stage = nullStage
    · rw [if_pos hstage] at h
      cases h
      exact hstage ▸ .done
    · rw [if_neg hstage] at h
      obtain ⟨V, hV, h⟩ := Option.bind_eq_some_iff.mp h
      obtain ⟨T, hT, hvisit⟩ := table_of_visit hV
      have hsomehow := visitsSomehow_of_visit hvisit
      cases hnext : V.next with
      | none =>
        rw [hnext] at h
        cases h
        exact .leaves hstage hT hsomehow hnext
      | some next =>
        rw [hnext] at h
        obtain ⟨⟨W'', rest⟩, hrest, h⟩ := Option.bind_eq_some_iff.mp h
        cases h
        exact .goesOn hstage hT hsomehow hnext (ih hrest)

/-- **Runs are such runs.** -/
theorem runsSomehow_of_runs (h : W.Runs rxs served W') : W.RunsSomehow rxs served W' := by
  induction h with
  | nil W => exact .nil W
  | cons hserves _ ih =>
    obtain ⟨fuel, hserve⟩ := hserves
    exact .cons (walksSomehow_of_walk hserve) ih

theorem Worker.RunsSomehow.length_eq (h : W.RunsSomehow rxs served W') :
    served.length = rxs.length := by
  induction h with
  | nil => rfl
  | cons _ _ ih => rw [List.length_cons, List.length_cons, ih]

end Somehow

end Sw

end FlowBlaze
