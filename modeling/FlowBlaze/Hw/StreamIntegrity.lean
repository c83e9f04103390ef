import FlowBlaze.Common.Queue
import FlowBlaze.Hw.OwnAction
/-!
# Packets on their way through the core

Seen from its stream ports the core is a queue. The beats that it takes come
out in their order, none of them lost and none twice, whatever the gaps of
the sender, the pauses of the host and the pressure of the receiver. The
destination is set on the way, and a row may ask for a change of the data.
Rows that ask for an insertion are left out: their packets grow.
-/

namespace FlowBlaze

namespace Hw

open Common Controller

namespace CoreReg

section Definitions

variable (k : ℕ → CoreConfig) (r : CoreReg) (ports : ℕ → CoreIn)

/-- The beat that is taken on `S0_AXIS` in a cycle. -/
def taken (t : ℕ) : List Axis :=
  if Beat (r.axisPorts k ports) t then [(ports t).s0Axis] else []

/-- The beat that is sent on `M0_AXIS`, and whether the action that is there
asks for a change of its data. -/
def sent (t : ℕ) : List (Bool × Axis) :=
  if ((r.run k ports t).m0Axis (k t) (ports t)).tvalid && (ports t).m0AxisTready then
    [(enableModify (r.run k ports t).actionD3, (r.run k ports t).m0Axis (k t) (ports t))]
  else []

/-- **A beat is passed on**: its destination may be another one, and its data
where a change is asked for. -/
structure PassedOn (a : Axis) (s : Bool × Axis) : Prop where
  tkeep : s.2.tkeep = a.tkeep
  tlast : s.2.tlast = a.tlast
  tuser : s.2.tuser.extractLsb' 0 24 = a.tuser.extractLsb' 0 24 ∧
    s.2.tuser.extractLsb' 32 96 = a.tuser.extractLsb' 32 96
  tdata : s.1 = false → s.2.tdata = a.tdata

/-- **The core is a queue** of at most eleven beats: what has been taken is
what has been passed on and, behind it, what is still in the line. -/
def Streams (n : ℕ) : Prop :=
  ∃ passed held, before (r.taken k ports) n = passed ++ held ∧ held.length ≤ 11 ∧
    List.Forall₂ PassedOn passed (before (r.sent k ports) n)

end Definitions

variable {c : CoreConfig} {k : ℕ → CoreConfig} {r : CoreReg} {ports : ℕ → CoreIn} {t : ℕ}

/-- What is taken is what the line accepts. -/
theorem taken_eq_accepted (hr : r.AfterReset) (t : ℕ) :
    r.taken k ports t = ((r.run k ports t).delayerIn (k t) (ports t)).accepted := by
  have hstate := congrArg Controller.currState (@controller_run k r ports hr t)
  unfold taken DelayerIn.accepted
  by_cases hwait : (r.run k ports t).controller.currState = .wait5
  · have hno : ((r.run k ports t).delayerIn (k t) (ports t)).s0Axis.tvalid = false := if_pos hwait
    rw [if_neg fun hb => hb.ne_wait5 (hstate.symm.trans hwait), hno]
    rfl
  · have hoffered : ((r.run k ports t).delayerIn (k t) (ports t)).s0Axis = (ports t).s0Axis := by
      change { (ports t).s0Axis with
        tvalid := if (r.run k ports t).controller.currState = FsmState.wait5 then false
          else (ports t).s0Axis.tvalid } = (ports t).s0Axis
      rw [if_neg hwait]
    have hready : (Controller.run (r.axisPorts k ports) t).s0AxisTready (r.axisPorts k ports t) =
        ((r.run k ports t).delayerIn (k t) (ports t)).s0Tready := by
      unfold s0AxisTready
      rw [← hstate, bne_iff_ne.mpr hwait, Bool.true_and]
      rfl
    have hbeat : Beat (r.axisPorts k ports) t ↔ ((ports t).s0Axis.tvalid &&
        ((r.run k ports t).delayerIn (k t) (ports t)).s0Tready) = true := by
      rw [Bool.and_eq_true, ← hready]
      rfl
    rw [hoffered]
    exact if_congr hbeat rfl rfl

/-- Without an insertion a beat that comes out of the line is passed on. -/
theorem passedOn_m0Axis (hno : enableWrite r.actionD3 = false) (x : CoreIn) :
    PassedOn (r.writeIn c x) (enableModify r.actionD3, r.m0Axis c x) := by
  have hint : r.intM0Axis c x =
      if enableModify r.actionD3 then r.modify.mAxis (r.operation c x) else r.writeIn c x := by
    unfold intM0Axis
    rw [hno]
    rfl
  have hshown : (r.m0Axis c x).tuser = (r.intM0Axis c x).tuser.extractLsb' 32 96 ++
      r.destination c ++ (r.intM0Axis c x).tuser.extractLsb' 0 24 := rfl
  have htuser : (r.intM0Axis c x).tuser = (r.writeIn c x).tuser := by
    rw [hint]
    cases enableModify r.actionD3 <;> rfl
  refine ⟨?_, ?_, ⟨?_, ?_⟩, fun hkept => ?_⟩
  · change (r.intM0Axis c x).tkeep = _
    rw [hint]
    cases enableModify r.actionD3 <;> rfl
  · change (r.intM0Axis c x).tlast = _
    rw [hint]
    cases enableModify r.actionD3 <;> rfl
  · change (r.m0Axis c x).tuser.extractLsb' 0 24 = _
    rw [hshown, BitVec.extractLsb'_append_eq_right, htuser]
  · change (r.m0Axis c x).tuser.extractLsb' 32 96 = _
    rw [hshown, BitVec.append_assoc]
    refine (BitVec.extractLsb'_append_eq_left).trans ?_
    rw [htuser]
  · change (r.intM0Axis c x).tdata = _
    have hno' : enableModify r.actionD3 = false := hkept
    rw [hint, hno']
    rfl

/-- What is sent is what the line delivers. -/
theorem sent_forall₂ (hno : enableWrite (r.run k ports t).actionD3 = false) :
    List.Forall₂ PassedOn
      ((r.run k ports t).delayer.delivered ((r.run k ports t).delayerIn (k t) (ports t)))
      (r.sent k ports t) := by
  have hextra : ¬(r.run k ports t).ShowsExtra := fun h => by
    rw [h.1] at hno
    cases hno
  have hready : (r.run k ports t).writeTready (ports t) = (ports t).m0AxisTready := by
    rw [Bool.eq_iff_iff, writeTready_iff, and_iff_left hextra]
  have hsent : r.sent k ports t =
      if ((r.run k ports t).writeIn (k t) (ports t)).tvalid && (ports t).m0AxisTready then
        [(enableModify (r.run k ports t).actionD3, (r.run k ports t).m0Axis (k t) (ports t))]
      else [] := by
    unfold sent
    rw [tvalid_m0Axis hextra]
  have hdelivered :
      (r.run k ports t).delayer.delivered ((r.run k ports t).delayerIn (k t) (ports t)) =
        if ((r.run k ports t).writeIn (k t) (ports t)).tvalid && (ports t).m0AxisTready then
          [(r.run k ports t).writeIn (k t) (ports t)]
        else [] := by
    unfold DelayerReg.delivered
    rw [← hready]
    rfl
  rw [hsent, hdelivered]
  split
  · exact .cons (passedOn_m0Axis hno _) .nil
  · exact .nil

/-- A cycle that is no slot has no beat. -/
theorem tvalid_of_not_slot {x : CoreIn} (hslot : (r.delayerIn c x).slot = false) :
    (r.delayerIn c x).s0Axis.tvalid = false := by
  change r.slotDelayer x = false at hslot
  have hwaits : r.controller.currState = .pkt1 ∧ ¬x.s0Axis.tvalid = true := by
    rw [← Bool.not_eq_true, slotDelayer_iff] at hslot
    exact Classical.not_imp.mp hslot
  change (if r.controller.currState = FsmState.wait5 then false else x.s0Axis.tvalid) = false
  rw [hwaits.1]
  exact Bool.eq_false_iff.mpr hwaits.2

/-- The line has eleven places. -/
theorem length_pending (d : DelayerReg 9) : d.pending.length ≤ 11 := by
  have hslots : d.slots.length = 11 := by
    unfold DelayerReg.slots
    rw [List.length_cons, List.length_reverse, List.length_map, List.length_ofFn]
  exact hslots ▸ List.length_filter_le _ _

/-- **No beat is lost, duplicated or overtaken** in a run in which no action
asks for an insertion. -/
theorem streams (hr : r.AfterReset)
    (hno : ∀ t, enableWrite (r.run k ports t).actionD3 = false) (n : ℕ) :
    r.Streams k ports n := by
  have hempty : r.delayer.pending = [] := by
    rw [hr.delayer]
    exact DelayerReg.pending_reset (x := { r.delayerIn (k 0) (ports 0) with aresetn := false })
      r.delayer rfl
  have hqueue := @conserved _ (fun t => (r.run k ports t).delayer.pending) (r.taken k ports)
    (fun t => (r.run k ports t).delayer.delivered ((r.run k ports t).delayerIn (k t) (ports t)))
    (fun t => by
      rw [taken_eq_accepted hr]
      exact DelayerReg.pending_next rfl tvalid_of_not_slot) n
  refine ⟨_, (r.run k ports n).delayer.pending, ?_, length_pending _,
    forall₂_before (fun t => sent_forall₂ (hno t)) n⟩
  rw [← hqueue]
  change _ = r.delayer.pending ++ _
  rw [hempty, List.nil_append]

/-- Two packets, the receiver held up in between. -/
theorem streams_twoPackets :
    start.Streams twoPortsAt (twoPacketsWith (fun _ => idlePorts) true) 30 :=
  streams afterReset_start enableWrite_twoPackets 30

end CoreReg

end Hw

end FlowBlaze
