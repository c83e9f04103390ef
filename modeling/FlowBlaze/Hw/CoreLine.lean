import FlowBlaze.Hw.Core
import FlowBlaze.Hw.SpacedPackets
/-!
# The delay line in the core

The line is a chain of eleven registers for the beats that the core takes.
It moves with the beats of a packet, and stands still when the receiver
does, while `add_field` shows a beat of its own, and while the second beat
of a packet is waited for.
-/

namespace FlowBlaze

namespace Hw

open Common Controller

namespace CoreReg

section Definitions

/-- `add_field` shows a beat of its own, behind those of a packet. -/
def ShowsExtra (r : CoreReg) : Prop :=
  enableWrite r.actionD3 = true ∧ r.writer.state = .extraSlot

variable (k : ℕ → CoreConfig) (r : CoreReg) (ports : ℕ → CoreIn)

/-- **A beat is delivered**: the line has moved eleven times since the cycle
in which the beat was taken, a beat is transferred on `M0_AXIS`, and it is
not one of the adder's own. -/
def Delivers (a t : ℕ) : Prop :=
  moves (r.lineShifts k ports) a t = 11 ∧ ((r.run k ports t).m0Axis (k t) (ports t)).tvalid = true ∧
    (ports t).m0AxisTready = true ∧ ¬(r.run k ports t).ShowsExtra

end Definitions

variable {c : CoreConfig} {k : ℕ → CoreConfig} {r : CoreReg} {ports : ℕ → CoreIn}
  {a t first second : ℕ}

/-! ## The actions -/

/-- **What holds of all words** of the third RAM, and of those on the way,
holds of every action that comes out. -/
theorem actionD3_run {P : BitVec 32 → Prop} (hram : ∀ t a, P ((k t).ram3 a)) (haction : P r.action)
    (hsh : ∀ i, P (r.sh2 i)) (t : ℕ) : P (r.run k ports t).actionD3 := by
  have hall : P (r.run k ports t).action ∧ ∀ i, P ((r.run k ports t).sh2 i) := by
    induction t with
    | zero => exact ⟨haction, hsh⟩
    | succ t ih =>
      refine ⟨hram t _, fun i => ?_⟩
      cases i using Fin.cases with
      | zero => exact ih.1
      | succ i => exact ih.2 i.castSucc
  exact hall.2 (Fin.last 4)

/-! ## The line -/

/-- The controller runs on its stream ports. -/
theorem controller_run (hr : r.AfterReset) (t : ℕ) :
    (r.run k ports t).controller = Controller.run (r.axisPorts k ports) t := by
  induction t with
  | zero => exact hr.controller
  | succ t ih =>
    change (r.run k ports t).controller.next _ = Controller.next _ _
    rw [ih]
    rfl

/-- The words of the delay line, from the newest on, and the one behind it in
the output register: a chain of eleven. -/
def lineWord (k : ℕ → CoreConfig) (r : CoreReg) (ports : ℕ → CoreIn) : ℕ → ℕ → BitVec 418 :=
  chain (r.lineShifts k ports) (fun t => ((r.run k ports t).delayerIn (k t) (ports t)).delayIn) 0

theorem lineWord_succ_of_shifts {n : ℕ} (h : r.lineShifts k ports t = true) :
    r.lineWord k ports (t + 1) (n + 1) = r.lineWord k ports t n := if_pos h

theorem lineWord_of_not_shifts (h : r.lineShifts k ports t = false) (n : ℕ) :
    r.lineWord k ports (t + 1) n = r.lineWord k ports t n := by
  cases n with
  | zero => exact if_neg (Bool.eq_false_iff.mp h)
  | succ n => exact if_neg (Bool.eq_false_iff.mp h)

/-- **The delay line is a chain of registers.** -/
theorem delayer_run (hr : r.AfterReset) (t : ℕ) :
    (∀ i : Fin 10, (r.run k ports t).delayer.delayLine i = r.lineWord k ports t i.val) ∧
      (r.run k ports t).delayer.intM0Axis = Axis.ofWord (r.lineWord k ports t 10) := by
  induction t with
  | zero =>
    change (∀ i : Fin 10, r.delayer.delayLine i = 0) ∧ r.delayer.intM0Axis = Axis.ofWord 0
    rw [hr.delayer]
    exact ⟨fun _ => rfl, by simp [Axis.ofWord]⟩
  | succ t ih =>
    obtain ⟨hline, hout⟩ := ih
    have hnext : (r.run k ports (t + 1)).delayer =
        (r.run k ports t).delayer.next ((r.run k ports t).delayerIn (k t) (ports t)) := rfl
    rw [hnext]
    cases hshift : r.lineShifts k ports t with
    | false =>
      rw [DelayerReg.next_of_not_shifts rfl hshift]
      exact ⟨fun i => by rw [hline, lineWord_of_not_shifts hshift],
        by rw [hout, lineWord_of_not_shifts hshift]⟩
    | true =>
      rw [DelayerReg.next_of_shifts rfl hshift]
      refine ⟨fun i => ?_, ?_⟩
      · cases i using Fin.cases with
        | zero => exact (if_pos hshift).symm
        | succ i => exact (hline i.castSucc).trans (lineWord_succ_of_shifts hshift).symm
      · exact congrArg Axis.ofWord
          ((hline (Fin.last 9)).trans (lineWord_succ_of_shifts hshift).symm)

/-- When the line moves. -/
theorem lineShifts_iff : r.lineShifts k ports t = true ↔
    (r.run k ports t).slotDelayer (ports t) = true ∧ (k t).enableDelay = true ∧
      (r.run k ports t).writeTready (ports t) = true := by
  unfold lineShifts DelayerIn.shifts
  rw [Bool.and_eq_true, Bool.and_eq_true, and_assoc]
  rfl

/-- A cycle is a slot of the line unless a second beat is waited for. -/
theorem slotDelayer_iff {x : CoreIn} : r.slotDelayer x = true ↔
    (r.controller.currState = .pkt1 → x.s0Axis.tvalid = true) := by
  unfold slotDelayer
  cases r.controller.currState <;> cases x.s0Axis.tvalid <;> decide

/-- The ready signal of the line. -/
theorem intTready_iff : (r.axisPorts k ports t).intTready = true ↔
    (k t).enableDelay = true ∧ (r.run k ports t).writeTready (ports t) = true := by
  change (if (k t).enableDelay then _ else false) = true ↔ _
  cases (k t).enableDelay <;> simp [delayerIn]

/-- A beat that is taken moves the line. -/
theorem lineShifts_of_beat (hb : Beat (r.axisPorts k ports) a) :
    r.lineShifts k ports a = true :=
  lineShifts_iff.mpr ⟨slotDelayer_iff.mpr fun _ => hb.1,
    intTready_iff.mp ((Bool.and_eq_true _ _).mp hb.2).2⟩

/-- Where the second beat of a packet is waited for, the line moves with it. -/
theorem not_lineShifts_of_pkt1 (hr : r.AfterReset)
    (hstate : (Controller.run (r.axisPorts k ports) t).currState = .pkt1)
    (hb : ¬Beat (r.axisPorts k ports) t) : r.lineShifts k ports t = false := by
  refine Bool.eq_false_iff.mpr fun hshift => hb ?_
  obtain ⟨hslot, hready⟩ := lineShifts_iff.mp hshift
  refine ⟨slotDelayer_iff.mp hslot ?_, ?_⟩
  · rw [controller_run hr]
    exact hstate
  · rw [s0AxisTready, hstate]
    exact intTready_iff.mpr hready

/-- **Up to its second beat** a packet moves two places. -/
theorem moves_packet (hr : r.AfterReset) (hlong : LongPackets (r.axisPorts k ports))
    (hfirst : FirstBeat (r.axisPorts k ports) first)
    (hsecond : Follows (r.axisPorts k ports) first second) :
    moves (r.lineShifts k ports) first (second + 1) = 2 := by
  have hlt := hsecond.1.1
  have hone : moves (r.lineShifts k ports) first (first + 1) = 1 := by
    rw [moves_succ_of_enabled (Nat.le_refl _) (lineShifts_of_beat hfirst.1), moves_self]
  have hwait : moves (r.lineShifts k ports) (first + 1) second = 0 := by
    refine moves_of_disabled (by omega) fun i hi his => not_lineShifts_of_pkt1 hr ?_ ?_
    · exact pkt1_of_first hlong (hsecond.1.of_le (by omega) (by omega)) hfirst
    · exact hsecond.1.2.2 i (by omega) his
  rw [moves_succ_of_enabled (by omega) (lineShifts_of_beat hsecond.2),
    ← moves_add (by omega : first ≤ first + 1) (by omega), hone, hwait]

/-! ## Delivery -/

/-- The ready signal is passed on, but not for a beat of the adder's own. -/
theorem writeTready_iff {x : CoreIn} :
    r.writeTready x = true ↔ x.m0AxisTready = true ∧ ¬r.ShowsExtra := by
  unfold writeTready writeInTready ShowsExtra
  split_ifs with hwrite hextra <;> simp [*]

/-- And so is the valid signal. -/
theorem tvalid_m0Axis {x : CoreIn} (h : ¬r.ShowsExtra) :
    (r.m0Axis c x).tvalid = (r.writeIn c x).tvalid := by
  change (r.intM0Axis c x).tvalid = _
  unfold intM0Axis
  split_ifs with hwrite
  · exact if_neg fun hextra => h ⟨hwrite, hextra⟩
  · rfl
  · rfl

/-- What the line shows is valid in a slot only. -/
theorem tvalid_writeIn {x : CoreIn} : (r.writeIn c x).tvalid = true ↔
    (c.enableDelay = true ∧ r.slotDelayer x = true) ∧ r.delayer.intM0Axis.tvalid = true := by
  change (if c.enableDelay && r.slotDelayer x then _ else _) = true ↔ _
  cases c.enableDelay <;> cases r.slotDelayer x <;> simp

/-- **Eleven places on** the beat is in the output register. -/
theorem intM0Axis_of_moves (hr : r.AfterReset) (hb : Beat (r.axisPorts k ports) a)
    (hmoves : moves (r.lineShifts k ports) a t = 11) :
    (r.run k ports t).delayer.intM0Axis = (ports a).s0Axis := by
  have hlt : a < t := by
    by_contra hle
    have hmono := @moves_mono (r.lineShifts k ports) a t a (by omega)
    rw [moves_self] at hmono
    omega
  have hword : r.lineWord k ports t 10 = ((r.run k ports a).delayerIn (k a) (ports a)).delayIn :=
    chain_eq_input (lineShifts_of_beat hb) hlt hmoves
  have henable : (k a).enableDelay = true := (lineShifts_iff.mp (lineShifts_of_beat hb)).2.1
  rw [(delayer_run hr t).2, hword, DelayerReg.ofWord_delayIn henable]
  have hstate : (r.run k ports a).controller.currState ≠ .wait5 := by
    rw [controller_run hr]
    exact hb.ne_wait5
  change { (ports a).s0Axis with
    tvalid := if (r.run k ports a).controller.currState = FsmState.wait5 then false
      else (ports a).s0Axis.tvalid } = _
  rw [if_neg hstate]

/-- **A beat is delivered** when the line moves for the twelfth time. -/
theorem delivers_iff (hr : r.AfterReset) (hb : Beat (r.axisPorts k ports) a) :
    r.Delivers k ports a t ↔
      moves (r.lineShifts k ports) a t = 11 ∧ r.lineShifts k ports t = true := by
  refine and_congr_right fun hmoves => ?_
  rw [lineShifts_iff, writeTready_iff]
  have hout := intM0Axis_of_moves hr hb hmoves
  have hvalid : (ports a).s0Axis.tvalid = true := hb.1
  constructor
  · rintro ⟨hm0, hready, hextra⟩
    rw [tvalid_m0Axis hextra, tvalid_writeIn] at hm0
    exact ⟨hm0.1.2, hm0.1.1, hready, hextra⟩
  · rintro ⟨hslot, henable, hready, hextra⟩
    refine ⟨?_, hready, hextra⟩
    rw [tvalid_m0Axis hextra, tvalid_writeIn, hout]
    exact ⟨⟨henable, hslot⟩, hvalid⟩

/-- The destination that is shown. -/
theorem destination_m0Axis {x : CoreIn} :
    (r.m0Axis c x).tuser.extractLsb' 24 8 = r.destination c := by
  have hshown : (r.m0Axis c x).tuser = (r.intM0Axis c x).tuser.extractLsb' 32 96 ++
      r.destination c ++ (r.intM0Axis c x).tuser.extractLsb' 0 24 := rfl
  rw [hshown, BitVec.extractLsb'_append_eq_of_le (by decide)]
  exact BitVec.extractLsb'_append_eq_right

/-- **A packet comes out** ten cycles after its second beat, and as many more
as the line has stood still since. -/
theorem eq_of_delivers (hr : r.AfterReset) (hlong : LongPackets (r.axisPorts k ports))
    (hfirst : FirstBeat (r.axisPorts k ports) first)
    (hsecond : Follows (r.axisPorts k ports) first second) (hd : r.Delivers k ports first t) :
    t = second + 10 + still (r.lineShifts k ports) (second + 1) t := by
  have htwo := moves_packet hr hlong hfirst hsecond
  have hmoves := hd.1
  have hlt : second + 1 ≤ t := by
    by_contra hgt
    have hmono := @moves_mono (r.lineShifts k ports) first t (second + 1) (by omega)
    omega
  have hbefore := hsecond.1.1
  have hadd := @moves_add (r.lineShifts k ports) first (second + 1) t (by omega) hlt
  have hstill := @moves_add_still (r.lineShifts k ports) _ _ hlt
  omega

end CoreReg

end Hw

end FlowBlaze
