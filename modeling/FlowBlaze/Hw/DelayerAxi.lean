import FlowBlaze.Hw.ModifyField
import Mathlib.Data.List.OfFn
/-!
# The packet delay line — `delayer_axi.vhd`

A chain of registers between two AXI streams, and an output register behind
it. All shift together, in the cycles in which the line is enabled, the slot
counts and the receiver is ready; a slot without a beat is a bubble. The
length is the generic `DELAY_LENGHT`, which is one more than `n` here.

What has been accepted is what has been delivered and, behind it, what is
still on its way.
-/

namespace FlowBlaze

namespace Hw

/-- The input ports in one cycle. -/
structure DelayerIn where
  aresetn : Bool
  enable : Bool
  slot : Bool
  s0Axis : Axis
  m0Tready : Bool

/-- The registers: the line from its newest word on, and the output. -/
structure DelayerReg (n : ℕ) where
  delayLine : Fin (n + 1) → BitVec 418
  intM0Axis : Axis

namespace DelayerIn

variable (x : DelayerIn)

/-- `S0_AXIS_TREADY`. -/
def s0Tready : Bool := if x.enable then x.m0Tready else false

/-- `delay_in`. -/
def delayIn : BitVec 418 :=
  x.s0Axis.tdata ++ x.s0Axis.tkeep ++ x.s0Axis.tuser ++ BitVec.ofBool x.s0Axis.tlast ++
    BitVec.ofBool (if x.enable then x.s0Axis.tvalid else false)

/-- The line moves. -/
def shifts : Bool := x.slot && x.enable && x.m0Tready

/-- The beat that is accepted. -/
def accepted : List Axis := if x.s0Axis.tvalid && x.s0Tready then [x.s0Axis] else []

end DelayerIn

/-- The fields of a word of the line. -/
def Axis.ofWord (w : BitVec 418) : Axis where
  tdata := w.extractLsb' 162 256
  tuser := w.extractLsb' 2 128
  tkeep := w.extractLsb' 130 32
  tvalid := w.getLsbD 0
  tlast := w.getLsbD 1

namespace DelayerReg

variable {n : ℕ}

/-- **One clock edge.** -/
def next (d : DelayerReg n) (x : DelayerIn) : DelayerReg n :=
  if x.aresetn = false then ⟨fun _ => 0, ⟨0, 0, 0, false, false⟩⟩
  else if x.shifts then
    ⟨Fin.cons x.delayIn fun i : Fin n => d.delayLine i.castSucc,
      Axis.ofWord (d.delayLine (Fin.last n))⟩
  else d

/-- The output ports. -/
def m0Axis (d : DelayerReg n) (x : DelayerIn) : Axis :=
  { d.intM0Axis with tvalid := if x.enable && x.slot then d.intM0Axis.tvalid else false }

/-- The beat that is delivered. -/
def delivered (d : DelayerReg n) (x : DelayerIn) : List Axis :=
  if (d.m0Axis x).tvalid && x.m0Tready then [d.m0Axis x] else []

/-- Some cycles, one after the other. -/
def run (d : DelayerReg n) (xs : List DelayerIn) : DelayerReg n := xs.foldl next d

/-- What is delivered in some cycles. -/
def deliveries : DelayerReg n → List DelayerIn → List Axis
  | _, [] => []
  | d, x :: xs => d.delivered x ++ deliveries (d.next x) xs

/-- The output register and the line, from the oldest word on. -/
def slots (d : DelayerReg n) : List Axis :=
  d.intM0Axis :: ((List.ofFn d.delayLine).map Axis.ofWord).reverse

/-- **The beats on their way**, the oldest first. -/
def pending (d : DelayerReg n) : List Axis := d.slots.filter Axis.tvalid

section Edges

variable {d : DelayerReg n} {x : DelayerIn}

/-! ## One edge -/

/-- **A word keeps the fields** of the beat that it was made of. -/
theorem ofWord_delayIn (henable : x.enable = true) : Axis.ofWord x.delayIn = x.s0Axis := by
  have hdata : x.delayIn.extractLsb' 162 256 = x.s0Axis.tdata := by
    unfold DelayerIn.delayIn
    rw [BitVec.extractLsb'_append_eq_of_le (by decide), BitVec.extractLsb'_append_eq_of_le
      (by decide), BitVec.extractLsb'_append_eq_of_le (by decide)]
    exact BitVec.extractLsb'_append_eq_left
  have huser : x.delayIn.extractLsb' 2 128 = x.s0Axis.tuser := by
    unfold DelayerIn.delayIn
    rw [BitVec.extractLsb'_append_eq_of_le (by decide), BitVec.extractLsb'_append_eq_of_le
      (by decide)]
    exact BitVec.extractLsb'_append_eq_right
  have hkeep : x.delayIn.extractLsb' 130 32 = x.s0Axis.tkeep := by
    unfold DelayerIn.delayIn
    rw [BitVec.extractLsb'_append_eq_of_le (by decide), BitVec.extractLsb'_append_eq_of_le
      (by decide), BitVec.extractLsb'_append_eq_of_le (by decide)]
    exact BitVec.extractLsb'_append_eq_right
  have hvalid : x.delayIn.getLsbD 0 = x.s0Axis.tvalid := by
    unfold DelayerIn.delayIn
    rw [if_pos henable, BitVec.getLsbD_append]
    exact BitVec.getLsbD_ofBool ..
  have hlast : x.delayIn.getLsbD 1 = x.s0Axis.tlast := by
    unfold DelayerIn.delayIn
    rw [BitVec.getLsbD_append, if_neg (by decide), BitVec.getLsbD_append]
    exact BitVec.getLsbD_ofBool ..
  unfold Axis.ofWord
  rw [hdata, huser, hkeep, hvalid, hlast]

/-- What is accepted is what comes into the line when it moves. -/
theorem accepted_of_shifts (h : x.shifts = true) :
    x.accepted = [Axis.ofWord x.delayIn].filter Axis.tvalid := by
  unfold DelayerIn.shifts at h
  rw [Bool.and_eq_true, Bool.and_eq_true] at h
  obtain ⟨⟨-, henable⟩, hready⟩ := h
  rw [ofWord_delayIn henable, List.filter_cons, List.filter_nil]
  unfold DelayerIn.accepted DelayerIn.s0Tready
  rw [if_pos henable, hready, Bool.and_true]

/-- What is delivered is what leaves the output register. -/
theorem delivered_of_shifts (h : x.shifts = true) :
    d.delivered x = [d.intM0Axis].filter Axis.tvalid := by
  unfold DelayerIn.shifts at h
  rw [Bool.and_eq_true, Bool.and_eq_true] at h
  obtain ⟨⟨hslot, henable⟩, hready⟩ := h
  unfold delivered m0Axis
  rw [henable, hslot, hready, List.filter_cons, List.filter_nil,
    Bool.and_true]
  rfl

/-- Where the line stands still, nothing is accepted: a cycle that is no slot
has no beat. -/
theorem accepted_of_not_shifts (h : x.shifts = false)
    (hslot : x.slot = false → x.s0Axis.tvalid = false) : x.accepted = [] := by
  unfold DelayerIn.accepted DelayerIn.s0Tready
  unfold DelayerIn.shifts at h
  refine if_neg fun haccepted => ?_
  obtain ⟨hvalid, hready⟩ := (Bool.and_eq_true _ _).mp haccepted
  split_ifs at hready with henable
  rw [henable, hready, Bool.and_true, Bool.and_true] at h
  rw [hslot h] at hvalid
  cases hvalid

/-- And nothing is delivered. -/
theorem delivered_of_not_shifts (h : x.shifts = false) : d.delivered x = [] := by
  unfold delivered m0Axis
  unfold DelayerIn.shifts at h
  refine if_neg fun hdelivered => ?_
  obtain ⟨hvalid, hready⟩ := (Bool.and_eq_true _ _).mp hdelivered
  dsimp only at hvalid
  split_ifs at hvalid with hboth
  obtain ⟨henable, hslot⟩ := (Bool.and_eq_true _ _).mp hboth
  rw [henable, hslot, hready] at h
  cases h

/-- The line moves. -/
theorem next_of_shifts (hreset : x.aresetn = true) (h : x.shifts = true) :
    d.next x = ⟨Fin.cons x.delayIn fun i : Fin n => d.delayLine i.castSucc,
      Axis.ofWord (d.delayLine (Fin.last n))⟩ := by
  unfold next
  rw [if_neg (by rw [hreset]; decide), if_pos h]

/-- The line stands still. -/
theorem next_of_not_shifts (hreset : x.aresetn = true) (h : x.shifts = false) : d.next x = d := by
  unfold next
  rw [if_neg (by rw [hreset]; decide), if_neg (Bool.eq_false_iff.mp h)]

/-- **A shift**: the word that comes in is the newest. -/
theorem slots_shift (hreset : x.aresetn = true) (h : x.shifts = true) :
    d.intM0Axis :: (d.next x).slots = d.slots ++ [Axis.ofWord x.delayIn] := by
  rw [next_of_shifts hreset h]
  unfold slots
  dsimp only
  rw [List.ofFn_cons, List.ofFn_succ' d.delayLine, List.map_cons, List.reverse_cons,
    List.concat_eq_append, List.map_append, List.reverse_append]
  rfl

/-- **One edge** moves beats on, and none away. -/
theorem pending_next (hreset : x.aresetn = true)
    (hslot : x.slot = false → x.s0Axis.tvalid = false) :
    d.pending ++ x.accepted = d.delivered x ++ (d.next x).pending := by
  cases hshifts : x.shifts with
  | true =>
    rw [accepted_of_shifts hshifts, delivered_of_shifts hshifts]
    unfold pending
    rw [← List.filter_append, ← List.filter_append, ← slots_shift hreset hshifts]
    rfl
  | false =>
    rw [accepted_of_not_shifts hshifts hslot, delivered_of_not_shifts hshifts,
      next_of_not_shifts hreset hshifts, List.append_nil, List.nil_append]

/-- After a reset the line is empty. -/
theorem pending_reset (d : DelayerReg n) (hreset : x.aresetn = false) :
    (d.next x).pending = [] := by
  have hnext : d.next x = ⟨fun _ => 0, ⟨0, 0, 0, false, false⟩⟩ := if_pos hreset
  rw [hnext]
  refine List.filter_eq_nil_iff.mpr fun beat hbeat => ?_
  rcases List.mem_cons.mp hbeat with rfl | hbeat
  · exact Bool.false_ne_true
  · obtain ⟨word, hword, rfl⟩ := List.mem_map.mp (List.mem_reverse.mp hbeat)
    obtain ⟨i, rfl⟩ := List.mem_ofFn.mp hword
    simp [Axis.ofWord]

end Edges

/-! ## Runs -/

section Runs

variable {d : DelayerReg n} {x : DelayerIn} {xs : List DelayerIn}

/-- **Any run** from any state. -/
theorem pending_run (hxs : ∀ x ∈ xs, x.aresetn = true ∧
      (x.slot = false → x.s0Axis.tvalid = false)) :
    d.pending ++ xs.flatMap DelayerIn.accepted = d.deliveries xs ++ (d.run xs).pending := by
  induction xs generalizing d with
  | nil => exact List.append_nil _
  | cons x xs ih =>
    obtain ⟨⟨hreset, hslot⟩, hxs⟩ := List.forall_mem_cons.mp hxs
    rw [List.flatMap_cons, ← List.append_assoc, pending_next hreset hslot, List.append_assoc,
      ih hxs, ← List.append_assoc]
    rfl

/-- **The delay line neither loses nor duplicates beats.** -/
theorem accepted_eq_delivered (d : DelayerReg n) (hreset : x.aresetn = false)
    (hxs : ∀ x ∈ xs, x.aresetn = true ∧ (x.slot = false → x.s0Axis.tvalid = false)) :
    xs.flatMap DelayerIn.accepted =
      (d.next x).deliveries xs ++ ((d.next x).run xs).pending := by
  rw [← pending_run hxs, pending_reset d hreset, List.nil_append]

/-- A cycle with a beat, or without. -/
def offer (slot valid ready : Bool) (data : BitVec 256) : DelayerIn :=
  ⟨true, true, slot, ⟨data, 0, 0, valid, false⟩, ready⟩

/-- A beat, a stall, a cycle that is no slot, two more beats and a bubble. -/
def stalls : List DelayerIn :=
  [offer true true true 1, offer true true false 2, offer false false true 0,
    offer true true true 2, offer true true true 3, offer true false true 0]

/-- A line of two words, before and in the cycle of the reset. -/
def unset : DelayerReg 1 := ⟨fun _ => 7, ⟨7, 7, 7, true, true⟩⟩

def clear : DelayerIn := { offer true true true 7 with aresetn := false }

theorem accepted_eq_delivered_stalls :
    stalls.flatMap DelayerIn.accepted =
      (unset.next clear).deliveries stalls ++ ((unset.next clear).run stalls).pending :=
  accepted_eq_delivered unset rfl (by decide)

end Runs

end DelayerReg

end Hw

end FlowBlaze
