import FlowBlaze.Common.ShiftChain
import FlowBlaze.Hw.Cuckoo
/-!
# The controller — `FlowBlaze_core.vhd`

The state machine that takes a packet in: its first beat is taken in
`IDLE`, its second in `PKT1`, which also raises `start`, and the others in
`PKT2`. `WAIT5` keeps the next packet out until a counter of cycles has
passed ten. The pulse of `start` then goes through the twelve places of
`startd`: at the first the flow table is searched, at the ninth it is
written.

`Controller.next` is one clock edge. What the slave stream port offers,
and whether the delay line takes it, are ports.
-/

namespace FlowBlaze

namespace Hw

open Common

/-- `fsm_states`. -/
inductive FsmState
  | idle
  | pkt1
  | pkt2
  | wait5
deriving DecidableEq, Repr

/-- The stream ports in one cycle: `S0_AXIS_TVALID`, `S0_AXIS_TLAST` and
`int_S0_AXIS_TREADY`, which the delay line drives. -/
structure AxisIn where
  tvalid : Bool
  tlast : Bool
  intTready : Bool

/-- The registers of the controller. -/
structure Controller where
  currState : FsmState
  countFrames : BitVec 32
  start : Bool
  startd : Fin 12 → Bool

/-- `step`: the next word is available. -/
def AxisIn.step (p : AxisIn) : Bool := p.tvalid && p.intTready

namespace Controller

/-- After a reset. -/
def initial : Controller := ⟨.idle, 0, false, fun _ => false⟩

variable (c : Controller) (p : AxisIn)

/-- The port `S0_AXIS_TREADY`. -/
def s0AxisTready : Bool := c.currState != .wait5 && p.intTready

/-- The state machine. -/
def nextState : FsmState :=
  match c.currState with
  | .idle => if p.step then .pkt1 else .idle
  | .pkt1 => if p.step then (if p.tlast then .wait5 else .pkt2) else .pkt1
  | .pkt2 =>
    if p.step && p.tlast then (if c.countFrames < 5 then .wait5 else .idle) else .pkt2
  | .wait5 => if c.countFrames > 10 then .idle else .wait5

/-- `count_frames`. -/
def nextCount : BitVec 32 := if c.currState = .pkt1 then 2 else c.countFrames + 1

/-- The shift registers move: all cycles but those in which `PKT1` waits
for the second beat. -/
def shifts : Bool := p.step || c.currState != .pkt1

/-- **One clock edge.** -/
def next : Controller where
  currState := c.nextState p
  countFrames := c.nextCount
  start := c.currState == .pkt1 && p.step
  startd := fun k =>
    if c.shifts p then (if k.val = 0 then c.start else c.startd (k - 1)) else c.startd k

/-- The ports of the flow table that the controller drives. Whether the
action of the packet is an insertion or a removal is a port. -/
def cuckooIn (q : CuckooIn) : CuckooIn :=
  { q with
    insert := c.startd 8 && q.insert
    remove := c.startd 8 && q.remove
    preInsert := c.startd 2
    search := c.startd 0 }

/-! ## Runs -/

/-- The state before each cycle of a run from reset. -/
def run (ports : ℕ → AxisIn) : ℕ → Controller
  | 0 => initial
  | t + 1 => (run ports t).next (ports t)

variable (ports : ℕ → AxisIn)

/-- A beat is taken in this cycle. -/
def Beat (t : ℕ) : Prop := (ports t).tvalid ∧ (run ports t).s0AxisTready (ports t)

instance (t : ℕ) : Decidable (Beat ports t) := inferInstanceAs (Decidable (_ ∧ _))

/-- The last beat taken before this cycle. -/
def LastBefore (b t : ℕ) : Prop := b < t ∧ Beat ports b ∧ ∀ i, b < i → i < t → ¬ Beat ports i

/-- A beat is taken in this cycle and the one taken before it is that. -/
def Follows (b t : ℕ) : Prop := LastBefore ports b t ∧ Beat ports t

/-- **The first beat of a packet**: the beat before it, if there is one,
was the last of its packet. -/
def FirstBeat (t : ℕ) : Prop :=
  Beat ports t ∧ ∀ b, LastBefore ports b t → (ports b).tlast = true

/-- **Packets of at least two beats.** -/
def LongPackets : Prop := ∀ t, FirstBeat ports t → (ports t).tlast = false

/-- **Two packets in a row**: the cycle of the second beat of the one, and
those of the first and second beats of the other. -/
structure Successive (second first' second' : ℕ) : Prop where
  ex : ∃ first last, FirstBeat ports first ∧ Follows ports first second ∧ second ≤ last ∧
    Beat ports last ∧ (ports last).tlast = true ∧
    (∀ b, second ≤ b → b < last → Beat ports b → (ports b).tlast = false) ∧
    Follows ports last first'
  follows : Follows ports first' second'

/-! ## The pulse of a packet -/

/-- The cycles in which the shift registers move. -/
def shiftsAt (t : ℕ) : Bool := (run ports t).shifts (ports t)

/-- **The pulse of a packet stands at this place** of `startd`: it was
raised by the packet's second beat and has been moved on that far. -/
def PulseAt (second : ℕ) (k : Fin 12) (t : ℕ) : Prop :=
  (run ports t).startd k = true ∧ second < t ∧ moves (shiftsAt ports) (second + 1) t = k.val + 1

/-- The packet searches the flow table in this cycle. -/
def Searches (second t : ℕ) : Prop := PulseAt ports second 0 t

/-- The flow table writes in this cycle what the packet's insertion gave
it in the cycle before. -/
def Writes (second t : ℕ) : Prop := ∃ u, PulseAt ports second 8 u ∧ t = u + 1

end Controller

end Hw

end FlowBlaze
