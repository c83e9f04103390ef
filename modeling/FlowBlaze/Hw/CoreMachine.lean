import FlowBlaze.Common.FlowMachine
import FlowBlaze.Common.Queue
import FlowBlaze.Hw.CuckooMap
import FlowBlaze.Hw.FlowBlazeCore
import FlowBlaze.Hw.SpacedPackets
/-!
# What the core is for

A programmed core is a machine that processes packets one at a time. Its
flow table is a map from keys to contexts, of three registers and a state.
A packet selects a row by its header, its context and the time; the row says
what becomes of the packet, and of the context of a flow.

The circuit works on several packets at a time. `Paced` and `Undisturbed`
collect under which conditions its runs are those of the machine.
-/

namespace FlowBlaze

namespace Hw

open Common Controller

/-- **A packet**, as far as it decides anything: its header, with its
metadata, and the time of its query. -/
structure Arrival where
  header : BitVec 432
  time : BitVec 32

/-- The header of a packet, from its first two beats, with the time and the
random number of the second one. -/
def headerOf (first second : Axis) (timer : BitVec 64) (random : BitVec 32) : BitVec 432 :=
  first.tuser.extractLsb' 64 32 ++ first.tuser.extractLsb' 32 32 ++
    first.tuser.extractLsb' 24 8 ++ timer.extractLsb' 7 40 ++ random.extractLsb' 0 8 ++
    first.tuser.extractLsb' 16 8 ++ second.tdata.extractLsb' 0 48 ++ first.tdata

/-- The flow table is told to do this in a cycle. -/
def Asks (p : CuckooIn) : Effect Key Value → Prop
  | .keep => p.insert = false ∧ p.remove = false
  | .put key context => p.insert = true ∧ p.remove = false ∧ p.key = key ∧ p.value = context
  | .drop key => p.insert = false ∧ p.remove = true ∧ p.key = key

namespace FlowBlazeReg

section Machine

variable (g : FlowBlazeGenerics) (σ : FlowBlazeReg) (p : Arrival) (found : Option Value)
  (row : Fin 32)

/-- The key that a packet is looked up by. -/
def lookupKeyOf : Key := scopeKey σ.regs.lookupScope p.header &&& maskOf σ.regs.maskLookup

/-- The key that a packet's context is put under. -/
def updateKeyOf : Key := scopeKey σ.regs.updateScope p.header &&& maskOf σ.regs.maskUpdate

/-- The state of a packet whose flow is not in the table: the word of the
entry of the first TCAM that matches. -/
def defaultStateOf : BitVec 8 :=
  let word := scopeKey σ.regs.lookupScope p.header
  let entry := ((List.finRange 8).find? fun i =>
    (σ.cam1 i).any fun e => entryMatches1 e word).getD g.missAddr1
  (σ.ram1 (Fin.castLE eight_le_thirtyTwo entry)).extractLsb' 0 8

/-- The state that a packet finds. -/
def stateOf : BitVec 8 :=
  match found with
  | some context => contextState context
  | none => σ.defaultStateOf g p

/-- The registers that a packet finds. -/
def rOf (i : Fin 3) : BitVec 32 :=
  match found with
  | some context => contextR context i
  | none => 0

/-- The operands from a packet's header. -/
def oOf (i : Fin 3) : BitVec 32 :=
  sam32Sized p.header (0#1 ++ σ.regs.offO i) (σ.regs.lenO i)

/-- The query of a packet. -/
def queryOf : BitVec 120 :=
  Hw.fullInput2 (σ.oOf p 2) (σ.oOf p 1) (σ.oOf p 0)
    (Hw.conditions σ.regs.cr ⟨σ.regs.gr, rOf found, σ.oOf p, p.time⟩) (σ.stateOf g p found)

/-- **The row of a packet.** -/
def rowOf : Fin 32 := (σ.config g).matchAddr (σ.queryOf g p found)

/-- The command of a row. -/
def commandOf : Command := fun i =>
  σ.pipealu.mem1 ((σ.ram2 row).extractLsb' 8 8) (Fin.castLE nine_le_sixteen i)

/-- The context that a row makes of the one that was found. -/
def contextOf : Value :=
  updateContext ((σ.ram2 row).extractLsb' 0 8) fun i =>
    (σ.commandOf row).result ⟨p.header, rOf found, σ.regs.gr⟩ i.castSucc

/-- What a row does to the flows. -/
def effectOf : Effect Key Value :=
  let row := σ.rowOf g p found
  if (σ.ram3 row).extractLsb' 0 16 = 0xFF00 then
    .put (σ.updateKeyOf p) (σ.contextOf p found row)
  else if (σ.ram3 row).extractLsb' 0 16 = 0xFFFF then .drop (σ.updateKeyOf p)
  else .keep

/-- **The machine** that the core has been programmed to be. -/
def machine : FlowMachine Arrival Key Value (Fin 32) where
  lookupKey := σ.lookupKeyOf
  reaction := σ.rowOf g
  effect := σ.effectOf g

end Machine

section Runs

variable (g : FlowBlazeGenerics) (σ : FlowBlazeReg) (ports : ℕ → FlowBlazeIn)

/-- The second beat of a packet is taken in this cycle. -/
def takesSecond (t : ℕ) : Bool :=
  (Controller.run (σ.axisPorts g ports) t).currState == .pkt1 && (σ.axisPorts g ports t).step

/-- The packet whose second beat is taken in this cycle. -/
def arrival (t : ℕ) : Arrival where
  header := (σ.run g ports (t + 1)).way.fullHeader
  time := (σ.run g ports (t + 3)).timer.extractLsb' 7 32

/-- The packet that arrives in this cycle, if there is one. -/
def arrivals (t : ℕ) : List Arrival :=
  if σ.takesSecond g ports t then [σ.arrival g ports t] else []

/-- **The flows before a cycle**, as the machine has them: after all packets
whose second beat has been taken. -/
def flowsBefore (t : ℕ) : Flows Key Value :=
  (σ.machine g).run (fun _ => none) (before (σ.arrivals g ports) t)

/-- **Paced**: the packets come after a reset of the stream side. They have
two beats at least, and begin eleven cycles behind the second beat of the
one in front. The host writes nothing, and no command writes a global
register. -/
structure Paced : Prop where
  reset : σ.way.AfterReset
  long : LongPackets (σ.axisPorts g ports)
  apart : Apart (σ.axisPorts g ports) 11
  quiet : ∀ t, (σ.run g ports t).writeEnable = false
  locals : ∀ instruction (l : Lane),
    (σ.pipealu.mem1 instruction (Fin.castLE nine_le_sixteen 8)).getLsbD (8 * l.val + 7) = false

/-- **Undisturbed**: paced, from an empty flow table on, which acts on the
right rows and loses no entry. -/
structure Undisturbed : Prop extends Paced g σ ports where
  empty : EmptyTables σ.table
  evicted : ∀ t, (Hw.run σ.table (σ.tablePorts g ports) t).st.intEvictedEntry = 0
  clean : ∀ t, CleanMap (Hw.run σ.table (σ.tablePorts g ports) t) (σ.tablePorts g ports t)
  search : ∀ t, CleanSearch (Hw.run σ.table (σ.tablePorts g ports) t)
    (σ.tablePorts g ports (t + 1))

/-- **A packet is processed** as the machine does it, with the flows that it
finds. Its row is there four cycles after its second beat. Ten cycles after
it, the action and the action value are those of the row, and the flow table
is told to do what the row does to the flows. -/
structure Processed (flows : Flows Key Value) (second : ℕ) : Prop where
  row : (σ.run g ports (second + 4)).way.matchAddrTcam2 =
    (σ.machine g).reaction (σ.arrival g ports second)
      ((σ.machine g).found flows (σ.arrival g ports second))
  action : (σ.run g ports (second + 10)).way.actionD3 =
    σ.ram3 (σ.run g ports (second + 4)).way.matchAddrTcam2
  actionValue : (σ.run g ports (second + 10)).way.actionValueD3 =
    σ.ram4 (σ.run g ports (second + 4)).way.matchAddrTcam2
  effect : Asks (σ.tablePorts g ports (second + 10))
    ((σ.machine g).effect (σ.arrival g ports second)
      ((σ.machine g).found flows (σ.arrival g ports second)))

end Runs

end FlowBlazeReg

end Hw

end FlowBlaze
