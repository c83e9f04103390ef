import Mathlib.Data.Nat.Basic
import Mathlib.Tactic.Common
/-!
# The AXI-lite slave — `FlowBlaze_core.vhd`

The host reads and writes the core's registers over an AXI-lite bus. Its
slave is one state machine for both kinds of access: it waits for an
address, spends some cycles on the access, and shows a response until the
master takes it. The ready signals of both address channels are registers
that are set while it waits, so they are still up one cycle after it has
taken an address.

`AxiSlave.clock` is one clock edge. A run is the sequence of states from a
reset on, for what the master drives in each cycle.
-/

namespace FlowBlaze

namespace Hw

/-! ## The process -/

/-- What the master drives in a cycle. -/
structure AxiIn where
  arvalid : Bool
  araddr : BitVec 32
  awvalid : Bool
  awaddr : BitVec 32
  wvalid : Bool
  rready : Bool
  bready : Bool

/-- The registers of `AXI_SLAVE_FSM`. -/
structure AxiSlave where
  axiState : BitVec 3
  rvalid : Bool
  bvalid : Bool
  arready : Bool
  wready : Bool
  awready : Bool
  address : BitVec 32
  writeEnable : Bool
  readEnable : Bool
deriving DecidableEq

namespace AxiSlave

/-- "slave reset state". `read_enable` is left as it is. -/
def reset (s : AxiSlave) : AxiSlave :=
  { s with
    rvalid := false
    bvalid := false
    arready := false
    wready := false
    awready := false
    axiState := 0b000
    address := 0
    writeEnable := false }

/-- An address of the bus, as the core's registers are numbered. -/
def offset (baseaddr addr : BitVec 32) : BitVec 32 := addr - (baseaddr - 0x80000000)

/-- **A clock edge** of `AXI_SLAVE_FSM`, without reset. -/
def clock (baseaddr : BitVec 32) (p : AxiIn) (s : AxiSlave) : AxiSlave :=
  match s.axiState with
  | 0b000 =>
    let s := { s with
      awready := true
      arready := true
      wready := false
      rvalid := false
      bvalid := false
      readEnable := false
      writeEnable := false }
    if p.arvalid then
      { s with axiState := 0b001, address := offset baseaddr p.araddr, readEnable := true }
    else if p.awvalid && p.wvalid then
      { s with axiState := 0b100, address := offset baseaddr p.awaddr }
    else { s with axiState := 0b000 }
  | 0b001 =>
    { s with
      readEnable := true
      awready := false
      arready := false
      bvalid := false
      rvalid := false
      axiState := 0b010 }
  | 0b010 =>
    { s with
      readEnable := true
      awready := false
      arready := false
      bvalid := false
      rvalid := false
      axiState := 0b011 }
  | 0b011 =>
    { s with
      readEnable := true
      awready := false
      arready := false
      bvalid := false
      rvalid := true
      axiState := 0b111 }
  | 0b100 =>
    { s with
      writeEnable := true
      awready := false
      arready := false
      wready := true
      bvalid := true
      axiState := 0b111 }
  | 0b111 =>
    let s' := { s with
      readEnable := false
      writeEnable := false
      awready := false
      arready := false
      wready := false }
    if p.rready || (s.bvalid && p.bready) then
      { s' with rvalid := false, bvalid := false, axiState := 0b000 }
    else { s' with axiState := 0b111 }
  | _ => s

/-- The state in a cycle after a reset. -/
def run (baseaddr : BitVec 32) (s₀ : AxiSlave) (ports : ℕ → AxiIn) : ℕ → AxiSlave
  | 0 => s₀.reset
  | t + 1 => (run baseaddr s₀ ports t).clock baseaddr (ports t)

end AxiSlave

/-! ## Phases

What the slave is doing, apart from the address. -/

/-- The phases of the slave. It waits with or without its ready signals
up, and shows the response to a write with or without the write pulse. -/
inductive AxiPhase
  | wait (ready : Bool)
  | read1
  | read2
  | read3
  | write
  | readResponse
  | writeResponse (pulse : Bool)
deriving DecidableEq

namespace AxiPhase

/-- The phase after a cycle. -/
def next (p : AxiIn) : AxiPhase → AxiPhase
  | wait _ => if p.arvalid then read1 else if p.awvalid && p.wvalid then write else wait true
  | read1 => read2
  | read2 => read3
  | read3 => readResponse
  | write => writeResponse true
  | readResponse => if p.rready then wait false else readResponse
  | writeResponse _ => if p.rready || p.bready then wait false else writeResponse false

/-- The address is taken while the slave waits. -/
def latch (baseaddr : BitVec 32) (p : AxiIn) (address : BitVec 32) : AxiPhase → BitVec 32
  | wait _ =>
    if p.arvalid then AxiSlave.offset baseaddr p.araddr
    else if p.awvalid && p.wvalid then AxiSlave.offset baseaddr p.awaddr else address
  | _ => address

/-- Both address channels are ready. -/
def ready : AxiPhase → Bool
  | wait ready => ready
  | read1 | write => true
  | _ => false

/-- `axi_state`. -/
def axiState : AxiPhase → BitVec 3
  | wait _ => 0b000
  | read1 => 0b001
  | read2 => 0b010
  | read3 => 0b011
  | write => 0b100
  | readResponse | writeResponse _ => 0b111

/-- The write pulse. -/
def pulse : AxiPhase → Bool
  | writeResponse pulse => pulse
  | _ => false

/-- The response to a write. -/
def isWriteResponse : AxiPhase → Bool
  | writeResponse _ => true
  | _ => false

/-- **The registers in a phase.** -/
structure Shows (φ : AxiPhase) (address : BitVec 32) (s : AxiSlave) : Prop where
  axiState : s.axiState = φ.axiState
  rvalid : s.rvalid = (φ == readResponse)
  bvalid : s.bvalid = φ.isWriteResponse
  arready : s.arready = φ.ready
  awready : s.awready = φ.ready
  wready : s.wready = φ.pulse
  writeEnable : s.writeEnable = φ.pulse
  address : s.address = address

variable {baseaddr address : BitVec 32} {s : AxiSlave} {φ : AxiPhase}

/-- **A clock edge goes to the next phase.** -/
theorem Shows.clock (h : φ.Shows address s) (p : AxiIn) :
    (φ.next p).Shows (φ.latch baseaddr p address) (s.clock baseaddr p) := by
  obtain ⟨axiState, rvalid, bvalid, arready, wready, awready, address', writeEnable, _⟩ := s
  obtain ⟨hstate, hr, hb, har, haw, hw, hwe, ha⟩ := h
  cases hstate
  cases hr
  cases hb
  cases har
  cases haw
  cases hw
  cases hwe
  cases ha
  obtain ⟨arvalid, araddr, awvalid, awaddr, wvalid, rready, bready⟩ := p
  cases φ with
  | wait ready =>
    cases arvalid
    · cases awvalid
      · constructor <;> rfl
      · cases wvalid <;> constructor <;> rfl
    · constructor <;> rfl
  | read1 => constructor <;> rfl
  | read2 => constructor <;> rfl
  | read3 => constructor <;> rfl
  | write => constructor <;> rfl
  | readResponse => cases rready <;> constructor <;> rfl
  | writeResponse pulse =>
    cases rready
    · cases bready <;> constructor <;> rfl
    · constructor <;> rfl

/-! ### Going back -/

variable {p : AxiIn}

theorem before_read2 (h : φ.next p = read2) : φ = read1 := by
  cases φ <;> simp only [next] at h <;> (repeat' split at h) <;> first | rfl | cases h

theorem before_read3 (h : φ.next p = read3) : φ = read2 := by
  cases φ <;> simp only [next] at h <;> (repeat' split at h) <;> first | rfl | cases h

theorem before_readResponse (h : φ.next p = readResponse) (hne : φ ≠ readResponse) :
    φ = read3 := by
  cases φ <;> simp only [next] at h <;> (repeat' split at h) <;>
    first | rfl | exact absurd rfl hne | cases h

theorem before_writeResponse (h : (φ.next p).isWriteResponse = true)
    (hne : φ.isWriteResponse = false) : φ = write := by
  cases φ with
  | writeResponse pulse => cases hne
  | _ =>
    simp only [next] at h
    (repeat' split at h) <;> first | rfl | cases h

theorem before_pulse (h : (φ.next p).pulse = true) : φ = write := by
  cases φ <;> simp only [next] at h <;> (repeat' split at h) <;> first | rfl | cases h

/-! ### Runs -/

/-- The phase in a cycle after a reset. -/
def run (ports : ℕ → AxiIn) : ℕ → AxiPhase
  | 0 => wait false
  | t + 1 => (run ports t).next (ports t)

/-- The address in a cycle after a reset. -/
def addressAt (baseaddr : BitVec 32) (ports : ℕ → AxiIn) : ℕ → BitVec 32
  | 0 => 0
  | t + 1 => (run ports t).latch baseaddr (ports t) (addressAt baseaddr ports t)

/-- **Every state of a run** shows its phase. -/
theorem shows_run (s₀ : AxiSlave) (ports : ℕ → AxiIn) (t : ℕ) :
    (run ports t).Shows (addressAt baseaddr ports t) (AxiSlave.run baseaddr s₀ ports t) := by
  induction t with
  | zero => constructor <;> rfl
  | succ t ih => exact ih.clock (ports t)

end AxiPhase

/-! ## Reads and writes -/

/-- The two kinds of access. -/
inductive AxiKind
  | read
  | write
deriving DecidableEq

namespace AxiKind

/-- `ARVALID` and `AWVALID`. -/
def valid (p : AxiIn) : AxiKind → Bool
  | read => p.arvalid
  | write => p.awvalid

/-- `ARADDR` and `AWADDR`. -/
def addr (p : AxiIn) : AxiKind → BitVec 32
  | read => p.araddr
  | write => p.awaddr

/-- `ARREADY` and `AWREADY`. -/
def ready (s : AxiSlave) : AxiKind → Bool
  | read => s.arready
  | write => s.awready

/-- `RVALID` and `BVALID`. -/
def respValid (s : AxiSlave) : AxiKind → Bool
  | read => s.rvalid
  | write => s.bvalid

/-- `RREADY` and `BREADY`. -/
def respReady (p : AxiIn) : AxiKind → Bool
  | read => p.rready
  | write => p.bready

/-- The other kind. -/
def other : AxiKind → AxiKind
  | read => write
  | write => read

/-- The state after an address was taken. -/
def takenState : AxiKind → BitVec 3
  | read => 0b001
  | write => 0b100

/-- The phase after an address was taken. -/
def taken : AxiKind → AxiPhase
  | read => .read1
  | write => .write

/-- How many cycles after the address the response is there. -/
def latency : AxiKind → ℕ
  | read => 4
  | write => 2

end AxiKind

/-! ## The protocol -/

section Protocol

variable (baseaddr : BitVec 32) (ports : ℕ → AxiIn) (slave : ℕ → AxiSlave)

/-- **A master of the bus**: what it offers stays until it is taken. -/
structure AxiMaster : Prop where
  address : ∀ (k : AxiKind) t, k.valid (ports t) = true → k.ready (slave t) = false →
    k.valid (ports (t + 1)) = true ∧ k.addr (ports (t + 1)) = k.addr (ports t)
  data : ∀ t, (ports t).wvalid = true → (slave t).wready = false → (ports (t + 1)).wvalid = true

/-- An address handshake. -/
def Handshake (k : AxiKind) (t : ℕ) : Prop :=
  k.valid (ports t) = true ∧ k.ready (slave t) = true

/-- A response that starts. -/
def Responds (k : AxiKind) (u : ℕ) : Prop :=
  ∃ v, u = v + 1 ∧ k.respValid (slave v) = false ∧ k.respValid (slave u) = true

/-- **The answer** to a handshake: the one response that starts between it
and the next handshake of its kind, for its address. -/
structure Answer (k : AxiKind) (t u : ℕ) : Prop where
  after : t < u
  responds : Responds slave k u
  address : (slave u).address = AxiSlave.offset baseaddr (k.addr (ports t))
  first : ∀ v, t < v → v < u → ¬ Handshake ports slave k v
  once : ∀ v, t < v → Responds slave k v →
    v = u ∨ ∃ w, t < w ∧ w < v ∧ Handshake ports slave k w

/-- **The slave keeps the protocol.** -/
structure KeepsProtocol : Prop where
  holds : ∀ (k : AxiKind) t, k.respValid (slave t) = true → k.respReady (ports t) = false →
    k.respValid (slave (t + 1)) = true
  answers : ∀ k t, Handshake ports slave k t → ∃ u, Answer baseaddr ports slave k t u
  pulses : ∀ t, (slave t).writeEnable = true →
    (ports t).wvalid = true ∧ (slave t).wready = true

/-- **One access at a time**: a response to a write does not meet a
`RREADY` alone; an address for writing is offered to the waiting slave
with its data, and not beside one for reading; and in the cycle after an
address was taken none is offered but that one, if it has to be. -/
structure OneAtATime : Prop where
  bready : ∀ t, (slave t).bvalid = true → (ports t).rready = true → (ports t).bready = true
  waits : ∀ t, (slave t).axiState = 0b000 → (slave t).awready = true →
    (ports t).awvalid = true → (ports t).wvalid = true ∧ (ports t).arvalid = false
  alone : ∀ (k : AxiKind) t, (slave (t + 1)).axiState = k.takenState →
    k.other.valid (ports (t + 1)) = false ∧
      (k.ready (slave t) = true → k.valid (ports (t + 1)) = false)

end Protocol

/-! ## A run by phases -/

section Run

open AxiPhase

variable {baseaddr : BitVec 32} {s₀ : AxiSlave} {ports : ℕ → AxiIn} {k : AxiKind} {t u v : ℕ}

/-- The response of a kind. -/
def AxiKind.isResponse (φ : AxiPhase) : AxiKind → Bool
  | read => φ == readResponse
  | write => φ.isWriteResponse

theorem ready_run (s₀ : AxiSlave) :
    k.ready (AxiSlave.run baseaddr s₀ ports t) = (run ports t).ready := by
  cases k
  · exact (shows_run s₀ ports t).arready
  · exact (shows_run s₀ ports t).awready

theorem respValid_run (s₀ : AxiSlave) :
    k.respValid (AxiSlave.run baseaddr s₀ ports t) = k.isResponse (run ports t) := by
  cases k
  · exact (shows_run s₀ ports t).rvalid
  · exact (shows_run s₀ ports t).bvalid

theorem address_run (s₀ : AxiSlave) :
    (AxiSlave.run baseaddr s₀ ports t).address = addressAt baseaddr ports t :=
  (shows_run s₀ ports t).address

theorem wait_iff (s₀ : AxiSlave) :
    (AxiSlave.run baseaddr s₀ ports t).axiState = 0b000 ↔ ∃ ready, run ports t = wait ready := by
  rw [(shows_run s₀ ports t).axiState]
  cases run ports t <;> simp [AxiPhase.axiState]

theorem taken_iff (s₀ : AxiSlave) :
    (AxiSlave.run baseaddr s₀ ports t).axiState = k.takenState ↔ run ports t = k.taken := by
  rw [(shows_run s₀ ports t).axiState]
  cases k <;> cases run ports t <;> simp [AxiPhase.axiState, AxiKind.takenState, AxiKind.taken]

/-- An address is taken from the waiting slave, where it is valid, and
for writing with the data and not beside one for reading. -/
theorem wait_of_taken (h : run ports (t + 1) = k.taken) :
    (∃ ready, run ports t = wait ready) ∧ k.valid (ports t) = true ∧
      addressAt baseaddr ports (t + 1) = AxiSlave.offset baseaddr (k.addr (ports t)) ∧
      (k = .write → (ports t).wvalid = true ∧ (ports t).arvalid = false) := by
  unfold addressAt
  unfold run at h
  cases hφ : run ports t with
  | wait ready =>
    rw [hφ] at h
    unfold next at h
    unfold latch
    cases hr : (ports t).arvalid <;> cases hw : (ports t).awvalid <;>
      cases hd : (ports t).wvalid <;> cases k <;>
      simp_all [AxiKind.taken, AxiKind.valid, AxiKind.addr]
  | readResponse =>
    rw [hφ] at h
    unfold next at h
    cases hr : (ports t).rready <;> cases k <;> simp_all [AxiKind.taken]
  | writeResponse pulse =>
    rw [hφ] at h
    unfold next at h
    cases hr : (ports t).rready <;> cases hb : (ports t).bready <;> cases k <;>
      simp_all [AxiKind.taken]
  | _ =>
    rw [hφ] at h
    cases k <;> cases h

/-- **The cycles of an access**: the slave is ready in the first one only,
does not wait, responds in the last one, and keeps the address. -/
theorem access_of_taken (h : run ports (t + 1) = k.taken) :
    k.isResponse (run ports (t + k.latency)) = true ∧
      addressAt baseaddr ports (t + k.latency) = addressAt baseaddr ports (t + 1) ∧
      ∀ v, t < v → v ≤ t + k.latency → (∀ ready, run ports v ≠ wait ready) ∧
        (t + 1 < v → (run ports v).ready = false) ∧
        (v < t + k.latency → k.isResponse (run ports v) = false) := by
  cases k with
  | read =>
    have h1 : run ports (t + 1) = read1 := h
    have h2 : run ports (t + 2) = read2 := congrArg (next (ports (t + 1))) h1
    have h3 : run ports (t + 3) = read3 := congrArg (next (ports (t + 2))) h2
    have h4 : run ports (t + 4) = readResponse := congrArg (next (ports (t + 3))) h3
    refine ⟨?_, ?_, fun v hv hle => ?_⟩
    · change (run ports (t + 4) == readResponse) = true
      rw [h4]
      rfl
    · change addressAt baseaddr ports (t + 4) = _
      simp only [addressAt, h1, h2, h3, latch]
    · have hle : v ≤ t + 4 := hle
      have hcases : v = t + 1 ∨ v = t + 2 ∨ v = t + 3 ∨ v = t + 4 := by omega
      rcases hcases with rfl | rfl | rfl | rfl
      · simp [h1, AxiKind.isResponse]
      · simp [h2, AxiKind.isResponse, AxiPhase.ready]
      · simp [h3, AxiKind.isResponse, AxiPhase.ready]
      · simp [h4, AxiKind.latency, AxiPhase.ready]
  | write =>
    have h1 : run ports (t + 1) = AxiPhase.write := h
    have h2 : run ports (t + 2) = writeResponse true := congrArg (next (ports (t + 1))) h1
    refine ⟨?_, ?_, fun v hv hle => ?_⟩
    · change (run ports (t + 2)).isWriteResponse = true
      rw [h2]
      rfl
    · change addressAt baseaddr ports (t + 2) = _
      simp only [addressAt, h1, latch]
    · have hle : v ≤ t + 2 := hle
      have hcases : v = t + 1 ∨ v = t + 2 := by omega
      rcases hcases with rfl | rfl
      · simp [h1, AxiKind.isResponse, isWriteResponse]
      · simp [h2, AxiKind.latency, AxiPhase.ready]

/-- A response that starts ends an access. -/
theorem taken_of_response (hv : k.isResponse (run ports v) = false)
    (hu : k.isResponse (run ports (v + 1)) = true) :
    ∃ t, v + 1 = t + k.latency ∧ run ports (t + 1) = k.taken := by
  cases k with
  | read =>
    -- back to the address, cycle by cycle
    have h3 : run ports v = read3 := before_readResponse (beq_iff_eq.mp hu)
      (beq_eq_false_iff_ne.mp hv)
    obtain _ | _ | _ | n := v
    · cases h3
    · cases before_read3 h3
    · cases before_read2 (before_read3 h3)
    · exact ⟨n, rfl, before_read2 (before_read3 h3)⟩
  | write =>
    have h1 : run ports v = AxiPhase.write := before_writeResponse hu hv
    obtain _ | n := v
    · cases h1
    · exact ⟨n, rfl, h1⟩

/-- **The responses of a run** end the accesses. -/
theorem responds_iff :
    Responds (AxiSlave.run baseaddr s₀ ports) k u ↔
      ∃ t, u = t + k.latency ∧ run ports (t + 1) = k.taken := by
  constructor
  · rintro ⟨v, rfl, hv, hu⟩
    rw [respValid_run] at hv hu
    exact taken_of_response hv hu
  · rintro ⟨t, rfl, h⟩
    obtain ⟨hresponse, -, hcycles⟩ := @access_of_taken baseaddr _ _ _ h
    obtain ⟨n, hn⟩ : ∃ n, k.latency = n + 2 := by
      cases k
      · exact ⟨2, rfl⟩
      · exact ⟨0, rfl⟩
    refine ⟨t + n + 1, by omega, ?_, ?_⟩
    · rw [respValid_run]
      exact (hcycles (t + n + 1) (by omega) (by omega)).2.2 (by omega)
    · rw [respValid_run]
      exact hresponse

/-- **An address that is taken** is handed over then or in the next
cycle. -/
theorem handshake_of_taken (hmaster : AxiMaster ports (AxiSlave.run baseaddr s₀ ports))
    (h : run ports (t + 1) = k.taken) :
    Handshake ports (AxiSlave.run baseaddr s₀ ports) k t ∨
      k.ready (AxiSlave.run baseaddr s₀ ports t) = false ∧
        k.addr (ports (t + 1)) = k.addr (ports t) ∧
        Handshake ports (AxiSlave.run baseaddr s₀ ports) k (t + 1) := by
  obtain ⟨-, hvalid, -, -⟩ := @wait_of_taken baseaddr _ _ _ h
  cases hready : k.ready (AxiSlave.run baseaddr s₀ ports t) with
  | true => exact .inl ⟨hvalid, hready⟩
  | false =>
    obtain ⟨hvalid', haddr⟩ := hmaster.address k t hvalid hready
    refine .inr ⟨rfl, haddr, hvalid', ?_⟩
    rw [ready_run, h]
    cases k <;> rfl

/-- Accesses do not overlap. -/
theorem access_before (h : run ports (t + 1) = k.taken) {k' : AxiKind} {t' : ℕ}
    (h' : run ports (t' + 1) = k'.taken) (hlt : t < t') : t + k.latency < t' := by
  obtain ⟨-, -, hcycles⟩ := @access_of_taken 0 _ _ _ h
  obtain ⟨⟨ready, hwait⟩, -⟩ := @wait_of_taken 0 _ _ _ h'
  by_contra hle
  exact (hcycles t' hlt (by omega)).1 ready hwait

/-- The answer to the handshake of an address that is taken. -/
theorem answer_of_taken (hmaster : AxiMaster ports (AxiSlave.run baseaddr s₀ ports)) {t₀ : ℕ}
    (h : run ports (t₀ + 1) = k.taken) (ht : t = t₀ ∨ t = t₀ + 1)
    (haddr : k.addr (ports t) = k.addr (ports t₀))
    (hfirst : ∀ v, t < v → v < t₀ + k.latency →
      ¬ Handshake ports (AxiSlave.run baseaddr s₀ ports) k v) :
    Answer baseaddr ports (AxiSlave.run baseaddr s₀ ports) k t (t₀ + k.latency) := by
  have hlatency : 2 ≤ k.latency := by cases k <;> decide
  refine ⟨by omega, responds_iff.mpr ⟨t₀, rfl, h⟩, ?_, hfirst, fun v hv hresponds => ?_⟩
  · rw [address_run, (access_of_taken h).2.1, (wait_of_taken h).2.2.1, haddr]
  · obtain ⟨t₁, rfl, h₁⟩ := responds_iff.mp hresponds
    rcases Nat.lt_trichotomy t₀ t₁ with hlt | rfl | hlt
    · -- a later access: its address is handed over after this response
      have hafter := access_before h h₁ hlt
      rcases handshake_of_taken hmaster h₁ with hshake | ⟨-, -, hshake⟩
      · exact .inr ⟨t₁, by omega, by omega, hshake⟩
      · exact .inr ⟨t₁ + 1, by omega, by omega, hshake⟩
    · exact .inl rfl
    · have hbefore := access_before h₁ h hlt
      omega

/-! ## When the slave keeps the protocol -/

/-- A handshake is in a cycle in which the slave waits, or in the one after
an address was taken. -/
theorem cases_of_ready (h : (run ports t).ready = true) :
    run ports t = wait true ∨ ∃ (k : AxiKind) (t₀ : ℕ), t = t₀ + 1 ∧ run ports t = k.taken := by
  cases hφ : run ports t with
  | wait ready =>
    rw [hφ] at h
    cases ready
    · cases h
    · exact .inl rfl
  | read1 =>
    obtain _ | t₀ := t
    · cases hφ
    · exact .inr ⟨.read, t₀, rfl, rfl⟩
  | write =>
    obtain _ | t₀ := t
    · cases hφ
    · exact .inr ⟨.write, t₀, rfl, rfl⟩
  | _ =>
    rw [hφ] at h
    cases h

/-- One access at a time is answered. -/
theorem answers_of_oneAtATime (hmaster : AxiMaster ports (AxiSlave.run baseaddr s₀ ports))
    (h : OneAtATime ports (AxiSlave.run baseaddr s₀ ports))
    (hshake : Handshake ports (AxiSlave.run baseaddr s₀ ports) k t) :
    ∃ u, Answer baseaddr ports (AxiSlave.run baseaddr s₀ ports) k t u := by
  obtain ⟨hvalid, hready⟩ := hshake
  have hphase := cases_of_ready ((ready_run s₀).symm.trans hready)
  have hnext : ∀ t₀, run ports (t₀ + 1) = k.taken → ∀ v, t₀ + 1 < v → v < t₀ + k.latency →
      ¬ Handshake ports (AxiSlave.run baseaddr s₀ ports) k v := by
    intro t₀ htaken v hv hlt hshake
    have hdown := ((@access_of_taken baseaddr _ _ _ htaken).2.2 v (by omega) (by omega)).2.1 hv
    rw [← @ready_run baseaddr _ k _ s₀, hshake.2] at hdown
    cases hdown
  rcases hphase with hwait | ⟨k', t₀, rfl, htaken⟩
  · -- the slave takes the address in this cycle
    have htaken : run ports (t + 1) = k.taken := by
      change (run ports t).next (ports t) = _
      rw [hwait]
      cases k with
      | read => exact if_pos hvalid
      | write =>
        obtain ⟨hdata, hread⟩ := h.waits t ((wait_iff s₀).mpr ⟨_, hwait⟩) hready hvalid
        have hvalid : (ports t).awvalid = true := hvalid
        simp only [next, hread, hvalid, hdata]
        rfl
    refine ⟨_, answer_of_taken hmaster htaken (.inl rfl) rfl fun v hv hlt hshake => ?_⟩
    by_cases hv1 : v = t + 1
    · obtain ⟨-, hnone⟩ := h.alone k t ((taken_iff s₀).mpr htaken)
      rw [hv1] at hshake
      cases (hnone hready).symm.trans hshake.1
    · exact hnext t htaken v (by omega) hlt hshake
  · -- the slave took it in the cycle before
    obtain ⟨hother, hnone⟩ := h.alone k' t₀ ((taken_iff s₀).mpr htaken)
    obtain rfl : k = k' := by
      cases k <;> cases k' <;> first | rfl | cases hother.symm.trans hvalid
    have hdown : k.ready (AxiSlave.run baseaddr s₀ ports t₀) = false :=
      Bool.eq_false_iff.mpr fun hup => by cases (hnone hup).symm.trans hvalid
    obtain ⟨-, hvalid₀, -⟩ := @wait_of_taken baseaddr _ _ _ htaken
    exact ⟨_, answer_of_taken hmaster htaken (.inr rfl) (hmaster.address k t₀ hvalid₀ hdown).2
      (hnext t₀ htaken)⟩

/-- A handshake that is answered lies in the access that answers it. -/
theorem access_of_answer (hmaster : AxiMaster ports (AxiSlave.run baseaddr s₀ ports))
    (h : Answer baseaddr ports (AxiSlave.run baseaddr s₀ ports) k t u) :
    ∃ t₀, u = t₀ + k.latency ∧ run ports (t₀ + 1) = k.taken ∧ t₀ ≤ t := by
  obtain ⟨t₀, rfl, htaken⟩ := responds_iff.mp h.responds
  have hlatency : 2 ≤ k.latency := by cases k <;> decide
  refine ⟨t₀, rfl, htaken, ?_⟩
  by_contra hlt
  rcases handshake_of_taken hmaster htaken with hshake | ⟨-, -, hshake⟩
  · exact h.first t₀ (by omega) (by omega) hshake
  · exact h.first (t₀ + 1) (by omega) (by omega) hshake

/-- A slave that keeps the protocol is used for one access at a time. -/
theorem oneAtATime_of_keepsProtocol
    (hmaster : AxiMaster ports (AxiSlave.run baseaddr s₀ ports))
    (h : KeepsProtocol baseaddr ports (AxiSlave.run baseaddr s₀ ports)) :
    OneAtATime ports (AxiSlave.run baseaddr s₀ ports) where
  bready t hb hrready := by
    by_contra hbready
    have hholds := h.holds .write t hb (Bool.eq_false_iff.mpr hbready)
    rw [respValid_run] at hholds
    have hresponse : (run ports t).isWriteResponse = true :=
      (respValid_run (k := .write) s₀).symm.trans hb
    have hholds : ((run ports t).next (ports t)).isWriteResponse = true := hholds
    cases hφ : run ports t with
    | writeResponse pulse =>
      rw [hφ] at hholds
      unfold next at hholds
      rw [hrready] at hholds
      cases hholds
    | _ =>
      rw [hφ] at hresponse
      cases hresponse
  waits t hwait hready hvalid := by
    obtain ⟨ready, hwait⟩ := (wait_iff s₀).mp hwait
    obtain ⟨u, hanswer⟩ := h.answers .write t ⟨hvalid, hready⟩
    obtain ⟨t₀, rfl, htaken, hle⟩ := access_of_answer hmaster hanswer
    have hafter := hanswer.after
    obtain rfl : t₀ = t := by
      by_contra hne
      exact ((@access_of_taken baseaddr _ _ _ htaken).2.2 t (by omega)
        (by omega)).1 ready hwait
    exact (@wait_of_taken baseaddr _ _ _ htaken).2.2.2 rfl
  alone k t htaken := by
    have htaken := (taken_iff s₀).mp htaken
    have hready : ∀ k' : AxiKind, k'.ready (AxiSlave.run baseaddr s₀ ports (t + 1)) = true := by
      intro k'
      rw [ready_run, htaken]
      cases k <;> rfl
    refine ⟨Bool.eq_false_iff.mpr fun hvalid => ?_,
      fun hup => Bool.eq_false_iff.mpr fun hvalid => ?_⟩
    · -- the other address would be answered by an access of its own
      obtain ⟨u, hanswer⟩ := h.answers k.other (t + 1) ⟨hvalid, hready _⟩
      obtain ⟨t₀, rfl, htaken', hle⟩ := access_of_answer hmaster hanswer
      have hafter := hanswer.after
      rcases Nat.lt_trichotomy t₀ t with hlt | rfl | hlt
      · have := access_before htaken' htaken hlt
        omega
      · cases k <;> cases htaken.symm.trans htaken'
      · have := access_before htaken htaken' hlt
        have hlatency : 2 ≤ k.latency := by cases k <;> decide
        omega
    · -- a second address would follow before the response to the first
      obtain ⟨-, hvalid₀, -⟩ := @wait_of_taken baseaddr _ _ _ htaken
      obtain ⟨u, hanswer⟩ := h.answers k t ⟨hvalid₀, hup⟩
      obtain ⟨t₀, rfl, htaken', hle⟩ := access_of_answer hmaster hanswer
      have hlatency : 2 ≤ k.latency := by cases k <;> decide
      have hafter := hanswer.after
      obtain rfl : t₀ = t := by
        by_contra hne
        have := access_before htaken' htaken (by omega)
        omega
      exact hanswer.first (t₀ + 1) (by omega) (by omega) ⟨hvalid, hready k⟩

/-- A response stays until the master takes it. -/
theorem holds_of_oneAtATime (h : OneAtATime ports (AxiSlave.run baseaddr s₀ ports))
    (hvalid : k.respValid (AxiSlave.run baseaddr s₀ ports t) = true)
    (hready : k.respReady (ports t) = false) :
    k.respValid (AxiSlave.run baseaddr s₀ ports (t + 1)) = true := by
  have hbready := h.bready t
  have hresponse := (respValid_run s₀).symm.trans hvalid
  rw [respValid_run]
  change k.isResponse ((run ports t).next (ports t)) = true
  cases k with
  | read =>
    have hready : (ports t).rready = false := hready
    rw [beq_iff_eq.mp hresponse]
    simp [next, hready, AxiKind.isResponse]
  | write =>
    have hready : (ports t).bready = false := hready
    have hrready : (ports t).rready = false :=
      Bool.eq_false_iff.mpr fun hup => by cases (hbready hvalid hup).symm.trans hready
    cases hφ : run ports t with
    | writeResponse pulse => simp [next, hready, hrready, AxiKind.isResponse, isWriteResponse]
    | _ =>
      rw [hφ] at hresponse
      cases hresponse

/-- A write pulse meets the data. -/
theorem pulse_of_master (hmaster : AxiMaster ports (AxiSlave.run baseaddr s₀ ports))
    (h : (AxiSlave.run baseaddr s₀ ports t).writeEnable = true) :
    (ports t).wvalid = true ∧ (AxiSlave.run baseaddr s₀ ports t).wready = true := by
  have hshows : ∀ n, (run ports n).Shows (addressAt baseaddr ports n)
      (AxiSlave.run baseaddr s₀ ports n) := shows_run s₀ ports
  have hpulse : (run ports t).pulse = true := (hshows t).writeEnable.symm.trans h
  refine ⟨?_, (hshows t).wready.trans hpulse⟩
  have hdown : ∀ n, (run ports n).pulse = false → (ports n).wvalid = true →
      (ports (n + 1)).wvalid = true :=
    fun n hn hvalid => hmaster.data n hvalid ((hshows n).wready.trans hn)
  -- the data is there with the address, two cycles before
  obtain _ | t := t
  · cases hpulse
  have hwrite : run ports t = AxiKind.write.taken := before_pulse hpulse
  obtain _ | t := t
  · cases hwrite
  obtain ⟨⟨ready, hwait⟩, -, -, hdata⟩ := @wait_of_taken baseaddr _ _ _ hwrite
  have hfirst := hdown t (by rw [hwait]; rfl) (hdata rfl).1
  exact hdown (t + 1) (by rw [hwrite]; rfl) hfirst

/-- **When the slave keeps the protocol**, with a master that does: exactly
when it is used for one access at a time. -/
theorem keepsProtocol_iff (baseaddr : BitVec 32) (s₀ : AxiSlave) (ports : ℕ → AxiIn)
    (hmaster : AxiMaster ports (AxiSlave.run baseaddr s₀ ports)) :
    KeepsProtocol baseaddr ports (AxiSlave.run baseaddr s₀ ports) ↔
      OneAtATime ports (AxiSlave.run baseaddr s₀ ports) :=
  ⟨oneAtATime_of_keepsProtocol hmaster, fun h =>
    ⟨fun _ _ => holds_of_oneAtATime h, fun _ _ => answers_of_oneAtATime hmaster h,
      fun _ => pulse_of_master hmaster⟩⟩

end Run

/-! ## Masters -/

/-- A write of a register, its data offered until the write pulse, and
then a read of it. The master waits for its responses. -/
def writeThenRead (t : ℕ) : AxiIn where
  arvalid := t = 4 ∨ t = 5
  araddr := 0x80000008
  awvalid := t = 1
  awaddr := 0x80000008
  wvalid := 1 ≤ t ∧ t ≤ 3
  rready := 8 ≤ t
  bready := 3 ≤ t

/-- A slave with every register clear. -/
def AxiSlave.clear : AxiSlave := ⟨0b000, false, false, false, false, false, 0, false, false⟩

/-- The write and the read are answered. -/
theorem keepsProtocol_writeThenRead :
    KeepsProtocol 0x80000000 writeThenRead
      (AxiSlave.run 0x80000000 AxiSlave.clear writeThenRead) := by
  have hready : ∀ (k : AxiKind) (t : ℕ),
      k.ready (AxiSlave.run 0x80000000 AxiSlave.clear writeThenRead t) =
        (AxiPhase.run writeThenRead t).ready := fun k t => ready_run AxiSlave.clear
  have har : ∀ {t}, (writeThenRead t).arvalid = true → t = 4 ∨ t = 5 := fun h => of_decide_eq_true h
  have haw : ∀ {t}, (writeThenRead t).awvalid = true → t = 1 := fun h => of_decide_eq_true h
  refine (keepsProtocol_iff 0x80000000 AxiSlave.clear writeThenRead ⟨fun k t hvalid hdown => ?_,
    fun t hvalid hdown => ?_⟩).mpr ⟨fun t _ hrready => ?_, fun t _ _ hvalid => ?_,
      fun k t htaken => ?_⟩
  · rw [hready] at hdown
    cases k with
    | read =>
      rcases har hvalid with rfl | rfl
      · decide
      · exact absurd hdown (by decide)
    | write =>
      obtain rfl := haw hvalid
      exact absurd hdown (by decide)
  · have ht : 1 ≤ t ∧ t ≤ 3 := of_decide_eq_true hvalid
    rw [(AxiPhase.shows_run AxiSlave.clear writeThenRead t).wready] at hdown
    have hcases : t = 1 ∨ t = 2 ∨ t = 3 := by omega
    rcases hcases with rfl | rfl | rfl
    · decide
    · decide
    · exact absurd hdown (by decide)
  · have ht : 8 ≤ t := of_decide_eq_true hrready
    exact decide_eq_true (by omega : 3 ≤ t)
  · obtain rfl := haw hvalid
    decide
  · rw [hready]
    have hphase := (taken_iff AxiSlave.clear).mp htaken
    refine ⟨Bool.eq_false_iff.mpr fun hother => ?_, fun hup => Bool.eq_false_iff.mpr fun hown => ?_⟩
    · cases k with
      | read =>
        obtain rfl : t = 0 := by have := haw hother; omega
        exact absurd hphase (by decide)
      | write =>
        have ht : t = 3 ∨ t = 4 := by have := har hother; omega
        rcases ht with rfl | rfl <;> exact absurd hphase (by decide)
    · cases k with
      | read =>
        have ht : t = 3 ∨ t = 4 := by have := har hown; omega
        rcases ht with rfl | rfl
        · exact absurd hphase (by decide)
        · exact absurd hup (by decide)
      | write =>
        obtain rfl : t = 0 := by have := haw hown; omega
        exact absurd hphase (by decide)

/-- A write by a master that is always ready for what it reads, but not
yet for the response to a write. -/
def writeWithRready (t : ℕ) : AxiIn where
  arvalid := false
  araddr := 0
  awvalid := t = 1
  awaddr := 0x80000008
  wvalid := 1 ≤ t ∧ t ≤ 3
  rready := true
  bready := 4 ≤ t

/-- **A write is not acknowledged**: the response is gone before the master
takes it. -/
theorem not_keepsProtocol :
    ∃ ports : ℕ → AxiIn, ∀ s₀ : AxiSlave,
      AxiMaster ports (AxiSlave.run 0x80000000 s₀ ports) ∧
        ¬ KeepsProtocol 0x80000000 ports (AxiSlave.run 0x80000000 s₀ ports) := by
  refine ⟨writeWithRready, fun s₀ => ⟨⟨fun k t hvalid hdown => ?_, fun t hvalid hdown => ?_⟩,
    fun h => ?_⟩⟩
  · rw [ready_run] at hdown
    cases k with
    | read => cases hvalid
    | write =>
      obtain rfl : t = 1 := of_decide_eq_true hvalid
      exact absurd hdown (by decide)
  · have ht : 1 ≤ t ∧ t ≤ 3 := of_decide_eq_true hvalid
    rw [(AxiPhase.shows_run s₀ writeWithRready t).wready] at hdown
    have hcases : t = 1 ∨ t = 2 ∨ t = 3 := by omega
    rcases hcases with rfl | rfl | rfl
    · decide
    · decide
    · exact absurd hdown (by decide)
  · have hvalid : AxiKind.write.respValid
        (AxiSlave.run 0x80000000 s₀ writeWithRready 3) = true := by
      rw [respValid_run]
      decide
    have hholds := h.holds .write 3 hvalid (by decide)
    rw [respValid_run] at hholds
    exact absurd hholds (by decide)

end Hw

end FlowBlaze
