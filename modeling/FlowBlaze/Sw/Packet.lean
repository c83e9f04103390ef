import Mathlib.Data.List.Basic
/-!
# Packets and header pointers — `pkt-parser.c`

A table keeps, for each header field, a pointer into the packet at hand,
or `NULL`. The parser sets the pointers of the headers it finds and
resets some of the others; `get_hdr_value` reads through them.

A pointer says which packet it points into, by the packet's number. A
packet that was handled before is gone, and reading through a pointer
into it has no result (`none`), nor has reading outside the packet's
data, nor an undefined shift. Shifting a byte into the sign bit is taken
as GCC takes it.
-/

namespace FlowBlaze

namespace Sw

/-- `uint8_t`. -/
abbrev Byte := BitVec 8

/-- `uint64_t`, and `int64_t`. -/
abbrev Word64 := BitVec 64

/-- `hdr_fields`, in its order. -/
inductive HdrField
  | srcMac
  | dstMac
  | ethType
  | ipv4Src
  | ipv4Dst
  | ipv4Proto
  | ipv4Tos
  | icmpType
  | icmpCode
  | icmpId
  | icmpSeq
  | icmpPayload
  | tcpSport
  | tcpDport
  | udpSport
  | udpDport
  | gtpTeid
  | innerIpv4Src
  | innerIpv4Dst
  | innerIpv4Proto
  | innerTcpSport
  | innerTcpDport
  | innerUdpSport
  | innerUdpDport
  | xfsmInPort
  | xfsmMetadata0
  | xfsmMetadata1
  | xfsmTimestamp
deriving DecidableEq, Repr

/-- The enumerators, each at its number. -/
def HdrField.all : List HdrField :=
  [.srcMac, .dstMac, .ethType, .ipv4Src, .ipv4Dst, .ipv4Proto, .ipv4Tos, .icmpType, .icmpCode,
    .icmpId, .icmpSeq, .icmpPayload, .tcpSport, .tcpDport, .udpSport, .udpDport, .gtpTeid,
    .innerIpv4Src, .innerIpv4Dst, .innerIpv4Proto, .innerTcpSport, .innerTcpDport,
    .innerUdpSport, .innerUdpDport, .xfsmInPort, .xfsmMetadata0, .xfsmMetadata1, .xfsmTimestamp]

/-- The entry of `pkt_fields` at a number. There are `NUM_HDR_FIELDS`, and
past them there is none. -/
def HdrField.ofNumber (n : ℕ) : Option HdrField := HdrField.all[n]?

/-- The number of an enumerator. -/
def HdrField.number (f : HdrField) : ℕ := HdrField.all.idxOf f

theorem HdrField.ofNumber_number (f : HdrField) : ofNumber f.number = some f := by
  cases f <;> rfl

/-- `xfsm_header_fields[f].len`. The rows of the ICMP type and code stand
in each other's place there, and are of one length. -/
def HdrField.len : HdrField → ℕ
  | .srcMac | .dstMac => 6
  | .ethType => 2
  | .ipv4Src | .ipv4Dst => 4
  | .ipv4Proto | .ipv4Tos => 1
  | .icmpType | .icmpCode => 1
  | .icmpId | .icmpSeq => 2
  | .icmpPayload => 4
  | .tcpSport | .tcpDport | .udpSport | .udpDport => 2
  | .gtpTeid => 4
  | .innerIpv4Src | .innerIpv4Dst => 4
  | .innerIpv4Proto => 1
  | .innerTcpSport | .innerTcpDport | .innerUdpSport | .innerUdpDport => 2
  | .xfsmInPort => 1
  | .xfsmMetadata0 | .xfsmMetadata1 => 4
  | .xfsmTimestamp => 8

/-! ## Memory -/

/-- `struct rte_mbuf`, as far as it is used. -/
structure Mbuf where
  data : List Byte
  userdata : Word64
  timestamp : Word64
deriving DecidableEq

/-- A packet received: its number, and the buffer it is in. -/
structure Packet where
  number : ℕ
  mbuf : Mbuf
deriving DecidableEq

/-- A header pointer: to the table's `in_port`, into the data of a packet,
or to its metadata or timestamp. -/
inductive Ptr
  | inPort
  | data (packet off : ℕ)
  | userdata (packet off : ℕ)
  | timestamp (packet : ℕ)
deriving DecidableEq

/-- `pkt_fields`; `none` is `NULL`. -/
abbrev PktFields := HdrField → Option Ptr

/-- `pkt_fields` of a new table. -/
def PktFields.null : PktFields := fun _ => none

/-- `pkt_fields[f].value = v`. -/
def PktFields.set (fields : PktFields) (f : HdrField) (v : Option Ptr) : PktFields :=
  fun g => if g = f then v else fields g

/-- What header pointers may point at: the table's `in_port` and the
packet at hand. -/
structure Mem where
  inPort : Byte
  packet : Packet

/-- A byte of a word of memory, least significant first. -/
def hostByte (w : Word64) (i : ℕ) : Byte := w.extractLsb' (8 * i) 8

/-- The byte that many bytes past a pointer. -/
def Mem.byte (M : Mem) : Ptr → ℕ → Option Byte
  | .inPort, i => if i = 0 then some M.inPort else none
  | .data packet off, i => if packet = M.packet.number then M.packet.mbuf.data[off + i]? else none
  | .userdata packet off, i =>
    if packet = M.packet.number ∧ off + i < 8 then some (hostByte M.packet.mbuf.userdata (off + i))
    else none
  | .timestamp packet, i =>
    if packet = M.packet.number ∧ i < 8 then some (hostByte M.packet.mbuf.timestamp i) else none

/-! ## Reading a field -/

/-- `(byte << n)`: a byte is an `int` there. -/
def intShl (b : Byte) (n : ℕ) : Option (BitVec 32) :=
  if n < 32 then some (b.setWidth 32 <<< n) else none

/-- `be64ptr2h`. The first byte is shifted by forty places as an `int`. -/
def be64ptr2h (byte : ℕ → Option Byte) : Option Word64 :=
  (List.range 6).foldlM (fun value i => do
    let shifted ← intShl (← byte i) ((5 - i) * 8)
    return value ||| shifted.signExtend 64) 0

/-- `be32ptr2h`. -/
def be32ptr2h (byte : ℕ → Option Byte) : Option (BitVec 32) := do
  let b3 ← intShl (← byte 3) 0
  let b2 ← intShl (← byte 2) 8
  let b1 ← intShl (← byte 1) 16
  let b0 ← intShl (← byte 0) 24
  return b3 ||| b2 ||| b1 ||| b0

/-- `be16ptr2h`. -/
def be16ptr2h (byte : ℕ → Option Byte) : Option (BitVec 16) := do
  let b1 ← intShl (← byte 1) 0
  let b0 ← intShl (← byte 0) 8
  return (b1 ||| b0).setWidth 16

/-- `*((uint64_t *) byte)`, on a little-endian host. -/
def hostWord (byte : ℕ → Option Byte) : Option Word64 :=
  (List.range 8).foldlM (fun value i => do
    let b ← byte i
    return value ||| (b.setWidth 64 <<< (8 * i))) 0

/-- The `switch` of `get_hdr_value`, on the length of the field. The
timestamp is the only field of eight bytes. -/
def readField (M : Mem) (f : HdrField) (ptr : Ptr) : Option Word64 :=
  match f.len with
  | 8 => hostWord (M.byte ptr)
  | 6 => be64ptr2h (M.byte ptr)
  | 4 => (be32ptr2h (M.byte ptr)).map (·.setWidth 64)
  | 2 => (be16ptr2h (M.byte ptr)).map (·.setWidth 64)
  | _ => (M.byte ptr 0).map (·.setWidth 64)

/-- `get_hdr_value`: `some none` is the error return, which leaves the
caller's value alone. -/
def getHdrValue (M : Mem) (fields : PktFields) (f : HdrField) : Option (Option Word64) :=
  match fields f with
  | none => some none
  | some ptr => (readField M f ptr).map some

/-! ## The parser -/

/-- `ETHER_HDR_LEN`. -/
def etherHdrLen : ℕ := 14

/-- `IPPROTO_TCP`. -/
def ipprotoTcp : Byte := 6

/-- `IPPROTO_UDP`. -/
def ipprotoUdp : Byte := 17

/-- `IPV4_ICMP_PROTO`. -/
def ipv4IcmpProto : Byte := 1

/-- `GTP_PORT`. -/
def gtpPort : Word64 := 2152

/-- `GTP_HEADER_SIZE`. -/
def gtpHeaderSize : ℕ := 8

/-- The branch of `parse_pkt_header` taken for a UDP packet, after the
ports are set. -/
def parseGtp (M : Mem) (eth ipv4 tp : ℕ) (fields : PktFields) : Option PktFields := do
  let pkt := M.packet.number
  let dport := (← getHdrValue M fields .udpDport).getD 0
  if dport = gtpPort then
    let gtpU := tp + 8
    let fields := fields.set .gtpTeid (some (.data pkt (gtpU + 4)))
    let inIpv4 := gtpU + gtpHeaderSize
    let fields := fields.set .innerIpv4Dst (some (.data pkt (ipv4 + 16)))
    let fields := fields.set .innerIpv4Src (some (.data pkt (ipv4 + 12)))
    let fields := fields.set .innerIpv4Proto (some (.data pkt (ipv4 + 9)))
    let inTp := inIpv4 + 20
    let inProto ← M.byte (.data pkt eth) (inIpv4 + 9)
    if inProto = ipprotoTcp then
      let fields := fields.set .innerTcpSport (some (.data pkt inTp))
      let fields := fields.set .innerTcpDport (some (.data pkt (inTp + 2)))
      let fields := fields.set .innerUdpSport none
      return fields.set .innerUdpDport none
    else if inProto = ipprotoUdp then
      let fields := fields.set .innerUdpSport (some (.data pkt inTp))
      let fields := fields.set .innerUdpDport (some (.data pkt (inTp + 2)))
      let fields := fields.set .innerTcpSport none
      return fields.set .innerTcpDport none
    else return fields
  else
    let fields := fields.set .gtpTeid none
    let fields := fields.set .innerIpv4Dst none
    let fields := fields.set .innerIpv4Src none
    let fields := fields.set .innerIpv4Proto none
    let fields := fields.set .innerTcpSport none
    let fields := fields.set .innerTcpDport none
    let fields := fields.set .innerUdpSport none
    return fields.set .innerUdpDport none

/-- `parse_pkt_header`, on a packet that is there. The value it returns is
not used. -/
def parsePktHeader (M : Mem) (fields : PktFields) : Option PktFields := do
  let pkt := M.packet.number
  let fields := fields.set .xfsmInPort (some .inPort)
  let fields :=
    if M.packet.mbuf.userdata ≠ 0 then
      (fields.set .xfsmMetadata0 (some (.userdata pkt 0))).set .xfsmMetadata1
        (some (.userdata pkt 4))
    else (fields.set .xfsmMetadata0 none).set .xfsmMetadata1 none
  let eth := 0
  let fields := fields.set .srcMac (some (.data pkt (eth + 6)))
  let fields := fields.set .dstMac (some (.data pkt eth))
  let fields := fields.set .ethType (some (.data pkt (eth + 12)))
  let ipv4 := eth + etherHdrLen
  let fields := fields.set .ipv4Dst (some (.data pkt (ipv4 + 16)))
  let fields := fields.set .ipv4Src (some (.data pkt (ipv4 + 12)))
  let fields := fields.set .ipv4Proto (some (.data pkt (ipv4 + 9)))
  let fields := fields.set .ipv4Tos (some (.data pkt (ipv4 + 1)))
  let tp := ipv4 + 20
  let proto ← M.byte (.data pkt eth) (ipv4 + 9)
  let fields ←
    if proto = ipprotoTcp then
      let fields := fields.set .tcpSport (some (.data pkt tp))
      let fields := fields.set .tcpDport (some (.data pkt (tp + 2)))
      let fields := fields.set .udpSport none
      pure (fields.set .udpDport none)
    else if proto = ipv4IcmpProto then
      let fields := fields.set .icmpType (some (.data pkt tp))
      let fields := fields.set .icmpCode (some (.data pkt (tp + 1)))
      let fields := fields.set .icmpId (some (.data pkt (tp + 4)))
      let fields := fields.set .icmpSeq (some (.data pkt (tp + 6)))
      let fields := fields.set .icmpPayload (some (.data pkt (tp + 8)))
      let fields := fields.set .udpSport none
      let fields := fields.set .udpDport none
      let fields := fields.set .tcpSport none
      pure (fields.set .tcpDport none)
    else if proto = ipprotoUdp then
      let fields := fields.set .udpSport (some (.data pkt tp))
      let fields := fields.set .udpDport (some (.data pkt (tp + 2)))
      let fields := fields.set .tcpSport none
      let fields := fields.set .tcpDport none
      parseGtp M eth ipv4 tp fields
    else pure fields
  return fields.set .xfsmTimestamp (some (.timestamp pkt))

end Sw

end FlowBlaze
